import Mathlib.Algebra.BigOperators.Group.List.Basic
import Mathlib.Algebra.Ring.Nat
import Mathlib.Order.Nat

/-!
# Blocks in a region, and the gaps between them

What an allocator with an address-ordered free list is about, without the allocator. A region of
addresses from `a` to `e` holds some **blocks**, in ascending order and without overlap (`Packed`).
What lies between them are the **gaps**, and the gaps are a *function* of the blocks: two gaps are
never adjacent, there is nothing to be merged, and with no block left there is one gap.

Stated so, the laws of a coalescing free list need no induction over its history. Taking a block
away joins the gap before it, the block and the gap behind it (`gaps_append` read at `P ++ Q` and at
`P ++ b :: Q`); putting a block in splits a gap (`exists_split_of_gaps`). An allocator is right if
its list is the list of the gaps.

## The two readings of the region

* `fill` interleaves blocks and gaps, and **tiles** the region: every element begins where the one
  before it stops.
* `Chain` is a linked list in a memory: each node has the size of its block, and its link is the
  next node. It is over arbitrary functions `next` and `size`, so a memory model only has to
  supply the two.

Addresses are natural numbers; nothing here knows about words, alignment to eight or a heap.
-/

namespace Extents

/-- A block of addresses: `size` of them from `start` on. -/
structure Extent where
  /-- The first address. -/
  start : ℕ
  /-- How many addresses. -/
  size : ℕ
deriving DecidableEq, Repr

/-- The first address behind the block. -/
def Extent.stop (b : Extent) : ℕ := b.start + b.size

/-- Start and size are multiples of `d`. -/
def Extent.Aligned (d : ℕ) (b : Extent) : Prop := d ∣ b.start ∧ d ∣ b.size

/-- No address belongs to both. -/
def Extent.Apart (b c : Extent) : Prop := b.stop ≤ c.start ∨ c.stop ≤ b.start

instance (b c : Extent) : Decidable (b.Apart c) :=
  inferInstanceAs (Decidable (b.stop ≤ c.start ∨ c.stop ≤ b.start))

theorem Extent.Apart.symm {b c : Extent} (h : b.Apart c) : c.Apart b := Or.symm h

variable {a e p q d : ℕ} {b c g : Extent} {bs cs F G : List Extent}

/-! ### Packed blocks -/

/-- The blocks lie in the region from `a` to `e`, ascending, none empty and none overlapping. -/
def Packed : ℕ → List Extent → ℕ → Prop
  | a, [], e => a ≤ e
  | a, b :: bs, e => a ≤ b.start ∧ 0 < b.size ∧ Packed b.stop bs e

/-- Where the last block stops; `a` if there is none. -/
def lastStop : ℕ → List Extent → ℕ
  | a, [] => a
  | _, b :: bs => lastStop b.stop bs

/-- Where the first block starts; `e` if there is none. -/
def firstStart : List Extent → ℕ → ℕ
  | [], e => e
  | b :: _, _ => b.start

/-- **Blocks are packed in two halves.** -/
theorem packed_append :
    Packed a (bs ++ cs) e ↔ Packed a bs (lastStop a bs) ∧ Packed (lastStop a bs) cs e := by
  induction bs generalizing a with
  | nil =>
    show Packed a cs e ↔ a ≤ a ∧ Packed a cs e
    exact ⟨fun h ↦ ⟨le_rfl, h⟩, And.right⟩
  | cons b bs ih =>
    show (a ≤ b.start ∧ 0 < b.size ∧ Packed b.stop (bs ++ cs) e) ↔
      (a ≤ b.start ∧ 0 < b.size ∧ Packed b.stop bs (lastStop b.stop bs)) ∧
        Packed (lastStop b.stop bs) cs e
    rw [ih, and_assoc, and_assoc]

theorem Packed.le (h : Packed a bs e) : a ≤ e := by
  induction bs generalizing a with
  | nil => exact h
  | cons b bs ih =>
    have hrest : b.stop ≤ e := ih h.2.2
    have hstart : a ≤ b.start := h.1
    rw [Extent.stop] at hrest
    omega

theorem Packed.le_firstStart (h : Packed a bs e) : a ≤ firstStart bs e := by
  cases bs with
  | nil => exact h
  | cons b bs => exact h.1

theorem Packed.firstStart_le (h : Packed a bs e) : firstStart bs e ≤ e := by
  cases bs with
  | nil => exact Nat.le_refl _
  | cons b bs => exact Nat.le_trans (Nat.le_add_right _ _) h.2.2.le

/-- Every block lies in the region. -/
theorem Packed.mem (h : Packed a bs e) (hb : b ∈ bs) :
    a ≤ b.start ∧ 0 < b.size ∧ b.stop ≤ e := by
  induction bs generalizing a with
  | nil => exact absurd hb List.not_mem_nil
  | cons c bs ih =>
    obtain ⟨hstart, hsize, hrest⟩ := h
    rcases List.mem_cons.1 hb with rfl | hb
    · exact ⟨hstart, hsize, hrest.le⟩
    · obtain ⟨hcb, hb', hbe⟩ := ih hrest hb
      refine ⟨?_, hb', hbe⟩
      rw [Extent.stop] at hcb
      omega

/-- Each block stops before the next ones start. -/
theorem Packed.pairwise (h : Packed a bs e) : bs.Pairwise fun b c ↦ b.stop ≤ c.start := by
  induction bs generalizing a with
  | nil => exact List.Pairwise.nil
  | cons b bs ih => exact List.Pairwise.cons (fun c hc ↦ (h.2.2.mem hc).1) (ih h.2.2)

/-- A block overlaps none of the others. -/
theorem Packed.apart_middle (h : Packed a (bs ++ b :: cs) e) (hc : c ∈ bs ++ cs) : b.Apart c := by
  obtain ⟨-, hcons, hbefore⟩ := List.pairwise_append.1 h.pairwise
  rcases List.mem_append.1 hc with hc | hc
  · exact Or.inr (hbefore c hc b List.mem_cons_self)
  · exact Or.inl ((List.pairwise_cons.1 hcons).1 c hc)

/-- What is left when a block is taken away is packed. -/
theorem Packed.erase (h : Packed a (bs ++ b :: cs) e) : Packed a (bs ++ cs) e := by
  obtain ⟨hbs, hstart, -, hcs⟩ := packed_append.1 h
  refine packed_append.2 ⟨hbs, ?_⟩
  cases cs with
  | nil =>
    have hstop : b.start + b.size ≤ e := hcs
    show lastStop a bs ≤ e
    omega
  | cons c cs =>
    obtain ⟨hc, hsize, hrest⟩ := hcs
    refine ⟨?_, hsize, hrest⟩
    rw [Extent.stop] at hc
    omega

/-- A block fits between the two halves if it lies between the last stop and the first start. -/
theorem Packed.insert (h : Packed a (bs ++ cs) e) (hstart : lastStop a bs ≤ b.start)
    (hsize : 0 < b.size) (hstop : b.stop ≤ firstStart cs e) : Packed a (bs ++ b :: cs) e := by
  obtain ⟨hbs, hcs⟩ := packed_append.1 h
  refine packed_append.2 ⟨hbs, hstart, hsize, ?_⟩
  cases cs with
  | nil => exact hstop
  | cons c cs => exact ⟨hstop, hcs.2⟩

/-! ### Gaps -/

/-- The gap from `a` to `b`, if there is one. -/
def gap (a b : ℕ) : List Extent := if a < b then [⟨a, b - a⟩] else []

theorem gap_of_lt (h : p < q) : gap p q = [⟨p, q - p⟩] := if_pos h

theorem gap_of_le (h : q ≤ p) : gap p q = [] := if_neg (Nat.not_lt.2 h)

@[simp] theorem gap_self (p : ℕ) : gap p p = [] := gap_of_le le_rfl

/-- The only element a gap can have. -/
theorem mem_gap : g ∈ gap p q ↔ p < q ∧ g = ⟨p, q - p⟩ := by
  rcases Nat.lt_or_ge p q with h | h
  · rw [gap_of_lt h, List.mem_singleton]
    exact ⟨fun hg ↦ ⟨h, hg⟩, And.right⟩
  · rw [gap_of_le h]
    exact ⟨fun hg ↦ absurd hg List.not_mem_nil, fun hg ↦ absurd hg.1 (Nat.not_lt.2 h)⟩

/-- **The gaps of a region**: before, between and behind its blocks. -/
def gaps : ℕ → List Extent → ℕ → List Extent
  | a, [], e => gap a e
  | a, b :: bs, e => gap a b.start ++ gaps b.stop bs e

/-- The gaps between `a` and the last block. -/
def gapsBefore : ℕ → List Extent → List Extent
  | _, [] => []
  | a, b :: bs => gap a b.start ++ gapsBefore b.stop bs

/-- The gaps between the first block and `e`. -/
def gapsAfter : List Extent → ℕ → List Extent
  | [], _ => []
  | b :: bs, e => gaps b.stop bs e

theorem gaps_eq_gap_append : gaps a bs e = gap a (firstStart bs e) ++ gapsAfter bs e := by
  cases bs with
  | nil => exact (List.append_nil _).symm
  | cons b bs => rfl

/-- **The gaps on either side of a point between two blocks, and the gap there.** -/
theorem gaps_append :
    gaps a (bs ++ cs) e =
      gapsBefore a bs ++ (gap (lastStop a bs) (firstStart cs e) ++ gapsAfter cs e) := by
  induction bs generalizing a with
  | nil => exact gaps_eq_gap_append
  | cons b bs ih =>
    show gap a b.start ++ gaps b.stop (bs ++ cs) e = _
    rw [ih, ← List.append_assoc]
    rfl

/-- **Every gap is the gap between two neighbouring blocks**, or the ends of the region. -/
theorem exists_split_of_gaps (h : gaps a bs e = F ++ g :: G) :
    ∃ P Q, bs = P ++ Q ∧ F = gapsBefore a P ∧ lastStop a P < firstStart Q e ∧
      g = ⟨lastStop a P, firstStart Q e - lastStop a P⟩ ∧ G = gapsAfter Q e := by
  -- The gap is the first one, or it is a gap of the rest of the region.
  have hhead : ∀ {a : ℕ} {bs : List Extent}, gaps a bs e = g :: G →
      a < firstStart bs e → ∃ P Q, bs = P ++ Q ∧ [] = gapsBefore a P ∧
        lastStop a P < firstStart Q e ∧ g = ⟨lastStop a P, firstStart Q e - lastStop a P⟩ ∧
        G = gapsAfter Q e := by
    intro a bs h hlt
    rw [gaps_eq_gap_append, gap_of_lt hlt] at h
    obtain ⟨hg, hG⟩ := List.cons.inj h
    exact ⟨[], bs, rfl, rfl, hlt, hg.symm, hG.symm⟩
  induction bs generalizing a F with
  | nil =>
    rcases Nat.lt_or_ge a e with hlt | hle
    · cases F with
      | nil => exact hhead h hlt
      | cons f F =>
        rw [gaps, gap_of_lt hlt] at h
        exact absurd (List.cons.inj h).2.symm (List.append_ne_nil_of_right_ne_nil _
          (List.cons_ne_nil _ _))
    · rw [gaps, gap_of_le hle] at h
      exact absurd h.symm (List.append_ne_nil_of_right_ne_nil _ (List.cons_ne_nil _ _))
  | cons b bs ih =>
    rcases Nat.lt_or_ge a b.start with hlt | hle
    · cases F with
      | nil => exact hhead h hlt
      | cons f F =>
        rw [gaps, gap_of_lt hlt] at h
        obtain ⟨hf, hrest⟩ := List.cons.inj h
        obtain ⟨P, Q, hbs, hF, hgap⟩ := ih hrest
        refine ⟨b :: P, Q, congrArg (b :: ·) hbs, ?_, hgap⟩
        rw [gapsBefore, gap_of_lt hlt, ← hF, ← hf]
        rfl
    · rw [gaps, gap_of_le hle] at h
      obtain ⟨P, Q, hbs, hF, hgap⟩ := ih h
      refine ⟨b :: P, Q, congrArg (b :: ·) hbs, ?_, hgap⟩
      rw [gapsBefore, gap_of_le hle, ← hF]
      rfl

/-- Every gap lies in the region and is not empty. -/
theorem Packed.mem_gaps (h : Packed a bs e) (hg : g ∈ gaps a bs e) :
    a ≤ g.start ∧ 0 < g.size ∧ g.stop ≤ e := by
  have hgap : ∀ {p q : ℕ}, g ∈ gap p q → p = g.start ∧ 0 < g.size ∧ g.stop = q := by
    intro p q hg
    obtain ⟨hlt, rfl⟩ := mem_gap.1 hg
    exact ⟨rfl, Nat.sub_pos_of_lt hlt, Nat.add_sub_of_le (Nat.le_of_lt hlt)⟩
  induction bs generalizing a with
  | nil =>
    obtain ⟨hstart, hsize, hstop⟩ := hgap hg
    exact ⟨hstart.le, hsize, hstop.le⟩
  | cons b bs ih =>
    obtain ⟨hb, hbsize, hrest⟩ := h
    have hbe : b.start + b.size ≤ e := hrest.le
    rcases List.mem_append.1 hg with hg | hg
    · obtain ⟨hstart, hsize, hstop⟩ := hgap hg
      exact ⟨hstart.le, hsize, by omega⟩
    · obtain ⟨hstart, hsize, hstop⟩ := ih hrest hg
      rw [Extent.stop] at hstart
      exact ⟨by omega, hsize, hstop⟩

/-- A gap behind the first block starts behind it. -/
theorem Packed.mem_gapsAfter (h : Packed a bs e) (hg : g ∈ gapsAfter bs e) :
    firstStart bs e < g.start ∧ g.stop ≤ e := by
  cases bs with
  | nil => exact absurd hg List.not_mem_nil
  | cons b bs =>
    obtain ⟨hstart, -, hstop⟩ := h.2.2.mem_gaps hg
    have hsize : 0 < b.size := h.2.1
    rw [Extent.stop] at hstart
    exact ⟨show b.start < g.start by omega, hstop⟩

/-- A gap before the last block stops before it stops. -/
theorem Packed.mem_gapsBefore (h : Packed a bs e) (hg : g ∈ gapsBefore a bs) :
    a ≤ g.start ∧ g.stop < lastStop a bs := by
  induction bs generalizing a with
  | nil => exact absurd hg List.not_mem_nil
  | cons b bs ih =>
    obtain ⟨hb, hsize, hrest⟩ := h
    have h' := packed_append.1 ((List.append_nil bs).symm ▸ hrest)
    have hstop : b.start + b.size ≤ lastStop b.stop bs := h'.1.le
    rcases List.mem_append.1 hg with hg | hg
    · obtain ⟨hlt, rfl⟩ := mem_gap.1 hg
      refine ⟨le_rfl, ?_⟩
      show a + (b.start - a) < lastStop b.stop bs
      omega
    · obtain ⟨hstart, hlast⟩ := ih hrest hg
      refine ⟨?_, hlast⟩
      rw [Extent.stop] at hstart
      omega

/-- **The gaps ascend, and no two are adjacent.** -/
theorem Packed.pairwise_gaps (h : Packed a bs e) :
    (gaps a bs e).Pairwise fun g g' ↦ g.stop < g'.start := by
  have hone : ∀ p q, (gap p q).Pairwise fun g g' ↦ g.stop < g'.start := by
    intro p q
    rcases Nat.lt_or_ge p q with hlt | hle
    · rw [gap_of_lt hlt]
      exact List.pairwise_singleton _ _
    · rw [gap_of_le hle]
      exact List.Pairwise.nil
  induction bs generalizing a with
  | nil => exact hone a e
  | cons b bs ih =>
    obtain ⟨-, hsize, hrest⟩ := h
    refine List.pairwise_append.2 ⟨hone _ _, ih hrest, fun g hg g' hg' ↦ ?_⟩
    obtain ⟨hlt, rfl⟩ := mem_gap.1 hg
    have hstart : b.start + b.size ≤ g'.start := (hrest.mem_gaps hg').1
    show a + (b.start - a) < g'.start
    omega

/-- No gap stops where a gap starts. -/
theorem Packed.gaps_not_adjacent (h : Packed a bs e) (hg : g ∈ gaps a bs e)
    (hc : c ∈ gaps a bs e) : g.stop ≠ c.start := by
  have hstop : ∀ g : Extent, g.stop = g.start + g.size := fun _ ↦ rfl
  refine List.Pairwise.forall_of_forall_of_flip (R := fun g g' : Extent ↦ g.stop ≠ g'.start)
    (fun g hg ↦ ?_) (h.pairwise_gaps.imp fun hlt ↦ Nat.ne_of_lt hlt)
    (h.pairwise_gaps.imp fun {g g'} hlt ↦ ?_) hg hc
  · have hsize : 0 < g.size := (h.mem_gaps hg).2.1
    rw [hstop]
    omega
  · have hg' := hstop g'
    have hg := hstop g
    show g'.stop ≠ g.start
    omega

/-- **A gap overlaps no block.** -/
theorem Packed.apart_gaps (h : Packed a bs e) (hb : b ∈ bs) (hg : g ∈ gaps a bs e) :
    b.Apart g := by
  induction bs generalizing a with
  | nil => exact absurd hb List.not_mem_nil
  | cons c bs ih =>
    obtain ⟨hc, -, hrest⟩ := h
    rcases List.mem_append.1 hg with hg | hg
    · -- The gap is before the first block.
      obtain ⟨hlt, rfl⟩ := mem_gap.1 hg
      have hbstart : c.start ≤ b.start := by
        rcases List.mem_cons.1 hb with rfl | hb
        · exact Nat.le_refl _
        · exact Nat.le_trans (Nat.le_add_right _ _) (hrest.mem hb).1
      refine Or.inr ?_
      show a + (c.start - a) ≤ b.start
      omega
    · rcases List.mem_cons.1 hb with rfl | hb
      · exact Or.inl (hrest.mem_gaps hg).1
      · exact ih hrest hb hg

/-- The gaps between aligned blocks are aligned. -/
theorem aligned_of_mem_gaps (ha : d ∣ a) (he : d ∣ e) (hbs : ∀ b ∈ bs, b.Aligned d)
    (hg : g ∈ gaps a bs e) : g.Aligned d := by
  have hgap : ∀ {p q : ℕ}, d ∣ p → d ∣ q → g ∈ gap p q → g.Aligned d := by
    intro p q hp hq hg
    obtain ⟨-, rfl⟩ := mem_gap.1 hg
    exact ⟨hp, Nat.dvd_sub hq hp⟩
  induction bs generalizing a with
  | nil => exact hgap ha he hg
  | cons b bs ih =>
    have hb : b.Aligned d := hbs b List.mem_cons_self
    rcases List.mem_append.1 hg with hg | hg
    · exact hgap ha hb.1 hg
    · exact ih (Nat.dvd_add hb.1 hb.2) (fun c hc ↦ hbs c (List.mem_cons_of_mem _ hc)) hg

/-! ### Sizes -/

/-- How many addresses the blocks have together. -/
def total (bs : List Extent) : ℕ := (bs.map Extent.size).sum

@[simp] theorem total_cons (b : Extent) (bs : List Extent) : total (b :: bs) = b.size + total bs :=
  List.sum_cons

@[simp] theorem total_append (bs cs : List Extent) : total (bs ++ cs) = total bs + total cs := by
  rw [total, List.map_append, List.sum_append]
  rfl

@[simp] theorem total_gap (p q : ℕ) : total (gap p q) = q - p := by
  rcases Nat.lt_or_ge p q with h | h
  · rw [gap_of_lt h]
    rfl
  · rw [gap_of_le h, Nat.sub_eq_zero_of_le h]
    rfl

/-- There are no more blocks than addresses in them. -/
theorem length_le_total (h : ∀ b ∈ bs, 0 < b.size) : bs.length ≤ total bs := by
  induction bs with
  | nil => exact Nat.le_refl _
  | cons b bs ih =>
    have hb : 0 < b.size := h b List.mem_cons_self
    have hrest : bs.length ≤ total bs := ih fun c hc ↦ h c (List.mem_cons_of_mem _ hc)
    rw [List.length_cons, total_cons]
    omega

/-! ### Tilings -/

/-- The blocks cover the region from `a` to `e` and nothing else: the first starts at `a`, each of
the others where the one before it stops, and the last stops at `e`. -/
def Tiles : ℕ → List Extent → ℕ → Prop
  | a, [], e => a = e
  | a, b :: bs, e => b.start = a ∧ Tiles b.stop bs e

theorem tiles_append : Tiles a (bs ++ cs) e ↔ ∃ m, Tiles a bs m ∧ Tiles m cs e := by
  induction bs generalizing a with
  | nil => exact ⟨fun h ↦ ⟨a, rfl, h⟩, fun ⟨_, hm, h⟩ ↦ hm ▸ h⟩
  | cons b bs ih =>
    show (b.start = a ∧ Tiles b.stop (bs ++ cs) e) ↔ ∃ m, (b.start = a ∧ Tiles b.stop bs m) ∧ _
    rw [ih]
    exact ⟨fun ⟨hb, m, h⟩ ↦ ⟨m, ⟨hb, h.1⟩, h.2⟩, fun ⟨m, ⟨hb, h⟩, h'⟩ ↦ ⟨hb, m, h, h'⟩⟩

theorem tiles_gap (h : p ≤ q) : Tiles p (gap p q) q := by
  rcases Nat.lt_or_eq_of_le h with hlt | rfl
  · rw [gap_of_lt hlt]
    exact ⟨rfl, Nat.add_sub_of_le h⟩
  · rw [gap_self]
    rfl

theorem Tiles.total_add (h : Tiles a bs e) : a + total bs = e := by
  induction bs generalizing a with
  | nil => exact h
  | cons b bs ih =>
    obtain ⟨rfl, hrest⟩ := h
    have hsum : b.start + b.size + total bs = e := ih hrest
    rw [total_cons]
    omega

/-- Blocks and gaps in the order of their addresses. -/
def fill : ℕ → List Extent → ℕ → List Extent
  | a, [], e => gap a e
  | a, b :: bs, e => gap a b.start ++ b :: fill b.stop bs e

theorem fill_perm (a : ℕ) (bs : List Extent) (e : ℕ) :
    (fill a bs e).Perm (gaps a bs e ++ bs) := by
  induction bs generalizing a with
  | nil => rw [fill, gaps, List.append_nil]
  | cons b bs ih =>
    rw [fill, gaps, List.append_assoc]
    exact ((ih b.stop).cons b |>.trans List.perm_middle.symm).append_left _

/-- **Blocks and gaps tile the region.** -/
theorem Packed.tiles_fill (h : Packed a bs e) : Tiles a (fill a bs e) e := by
  induction bs generalizing a with
  | nil => exact tiles_gap h
  | cons b bs ih =>
    obtain ⟨hb, -, hrest⟩ := h
    exact tiles_append.2 ⟨b.start, tiles_gap hb, rfl, ih hrest⟩

/-- The gaps are no larger than the region. -/
theorem Packed.total_gaps_le (h : Packed a bs e) : a + total (gaps a bs e) ≤ e := by
  have hsum : a + total (fill a bs e) = e := h.tiles_fill.total_add
  have hperm : total (fill a bs e) = total (gaps a bs e ++ bs) :=
    ((fill_perm a bs e).map Extent.size).sum_eq
  rw [total_append] at hperm
  omega

/-! ### Linked lists of blocks -/

section Chain

variable {next next' size size' : ℕ → ℕ}

/-- Following the links from `p`, one finds the nodes `bs`, each with the size of its block, and
comes to `e`. -/
def Chain (next size : ℕ → ℕ) : ℕ → List Extent → ℕ → Prop
  | p, [], e => p = e
  | p, b :: bs, e => b.start = p ∧ size p = b.size ∧ Chain next size (next p) bs e

/-- **The seam of a linked list.** -/
theorem chain_append :
    Chain next size p (bs ++ cs) e ↔ ∃ q, Chain next size p bs q ∧ Chain next size q cs e := by
  induction bs generalizing p with
  | nil => exact ⟨fun h ↦ ⟨p, rfl, h⟩, fun ⟨_, hq, h⟩ ↦ hq ▸ h⟩
  | cons b bs ih =>
    show (b.start = p ∧ size p = b.size ∧ Chain next size (next p) (bs ++ cs) e) ↔ _
    rw [ih]
    exact ⟨fun ⟨hb, hs, q, h, h'⟩ ↦ ⟨q, ⟨hb, hs, h⟩, h'⟩,
      fun ⟨q, ⟨hb, hs, h⟩, h'⟩ ↦ ⟨hb, hs, q, h, h'⟩⟩

/-- A linked list depends on the fields of its nodes only. -/
theorem Chain.congr (h : Chain next size p bs e)
    (hnodes : ∀ b ∈ bs, next' b.start = next b.start ∧ size' b.start = size b.start) :
    Chain next' size' p bs e := by
  induction bs generalizing p with
  | nil => exact h
  | cons b bs ih =>
    obtain ⟨rfl, hsize, hrest⟩ := h
    obtain ⟨hnext', hsize'⟩ := hnodes b List.mem_cons_self
    refine ⟨rfl, hsize'.trans hsize, ?_⟩
    rw [hnext']
    exact ih hrest fun c hc ↦ hnodes c (List.mem_cons_of_mem _ hc)

/-- Where a linked list begins. -/
theorem Chain.eq_firstStart (h : Chain next size p bs e) : p = firstStart bs e := by
  cases bs with
  | nil => exact h
  | cons b bs => exact h.1.symm

end Chain

end Extents
