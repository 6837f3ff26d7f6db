import YHAudioLink.Foundation.Extents
import YHAudioLink.Mem.LibMem
import Mathlib.Data.List.Nodup

/-!
# The free list

What the two list walks find, and what inserting and unlinking a block do to the list, as one law
each. The nodes of the list are `xStart`, as a block of size zero, and the free blocks behind it; so
`xStart` needs no case of its own.

* `insertIterator_eq`, `findFit_eq`: the walks return within their fuel, with the node they are
  meant to find.
* `relink`: **a link written into a node replaces everything behind it.** Unlinking a block and
  linking one in are both this.
* `prvInsertBlockIntoFreeList_spec`: inserting a block `b` that lies in a hole between `u` and `v`
  puts the *whole hole* into the list in place of what of it was free before. The four ways of
  merging are the four cases of `gap u b.start` and `gap b.stop v` being empty or not, and the law
  does not mention them.
* `Between.takeBlock_spec`: taking a block out of the list, whole or cut in two (`Between.cut`).

Each law has its **frame**: the headers it writes. Every other byte is left alone.
-/

namespace YHAudioLink

open Extents

variable {L : Placement} {m : ℕ → UInt8} {p q u v e blk it fuel : ℕ} {b c g x : Extent}
  {B F G M : List Extent}

/-- Following the links from `p` one finds `bs`, and comes to `e`. -/
abbrev FreeChain (m : ℕ → UInt8) : ℕ → List Extent → ℕ → Prop :=
  Chain (pxNextFreeBlock m) (xBlockSize m)

/-- The nodes have headers, and these are different ones. -/
structure Nodes (L : Placement) (bs : List Extent) : Prop where
  isHeader : ∀ b ∈ bs, L.IsHeader b.start
  nodup : (bs.map Extent.start).Nodup

theorem Nodes.sublist (h : Nodes L F) (hsub : G.Sublist F) : Nodes L G where
  isHeader b hb := h.isHeader b (hsub.subset hb)
  nodup := h.nodup.sublist (hsub.map _)

theorem Nodes.perm (h : Nodes L F) (hperm : G.Perm F) : Nodes L G where
  isHeader b hb := h.isHeader b (hperm.subset hb)
  nodup := (hperm.map Extent.start).nodup_iff.2 h.nodup

theorem Nodes.cons (h : Nodes L F) (hx : L.IsHeader x.start) (hne : ∀ b ∈ F, b.start ≠ x.start) :
    Nodes L (x :: F) where
  isHeader b hb := by
    rcases List.mem_cons.1 hb with rfl | hb
    · exact hx
    · exact h.isHeader b hb
  nodup := by
    refine List.nodup_cons.2 ⟨fun hmem ↦ ?_, h.nodup⟩
    obtain ⟨b, hb, heq⟩ := List.mem_map.1 hmem
    exact hne b hb heq

theorem Nodes.tail (h : Nodes L (x :: F)) : Nodes L F := h.sublist (List.sublist_cons_self x F)

/-- A node is at another address than the others. -/
theorem Nodes.ne_head (h : Nodes L (x :: F)) (hb : b ∈ F) : b.start ≠ x.start := fun heq ↦
  (List.nodup_cons.1 h.nodup).1 (heq ▸ List.mem_map_of_mem hb)

theorem Nodes.ne_middle (h : Nodes L (M ++ x :: F)) (hb : b ∈ M ++ F) : b.start ≠ x.start :=
  (h.perm List.perm_middle.symm).ne_head hb

/-- The nodes matter only through their addresses. -/
theorem Nodes.congr_head (h : Nodes L (b :: F)) (hstart : c.start = b.start) :
    Nodes L (c :: F) :=
  h.tail.cons (hstart ▸ h.isHeader b List.mem_cons_self) fun _ hd ↦ hstart ▸ h.ne_head hd

/-- The addresses of the nodes. -/
def startsOf (bs : List Extent) : Set ℕ := {q | ∃ b ∈ bs, b.start = q}

theorem start_mem_startsOf (hb : b ∈ F) : b.start ∈ startsOf F := ⟨b, hb, rfl⟩

theorem notMem_startsOf (h : ∀ b ∈ F, q ≠ b.start) : q ∉ startsOf F := by
  rintro ⟨b, hb, heq⟩
  exact h b hb heq.symm

theorem Nodes.isHeader_of_mem_startsOf (h : Nodes L F) : ∀ p ∈ startsOf F, L.IsHeader p := by
  rintro p ⟨b, hb, rfl⟩
  exact h.isHeader b hb

/-! ### The two walks -/

/-- The last node of a list that has a first one, and what follows it. -/
theorem exists_getLast (c : Extent) (B : List Extent) :
    ∃ M x, (c :: B).getLast (List.cons_ne_nil _ _) = x ∧ x ∈ c :: B ∧
      ∀ F, c :: (B ++ F) = M ++ x :: F := by
  refine ⟨(c :: B).dropLast, _, rfl, List.getLast_mem _, fun F ↦ ?_⟩
  rw [List.append_cons, List.dropLast_append_getLast (List.cons_ne_nil c B)]
  rfl

theorem le_firstStart (hF : ∀ g ∈ F, p ≤ g.start) (he : p ≤ e) : p ≤ firstStart F e := by
  cases F with
  | nil => exact he
  | cons g F => exact hF g List.mem_cons_self

/-- **The insertion point** is the last node below the block. -/
theorem insertIterator_eq (h : FreeChain m p (c :: (B ++ F)) e) (hB : ∀ g ∈ B, g.start < blk)
    (hF : blk ≤ firstStart F e) (hfuel : B.length < fuel) :
    insertIterator m blk fuel p = some ((c :: B).getLast (List.cons_ne_nil _ _)).start := by
  induction B generalizing c p fuel with
  | nil =>
    obtain ⟨hc, -, hrest⟩ := h
    obtain ⟨fuel, rfl⟩ := Nat.exists_eq_succ_of_ne_zero hfuel.ne'
    have hnext : pxNextFreeBlock m p = firstStart F e := hrest.eq_firstStart
    rw [insertIterator, if_neg (by omega), ← hc]
    rfl
  | cons b B ih =>
    obtain ⟨-, -, hrest⟩ := h
    obtain ⟨fuel, rfl⟩ := Nat.exists_eq_succ_of_ne_zero (Nat.ne_of_gt (Nat.zero_lt_of_lt hfuel))
    have hnext : b.start = pxNextFreeBlock m p := hrest.1
    have hlt : b.start < blk := hB b List.mem_cons_self
    rw [insertIterator, if_pos (by omega), List.getLast_cons_cons]
    exact ih hrest (fun g hg ↦ hB g (List.mem_cons_of_mem _ hg)) (Nat.lt_of_succ_lt_succ hfuel)

/-- **The first fit**: the first block that is large enough, and the node before it. -/
theorem findFit_eq {want : ℕ} (h : FreeChain m p (B ++ g :: F) e) (hB : ∀ b ∈ B, b.size < want)
    (hg : want ≤ g.size) (hstart : ∀ b ∈ B ++ g :: F, 0 < b.start) (hfuel : B.length < fuel) :
    findFit m want fuel c.start p =
      some (((c :: B).getLast (List.cons_ne_nil _ _)).start, g.start) := by
  induction B generalizing c p fuel with
  | nil =>
    obtain ⟨hp, hsize, -⟩ := h
    obtain ⟨fuel, rfl⟩ := Nat.exists_eq_succ_of_ne_zero hfuel.ne'
    rw [findFit, if_neg (by omega), hp]
    rfl
  | cons b B ih =>
    obtain ⟨hp, hsize, hrest⟩ := h
    obtain ⟨fuel, rfl⟩ := Nat.exists_eq_succ_of_ne_zero (Nat.ne_of_gt (Nat.zero_lt_of_lt hfuel))
    have hsmall : b.size < want := hB b List.mem_cons_self
    have hnext : 0 < pxNextFreeBlock m p := by
      rw [hrest.eq_firstStart]
      cases B with
      | nil => exact hstart g (List.mem_cons_of_mem _ List.mem_cons_self)
      | cons b' B => exact hstart b' (List.mem_cons_of_mem _ List.mem_cons_self)
    rw [findFit, if_pos ⟨by omega, hnext.ne'⟩, List.getLast_cons_cons, ← hp]
    exact ih (hp ▸ hrest) (fun g hg ↦ hB g (List.mem_cons_of_mem _ hg))
      (fun g hg ↦ hstart g (List.mem_cons_of_mem _ hg)) (Nat.lt_of_succ_lt_succ hfuel)

/-- **No fit**: the walk comes to the end marker, and stops there. -/
theorem findFit_eq_end {want : ℕ} (h : FreeChain m p B e) (hB : ∀ b ∈ B, b.size < want)
    (hstart : ∀ b ∈ B, 0 < b.start) (he : 0 < e) (hstop : pxNextFreeBlock m e = 0)
    (hfuel : B.length < fuel) : ∃ prev', findFit m want fuel q p = some (prev', e) := by
  induction B generalizing p q fuel with
  | nil =>
    obtain ⟨fuel, rfl⟩ := Nat.exists_eq_succ_of_ne_zero hfuel.ne'
    have hp : p = e := h
    refine ⟨q, ?_⟩
    rw [findFit, hp, if_neg fun hand ↦ hand.2 hstop]
  | cons b B ih =>
    obtain ⟨hp, hsize, hrest⟩ := h
    obtain ⟨fuel, rfl⟩ := Nat.exists_eq_succ_of_ne_zero (Nat.ne_of_gt (Nat.zero_lt_of_lt hfuel))
    have hsmall : b.size < want := hB b List.mem_cons_self
    have hnext : 0 < pxNextFreeBlock m p := by
      rw [hrest.eq_firstStart]
      exact le_firstStart (fun g hg ↦ hstart g (List.mem_cons_of_mem _ hg)) he
    rw [findFit, if_pos ⟨by omega, hnext.ne'⟩]
    exact ih hrest (fun g hg ↦ hB g (List.mem_cons_of_mem _ hg))
      (fun g hg ↦ hstart g (List.mem_cons_of_mem _ hg)) (Nat.lt_of_succ_lt_succ hfuel)

/-! ### Writing a link -/

/-- A list none of whose nodes is at `q` survives a link written at `q`. -/
theorem FreeChain.setNextFreeBlock (h : FreeChain m p F e) (hq : L.IsHeader q)
    (hF : ∀ b ∈ F, L.IsHeader b.start ∧ b.start ≠ q) :
    FreeChain (setNextFreeBlock m q v) p F e :=
  Chain.congr h fun b hb ↦ sameHeader_setNextFreeBlock hq (hF b hb).1 (hF b hb).2

/-- A list none of whose nodes is at `q` survives a size written at `q`. -/
theorem FreeChain.setBlockSize (h : FreeChain m p F e) (hq : L.IsHeader q)
    (hF : ∀ b ∈ F, L.IsHeader b.start ∧ b.start ≠ q) :
    FreeChain (setBlockSize m q v) p F e :=
  Chain.congr h fun b hb ↦ sameHeader_setBlockSize hq (hF b hb).1 (hF b hb).2

/-- **A link written into a node replaces everything behind it.** -/
theorem relink (hM : FreeChain m p M x.start) (hx : xBlockSize m x.start = x.size)
    (hF : FreeChain m v F e) (hnodes : Nodes L (M ++ x :: F)) (hv : v < 2 ^ 32) :
    FreeChain (setNextFreeBlock m x.start v) p (M ++ x :: F) e := by
  have hheader : L.IsHeader x.start :=
    hnodes.isHeader x (List.mem_append_right _ List.mem_cons_self)
  have hother : ∀ b ∈ M ++ F, L.IsHeader b.start ∧ b.start ≠ x.start := fun b hb ↦
    ⟨hnodes.isHeader b (List.perm_middle.symm.subset (List.mem_cons_of_mem _ hb)),
      hnodes.ne_middle hb⟩
  refine chain_append.2 ⟨x.start, ?_, rfl, ?_, ?_⟩
  · exact hM.setNextFreeBlock hheader fun b hb ↦ hother b (List.mem_append_left _ hb)
  · rw [xBlockSize_setNextFreeBlock, hx]
  · rw [pxNextFreeBlock_setNextFreeBlock hv]
    exact hF.setNextFreeBlock hheader fun b hb ↦ hother b (List.mem_append_right _ hb)

/-! ### Inserting a block -/

/-- **Linking backwards.** A block that stops at or before `v`, with nothing allocated in between,
reaches to `v` afterwards, and what follows `v` follows it. -/
theorem linkBack_spec (hit : L.IsHeader it) (hsize : xBlockSize m b.start = b.size)
    (hpos : 0 < b.size) (hchain : FreeChain m (pxNextFreeBlock m it) (gap b.stop v ++ G) e)
    (hnodes : Nodes L (b :: (gap b.stop v ++ G))) (hbv : b.stop ≤ v)
    (hG : ∀ g ∈ G, v < g.start) (hve : v ≤ e) (he : e < 2 ^ 32) :
    FreeChain (linkBack m e it b.start) b.start (⟨b.start, v - b.start⟩ :: G) e ∧
      SameOutside {b.start} m (linkBack m e it b.start) := by
  have hb : L.IsHeader b.start := hnodes.isHeader b List.mem_cons_self
  have hstop : b.start + b.size = b.stop := rfl
  have hadd : add32 b.start (xBlockSize m b.start) = b.stop := by
    rw [hsize]
    exact add32_eq (by omega)
  rcases Nat.lt_or_eq_of_le hbv with hlt | heq
  · -- A free block follows directly; the end marker lies behind it.
    rw [gap_of_lt hlt] at hchain hnodes
    obtain ⟨hx, hxsize, hrest⟩ := hchain
    have hx : pxNextFreeBlock m it = b.stop := hx.symm
    have hxsize : xBlockSize m b.stop = v - b.stop := by rwa [hx] at hxsize
    have hxnode : (⟨b.stop, v - b.stop⟩ : Extent) ∈ [⟨b.stop, v - b.stop⟩] ++ G :=
      List.mem_cons_self
    have hxheader : L.IsHeader b.stop := hnodes.isHeader _ (List.mem_cons_of_mem _ hxnode)
    have hsum : add32 (xBlockSize m b.start) (xBlockSize m b.stop) = v - b.start := by
      rw [hsize, hxsize, add32_eq (by omega)]
      omega
    have hitlink : ∀ s, pxNextFreeBlock (setBlockSize m b.start s) it = b.stop := by
      intro s
      by_cases hb' : it = b.start
      · rw [hb', pxNextFreeBlock_setBlockSize, ← hb', hx]
      · rw [(sameHeader_setBlockSize hb hit hb').1, hx]
    have hxlink : ∀ s, pxNextFreeBlock (setBlockSize m b.start s) b.stop =
        pxNextFreeBlock m b.stop := fun s ↦
      (sameHeader_setBlockSize hb hxheader (by omega)).1
    have hlink : linkBack m e it b.start =
        setNextFreeBlock (setBlockSize m b.start (v - b.start)) b.start
          (pxNextFreeBlock m b.stop) := by
      rw [linkBack, hadd, hx, if_pos rfl, if_pos (by omega)]
      simp only [hsum, hitlink, hxlink]
    rw [hlink]
    have hGnodes : Nodes L (b :: G) :=
      hnodes.sublist ((List.sublist_cons_self _ G).cons_cons b)
    constructor
    · refine relink (M := []) rfl ?_ ?_ (hGnodes.congr_head rfl) (pxNextFreeBlock_lt _ _)
      · exact xBlockSize_setBlockSize (by omega)
      · rw [hx] at hrest
        exact FreeChain.setBlockSize hrest hb fun g hg ↦
          ⟨hGnodes.isHeader g (List.mem_cons_of_mem _ hg), hGnodes.ne_head hg⟩
    · exact (SameOutside.setBlockSize (Set.mem_singleton _)).trans
        (.setNextFreeBlock (Set.mem_singleton _))
  · -- Nothing free follows directly. If the next node is there all the same, it is the end marker.
    rw [gap_of_le heq.ge] at hchain hnodes
    have hlink : linkBack m e it b.start =
        setNextFreeBlock m b.start (pxNextFreeBlock m it) := by
      rw [linkBack, hadd]
      split
      · next hadj =>
        have hend : pxNextFreeBlock m it = e := by
          cases G with
          | nil => exact hchain
          | cons g G =>
            have hg : g.start = pxNextFreeBlock m it := hchain.1
            have hlt : v < g.start := hG g List.mem_cons_self
            omega
        rw [if_neg (not_not.2 hend), hend]
      · rfl
    rw [hlink]
    constructor
    · refine relink (M := []) (x := ⟨b.start, v - b.start⟩) rfl ?_ hchain
        (hnodes.congr_head rfl) (pxNextFreeBlock_lt _ _)
      show xBlockSize m b.start = v - b.start
      omega
    · exact .setNextFreeBlock rfl

/-- A free block that stops where the inserted one starts takes it in, and reaches to `v`. -/
theorem insertAfter_adjacent
    (hchain : FreeChain m p (M ++ ⟨u, b.start - u⟩ :: (gap b.stop v ++ G)) e)
    (hnodes : Nodes L (M ++ ⟨u, b.start - u⟩ :: (gap b.stop v ++ G)))
    (hsize : xBlockSize m b.start = b.size) (hpos : 0 < b.size) (hub : u < b.start)
    (hbv : b.stop ≤ v) (hG : ∀ g ∈ G, v < g.start) (hve : v ≤ e) (he : e < 2 ^ 32) :
    FreeChain (insertAfter m e u b.start) p (M ++ ⟨u, v - u⟩ :: G) e ∧
      SameOutside {u} m (insertAfter m e u b.start) := by
  obtain ⟨q, hM, rfl, husize, hrest⟩ := chain_append.1 hchain
  have hstop : b.start + b.size = b.stop := rfl
  have husize : xBlockSize m u = b.start - u := husize
  have hu : L.IsHeader u :=
    hnodes.isHeader ⟨u, b.start - u⟩ (List.mem_append_right _ List.mem_cons_self)
  have hmerge : mergeFront m u b.start = (setBlockSize m u (b.stop - u), u) := by
    have hsum : b.start - u + b.size = b.stop - u := by omega
    rw [mergeFront, husize, hsize, add32_eq (by omega), if_pos (by omega),
      add32_eq (by omega), hsum]
  -- From here on the block is the two together.
  have husum : b.stop - u < 2 ^ 32 := by omega
  have hustop : (⟨u, b.stop - u⟩ : Extent).stop = b.stop := by
    show u + (b.stop - u) = b.stop
    omega
  have hbehind : Nodes L (⟨u, b.stop - u⟩ :: (gap b.stop v ++ G)) :=
    (hnodes.sublist (List.sublist_append_right _ _)).congr_head rfl
  have hbefore : ∀ g ∈ M, L.IsHeader g.start ∧ g.start ≠ u := fun g hg ↦
    ⟨hnodes.isHeader g (List.mem_append_left _ hg),
      hnodes.ne_middle (List.mem_append_left _ hg)⟩
  have hrest' : FreeChain (setBlockSize m u (b.stop - u))
      (pxNextFreeBlock (setBlockSize m u (b.stop - u)) u) (gap b.stop v ++ G) e := by
    rw [pxNextFreeBlock_setBlockSize]
    exact FreeChain.setBlockSize hrest hu fun g hg ↦
      ⟨hbehind.isHeader g (List.mem_cons_of_mem _ hg), hbehind.ne_head hg⟩
  obtain ⟨hback, hframe⟩ := linkBack_spec (b := ⟨u, b.stop - u⟩) hu
    (xBlockSize_setBlockSize husum) (show 0 < b.stop - u by omega)
    (by rwa [hustop]) (by rwa [hustop]) (by rwa [hustop]) hG hve he
  have hinsert : insertAfter m e u b.start = linkBack (setBlockSize m u (b.stop - u)) e u u := by
    simp only [insertAfter, hmerge]
    exact if_neg (not_not.2 rfl)
  rw [hinsert]
  have hsame : SameOutside {u} m (linkBack (setBlockSize m u (b.stop - u)) e u u) :=
    (SameOutside.setBlockSize (Set.mem_singleton u)).trans hframe
  refine ⟨chain_append.2 ⟨u, ?_, hback⟩, hsame⟩
  exact Chain.congr hM fun g hg ↦
    hsame.sameHeader (forall_eq.2 hu) (hbefore g hg).1 (hbefore g hg).2

/-- A node that stops elsewhere is linked to the inserted block, which reaches to `v`. -/
theorem insertAfter_apart
    (hchain : FreeChain m p (M ++ x :: (gap b.stop v ++ G)) e)
    (hnodes : Nodes L (b :: (M ++ x :: (gap b.stop v ++ G))))
    (hsize : xBlockSize m b.start = b.size) (hpos : 0 < b.size) (hx : x.stop ≠ b.start)
    (hxlt : x.stop < 2 ^ 32) (hbv : b.stop ≤ v) (hG : ∀ g ∈ G, v < g.start) (hve : v ≤ e)
    (he : e < 2 ^ 32) :
    FreeChain (insertAfter m e x.start b.start) p (M ++ x :: ⟨b.start, v - b.start⟩ :: G) e ∧
      SameOutside {b.start, x.start} m (insertAfter m e x.start b.start) := by
  obtain ⟨q, hM, rfl, hxsize, hrest⟩ := chain_append.1 hchain
  have hxstop : x.start + x.size = x.stop := rfl
  have hxmem : x ∈ M ++ x :: (gap b.stop v ++ G) := List.mem_append_right _ List.mem_cons_self
  have hxheader : L.IsHeader x.start := hnodes.isHeader x (List.mem_cons_of_mem _ hxmem)
  have hbheader : L.IsHeader b.start := hnodes.isHeader b List.mem_cons_self
  have hxb : x.start ≠ b.start := hnodes.ne_head hxmem
  have hmerge : mergeFront m x.start b.start = (m, b.start) := by
    rw [mergeFront, hxsize, add32_eq (by omega), hxstop, if_neg hx]
  obtain ⟨hback, hframe⟩ := linkBack_spec hxheader hsize hpos hrest
    (hnodes.sublist (((List.sublist_cons_self x _).trans
      (List.sublist_append_right M _)).cons_cons b)) hbv hG hve he
  have hinsert : insertAfter m e x.start b.start =
      setNextFreeBlock (linkBack m e x.start b.start) x.start b.start := by
    simp only [insertAfter, hmerge]
    exact if_pos hxb
  rw [hinsert]
  -- The nodes behind the call: the hole is one of them, at the address of the block.
  have hnodes' : Nodes L (M ++ x :: ⟨b.start, v - b.start⟩ :: G) := by
    have hfew : Nodes L (b :: (M ++ x :: G)) := hnodes.sublist
      ((((List.sublist_append_right _ G).cons_cons x).append_left M).cons_cons b)
    have hhole : Nodes L (⟨b.start, v - b.start⟩ :: (M ++ x :: G)) := hfew.congr_head rfl
    rw [List.append_cons] at hhole ⊢
    exact hhole.perm List.perm_middle
  constructor
  · have hblt := hbheader.lt
    refine relink ?_ ?_ hback hnodes' (by omega)
    · exact Chain.congr hM fun g hg ↦ hframe.sameHeader (forall_eq.2 hbheader)
        (hnodes.isHeader g (List.mem_cons_of_mem _ (List.mem_append_left _ hg)))
        (hnodes.ne_head (List.mem_append_left _ hg))
    · rw [(hframe.sameHeader (forall_eq.2 hbheader) hxheader hxb).2, hxsize]
  · exact (hframe.mono (by simp)).trans (.setNextFreeBlock (by simp))

/-- **Inserting a block.** It lies in a hole from `u` to `v`, whose bytes on either side of it are
free already; behind the call the list has the whole hole as one block. -/
theorem prvInsertBlockIntoFreeList_spec
    (hchain : FreeChain m L.xStart
      (⟨L.xStart, 0⟩ :: ((B ++ gap u b.start) ++ (gap b.stop v ++ G))) e)
    (hnodes : Nodes L
      (b :: ⟨L.xStart, 0⟩ :: ((B ++ gap u b.start) ++ (gap b.stop v ++ G))))
    (hsize : xBlockSize m b.start = b.size) (hpos : 0 < b.size) (hub : u ≤ b.start)
    (hbv : b.stop ≤ v) (hB : ∀ g ∈ B, g.stop < u) (hG : ∀ g ∈ G, v < g.start) (hve : v ≤ e)
    (he : e < 2 ^ 32) (hfuel : (B ++ gap u b.start).length < walkFuel) :
    ∃ m', prvInsertBlockIntoFreeList L m e b.start = some m' ∧
      FreeChain m' L.xStart (⟨L.xStart, 0⟩ :: (B ++ ⟨u, v - u⟩ :: G)) e ∧
      SameOutside (startsOf (⟨L.xStart, 0⟩ :: (B ++ ⟨u, v - u⟩ :: G))) m m' := by
  have hstop : b.start + b.size = b.stop := rfl
  have hbelow : ∀ g ∈ B ++ gap u b.start, g.start < b.start := by
    intro g hg
    rcases List.mem_append.1 hg with hg | hg
    · have hlt : g.start + g.size < u := hB g hg
      omega
    · obtain ⟨hlt, rfl⟩ := mem_gap.1 hg
      exact hlt
  have habove : b.start ≤ firstStart (gap b.stop v ++ G) e := by
    refine le_firstStart (fun g hg ↦ ?_) (by omega)
    rcases List.mem_append.1 hg with hg | hg
    · obtain ⟨-, rfl⟩ := mem_gap.1 hg
      exact Nat.le_add_right _ _
    · have hlt : v < g.start := hG g hg
      omega
  have hiter := insertIterator_eq hchain hbelow habove hfuel
  rw [prvInsertBlockIntoFreeList, hiter]
  refine ⟨_, rfl, ?_⟩
  rcases Nat.lt_or_eq_of_le hub with hlt | rfl
  · -- The node found is the free block that stops where the block starts.
    rw [gap_of_lt hlt, List.append_assoc] at hchain hnodes
    have hlast : ((⟨L.xStart, 0⟩ :: (B ++ gap u b.start) : List Extent).getLast
        (List.cons_ne_nil _ _)).start = u := by
      simp only [gap_of_lt hlt]
      rw [List.getLast_cons (by simp), List.getLast_concat]
    rw [hlast]
    obtain ⟨hafter, hframe⟩ := insertAfter_adjacent (M := ⟨L.xStart, 0⟩ :: B) hchain
      (hnodes.tail) hsize hpos hlt hbv hG hve he
    refine ⟨hafter, hframe.mono (Set.singleton_subset_iff.2 ?_)⟩
    exact start_mem_startsOf (b := ⟨u, v - u⟩) (by simp)
  · -- Nothing free lies directly before the block; the node found is the last one before it.
    rw [gap_self, List.append_nil] at hchain hnodes
    simp only [gap_self, List.append_nil]
    obtain ⟨M, x, hx, hmem, hlist⟩ := exists_getLast ⟨L.xStart, 0⟩ B
    rw [hlist] at hchain hnodes
    rw [hx, hlist]
    have hxstop : x.stop ≠ b.start ∧ x.stop < 2 ^ 32 := by
      rcases List.mem_cons.1 hmem with rfl | hmem
      · have hne : L.xStart ≠ b.start :=
          hnodes.ne_head (List.mem_append_right _ List.mem_cons_self)
        have hfits := L.isHeader_xStart.lt
        exact ⟨hne, show L.xStart < 2 ^ 32 by omega⟩
      · have hlt : x.stop < b.start := hB x hmem
        omega
    obtain ⟨hafter, hframe⟩ :=
      insertAfter_apart hchain hnodes hsize hpos hxstop.1 hxstop.2 hbv hG hve he
    refine ⟨hafter, hframe.mono (Set.pair_subset ?_ ?_)⟩
    · exact start_mem_startsOf (b := ⟨b.start, v - b.start⟩) (by simp)
    · exact start_mem_startsOf (b := x) (by simp)

/-- **The hole begins where the block did, or the free block before it**: no node behind the call
has an address that was not a node's or the block's. -/
theorem exists_start_eq (hub : u ≤ b.start)
    (hc : c ∈ x :: (B ++ ⟨u, v - u⟩ :: G)) :
    ∃ d ∈ b :: x :: ((B ++ gap u b.start) ++ (gap b.stop v ++ G)), d.start = c.start := by
  simp only [List.mem_cons, List.mem_append] at hc ⊢
  rcases hc with hc | hc | rfl | hc
  · exact ⟨c, Or.inr (Or.inl hc), rfl⟩
  · exact ⟨c, Or.inr (Or.inr (Or.inl (Or.inl hc))), rfl⟩
  · rcases Nat.lt_or_eq_of_le hub with hlt | rfl
    · exact ⟨⟨u, b.start - u⟩, Or.inr (Or.inr (Or.inl (Or.inr (mem_gap.2 ⟨hlt, rfl⟩)))), rfl⟩
    · exact ⟨b, Or.inl rfl, rfl⟩
  · exact ⟨c, Or.inr (Or.inr (Or.inr (Or.inr hc))), rfl⟩

/-! ### Taking a block out -/

/-- How much of a block goes out when `want` bytes are wanted: these, or all of it if the rest is
not worth a block of its own. -/
def keptSize (want size : ℕ) : ℕ := if heapMinimumBlockSize < size - want then want else size

theorem keptSize_spec {want size : ℕ} (hwant : want ≤ size) (h8 : 8 ∣ want) (hsize8 : 8 ∣ size) :
    want ≤ keptSize want size ∧ keptSize want size ≤ size ∧ 8 ∣ keptSize want size := by
  rw [keptSize]
  split
  · exact ⟨Nat.le_refl _, hwant, h8⟩
  · exact ⟨hwant, Nat.le_refl _, hsize8⟩

/-- An aligned block of the array that lies, without touching them, between the nodes `B` and `G` of
a free list that ends at `e`. -/
structure Between (L : Placement) (B : List Extent) (g : Extent) (G : List Extent) (e : ℕ) :
    Prop where
  nodes : Nodes L (g :: ⟨L.xStart, 0⟩ :: (B ++ G))
  aligned : g.Aligned 8
  le_start : pucAlignedHeap ≤ g.start
  stop_le : g.stop ≤ e
  end_le : e ≤ pucHeapEnd
  before : ∀ b ∈ B, b.stop < g.start
  behind : ∀ b ∈ G, g.stop < b.start
  fuel : B.length < walkFuel

namespace Between

variable {k : ℕ}

/-- An aligned address inside the block can be that of a header. -/
theorem isHeader_inside (hg : Between L B g G e) (hk8 : 8 ∣ k) (hk : k < g.size) :
    L.IsHeader (g.start + k) := by
  have hstop : g.start + g.size = g.stop := rfl
  have hlo := hg.le_start
  have hge := hg.stop_le
  have he := hg.end_le
  exact Or.inr ⟨Nat.dvd_add hg.aligned.1 hk8, by omega, by omega⟩

/-- No node of the list is inside the block. -/
theorem ne_inside (hg : Between L B g G e) (hk : k < g.size)
    {b : Extent} (hb : b ∈ ⟨L.xStart, 0⟩ :: (B ++ G)) : b.start ≠ g.start + k := by
  have hstop : g.start + g.size = g.stop := rfl
  rcases List.mem_cons.1 hb with rfl | hb
  · have hlo := hg.le_start
    have hge := hg.stop_le
    have he := hg.end_le
    exact (L.ne_xStart (by omega) (by omega)).symm
  · rcases List.mem_append.1 hb with hb | hb
    · have hlt : b.start + b.size < g.start := hg.before b hb
      omega
    · have hlt : g.stop < b.start := hg.behind b hb
      omega

/-- **The nodes behind the call**, of which what is left of the block may be one, have headers, and
none is where the block starts. -/
theorem of_mem_after (hg : Between L B g G e) (hk8 : 8 ∣ k) (hpos : 0 < k)
    (hb : b ∈ ⟨L.xStart, 0⟩ :: (B ++ (gap (g.start + k) g.stop ++ G))) :
    L.IsHeader b.start ∧ b.start ≠ g.start := by
  have hstop : g.start + g.size = g.stop := rfl
  by_cases hold : b ∈ ⟨L.xStart, 0⟩ :: (B ++ G)
  · exact ⟨hg.nodes.isHeader b (List.mem_cons_of_mem _ hold), hg.nodes.ne_head hold⟩
  · have hgap : b ∈ gap (g.start + k) g.stop := by
      simp only [List.mem_cons, List.mem_append, not_or] at hb hold
      tauto
    obtain ⟨hinside, rfl⟩ := mem_gap.1 hgap
    exact ⟨hg.isHeader_inside hk8 (by omega), show g.start + k ≠ g.start by omega⟩

/-- **The headers that are none of these** are left alone by what writes only to them. -/
theorem sameHeader {m' : ℕ → UInt8} (hg : Between L B g G e) (hk8 : 8 ∣ k) (hpos : 0 < k)
    (hwrites : SameOutside (insert g.start (startsOf
      (⟨L.xStart, 0⟩ :: (B ++ (gap (g.start + k) g.stop ++ G))))) m m')
    (hq : L.IsHeader q) (hqg : q ≠ g.start)
    (hne : ∀ b ∈ ⟨L.xStart, 0⟩ :: (B ++ (gap (g.start + k) g.stop ++ G)), q ≠ b.start) :
    SameHeader m m' q := by
  have hgheader : L.IsHeader g.start := hg.nodes.isHeader g List.mem_cons_self
  refine hwrites.sameHeader (Set.forall_mem_insert.2 ⟨hgheader, ?_⟩) hq
    (not_or.2 ⟨hqg, notMem_startsOf hne⟩)
  rintro p ⟨b, hb, rfl⟩
  exact (hg.of_mem_after hk8 hpos hb).1

theorem lt (hg : Between L B g G e) : g.stop < 2 ^ 31 := by
  have hge := hg.stop_le
  have he := hg.end_le
  rw [pucHeapEnd_eq] at he
  omega

/-- **Cutting the block in two** writes a size into its header and into one inside it, and leaves
the list as it is. -/
theorem cut (hg : Between L B g G e)
    (hchain : FreeChain m L.xStart (⟨L.xStart, 0⟩ :: (B ++ G)) e) (hk8 : 8 ∣ k) (hpos : 0 < k)
    (hk : k < g.size) :
    ∃ m₁, setBlockSize (setBlockSize m (g.start + k) (g.size - k)) g.start k = m₁ ∧
      FreeChain m₁ L.xStart (⟨L.xStart, 0⟩ :: (B ++ G)) e ∧
      xBlockSize m₁ (g.start + k) = g.size - k ∧ xBlockSize m₁ g.start = k ∧
      SameOutside {g.start + k, g.start} m m₁ := by
  have hstop : g.start + g.size = g.stop := rfl
  have hlt := hg.lt
  have hgheader : L.IsHeader g.start := hg.nodes.isHeader g List.mem_cons_self
  have hnew : L.IsHeader (g.start + k) := hg.isHeader_inside hk8 hk
  have hframe : SameOutside {g.start + k, g.start} m
      (setBlockSize (setBlockSize m (g.start + k) (g.size - k)) g.start k) :=
    (SameOutside.setBlockSize (by simp)).trans (.setBlockSize (by simp))
  refine ⟨_, rfl, ?_, ?_, xBlockSize_setBlockSize (by omega), hframe⟩
  · refine Chain.congr hchain fun b hb ↦ hframe.sameHeader ?_
      (hg.nodes.isHeader b (List.mem_cons_of_mem _ hb)) ?_
    · exact Set.forall_mem_insert.2 ⟨hnew, forall_eq.2 hgheader⟩
    · exact not_or.2 ⟨hg.ne_inside hk hb, hg.nodes.ne_head hb⟩
  · rw [(sameHeader_setBlockSize hgheader hnew (by omega)).2]
    exact xBlockSize_setBlockSize (by omega)

/-- **Splitting a block** that has been unlinked. What is kept of it stays with it; what is left, if
anything, is a block of the list. -/
theorem splitBlock_spec {want : ℕ} (hg : Between L B g G e)
    (hchain : FreeChain m L.xStart (⟨L.xStart, 0⟩ :: (B ++ G)) e)
    (hsize : xBlockSize m g.start = g.size) (hpos : 0 < want) (hwant : want ≤ g.size)
    (hwant8 : 8 ∣ want) :
    ∃ m', splitBlock L m e want g.start = some m' ∧
      FreeChain m' L.xStart
        (⟨L.xStart, 0⟩ :: (B ++ (gap (g.start + keptSize want g.size) g.stop ++ G))) e ∧
      xBlockSize m' g.start = keptSize want g.size ∧
      SameOutside (insert g.start (startsOf
        (⟨L.xStart, 0⟩ :: (B ++ (gap (g.start + keptSize want g.size) g.stop ++ G))))) m m' := by
  have hstop : g.start + g.size = g.stop := rfl
  have hlt := hg.lt
  have hrest : sub32 (xBlockSize m g.start) want = g.size - want := by
    rw [hsize]
    exact sub32_eq hwant (by omega)
  rw [splitBlock, hrest, keptSize]
  split
  · next hsplit =>
    have hnew : add32 g.start want = g.start + want := add32_eq (by omega)
    rw [heapMinimumBlockSize_eq] at hsplit
    have hinside : want < g.size := by omega
    dsimp only
    rw [hnew]
    obtain ⟨m₁, hm₁, hchain₁, hnewsize, hgsize, hframe₁⟩ := hg.cut hchain hwant8 hpos hinside
    rw [hm₁]
    -- The rest goes into the list, where nothing free touches it.
    have hnewstop : (⟨g.start + want, g.size - want⟩ : Extent).stop = g.stop := by
      show g.start + want + (g.size - want) = g.stop
      omega
    have hnodes₁ : Nodes L (⟨g.start + want, g.size - want⟩ :: ⟨L.xStart, 0⟩ :: (B ++ G)) :=
      hg.nodes.tail.cons (hg.isHeader_inside hwant8 hinside) fun _ ↦ hg.ne_inside hinside
    obtain ⟨m', hinsert, hchain', hframe⟩ := prvInsertBlockIntoFreeList_spec
      (b := ⟨g.start + want, g.size - want⟩) (u := g.start + want) (v := g.stop) (B := B) (G := G)
      (by rwa [hnewstop, gap_self, gap_self, List.append_nil])
      (by rwa [hnewstop, gap_self, gap_self, List.append_nil])
      hnewsize (show 0 < g.size - want by omega) (Nat.le_refl _) (Nat.le_of_eq hnewstop)
      (fun b hb ↦ Nat.lt_of_lt_of_le (hg.before b hb) (Nat.le_add_right _ _)) hg.behind
      hg.stop_le (Nat.lt_of_le_of_lt hg.end_le (by decide))
      (by rw [gap_self, List.append_nil]; exact hg.fuel)
    rw [gap_of_lt (by omega)]
    have hnodes' : Nodes L
        (⟨L.xStart, 0⟩ :: (B ++ ⟨g.start + want, g.stop - (g.start + want)⟩ :: G)) := by
      have hrest' : Nodes L (⟨g.start + want, g.stop - (g.start + want)⟩ ::
          ⟨L.xStart, 0⟩ :: (B ++ G)) := hnodes₁.congr_head rfl
      exact hrest'.perm (List.perm_middle : (⟨L.xStart, 0⟩ :: B ++ _ :: G).Perm _)
    have hgne : ∀ b ∈ ⟨L.xStart, 0⟩ :: (B ++ ⟨g.start + want, g.stop - (g.start + want)⟩ :: G),
        g.start ≠ b.start := by
      intro b hb
      rcases List.mem_cons.1 (List.perm_middle.subset (List.cons_append ▸ hb)) with rfl | hb
      · show g.start ≠ g.start + want
        omega
      · exact (hg.nodes.ne_head hb).symm
    refine ⟨m', hinsert, hchain', ?_, ?_⟩
    · rw [(hframe.sameHeader hnodes'.isHeader_of_mem_startsOf
        (hg.nodes.isHeader g List.mem_cons_self) (notMem_startsOf hgne)).2, hgsize]
    · refine (hframe₁.mono (Set.pair_subset ?_ (Set.mem_insert _ _))).trans
        (hframe.mono (Set.subset_insert _ _))
      exact Set.mem_insert_of_mem _ (start_mem_startsOf
        (b := ⟨g.start + want, g.stop - (g.start + want)⟩) (by simp))
  · -- The rest is too small: the block goes out whole.
    refine ⟨m, rfl, ?_, hsize, .refl _ _⟩
    rw [hstop, gap_self]
    exact hchain

/-- **Taking a block out of the list.** It is unlinked, perhaps split, and marked as allocated. -/
theorem takeBlock_spec {h : LibMem} {want : ℕ} (hg : Between L B g G h.pxEnd)
    (hchain : FreeChain h.mem L.xStart (⟨L.xStart, 0⟩ :: (B ++ g :: G)) h.pxEnd)
    (hbit : h.xBlockAllocatedBit = 2 ^ 31) (hpos : 0 < want) (hwant : want ≤ g.size)
    (hwant8 : 8 ∣ want) (hfree : g.size ≤ h.xFreeBytesRemaining)
    (hfree32 : h.xFreeBytesRemaining < 2 ^ 32) :
    ∃ m', takeBlock L h want
        ((⟨L.xStart, 0⟩ :: B : List Extent).getLast (List.cons_ne_nil _ _)).start g.start =
          some (g.start + 8, { h with
            mem := m', xFreeBytesRemaining := h.xFreeBytesRemaining - keptSize want g.size }) ∧
      FreeChain m' L.xStart
        (⟨L.xStart, 0⟩ :: (B ++ (gap (g.start + keptSize want g.size) g.stop ++ G))) h.pxEnd ∧
      pxNextFreeBlock m' g.start = 0 ∧ xBlockSize m' g.start = keptSize want g.size + 2 ^ 31 ∧
      SameOutside (insert g.start (startsOf
        (⟨L.xStart, 0⟩ :: (B ++ (gap (g.start + keptSize want g.size) g.stop ++ G)))))
        h.mem m' := by
  have hstop : g.start + g.size = g.stop := rfl
  have hlt := hg.lt
  have hgheader : L.IsHeader g.start := hg.nodes.isHeader g List.mem_cons_self
  -- The node before the block.
  obtain ⟨M, x, hx, -, hlist⟩ := exists_getLast ⟨L.xStart, 0⟩ B
  rw [hx]
  have hxmem : x ∈ ⟨L.xStart, 0⟩ :: (B ++ G) := by
    rw [hlist]
    exact List.mem_append_right _ List.mem_cons_self
  have hxheader : L.IsHeader x.start := hg.nodes.isHeader x (List.mem_cons_of_mem _ hxmem)
  -- Unlinking.
  obtain ⟨q, hM, rfl, hxsize, hxnext, hgsize, hrest⟩ := chain_append.1 (hlist _ ▸ hchain)
  have hxnext : pxNextFreeBlock h.mem x.start = g.start := hxnext.symm
  rw [hxnext] at hgsize hrest
  generalize hm₁ : setNextFreeBlock h.mem x.start (pxNextFreeBlock h.mem g.start) = m₁
  have hchain₁ : FreeChain m₁ L.xStart (⟨L.xStart, 0⟩ :: (B ++ G)) h.pxEnd := by
    have hnodes := hg.nodes.tail
    rw [hlist] at hnodes ⊢
    exact hm₁ ▸ relink hM hxsize hrest hnodes (pxNextFreeBlock_lt _ _)
  have hframe₁ : SameOutside {x.start} h.mem m₁ := hm₁ ▸ .setNextFreeBlock rfl
  have hgx : g.start ≠ x.start := (hg.nodes.ne_head hxmem).symm
  obtain ⟨m₂, hsplit, hchain₂, hsize₂, hframe₂⟩ :=
    hg.splitBlock_spec hchain₁
      ((hframe₁.sameHeader (forall_eq.2 hxheader) hgheader hgx).2.trans hgsize) hpos hwant hwant8
  obtain ⟨hn, hng, hn8⟩ := keptSize_spec hwant hwant8 hg.aligned.2
  generalize keptSize want g.size = n at *
  -- Marking.
  have hor : n ||| 2 ^ 31 = n + 2 ^ 31 := or_allocatedBit (by omega)
  have hafter := fun b ↦ hg.of_mem_after (b := b) hn8 (by omega)
  refine ⟨setNextFreeBlock (setBlockSize m₂ g.start (n + 2 ^ 31)) g.start 0, ?_, ?_, ?_, ?_, ?_⟩
  · have hreturn : add32 (pxNextFreeBlock h.mem x.start) heapStructSize = g.start + 8 := by
      rw [hxnext, heapStructSize_eq]
      exact add32_eq (by omega)
    simp only [takeBlock, hreturn, hm₁, hsplit, Option.map_some, hsize₂, hbit, hor]
    rw [sub32_eq (by omega) hfree32]
  · exact FreeChain.setNextFreeBlock (FreeChain.setBlockSize hchain₂ hgheader hafter) hgheader
      hafter
  · exact pxNextFreeBlock_setNextFreeBlock (by decide)
  · rw [xBlockSize_setNextFreeBlock, xBlockSize_setBlockSize (by omega)]
  · have hxlist : x ∈ ⟨L.xStart, 0⟩ :: (B ++ (gap (g.start + n) g.stop ++ G)) := by
      rw [hlist]
      exact List.mem_append_right _ List.mem_cons_self
    have hunlinked := hframe₁.mono (Set.singleton_subset_iff.2
      (Set.mem_insert_of_mem g.start (start_mem_startsOf hxlist)))
    exact ((hunlinked.trans hframe₂).trans (.setBlockSize (Set.mem_insert _ _))).trans
      (.setNextFreeBlock (Set.mem_insert _ _))

end Between

end YHAudioLink
