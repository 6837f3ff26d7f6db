import Mathlib.Data.List.Chain
import Mathlib.Data.List.Nodup
import Mathlib.Data.List.Sort
import Mathlib.Order.Basic

/-!
# Pieces of a sequence

Something long is cut into **pieces**, each of which knows where it starts and where it stops, and
the pieces arrive one by one in any order. What has arrived is a sublist of the cut, kept in order;
it is **linked** if each piece stops where the next one starts.

* A piece that has not arrived has a place among those that have (`exists_place`): all before it
  stop where it starts at the latest, and it stops where any behind it starts at the latest.
* A linked list of pieces from the first on is the beginning of the cut (`prefix_of_linked`), and
  one up to the last is its end (`eq_of_linked_last`). So linked from the first to the last is the
  whole, and `linked_around_iff` says what it is when one link is not looked at.
* The pieces one after the other are what was cut (`flatMap_slice`).
-/

namespace Pieces

variable {α : Type*} {start stop : α → ℕ}

/-- Each piece stops where the next one starts. -/
def Linked (start stop : α → ℕ) (l : List α) : Prop := l.IsChain fun a b ↦ stop a = start b

/-- A cut into pieces with something in them. -/
structure Cut (start stop : α → ℕ) (l : List α) : Prop where
  linked : Linked start stop l
  pos : ∀ a ∈ l, start a < stop a

variable {l pre post c : List α} {f : α}

theorem Cut.of_cons (h : Cut start stop (f :: l)) : Cut start stop l :=
  ⟨h.linked.tail, fun a ha ↦ h.pos a (List.mem_cons_of_mem f ha)⟩

theorem Cut.of_append_right (h : Cut start stop (pre ++ post)) : Cut start stop post :=
  ⟨List.IsChain.right_of_append h.linked,
    fun a ha ↦ h.pos a (List.mem_append_right pre ha)⟩

theorem Cut.of_append_left (h : Cut start stop (pre ++ post)) : Cut start stop pre :=
  ⟨List.IsChain.left_of_append h.linked,
    fun a ha ↦ h.pos a (List.mem_append_left post ha)⟩

/-- **Pieces of a cut do not overlap.** -/
theorem Cut.stop_le_start (h : Cut start stop l) : l.Pairwise fun a b ↦ stop a ≤ start b := by
  induction l with
  | nil => exact .nil
  | cons f l ih =>
    refine .cons (fun b hb ↦ ?_) (ih h.of_cons)
    cases l with
    | nil => cases hb
    | cons g l =>
      have hlink : stop f = start g := (List.isChain_cons_cons.1 h.linked).1
      rcases List.mem_cons.1 hb with rfl | hb
      · exact hlink.le
      · have hrest := List.rel_of_pairwise_cons (ih h.of_cons) hb
        exact hlink.le.trans ((h.of_cons.pos g List.mem_cons_self).le.trans hrest)

theorem Cut.start_lt (h : Cut start stop l) : l.Pairwise fun a b ↦ start a < start b :=
  h.stop_le_start.imp_of_mem fun ha _ hle ↦ (h.pos _ ha).trans_le hle

theorem Cut.nodup (h : Cut start stop l) : l.Nodup :=
  h.start_lt.imp fun hlt heq ↦ absurd (congrArg start heq) hlt.ne

/-- **The place of a piece** among some of the others. -/
theorem exists_place (h : Cut start stop (pre ++ f :: post)) (hc : c.Sublist (pre ++ f :: post))
    (hf : f ∉ c) :
    ∃ c₁ c₂, c = c₁ ++ c₂ ∧ c₁.Sublist pre ∧ c₂.Sublist post ∧
      (∀ a ∈ c₁, stop a ≤ start f) ∧ ∀ a ∈ c₂, stop f ≤ start a := by
  obtain ⟨c₁, c₂, rfl, hc₁, hc₂⟩ := List.sublist_append_iff.1 hc
  have hc₂' : c₂.Sublist post := by
    rcases List.sublist_cons_iff.1 hc₂ with hc₂ | ⟨c₃, rfl, -⟩
    · exact hc₂
    · exact absurd (List.mem_append_right c₁ List.mem_cons_self) hf
  have hpair := List.pairwise_append.1 h.stop_le_start
  refine ⟨c₁, c₂, rfl, hc₁, hc₂', fun a ha ↦ ?_, fun a ha ↦ ?_⟩
  · exact hpair.2.2 a (hc₁.subset ha) f List.mem_cons_self
  · exact List.rel_of_pairwise_cons hpair.2.1 (hc₂'.subset ha)

/-- **Linked pieces behind a piece are the next ones.** -/
theorem prefix_of_linked (h : Cut start stop (f :: post)) (hc : c.Sublist post)
    (hlinked : Linked start stop (f :: c)) : c <+: post := by
  induction post generalizing f c with
  | nil => exact List.sublist_nil.1 hc ▸ List.prefix_rfl
  | cons g post ih =>
    cases c with
    | nil => exact List.nil_prefix
    | cons b c =>
      obtain ⟨hfb, hlinked'⟩ := List.isChain_cons_cons.1 hlinked
      have hfg : stop f = start g := (List.isChain_cons_cons.1 h.linked).1
      have hb : b = g := by
        rcases List.mem_cons.1 (hc.subset List.mem_cons_self) with rfl | hmem
        · rfl
        · have hlt := List.rel_of_pairwise_cons h.of_cons.start_lt hmem
          omega
      subst hb
      have hc' : c.Sublist post := (List.cons_sublist_cons.1 hc)
      exact List.prefix_cons_inj b |>.2 (ih h.of_cons hc' hlinked')

/-- Linked pieces from a piece up to the last are all there are. -/
theorem eq_of_linked_last (h : Cut start stop (f :: post)) (hc : c.Sublist post)
    (hlinked : Linked start stop (f :: c)) (hlast : ∀ a ∈ post.getLast?, a ∈ c) : c = post := by
  obtain ⟨hole, rfl⟩ := prefix_of_linked h hc hlinked
  rcases List.eq_nil_or_concat hole with rfl | ⟨hole, b, rfl⟩
  · exact (List.append_nil c).symm
  · have hmem : b ∈ c := hlast b (by simp)
    have hdisjoint := List.nodup_append.1 h.of_cons.nodup
    exact absurd rfl (hdisjoint.2.2 b hmem b (by simp))

theorem Cut.stop_le_last (h : Cut start stop l) {a b : α} (ha : a ∈ l) (hb : b ∈ l.getLast?) :
    stop a ≤ stop b := by
  obtain ⟨l, rfl⟩ := List.getLast?_eq_some_iff.1 hb
  rcases List.mem_append.1 ha with ha' | ha'
  · have hle := (List.pairwise_append.1 h.stop_le_start).2.2 a ha' b (List.mem_singleton_self b)
    exact hle.trans (h.pos b (List.mem_append_right l (List.mem_singleton_self b))).le
  · exact (List.mem_singleton.1 ha' ▸ le_rfl)

/-- Two lists of pieces of a cut, in order, with the same pieces are the same. -/
theorem Cut.eq_of_mem_iff {d : List α} (h : Cut start stop l) (hc : c.Sublist l) (hd : d.Sublist l)
    (hmem : ∀ a, a ∈ c ↔ a ∈ d) : c = d := by
  have hperm : c.Perm d := (List.perm_ext_iff_of_nodup (h.nodup.sublist hc) (h.nodup.sublist hd)).2
    hmem
  refine hperm.eq_of_pairwise (fun a b _ _ hab hba ↦ ?_) (h.start_lt.sublist hc)
    (h.start_lt.sublist hd)
  exact absurd hab hba.not_gt

/-- **Linked before a piece and behind it, from the first piece to the last**, but with a hole left
between the pieces before it and the piece: this is what there is if the link in front of the piece
is looked at only when nothing is behind it. -/
theorem linked_around_iff {c₁ c₂ : List α} (h : Cut start stop (pre ++ f :: post))
    (hc₁ : c₁.Sublist pre) (hc₂ : c₂.Sublist post) :
    (Linked start stop c₁ ∧ (c₂ = [] → Linked start stop (c₁ ++ [f])) ∧
        (∀ b ∈ (c₁ ++ [f]).head?, ∀ a ∈ (pre ++ [f]).head?, start b = start a) ∧
        Linked start stop (f :: c₂) ∧ ∀ a ∈ post.getLast?, a ∈ c₂) ↔
      ∃ hole, pre = c₁ ++ hole ∧ c₂ = post ∧ (hole ≠ [] → c₁ ≠ [] ∧ post ≠ []) := by
  constructor
  · rintro ⟨hbefore, hend, hhead, hafter, hlast⟩
    obtain rfl := eq_of_linked_last h.of_append_right hc₂ hafter hlast
    cases c₁ with
    | nil =>
      -- the piece is the first one
      cases pre with
      | nil => exact ⟨[], rfl, rfl, fun hne ↦ absurd rfl hne⟩
      | cons a pre =>
        have heq : start f = start a := hhead f rfl a rfl
        have hlt := List.rel_of_pairwise_cons h.start_lt
          (List.mem_append_right pre (List.mem_cons_self (a := f) (l := c₂)))
        omega
    | cons b c₁ =>
      cases pre with
      | nil => cases hc₁
      | cons a pre =>
        have heq : start b = start a := hhead b rfl a rfl
        have hba : b = a := by
          rcases List.mem_cons.1 (hc₁.subset List.mem_cons_self) with rfl | hmem
          · rfl
          · have hlt := List.rel_of_pairwise_cons h.of_append_left.start_lt hmem
            omega
        subst hba
        have hc₁' : c₁.Sublist pre := List.cons_sublist_cons.1 hc₁
        obtain ⟨hole, rfl⟩ := prefix_of_linked h.of_append_left hc₁' hbefore
        refine ⟨hole, rfl, rfl, fun hne ↦ ⟨List.cons_ne_nil _ _, fun hnil ↦ hne ?_⟩⟩
        -- with nothing behind it, the piece is linked to those before it
        subst hnil
        have hall : c₁ ++ [f] = c₁ ++ hole ++ [f] := eq_of_linked_last (f := b) h
          (hc₁'.append (List.Sublist.refl _)) (hend rfl) (by simp)
        have hlen := congrArg List.length hall
        simp only [List.length_append, List.length_singleton] at hlen
        exact List.length_eq_zero_iff.1 (by omega)
  · rintro ⟨hole, rfl, rfl, hhole⟩
    refine ⟨h.of_append_left.of_append_left.linked, fun hnil ↦ ?_, fun b hb a ha ↦ ?_,
      h.of_append_right.linked, fun a ha ↦ List.mem_of_getLast? ha⟩
    · subst hnil
      obtain rfl : hole = [] := by
        by_contra hne
        exact (hhole hne).2 rfl
      simpa using h.linked
    · cases c₁ with
      | nil =>
        obtain rfl : hole = [] := by
          by_contra hne
          exact (hhole hne).1 rfl
        exact congrArg start (Option.some.inj (hb.symm.trans ha))
      | cons b' c₁ => exact congrArg start (Option.some.inj (hb.symm.trans ha))

/-! ### Putting the pieces together -/

/-- What a piece stands for. -/
def slice {β : Type*} (data : List β) (x : ℕ × ℕ) : List β := (data.drop x.1).take (x.2 - x.1)

theorem length_slice {β : Type*} {data : List β} {a b : ℕ} (hb : b ≤ data.length) :
    (slice data (a, b)).length = b - a := by
  rw [slice, List.length_take, List.length_drop]
  exact Nat.min_eq_left (Nat.sub_le_sub_right hb a)

theorem take_slice {β : Type*} (data : List β) {a b c : ℕ} (hcb : c ≤ b) :
    (slice data (a, b)).take (c - a) = slice data (a, c) := by
  rw [slice, slice, List.take_take, Nat.min_eq_left (Nat.sub_le_sub_right hcb a)]

theorem drop_slice {β : Type*} (data : List β) {a b c : ℕ} (hac : a ≤ c) :
    (slice data (a, b)).drop (c - a) = slice data (c, b) := by
  rw [slice, slice, List.drop_take, List.drop_drop]
  dsimp only
  rw [Nat.add_sub_cancel' hac, Nat.sub_sub, Nat.add_sub_cancel' hac]

/-- **The pieces one after the other are the whole.** -/
theorem flatMap_slice {β : Type*} (data : List β) {x : ℕ × ℕ} {l : List (ℕ × ℕ)}
    (h : Cut Prod.fst Prod.snd (x :: l)) :
    ∀ y ∈ (x :: l).getLast?, (x :: l).flatMap (slice data) = slice data (x.1, y.2) := by
  induction l generalizing x with
  | nil =>
    rintro y ⟨⟩
    exact List.append_nil _
  | cons z l ih =>
    intro y hy
    rw [List.getLast?_cons_cons] at hy
    have hxz : x.2 = z.1 := (List.isChain_cons_cons.1 h.linked).1
    have hx := h.pos x List.mem_cons_self
    have hzy : z.1 ≤ y.2 :=
      (h.of_cons.pos z List.mem_cons_self).le.trans (h.of_cons.stop_le_last List.mem_cons_self hy)
    rw [List.flatMap_cons, ih h.of_cons y hy, slice, slice, slice]
    have hsplit : y.2 - x.1 = (x.2 - x.1) + (y.2 - z.1) := by omega
    dsimp only
    rw [hsplit, List.take_add, List.drop_drop, Nat.add_sub_cancel' hx.le, hxz]

/-! ### Cutting pieces again -/

/-- A cut of what is from `a` to `b`. -/
def CutFrom : ℕ → ℕ → List (ℕ × ℕ) → Prop
  | a, b, [] => a = b
  | a, b, x :: l => x.1 = a ∧ x.1 < x.2 ∧ CutFrom x.2 b l

theorem cutFrom_append {a b : ℕ} {l₁ l₂ : List (ℕ × ℕ)} :
    CutFrom a b (l₁ ++ l₂) ↔ ∃ c, CutFrom a c l₁ ∧ CutFrom c b l₂ := by
  induction l₁ generalizing a with
  | nil => exact ⟨fun h ↦ ⟨a, rfl, h⟩, fun ⟨_, h, h'⟩ ↦ h.symm ▸ h'⟩
  | cons x l₁ ih =>
    rw [List.cons_append, CutFrom, ih]
    exact ⟨fun ⟨hx, hpos, c, h, h'⟩ ↦ ⟨c, ⟨hx, hpos, h⟩, h'⟩,
      fun ⟨c, ⟨hx, hpos, h⟩, h'⟩ ↦ ⟨hx, hpos, c, h, h'⟩⟩

/-- It is a cut that starts at `a` and stops at `b`. -/
theorem cutFrom_cons_iff {a b : ℕ} {x : ℕ × ℕ} {l : List (ℕ × ℕ)} :
    CutFrom a b (x :: l) ↔
      Cut Prod.fst Prod.snd (x :: l) ∧ x.1 = a ∧ ∀ y ∈ (x :: l).getLast?, y.2 = b := by
  induction l generalizing a x with
  | nil =>
    constructor
    · rintro ⟨hx, hpos, hb⟩
      refine ⟨⟨.singleton x, fun y hy ↦ ?_⟩, hx, fun y hy ↦ ?_⟩
      · exact List.mem_singleton.1 hy ▸ hpos
      · exact Option.some.inj hy ▸ hb
    · rintro ⟨hcut, hx, hb⟩
      exact ⟨hx, hcut.pos x List.mem_cons_self, hb x rfl⟩
  | cons z l ih =>
    rw [CutFrom, ih, List.getLast?_cons_cons]
    constructor
    · rintro ⟨hx, hpos, hcut, hz, hb⟩
      refine ⟨⟨.cons_cons hz.symm hcut.linked, fun y hy ↦ ?_⟩, hx, hb⟩
      rcases List.mem_cons.1 hy with rfl | hy
      · exact hpos
      · exact hcut.pos y hy
    · rintro ⟨hcut, hx, hb⟩
      exact ⟨hx, hcut.pos x List.mem_cons_self, hcut.of_cons,
        (List.isChain_cons_cons.1 hcut.linked).1.symm, hb⟩

/-- **A piece that is cut again** leaves a cut of the whole. -/
theorem CutFrom.refine {a b : ℕ} {pre post sub : List (ℕ × ℕ)} {x : ℕ × ℕ}
    (h : CutFrom a b (pre ++ x :: post)) (hsub : CutFrom x.1 x.2 sub) :
    CutFrom a b (pre ++ (sub ++ post)) := by
  obtain ⟨c, hpre, hx, -, hpost⟩ := cutFrom_append.1 h
  exact cutFrom_append.2 ⟨c, hpre, cutFrom_append.2 ⟨x.2, hx ▸ hsub, hpost⟩⟩

end Pieces
