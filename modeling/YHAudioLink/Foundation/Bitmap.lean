import Mathlib.Data.BitVec
import Mathlib.Data.Fintype.Prod
import Mathlib.Logic.Function.Basic

/-!
# Two-level bitmaps

A set of pairs of small numbers in `m` rows of `n` bits each, with a summary word that has a bit for
each row: set just when the row is not empty. That coherence is part of the type, and the two
updates keep it, so the summary can be believed wherever a bitmap turns up.

What it is good for is finding the first pair, row by row, in two steps: the first bit of the
summary names the row and the first bit of that row the column. `firstBit` is any way to find the
first bit of a word, a table for instance; `first_mem` and `first_le` say that the two steps
together find the first pair.
-/

namespace Bitmaps

variable {m n : ℕ}

/-- `m` rows of `n` bits, and the word that says which rows are not empty. -/
structure Bitmap (m n : ℕ) where
  grp : BitVec m
  tbl : Fin m → BitVec n
  coherent : ∀ y : Fin m, grp.getLsbD y = true ↔ tbl y ≠ 0#n

namespace Bitmap

variable {t : Bitmap m n} {y y' : Fin m} {x x' : Fin n}

/-- The bit of a pair. -/
def Mem (t : Bitmap m n) (y : Fin m) (x : Fin n) : Prop := (t.tbl y).getLsbD x = true

instance : Decidable (t.Mem y x) := inferInstanceAs (Decidable (_ = true))

/-- A word with one of its bits set is not zero. -/
theorem ne_zero_of_getLsbD {w : ℕ} {b : BitVec w} {i : ℕ} (h : b.getLsbD i = true) : b ≠ 0#w := by
  rintro rfl
  simp at h

/-- A word that is not zero has a bit set. -/
theorem exists_getLsbD_of_ne_zero {w : ℕ} {b : BitVec w} (h : b ≠ 0#w) :
    ∃ i : Fin w, b.getLsbD i = true := by
  by_contra hnone
  refine h (BitVec.eq_of_getLsbD_eq fun i hi ↦ ?_)
  simpa using fun hset ↦ hnone ⟨⟨i, hi⟩, hset⟩

/-- No pairs. -/
def empty (m n : ℕ) : Bitmap m n where
  grp := 0#m
  tbl := fun _ ↦ 0#n
  coherent := by simp

/-- The bitmap with the bit of a pair set, and the bit of its row. -/
def insert (t : Bitmap m n) (y : Fin m) (x : Fin n) : Bitmap m n where
  grp := t.grp ||| BitVec.twoPow m y
  tbl := Function.update t.tbl y (t.tbl y ||| BitVec.twoPow n x)
  coherent := by
    intro y'
    rw [BitVec.getLsbD_or, BitVec.getLsbD_twoPow, Bool.or_eq_true, t.coherent]
    by_cases heq : y' = y
    · subst heq
      have hset : (t.tbl y' ||| BitVec.twoPow n x).getLsbD x = true := by simp
      rw [Function.update_self]
      simp [ne_zero_of_getLsbD hset]
    · have hval : (y : ℕ) ≠ y' := fun h ↦ heq (Fin.ext h.symm)
      rw [Function.update_of_ne heq]
      simp [hval]

/-- The bitmap with the bit of a pair cleared, and the bit of its row if it was the last one. -/
def erase (t : Bitmap m n) (y : Fin m) (x : Fin n) : Bitmap m n where
  grp := if t.tbl y &&& ~~~BitVec.twoPow n x = 0#n then t.grp &&& ~~~BitVec.twoPow m y else t.grp
  tbl := Function.update t.tbl y (t.tbl y &&& ~~~BitVec.twoPow n x)
  coherent := by
    intro y'
    by_cases heq : y' = y
    · subst heq
      rw [Function.update_self]
      split
      · next hzero => simp [hzero]
      · next hne =>
        have hrow : t.tbl y' ≠ 0#n := fun hzero ↦ hne (by rw [hzero, BitVec.zero_and])
        exact ⟨fun _ ↦ hne, fun _ ↦ (t.coherent y').2 hrow⟩
    · have hval : (y : ℕ) ≠ y' := fun h ↦ heq (Fin.ext h.symm)
      rw [Function.update_of_ne heq, ← t.coherent]
      split
      · simp [hval.symm]
      · rfl

@[simp] theorem not_mem_empty : ¬ (empty m n).Mem y x := by
  rw [Mem, empty]
  simp

@[simp] theorem mem_insert : (t.insert y x).Mem y' x' ↔ (y' = y ∧ x' = x) ∨ t.Mem y' x' := by
  show (Function.update t.tbl y (t.tbl y ||| BitVec.twoPow n x) y').getLsbD x' = true ↔
    (y' = y ∧ x' = x) ∨ (t.tbl y').getLsbD x' = true
  have hval : (x : ℕ) = x' ↔ x' = x := by rw [Fin.ext_iff, eq_comm]
  by_cases hy : y' = y
  · subst hy
    rw [Function.update_self, BitVec.getLsbD_or, BitVec.getLsbD_twoPow, Bool.or_eq_true]
    simp [hval, or_comm]
  · rw [Function.update_of_ne hy]
    simp [hy]

@[simp] theorem mem_erase : (t.erase y x).Mem y' x' ↔ ¬ (y' = y ∧ x' = x) ∧ t.Mem y' x' := by
  show (Function.update t.tbl y (t.tbl y &&& ~~~BitVec.twoPow n x) y').getLsbD x' = true ↔
    ¬ (y' = y ∧ x' = x) ∧ (t.tbl y').getLsbD x' = true
  have hval : (x : ℕ) = x' ↔ x' = x := by rw [Fin.ext_iff, eq_comm]
  by_cases hy : y' = y
  · subst hy
    rw [Function.update_self, BitVec.getLsbD_and, BitVec.getLsbD_not, BitVec.getLsbD_twoPow]
    simp [hval, and_comm]
  · rw [Function.update_of_ne hy]
    simp [hy]

/-- The summary is zero just when there are no pairs. -/
theorem grp_ne_zero_iff : t.grp ≠ 0#m ↔ ∃ y x, t.Mem y x := by
  constructor
  · intro h
    obtain ⟨y, hy⟩ := exists_getLsbD_of_ne_zero h
    obtain ⟨x, hx⟩ := exists_getLsbD_of_ne_zero ((t.coherent y).1 hy)
    exact ⟨y, x, hx⟩
  · rintro ⟨y, x, hx⟩
    exact ne_zero_of_getLsbD ((t.coherent y).2 (ne_zero_of_getLsbD hx))

/-! ### The first pair -/

/-- A way to find the first bit of a word. -/
def FindsFirst {w : ℕ} (firstBit : BitVec w → Fin w) : Prop :=
  ∀ b, b ≠ 0#w → b.getLsbD (firstBit b) = true ∧ ∀ i : Fin w, b.getLsbD i = true → firstBit b ≤ i

/-- The first row, and the first column in it. -/
def first (rowBit : BitVec m → Fin m) (colBit : BitVec n → Fin n) (t : Bitmap m n) :
    Fin m × Fin n :=
  (rowBit t.grp, colBit (t.tbl (rowBit t.grp)))

section First

variable {rowBit : BitVec m → Fin m} {colBit : BitVec n → Fin n}

/-- **The first pair is one of the pairs.** -/
theorem first_mem (hrow : FindsFirst rowBit) (hcol : FindsFirst colBit) (h : ∃ y x, t.Mem y x) :
    t.Mem (t.first rowBit colBit).1 (t.first rowBit colBit).2 := by
  have hy := (hrow t.grp (grp_ne_zero_iff.2 h)).1
  exact (hcol _ ((t.coherent _).1 hy)).1

/-- **It comes before all others.** -/
theorem first_le (hrow : FindsFirst rowBit) (hcol : FindsFirst colBit) (h : t.Mem y x) :
    (t.first rowBit colBit).1 < y ∨
      (t.first rowBit colBit).1 = y ∧ (t.first rowBit colBit).2 ≤ x := by
  have hy : t.grp.getLsbD y = true := (t.coherent y).2 (ne_zero_of_getLsbD h)
  rcases ((hrow t.grp (ne_zero_of_getLsbD hy)).2 y hy).lt_or_eq with hlt | heq
  · exact .inl hlt
  · refine .inr ⟨heq, (hcol _ ?_).2 x ?_⟩
    · rw [heq]
      exact ne_zero_of_getLsbD h
    · rw [heq]
      exact h

end First

end Bitmap

end Bitmaps
