import Mathlib.Data.Nat.Digits.Defs
import Mathlib.Data.Nat.ModEq

/-!
# Ones' complement sums

Sums with end-around carry, in any base `b`: two digits make a word, words are added, and what is
carried out of a word is added at its low end again. Such a sum is a remainder modulo `b * b - 1`,
but for one thing: that number has two representations, all digits zero and all digits `b - 1`, and
the sum is zero only if everything added was. So a sum *represents* a number (`Rep`) if it is
congruent to it and zero just when it is, and there is one word that does (`Rep.unique`).

All the laws by which sums may be computed in pieces are about `Rep`: folding the carries back in
(`Rep.fold`), exchanging the digits of a word, which is multiplication by the base (`Rep.swap`), and
that a word further up counts the same (`Rep.of_sq_mul`). The number represented is the list of
digits read with the least first, `Nat.ofDigits b`, so where the digits are cut into pieces does not
matter.
-/

namespace OnesComplement

variable {b a a' n n' : ℕ}

/-- A sum represents a number: congruent to it, and zero just when it is. -/
structure Rep (b a n : ℕ) : Prop where
  modEq : a ≡ n [MOD b * b - 1]
  zero : a = 0 ↔ n = 0

namespace Rep

theorem refl (b n : ℕ) : Rep b n n := ⟨Nat.ModEq.refl n, Iff.rfl⟩

theorem symm (h : Rep b a n) : Rep b n a := ⟨h.modEq.symm, h.zero.symm⟩

theorem trans (h : Rep b a n) (h' : Rep b n n') : Rep b a n' :=
  ⟨h.modEq.trans h'.modEq, h.zero.trans h'.zero⟩

theorem add (h : Rep b a n) (h' : Rep b a' n') : Rep b (a + a') (n + n') := by
  refine ⟨h.modEq.add h'.modEq, ?_⟩
  rw [Nat.add_eq_zero_iff, Nat.add_eq_zero_iff, h.zero, h'.zero]

theorem mul_left (c : ℕ) (h : Rep b a n) : Rep b (c * a) (c * n) := by
  refine ⟨h.modEq.mul_left c, ?_⟩
  rw [Nat.mul_eq_zero, Nat.mul_eq_zero, h.zero]

/-- The square of the base counts as one. -/
theorem of_sq_mul (hb : 0 < b) (n : ℕ) : Rep b (b * b * n) n := by
  have hsq : 0 < b * b := Nat.mul_pos hb hb
  refine ⟨?_, ?_⟩
  · have hone : b * b ≡ 1 [MOD b * b - 1] := (Nat.modEq_iff_dvd' hsq).2 (Nat.dvd_refl _) |>.symm
    calc b * b * n ≡ 1 * n [MOD b * b - 1] := hone.mul_right n
      _ = n := Nat.one_mul n
  · rw [Nat.mul_eq_zero]
    exact or_iff_right (Nat.pos_iff_ne_zero.1 hsq)

/-- **Folding the carries back in.** -/
theorem fold (hb : 0 < b) (u : ℕ) : Rep b (u / (b * b) + u % (b * b)) u := by
  have hhigh : Rep b (u / (b * b) + u % (b * b)) (b * b * (u / (b * b)) + u % (b * b)) :=
    (of_sq_mul hb _).symm.add (refl b _)
  rwa [Nat.div_add_mod] at hhigh

/-- **Exchanging the digits of a word** is multiplying it by the base. -/
theorem swap (hb : 0 < b) (w : ℕ) : Rep b (w % b * b + w / b) (b * w) := by
  have hword : b * w = b * b * (w / b) + w % b * b := by
    calc b * w = b * (b * (w / b) + w % b) := by rw [Nat.div_add_mod]
      _ = b * b * (w / b) + w % b * b := by ring
  rw [hword, Nat.add_comm]
  exact (of_sq_mul hb _).symm.add (refl b _)

/-- **There is one word that represents a number.** -/
theorem unique (ha : a < b * b) (ha' : a' < b * b) (h : Rep b a n) (h' : Rep b a' n) : a = a' := by
  have hmod : a ≡ a' [MOD b * b - 1] := h.modEq.trans h'.modEq.symm
  have hzero : a = 0 ↔ a' = 0 := h.zero.trans h'.zero.symm
  rcases Nat.lt_trichotomy a a' with hlt | heq | hgt
  · have hfar := hmod.add_le_of_lt hlt
    omega
  · exact heq
  · have hfar := hmod.symm.add_le_of_lt hgt
    omega

end Rep

/-! ### The sum of a number -/

/-- **The word that represents a number.** -/
def sum (b n : ℕ) : ℕ := if n = 0 then 0 else (n - 1) % (b * b - 1) + 1

theorem sum_rep (b n : ℕ) : Rep b (sum b n) n := by
  rw [sum]
  split
  · next hzero => exact hzero ▸ Rep.refl b 0
  · next hne =>
    refine ⟨?_, iff_of_false (Nat.succ_ne_zero _) hne⟩
    calc (n - 1) % (b * b - 1) + 1 ≡ n - 1 + 1 [MOD b * b - 1] := (Nat.mod_modEq _ _).add_right 1
      _ = n := Nat.sub_add_cancel (Nat.pos_of_ne_zero hne)

theorem sum_lt (hb : 1 < b) (n : ℕ) : sum b n < b * b := by
  have hsq : b < b * b := Nat.lt_mul_self_iff.2 hb
  rw [sum]
  split
  · omega
  · have hmod := Nat.mod_lt (n - 1) (show 0 < b * b - 1 by omega)
    omega

/-- **What represents a number and is a word is its sum.** -/
theorem Rep.eq_sum (hb : 1 < b) (ha : a < b * b) (h : Rep b a n) : a = sum b n :=
  Rep.unique ha (sum_lt hb n) h (sum_rep b n)

theorem sum_congr (hb : 1 < b) (h : Rep b n n') : sum b n = sum b n' :=
  ((sum_rep b n).trans h).eq_sum hb (sum_lt hb n)

/-- The sum is all ones just when the number is a multiple of it, and not zero. -/
theorem sum_eq_ones_iff (hb : 1 < b) : sum b n = b * b - 1 ↔ b * b - 1 ∣ n ∧ n ≠ 0 := by
  have hsq : b < b * b := Nat.lt_mul_self_iff.2 hb
  have hrep := sum_rep b n
  constructor
  · intro heq
    rw [heq] at hrep
    refine ⟨(hrep.modEq.dvd_iff (Nat.dvd_refl _)).1 (Nat.dvd_refl _), fun hzero ↦ ?_⟩
    have := hrep.zero.2 hzero
    omega
  · rintro ⟨hdvd, hne⟩
    have hones : Rep b (b * b - 1) n := by
      refine ⟨?_, iff_of_false (by omega) hne⟩
      exact (Nat.modEq_zero_iff_dvd.2 (Nat.dvd_refl _)).trans (Nat.modEq_zero_iff_dvd.2 hdvd).symm
    exact (hones.eq_sum hb (by omega)).symm

/-! ### Lists of digits -/

/-- An even shift counts as none, an odd one as one. -/
theorem pow_mul_rep (hb : 0 < b) (k n : ℕ) : Rep b (b ^ k * n) (b ^ (k % 2) * n) := by
  induction k using Nat.twoStepInduction with
  | zero => exact Rep.refl b _
  | one => exact Rep.refl b _
  | more k ih _ =>
    have hpow : b ^ (k + 2) * n = b * b * (b ^ k * n) := by ring
    rw [hpow, Nat.add_mod_right]
    exact (Rep.of_sq_mul hb _).trans ih

/-- Behind an even number of digits. -/
theorem ofDigits_append_even (hb : 0 < b) {l₁ : List ℕ} (h : l₁.length % 2 = 0) (l₂ : List ℕ) :
    Rep b (Nat.ofDigits b (l₁ ++ l₂)) (Nat.ofDigits b l₁ + Nat.ofDigits b l₂) := by
  rw [Nat.ofDigits_append]
  refine (Rep.refl b _).add ?_
  have hpow := pow_mul_rep hb l₁.length (Nat.ofDigits b l₂)
  rwa [h, Nat.pow_zero, Nat.one_mul] at hpow

/-- **A word among other digits**, behind an even number of them. -/
theorem ofDigits_word (hb : 0 < b) {l₁ : List ℕ} (h : l₁.length % 2 = 0) (lo hi : ℕ) (l₂ : List ℕ) :
    Rep b (Nat.ofDigits b (l₁ ++ lo :: hi :: l₂))
      (lo + b * hi + Nat.ofDigits b (l₁ ++ 0 :: 0 :: l₂)) := by
  have hword : Rep b (Nat.ofDigits b (lo :: hi :: l₂)) (lo + b * hi + Nat.ofDigits b l₂) := by
    rw [Nat.ofDigits_cons, Nat.ofDigits_cons, Nat.mul_add, ← Nat.mul_assoc, ← Nat.add_assoc]
    exact (Rep.refl b _).add (Rep.of_sq_mul hb _)
  have hzero : Rep b (Nat.ofDigits b (0 :: 0 :: l₂)) (Nat.ofDigits b l₂) := by
    rw [Nat.ofDigits_cons, Nat.ofDigits_cons, Nat.zero_add, Nat.zero_add, ← Nat.mul_assoc]
    exact Rep.of_sq_mul hb _
  have hleft := (ofDigits_append_even hb h (lo :: hi :: l₂)).trans ((Rep.refl b _).add hword)
  have hright := (ofDigits_append_even hb h (0 :: 0 :: l₂)).trans ((Rep.refl b _).add hzero)
  refine hleft.trans ?_
  rw [Nat.add_left_comm]
  exact (Rep.refl b _).add hright.symm

/-- **The complement completes the sum**: a number and the complement of its sum, added up, are all
ones. -/
theorem sum_add_complement (hb : 1 < b) (n : ℕ) : sum b (b * b - 1 - sum b n + n) = b * b - 1 := by
  have hsq : b < b * b := Nat.lt_mul_self_iff.2 hb
  have hlt := sum_lt hb n
  have hrep : Rep b (b * b - 1 - sum b n + n) (b * b - 1) := by
    have hadd := (Rep.refl b (b * b - 1 - sum b n)).add (sum_rep b n)
    rw [Nat.sub_add_cancel (by omega)] at hadd
    exact hadd.symm
  rw [sum_congr hb hrep]
  exact ((Rep.refl b _).eq_sum hb (by omega)).symm

end OnesComplement
