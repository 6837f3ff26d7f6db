import YHAudioLink.Foundation.ByteStore
import Mathlib.Data.Nat.ModEq
import Mathlib.Logic.Function.Basic

/-!
# Records in a circular memory

A memory of `size` cells from `base` on, used over and over. A **position** counts the cells from
the beginning of time and never wraps around; its cell is `slot`. Two positions less than `size`
apart have different cells (`slot_injOn`), so inside one revolution the memory, read by position, is
an ordinary memory: `unroll` is that reading, and a block put into the circular memory is a block
stored into the unrolled one (`unroll_put`).

On top stands a queue of records of various lengths, each behind the one before it. How a record is
laid out may depend on where it begins, as it does when it holds a link to its successor. `Chain`
says that the records lie in the unrolled memory from a position on; a record put behind the last
one is one more link as long as it stays within the revolution (`Chain.put`), and taking the first
one away is a matter of definition.
-/

namespace Ring

open ByteStore

variable {α ρ : Type*} (base size : ℕ)

/-! ### Positions and cells -/

/-- The cell of a position. -/
def slot (x : ℕ) : ℕ := base + x % size

/-- The cell `k` cells further on. -/
@[irreducible] def advance (a k : ℕ) : ℕ := base + (a - base + k) % size

/-- The number of cells from `a` up to `b`, going forward. -/
def distance (a b : ℕ) : ℕ := (b + size - a) % size

/-- The memory read by position. -/
def unroll (m : ℕ → α) : ℕ → α := fun x ↦ m (slot base size x)

/-- The block `bs` put into the circular memory, from the cell `a` on. -/
def put (m : ℕ → α) (a : ℕ) : List α → ℕ → α
  | [] => m
  | b :: bs => put (Function.update m a b) (advance base size a 1) bs

variable {base size} {m : ℕ → α} {x y w k : ℕ}

@[simp] theorem advance_slot : advance base size (slot base size x) k = slot base size (x + k) := by
  rw [advance, slot, slot, Nat.add_sub_cancel_left, Nat.mod_add_mod]

theorem le_slot : base ≤ slot base size x := Nat.le_add_right _ _

theorem slot_lt (h : 0 < size) : slot base size x < base + size :=
  Nat.add_lt_add_left (Nat.mod_lt x h) base

/-- **Inside one revolution the cells are different.** -/
theorem slot_injOn (hx : w ≤ x) (hx' : x < w + size) (hy : w ≤ y) (hy' : y < w + size)
    (h : slot base size x = slot base size y) : x = y := by
  have hmod : x ≡ y [MOD size] := Nat.add_left_cancel h
  rcases Nat.lt_trichotomy x y with hlt | heq | hgt
  · have hfar := hmod.add_le_of_lt hlt
    omega
  · exact heq
  · have hfar := hmod.symm.add_le_of_lt hgt
    omega

/-- The distance of two cells is the distance of their positions. -/
theorem distance_slot (hle : x ≤ y) (hlt : y < x + size) :
    distance size (slot base size x) (slot base size y) = y - x := by
  obtain ⟨d, rfl⟩ := Nat.exists_eq_add_of_le hle
  have hd : d < size := by omega
  have hmod := Nat.mod_lt x (by omega : 0 < size)
  rw [distance, slot, slot, Nat.add_mod_eq_ite, Nat.mod_eq_of_lt hd, Nat.add_sub_cancel_left]
  split
  · rw [show base + (x % size + d - size) + size - (base + x % size) = d by omega,
      Nat.mod_eq_of_lt hd]
  · rw [show base + (x % size + d) + size - (base + x % size) = d + size by omega,
      Nat.add_mod_right, Nat.mod_eq_of_lt hd]

/-! ### Blocks -/

theorem le_advance {a : ℕ} : base ≤ advance base size a k := by
  rw [advance]
  exact Nat.le_add_right _ _

/-- A block put into the circular memory leaves what lies before it. -/
theorem put_of_lt {a : ℕ} {bs : List α} (ha : base ≤ a) (hx : x < base) :
    put base size m a bs x = m x := by
  induction bs generalizing m a with
  | nil => rfl
  | cons b bs ih =>
    rw [put, ih le_advance, Function.update_of_ne (by omega)]

/-- One cell assigned, seen by position. -/
theorem unroll_update {b : α} (hx : w ≤ x) (hx' : x < w + size) (hy : w ≤ y) (hy' : y < w + size) :
    unroll base size (Function.update m (slot base size x) b) y =
      store (unroll base size m) x [b] y := by
  rcases eq_or_ne y x with rfl | hne
  · have hstored : store (unroll base size m) y [b] (y + 0) = b := store_of_inside Nat.zero_lt_one
    rw [unroll, Function.update_self]
    exact hstored.symm
  · have hcell : slot base size y ≠ slot base size x :=
      fun h ↦ hne (slot_injOn hy hy' hx hx' h)
    have houtside : y < x ∨ x + [b].length ≤ y := by
      rw [List.length_singleton]
      omega
    rw [store_of_outside houtside, unroll, Function.update_of_ne hcell, unroll]

/-- A block is its first byte and the rest. -/
theorem store_cons (m : ℕ → α) (x : ℕ) (b : α) (bs : List α) :
    store m x (b :: bs) = store (store m x [b]) (x + 1) bs := by
  funext y
  rcases Nat.lt_trichotomy y x with hlt | rfl | hgt
  · rw [store_of_outside (.inl hlt), store_of_outside (.inl (by omega)),
      store_of_outside (.inl hlt)]
  · have hrest : store (store m y [b]) (y + 1) bs y = store m y [b] y :=
      store_of_outside (.inl (Nat.lt_succ_self y))
    rw [hrest]
    simp [store]
  · obtain ⟨d, rfl⟩ := Nat.exists_eq_add_of_le hgt
    have hleft : store m x (b :: bs) (x + 1 + d) = bs[d]?.getD (m (x + 1 + d)) := by
      rw [store, if_pos (by omega), show x + 1 + d - x = d + 1 by omega, List.getElem?_cons_succ]
    have hmid : store m x [b] (x + 1 + d) = m (x + 1 + d) :=
      store_of_outside (.inr (by simp))
    rw [hleft, store, if_pos (by omega), Nat.add_sub_cancel_left, hmid]

/-- **A block put into the ring is a block stored into the unrolled memory**, inside the revolution
it fits in. -/
theorem unroll_put {bs : List α} (hx : w ≤ x) (hfit : x + bs.length ≤ w + size) (hy : w ≤ y)
    (hy' : y < w + size) :
    unroll base size (put base size m (slot base size x) bs) y =
      store (unroll base size m) x bs y := by
  induction bs generalizing m x with
  | nil => rw [put, store_of_outside (by simp; omega)]
  | cons b bs ih =>
    rw [List.length_cons] at hfit
    rw [put, advance_slot, ih (by omega) (by omega), store_cons]
    have hone : unroll base size (Function.update m (slot base size x) b) y =
        store (unroll base size m) x [b] y := unroll_update hx (by omega) hy hy'
    simp only [store]
    split
    · rw [hone, store]
    · rw [hone, store]

/-! ### Chains of records -/

section Chains

variable (enc : ρ → ℕ → List α)

/-- The position behind the records `rs` that begin at `x`. -/
def chainEnd : ℕ → List ρ → ℕ
  | x, [] => x
  | x, r :: rs => chainEnd (x + (enc r x).length) rs

/-- The records `rs` lie one behind the other from `x` on, each as `enc` lays it out there. -/
def Chain (m : ℕ → α) : ℕ → List ρ → Prop
  | _, [] => True
  | x, r :: rs => load m x (enc r x).length = enc r x ∧ Chain m (x + (enc r x).length) rs

variable {enc} {n : ℕ → α} {r : ρ} {rs : List ρ}

theorem le_chainEnd : x ≤ chainEnd enc x rs := by
  induction rs generalizing x with
  | nil => exact Nat.le_refl x
  | cons r rs ih => exact (Nat.le_add_right x _).trans ih

theorem chainEnd_append_singleton :
    chainEnd enc x (rs ++ [r]) = chainEnd enc x rs + (enc r (chainEnd enc x rs)).length := by
  induction rs generalizing x with
  | nil => rfl
  | cons r' rs ih => exact ih

/-- A chain depends on its own cells only. -/
theorem Chain.congr (h : Chain enc m x rs) (hmn : ∀ y, x ≤ y → y < chainEnd enc x rs → m y = n y) :
    Chain enc n x rs := by
  induction rs generalizing x with
  | nil => exact trivial
  | cons r rs ih =>
    have hend : x + (enc r x).length ≤ chainEnd enc x (r :: rs) := by
      rw [chainEnd]
      exact le_chainEnd
    refine ⟨?_, ih h.2 fun y hy hy' ↦ hmn y (by omega) hy'⟩
    rw [← load_congr fun i hi ↦ hmn (x + i) (by omega) (by omega)]
    exact h.1

/-- A record behind the last one. -/
theorem Chain.snoc (h : Chain enc m x rs)
    (hr : load m (chainEnd enc x rs) (enc r (chainEnd enc x rs)).length =
      enc r (chainEnd enc x rs)) : Chain enc m x (rs ++ [r]) := by
  induction rs generalizing x with
  | nil => exact ⟨hr, trivial⟩
  | cons r' rs ih => exact ⟨h.1, ih h.2 hr⟩

/-- **Putting a record behind the last one**, as long as the whole chain stays within one
revolution. -/
theorem Chain.put (h : Chain enc (unroll base size m) x rs)
    (hfit : chainEnd enc x (rs ++ [r]) ≤ x + size) :
    Chain enc (unroll base size (Ring.put base size m (slot base size (chainEnd enc x rs))
      (enc r (chainEnd enc x rs)))) x (rs ++ [r]) := by
  have hstart : x ≤ chainEnd enc x rs := le_chainEnd
  rw [chainEnd_append_singleton] at hfit
  refine Chain.snoc (h.congr fun y hy hy' ↦ ?_) ?_
  · rw [unroll_put hstart hfit hy (by omega), store_of_outside (.inl hy')]
  · rw [load_congr fun i hi ↦ unroll_put hstart hfit (by omega) (by omega), load_store]

/-- A byte of the first record. -/
theorem Chain.getElem_head (h : Chain enc m x (r :: rs)) {i : ℕ} (hi : i < (enc r x).length) :
    m (x + i) = (enc r x)[i] := by
  rw [List.getElem_of_eq h.1.symm hi, getElem_load]

end Chains

end Ring
