import YHAudioLink.Foundation.Ring

/-!
# The window of a circular memory

A circular memory of `size` cells from `0` on that holds a sequence of cells, one behind the other:
the **window** of `n` cells from a position on. The position is any number; only its cell counts
(`window_congr_mod`), so a first cell one before the cell `0` is the position `size - 1`.

There are four moves of a double-ended queue, and each is one equation: a cell put behind the window
(`window_put_back`) or before it (`window_put_front`), and a window that loses its first cell
(`window_succ`) or its last one (`window_concat`). A put needs room: with the window as long as the
memory the new cell would be one of its own.
-/

namespace Ring

open ByteStore

variable {α : Type*} {size : ℕ} {m : ℕ → α} {x y n i : ℕ} {v : α}

/-- The `n` cells from the position `x` on. -/
def window (size : ℕ) (m : ℕ → α) (x n : ℕ) : List α := load (unroll 0 size m) x n

@[simp] theorem length_window : (window size m x n).length = n := length_load _ _ _

@[simp] theorem window_zero : window size m x 0 = [] := rfl

theorem slot_zero : slot 0 size x = x % size := Nat.zero_add _

theorem getElem_window (h : i < (window size m x n).length) :
    (window size m x n)[i] = m ((x + i) % size) :=
  (getElem_load h).trans (congrArg m slot_zero)

/-- A window depends on its own cells only. -/
theorem window_congr {m' : ℕ → α} (h : ∀ i < n, m ((x + i) % size) = m' ((y + i) % size)) :
    window size m x n = window size m' y n := by
  refine List.ext_getElem (by simp) fun i hi _ ↦ ?_
  rw [getElem_window, getElem_window]
  exact h i (by simpa using hi)

/-- **Only the cell of the position counts.** -/
theorem window_congr_mod (h : x % size = y % size) : window size m x n = window size m y n :=
  window_congr fun i _ ↦ by rw [Nat.add_mod, h, ← Nat.add_mod]

/-- The first cell and the others. -/
theorem window_succ : window size m x (n + 1) = m (x % size) :: window size m (x + 1) n := by
  rw [window, Nat.add_comm, load_add]
  simp [load, unroll, slot_zero, window]

/-- The last cell and the others. -/
theorem window_concat : window size m x (n + 1) = window size m x n ++ [m ((x + n) % size)] := by
  rw [window, load_add]
  simp [load, unroll, slot_zero, window]

/-- A window splits at any point. -/
theorem window_add (a b : ℕ) :
    window size m x (a + b) = window size m x a ++ window size m (x + a) b := load_add _ x a b

/-- A window that does not wrap around is a block. -/
theorem window_eq_load (h : x + n ≤ size) : window size m x n = load m x n :=
  load_congr fun i hi ↦ by
    rw [unroll, slot_zero, Nat.mod_eq_of_lt (by omega)]

/-- A cell outside the window. -/
theorem window_update_of_ne (h : ∀ i < n, (x + i) % size ≠ y % size) :
    window size (Function.update m (y % size) v) x n = window size m x n :=
  window_congr fun i hi ↦ Function.update_of_ne (h i hi) v m

/-- Indices inside one revolution with the same cell are the same. -/
theorem mod_injOn {w : ℕ} (hx : w ≤ x) (hx' : x < w + size) (hy : w ≤ y) (hy' : y < w + size)
    (h : x % size = y % size) : x = y :=
  @slot_injOn 0 size x y w hx hx' hy hy' (by rw [slot_zero, slot_zero, h])

/-- Inside one revolution the cells are different. -/
theorem add_mod_ne (hi : i < n) (hn : n < size) : (x + i) % size ≠ (x + n) % size := by
  intro h
  have heq : x + i = x + n :=
    mod_injOn (Nat.le_add_right x i) (by omega) (Nat.le_add_right x n) (by omega) h
  omega

/-- **A cell put behind the window**, where there is room. -/
theorem window_put_back (hn : n < size) :
    window size (Function.update m ((x + n) % size) v) x (n + 1) = window size m x n ++ [v] := by
  rw [window_concat, window_update_of_ne fun i hi ↦ add_mod_ne hi hn, Function.update_self]

/-- **A cell put before the window**, where there is room. -/
theorem window_put_front (hn : n < size) (hy : (y + 1) % size = x % size) :
    window size (Function.update m (y % size) v) y (n + 1) = v :: window size m x n := by
  rw [window_succ, Function.update_self, window_congr_mod (y := x) hy]
  congr 1
  refine window_update_of_ne fun i hi ↦ ?_
  have hcell : (x + i) % size = (y + (i + 1)) % size := by
    rw [Nat.add_mod, ← hy, ← Nat.add_mod, Nat.add_assoc, Nat.add_comm 1 i]
  rw [hcell]
  intro hsame
  have heq : y + (i + 1) = y :=
    mod_injOn (by omega) (by omega) (Nat.le_refl y) (by omega) hsame
  omega

/-- A cell of the window replaced. -/
theorem window_update (hi : i < n) (hn : n ≤ size) :
    window size (Function.update m ((x + i) % size) v) x n = (window size m x n).set i v := by
  refine List.ext_getElem (by simp) fun j hj _ ↦ ?_
  rw [length_window] at hj
  rw [getElem_window, List.getElem_set]
  split
  · next heq => rw [heq, Function.update_self]
  · next hne =>
    rw [getElem_window]
    refine Function.update_of_ne (fun hsame ↦ hne ?_) v m
    have heq : x + j = x + i :=
      mod_injOn (Nat.le_add_right x j) (by omega) (Nat.le_add_right x i) (by omega) hsame
    omega

end Ring
