import Mathlib.Data.List.Basic
import Mathlib.Data.UInt

/-!
# Loads and stores

A memory, or a buffer in it, as a function from addresses to bytes, with the two operations of
`memcpy`: `load` takes a block out and `store` puts one in. There are no bounds here; an array is a
range of addresses, and staying inside it is a property of the accesses.

What a proof about a shared buffer needs is that an access sees only its own range. So the lemmas
are: a load of what was just stored, a load beside a store, and how a load splits at a point.

`load32` and `store32` are the accesses of a little-endian machine to a 32-bit word. Words are
natural numbers here, so that the arithmetic of a caller shows where it wraps around.
-/

namespace ByteStore

variable {α : Type*} {m m' : ℕ → α} {off off' len : ℕ} {xs : List α}

/-- The block of `len` bytes at `off`. -/
def load (m : ℕ → α) (off len : ℕ) : List α := (List.range len).map fun i ↦ m (off + i)

/-- The memory with the block `xs` put in at `off`. -/
def store (m : ℕ → α) (off : ℕ) (xs : List α) : ℕ → α := fun i ↦
  if off ≤ i then xs[i - off]?.getD (m i) else m i

@[simp] theorem length_load (m : ℕ → α) (off len : ℕ) : (load m off len).length = len := by
  rw [load, List.length_map, List.length_range]

@[simp] theorem load_zero (m : ℕ → α) (off : ℕ) : load m off 0 = [] := rfl

theorem getElem_load {i : ℕ} (h : i < (load m off len).length) :
    (load m off len)[i] = m (off + i) := by
  simp only [load, List.getElem_map, List.getElem_range]

/-- A load depends on its own range only. -/
theorem load_congr (h : ∀ i, i < len → m (off + i) = m' (off + i)) :
    load m off len = load m' off len :=
  List.map_congr_left fun i hi ↦ h i (List.mem_range.1 hi)

/-- **A load splits at any point of its range.** -/
theorem load_add (m : ℕ → α) (off a b : ℕ) :
    load m off (a + b) = load m off a ++ load m (off + a) b := by
  simp only [load, List.range_add, List.map_append, List.map_map]
  congr 1
  exact List.map_congr_left fun i _ ↦ congrArg m (by dsimp only [Function.comp]; omega)

/-- Outside its range a store changes nothing. -/
theorem store_of_outside {i : ℕ} (h : i < off ∨ off + xs.length ≤ i) : store m off xs i = m i := by
  rw [store]
  split
  · next hle =>
    rw [List.getElem?_eq_none (by omega), Option.getD_none]
  · rfl

/-- Inside its range a store puts the block. -/
theorem store_of_inside {i : ℕ} (h : i < xs.length) : store m off xs (off + i) = xs[i] := by
  rw [store, if_pos (Nat.le_add_right _ _), Nat.add_sub_cancel_left,
    List.getElem?_eq_getElem h, Option.getD_some]

/-- **What was stored is loaded.** -/
theorem load_store (m : ℕ → α) (off : ℕ) (xs : List α) :
    load (store m off xs) off xs.length = xs := by
  refine List.ext_getElem (length_load _ _ _) fun i h _ ↦ ?_
  rw [length_load] at h
  rw [getElem_load, store_of_inside h]

/-- The beginning of what was stored. -/
theorem load_store_left (m : ℕ → α) (off : ℕ) (xs ys : List α) :
    load (store m off (xs ++ ys)) off xs.length = xs := by
  have hall := load_store m off (xs ++ ys)
  rw [List.length_append, load_add] at hall
  exact List.append_inj_left hall (length_load _ _ _)

/-- **A load beside a store sees the old bytes.** -/
theorem load_store_of_disjoint (h : off' + len ≤ off ∨ off + xs.length ≤ off') :
    load (store m off xs) off' len = load m off' len := by
  refine load_congr fun i hi ↦ store_of_outside ?_
  omega

/-- A block stored behind what was loaded makes the load longer. -/
theorem load_store_append (m : ℕ → α) (off len : ℕ) (xs : List α) :
    load (store m (off + len) xs) off (len + xs.length) = load m off len ++ xs := by
  rw [load_add, load_store, load_store_of_disjoint (Or.inl (Nat.le_refl _))]

/-! ### Words -/

section Words

variable {m m' : ℕ → UInt8} {a b v : ℕ}

/-- The 32-bit word at `a`, low byte first. -/
def load32 (m : ℕ → UInt8) (a : ℕ) : ℕ :=
  (m a).toNat + (m (a + 1)).toNat * 2 ^ 8 + (m (a + 2)).toNat * 2 ^ 16 +
    (m (a + 3)).toNat * 2 ^ 24

/-- The memory with the word `v`, taken modulo `2 ^ 32`, put in at `a`. -/
def store32 (m : ℕ → UInt8) (a v : ℕ) : ℕ → UInt8 :=
  store m a [UInt8.ofNat v, UInt8.ofNat (v / 2 ^ 8), UInt8.ofNat (v / 2 ^ 16),
    UInt8.ofNat (v / 2 ^ 24)]

theorem load32_lt (m : ℕ → UInt8) (a : ℕ) : load32 m a < 2 ^ 32 := by
  have h₀ := (m a).toNat_lt
  have h₁ := (m (a + 1)).toNat_lt
  have h₂ := (m (a + 2)).toNat_lt
  have h₃ := (m (a + 3)).toNat_lt
  rw [load32]
  omega

/-- A word depends on its four bytes only. -/
theorem load32_congr (h : ∀ i, i < 4 → m (a + i) = m' (a + i)) : load32 m a = load32 m' a := by
  have h₀ : m a = m' a := h 0 (by omega)
  rw [load32, load32, h₀, h 1 (by omega), h 2 (by omega), h 3 (by omega)]

/-- Outside its four bytes a store of a word changes nothing. -/
theorem store32_of_outside {i : ℕ} (h : i < a ∨ a + 4 ≤ i) : store32 m a v i = m i :=
  store_of_outside h

/-- **The word stored is loaded.** -/
theorem load32_store32 (m : ℕ → UInt8) (a : ℕ) (hv : v < 2 ^ 32) :
    load32 (store32 m a v) a = v := by
  have hbyte : ∀ i (hi : i < 4), store32 m a v (a + i) =
      [UInt8.ofNat v, UInt8.ofNat (v / 2 ^ 8), UInt8.ofNat (v / 2 ^ 16),
        UInt8.ofNat (v / 2 ^ 24)][i] := fun i hi ↦ store_of_inside hi
  have h₀ : store32 m a v a = UInt8.ofNat v := hbyte 0 (by omega)
  rw [load32, h₀, hbyte 1 (by omega), hbyte 2 (by omega), hbyte 3 (by omega)]
  simp only [List.getElem_cons_succ, List.getElem_cons_zero, UInt8.toNat_ofNat']
  omega

/-- **A word beside a stored one is the old one.** -/
theorem load32_store32_of_disjoint (h : b + 4 ≤ a ∨ a + 4 ≤ b) :
    load32 (store32 m a v) b = load32 m b :=
  load32_congr fun i hi ↦ store32_of_outside (by omega)

end Words

end ByteStore
