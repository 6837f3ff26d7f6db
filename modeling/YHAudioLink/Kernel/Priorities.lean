import YHAudioLink.Foundation.Bitmap

/-!
# Priorities of the kernel

The kernel keeps sets of tasks as two-level bitmaps: `OSRdyGrp` and `OSRdyTbl` are the ready tasks,
and every event has its own pair for the tasks that wait for it. A task is its priority, below 64;
the three high bits are the row and the three low bits the column. The table `OSUnMapTbl` finds the
first bit of a byte, so two lookups find the task of highest priority, which is the least number.
-/

namespace YHAudioLink

open Bitmaps

/-- A priority, which names a task: `OS_LOWEST_PRIO` is 63. -/
abbrev OsPrio : Type := Fin 64

/-- `OS_TASK_IDLE_PRIO`. -/
def osTaskIdlePrio : OsPrio := 63

/-- `OSTCBY`. -/
def ostcbY (prio : OsPrio) : Fin 8 := ⟨prio / 8, by omega⟩

/-- `OSTCBX`. -/
def ostcbX (prio : OsPrio) : Fin 8 := ⟨prio % 8, by omega⟩

/-- The priority of a row and a column. -/
def osPrioOf (y x : Fin 8) : OsPrio := ⟨8 * y + x, by omega⟩

/-- `OSUnMapTbl`. -/
def osUnMapTbl : List (Fin 8) :=
  [
    0, 0, 1, 0, 2, 0, 1, 0, 3, 0, 1, 0, 2, 0, 1, 0,
    4, 0, 1, 0, 2, 0, 1, 0, 3, 0, 1, 0, 2, 0, 1, 0,
    5, 0, 1, 0, 2, 0, 1, 0, 3, 0, 1, 0, 2, 0, 1, 0,
    4, 0, 1, 0, 2, 0, 1, 0, 3, 0, 1, 0, 2, 0, 1, 0,
    6, 0, 1, 0, 2, 0, 1, 0, 3, 0, 1, 0, 2, 0, 1, 0,
    4, 0, 1, 0, 2, 0, 1, 0, 3, 0, 1, 0, 2, 0, 1, 0,
    5, 0, 1, 0, 2, 0, 1, 0, 3, 0, 1, 0, 2, 0, 1, 0,
    4, 0, 1, 0, 2, 0, 1, 0, 3, 0, 1, 0, 2, 0, 1, 0,
    7, 0, 1, 0, 2, 0, 1, 0, 3, 0, 1, 0, 2, 0, 1, 0,
    4, 0, 1, 0, 2, 0, 1, 0, 3, 0, 1, 0, 2, 0, 1, 0,
    5, 0, 1, 0, 2, 0, 1, 0, 3, 0, 1, 0, 2, 0, 1, 0,
    4, 0, 1, 0, 2, 0, 1, 0, 3, 0, 1, 0, 2, 0, 1, 0,
    6, 0, 1, 0, 2, 0, 1, 0, 3, 0, 1, 0, 2, 0, 1, 0,
    4, 0, 1, 0, 2, 0, 1, 0, 3, 0, 1, 0, 2, 0, 1, 0,
    5, 0, 1, 0, 2, 0, 1, 0, 3, 0, 1, 0, 2, 0, 1, 0,
    4, 0, 1, 0, 2, 0, 1, 0, 3, 0, 1, 0, 2, 0, 1, 0]

/-- A lookup in `OSUnMapTbl`. -/
def osUnMap (b : BitVec 8) : Fin 8 := osUnMapTbl.getD b.toNat 0

/-- **The table finds the first bit.** -/
theorem osUnMap_findsFirst : Bitmap.FindsFirst osUnMap := by
  unfold Bitmap.FindsFirst
  decide +kernel

/-- A set of tasks: `OSRdyGrp` with `OSRdyTbl`, or `OSEventGrp` with `OSEventTbl`. -/
abbrev OsTbl : Type := Bitmap 8 8

namespace OsTbl

variable {t : OsTbl} {p q : OsPrio}

/-- The task is in the set. -/
protected def Mem (t : OsTbl) (p : OsPrio) : Prop := Bitmap.Mem t (ostcbY p) (ostcbX p)

instance : Membership OsPrio OsTbl := ⟨OsTbl.Mem⟩

instance : Decidable (p ∈ t) := inferInstanceAs (Decidable (Bitmap.Mem t (ostcbY p) (ostcbX p)))

/-- `OSRdyGrp |= OSTCBBitY; OSRdyTbl[OSTCBY] |= OSTCBBitX`. -/
protected def insert (t : OsTbl) (p : OsPrio) : OsTbl := Bitmap.insert t (ostcbY p) (ostcbX p)

/-- `OSRdyTbl[OSTCBY] &= ~OSTCBBitX; if (OSRdyTbl[OSTCBY] == 0) OSRdyGrp &= ~OSTCBBitY`. -/
protected def erase (t : OsTbl) (p : OsPrio) : OsTbl := Bitmap.erase t (ostcbY p) (ostcbX p)

/-- `y = OSUnMapTbl[OSRdyGrp]; prio = (y << 3) + OSUnMapTbl[OSRdyTbl[y]]`. -/
def highest (t : OsTbl) : OsPrio :=
  let yx := t.first osUnMap osUnMap
  osPrioOf yx.1 yx.2

/-- `OS_EventWaitListInit`. -/
protected def empty : OsTbl := Bitmap.empty 8 8

theorem eq_of_coords (hy : ostcbY p = ostcbY q) (hx : ostcbX p = ostcbX q) : p = q := by
  have hdiv : (p : ℕ) / 8 = q / 8 := congrArg Fin.val hy
  have hmod : (p : ℕ) % 8 = q % 8 := congrArg Fin.val hx
  exact Fin.ext (by omega)

theorem ostcbY_osPrioOf (y x : Fin 8) : ostcbY (osPrioOf y x) = y := by
  refine Fin.ext ?_
  show (8 * (y : ℕ) + x) / 8 = y
  omega

theorem ostcbX_osPrioOf (y x : Fin 8) : ostcbX (osPrioOf y x) = x := by
  refine Fin.ext ?_
  show (8 * (y : ℕ) + x) % 8 = x
  omega

@[simp] theorem notMem_empty : p ∉ OsTbl.empty := Bitmap.not_mem_empty

@[simp] theorem mem_insert : q ∈ t.insert p ↔ q = p ∨ q ∈ t := by
  refine Bitmap.mem_insert.trans (or_congr_left ⟨?_, ?_⟩)
  · rintro ⟨hy, hx⟩
    exact eq_of_coords hy hx
  · rintro rfl
    exact ⟨rfl, rfl⟩

@[simp] theorem mem_erase : q ∈ t.erase p ↔ q ≠ p ∧ q ∈ t := by
  refine Bitmap.mem_erase.trans (and_congr_left' (not_congr ⟨?_, ?_⟩))
  · rintro ⟨hy, hx⟩
    exact eq_of_coords hy hx
  · rintro rfl
    exact ⟨rfl, rfl⟩

/-- `OSEventGrp != 0`: some task is in the set. -/
theorem grp_ne_zero_iff : t.grp ≠ 0#8 ↔ ∃ p, p ∈ t := by
  rw [Bitmap.grp_ne_zero_iff]
  constructor
  · rintro ⟨y, x, h⟩
    refine ⟨osPrioOf y x, ?_⟩
    show Bitmap.Mem t _ _
    rwa [ostcbY_osPrioOf, ostcbX_osPrioOf]
  · rintro ⟨p, h⟩
    exact ⟨_, _, h⟩

/-- **The task found is in the set**, if there is one. -/
theorem highest_mem (h : p ∈ t) : t.highest ∈ t := by
  show Bitmap.Mem t _ _
  rw [highest, ostcbY_osPrioOf, ostcbX_osPrioOf]
  exact Bitmap.first_mem osUnMap_findsFirst osUnMap_findsFirst ⟨_, _, h⟩

/-- **No task in the set has a higher priority.** -/
theorem highest_le (h : p ∈ t) : t.highest ≤ p := by
  rw [highest, Fin.le_iff_val_le_val]
  have hp : (p : ℕ) = 8 * (ostcbY p : ℕ) + (ostcbX p : ℕ) := (Nat.div_add_mod p 8).symm
  rcases Bitmap.first_le osUnMap_findsFirst osUnMap_findsFirst h with hlt | ⟨heq, hle⟩
  · have hrow := Fin.lt_def.1 hlt
    show 8 * ((t.first osUnMap osUnMap).1 : ℕ) + (t.first osUnMap osUnMap).2 ≤ p
    omega
  · have hrow := congrArg Fin.val heq
    have hcol := Fin.le_iff_val_le_val.1 hle
    show 8 * ((t.first osUnMap osUnMap).1 : ℕ) + (t.first osUnMap osUnMap).2 ≤ p
    omega

end OsTbl

end YHAudioLink
