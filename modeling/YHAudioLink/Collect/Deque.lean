import YHAudioLink.Foundation.Blocks
import YHAudioLink.Foundation.Window

/-!
# The deque

`deque.c`: a double-ended queue of pointers in a circular buffer whose capacity is a power of two.
`first` is the index of the first element, `last` the index behind the last one, both kept below the
capacity with a mask, and `size` tells an empty buffer from a full one. A full deque that gets one
more element moves into a buffer of twice the capacity.

Sizes and indices are `size_t`, 32 bits wide, and `first - 1` wraps around before the mask is
applied. An access outside the buffer has no meaning, so every function that makes accesses returns
an option; that it is never `none` is part of what is proved of it.

## What stands for the elements

`contents` is the window of `size` cells from `first` on. All that an operation does to the elements
is one of the four moves of a window, and growing is a copy of the window to the beginning of
another buffer (`copyBuffer_of_wf`).
-/

namespace YHAudioLink

open Blocks ByteStore Ring

/-- `enum cc_stat`, as far as the deque returns it. -/
inductive CcStat
  | ok | errAlloc | errMaxCapacity | errOutOfRange
  deriving DecidableEq, Repr

/-- `DEFAULT_CAPACITY`. -/
def defaultCapacity : UInt32 := 8

/-- `MAX_POW_TWO`. -/
def maxPowTwo : UInt32 := 0x80000000

/-- `sizeof(void*)`. -/
def sizeofPointer : UInt32 := 4

/-- `sizeof(Deque)`. -/
def sizeofDeque : UInt32 := 32

/-- What the heap grants of a request in bytes, at one moment: nothing, or a block with room for
them. A request for no bytes is refused, as `pvPortMalloc` does. -/
structure Allocator (α : Type) where
  alloc : UInt32 → Option (Block α)
  room : ∀ {bytes : UInt32} {b : Block α}, alloc bytes = some b →
    0 < bytes.toNat ∧ bytes.toNat ≤ sizeofPointer.toNat * b.room

/-- `mem_calloc`: `pvPortCalloc` multiplies its arguments modulo `2 ^ 32`. -/
def Allocator.calloc {α : Type} (mem : Allocator α) (blocks size : UInt32) : Option (Block α) :=
  mem.alloc (blocks * size)

/-- A heap that grants every request for something. -/
def Allocator.grantAll {α : Type} (null : α) : Allocator α where
  alloc bytes := if bytes = 0 then none else some ⟨bytes.toNat, fun _ ↦ null⟩
  room := by
    intro bytes b hgrant
    split at hgrant
    · cases hgrant
    · next hne =>
      obtain rfl := Option.some.inj hgrant
      refine ⟨Nat.pos_of_ne_zero fun hzero ↦ hne (UInt32.toNat_inj.1 hzero), ?_⟩
      exact Nat.le_mul_of_pos_left bytes.toNat (by decide)

/-- A heap that grants nothing. -/
def Allocator.refuseAll {α : Type} : Allocator α where
  alloc _ := none
  room hgrant := by cases hgrant

/-- `struct deque_s`, without the allocator functions. -/
structure Deque (α : Type) where
  size : UInt32
  capacity : UInt32
  first : UInt32
  last : UInt32
  buffer : Block α

variable {α : Type}

/-- `upper_pow_two`. -/
def upperPowTwo (n : UInt32) : UInt32 :=
  if n ≥ maxPowTwo then maxPowTwo
  else if n = 0 then 2
  else
    let n := n - 1
    let n := n ||| n >>> 1
    let n := n ||| n >>> 2
    let n := n ||| n >>> 4
    let n := n ||| n >>> 8
    let n := n ||| n >>> 16
    n + 1

/-- `deque_new_conf` with this `capacity` in the configuration: the status, and the deque put into
`*d`. It makes two requests of the heap. The buffer is as long as the configuration says, not as
long as the capacity that is noted. -/
def dequeNewConf (mem mem' : Allocator α) (capacity : UInt32) : CcStat × Option (Deque α) :=
  match mem.calloc 1 sizeofDeque with
  | none => (.errAlloc, none)
  | some _ =>
    match mem'.alloc (capacity * sizeofPointer) with
    | none => (.errAlloc, none)
    | some buffer =>
      (.ok, some { size := 0, capacity := upperPowTwo capacity, first := 0, last := 0, buffer })

/-- `deque_new`. -/
def dequeNew (mem mem' : Allocator α) : CcStat × Option (Deque α) :=
  dequeNewConf mem mem' defaultCapacity

/-- `copy_buffer` without a function to copy elements: the elements move to the front of `buff`. A
deque whose `last` is not above its `first` is taken to wrap around, the empty one too. -/
def copyBuffer (d : Deque α) (buff : Block α) : Option (Block α) :=
  if d.last > d.first then buff.copy 0 d.buffer d.first.toNat d.size.toNat
  else do
    let l := d.last
    let e := d.capacity - d.first
    let buff ← buff.copy 0 d.buffer d.first.toNat e.toNat
    buff.copy e.toNat d.buffer 0 l.toNat

/-- `expand_capacity`. -/
def expandCapacity (mem : Allocator α) (d : Deque α) : Option (CcStat × Deque α) :=
  if d.capacity = maxPowTwo then some (.errMaxCapacity, d)
  else
    let newCapacity := d.capacity <<< 1
    match mem.calloc newCapacity sizeofPointer with
    | none => some (.errAlloc, d)
    | some newBuffer => do
      let buffer ← copyBuffer d newBuffer
      some (.ok, { d with first := 0, last := d.size, capacity := newCapacity, buffer })

/-- The last three statements of `deque_add_first`: the element goes before the first one. -/
def pushFirst (d : Deque α) (element : α) : Option (Deque α) := do
  let first := (d.first - 1) &&& (d.capacity - 1)
  let buffer ← d.buffer.write first.toNat element
  some { d with first, buffer, size := d.size + 1 }

/-- The last three statements of `deque_add_last`: the element goes behind the last one. -/
def pushLast (d : Deque α) (element : α) : Option (Deque α) := do
  let buffer ← d.buffer.write d.last.toNat element
  some { d with buffer, last := (d.last + 1) &&& (d.capacity - 1), size := d.size + 1 }

/-- `deque_add_first`. -/
def dequeAddFirst (mem : Allocator α) (d : Deque α) (element : α) : Option (CcStat × Deque α) := do
  let (st, d) ← if d.size ≥ d.capacity then expandCapacity mem d else some (.ok, d)
  if st ≠ .ok then some (.errAlloc, d)
  else
    let d ← pushFirst d element
    some (.ok, d)

/-- `deque_add_last`, and `deque_add`. -/
def dequeAddLast (mem : Allocator α) (d : Deque α) (element : α) : Option (CcStat × Deque α) := do
  let (st, d) ← if d.capacity = d.size then expandCapacity mem d else some (.ok, d)
  if st ≠ .ok then some (.errAlloc, d)
  else
    let d ← pushLast d element
    some (.ok, d)

/-- `deque_remove_first`: the status, the value put into `*out`, and the deque. -/
def dequeRemoveFirst (d : Deque α) : Option (CcStat × Option α × Deque α) :=
  if d.size = 0 then some (.errOutOfRange, none, d)
  else do
    let element ← d.buffer.read d.first.toNat
    let first := (d.first + 1) &&& (d.capacity - 1)
    some (.ok, some element, { d with first, size := d.size - 1 })

/-- `deque_remove_last`. -/
def dequeRemoveLast (d : Deque α) : Option (CcStat × Option α × Deque α) :=
  if d.size = 0 then some (.errOutOfRange, none, d)
  else do
    let last := (d.last - 1) &&& (d.capacity - 1)
    let element ← d.buffer.read last.toNat
    some (.ok, some element, { d with last, size := d.size - 1 })

/-- `deque_get_first`. -/
def dequeGetFirst (d : Deque α) : Option (CcStat × Option α) :=
  if d.size = 0 then some (.errOutOfRange, none)
  else do
    let element ← d.buffer.read d.first.toNat
    some (.ok, some element)

/-- `deque_get_last`. -/
def dequeGetLast (d : Deque α) : Option (CcStat × Option α) :=
  if d.size = 0 then some (.errOutOfRange, none)
  else do
    let last := (d.last - 1) &&& (d.capacity - 1)
    let element ← d.buffer.read last.toNat
    some (.ok, some element)

/-- `deque_get_at`. The bound is tested with `>`, so the index `size` passes. -/
def dequeGetAt (d : Deque α) (index : UInt32) : Option (CcStat × Option α) :=
  if index > d.size then some (.errOutOfRange, none)
  else do
    let i := (d.first + index) &&& (d.capacity - 1)
    let element ← d.buffer.read i.toNat
    some (.ok, some element)

/-- `deque_replace_at`: the value put into `*out` is the one replaced. -/
def dequeReplaceAt (d : Deque α) (element : α) (index : UInt32) :
    Option (CcStat × Option α × Deque α) :=
  if index ≥ d.size then some (.errOutOfRange, none, d)
  else do
    let i := (d.first + index) &&& (d.capacity - 1)
    let old ← d.buffer.read i.toNat
    let buffer ← d.buffer.write i.toNat element
    some (.ok, some old, { d with buffer })

/-- `deque_remove_all`. -/
def dequeRemoveAll (d : Deque α) : Deque α := { d with first := 0, last := 0, size := 0 }

/-- `deque_size`. -/
def dequeSize (d : Deque α) : UInt32 := d.size

/-- The loop of `deque_index_of`, with `n` elements left from the index `i` on. -/
def dequeIndexOfLoop [DecidableEq α] (d : Deque α) (element : α) (i : UInt32) :
    ℕ → Option (Option UInt32)
  | 0 => some none
  | n + 1 => do
    let p := (d.first + i) &&& (d.capacity - 1)
    let e ← d.buffer.read p.toNat
    if e = element then some (some i) else dequeIndexOfLoop d element (i + 1) n

/-- `deque_index_of`: the status and the index put into `*index`. -/
def dequeIndexOf [DecidableEq α] (d : Deque α) (element : α) : Option (CcStat × Option UInt32) := do
  match ← dequeIndexOfLoop d element 0 d.size.toNat with
  | some i => some (.ok, some i)
  | none => some (.errOutOfRange, none)

/-- The loop of `deque_foreach`, with `n` elements left from the index `i` on: the pointers `fn` is
called with. -/
def dequeForeachLoop (d : Deque α) (i : UInt32) : ℕ → Option (List α)
  | 0 => some []
  | n + 1 => do
    let p := (d.first + i) &&& (d.capacity - 1)
    let e ← d.buffer.read p.toNat
    let es ← dequeForeachLoop d (i + 1) n
    some (e :: es)

/-- `deque_foreach`: the pointers `fn` is called with, in order. -/
def dequeForeach (d : Deque α) : Option (List α) := dequeForeachLoop d 0 d.size.toNat

/-! ### Masks -/

/-- **A mask is a remainder**, below a power of two. -/
theorem toNat_and_mask {x c : UInt32} {k : ℕ} (hc : c.toNat = 2 ^ k) :
    (x &&& (c - 1)).toNat = x.toNat % c.toNat := by
  have hpos : 0 < 2 ^ k := Nat.two_pow_pos k
  have hsub : (c - 1).toNat = 2 ^ k - 1 := by
    rw [UInt32.toNat_sub_of_le]
    · rw [hc]
      rfl
    · rw [UInt32.le_iff_toNat_le, hc]
      exact hpos
  rw [UInt32.toNat_and, hsub, Nat.and_two_pow_sub_one_eq_mod, hc]

/-! ### Well-formed deques -/

namespace Deque

/-- The elements, the first one first. -/
def contents (d : Deque α) : List α :=
  window d.capacity.toNat d.buffer.cells d.first.toNat d.size.toNat

/-- **A deque as its functions leave it.** -/
structure Wf (d : Deque α) : Prop where
  pow : ∃ k, d.capacity.toNat = 2 ^ k
  size_le : d.size.toNat ≤ d.capacity.toNat
  room : d.capacity.toNat ≤ d.buffer.room
  first_lt : d.first.toNat < d.capacity.toNat
  last_eq : d.last.toNat = (d.first.toNat + d.size.toNat) % d.capacity.toNat

variable {d : Deque α}

@[simp] theorem length_contents : d.contents.length = d.size.toNat := length_window

namespace Wf

theorem capacity_pos (h : d.Wf) : 0 < d.capacity.toNat := Nat.zero_lt_of_lt h.first_lt

/-- The capacity divides the range of a `size_t`, so that indices may wrap around first. -/
theorem capacity_dvd (h : d.Wf) : d.capacity.toNat ∣ 2 ^ 32 := by
  obtain ⟨k, hk⟩ := h.pow
  have hlt := d.capacity.toNat_lt
  rw [hk] at hlt ⊢
  exact Nat.pow_dvd_pow 2 (Nat.le_of_lt ((Nat.pow_lt_pow_iff_right Nat.one_lt_two).1 hlt))

/-- An index computed modulo `2 ^ 32` and masked. -/
theorem mask (h : d.Wf) {x : UInt32} {y : ℕ} (hx : x.toNat = y % 2 ^ 32) :
    (x &&& (d.capacity - 1)).toNat = y % d.capacity.toNat := by
  obtain ⟨k, hk⟩ := h.pow
  rw [toNat_and_mask hk, hx, Nat.mod_mod_of_dvd _ h.capacity_dvd]

/-- The index of an element. -/
theorem mask_add (h : d.Wf) (i : UInt32) :
    ((d.first + i) &&& (d.capacity - 1)).toNat =
      (d.first.toNat + i.toNat) % d.capacity.toNat := h.mask (UInt32.toNat_add _ _)

/-- The index one before another. -/
theorem mask_pred (h : d.Wf) (x : UInt32) :
    ((x - 1) &&& (d.capacity - 1)).toNat = (2 ^ 32 - 1 + x.toNat) % d.capacity.toNat :=
  h.mask (UInt32.toNat_sub _ _)

/-- Behind the index one before another is the other. -/
theorem pred_succ (h : d.Wf) (x : ℕ) :
    (2 ^ 32 - 1 + x + 1) % d.capacity.toNat = x % d.capacity.toNat := by
  obtain ⟨q, hq⟩ := h.capacity_dvd
  rw [show 2 ^ 32 - 1 + x + 1 = 2 ^ 32 + x by omega, hq, Nat.mul_add_mod]

theorem lt_room (h : d.Wf) (i : ℕ) : i % d.capacity.toNat < d.buffer.room :=
  Nat.lt_of_lt_of_le (Nat.mod_lt i h.capacity_pos) h.room

/-- **Every element can be read.** -/
theorem read (h : d.Wf) (i : UInt32) (hi : i.toNat < d.contents.length) :
    d.buffer.read ((d.first + i) &&& (d.capacity - 1)).toNat = some d.contents[i.toNat] := by
  rw [h.mask_add, Block.read_of_lt (h.lt_room _)]
  exact congrArg some (getElem_window hi).symm

end Wf

end Deque

end YHAudioLink
