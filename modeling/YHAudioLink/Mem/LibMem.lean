import YHAudioLink.Foundation.ByteStore
import Mathlib.Data.Nat.Bitwise

/-!
# The heap of the board

`lib_mem.c`: FreeRTOS `heap_4` with its array placed at a fixed address in the external SRAM, and
with two functions added, `pvPortCalloc` and `pvPortMemDeinit`.

Every block, free or not, begins with an `xBlockLink`: a pointer to the next free block and a size.
The free blocks are a linked list from `xStart` to `pxEnd`, and the headers live in the same memory
as the data of the callers. So the memory is modelled as bytes, and a header field is a word in it.

* Pointers and `size_t` are 32 bits wide. They are natural numbers here, and every sum and
  difference of the source is `add32` or `sub32`, which wrap.
* The two list walks carry **fuel**, as many steps as the array has bytes. `none` is a walk that has
  not ended by then; that this never happens is proved, not assumed.
* `xStart` is a static variable, and where the linker puts it is a parameter (`Placement`).
-/

namespace YHAudioLink

open ByteStore

/-! ### Sizes and addresses -/

/-- The width of a pointer and of `size_t`, in values. -/
abbrev wordSize : ℕ := 2 ^ 32

/-- Addition of two words. -/
def add32 (a b : ℕ) : ℕ := (a + b) % wordSize

/-- Subtraction of two words. -/
def sub32 (a b : ℕ) : ℕ := (a + (wordSize - b)) % wordSize

/-- The complement of a word. -/
def not32 (a : ℕ) : ℕ := wordSize - 1 - a

/-- `portBYTE_ALIGNMENT`. -/
abbrev portByteAlignment : ℕ := 8

/-- `portBYTE_ALIGNMENT_MASK`. -/
abbrev portByteAlignmentMask : ℕ := 0x0007

/-- `configTOTAL_HEAP_SIZE`. -/
abbrev configTotalHeapSize : ℕ := 1000000

/-- The address of `ucHeap`. -/
abbrev ucHeap : ℕ := 0x68000000

/-- `sizeof(xBlockLink)`: a pointer and a `size_t`. -/
abbrev sizeofBlockLink : ℕ := 8

/-- `heapSTRUCT_SIZE`: the size of a header, rounded up to the alignment. -/
def heapStructSize : ℕ :=
  (sizeofBlockLink + (portByteAlignment - 1)) &&& not32 portByteAlignmentMask

/-- `heapMINIMUM_BLOCK_SIZE`. -/
def heapMinimumBlockSize : ℕ := heapStructSize * 2

/-- `heapADJUSTED_HEAP_SIZE`. -/
def heapAdjustedHeapSize : ℕ := configTotalHeapSize - portByteAlignment

/-- `xTotalHeapSize`. -/
def xTotalHeapSize : ℕ := heapAdjustedHeapSize &&& not32 portByteAlignmentMask

/-- `pucAlignedHeap`: the first aligned address behind the first byte of the array. -/
def pucAlignedHeap : ℕ := (ucHeap + portByteAlignment) &&& not32 portByteAlignmentMask

/-- `pucHeapEnd`: where `prvHeapInit` puts the end marker. -/
def pucHeapEnd : ℕ := sub32 (add32 pucAlignedHeap xTotalHeapSize) heapStructSize

/-- Where the linker has put `xStart`: outside the array. -/
structure Placement where
  xStart : ℕ
  fits : xStart + sizeofBlockLink ≤ wordSize
  apart : xStart + sizeofBlockLink ≤ ucHeap ∨ ucHeap + configTotalHeapSize ≤ xStart

/-! ### Headers -/

/-- The field `pxNextFreeBlock` of the header at `p`. -/
def pxNextFreeBlock (m : ℕ → UInt8) (p : ℕ) : ℕ := load32 m p

/-- The field `xBlockSize` of the header at `p`. -/
def xBlockSize (m : ℕ → UInt8) (p : ℕ) : ℕ := load32 m (p + 4)

/-- The memory after `p->pxNextFreeBlock = v`. -/
def setNextFreeBlock (m : ℕ → UInt8) (p v : ℕ) : ℕ → UInt8 := store32 m p v

/-- The memory after `p->xBlockSize = v`. -/
def setBlockSize (m : ℕ → UInt8) (p v : ℕ) : ℕ → UInt8 := store32 m (p + 4) v

/-! ### The state -/

/-- The memory and the three static variables beside `xStart`. -/
structure LibMem where
  mem : ℕ → UInt8
  pxEnd : ℕ
  xFreeBytesRemaining : ℕ
  xBlockAllocatedBit : ℕ

/-- How many steps a walk along the free list may take. -/
def walkFuel : ℕ := configTotalHeapSize

/-! ### `prvHeapInit` and `pvPortMemDeinit` -/

/-- Lay out the array as one free block and the end marker behind it. A failed `configASSERT` does
not return. -/
def prvHeapInit (L : Placement) (h : LibMem) : Option LibMem :=
  let mem := setNextFreeBlock h.mem L.xStart pucAlignedHeap
  let mem := setBlockSize mem L.xStart 0
  let pxEnd := pucHeapEnd
  if pxEnd &&& portByteAlignmentMask = 0 then
    let mem := setBlockSize mem pxEnd 0
    let mem := setNextFreeBlock mem pxEnd 0
    let pxFirstFreeBlock := pucAlignedHeap
    let mem := setBlockSize mem pxFirstFreeBlock (sub32 xTotalHeapSize heapStructSize)
    let mem := setNextFreeBlock mem pxFirstFreeBlock pxEnd
    some {
      mem
      pxEnd
      xFreeBytesRemaining := sub32 h.xFreeBytesRemaining heapStructSize
      xBlockAllocatedBit := 1 <<< (4 * 8 - 1) }
  else none

/-- Back to the state before the first allocation. -/
def pvPortMemDeinit (L : Placement) (h : LibMem) : LibMem where
  mem := store h.mem L.xStart (List.replicate sizeofBlockLink 0)
  pxEnd := 0
  xFreeBytesRemaining := heapAdjustedHeapSize &&& not32 portByteAlignmentMask
  xBlockAllocatedBit := 0

/-- The static initialisers, with any contents of the memory. -/
def LibMem.atBoot (mem : ℕ → UInt8) : LibMem where
  mem
  pxEnd := 0
  xFreeBytesRemaining := heapAdjustedHeapSize &&& not32 portByteAlignmentMask
  xBlockAllocatedBit := 0

/-! ### `prvInsertBlockIntoFreeList` -/

/-- The `for` loop: the last node of the list whose address is below the block's. -/
def insertIterator (m : ℕ → UInt8) (pxBlockToInsert : ℕ) : ℕ → ℕ → Option ℕ
  | 0, _ => none
  | fuel + 1, pxIterator =>
    if pxNextFreeBlock m pxIterator < pxBlockToInsert then
      insertIterator m pxBlockToInsert fuel (pxNextFreeBlock m pxIterator)
    else some pxIterator

/-- Does the block follow the node without a gap? Then the node takes its bytes, and is the block to
be linked from here on. -/
def mergeFront (m : ℕ → UInt8) (pxIterator pxBlockToInsert : ℕ) : (ℕ → UInt8) × ℕ :=
  if add32 pxIterator (xBlockSize m pxIterator) = pxBlockToInsert then
    (setBlockSize m pxIterator
      (add32 (xBlockSize m pxIterator) (xBlockSize m pxBlockToInsert)), pxIterator)
  else (m, pxBlockToInsert)

/-- Link the block to what follows the node, merging the two if nothing lies between them. -/
def linkBack (m : ℕ → UInt8) (pxEnd pxIterator pxBlockToInsert : ℕ) : ℕ → UInt8 :=
  if add32 pxBlockToInsert (xBlockSize m pxBlockToInsert) = pxNextFreeBlock m pxIterator then
    if pxNextFreeBlock m pxIterator ≠ pxEnd then
      let mem := setBlockSize m pxBlockToInsert
        (add32 (xBlockSize m pxBlockToInsert) (xBlockSize m (pxNextFreeBlock m pxIterator)))
      setNextFreeBlock mem pxBlockToInsert (pxNextFreeBlock mem (pxNextFreeBlock mem pxIterator))
    else setNextFreeBlock m pxBlockToInsert pxEnd
  else setNextFreeBlock m pxBlockToInsert (pxNextFreeBlock m pxIterator)

/-- Link the node to the block, unless the two have been merged. -/
def linkFront (m : ℕ → UInt8) (pxIterator pxBlockToInsert : ℕ) : ℕ → UInt8 :=
  if pxIterator ≠ pxBlockToInsert then setNextFreeBlock m pxIterator pxBlockToInsert else m

/-- What follows the `for` loop. -/
def insertAfter (m : ℕ → UInt8) (pxEnd pxIterator pxBlockToInsert : ℕ) : ℕ → UInt8 :=
  let merged := mergeFront m pxIterator pxBlockToInsert
  linkFront (linkBack merged.1 pxEnd pxIterator merged.2) pxIterator merged.2

/-- Put a block into the free list, at the place of its address. -/
def prvInsertBlockIntoFreeList (L : Placement) (m : ℕ → UInt8) (pxEnd pxBlockToInsert : ℕ) :
    Option (ℕ → UInt8) :=
  (insertIterator m pxBlockToInsert walkFuel L.xStart).map fun pxIterator ↦
    insertAfter m pxEnd pxIterator pxBlockToInsert

/-! ### `pvPortMalloc` -/

/-- The wanted size with room for a header, rounded up to the alignment. -/
def adjustedSize (xWantedSize : ℕ) : ℕ :=
  if 0 < xWantedSize then
    let size := add32 xWantedSize heapStructSize
    if size &&& portByteAlignmentMask ≠ 0 then
      add32 size (portByteAlignment - (size &&& portByteAlignmentMask))
    else size
  else xWantedSize

/-- The `while` loop: the first block that is large enough, or the end marker, with the node before
it. -/
def findFit (m : ℕ → UInt8) (xWantedSize : ℕ) : ℕ → ℕ → ℕ → Option (ℕ × ℕ)
  | 0, _, _ => none
  | fuel + 1, pxPreviousBlock, pxBlock =>
    if xBlockSize m pxBlock < xWantedSize ∧ pxNextFreeBlock m pxBlock ≠ 0 then
      findFit m xWantedSize fuel pxBlock (pxNextFreeBlock m pxBlock)
    else some (pxPreviousBlock, pxBlock)

/-- Cut the block down to the wanted size, if the rest is worth a block of its own. -/
def splitBlock (L : Placement) (m : ℕ → UInt8) (pxEnd xWantedSize pxBlock : ℕ) :
    Option (ℕ → UInt8) :=
  if heapMinimumBlockSize < sub32 (xBlockSize m pxBlock) xWantedSize then
    let pxNewBlockLink := add32 pxBlock xWantedSize
    let mem := setBlockSize m pxNewBlockLink (sub32 (xBlockSize m pxBlock) xWantedSize)
    let mem := setBlockSize mem pxBlock xWantedSize
    prvInsertBlockIntoFreeList L mem pxEnd pxNewBlockLink
  else some m

/-- Take a block out of the free list and mark it as allocated. -/
def takeBlock (L : Placement) (h : LibMem) (xWantedSize pxPreviousBlock pxBlock : ℕ) :
    Option (ℕ × LibMem) :=
  let pvReturn := add32 (pxNextFreeBlock h.mem pxPreviousBlock) heapStructSize
  let mem := setNextFreeBlock h.mem pxPreviousBlock (pxNextFreeBlock h.mem pxBlock)
  (splitBlock L mem h.pxEnd xWantedSize pxBlock).map fun mem ↦
    let xFreeBytesRemaining := sub32 h.xFreeBytesRemaining (xBlockSize mem pxBlock)
    let mem := setBlockSize mem pxBlock (xBlockSize mem pxBlock ||| h.xBlockAllocatedBit)
    let mem := setNextFreeBlock mem pxBlock 0
    (pvReturn, { h with mem, xFreeBytesRemaining })

/-- The allocation proper, on an initialised heap. -/
def allocate (L : Placement) (h : LibMem) (xWantedSize : ℕ) : Option (ℕ × LibMem) :=
  if xWantedSize &&& h.xBlockAllocatedBit = 0 then
    let xWantedSize := adjustedSize xWantedSize
    if 0 < xWantedSize ∧ xWantedSize ≤ h.xFreeBytesRemaining then
      (findFit h.mem xWantedSize walkFuel L.xStart (pxNextFreeBlock h.mem L.xStart)).bind
        fun (pxPreviousBlock, pxBlock) ↦
          if pxBlock ≠ h.pxEnd then takeBlock L h xWantedSize pxPreviousBlock pxBlock
          else some (0, h)
    else some (0, h)
  else some (0, h)

/-- `pvPortMalloc`: the pointer returned, and the heap behind the call. -/
def pvPortMalloc (L : Placement) (h : LibMem) (xWantedSize : ℕ) : Option (ℕ × LibMem) :=
  (if h.pxEnd = 0 then prvHeapInit L h else some h).bind fun h ↦ allocate L h xWantedSize

/-- `pvPortCalloc`. The `memset` is made whatever `pvPortMalloc` has returned. -/
def pvPortCalloc (L : Placement) (h : LibMem) (n xWantedSize : ℕ) : Option (ℕ × LibMem) :=
  (pvPortMalloc L h (n * xWantedSize % wordSize)).map fun (pvReturn, h) ↦
    (pvReturn,
      { h with mem := store h.mem pvReturn (List.replicate (n * xWantedSize % wordSize) 0) })

/-! ### `vPortFree` -/

/-- `vPortFree`. A block that is not marked as allocated, or that is linked, is left alone. -/
def vPortFree (L : Placement) (h : LibMem) (pv : ℕ) : Option LibMem :=
  if pv ≠ 0 then
    let pxLink := sub32 pv heapStructSize
    if xBlockSize h.mem pxLink &&& h.xBlockAllocatedBit ≠ 0 then
      if pxNextFreeBlock h.mem pxLink = 0 then
        let mem := setBlockSize h.mem pxLink
          (xBlockSize h.mem pxLink &&& not32 h.xBlockAllocatedBit)
        let xFreeBytesRemaining := add32 h.xFreeBytesRemaining (xBlockSize mem pxLink)
        (prvInsertBlockIntoFreeList L mem h.pxEnd pxLink).map fun mem ↦
          { h with mem, xFreeBytesRemaining }
      else some h
    else some h
  else some h

/-- `xPortGetFreeHeapSize`. -/
def xPortGetFreeHeapSize (h : LibMem) : ℕ := h.xFreeBytesRemaining

/-! ### Arithmetic of the sizes -/

theorem add32_eq {a b : ℕ} (h : a + b < 2 ^ 32) : add32 a b = a + b := Nat.mod_eq_of_lt h

theorem sub32_eq {a b : ℕ} (hb : b ≤ a) (ha : a < 2 ^ 32) : sub32 a b = a - b := by
  show (a + (2 ^ 32 - b)) % 2 ^ 32 = a - b
  have hsum : a + (2 ^ 32 - b) = a - b + 2 ^ 32 := by omega
  rw [hsum, Nat.add_mod_right]
  exact Nat.mod_eq_of_lt (by omega)

theorem heapStructSize_eq : heapStructSize = 8 := rfl

theorem heapMinimumBlockSize_eq : heapMinimumBlockSize = 16 := rfl

theorem pucAlignedHeap_eq : pucAlignedHeap = 0x68000008 := rfl

theorem pucHeapEnd_eq : pucHeapEnd = 0x68000000 + 999992 := rfl

theorem and_portByteAlignmentMask (a : ℕ) : a &&& portByteAlignmentMask = a % 8 :=
  Nat.and_two_pow_sub_one_eq_mod a 3

/-- **The adjusted size** of a request below the allocated bit holds the request and a header, and
is a multiple of the alignment. -/
theorem adjustedSize_spec {n : ℕ} (hpos : 0 < n) (hlt : n < 2 ^ 31) :
    n + 8 ≤ adjustedSize n ∧ adjustedSize n < n + 16 ∧ 8 ∣ adjustedSize n := by
  have hsize : add32 n heapStructSize = n + 8 := add32_eq (by rw [heapStructSize_eq]; omega)
  simp only [adjustedSize, if_pos hpos, hsize, and_portByteAlignmentMask]
  split
  · next hne =>
    have hround : add32 (n + 8) (8 - (n + 8) % 8) = n + 8 + (8 - (n + 8) % 8) :=
      add32_eq (by omega)
    rw [hround]
    omega
  · next heq => omega

theorem adjustedSize_zero : adjustedSize 0 = 0 := rfl

/-! ### The allocated bit -/

/-- The top bit is clear in the words below it. -/
theorem and_allocatedBit_eq_zero {n : ℕ} (hn : n < 2 ^ 32) : n &&& 2 ^ 31 = 0 ↔ n < 2 ^ 31 := by
  have hbit : n.testBit 31 = true ↔ ¬ n < 2 ^ 31 := by
    rw [Nat.testBit_eq_decide_div_mod_eq, decide_eq_true_eq]
    omega
  rw [Nat.and_two_pow]
  cases h : n.testBit 31 with
  | false => simpa [h] using hbit
  | true => simpa [h] using hbit

theorem or_allocatedBit {n : ℕ} (hn : n < 2 ^ 31) : n ||| 2 ^ 31 = n + 2 ^ 31 := by
  rw [Nat.or_comm, Nat.add_comm]
  exact (Nat.two_pow_add_eq_or_of_lt hn 1).symm

/-- Clearing the bit gives the size back. -/
theorem and_not32_allocatedBit {n : ℕ} (hn : n < 2 ^ 31) :
    (n + 2 ^ 31) &&& not32 (2 ^ 31) = n := by
  have hmod : (n + 2 ^ 31) &&& not32 (2 ^ 31) = (n + 2 ^ 31) % 2 ^ 31 :=
    Nat.and_two_pow_sub_one_eq_mod _ 31
  rw [hmod]
  omega

/-! ### Reading a header behind a write to one -/

section Headers

variable {L : Placement} {m : ℕ → UInt8} {p q v : ℕ}

/-- An address of a header: of `xStart`, or an aligned one in the array. -/
def Placement.IsHeader (L : Placement) (p : ℕ) : Prop :=
  p = L.xStart ∨ 8 ∣ p ∧ pucAlignedHeap ≤ p ∧ p ≤ pucHeapEnd

theorem Placement.isHeader_xStart : L.IsHeader L.xStart := Or.inl rfl

theorem Placement.outside (L : Placement) :
    L.xStart + 8 ≤ 0x68000000 ∨ 0x68000000 + 1000000 ≤ L.xStart := L.apart

/-- `xStart` is none of the headers in the array. -/
theorem Placement.ne_xStart (hlo : pucAlignedHeap ≤ p) (hhi : p ≤ pucHeapEnd) : p ≠ L.xStart := by
  rintro rfl
  rw [pucAlignedHeap_eq] at hlo
  rw [pucHeapEnd_eq] at hhi
  have hapart := L.outside
  omega

theorem Placement.IsHeader.lt (hp : L.IsHeader p) : p + 8 ≤ 2 ^ 32 := by
  rcases hp with rfl | ⟨-, -, hhi⟩
  · exact L.fits
  · rw [pucHeapEnd_eq] at hhi
    omega

/-- **Two headers do not overlap**: in the array they are aligned, and `xStart` lies outside. -/
theorem Placement.IsHeader.apart (hp : L.IsHeader p) (hq : L.IsHeader q) (hne : p ≠ q) :
    p + 8 ≤ q ∨ q + 8 ≤ p := by
  have hL := L.outside
  have hlo := pucAlignedHeap_eq
  have hhi := pucHeapEnd_eq
  rcases hp with rfl | ⟨hp8, hp⟩ <;> rcases hq with rfl | ⟨hq8, hq⟩
  · exact absurd rfl hne
  · omega
  · omega
  · omega

theorem pxNextFreeBlock_lt (m : ℕ → UInt8) (p : ℕ) : pxNextFreeBlock m p < 2 ^ 32 := load32_lt m p

@[simp] theorem pxNextFreeBlock_setNextFreeBlock (h : v < 2 ^ 32) :
    pxNextFreeBlock (setNextFreeBlock m p v) p = v :=
  load32_store32 m p h

@[simp] theorem xBlockSize_setBlockSize (h : v < 2 ^ 32) :
    xBlockSize (setBlockSize m p v) p = v :=
  load32_store32 m (p + 4) h

@[simp] theorem xBlockSize_setNextFreeBlock :
    xBlockSize (setNextFreeBlock m p v) p = xBlockSize m p :=
  load32_store32_of_disjoint (Or.inr (Nat.le_refl _))

@[simp] theorem pxNextFreeBlock_setBlockSize :
    pxNextFreeBlock (setBlockSize m p v) p = pxNextFreeBlock m p :=
  load32_store32_of_disjoint (Or.inl (Nat.le_refl _))

/-- The two memories have the same header at `q`. -/
def SameHeader (m m' : ℕ → UInt8) (q : ℕ) : Prop :=
  pxNextFreeBlock m' q = pxNextFreeBlock m q ∧ xBlockSize m' q = xBlockSize m q

theorem SameHeader.refl (m : ℕ → UInt8) (q : ℕ) : SameHeader m m q := ⟨rfl, rfl⟩

theorem SameHeader.trans {m₁ m₂ m₃ : ℕ → UInt8} (h : SameHeader m₁ m₂ q)
    (h' : SameHeader m₂ m₃ q) : SameHeader m₁ m₃ q :=
  ⟨h'.1.trans h.1, h'.2.trans h.2⟩

/-- **A link set in one header changes no other.** -/
theorem sameHeader_setNextFreeBlock (hp : L.IsHeader p) (hq : L.IsHeader q) (hne : q ≠ p) :
    SameHeader m (setNextFreeBlock m p v) q := by
  have hapart := hq.apart hp hne
  exact ⟨load32_store32_of_disjoint (by omega), load32_store32_of_disjoint (by omega)⟩

/-- **A size set in one header changes no other.** -/
theorem sameHeader_setBlockSize (hp : L.IsHeader p) (hq : L.IsHeader q) (hne : q ≠ p) :
    SameHeader m (setBlockSize m p v) q := by
  have hapart := hq.apart hp hne
  exact ⟨load32_store32_of_disjoint (by omega), load32_store32_of_disjoint (by omega)⟩

/-- **A block stored beside a header does not change it.** -/
theorem sameHeader_store {off : ℕ} {xs : List UInt8} (h : q + 8 ≤ off ∨ off + xs.length ≤ q) :
    SameHeader m (store m off xs) q :=
  ⟨load32_congr fun i hi ↦ store_of_outside (by omega),
    load32_congr fun i hi ↦ store_of_outside (by omega)⟩

/-- The memories differ in the headers at these addresses only. -/
def SameOutside (S : Set ℕ) (m m' : ℕ → UInt8) : Prop :=
  ∀ a, (∀ q ∈ S, a < q ∨ q + 8 ≤ a) → m' a = m a

namespace SameOutside

variable {S T : Set ℕ} {m₁ m₂ m₃ : ℕ → UInt8}

theorem refl (S : Set ℕ) (m : ℕ → UInt8) : SameOutside S m m := fun _ _ ↦ rfl

theorem trans (h : SameOutside S m₁ m₂) (h' : SameOutside S m₂ m₃) : SameOutside S m₁ m₃ :=
  fun a ha ↦ (h' a ha).trans (h a ha)

theorem mono (h : SameOutside S m₁ m₂) (hST : S ⊆ T) : SameOutside T m₁ m₂ :=
  fun a ha ↦ h a fun q hq ↦ ha q (hST hq)

theorem setNextFreeBlock (hp : p ∈ S) : SameOutside S m (setNextFreeBlock m p v) := fun a ha ↦
  store32_of_outside (by have hout := ha p hp; omega)

theorem setBlockSize (hp : p ∈ S) : SameOutside S m (setBlockSize m p v) := fun a ha ↦
  store32_of_outside (by have hout := ha p hp; omega)

/-- **A header that is none of them is the same.** -/
theorem sameHeader (h : SameOutside S m₁ m₂) (hS : ∀ p ∈ S, L.IsHeader p) (hq : L.IsHeader q)
    (hne : q ∉ S) : SameHeader m₁ m₂ q := by
  have hbytes : ∀ i, i < 8 → m₂ (q + i) = m₁ (q + i) := fun i hi ↦ h _ fun p hp ↦ by
    have hapart := hq.apart (hS p hp) fun heq ↦ hne (heq ▸ hp)
    omega
  exact ⟨load32_congr fun i hi ↦ hbytes i (by omega),
    load32_congr fun i hi ↦ by rw [Nat.add_assoc]; exact hbytes (4 + i) (by omega)⟩

end SameOutside

end Headers

end YHAudioLink
