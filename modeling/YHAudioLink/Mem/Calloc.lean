import Mathlib.Order.Interval.Set.Basic
import YHAudioLink.Mem.HeapRuns

/-!
# What `pvPortCalloc` clears

`pvPortCalloc` multiplies its arguments modulo `2 ^ 32`, passes the product to `pvPortMalloc`, and
clears that many bytes at whatever pointer comes back. So two things can go wrong, and this module
says exactly when:

* the request is refused and the bytes at address 0 are cleared all the same;
* the product wraps, and the block returned is shorter than the callers think.

What it ought to do is `CallocKept`: a block of the whole product, cleared, with nothing written but
the payload and the headers of the allocator, or `NULL` with nothing cleared at all. It is the
second where the product is a multiple of `2 ^ 32`, as nothing is asked for then; it is the first
where a free block has room for the product and a header; and it is neither otherwise
(`callocKept_iff`).

That only headers are written by `pvPortMalloc` itself rests on the frames of the free list
(`allocate_of_some`, `prvHeapInit_writes`), which are about bytes.
-/

namespace YHAudioLink

open ByteStore Extents

variable {L : Placement} {h : LibMem} {s : HeapRun} {as : List Allocation} {b g : Extent} {n : ℕ}

/-! ### Bytes -/

/-- The bytes `memset(p, 0, len)` writes. -/
def memsetBytes (p len : ℕ) : Set ℕ := Set.Ico p (p + len)

/-- What callers have of a block: the bytes behind its header. -/
def payload (b : Extent) : Set ℕ := Set.Ico (b.start + heapStructSize) b.stop

/-- The headers of the allocator: of `xStart` and the free blocks, of the end marker, and of the
block handed out. -/
def ownHeaders (L : Placement) (free : List Extent) (b : Extent) : Set ℕ :=
  insert pucHeapEnd (insert b.start (startsOf (⟨L.xStart, 0⟩ :: free)))

/-- The bytes of the headers at these addresses. -/
def headerBytes (S : Set ℕ) : Set ℕ := {a | ∃ q ∈ S, q ≤ a ∧ a < q + sizeofBlockLink}

theorem SameOutside.of_notMem {S : Set ℕ} {m m' : ℕ → UInt8} {a : ℕ} (h : SameOutside S m m')
    (ha : a ∉ headerBytes S) : m' a = m a := by
  refine h a fun q hq ↦ ?_
  by_contra hin
  rw [not_or, Nat.not_lt, Nat.not_le] at hin
  exact ha ⟨q, hq, hin⟩

theorem memsetBytes_eq_empty_iff {p len : ℕ} : memsetBytes p len = ∅ ↔ len = 0 := by
  rw [memsetBytes, Set.Ico_eq_empty_iff]
  omega

/-! ### What the call ought to do -/

/-- **A cleared block** of `want` bytes: it is not `NULL`, its first bytes are zero, the heap is
well formed with the block live beside those that were, and every byte that `memset` has written or
that is another than before lies behind the header of the block or in a header of the allocator. -/
structure ClearedBlock (L : Placement) (s : HeapRun) (want len pv : ℕ) (h' : LibMem) : Prop where
  ne_null : pv ≠ 0
  zero : ∀ i, i < want → h'.mem (pv + i) = 0
  block : ∃ free b, b = LiveBlock.block ⟨pv, want⟩ h' ∧
    HeapWellFormed L ⟨h', ⟨pv, want⟩ :: s.live⟩ free ∧
    ∀ a, a ∈ memsetBytes pv len ∨ h'.mem a ≠ s.heap.mem a →
      a ∈ payload b ∪ headerBytes (ownHeaders L free b)

/-- **A cleared block or nothing**: the call returns, and either it returns `NULL`, with no byte
cleared and the heap as `pvPortMalloc` leaves it; or it returns a cleared block. -/
def CallocKept (L : Placement) (s : HeapRun) (n xWantedSize : UInt32) : Prop :=
  ∃ pv h₁ h₂,
    pvPortMalloc L s.heap (n.toNat * xWantedSize.toNat % wordSize) = some (pv, h₁) ∧
    pvPortCalloc L s.heap n.toNat xWantedSize.toNat = some (pv, h₂) ∧
    (pv = 0 ∧ memsetBytes pv (n.toNat * xWantedSize.toNat % wordSize) = ∅ ∧ h₂ = h₁ ∨
      ClearedBlock L s (n.toNat * xWantedSize.toNat)
        (n.toNat * xWantedSize.toNat % wordSize) pv h₂)

/-- Nothing is asked for, or a free block has room for the product and a header. -/
def NothingOrRoom (as : List Allocation) (n xWantedSize : UInt32) : Prop :=
  n.toNat * xWantedSize.toNat % wordSize = 0 ∨
    ∃ g ∈ freeBlocks as, n.toNat * xWantedSize.toNat + heapStructSize ≤ g.size

instance (as : List Allocation) (n xWantedSize : UInt32) :
    Decidable (NothingOrRoom as n xWantedSize) :=
  inferInstanceAs (Decidable (_ ∨ _))

/-- The heap serves the allocations, and the live pointers are theirs. -/
def HeapRun.Serves (L : Placement) (s : HeapRun) (as : List Allocation) : Prop :=
  YHAudioLink.Serves L s.heap as ∧ s.live.Perm (as.map Allocation.live)

/-! ### Where first fit finds room -/

/-- What is granted begins a free block that has room for it. -/
theorem exists_of_firstFit (hfit : firstFit as n = some b) :
    0 < n ∧ ∃ g ∈ freeBlocks as, b.start = g.start ∧ n + heapStructSize ≤ g.size := by
  rw [firstFit] at hfit
  split at hfit
  · next htests =>
    obtain ⟨hlt, hsize, -⟩ := htests
    obtain ⟨g, hfind, rfl⟩ := Option.map_eq_some_iff.1 hfit
    have hpos : 0 < n := pos_of_adjustedSize_pos hsize
    have hg : adjustedSize n ≤ g.size := by simpa using List.find?_some hfind
    have hroom := (adjustedSize_spec hpos hlt).1
    exact ⟨hpos, g, List.mem_of_find?_eq_some hfind, rfl, Nat.le_trans hroom hg⟩
  · exact absurd hfit (by simp)

/-- **A request with room is granted.** Rounding it up makes no difference, since the free blocks
are aligned. -/
theorem HeapRep.exists_firstFit (hr : HeapRep L h as) (hpos : 0 < n) (hg : g ∈ freeBlocks as)
    (hroom : n + heapStructSize ≤ g.size) : ∃ b, firstFit as n = some b := by
  obtain ⟨⟨-, h8⟩, -, -, hstop⟩ := hr.mem_freeBlocks hg
  have hgblock : g.start + g.size = g.stop := rfl
  have hstruct := heapStructSize_eq
  have hend := pucHeapEnd_eq
  have hlt : n < 2 ^ 31 := by omega
  obtain ⟨hlow, hup, had8⟩ := adjustedSize_spec hpos hlt
  have hfits : adjustedSize n ≤ g.size := by omega
  have htotal : g.size ≤ total (freeBlocks as) := by
    obtain ⟨B, G, hfree⟩ := List.append_of_mem hg
    rw [hfree, total_append, total_cons]
    omega
  rw [firstFit, if_pos ⟨hlt, by omega, Nat.le_trans hfits htotal⟩]
  cases hfind : (freeBlocks as).find? fun g ↦ adjustedSize n ≤ g.size with
  | none => exact absurd (decide_eq_true hfits) (List.find?_eq_none.1 hfind g hg)
  | some g => exact ⟨_, rfl⟩

/-! ### What `pvPortMalloc` writes -/

/-- **A request that fits nowhere** is refused. -/
theorem Serves.pvPortMalloc_of_none (hs : Serves L h as) (hn : n < 2 ^ 32)
    (hfit : firstFit as n = none) : ∃ h', pvPortMalloc L h n = some (0, h') := by
  obtain ⟨h₀, hinit, hrep, -⟩ := hs.exists_init
  exact ⟨h₀, by rw [pvPortMalloc, hinit, Option.bind_some, allocate_of_none hrep hn hfit]⟩

/-- **A request that fits** is granted, and nothing is written but headers. On a heap that is not
initialised these are the three of the empty heap and then those of the allocation, which takes the
first of them. -/
theorem Serves.pvPortMalloc_of_some (hs : Serves L h as) (hn : n < 2 ^ 32)
    (hfit : firstFit as n = some b) :
    ∃ P Q h', as = P ++ Q ∧ HeapRep L h' (P ++ ⟨b, n⟩ :: Q) ∧
      pvPortMalloc L h n = some (b.start + heapStructSize, h') ∧
      SameOutside (ownHeaders L (freeBlocks (P ++ ⟨b, n⟩ :: Q)) b) h.mem h'.mem := by
  obtain ⟨h₀, hinit, hrep, hwritten⟩ := hs.exists_init
  obtain ⟨P, Q, h', rfl, hrep', halloc, -, hwrites⟩ := allocate_of_some hrep hn hfit
  refine ⟨P, Q, h', rfl, hrep', by rw [pvPortMalloc, hinit, Option.bind_some, halloc], ?_⟩
  have hallocated := hwrites.mono (Set.subset_insert pucHeapEnd _)
  rcases hwritten with rfl | ⟨hnil, hwritten⟩
  · exact hallocated
  · have hstart : b.start = pucAlignedHeap := by
      rw [hnil] at hfit
      obtain ⟨-, g, hg, hstart, -⟩ := exists_of_firstFit hfit
      rw [HeapRun.freeBlocks_nil, List.mem_singleton] at hg
      rw [hstart, hg]
      rfl
    refine (hwritten.mono ?_).trans hallocated
    rintro q (rfl | rfl | rfl)
    · exact Or.inr (Or.inr (start_mem_startsOf (b := ⟨L.xStart, 0⟩) List.mem_cons_self))
    · exact Or.inl rfl
    · exact Or.inr (Or.inl hstart.symm)

/-! ### What `pvPortCalloc` comes to -/

/-- The call is `pvPortMalloc` and then the `memset`. -/
theorem pvPortCalloc_of_malloc {size pv : ℕ} {h' : LibMem}
    (hmalloc : pvPortMalloc L h (n * size % wordSize) = some (pv, h')) :
    pvPortCalloc L h n size =
      some (pv, { h' with mem := store h'.mem pv (List.replicate (n * size % wordSize) 0) }) := by
  rw [pvPortCalloc, hmalloc]
  rfl

/-- **A block that is granted** and cleared over what was asked for is a cleared block. -/
theorem HeapRun.Serves.clearedBlock (hs : s.Serves L as) (hn : n < 2 ^ 32)
    (hfit : firstFit as n = some b) :
    ∃ h', pvPortMalloc L s.heap n = some (b.start + heapStructSize, h') ∧
      ClearedBlock L s n n (b.start + heapStructSize)
        { h' with mem := store h'.mem (b.start + heapStructSize) (List.replicate n 0) } := by
  obtain ⟨P, Q, h', rfl, hrep, hmalloc, hwrites⟩ := hs.1.pvPortMalloc_of_some hn hfit
  have hmem : ⟨b, n⟩ ∈ P ++ ⟨b, n⟩ :: Q := List.mem_append_right _ List.mem_cons_self
  have hfits : n + 8 ≤ b.size := hrep.fits _ hmem
  have hblock : b.start + b.size = b.stop := rfl
  have hstruct := heapStructSize_eq
  have hlen : (List.replicate n (0 : UInt8)).length = n := List.length_replicate
  -- the `memset` stays behind the header of the block
  have hrep' : HeapRep L
      { h' with mem := store h'.mem (b.start + heapStructSize) (List.replicate n 0) }
      (P ++ ⟨b, n⟩ :: Q) := by
    refine hrep.store hmem (Nat.le_refl _) ?_
    show b.start + heapStructSize + (List.replicate n (0 : UInt8)).length ≤ b.stop
    omega
  have hlive : (⟨b.start + heapStructSize, n⟩ :: s.live).Perm
      ((P ++ ⟨b, n⟩ :: Q).map Allocation.live) := perm_map_live_cons (a := ⟨b, n⟩) hs.2
  refine ⟨h', hmalloc, Nat.succ_ne_zero _, fun i hi ↦ ?_,
    freeBlocks (P ++ ⟨b, n⟩ :: Q), b, (hrep'.block_live hmem).symm,
    HeapRun.Represents.wellFormed ⟨hrep', hlive⟩, fun a ha ↦ ?_⟩
  · have hin : i < (List.replicate n (0 : UInt8)).length := by omega
    exact (store_of_inside hin).trans (List.getElem_replicate _)
  · by_contra hout
    obtain ⟨hpayload, hheader⟩ := not_or.1 hout
    have hclear : a ∉ memsetBytes (b.start + heapStructSize) n := fun hin ↦
      hpayload ⟨hin.1, Nat.lt_of_lt_of_le hin.2 (by omega)⟩
    refine ha.elim hclear fun hne ↦ hne ?_
    have hkept : store h'.mem (b.start + heapStructSize) (List.replicate n 0) a = h'.mem a := by
      refine store_of_outside ?_
      rw [memsetBytes, Set.mem_Ico] at hclear
      omega
    exact hkept.trans (hwrites.of_notMem hheader)

section

variable {n xWantedSize : UInt32}

/-- **Nothing is asked for**: `NULL`, and nothing is cleared. -/
theorem callocKept_of_nothing (hs : s.Serves L as)
    (hzero : n.toNat * xWantedSize.toNat % wordSize = 0) : CallocKept L s n xWantedSize := by
  have hnone : firstFit as 0 = none := if_neg fun htests ↦ Nat.lt_irrefl 0 htests.2.1
  obtain ⟨h', hnull⟩ := hs.1.pvPortMalloc_of_none (by decide) hnone
  have hmalloc : pvPortMalloc L s.heap (n.toNat * xWantedSize.toNat % wordSize) = some (0, h') := by
    rw [hzero, hnull]
  refine ⟨0, h', _, hmalloc, pvPortCalloc_of_malloc hmalloc, Or.inl ⟨rfl, ?_, ?_⟩⟩
  · exact memsetBytes_eq_empty_iff.2 hzero
  · have hsame : store h'.mem 0 (List.replicate (n.toNat * xWantedSize.toNat % wordSize) 0) =
        h'.mem := by
      rw [hzero]
      exact funext fun a ↦ store_of_outside (Or.inr (Nat.zero_le a))
    rw [hsame]

/-- **With room for the product**, a cleared block. -/
theorem callocKept_of_room (hs : s.Serves L as) (hpos : 0 < n.toNat * xWantedSize.toNat)
    (hg : g ∈ freeBlocks as) (hroom : n.toNat * xWantedSize.toNat + heapStructSize ≤ g.size) :
    CallocKept L s n xWantedSize := by
  obtain ⟨h₀, -, hrep, -⟩ := hs.1.exists_init
  obtain ⟨b, hfit⟩ := hrep.exists_firstFit hpos hg hroom
  have hlt : n.toNat * xWantedSize.toNat < 2 ^ 32 := by
    have hgblock : g.start + g.size = g.stop := rfl
    have hstop := (hrep.mem_freeBlocks hg).2.2.2
    have hend := pucHeapEnd_eq
    omega
  have hmod : n.toNat * xWantedSize.toNat % wordSize = n.toNat * xWantedSize.toNat :=
    Nat.mod_eq_of_lt hlt
  obtain ⟨h', hmalloc, hcleared⟩ := hs.clearedBlock hlt hfit
  rw [← hmod] at hmalloc
  have hcalloc := pvPortCalloc_of_malloc hmalloc
  rw [CallocKept]
  refine ⟨_, h', _, hmalloc, hcalloc, Or.inr ?_⟩
  rw [hmod]
  exact hcleared

/-- A block of the product lies in the array, so the product has not wrapped. -/
theorem ClearedBlock.lt {want len pv : ℕ} {h' : LibMem} (hc : ClearedBlock L s want len pv h') :
    want < wordSize := by
  obtain ⟨free, b, rfl, hwf, -⟩ := hc.block
  have hlarge : pv + want ≤ (LiveBlock.block ⟨pv, want⟩ h').stop :=
    (hwf.live_large _ List.mem_cons_self).2
  have hinside : (LiveBlock.block ⟨pv, want⟩ h').stop ≤ 0x68000000 + 1000000 :=
    (hwf.live_inside _ List.mem_cons_self).2
  show want < 2 ^ 32
  omega

/-- A request that is granted had room in a free block. -/
theorem HeapRun.Serves.exists_room {want pv : ℕ} {h' : LibMem} (hs : s.Serves L as)
    (hlt : want < 2 ^ 32) (hmalloc : pvPortMalloc L s.heap want = some (pv, h')) (hne : pv ≠ 0) :
    ∃ g ∈ freeBlocks as, want + heapStructSize ≤ g.size := by
  cases hfit : firstFit as want with
  | none =>
    obtain ⟨h'', hnone⟩ := hs.1.pvPortMalloc_of_none hlt hfit
    rw [hmalloc] at hnone
    exact absurd (congrArg Prod.fst (Option.some.inj hnone)) hne
  | some b =>
    obtain ⟨-, g, hg, -, hroom⟩ := exists_of_firstFit hfit
    exact ⟨g, hg, hroom⟩

/-- **Where it is neither**, `NULL` has been cleared, or too short a block. -/
theorem CallocKept.nothingOrRoom (hs : s.Serves L as) (hkept : CallocKept L s n xWantedSize) :
    NothingOrRoom as n xWantedSize := by
  obtain ⟨pv, h₁, h₂, hmalloc, -, ⟨-, hempty, -⟩ | hcleared⟩ := hkept
  · exact Or.inl (memsetBytes_eq_empty_iff.1 hempty)
  · have hlt := hcleared.lt
    rw [Nat.mod_eq_of_lt hlt] at hmalloc
    exact Or.inr (hs.exists_room hlt hmalloc hcleared.ne_null)

/-- **A cleared block or nothing**, exactly where nothing is asked for or a free block has room for
the product. Every state that a run reaches serves some allocations. -/
theorem callocKept_iff (L : Placement) (s : HeapRun) (n xWantedSize : UInt32) :
    (s.Reachable L → ∃ as, s.Serves L as) ∧
      ∀ as, s.Serves L as → (CallocKept L s n xWantedSize ↔ NothingOrRoom as n xWantedSize) := by
  refine ⟨fun h ↦ (HeapRun.inv_of_reachable h).exists_serves,
    fun as hs ↦ ⟨fun hkept ↦ hkept.nothingOrRoom hs, fun hcond ↦ ?_⟩⟩
  rcases Nat.eq_zero_or_pos (n.toNat * xWantedSize.toNat) with hzero | hpos
  · exact callocKept_of_nothing hs (by rw [hzero, Nat.zero_mod])
  · rcases hcond with hmultiple | ⟨g, hg, hroom⟩
    · exact callocKept_of_nothing hs hmultiple
    · exact callocKept_of_room hs hpos hg hroom

end

/-! ### At boot -/

/-- At boot there is nothing allocated. -/
theorem HeapRun.serves_atBoot (L : Placement) (mem : ℕ → UInt8) :
    HeapRun.Serves L ⟨.atBoot mem, []⟩ [] := ⟨Or.inl ⟨⟨rfl, rfl⟩, rfl⟩, .refl _⟩

/-- A request for three times five bytes, which is given a block that has been used, filled and
freed. -/
theorem callocKept_in_freed_block : ∃ s : HeapRun, s.Reachable .inSram ∧
    (pvPortMalloc .inSram s.heap 15).map Prod.fst = some 0x68000010 ∧
    ((List.range 15).all fun i ↦ s.heap.mem (0x68000010 + i) = 0xff) = true ∧
    CallocKept .inSram s 3 5 := by
  obtain ⟨s, hs, hp⟩ := HeapRun.exists_reachable .inSram
    [.malloc 20, .malloc 100, .write 0x68000010 (List.replicate 20 0xff), .free 0x68000010]
    (fun s ↦ (pvPortMalloc .inSram s.heap 15).map Prod.fst == some 0x68000010 &&
      (List.range 15).all fun i ↦ s.heap.mem (0x68000010 + i) = 0xff) (by decide +kernel)
  rw [Bool.and_eq_true, beq_iff_eq] at hp
  obtain ⟨hgranted, hdirty⟩ := hp
  obtain ⟨⟨pv, h'⟩, hmalloc, hpv⟩ := Option.map_eq_some_iff.1 hgranted
  obtain ⟨hserves, hkept⟩ := callocKept_iff .inSram s 3 5
  obtain ⟨as, has⟩ := hserves hs
  have hne : pv ≠ 0 := fun hzero ↦ absurd (hpv.symm.trans hzero) (by decide)
  exact ⟨s, hs, hgranted, hdirty, (hkept as has).2 (.inr (has.exists_room (by decide) hmalloc hne))⟩

/-- As many bytes as the array has are more than fit into it, and `memset` clears them at `NULL`. -/
theorem not_callocKept : ¬ ∀ (L : Placement) (s : HeapRun) (n xWantedSize : UInt32),
    s.Reachable L → CallocKept L s n xWantedSize := by
  intro hall
  have hkept := hall .inSram ⟨.atBoot fun _ ↦ 0, []⟩ 1000000 1 (.init ⟨fun _ ↦ 0, rfl⟩)
  have hroom := hkept.nothingOrRoom (HeapRun.serves_atBoot .inSram fun _ ↦ 0)
  exact absurd hroom (by decide)

end YHAudioLink
