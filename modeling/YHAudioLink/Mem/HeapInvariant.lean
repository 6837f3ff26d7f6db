import YHAudioLink.Mem.FreeList

/-!
# The representation of the heap

`HeapRep` says that a heap represents a list of allocations in ascending order. The free list does
not occur in it as a datum: it is the list of the **gaps** between the allocated blocks. Every
operation is then one edit of the allocations:

* `pvPortMalloc` inserts one (`allocate_spec`),
* `vPortFree` takes one away (`vPortFree_spec`),
* and a write inside a block changes none (`HeapRep.store`).

That the free blocks ascend, are not adjacent, tile the region together with the allocated ones, and
are a single block when nothing is allocated, are facts about gaps; no operation has to be looked at
for them.
-/

namespace YHAudioLink

open ByteStore Extents

/-! ### The representation -/

/-- An allocated block, and the size that was asked for. -/
structure Allocation where
  block : Extent
  want : ℕ

/-- The free blocks are the gaps between the allocated ones. -/
def freeBlocks (as : List Allocation) : List Extent :=
  gaps pucAlignedHeap (as.map Allocation.block) pucHeapEnd

/-- **The representation invariant.** The heap represents these allocations. -/
structure HeapRep (L : Placement) (h : LibMem) (as : List Allocation) : Prop where
  pxEnd_eq : h.pxEnd = pucHeapEnd
  bit_eq : h.xBlockAllocatedBit = 2 ^ 31
  free_eq : h.xFreeBytesRemaining = total (freeBlocks as)
  packed : Packed pucAlignedHeap (as.map Allocation.block) pucHeapEnd
  aligned : ∀ a ∈ as, a.block.Aligned 8
  fits : ∀ a ∈ as, a.want + 8 ≤ a.block.size
  chain : FreeChain h.mem L.xStart (⟨L.xStart, 0⟩ :: freeBlocks as) pucHeapEnd
  endMarker : pxNextFreeBlock h.mem pucHeapEnd = 0 ∧ xBlockSize h.mem pucHeapEnd = 0
  headers : ∀ a ∈ as, pxNextFreeBlock h.mem a.block.start = 0 ∧
    xBlockSize h.mem a.block.start = a.block.size + 2 ^ 31

/-- Before the first allocation, and after a reset. -/
structure Fresh (h : LibMem) : Prop where
  pxEnd_eq : h.pxEnd = 0
  free_eq : h.xFreeBytesRemaining = xTotalHeapSize

variable {L : Placement} {h : LibMem} {as P Q : List Allocation} {a : Allocation}
  {b g : Extent} {B G : List Extent}

theorem eight_dvd_pucAlignedHeap : 8 ∣ pucAlignedHeap := by decide

theorem eight_dvd_pucHeapEnd : 8 ∣ pucHeapEnd := by decide

/-- The allocations beside a given one are allocations. -/
theorem mem_middle {c : Allocation} (hc : c ∈ P ++ Q) : c ∈ P ++ a :: Q :=
  List.perm_middle.symm.subset (List.mem_cons_of_mem a hc)

/-- Adding one allocation, or taking it away, changes the free blocks between its neighbours. -/
theorem freeBlocks_append (P Q : List Allocation) :
    freeBlocks (P ++ Q) = gapsBefore pucAlignedHeap (P.map Allocation.block) ++
      (gap (lastStop pucAlignedHeap (P.map Allocation.block))
        (firstStart (Q.map Allocation.block) pucHeapEnd) ++
        gapsAfter (Q.map Allocation.block) pucHeapEnd) := by
  rw [freeBlocks, List.map_append, gaps_append]

/-- The free blocks on either side of an allocation. -/
theorem freeBlocks_middle (P : List Allocation) (a : Allocation) (Q : List Allocation) :
    freeBlocks (P ++ a :: Q) = gapsBefore pucAlignedHeap (P.map Allocation.block) ++
      gap (lastStop pucAlignedHeap (P.map Allocation.block)) a.block.start ++
        (gap a.block.stop (firstStart (Q.map Allocation.block) pucHeapEnd) ++
          gapsAfter (Q.map Allocation.block) pucHeapEnd) := by
  rw [freeBlocks_append, List.map_cons, List.append_assoc, gapsAfter, gaps_eq_gap_append]
  rfl

namespace HeapRep

/-- The heap is initialised. -/
theorem pxEnd_ne_zero (hr : HeapRep L h as) : h.pxEnd ≠ 0 := by
  rw [hr.pxEnd_eq]
  decide

/-- A free block is aligned and lies in the array. -/
theorem mem_freeBlocks (hr : HeapRep L h as) (hg : g ∈ freeBlocks as) :
    g.Aligned 8 ∧ pucAlignedHeap ≤ g.start ∧ 8 ≤ g.size ∧ g.stop ≤ pucHeapEnd := by
  have haligned : g.Aligned 8 := by
    refine aligned_of_mem_gaps eight_dvd_pucAlignedHeap eight_dvd_pucHeapEnd (fun b hb ↦ ?_) hg
    obtain ⟨a, ha, rfl⟩ := List.mem_map.1 hb
    exact hr.aligned a ha
  obtain ⟨hstart, hsize, hstop⟩ := hr.packed.mem_gaps hg
  exact ⟨haligned, hstart, Nat.le_of_dvd hsize haligned.2, hstop⟩

/-- So does an allocated block. -/
theorem mem_allocation (hr : HeapRep L h as) (ha : a ∈ as) :
    pucAlignedHeap ≤ a.block.start ∧ 8 ≤ a.block.size ∧ a.block.stop ≤ pucHeapEnd := by
  obtain ⟨hstart, -, hstop⟩ := hr.packed.mem (List.mem_map_of_mem ha)
  have hfits := hr.fits a ha
  exact ⟨hstart, by omega, hstop⟩

theorem isHeader_free (hr : HeapRep L h as) (hg : g ∈ freeBlocks as) : L.IsHeader g.start := by
  obtain ⟨haligned, hstart, hsize, hstop⟩ := hr.mem_freeBlocks hg
  have hle : g.start ≤ g.stop := Nat.le_add_right _ _
  exact Or.inr ⟨haligned.1, hstart, Nat.le_trans hle hstop⟩

theorem isHeader_allocation (hr : HeapRep L h as) (ha : a ∈ as) : L.IsHeader a.block.start := by
  obtain ⟨hstart, -, hstop⟩ := hr.mem_allocation ha
  have hle : a.block.start ≤ a.block.stop := Nat.le_add_right _ _
  exact Or.inr ⟨(hr.aligned a ha).1, hstart, Nat.le_trans hle hstop⟩

theorem isHeader_pucHeapEnd : L.IsHeader pucHeapEnd :=
  Or.inr ⟨eight_dvd_pucHeapEnd, by decide, Nat.le_refl _⟩

/-- **The nodes of the free list** have different headers. -/
theorem nodes (hr : HeapRep L h as) : Nodes L (⟨L.xStart, 0⟩ :: freeBlocks as) := by
  have hfree : Nodes L (freeBlocks as) := by
    refine ⟨fun g hg ↦ hr.isHeader_free hg, ?_⟩
    refine List.Pairwise.map _ (fun g g' (hlt : g.start + g.size < g'.start) ↦ ?_)
      hr.packed.pairwise_gaps
    omega
  refine hfree.cons L.isHeader_xStart fun g hg ↦ ?_
  obtain ⟨-, hstart, -, hstop⟩ := hr.mem_freeBlocks hg
  have hle : g.start ≤ g.stop := Nat.le_add_right _ _
  exact L.ne_xStart hstart (Nat.le_trans hle hstop)

/-- The header of an allocated block is none of theirs. -/
theorem nodes_cons (hr : HeapRep L h as) (ha : a ∈ as) :
    Nodes L (a.block :: ⟨L.xStart, 0⟩ :: freeBlocks as) := by
  refine hr.nodes.cons (hr.isHeader_allocation ha) fun g hg ↦ ?_
  obtain ⟨hstart, hsize, hstop⟩ := hr.mem_allocation ha
  have hablock : a.block.start + a.block.size = a.block.stop := rfl
  rcases List.mem_cons.1 hg with rfl | hg
  · exact (L.ne_xStart hstart (by omega)).symm
  · obtain ⟨-, -, hgsize, -⟩ := hr.mem_freeBlocks hg
    have hgblock : g.start + g.size = g.stop := rfl
    have hapart : a.block.stop ≤ g.start ∨ g.stop ≤ a.block.start :=
      hr.packed.apart_gaps (List.mem_map_of_mem ha) hg
    omega

/-- The end marker is none of the nodes. -/
theorem ne_pucHeapEnd (hr : HeapRep L h as) (hb : b ∈ ⟨L.xStart, 0⟩ :: freeBlocks as) :
    pucHeapEnd ≠ b.start := by
  rcases List.mem_cons.1 hb with rfl | hb
  · exact L.ne_xStart (by decide) (Nat.le_refl _)
  · obtain ⟨-, -, hsize, hstop⟩ := hr.mem_freeBlocks hb
    have hblock : b.start + b.size = b.stop := rfl
    omega

/-- A block overlaps none of the other allocated ones. -/
theorem apart_middle (hr : HeapRep L h (P ++ a :: Q)) {c : Allocation} (hc : c ∈ P ++ Q) :
    a.block.Apart c.block := by
  have hpacked := hr.packed
  rw [List.map_append, List.map_cons] at hpacked
  refine hpacked.apart_middle ?_
  rw [← List.map_append]
  exact List.mem_map_of_mem hc

/-- The walks do not run out of fuel. -/
theorem length_freeBlocks_lt (hr : HeapRep L h as) : (freeBlocks as).length < walkFuel := by
  have hlen : (freeBlocks as).length ≤ total (freeBlocks as) :=
    length_le_total fun g hg ↦ by
      have hsize := (hr.mem_freeBlocks hg).2.2.1
      omega
  have htotal : pucAlignedHeap + total (freeBlocks as) ≤ pucHeapEnd := hr.packed.total_gaps_le
  have hlo := pucAlignedHeap_eq
  have hhi := pucHeapEnd_eq
  show _ < 1000000
  omega

theorem free_lt (hr : HeapRep L h as) : h.xFreeBytesRemaining < 2 ^ 31 := by
  have htotal : pucAlignedHeap + total (freeBlocks as) ≤ pucHeapEnd := hr.packed.total_gaps_le
  have hlo := pucAlignedHeap_eq
  have hhi := pucHeapEnd_eq
  rw [hr.free_eq]
  omega

/-- **The heap depends on its headers only.** -/
theorem frame (hr : HeapRep L h as) {mem : ℕ → UInt8}
    (hnodes : ∀ b ∈ ⟨L.xStart, 0⟩ :: freeBlocks as, SameHeader h.mem mem b.start)
    (hend : SameHeader h.mem mem pucHeapEnd)
    (hallocated : ∀ a ∈ as, SameHeader h.mem mem a.block.start) :
    HeapRep L { h with mem } as where
  pxEnd_eq := hr.pxEnd_eq
  bit_eq := hr.bit_eq
  free_eq := hr.free_eq
  packed := hr.packed
  aligned := hr.aligned
  fits := hr.fits
  chain := Chain.congr hr.chain hnodes
  endMarker := ⟨hend.1.trans hr.endMarker.1, hend.2.trans hr.endMarker.2⟩
  headers a ha := ⟨(hallocated a ha).1.trans (hr.headers a ha).1,
    (hallocated a ha).2.trans (hr.headers a ha).2⟩

/-- Two allocations are the same one, or their blocks do not overlap. -/
theorem eq_or_apart (hr : HeapRep L h as) (ha : a ∈ as) {c : Allocation} (hc : c ∈ as) :
    c = a ∨ a.block.Apart c.block ∧ 8 ≤ c.block.size := by
  have hsize := (hr.mem_allocation hc).2.1
  obtain ⟨P, Q, rfl⟩ := List.append_of_mem ha
  rcases List.mem_append.1 hc with hc | hc
  · exact Or.inr ⟨hr.apart_middle (List.mem_append_left _ hc), hsize⟩
  · rcases List.mem_cons.1 hc with rfl | hc
    · exact Or.inl rfl
    · exact Or.inr ⟨hr.apart_middle (List.mem_append_right _ hc), hsize⟩

/-- **A write inside a block**, behind its header, leaves the representation as it is. -/
theorem store (hr : HeapRep L h as) (ha : a ∈ as) {off : ℕ} {xs : List UInt8}
    (hoff : a.block.start + 8 ≤ off) (hstop : off + xs.length ≤ a.block.stop) :
    HeapRep L { h with mem := ByteStore.store h.mem off xs } as := by
  obtain ⟨hlo, hsize, hhi⟩ := hr.mem_allocation ha
  have hablock : a.block.start + a.block.size = a.block.stop := rfl
  have hlo' := pucAlignedHeap_eq
  have hhi' := pucHeapEnd_eq
  refine hr.frame (fun g hg ↦ ?_) (sameHeader_store (Or.inr (by omega))) fun c hc ↦ ?_
  · rcases List.mem_cons.1 hg with rfl | hg
    · have houtside := L.outside
      exact sameHeader_store (by show L.xStart + 8 ≤ off ∨ off + xs.length ≤ L.xStart; omega)
    · obtain ⟨-, -, hgsize, -⟩ := hr.mem_freeBlocks hg
      have hgblock : g.start + g.size = g.stop := rfl
      have hapart : a.block.stop ≤ g.start ∨ g.stop ≤ a.block.start :=
        hr.packed.apart_gaps (List.mem_map_of_mem ha) hg
      exact sameHeader_store (by omega)
  · rcases hr.eq_or_apart ha hc with rfl | ⟨hapart, hcsize⟩
    · exact sameHeader_store (Or.inl hoff)
    · have hcblock : c.block.start + c.block.size = c.block.stop := rfl
      have hapart : a.block.stop ≤ c.block.start ∨ c.block.stop ≤ a.block.start := hapart
      exact sameHeader_store (by omega)

end HeapRep

/-! ### Headers that are not in use

The header of a block that has been freed stays in the memory, inside a free block or a later
allocated one. What matters of it is that it is not marked. -/

/-- A header that is not marked, or that of an allocated block. -/
def Settled (h : LibMem) (as : List Allocation) (q : ℕ) : Prop :=
  xBlockSize h.mem q < 2 ^ 31 ∨ ∃ a ∈ as, a.block.start = q

/-- A node of the list has the size of its block. -/
theorem FreeChain.xBlockSize_of_mem {m : ℕ → UInt8} {p e : ℕ} {F : List Extent}
    (h : FreeChain m p F e) (hb : b ∈ F) : xBlockSize m b.start = b.size := by
  obtain ⟨M, G, rfl⟩ := List.append_of_mem hb
  obtain ⟨q, -, rfl, hsize, -⟩ := chain_append.1 h
  exact hsize

/-- The size of a node is not marked. -/
theorem HeapRep.size_node_lt (hr : HeapRep L h as) (hb : b ∈ ⟨L.xStart, 0⟩ :: freeBlocks as) :
    xBlockSize h.mem b.start < 2 ^ 31 := by
  rw [hr.chain.xBlockSize_of_mem hb]
  rcases List.mem_cons.1 hb with rfl | hb
  · show 0 < 2 ^ 31
    omega
  · obtain ⟨-, -, -, hstop⟩ := hr.mem_freeBlocks hb
    have hblock : b.start + b.size = b.stop := rfl
    have hend := pucHeapEnd_eq
    omega

/-- **A header stays settled** when the headers outside the new list keep their sizes, and that of a
block that is no longer allocated is settled. -/
theorem Settled.of_frame {h' : LibMem} {as' : List Allocation} {q : ℕ} (hq : Settled h as q)
    (hr' : HeapRep L h' as') (hgone : ∀ a ∈ as, a.block.start = q → Settled h' as' q)
    (hframe : (∀ a ∈ as', q ≠ a.block.start) →
      (∀ b ∈ ⟨L.xStart, 0⟩ :: freeBlocks as', q ≠ b.start) →
      xBlockSize h'.mem q = xBlockSize h.mem q) : Settled h' as' q := by
  by_cases hall : ∃ a ∈ as', a.block.start = q
  · exact Or.inr hall
  · by_cases hnode : ∃ b ∈ ⟨L.xStart, 0⟩ :: freeBlocks as', b.start = q
    · obtain ⟨b, hb, rfl⟩ := hnode
      exact Or.inl (hr'.size_node_lt hb)
    · rcases hq with hlt | ⟨a, ha, heq⟩
      · refine Or.inl ?_
        rw [hframe (fun a ha heq ↦ hall ⟨a, ha, heq.symm⟩) fun b hb heq ↦ hnode ⟨b, hb, heq.symm⟩]
        exact hlt
      · exact hgone a ha heq

/-! ### Initialisation -/

/-- **`prvHeapInit`** makes one free block of the region. -/
theorem prvHeapInit_spec (hf : Fresh h) : ∃ h', prvHeapInit L h = some h' ∧ HeapRep L h' [] := by
  have hfirst : L.IsHeader pucAlignedHeap := Or.inr ⟨by decide, Nat.le_refl _, by decide⟩
  have hend : L.IsHeader pucHeapEnd := HeapRep.isHeader_pucHeapEnd
  have hstart : L.IsHeader L.xStart := L.isHeader_xStart
  have hfx : pucAlignedHeap ≠ L.xStart := L.ne_xStart (Nat.le_refl _) (by decide)
  have hex : pucHeapEnd ≠ L.xStart := L.ne_xStart (by decide) (Nat.le_refl _)
  have hef : pucHeapEnd ≠ pucAlignedHeap := by decide
  have hassert : pucHeapEnd &&& portByteAlignmentMask = 0 := by decide
  rw [prvHeapInit]
  dsimp only
  rw [if_pos hassert]
  refine ⟨_, rfl, ?_⟩
  -- The three headers are written one after the other; a later one leaves the earlier ones alone.
  generalize hm₁ : setBlockSize (setNextFreeBlock h.mem L.xStart pucAlignedHeap) L.xStart 0 = m₁
  generalize hm₂ : setNextFreeBlock (setBlockSize m₁ pucHeapEnd 0) pucHeapEnd 0 = m₂
  generalize hm₃ : setNextFreeBlock (setBlockSize m₂ pucAlignedHeap
    (sub32 xTotalHeapSize heapStructSize)) pucAlignedHeap pucHeapEnd = m₃
  have hframe₂ : ∀ q, L.IsHeader q → q ≠ pucHeapEnd → SameHeader m₁ m₂ q := fun q hq hne ↦
    hm₂ ▸ (sameHeader_setBlockSize hend hq hne).trans (sameHeader_setNextFreeBlock hend hq hne)
  have hframe₃ : ∀ q, L.IsHeader q → q ≠ pucAlignedHeap → SameHeader m₂ m₃ q := fun q hq hne ↦
    hm₃ ▸ (sameHeader_setBlockSize hfirst hq hne).trans
      (sameHeader_setNextFreeBlock hfirst hq hne)
  have hxStart : SameHeader m₁ m₃ L.xStart :=
    (hframe₂ _ hstart hex.symm).trans (hframe₃ _ hstart hfx.symm)
  have hendMarker : SameHeader m₂ m₃ pucHeapEnd := hframe₃ _ hend hef
  have hregion : pucAlignedHeap ≤ pucHeapEnd := by decide
  refine ⟨rfl, rfl, ?_, hregion, fun a ha ↦ absurd ha List.not_mem_nil,
    fun a ha ↦ absurd ha List.not_mem_nil, ?_, ?_, fun a ha ↦ absurd ha List.not_mem_nil⟩
  · show sub32 h.xFreeBytesRemaining heapStructSize = _
    rw [hf.free_eq]
    decide
  · have hone : freeBlocks [] = [⟨pucAlignedHeap, pucHeapEnd - pucAlignedHeap⟩] := by decide
    have hnext : pxNextFreeBlock m₃ L.xStart = pucAlignedHeap := by
      rw [hxStart.1, ← hm₁, pxNextFreeBlock_setBlockSize,
        pxNextFreeBlock_setNextFreeBlock (by decide)]
    have hsize : xBlockSize m₃ L.xStart = 0 := by
      rw [hxStart.2, ← hm₁, xBlockSize_setBlockSize (by decide)]
    have hfirstNext : pxNextFreeBlock m₃ pucAlignedHeap = pucHeapEnd := by
      rw [← hm₃, pxNextFreeBlock_setNextFreeBlock (by decide)]
    have hfirstSize : xBlockSize m₃ pucAlignedHeap = pucHeapEnd - pucAlignedHeap := by
      rw [← hm₃, xBlockSize_setNextFreeBlock, xBlockSize_setBlockSize (by decide)]
      decide
    rw [hone]
    refine ⟨rfl, hsize, ?_⟩
    rw [hnext]
    exact ⟨rfl, hfirstSize, hfirstNext⟩
  · rw [hendMarker.1, hendMarker.2, ← hm₂]
    exact ⟨pxNextFreeBlock_setNextFreeBlock (by decide),
      xBlockSize_setNextFreeBlock.trans (xBlockSize_setBlockSize (by decide))⟩

/-- **It writes the three headers** of the empty heap. -/
theorem prvHeapInit_writes {h' : LibMem} (hinit : prvHeapInit L h = some h') :
    SameOutside {L.xStart, pucHeapEnd, pucAlignedHeap} h.mem h'.mem := by
  have hassert : pucHeapEnd &&& portByteAlignmentMask = 0 := by decide
  rw [prvHeapInit] at hinit
  dsimp only at hinit
  rw [if_pos hassert] at hinit
  obtain rfl := Option.some.inj hinit
  have hxStart : L.xStart ∈ ({L.xStart, pucHeapEnd, pucAlignedHeap} : Set ℕ) := by simp
  have hend : pucHeapEnd ∈ ({L.xStart, pucHeapEnd, pucAlignedHeap} : Set ℕ) := by simp
  have hfirst : pucAlignedHeap ∈ ({L.xStart, pucHeapEnd, pucAlignedHeap} : Set ℕ) := by simp
  exact (SameOutside.setNextFreeBlock hxStart).trans (.trans (.setBlockSize hxStart)
    (.trans (.setBlockSize hend) (.trans (.setNextFreeBlock hend)
      (.trans (.setBlockSize hfirst) (.setNextFreeBlock hfirst)))))

/-- The allocations a heap serves: those it represents, or none before it is initialised. -/
def Serves (L : Placement) (h : LibMem) (as : List Allocation) : Prop :=
  Fresh h ∧ as = [] ∨ HeapRep L h as

/-- **The heap behind the initialisation**, if one is needed. -/
theorem Serves.exists_init (hs : Serves L h as) :
    ∃ h₀, (if h.pxEnd = 0 then prvHeapInit L h else some h) = some h₀ ∧ HeapRep L h₀ as ∧
      (h₀ = h ∨ as = [] ∧
        SameOutside {L.xStart, pucHeapEnd, pucAlignedHeap} h.mem h₀.mem) := by
  rcases hs with ⟨hfresh, rfl⟩ | hrep
  · obtain ⟨h₀, hinit, hrep⟩ := prvHeapInit_spec (L := L) hfresh
    exact ⟨h₀, by rw [if_pos hfresh.pxEnd_eq, hinit], hrep, Or.inr ⟨rfl, prvHeapInit_writes hinit⟩⟩
  · exact ⟨h, if_neg hrep.pxEnd_ne_zero, hrep, Or.inl rfl⟩

/-! ### Allocating -/

/-- A free block lies between the others. -/
theorem HeapRep.between (hr : HeapRep L h as) (hfree : freeBlocks as = B ++ g :: G) :
    Between L B g G h.pxEnd := by
  have hgmem : g ∈ freeBlocks as := hfree ▸ List.mem_append_right _ List.mem_cons_self
  obtain ⟨hg8, hlo, -, hhi⟩ := hr.mem_freeBlocks hgmem
  have hpair : (B ++ g :: G).Pairwise fun b c ↦ b.stop < c.start :=
    hfree ▸ hr.packed.pairwise_gaps
  obtain ⟨-, hGpair, hBpair⟩ := List.pairwise_append.1 hpair
  have hlen := hr.length_freeBlocks_lt
  rw [hfree, List.length_append] at hlen
  have hnodes := hr.nodes
  rw [hfree] at hnodes
  exact {
    nodes := hnodes.perm (List.perm_middle : (⟨L.xStart, 0⟩ :: B ++ g :: G).Perm _).symm
    aligned := hg8
    le_start := hlo
    stop_le := hr.pxEnd_eq ▸ hhi
    end_le := Nat.le_of_eq hr.pxEnd_eq
    before := fun b hb ↦ hBpair b hb g List.mem_cons_self
    behind := (List.pairwise_cons.1 hGpair).1
    fuel := by omega }

/-- **Where a free block lies**, and what an allocation of its first `k` bytes leaves free. -/
theorem exists_place (hfree : freeBlocks as = B ++ g :: G) :
    ∃ P Q, as = P ++ Q ∧ lastStop pucAlignedHeap (P.map Allocation.block) = g.start ∧
      firstStart (Q.map Allocation.block) pucHeapEnd = g.stop ∧
      ∀ k n, freeBlocks (P ++ ⟨⟨g.start, k⟩, n⟩ :: Q) =
        B ++ (gap (g.start + k) g.stop ++ G) := by
  obtain ⟨P', Q', hsplit, hB, hhole, hgap, hG⟩ := exists_split_of_gaps hfree
  obtain ⟨P, Q, rfl, rfl, rfl⟩ := List.map_eq_append_iff.1 hsplit
  have hlast : lastStop pucAlignedHeap (P.map Allocation.block) = g.start := by rw [hgap]
  have hfirst : firstStart (Q.map Allocation.block) pucHeapEnd = g.stop := by
    have hgsize : g.size = firstStart (Q.map Allocation.block) pucHeapEnd -
        lastStop pucAlignedHeap (P.map Allocation.block) := by rw [hgap]
    rw [Extent.stop, ← hlast, hgsize]
    omega
  refine ⟨P, Q, rfl, hlast, hfirst, fun k n ↦ ?_⟩
  rw [freeBlocks_middle, hlast, hfirst, gap_self, List.append_nil, ← hB, ← hG]
  rfl

/-- **Taking a free block** leaves the headers of the allocations and of the end marker alone. -/
theorem HeapRep.sameHeader_taken {k : ℕ} {m' : ℕ → UInt8} (hr : HeapRep L h as)
    (hfree : freeBlocks as = B ++ g :: G) (hk8 : 8 ∣ k) (hpos : 0 < k)
    (hwrites : SameOutside (insert g.start (startsOf
      (⟨L.xStart, 0⟩ :: (B ++ (gap (g.start + k) g.stop ++ G))))) h.mem m') :
    (∀ c ∈ as, SameHeader h.mem m' c.block.start) ∧ SameHeader h.mem m' pucHeapEnd := by
  have hgmem : g ∈ freeBlocks as := hfree ▸ List.mem_append_right _ List.mem_cons_self
  obtain ⟨-, -, hgsize, hhi⟩ := hr.mem_freeBlocks hgmem
  have hgblock : g.start + g.size = g.stop := rfl
  -- A header outside the block is none of the nodes behind the call if it was none before.
  have hrest : ∀ q, (∀ b ∈ ⟨L.xStart, 0⟩ :: freeBlocks as, q ≠ b.start) →
      (q < g.start ∨ g.stop ≤ q) →
      ∀ b ∈ ⟨L.xStart, 0⟩ :: (B ++ (gap (g.start + k) g.stop ++ G)), q ≠ b.start := by
    intro q hq hout b hb
    rw [hfree] at hq
    simp only [List.mem_cons, List.mem_append] at hb hq
    rcases hb with hb | hb | hb | hb
    · exact hq b (Or.inl hb)
    · exact hq b (Or.inr (Or.inl hb))
    · obtain ⟨hinside, rfl⟩ := mem_gap.1 hb
      show q ≠ g.start + k
      omega
    · exact hq b (Or.inr (Or.inr (Or.inr hb)))
  have hframe := fun q ↦ (hr.between hfree).sameHeader (q := q) hk8 hpos hwrites
  refine ⟨fun c hc ↦ ?_, ?_⟩
  · have hapart : c.block.stop ≤ g.start ∨ g.stop ≤ c.block.start :=
      hr.packed.apart_gaps (List.mem_map_of_mem hc) hgmem
    have hcblock : c.block.start + c.block.size = c.block.stop := rfl
    have hcsize := (hr.mem_allocation hc).2.1
    exact hframe _ (hr.isHeader_allocation hc) (by omega)
      (hrest _ (fun b hb ↦ ((hr.nodes_cons hc).ne_head hb).symm) (by omega))
  · have hne : pucHeapEnd ≠ g.start := hr.ne_pucHeapEnd (List.mem_cons_of_mem _ hgmem)
    exact hframe _ HeapRep.isHeader_pucHeapEnd hne
      (hrest _ (fun b ↦ hr.ne_pucHeapEnd) (Or.inr hhi))

/-- **Taking a free block** inserts an allocation. -/
theorem takeBlock_rep {n want : ℕ} (hr : HeapRep L h as) (hfree : freeBlocks as = B ++ g :: G)
    (hn : n + 8 ≤ want) (h8 : 8 ∣ want) (hg : want ≤ g.size) :
    ∃ P Q h', as = P ++ Q ∧ HeapRep L h' (P ++ ⟨⟨g.start, keptSize want g.size⟩, n⟩ :: Q) ∧
      takeBlock L h want
        ((⟨L.xStart, 0⟩ :: B : List Extent).getLast (List.cons_ne_nil _ _)).start g.start =
          some (g.start + heapStructSize, h') ∧
      (∀ q, L.IsHeader q → Settled h as q →
        Settled h' (P ++ ⟨⟨g.start, keptSize want g.size⟩, n⟩ :: Q) q) ∧
      SameOutside (insert g.start (startsOf (⟨L.xStart, 0⟩ ::
        freeBlocks (P ++ ⟨⟨g.start, keptSize want g.size⟩, n⟩ :: Q)))) h.mem h'.mem := by
  have hgmem : g ∈ freeBlocks as := hfree ▸ List.mem_append_right _ List.mem_cons_self
  obtain ⟨hg8, -, -, hhi⟩ := hr.mem_freeBlocks hgmem
  have hgblock : g.start + g.size = g.stop := rfl
  have hfreeBytes : h.xFreeBytesRemaining = total B + (g.size + total G) := by
    rw [hr.free_eq, hfree, total_append, total_cons]
  have hlt := hr.free_lt
  obtain ⟨hk, hkg, hk8⟩ := keptSize_spec hg h8 hg8.2
  have hbetween := hr.between hfree
  obtain ⟨m', htake, hchain, hnext, hsize, hwrites⟩ :=
    hbetween.takeBlock_spec (h := h) (by rw [hr.pxEnd_eq, ← hfree]; exact hr.chain)
      hr.bit_eq (by omega) hg h8 (by omega) (by omega)
  generalize keptSize want g.size = k at *
  obtain ⟨P, Q, rfl, hlast, hfirst, hnew⟩ := exists_place hfree
  obtain ⟨hkeep, hkeepEnd⟩ := hr.sameHeader_taken hfree hk8 (by omega) hwrites
  have hmem : ∀ {p : Allocation → Prop}, p ⟨⟨g.start, k⟩, n⟩ → (∀ c ∈ P ++ Q, p c) →
      ∀ c ∈ P ++ ⟨⟨g.start, k⟩, n⟩ :: Q, p c := by
    intro p ha hPQ c hc
    rcases List.mem_cons.1 (List.perm_middle.subset hc) with rfl | hc
    · exact ha
    · exact hPQ c hc
  have hrep : HeapRep L
      { h with mem := m', xFreeBytesRemaining := h.xFreeBytesRemaining - k }
      (P ++ ⟨⟨g.start, k⟩, n⟩ :: Q) := {
    pxEnd_eq := hr.pxEnd_eq
    bit_eq := hr.bit_eq
    free_eq := by
      rw [hnew, total_append, total_append, total_gap]
      dsimp only
      omega
    packed := by
      have hpacked := hr.packed
      rw [List.map_append] at hpacked ⊢
      exact hpacked.insert (Nat.le_of_eq hlast) (show 0 < k by omega)
        (show g.start + k ≤ _ by omega)
    aligned := hmem ⟨hg8.1, hk8⟩ hr.aligned
    fits := hmem (show n + 8 ≤ k by omega) hr.fits
    chain := by
      rw [hnew]
      exact hr.pxEnd_eq ▸ hchain
    endMarker := ⟨hkeepEnd.1.trans hr.endMarker.1, hkeepEnd.2.trans hr.endMarker.2⟩
    headers := hmem ⟨hnext, hsize⟩ fun c hc ↦
      ⟨(hkeep c hc).1.trans (hr.headers c hc).1, (hkeep c hc).2.trans (hr.headers c hc).2⟩ }
  refine ⟨P, Q, _, rfl, hrep, htake, fun q hqheader hq ↦ hq.of_frame hrep ?_ ?_, hnew k n ▸ hwrites⟩
  · exact fun a ha heq ↦ Or.inr ⟨a, mem_middle ha, heq⟩
  · intro hall hnodes
    rw [hnew] at hnodes
    exact (hbetween.sameHeader hk8 (by omega) hwrites hqheader
      (hall ⟨⟨g.start, k⟩, n⟩ (by simp)) hnodes).2

/-- **First fit.** Where a request goes: the lowest free block that is large enough, or what is kept
of it. The whole of the free bytes is looked at first. -/
def firstFit (as : List Allocation) (n : ℕ) : Option Extent :=
  if n < 2 ^ 31 ∧ 0 < adjustedSize n ∧ adjustedSize n ≤ total (freeBlocks as) then
    ((freeBlocks as).find? fun g ↦ adjustedSize n ≤ g.size).map fun g ↦
      ⟨g.start, keptSize (adjustedSize n) g.size⟩
  else none

/-- Only a request for some bytes has an adjusted size. -/
theorem pos_of_adjustedSize_pos {n : ℕ} (h : 0 < adjustedSize n) : 0 < n := by
  rcases Nat.eq_zero_or_pos n with rfl | hpos
  · rw [adjustedSize_zero] at h
    exact absurd h (Nat.lt_irrefl 0)
  · exact hpos

/-- The two tests before the walk. -/
theorem allocate_of_tests {n : ℕ} (hr : HeapRep L h as) (hn : n < 2 ^ 32) :
    allocate L h n =
      if n < 2 ^ 31 ∧ 0 < adjustedSize n ∧ adjustedSize n ≤ total (freeBlocks as) then
        (findFit h.mem (adjustedSize n) walkFuel L.xStart (pxNextFreeBlock h.mem L.xStart)).bind
          fun (pxPreviousBlock, pxBlock) ↦
            if pxBlock ≠ h.pxEnd then takeBlock L h (adjustedSize n) pxPreviousBlock pxBlock
            else some (0, h)
      else some (0, h) := by
  rw [allocate, hr.bit_eq, ← hr.free_eq]
  by_cases hbit : n &&& 2 ^ 31 = 0
  · have hlt : n < 2 ^ 31 := (and_allocatedBit_eq_zero hn).1 hbit
    rw [if_pos hbit]
    by_cases hsize : 0 < adjustedSize n ∧ adjustedSize n ≤ h.xFreeBytesRemaining
    · rw [if_pos hsize, if_pos ⟨hlt, hsize⟩]
    · rw [if_neg hsize, if_neg fun htests ↦ hsize htests.2]
  · have hge : ¬ n < 2 ^ 31 := fun hlt ↦ hbit ((and_allocatedBit_eq_zero hn).2 hlt)
    rw [if_neg hbit, if_neg fun htests ↦ hge htests.1]

/-- **A request that fits nowhere** fails, and leaves the heap as it is. -/
theorem allocate_of_none {n : ℕ} (hr : HeapRep L h as) (hn : n < 2 ^ 32)
    (hfit : firstFit as n = none) : allocate L h n = some (0, h) := by
  rw [allocate_of_tests hr hn]
  rw [firstFit] at hfit
  split at hfit
  · next htests =>
    have hnone : ∀ b ∈ freeBlocks as, b.size < adjustedSize n := by
      simpa using List.find?_eq_none.1 (Option.map_eq_none_iff.1 hfit)
    obtain ⟨-, -, hchain⟩ := hr.chain
    have hstart : ∀ b ∈ freeBlocks as, 0 < b.start := fun b hb ↦
      Nat.lt_of_lt_of_le (by decide) (hr.mem_freeBlocks hb).2.1
    -- The walk comes to the end marker.
    obtain ⟨prev, hwalk⟩ := findFit_eq_end (q := L.xStart) hchain hnone hstart
      (by decide) hr.endMarker.1 hr.length_freeBlocks_lt
    rw [if_pos htests, hwalk, Option.bind_some, hr.pxEnd_eq]
    exact if_neg (not_not.2 rfl)
  · next htests => rw [if_neg htests]

/-- **A request that fits** inserts its block. -/
theorem allocate_of_some {n : ℕ} (hr : HeapRep L h as) (hn : n < 2 ^ 32)
    (hfit : firstFit as n = some b) :
    ∃ P Q h', as = P ++ Q ∧ HeapRep L h' (P ++ ⟨b, n⟩ :: Q) ∧
      allocate L h n = some (b.start + heapStructSize, h') ∧
      (∀ q, L.IsHeader q → Settled h as q → Settled h' (P ++ ⟨b, n⟩ :: Q) q) ∧
      SameOutside (insert b.start (startsOf (⟨L.xStart, 0⟩ :: freeBlocks (P ++ ⟨b, n⟩ :: Q))))
        h.mem h'.mem := by
  rw [allocate_of_tests hr hn]
  rw [firstFit] at hfit
  split at hfit
  · next htests =>
    obtain ⟨hlt, hpos, -⟩ := id htests
    obtain ⟨g, hfind, rfl⟩ := Option.map_eq_some_iff.1 hfit
    obtain ⟨hroom, -, h8⟩ := adjustedSize_spec (pos_of_adjustedSize_pos hpos) hlt
    rw [if_pos htests]
    generalize adjustedSize n = want at *
    obtain ⟨hg, B, G, hfree, hB⟩ := List.find?_eq_some_iff_append.1 hfind
    have hg : want ≤ g.size := of_decide_eq_true hg
    have hB : ∀ b ∈ B, b.size < want := by simpa using hB
    have hgmem : g ∈ freeBlocks as := hfree ▸ List.mem_append_right _ List.mem_cons_self
    obtain ⟨P, Q, h', hsplit, hrep, htake, hframes⟩ := takeBlock_rep hr hfree hroom h8 hg
    have hlen : B.length < walkFuel := by
      have hlen := hr.length_freeBlocks_lt
      rw [hfree, List.length_append] at hlen
      omega
    obtain ⟨-, -, hchain⟩ := hr.chain
    have hstart : ∀ b ∈ freeBlocks as, 0 < b.start := fun b hb ↦
      Nat.lt_of_lt_of_le (by decide) (hr.mem_freeBlocks hb).2.1
    -- The walk finds the block.
    have hwalk := findFit_eq (c := ⟨L.xStart, 0⟩) (hfree ▸ hchain) hB hg (hfree ▸ hstart) hlen
    have hne : g.start ≠ h.pxEnd := by
      rw [hr.pxEnd_eq]
      exact (hr.ne_pucHeapEnd (List.mem_cons_of_mem _ hgmem)).symm
    refine ⟨P, Q, h', hsplit, hrep, ?_, hframes⟩
    rw [hwalk, Option.bind_some]
    dsimp only
    rw [if_pos hne, htake]
  · exact absurd hfit (by simp)

/-- **An allocation** either fails and leaves the heap as it is, or inserts one block. -/
theorem allocate_spec {n : ℕ} (hr : HeapRep L h as) (hn : n < 2 ^ 32) :
    ∃ p h', allocate L h n = some (p, h') ∧ (p = 0 ∧ h' = h ∨
      ∃ P Q a, as = P ++ Q ∧ a.want = n ∧ p = a.block.start + heapStructSize ∧
        HeapRep L h' (P ++ a :: Q)) := by
  cases hfit : firstFit as n with
  | none => exact ⟨0, h, allocate_of_none hr hn hfit, Or.inl ⟨rfl, rfl⟩⟩
  | some b =>
    obtain ⟨P, Q, h', hsplit, hrep, halloc, -, -⟩ := allocate_of_some hr hn hfit
    exact ⟨_, h', halloc, Or.inr ⟨P, Q, ⟨b, n⟩, hsplit, rfl, rfl, hrep⟩⟩

/-! ### Freeing -/

/-- The mark in the header of an allocated block, and its size without it. -/
theorem HeapRep.marked (hr : HeapRep L h as) (ha : a ∈ as) :
    xBlockSize h.mem a.block.start &&& h.xBlockAllocatedBit ≠ 0 ∧
      xBlockSize h.mem a.block.start &&& not32 h.xBlockAllocatedBit = a.block.size := by
  obtain ⟨hlo, -, hhi⟩ := hr.mem_allocation ha
  have hablock : a.block.start + a.block.size = a.block.stop := rfl
  have hstart := pucAlignedHeap_eq
  have hend := pucHeapEnd_eq
  rw [hr.bit_eq, (hr.headers a ha).2, ne_eq, and_allocatedBit_eq_zero (by omega),
    and_not32_allocatedBit (by omega)]
  omega

/-- **Putting a block back** into the list makes the hole it lies in one free block, and leaves the
headers of the other allocations and of the end marker alone. -/
theorem HeapRep.insert_freed (hr : HeapRep L h (P ++ a :: Q)) :
    ∃ m', prvInsertBlockIntoFreeList L (setBlockSize h.mem a.block.start a.block.size) pucHeapEnd
        a.block.start = some m' ∧
      FreeChain m' L.xStart (⟨L.xStart, 0⟩ :: freeBlocks (P ++ Q)) pucHeapEnd ∧
      total (freeBlocks (P ++ Q)) = total (freeBlocks (P ++ a :: Q)) + a.block.size ∧
      (∀ q, L.IsHeader q → (∀ b ∈ ⟨L.xStart, 0⟩ :: freeBlocks (P ++ Q), q ≠ b.start) →
        SameHeader (setBlockSize h.mem a.block.start a.block.size) m' q) ∧
      ∀ q, L.IsHeader q → q ≠ a.block.start →
        (∀ b ∈ ⟨L.xStart, 0⟩ :: freeBlocks (P ++ a :: Q), q ≠ b.start) →
        SameHeader h.mem m' q := by
  have hamem : a ∈ P ++ a :: Q := List.mem_append_right _ List.mem_cons_self
  obtain ⟨hlo, hasize, hhi⟩ := hr.mem_allocation hamem
  have hablock : a.block.start + a.block.size = a.block.stop := rfl
  have hend := pucHeapEnd_eq
  have hnodes := hr.nodes_cons hamem
  have haheader : L.IsHeader a.block.start := hr.isHeader_allocation hamem
  generalize hm₁ : setBlockSize h.mem a.block.start a.block.size = m₁
  have hframe₁ : ∀ q, L.IsHeader q → q ≠ a.block.start → SameHeader h.mem m₁ q := fun q hq hne ↦
    hm₁ ▸ sameHeader_setBlockSize haheader hq hne
  have hsize₁ : xBlockSize m₁ a.block.start = a.block.size :=
    hm₁ ▸ xBlockSize_setBlockSize (by omega)
  have hchain₁ : FreeChain m₁ L.xStart (⟨L.xStart, 0⟩ :: freeBlocks (P ++ a :: Q)) pucHeapEnd :=
    Chain.congr hr.chain fun b hb ↦
      hframe₁ _ (hnodes.isHeader b (List.mem_cons_of_mem _ hb)) (hnodes.ne_head hb)
  -- The hole the block lies in goes from the last stop before it to the first start behind it.
  have hpacked := hr.packed
  rw [List.map_append, List.map_cons] at hpacked
  obtain ⟨hP, hub, hpos, hQ⟩ := packed_append.1 hpacked
  have hlist := freeBlocks_middle P a Q
  have hlist' := freeBlocks_append P Q
  have hbv := hQ.le_firstStart
  have hve := hQ.firstStart_le
  have hB := fun g ↦ hP.mem_gapsBefore (g := g)
  have hG := fun g ↦ hQ.mem_gapsAfter (g := g)
  generalize lastStop pucAlignedHeap (P.map Allocation.block) = u at *
  generalize firstStart (Q.map Allocation.block) pucHeapEnd = v at *
  generalize gapsBefore pucAlignedHeap (P.map Allocation.block) = B at *
  generalize gapsAfter (Q.map Allocation.block) pucHeapEnd = G at *
  have hlen := hr.length_freeBlocks_lt
  rw [hlist, List.length_append] at hlen
  obtain ⟨m', hinsert, hchain', hwrites⟩ := prvInsertBlockIntoFreeList_spec
    (hlist ▸ hchain₁) (hlist ▸ hnodes) hsize₁ hpos hub hbv (fun g hg ↦ (hB g hg).2)
    (fun g hg ↦ (hG g hg).1) hve (by decide) (by omega)
  have hhole : freeBlocks (P ++ Q) = B ++ ⟨u, v - u⟩ :: G := by
    rw [hlist', gap_of_lt (by omega)]
    rfl
  have hbegins : ∀ b ∈ ⟨L.xStart, 0⟩ :: (B ++ ⟨u, v - u⟩ :: G),
      ∃ c ∈ a.block :: ⟨L.xStart, 0⟩ :: freeBlocks (P ++ a :: Q), c.start = b.start :=
    fun b hb ↦ hlist ▸ exists_start_eq hub hb
  have hframe : ∀ q, L.IsHeader q →
      (∀ b ∈ ⟨L.xStart, 0⟩ :: (B ++ ⟨u, v - u⟩ :: G), q ≠ b.start) → SameHeader m₁ m' q := by
    intro q hq hne
    refine hwrites.sameHeader ?_ hq (notMem_startsOf hne)
    rintro p ⟨b, hb, rfl⟩
    obtain ⟨c, hc, heq⟩ := hbegins b hb
    exact heq ▸ hnodes.isHeader c hc
  refine ⟨m', hinsert, hhole ▸ hchain', ?_, fun q hq hne ↦ hframe q hq (hhole ▸ hne),
    fun q hq hqa hne ↦ (hframe₁ q hq hqa).trans (hframe q hq fun b hb ↦ ?_)⟩
  · rw [hlist, hlist']
    simp only [total_append, total_gap]
    omega
  · obtain ⟨c, hc, heq⟩ := hbegins b hb
    rcases List.mem_cons.1 hc with rfl | hc
    · exact heq ▸ hqa
    · exact heq ▸ hne c hc

/-- **Freeing** takes one allocation away. -/
theorem vPortFree_spec (hr : HeapRep L h (P ++ a :: Q)) :
    ∃ h', vPortFree L h (a.block.start + heapStructSize) = some h' ∧ HeapRep L h' (P ++ Q) ∧
      ∀ q, L.IsHeader q → Settled h (P ++ a :: Q) q → Settled h' (P ++ Q) q := by
  have hamem : a ∈ P ++ a :: Q := List.mem_append_right _ List.mem_cons_self
  obtain ⟨hlo, hasize, hhi⟩ := hr.mem_allocation hamem
  have hablock : a.block.start + a.block.size = a.block.stop := rfl
  have hend := pucHeapEnd_eq
  have hstruct := heapStructSize_eq
  obtain ⟨hmark, hclear⟩ := hr.marked hamem
  obtain ⟨m', hinsert, hchain, htotal, hframe', hframe⟩ := hr.insert_freed
  have hkeep : ∀ c ∈ P ++ Q, SameHeader h.mem m' c.block.start := by
    intro c hc
    have hcmem : c ∈ P ++ a :: Q := mem_middle hc
    have hapart : a.block.stop ≤ c.block.start ∨ c.block.stop ≤ a.block.start := hr.apart_middle hc
    have hcblock : c.block.start + c.block.size = c.block.stop := rfl
    have hcsize := (hr.mem_allocation hcmem).2.1
    exact hframe _ (hr.isHeader_allocation hcmem) (by omega)
      fun b hb ↦ ((hr.nodes_cons hcmem).ne_head hb).symm
  have hkeepEnd : SameHeader h.mem m' pucHeapEnd :=
    hframe _ HeapRep.isHeader_pucHeapEnd (by omega) fun b ↦ hr.ne_pucHeapEnd
  have hbytes : add32 h.xFreeBytesRemaining a.block.size = total (freeBlocks (P ++ Q)) := by
    have hlt := hr.free_lt
    rw [add32_eq (by omega), htotal, hr.free_eq]
  have hsize : xBlockSize (setBlockSize h.mem a.block.start a.block.size) a.block.start =
      a.block.size := xBlockSize_setBlockSize (by omega)
  have hrep : HeapRep L { h with mem := m', xFreeBytesRemaining := total (freeBlocks (P ++ Q)) }
      (P ++ Q) := {
    pxEnd_eq := hr.pxEnd_eq
    bit_eq := hr.bit_eq
    free_eq := rfl
    packed := by
      have hpacked := hr.packed
      rw [List.map_append] at hpacked ⊢
      exact hpacked.erase
    aligned := fun c hc ↦ hr.aligned c (mem_middle hc)
    fits := fun c hc ↦ hr.fits c (mem_middle hc)
    chain := hchain
    endMarker := ⟨hkeepEnd.1.trans hr.endMarker.1, hkeepEnd.2.trans hr.endMarker.2⟩
    headers := fun c hc ↦ by
      have hold := hr.headers c (mem_middle hc)
      exact ⟨(hkeep c hc).1.trans hold.1, (hkeep c hc).2.trans hold.2⟩ }
  refine ⟨_, ?_, hrep, fun q hqheader hq ↦ ?_⟩
  · have hlink : sub32 (a.block.start + heapStructSize) heapStructSize = a.block.start := by
      rw [sub32_eq (by omega) (by omega), Nat.add_sub_cancel]
    have hpv : a.block.start + heapStructSize ≠ 0 := by omega
    rw [vPortFree, if_pos hpv]
    dsimp only
    rw [hlink, if_pos hmark, if_pos (hr.headers a hamem).1, hclear, hsize, hr.pxEnd_eq, hinsert,
      hbytes]
    rfl
  · by_cases hqa : q = a.block.start
    · -- The header of the freed block: in the list, or left behind without its mark.
      subst hqa
      by_cases hnode : ∃ b ∈ ⟨L.xStart, 0⟩ :: freeBlocks (P ++ Q), b.start = a.block.start
      · obtain ⟨b, hb, heq⟩ := hnode
        exact Or.inl (heq ▸ hrep.size_node_lt hb)
      · refine Or.inl ?_
        have hsame := hframe' _ hqheader fun b hb heq ↦ hnode ⟨b, hb, heq.symm⟩
        show xBlockSize m' a.block.start < 2 ^ 31
        rw [hsame.2, hsize]
        omega
    · refine hq.of_frame hrep (fun c hc heq ↦ ?_) fun _ hnodes ↦ ?_
      · rcases List.mem_cons.1 (List.perm_middle.subset hc) with rfl | hc
        · exact absurd heq.symm hqa
        · exact Or.inr ⟨c, hc, heq⟩
      · exact (hframe' q hqheader hnodes).2.trans
          (sameHeader_setBlockSize (hr.isHeader_allocation hamem) hqheader hqa).2

/-- **A pointer whose header is not marked** is not freed. -/
theorem vPortFree_of_unmarked {pv : ℕ} (hr : HeapRep L h as)
    (hsize : xBlockSize h.mem (sub32 pv heapStructSize) < 2 ^ 31) : vPortFree L h pv = some h := by
  have hmark : xBlockSize h.mem (sub32 pv heapStructSize) &&& h.xBlockAllocatedBit = 0 := by
    rw [hr.bit_eq]
    exact (and_allocatedBit_eq_zero (Nat.lt_trans hsize (by decide))).2 hsize
  rw [vPortFree]
  dsimp only
  rw [if_neg (not_not.2 hmark), ite_self]

end YHAudioLink
