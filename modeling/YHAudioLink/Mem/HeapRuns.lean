import YHAudioLink.Foundation.Runs
import YHAudioLink.Mem.HeapInvariant

/-!
# The heap, over all its runs

A run is any sequence of allocations, releases and resets, with writes of the callers into the
blocks they own in between. Beside the heap the run keeps which pointers are **live**: returned, and
neither freed nor forgotten by a reset.

A step keeps one invariant: the heap is fresh and nothing is live, or it represents allocations
whose pointers are the live ones (`HeapRun.step_spec`). What `HeapWellFormed` says of a state, in
the terms of `lib_mem.c`, is then read off the representation; it does not mention gaps.
-/

namespace YHAudioLink

open ByteStore Extents

/-! ### Runs -/

/-- A pointer that has been returned, and the size that was asked for. -/
structure LiveBlock where
  ptr : ℕ
  want : ℕ
deriving DecidableEq

/-- The heap, and the live pointers, newest first. -/
structure HeapRun where
  heap : LibMem
  live : List LiveBlock

/-- What a caller does. -/
inductive HeapOp
  | malloc (xWantedSize : UInt32)
  | calloc (n xWantedSize : UInt32)
  | free (pv : ℕ)
  | deinit
  /-- Store `xs` at `off`. -/
  | write (off : ℕ) (xs : List UInt8)

/-- The block of a live pointer, header included, as its header says. -/
def LiveBlock.block (l : LiveBlock) (h : LibMem) : Extent where
  start := l.ptr - heapStructSize
  size := xBlockSize h.mem (l.ptr - heapStructSize) &&& not32 h.xBlockAllocatedBit

/-- The blocks of the live pointers. -/
def HeapRun.blocks (s : HeapRun) : List Extent := s.live.map fun l ↦ l.block s.heap

/-- The run behind a call that has returned `r`. -/
def HeapRun.returned (s : HeapRun) (want : ℕ) (r : ℕ × LibMem) : HeapRun where
  heap := r.2
  live := if r.1 = 0 then s.live else ⟨r.1, want⟩ :: s.live

/-- One step of a run. -/
def HeapRun.step (L : Placement) (s : HeapRun) : HeapOp → Option HeapRun
  | .malloc n => (pvPortMalloc L s.heap n.toNat).map (s.returned n.toNat)
  | .calloc n size =>
    (pvPortCalloc L s.heap n.toNat size.toNat).map (s.returned (n.toNat * size.toNat))
  | .free pv => (vPortFree L s.heap pv).map fun heap ↦
      { heap, live := s.live.filter fun l ↦ l.ptr ≠ pv }
  | .deinit => some { heap := pvPortMemDeinit L s.heap, live := [] }
  | .write off xs => some { s with heap := { s.heap with mem := store s.heap.mem off xs } }

/-- What callers keep to: a product passed to `pvPortCalloc` does not wrap and the call succeeds,
only `NULL` or a live pointer is freed, and writes stay inside a block, behind its header. -/
def HeapRun.allowed (L : Placement) (s : HeapRun) : HeapOp → Bool
  | .malloc _ => true
  | .calloc n size => n.toNat * size.toNat < wordSize &&
      (pvPortMalloc L s.heap (n.toNat * size.toNat)).any fun r ↦ r.1 != 0
  | .free pv => pv == 0 || s.live.any fun l ↦ l.ptr == pv
  | .deinit => true
  | .write off xs => s.live.any fun l ↦ l.ptr ≤ off && off + xs.length ≤ (l.block s.heap).stop

/-- At boot, with any contents of the memory. -/
def HeapRun.AtBoot (s : HeapRun) : Prop := ∃ mem, s = { heap := .atBoot mem, live := [] }

/-- The states of the runs in which callers keep to what they may do. -/
abbrev HeapRun.Reachable (L : Placement) : HeapRun → Prop :=
  Runs.Reachable HeapRun.AtBoot (HeapRun.step L) (HeapRun.allowed L)

/-! ### What holds of an initialised heap -/

/-- **The heap is well formed**, with these free blocks. -/
structure HeapWellFormed (L : Placement) (s : HeapRun) (free : List Extent) : Prop where
  pxEnd_eq : s.heap.pxEnd = pucHeapEnd
  /-- Following `pxNextFreeBlock` from `xStart` one finds exactly the free blocks, and comes to
  `pxEnd`. -/
  freeList : FreeChain s.heap.mem L.xStart (⟨L.xStart, 0⟩ :: free) s.heap.pxEnd
  endMarker : pxNextFreeBlock s.heap.mem s.heap.pxEnd = 0 ∧ xBlockSize s.heap.mem s.heap.pxEnd = 0
  /-- Free and allocated blocks tile the region, without a gap and without an overlap. -/
  tiles : ∃ ts, ts.Perm (free ++ s.blocks) ∧ Tiles pucAlignedHeap ts s.heap.pxEnd
  aligned : ∀ b ∈ free ++ s.blocks, b.Aligned portByteAlignment
  ascending : free.Pairwise fun b c ↦ b.start < c.start
  not_adjacent : ∀ b ∈ free, ∀ c ∈ free, b.stop ≠ c.start
  freeBytes : s.heap.xFreeBytesRemaining = total free
  live_apart : s.blocks.Pairwise Extent.Apart
  live_inside : ∀ b ∈ s.blocks, ucHeap ≤ b.start ∧ b.stop ≤ ucHeap + configTotalHeapSize
  /-- A live pointer points behind a header, with at least the bytes asked for behind it. -/
  live_large : ∀ l ∈ s.live, l.ptr = (l.block s.heap).start + heapStructSize ∧
    l.ptr + l.want ≤ (l.block s.heap).stop

/-- The free block `prvHeapInit` makes. -/
def initialFreeBlock : Extent := ⟨pucAlignedHeap, xTotalHeapSize - heapStructSize⟩

/-! ### The invariant of the runs -/

/-- The pointer the caller has. -/
def Allocation.live (a : Allocation) : LiveBlock := ⟨a.block.start + heapStructSize, a.want⟩

/-- The heap represents the allocations, and the live pointers are theirs. -/
structure HeapRun.Represents (L : Placement) (s : HeapRun) (as : List Allocation) : Prop where
  rep : HeapRep L s.heap as
  live_perm : s.live.Perm (as.map Allocation.live)

/-- The heap has not been initialised and nothing is live, or it represents the allocations that
are. -/
def HeapRun.Inv (L : Placement) (s : HeapRun) : Prop :=
  Fresh s.heap ∧ s.live = [] ∨ ∃ as, s.Represents L as

variable {L : Placement} {s t : HeapRun} {as P Q : List Allocation} {a : Allocation} {op : HeapOp}

/-- The block a live pointer's header describes is the block of its allocation. -/
theorem HeapRep.block_live {h : LibMem} (hr : HeapRep L h as) (ha : a ∈ as) :
    a.live.block h = a.block := by
  have hstart : a.live.ptr - heapStructSize = a.block.start := Nat.add_sub_cancel _ _
  rw [LiveBlock.block, hstart, (hr.marked ha).2]

/-- A new allocation makes a pointer live. -/
theorem perm_map_live_cons {ls : List LiveBlock} (h : ls.Perm ((P ++ Q).map Allocation.live)) :
    (a.live :: ls).Perm ((P ++ a :: Q).map Allocation.live) := by
  rw [List.map_append] at h
  rw [List.map_append, List.map_cons]
  exact (h.cons a.live).trans List.perm_middle.symm

namespace HeapRun

/-- A live pointer is one of an allocation. -/
theorem Represents.exists_of_mem (hs : s.Represents L as) {l : LiveBlock} (hl : l ∈ s.live) :
    ∃ a ∈ as, a.live = l :=
  List.mem_map.1 (hs.live_perm.subset hl)

theorem Represents.blocks_perm (hs : s.Represents L as) :
    s.blocks.Perm (as.map Allocation.block) := by
  have hblocks : (as.map Allocation.live).map (fun l ↦ l.block s.heap) =
      as.map Allocation.block := by
    rw [List.map_map]
    exact List.map_congr_left fun a ha ↦ hs.rep.block_live ha
  rw [blocks, ← hblocks]
  exact hs.live_perm.map _

/-- The heap serves some allocations, and the live pointers are theirs. -/
theorem Inv.exists_serves (hs : s.Inv L) :
    ∃ as, Serves L s.heap as ∧ s.live.Perm (as.map Allocation.live) := by
  rcases hs with ⟨hfresh, hlive⟩ | ⟨as, hs⟩
  · exact ⟨[], Or.inl ⟨hfresh, rfl⟩, by rw [hlive, List.map_nil]⟩
  · exact ⟨as, Or.inr hs.rep, hs.live_perm⟩

/-- **`pvPortMalloc` returns**, with the live pointers and perhaps a new one. -/
theorem Inv.pvPortMalloc {n : ℕ} (hs : s.Inv L) (hn : n < 2 ^ 32) :
    ∃ r as, YHAudioLink.pvPortMalloc L s.heap n = some r ∧ (s.returned n r).Represents L as ∧
      (r.1 ≠ 0 → ∃ a ∈ as, r.1 = a.block.start + heapStructSize ∧ a.want = n) := by
  obtain ⟨as, hserves, hlive⟩ := hs.exists_serves
  obtain ⟨h₀, hinit, hrep, -⟩ := hserves.exists_init
  obtain ⟨p, h', halloc, hcases⟩ := allocate_spec hrep hn
  have hmalloc : YHAudioLink.pvPortMalloc L s.heap n = some (p, h') := by
    rw [YHAudioLink.pvPortMalloc, hinit, Option.bind_some, halloc]
  refine ⟨(p, h'), ?_⟩
  rcases hcases with ⟨rfl, rfl⟩ | ⟨P, Q, a, rfl, hwant, rfl, hrep'⟩
  · exact ⟨as, hmalloc, ⟨hrep, hlive⟩, fun hne ↦ absurd rfl hne⟩
  · have hne : a.block.start + heapStructSize ≠ 0 := Nat.succ_ne_zero _
    refine ⟨P ++ a :: Q, hmalloc, ⟨hrep', ?_⟩,
      fun _ ↦ ⟨a, List.mem_append_right _ List.mem_cons_self, rfl, hwant⟩⟩
    have hnew : (s.returned n (a.block.start + heapStructSize, h')).live = a.live :: s.live := by
      rw [returned, if_neg hne, ← hwant]
      rfl
    rw [hnew]
    exact perm_map_live_cons hlive

/-- **`vPortFree` of a live pointer** returns, and the pointer is no longer live. -/
theorem Represents.vPortFree (hs : s.Represents L (P ++ a :: Q)) :
    ∃ t, s.step L (.free a.live.ptr) = some t ∧ t.Represents L (P ++ Q) := by
  obtain ⟨h', hfree, hrep, -⟩ := vPortFree_spec hs.rep
  refine ⟨_, congrArg (Option.map _) hfree, hrep, ?_⟩
  have hother : ∀ c ∈ P ++ Q, c.live.ptr ≠ a.live.ptr := by
    intro c hc
    have hcmem : c ∈ P ++ a :: Q := mem_middle hc
    have hcsize := (hs.rep.mem_allocation hcmem).2.1
    have hasize := (hs.rep.mem_allocation (List.mem_append_right P List.mem_cons_self)).2.1
    have hapart : a.block.start + a.block.size ≤ c.block.start ∨
        c.block.start + c.block.size ≤ a.block.start := hs.rep.apart_middle hc
    show c.block.start + heapStructSize ≠ a.block.start + heapStructSize
    omega
  have hfilter : ((P ++ a :: Q).map Allocation.live).filter (fun l ↦ l.ptr ≠ a.live.ptr) =
      (P ++ Q).map Allocation.live := by
    have hkeep : ∀ as : List Allocation, (∀ c ∈ as, c ∈ P ++ Q) →
        (as.map Allocation.live).filter (fun l ↦ l.ptr ≠ a.live.ptr) =
          as.map Allocation.live := by
      intro as has
      refine List.filter_eq_self.2 fun l hl ↦ ?_
      obtain ⟨c, hc, rfl⟩ := List.mem_map.1 hl
      exact decide_eq_true (hother c (has c hc))
    rw [List.map_append, List.map_cons, List.filter_append, List.map_append,
      hkeep P fun c ↦ List.mem_append_left Q, List.filter_cons_of_neg (by simp),
      hkeep Q fun c ↦ List.mem_append_right P]
  exact hfilter ▸ hs.live_perm.filter _

/-- **A step that is allowed returns, and keeps the invariant.** -/
theorem step_spec (hs : s.Inv L) (hok : s.allowed L op = true) :
    ∃ t, s.step L op = some t ∧ t.Inv L := by
  cases op with
  | malloc n =>
    obtain ⟨r, as, hmalloc, hrep, -⟩ := hs.pvPortMalloc n.toNat_lt
    exact ⟨_, congrArg (Option.map _) hmalloc, Or.inr ⟨as, hrep⟩⟩
  | calloc n size =>
    obtain ⟨hlt, hsucceeds⟩ := Bool.and_eq_true_iff.1 hok
    have hlt : n.toNat * size.toNat < 2 ^ 32 := of_decide_eq_true hlt
    obtain ⟨r, as, hmalloc, hrep, hcases⟩ := hs.pvPortMalloc hlt
    have hmod : n.toNat * size.toNat % wordSize = n.toNat * size.toNat := Nat.mod_eq_of_lt hlt
    have hne : r.1 ≠ 0 := by
      rw [hmalloc] at hsucceeds
      exact bne_iff_ne.1 hsucceeds
    -- The block is there, and `memset` stays inside it.
    obtain ⟨a, ha, hptr, hwant⟩ := hcases hne
    have hfits := hrep.rep.fits a ha
    have hablock : a.block.start + a.block.size = a.block.stop := rfl
    have hstruct := heapStructSize_eq
    have hcalloc : s.step L (.calloc n size) = some (s.returned (n.toNat * size.toNat)
        (r.1, { r.2 with
          mem := store r.2.mem r.1 (List.replicate (n.toNat * size.toNat) 0) })) := by
      rw [step, pvPortCalloc, hmod, hmalloc]
      rfl
    refine ⟨_, hcalloc, Or.inr ⟨as, hrep.rep.store ha ?_ ?_, hrep.live_perm⟩⟩
    · omega
    · rw [List.length_replicate]
      omega
  | free pv =>
    rcases Nat.eq_zero_or_pos pv with rfl | hpos
    · -- `NULL`: nothing is done, and no live pointer is `NULL`.
      have hfree : s.step L (.free 0) = some s := by
        have hlive : s.live.filter (fun l ↦ l.ptr ≠ 0) = s.live := by
          refine List.filter_eq_self.2 fun l hl ↦ decide_eq_true ?_
          rcases hs with ⟨-, hnil⟩ | ⟨as, hs⟩
          · rw [hnil] at hl
            exact absurd hl List.not_mem_nil
          · obtain ⟨a, -, rfl⟩ := hs.exists_of_mem hl
            exact Nat.succ_ne_zero _
        show some { heap := s.heap, live := s.live.filter fun l ↦ l.ptr ≠ 0 } = some s
        rw [hlive]
      exact ⟨s, hfree, hs⟩
    · have hlive : s.live.any (fun l ↦ l.ptr == pv) = true := by
        rcases Bool.or_eq_true_iff.1 hok with h | h
        · exact absurd (beq_iff_eq.1 h) hpos.ne'
        · exact h
      obtain ⟨l, hl, hpv⟩ := List.any_eq_true.1 hlive
      rcases hs with ⟨-, hnil⟩ | ⟨as, hs⟩
      · rw [hnil] at hl
        exact absurd hl List.not_mem_nil
      · obtain ⟨a, ha, rfl⟩ := hs.exists_of_mem hl
        obtain ⟨P, Q, rfl⟩ := List.append_of_mem ha
        obtain ⟨t, hstep, ht⟩ := hs.vPortFree
        rw [beq_iff_eq.1 hpv] at hstep
        exact ⟨t, hstep, Or.inr ⟨P ++ Q, ht⟩⟩
  | deinit => exact ⟨_, rfl, Or.inl ⟨⟨rfl, rfl⟩, rfl⟩⟩
  | write off xs =>
    obtain ⟨l, hl, hinside⟩ := List.any_eq_true.1 hok
    obtain ⟨hoff, hstop⟩ := Bool.and_eq_true_iff.1 hinside
    rcases hs with ⟨-, hnil⟩ | ⟨as, hs⟩
    · rw [hnil] at hl
      exact absurd hl List.not_mem_nil
    · obtain ⟨a, ha, rfl⟩ := hs.exists_of_mem hl
      have hoff : a.block.start + heapStructSize ≤ off := of_decide_eq_true hoff
      have hstop : off + xs.length ≤ a.block.stop := by
        rw [← hs.rep.block_live ha]
        exact of_decide_eq_true hstop
      exact ⟨_, rfl, Or.inr ⟨as, hs.rep.store ha hoff hstop, hs.live_perm⟩⟩

/-- **The invariant holds in every run.** -/
theorem inv_of_reachable (h : s.Reachable L) : s.Inv L := by
  refine h.invariant (?_ : ∀ s : HeapRun, s.AtBoot → s.Inv L) ?_
  · rintro _ ⟨mem, rfl⟩
    exact Or.inl ⟨⟨rfl, rfl⟩, rfl⟩
  · intro s op t hs hok hstep
    obtain ⟨t', hstep', ht⟩ := step_spec hs hok
    rw [hstep] at hstep'
    exact Option.some.inj hstep' ▸ ht

/-- A schedule that callers may follow, replayed from an empty memory. -/
theorem exists_reachable (L : Placement) (as : List HeapOp) (p : HeapRun → Bool)
    (h : (Runs.execOk (step L) (allowed L) { heap := .atBoot fun _ ↦ 0, live := [] } as).map p =
      some true) : ∃ s : HeapRun, s.Reachable L ∧ p s = true :=
  Runs.exists_reachable_of_execOk ⟨fun _ ↦ 0, rfl⟩ h

/-! ### Reading the representation -/

/-- **A heap that represents allocations is well formed.** -/
theorem Represents.wellFormed (hs : s.Represents L as) :
    HeapWellFormed L s (freeBlocks as) where
  pxEnd_eq := hs.rep.pxEnd_eq
  freeList := hs.rep.pxEnd_eq ▸ hs.rep.chain
  endMarker := hs.rep.pxEnd_eq ▸ hs.rep.endMarker
  tiles := by
    refine ⟨fill pucAlignedHeap (as.map Allocation.block) pucHeapEnd, ?_, ?_⟩
    · exact (fill_perm _ _ _).trans (hs.blocks_perm.symm.append_left _)
    · exact hs.rep.pxEnd_eq ▸ hs.rep.packed.tiles_fill
  aligned b hb := by
    rcases List.mem_append.1 hb with hb | hb
    · exact (hs.rep.mem_freeBlocks hb).1
    · obtain ⟨a, ha, rfl⟩ := List.mem_map.1 (hs.blocks_perm.subset hb)
      exact hs.rep.aligned a ha
  ascending := hs.rep.packed.pairwise_gaps.imp fun {b _} h ↦
    Nat.lt_of_le_of_lt (Nat.le_add_right b.start b.size) h
  not_adjacent _ hb _ hc := hs.rep.packed.gaps_not_adjacent hb hc
  freeBytes := hs.rep.free_eq
  live_apart := by
    refine hs.blocks_perm.symm.pairwise ?_ Extent.Apart.symm
    exact hs.rep.packed.pairwise.imp Or.inl
  live_inside b hb := by
    obtain ⟨a, ha, rfl⟩ := List.mem_map.1 (hs.blocks_perm.subset hb)
    obtain ⟨hlo, -, hhi⟩ := hs.rep.mem_allocation ha
    exact ⟨Nat.le_trans (by decide) hlo, Nat.le_trans hhi (by decide)⟩
  live_large l hl := by
    obtain ⟨a, ha, rfl⟩ := hs.exists_of_mem hl
    have hfits := hs.rep.fits a ha
    rw [hs.rep.block_live ha]
    refine ⟨rfl, ?_⟩
    show a.block.start + 8 + a.want ≤ a.block.start + a.block.size
    omega

/-- With nothing allocated, there is the one free block. -/
theorem freeBlocks_nil : freeBlocks [] = [initialFreeBlock] := by decide

/-- **Freeing everything**, in any order, leads back to the initial free block. -/
theorem Represents.free_all {ps : List ℕ} (hs : s.Represents L as)
    (hps : ps.Perm (s.live.map LiveBlock.ptr)) :
    ∃ t, Runs.execOk (step L) (allowed L) s (ps.map .free) = some t ∧ t.live = [] ∧
      HeapWellFormed L t [initialFreeBlock] := by
  induction ps generalizing s as with
  | nil =>
    have hlive : s.live = [] := List.map_eq_nil_iff.1 hps.nil_eq.symm
    have has : as = [] := by
      have hperm := hs.live_perm
      rw [hlive] at hperm
      exact List.map_eq_nil_iff.1 hperm.nil_eq.symm
    subst has
    exact ⟨s, rfl, hlive, freeBlocks_nil ▸ hs.wellFormed⟩
  | cons p ps ih =>
    obtain ⟨l, hl, rfl⟩ := List.mem_map.1 (hps.subset List.mem_cons_self)
    obtain ⟨a, ha, rfl⟩ := hs.exists_of_mem hl
    obtain ⟨P, Q, rfl⟩ := List.append_of_mem ha
    obtain ⟨t, hstep, ht⟩ := hs.vPortFree
    -- The pointers that are left are those of the allocations that are left.
    have hrest : ps.Perm (t.live.map LiveBlock.ptr) := by
      have hall := hps.trans (hs.live_perm.map LiveBlock.ptr)
      rw [List.map_append, List.map_cons, List.map_append, List.map_cons] at hall
      have hleft : ps.Perm ((P.map Allocation.live).map LiveBlock.ptr ++
          (Q.map Allocation.live).map LiveBlock.ptr) := (hall.trans List.perm_middle).cons_inv
      rw [← List.map_append, ← List.map_append] at hleft
      exact hleft.trans (ht.live_perm.map LiveBlock.ptr).symm
    obtain ⟨u, hexec, hu⟩ := ih ht hrest
    have hlive : s.live.any (fun l ↦ l.ptr == a.live.ptr) = true :=
      List.any_eq_true.2 ⟨a.live, hl, beq_self_eq_true a.live.ptr⟩
    have hok : s.allowed L (.free a.live.ptr) = true := by
      rw [allowed, hlive, Bool.or_true]
    refine ⟨u, Runs.exec_cons_eq_some.2 ⟨t, ?_, hexec⟩, hu⟩
    rw [if_pos hok, hstep]

end HeapRun

/-- **The heap of every run is well formed.** Whatever callers do within their rights returns; once
the heap is initialised its free and allocated blocks tile the region, and freeing what is live, in
any order, makes it one free block again. -/
theorem heap_well_formed (L : Placement) {s : HeapRun} (h : s.Reachable L) :
    (∀ op, s.allowed L op = true → ∃ t, s.step L op = some t) ∧
    (s.heap.pxEnd ≠ 0 → (∃ free, HeapWellFormed L s free) ∧
      ∀ ps : List ℕ, ps.Perm (s.live.map LiveBlock.ptr) →
        ∃ t, Runs.execOk (HeapRun.step L) (HeapRun.allowed L) s (ps.map .free) = some t ∧
          t.live = [] ∧ HeapWellFormed L t [initialFreeBlock]) := by
  have hinv := HeapRun.inv_of_reachable h
  refine ⟨fun op hok ↦ ?_, fun hinit ↦ ?_⟩
  · obtain ⟨t, hstep, -⟩ := HeapRun.step_spec hinv hok
    exact ⟨t, hstep⟩
  · rcases hinv with ⟨hfresh, -⟩ | ⟨as, hs⟩
    · exact absurd hfresh.pxEnd_eq hinit
    · exact ⟨⟨freeBlocks as, hs.wellFormed⟩, fun ps hps ↦ hs.free_all hps⟩

/-- `xStart` in the internal SRAM. -/
def Placement.inSram : Placement where
  xStart := 0x20000000
  fits := by decide
  apart := Or.inl (by decide)

/-- The law for a run that has split the initial block twice, written into the second piece, freed
the first one, and reused its bytes. -/
theorem heap_well_formed_two_blocks : ∃ s : HeapRun,
    s.live.map LiveBlock.want = [15, 100] ∧ (∃ free, HeapWellFormed .inSram s free) ∧
    ∃ t, Runs.execOk (HeapRun.step .inSram) (HeapRun.allowed .inSram) s
        ((s.live.map LiveBlock.ptr).reverse.map .free) = some t ∧
      t.live = [] ∧ HeapWellFormed .inSram t [initialFreeBlock] := by
  obtain ⟨s, hs, hp⟩ := HeapRun.exists_reachable .inSram
    [.malloc 20, .malloc 100, .write 0x68000030 [1, 2, 3], .free 0x68000010, .calloc 3 5]
    (fun s ↦ s.heap.pxEnd != 0 && s.live.map LiveBlock.want == [15, 100]) (by decide +kernel)
  obtain ⟨hinit, hlive⟩ := Bool.and_eq_true_iff.1 hp
  obtain ⟨hfree, hall⟩ := (heap_well_formed .inSram hs).2 (bne_iff_ne.1 hinit)
  exact ⟨s, beq_iff_eq.1 hlive, hfree, hall _ (List.reverse_perm _)⟩

end YHAudioLink
