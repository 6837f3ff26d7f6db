import Mathlib.Data.List.ReduceOption
import YHAudioLink.Mem.FirstFit
import YHAudioLink.Mem.HeapRuns

/-!
# The stack's memory

`lwip_comm_mem_malloc` asks the heap for four regions, looks at the four pointers only afterwards,
and gives back what it got if one of them is null. It forgets one: `lwip_comm_mem_free` does not
free `memp_memory`, which is asked for first.

The section on requests in a row is about the allocator alone. A failed request leaves it as it is
and the later ones are still made, so what a sequence of requests comes to is a list of grants
(`grants`), with the allocations kept in order; `frees_spec` says what is left after any of the
pointers have been given back. `allOrNothing_iff` then reads off when the call is all or nothing:
where the first request finds no room, or all four do.
-/

namespace YHAudioLink

open Extents

/-! ### The functions -/

/-- `LWIP_MEM_ALIGN_SIZE`, for a `MEM_ALIGNMENT` of 4. -/
def lwipMemAlignSize (size : ℕ) : ℕ := (size + 4 - 1) &&& not32 (4 - 1)

/-- `ramheapsize`: `MEM_SIZE`, two headers of the stack's own heap, and room to align them. -/
def ramheapsize : ℕ := lwipMemAlignSize (6 * 1024) + 2 * lwipMemAlignSize (4 * 3) + 4

/-- `TCPIP_THREAD_STACKSIZE`, in words. -/
abbrev tcpipThreadStacksize : ℕ := 1024

/-- `LWIP_DM9000_INPUT_TASK_SIZE`, in words. -/
abbrev lwipDm9000InputTaskSize : ℕ := 512

/-- The heap, and the pointers to the stack's memory. -/
structure LwipMem where
  heap : LibMem
  mempMemory : ℕ
  ramHeap : ℕ
  tcpipThreadTaskStk : ℕ
  lwipEnc28j60InputTaskStk : ℕ

/-- `LWIP_DHCP_TASK_STK`: with `LWIP_DHCP` 0 nothing is assigned to it. -/
abbrev lwipDhcpTaskStk : ℕ := 0

/-- `lwip_comm_mem_free`. -/
def lwipCommMemFree (L : Placement) (s : LwipMem) : Option LwipMem := do
  let heap ← vPortFree L s.heap s.ramHeap
  let heap ← vPortFree L heap s.tcpipThreadTaskStk
  let heap ← vPortFree L heap lwipDhcpTaskStk
  let heap ← vPortFree L heap s.lwipEnc28j60InputTaskStk
  pure { s with heap }

/-- `lwip_comm_mem_malloc`, where `mempsize` is what `memp_get_memorysize` returns: what is
returned, and the pointers with the heap. -/
def lwipCommMemMalloc (L : Placement) (mempsize : UInt32) (h : LibMem) : Option (ℕ × LwipMem) := do
  let r₁ ← pvPortMalloc L h mempsize.toNat
  let r₂ ← pvPortMalloc L r₁.2 ramheapsize
  let r₃ ← pvPortMalloc L r₂.2 (tcpipThreadStacksize * 4)
  let r₄ ← pvPortMalloc L r₃.2 (lwipDm9000InputTaskSize * 4)
  let s : LwipMem := ⟨r₄.2, r₁.1, r₂.1, r₃.1, r₄.1⟩
  if s.mempMemory = 0 ∨ s.ramHeap = 0 ∨ s.tcpipThreadTaskStk = 0 ∨
      s.lwipEnc28j60InputTaskStk = 0 then do
    let s ← lwipCommMemFree L s
    pure (1, s)
  else pure (0, s)

/-! ### Requests in a row -/

section

variable {L : Placement} {h : LibMem} {as : List Allocation}

/-- One request: what is granted, and the allocations with it. -/
def grant (as : List Allocation) (n : ℕ) : Option Allocation × List Allocation :=
  match firstFit as n with
  | some b => (some ⟨b, n⟩, FirstFit.insert ⟨b, n⟩ as)
  | none => (none, as)

/-- One request after the other, whether or not those before were granted. -/
def grants : List Allocation → List ℕ → List (Option Allocation) × List Allocation
  | as, [] => ([], as)
  | as, n :: ns => ((grant as n).1 :: (grants (grant as n).2 ns).1, (grants (grant as n).2 ns).2)

/-- The pointer a request returns. -/
def pointer : Option Allocation → ℕ
  | some a => a.block.start + heapStructSize
  | none => 0

/-- The same requests, made of the heap. -/
def mallocs (L : Placement) : LibMem → List ℕ → Option (List ℕ × LibMem)
  | h, [] => some ([], h)
  | h, n :: ns => (pvPortMalloc L h n).bind fun r ↦
      (mallocs L r.2 ns).map fun rs ↦ (r.1 :: rs.1, rs.2)

/-- Pointers given back one after the other. -/
def frees (L : Placement) : LibMem → List ℕ → Option LibMem
  | h, [] => some h
  | h, pv :: pvs => (vPortFree L h pv).bind fun h' ↦ frees L h' pvs

theorem mallocs_cons_eq_some {n p : ℕ} {ns ps : List ℕ} {h' : LibMem}
    (hm : mallocs L h (n :: ns) = some (p :: ps, h')) :
    ∃ h₁, pvPortMalloc L h n = some (p, h₁) ∧ mallocs L h₁ ns = some (ps, h') := by
  obtain ⟨r, hr, hrest⟩ := Option.bind_eq_some_iff.1 hm
  obtain ⟨rs, hrs, heq⟩ := Option.map_eq_some_iff.1 hrest
  obtain ⟨hcons, rfl⟩ := Prod.mk.inj heq
  obtain ⟨rfl, rfl⟩ := List.cons.inj hcons
  exact ⟨r.2, hr, hrs⟩

/-- **A request** of an initialised heap is answered by first fit. -/
theorem pvPortMalloc_grant (hr : HeapRep L h as) {n : ℕ} (hn : n < 2 ^ 32) :
    ∃ h', pvPortMalloc L h n = some (pointer (grant as n).1, h') ∧ HeapRep L h' (grant as n).2 ∧
      ∀ q, L.IsHeader q → Settled h as q → Settled h' (grant as n).2 q := by
  rw [pvPortMalloc, if_neg hr.pxEnd_ne_zero, Option.bind_some, grant]
  rcases hfit : firstFit as n with - | b
  · exact ⟨h, allocate_of_none hr hn hfit, hr, fun _ _ ↦ id⟩
  · obtain ⟨P, Q, h', rfl, hrep, halloc, hsettled, -⟩ := allocate_of_some hr hn hfit
    dsimp only
    rw [hrep.insert_eq]
    exact ⟨h', halloc, hrep, hsettled⟩

/-- **Requests in a row.** -/
theorem mallocs_spec (hr : HeapRep L h as) {ns : List ℕ} (hns : ∀ n ∈ ns, n < 2 ^ 32) :
    ∃ h', mallocs L h ns = some ((grants as ns).1.map pointer, h') ∧
      HeapRep L h' (grants as ns).2 := by
  induction ns generalizing h as with
  | nil => exact ⟨h, rfl, hr⟩
  | cons n ns ih =>
    obtain ⟨hn, hns⟩ := List.forall_mem_cons.1 hns
    obtain ⟨h₁, hmalloc, hr₁, -⟩ := pvPortMalloc_grant hr hn
    obtain ⟨h₂, hrest, hr₂⟩ := ih hr₁ hns
    refine ⟨h₂, ?_, hr₂⟩
    rw [mallocs, hmalloc, Option.bind_some, hrest]
    rfl

/-- What is granted is added to the allocations. -/
theorem grant_perm (as : List Allocation) (n : ℕ) :
    (grant as n).2.Perm ((grant as n).1.toList ++ as) := by
  rw [grant]
  rcases firstFit as n with - | b
  · exact .refl _
  · exact List.perm_orderedInsert _ _ _

theorem grants_perm (as : List Allocation) (ns : List ℕ) :
    (grants as ns).2.Perm ((grants as ns).1.reduceOption ++ as) := by
  induction ns generalizing as with
  | nil => exact .refl _
  | cons n ns ih =>
    -- the later grants come in front of the allocations that already hold this one
    have hfirst := (ih (grant as n).2).trans ((grant_perm as n).append_left _)
    rw [grants]
    rcases hg : (grant as n).1 with - | a
    · rw [hg] at hfirst
      exact hfirst
    · rw [hg] at hfirst
      rw [List.reduceOption_cons_of_some]
      exact hfirst.trans List.perm_middle

/-- What is granted is what was asked for. -/
theorem grants_wants (as : List Allocation) (ns : List ℕ) :
    List.Forall₂ (fun o n ↦ ∀ a ∈ o, a.want = n) (grants as ns).1 ns := by
  induction ns generalizing as with
  | nil => exact .nil
  | cons n ns ih =>
    refine .cons (fun a ha ↦ ?_) (ih _)
    rw [grant] at ha
    rcases hfit : firstFit as n with - | b
    · rw [hfit] at ha
      exact absurd ha (by simp)
    · rw [hfit] at ha
      exact (Option.some.inj ha) ▸ rfl

/-- **Pointers given back in a row**: their allocations are gone, and the others are left. -/
theorem frees_spec (hr : HeapRep L h as) {pvs : List ℕ} (hpvs : ∀ pv ∈ pvs, Obtained L h as pv) :
    ∃ h', frees L h pvs = some h' ∧
      HeapRep L h' (as.filter fun a ↦ a.block.start + heapStructSize ∉ pvs) := by
  induction pvs generalizing h as with
  | nil => exact ⟨h, rfl, by simpa using hr⟩
  | cons pv pvs ih =>
    obtain ⟨hpv, hpvs⟩ := List.forall_mem_cons.1 hpvs
    obtain ⟨h₁, hfree, hr₁, hsettled⟩ := vPortFree_release hr hpv
    -- a pointer stays one that may be freed while others are, as no other header is written
    obtain ⟨h₂, hrest, hr₂⟩ := ih hr₁ fun p hp ↦ (hpvs p hp).mono hsettled
    refine ⟨h₂, by rw [frees, hfree, Option.bind_some, hrest], ?_⟩
    rw [FirstFit.release, List.filter_filter] at hr₂
    convert hr₂ using 3 with a
    simp [Bool.and_comm]

/-! ### Allocations as a set -/

/-- An allocation lies below the next ones. -/
theorem HeapRep.pairwise_lt (hr : HeapRep L h as) :
    as.Pairwise fun a c ↦ a.block.start < c.block.start := by
  refine (List.pairwise_map.1 hr.packed.pairwise).imp_of_mem fun {a c} ha _ hle ↦ ?_
  have hsize := (hr.mem_allocation ha).2.1
  have hstop : a.block.start + a.block.size ≤ c.block.start := hle
  omega

/-- **The order is that of the addresses**: heaps with the same allocations have the same list of
them. -/
theorem HeapRep.eq_of_perm {h' : LibMem} {as' : List Allocation} (hr : HeapRep L h as)
    (hr' : HeapRep L h' as') (hperm : as.Perm as') : as = as' :=
  hperm.eq_of_pairwise (fun _ _ _ _ hlt hgt ↦ absurd hlt hgt.asymm) hr.pairwise_lt hr'.pairwise_lt

/-- Allocations have different pointers. -/
theorem HeapRep.nodup_pointers (hr : HeapRep L h as) :
    (as.map fun a ↦ a.block.start + heapStructSize).Nodup := by
  refine List.pairwise_map.2 (hr.pairwise_lt.imp fun hlt heq ↦ ?_)
  exact hlt.ne (Nat.add_right_cancel heq)

/-- The free and the allocated blocks fill the region. -/
theorem HeapRep.total_add (hr : HeapRep L h as) :
    pucAlignedHeap + (total (freeBlocks as) + total (as.map Allocation.block)) = pucHeapEnd := by
  have htiles := hr.packed.tiles_fill.total_add
  have hsum : total (fill pucAlignedHeap (as.map Allocation.block) pucHeapEnd) =
      total (freeBlocks as ++ as.map Allocation.block) :=
    ((fill_perm _ _ _).map Extent.size).sum_eq
  rw [hsum, total_append] at htiles
  exact htiles

/-- **A region that stays allocated is missing from the free bytes.** -/
theorem HeapRep.free_lt_of_perm_cons {h' : LibMem} {as' : List Allocation} {a : Allocation}
    (hr : HeapRep L h as) (hr' : HeapRep L h' as') (hperm : as'.Perm (a :: as)) :
    h'.xFreeBytesRemaining < h.xFreeBytesRemaining := by
  have hsize := (hr'.mem_allocation (hperm.symm.subset List.mem_cons_self)).2.1
  have hsum : total (as'.map Allocation.block) = total ((a :: as).map Allocation.block) :=
    ((hperm.map Allocation.block).map Extent.size).sum_eq
  rw [List.map_cons, total_cons] at hsum
  have hall := hr.total_add
  have hall' := hr'.total_add
  rw [hr.free_eq, hr'.free_eq]
  omega

/-- **Some of the allocations given back**, and only those: the others are left. -/
theorem frees_of_perm {M K : List Allocation} (hr : HeapRep L h as) (hperm : as.Perm (M ++ K))
    (pvs : List ℕ) (hM : ∀ a ∈ M, a.block.start + heapStructSize ∈ pvs)
    (hpvs : ∀ pv ∈ pvs, pv = 0 ∨ ∃ a ∈ M, pv = a.block.start + heapStructSize) :
    ∃ h' as', frees L h pvs = some h' ∧ HeapRep L h' as' ∧ as'.Perm K := by
  have hobtained : ∀ pv ∈ pvs, Obtained L h as pv := by
    intro pv hpv
    rcases hpvs pv hpv with rfl | ⟨a, ha, rfl⟩
    · exact .inl rfl
    · have hmem : a ∈ as := hperm.symm.subset (List.mem_append_left K ha)
      exact .inr ⟨a.block.start, rfl, hr.isHeader_allocation hmem, .inr ⟨a, hmem, rfl⟩⟩
  obtain ⟨h', hfrees, hr'⟩ := frees_spec hr hobtained
  refine ⟨h', _, hfrees, hr', (hperm.filter _).trans ?_⟩
  have hgone : M.filter (fun a ↦ a.block.start + heapStructSize ∉ pvs) = [] :=
    List.filter_eq_nil_iff.2 fun a ha ↦ by simpa using hM a ha
  have hnodup := (hperm.map fun a ↦ a.block.start + heapStructSize).nodup_iff.1 hr.nodup_pointers
  rw [List.map_append] at hnodup
  have hkept : K.filter (fun a ↦ a.block.start + heapStructSize ∉ pvs) = K := by
    refine List.filter_eq_self.2 fun a ha ↦ decide_eq_true fun hpv ↦ ?_
    rcases hpvs _ hpv with hzero | ⟨c, hc, heq⟩
    · exact Nat.succ_ne_zero _ hzero
    · refine (List.nodup_append.1 hnodup).2.2 _ (List.mem_map_of_mem hc) _
        (List.mem_map_of_mem ha) ?_
      exact heq.symm
  rw [List.filter_append, hgone, hkept, List.nil_append]

end

/-! ### What the call comes to -/

section

variable {L : Placement} {h : LibMem} {as : List Allocation} {mempsize : UInt32}

/-- The sizes of the four requests. -/
def lwipRequests (mempsize : UInt32) : List ℕ :=
  [mempsize.toNat, ramheapsize, tcpipThreadStacksize * 4, lwipDm9000InputTaskSize * 4]

theorem lwipRequests_lt (mempsize : UInt32) : ∀ n ∈ lwipRequests mempsize, n < 2 ^ 32 := by
  have hrest : ∀ n ∈ [ramheapsize, tcpipThreadStacksize * 4, lwipDm9000InputTaskSize * 4],
      n < 2 ^ 32 := by decide
  exact List.forall_mem_cons.2 ⟨mempsize.toNat_lt, hrest⟩

/-- `lwip_comm_mem_free` frees four pointers in a row, the third of them null. -/
theorem lwipCommMemFree_eq (s : LwipMem) :
    lwipCommMemFree L s = (frees L s.heap [s.ramHeap, s.tcpipThreadTaskStk, lwipDhcpTaskStk,
      s.lwipEnc28j60InputTaskStk]).map fun heap ↦ { s with heap } := by
  simp only [lwipCommMemFree, frees, Option.map_bind, bind, Option.map_some, Function.comp_def]
  rfl

/-- `lwip_comm_mem_malloc` makes its four requests in a row. -/
theorem lwipCommMemMalloc_of_mallocs {p₁ p₂ p₃ p₄ : ℕ} {h' : LibMem}
    (hm : mallocs L h (lwipRequests mempsize) = some ([p₁, p₂, p₃, p₄], h')) :
    lwipCommMemMalloc L mempsize h =
      if p₁ = 0 ∨ p₂ = 0 ∨ p₃ = 0 ∨ p₄ = 0 then
        (lwipCommMemFree L ⟨h', p₁, p₂, p₃, p₄⟩).map fun s ↦ (1, s)
      else some (0, ⟨h', p₁, p₂, p₃, p₄⟩) := by
  obtain ⟨h₁, hm₁, hm⟩ := mallocs_cons_eq_some hm
  obtain ⟨h₂, hm₂, hm⟩ := mallocs_cons_eq_some hm
  obtain ⟨h₃, hm₃, hm⟩ := mallocs_cons_eq_some hm
  obtain ⟨h₄, hm₄, hm⟩ := mallocs_cons_eq_some hm
  obtain ⟨-, rfl⟩ := Prod.mk.inj (Option.some.inj hm)
  simp only [lwipCommMemMalloc, hm₁, hm₂, hm₃, hm₄, bind, Option.bind_some]
  split
  · rcases lwipCommMemFree L _ with - | s <;> rfl
  · rfl

/-- What the four requests come to. -/
theorem exists_grants (as : List Allocation) (mempsize : UInt32) :
    ∃ o₁ o₂ o₃ o₄, (grants as (lwipRequests mempsize)).1 = [o₁, o₂, o₃, o₄] :=
  ⟨_, _, _, _, rfl⟩

theorem pointer_eq_zero_iff {o : Option Allocation} : pointer o = 0 ↔ o = none := by
  rcases o with - | a
  · exact iff_of_true rfl rfl
  · exact iff_of_false (Nat.succ_ne_zero _) (Option.some_ne_none a)

/-- **Giving back after a failure** leaves what the first request got. -/
theorem lwipCommMemFree_spec {h' : LibMem} {o₁ o₂ o₃ o₄ : Option Allocation} {as' : List Allocation}
    (hr : HeapRep L h' as') (hperm : as'.Perm ([o₁, o₂, o₃, o₄].reduceOption ++ as)) :
    ∃ h'' as'', lwipCommMemFree L ⟨h', pointer o₁, pointer o₂, pointer o₃, pointer o₄⟩ =
        some ⟨h'', pointer o₁, pointer o₂, pointer o₃, pointer o₄⟩ ∧
      HeapRep L h'' as'' ∧ as''.Perm (o₁.toList ++ as) := by
  have hsplit : ([o₁, o₂, o₃, o₄].reduceOption ++ as).Perm
      ([o₂, o₃, o₄].reduceOption ++ (o₁.toList ++ as)) := by
    rcases o₁ with - | a
    · exact .refl _
    · exact List.perm_middle.symm
  obtain ⟨h'', as'', hfrees, hr'', hperm''⟩ := frees_of_perm hr (hperm.trans hsplit)
    [pointer o₂, pointer o₃, lwipDhcpTaskStk, pointer o₄]
    (by rcases o₂ with - | a <;> rcases o₃ with - | b <;> rcases o₄ with - | c <;>
          simp [List.reduceOption, pointer])
    (by rcases o₂ with - | a <;> rcases o₃ with - | b <;> rcases o₄ with - | c <;>
          simp [List.reduceOption, pointer])
  refine ⟨h'', as'', ?_, hr'', hperm''⟩
  rw [lwipCommMemFree_eq, hfrees]
  rfl

end

/-! ### All or nothing -/

/-- The regions the pointers stand for, with the sizes that were asked for. -/
def LwipMem.regions (t : LwipMem) (mempsize : UInt32) : List LiveBlock :=
  [⟨t.mempMemory, mempsize.toNat⟩, ⟨t.ramHeap, ramheapsize⟩,
    ⟨t.tcpipThreadTaskStk, tcpipThreadStacksize * 4⟩,
    ⟨t.lwipEnc28j60InputTaskStk, lwipDm9000InputTaskSize * 4⟩]

/-- **All or nothing**: the call returns, and either it returns 0 with every region allocated, apart
from each other and from what was live before; or it returns 1 and the heap has the free bytes and
the free blocks it had, with nothing live but what was. -/
def AllOrNothing (L : Placement) (mempsize : UInt32) (s : HeapRun) : Prop :=
  ∃ ret t, lwipCommMemMalloc L mempsize s.heap = some (ret, t) ∧
    ((ret = 0 ∧ (∀ l ∈ t.regions mempsize, l.ptr ≠ 0) ∧
        ∃ free, HeapWellFormed L ⟨t.heap, t.regions mempsize ++ s.live⟩ free) ∨
      (ret = 1 ∧ xPortGetFreeHeapSize t.heap = xPortGetFreeHeapSize s.heap ∧
        ∃ free, HeapWellFormed L s free ∧ HeapWellFormed L ⟨t.heap, s.live⟩ free))

/-- The first request finds no room, or all four do. -/
def FirstOrAll (mempsize : UInt32) (as : List Allocation) : Prop :=
  firstFit as mempsize.toNat = none ∨ ∀ o ∈ (grants as (lwipRequests mempsize)).1, o ≠ none

instance (mempsize : UInt32) (as : List Allocation) : Decidable (FirstOrAll mempsize as) :=
  inferInstanceAs (Decidable (_ ∨ _))

section

variable {L : Placement} {s : HeapRun} {as : List Allocation} {mempsize : UInt32}

/-- With every request granted, the regions are live beside what was. -/
theorem allOrNothing_of_all (hs : s.Represents L as)
    (hall : ∀ o ∈ (grants as (lwipRequests mempsize)).1, o ≠ none) : AllOrNothing L mempsize s := by
  obtain ⟨h', hmallocs, hr⟩ := mallocs_spec hs.rep (lwipRequests_lt mempsize)
  have hperm := grants_perm as (lwipRequests mempsize)
  have hwants := grants_wants as (lwipRequests mempsize)
  obtain ⟨o₁, o₂, o₃, o₄, hos⟩ := exists_grants as mempsize
  rw [hos] at hmallocs hperm hall hwants
  simp only [List.forall_mem_cons, Option.ne_none_iff_exists'] at hall
  obtain ⟨⟨a₁, rfl⟩, ⟨a₂, rfl⟩, ⟨a₃, rfl⟩, ⟨a₄, rfl⟩, -⟩ := hall
  have hcall := lwipCommMemMalloc_of_mallocs hmallocs
  rw [if_neg (by simp [pointer_eq_zero_iff])] at hcall
  simp only [lwipRequests, List.forall₂_cons, Option.mem_some_iff, forall_eq'] at hwants
  obtain ⟨hwant₁, hwant₂, hwant₃, hwant₄, -⟩ := hwants
  -- the four regions are the four allocations, with the sizes that were asked for
  have hregions : LwipMem.regions ⟨h', pointer (some a₁), pointer (some a₂), pointer (some a₃),
      pointer (some a₄)⟩ mempsize = [a₁, a₂, a₃, a₄].map Allocation.live := by
    rw [LwipMem.regions, ← hwant₁, ← hwant₂, ← hwant₃, ← hwant₄]
    rfl
  have hlive := hperm.map Allocation.live
  rw [List.map_append] at hlive
  have hrep : HeapRun.Represents L ⟨h', [a₁, a₂, a₃, a₄].map Allocation.live ++ s.live⟩
      (grants as (lwipRequests mempsize)).2 := ⟨hr, (hs.live_perm.append_left _).trans hlive.symm⟩
  refine ⟨0, _, hcall, .inl ⟨rfl, by simp [LwipMem.regions, pointer_eq_zero_iff], ?_⟩⟩
  rw [hregions]
  exact ⟨_, hrep.wellFormed⟩

/-- With a request refused, the call fails, and all but the first region is given back. -/
theorem lwipCommMemMalloc_of_refused (hs : s.Represents L as)
    (hnone : none ∈ (grants as (lwipRequests mempsize)).1) :
    ∃ t as', lwipCommMemMalloc L mempsize s.heap = some (1, t) ∧ HeapRep L t.heap as' ∧
      as'.Perm ((grant as mempsize.toNat).1.toList ++ as) := by
  obtain ⟨h', hmallocs, hr⟩ := mallocs_spec hs.rep (lwipRequests_lt mempsize)
  have hperm := grants_perm as (lwipRequests mempsize)
  obtain ⟨o₁, o₂, o₃, o₄, hos⟩ := exists_grants as mempsize
  have hfirst : (grant as mempsize.toNat).1 = o₁ := (List.cons.inj hos).1
  rw [hos] at hmallocs hperm hnone
  obtain ⟨h'', as'', hfree, hr'', hperm''⟩ := lwipCommMemFree_spec hr hperm
  have hcall := lwipCommMemMalloc_of_mallocs hmallocs
  have hnull : pointer o₁ = 0 ∨ pointer o₂ = 0 ∨ pointer o₃ = 0 ∨ pointer o₄ = 0 := by
    simp only [pointer_eq_zero_iff]
    simpa [eq_comm] using hnone
  rw [if_pos hnull, hfree] at hcall
  exact ⟨_, as'', hcall, hr'', hfirst ▸ hperm''⟩

/-- With the first request refused, what the others got is given back, and that is all. -/
theorem allOrNothing_of_first (hs : s.Represents L as)
    (hfirst : firstFit as mempsize.toNat = none) :
    AllOrNothing L mempsize s := by
  have hmem : none ∈ (grants as (lwipRequests mempsize)).1 := by
    rw [lwipRequests, grants, grant, hfirst]
    exact List.mem_cons_self
  have hrefused : (grant as mempsize.toNat).1 = none := by rw [grant, hfirst]
  obtain ⟨t, as', hcall, hr, hperm⟩ := lwipCommMemMalloc_of_refused hs hmem
  rw [hrefused] at hperm
  -- the same allocations in the order of their addresses are the same list
  obtain rfl := hr.eq_of_perm hs.rep hperm
  have hrep : HeapRun.Represents L ⟨t.heap, s.live⟩ as' := ⟨hr, hs.live_perm⟩
  refine ⟨1, t, hcall, .inr ⟨rfl, ?_, freeBlocks as', hs.wellFormed, hrep.wellFormed⟩⟩
  exact hr.free_eq.trans hs.rep.free_eq.symm

/-- **With the first request granted and another refused, the pool memory leaks**: the call fails,
and the heap has fewer free bytes than before. -/
theorem mem_leak (hs : s.Represents L as) (hcond : ¬ FirstOrAll mempsize as) :
    ∃ t, lwipCommMemMalloc L mempsize s.heap = some (1, t) ∧
      xPortGetFreeHeapSize t.heap < xPortGetFreeHeapSize s.heap := by
  obtain ⟨hfirst, hall⟩ := not_or.1 hcond
  have hmem : none ∈ (grants as (lwipRequests mempsize)).1 := by
    by_contra hmem
    exact hall fun o ho hnone ↦ hmem (hnone ▸ ho)
  obtain ⟨t, as', hcall, hr, hperm⟩ := lwipCommMemMalloc_of_refused hs hmem
  obtain ⟨b, hb⟩ := Option.ne_none_iff_exists'.1 hfirst
  -- the region of the first request is among the allocations that are left
  have hgranted : (grant as mempsize.toNat).1 = some ⟨b, mempsize.toNat⟩ := by rw [grant, hb]
  rw [hgranted] at hperm
  exact ⟨t, hcall, hs.rep.free_lt_of_perm_cons hr hperm⟩

/-- A call that leaks is neither. -/
theorem not_allOrNothing_of_leak (hs : s.Represents L as) (hcond : ¬ FirstOrAll mempsize as) :
    ¬ AllOrNothing L mempsize s := by
  rintro ⟨ret, t', hcall', hcases⟩
  obtain ⟨t, hcall, hlt⟩ := mem_leak hs hcond
  obtain ⟨rfl, rfl⟩ := Prod.mk.inj (Option.some.inj (hcall.symm.trans hcall'))
  rcases hcases with ⟨hret, -⟩ | ⟨-, hfree, -⟩
  · exact absurd hret one_ne_zero
  · exact hlt.ne hfree

/-- **All or nothing** holds exactly where the first request finds no room, or all four do. -/
theorem allOrNothing_iff (L : Placement) (mempsize : UInt32) {s : HeapRun} (h : s.Reachable L)
    (hinit : s.heap.pxEnd ≠ 0) :
    (∃ as, s.Represents L as) ∧
      ∀ as, s.Represents L as → (AllOrNothing L mempsize s ↔ FirstOrAll mempsize as) := by
  refine ⟨?_, fun as hs ↦ ⟨fun hprop ↦ ?_, ?_⟩⟩
  · rcases HeapRun.inv_of_reachable h with ⟨hfresh, -⟩ | hrep
    · exact absurd hfresh.pxEnd_eq hinit
    · exact hrep
  · by_contra hcond
    exact not_allOrNothing_of_leak hs hcond hprop
  · rintro (hfirst | hall)
    · exact allOrNothing_of_first hs hfirst
    · exact allOrNothing_of_all hs hall

end

/-- A heap that has served one request since boot. -/
theorem exists_heap_with (L : Placement) (n : UInt32) :
    ∃ s : HeapRun, s.Reachable L ∧ s.heap.pxEnd ≠ 0 ∧ s.Represents L (grant [] n.toNat).2 := by
  have hfresh : Fresh (.atBoot fun _ ↦ 0) := ⟨rfl, rfl⟩
  obtain ⟨h₀, hinit, hrep₀⟩ := prvHeapInit_spec (L := L) hfresh
  obtain ⟨h₁, hmalloc, hrep, -⟩ := pvPortMalloc_grant hrep₀ n.toNat_lt
  -- the first request initialises the heap, and is then served by it
  have hboot : pvPortMalloc L (.atBoot fun _ ↦ 0) n.toNat = pvPortMalloc L h₀ n.toNat := by
    rw [pvPortMalloc, pvPortMalloc, if_pos hfresh.pxEnd_eq, hinit, if_neg hrep₀.pxEnd_ne_zero]
  have hstep : HeapRun.step L ⟨.atBoot fun _ ↦ 0, []⟩ (.malloc n) =
      some (HeapRun.returned ⟨.atBoot fun _ ↦ 0, []⟩ n.toNat (pointer (grant [] n.toNat).1, h₁)) :=
    congrArg (Option.map _) (hboot.trans hmalloc)
  refine ⟨_, .step (.init ⟨fun _ ↦ 0, rfl⟩) rfl hstep, hrep.pxEnd_ne_zero, hrep, ?_⟩
  rcases hgrant : firstFit [] n.toNat with - | b
  · simp [HeapRun.returned, grant, hgrant, pointer]
  · simp [HeapRun.returned, grant, hgrant, pointer, FirstFit.insert, Allocation.live,
      heapStructSize_eq]

/-- On a heap with room for all four regions the call is all or nothing. -/
theorem allOrNothing_with_room :
    ∃ s : HeapRun, s.Reachable .inSram ∧ AllOrNothing .inSram 20000 s := by
  obtain ⟨s, hs, hinit, hrep⟩ := exists_heap_with .inSram 100
  exact ⟨s, hs, ((allOrNothing_iff .inSram 20000 hs hinit).2 _ hrep).2 (by decide)⟩

/-- With 25000 bytes left there is room for the pools, and none for the stack's heap behind them. -/
theorem not_allOrNothing : ¬ ∀ (L : Placement) (mempsize : UInt32) (s : HeapRun), s.Reachable L →
    s.heap.pxEnd ≠ 0 → AllOrNothing L mempsize s := by
  intro h
  obtain ⟨s, hs, hinit, hrep⟩ := exists_heap_with .inSram 974976
  exact not_allOrNothing_of_leak hrep (by decide) (h .inSram 20000 s hs hinit)

end YHAudioLink
