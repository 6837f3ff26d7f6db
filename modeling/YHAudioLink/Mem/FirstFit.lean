import Mathlib.Data.List.Sort
import YHAudioLink.Mem.HeapInvariant

/-!
# The allocator behind the heap

What the heap is for, without a memory: a list of allocations in ascending order. A request goes to
the lowest gap that is large enough (`firstFit`), releasing takes the allocation with the pointer
away, and the free bytes are those of the gaps. `FirstFit` is this allocator with its user, who
keeps the pointers obtained and may free any of them at any time, also more than once.

`lib_mem.c` refines it (`HeapUser.Models.call`): whatever the memory held before, every call answers
what the allocator answers. Nothing of the memory is left in the answers, so two heaps that model
the same allocator cannot be told apart; and a heap that has been reset models what a heap models at
boot (`deinit_is_reset`).

A pointer that is freed again is the one case in which a header outside the list is read. It has
been a header since the reset, so it is not marked (`Settled`), and the call does nothing.
-/

namespace YHAudioLink

open Extents

/-! ### Calls and answers -/

/-- What the user of a heap does. -/
inductive HeapCall
  | malloc (xWantedSize : UInt32)
  /-- `vPortFree` of the `i`-th pointer obtained, or of `NULL` if there are not as many. -/
  | free (i : ℕ)
  | getFreeHeapSize
  deriving DecidableEq

/-- What a call returns. -/
inductive HeapAnswer
  | pointer (p : ℕ)
  | done
  | size (n : ℕ)
  deriving DecidableEq

/-- The heap, and the pointers obtained from it, oldest first. -/
structure HeapUser where
  heap : LibMem
  obtained : List ℕ

namespace HeapUser

/-- A call. -/
def call (L : Placement) (s : HeapUser) : HeapCall → Option (HeapAnswer × HeapUser)
  | .malloc n => (pvPortMalloc L s.heap n.toNat).map fun (p, heap) ↦
      (.pointer p, { heap, obtained := s.obtained ++ [p] })
  | .free i => (vPortFree L s.heap (s.obtained.getD i 0)).map fun heap ↦ (.done, { s with heap })
  | .getFreeHeapSize => some (.size (xPortGetFreeHeapSize s.heap), s)

/-- The answers to a sequence of calls. -/
def answers (L : Placement) : HeapUser → List HeapCall → Option (List HeapAnswer)
  | _, [] => some []
  | s, c :: cs => (s.call L c).bind fun (a, t) ↦ (t.answers L cs).map (a :: ·)

end HeapUser

/-! ### The allocator -/

/-- The allocations in ascending order, `none` before the first request, and the pointers
obtained. -/
structure FirstFit where
  allocations : Option (List Allocation)
  obtained : List ℕ

namespace FirstFit

def initial : FirstFit := ⟨none, []⟩

/-- Put an allocation in its place. -/
def insert (a : Allocation) (as : List Allocation) : List Allocation :=
  as.orderedInsert (fun a c ↦ a.block.start ≤ c.block.start) a

/-- Take the allocation with a pointer away. -/
def release (pv : ℕ) (as : List Allocation) : List Allocation :=
  as.filter fun a ↦ a.block.start + heapStructSize ≠ pv

/-- The free bytes. Laying out the region costs a header. -/
def freeBytes : Option (List Allocation) → ℕ
  | none => xTotalHeapSize
  | some as => total (freeBlocks as)

/-- A call. -/
def call (f : FirstFit) : HeapCall → HeapAnswer × FirstFit
  | .malloc n =>
    let as := f.allocations.getD []
    match firstFit as n.toNat with
    | some b => (.pointer (b.start + heapStructSize),
        ⟨some (insert ⟨b, n.toNat⟩ as), f.obtained ++ [b.start + heapStructSize]⟩)
    | none => (.pointer 0, ⟨some as, f.obtained ++ [0]⟩)
  | .free i => (.done, { f with allocations := f.allocations.map (release (f.obtained.getD i 0)) })
  | .getFreeHeapSize => (.size (freeBytes f.allocations), f)

/-- The answers to a sequence of calls. -/
def answers : FirstFit → List HeapCall → List HeapAnswer
  | _, [] => []
  | f, c :: cs => (f.call c).1 :: (f.call c).2.answers cs

end FirstFit

variable {L : Placement} {h : LibMem} {as P Q : List Allocation} {a : Allocation} {pv : ℕ}

/-! ### Insertion and release in a packed list -/

/-- An allocation goes between those below it and those above. -/
theorem FirstFit.insert_eq (hP : ∀ c ∈ P, c.block.start < a.block.start)
    (hQ : ∀ c ∈ Q, a.block.start ≤ c.block.start) : insert a (P ++ Q) = P ++ a :: Q := by
  rw [insert]
  induction P with
  | nil =>
    cases Q with
    | nil => rfl
    | cons c Q =>
      rw [List.nil_append, List.orderedInsert_cons, if_pos (hQ c List.mem_cons_self)]
      rfl
  | cons c P ih =>
    have hlt : ¬ a.block.start ≤ c.block.start := Nat.not_le.2 (hP c List.mem_cons_self)
    rw [List.cons_append, List.orderedInsert_cons, if_neg hlt,
      ih fun c hc ↦ hP c (List.mem_cons_of_mem _ hc)]
    rfl

namespace HeapRep

/-- The allocations below a given one start below it, those behind it above. -/
theorem starts (hr : HeapRep L h (P ++ a :: Q)) :
    (∀ c ∈ P, c.block.start < a.block.start) ∧ ∀ c ∈ Q, a.block.start < c.block.start := by
  have hpair := List.pairwise_map.1 hr.packed.pairwise
  obtain ⟨-, hcons, hbefore⟩ := List.pairwise_append.1 hpair
  refine ⟨fun c hc ↦ ?_, fun c hc ↦ ?_⟩
  · have hle : c.block.start + c.block.size ≤ a.block.start := hbefore c hc a List.mem_cons_self
    have hsize := (hr.mem_allocation (List.mem_append_left _ hc)).2.1
    omega
  · have hle : a.block.start + a.block.size ≤ c.block.start := (List.pairwise_cons.1 hcons).1 c hc
    have hsize := (hr.mem_allocation (List.mem_append_right P List.mem_cons_self)).2.1
    omega

/-- Inserting the allocation of a heap into the others gives its allocations. -/
theorem insert_eq (hr : HeapRep L h (P ++ a :: Q)) :
    FirstFit.insert a (P ++ Q) = P ++ a :: Q :=
  FirstFit.insert_eq hr.starts.1 fun c hc ↦ (hr.starts.2 c hc).le

/-- Releasing its pointer takes exactly one allocation away. -/
theorem release_eq (hr : HeapRep L h (P ++ a :: Q)) :
    FirstFit.release (a.block.start + heapStructSize) (P ++ a :: Q) = P ++ Q := by
  obtain ⟨hP, hQ⟩ := hr.starts
  have hkeep : ∀ c ∈ P ++ Q,
      decide (c.block.start + heapStructSize ≠ a.block.start + heapStructSize) = true := by
    intro c hc
    refine decide_eq_true fun heq ↦ ?_
    have heq : c.block.start = a.block.start := Nat.add_right_cancel heq
    rcases List.mem_append.1 hc with hc | hc
    · exact absurd heq (hP c hc).ne
    · exact absurd heq (hQ c hc).ne'
  rw [FirstFit.release, List.filter_append, List.filter_cons_of_neg (by simp),
    ← List.filter_append, List.filter_eq_self.2 hkeep]

/-- A pointer of no allocation releases none. -/
theorem release_eq_self (hpv : ∀ a ∈ as, a.block.start + heapStructSize ≠ pv) :
    FirstFit.release pv as = as :=
  List.filter_eq_self.2 fun a ha ↦ decide_eq_true (hpv a ha)

end HeapRep

/-! ### The heap refines the allocator -/

/-- A pointer that has been obtained: `NULL`, or one behind a header that is settled. -/
def Obtained (L : Placement) (h : LibMem) (as : List Allocation) (pv : ℕ) : Prop :=
  pv = 0 ∨ ∃ q, pv = q + heapStructSize ∧ L.IsHeader q ∧ Settled h as q

/-- **The heap models the allocator.** -/
structure HeapUser.Models (L : Placement) (s : HeapUser) (f : FirstFit) : Prop where
  obtained : s.obtained = f.obtained
  fresh : f.allocations = none → Fresh s.heap ∧ f.obtained = []
  rep : ∀ as, f.allocations = some as →
    HeapRep L s.heap as ∧ ∀ pv ∈ f.obtained, Obtained L s.heap as pv

/-- A settled header keeps its pointer obtained. -/
theorem Obtained.mono {h' : LibMem} {as' : List Allocation} (hpv : Obtained L h as pv)
    (hsettled : ∀ q, L.IsHeader q → Settled h as q → Settled h' as' q) : Obtained L h' as' pv := by
  rcases hpv with rfl | ⟨q, rfl, hq, hset⟩
  · exact Or.inl rfl
  · exact Or.inr ⟨q, rfl, hq, hsettled q hq hset⟩

/-- **Freeing a pointer that has been obtained** releases its allocation, if it still has one. -/
theorem vPortFree_release (hr : HeapRep L h as) (hpv : Obtained L h as pv) :
    ∃ h', vPortFree L h pv = some h' ∧ HeapRep L h' (FirstFit.release pv as) ∧
      ∀ q, L.IsHeader q → Settled h as q → Settled h' (FirstFit.release pv as) q := by
  rcases hpv with rfl | ⟨q, rfl, hq, hset⟩
  · rw [HeapRep.release_eq_self fun a _ ↦ Nat.succ_ne_zero _]
    exact ⟨h, rfl, hr, fun _ _ ↦ id⟩
  · by_cases hall : ∃ a ∈ as, a.block.start = q
    · obtain ⟨a, ha, rfl⟩ := hall
      obtain ⟨P, Q, rfl⟩ := List.append_of_mem ha
      rw [hr.release_eq]
      exact vPortFree_spec hr
    · have hlt : xBlockSize h.mem q < 2 ^ 31 := hset.resolve_right hall
      have hlink : sub32 (q + heapStructSize) heapStructSize = q := by
        have hlt32 : q + 8 ≤ 2 ^ 32 := hq.lt
        show (q + 8 + (2 ^ 32 - 8)) % 2 ^ 32 = q
        omega
      have hother : ∀ a ∈ as, a.block.start + heapStructSize ≠ q + heapStructSize := fun a ha heq ↦
        hall ⟨a, ha, Nat.add_right_cancel heq⟩
      rw [HeapRep.release_eq_self hother]
      exact ⟨h, vPortFree_of_unmarked hr (hlink.symm ▸ hlt), hr, fun _ _ ↦ id⟩

namespace HeapUser.Models

variable {s : HeapUser} {f : FirstFit}

/-- The heap behind the initialisation, if one is needed. -/
theorem exists_init (hm : s.Models L f) :
    ∃ h₀, (if s.heap.pxEnd = 0 then prvHeapInit L s.heap else some s.heap) = some h₀ ∧
      HeapRep L h₀ (f.allocations.getD []) ∧
      ∀ pv ∈ f.obtained, Obtained L h₀ (f.allocations.getD []) pv := by
  cases hf : f.allocations with
  | none =>
    obtain ⟨hfresh, hnil⟩ := hm.fresh hf
    have hserves : Serves L s.heap [] := Or.inl ⟨hfresh, rfl⟩
    obtain ⟨h₀, hinit, hrep, -⟩ := hserves.exists_init
    refine ⟨h₀, hinit, hrep, fun pv hpv ↦ ?_⟩
    rw [hnil] at hpv
    exact absurd hpv List.not_mem_nil
  | some as =>
    obtain ⟨hrep, hobtained⟩ := hm.rep as hf
    exact ⟨s.heap, if_neg hrep.pxEnd_ne_zero, hrep, hobtained⟩

/-- **A request** is answered by first fit. -/
theorem malloc (hm : s.Models L f) (n : UInt32) :
    ∃ t, s.call L (.malloc n) = some ((f.call (.malloc n)).1, t) ∧
      t.Models L (f.call (.malloc n)).2 := by
  obtain ⟨h₀, hinit, hrep, hobtained⟩ := hm.exists_init
  have hcall : ∀ p h', allocate L h₀ n.toNat = some (p, h') →
      s.call L (.malloc n) = some (.pointer p, ⟨h', f.obtained ++ [p]⟩) := by
    intro p h' halloc
    rw [HeapUser.call, pvPortMalloc, hinit, Option.bind_some, halloc, hm.obtained]
    rfl
  rw [FirstFit.call]
  generalize f.allocations.getD [] = as at *
  cases hfit : firstFit as n.toNat with
  | none =>
    refine ⟨_, hcall 0 h₀ (allocate_of_none hrep n.toNat_lt hfit), rfl,
      fun hnone ↦ absurd hnone (by simp), fun as' has' ↦ ?_⟩
    obtain rfl := Option.some.inj has'
    refine ⟨hrep, fun pv hpv ↦ ?_⟩
    rcases List.mem_append.1 hpv with hpv | hpv
    · exact hobtained pv hpv
    · exact Or.inl (List.mem_singleton.1 hpv)
  | some b =>
    obtain ⟨P, Q, h', rfl, hrep', halloc, hsettled, -⟩ := allocate_of_some hrep n.toNat_lt hfit
    refine ⟨_, hcall _ h' halloc, rfl, fun hnone ↦ absurd hnone (by simp), fun as' has' ↦ ?_⟩
    obtain rfl := Option.some.inj has'
    rw [hrep'.insert_eq]
    refine ⟨hrep', fun pv hpv ↦ ?_⟩
    rcases List.mem_append.1 hpv with hpv | hpv
    · exact (hobtained pv hpv).mono hsettled
    · have hmem : ⟨b, n.toNat⟩ ∈ P ++ ⟨b, n.toNat⟩ :: Q :=
        List.mem_append_right _ List.mem_cons_self
      exact Or.inr ⟨b.start, List.mem_singleton.1 hpv, hrep'.isHeader_allocation hmem,
        Or.inr ⟨_, hmem, rfl⟩⟩

/-- What is freed is `NULL` or has been obtained. -/
theorem getD_mem (ps : List ℕ) (i : ℕ) : ps.getD i 0 = 0 ∨ ps.getD i 0 ∈ ps := by
  rw [List.getD_eq_getElem?_getD]
  cases hi : ps[i]? with
  | none => exact Or.inl rfl
  | some p => exact Or.inr (List.mem_of_getElem? hi)

/-- **Freeing** any pointer obtained releases what it still holds. -/
theorem free (hm : s.Models L f) (i : ℕ) :
    ∃ t, s.call L (.free i) = some ((f.call (.free i)).1, t) ∧
      t.Models L (f.call (.free i)).2 := by
  have hpv := getD_mem f.obtained i
  rw [HeapUser.call, FirstFit.call, hm.obtained]
  generalize f.obtained.getD i 0 = pv at *
  cases hf : f.allocations with
  | none =>
    -- Nothing has been obtained: this is `NULL`.
    obtain ⟨hfresh, hnil⟩ := hm.fresh hf
    have hnull : pv = 0 := hpv.resolve_right (hnil ▸ List.not_mem_nil)
    subst hnull
    exact ⟨⟨s.heap, f.obtained⟩, rfl, rfl, fun _ ↦ ⟨hfresh, hnil⟩,
      fun as has ↦ absurd has (by simp)⟩
  | some as =>
    obtain ⟨hrep, hobtained⟩ := hm.rep as hf
    have hpv' : Obtained L s.heap as pv := by
      rcases hpv with rfl | hmem
      · exact Or.inl rfl
      · exact hobtained pv hmem
    obtain ⟨h', hfree, hrep', hsettled⟩ := vPortFree_release hrep hpv'
    refine ⟨⟨h', f.obtained⟩, ?_, rfl, fun hnone ↦ absurd hnone (by simp), fun as' has' ↦ ?_⟩
    · rw [hfree]
      rfl
    · obtain rfl := Option.some.inj has'
      exact ⟨hrep', fun pv hpv ↦ (hobtained pv hpv).mono hsettled⟩

/-- **The free bytes** are those of the gaps. -/
theorem getFreeHeapSize (hm : s.Models L f) :
    xPortGetFreeHeapSize s.heap = FirstFit.freeBytes f.allocations := by
  cases hf : f.allocations with
  | none => exact (hm.fresh hf).1.free_eq
  | some as => exact (hm.rep as hf).1.free_eq

/-- **Every call answers what the allocator answers**, and the heap still models it. -/
theorem call (hm : s.Models L f) (c : HeapCall) :
    ∃ t, s.call L c = some ((f.call c).1, t) ∧ t.Models L (f.call c).2 := by
  cases c with
  | malloc n => exact hm.malloc n
  | free i => exact hm.free i
  | getFreeHeapSize =>
    refine ⟨s, ?_, hm⟩
    rw [HeapUser.call, hm.getFreeHeapSize]
    rfl

/-- **And so does every sequence of calls.** -/
theorem answers (hm : s.Models L f) (cs : List HeapCall) :
    s.answers L cs = some (f.answers cs) := by
  induction cs generalizing s f with
  | nil => rfl
  | cons c cs ih =>
    obtain ⟨t, hcall, ht⟩ := hm.call c
    rw [HeapUser.answers, hcall, Option.bind_some]
    dsimp only
    rw [ih ht]
    rfl

/-- A heap that is not initialised models the allocator before its first request. -/
theorem of_fresh (hf : Fresh h) : Models L ⟨h, []⟩ FirstFit.initial where
  obtained := rfl
  fresh := fun _ ↦ ⟨hf, rfl⟩
  rep := fun as has ↦ absurd has (by simp [FirstFit.initial])

end HeapUser.Models

/-! ### The reset -/

/-- **`pvPortMemDeinit` is a true reset.** Whatever a first run has left in the memory and in the
static variables, after the reset every sequence of requests, of frees of pointers obtained since,
and of inquiries after the free bytes returns, and has the answers it has from boot. -/
theorem deinit_is_reset (L : Placement) (h : LibMem) (mem : ℕ → UInt8) (cs : List HeapCall) :
    ∃ answers, HeapUser.answers L ⟨pvPortMemDeinit L h, []⟩ cs = some answers ∧
      HeapUser.answers L ⟨.atBoot mem, []⟩ cs = some answers := by
  have hreset : Fresh (pvPortMemDeinit L h) := ⟨rfl, rfl⟩
  have hboot : Fresh (.atBoot mem) := ⟨rfl, rfl⟩
  exact ⟨FirstFit.initial.answers cs, (HeapUser.Models.of_fresh hreset).answers cs,
    (HeapUser.Models.of_fresh hboot).answers cs⟩

end YHAudioLink
