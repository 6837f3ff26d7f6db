import Mathlib.Data.List.Basic
import Mathlib.Data.List.Nodup
import Mathlib.Logic.Function.Basic

/-!
# Linearizable objects

Several parties call one object, each at most one call at a time, and a call takes a while. What can
be seen is the **history**: the invocations and responses in the order they happened. The object is
linearizable when the history can be explained by a sequential order of calls of a **sequential
object**: every call that has returned is in it with the result it returned, calls that have not may
be, and a call that had returned before another was invoked comes before it.

## The atomic object

`Atomic` is the machine that has nothing but linearizable histories: between its invocation and its
response every call takes effect at one moment, and finds its result there. Its states are the
history, the **status** of each party's call, and the state of the sequential object.
`Atomic.linearizable` is the only theorem about orders of calls that a user needs: an implementation
is linearizable when each of its steps is a number of moves of the atomic object, on the same
history. The moment a call takes effect need not be a step of the party that called.

Calls are told apart by a key, made of the party and the length of the history at the invocation.
-/

namespace Linearizability

/-! ### Sequential objects and histories -/

/-- A sequential object: an operation takes a state to the next one, with a result. -/
structure Object (σ ι ρ : Type*) where
  init : σ
  apply : σ → ι → σ × ρ

/-- An event of a history; `κ` are the keys of the calls. -/
inductive Event (κ ι ρ : Type*)
  | invoke (key : κ) (op : ι)
  | respond (key : κ) (result : ρ)
  deriving DecidableEq

/-- A call with its result. -/
structure Call (κ ι ρ : Type*) where
  key : κ
  op : ι
  result : ρ
  deriving DecidableEq

variable {σ ι ρ κ : Type*} {ob : Object σ ι ρ}

/-- The sequential object goes from one state to another through the calls, in their order and with
their results. -/
def Object.Legal (ob : Object σ ι ρ) : σ → List (Call κ ι ρ) → σ → Prop
  | q, [], q' => q = q'
  | q, c :: cs, q' => (ob.apply q c.op).2 = c.result ∧ ob.Legal (ob.apply q c.op).1 cs q'

/-- One more call at the end. -/
theorem Object.Legal.snoc {cs : List (Call κ ι ρ)} {q q' : σ} (h : ob.Legal q cs q') (key : κ)
    (op : ι) :
    ob.Legal q (cs ++ [⟨key, op, (ob.apply q' op).2⟩]) (ob.apply q' op).1 := by
  induction cs generalizing q with
  | nil =>
    obtain rfl : q = q' := h
    exact ⟨rfl, rfl⟩
  | cons c cs ih => exact ⟨h.1, ih h.2⟩

/-- **The calls explain the history**, and leave the sequential object in state `q`. -/
structure Explains (ob : Object σ ι ρ) (history : List (Event κ ι ρ)) (cs : List (Call κ ι ρ))
    (q : σ) : Prop where
  legal : ob.Legal ob.init cs q
  nodup : (cs.map Call.key).Nodup
  invoked : ∀ c ∈ cs, .invoke c.key c.op ∈ history
  returned : ∀ key result, .respond key result ∈ history → ∃ c ∈ cs, c.key = key ∧ c.result = result
  /-- What had returned before a call was invoked comes before it. -/
  realTime : ∀ c ∈ cs, ∀ c' ∈ cs, ∀ result,
    [.respond c.key result, .invoke c'.key c'.op].Sublist history → [c, c'].Sublist cs

/-- The history can be explained by a sequential order of its calls. -/
def Linearizable (ob : Object σ ι ρ) (history : List (Event κ ι ρ)) : Prop :=
  ∃ cs q, Explains ob history cs q

/-! ### Pairs in a growing list -/

/-- A pair in a list with a new end lies before the end or ends there. -/
theorem pair_sublist_snoc {α : Type*} {a b x : α} {l : List α} (h : [a, b].Sublist (l ++ [x])) :
    [a, b].Sublist l ∨ (a ∈ l ∧ b = x) := by
  obtain ⟨l₁, l₂, heq, h₁, h₂⟩ := List.sublist_append_iff.1 h
  rcases List.sublist_singleton.1 h₂ with rfl | rfl
  · rw [List.append_nil] at heq
    exact Or.inl (heq ▸ h₁)
  · obtain ⟨hinit, hlast⟩ := List.append_inj' (show [a] ++ [b] = l₁ ++ [x] from heq) rfl
    exact Or.inr ⟨List.singleton_sublist.1 (hinit ▸ h₁), List.singleton_inj.1 hlast⟩

/-- An old element and the new end are a pair. -/
theorem pair_sublist_of_mem {α : Type*} {a x : α} {l : List α} (h : a ∈ l) :
    [a, x].Sublist (l ++ [x]) :=
  (List.singleton_sublist.2 h).append (List.Sublist.refl [x])

namespace Explains

variable {history : List (Event κ ι ρ)} {cs : List (Call κ ι ρ)} {q : σ}

theorem nil : Explains ob ([] : List (Event κ ι ρ)) [] ob.init where
  legal := rfl
  nodup := List.nodup_nil
  invoked := fun _ hc ↦ absurd hc List.not_mem_nil
  returned := fun _ _ h ↦ absurd h List.not_mem_nil
  realTime := fun _ hc ↦ absurd hc List.not_mem_nil

/-- An invocation under a new key changes nothing. -/
theorem invoke (h : Explains ob history cs q) {key : κ} (hnew : ∀ c ∈ cs, c.key ≠ key) (op : ι) :
    Explains ob (history ++ [.invoke key op]) cs q where
  legal := h.legal
  nodup := h.nodup
  invoked := fun c hc ↦ List.mem_append_left _ (h.invoked c hc)
  returned := by
    intro key' result hmem
    rcases List.mem_append.1 hmem with hmem | hmem
    · exact h.returned key' result hmem
    · exact absurd (List.mem_singleton.1 hmem) (by simp)
  realTime := by
    intro c hc c' hc' result hsub
    rcases pair_sublist_snoc hsub with hsub | ⟨-, hlast⟩
    · exact h.realTime c hc c' hc' result hsub
    · injection hlast with hkey
      exact absurd hkey (hnew c' hc')

/-- A call among those that explain the history may return its result. -/
theorem respond (h : Explains ob history cs q) {c : Call κ ι ρ} (hc : c ∈ cs) :
    Explains ob (history ++ [.respond c.key c.result]) cs q where
  legal := h.legal
  nodup := h.nodup
  invoked := fun c' hc' ↦ List.mem_append_left _ (h.invoked c' hc')
  returned := by
    intro key result hmem
    rcases List.mem_append.1 hmem with hmem | hmem
    · exact h.returned key result hmem
    · injection List.mem_singleton.1 hmem with hkey hresult
      exact ⟨c, hc, hkey.symm, hresult.symm⟩
  realTime := by
    intro c₁ hc₁ c₂ hc₂ result hsub
    rcases pair_sublist_snoc hsub with hsub | ⟨-, hlast⟩
    · exact h.realTime c₁ hc₁ c₂ hc₂ result hsub
    · exact absurd hlast (by simp)

/-- **A pending call takes effect** as the last one so far: everything that has returned is in the
order already. -/
theorem commit (h : Explains ob history cs q) {key : κ} {op : ι} (hinv : .invoke key op ∈ history)
    (hnew : ∀ c ∈ cs, c.key ≠ key) :
    Explains ob history (cs ++ [⟨key, op, (ob.apply q op).2⟩]) (ob.apply q op).1 where
  legal := h.legal.snoc key op
  nodup := by
    rw [List.map_append, List.map_singleton]
    refine h.nodup.append (List.nodup_singleton _) ?_
    intro k hk hk'
    obtain ⟨c, hc, rfl⟩ := List.mem_map.1 hk
    exact hnew c hc (List.mem_singleton.1 hk')
  invoked := by
    intro c hc
    rcases List.mem_append.1 hc with hc | hc
    · exact h.invoked c hc
    · rw [List.mem_singleton.1 hc]
      exact hinv
  returned := by
    intro key' result hmem
    obtain ⟨c, hc, hcall⟩ := h.returned key' result hmem
    exact ⟨c, List.mem_append_left _ hc, hcall⟩
  realTime := by
    intro c hc c' hc' result hsub
    have hold : c ∈ cs := by
      obtain ⟨d, hd, hkey, -⟩ := h.returned c.key result (hsub.subset List.mem_cons_self)
      rcases List.mem_append.1 hc with hc | hc
      · exact hc
      · rw [List.mem_singleton.1 hc] at hkey
        exact absurd hkey (hnew d hd)
    rcases List.mem_append.1 hc' with hc' | hc'
    · exact (h.realTime c hold c' hc' result hsub).trans (List.sublist_append_left _ _)
    · rw [List.mem_singleton.1 hc']
      exact pair_sublist_of_mem hold

end Explains

/-! ### The atomic object -/

/-- Where a party's call is; calls are told apart by a number. -/
inductive Status (ι ρ : Type*)
  | idle
  /-- Invoked, without effect yet. -/
  | pending (n : ℕ) (op : ι)
  /-- The call has taken effect and has its result. -/
  | effected (n : ℕ) (op : ι) (result : ρ)

variable {π : Type*} [DecidableEq π]

/-- **The atomic object.** A party that is idle may invoke an operation; a pending call may take
effect; a call that has may return. -/
inductive Atomic (ob : Object σ ι ρ) :
    List (Event (π × ℕ) ι ρ) → (π → Status ι ρ) → σ → Prop
  | init : Atomic ob [] (fun _ ↦ .idle) ob.init
  | invoke {history : List (Event (π × ℕ) ι ρ)} {status : π → Status ι ρ} {q : σ} {p : π} (op : ι)
      (h : Atomic ob history status q) (hp : status p = .idle) :
    Atomic ob (history ++ [.invoke (p, history.length) op])
      (Function.update status p (.pending history.length op)) q
  | commit {history : List (Event (π × ℕ) ι ρ)} {status : π → Status ι ρ} {q : σ} {p : π} {n : ℕ}
      {op : ι} (h : Atomic ob history status q) (hp : status p = .pending n op) :
    Atomic ob history (Function.update status p (.effected n op (ob.apply q op).2))
      (ob.apply q op).1
  | respond {history : List (Event (π × ℕ) ι ρ)} {status : π → Status ι ρ} {q : σ} {p : π} {n : ℕ}
      {op : ι} {result : ρ} (h : Atomic ob history status q)
      (hp : status p = .effected n op result) :
    Atomic ob (history ++ [.respond (p, n) result]) (Function.update status p .idle) q

/-- A call takes effect, where its effect is known. -/
theorem Atomic.commit_of_apply {history : List (Event (π × ℕ) ι ρ)} {status : π → Status ι ρ}
    {q q' : σ} {p : π} {n : ℕ} {op : ι} {result : ρ} (h : Atomic ob history status q)
    (hp : status p = .pending n op) (happly : ob.apply q op = (q', result)) :
    Atomic ob history (Function.update status p (.effected n op result)) q' := by
  have hcommit := h.commit hp
  rwa [happly] at hcommit

/-- What a party's status says of the order found so far. -/
def Status.Holds (history : List (Event (π × ℕ) ι ρ)) (cs : List (Call (π × ℕ) ι ρ)) (p : π) :
    Status ι ρ → Prop
  | .idle => True
  | .pending n op => .invoke (p, n) op ∈ history ∧ ∀ c ∈ cs, c.key ≠ (p, n)
  | .effected n op result => ⟨(p, n), op, result⟩ ∈ cs

omit [DecidableEq π] in
/-- A longer history, with no new call in the order, leaves the status true. -/
theorem Status.Holds.mono {history history' : List (Event (π × ℕ) ι ρ)}
    {cs : List (Call (π × ℕ) ι ρ)} {p : π} {st : Status ι ρ} (h : st.Holds history cs p)
    (hsub : ∀ e ∈ history, e ∈ history') : st.Holds history' cs p := by
  cases st with
  | idle => trivial
  | pending n op => exact ⟨hsub _ h.1, h.2⟩
  | effected n op result => exact h

omit [DecidableEq π] in
/-- Another party's call may enter the order. -/
theorem Status.Holds.snoc {history : List (Event (π × ℕ) ι ρ)} {cs : List (Call (π × ℕ) ι ρ)}
    {p : π} {st : Status ι ρ} (h : st.Holds history cs p) {c : Call (π × ℕ) ι ρ}
    (hother : c.key.1 ≠ p) : st.Holds history (cs ++ [c]) p := by
  cases st with
  | idle => trivial
  | pending n op =>
    refine ⟨h.1, fun c' hc' ↦ ?_⟩
    rcases List.mem_append.1 hc' with hc' | hc'
    · exact h.2 c' hc'
    · rw [List.mem_singleton.1 hc']
      exact fun hkey ↦ hother (congrArg Prod.fst hkey)
  | effected n op result => exact List.mem_append_left _ h

/-- The status of all parties after one of them has moved. -/
theorem holds_update {history : List (Event (π × ℕ) ι ρ)} {cs : List (Call (π × ℕ) ι ρ)}
    {status : π → Status ι ρ} {p : π} {st : Status ι ρ} (hp : st.Holds history cs p)
    (hothers : ∀ p', p' ≠ p → (status p').Holds history cs p') (p' : π) :
    (Function.update status p st p').Holds history cs p' := by
  by_cases heq : p' = p
  · rw [heq, Function.update_self]
    exact hp
  · rw [Function.update_of_ne heq]
    exact hothers p' heq

/-- **In every state of the atomic object** some order explains the history, every party's status
agrees with it, and the numbers of its calls are below the length of the history. -/
theorem Atomic.exists_explains {history : List (Event (π × ℕ) ι ρ)} {status : π → Status ι ρ}
    {q : σ} (h : Atomic ob history status q) :
    (∀ p n op, .invoke (p, n) op ∈ history → n < history.length) ∧
      ∃ cs, Explains ob history cs q ∧ ∀ p, (status p).Holds history cs p := by
  induction h with
  | init => exact ⟨fun _ _ _ h ↦ absurd h List.not_mem_nil, [], .nil, fun _ ↦ trivial⟩
  | @invoke history status q p op _ hp ih =>
    obtain ⟨hbound, cs, hcs, hst⟩ := ih
    have hnew : ∀ c ∈ cs, c.key ≠ (p, history.length) := by
      rintro c hc hkey
      have hinv := hcs.invoked c hc
      rw [hkey] at hinv
      exact absurd (hbound _ _ _ hinv) (Nat.lt_irrefl _)
    refine ⟨fun p' n op' hmem ↦ ?_, cs, hcs.invoke hnew op, holds_update ?_ fun p' _ ↦ ?_⟩
    · rw [List.length_append, List.length_singleton]
      rcases List.mem_append.1 hmem with hmem | hmem
      · exact Nat.lt_succ_of_lt (hbound p' n op' hmem)
      · injection List.mem_singleton.1 hmem with hkey
        obtain rfl : n = history.length := congrArg Prod.snd hkey
        exact Nat.lt_succ_self _
    · exact ⟨List.mem_append_right _ (List.mem_singleton_self _), hnew⟩
    · exact (hst p').mono fun _ ↦ List.mem_append_left _
  | @commit history status q p n op _ hp ih =>
    obtain ⟨hbound, cs, hcs, hst⟩ := ih
    obtain ⟨hinv, hnew⟩ : .invoke (p, n) op ∈ history ∧ ∀ c ∈ cs, c.key ≠ (p, n) := by
      have hholds := hst p
      rwa [hp] at hholds
    refine ⟨hbound, _, hcs.commit hinv hnew, holds_update ?_ fun p' hne ↦ ?_⟩
    · exact List.mem_append_right _ (List.mem_singleton_self _)
    · exact (hst p').snoc hne.symm
  | @respond history status q p n op result _ hp ih =>
    obtain ⟨hbound, cs, hcs, hst⟩ := ih
    have hmem : ⟨(p, n), op, result⟩ ∈ cs := by
      have hholds := hst p
      rwa [hp] at hholds
    refine ⟨fun p' n' op' hinv ↦ ?_, cs, hcs.respond hmem, holds_update trivial fun p' _ ↦ ?_⟩
    · rw [List.length_append, List.length_singleton]
      rcases List.mem_append.1 hinv with hinv | hinv
      · exact Nat.lt_succ_of_lt (hbound p' n' op' hinv)
      · exact absurd (List.mem_singleton.1 hinv) (by simp)
    · exact (hst p').mono fun _ ↦ List.mem_append_left _

/-- **The atomic object is linearizable.** -/
theorem Atomic.linearizable {history : List (Event (π × ℕ) ι ρ)} {status : π → Status ι ρ} {q : σ}
    (h : Atomic ob history status q) : Linearizable ob history := by
  obtain ⟨-, cs, hcs, -⟩ := h.exists_explains
  exact ⟨cs, q, hcs⟩

/-! ### A bounded queue -/

/-- The operations on a queue. -/
inductive QueueOp (α : Type*)
  | enqueue (e : α)
  | dequeue
  | clear
  deriving DecidableEq

/-- **The bounded drop-oldest queue**: an element enqueued into a full queue displaces the front;
dequeuing from an empty one gives `empty`. Only `dequeue` has a result. -/
def dropOldest {α : Type*} (capacity : ℕ) (empty : α) : Object (List α) (QueueOp α) (Option α) where
  init := []
  apply q
    | .enqueue e => ((if q.length = capacity then q.tail else q) ++ [e], none)
    | .dequeue => (q.tail, some (q.head?.getD empty))
    | .clear => ([], none)

section DropOldest

variable {α : Type*} {capacity : ℕ} {empty : α} {q : List α}

/-- With room the element is appended. -/
theorem dropOldest_enqueue_of_room (h : q.length ≠ capacity) (e : α) :
    (dropOldest capacity empty).apply q (.enqueue e) = (q ++ [e], none) := by
  show ((if q.length = capacity then q.tail else q) ++ [e], none) = (q ++ [e], none)
  rw [if_neg h]

/-- Without it the front goes. -/
theorem dropOldest_enqueue_of_full {a : α} (h : (a :: q).length = capacity) (e : α) :
    (dropOldest capacity empty).apply (a :: q) (.enqueue e) = (q ++ [e], none) := by
  show ((if (a :: q).length = capacity then q else a :: q) ++ [e], none) = (q ++ [e], none)
  rw [if_pos h]

end DropOldest

end Linearizability
