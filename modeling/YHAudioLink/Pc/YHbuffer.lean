import YHAudioLink.Foundation.Linearizability
import YHAudioLink.Foundation.Runs
import YHAudioLink.Pc.YHnet

/-!
# The buffer between two threads

`YHbuffer` wraps a `Queue<YHElement>` that is not locked. `Enqueue` and `Dequeue` first look at
`Count` and then act on what they saw, each access to the inner queue being one step; between the
two the other parties may move. The parties are those of `YHnet`: one producer that calls `Enqueue`
(the receive thread, or the callbacks of the recorder), any number of consumers that call `Dequeue`
(the play or record threads), and a controller that calls `Clear` (`Start`).

A call is invoked, takes its steps, and returns; the history records invocations and returns,
`inner` records the accesses to the inner queue with the `Count` each found. An inner `Dequeue` on
an empty queue throws `InvalidOperationException`, which ends the thread.

The inner queue is a list, its front first.
-/

namespace YHAudioLink

open Linearizability

/-! ### Elements -/

/-- `YHElement`. -/
structure YHElement where
  mData : Option (List UInt8)
  mLen : ℤ
  deriving DecidableEq

namespace YHElement

/-- `new YHElement(data, len)`: the data go into an array of 4096 bytes; `none` where `Array.Copy`
throws. -/
def new (data : Option (List UInt8)) (len : ℤ) : Option YHElement :=
  match data with
  | some bytes =>
    if 0 ≤ len ∧ len ≤ bytes.length ∧ len ≤ 4096 then
      some ⟨some (bytes.take len.toNat ++ List.replicate (4096 - len.toNat) 0), len⟩
    else none
  | none => some ⟨none, len⟩

/-- `new YHElement(null, 0)`, what `Dequeue` returns when there is nothing. -/
def empty : YHElement := ⟨none, 0⟩

theorem new_none : new none 0 = some empty := rfl

end YHElement

/-! ### The buffer as one step

`YHnet` is modelled with the calls of its buffer atomic. What they do there is what they do to the
sequential drop-oldest queue. -/

theorem yhbufferEnqueue_eq_apply (empty : PcMessage) (q : List PcMessage) (e : PcMessage) :
    yhbufferEnqueue q e = ((dropOldest 3 empty).apply q (.enqueue e)).1 := rfl

theorem yhbufferDequeue_eq_apply (empty : PcMessage) (q : List PcMessage) :
    ((dropOldest 3 empty).apply q .dequeue).1 = (yhbufferDequeue q).2 ∧
      ((dropOldest 3 empty).apply q .dequeue).2 = some ((yhbufferDequeue q).1.getD empty) :=
  ⟨rfl, rfl⟩

/-! ### States -/

/-- Where the producer is in `Enqueue`, with the number of its call. -/
inductive ProducerPc
  | idle
  /-- At `m_data_queue.Count == m_blocks`. -/
  | count (n : ℕ) (e : YHElement)
  /-- At the `Dequeue` that makes room. -/
  | drop (n : ℕ) (e : YHElement)
  | enqueue (n : ℕ) (e : YHElement)
  | done (n : ℕ) (e : YHElement)
  /-- The thread has ended with an exception. -/
  | faulted
  deriving DecidableEq

/-- Where a consumer is in `Dequeue`. -/
inductive ConsumerPc
  | idle
  /-- At `m_data_queue.Count != 0`. -/
  | count (n : ℕ)
  | dequeue (n : ℕ)
  | done (n : ℕ) (e : YHElement)
  | faulted
  deriving DecidableEq

/-- Where the controller is in `Clear`. -/
inductive ControllerPc
  | idle
  | clear (n : ℕ)
  | done (n : ℕ)
  deriving DecidableEq

inductive Party
  | producer
  | consumer (j : ℕ)
  | controller
  deriving DecidableEq

/-- An access to the inner queue. -/
inductive Inner
  | count
  /-- `Dequeue`, called by `Enqueue`. -/
  | drop
  | enqueue
  /-- `Dequeue`, called by `Dequeue`. -/
  | dequeue
  | clear
  deriving DecidableEq

/-- A `YHbuffer` with its callers. -/
structure YHbuffer where
  /-- `m_data_queue`. -/
  mDataQueue : List YHElement
  producer : ProducerPc
  consumers : ℕ → ConsumerPc
  controller : ControllerPc
  history : List (Event (Party × ℕ) (QueueOp YHElement) (Option YHElement))
  /-- The accesses to the inner queue, newest first, with the `Count` before each. -/
  inner : List (Inner × ℕ)

/-- `new YHbuffer(blocks)`. -/
def YHbuffer.initial : YHbuffer where
  mDataQueue := []
  producer := .idle
  consumers := fun _ ↦ .idle
  controller := .idle
  history := []
  inner := []

namespace YHbuffer

/-! ### Steps -/

/-- Who moves. -/
inductive Label
  /-- The producer calls `Enqueue`. -/
  | enqueue (data : Option (List UInt8)) (len : ℤ)
  | dequeue (j : ℕ)
  | clear
  /-- The party's call takes its next step, or returns. -/
  | next (p : Party)

/-- A call is invoked; its number is the length of the history. -/
def invoke (s : YHbuffer) (p : Party) (op : QueueOp YHElement) : YHbuffer :=
  { s with history := s.history ++ [.invoke (p, s.history.length) op] }

/-- A call returns. -/
def respond (s : YHbuffer) (p : Party) (n : ℕ) (result : Option YHElement) : YHbuffer :=
  { s with history := s.history ++ [.respond (p, n) result] }

/-- The inner queue is accessed. -/
def access (s : YHbuffer) (op : Inner) (queue : List YHElement) : YHbuffer :=
  { s with mDataQueue := queue, inner := (op, s.mDataQueue.length) :: s.inner }

/-- A consumer moves on. -/
def setConsumer (s : YHbuffer) (j : ℕ) (pc : ConsumerPc) : YHbuffer :=
  { s with consumers := Function.update s.consumers j pc }

/-- `YHbuffer.Enqueue`. -/
def stepEnqueue (mBlocks : ℕ) (s : YHbuffer) : Option YHbuffer :=
  match s.producer with
  | .count n e =>
    some { s.access .count s.mDataQueue with
      producer := if s.mDataQueue.length = mBlocks then .drop n e else .enqueue n e }
  | .drop n e =>
    match s.mDataQueue with
    | _ :: rest => some { s.access .drop rest with producer := .enqueue n e }
    | [] => some { s.access .drop [] with producer := .faulted }
  | .enqueue n e =>
    some { s.access .enqueue (s.mDataQueue ++ [e]) with producer := .done n e }
  | .done n _ => some { s.respond .producer n none with producer := .idle }
  | .idle | .faulted => none

/-- `YHbuffer.Dequeue`. -/
def stepDequeue (s : YHbuffer) (j : ℕ) : Option YHbuffer :=
  match s.consumers j with
  | .count n =>
    some ((s.access .count s.mDataQueue).setConsumer j
      (if s.mDataQueue.length ≠ 0 then .dequeue n else .done n YHElement.empty))
  | .dequeue n =>
    match s.mDataQueue with
    | e :: rest => some ((s.access .dequeue rest).setConsumer j (.done n e))
    | [] => some ((s.access .dequeue []).setConsumer j .faulted)
  | .done n e => some ((s.respond (.consumer j) n (some e)).setConsumer j .idle)
  | .idle | .faulted => none

/-- `YHbuffer.Clear`. -/
def stepClear (s : YHbuffer) : Option YHbuffer :=
  match s.controller with
  | .clear n => some { s.access .clear [] with controller := .done n }
  | .done n => some { s.respond .controller n none with controller := .idle }
  | .idle => none

/-- One step of a party. A call whose element cannot be made throws before it reaches the queue. -/
def step (mBlocks : ℕ) (s : YHbuffer) : Label → Option YHbuffer
  | .enqueue data len =>
    if s.producer = .idle then
      (YHElement.new data len).map fun e ↦
        { s.invoke .producer (.enqueue e) with producer := .count s.history.length e }
    else none
  | .dequeue j =>
    if s.consumers j = .idle then
      some ((s.invoke (.consumer j) .dequeue).setConsumer j (.count s.history.length))
    else none
  | .clear =>
    if s.controller = .idle then
      some { s.invoke .controller .clear with controller := .clear s.history.length }
    else none
  | .next .producer => stepEnqueue mBlocks s
  | .next (.consumer j) => stepDequeue s j
  | .next .controller => stepClear s

/-! ### What a step can do -/

/-- The transitions, one constructor for each way a step can go. -/
inductive Move (mBlocks : ℕ) (s : YHbuffer) : Label → YHbuffer → Prop
  | invokeEnqueue (data : Option (List UInt8)) (len : ℤ) (e : YHElement) (hp : s.producer = .idle) :
    Move mBlocks s (.enqueue data len)
      { s.invoke .producer (.enqueue e) with producer := .count s.history.length e }
  | invokeDequeue (j : ℕ) (hp : s.consumers j = .idle) :
    Move mBlocks s (.dequeue j)
      ((s.invoke (.consumer j) .dequeue).setConsumer j (.count s.history.length))
  | invokeClear (hp : s.controller = .idle) :
    Move mBlocks s .clear
      { s.invoke .controller .clear with controller := .clear s.history.length }
  | countFull (n : ℕ) (e : YHElement) (hp : s.producer = .count n e)
      (hfull : s.mDataQueue.length = mBlocks) :
    Move mBlocks s (.next .producer)
      { s.access .count s.mDataQueue with producer := .drop n e }
  | countRoom (n : ℕ) (e : YHElement) (hp : s.producer = .count n e)
      (hroom : s.mDataQueue.length ≠ mBlocks) :
    Move mBlocks s (.next .producer)
      { s.access .count s.mDataQueue with producer := .enqueue n e }
  | drop (n : ℕ) (e a : YHElement) (rest : List YHElement) (hp : s.producer = .drop n e)
      (hqueue : s.mDataQueue = a :: rest) :
    Move mBlocks s (.next .producer) { s.access .drop rest with producer := .enqueue n e }
  | dropFault (n : ℕ) (e : YHElement) (hp : s.producer = .drop n e) (hqueue : s.mDataQueue = []) :
    Move mBlocks s (.next .producer) { s.access .drop [] with producer := .faulted }
  | enqueue (n : ℕ) (e : YHElement) (hp : s.producer = .enqueue n e) :
    Move mBlocks s (.next .producer)
      { s.access .enqueue (s.mDataQueue ++ [e]) with producer := .done n e }
  | returnEnqueue (n : ℕ) (e : YHElement) (hp : s.producer = .done n e) :
    Move mBlocks s (.next .producer) { s.respond .producer n none with producer := .idle }
  | countSome (j n : ℕ) (hp : s.consumers j = .count n) (hqueue : s.mDataQueue ≠ []) :
    Move mBlocks s (.next (.consumer j))
      ((s.access .count s.mDataQueue).setConsumer j (.dequeue n))
  | countNone (j n : ℕ) (hp : s.consumers j = .count n) (hqueue : s.mDataQueue = []) :
    Move mBlocks s (.next (.consumer j))
      ((s.access .count s.mDataQueue).setConsumer j (.done n YHElement.empty))
  | take (j n : ℕ) (e : YHElement) (rest : List YHElement) (hp : s.consumers j = .dequeue n)
      (hqueue : s.mDataQueue = e :: rest) :
    Move mBlocks s (.next (.consumer j)) ((s.access .dequeue rest).setConsumer j (.done n e))
  | takeFault (j n : ℕ) (hp : s.consumers j = .dequeue n) (hqueue : s.mDataQueue = []) :
    Move mBlocks s (.next (.consumer j)) ((s.access .dequeue []).setConsumer j .faulted)
  | returnDequeue (j n : ℕ) (e : YHElement) (hp : s.consumers j = .done n e) :
    Move mBlocks s (.next (.consumer j))
      ((s.respond (.consumer j) n (some e)).setConsumer j .idle)
  | clear (n : ℕ) (hp : s.controller = .clear n) :
    Move mBlocks s (.next .controller) { s.access .clear [] with controller := .done n }
  | returnClear (n : ℕ) (hp : s.controller = .done n) :
    Move mBlocks s (.next .controller) { s.respond .controller n none with controller := .idle }

section Moves

variable {mBlocks : ℕ} {s t : YHbuffer}

theorem move_of_stepEnqueue (h : stepEnqueue mBlocks s = some t) :
    Move mBlocks s (.next .producer) t := by
  rw [stepEnqueue] at h
  split at h
  · next n e hp =>
    split at h
    · next hfull => exact Option.some.inj h ▸ .countFull n e hp hfull
    · next hroom => exact Option.some.inj h ▸ .countRoom n e hp hroom
  · next n e hp =>
    split at h
    · next a rest hqueue => exact Option.some.inj h ▸ .drop n e a rest hp hqueue
    · next hqueue => exact Option.some.inj h ▸ .dropFault n e hp hqueue
  · next n e hp => exact Option.some.inj h ▸ .enqueue n e hp
  · next n e hp => exact Option.some.inj h ▸ .returnEnqueue n e hp
  · exact absurd h (by simp)
  · exact absurd h (by simp)

theorem move_of_stepDequeue {j : ℕ} (h : stepDequeue s j = some t) :
    Move mBlocks s (.next (.consumer j)) t := by
  rw [stepDequeue] at h
  split at h
  · next n hp =>
    split at h
    · next hqueue =>
      exact Option.some.inj h ▸ .countSome j n hp fun hnil ↦ hqueue (hnil ▸ List.length_nil)
    · next hqueue =>
      exact Option.some.inj h ▸
        .countNone j n hp (List.eq_nil_of_length_eq_zero (not_not.1 hqueue))
  · next n hp =>
    split at h
    · next e rest hqueue => exact Option.some.inj h ▸ .take j n e rest hp hqueue
    · next hqueue => exact Option.some.inj h ▸ .takeFault j n hp hqueue
  · next n e hp => exact Option.some.inj h ▸ .returnDequeue j n e hp
  · exact absurd h (by simp)
  · exact absurd h (by simp)

/-- **Every step of the buffer is one of the transitions.** -/
theorem move_of_step {a : Label} (h : step mBlocks s a = some t) : Move mBlocks s a t := by
  cases a with
  | enqueue data len =>
    rw [step] at h
    split at h
    · next hp =>
      obtain ⟨e, -, rfl⟩ := Option.map_eq_some_iff.1 h
      exact .invokeEnqueue data len e hp
    · exact absurd h (by simp)
  | dequeue j =>
    rw [step] at h
    split at h
    · next hp => exact Option.some.inj h ▸ .invokeDequeue j hp
    · exact absurd h (by simp)
  | clear =>
    rw [step] at h
    split at h
    · next hp => exact Option.some.inj h ▸ .invokeClear hp
    · exact absurd h (by simp)
  | next p =>
    cases p with
    | producer => exact move_of_stepEnqueue h
    | consumer j => exact move_of_stepDequeue h
    | controller =>
      rw [step, stepClear] at h
      split at h
      · next n hp => exact Option.some.inj h ▸ .clear n hp
      · next n hp => exact Option.some.inj h ▸ .returnClear n hp
      · exact absurd h (by simp)

end Moves

/-- Reachable states of a buffer of `mBlocks` places, under a guard. -/
abbrev Reachable (mBlocks : ℕ) (ok : YHbuffer → Label → Bool) : YHbuffer → Prop :=
  Runs.Reachable (fun s ↦ s = initial) (step mBlocks) ok

/-- A schedule that can be replayed from the start under a guard reaches a state of such a run. -/
theorem exists_reachable (mBlocks : ℕ) (ok : YHbuffer → Label → Bool) (as : List Label)
    (p : YHbuffer → Bool) (h : (Runs.execOk (step mBlocks) ok initial as).map p = some true) :
    ∃ s, Reachable mBlocks ok s ∧ p s = true :=
  Runs.exists_reachable_of_execOk rfl h

/-! ### The capacity -/

/-- The queue is no longer than it may be, and has room when the producer is about to enqueue. -/
structure Bounded (mBlocks : ℕ) (s : YHbuffer) : Prop where
  length_le : s.mDataQueue.length ≤ mBlocks
  room : ∀ n e, s.producer = .enqueue n e → s.mDataQueue.length < mBlocks

theorem Bounded.step {mBlocks : ℕ} {s t : YHbuffer} {a : Label} (h : Bounded mBlocks s)
    (hst : Move mBlocks s a t) : Bounded mBlocks t := by
  cases hst with
  | invokeEnqueue => exact ⟨h.length_le, fun _ _ hp ↦ ProducerPc.noConfusion hp⟩
  | invokeDequeue | invokeClear | countSome | countNone | returnDequeue | returnClear =>
    exact ⟨h.length_le, h.room⟩
  | countFull | returnEnqueue =>
    exact ⟨h.length_le, fun _ _ hp ↦ ProducerPc.noConfusion hp⟩
  | dropFault => exact ⟨Nat.zero_le _, fun _ _ hp ↦ ProducerPc.noConfusion hp⟩
  | countRoom n e hp hroom =>
    exact ⟨h.length_le, fun _ _ _ ↦ lt_of_le_of_ne h.length_le hroom⟩
  | drop n e a rest hp hqueue =>
    have hle := h.length_le
    rw [hqueue, List.length_cons] at hle
    exact ⟨Nat.le_of_succ_le hle, fun _ _ _ ↦ hle⟩
  | enqueue n e hp =>
    refine ⟨?_, fun _ _ hp ↦ ProducerPc.noConfusion hp⟩
    show (s.mDataQueue ++ [e]).length ≤ mBlocks
    rw [List.length_append, List.length_singleton]
    exact h.room n e hp
  | take j n e rest hp hqueue =>
    have hle := h.length_le
    have hroom := h.room
    rw [hqueue, List.length_cons] at hle hroom
    exact ⟨Nat.le_of_succ_le hle, fun n e hp ↦ Nat.lt_of_succ_lt (hroom n e hp)⟩
  | takeFault j n hp hqueue =>
    refine ⟨Nat.zero_le _, fun n e hp ↦ ?_⟩
    have hroom := h.room n e hp
    rwa [hqueue] at hroom
  | clear n hp => exact ⟨Nat.zero_le _, fun n e hp ↦ Nat.zero_lt_of_lt (h.room n e hp)⟩

/-- **The queue never exceeds its capacity**, however the parties interleave: only the producer
makes it longer, and what the others do since it looked only makes room. -/
theorem bounded_of_reachable {mBlocks : ℕ} {ok : YHbuffer → Label → Bool} {s : YHbuffer}
    (h : Reachable mBlocks ok s) : Bounded mBlocks s := by
  refine h.invariant ?_ fun _ _ _ hs _ hst ↦ hs.step (move_of_step hst)
  rintro s rfl
  exact ⟨Nat.zero_le _, fun _ _ hp ↦ ProducerPc.noConfusion hp⟩

end YHbuffer

end YHAudioLink
