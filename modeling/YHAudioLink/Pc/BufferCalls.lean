import YHAudioLink.Pc.YHbuffer

/-!
# When the buffer is a queue

Is a `YHbuffer` that several threads use a bounded drop-oldest queue, whose calls take effect one
after the other? Not in every run. A consumer that has seen an element may find the queue empty when
it dequeues, and so may the producer when it makes room; a queue the producer has seen full may have
been emptied, so that it drops an element although there was room; and while it has dropped an
element and not yet enqueued its own, the queue is shorter than it should be at any moment.

`undisturbed` excludes exactly these four steps, and nothing else: under it the buffer refines the
atomic object (`Refines`), and its history is linearizable.

## Where the calls take effect

`Dequeue` takes effect at its inner `Dequeue`, or where it sees `Count = 0`; `Clear` at its one
step; `Enqueue` at its inner `Enqueue` if it dropped nothing. If it dropped the front, the inner
queue is missing that element while the sequential queue still holds it (`Phase.dropped`). The first
consumer to dequeue meanwhile gets the second element, so there `Enqueue` has to take effect just
before the `Dequeue`, in a step of another party; from then on the inner queue lacks only the new
element (`Phase.served`). `gap` finds out which it is from the record of the accesses.
-/

namespace YHAudioLink

open Linearizability

namespace YHbuffer

/-! ### Between the drop and the enqueue -/

/-- The gap between the two halves of an `Enqueue` that makes room. -/
inductive Gap
  /-- There is none, or the queue has been cleared since the drop. -/
  | closed
  /-- An element has been dropped and none taken since. -/
  | fresh
  /-- An element has been dropped, and others were taken since. -/
  | served
  deriving DecidableEq

/-- The gap the accesses have left, the newest first. -/
def gap : List (Inner × ℕ) → Gap
  | [] => .closed
  | (.drop, _) :: _ => .fresh
  | (.enqueue, _) :: _ => .closed
  | (.clear, _) :: _ => .closed
  | (.dequeue, _) :: rest => if gap rest = .closed then .closed else .served
  | (.count, _) :: rest => gap rest

/-- **The guard.** The producer makes room in a queue that is still full; a consumer dequeues from a
queue that is not empty, and finds it empty only while there is no gap; the controller does not
clear the queue in a gap in which elements were taken. -/
def undisturbed (mBlocks : ℕ) (s : YHbuffer) : Label → Bool
  | .next .producer =>
    match s.producer with
    | .drop _ _ => s.mDataQueue.length == mBlocks
    | _ => true
  | .next (.consumer j) =>
    match s.consumers j with
    | .count _ => !s.mDataQueue.isEmpty || gap s.inner == .closed
    | .dequeue _ => !s.mDataQueue.isEmpty
    | _ => true
  | .next .controller =>
    match s.controller with
    | .clear _ => gap s.inner != .served
    | _ => true
  | _ => true

/-- **The buffer is a bounded queue so far.** No inner `Dequeue` was executed on an empty queue, the
queue is no longer than `m_blocks`, an element was dropped only from a queue of `m_blocks` elements,
and the history is that of a drop-oldest queue of this capacity. -/
structure IsQueue (mBlocks : ℕ) (s : YHbuffer) : Prop where
  not_empty : ∀ n, (.drop, n) ∈ s.inner ∨ (.dequeue, n) ∈ s.inner → 0 < n
  length_le : s.mDataQueue.length ≤ mBlocks
  drop_full : ∀ n, (.drop, n) ∈ s.inner → n = mBlocks
  linearizable : Linearizable (dropOldest mBlocks YHElement.empty) s.history

/-! ### The status of a call -/

/-- The call of the producer, as the sequential queue sees it. In a gap in which elements were taken
it has taken effect already. -/
def producerStatus (g : Gap) : ProducerPc → Status (QueueOp YHElement) (Option YHElement)
  | .idle | .faulted => .idle
  | .count n e | .drop n e => .pending n (.enqueue e)
  | .enqueue n e =>
    if g = .served then .effected n (.enqueue e) none else .pending n (.enqueue e)
  | .done n e => .effected n (.enqueue e) none

def consumerStatus : ConsumerPc → Status (QueueOp YHElement) (Option YHElement)
  | .idle | .faulted => .idle
  | .count n | .dequeue n => .pending n .dequeue
  | .done n e => .effected n .dequeue (some e)

def controllerStatus : ControllerPc → Status (QueueOp YHElement) (Option YHElement)
  | .idle => .idle
  | .clear n => .pending n .clear
  | .done n => .effected n .clear none

/-- The status of every party's call. -/
def status (s : YHbuffer) : Party → Status (QueueOp YHElement) (Option YHElement)
  | .producer => producerStatus (gap s.inner) s.producer
  | .consumer j => consumerStatus (s.consumers j)
  | .controller => controllerStatus s.controller

/-- As long as nothing was taken in it, the gap is not to be seen. -/
theorem producerStatus_of_ne_served {g : Gap} (h : g ≠ .served) (pc : ProducerPc) :
    producerStatus g pc = producerStatus .closed pc := by
  cases pc with
  | enqueue n e => rw [producerStatus, producerStatus, if_neg h, if_neg (by simp)]
  | _ => rfl

/-- An access that leaves the gap as it is concerns nobody's call. -/
theorem status_access {s : YHbuffer} {op : Inner} {queue : List YHElement}
    (h : gap (s.access op queue).inner = gap s.inner) (p : Party) :
    (s.access op queue).status p = s.status p := by
  cases p with
  | producer => exact congrArg (fun g ↦ producerStatus g s.producer) h
  | consumer j => rfl
  | controller => rfl

section StatusOfMove

variable {s t : YHbuffer} {ob : Object (List YHElement) (QueueOp YHElement) (Option YHElement)}
  {q : List YHElement}

/-- Only the producer has moved. -/
theorem atomic_of_producer
    (h : Atomic ob t.history
      (Function.update s.status .producer (producerStatus (gap t.inner) t.producer)) q)
    (hcons : t.consumers = s.consumers) (hctrl : t.controller = s.controller) :
    Atomic ob t.history t.status q := by
  convert h using 1
  funext p
  cases p with
  | producer => rw [Function.update_self, status]
  | consumer j => rw [Function.update_of_ne (by simp), status, status, hcons]
  | controller => rw [Function.update_of_ne (by simp), status, status, hctrl]

/-- A consumer has moved; the status `v` is that of the others. -/
theorem atomic_of_consumer (s : YHbuffer) (j : ℕ) (pc : ConsumerPc)
    {v : Party → Status (QueueOp YHElement) (Option YHElement)}
    (h : Atomic ob s.history (Function.update v (.consumer j) (consumerStatus pc)) q)
    (hv : ∀ p, s.status p = v p) :
    Atomic ob (s.setConsumer j pc).history (s.setConsumer j pc).status q := by
  obtain rfl : s.status = v := funext hv
  have hstatus : (s.setConsumer j pc).status =
      Function.update s.status (.consumer j) (consumerStatus pc) := by
    funext p
    cases p with
    | producer => exact (Function.update_of_ne (by simp) _ _).symm
    | consumer j' =>
      show consumerStatus (Function.update s.consumers j pc j') = _
      by_cases heq : j' = j
      · rw [heq, Function.update_self, Function.update_self]
      · rw [Function.update_of_ne heq, Function.update_of_ne (by simp [heq]), status]
    | controller => exact (Function.update_of_ne (by simp) _ _).symm
  rw [hstatus]
  exact h

/-- Only the controller has moved. -/
theorem atomic_of_controller
    (h : Atomic ob t.history
      (Function.update s.status .controller (controllerStatus t.controller)) q)
    (hprod : t.status .producer = s.status .producer) (hcons : t.consumers = s.consumers) :
    Atomic ob t.history t.status q := by
  convert h using 1
  funext p
  cases p with
  | producer => rw [Function.update_of_ne (by simp), hprod]
  | consumer j => rw [Function.update_of_ne (by simp), status, status, hcons]
  | controller => rw [Function.update_self, status]

/-- A status that is written over itself. -/
theorem atomic_update_self
    {history : List (Event (Party × ℕ) (QueueOp YHElement) (Option YHElement))}
    {p : Party} {st : Status (QueueOp YHElement) (Option YHElement)}
    (h : Atomic ob history s.status q) (hst : s.status p = st) :
    Atomic ob history (Function.update s.status p st) q := by
  rwa [← hst, Function.update_eq_self]

end StatusOfMove

/-! ### The sequential queue behind the buffer -/

/-- How the inner queue stands to the sequential queue `q`. -/
inductive Phase (mBlocks : ℕ) (s : YHbuffer) (q : List YHElement) : Prop
  | level (hgap : gap s.inner = .closed) (hq : q = s.mDataQueue)
  /-- The front has been dropped, but not by a call that has taken effect. -/
  | dropped (n : ℕ) (e a : YHElement) (hgap : gap s.inner = .fresh)
      (hpc : s.producer = .enqueue n e) (hq : q = a :: s.mDataQueue) (hfull : q.length = mBlocks)
  /-- The call that dropped the front has taken effect, but its element is not there yet. -/
  | served (n : ℕ) (e : YHElement) (hgap : gap s.inner = .served)
      (hpc : s.producer = .enqueue n e) (hq : q = s.mDataQueue ++ [e])

/-- **The buffer refines the atomic object** in the state `q` of the sequential queue. -/
structure Refines (mBlocks : ℕ) (s : YHbuffer) (q : List YHElement) : Prop where
  atomic : Atomic (dropOldest mBlocks YHElement.empty) s.history s.status q
  phase : Phase mBlocks s q

namespace Phase

variable {mBlocks : ℕ} {s t : YHbuffer} {q : List YHElement}

/-- Only a producer about to enqueue leaves a gap. -/
theorem level_of_ne (h : Phase mBlocks s q) (hpc : ∀ n e, s.producer ≠ .enqueue n e) :
    gap s.inner = .closed ∧ q = s.mDataQueue := by
  cases h with
  | level hgap hq => exact ⟨hgap, hq⟩
  | dropped n e _ _ hpc' => exact absurd hpc' (hpc n e)
  | served n e _ hpc' => exact absurd hpc' (hpc n e)

/-- Nothing the phase speaks of has changed. -/
theorem congr (h : Phase mBlocks s q) (hgap : gap t.inner = gap s.inner)
    (hqueue : t.mDataQueue = s.mDataQueue) (hpc : t.producer = s.producer) :
    Phase mBlocks t q := by
  cases h with
  | level hgap' hq => exact .level (hgap.trans hgap') (hq.trans hqueue.symm)
  | dropped n e a hgap' hpc' hq hfull =>
    exact .dropped n e a (hgap.trans hgap') (hpc.trans hpc') (by rw [hqueue, hq]) hfull
  | served n e hgap' hpc' hq =>
    exact .served n e (hgap.trans hgap') (hpc.trans hpc') (by rw [hqueue, hq])

end Phase

namespace Refines

variable {mBlocks : ℕ} {s : YHbuffer} {q : List YHElement}

/-! ### The producer -/

theorem invokeEnqueue (h : Refines mBlocks s q) (hp : s.producer = .idle) (e : YHElement) :
    Refines mBlocks
      { s.invoke .producer (.enqueue e) with producer := .count s.history.length e } q := by
  obtain ⟨hgap, hq⟩ := h.phase.level_of_ne (by simp [hp])
  have hinvoke := h.atomic.invoke (p := .producer) (.enqueue e) (by rw [status, hp, producerStatus])
  exact ⟨atomic_of_producer hinvoke rfl rfl, .level hgap hq⟩

/-- The producer has looked at `Count`. -/
theorem count (h : Refines mBlocks s q) {n : ℕ} {e : YHElement} (hp : s.producer = .count n e)
    (pc : ProducerPc) (hpc : pc = .drop n e ∨ pc = .enqueue n e) :
    Refines mBlocks { s.access .count s.mDataQueue with producer := pc } q := by
  obtain ⟨hgap, hq⟩ := h.phase.level_of_ne (by simp [hp])
  have hstatus : s.status .producer = producerStatus (gap s.inner) pc := by
    rw [status, hp, hgap]
    rcases hpc with rfl | rfl <;> rfl
  exact ⟨atomic_of_producer (atomic_update_self h.atomic hstatus) rfl rfl, .level hgap hq⟩

/-- The producer makes room in a full queue. -/
theorem drop (h : Refines mBlocks s q) {n : ℕ} {e a : YHElement} {rest : List YHElement}
    (hp : s.producer = .drop n e) (hqueue : s.mDataQueue = a :: rest)
    (hfull : s.mDataQueue.length = mBlocks) :
    Refines mBlocks { s.access .drop rest with producer := .enqueue n e } q := by
  obtain ⟨hgap, hq⟩ := h.phase.level_of_ne (by simp [hp])
  have hstatus : s.status .producer = producerStatus .fresh (.enqueue n e) := by
    rw [status, hp]
    rfl
  exact ⟨atomic_of_producer (atomic_update_self h.atomic hstatus) rfl rfl,
    .dropped n e a rfl rfl (hq.trans hqueue) (hq ▸ hfull)⟩

/-- Until a consumer has taken an element in the gap the call of the producer is pending. -/
theorem pending_of_gap {n : ℕ} {e : YHElement} (hp : s.producer = .enqueue n e)
    (hgap : gap s.inner ≠ .served) : s.status .producer = .pending n (.enqueue e) := by
  rw [status, hp, producerStatus, if_neg hgap]

/-- The element is enqueued. Unless it has done so in the gap, the call takes effect now. -/
theorem enqueue (h : Refines mBlocks s q) (hb : Bounded mBlocks s) {n : ℕ} {e : YHElement}
    (hp : s.producer = .enqueue n e) :
    Refines mBlocks { s.access .enqueue (s.mDataQueue ++ [e]) with producer := .done n e }
      (s.mDataQueue ++ [e]) := by
  refine ⟨?_, .level rfl rfl⟩
  cases h.phase with
  | level hgap hq =>
    have hcommit := h.atomic.commit (pending_of_gap hp (by simp [hgap]))
    have hroom : q.length ≠ mBlocks := hq ▸ (hb.room n e hp).ne
    rw [dropOldest_enqueue_of_room hroom, hq] at hcommit
    exact atomic_of_producer hcommit rfl rfl
  | dropped n' e' a hgap hpc hq hfull =>
    have hcommit := h.atomic.commit (pending_of_gap hp (by simp [hgap]))
    rw [hq] at hfull
    rw [hq, dropOldest_enqueue_of_full hfull] at hcommit
    exact atomic_of_producer hcommit rfl rfl
  | served n' e' hgap hpc hq =>
    obtain ⟨rfl, rfl⟩ : n = n' ∧ e = e' := by simpa [hp] using hpc
    have hstatus : s.status .producer = producerStatus .closed (.done n e) := by
      rw [status, hp, hgap]
      rfl
    rw [← hq]
    exact atomic_of_producer (atomic_update_self h.atomic hstatus) rfl rfl

theorem returnEnqueue (h : Refines mBlocks s q) {n : ℕ} {e : YHElement}
    (hp : s.producer = .done n e) :
    Refines mBlocks { s.respond .producer n none with producer := .idle } q := by
  obtain ⟨hgap, hq⟩ := h.phase.level_of_ne (by simp [hp])
  have hrespond := h.atomic.respond (p := .producer) (by rw [status, hp, producerStatus])
  exact ⟨atomic_of_producer hrespond rfl rfl, .level hgap hq⟩

/-! ### A consumer -/

theorem invokeDequeue (h : Refines mBlocks s q) {j : ℕ} (hp : s.consumers j = .idle) :
    Refines mBlocks ((s.invoke (.consumer j) .dequeue).setConsumer j (.count s.history.length))
      q := by
  have hinvoke := h.atomic.invoke (p := .consumer j) .dequeue (by rw [status, hp, consumerStatus])
  exact ⟨atomic_of_consumer (s.invoke (.consumer j) .dequeue) j _ hinvoke fun _ ↦ rfl,
    h.phase.congr rfl rfl rfl⟩

/-- A consumer has seen an element. -/
theorem countSome (h : Refines mBlocks s q) {j n : ℕ} (hp : s.consumers j = .count n) :
    Refines mBlocks ((s.access .count s.mDataQueue).setConsumer j (.dequeue n)) q := by
  have hstatus : s.status (.consumer j) = consumerStatus (.dequeue n) := by
    rw [status, hp]
    rfl
  exact ⟨atomic_of_consumer (s.access .count s.mDataQueue) j _
    (atomic_update_self h.atomic hstatus) fun _ ↦ rfl, h.phase.congr rfl rfl rfl⟩

/-- A consumer has seen an empty queue: there is nothing in the sequential one either. -/
theorem countNone (h : Refines mBlocks s q) {j n : ℕ} (hp : s.consumers j = .count n)
    (hqueue : s.mDataQueue = []) (hgap : gap s.inner = .closed) :
    Refines mBlocks
      ((s.access .count s.mDataQueue).setConsumer j (.done n YHElement.empty)) q := by
  obtain rfl : q = [] := by
    cases h.phase with
    | level _ hq => exact hq.trans hqueue
    | dropped _ _ _ hgap' => exact Gap.noConfusion (hgap'.symm.trans hgap)
    | served _ _ hgap' => exact Gap.noConfusion (hgap'.symm.trans hgap)
  have hcommit := h.atomic.commit (p := .consumer j) (by rw [status, hp, consumerStatus])
  exact ⟨atomic_of_consumer (s.access .count s.mDataQueue) j (.done n YHElement.empty) hcommit
    fun _ ↦ rfl, h.phase.congr rfl rfl rfl⟩

/-- **A consumer dequeues.** In a gap in which it is the first one, the call of the producer takes
effect just before its own. -/
theorem take (h : Refines mBlocks s q) {j n : ℕ} {e : YHElement} {rest : List YHElement}
    (hp : s.consumers j = .dequeue n) (hqueue : s.mDataQueue = e :: rest) :
    ∃ q', Refines mBlocks ((s.access .dequeue rest).setConsumer j (.done n e)) q' := by
  have hpending : s.status (.consumer j) = .pending n .dequeue := by
    rw [status, hp, consumerStatus]
  cases h.phase with
  | level hgap hq =>
    have hgap' : gap (s.access .dequeue rest).inner = .closed := if_pos hgap
    have hcommit := h.atomic.commit hpending
    rw [hq, hqueue] at hcommit
    refine ⟨rest, atomic_of_consumer (s.access .dequeue rest) j (.done n e) hcommit ?_,
      .level hgap' rfl⟩
    exact status_access (by rw [hgap', hgap])
  | dropped n' e' a hgap hpc hq hfull =>
    have hgap' : gap (s.access .dequeue rest).inner = .served := if_neg (by simp [hgap])
    have henqueue := h.atomic.commit (pending_of_gap hpc (by simp [hgap]))
    rw [hq] at hfull
    rw [hq, dropOldest_enqueue_of_full hfull, hqueue] at henqueue
    have hstill : Function.update s.status .producer
        (.effected n' (.enqueue e') (e :: rest ++ [e'], none).2) (.consumer j) =
          .pending n .dequeue := by
      rw [Function.update_of_ne (by simp), hpending]
    have hdequeue := henqueue.commit hstill
    refine ⟨rest ++ [e'], atomic_of_consumer (s.access .dequeue rest) j (.done n e) hdequeue ?_,
      .served n' e' hgap' hpc rfl⟩
    intro p
    cases p with
    | producer =>
      show producerStatus (gap (s.access .dequeue rest).inner) s.producer = _
      rw [hgap', hpc, Function.update_self]
      rfl
    | consumer j' => exact (Function.update_of_ne (by simp) _ _).symm
    | controller => exact (Function.update_of_ne (by simp) _ _).symm
  | served n' e' hgap hpc hq =>
    have hgap' : gap (s.access .dequeue rest).inner = .served := if_neg (by simp [hgap])
    have hcommit := h.atomic.commit hpending
    rw [hq, hqueue] at hcommit
    refine ⟨rest ++ [e'], atomic_of_consumer (s.access .dequeue rest) j (.done n e) hcommit ?_,
      .served n' e' hgap' hpc rfl⟩
    exact status_access (by rw [hgap', hgap])

theorem returnDequeue (h : Refines mBlocks s q) {j n : ℕ} {e : YHElement}
    (hp : s.consumers j = .done n e) :
    Refines mBlocks ((s.respond (.consumer j) n (some e)).setConsumer j .idle) q := by
  have hrespond := h.atomic.respond (p := .consumer j) (by rw [status, hp, consumerStatus])
  exact ⟨atomic_of_consumer (s.respond (.consumer j) n (some e)) j .idle hrespond fun _ ↦ rfl,
    h.phase.congr rfl rfl rfl⟩

/-! ### The controller -/

theorem invokeClear (h : Refines mBlocks s q) (hp : s.controller = .idle) :
    Refines mBlocks
      { s.invoke .controller .clear with controller := .clear s.history.length } q := by
  have hinvoke := h.atomic.invoke (p := .controller) .clear (by rw [status, hp, controllerStatus])
  exact ⟨atomic_of_controller hinvoke rfl rfl, h.phase.congr rfl rfl rfl⟩

/-- The queue is cleared. In a gap in which nothing was taken, the call of the producer takes effect
afterwards, and drops nothing. -/
theorem clear (h : Refines mBlocks s q) {n : ℕ} (hp : s.controller = .clear n)
    (hgap : gap s.inner ≠ .served) :
    Refines mBlocks { s.access .clear [] with controller := .done n } [] := by
  have hcommit := h.atomic.commit (p := .controller) (by rw [status, hp, controllerStatus])
  refine ⟨atomic_of_controller hcommit ?_ rfl, .level rfl rfl⟩
  show producerStatus .closed s.producer = producerStatus (gap s.inner) s.producer
  exact (producerStatus_of_ne_served hgap s.producer).symm

theorem returnClear (h : Refines mBlocks s q) {n : ℕ} (hp : s.controller = .done n) :
    Refines mBlocks { s.respond .controller n none with controller := .idle } q := by
  have hrespond := h.atomic.respond (p := .controller) (by rw [status, hp, controllerStatus])
  exact ⟨atomic_of_controller hrespond rfl rfl, h.phase.congr rfl rfl rfl⟩

theorem initial : Refines mBlocks YHbuffer.initial [] := by
  have hstatus : YHbuffer.initial.status = fun _ ↦ .idle := by
    funext p
    cases p <;> rfl
  refine ⟨?_, .level rfl rfl⟩
  rw [hstatus]
  exact .init

/-- **Every undisturbed step is a number of moves of the atomic object.** -/
theorem step {t : YHbuffer} {a : Label} (h : Refines mBlocks s q) (hpos : 1 ≤ mBlocks)
    (hb : Bounded mBlocks s)
    (hok : undisturbed mBlocks s a = true) (hst : Move mBlocks s a t) :
    ∃ q', Refines mBlocks t q' := by
  cases hst with
  | invokeEnqueue data len e hp => exact ⟨q, h.invokeEnqueue hp e⟩
  | invokeDequeue j hp => exact ⟨q, h.invokeDequeue hp⟩
  | invokeClear hp => exact ⟨q, h.invokeClear hp⟩
  | countFull n e hp => exact ⟨q, h.count hp _ (Or.inl rfl)⟩
  | countRoom n e hp => exact ⟨q, h.count hp _ (Or.inr rfl)⟩
  | drop n e a rest hp hqueue =>
    have hfull : s.mDataQueue.length = mBlocks := by simpa [undisturbed, hp] using hok
    exact ⟨q, h.drop hp hqueue hfull⟩
  | dropFault n e hp hqueue =>
    have hfull : s.mDataQueue.length = mBlocks := by simpa [undisturbed, hp] using hok
    rw [hqueue, List.length_nil] at hfull
    exact absurd hpos (by omega)
  | enqueue n e hp => exact ⟨_, h.enqueue hb hp⟩
  | returnEnqueue n e hp => exact ⟨q, h.returnEnqueue hp⟩
  | countSome j n hp => exact ⟨q, h.countSome hp⟩
  | countNone j n hp hqueue =>
    have hgap : gap s.inner = .closed := by simpa [undisturbed, hp, hqueue] using hok
    exact ⟨q, h.countNone hp hqueue hgap⟩
  | take j n e rest hp hqueue => exact h.take hp hqueue
  | takeFault j n hp hqueue => simp [undisturbed, hp, hqueue] at hok
  | returnDequeue j n e hp => exact ⟨q, h.returnDequeue hp⟩
  | clear n hp =>
    have hgap : gap s.inner ≠ .served := by simpa [undisturbed, hp] using hok
    exact ⟨[], h.clear hp hgap⟩
  | returnClear n hp => exact ⟨q, h.returnClear hp⟩

end Refines

/-! ### The record of the accesses -/

/-- The accesses recorded were made where they should. -/
def Orderly (mBlocks : ℕ) (inner : List (Inner × ℕ)) : Prop :=
  ∀ r ∈ inner, (r.1 = .drop → r.2 = mBlocks) ∧ (r.1 = .dequeue → 0 < r.2)

/-- An undisturbed step adds at most one access to the record, with the `Count` it finds. -/
theorem Orderly.step {mBlocks : ℕ} {s t : YHbuffer} {a : Label} (h : Orderly mBlocks s.inner)
    (hok : undisturbed mBlocks s a = true) (hst : Move mBlocks s a t) :
    Orderly mBlocks t.inner := by
  have hcons : ∀ op : Inner, (op = .drop → s.mDataQueue.length = mBlocks) →
      (op = .dequeue → 0 < s.mDataQueue.length) →
      Orderly mBlocks ((op, s.mDataQueue.length) :: s.inner) := by
    intro op hdrop hdequeue r hr
    rcases List.mem_cons.1 hr with rfl | hr
    · exact ⟨hdrop, hdequeue⟩
    · exact h r hr
  cases hst with
  | invokeEnqueue | invokeDequeue | invokeClear | returnEnqueue | returnDequeue | returnClear =>
    exact h
  | countFull | countRoom | countSome | countNone | enqueue | clear =>
    exact hcons _ (fun hop ↦ Inner.noConfusion hop) fun hop ↦ Inner.noConfusion hop
  | drop n e a rest hp | dropFault n e hp =>
    refine hcons .drop (fun _ ↦ ?_) fun hop ↦ Inner.noConfusion hop
    simpa [undisturbed, hp] using hok
  | take j n e rest hp hqueue =>
    refine hcons .dequeue (fun hop ↦ Inner.noConfusion hop) fun _ ↦ ?_
    rw [hqueue]
    exact Nat.succ_pos _
  | takeFault j n hp hqueue => simp [undisturbed, hp, hqueue] at hok

theorem orderly_of_reachable {mBlocks : ℕ} {s : YHbuffer}
    (h : Reachable mBlocks (undisturbed mBlocks) s) : Orderly mBlocks s.inner := by
  induction h with
  | init h =>
    subst h
    exact fun r hr ↦ absurd hr List.not_mem_nil
  | step _ hok hst ih => exact ih.step hok (move_of_step hst)

/-- **An undisturbed buffer refines the atomic object.** -/
theorem refines_of_reachable {mBlocks : ℕ} (hpos : 1 ≤ mBlocks) {s : YHbuffer}
    (h : Reachable mBlocks (undisturbed mBlocks) s) : ∃ q, Refines mBlocks s q := by
  induction h with
  | init h =>
    subst h
    exact ⟨[], .initial⟩
  | step hr hok hst ih =>
    obtain ⟨q, hq⟩ := ih
    exact hq.step hpos (bounded_of_reachable hr) hok (move_of_step hst)

/-! ### The law -/

/-- **An undisturbed buffer is a queue.** For every capacity from one on, in every run in which the
producer makes room only in a queue that is still full, consumers dequeue only from a queue that is
not empty and find it empty only while there is no gap, and the controller does not clear it in a
gap in which elements were taken: no inner `Dequeue` is executed on an empty queue, `Count` never
exceeds the capacity, elements are dropped only from a full queue, and the calls are those of a
bounded drop-oldest queue. -/
theorem buffer_is_queue {mBlocks : ℕ} (hpos : 1 ≤ mBlocks) {s : YHbuffer}
    (h : Reachable mBlocks (undisturbed mBlocks) s) : IsQueue mBlocks s := by
  have horderly := orderly_of_reachable h
  obtain ⟨q, hq⟩ := refines_of_reachable hpos h
  refine ⟨fun n hn ↦ ?_, (bounded_of_reachable h).length_le, fun n hn ↦ (horderly _ hn).1 rfl,
    hq.atomic.linearizable⟩
  rcases hn with hn | hn
  · have hfull : n = mBlocks := (horderly _ hn).1 rfl
    omega
  · exact (horderly _ hn).2 rfl

/-- Eight zero bytes. -/
def someData : Option (List UInt8) := some (List.replicate 8 0)

/-- A buffer of one place: a consumer dequeues while the producer enqueues a second element. -/
theorem buffer_is_queue_one : ∃ s : YHbuffer, IsQueue 1 s ∧
    (.drop, 1) ∈ s.inner ∧ (.dequeue, 1) ∈ s.inner := by
  obtain ⟨s, hs, hp⟩ := exists_reachable 1 (undisturbed 1)
    ([.enqueue someData 8] ++ List.replicate 3 (.next .producer) ++
      [.enqueue someData 8, .dequeue 0, .next .producer, .next (.consumer 0), .next .producer,
        .next .producer, .next (.consumer 0), .next (.consumer 0), .next .producer])
    (fun s ↦ s.inner.contains (.drop, 1) && s.inner.contains (.dequeue, 1))
    (by decide +kernel)
  rw [Bool.and_eq_true, List.contains_iff_mem, List.contains_iff_mem] at hp
  exact ⟨s, buffer_is_queue (le_refl 1) hs, hp⟩

/-- **In general it is not.** Two consumers see the one element; both dequeue. -/
theorem not_buffer_is_queue : ¬ ∀ mBlocks : ℕ, 1 ≤ mBlocks → ∀ s : YHbuffer,
    Reachable mBlocks Runs.everyStep s → IsQueue mBlocks s := by
  intro hall
  obtain ⟨s, hs, hp⟩ := exists_reachable 10 Runs.everyStep
    ([.enqueue someData 8] ++ List.replicate 3 (.next .producer) ++
      [.dequeue 0, .dequeue 1, .next (.consumer 0), .next (.consumer 1), .next (.consumer 0),
        .next (.consumer 1)])
    (fun s ↦ s.inner.contains (.dequeue, 0))
    (by decide +kernel)
  rw [List.contains_iff_mem] at hp
  exact absurd ((hall 10 (by decide) s hs).not_empty 0 (Or.inr hp)) (Nat.lt_irrefl 0)

end YHbuffer

end YHAudioLink
