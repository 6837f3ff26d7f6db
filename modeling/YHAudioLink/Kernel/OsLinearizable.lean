import YHAudioLink.Kernel.OsScheduling

/-!
# Semaphores and queues are linearizable

Tasks and interrupt handlers post to events and pend on them, with any timeouts, any preemption and
any number of tasks waiting. All that can be seen of it, the calls and what they return, is what
could be seen of calls that happen one after the other on counters and bounded FIFOs
(`os_linearizable`): no token or message is lost, given twice, or made up, and no pend times out at
an event that has something.

A call takes effect in its first critical section, with two exceptions.

* A pend that waits takes effect when it is granted, in the critical section of the *post* that
  wakes it: the post puts a token or a message into an event that has none, and the pend takes it
  out again at once.
* A pend that times out takes effect in its second critical section, not when the timer makes the
  task ready. Up to then it is listed, and a post may still grant what it waits for. Being listed,
  it finds an event that has nothing.

The sequential object has no waiting: what a pend without a timeout returns at an event that has
nothing is `OS_ERR_PEND_ABORT`, which no call of a run ever returns.
-/

namespace YHAudioLink

open Linearizability OsKernel

/-! ### The sequential object -/

/-- What an event is to its users. -/
inductive OsObject
  | unused
  | sem (cnt : ℕ)
  | q (size : ℕ) (msgs : List VoidPtr)

namespace OsObject

/-- A post at one moment. -/
def post : OsObject → OsPosted → OsObject × OsError
  | sem cnt, .sem => if cnt < 65535 then (sem (cnt + 1), .none) else (sem cnt, .semOvf)
  | q size msgs, .q msg =>
    if msgs.length < size then (q size (msgs ++ [msg]), .none) else (q size msgs, .qFull)
  | ob, _ => (ob, .eventType)

/-- What there is to return where there is nothing to take. -/
def nothing (timeout : UInt32) : OsRet := ⟨if timeout = 0 then .pendAbort else .timeout, 0⟩

/-- A pend at one moment. -/
def pend : OsObject → OsKind → UInt32 → OsObject × OsRet
  | sem (cnt + 1), .sem, _ => (sem cnt, ⟨.none, 0⟩)
  | sem 0, .sem, timeout => (sem 0, nothing timeout)
  | q size (msg :: msgs), .q, _ => (q size msgs, ⟨.none, msg⟩)
  | q size [], .q, timeout => (q size [], nothing timeout)
  | ob, _, _ => (ob, ⟨.eventType, 0⟩)

/-! The semaphores and queues the board's tasks are modelled with are this object: what they leave
out is the wait. -/

theorem post_sem (cnt : ℕ) : ((sem cnt).post .sem).1 = sem (osSemPost cnt) := by
  rw [post, osSemPost]
  split <;> rfl

theorem pend_sem (cnt : ℕ) : (sem cnt).pend .sem 0 =
    match osSemPend cnt with
    | some cnt' => (sem cnt', ⟨.none, 0⟩)
    | none => (sem cnt, nothing 0) := by
  cases cnt <;> rfl

/-- A bounded FIFO of the kernel. -/
def ofQ (fifo : OsQ) : OsObject := q fifo.osqSize fifo.msgs

theorem post_q (fifo : OsQ) (msg : VoidPtr) :
    ((ofQ fifo).post (.q msg)).1 = ofQ (osqPost fifo msg).2 := by
  by_cases hroom : fifo.msgs.length < fifo.osqSize
  · rw [osqPost, dif_pos hroom]
    exact congrArg Prod.fst (if_pos hroom)
  · rw [osqPost, dif_neg hroom]
    exact congrArg Prod.fst (if_neg hroom)

theorem pend_q (fifo : OsQ) : (ofQ fifo).pend .q 0 =
    match osqPend fifo 0 with
    | some (msg, _, fifo') => (ofQ fifo', ⟨.none, msg⟩)
    | none => (ofQ fifo, nothing 0) := by
  obtain ⟨size, msgs, hbounded⟩ := fifo
  cases msgs <;> rfl

end OsObject

/-- **The events as one sequential object.** -/
def osObjects (events : OsEventId → OsObject) : Object (OsEventId → OsObject) OsOp OsRet where
  init := events
  apply events
    | .post e what =>
      let (ob, err) := (events e).post what
      (Function.update events e ob, ⟨err, 0⟩)
    | .pend e kind timeout =>
      let (ob, ret) := (events e).pend kind timeout
      (Function.update events e ob, ret)

/-- What an event control block stands for. -/
def OsEvent.object (ev : OsEvent) : OsObject :=
  match ev.osEventType with
  | none => .unused
  | some .sem => .sem ev.osEventCnt
  | some .q => .q ev.osEventPtr.osqSize ev.osEventPtr.msgs

/-! ### One event -/

section Event

variable {ev ev' : OsEvent} {kind : OsKind} {what : OsPosted} {timeout : UInt32} {msg : VoidPtr}

theorem object_of_sem (h : ev.osEventType = some .sem) : ev.object = .sem ev.osEventCnt := by
  rw [OsEvent.object, h]

theorem object_of_q (h : ev.osEventType = some .q) :
    ev.object = .q ev.osEventPtr.osqSize ev.osEventPtr.msgs := by
  rw [OsEvent.object, h]

/-- The wait list does not matter. -/
theorem object_congr (htype : ev'.osEventType = ev.osEventType)
    (hcnt : ev'.osEventCnt = ev.osEventCnt) (hptr : ev'.osEventPtr = ev.osEventPtr) :
    ev'.object = ev.object := by
  rw [OsEvent.object, OsEvent.object, htype, hcnt, hptr]

/-- A post to an event of another type. -/
theorem object_post_of_ne (h : ev.osEventType ≠ some what.kind) :
    ev.object.post what = (ev.object, .eventType) := by
  rw [OsEvent.object]
  rcases htype : ev.osEventType with - | - | -
  · rfl
  · cases what with
    | sem => exact absurd htype h
    | q msg => rfl
  · cases what with
    | sem => rfl
    | q msg => exact absurd htype h

/-- A pend on an event of another type. -/
theorem object_pend_of_ne (h : ev.osEventType ≠ some kind) :
    ev.object.pend kind timeout = (ev.object, ⟨.eventType, 0⟩) := by
  rw [OsEvent.object]
  rcases htype : ev.osEventType with - | - | -
  · rfl
  · cases kind with
    | sem => exact absurd htype h
    | q => cases ev.osEventCnt <;> rfl
  · cases kind with
    | sem => cases ev.osEventPtr.msgs <;> rfl
    | q => exact absurd htype h

/-- What a post stores, the object stores. -/
theorem object_post_store (hok : EventOk ev) (h : ev.osEventType = some what.kind) :
    ev.object.post what = ((what.store ev).2.object, (what.store ev).1) := by
  cases what with
  | sem =>
    rw [object_of_sem h]
    have hone : ({ ev with osEventCnt := ev.osEventCnt + 1 } : OsEvent).object =
      .sem (ev.osEventCnt + 1) := object_of_sem h
    simp only [OsObject.post, OsPosted.store]
    split
    · exact congrArg (·, OsError.none) hone.symm
    · exact congrArg (·, OsError.semOvf) (object_of_sem h).symm
  | q msg =>
    rw [object_of_q h]
    simp only [OsObject.post, OsPosted.store, OsQcb.length_msgs]
    by_cases hroom : ev.osEventPtr.osqEntries < ev.osEventPtr.osqSize
    · obtain ⟨-, hput⟩ := OsQcb.put_of_lt (hok.wf h) hroom msg
      have hone : ({ ev with osEventPtr := ev.osEventPtr.put msg } : OsEvent).object =
        .q ev.osEventPtr.osqSize (ev.osEventPtr.put msg).msgs := object_of_q h
      rw [if_pos hroom, if_neg (Nat.not_le.2 hroom), ← hput]
      exact congrArg (·, OsError.none) hone.symm
    · rw [if_neg hroom, if_pos (Nat.not_lt.1 hroom), object_of_q h]

/-- What a pend takes out, the object gives. -/
theorem object_pend_fetch (hok : EventOk ev) (h : ev.osEventType = some kind)
    (hfetch : kind.fetch ev = some (msg, ev')) :
    ev.object.pend kind timeout = (ev'.object, ⟨.none, msg⟩) := by
  cases kind with
  | sem =>
    simp only [OsKind.fetch] at hfetch
    split at hfetch
    · next hpos =>
      obtain ⟨rfl, rfl⟩ := Prod.mk.inj (Option.some.inj hfetch)
      obtain ⟨cnt, hcnt⟩ : ∃ cnt, ev.osEventCnt = cnt + 1 := ⟨_, (Nat.sub_add_cancel hpos).symm⟩
      have hone : ({ ev with osEventCnt := ev.osEventCnt - 1 } : OsEvent).object =
        .sem (ev.osEventCnt - 1) := object_of_sem h
      rw [object_of_sem h, hone, hcnt]
      rfl
    · cases hfetch
  | q =>
    simp only [OsKind.fetch] at hfetch
    split at hfetch
    · next hpos =>
      obtain ⟨rfl, rfl⟩ := Prod.mk.inj (Option.some.inj hfetch)
      obtain ⟨-, hmsgs⟩ := OsQcb.take_of_pos (hok.wf h) hpos
      have hone : ({ ev with osEventPtr := ev.osEventPtr.take.2 } : OsEvent).object =
        .q ev.osEventPtr.osqSize ev.osEventPtr.take.2.msgs := object_of_q h
      rw [object_of_q h, hone, hmsgs]
      rfl
    · cases hfetch

/-- An event that has nothing. -/
theorem object_of_fetch_none (h : ev.osEventType = some kind) (hnone : kind.fetch ev = none) :
    ev.object = match kind with
      | .sem => .sem 0
      | .q => .q ev.osEventPtr.osqSize [] := by
  cases kind with
  | sem =>
    simp only [OsKind.fetch] at hnone
    split at hnone
    · cases hnone
    · next hzero => rw [object_of_sem h, Nat.eq_zero_of_not_pos hzero]
  | q =>
    simp only [OsKind.fetch] at hnone
    split at hnone
    · cases hnone
    · next hzero =>
      have hlen := @OsQcb.length_msgs ev.osEventPtr
      rw [Nat.eq_zero_of_not_pos hzero] at hlen
      rw [object_of_q h, List.eq_nil_of_length_eq_zero hlen]

/-- Where a pend finds nothing, the object has nothing. -/
theorem object_pend_none (h : ev.osEventType = some kind) (hnone : kind.fetch ev = none) :
    ev.object.pend kind timeout = (ev.object, OsObject.nothing timeout) := by
  rw [object_of_fetch_none h hnone]
  cases kind <;> rfl

/-- **A token or message handed on**: where there is nothing, a post and then a pend. -/
theorem object_hand_on (hok : EventOk ev) (h : ev.osEventType = some what.kind)
    (hnone : what.kind.fetch ev = none) (timeout : UInt32) :
    ∃ ob, ev.object.post what = (ob, .none) ∧
      ob.pend what.kind timeout = (ev.object, ⟨.none, what.msg⟩) := by
  rw [object_of_fetch_none h hnone]
  cases what with
  | sem => exact ⟨.sem 1, rfl, rfl⟩
  | q msg =>
    have hpos : 0 < ev.osEventPtr.osqSize := Nat.zero_lt_of_lt (hok.wf h).in_lt
    exact ⟨.q ev.osEventPtr.osqSize [msg], if_pos hpos, rfl⟩

end Event

/-! ### The calls of the tasks -/

namespace OsKernel

variable {k k' : OsKernel} {p q : OsPrio} {e : OsEventId} {kind : OsKind} {timeout : UInt32}
  {clock : OsPrio → ℕ} {next : OsNext} {f : OsPrio → OsNext} {what : OsPosted} {ob : OsObject}

/-- What the events stand for. -/
def objects (k : OsKernel) : OsEventId → OsObject := fun e ↦ (k.osEventTbl e).object

/-- **Where a task's call is.** A pend that waits is pending as long as the task is listed. -/
def status (k : OsKernel) (p : OsPrio) : OsNext → Status OsOp OsRet
  | .app => .idle
  | .dly _ => .idle
  | .ret n op ret => .effected n op ret
  | .pend n e kind timeout _ =>
    if p ∈ k.waits e then .pending n (.pend e kind timeout)
    else .effected n (.pend e kind timeout)
      ⟨.none, if kind = .q then (k.osTcbPrioTbl p).osTcbMsg else 0⟩

/-- The frame rule for it: the timer may change the rest of the control block. -/
theorem status_congr (hwaits : ∀ e, p ∈ k'.waits e ↔ p ∈ k.waits e)
    (hmsg : (k'.osTcbPrioTbl p).osTcbMsg = (k.osTcbPrioTbl p).osTcbMsg) :
    k'.status p next = k.status p next := by
  cases next with
  | pend n e kind timeout due => simp only [status, hwaits, hmsg]
  | _ => rfl

theorem Same.status (h : Same k k' p) : k'.status p next = k.status p next :=
  status_congr h.waits (congrArg OsTcb.osTcbMsg h.tcb)

/-- The objects after one event has changed. -/
theorem objects_update {ev : OsEvent}
    (h : k'.osEventTbl = Function.update k.osEventTbl e ev) :
    k'.objects = Function.update k.objects e ev.object := by
  funext e'
  rw [objects, h]
  exact Function.apply_update (fun _ ↦ OsEvent.object) k.osEventTbl e ev e'

theorem objects_update_self (h : (k.osEventTbl e).object = ob) :
    Function.update k.objects e ob = k.objects := by
  rw [← h]
  exact Function.update_eq_self e k.objects

theorem objects_setEvent (k : OsKernel) (e : OsEventId) (ev : OsEvent) :
    (k.setEvent e ev).objects = Function.update k.objects e ev.object :=
  objects_update rfl

/-- Another wait list does not matter. -/
theorem objects_of_waits {tbl : OsTbl} (h : k'.osEventTbl = Function.update k.osEventTbl e
    { k.osEventTbl e with osEventTbl := tbl }) : k'.objects = k.objects := by
  rw [objects_update h]
  exact objects_update_self (object_congr rfl rfl rfl)

/-- **Nothing that a call shows has changed**: the events, their wait lists, and the messages that
have been granted. -/
structure Quiet (k k' : OsKernel) : Prop where
  event : k'.osEventTbl = k.osEventTbl
  msg : ∀ p, (k'.osTcbPrioTbl p).osTcbMsg = (k.osTcbPrioTbl p).osTcbMsg

namespace Quiet

theorem objects (h : Quiet k k') : k'.objects = k.objects := by
  funext e
  show (k'.osEventTbl e).object = (k.osEventTbl e).object
  rw [h.event]

theorem status (h : Quiet k k') (p : OsPrio) (next : OsNext) : k'.status p next = k.status p next :=
  status_congr (fun e ↦ by rw [waits, waits, h.event]) (h.msg p)

/-- A control block that keeps its message. -/
theorem setTcb {tcb : OsTcb} (h : tcb.osTcbMsg = (k.osTcbPrioTbl p).osTcbMsg) :
    Quiet k (k.setTcb p tcb) := by
  refine ⟨rfl, fun q ↦ ?_⟩
  by_cases heq : q = p
  · rw [heq, setTcb_self, h]
  · rw [setTcb_of_ne heq]

end Quiet

theorem quiet_osSched (k : OsKernel) : Quiet k k.osSched := by
  rw [osSched]
  split <;> exact ⟨rfl, fun _ ↦ rfl⟩

theorem quiet_osIntEnter (k : OsKernel) : Quiet k k.osIntEnter := by
  rw [osIntEnter]
  split <;> exact ⟨rfl, fun _ ↦ rfl⟩

theorem quiet_osIntExit (k : OsKernel) : Quiet k k.osIntExit := by
  rw [osIntExit]
  dsimp only
  split <;> exact ⟨rfl, fun _ ↦ rfl⟩

theorem quiet_osSchedLock (k : OsKernel) : Quiet k k.osSchedLock := by
  rw [osSchedLock]
  split <;> exact ⟨rfl, fun _ ↦ rfl⟩

theorem quiet_osSchedUnlock (k : OsKernel) : Quiet k k.osSchedUnlock.2 := by
  rw [osSchedUnlock]
  split <;> exact ⟨rfl, fun _ ↦ rfl⟩

theorem quiet_osTimeDly (k : OsKernel) (sleep : UInt32) : Quiet k (k.osTimeDly sleep).2 := by
  have hsame : Quiet k k := ⟨rfl, fun _ ↦ rfl⟩
  rw [osTimeDly]
  split
  · exact hsame
  · split
    · exact hsame
    · split
      · exact ⟨rfl, fun q ↦ (@Quiet.setTcb k k.osPrioCur
          { k.osTcbPrioTbl k.osPrioCur with osTcbDly := sleep.toNat } rfl).msg q⟩
      · exact hsame

theorem quiet_osTimeTickTask (k : OsKernel) (p : OsPrio) : Quiet k (k.osTimeTickTask p) := by
  have hset : ∀ {tcb : OsTcb}, tcb.osTcbMsg = (k.osTcbPrioTbl p).osTcbMsg →
      Quiet k { k.setTcb p tcb with osRdyTbl := (k.setTcb p tcb).osRdyTbl.insert p } :=
    fun hmsg ↦ ⟨rfl, (Quiet.setTcb hmsg).msg⟩
  rw [osTimeTickTask]
  dsimp only
  split
  · split
    · split <;> split <;> first | exact hset rfl | exact Quiet.setTcb rfl
    · exact Quiet.setTcb rfl
  · exact ⟨rfl, fun _ ↦ rfl⟩

theorem quiet_osTimeTick (k : OsKernel) : Quiet k k.osTimeTick.2 :=
  ⟨rfl, fun _ ↦ rfl⟩

/-! ### The effects of posts and pends -/

section Effects

variable {history : List (Event (Option OsPrio × ℕ) OsOp OsRet)}
  {st : Option OsPrio → Status OsOp OsRet} {events : OsEventId → OsObject}
  {party : Option OsPrio} {n : ℕ}

theorem apply_post {err : OsError} (h : (k.osEventTbl e).object.post what = (ob, err)) :
    (osObjects events).apply k.objects (.post e what) =
      (Function.update k.objects e ob, ⟨err, 0⟩) := by
  simp only [osObjects, objects, h]

theorem apply_pend {ret : OsRet} (h : (k.osEventTbl e).object.pend kind timeout = (ob, ret)) :
    (osObjects events).apply k.objects (.pend e kind timeout) =
      (Function.update k.objects e ob, ret) := by
  simp only [osObjects, objects, h]

/-- **A post takes effect**, and with it the pend of the task it wakes. -/
theorem commit_post (h : Atomic (osObjects events) history st k.objects) (hok : k.Ok clock f)
    (hparty : st party = .pending n (.post e what))
    (hothers : ∀ q, some q ≠ party → st (some q) = k.status q (f q))
    (hfree : ∀ w ∈ k.waits e, some w ≠ party) :
    ∃ st', Atomic (osObjects events) history st' (k.osPostOf e what).2.2.objects ∧
      st' party = .effected n (.post e what) ⟨(k.osPostOf e what).1, 0⟩ ∧
      (∀ q, some q ≠ party → st' (some q) = (k.osPostOf e what).2.2.status q (f q)) ∧
      (none ≠ party → st' none = st none) := by
  rcases osPostOf_cases k e what with ⟨htype, hpost⟩ | ⟨htype, hlisted, hpost⟩ |
    ⟨htype, hnobody, hpost⟩
  · have hcommit := h.commit_of_apply hparty (apply_post (object_post_of_ne htype))
    rw [objects_update_self rfl] at hcommit
    rw [hpost]
    refine ⟨_, hcommit, Function.update_self _ _ _, fun q hq ↦ ?_, fun hne ↦ ?_⟩
    · rw [Function.update_of_ne hq]
      exact hothers q hq
    · exact Function.update_of_ne hne _ _
  · obtain ⟨-, m, kind, timeout, due, hnext, hpend⟩ := hok.pending_of_listed hlisted
    obtain rfl : kind = what.kind := Option.some.inj (hpend.type.symm.trans htype)
    obtain ⟨k', hk', hgrant, hmsg, hsame, -, -, -, -, -, hevent⟩ :=
      osEventTaskRdy_of_pending rfl hlisted hpend what.msg
    have hnone := (hok.event e).fetch_none htype ⟨_, hlisted⟩
    obtain ⟨ob, hpost', hpend'⟩ := object_hand_on (hok.event e) htype hnone timeout
    have hobjects : k'.objects = k.objects := objects_of_waits hevent
    have hw : st (some (k.waits e).highest) =
        .pending m (.pend e what.kind timeout) := by
      rw [hothers _ (hfree _ hlisted), hnext]
      exact if_pos hlisted
    -- the post makes the event have something, and the pend takes it
    have hcommit := h.commit_of_apply hparty (apply_post hpost')
    have hstep : (osObjects events).apply (Function.update k.objects e ob)
        (.pend e what.kind timeout) = (k.objects, ⟨.none, what.msg⟩) := by
      simp only [osObjects, Function.update_self, hpend', Function.update_idem]
      rw [objects_update_self rfl]
    have hcommit' := hcommit.commit_of_apply (p := some (k.waits e).highest)
      ((Function.update_of_ne (hfree _ hlisted) _ _).trans hw) hstep
    rw [hpost, hk']
    refine ⟨_, hobjects ▸ hcommit', ?_, fun q hq ↦ ?_, fun hne ↦ ?_⟩
    · rw [Function.update_of_ne (hfree _ hlisted).symm]
      exact Function.update_self _ _ _
    · by_cases heq : q = (k.waits e).highest
      · rw [heq, Function.update_self, hnext]
        show _ = k'.status _ (.pend m e what.kind timeout due)
        rw [OsKernel.status, if_neg hgrant.notListed, hmsg]
        cases what <;> rfl
      · rw [Function.update_of_ne (fun hsome ↦ heq (Option.some.inj hsome)),
          Function.update_of_ne hq, hothers q hq]
        exact (hsame q heq).status.symm
    · rw [Function.update_of_ne (Option.some_ne_none _).symm]
      exact Function.update_of_ne hne _ _
  · obtain ⟨htype', hlist'⟩ := store_frame what (k.osEventTbl e)
    have hcommit := h.commit_of_apply hparty (apply_post (object_post_store (hok.event e) htype))
    rw [← objects_setEvent] at hcommit
    rw [hpost]
    refine ⟨_, hcommit, Function.update_self _ _ _, fun q hq ↦ ?_, fun hne ↦ ?_⟩
    · rw [Function.update_of_ne hq, hothers q hq]
      exact (setEvent_same htype' hlist' q).status.symm
    · exact Function.update_of_ne hne _ _

end Effects

end OsKernel

/-! ### The steps -/

namespace OsRun

variable {s t : OsRun} {events : OsEventId → OsObject} {next next' : OsNext} {k : OsKernel}

/-- The calls of all parties; an interrupt handler is never in the middle of one. -/
def status (s : OsRun) : Option OsPrio → Status OsOp OsRet
  | none => .idle
  | some p => s.k.status p (s.pc p).next

/-- The run is explained by the sequential object. -/
def Explained (events : OsEventId → OsObject) (s : OsRun) : Prop :=
  Atomic (osObjects events) s.history s.status s.k.objects

/-- Statuses that agree with the ones of the run explain it. -/
theorem Explained.of_atomic (st : Option OsPrio → Status OsOp OsRet)
    (h : Atomic (osObjects events) s.history st s.k.objects) (hnone : st none = .idle)
    (hsome : ∀ p, st (some p) = s.k.status p (s.pc p).next) : s.Explained events := by
  have hst : st = s.status := by
    funext party
    cases party with
    | none => exact hnone
    | some p => exact hsome p
  rw [Explained, ← hst]
  exact h

/-- **The running task moves**: its new status, and that the others keep theirs. -/
theorem explained_goto (st : Option OsPrio → Status OsOp OsRet) {pc : OsPc}
    (h : Atomic (osObjects events) s.history st k.objects) (hnone : st none = .idle)
    (hself : st (some s.k.osPrioCur) = k.status s.k.osPrioCur pc.next)
    (hothers : ∀ q, q ≠ s.k.osPrioCur → st (some q) = k.status q (s.pc q).next) :
    (s.goto k pc).Explained events := by
  refine Explained.of_atomic st h hnone fun q ↦ ?_
  rw [goto_k]
  by_cases heq : q = s.k.osPrioCur
  · rw [heq, goto_pc_self]
    exact hself
  · rw [goto_pc_of_ne heq]
    exact hothers q heq

/-- A task that stands in its own code, or returns to it, has no call. -/
theorem status_cur (hpc : s.pc s.k.osPrioCur = .past next) :
    s.status (some s.k.osPrioCur) = s.k.status s.k.osPrioCur next := by
  show s.k.status s.k.osPrioCur (s.pc s.k.osPrioCur).next = _
  rw [hpc]
  rfl

/-- The running task moves without a call. -/
theorem Explained.silent (h : s.Explained events) {pc : OsPc} (hquiet : Quiet s.k k)
    (hself : k.status s.k.osPrioCur pc.next = s.k.status s.k.osPrioCur (s.pc s.k.osPrioCur).next) :
    (s.goto k pc).Explained events := by
  refine explained_goto s.status ?_ rfl hself.symm fun q _ ↦ (hquiet.status q _).symm
  rw [hquiet.objects]
  exact h

/-- Or it goes on in its own code. -/
theorem Explained.silent_app (h : s.Explained events) (hpc : s.pc s.k.osPrioCur = .past .app)
    {pc : OsPc} (hquiet : Quiet s.k k) (hidle : k.status s.k.osPrioCur pc.next = .idle) :
    (s.goto k pc).Explained events := by
  refine h.silent hquiet (hidle.trans ?_)
  rw [hpc]
  rfl

theorem Explained.call_post (h : s.Explained events) (hinv : s.Inv)
    (hpc : s.pc s.k.osPrioCur = .past .app) (e : OsEventId) (what : OsPosted) :
    (s.call (.op (.post e what))).Explained events := by
  obtain ⟨hrun, -⟩ := hinv.running hpc
  obtain ⟨st, hatomic, hself, hothers, hnone⟩ :=
    commit_post (Atomic.invoke (.post e what) h (status_cur hpc)) hinv.ok
      (Function.update_self _ _ _) (fun q hq ↦ Function.update_of_ne hq _ _)
      (fun w hw hsome ↦ hrun.nowhere e (Option.some.inj hsome ▸ hw))
  obtain ⟨⟨err, resched, k⟩, hpost⟩ : ∃ r, s.k.osPostOf e what = r := ⟨_, rfl⟩
  rw [hpost] at hatomic hself hothers
  simp only [call, hpost]
  refine explained_goto st hatomic ?_ ?_ fun q hq ↦ hothers q fun hsome ↦ hq (Option.some.inj hsome)
  · rw [hnone (Option.some_ne_none _).symm]
    exact Function.update_of_ne (Option.some_ne_none _).symm _ _
  · rw [log_k, hself]
    cases resched <;> rfl

theorem Explained.call_pend (h : s.Explained events) (hinv : s.Inv)
    (hpc : s.pc s.k.osPrioCur = .past .app) (hint : s.k.osIntNesting = 0) (e : OsEventId)
    (kind : OsKind) (timeout : UInt32) : (s.call (.op (.pend e kind timeout))).Explained
      events := by
  obtain ⟨hrun, -⟩ := hinv.running hpc
  have hinvoke := Atomic.invoke (.pend e kind timeout) h (status_cur hpc)
  have hself : Function.update s.status (some s.k.osPrioCur)
      (.pending s.history.length (.pend e kind timeout)) (some s.k.osPrioCur) =
        .pending s.history.length (.pend e kind timeout) := Function.update_self _ _ _
  -- a pend that returns at once has taken effect
  have hreturn : ∀ {k : OsKernel} {ret : OsRet}, (∀ q, Same s.k k q) →
      (osObjects events).apply s.k.objects (.pend e kind timeout) = (k.objects, ret) →
      ((s.log (.invoke (some s.k.osPrioCur, s.history.length) (.pend e kind timeout))).goto k
        (.past (.ret s.history.length (.pend e kind timeout) ret))).Explained events := by
    intro k ret hsame happly
    have hcommit := hinvoke.commit_of_apply hself happly
    refine explained_goto _ hcommit ?_ (Function.update_self _ _ _) fun q hq ↦ ?_
    · rw [Function.update_of_ne (Option.some_ne_none _).symm,
        Function.update_of_ne (Option.some_ne_none _).symm]
      rfl
    · have hne : some q ≠ some s.k.osPrioCur := fun hsome ↦ hq (Option.some.inj hsome)
      rw [Function.update_of_ne hne, Function.update_of_ne hne]
      exact (hsame q).status.symm
  rcases osPendOf_cases s.k e timeout kind with
    ⟨htype, hpend⟩ | ⟨hpos, hpend⟩ | ⟨-, hpend⟩ | ⟨htype, -, -, ⟨msg, ev, hfetch, hpend⟩ |
      ⟨hnone, hpend⟩⟩
  · simp only [call, hpend]
    refine hreturn (fun q ↦ Same.refl _ q) ?_
    rw [apply_pend (object_pend_of_ne htype), objects_update_self rfl]
  · exact absurd hint (Nat.pos_iff_ne_zero.1 hpos)
  · simp only [call, hpend]
    exact h.silent_app hpc ⟨rfl, fun _ ↦ rfl⟩ rfl
  · simp only [call, hpend]
    obtain ⟨htype', hlist'⟩ := fetch_frame hfetch
    refine hreturn (setEvent_same htype' hlist') ?_
    rw [apply_pend (object_pend_fetch (hinv.ok.event e) htype hfetch),
      objects_setEvent]
  · simp only [call, hpend]
    obtain ⟨-, hlisted, hsame, -, hevent⟩ :=
      @osPendWait_of_running _ _ _ (s.ticksOf s.k.osPrioCur) _ timeout rfl hrun htype
    refine explained_goto (Function.update s.status (some s.k.osPrioCur)
      (.pending s.history.length (.pend e kind timeout))) ?_ ?_ ?_ fun q hq ↦ ?_
    · rw [objects_of_waits hevent]
      exact hinvoke
    · exact Function.update_of_ne (Option.some_ne_none _).symm _ _
    · refine hself.trans ?_
      exact (if_pos hlisted).symm
    · have hne : some q ≠ some s.k.osPrioCur := fun hsome ↦ hq (Option.some.inj hsome)
      rw [Function.update_of_ne hne]
      exact (hsame q hq).status.symm

/-- **The return of a call.** A pend that has timed out takes effect here. -/
theorem Explained.resume (h : s.Explained events) (hinv : s.Inv)
    (hpc : s.pc s.k.osPrioCur = .past next) : (s.resume next).Explained events := by
  have htask := hinv.task_cur
  have hready := hinv.standing.resolve_left (not_sched hpc)
  rw [hpc] at htask
  -- a call that has taken effect returns
  have hrespond : ∀ {k : OsKernel} {st : Option OsPrio → Status OsOp OsRet} (n : ℕ) (op : OsOp)
      (ret : OsRet), Atomic (osObjects events) s.history st k.objects →
      st (some s.k.osPrioCur) = .effected n op ret → st none = .idle →
      (∀ q, q ≠ s.k.osPrioCur → st (some q) = k.status q (s.pc q).next) →
      ((s.log (.respond (some s.k.osPrioCur, n) ret)).goto k (.past .app)).Explained events := by
    intro k st n op ret hatomic heffected hnone hothers
    refine explained_goto _ (hatomic.respond heffected) ?_ (Function.update_self _ _ _) fun q hq ↦
      ?_
    · rw [Function.update_of_ne (Option.some_ne_none _).symm]
      exact hnone
    · have hne : some q ≠ some s.k.osPrioCur := fun hsome ↦ hq (Option.some.inj hsome)
      rw [Function.update_of_ne hne]
      exact hothers q hq
  cases next with
  | app => exact h.silent ⟨rfl, fun _ ↦ rfl⟩ (status_cur hpc).symm
  | dly due => exact h.silent ⟨rfl, fun _ ↦ rfl⟩ (status_cur hpc).symm
  | ret n op ret => exact hrespond n op ret h (status_cur hpc) rfl fun q _ ↦ rfl
  | pend n e kind timeout due =>
    obtain ⟨-, hsame, -, -, hcase⟩ := osPendEnd_of_ready rfl htask hready
    obtain ⟨⟨ret, k⟩, hend⟩ : ∃ r, s.k.osPendEnd kind e = r := ⟨_, rfl⟩
    rw [hend] at hsame hcase
    dsimp only at hsame hcase
    simp only [OsRun.resume, hend]
    rcases hcase with ⟨hgrant, hevent, hret⟩ | ⟨hout, hret, hevent⟩
    · have hobjects : k.objects = s.k.objects := by
        funext e'
        exact congrArg (fun events ↦ (events e').object) hevent
      have hatomic : Atomic (osObjects events) s.history s.status k.objects := by
        rw [hobjects]
        exact h
      refine hrespond n (.pend e kind timeout) ret hatomic ?_ rfl fun q hq ↦
        (hsame q hq).status.symm
      rw [status_cur hpc, hret]
      exact if_neg hgrant.notListed
    · have hpending : s.status (some s.k.osPrioCur) = .pending n (.pend e kind timeout) :=
        (status_cur hpc).trans (if_pos hout.listed)
      have hnone := (hinv.ok.event e).fetch_none htask.type ⟨_, hout.listed⟩
      have hcommit := Atomic.commit_of_apply h hpending
        (apply_pend (object_pend_none htask.type hnone))
      rw [objects_update_self rfl, ← objects_of_waits hevent] at hcommit
      refine hrespond n (.pend e kind timeout) ret hcommit ?_ ?_ fun q hq ↦ ?_
      · rw [Function.update_self, hret, OsObject.nothing, if_neg hout.hasTimeout]
      · exact Function.update_of_ne (Option.some_ne_none _).symm _ _
      · have hne : some q ≠ some s.k.osPrioCur := fun hsome ↦ hq (Option.some.inj hsome)
        rw [Function.update_of_ne hne]
        exact (hsame q hq).status.symm

theorem Explained.intPost (h : s.Explained events) (hinv : s.Inv) (e : OsEventId)
    (what : OsPosted) : (s.intPost e what).Explained events := by
  obtain ⟨st, hatomic, hself, hothers, -⟩ :=
    commit_post (Atomic.invoke (.post e what) h (rfl : s.status none = .idle)) hinv.ok
      (Function.update_self _ _ _)
      (fun q hq ↦ Function.update_of_ne hq _ _) (fun w _ ↦ Option.some_ne_none w)
  refine Explained.of_atomic (Function.update st none .idle) ?_ (Function.update_self _ _ _)
    fun q ↦ ?_
  · have hrespond := hatomic.respond hself
    rw [List.append_assoc] at hrespond
    exact hrespond
  · rw [Function.update_of_ne (Option.some_ne_none q)]
    exact hothers q (Option.some_ne_none q)

/-- What happens outside of the calls. -/
theorem Explained.quiet (h : s.Explained events) (hquiet : Quiet s.k k) (ticks nested : ℕ)
    (todo : List OsPrio) : OsRun.Explained events ⟨k, s.pc, ticks, todo, nested, s.history⟩ := by
  refine Explained.of_atomic s.status ?_ rfl fun p ↦ (hquiet.status p _).symm
  show Atomic (osObjects events) s.history s.status k.objects
  rw [hquiet.objects]
  exact h

theorem Explained.call (h : s.Explained events) (hinv : s.Inv)
    (hpc : s.pc s.k.osPrioCur = .past .app) (hint : s.k.osIntNesting = 0) (c : OsCall) :
    (s.call c).Explained events := by
  cases c with
  | op op =>
    cases op with
    | post e what => exact h.call_post hinv hpc e what
    | pend e kind timeout => exact h.call_pend hinv hpc hint e kind timeout
  | timeDly ticks =>
    have hquiet := quiet_osTimeDly s.k ticks
    obtain ⟨⟨resched, k⟩, htime⟩ : ∃ r, s.k.osTimeDly ticks = r := ⟨_, rfl⟩
    rw [htime] at hquiet
    simp only [OsRun.call, htime]
    cases resched <;> exact h.silent_app hpc hquiet rfl
  | schedLock => exact h.silent_app hpc (quiet_osSchedLock s.k) rfl
  | schedUnlock =>
    have hquiet := quiet_osSchedUnlock s.k
    obtain ⟨⟨resched, k⟩, hunlock⟩ : ∃ r, s.k.osSchedUnlock = r := ⟨_, rfl⟩
    rw [hunlock] at hquiet
    simp only [OsRun.call, hunlock]
    cases resched <;> exact h.silent_app hpc hquiet rfl

/-- **Every step is a number of moves of the sequential object.** -/
theorem Explained.step (h : s.Explained events) (hinv : s.Inv) {a : OsAct}
    (hstep : s.step a = some t) : t.Explained events := by
  cases moves_of_step hstep with
  | call c hpc hint hne => exact h.call hinv hpc hint c
  | sched next hpc hint =>
    refine h.silent (quiet_osSched s.k) ?_
    rw [hpc]
    exact (quiet_osSched s.k).status _ _
  | resume next hpc hint => exact h.resume hinv hpc
  | intEnter => exact h.quiet (quiet_osIntEnter s.k) s.ticks (s.nested + 1) s.todo
  | intPost e what hint => exact h.intPost hinv e what
  | intTick hint htodo => exact h.quiet (quiet_osTimeTick s.k) (s.ticks + 1) 0 s.k.osTimeTick.1
  | intTickTask p todo htodo hint hnested =>
    exact h.quiet (quiet_osTimeTickTask s.k p) s.ticks s.nested todo
  | intExit hint => exact h.quiet (quiet_osIntExit s.k) s.ticks (s.nested - 1) s.todo

end OsRun

/-- **Semaphores and queues are linearizable**: whatever the tasks and the interrupt handlers call
and however they are interleaved, the posts and pends of the run are explained by calls one after
the other on counters and bounded FIFOs, which start as the events do. -/
theorem os_linearizable {s₀ s : OsRun} (h₀ : s₀.Init)
    (h : Runs.Reachable (· = s₀) OsRun.step Runs.everyStep s) :
    Linearizable (osObjects s₀.k.objects) s.history := by
  have hinv : ∀ s, Runs.Reachable (· = s₀) OsRun.step Runs.everyStep s → s.Inv := fun s hs ↦
    Runs.Reachable.invariant (fun _ heq ↦ heq ▸ OsRun.inv_of_init h₀)
      (fun _ _ _ hinv _ hstep ↦ hinv.step hstep) hs
  have hinit : s₀.Explained s₀.k.objects := by
    refine OsRun.Explained.of_atomic (fun _ ↦ .idle) ?_ rfl fun p ↦ ?_
    · rw [h₀.history]
      exact Atomic.init
    · rw [h₀.pc p]
      rfl
  have hexplained : s.Explained s₀.k.objects :=
    Runs.Reachable.invariant_of hinv (fun _ heq ↦ heq ▸ hinit)
      (fun _ _ _ hinv hs _ hstep ↦ hs.step hinv hstep) h
  exact hexplained.linearizable

/-- A token handed on from one task to the other. -/
theorem os_linearizable_hand_on : ∃ s : OsRun,
    s.history = [.invoke (some 5, 0) (.pend 0 .sem 0), .invoke (some 10, 1) (.post 0 .sem),
      .respond (some 5, 0) ⟨.none, 0⟩, .respond (some 10, 1) ⟨.none, 0⟩] ∧
    Linearizable (osObjects OsRun.startTwo.k.objects) s.history := by
  obtain ⟨s, hs, hcheck⟩ := @Runs.exists_reachable_of_execOk _ _ (· = OsRun.startTwo) OsRun.step
    Runs.everyStep OsRun.startTwo
    [.call (.op (.pend 0 .sem 0)), .sched, .call (.op (.post 0 .sem)), .sched, .resume,
      .call (.timeDly 1), .sched, .resume]
    (fun s ↦ decide (s.history = [.invoke (some 5, 0) (.pend 0 .sem 0),
      .invoke (some 10, 1) (.post 0 .sem), .respond (some 5, 0) ⟨.none, 0⟩,
      .respond (some 10, 1) ⟨.none, 0⟩]))
    rfl (by decide +kernel)
  exact ⟨s, of_decide_eq_true hcheck, os_linearizable OsRun.init_startTwo hs⟩

end YHAudioLink
