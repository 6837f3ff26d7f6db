import YHAudioLink.Kernel.OsInvariant

/-!
# The functions of the kernel keep the invariant

One lemma for each function says what it can do to the tasks and events (`osPostOf_cases`,
`osPendOf_cases`, `osPendEnd_of_ready` and the four equations of the timer), and one that it keeps
the invariant (`Ok.post`, `Ok.pendWait`, `Ok.fetch`, `Ok.pendEnd`, `Ok.timeDly`, `Ok.tickTask`).

A post to an event somebody is listed for changes the condition of one task, whichever of the two it
is in: waiting or timed out, it is granted. The timer goes through the tasks one after the other,
and what it does with one is a frame for the others: for that one a tick more has come.
-/

namespace YHAudioLink

/-! ### Posting -/

/-- What becomes of an event nobody waits for. -/
def OsPosted.store : OsPosted → OsEvent → OsError × OsEvent
  | .sem => fun ev ↦
    if ev.osEventCnt < 65535 then (.none, { ev with osEventCnt := ev.osEventCnt + 1 })
    else (.semOvf, ev)
  | .q msg => fun ev ↦
    if ev.osEventPtr.osqEntries ≥ ev.osEventPtr.osqSize then (.qFull, ev)
    else (.none, { ev with osEventPtr := ev.osEventPtr.put msg })

/-- What is taken out of an event that has something. -/
def OsKind.fetch : OsKind → OsEvent → Option (VoidPtr × OsEvent)
  | .sem => fun ev ↦
    if ev.osEventCnt > 0 then some (0, { ev with osEventCnt := ev.osEventCnt - 1 }) else none
  | .q => fun ev ↦
    if ev.osEventPtr.osqEntries > 0 then
      some (ev.osEventPtr.take.1, { ev with osEventPtr := ev.osEventPtr.take.2 })
    else none

namespace OsKernel

variable {k k' : OsKernel} {p q w : OsPrio} {e e' : OsEventId} {ticks due n : ℕ} {tcb : OsTcb}
  {ev : OsEvent} {kind : OsKind} {timeout : UInt32} {next : OsNext} {what : OsPosted}
  {clock : OsPrio → ℕ} {f : OsPrio → OsNext} {msg : VoidPtr}

theorem osPostOf_eq (k : OsKernel) (e : OsEventId) (what : OsPosted) :
    k.osPostOf e what = k.osPost what.kind e what.msg what.store := by
  cases what <;> rfl

theorem osPendOf_eq (k : OsKernel) (e : OsEventId) (timeout : UInt32) (kind : OsKind) :
    k.osPendOf e timeout kind = k.osPend kind e timeout kind.fetch := by
  cases kind <;> rfl

/-- What is stored leaves the type and the wait list. -/
theorem store_frame (what : OsPosted) (ev : OsEvent) :
    (what.store ev).2.osEventType = ev.osEventType ∧
      (what.store ev).2.osEventTbl = ev.osEventTbl := by
  cases what <;> simp only [OsPosted.store] <;> split <;> exact ⟨rfl, rfl⟩

/-- What is taken out leaves the type and the wait list. -/
theorem fetch_frame {ev' : OsEvent} (h : kind.fetch ev = some (msg, ev')) :
    ev'.osEventType = ev.osEventType ∧ ev'.osEventTbl = ev.osEventTbl := by
  cases kind <;> simp only [OsKind.fetch] at h <;> split at h <;>
    first
      | (obtain ⟨-, rfl⟩ := Prod.mk.inj (Option.some.inj h)
         exact ⟨rfl, rfl⟩)
      | cases h

/-- **What a post can do**: nothing at an event of another type, wake the highest of the listed
tasks, or store what is posted. -/
theorem osPostOf_cases (k : OsKernel) (e : OsEventId) (what : OsPosted) :
    ((k.osEventTbl e).osEventType ≠ some what.kind ∧ k.osPostOf e what = (.eventType, false, k)) ∨
    ((k.osEventTbl e).osEventType = some what.kind ∧ (k.waits e).highest ∈ k.waits e ∧
      k.osPostOf e what =
        (.none, true, (k.osEventTaskRdy e what.msg what.kind.stat .ok).2)) ∨
    ((k.osEventTbl e).osEventType = some what.kind ∧ (∀ w, w ∉ k.waits e) ∧
      k.osPostOf e what = ((what.store (k.osEventTbl e)).1, false,
        k.setEvent e (what.store (k.osEventTbl e)).2)) := by
  rw [osPostOf_eq]
  by_cases htype : (k.osEventTbl e).osEventType = some what.kind
  · right
    by_cases hgrp : (k.waits e).grp = 0#8
    · refine .inr ⟨htype, fun w hw ↦ OsTbl.grp_ne_zero_iff.2 ⟨w, hw⟩ hgrp, ?_⟩
      simp only [waits] at hgrp
      simp [osPost, htype, hgrp]
    · obtain ⟨w, hw⟩ := OsTbl.grp_ne_zero_iff.1 hgrp
      refine .inl ⟨htype, OsTbl.highest_mem hw, ?_⟩
      simp only [waits] at hgrp
      simp [osPost, htype, hgrp]
  · exact .inl ⟨htype, by simp [osPost, htype]⟩

/-- The bits of a kind cleared. -/
theorem stat_and_not (kind : OsKind) : kind.stat &&& ~~~kind.stat = 0 ∧ 0 &&& ~~~kind.stat = 0 := by
  cases kind <;> decide

/-- **Waking a listed task**: it is granted what it waits for, with the message, and the others do
not notice. -/
theorem osEventTaskRdy_of_pending (hw : (k.waits e).highest = w) (hlisted : w ∈ k.waits e)
    (h : k.Pending ticks w e kind timeout due) (msg : VoidPtr) :
    ∃ k', (k.osEventTaskRdy e msg kind.stat .ok).2 = k' ∧ k'.Granted w e ∧
      (k'.osTcbPrioTbl w).osTcbMsg = msg ∧ (∀ q, q ≠ w → Same k k' q) ∧
      k'.osRdyTbl = k.osRdyTbl.insert w ∧ k'.osTcbList = k.osTcbList ∧
      k'.osPrioCur = k.osPrioCur ∧ k'.osIntNesting = k.osIntNesting ∧
      k'.osLockNesting = k.osLockNesting ∧
      k'.osEventTbl = Function.update k.osEventTbl e
        { k.osEventTbl e with osEventTbl := (k.waits e).erase w } := by
  have hstat : (k.osTcbPrioTbl w).osTcbStat &&& ~~~kind.stat = 0 := by
    rcases h.phase with hwait | hgrant | hout
    · rw [hwait.stat]
      exact (stat_and_not kind).1
    · exact absurd hlisted hgrant.notListed
    · rw [hout.stat]
      exact (stat_and_not kind).2
  have hsuspend : (0 : UInt8) &&& osStatSuspend = 0 := by decide
  rw [waits] at hw
  refine ⟨_, rfl, ?_⟩
  simp only [osEventTaskRdy, hw, hstat, hsuspend, if_true]
  refine ⟨⟨?_, ?_, ?_, ?_, ?_⟩, ?_, fun q hq ↦ ?_, rfl, rfl, rfl, rfl, rfl, rfl⟩
  · rw [mem_osEventTaskRemove]
    exact fun hmem ↦ hmem.1 rfl rfl
  · exact OsTbl.mem_insert.2 (.inl rfl)
  · exact congrArg OsTcb.osTcbStat setTcb_self
  · exact congrArg OsTcb.osTcbStatPend setTcb_self
  · exact congrArg OsTcb.osTcbDly setTcb_self
  · exact congrArg OsTcb.osTcbMsg setTcb_self
  · refine ((setTcb_same hq).trans (setReady_same ?_)).trans (osEventTaskRemove_same hq)
    rw [OsTbl.mem_insert]
    exact or_iff_right hq

/-- Fewer tasks listed, and nothing else changed. -/
theorem EventOk.erase (h : EventOk ev) (w : OsPrio) :
    EventOk { ev with osEventTbl := ev.osEventTbl.erase w } where
  sem := by
    rintro htype ⟨p, hp⟩
    exact h.sem htype ⟨p, (OsTbl.mem_erase.1 hp).2⟩
  wf := h.wf
  q := by
    rintro htype ⟨p, hp⟩
    exact h.q htype ⟨p, (OsTbl.mem_erase.1 hp).2⟩

/-- Storing at an event nobody waits for. -/
theorem EventOk.store (h : EventOk ev) (hnobody : ∀ p, p ∉ ev.osEventTbl)
    (htype : ev.osEventType = some what.kind) : EventOk (what.store ev).2 := by
  obtain ⟨htype', hlist'⟩ := store_frame what ev
  have hnobody' : ¬ ∃ p, p ∈ (what.store ev).2.osEventTbl := by
    rw [hlist']
    exact fun ⟨p, hp⟩ ↦ hnobody p hp
  refine ⟨fun _ hex ↦ absurd hex hnobody', fun hq ↦ ?_, fun _ hex ↦ absurd hex hnobody'⟩
  rw [htype'] at hq
  cases what with
  | sem => cases htype.symm.trans hq
  | q msg =>
    have hwf := h.wf hq
    simp only [OsPosted.store]
    split
    · exact hwf
    · next hroom => exact (OsQcb.put_of_lt hwf (Nat.not_le.1 hroom) msg).1

/-- Taking out of an event. -/
theorem EventOk.fetch {ev' : OsEvent} (h : EventOk ev) (htype : ev.osEventType = some kind)
    (hfetch : kind.fetch ev = some (msg, ev')) : EventOk ev' ∧ ∀ p, p ∉ ev.osEventTbl := by
  obtain ⟨htype', hlist'⟩ := fetch_frame hfetch
  cases kind with
  | sem =>
    simp only [OsKind.fetch] at hfetch
    split at hfetch
    · next hpos =>
      have hnobody : ¬ ∃ p, p ∈ ev.osEventTbl := fun hex ↦ by
        rw [h.sem htype hex] at hpos
        exact absurd hpos (Nat.lt_irrefl 0)
      refine ⟨⟨fun _ hex ↦ ?_, fun hq ↦ ?_, fun hq ↦ ?_⟩, fun p hp ↦ hnobody ⟨p, hp⟩⟩
      · rw [hlist'] at hex
        exact absurd hex hnobody
      · cases (htype'.trans htype).symm.trans hq
      · cases (htype'.trans htype).symm.trans hq
    · cases hfetch
  | q =>
    simp only [OsKind.fetch] at hfetch
    split at hfetch
    · next hpos =>
      have hnobody : ¬ ∃ p, p ∈ ev.osEventTbl := fun hex ↦ by
        rw [h.q htype hex] at hpos
        exact absurd hpos (Nat.lt_irrefl 0)
      obtain ⟨-, rfl⟩ := Prod.mk.inj (Option.some.inj hfetch)
      refine ⟨⟨fun hsem ↦ ?_, fun _ ↦ (OsQcb.take_of_pos (h.wf htype) hpos).1,
        fun _ hex ↦ absurd hex hnobody⟩, fun p hp ↦ hnobody ⟨p, hp⟩⟩
      cases htype.symm.trans hsem
    · cases hfetch

/-- **What somebody is listed for has nothing to give.** -/
theorem EventOk.fetch_none (h : EventOk ev) (htype : ev.osEventType = some kind)
    (hlisted : ∃ p, p ∈ ev.osEventTbl) : kind.fetch ev = none := by
  obtain ⟨p, hp⟩ := hlisted
  rcases hfetch : kind.fetch ev with - | ⟨msg, ev'⟩
  · rfl
  · exact absurd hp ((h.fetch htype hfetch).2 p)

/-- An event changed to one that is all right. -/
theorem EventOk.setEvent (h : ∀ e, EventOk (k.osEventTbl e)) (hev : EventOk ev) (e' : OsEventId) :
    EventOk ((k.setEvent e ev).osEventTbl e') := by
  by_cases heq : e' = e
  · rw [heq, setEvent_self]
    exact hev
  · rw [setEvent_of_ne heq]
    exact h e'

/-- The counters and the running task stay. -/
structure Steady (k k' : OsKernel) : Prop where
  list : k'.osTcbList = k.osTcbList
  cur : k'.osPrioCur = k.osPrioCur
  int : k'.osIntNesting = k.osIntNesting
  lock : k'.osLockNesting = k.osLockNesting

/-- **A post keeps the invariant**, and leaves who is ready apart from the task it wakes. -/
theorem Ok.post (h : k.Ok clock f) (e : OsEventId) (what : OsPosted) :
    (k.osPostOf e what).2.2.Ok clock f ∧ Steady k (k.osPostOf e what).2.2 ∧
      (∀ q, q ∈ k.osRdyTbl → q ∈ (k.osPostOf e what).2.2.osRdyTbl) ∧
      ((k.osPostOf e what).2.1 = false → (k.osPostOf e what).2.2.osRdyTbl = k.osRdyTbl) := by
  rcases osPostOf_cases k e what with ⟨-, hpost⟩ | ⟨htype, hlisted, hpost⟩ | ⟨htype, hnobody, hpost⟩
  · rw [hpost]
    exact ⟨h, ⟨rfl, rfl, rfl, rfl⟩, fun _ ↦ id, fun _ ↦ rfl⟩
  · rw [hpost]
    obtain ⟨hmem, n, kind, timeout, due, hnext, hpend⟩ := h.pending_of_listed hlisted
    obtain rfl : kind = what.kind := Option.some.inj (hpend.type.symm.trans htype)
    obtain ⟨k', hk', hgrant, -, hothers, hrdy, hlist, hcur, hint, hlock, hevent⟩ :=
      osEventTaskRdy_of_pending rfl hlisted hpend what.msg
    rw [hk']
    refine ⟨?_, ⟨hlist, hcur, hint, hlock⟩, fun q hq ↦ ?_, fun hfalse ↦ by cases hfalse⟩
    · have hwaits : ∀ e', e' ≠ e → k'.waits e' = k.waits e' := fun e' he ↦ by
        rw [waits, hevent, Function.update_of_ne he, waits]
      have htask : k'.TaskOk (clock (k.waits e).highest) (k.waits e).highest
          (f (k.waits e).highest) := by
        rw [hnext]
        refine ⟨?_, fun e' he ↦ ?_, .inr (.inl hgrant)⟩
        · rw [hevent, Function.update_self]
          exact htype
        · rw [hwaits e' he]
          exact hpend.elsewhere e' he
      have hevents : ∀ e', EventOk (k'.osEventTbl e') := by
        intro e'
        rw [hevent]
        exact EventOk.setEvent h.event (EventOk.erase (h.event e) _) e'
      rw [← Function.update_eq_self (k.waits e).highest f]
      exact h.step hlist hmem htask hothers hevents
    · rw [hrdy]
      exact OsTbl.mem_insert.2 (.inr hq)
  · rw [hpost]
    obtain ⟨htype', hlist'⟩ := store_frame what (k.osEventTbl e)
    have hevents := EventOk.setEvent (e := e) h.event ((h.event e).store hnobody htype)
    refine ⟨⟨h.list, fun p hp ↦ ?_, fun p hp ↦ ?_, hevents⟩, ⟨rfl, rfl, rfl, rfl⟩, fun _ ↦ id,
      fun _ ↦ rfl⟩
    · exact (setEvent_same htype' hlist' p).taskOk (h.task p hp)
    · refine ⟨(h.absent p hp).1, fun e' ↦ ?_⟩
      exact (not_congr ((setEvent_same htype' hlist' p).waits e')).2 ((h.absent p hp).2 e')

/-! ### Pending -/

/-- The running task put to wait, as `OSSemPend` and `OSQPend` do it. -/
def osPendWait (k : OsKernel) (kind : OsKind) (e : OsEventId) (timeout : UInt32) : OsKernel :=
  (k.setTcb k.osPrioCur { k.osTcbPrioTbl k.osPrioCur with
    osTcbStat := (k.osTcbPrioTbl k.osPrioCur).osTcbStat ||| kind.stat
    osTcbStatPend := .ok
    osTcbDly := timeout.toNat }).osEventTaskWait e

/-- **What a pend can do**: return at once with an error, return what the event has, or put the
running task to wait at an event that has nothing. -/
theorem osPendOf_cases (k : OsKernel) (e : OsEventId) (timeout : UInt32) (kind : OsKind) :
    ((k.osEventTbl e).osEventType ≠ some kind ∧
      k.osPendOf e timeout kind = (some ⟨.eventType, 0⟩, k)) ∨
    (0 < k.osIntNesting ∧ k.osPendOf e timeout kind = (some ⟨.pendIsr, 0⟩, k)) ∨
    (0 < k.osLockNesting ∧ k.osPendOf e timeout kind = (some ⟨.pendLocked, 0⟩, k)) ∨
    ((k.osEventTbl e).osEventType = some kind ∧ k.osIntNesting = 0 ∧ k.osLockNesting = 0 ∧
      ((∃ msg ev, kind.fetch (k.osEventTbl e) = some (msg, ev) ∧
        k.osPendOf e timeout kind = (some ⟨.none, msg⟩, k.setEvent e ev)) ∨
      (kind.fetch (k.osEventTbl e) = none ∧
        k.osPendOf e timeout kind = (none, k.osPendWait kind e timeout)))) := by
  rw [osPendOf_eq]
  by_cases htype : (k.osEventTbl e).osEventType = some kind
  · right
    rcases Nat.eq_zero_or_pos k.osIntNesting with hint | hint
    · right
      rcases Nat.eq_zero_or_pos k.osLockNesting with hlock | hlock
      · refine .inr ⟨htype, hint, hlock, ?_⟩
        rcases hfetch : kind.fetch (k.osEventTbl e) with - | ⟨msg, ev⟩
        · exact .inr ⟨rfl, by simp [osPend, htype, hint, hlock, hfetch, osPendWait]⟩
        · exact .inl ⟨msg, ev, rfl, by simp [osPend, htype, hint, hlock, hfetch]⟩
      · exact .inl ⟨hlock, by simp [osPend, htype, hint, hlock]⟩
    · exact .inl ⟨hint, by simp [osPend, htype, hint]⟩
  · exact .inl ⟨htype, by simp [osPend, htype]⟩

/-- What `OS_EventTaskWait` changes. -/
theorem osEventTaskWait_spec (hp : k.osPrioCur = p) :
    (k.osEventTaskWait e).osRdyTbl = k.osRdyTbl.erase p ∧
      (k.osEventTaskWait e).osTcbPrioTbl p =
        { k.osTcbPrioTbl p with osTcbEventPtr := some e } ∧
      (∀ q, q ≠ p → (k.osEventTaskWait e).osTcbPrioTbl q = k.osTcbPrioTbl q) ∧
      (k.osEventTaskWait e).osEventTbl = Function.update k.osEventTbl e
        { k.osEventTbl e with osEventTbl := (k.waits e).insert p } ∧
      Steady k (k.osEventTaskWait e) := by
  subst hp
  exact ⟨rfl, setTcb_self, fun q hq ↦ setTcb_of_ne hq, rfl, ⟨rfl, rfl, rfl, rfl⟩⟩

/-- Who is listed after one more task has been listed. -/
theorem mem_waits_of_insert (q : OsPrio) (e' : OsEventId)
    (h : k'.osEventTbl = Function.update k.osEventTbl e
      { k.osEventTbl e with osEventTbl := (k.waits e).insert p }) :
    (q ∈ k'.waits e' ↔ (e' = e ∧ q = p) ∨ q ∈ k.waits e') ∧
      (k'.osEventTbl e').osEventType = (k.osEventTbl e').osEventType := by
  rw [waits, h]
  by_cases he : e' = e
  · subst he
    rw [Function.update_self]
    exact ⟨OsTbl.mem_insert.trans (by simp), rfl⟩
  · rw [Function.update_of_ne he]
    exact ⟨by simp [he, waits], rfl⟩

/-- **The running task put to wait.** -/
theorem osPendWait_of_running (hp : k.osPrioCur = p) (h : k.Running p)
    (htype : (k.osEventTbl e).osEventType = some kind) :
    (k.osPendWait kind e timeout).Pending ticks p e kind timeout (ticks + timeout.toNat) ∧
      p ∈ (k.osPendWait kind e timeout).waits e ∧
      (∀ q, q ≠ p → Same k (k.osPendWait kind e timeout) q) ∧
      Steady k (k.osPendWait kind e timeout) ∧
      (k.osPendWait kind e timeout).osEventTbl = Function.update k.osEventTbl e
        { k.osEventTbl e with osEventTbl := (k.waits e).insert p } := by
  have hzero : (0 : UInt8) ||| kind.stat = kind.stat := by cases kind <;> decide
  obtain ⟨tcb, htcb⟩ : ∃ tcb : OsTcb, tcb = ⟨kind.stat, .ok, timeout.toNat,
      (k.osTcbPrioTbl p).osTcbEventPtr, (k.osTcbPrioTbl p).osTcbMsg⟩ := ⟨_, rfl⟩
  have hwait : k.osPendWait kind e timeout = (k.setTcb p tcb).osEventTaskWait e := by
    rw [osPendWait, hp, h.stat, hzero, htcb]
  rw [hwait]
  obtain ⟨hrdy, hself, hother, hevent, hsteady⟩ :=
    osEventTaskWait_spec (k := k.setTcb p tcb) (e := e) hp
  rw [setTcb_self] at hself
  have hdly : tcb.osTcbDly = timeout.toNat := congrArg OsTcb.osTcbDly htcb
  have hlist : ∀ {q e'}, q ∈ ((k.setTcb p tcb).osEventTaskWait e).waits e' ↔
      (e' = e ∧ q = p) ∨ q ∈ k.waits e' := (mem_waits_of_insert _ _ hevent).1
  have htypes : ∀ e', (((k.setTcb p tcb).osEventTaskWait e).osEventTbl e').osEventType =
      (k.osEventTbl e').osEventType :=
    fun e' ↦ (mem_waits_of_insert p e' hevent).2
  refine ⟨⟨(htypes e).trans htype, fun e' he hmem ↦ ?_, .inl ⟨?_, ?_, ?_, ?_, ?_⟩⟩, ?_,
    fun q hq ↦ ⟨?_, fun e' ↦ ?_, ?_, htypes⟩,
    ⟨hsteady.list, hsteady.cur, hsteady.int, hsteady.lock⟩, hevent⟩
  · rcases hlist.1 hmem with ⟨heq, -⟩ | hold
    · exact he heq
    · exact h.nowhere e' hold
  · exact hlist.2 (.inl ⟨rfl, rfl⟩)
  · rw [hrdy]
    exact fun hmem ↦ (OsTbl.mem_erase.1 hmem).1 rfl
  · rw [hself]
    exact congrArg OsTcb.osTcbStat htcb
  · rw [hself]
    exact congrArg OsTcb.osTcbStatPend htcb
  · rw [hself]
    show timeout = 0 ∧ tcb.osTcbDly = 0 ∨
      timeout ≠ 0 ∧ 0 < tcb.osTcbDly ∧ ticks + tcb.osTcbDly = ticks + timeout.toNat
    rw [hdly]
    by_cases hnever : timeout = 0
    · exact .inl ⟨hnever, by rw [hnever]; rfl⟩
    · have hpos : timeout.toNat ≠ 0 := fun heq ↦ hnever (UInt32.toNat_inj.1 heq)
      exact .inr ⟨hnever, Nat.pos_of_ne_zero hpos, rfl⟩
  · exact hlist.2 (.inl ⟨rfl, rfl⟩)
  · rw [hrdy, OsTbl.mem_erase, setTcb_osRdyTbl]
    exact and_iff_right hq
  · rw [hlist]
    exact or_iff_right fun ⟨_, heq⟩ ↦ hq heq
  · rw [hother q hq, setTcb_of_ne hq]

/-- An event that has nothing. -/
theorem EventOk.insert (h : EventOk ev) (htype : ev.osEventType = some kind)
    (hnone : kind.fetch ev = none) (p : OsPrio) :
    EventOk { ev with osEventTbl := ev.osEventTbl.insert p } := by
  refine ⟨fun hsem _ ↦ ?_, h.wf, fun hq _ ↦ ?_⟩
  · obtain rfl : kind = .sem := Option.some.inj (htype.symm.trans hsem)
    simp only [OsKind.fetch] at hnone
    split at hnone
    · cases hnone
    · next hzero => exact Nat.eq_zero_of_not_pos hzero
  · obtain rfl : kind = .q := Option.some.inj (htype.symm.trans hq)
    simp only [OsKind.fetch] at hnone
    split at hnone
    · cases hnone
    · next hzero => exact Nat.eq_zero_of_not_pos hzero

/-- **A pend that waits keeps the invariant.** -/
theorem Ok.pendWait (h : k.Ok clock f) (hcur : k.osPrioCur = p) (hp : p ∈ k.osTcbList)
    (hrun : k.Running p) (htype : (k.osEventTbl e).osEventType = some kind)
    (hnone : kind.fetch (k.osEventTbl e) = none) (n : ℕ) :
    (k.osPendWait kind e timeout).Ok clock
      (Function.update f p (.pend n e kind timeout (clock p + timeout.toNat))) := by
  obtain ⟨hpend, -, hothers, hsteady, hevent⟩ :=
    @osPendWait_of_running _ _ _ (clock p) _ timeout hcur hrun htype
  refine h.step hsteady.list hp hpend hothers fun e' ↦ ?_
  rw [hevent]
  exact EventOk.setEvent h.event ((h.event e).insert htype hnone p) e'

/-- **A pend that finds something keeps the invariant.** -/
theorem Ok.fetch (h : k.Ok clock f) (htype : (k.osEventTbl e).osEventType = some kind)
    (hfetch : kind.fetch (k.osEventTbl e) = some (msg, ev)) : (k.setEvent e ev).Ok clock f := by
  obtain ⟨htype', hlist'⟩ := fetch_frame hfetch
  refine ⟨h.list, fun p hp ↦ ?_, fun p hp ↦ ⟨(h.absent p hp).1, fun e' ↦ ?_⟩,
    EventOk.setEvent h.event ((h.event e).fetch htype hfetch).1⟩
  · exact (setEvent_same htype' hlist' p).taskOk (h.task p hp)
  · exact (not_congr ((setEvent_same htype' hlist' p).waits e')).2 ((h.absent p hp).2 e')

/-! ### The end of a pend -/

/-- **A pending task that runs again** has been granted what it waited for, or has timed out; it
reports which, and waits for nothing any more. -/
theorem osPendEnd_of_ready (hcur : k.osPrioCur = p) (h : k.Pending ticks p e kind timeout due)
    (hrdy : p ∈ k.osRdyTbl) :
    (k.osPendEnd kind e).2.Running p ∧ (∀ q, q ≠ p → Same k (k.osPendEnd kind e).2 q) ∧
      Steady k (k.osPendEnd kind e).2 ∧ (k.osPendEnd kind e).2.osRdyTbl = k.osRdyTbl ∧
      ((k.Granted p e ∧ (k.osPendEnd kind e).2.osEventTbl = k.osEventTbl ∧
          (k.osPendEnd kind e).1 =
            ⟨.none, if kind = .q then (k.osTcbPrioTbl p).osTcbMsg else 0⟩) ∨
        (k.TimedOut ticks p e timeout due ∧ (k.osPendEnd kind e).1 = ⟨.timeout, 0⟩ ∧
          (k.osPendEnd kind e).2.osEventTbl = Function.update k.osEventTbl e
            { k.osEventTbl e with osEventTbl := (k.waits e).erase p })) := by
  have hself : (k.osPendEnd kind e).2.osTcbPrioTbl p =
      { k.osTcbPrioTbl p with
        osTcbStat := 0
        osTcbStatPend := .ok
        osTcbEventPtr := none
        osTcbMsg := if kind = .q then 0 else (k.osTcbPrioTbl p).osTcbMsg } := by
    subst hcur
    exact setTcb_self
  rcases h.phase with hwait | hgrant | hout
  · exact absurd hrdy hwait.notReady
  · have hend : k.osPendEnd kind e =
        (⟨.none, if kind = .q then (k.osTcbPrioTbl p).osTcbMsg else 0⟩,
          k.setTcb p ((k.osPendEnd kind e).2.osTcbPrioTbl p)) := by
      rw [hself]
      simp only [osPendEnd, hcur, hgrant.statPend]
    refine ⟨⟨?_, fun e' ↦ ?_, ?_, ?_⟩, fun q hq ↦ ?_, ?_, ?_, .inl ⟨hgrant, ?_, ?_⟩⟩
    · rw [hend]
      exact hrdy
    · rw [hend]
      by_cases he : e' = e
      · rw [he]
        exact hgrant.notListed
      · exact h.elsewhere e' he
    · rw [hself]
    · rw [hself]
      exact hgrant.dly
    · rw [hend]
      exact setTcb_same hq
    · rw [hend]
      exact ⟨rfl, rfl, rfl, rfl⟩
    · rw [hend]
      rfl
    · rw [hend]
      rfl
    · rw [hend]
  · have hend : k.osPendEnd kind e = (⟨.timeout, 0⟩,
        (k.osEventTaskRemove p e).setTcb p ((k.osPendEnd kind e).2.osTcbPrioTbl p)) := by
      rw [hself]
      simp only [osPendEnd, hcur, hout.statPend]
    refine ⟨⟨?_, fun e' ↦ ?_, ?_, ?_⟩, fun q hq ↦ ?_, ?_, ?_, .inr ⟨hout, ?_, ?_⟩⟩
    · rw [hend]
      exact hrdy
    · rw [hend, setTcb_waits, mem_osEventTaskRemove]
      by_cases he : e' = e
      · exact fun hmem ↦ hmem.1 he rfl
      · exact fun hmem ↦ h.elsewhere e' he hmem.2
    · rw [hself]
    · rw [hself]
      exact hout.dly
    · rw [hend]
      exact (osEventTaskRemove_same hq).trans (setTcb_same hq)
    · rw [hend]
      exact ⟨rfl, rfl, rfl, rfl⟩
    · rw [hend]
      rfl
    · rw [hend]
    · rw [hend]
      rfl

/-- **The end of a pend keeps the invariant.** -/
theorem Ok.pendEnd (h : k.Ok clock f) (hcur : k.osPrioCur = p) (hp : p ∈ k.osTcbList)
    (hpend : k.Pending (clock p) p e kind timeout due) (hrdy : p ∈ k.osRdyTbl) :
    (k.osPendEnd kind e).2.Ok clock (Function.update f p .app) := by
  obtain ⟨hrun, hothers, hsteady, -, hcase⟩ := osPendEnd_of_ready hcur hpend hrdy
  refine h.step hsteady.list hp hrun hothers fun e' ↦ ?_
  rcases hcase with ⟨-, hevent, -⟩ | ⟨-, -, hevent⟩
  · rw [hevent]
    exact h.event e'
  · rw [hevent]
    exact EventOk.setEvent h.event (EventOk.erase (h.event e) p) e'

/-! ### Time -/

/-- **A task that goes to sleep.** -/
theorem Ok.timeDly (h : k.Ok clock f) (hcur : k.osPrioCur = p) (hp : p ∈ k.osTcbList)
    (hrun : k.Running p) (sleep : UInt32) (hdly : (k.osTimeDly sleep).1 = true) :
    (k.osTimeDly sleep).2.Ok clock (Function.update f p (.dly (clock p + sleep.toNat))) ∧
      Steady k (k.osTimeDly sleep).2 ∧ k.osIntNesting = 0 ∧ k.osLockNesting = 0 := by
  have hfree : k.osIntNesting = 0 ∧ k.osLockNesting = 0 ∧ sleep > 0 := by
    rw [osTimeDly] at hdly
    split at hdly
    · cases hdly
    · split at hdly
      · cases hdly
      · split at hdly
        · next hint hlock hpos => exact ⟨by omega, by omega, hpos⟩
        · cases hdly
  obtain ⟨hint, hlock, hpos⟩ := hfree
  have hsleep : 0 < sleep.toNat := UInt32.lt_iff_toNat_lt.1 hpos
  have hk : (k.osTimeDly sleep).2 = ({ k with osRdyTbl := k.osRdyTbl.erase p }).setTcb p
      { k.osTcbPrioTbl p with osTcbDly := sleep.toNat } := by
    simp [osTimeDly, hint, hlock, hpos, hcur]
  rw [hk]
  refine ⟨h.step rfl hp ?_ (fun q hq ↦ ?_) h.event, ⟨rfl, rfl, rfl, rfl⟩, hint, hlock⟩
  · refine ⟨hrun.nowhere, ?_, .inr ⟨?_, ?_, ?_⟩⟩
    · rw [setTcb_self]
      exact hrun.stat
    · rw [setTcb_self]
      exact hsleep
    · exact fun hmem ↦ (OsTbl.mem_erase.1 hmem).1 rfl
    · rw [setTcb_self]
  · refine (setReady_same ?_).trans (setTcb_same hq)
    rw [OsTbl.mem_erase]
    exact and_iff_right hq

/-- The timer with one task is a frame for the others. -/
theorem osTimeTickTask_same (h : q ≠ p) : Same k (k.osTimeTickTask p) q := by
  have hready : ∀ {tcb : OsTcb}, Same k
      { k.setTcb p tcb with osRdyTbl := (k.setTcb p tcb).osRdyTbl.insert p } q := by
    intro tcb
    refine (setTcb_same h).trans (setReady_same ?_)
    rw [OsTbl.mem_insert]
    exact or_iff_right h
  rw [osTimeTickTask]
  split
  · dsimp only
    split
    · split
      · split
        · exact hready
        · exact setTcb_same h
      · split
        · exact hready
        · exact setTcb_same h
    · exact setTcb_same h
  · exact Same.refl k q

/-- The timer leaves a task alone that it does not count for. -/
theorem osTimeTickTask_of_zero (h : (k.osTcbPrioTbl p).osTcbDly = 0) : k.osTimeTickTask p = k := by
  simp [osTimeTickTask, h]

/-- The timer counts down. -/
theorem osTimeTickTask_of_later (h : 1 < (k.osTcbPrioTbl p).osTcbDly) :
    k.osTimeTickTask p = k.setTcb p
      { k.osTcbPrioTbl p with osTcbDly := (k.osTcbPrioTbl p).osTcbDly - 1 } := by
  have hne : (k.osTcbPrioTbl p).osTcbDly ≠ 0 := by omega
  have hnext : (k.osTcbPrioTbl p).osTcbDly - 1 ≠ 0 := by omega
  simp [osTimeTickTask, hne, hnext]

/-- The last tick of a task that only sleeps. -/
theorem osTimeTickTask_of_sleeping (h : (k.osTcbPrioTbl p).osTcbDly = 1)
    (hstat : (k.osTcbPrioTbl p).osTcbStat = 0) :
    k.osTimeTickTask p = { k.setTcb p
      { k.osTcbPrioTbl p with osTcbDly := 0, osTcbStatPend := .ok } with
      osRdyTbl := k.osRdyTbl.insert p } := by
  have hany : (0 : UInt8) &&& osStatPendAny = 0 := by decide
  have hsuspend : (0 : UInt8) &&& osStatSuspend = 0 := by decide
  simp [osTimeTickTask, h, hstat, hany, hsuspend]

/-- The last tick of a task that pends. -/
theorem osTimeTickTask_of_pending (h : (k.osTcbPrioTbl p).osTcbDly = 1)
    (hstat : (k.osTcbPrioTbl p).osTcbStat = kind.stat) :
    k.osTimeTickTask p = { k.setTcb p
      { k.osTcbPrioTbl p with osTcbDly := 0, osTcbStat := 0, osTcbStatPend := .timeout } with
      osRdyTbl := k.osRdyTbl.insert p } := by
  have hany : kind.stat &&& osStatPendAny ≠ 0 := by cases kind <;> decide
  have hclear : kind.stat &&& ~~~osStatPendAny = 0 := by cases kind <;> decide
  have hsuspend : (0 : UInt8) &&& osStatSuspend = 0 := by decide
  simp [osTimeTickTask, h, hstat, hany, hclear, hsuspend]

/-- What the timer never changes, and that it takes nobody out of the ready tasks. -/
theorem osTimeTickTask_steady (k : OsKernel) (p : OsPrio) :
    Steady k (k.osTimeTickTask p) ∧ (k.osTimeTickTask p).osEventTbl = k.osEventTbl ∧
      ∀ q, q ∈ k.osRdyTbl → q ∈ (k.osTimeTickTask p).osRdyTbl := by
  have hinsert : ∀ q, q ∈ k.osRdyTbl → q ∈ k.osRdyTbl.insert p :=
    fun q hq ↦ OsTbl.mem_insert.2 (.inr hq)
  rw [osTimeTickTask]
  dsimp only
  split
  · split
    · split <;> split <;> refine ⟨⟨rfl, rfl, rfl, rfl⟩, rfl, ?_⟩
      all_goals first
        | exact hinsert
        | exact fun _ ↦ id
    · exact ⟨⟨rfl, rfl, rfl, rfl⟩, rfl, fun _ ↦ id⟩
  · exact ⟨⟨rfl, rfl, rfl, rfl⟩, rfl, fun _ ↦ id⟩

/-- A tick of a task that sleeps. -/
theorem Sleeping.tick (h : k.Sleeping ticks p due) :
    (k.osTimeTickTask p).Sleeping (ticks + 1) p due := by
  rcases h.time with ⟨hzero, hrdy, hdue⟩ | ⟨hpos, hrdy, hdue⟩
  · rw [osTimeTickTask_of_zero hzero]
    exact ⟨h.nowhere, h.stat, .inl ⟨hzero, hrdy, Nat.le_succ_of_le hdue⟩⟩
  · rcases Nat.lt_or_ge 1 (k.osTcbPrioTbl p).osTcbDly with hlater | hlast
    · rw [osTimeTickTask_of_later hlater]
      refine ⟨h.nowhere, ?_, .inr ⟨?_, hrdy, ?_⟩⟩
      · exact (congrArg OsTcb.osTcbStat setTcb_self).trans h.stat
      · rw [setTcb_self]
        exact Nat.sub_pos_of_lt hlater
      · rw [setTcb_self]
        show ticks + 1 + ((k.osTcbPrioTbl p).osTcbDly - 1) = due
        omega
    · have hone : (k.osTcbPrioTbl p).osTcbDly = 1 := by omega
      rw [osTimeTickTask_of_sleeping hone h.stat]
      refine ⟨h.nowhere, ?_, .inl ⟨?_, ?_, ?_⟩⟩
      · exact (congrArg OsTcb.osTcbStat setTcb_self).trans h.stat
      · exact congrArg OsTcb.osTcbDly setTcb_self
      · exact OsTbl.mem_insert.2 (.inl rfl)
      · omega

/-- A tick of a task that waits: it goes on waiting, or its time is up. -/
theorem Waiting.tick (h : k.Waiting ticks p e kind timeout due) :
    (k.osTimeTickTask p).Waiting (ticks + 1) p e kind timeout due ∨
      (k.osTimeTickTask p).TimedOut (ticks + 1) p e timeout due := by
  rcases h.time with ⟨hnever, hzero⟩ | ⟨hsome, hpos, hdue⟩
  · rw [osTimeTickTask_of_zero hzero]
    exact .inl { h with time := .inl ⟨hnever, hzero⟩ }
  · rcases Nat.lt_or_ge 1 (k.osTcbPrioTbl p).osTcbDly with hlater | hlast
    · rw [osTimeTickTask_of_later hlater]
      refine .inl ⟨h.listed, h.notReady, ?_, ?_, .inr ⟨hsome, ?_, ?_⟩⟩
      · exact (congrArg OsTcb.osTcbStat setTcb_self).trans h.stat
      · exact (congrArg OsTcb.osTcbStatPend setTcb_self).trans h.statPend
      · rw [setTcb_self]
        exact Nat.sub_pos_of_lt hlater
      · rw [setTcb_self]
        show ticks + 1 + ((k.osTcbPrioTbl p).osTcbDly - 1) = due
        omega
    · have hone : (k.osTcbPrioTbl p).osTcbDly = 1 := by omega
      rw [osTimeTickTask_of_pending hone h.stat]
      refine .inr ⟨h.listed, ?_, ?_, ?_, ?_, hsome, by omega⟩
      · exact OsTbl.mem_insert.2 (.inl rfl)
      · exact congrArg OsTcb.osTcbStat setTcb_self
      · exact congrArg OsTcb.osTcbStatPend setTcb_self
      · exact congrArg OsTcb.osTcbDly setTcb_self

/-- **One tick of one task**: it keeps its condition, at the next tick. -/
theorem TaskOk.tick (h : k.TaskOk ticks p next) :
    (k.osTimeTickTask p).TaskOk (ticks + 1) p next := by
  cases next with
  | app =>
    rw [osTimeTickTask_of_zero h.dly]
    exact h
  | ret _ _ _ =>
    rw [osTimeTickTask_of_zero h.dly]
    exact h
  | dly due => exact Sleeping.tick h
  | pend n e kind timeout due =>
    obtain ⟨-, hevents, -⟩ := osTimeTickTask_steady k p
    refine ⟨?_, fun e' he ↦ ?_, ?_⟩
    · rw [hevents]
      exact h.type
    · rw [waits, hevents]
      exact h.elsewhere e' he
    · rcases h.phase with hwait | hgrant | hout
      · rcases hwait.tick with hwait | hout
        · exact .inl hwait
        · exact .inr (.inr hout)
      · rw [osTimeTickTask_of_zero hgrant.dly]
        exact .inr (.inl hgrant)
      · rw [osTimeTickTask_of_zero hout.dly]
        exact .inr (.inr { hout with due_le := Nat.le_succ_of_le hout.due_le })

/-- **One tick of one task keeps the invariant**: for it a tick more has come. -/
theorem Ok.tickTask (h : k.Ok clock f) (hp : p ∈ k.osTcbList) :
    (k.osTimeTickTask p).Ok (Function.update clock p (clock p + 1)) f := by
  obtain ⟨hsteady, hevent, -⟩ := osTimeTickTask_steady k p
  refine ⟨hsteady.list ▸ h.list, fun q hq ↦ ?_, fun q hq ↦ ?_, fun e ↦ ?_⟩
  · rw [hsteady.list] at hq
    by_cases heq : q = p
    · subst heq
      rw [Function.update_self]
      exact (h.task q hq).tick
    · rw [Function.update_of_ne heq]
      exact (osTimeTickTask_same heq).taskOk (h.task q hq)
  · rw [hsteady.list] at hq
    have hsame : Same k (k.osTimeTickTask p) q := osTimeTickTask_same fun heq ↦ hq (heq ▸ hp)
    exact ⟨(not_congr hsame.ready).2 (h.absent q hq).1,
      fun e ↦ (not_congr (hsame.waits e)).2 ((h.absent q hq).2 e)⟩
  · rw [hevent]
    exact h.event e

/-- **The tasks the timer goes through** are all but the idle task, each once. -/
theorem Ok.osTimeTick_todo (h : k.Ok clock f) :
    k.osTimeTick.1.Nodup ∧ ∀ p, p ∈ k.osTimeTick.1 ↔ p ∈ k.osTcbList ∧ p ≠ osTaskIdlePrio := by
  obtain ⟨ps, hlist, hnot, hnodup⟩ := h.list
  have hne : ∀ p ∈ ps, p ≠ osTaskIdlePrio := fun p hp heq ↦ hnot (heq ▸ hp)
  have hps : k.osTimeTick.1 = ps := by
    rw [osTimeTick, hlist, List.takeWhile_append_of_pos fun p hp ↦ by simpa using hne p hp]
    simp
  rw [hps, hlist]
  refine ⟨hnodup, fun p ↦ ⟨fun hp ↦ ⟨List.mem_append_left _ hp, hne p hp⟩, fun ⟨hp, hidle⟩ ↦ ?_⟩⟩
  exact (List.mem_append.1 hp).resolve_right fun hlast ↦ hidle (List.mem_singleton.1 hlast)

end OsKernel

end YHAudioLink
