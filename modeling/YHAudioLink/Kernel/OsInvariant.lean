import YHAudioLink.Kernel.OsMachine

/-!
# What holds of every task

In every state of a run each task is in one of a few conditions, given by where it stands in its
call: a task in its own code is ready and waits for nothing; a sleeping task is ready just when its
tick has come; a pending task waits, or has been granted what it waits for, or has timed out.

The last one is the subtle one. The timer makes a task whose time is up ready but leaves it in the
wait list of its event; it takes itself out when it runs. Until then a post still finds it there and
may choose it, and then its pend succeeds after all. So *waiting* and *timed out* both mean being in
the wait list, and an event somebody is listed for has nothing to give (`EventOk`).

`Same` is the frame: what the condition of a task depends on. A step changes the condition of the
task it is about and is a frame for the others.
-/

namespace YHAudioLink

namespace OsKernel

variable {k k' k'' : OsKernel} {p q : OsPrio} {e e' : OsEventId} {ticks due n : ℕ} {tcb : OsTcb}
  {ev : OsEvent} {kind : OsKind} {timeout : UInt32} {next : OsNext}

/-- The tasks listed for an event. -/
def waits (k : OsKernel) (e : OsEventId) : OsTbl := (k.osEventTbl e).osEventTbl

/-! ### The conditions -/

/-- A task that waits for nothing. -/
structure Running (k : OsKernel) (p : OsPrio) : Prop where
  ready : p ∈ k.osRdyTbl
  nowhere : ∀ e, p ∉ k.waits e
  stat : (k.osTcbPrioTbl p).osTcbStat = 0
  dly : (k.osTcbPrioTbl p).osTcbDly = 0

/-- A task that sleeps until a tick: it is ready just when the tick has come. -/
structure Sleeping (k : OsKernel) (ticks : ℕ) (p : OsPrio) (due : ℕ) : Prop where
  nowhere : ∀ e, p ∉ k.waits e
  stat : (k.osTcbPrioTbl p).osTcbStat = 0
  time : (k.osTcbPrioTbl p).osTcbDly = 0 ∧ p ∈ k.osRdyTbl ∧ due ≤ ticks ∨
    0 < (k.osTcbPrioTbl p).osTcbDly ∧ p ∉ k.osRdyTbl ∧
      ticks + (k.osTcbPrioTbl p).osTcbDly = due

/-- A pending task that waits. Without a timeout the timer leaves it alone. -/
structure Waiting (k : OsKernel) (ticks : ℕ) (p : OsPrio) (e : OsEventId) (kind : OsKind)
    (timeout : UInt32) (due : ℕ) : Prop where
  listed : p ∈ k.waits e
  notReady : p ∉ k.osRdyTbl
  stat : (k.osTcbPrioTbl p).osTcbStat = kind.stat
  statPend : (k.osTcbPrioTbl p).osTcbStatPend = .ok
  time : timeout = 0 ∧ (k.osTcbPrioTbl p).osTcbDly = 0 ∨
    timeout ≠ 0 ∧ 0 < (k.osTcbPrioTbl p).osTcbDly ∧ ticks + (k.osTcbPrioTbl p).osTcbDly = due

/-- A pending task that has been given what it waited for. -/
structure Granted (k : OsKernel) (p : OsPrio) (e : OsEventId) : Prop where
  notListed : p ∉ k.waits e
  ready : p ∈ k.osRdyTbl
  stat : (k.osTcbPrioTbl p).osTcbStat = 0
  statPend : (k.osTcbPrioTbl p).osTcbStatPend = .ok
  dly : (k.osTcbPrioTbl p).osTcbDly = 0

/-- A pending task whose time is up. It is still listed. -/
structure TimedOut (k : OsKernel) (ticks : ℕ) (p : OsPrio) (e : OsEventId) (timeout : UInt32)
    (due : ℕ) : Prop where
  listed : p ∈ k.waits e
  ready : p ∈ k.osRdyTbl
  stat : (k.osTcbPrioTbl p).osTcbStat = 0
  statPend : (k.osTcbPrioTbl p).osTcbStatPend = .timeout
  dly : (k.osTcbPrioTbl p).osTcbDly = 0
  hasTimeout : timeout ≠ 0
  due_le : due ≤ ticks

/-- **A pending task.** -/
structure Pending (k : OsKernel) (ticks : ℕ) (p : OsPrio) (e : OsEventId) (kind : OsKind)
    (timeout : UInt32) (due : ℕ) : Prop where
  type : (k.osEventTbl e).osEventType = some kind
  elsewhere : ∀ e', e' ≠ e → p ∉ k.waits e'
  phase : k.Waiting ticks p e kind timeout due ∨ k.Granted p e ∨ k.TimedOut ticks p e timeout due

/-- **The condition of a task**, by what it does next. -/
def TaskOk (k : OsKernel) (ticks : ℕ) (p : OsPrio) : OsNext → Prop
  | .app => k.Running p
  | .ret _ _ _ => k.Running p
  | .dly due => k.Sleeping ticks p due
  | .pend _ e kind timeout due => k.Pending ticks p e kind timeout due

/-- **The condition of an event**: what somebody is listed for has nothing to give. -/
structure EventOk (ev : OsEvent) : Prop where
  sem : ev.osEventType = some .sem → (∃ p, p ∈ ev.osEventTbl) → ev.osEventCnt = 0
  wf : ev.osEventType = some .q → ev.osEventPtr.Wf
  q : ev.osEventType = some .q → (∃ p, p ∈ ev.osEventTbl) → ev.osEventPtr.osqEntries = 0

/-! ### The frame -/

/-- What the condition of a task depends on is the same in two states of the kernel. -/
structure Same (k k' : OsKernel) (p : OsPrio) : Prop where
  ready : p ∈ k'.osRdyTbl ↔ p ∈ k.osRdyTbl
  waits : ∀ e, p ∈ k'.waits e ↔ p ∈ k.waits e
  tcb : k'.osTcbPrioTbl p = k.osTcbPrioTbl p
  type : ∀ e, (k'.osEventTbl e).osEventType = (k.osEventTbl e).osEventType

namespace Same

theorem refl (k : OsKernel) (p : OsPrio) : Same k k p :=
  ⟨Iff.rfl, fun _ ↦ Iff.rfl, rfl, fun _ ↦ rfl⟩

theorem trans (h : Same k k' p) (h' : Same k' k'' p) : Same k k'' p where
  ready := h'.ready.trans h.ready
  waits := fun e ↦ (h'.waits e).trans (h.waits e)
  tcb := h'.tcb.trans h.tcb
  type := fun e ↦ (h'.type e).trans (h.type e)

theorem running (h : Same k k' p) (hp : k.Running p) : k'.Running p where
  ready := h.ready.2 hp.ready
  nowhere := fun e ↦ (not_congr (h.waits e)).2 (hp.nowhere e)
  stat := h.tcb ▸ hp.stat
  dly := h.tcb ▸ hp.dly

theorem sleeping (h : Same k k' p) (hp : k.Sleeping ticks p due) : k'.Sleeping ticks p due where
  nowhere := fun e ↦ (not_congr (h.waits e)).2 (hp.nowhere e)
  stat := h.tcb ▸ hp.stat
  time := by
    rw [h.tcb, h.ready]
    exact hp.time

theorem waiting (h : Same k k' p) (hp : k.Waiting ticks p e kind timeout due) :
    k'.Waiting ticks p e kind timeout due where
  listed := (h.waits e).2 hp.listed
  notReady := (not_congr h.ready).2 hp.notReady
  stat := h.tcb ▸ hp.stat
  statPend := h.tcb ▸ hp.statPend
  time := h.tcb ▸ hp.time

theorem granted (h : Same k k' p) (hp : k.Granted p e) : k'.Granted p e where
  notListed := (not_congr (h.waits e)).2 hp.notListed
  ready := h.ready.2 hp.ready
  stat := h.tcb ▸ hp.stat
  statPend := h.tcb ▸ hp.statPend
  dly := h.tcb ▸ hp.dly

theorem timedOut (h : Same k k' p) (hp : k.TimedOut ticks p e timeout due) :
    k'.TimedOut ticks p e timeout due where
  listed := (h.waits e).2 hp.listed
  ready := h.ready.2 hp.ready
  stat := h.tcb ▸ hp.stat
  statPend := h.tcb ▸ hp.statPend
  dly := h.tcb ▸ hp.dly
  hasTimeout := hp.hasTimeout
  due_le := hp.due_le

/-- **The frame rule.** -/
theorem taskOk (h : Same k k' p) (hp : k.TaskOk ticks p next) : k'.TaskOk ticks p next := by
  cases next with
  | app => exact h.running hp
  | ret _ _ _ => exact h.running hp
  | dly due => exact h.sleeping hp
  | pend _ e kind timeout due =>
    exact ⟨(h.type e).trans hp.type, fun e' he ↦ (not_congr (h.waits e')).2 (hp.elsewhere e' he),
      hp.phase.imp h.waiting (Or.imp h.granted h.timedOut)⟩

end Same

/-- A task that is listed pends on that event. -/
theorem TaskOk.of_listed (h : k.TaskOk ticks p next) (hp : p ∈ k.waits e) :
    ∃ n kind timeout due, next = .pend n e kind timeout due := by
  cases next with
  | app => exact absurd hp (h.nowhere e)
  | ret _ _ _ => exact absurd hp (h.nowhere e)
  | dly due => exact absurd hp (h.nowhere e)
  | pend n e' kind timeout due =>
    by_cases heq : e = e'
    · subst heq
      exact ⟨n, kind, timeout, due, rfl⟩
    · exact absurd hp (h.elsewhere e heq)

/-! ### What the updates do -/

@[simp] theorem setTcb_waits : (k.setTcb p tcb).waits e = k.waits e := rfl

@[simp] theorem setTcb_osRdyTbl : (k.setTcb p tcb).osRdyTbl = k.osRdyTbl := rfl

@[simp] theorem setTcb_osEventTbl : (k.setTcb p tcb).osEventTbl = k.osEventTbl := rfl

@[simp] theorem setTcb_self : (k.setTcb p tcb).osTcbPrioTbl p = tcb := Function.update_self _ _ _

theorem setTcb_of_ne (h : q ≠ p) : (k.setTcb p tcb).osTcbPrioTbl q = k.osTcbPrioTbl q :=
  Function.update_of_ne h _ _

@[simp] theorem setEvent_osTcbPrioTbl : (k.setEvent e ev).osTcbPrioTbl = k.osTcbPrioTbl := rfl

@[simp] theorem setEvent_osRdyTbl : (k.setEvent e ev).osRdyTbl = k.osRdyTbl := rfl

@[simp] theorem setEvent_self : (k.setEvent e ev).osEventTbl e = ev := Function.update_self _ _ _

theorem setEvent_of_ne (h : e' ≠ e) : (k.setEvent e ev).osEventTbl e' = k.osEventTbl e' :=
  Function.update_of_ne h _ _

@[simp] theorem setEvent_waits_self : (k.setEvent e ev).waits e = ev.osEventTbl := by
  rw [waits, setEvent_self]

theorem setEvent_waits_of_ne (h : e' ≠ e) : (k.setEvent e ev).waits e' = k.waits e' := by
  rw [waits, setEvent_of_ne h, waits]

/-- An event whose type stays. -/
theorem setEvent_type (h : ev.osEventType = (k.osEventTbl e).osEventType) (e' : OsEventId) :
    ((k.setEvent e ev).osEventTbl e').osEventType = (k.osEventTbl e').osEventType := by
  by_cases heq : e' = e
  · rw [heq, setEvent_self, h]
  · rw [setEvent_of_ne heq]

/-- An event whose wait list stays is a frame for every task. -/
theorem setEvent_same (htype : ev.osEventType = (k.osEventTbl e).osEventType)
    (hlist : ev.osEventTbl = (k.osEventTbl e).osEventTbl) (p : OsPrio) :
    Same k (k.setEvent e ev) p where
  ready := Iff.rfl
  waits := by
    intro e'
    by_cases heq : e' = e
    · rw [heq, setEvent_waits_self, hlist, waits]
    · rw [setEvent_waits_of_ne heq]
  tcb := rfl
  type := setEvent_type htype

/-- The other control blocks stay. -/
theorem setTcb_same (h : q ≠ p) : Same k (k.setTcb p tcb) q where
  ready := Iff.rfl
  waits := fun _ ↦ Iff.rfl
  tcb := setTcb_of_ne h
  type := fun _ ↦ rfl

/-- Making another task ready, or not ready any more, is a frame. -/
theorem setReady_same {t : OsTbl} (h : q ∈ t ↔ q ∈ k.osRdyTbl) :
    Same k { k with osRdyTbl := t } q where
  ready := h
  waits := fun _ ↦ Iff.rfl
  tcb := rfl
  type := fun _ ↦ rfl

/-! ### Taking a task out of a wait list -/

theorem mem_osEventTaskRemove :
    q ∈ (k.osEventTaskRemove p e).waits e' ↔ (e' = e → q ≠ p) ∧ q ∈ k.waits e' := by
  by_cases heq : e' = e
  · subst heq
    rw [osEventTaskRemove, setEvent_waits_self, OsTbl.mem_erase]
    simp [waits]
  · rw [osEventTaskRemove, setEvent_waits_of_ne heq]
    simp [heq]

theorem osEventTaskRemove_same (h : q ≠ p) : Same k (k.osEventTaskRemove p e) q where
  ready := Iff.rfl
  waits := fun e' ↦ by simp [mem_osEventTaskRemove, h]
  tcb := rfl
  type := setEvent_type rfl

/-! ### The whole kernel -/

/-- **The invariant of the kernel**, with the ticks that have come for every task and what it does
next. -/
structure Ok (k : OsKernel) (clock : OsPrio → ℕ) (next : OsPrio → OsNext) : Prop where
  list : ∃ ps, k.osTcbList = ps ++ [osTaskIdlePrio] ∧ osTaskIdlePrio ∉ ps ∧ ps.Nodup
  task : ∀ p ∈ k.osTcbList, k.TaskOk (clock p) p (next p)
  absent : ∀ p, p ∉ k.osTcbList → p ∉ k.osRdyTbl ∧ ∀ e, p ∉ k.waits e
  event : ∀ e, EventOk (k.osEventTbl e)

namespace Ok

variable {clock : OsPrio → ℕ} {f : OsPrio → OsNext}

/-- Another condition of one task, in the same state. -/
theorem setNext (h : k.Ok clock f) (hp : k.TaskOk (clock p) p next) :
    k.Ok clock (Function.update f p next) where
  list := h.list
  task := by
    intro q hq
    by_cases heq : q = p
    · subst heq
      rw [Function.update_self]
      exact hp
    · rw [Function.update_of_ne heq]
      exact h.task q hq
  absent := h.absent
  event := h.event

/-- The counters and the running task do not matter. -/
theorem congr (h : k.Ok clock f) (hrdy : k'.osRdyTbl = k.osRdyTbl)
    (htcb : k'.osTcbPrioTbl = k.osTcbPrioTbl) (hlist : k'.osTcbList = k.osTcbList)
    (hevent : k'.osEventTbl = k.osEventTbl) : k'.Ok clock f where
  list := hlist ▸ h.list
  task := by
    intro p hp
    refine Same.taskOk ⟨by rw [hrdy], fun e ↦ by rw [waits, waits, hevent], by rw [htcb], ?_⟩
      (h.task p (hlist ▸ hp))
    exact fun e ↦ by rw [hevent]
  absent := by
    intro p hp
    rw [hlist] at hp
    refine ⟨hrdy ▸ (h.absent p hp).1, fun e ↦ ?_⟩
    rw [waits, hevent]
    exact (h.absent p hp).2 e
  event := fun e ↦ hevent ▸ h.event e

/-- A listed task is one of the tasks, and pends on the event. -/
theorem pending_of_listed (h : k.Ok clock f) (hp : p ∈ k.waits e) :
    p ∈ k.osTcbList ∧ ∃ n kind timeout due, f p = .pend n e kind timeout due ∧
      k.Pending (clock p) p e kind timeout due := by
  have hlist : p ∈ k.osTcbList := by
    by_contra habsent
    exact (h.absent p habsent).2 e hp
  have htask := h.task p hlist
  obtain ⟨n, kind, timeout, due, hnext⟩ := htask.of_listed hp
  rw [hnext] at htask
  exact ⟨hlist, n, kind, timeout, due, hnext, htask⟩

/-- **A step about one task**: its new condition, a frame for the others, and the events. -/
theorem step (h : k.Ok clock f) (hlist : k'.osTcbList = k.osTcbList) (hp : p ∈ k.osTcbList)
    (htask : k'.TaskOk (clock p) p next) (hothers : ∀ q, q ≠ p → Same k k' q)
    (hevent : ∀ e, EventOk (k'.osEventTbl e)) : k'.Ok clock (Function.update f p next) where
  list := hlist ▸ h.list
  task := by
    intro q hq
    by_cases heq : q = p
    · subst heq
      rw [Function.update_self]
      exact htask
    · rw [Function.update_of_ne heq]
      exact (hothers q heq).taskOk (h.task q (hlist ▸ hq))
  absent := by
    intro q hq
    rw [hlist] at hq
    have hsame := hothers q fun heq ↦ hq (heq ▸ hp)
    exact ⟨(not_congr hsame.ready).2 (h.absent q hq).1,
      fun e ↦ (not_congr (hsame.waits e)).2 ((h.absent q hq).2 e)⟩
  event := hevent

end Ok

end OsKernel

end YHAudioLink
