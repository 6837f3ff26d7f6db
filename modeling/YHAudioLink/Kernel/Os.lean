import YHAudioLink.Kernel.OsQueue
import YHAudioLink.Kernel.Priorities
import YHAudioLink.Kernel.Semaphore

/-!
# The kernel

The functions of `os_core.c`, `os_sem.c`, `os_q.c` and `os_time.c` that the tasks and the interrupt
handlers of the board call, on one state: the ready tasks, the task control blocks, the event
control blocks with their wait lists, and the nesting counters. What lies between
`OS_ENTER_CRITICAL` and `OS_EXIT_CRITICAL` happens at once, so a function is cut where it leaves its
critical section: `OSSemPend` is `osSemPend`, which ends before `OS_Sched`, and `osPendEnd`, which
the task does when it runs again; `OSTimeTick` is `osTimeTick`, which counts the clock, and
`osTimeTickTask` for each of the tasks, one critical section after the other.

`OSSemPost` and `OSQPost` differ in the type they check for and in what they do with an event nobody
waits for; `OSSemPend` and `OSQPend` in the type and in what they take out of an event that has
something. Each pair is one definition with these as parameters.

Fields of a control block that none of these functions reads are left out, and so are deleting an
event, aborting a pend, suspending a task, and creating a task or an event while the kernel runs.
-/

namespace YHAudioLink

/-- An entry of `OSEventTbl`: `OS_MAX_EVENTS` is 10. -/
abbrev OsEventId : Type := Fin 10

/-- The types of an event in use. -/
inductive OsKind
  | sem | q
  deriving DecidableEq, Repr

/-- The error codes of these functions. -/
inductive OsError
  | none | eventType | pendIsr | timeout | pendLocked | pendAbort | qFull | semOvf
  deriving DecidableEq, Repr

/-- What a pend returns: the error, and the message of a queue. -/
structure OsRet where
  err : OsError
  msg : VoidPtr
  deriving DecidableEq

/-- `OSTCBStatPend`. -/
inductive OsStatPend
  | ok | timeout | abort
  deriving DecidableEq, Repr

/-- `OS_STAT_SEM` and `OS_STAT_Q`. -/
def OsKind.stat : OsKind → UInt8
  | sem => 0x01
  | q => 0x04

/-- `OS_STAT_SUSPEND`. -/
def osStatSuspend : UInt8 := 0x08

/-- `OS_STAT_PEND_ANY`. -/
def osStatPendAny : UInt8 := 0x01 ||| 0x02 ||| 0x04 ||| 0x10 ||| 0x20

/-- `OS_TCB`. -/
structure OsTcb where
  osTcbStat : UInt8
  osTcbStatPend : OsStatPend
  osTcbDly : ℕ
  osTcbEventPtr : Option OsEventId
  osTcbMsg : VoidPtr

/-- What `OS_TCBInit` makes of a control block. -/
def osTcbInit : OsTcb := ⟨0, .ok, 0, none, 0⟩

/-- `OS_EVENT`: its type, if it is in use, the count of a semaphore, the control block of a queue,
and the tasks that wait for it. -/
structure OsEvent where
  osEventType : Option OsKind
  osEventCnt : ℕ
  osEventPtr : OsQcb
  osEventTbl : OsTbl

/-- The state of the kernel while it runs. -/
structure OsKernel where
  /-- `OSRdyGrp`, `OSRdyTbl`. -/
  osRdyTbl : OsTbl
  /-- The control block `OSTCBPrioTbl` points to. -/
  osTcbPrioTbl : OsPrio → OsTcb
  /-- `OSTCBList`: the tasks there are, the latest first. -/
  osTcbList : List OsPrio
  osPrioCur : OsPrio
  osIntNesting : ℕ
  osLockNesting : ℕ
  osEventTbl : OsEventId → OsEvent
  osTime : UInt32

namespace OsKernel

variable (k : OsKernel)

/-! ### Scheduling -/

/-- `OS_SchedNew` and the context switch: `OSPrioCur` becomes the highest ready priority. -/
def osSchedNew : OsKernel := { k with osPrioCur := k.osRdyTbl.highest }

/-- `OS_Sched`. -/
def osSched : OsKernel :=
  if k.osIntNesting = 0 ∧ k.osLockNesting = 0 then k.osSchedNew else k

/-- `OSIntEnter`. -/
def osIntEnter : OsKernel :=
  if k.osIntNesting < 255 then { k with osIntNesting := k.osIntNesting + 1 } else k

/-- `OSIntExit`. -/
def osIntExit : OsKernel :=
  let k := { k with osIntNesting := k.osIntNesting - 1 }
  if k.osIntNesting = 0 ∧ k.osLockNesting = 0 then k.osSchedNew else k

/-- `OSSchedLock`. -/
def osSchedLock : OsKernel :=
  if k.osIntNesting = 0 ∧ k.osLockNesting < 255 then
    { k with osLockNesting := k.osLockNesting + 1 }
  else k

/-- `OSSchedUnlock`, up to its critical section, and whether `OS_Sched` is called after it. -/
def osSchedUnlock : Bool × OsKernel :=
  if k.osIntNesting = 0 ∧ 0 < k.osLockNesting then
    (k.osLockNesting - 1 = 0, { k with osLockNesting := k.osLockNesting - 1 })
  else (false, k)

/-! ### Wait lists -/

/-- The control block of a task changed. -/
def setTcb (p : OsPrio) (tcb : OsTcb) : OsKernel :=
  { k with osTcbPrioTbl := Function.update k.osTcbPrioTbl p tcb }

/-- The control block of an event changed. -/
def setEvent (e : OsEventId) (ev : OsEvent) : OsKernel :=
  { k with osEventTbl := Function.update k.osEventTbl e ev }

/-- `OS_EventTaskRemove`. -/
def osEventTaskRemove (p : OsPrio) (e : OsEventId) : OsKernel :=
  k.setEvent e { k.osEventTbl e with osEventTbl := (k.osEventTbl e).osEventTbl.erase p }

/-- `OS_EventTaskRdy`: the waiting task of highest priority, made ready unless it is suspended, with
its message and what its pend is told. -/
def osEventTaskRdy (e : OsEventId) (pmsg : VoidPtr) (msk : UInt8) (pendStat : OsStatPend) :
    OsPrio × OsKernel :=
  let prio := (k.osEventTbl e).osEventTbl.highest
  let tcb := k.osTcbPrioTbl prio
  let tcb := { tcb with
    osTcbDly := 0
    osTcbMsg := pmsg
    osTcbStat := tcb.osTcbStat &&& ~~~msk
    osTcbStatPend := pendStat }
  let k := k.setTcb prio tcb
  let k := if tcb.osTcbStat &&& osStatSuspend = 0 then
      { k with osRdyTbl := k.osRdyTbl.insert prio }
    else k
  (prio, k.osEventTaskRemove prio e)

/-- `OS_EventTaskWait`: the running task waits for an event and is not ready any more. -/
def osEventTaskWait (e : OsEventId) : OsKernel :=
  let tcb := k.osTcbPrioTbl k.osPrioCur
  let k := k.setTcb k.osPrioCur { tcb with osTcbEventPtr := some e }
  let k := k.setEvent e
    { k.osEventTbl e with osEventTbl := (k.osEventTbl e).osEventTbl.insert k.osPrioCur }
  { k with osRdyTbl := k.osRdyTbl.erase k.osPrioCur }

/-! ### Posts and pends -/

/-- `OSSemPost` and `OSQPost`: the error, whether `OS_Sched` is called, and the state. `store` is
what becomes of an event nobody waits for. -/
def osPost (kind : OsKind) (e : OsEventId) (pmsg : VoidPtr)
    (store : OsEvent → OsError × OsEvent) : OsError × Bool × OsKernel :=
  let ev := k.osEventTbl e
  if ev.osEventType ≠ some kind then (.eventType, false, k)
  else if ev.osEventTbl.grp ≠ 0#8 then
    (.none, true, (k.osEventTaskRdy e pmsg kind.stat .ok).2)
  else
    let (err, ev) := store ev
    (err, false, k.setEvent e ev)

/-- `OSSemPost`. -/
def osSemPost (e : OsEventId) : OsError × Bool × OsKernel :=
  k.osPost .sem e 0 fun ev ↦
    if ev.osEventCnt < 65535 then (.none, { ev with osEventCnt := ev.osEventCnt + 1 })
    else (.semOvf, ev)

/-- `OSQPost`. -/
def osqPost (e : OsEventId) (pmsg : VoidPtr) : OsError × Bool × OsKernel :=
  k.osPost .q e pmsg fun ev ↦
    if ev.osEventPtr.osqEntries ≥ ev.osEventPtr.osqSize then (.qFull, ev)
    else (.none, { ev with osEventPtr := ev.osEventPtr.put pmsg })

/-- `OSSemPend` and `OSQPend` up to the end of the first critical section: what is returned, or
`none` where the running task has been put to wait and calls `OS_Sched`. `fetch` is what is taken
out of an event that has something. -/
def osPend (kind : OsKind) (e : OsEventId) (timeout : UInt32)
    (fetch : OsEvent → Option (VoidPtr × OsEvent)) : Option OsRet × OsKernel :=
  let ev := k.osEventTbl e
  if ev.osEventType ≠ some kind then (some ⟨.eventType, 0⟩, k)
  else if k.osIntNesting > 0 then (some ⟨.pendIsr, 0⟩, k)
  else if k.osLockNesting > 0 then (some ⟨.pendLocked, 0⟩, k)
  else match fetch ev with
    | some (msg, ev) => (some ⟨.none, msg⟩, k.setEvent e ev)
    | none =>
      let tcb := k.osTcbPrioTbl k.osPrioCur
      let tcb := { tcb with
        osTcbStat := tcb.osTcbStat ||| kind.stat
        osTcbStatPend := .ok
        osTcbDly := timeout.toNat }
      (none, (k.setTcb k.osPrioCur tcb).osEventTaskWait e)

/-- `OSSemPend`, up to `OS_Sched`. -/
def osSemPend (e : OsEventId) (timeout : UInt32) : Option OsRet × OsKernel :=
  k.osPend .sem e timeout fun ev ↦
    if ev.osEventCnt > 0 then some (0, { ev with osEventCnt := ev.osEventCnt - 1 }) else none

/-- `OSQPend`, up to `OS_Sched`. -/
def osqPend (e : OsEventId) (timeout : UInt32) : Option OsRet × OsKernel :=
  k.osPend .q e timeout fun ev ↦
    if ev.osEventPtr.osqEntries > 0 then
      some (ev.osEventPtr.take.1, { ev with osEventPtr := ev.osEventPtr.take.2 })
    else none

/-- `OSSemPend` and `OSQPend` from `OS_Sched` on: the second critical section. A message is
delivered by `OSQPend`, which also clears it. -/
def osPendEnd (kind : OsKind) (e : OsEventId) : OsRet × OsKernel :=
  let p := k.osPrioCur
  let tcb := k.osTcbPrioTbl p
  let (ret, k) : OsRet × OsKernel := match tcb.osTcbStatPend with
    | .ok => (⟨.none, if kind = .q then tcb.osTcbMsg else 0⟩, k)
    | .abort => (⟨.pendAbort, 0⟩, k)
    | .timeout => (⟨.timeout, 0⟩, k.osEventTaskRemove p e)
  (ret, k.setTcb p { tcb with
    osTcbStat := 0
    osTcbStatPend := .ok
    osTcbEventPtr := none
    osTcbMsg := if kind = .q then 0 else tcb.osTcbMsg })

/-! ### Time -/

/-- `OSTimeDly`, up to `OS_Sched`, and whether that is called. -/
def osTimeDly (ticks : UInt32) : Bool × OsKernel :=
  if k.osIntNesting > 0 then (false, k)
  else if k.osLockNesting > 0 then (false, k)
  else if ticks > 0 then
    let k := { k with osRdyTbl := k.osRdyTbl.erase k.osPrioCur }
    (true, k.setTcb k.osPrioCur
      { k.osTcbPrioTbl k.osPrioCur with osTcbDly := ticks.toNat })
  else (false, k)

/-- `OSTimeGet`. -/
def osTimeGet : UInt32 := k.osTime

/-- `OSTimeTick` up to its loop: the clock, and the tasks the loop goes through, which are those in
front of the idle task. -/
def osTimeTick : List OsPrio × OsKernel :=
  (k.osTcbList.takeWhile (· ≠ osTaskIdlePrio), { k with osTime := k.osTime + 1 })

/-- What the loop of `OSTimeTick` does with one task, in a critical section of its own. -/
def osTimeTickTask (p : OsPrio) : OsKernel :=
  let tcb := k.osTcbPrioTbl p
  if tcb.osTcbDly ≠ 0 then
    let tcb := { tcb with osTcbDly := tcb.osTcbDly - 1 }
    if tcb.osTcbDly = 0 then
      let tcb := if tcb.osTcbStat &&& osStatPendAny ≠ 0 then
          { tcb with
            osTcbStat := tcb.osTcbStat &&& ~~~osStatPendAny
            osTcbStatPend := .timeout }
        else { tcb with osTcbStatPend := .ok }
      let k := k.setTcb p tcb
      if tcb.osTcbStat &&& osStatSuspend = 0 then
        { k with osRdyTbl := k.osRdyTbl.insert p }
      else k
    else k.setTcb p tcb
  else k

end OsKernel

end YHAudioLink
