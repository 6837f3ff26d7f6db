import YHAudioLink.Foundation.Linearizability
import YHAudioLink.Foundation.Runs
import YHAudioLink.Kernel.Os

/-!
# Tasks and interrupts on the kernel

Any number of tasks whose code is arbitrary, and interrupt handlers that come at any moment, nested
or not. A step is one critical section of the kernel, or `OS_Sched`, or the return of a call. While
an interrupt handler runs no task moves; the task that does is the one of `OSPrioCur`. A task that
has been put to wait stands behind `OS_Sched` in the middle of its call until the kernel switches
back to it.

An interrupt can come between the critical section of a call and its `OS_Sched`, and so switch away
from a task that is on its way there. That is why `sched` is a step of its own. And one of higher
priority can come between the critical sections of `OSTimeTick`, and post while some of the tasks
have been ticked and others have not: `todo` are the latter. The timer's interrupt does not come on
top of itself, so at most one tick is in progress, and its handler goes on only when those that have
come on top of it are done.

## The history

Posts and pends on semaphores and queues are the calls of an object that the tasks share, and the
machine notes their invocations and returns in `history`. It is ghost, like the numbers of the
calls, the tick at which a waiting task is due, and the count of the ticks. Ticks are counted **for
each task**: a tick has come for it when the timer has been with it (`ticksOf`). A pend that the
scheduler lock refuses has no effect on any event and is not noted.
-/

namespace YHAudioLink

open Linearizability

/-- What is posted: a token of a semaphore, or a message to a queue. -/
inductive OsPosted
  | sem
  | q (msg : VoidPtr)
  deriving DecidableEq

/-- The type of event it is posted to. -/
def OsPosted.kind : OsPosted → OsKind
  | sem => .sem
  | q _ => .q

/-- The pointer a waiting task is given. -/
def OsPosted.msg : OsPosted → VoidPtr
  | sem => 0
  | q msg => msg

/-- The calls on events. -/
inductive OsOp
  | post (e : OsEventId) (what : OsPosted)
  | pend (e : OsEventId) (kind : OsKind) (timeout : UInt32)
  deriving DecidableEq

/-- The post of a kind of event. -/
def OsKernel.osPostOf (k : OsKernel) (e : OsEventId) : OsPosted → OsError × Bool × OsKernel
  | .sem => k.osSemPost e
  | .q msg => k.osqPost e msg

/-- The pend on a kind of event. -/
def OsKernel.osPendOf (k : OsKernel) (e : OsEventId) (timeout : UInt32) :
    OsKind → Option OsRet × OsKernel
  | .sem => k.osSemPend e timeout
  | .q => k.osqPend e timeout

/-- What a task does when it goes on behind `OS_Sched`. -/
inductive OsNext
  /-- Its own code. -/
  | app
  /-- It returns from `OSTimeDly`, which it called to sleep until the tick `due`. -/
  | dly (due : ℕ)
  /-- It returns `ret` from its call number `n`. -/
  | ret (n : ℕ) (op : OsOp) (ret : OsRet)
  /-- The second critical section of its pend, call number `n`, due at a tick if not for ever. -/
  | pend (n : ℕ) (e : OsEventId) (kind : OsKind) (timeout : UInt32) (due : ℕ)
  deriving DecidableEq

/-- Where a task stands: before `OS_Sched` or behind it. -/
inductive OsPc
  | sched (next : OsNext)
  | past (next : OsNext)
  deriving DecidableEq

/-- What comes next apart from `OS_Sched`. -/
def OsPc.next : OsPc → OsNext
  | sched next => next
  | .past next => next

/-- A run's state. -/
structure OsRun where
  k : OsKernel
  pc : OsPrio → OsPc
  /-- The ticks so far: how often the clock has been counted. -/
  ticks : ℕ
  /-- The tasks that the `OSTimeTick` in progress has still to go through. -/
  todo : List OsPrio
  /-- The handlers that have come on top of it. -/
  nested : ℕ
  history : List (Event (Option OsPrio × ℕ) OsOp OsRet)

/-- The calls of a task. -/
inductive OsCall
  | op (op : OsOp)
  | timeDly (ticks : UInt32)
  | schedLock
  | schedUnlock

/-- Who moves. -/
inductive OsAct
  /-- The running task calls the kernel. -/
  | call (c : OsCall)
  /-- The running task calls `OS_Sched`. -/
  | sched
  /-- The running task goes on behind `OS_Sched`, up to the return of its call. -/
  | resume
  | intEnter
  /-- An interrupt handler posts. -/
  | intPost (e : OsEventId) (what : OsPosted)
  /-- The handler of the timer calls `OSTimeTick`, which counts the clock. -/
  | intTick
  /-- It ticks the next task. -/
  | intTickTask
  | intExit

namespace OsRun

variable (s : OsRun)

/-- **The ticks that have come for a task**: all there were, but for the one in progress as long as
it has not come to the task. -/
def ticksOf (p : OsPrio) : ℕ :=
  if p ∈ s.todo then s.ticks - 1 else s.ticks

/-- A handler runs, and not in the middle of `OSTimeTick`. -/
def Handling : Prop :=
  0 < s.k.osIntNesting ∧ (s.todo = [] ∨ 0 < s.nested)

instance : Decidable s.Handling :=
  inferInstanceAs (Decidable (0 < s.k.osIntNesting ∧ (s.todo = [] ∨ 0 < s.nested)))

/-- The running task stands somewhere else, in another state of the kernel. -/
def goto (k : OsKernel) (pc : OsPc) : OsRun :=
  { s with k := k, pc := Function.update s.pc s.k.osPrioCur pc }

/-- An entry in the history. -/
def log (ev : Event (Option OsPrio × ℕ) OsOp OsRet) : OsRun :=
  { s with history := s.history ++ [ev] }

/-- A call of the running task. The number of a call is the length of the history before it. -/
def call : OsCall → OsRun
  | .op (.post e what) =>
    let n := s.history.length
    let (err, resched, k) := s.k.osPostOf e what
    let next := OsNext.ret n (.post e what) ⟨err, 0⟩
    (s.log (.invoke (some s.k.osPrioCur, n) (.post e what))).goto k
      (if resched then .sched next else .past next)
  | .op (.pend e kind timeout) =>
    let n := s.history.length
    match s.k.osPendOf e timeout kind with
    | (some ⟨.pendLocked, _⟩, k) => s.goto k (.past .app)
    | (some ret, k) =>
      (s.log (.invoke (some s.k.osPrioCur, n) (.pend e kind timeout))).goto k
        (.past (.ret n (.pend e kind timeout) ret))
    | (none, k) =>
      (s.log (.invoke (some s.k.osPrioCur, n) (.pend e kind timeout))).goto k
        (.sched (.pend n e kind timeout (s.ticksOf s.k.osPrioCur + timeout.toNat)))
  | .timeDly ticks =>
    match s.k.osTimeDly ticks with
    | (true, k) => s.goto k (.sched (.dly (s.ticksOf s.k.osPrioCur + ticks.toNat)))
    | (false, k) => s.goto k (.past .app)
  | .schedLock => s.goto s.k.osSchedLock (.past .app)
  | .schedUnlock =>
    match s.k.osSchedUnlock with
    | (true, k) => s.goto k (.sched .app)
    | (false, k) => s.goto k (.past .app)

/-- The running task goes on behind `OS_Sched`. -/
def resume : OsNext → OsRun
  | .app => s.goto s.k (.past .app)
  | .dly _ => s.goto s.k (.past .app)
  | .ret n _ ret => (s.log (.respond (some s.k.osPrioCur, n) ret)).goto s.k (.past .app)
  | .pend n e kind _ _ =>
    let (ret, k) := s.k.osPendEnd kind e
    (s.log (.respond (some s.k.osPrioCur, n) ret)).goto k (.past .app)

/-- A post of an interrupt handler: a call that begins and ends at once. -/
def intPost (e : OsEventId) (what : OsPosted) : OsRun :=
  let n := s.history.length
  let (err, _, k) := s.k.osPostOf e what
  { s with
    k := k
    history := s.history ++ [.invoke (none, n) (.post e what), .respond (none, n) ⟨err, 0⟩] }

/-- The timer counts the clock and starts to go through the tasks. -/
def intTick : OsRun :=
  let (todo, k) := s.k.osTimeTick
  { s with k := k, ticks := s.ticks + 1, todo := todo, nested := 0 }

/-- **One step.** The idle task makes no calls. -/
def step : OsAct → Option OsRun
  | .call c =>
    match s.pc s.k.osPrioCur with
    | .past .app =>
      if s.k.osIntNesting = 0 ∧ s.k.osPrioCur ≠ osTaskIdlePrio then some (s.call c) else none
    | _ => none
  | .sched =>
    match s.pc s.k.osPrioCur with
    | .sched next => if s.k.osIntNesting = 0 then some (s.goto s.k.osSched (.past next)) else none
    | _ => none
  | .resume =>
    match s.pc s.k.osPrioCur with
    | .past next => if s.k.osIntNesting = 0 then some (s.resume next) else none
    | _ => none
  | .intEnter => some { s with k := s.k.osIntEnter, nested := s.nested + 1 }
  | .intPost e what => if s.Handling then some (s.intPost e what) else none
  | .intTick => if 0 < s.k.osIntNesting ∧ s.todo = [] then some s.intTick else none
  | .intTickTask =>
    match s.todo with
    | p :: todo =>
      if 0 < s.k.osIntNesting ∧ s.nested = 0 then
        some { s with k := s.k.osTimeTickTask p, todo := todo }
      else none
    | [] => none
  | .intExit =>
    if s.Handling then some { s with k := s.k.osIntExit, nested := s.nested - 1 } else none

/-- What a step is, guard and effect together. -/
inductive Moves : OsAct → OsRun → Prop
  | call (c : OsCall) (hpc : s.pc s.k.osPrioCur = .past .app) (hint : s.k.osIntNesting = 0)
      (hne : s.k.osPrioCur ≠ osTaskIdlePrio) : Moves (.call c) (s.call c)
  | sched (next : OsNext) (hpc : s.pc s.k.osPrioCur = .sched next) (hint : s.k.osIntNesting = 0) :
      Moves .sched (s.goto s.k.osSched (.past next))
  | resume (next : OsNext) (hpc : s.pc s.k.osPrioCur = .past next) (hint : s.k.osIntNesting = 0) :
      Moves .resume (s.resume next)
  | intEnter : Moves .intEnter { s with k := s.k.osIntEnter, nested := s.nested + 1 }
  | intPost (e : OsEventId) (what : OsPosted) (hint : s.Handling) :
      Moves (.intPost e what) (s.intPost e what)
  | intTick (hint : 0 < s.k.osIntNesting) (htodo : s.todo = []) : Moves .intTick s.intTick
  | intTickTask (p : OsPrio) (todo : List OsPrio) (htodo : s.todo = p :: todo)
      (hint : 0 < s.k.osIntNesting) (hnested : s.nested = 0) :
      Moves .intTickTask { s with k := s.k.osTimeTickTask p, todo := todo }
  | intExit (hint : s.Handling) :
      Moves .intExit { s with k := s.k.osIntExit, nested := s.nested - 1 }

variable {s}

/-- Every step is one of these. -/
theorem moves_of_step {a : OsAct} {t : OsRun} (h : s.step a = some t) : s.Moves a t := by
  cases a with
  | call c =>
    simp only [step] at h
    split at h
    · next hpc =>
      split at h
      · next hfree =>
        obtain rfl := Option.some.inj h
        exact .call c hpc hfree.1 hfree.2
      · cases h
    · cases h
  | sched =>
    simp only [step] at h
    split at h
    · next next hpc =>
      split at h
      · next hint =>
        obtain rfl := Option.some.inj h
        exact .sched next hpc hint
      · cases h
    · cases h
  | resume =>
    simp only [step] at h
    split at h
    · next next hpc =>
      split at h
      · next hint =>
        obtain rfl := Option.some.inj h
        exact .resume next hpc hint
      · cases h
    · cases h
  | intEnter =>
    obtain rfl := Option.some.inj h
    exact .intEnter
  | intPost e what =>
    simp only [step] at h
    split at h
    · next hint =>
      obtain rfl := Option.some.inj h
      exact .intPost e what hint
    · cases h
  | intTick =>
    simp only [step] at h
    split at h
    · next hfree =>
      obtain rfl := Option.some.inj h
      exact .intTick hfree.1 hfree.2
    · cases h
  | intTickTask =>
    simp only [step] at h
    split at h
    · next p todo htodo =>
      split at h
      · next hfree =>
        obtain rfl := Option.some.inj h
        exact .intTickTask p todo htodo hfree.1 hfree.2
      · cases h
    · cases h
  | intExit =>
    simp only [step] at h
    split at h
    · next hint =>
      obtain rfl := Option.some.inj h
      exact .intExit hint
    · cases h

end OsRun

/-- **The kernel when `OSStart` has chosen the first task**: the tasks there are, the idle task at
the end of the list, are all ready, nobody waits, and the queues are as `OSQCreate` has made them.
-/
structure OsRun.Init (s : OsRun) : Prop where
  tasks : ∃ ps, s.k.osTcbList = ps ++ [osTaskIdlePrio] ∧ osTaskIdlePrio ∉ ps ∧ ps.Nodup
  ready : ∀ p, p ∈ s.k.osRdyTbl ↔ p ∈ s.k.osTcbList
  tcb : ∀ p, s.k.osTcbPrioTbl p = osTcbInit
  cur : s.k.osPrioCur = s.k.osRdyTbl.highest
  intNesting : s.k.osIntNesting = 0
  lockNesting : s.k.osLockNesting = 0
  nobody : ∀ e p, p ∉ (s.k.osEventTbl e).osEventTbl
  queue : ∀ e, (s.k.osEventTbl e).osEventType = some .q → (s.k.osEventTbl e).osEventPtr.Wf
  pc : ∀ p, s.pc p = .past .app
  ticks : s.ticks = 0
  todo : s.todo = []
  history : s.history = []

/-- **The state in which `OSStart` has chosen the first task**, with the tasks `ps` and the idle
task. -/
def OsRun.start (ps : List OsPrio) (events : OsEventId → OsEvent) : OsRun where
  k :=
    let rdy := (ps ++ [osTaskIdlePrio]).foldl OsTbl.insert OsTbl.empty
    ⟨rdy, fun _ ↦ osTcbInit, ps ++ [osTaskIdlePrio], rdy.highest, 0, 0, events, 0⟩
  pc := fun _ ↦ .past .app
  ticks := 0
  todo := []
  nested := 0
  history := []

theorem OsTbl.mem_foldl_insert {t : OsTbl} {ps : List OsPrio} {p : OsPrio} :
    p ∈ ps.foldl OsTbl.insert t ↔ p ∈ ps ∨ p ∈ t := by
  induction ps generalizing t with
  | nil => simp
  | cons q ps ih =>
    rw [List.foldl_cons, ih, OsTbl.mem_insert, List.mem_cons]
    tauto

theorem OsRun.init_start {ps : List OsPrio} {events : OsEventId → OsEvent}
    (hidle : osTaskIdlePrio ∉ ps) (hnodup : ps.Nodup) (hnobody : ∀ e p, p ∉ (events e).osEventTbl)
    (hqueue : ∀ e, (events e).osEventType = some .q → (events e).osEventPtr.Wf) :
    (OsRun.start ps events).Init where
  tasks := ⟨ps, rfl, hidle, hnodup⟩
  ready := fun p ↦ by
    show p ∈ (ps ++ [osTaskIdlePrio]).foldl OsTbl.insert OsTbl.empty ↔ p ∈ ps ++ [osTaskIdlePrio]
    rw [OsTbl.mem_foldl_insert]
    exact or_iff_left OsTbl.notMem_empty
  tcb := fun _ ↦ rfl
  cur := rfl
  intNesting := rfl
  lockNesting := rfl
  nobody := hnobody
  queue := hqueue
  pc := fun _ ↦ rfl
  ticks := rfl
  todo := rfl
  history := rfl

/-- Two tasks, a semaphore without a token, and an empty queue for two messages. -/
def OsRun.startTwo : OsRun :=
  OsRun.start [⟨5, by decide⟩, ⟨10, by decide⟩] fun e ↦
    ⟨if e.val = 0 then some .sem else if e.val = 1 then some .q else none, 0,
      OsQcb.create (fun _ ↦ 0) 2, OsTbl.empty⟩

theorem OsRun.init_startTwo : OsRun.startTwo.Init :=
  init_start (by decide) (by decide) (fun _ _ ↦ OsTbl.notMem_empty)
    fun _ _ ↦ OsQcb.create_wf Nat.two_pos

/-- The states of a run. -/
def OsRun.Reached (s : OsRun) : Prop := Runs.Reachable OsRun.Init OsRun.step Runs.everyStep s

/-- A schedule of the two tasks that ends in a state with a checkable property. -/
theorem OsRun.exists_reached_of_exec (acts : List OsAct) (check : OsRun → Bool)
    (h : (Runs.execOk OsRun.step Runs.everyStep OsRun.startTwo acts).map check = some true) :
    ∃ s : OsRun, s.Reached ∧ check s = true :=
  Runs.exists_reachable_of_execOk OsRun.init_startTwo h

end YHAudioLink
