import YHAudioLink.Kernel.OsPreservation

/-!
# The running task

What holds in every state of a run, beside the conditions of the tasks (`OsRun.Inv`): who may be
running. The running task is the ready task of highest priority, but for three occasions on which it
need not be: in an interrupt handler, while the scheduler is locked, and between the critical
section of a call and the `OS_Sched` behind it. The last is also the only one on which the running
task need not be ready. With the scheduler locked no call puts the running task to wait, so it stays
ready there.

From the invariant follow the results about time: a task in `OSTimeDly` is ready just when its tick
has come (`osTimeDly_ready_iff`), a pending task is ready early only because it has been granted
what it waits for (`osPend_ready_or_listed`), and it returns nothing but that or a timeout
(`osPend_returns`).
-/

namespace YHAudioLink

open Linearizability

namespace OsKernel

variable {k : OsKernel} {clock : OsPrio → ℕ} {f : OsPrio → OsNext} {p : OsPrio}

/-- The idle task is one of the tasks. -/
theorem Ok.idle_mem (h : k.Ok clock f) : osTaskIdlePrio ∈ k.osTcbList := by
  obtain ⟨ps, hlist, -⟩ := h.list
  rw [hlist]
  exact List.mem_append_right _ (List.mem_singleton_self _)

/-- A ready task is one of the tasks. -/
theorem Ok.mem_of_ready (h : k.Ok clock f) (hp : p ∈ k.osRdyTbl) : p ∈ k.osTcbList := by
  by_contra habsent
  exact (h.absent p habsent).1 hp

/-- **`OS_SchedNew` chooses a ready task**, since the idle task always is one. -/
theorem Ok.highest_ready (h : k.Ok clock f) (hidle : f osTaskIdlePrio = .app) :
    k.osRdyTbl.highest ∈ k.osRdyTbl := by
  have hrun := h.task _ h.idle_mem
  rw [hidle] at hrun
  exact OsTbl.highest_mem hrun.ready

end OsKernel

namespace OsRun

open OsKernel

variable {s t : OsRun} {k : OsKernel} {pc : OsPc} {p : OsPrio}

/-! ### The invariant of the runs -/

/-- **A tick in progress**: the timer has still to go through some of the tasks, once through each,
and the clock has been counted. -/
structure Ticking (tasks : List OsPrio) (ticks : ℕ) (todo : List OsPrio) : Prop where
  nodup : todo.Nodup
  mem : ∀ p ∈ todo, p ∈ tasks
  counted : todo ≠ [] → 0 < ticks

/-- **The invariant of the runs.** -/
structure Inv (s : OsRun) : Prop where
  ok : s.k.Ok s.ticksOf fun p ↦ (s.pc p).next
  idle : s.pc osTaskIdlePrio = .past .app
  cur : s.k.osPrioCur ∈ s.k.osTcbList
  /-- Only on its way to `OS_Sched` need the running task not be ready. -/
  standing : (∃ next, s.pc s.k.osPrioCur = .sched next) ∨ s.k.osPrioCur ∈ s.k.osRdyTbl
  /-- It is not made to wait while the scheduler is locked. -/
  locked : 0 < s.k.osLockNesting → s.k.osPrioCur ∈ s.k.osRdyTbl
  /-- And it is the highest of the ready tasks, but on the three occasions. -/
  first : s.k.osIntNesting = 0 → s.k.osLockNesting = 0 →
    (∃ next, s.pc s.k.osPrioCur = .sched next) ∨ ∀ q ∈ s.k.osRdyTbl, s.k.osPrioCur ≤ q
  ticking : Ticking s.k.osTcbList s.ticks s.todo

/-- Between two ticks all that there were have come. -/
theorem ticksOf_of_nil (h : s.todo = []) (p : OsPrio) : s.ticksOf p = s.ticks :=
  if_neg (h ▸ List.not_mem_nil)

theorem ticksOf_le (s : OsRun) (p : OsPrio) : s.ticksOf p ≤ s.ticks := by
  rw [ticksOf]
  split
  · exact Nat.sub_le _ _
  · exact le_rfl

@[simp] theorem log_k (s : OsRun) (ev) : (s.log ev).k = s.k := rfl

@[simp] theorem goto_k (s : OsRun) (k : OsKernel) (pc : OsPc) : (s.goto k pc).k = k := rfl

@[simp] theorem goto_pc_self (s : OsRun) (k : OsKernel) (pc : OsPc) :
    (s.goto k pc).pc s.k.osPrioCur = pc := Function.update_self _ _ _

theorem goto_pc_of_ne (h : p ≠ s.k.osPrioCur) : (s.goto k pc).pc p = s.pc p :=
  Function.update_of_ne h _ _

/-- What the tasks do next when one of them stands somewhere else. -/
theorem goto_next (s : OsRun) (k : OsKernel) (pc : OsPc) :
    (fun p ↦ ((s.goto k pc).pc p).next) =
      Function.update (fun p ↦ (s.pc p).next) s.k.osPrioCur pc.next := by
  funext p
  exact Function.apply_update (fun _ ↦ OsPc.next) s.pc s.k.osPrioCur pc p

/-- The history does not matter. -/
theorem Inv.log (h : s.Inv) (ev : Event (Option OsPrio × ℕ) OsOp OsRet) : (s.log ev).Inv :=
  ⟨h.ok, h.idle, h.cur, h.standing, h.locked, h.first, h.ticking⟩

/-- **The running task moves without a switch.** If it does not stop before `OS_Sched`, the ready
tasks are as they were. -/
theorem Inv.goto (h : s.Inv) (hne : s.k.osPrioCur ≠ osTaskIdlePrio ∨ pc = .past .app)
    (hok : k.Ok s.ticksOf (Function.update (fun p ↦ (s.pc p).next) s.k.osPrioCur pc.next))
    (hlist : k.osTcbList = s.k.osTcbList) (hcur : k.osPrioCur = s.k.osPrioCur)
    (hpast : (∃ next, pc = .sched next) ∨ k.osPrioCur ∈ k.osRdyTbl)
    (hlocked : 0 < k.osLockNesting → k.osPrioCur ∈ k.osRdyTbl)
    (hfirst : k.osIntNesting = 0 → k.osLockNesting = 0 →
      (∃ next, pc = .sched next) ∨ ∀ q ∈ k.osRdyTbl, k.osPrioCur ≤ q) :
    (s.goto k pc).Inv where
  ok := by
    rw [goto_next]
    exact hok
  idle := by
    by_cases heq : osTaskIdlePrio = s.k.osPrioCur
    · rw [heq, goto_pc_self]
      exact hne.resolve_left fun hne ↦ hne heq.symm
    · rw [goto_pc_of_ne heq]
      exact h.idle
  cur := by
    rw [goto_k, hcur, hlist]
    exact h.cur
  standing := by
    rw [goto_k, hcur, goto_pc_self, ← hcur]
    exact hpast
  locked := hlocked
  first := by
    rw [goto_k, hcur, goto_pc_self, ← hcur]
    exact hfirst
  ticking := hlist ▸ h.ticking

/-- A task behind `OS_Sched` is not before it. -/
theorem not_sched {next : OsNext} (hpc : s.pc p = .past next) :
    ¬ ∃ next, s.pc p = .sched next := by
  rintro ⟨next', hnext⟩
  rw [hpc] at hnext
  cases hnext

/-- **Behind `OS_Sched` the running task moves without a switch**, and the ready tasks stay. -/
theorem Inv.goto_past (h : s.Inv) {next next' : OsNext}
    (hpc : s.pc s.k.osPrioCur = .past next) (hne : s.k.osPrioCur ≠ osTaskIdlePrio ∨ next' = .app)
    (hok : k.Ok s.ticksOf (Function.update (fun p ↦ (s.pc p).next) s.k.osPrioCur next'))
    (hlist : k.osTcbList = s.k.osTcbList) (hcur : k.osPrioCur = s.k.osPrioCur)
    (hrdy : k.osRdyTbl = s.k.osRdyTbl) (hfirst : k.osIntNesting = 0 → k.osLockNesting = 0 →
      s.k.osIntNesting = 0 ∧ s.k.osLockNesting = 0) :
    (s.goto k (.past next')).Inv := by
  have hready : k.osPrioCur ∈ k.osRdyTbl := by
    rw [hcur, hrdy]
    exact h.standing.resolve_left (not_sched hpc)
  refine h.goto (hne.imp_right (congrArg OsPc.past)) hok hlist hcur (.inr hready)
    (fun _ ↦ hready) fun hint hlock ↦ .inr ?_
  obtain ⟨hint, hlock⟩ := hfirst hint hlock
  rw [hcur, hrdy]
  exact (h.first hint hlock).resolve_left (not_sched hpc)

/-- **A switch to the highest of the ready tasks.** -/
theorem Inv.schedNew (hok : s.k.Ok s.ticksOf fun p ↦ (s.pc p).next)
    (hidle : s.pc osTaskIdlePrio = .past .app) (hticking : Ticking s.k.osTcbList s.ticks s.todo) :
    OsRun.Inv { s with k := s.k.osSchedNew } where
  ok := hok.congr rfl rfl rfl rfl
  idle := hidle
  cur := hok.mem_of_ready (hok.highest_ready (congrArg OsPc.next hidle))
  standing := .inr (hok.highest_ready (congrArg OsPc.next hidle))
  locked := fun _ ↦ hok.highest_ready (congrArg OsPc.next hidle)
  first := fun _ _ ↦ .inr fun _ hq ↦ OsTbl.highest_le hq
  ticking := hticking

theorem inv_of_init (h : s.Init) : s.Inv := by
  obtain ⟨ps, hlist, hnot, hnodup⟩ := h.tasks
  have hidle : osTaskIdlePrio ∈ s.k.osTcbList := by
    rw [hlist]
    exact List.mem_append_right _ (List.mem_singleton_self _)
  have hready : s.k.osPrioCur ∈ s.k.osRdyTbl := by
    rw [h.cur]
    exact OsTbl.highest_mem ((h.ready _).2 hidle)
  refine ⟨⟨⟨ps, hlist, hnot, hnodup⟩, fun p hp ↦ ?_, fun p hp ↦ ?_, fun e ↦ ?_⟩, h.pc _,
    (h.ready _).1 hready, .inr hready, fun _ ↦ hready, fun _ _ ↦ .inr fun q hq ↦ ?_, ?_⟩
  · rw [h.pc p]
    refine ⟨(h.ready p).2 hp, fun e ↦ h.nobody e p, ?_, ?_⟩ <;> rw [h.tcb p] <;> rfl
  · exact ⟨fun hmem ↦ hp ((h.ready p).1 hmem), fun e ↦ h.nobody e p⟩
  · exact ⟨fun _ ⟨p, hp⟩ ↦ absurd hp (h.nobody e p), h.queue e,
      fun _ ⟨p, hp⟩ ↦ absurd hp (h.nobody e p)⟩
  · rw [h.cur]
    exact OsTbl.highest_le hq
  · refine ⟨?_, fun p hp ↦ ?_, fun hne ↦ absurd h.todo hne⟩
    · rw [h.todo]
      exact List.nodup_nil
    · rw [h.todo] at hp
      exact absurd hp List.not_mem_nil

/-! ### Its preservation -/

/-- The condition of the running task. -/
theorem Inv.task_cur (h : s.Inv) :
    s.k.TaskOk (s.ticksOf s.k.osPrioCur) s.k.osPrioCur (s.pc s.k.osPrioCur).next :=
  h.ok.task _ h.cur

/-- A task in its own code, which may call the kernel and go on in its own code. -/
theorem Inv.running (h : s.Inv) (hpc : s.pc s.k.osPrioCur = .past .app) :
    s.k.Running s.k.osPrioCur ∧ ∀ k : OsKernel, k.Ok s.ticksOf (fun p ↦ (s.pc p).next) →
      k.Ok s.ticksOf (Function.update (fun p ↦ (s.pc p).next) s.k.osPrioCur .app) := by
  have hrun := h.task_cur
  have hnext : OsNext.app = (fun p ↦ (s.pc p).next) s.k.osPrioCur := by
    show OsNext.app = (s.pc s.k.osPrioCur).next
    rw [hpc]
    rfl
  rw [hpc] at hrun
  refine ⟨hrun, fun k hok ↦ ?_⟩
  rw [hnext, Function.update_eq_self]
  exact hok

theorem Inv.call_post (h : s.Inv) (hpc : s.pc s.k.osPrioCur = .past .app)
    (hne : s.k.osPrioCur ≠ osTaskIdlePrio) (e : OsEventId) (what : OsPosted) :
    (s.call (.op (.post e what))).Inv := by
  obtain ⟨hrun, happ⟩ := h.running hpc
  obtain ⟨hok, hsteady, hmono, hrdy⟩ := h.ok.post e what
  obtain ⟨⟨err, resched, k⟩, hpost⟩ : ∃ r, s.k.osPostOf e what = r := ⟨_, rfl⟩
  rw [hpost] at hok hsteady hmono hrdy
  have hready : k.osPrioCur ∈ k.osRdyTbl := by
    rw [hsteady.cur]
    exact hmono _ hrun.ready
  have hnext : ∀ n op ret, k.Ok s.ticksOf
      (Function.update (fun p ↦ (s.pc p).next) s.k.osPrioCur (.ret n op ret)) := by
    intro n op ret
    have htask := hok.task s.k.osPrioCur (hsteady.list ▸ h.cur)
    rw [hpc] at htask
    exact hok.setNext htask
  simp only [call, hpost]
  cases resched with
  | true =>
    exact (h.log _).goto (.inl hne) (hnext _ _ _) hsteady.list hsteady.cur (.inl ⟨_, rfl⟩)
      (fun _ ↦ hready) fun _ _ ↦ .inl ⟨_, rfl⟩
  | false =>
    refine (h.log _).goto (.inl hne) (hnext _ _ _) hsteady.list hsteady.cur (.inr hready)
      (fun _ ↦ hready) fun hint hlock ↦ .inr ?_
    rw [hsteady.int] at hint
    rw [hsteady.lock] at hlock
    rw [hsteady.cur, hrdy rfl]
    exact (h.first hint hlock).resolve_left (not_sched hpc)

theorem Inv.call_pend (h : s.Inv) (hpc : s.pc s.k.osPrioCur = .past .app)
    (hne : s.k.osPrioCur ≠ osTaskIdlePrio) (e : OsEventId) (kind : OsKind) (timeout : UInt32) :
    (s.call (.op (.pend e kind timeout))).Inv := by
  obtain ⟨hrun, happ⟩ := h.running hpc
  have hret : ∀ n op ret, s.k.Ok s.ticksOf
      (Function.update (fun p ↦ (s.pc p).next) s.k.osPrioCur (.ret n op ret)) :=
    fun _ _ _ ↦ h.ok.setNext hrun
  rcases osPendOf_cases s.k e timeout kind with
    ⟨-, hpend⟩ | ⟨-, hpend⟩ | ⟨-, hpend⟩ | ⟨htype, hint, hlock, ⟨msg, ev, hfetch, hpend⟩ |
      ⟨hnone, hpend⟩⟩
  · simp only [call, hpend]
    exact (h.log _).goto_past hpc (.inl hne) (hret _ _ _) rfl rfl rfl fun hint hlock ↦ ⟨hint, hlock⟩
  · simp only [call, hpend]
    exact (h.log _).goto_past hpc (.inl hne) (hret _ _ _) rfl rfl rfl fun hint hlock ↦ ⟨hint, hlock⟩
  · simp only [call, hpend]
    exact h.goto_past hpc (.inl hne) (happ _ h.ok) rfl rfl rfl fun hint hlock ↦ ⟨hint, hlock⟩
  · simp only [call, hpend]
    have hok := h.ok.fetch htype hfetch
    have htask := hok.task s.k.osPrioCur h.cur
    rw [hpc] at htask
    exact (h.log _).goto_past hpc (.inl hne) (hok.setNext htask) rfl rfl rfl fun _ _ ↦ ⟨hint, hlock⟩
  · simp only [call, hpend]
    obtain ⟨-, -, -, hsteady, -⟩ :=
      @osPendWait_of_running _ _ _ (s.ticksOf s.k.osPrioCur) _ timeout rfl hrun htype
    refine (h.log _).goto (.inl hne) (h.ok.pendWait rfl h.cur hrun htype hnone _) hsteady.list
      hsteady.cur (.inl ⟨_, rfl⟩) (fun hpos ↦ ?_) fun _ _ ↦ .inl ⟨_, rfl⟩
    rw [hsteady.lock, hlock] at hpos
    exact absurd hpos (Nat.lt_irrefl 0)

theorem Inv.call_timeDly (h : s.Inv) (hpc : s.pc s.k.osPrioCur = .past .app)
    (hne : s.k.osPrioCur ≠ osTaskIdlePrio) (ticks : UInt32) : (s.call (.timeDly ticks)).Inv := by
  obtain ⟨hrun, happ⟩ := h.running hpc
  have hdly := h.ok.timeDly rfl h.cur hrun ticks
  have hstay : (s.k.osTimeDly ticks).1 = false → (s.k.osTimeDly ticks).2 = s.k := by
    rw [osTimeDly]
    split <;> try exact fun _ ↦ rfl
    split <;> try exact fun _ ↦ rfl
    split
    · exact fun hfalse ↦ by cases hfalse
    · exact fun _ ↦ rfl
  obtain ⟨⟨resched, k⟩, htime⟩ : ∃ r, s.k.osTimeDly ticks = r := ⟨_, rfl⟩
  rw [htime] at hdly hstay
  cases resched with
  | true =>
    simp only [call, htime]
    obtain ⟨hok, hsteady, hint, hlock⟩ := hdly rfl
    refine h.goto (.inl hne) hok hsteady.list hsteady.cur (.inl ⟨_, rfl⟩) (fun hpos ↦ ?_)
      fun _ _ ↦ .inl ⟨_, rfl⟩
    rw [hsteady.lock, hlock] at hpos
    exact absurd hpos (Nat.lt_irrefl 0)
  | false =>
    simp only [call, htime]
    obtain rfl : k = s.k := hstay rfl
    exact h.goto_past hpc (.inl hne) (happ _ h.ok) rfl rfl rfl fun hint hlock ↦ ⟨hint, hlock⟩

theorem Inv.call_schedLock (h : s.Inv) (hpc : s.pc s.k.osPrioCur = .past .app)
    (hne : s.k.osPrioCur ≠ osTaskIdlePrio) : (s.call .schedLock).Inv := by
  obtain ⟨-, happ⟩ := h.running hpc
  show Inv (s.goto s.k.osSchedLock (.past .app))
  rw [osSchedLock]
  split
  · refine h.goto_past hpc (.inl hne) (happ _ (h.ok.congr rfl rfl rfl rfl)) rfl rfl rfl
      fun _ hlock ↦ absurd hlock (Nat.succ_ne_zero _)
  · exact h.goto_past hpc (.inl hne) (happ _ h.ok) rfl rfl rfl fun hint hlock ↦ ⟨hint, hlock⟩

theorem Inv.call_schedUnlock (h : s.Inv) (hpc : s.pc s.k.osPrioCur = .past .app)
    (hne : s.k.osPrioCur ≠ osTaskIdlePrio) : (s.call .schedUnlock).Inv := by
  obtain ⟨hrun, happ⟩ := h.running hpc
  obtain ⟨⟨resched, k⟩, hunlock⟩ : ∃ r, s.k.osSchedUnlock = r := ⟨_, rfl⟩
  have hcases : (resched = false ∧ k = s.k) ∨ (0 < s.k.osLockNesting ∧
      k = { s.k with osLockNesting := s.k.osLockNesting - 1 } ∧
      (resched = false → s.k.osLockNesting - 1 ≠ 0)) := by
    rw [osSchedUnlock] at hunlock
    split at hunlock
    · next hnest =>
      obtain ⟨rfl, rfl⟩ := Prod.mk.inj hunlock
      exact .inr ⟨hnest.2, rfl, fun hfalse ↦ of_decide_eq_false hfalse⟩
    · obtain ⟨rfl, rfl⟩ := Prod.mk.inj hunlock
      exact .inl ⟨rfl, rfl⟩
  rcases hcases with ⟨rfl, rfl⟩ | ⟨hpos, rfl, hlast⟩
  · simp only [call, hunlock]
    exact h.goto_past hpc (.inl hne) (happ _ h.ok) rfl rfl rfl fun hint hlock ↦ ⟨hint, hlock⟩
  · simp only [call, hunlock]
    have hok := happ { s.k with osLockNesting := s.k.osLockNesting - 1 }
      (h.ok.congr rfl rfl rfl rfl)
    cases resched with
    | true =>
      exact h.goto (.inl hne) hok rfl rfl (.inl ⟨_, rfl⟩) (fun _ ↦ hrun.ready) fun _ _ ↦
        .inl ⟨_, rfl⟩
    | false =>
      exact h.goto_past hpc (.inl hne) hok rfl rfl rfl fun _ hlock ↦ absurd hlock (hlast rfl)

/-- **A call keeps the invariant.** -/
theorem Inv.call (h : s.Inv) (hpc : s.pc s.k.osPrioCur = .past .app)
    (hne : s.k.osPrioCur ≠ osTaskIdlePrio) (c : OsCall) : (s.call c).Inv := by
  cases c with
  | op op =>
    cases op with
    | post e what => exact h.call_post hpc hne e what
    | pend e kind timeout => exact h.call_pend hpc hne e kind timeout
  | timeDly ticks => exact h.call_timeDly hpc hne ticks
  | schedLock => exact h.call_schedLock hpc hne
  | schedUnlock => exact h.call_schedUnlock hpc hne

/-- **`OS_Sched` keeps the invariant.** The task that called it goes on behind it when it runs
again. -/
theorem Inv.sched (h : s.Inv) {next : OsNext} (hpc : s.pc s.k.osPrioCur = .sched next)
    (hint : s.k.osIntNesting = 0) : (s.goto s.k.osSched (.past next)).Inv := by
  have hnext : (fun p ↦ ((s.goto s.k (.past next)).pc p).next) = fun p ↦ (s.pc p).next := by
    rw [goto_next]
    refine Function.update_eq_self_iff.2 ?_
    rw [hpc]
    rfl
  have hne : osTaskIdlePrio ≠ s.k.osPrioCur := by
    rintro heq
    have hidle := h.idle
    rw [heq, hpc] at hidle
    cases hidle
  have hok : (s.goto s.k (.past next)).k.Ok s.ticksOf
      fun p ↦ ((s.goto s.k (.past next)).pc p).next := by
    rw [hnext]
    exact h.ok
  have hidle : (s.goto s.k (.past next)).pc osTaskIdlePrio = .past .app := by
    rw [goto_pc_of_ne hne]
    exact h.idle
  rw [osSched]
  split
  · exact Inv.schedNew hok hidle h.ticking
  · next hbusy =>
    have hpos : 0 < s.k.osLockNesting := Nat.pos_of_ne_zero fun hlock ↦ hbusy ⟨hint, hlock⟩
    exact ⟨hok, hidle, h.cur, .inr (h.locked hpos), h.locked,
      fun _ hlock ↦ absurd hlock (Nat.pos_iff_ne_zero.1 hpos), h.ticking⟩

/-- **Going on behind `OS_Sched` keeps the invariant.** -/
theorem Inv.resume (h : s.Inv) {next : OsNext} (hpc : s.pc s.k.osPrioCur = .past next) :
    (s.resume next).Inv := by
  have htask := h.task_cur
  have hready : s.k.osPrioCur ∈ s.k.osRdyTbl := h.standing.resolve_left (not_sched hpc)
  rw [hpc] at htask
  cases next with
  | app =>
    exact h.goto_past hpc (.inr rfl) (h.ok.setNext htask) rfl rfl rfl fun hint hlock ↦ ⟨hint, hlock⟩
  | dly due =>
    have hrun : s.k.Running s.k.osPrioCur := by
      rcases htask.time with ⟨hzero, -, -⟩ | ⟨-, hnot, -⟩
      · exact ⟨hready, htask.nowhere, htask.stat, hzero⟩
      · exact absurd hready hnot
    exact h.goto_past hpc (.inr rfl) (h.ok.setNext hrun) rfl rfl rfl fun hint hlock ↦ ⟨hint, hlock⟩
  | ret n op ret =>
    exact (h.log _).goto_past hpc (.inr rfl) (h.ok.setNext htask) rfl rfl rfl
      fun hint hlock ↦ ⟨hint, hlock⟩
  | pend n e kind timeout due =>
    obtain ⟨-, -, hsteady, hrdy, -⟩ := osPendEnd_of_ready rfl htask hready
    exact (h.log _).goto_past hpc (.inr rfl) (h.ok.pendEnd rfl h.cur htask hready) hsteady.list
      hsteady.cur hrdy fun hint hlock ↦ ⟨hsteady.int.symm.trans hint, hsteady.lock.symm.trans hlock⟩

/-- What happens to the tasks in an interrupt handler, which runs on. -/
theorem Inv.handler (h : s.Inv) {ticks nested : ℕ} {todo : List OsPrio} {history}
    (hok : k.Ok (OsRun.ticksOf ⟨k, s.pc, ticks, todo, nested, history⟩) fun p ↦ (s.pc p).next)
    (hticking : Ticking s.k.osTcbList ticks todo) (hsteady : Steady s.k k)
    (hmono : ∀ q, q ∈ s.k.osRdyTbl → q ∈ k.osRdyTbl) (hint : 0 < s.k.osIntNesting) :
    OsRun.Inv ⟨k, s.pc, ticks, todo, nested, history⟩ := by
  refine ⟨hok, h.idle, ?_, ?_, ?_, ?_, hsteady.list ▸ hticking⟩
  · rw [hsteady.cur, hsteady.list]
    exact h.cur
  · rw [hsteady.cur]
    exact h.standing.imp_right (hmono _)
  · rw [hsteady.cur, hsteady.lock]
    exact fun hpos ↦ hmono _ (h.locked hpos)
  · rw [hsteady.int]
    exact fun hzero ↦ absurd hzero (Nat.pos_iff_ne_zero.1 hint)

theorem Inv.intEnter (h : s.Inv) :
    OsRun.Inv { s with k := s.k.osIntEnter, nested := s.nested + 1 } := by
  rw [osIntEnter]
  split
  · exact ⟨h.ok.congr rfl rfl rfl rfl, h.idle, h.cur, h.standing, h.locked,
      fun hzero ↦ absurd hzero (Nat.succ_ne_zero _), h.ticking⟩
  · exact ⟨h.ok, h.idle, h.cur, h.standing, h.locked, h.first, h.ticking⟩

theorem Inv.intPost (h : s.Inv) (hint : s.Handling) (e : OsEventId) (what : OsPosted) :
    (s.intPost e what).Inv := by
  obtain ⟨hok, hsteady, hmono, -⟩ := h.ok.post e what
  exact h.handler hok h.ticking hsteady hmono hint.1

/-- The clock is counted. The tick has come for no task yet, but for the idle task, which does not
wait for one. -/
theorem Inv.intTick (h : s.Inv) (hint : 0 < s.k.osIntNesting) (htodo : s.todo = []) :
    s.intTick.Inv := by
  obtain ⟨hnodup, hmem⟩ := h.ok.osTimeTick_todo
  have hok : s.k.osTimeTick.2.Ok s.intTick.ticksOf fun p ↦ (s.pc p).next := by
    refine ⟨h.ok.list, fun p hp ↦ ?_, h.ok.absent, h.ok.event⟩
    have hsame : Same s.k s.k.osTimeTick.2 p := ⟨Iff.rfl, fun _ ↦ Iff.rfl, rfl, fun _ ↦ rfl⟩
    have htask := hsame.taskOk (h.ok.task p hp)
    by_cases hidle : p = osTaskIdlePrio
    · have hpc : (s.pc p).next = .app := by
        rw [hidle, h.idle]
        rfl
      rw [hpc] at htask ⊢
      exact htask
    · have hticks : s.intTick.ticksOf p = s.ticksOf p := by
        rw [ticksOf_of_nil htodo]
        exact if_pos ((hmem p).2 ⟨hp, hidle⟩)
      rw [hticks]
      exact htask
  exact h.handler hok ⟨hnodup, fun p hp ↦ ((hmem p).1 hp).1, fun _ ↦ Nat.succ_pos _⟩
    ⟨rfl, rfl, rfl, rfl⟩ (fun _ ↦ id) hint

/-- The timer goes on to the next task: the tick in progress has come for it. -/
theorem Inv.intTickTask (h : s.Inv) (hint : 0 < s.k.osIntNesting) {todo : List OsPrio}
    (htodo : s.todo = p :: todo) :
    OsRun.Inv { s with k := s.k.osTimeTickTask p, todo := todo } := by
  obtain ⟨hsteady, -, hmono⟩ := osTimeTickTask_steady s.k p
  obtain ⟨hnodup, hmem, hcounted⟩ := h.ticking
  rw [htodo] at hnodup hmem hcounted
  obtain ⟨hnot, hnodup⟩ := List.nodup_cons.1 hnodup
  have hpos := hcounted (List.cons_ne_nil p todo)
  have hclock : Function.update s.ticksOf p (s.ticksOf p + 1) = OsRun.ticksOf
      { s with k := s.k.osTimeTickTask p, todo := todo } := by
    funext q
    by_cases heq : q = p
    · subst heq
      rw [Function.update_self, ticksOf, ticksOf, htodo, if_pos List.mem_cons_self, if_neg hnot]
      exact Nat.sub_add_cancel hpos
    · rw [Function.update_of_ne heq, ticksOf, ticksOf, htodo]
      simp [heq]
  have hok := h.ok.tickTask (hmem p List.mem_cons_self)
  rw [hclock] at hok
  exact h.handler hok ⟨hnodup, fun q hq ↦ hmem q (List.mem_cons_of_mem p hq), fun _ ↦ hpos⟩
    hsteady hmono hint

theorem Inv.intExit (h : s.Inv) :
    OsRun.Inv { s with k := s.k.osIntExit, nested := s.nested - 1 } := by
  rw [osIntExit]
  split
  · exact Inv.schedNew
      (s := { s with
        k := { s.k with osIntNesting := s.k.osIntNesting - 1 }, nested := s.nested - 1 })
      (h.ok.congr rfl rfl rfl rfl) h.idle h.ticking
  · next hbusy =>
    exact ⟨h.ok.congr rfl rfl rfl rfl, h.idle, h.cur, h.standing, h.locked,
      fun hint hlock ↦ absurd ⟨hint, hlock⟩ hbusy, h.ticking⟩

/-- **Every step keeps the invariant.** -/
theorem Inv.step (h : s.Inv) {a : OsAct} (hstep : s.step a = some t) : t.Inv := by
  cases moves_of_step hstep with
  | call c hpc hint hne => exact h.call hpc hne c
  | sched next hpc hint => exact h.sched hpc hint
  | resume next hpc hint => exact h.resume hpc
  | intEnter => exact h.intEnter
  | intPost e what hint => exact h.intPost hint e what
  | intTick hint htodo => exact h.intTick hint htodo
  | intTickTask p todo htodo hint => exact h.intTickTask hint htodo
  | intExit hint => exact h.intExit

/-- **The invariant holds in every state of a run.** -/
theorem Reached.inv (h : s.Reached) : s.Inv :=
  Runs.Reachable.invariant (fun _ ↦ inv_of_init) (fun _ _ _ hinv _ hstep ↦ hinv.step hstep) h

end OsRun

open OsKernel

/-! ### Who runs -/

/-- **The running task is the highest of the ready tasks** in every state of a run in which no
interrupt handler runs, the scheduler is not locked, and the task is not on its way to `OS_Sched`.
-/
theorem running_highest {s : OsRun} (h : s.Reached) (hint : s.k.osIntNesting = 0)
    (hlock : s.k.osLockNesting = 0) {next : OsNext} (hpc : s.pc s.k.osPrioCur = .past next) :
    s.k.osPrioCur ∈ s.k.osRdyTbl ∧ ∀ q ∈ s.k.osRdyTbl, s.k.osPrioCur ≤ q := by
  have hinv := h.inv
  exact ⟨hinv.standing.resolve_left (OsRun.not_sched hpc),
    (hinv.first hint hlock).resolve_left (OsRun.not_sched hpc)⟩

/-- The second task runs when the first has been put to wait. -/
theorem running_highest_second : ∃ s : OsRun, s.Reached ∧ s.k.osPrioCur = 10 ∧
    s.k.osPrioCur ∈ s.k.osRdyTbl ∧ ∀ q ∈ s.k.osRdyTbl, s.k.osPrioCur ≤ q := by
  obtain ⟨s, hs, hcheck⟩ := OsRun.exists_reached_of_exec
    [.call (.op (.pend 0 .sem 0)), .sched]
    (fun s ↦ decide (s.k.osIntNesting = 0 ∧ s.k.osLockNesting = 0 ∧ s.k.osPrioCur = 10 ∧
      s.pc s.k.osPrioCur = .past .app))
    (by decide +kernel)
  obtain ⟨hint, hlock, hcur, hpc⟩ := of_decide_eq_true hcheck
  exact ⟨s, hs, hcur, running_highest hs hint hlock hpc⟩

/-! ### Time -/

/-- **A task in `OSTimeDly` is ready just when its tick has come**: neither a post nor the timer
ends its sleep before, and the timer does not miss the tick. Between two ticks that is when the
clock has been counted so often; within one it is the moment the timer goes through the task. -/
theorem osTimeDly_ready_iff {s : OsRun} (h : s.Reached) {p : OsPrio} (hp : p ∈ s.k.osTcbList)
    {due : ℕ} (hpc : (s.pc p).next = .dly due) : p ∈ s.k.osRdyTbl ↔ due ≤ s.ticksOf p := by
  have htask := h.inv.ok.task p hp
  rw [hpc] at htask
  rcases htask.time with ⟨-, hready, hdue⟩ | ⟨hpos, hnot, hdue⟩
  · exact iff_of_true hready hdue
  · exact iff_of_false hnot (by omega)

/-- Both tasks sleep for a tick, and an interrupt has come when the timer has gone through the first
of them. -/
theorem osTimeDly_ready_iff_within : ∃ s : OsRun, s.Reached ∧ s.ticks = 1 ∧ s.nested = 1 ∧
    (s.pc 5).next = .dly 1 ∧ (s.pc 10).next = .dly 1 ∧
    (5 ∈ s.k.osRdyTbl ↔ 1 ≤ s.ticksOf 5) ∧ (10 ∈ s.k.osRdyTbl ↔ 1 ≤ s.ticksOf 10) ∧
    s.ticksOf 5 = 1 ∧ s.ticksOf 10 = 0 := by
  obtain ⟨s, hs, hcheck⟩ := OsRun.exists_reached_of_exec
    [.call (.timeDly 1), .sched, .call (.timeDly 1), .sched, .intEnter, .intTick, .intTickTask,
      .intEnter]
    (fun s ↦ decide ((5 ∈ s.k.osTcbList ∧ 10 ∈ s.k.osTcbList) ∧ s.ticks = 1 ∧ s.nested = 1 ∧
      (s.pc 5).next = .dly 1 ∧ (s.pc 10).next = .dly 1 ∧ s.ticksOf 5 = 1 ∧ s.ticksOf 10 = 0))
    (by decide +kernel)
  obtain ⟨⟨hfive, hten⟩, hticks, hnested, hpc, hpc', hcount⟩ := of_decide_eq_true hcheck
  exact ⟨s, hs, hticks, hnested, hpc, hpc', osTimeDly_ready_iff hs hfive hpc,
    osTimeDly_ready_iff hs hten hpc', hcount⟩

/-- **No wake-up is lost.** A pending task is ready just when it has been taken from the wait list
or its time is up; until then what it waits for has nothing to give. -/
theorem osPend_ready_iff {s : OsRun} (h : s.Reached) {p : OsPrio} (hp : p ∈ s.k.osTcbList) {n : ℕ}
    {e : OsEventId} {kind : OsKind} {timeout : UInt32} {due : ℕ}
    (hpc : (s.pc p).next = .pend n e kind timeout due) :
    (p ∈ s.k.osRdyTbl ↔ p ∉ s.k.waits e ∨ (timeout ≠ 0 ∧ due ≤ s.ticksOf p)) ∧
      (p ∉ s.k.osRdyTbl → kind.fetch (s.k.osEventTbl e) = none) := by
  have htask := h.inv.ok.task p hp
  rw [hpc] at htask
  have hevent := h.inv.ok.event e
  rcases htask.phase with hwait | hgrant | hout
  · refine ⟨iff_of_false hwait.notReady ?_, fun _ ↦ hevent.fetch_none htask.type ⟨p, hwait.listed⟩⟩
    rintro (hgone | ⟨hsome, hdue⟩)
    · exact hgone hwait.listed
    · rcases hwait.time with ⟨hnever, -⟩ | ⟨-, hpos, htime⟩
      · exact hsome hnever
      · omega
  · exact ⟨iff_of_true hgrant.ready (.inl hgrant.notListed), fun hnot ↦ absurd hgrant.ready hnot⟩
  · exact ⟨iff_of_true hout.ready (.inr ⟨hout.hasTimeout, hout.due_le⟩),
      fun hnot ↦ absurd hout.ready hnot⟩

/-- Both tasks wait for a token for a tick. When the timer has gone through the first of them, an
interrupt posts one: the first is granted it although its time is up, the second waits on. -/
theorem osPend_ready_iff_within : ∃ s : OsRun, s.Reached ∧ s.todo = [10] ∧
    (s.pc 5).next = .pend 0 0 .sem 1 1 ∧ (s.pc 10).next = .pend 1 0 .sem 1 1 ∧
    ((5 ∈ s.k.osRdyTbl ↔ 5 ∉ s.k.waits 0 ∨ ((1 : UInt32) ≠ 0 ∧ 1 ≤ s.ticksOf 5)) ∧
      (5 ∉ s.k.osRdyTbl → OsKind.sem.fetch (s.k.osEventTbl 0) = none)) ∧
    ((10 ∈ s.k.osRdyTbl ↔ 10 ∉ s.k.waits 0 ∨ ((1 : UInt32) ≠ 0 ∧ 1 ≤ s.ticksOf 10)) ∧
      (10 ∉ s.k.osRdyTbl → OsKind.sem.fetch (s.k.osEventTbl 0) = none)) ∧
    5 ∉ s.k.waits 0 ∧ 10 ∉ s.k.osRdyTbl := by
  obtain ⟨s, hs, hcheck⟩ := OsRun.exists_reached_of_exec
    [.call (.op (.pend 0 .sem 1)), .sched, .call (.op (.pend 0 .sem 1)), .sched, .intEnter,
      .intTick, .intTickTask, .intEnter, .intPost 0 .sem, .intExit]
    (fun s ↦ decide ((5 ∈ s.k.osTcbList ∧ 10 ∈ s.k.osTcbList) ∧ s.todo = [10] ∧
      (s.pc 5).next = .pend 0 0 .sem 1 1 ∧ (s.pc 10).next = .pend 1 0 .sem 1 1 ∧
      5 ∉ s.k.waits 0 ∧ 10 ∉ s.k.osRdyTbl))
    (by decide +kernel)
  obtain ⟨⟨hfive, hten⟩, htodo, hpc, hpc', hgone, hwait⟩ := of_decide_eq_true hcheck
  exact ⟨s, hs, htodo, hpc, hpc', osPend_ready_iff hs hfive hpc, osPend_ready_iff hs hten hpc',
    hgone, hwait⟩

/-- **What a pend that has waited returns**: what it waited for, if it is not listed any more, and
else a timeout, at the tick it was due or later. -/
theorem osPend_returns {s t : OsRun} (h : s.Reached) {n : ℕ} {e : OsEventId} {kind : OsKind}
    {timeout : UInt32} {due : ℕ} (hpc : s.pc s.k.osPrioCur = .past (.pend n e kind timeout due))
    (hstep : s.step .resume = some t) :
    ∃ ret, t.history = s.history ++ [.respond (some s.k.osPrioCur, n) ret] ∧
      (∀ e', s.k.osPrioCur ∉ t.k.waits e') ∧
      if s.k.osPrioCur ∈ s.k.waits e then ret = ⟨.timeout, 0⟩ ∧ timeout ≠ 0 ∧ due ≤ s.ticks
      else ret.err = .none := by
  have hinv := h.inv
  have htask := hinv.task_cur
  have hready := hinv.standing.resolve_left (OsRun.not_sched hpc)
  have htinv := (hinv.step hstep).task_cur
  rw [hpc] at htask
  obtain ⟨hrun, -, -, -, hcase⟩ := osPendEnd_of_ready rfl htask hready
  cases OsRun.moves_of_step hstep with
  | resume next hpc' hint =>
    obtain rfl : OsNext.pend n e kind timeout due = next := OsPc.past.inj (hpc.symm.trans hpc')
    refine ⟨(s.k.osPendEnd kind e).1, rfl, hrun.nowhere, ?_⟩
    rcases hcase with ⟨hgrant, -, hret⟩ | ⟨hout, hret, -⟩
    · rw [if_neg hgrant.notListed, hret]
    · rw [if_pos hout.listed]
      exact ⟨hret, hout.hasTimeout, hout.due_le.trans (OsRun.ticksOf_le _ _)⟩

/-- The first task waits for a message for a tick and none comes. -/
theorem osPend_returns_timeout : ∃ s t : OsRun, s.Reached ∧ s.step .resume = some t ∧
    ∃ ret, t.history = s.history ++ [.respond (some s.k.osPrioCur, 0) ret] ∧
      (∀ e', s.k.osPrioCur ∉ t.k.waits e') ∧
      if s.k.osPrioCur ∈ s.k.waits 1 then
        ret = ⟨.timeout, 0⟩ ∧ (1 : UInt32) ≠ 0 ∧ 1 ≤ s.ticks
      else ret.err = .none := by
  obtain ⟨s, hs, hcheck⟩ := OsRun.exists_reached_of_exec
    [.call (.op (.pend 1 .q 1)), .sched, .intEnter, .intTick, .intTickTask, .intTickTask, .intExit]
    (fun s ↦ decide (s.pc s.k.osPrioCur = .past (.pend 0 1 .q 1 1) ∧
      (s.step .resume).isSome))
    (by decide +kernel)
  obtain ⟨hpc, hsome⟩ := of_decide_eq_true hcheck
  obtain ⟨t, hstep⟩ := Option.isSome_iff_exists.1 hsome
  exact ⟨s, t, hs, hstep, osPend_returns hs hpc hstep⟩

/-! ### Who is woken -/

/-- **A post wakes the highest of the listed tasks**, gives it what is posted, and changes nothing
for anybody else nor at the event, in every state of a run. -/
theorem osPost_wakes_highest {s : OsRun} (h : s.Reached) {e : OsEventId} {what : OsPosted}
    (htype : (s.k.osEventTbl e).osEventType = some what.kind) {w : OsPrio} (hw : w ∈ s.k.waits e)
    (hfirst : ∀ q ∈ s.k.waits e, w ≤ q) :
    ∃ k, s.k.osPostOf e what = (.none, true, k) ∧ k.Granted w e ∧
      (k.osTcbPrioTbl w).osTcbMsg = what.msg ∧ (∀ q, q ≠ w → Same s.k k q) ∧
      ∀ e', (k.osEventTbl e').osEventCnt = (s.k.osEventTbl e').osEventCnt ∧
        (k.osEventTbl e').osEventPtr = (s.k.osEventTbl e').osEventPtr := by
  have hhigh : (s.k.waits e).highest = w :=
    le_antisymm (OsTbl.highest_le hw) (hfirst _ (OsTbl.highest_mem hw))
  obtain ⟨-, n, kind, timeout, due, -, hpend⟩ := h.inv.ok.pending_of_listed hw
  obtain rfl : kind = what.kind := Option.some.inj (hpend.type.symm.trans htype)
  obtain ⟨k', hk', hgrant, hmsg, hothers, -, -, -, -, -, hevent⟩ :=
    osEventTaskRdy_of_pending hhigh hw hpend what.msg
  refine ⟨k', ?_, hgrant, hmsg, hothers, fun e' ↦ ?_⟩
  · rcases osPostOf_cases s.k e what with ⟨hother, -⟩ | ⟨-, -, hpost⟩ | ⟨-, hnobody, -⟩
    · exact absurd htype hother
    · rw [hpost, hk']
    · exact absurd hw (hnobody w)
  · rw [hevent]
    by_cases heq : e' = e
    · subst heq
      rw [Function.update_self]
      exact ⟨rfl, rfl⟩
    · rw [Function.update_of_ne heq]
      exact ⟨rfl, rfl⟩

/-- Both tasks wait for a token, and the first is woken. -/
theorem osPost_wakes_highest_two : ∃ s : OsRun, s.Reached ∧
    ∃ k, s.k.osPostOf 0 .sem = (.none, true, k) ∧ k.Granted 5 0 ∧
      (k.osTcbPrioTbl 5).osTcbMsg = OsPosted.sem.msg ∧ (∀ q, q ≠ 5 → Same s.k k q) ∧
      ∀ e', (k.osEventTbl e').osEventCnt = (s.k.osEventTbl e').osEventCnt ∧
        (k.osEventTbl e').osEventPtr = (s.k.osEventTbl e').osEventPtr := by
  obtain ⟨s, hs, hcheck⟩ := OsRun.exists_reached_of_exec
    [.call (.op (.pend 0 .sem 0)), .sched, .call (.op (.pend 0 .sem 0)), .sched]
    (fun s ↦ decide ((s.k.osEventTbl 0).osEventType = some .sem ∧ 5 ∈ s.k.waits 0 ∧
      10 ∈ s.k.waits 0 ∧ ∀ q ∈ s.k.waits 0, (5 : OsPrio) ≤ q))
    (by decide +kernel)
  obtain ⟨htype, hw, -, hfirst⟩ := of_decide_eq_true hcheck
  exact ⟨s, hs, osPost_wakes_highest hs htype hw hfirst⟩

end YHAudioLink
