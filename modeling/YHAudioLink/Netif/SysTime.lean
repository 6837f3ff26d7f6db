import YHAudioLink.Foundation.Programs
import YHAudioLink.Kernel.Semaphore
import YHAudioLink.Netif.SysArch

/-!
# Waiting with a timeout

The two functions of `sys_arch.c` that wait, `sys_arch_mbox_fetch` and `sys_arch_sem_wait`, as
programs over the kernel's calls: the stack's milliseconds are turned into ticks, the clock is read,
the kernel is asked to pend for that many ticks, and after a pend that succeeded the clock is read
again and the difference turned back into milliseconds. Both conversions are written out twice in
the source, the comparison of the two readings being a different one each time, so each function has
its own text here.

What the kernel answers is free: a law is about every reading of the clock and every result of a
pend. `mboxFetch_returns` joins the program with the fetch of the mailbox model, which has the
clock's readings as arguments.

## The two laws, and where each ends

* Into ticks (`ticksRight_iff`): the 32-bit product and the cast to 16 bits keep the value up to
  327679 milliseconds. From there on the count passed to the kernel is another one, at 327680 the
  count 0, which the kernel takes for no timeout at all.
* Out of ticks (`elapsedRight_iff`): the result is right where at least one tick has passed, the
  clock has not wrapped, and the difference times 1000 fits. At a wrap the constant `0xffffffff` is
  one too small, and the fetch, whose comparison is strict, takes two equal readings for a wrap.
-/

namespace YHAudioLink

open Programs

/-! ### The functions -/

/-- The kernel's calls: the clock, and a pend on the queue or the semaphore at hand. -/
inductive WaitOp
  | osTimeGet
  | osqPend (timeout : UInt16)
  | osSemPend (timeout : UInt16)
  deriving DecidableEq

/-- What the kernel's calls return. -/
abbrev WaitOp.Ans : WaitOp → Type
  | osTimeGet => UInt32
  | osqPend _ => VoidPtr × OsErr
  | osSemPend _ => OsErr

/-- Programs over the kernel's calls. -/
abbrev Wait (α : Type) : Type := Prog WaitOp WaitOp.Ans α

/-- One call. -/
def kernel (o : WaitOp) : Wait (WaitOp.Ans o) := Prog.perform o

/-- `sys_arch_mbox_fetch`: what it returns, with what it stores into `*msg`. -/
def mboxFetchProg (pvNullPointer : ObjAddr) (timeout : UInt32) : Wait (UInt32 × VoidPtr) := do
  let ucosTimeout : UInt32 :=
    if timeout ≠ 0 then
      let ucosTimeout := timeout * osTicksPerSec / 1000
      if ucosTimeout < 1 then 1 else ucosTimeout
    else 0
  let timeout : UInt32 ← kernel .osTimeGet
  let pend : VoidPtr × OsErr ← kernel (.osqPend ucosTimeout.toUInt16)
  let msg := decodeMsg pvNullPointer pend.1
  if pend.2 = .timeout then pure (sysArchTimeout, msg)
  else do
    let timeoutNew : UInt32 ← kernel .osTimeGet
    let timeoutNew :=
      if timeoutNew > timeout then timeoutNew - timeout else 0xffffffff - timeout + timeoutNew
    pure (timeoutNew * 1000 / osTicksPerSec + 1, msg)

/-- `sys_arch_sem_wait`. -/
def semWaitProg (timeout : UInt32) : Wait UInt32 := do
  let ucosTimeout : UInt32 :=
    if timeout ≠ 0 then
      let ucosTimeout := timeout * osTicksPerSec / 1000
      if ucosTimeout < 1 then 1 else ucosTimeout
    else 0
  let timeout : UInt32 ← kernel .osTimeGet
  let ucErr : OsErr ← kernel (.osSemPend ucosTimeout.toUInt16)
  if ucErr = .timeout then pure sysArchTimeout
  else do
    let timeoutNew : UInt32 ← kernel .osTimeGet
    let timeoutNew :=
      if timeoutNew ≥ timeout then timeoutNew - timeout else 0xffffffff - timeout + timeoutNew
    pure (timeoutNew * 1000 / osTicksPerSec + 1)

/-- What `sys_arch_sem_wait` makes of two readings of the clock; `fetchTime` is what the fetch
does. -/
def semWaitTime (start stop : UInt32) : UInt32 :=
  (if stop ≥ start then stop - start else 0xffffffff - start + stop) * 1000 / osTicksPerSec + 1

/-! ### The runs -/

/-- What the two functions have in common: a pend between two readings of the clock, the second of
which is left out where the pend timed out. -/
def timedWait {α : Type} (pend : WaitOp) (ucErr : pend.Ans → OsErr)
    (time : UInt32 → UInt32 → UInt32)
    (result : pend.Ans → UInt32 → α) : Wait α := do
  let start : UInt32 ← kernel .osTimeGet
  let r ← kernel pend
  if ucErr r = .timeout then pure (result r sysArchTimeout)
  else do
    let stop : UInt32 ← kernel .osTimeGet
    pure (result r (time start stop))

/-- The ticks as both functions compute them. -/
theorem toUInt16_ticks (timeout : UInt32) :
    (if timeout ≠ 0 then
      if timeout * osTicksPerSec / 1000 < 1 then 1 else timeout * osTicksPerSec / 1000
    else 0).toUInt16 = ucosTimeout timeout := by
  rw [ucosTimeout]
  split <;> rfl

theorem mboxFetchProg_eq (pv : ObjAddr) (timeout : UInt32) :
    mboxFetchProg pv timeout = timedWait (.osqPend (ucosTimeout timeout)) Prod.snd fetchTime
      fun r ret ↦ (ret, decodeMsg pv r.1) := by
  rw [← toUInt16_ticks]
  rfl

theorem semWaitProg_eq (timeout : UInt32) :
    semWaitProg timeout = timedWait (.osSemPend (ucosTimeout timeout)) id semWaitTime
      fun _ ret ↦ ret := by
  rw [← toUInt16_ticks]
  rfl

section

variable {α σ : Type} {pend : WaitOp} {ucErr : pend.Ans → OsErr} {time : UInt32 → UInt32 → UInt32}
  {result : pend.Ans → UInt32 → α} {step : σ → Event WaitOp WaitOp.Ans → σ → Prop} {s u : σ}
  {tr : List (Event WaitOp WaitOp.Ans)}

/-- **The run of a wait**: one reading of the clock where the pend timed out, two where it did
not. -/
theorem returns_timedWait_iff {a : α} :
    Returns step (timedWait pend ucErr time result) s tr a u ↔
      ∃ (start : UInt32) (s₁ : σ) (r : pend.Ans) (s₂ : σ),
        step s ⟨.osTimeGet, start⟩ s₁ ∧ step s₁ ⟨pend, r⟩ s₂ ∧
        ((ucErr r = .timeout ∧ a = result r sysArchTimeout ∧ u = s₂ ∧
            tr = [⟨.osTimeGet, start⟩, ⟨pend, r⟩]) ∨
          ∃ stop : UInt32, ucErr r ≠ .timeout ∧ a = result r (time start stop) ∧
            step s₂ ⟨.osTimeGet, stop⟩ u ∧
            tr = [⟨.osTimeGet, start⟩, ⟨pend, r⟩, ⟨.osTimeGet, stop⟩]) := by
  constructor
  · intro h
    obtain ⟨start, s₁, tr₁, rfl, hstart, h⟩ := returns_perform_bind_iff.1 h
    obtain ⟨r, s₂, tr₂, rfl, hpend, h⟩ := returns_perform_bind_iff.1 h
    refine ⟨start, s₁, r, s₂, hstart, hpend, ?_⟩
    split at h
    · next herr =>
      obtain ⟨rfl, rfl, rfl⟩ := returns_pure_iff.1 h
      exact .inl ⟨herr, rfl, rfl, rfl⟩
    · next herr =>
      obtain ⟨stop, s₃, tr₃, rfl, hstop, h⟩ := returns_perform_bind_iff.1 h
      obtain ⟨rfl, rfl, rfl⟩ := returns_pure_iff.1 h
      exact .inr ⟨stop, herr, rfl, hstop, rfl⟩
  · rintro ⟨start, s₁, r, s₂, hstart, hpend, ⟨herr, rfl, rfl, rfl⟩ | ⟨stop, herr, rfl, hstop, rfl⟩⟩
    · refine returns_perform_bind_iff.2 ⟨_, _, _, rfl, hstart, ?_⟩
      refine returns_perform_bind_iff.2 ⟨_, _, _, rfl, hpend, ?_⟩
      rw [if_pos herr]
      exact returns_pure_iff.2 ⟨rfl, rfl, rfl⟩
    · refine returns_perform_bind_iff.2 ⟨_, _, _, rfl, hstart, ?_⟩
      refine returns_perform_bind_iff.2 ⟨_, _, _, rfl, hpend, ?_⟩
      rw [if_neg herr]
      refine returns_perform_bind_iff.2 ⟨_, _, _, rfl, hstop, ?_⟩
      exact returns_pure_iff.2 ⟨rfl, rfl, rfl⟩

/-- A wait calls nothing but the clock and its pend. -/
theorem only_timedWait :
    Only (fun o ↦ o = .osTimeGet ∨ o = pend) (timedWait pend ucErr time result) := by
  refine Keeps.bind (Only.perform (.inl rfl)) fun start ↦ ?_
  refine Keeps.bind (Only.perform (.inr rfl)) fun r ↦ ?_
  refine Keeps.ite (Keeps.pure _) ?_
  exact Keeps.bind (Only.perform (.inl rfl)) fun stop ↦ Keeps.pure _

end

/-! ### Into ticks -/

/-- The kernel is asked to pend for `n` ticks in some run. -/
def PendsFor {α : Type} (p : Wait α) (n : UInt16) : Prop :=
  ∃ tr o k, Steps anyAnswer p () tr (.call o k) () ∧ (o = .osqPend n ∨ o = .osSemPend n)

theorem pendsFor_timedWait {α : Type} {pend : WaitOp} {ucErr : pend.Ans → OsErr}
    {time : UInt32 → UInt32 → UInt32} {result : pend.Ans → UInt32 → α} {n : UInt16} :
    PendsFor (timedWait pend ucErr time result) n ↔ pend = .osqPend n ∨ pend = .osSemPend n := by
  constructor
  · rintro ⟨tr, o, k, hsteps, ho⟩
    rcases ok_of_wp (only_timedWait () trivial) hsteps with rfl | rfl
    · exact (ho.elim WaitOp.noConfusion WaitOp.noConfusion)
    · exact ho
  · intro hpend
    exact ⟨[⟨.osTimeGet, (0 : UInt32)⟩], pend, _, .call trivial (.refl _ _), hpend⟩

/-- What `sys_arch_mbox_fetch` passes to `OSQPend`. -/
theorem pendsFor_mboxFetchProg {pv : ObjAddr} {timeout : UInt32} {n : UInt16} :
    PendsFor (mboxFetchProg pv timeout) n ↔ n = ucosTimeout timeout := by
  rw [mboxFetchProg_eq, pendsFor_timedWait, WaitOp.osqPend.injEq]
  simp [eq_comm]

/-- What `sys_arch_sem_wait` passes to `OSSemPend`. -/
theorem pendsFor_semWaitProg {timeout : UInt32} {n : UInt16} :
    PendsFor (semWaitProg timeout) n ↔ n = ucosTimeout timeout := by
  rw [semWaitProg_eq, pendsFor_timedWait, WaitOp.osSemPend.injEq]
  simp [eq_comm]

/-- The ticks a timeout of `T` milliseconds stands for: at least one. -/
def exactTicks (timeout : ℕ) : ℕ := max 1 (timeout * osTicksPerSec.toNat / 1000)

/-- What the conversion keeps of a timeout: the product its low 32 bits, the cast its low 16. -/
theorem ucosTimeout_toNat {timeout : UInt32} (h : timeout ≠ 0) :
    (ucosTimeout timeout).toNat = max 1 (timeout.toNat * 200 % 2 ^ 32 / 1000) % 2 ^ 16 := by
  have hticks : (timeout * osTicksPerSec / 1000).toNat = timeout.toNat * 200 % 2 ^ 32 / 1000 := by
    rw [UInt32.toNat_div, UInt32.toNat_mul]
    rfl
  have hone : UInt32.toNat 1 = 1 := rfl
  rw [ucosTimeout, if_pos h]
  dsimp only
  split
  · next hlt =>
    rw [UInt32.lt_iff_toNat_lt, hticks, hone] at hlt
    rw [max_eq_left (Nat.le_of_lt hlt)]
    rfl
  · next hle =>
    rw [UInt32.lt_iff_toNat_lt, hticks, hone] at hle
    rw [UInt32.toNat_toUInt16, hticks, max_eq_right (Nat.le_of_not_lt hle)]

/-- **The conversion is exact up to 327679 milliseconds and nowhere above**: what is more than 65535
ticks does not fit. -/
theorem ucosTimeout_exact_iff {timeout : UInt32} (h : timeout ≠ 0) :
    (ucosTimeout timeout).toNat = exactTicks timeout.toNat ↔ timeout.toNat < 327680 := by
  rw [ucosTimeout_toNat h, exactTicks]
  have hrate : osTicksPerSec.toNat = 200 := rfl
  rw [hrate]
  constructor
  · intro heq
    have hlt := Nat.mod_lt (max 1 (timeout.toNat * 200 % 2 ^ 32 / 1000)) (Nat.two_pow_pos 16)
    omega
  · intro hlt
    rw [Nat.mod_eq_of_lt (b := 2 ^ 32) (by omega), Nat.mod_eq_of_lt (by omega)]

/-- The timeout is converted right: both functions pass the exact count of ticks, which is not 0,
and no shorter timeout makes either of them pass more. -/
def TicksRight (timeout : UInt32) : Prop :=
  ∀ pv n, PendsFor (mboxFetchProg pv timeout) n ∨ PendsFor (semWaitProg timeout) n →
    n.toNat = exactTicks timeout.toNat ∧ n ≠ 0 ∧
    ∀ shorter pv' n', shorter ≠ 0 → shorter ≤ timeout →
      PendsFor (mboxFetchProg pv' shorter) n' ∨ PendsFor (semWaitProg shorter) n' → n' ≤ n

theorem ticksRight_iff_exact {timeout : UInt32} :
    TicksRight timeout ↔ (ucosTimeout timeout).toNat = exactTicks timeout.toNat ∧
      ucosTimeout timeout ≠ 0 ∧
      ∀ shorter, shorter ≠ 0 → shorter ≤ timeout → ucosTimeout shorter ≤ ucosTimeout timeout := by
  simp only [TicksRight, pendsFor_mboxFetchProg, pendsFor_semWaitProg, or_self]
  constructor
  · intro h
    obtain ⟨hexact, hzero, hmono⟩ := h ⟨1, by decide⟩ _ rfl
    exact ⟨hexact, hzero, fun shorter hne hle ↦ hmono shorter ⟨1, by decide⟩ _ hne hle rfl⟩
  · rintro ⟨hexact, hzero, hmono⟩ pv n rfl
    refine ⟨hexact, hzero, ?_⟩
    rintro shorter pv' n' hne hle rfl
    exact hmono shorter hne hle

/-- **Timeouts are converted right up to 327679 milliseconds.** -/
theorem ticksRight_iff {timeout : UInt32} (h : timeout ≠ 0) :
    TicksRight timeout ↔ timeout.toNat < 327680 := by
  rw [ticksRight_iff_exact]
  constructor
  · rintro ⟨hexact, -, -⟩
    exact (ucosTimeout_exact_iff h).1 hexact
  · intro hlt
    have hexact := (ucosTimeout_exact_iff h).2 hlt
    refine ⟨hexact, ?_, ?_⟩
    · intro hzero
      have hpos : 1 ≤ exactTicks timeout.toNat := le_max_left _ _
      rw [← hexact, hzero] at hpos
      exact absurd hpos (by decide)
    · intro shorter hne hle
      have hle' : shorter.toNat ≤ timeout.toNat := UInt32.le_iff_toNat_le.1 hle
      rw [UInt16.le_iff_toNat_le, hexact, (ucosTimeout_exact_iff hne).2 (hle'.trans_lt hlt)]
      exact max_le_max le_rfl (Nat.div_le_div_right (Nat.mul_le_mul_right _ hle'))

theorem ticksRight_at_second : TicksRight 1000 ↔ (1000 : UInt32).toNat < 327680 :=
  ticksRight_iff (by decide)

/-- At 327680 milliseconds the kernel is asked to wait for ever. -/
theorem not_ticksRight : ¬ ∀ timeout : UInt32, timeout ≠ 0 → TicksRight timeout := by
  intro h
  obtain ⟨-, hzero, -⟩ := ticksRight_iff_exact.1 (h 327680 (by decide))
  exact hzero (by decide)

/-! ### Out of ticks -/

/-- Milliseconds out of a difference of readings, as both functions compute them. -/
def elapsedMs (ticks : UInt32) : UInt32 := ticks * 1000 / osTicksPerSec + 1

/-- The product keeps its low 32 bits. -/
theorem elapsedMs_toNat (ticks : UInt32) :
    (elapsedMs ticks).toNat = ticks.toNat * 1000 % 2 ^ 32 / 200 + 1 := by
  have hdiv : (ticks * 1000 / osTicksPerSec).toNat = ticks.toNat * 1000 % 2 ^ 32 / 200 := by
    rw [UInt32.toNat_div, UInt32.toNat_mul]
    rfl
  have hlt := Nat.mod_lt (ticks.toNat * 1000) (Nat.two_pow_pos 32)
  have hone : UInt32.toNat 1 = 1 := rfl
  rw [elapsedMs, UInt32.toNat_add, hdiv, hone]
  exact Nat.mod_eq_of_lt (by omega)

/-- No difference of readings comes out as the code of a wait that timed out. -/
theorem elapsedMs_ne_timeout (ticks : UInt32) : elapsedMs ticks ≠ sysArchTimeout := by
  intro h
  have hval := congrArg UInt32.toNat h
  have hlt := Nat.mod_lt (ticks.toNat * 1000) (Nat.two_pow_pos 32)
  have htimeout : sysArchTimeout.toNat = 4294967295 := rfl
  rw [elapsedMs_toNat, htimeout] at hval
  omega

/-- A difference is turned into milliseconds right where the product fits; where it does not, what
comes out is too small, whatever the difference was meant to be. -/
theorem elapsedMs_eq_iff {ticks : UInt32} {e : ℕ} (h : ticks.toNat ≤ e) :
    (elapsedMs ticks).toNat = 5 * e + 1 ↔ ticks.toNat = e ∧ 1000 * e < 2 ^ 32 := by
  rw [elapsedMs_toNat]
  constructor
  · intro heq
    have hle : ticks.toNat * 1000 % 2 ^ 32 ≤ ticks.toNat * 1000 := Nat.mod_le _ _
    have hlt := Nat.mod_lt (ticks.toNat * 1000) (Nat.two_pow_pos 32)
    constructor <;> omega
  · rintro ⟨rfl, hfits⟩
    rw [Nat.mod_eq_of_lt (by omega)]
    omega

/-- The ticks between two readings with a wrap between them. -/
theorem toNat_sub_of_lt {start stop : UInt32} (h : stop < start) :
    (stop - start).toNat = 2 ^ 32 - start.toNat + stop.toNat := by
  have hlt := UInt32.lt_iff_toNat_lt.1 h
  have hstart := start.toNat_lt
  rw [UInt32.toNat_sub]
  exact Nat.mod_eq_of_lt (by omega)

/-- The constant for the wrap makes the difference one tick short. -/
theorem wrapped_toNat {start stop : UInt32} (h : stop < start) :
    (0xffffffff - start + stop).toNat + 1 = (stop - start).toNat := by
  have hlt := UInt32.lt_iff_toNat_lt.1 h
  have hstart := start.toNat_lt
  have hmax : UInt32.toNat 0xffffffff = 2 ^ 32 - 1 := rfl
  have hle : start ≤ 0xffffffff := UInt32.le_iff_toNat_le.2 (by omega)
  rw [toNat_sub_of_lt h, UInt32.toNat_add, UInt32.toNat_sub_of_le _ _ hle, hmax,
    Nat.mod_eq_of_lt (by omega)]
  omega

/-- Across a wrap both functions return too little. -/
theorem elapsedMs_wrapped_ne {start stop : UInt32} (h : stop < start) :
    (elapsedMs (0xffffffff - start + stop)).toNat ≠ 5 * (stop - start).toNat + 1 := by
  have hshort := wrapped_toNat h
  intro heq
  have hall := (elapsedMs_eq_iff (by omega)).1 heq
  omega

/-- **What the fetch returns** is right only where the clock has moved on without a wrap. -/
theorem fetchTime_eq_iff (start stop : UInt32) :
    (fetchTime start stop).toNat = 5 * (stop - start).toNat + 1 ↔
      start < stop ∧ 1000 * (stop - start).toNat < 2 ^ 32 := by
  change (elapsedMs (if stop > start then _ else _)).toNat = _ ↔ _
  split
  · next hlt =>
    rw [elapsedMs_eq_iff le_rfl]
    exact ⟨fun h ↦ ⟨hlt, h.2⟩, fun h ↦ ⟨rfl, h.2⟩⟩
  · next hle =>
    refine iff_of_false ?_ fun h ↦ hle h.1
    rcases UInt32.lt_or_eq_of_le (UInt32.not_lt.1 hle) with hlt | rfl
    · exact elapsedMs_wrapped_ne hlt
    · -- Two equal readings are taken for a wrap of the whole range.
      rw [UInt32.sub_add_cancel, UInt32.sub_self]
      decide

/-- **What the wait for a semaphore returns** is right also where no tick has passed. -/
theorem semWaitTime_eq_iff (start stop : UInt32) :
    (semWaitTime start stop).toNat = 5 * (stop - start).toNat + 1 ↔
      start ≤ stop ∧ 1000 * (stop - start).toNat < 2 ^ 32 := by
  change (elapsedMs (if stop ≥ start then _ else _)).toNat = _ ↔ _
  split
  · next hle =>
    rw [elapsedMs_eq_iff le_rfl]
    exact ⟨fun h ↦ ⟨hle, h.2⟩, fun h ↦ ⟨rfl, h.2⟩⟩
  · next hlt => exact iff_of_false (elapsedMs_wrapped_ne (UInt32.not_le.1 hlt)) fun h ↦ hlt h.1

/-- A fetch whose pend succeeded, between two readings of the clock, returns `ret`. -/
def FetchReturns (start stop ret : UInt32) : Prop :=
  ∃ (pv : ObjAddr) (timeout : UInt32) (n : UInt16) (temp msg : VoidPtr),
    Returns anyAnswer (mboxFetchProg pv timeout) ()
      [⟨.osTimeGet, start⟩, ⟨.osqPend n, (temp, .none)⟩, ⟨.osTimeGet, stop⟩] (ret, msg) ()

/-- A wait for a semaphore whose pend succeeded, between two readings of the clock, returns
`ret`. -/
def SemWaitReturns (start stop ret : UInt32) : Prop :=
  ∃ (timeout : UInt32) (n : UInt16),
    Returns anyAnswer (semWaitProg timeout) ()
      [⟨.osTimeGet, start⟩, ⟨.osSemPend n, OsErr.none⟩, ⟨.osTimeGet, stop⟩] ret ()

theorem fetchReturns_iff {start stop ret : UInt32} :
    FetchReturns start stop ret ↔ ret = fetchTime start stop := by
  constructor
  · rintro ⟨pv, timeout, n, temp, msg, h⟩
    rw [mboxFetchProg_eq] at h
    obtain ⟨start', -, r, -, -, -, ⟨-, -, -, htr⟩ | ⟨stop', -, ha, -, htr⟩⟩ :=
      returns_timedWait_iff.1 h
    · exact absurd (congrArg List.length htr) (by simp)
    · obtain ⟨⟨⟩, ⟨⟩, ⟨⟩⟩ := htr
      exact (Prod.mk.inj ha).1
  · rintro rfl
    refine ⟨⟨1, by decide⟩, 0, 0, 0, decodeMsg ⟨1, by decide⟩ 0, ?_⟩
    rw [mboxFetchProg_eq]
    refine returns_timedWait_iff.2 ⟨start, (), (0, .none), (), trivial, trivial, .inr ⟨stop, ?_⟩⟩
    exact ⟨by simp, rfl, trivial, rfl⟩

theorem semWaitReturns_iff {start stop ret : UInt32} :
    SemWaitReturns start stop ret ↔ ret = semWaitTime start stop := by
  constructor
  · rintro ⟨timeout, n, h⟩
    rw [semWaitProg_eq] at h
    obtain ⟨start', -, r, -, -, -, ⟨-, -, -, htr⟩ | ⟨stop', -, ha, -, htr⟩⟩ :=
      returns_timedWait_iff.1 h
    · exact absurd (congrArg List.length htr) (by simp)
    · obtain ⟨⟨⟩, ⟨⟩, ⟨⟩⟩ := htr
      exact ha
  · rintro rfl
    refine ⟨0, 0, ?_⟩
    rw [semWaitProg_eq]
    refine returns_timedWait_iff.2 ⟨start, (), OsErr.none, (), trivial, trivial, .inr ⟨stop, ?_⟩⟩
    exact ⟨by simp, rfl, trivial, rfl⟩

/-- The elapsed time is reported right: both functions return the milliseconds of the ticks that
passed, the counter taken modulo its range, plus one; so they agree, and neither reports a
timeout. -/
def ElapsedRight (start stop : UInt32) : Prop :=
  ∀ fetched waited, FetchReturns start stop fetched → SemWaitReturns start stop waited →
    fetched.toNat = 5 * (stop - start).toNat + 1 ∧ waited.toNat = 5 * (stop - start).toNat + 1 ∧
    fetched = waited ∧ fetched ≠ sysArchTimeout ∧ waited ≠ sysArchTimeout

/-- **The elapsed time is reported right** where at least one tick has passed, the clock has not
wrapped, and the ticks times 1000 fit into 32 bits. -/
theorem elapsedRight_iff (start stop : UInt32) :
    ElapsedRight start stop ↔ start < stop ∧ 1000 * (stop - start).toNat < 2 ^ 32 := by
  constructor
  · intro h
    obtain ⟨hfetched, -⟩ := h _ _ (fetchReturns_iff.2 rfl) (semWaitReturns_iff.2 rfl)
    exact (fetchTime_eq_iff start stop).1 hfetched
  · rintro ⟨hlt, hfits⟩ fetched waited hfetch hwait
    obtain rfl := fetchReturns_iff.1 hfetch
    obtain rfl := semWaitReturns_iff.1 hwait
    have hfetched := (fetchTime_eq_iff start stop).2 ⟨hlt, hfits⟩
    have hwaited := (semWaitTime_eq_iff start stop).2 ⟨UInt32.le_of_lt hlt, hfits⟩
    exact ⟨hfetched, hwaited, UInt32.toNat_inj.1 (hfetched.trans hwaited.symm),
      elapsedMs_ne_timeout _, elapsedMs_ne_timeout _⟩

/-- A message that is there at once: the fetch reports that it waited for over five hours. -/
theorem not_elapsedRight : ¬ ∀ start stop : UInt32, 5 * (stop - start).toNat + 1 < 2 ^ 32 →
    ElapsedRight start stop := by
  intro h
  obtain ⟨hfetched, -⟩ := h 0 0 (by decide) _ _ (fetchReturns_iff.2 rfl) (semWaitReturns_iff.2 rfl)
  exact absurd hfetched (by decide)

/-! ### On the kernel's objects -/

/-- The calls on a queue of the kernel: the clock is free, the pend is the queue's. -/
def queueStep : OsQ → Event WaitOp WaitOp.Ans → OsQ → Prop
  | q, ⟨.osTimeGet, _⟩, q' => q' = q
  | q, ⟨.osqPend timeout, r⟩, q' => osqPend q timeout = some (r.1, r.2, q')
  | _, ⟨.osSemPend _, _⟩, _ => False

/-- The calls on a semaphore of the kernel. -/
def semStep : ℕ → Event WaitOp WaitOp.Ans → ℕ → Prop
  | cnt, ⟨.osTimeGet, _⟩, cnt' => cnt' = cnt
  | cnt, ⟨.osSemPend timeout, err⟩, cnt' => osSemPendFor cnt timeout = some (err, cnt')
  | _, ⟨.osqPend _, _⟩, _ => False

/-- What the fetch of the mailbox model comes to where the pend returns. -/
theorem sysArchMboxFetch_of_pend {pv : ObjAddr} {timeout start stop : UInt32} {q q' : OsQ}
    {temp : VoidPtr} {ucErr : OsErr}
    (h : osqPend q (ucosTimeout timeout) = some (temp, ucErr, q')) :
    sysArchMboxFetch pv (.descr q) timeout start stop =
      .ok ⟨if ucErr = .timeout then sysArchTimeout else fetchTime start stop,
        decodeMsg pv temp, ucErr,
        .descr q'⟩ := by
  have hread : (SysMbox.descr q).pQ = .ok q := rfl
  rw [sysArchMboxFetch, hread]
  dsimp only [bind, Except.bind]
  rw [h]
  rfl

/-- **The fetch of the mailbox model is the fetch on a queue**, with the clock as the run reads
it. -/
theorem sysArchMboxFetch_of_returns {pv : ObjAddr} {timeout ret : UInt32} {msg : VoidPtr}
    {q q' : OsQ}
    {tr : List (Event WaitOp WaitOp.Ans)}
    (h : Returns queueStep (mboxFetchProg pv timeout) q tr (ret, msg) q') :
    ∃ start stop err, sysArchMboxFetch pv (.descr q) timeout start stop =
      .ok ⟨ret, msg, err, .descr q'⟩ := by
  rw [mboxFetchProg_eq] at h
  obtain ⟨start, q₁, r, q₂, hstart, hpend, hrest⟩ := returns_timedWait_iff.1 h
  obtain rfl : q₁ = q := hstart
  have hpend : osqPend q₁ (ucosTimeout timeout) = some (r.1, r.2, q₂) := hpend
  rcases hrest with ⟨herr, ha, rfl, -⟩ | ⟨stop, herr, ha, hstop, -⟩
  · obtain ⟨rfl, rfl⟩ := Prod.mk.inj ha
    refine ⟨start, 0, r.2, ?_⟩
    rw [sysArchMboxFetch_of_pend hpend, if_pos herr]
  · obtain ⟨rfl, rfl⟩ := Prod.mk.inj ha
    obtain rfl : q' = q₂ := hstop
    refine ⟨start, stop, r.2, ?_⟩
    rw [sysArchMboxFetch_of_pend hpend, if_neg herr]

/-- **A wait takes a token unless it returns `SYS_ARCH_TIMEOUT`**: the time it reports is never that
code. -/
theorem semWait_took_token_iff {timeout ret : UInt32} {cnt cnt' : ℕ}
    {tr : List (Event WaitOp WaitOp.Ans)}
    (h : Returns semStep (semWaitProg timeout) cnt tr ret cnt') :
    (ret ≠ sysArchTimeout ∧ cnt = cnt' + 1) ∨ (ret = sysArchTimeout ∧ cnt = 0 ∧ cnt' = 0) := by
  rw [semWaitProg_eq] at h
  obtain ⟨start, cnt₁, err, cnt₂, hstart, hpend, hrest⟩ := returns_timedWait_iff.1 h
  obtain rfl : cnt₁ = cnt := hstart
  have hpend : osSemPendFor cnt₁ (ucosTimeout timeout) = some (err, cnt₂) := hpend
  rcases hrest with ⟨herr, rfl, rfl, -⟩ | ⟨stop, herr, rfl, hstop, -⟩
  · rcases osSemPendFor_cases hpend with ⟨hnone, -⟩ | ⟨-, hcnt⟩
    · exact absurd (hnone.symm.trans herr) OsErr.noConfusion
    · exact .inr ⟨rfl, hcnt⟩
  · obtain rfl : cnt' = cnt₂ := hstop
    rcases osSemPendFor_cases hpend with ⟨-, hcnt⟩ | ⟨htimeout, -⟩
    · exact .inl ⟨elapsedMs_ne_timeout _, hcnt⟩
    · exact absurd htimeout herr

end YHAudioLink
