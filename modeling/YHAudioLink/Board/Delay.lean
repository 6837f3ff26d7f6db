import YHAudioLink.Foundation.DownCounter
import YHAudioLink.Netif.SysArch

/-!
# Busy waiting

`delay_us` waits by reading the SysTick timer until enough of its counts have passed. How many are
enough is fixed by `delay_init`, which has the timer count at an eighth of HCLK and puts the counts
of a microsecond into `fac_us`. The startup task then runs `systick_init`, and with it
`SysTick_Config`, which has the timer count at HCLK itself, and leaves `fac_us` as it is.

Time is counted in cycles of HCLK from the first reading of `VAL`. Where the timer stands at that
moment (`Phase`) and when it is read again (`SampledWithin`) are free.

## The two laws, and what each rests on

* A call never ends before its counts have passed, and where the counter starts again in between,
  not before one more count has (`counts_of_delayLoop`): the loop measures a start one count short.
* Counts are not cycles. The first of them may be due at once, so with `delay_init` alone a call
  ends up to seven cycles early unless a count has just been made or the counter starts again; and
  at HCLK a microsecond takes 72 counts and not nine (`delay_iff`).
-/

namespace YHAudioLink

open DownCounter

/-! ### The timer and the functions -/

/-- `SystemCoreClock`, which is `HCLK_Frequency` too. -/
abbrev systemCoreClock : UInt32 := 72000000

/-- The cycles of HCLK in a microsecond. -/
abbrev cyclesPerUs : ℕ := 72

/-- `SysTick_CLKSource_HCLK_Div8`. -/
abbrev sysTickClkSourceHclkDiv8 : UInt32 := 0xFFFFFFFB

/-- `SysTick_CTRL_CLKSOURCE_Msk`. -/
abbrev sysTickCtrlClksourceMsk : UInt32 := 0x4

/-- `SysTick_CTRL_TICKINT_Msk`. -/
abbrev sysTickCtrlTickintMsk : UInt32 := 0x2

/-- `SysTick_CTRL_ENABLE_Msk`. -/
abbrev sysTickCtrlEnableMsk : UInt32 := 0x1

/-- `SysTick_LOAD_RELOAD_Msk`. -/
abbrev sysTickLoadReloadMsk : UInt32 := 0xFFFFFF

/-- The registers of the timer that hold what was written to them. -/
structure SysTick where
  ctrl : UInt32
  load : UInt32

/-- The timer, and the two static variables of `delay.c`. -/
structure Delay where
  sysTick : SysTick
  facUs : UInt8
  facMs : UInt16

/-- `delay_init`. -/
def delayInit (s : Delay) : Delay :=
  let ctrl := s.sysTick.ctrl &&& sysTickClkSourceHclkDiv8
  let facUs := (systemCoreClock / 8000000).toUInt8
  let reload := systemCoreClock / 8000000
  let reload := reload * (1000000 / osTicksPerSec)
  let facMs := (1000 / osTicksPerSec).toUInt16
  let ctrl := ctrl ||| sysTickCtrlTickintMsk
  let load := reload &&& sysTickLoadReloadMsk
  let ctrl := ctrl ||| sysTickCtrlEnableMsk
  { sysTick := { ctrl, load }, facUs, facMs }

/-- `SysTick_Config`, but for the priority of the interrupt: what it returns, and the timer. -/
def sysTickConfig (ticks : UInt32) (t : SysTick) : UInt32 × SysTick :=
  if sysTickLoadReloadMsk < ticks then (1, t)
  else (0, {
    load := (ticks &&& sysTickLoadReloadMsk) - 1
    ctrl := sysTickCtrlClksourceMsk ||| sysTickCtrlTickintMsk ||| sysTickCtrlEnableMsk })

/-- `systick_init`. -/
def systickInit (s : Delay) : Delay :=
  { s with sysTick := (sysTickConfig (systemCoreClock / osTicksPerSec) s.sysTick).2 }

/-- The loop of `delay_us`, with the moments at which it reads `VAL`: the moment at which it is
left, if these are enough. -/
def delayLoop (val : ℕ → UInt32) (reload ticks : UInt32) :
    (moments : List ℕ) → (told tcnt : UInt32) → Option ℕ
  | [], _, _ => none
  | moment :: moments, told, tcnt =>
    let tnow := val moment
    if tnow ≠ told then
      let tcnt := if tnow < told then tcnt + (told - tnow) else tcnt + (reload - tnow + told)
      if tcnt ≥ ticks then some moment else delayLoop val reload ticks moments tnow tcnt
    else delayLoop val reload ticks moments told tcnt

/-- `delay_us`, from the first reading of `VAL` on. -/
def delayUs (s : Delay) (nus : UInt32) (val : ℕ → UInt32) (moments : List ℕ) : Option ℕ :=
  let reload := s.sysTick.load
  let ticks := nus * s.facUs.toUInt32
  let told := val 0
  delayLoop val reload ticks moments told 0

/-! ### The timer running -/

namespace SysTick

/-- The cycles of HCLK in a count. -/
def divisor (t : SysTick) : ℕ := if t.ctrl &&& sysTickCtrlClksourceMsk = 0 then 8 else 1

/-- The cycles of HCLK from one start of the counter to the next. -/
def period (t : SysTick) : ℕ := t.divisor * (t.load.toNat + 1)

/-- **Where the timer stands** when it is first read: the count, and how many cycles ago it was
made. -/
structure Phase (t : SysTick) where
  count : ℕ
  count_le : count ≤ t.load.toNat
  cycles : ℕ
  cycles_lt : cycles < t.divisor

variable {t : SysTick}

/-- The counts made since the first reading. -/
def Phase.counts (p : t.Phase) (moment : ℕ) : ℕ := (p.cycles + moment) / t.divisor

/-- `VAL`. -/
def Phase.val (p : t.Phase) (moment : ℕ) : UInt32 :=
  UInt32.ofNat (value t.load.toNat p.count (p.counts moment))

/-- How often the counter has started again since the first reading. -/
def Phase.starts (p : t.Phase) (moment : ℕ) : ℕ :=
  DownCounter.starts t.load.toNat p.count (p.counts moment)

end SysTick

/-- The moments are in order, each less than a period behind the one before. -/
def SampledWithin (period : ℕ) : ℕ → List ℕ → Prop
  | _, [] => True
  | now, moment :: moments =>
    now ≤ moment ∧ moment < now + period ∧ SampledWithin period moment moments

/-- **`delay_us` waits long enough** where the timer stands so, however it is read. -/
def WaitsLongEnough (s : Delay) (nus : UInt32) (p : s.sysTick.Phase) : Prop :=
  ∀ moments moment, SampledWithin s.sysTick.period 0 moments →
    delayUs s nus p.val moments = some moment → cyclesPerUs * nus.toNat ≤ moment

/-! ### What the loop measures -/

section Loop

variable {t : SysTick} {p : t.Phase} {now moment : ℕ} {moments : List ℕ} {ticks told tcnt : UInt32}

namespace SysTick.Phase

theorem divisor_pos (p : t.Phase) : 0 < t.divisor := Nat.lt_of_le_of_lt (Nat.zero_le _) p.cycles_lt

theorem toNat_val (p : t.Phase) (moment : ℕ) :
    (p.val moment).toNat = value t.load.toNat p.count (p.counts moment) := by
  have hle : value t.load.toNat p.count (p.counts moment) ≤ t.load.toNat := value_le
  exact UInt32.toNat_ofNat_of_lt (Nat.lt_of_le_of_lt hle t.load.toNat_lt)

theorem counts_zero (p : t.Phase) : p.counts 0 = 0 := Nat.div_eq_of_lt p.cycles_lt

theorem starts_zero (p : t.Phase) : p.starts 0 = 0 := by
  rw [starts, p.counts_zero]
  exact DownCounter.starts_zero p.count_le

theorem counts_mono (p : t.Phase) (h : now ≤ moment) : p.counts now ≤ p.counts moment :=
  Nat.div_le_div_right (Nat.add_le_add_left h _)

/-- In less than a period there is at most a period of counts. -/
theorem counts_le (p : t.Phase) (h : moment < now + t.period) :
    p.counts moment ≤ p.counts now + (t.load.toNat + 1) := by
  have hle : p.cycles + moment ≤ p.cycles + now + t.divisor * (t.load.toNat + 1) := by
    have hperiod : t.period = t.divisor * (t.load.toNat + 1) := rfl
    omega
  have hdiv := Nat.div_le_div_right (c := t.divisor) hle
  rw [Nat.add_mul_div_left _ _ p.divisor_pos] at hdiv
  exact hdiv

end SysTick.Phase

/-- What the loop adds for a reading. -/
def added (reload told tnow : UInt32) : UInt32 :=
  if tnow < told then told - tnow else reload - tnow + told

theorem delayLoop_cons {val : ℕ → UInt32} {reload : UInt32} :
    delayLoop val reload ticks (moment :: moments) told tcnt =
      if val moment = told then delayLoop val reload ticks moments told tcnt
      else if ticks ≤ tcnt + added reload told (val moment) then some moment
      else delayLoop val reload ticks moments (val moment)
        (tcnt + added reload told (val moment)) := by
  rw [delayLoop, added, apply_ite (tcnt + ·), ite_not]

/-- It is the difference of the readings. -/
theorem toNat_added {top old new : UInt32} (hnew : new.toNat ≤ top.toNat) (hne : new ≠ old) :
    (added top old new).toNat = difference top.toNat old.toNat new.toNat := by
  have hne : new.toNat ≠ old.toNat := fun heq ↦ hne (UInt32.toNat_inj.1 heq)
  have htop := top.toNat_lt
  rw [added, difference]
  by_cases hlt : new < old
  · have hle : new ≤ old := UInt32.le_iff_toNat_le.2 (UInt32.lt_iff_toNat_lt.1 hlt).le
    rw [if_pos hlt, if_pos (UInt32.lt_iff_toNat_lt.1 hlt), UInt32.toNat_sub_of_le _ _ hle]
  · have hge : ¬ new.toNat < old.toNat := fun h ↦ hlt (UInt32.lt_iff_toNat_lt.2 h)
    rw [if_neg hlt, if_neg hge, UInt32.toNat_add,
      UInt32.toNat_sub_of_le _ _ (UInt32.le_iff_toNat_le.2 hnew)]
    exact Nat.mod_eq_of_lt (by omega)

/-- **What is added for a reading** is short of the counts by the starts. -/
theorem toNat_added_val (hle : now ≤ moment) (hlt : moment < now + t.period)
    (hne : p.val moment ≠ p.val now) :
    (added t.load (p.val now) (p.val moment)).toNat + p.starts moment + p.counts now =
      p.starts now + p.counts moment := by
  have hnow := p.toNat_val now
  have hmoment := p.toNat_val moment
  have hdiff := difference_add p.count_le (p.counts_mono hle) (p.counts_le hlt) fun heq ↦
    hne (UInt32.toNat_inj.1 (hmoment.trans (heq.trans hnow.symm)))
  rw [← hnow, ← hmoment, ← toNat_added (hmoment ▸ value_le) hne] at hdiff
  exact hdiff

/-- **The loop never counts too much**: when it is left, as many counts have been made as it waits
for, and one more for every time the counter has started again. -/
theorem counts_of_delayLoop (htcnt : tcnt.toNat + p.starts now ≤ p.counts now)
    (hts : SampledWithin t.period now moments)
    (hloop : delayLoop p.val t.load ticks moments (p.val now) tcnt = some moment) :
    ticks.toNat + p.starts moment ≤ p.counts moment := by
  induction moments generalizing now tcnt with
  | nil => exact absurd hloop (by simp [delayLoop])
  | cons next rest ih =>
    obtain ⟨hle, hlt, hrest⟩ := hts
    rw [delayLoop_cons] at hloop
    by_cases heq : p.val next = p.val now
    · -- nothing is added, whether no count has been made or a period of them
      have hmissed : p.starts next + p.counts now ≤ p.starts now + p.counts next :=
        starts_add_le p.count_le (p.counts_mono hle) (p.counts_le hlt) (by
          rw [← p.toNat_val, ← p.toNat_val, heq])
      rw [if_pos heq, ← heq] at hloop
      exact ih (by omega) hrest hloop
    · have hadded := toNat_added_val hle hlt heq
      rw [if_neg heq] at hloop
      generalize added t.load (p.val now) (p.val next) = d at hadded hloop
      -- the sum may wrap, which makes it smaller
      have hmod : (tcnt + d).toNat ≤ tcnt.toNat + d.toNat := by
        rw [UInt32.toNat_add]
        exact Nat.mod_le _ _
      by_cases hge : ticks ≤ tcnt + d
      · rw [if_pos hge] at hloop
        obtain rfl := Option.some.inj hloop
        have hge := UInt32.le_iff_toNat_le.1 hge
        omega
      · rw [if_neg hge] at hloop
        exact ih (by omega) hrest hloop

/-- **And it is left**: read every two counts, it adds at least one of them each time. -/
theorem exists_delayLoop (hload : 2 ≤ t.load.toNat) (hmax : ticks.toNat + 1 < 2 ^ 32) {n : ℕ}
    (hlt : tcnt.toNat < ticks.toNat) (hle : ticks.toNat ≤ tcnt.toNat + n) :
    ∃ moments moment, SampledWithin t.period now moments ∧ moment ≤ now + n * (2 * t.divisor) ∧
      delayLoop p.val t.load ticks moments (p.val now) tcnt = some moment := by
  induction n generalizing now tcnt with
  | zero => exact absurd hle (Nat.not_le.2 hlt)
  | succ n ih =>
    have hdivisor := p.divisor_pos
    have hwithin : now + 2 * t.divisor < now + t.period := by
      have hmul : t.divisor * 3 ≤ t.divisor * (t.load.toNat + 1) := Nat.mul_le_mul_left _ (by omega)
      show now + 2 * t.divisor < now + t.divisor * (t.load.toNat + 1)
      omega
    have hcounts : p.counts (now + 2 * t.divisor) = p.counts now + 2 := by
      show (p.cycles + (now + 2 * t.divisor)) / t.divisor = _
      rw [← Nat.add_assoc, Nat.add_mul_div_right _ _ hdivisor]
      rfl
    have hone : p.starts (now + 2 * t.divisor) ≤ p.starts now + 1 :=
      starts_le_succ (p.counts_le hwithin)
    have hne : p.val (now + 2 * t.divisor) ≠ p.val now := by
      intro heq
      have hvalue := congrArg UInt32.toNat heq
      rw [p.toNat_val, p.toNat_val, hcounts] at hvalue
      exact value_ne p.count_le (by omega) (by omega) hvalue
    have hadded := toNat_added_val (Nat.le_add_right _ _) hwithin hne
    have hmono : p.starts now ≤ p.starts (now + 2 * t.divisor) := starts_mono (by omega)
    rw [hcounts] at hadded
    generalize hd : added t.load (p.val now) (p.val (now + 2 * t.divisor)) = d at hadded
    have hsum : (tcnt + d).toNat = tcnt.toNat + d.toNat := by
      rw [UInt32.toNat_add]
      exact Nat.mod_eq_of_lt (by omega)
    have hmul : (n + 1) * (2 * t.divisor) = n * (2 * t.divisor) + 2 * t.divisor := Nat.succ_mul _ _
    by_cases hge : ticks ≤ tcnt + d
    · refine ⟨[now + 2 * t.divisor], now + 2 * t.divisor, ⟨by omega, hwithin, trivial⟩, ?_, ?_⟩
      · omega
      · rw [delayLoop_cons, if_neg hne, hd, if_pos hge]
    · have hlt' : (tcnt + d).toNat < ticks.toNat :=
        Nat.not_le.1 fun h ↦ hge (UInt32.le_iff_toNat_le.2 h)
      obtain ⟨moments, moment, hts, hmoment, hloop⟩ := @ih (now + 2 * t.divisor) _ hlt' (by omega)
      refine ⟨_ :: moments, moment, ⟨by omega, hwithin, hts⟩, by omega, ?_⟩
      rw [delayLoop_cons, if_neg hne, hd, if_neg hge]
      exact hloop

/-- While the counter does not start again, one reading is enough, when the last count is made. -/
theorem delayLoop_single (hpos : 0 < ticks.toNat) (hcount : ticks.toNat ≤ p.count)
    (hcounts : p.counts moment = ticks.toNat) :
    delayLoop p.val t.load ticks [moment] (p.val 0) 0 = some moment := by
  have hle := p.count_le
  have hold : (p.val 0).toNat = p.count := by
    rw [p.toNat_val, p.counts_zero, value_zero hle]
  have hnew : (p.val moment).toNat = p.count - ticks.toNat := by
    rw [p.toNat_val, hcounts, value_of_le hle hcount]
  have hne : p.val moment ≠ p.val 0 := by
    intro heq
    have hvalue := congrArg UInt32.toNat heq
    omega
  have hadded : (added t.load (p.val 0) (p.val moment)).toNat = ticks.toNat := by
    rw [toNat_added (by omega) hne, difference, if_pos (by omega)]
    omega
  have hge : ticks ≤ 0 + added t.load (p.val 0) (p.val moment) := by
    rw [UInt32.zero_add, UInt32.le_iff_toNat_le, hadded]
  rw [delayLoop_cons, if_neg hne, if_pos hge]

end Loop

/-! ### The two configurations -/

section Configurations

variable {s : Delay} {nus : UInt32}

/-- A bit that is in none of the masks stays clear. -/
theorem clear_clksource (ctrl : UInt32) :
    (ctrl &&& sysTickClkSourceHclkDiv8 ||| sysTickCtrlTickintMsk ||| sysTickCtrlEnableMsk) &&&
      sysTickCtrlClksourceMsk = 0 := by
  have hdiv8 : sysTickClkSourceHclkDiv8.toBitVec &&& sysTickCtrlClksourceMsk.toBitVec = 0#32 := rfl
  have htickint : sysTickCtrlTickintMsk.toBitVec &&& sysTickCtrlClksourceMsk.toBitVec = 0#32 := rfl
  have henable : sysTickCtrlEnableMsk.toBitVec &&& sysTickCtrlClksourceMsk.toBitVec = 0#32 := rfl
  rw [← UInt32.toBitVec_inj, UInt32.toBitVec_and, UInt32.toBitVec_or, UInt32.toBitVec_or,
    UInt32.toBitVec_and, BitVec.and_or_distrib_right, BitVec.and_or_distrib_right, BitVec.and_assoc,
    hdiv8, htickint, henable, BitVec.and_zero]
  rfl

/-- After `delay_init` a count takes eight cycles, whatever the register held. -/
theorem divisor_delayInit (s : Delay) : (delayInit s).sysTick.divisor = 8 :=
  if_pos (clear_clksource s.sysTick.ctrl)

/-- After `systick_init` it takes one. -/
theorem divisor_systickInit (s : Delay) : (systickInit s).sysTick.divisor = 1 := by
  have hctrl : (systickInit s).sysTick.ctrl = 7 := rfl
  rw [SysTick.divisor, hctrl]
  rfl

/-- The counts a call waits for, in either configuration. -/
theorem toNat_ticks {facUs : UInt8} (h : nus.toNat * facUs.toNat < 2 ^ 32) :
    (nus * facUs.toUInt32).toNat = nus.toNat * facUs.toNat := by
  rw [UInt32.toNat_mul, UInt8.toNat_toUInt32]
  exact Nat.mod_eq_of_lt h

/-- **With the timer at an eighth of HCLK** a call waits long enough exactly where it waits for
nothing, where a count has just been made, or where the counter starts again before the call
ends. -/
theorem waitsLongEnough_delayInit (h : nus.toNat * 9 < 2 ^ 32) (p : (delayInit s).sysTick.Phase) :
    WaitsLongEnough (delayInit s) nus p ↔
      nus.toNat = 0 ∨ p.cycles = 0 ∨ p.count < 9 * nus.toNat := by
  have hticks : (nus * (delayInit s).facUs.toUInt32).toNat = nus.toNat * 9 := toNat_ticks h
  have hdivisor := divisor_delayInit s
  have hcounts : ∀ moment, p.counts moment = (p.cycles + moment) / 8 := fun moment ↦ by
    rw [SysTick.Phase.counts, hdivisor]
  have hcycles : p.cycles < 8 := hdivisor ▸ p.cycles_lt
  constructor
  · intro hwaits
    by_contra hcond
    obtain ⟨hpos, hphase, hcount⟩ : 0 < nus.toNat ∧ 0 < p.cycles ∧ 9 * nus.toNat ≤ p.count := by
      omega
    have hload : p.count ≤ 45000 := p.count_le
    have hperiod : (delayInit s).sysTick.period = 8 * 45001 := by
      rw [SysTick.period, hdivisor]
      rfl
    -- one reading, just after the last count
    have hloop : delayUs (delayInit s) nus p.val [72 * nus.toNat - p.cycles] =
        some (72 * nus.toNat - p.cycles) := by
      refine delayLoop_single (by omega) (by omega) ?_
      rw [hcounts, hticks]
      omega
    have hlong := hwaits [72 * nus.toNat - p.cycles] _ ⟨by omega, by omega, trivial⟩ hloop
    have hus : 72 * nus.toNat ≤ 72 * nus.toNat - p.cycles := hlong
    omega
  · intro hcond moments moment hts hloop
    have hpassed := counts_of_delayLoop (t := (delayInit s).sysTick) (p := p) (by
      rw [p.counts_zero, p.starts_zero]
      rfl) hts hloop
    rw [hticks, hcounts] at hpassed
    show 72 * nus.toNat ≤ moment
    rcases hcond with hzero | hphase | hcount
    · omega
    · omega
    · -- one count is lost where the counter starts again
      have hstarts : 0 < p.starts moment :=
        starts_pos p.count_le (by rw [hcounts]; omega)
      omega

/-- **With the timer at HCLK** a call that waits for anything may end early. -/
theorem waitsLongEnough_systickInit (h : nus.toNat * 9 < 2 ^ 32)
    (p : (systickInit (delayInit s)).sysTick.Phase) :
    WaitsLongEnough (systickInit (delayInit s)) nus p ↔ nus.toNat = 0 := by
  have hticks : (nus * (systickInit (delayInit s)).facUs.toUInt32).toNat = nus.toNat * 9 :=
    toNat_ticks h
  have hload : (systickInit (delayInit s)).sysTick.load.toNat = 359999 := rfl
  constructor
  · intro hwaits
    by_contra hpos
    have hzero : (0 : UInt32).toNat = 0 := rfl
    obtain ⟨moments, moment, hts, hmoment, hloop⟩ : ∃ moments moment,
        SampledWithin (systickInit (delayInit s)).sysTick.period 0 moments ∧
          moment ≤ 0 + nus.toNat * 9 * (2 * (systickInit (delayInit s)).sysTick.divisor) ∧
          delayUs (systickInit (delayInit s)) nus p.val moments = some moment :=
      exists_delayLoop (by omega) (by omega) (by omega) (by omega)
    have hlong : 72 * nus.toNat ≤ moment := hwaits moments moment hts hloop
    rw [divisor_systickInit] at hmoment
    omega
  · intro hzero moments moment _ _
    rw [hzero]
    exact Nat.zero_le moment

end Configurations

/-- **`delay_us` waits long enough**, however it is read: in the configuration of `delay_init`
exactly where it waits for nothing, where a count has just been made, or where the counter starts
again before the call ends; in that of `systick_init` exactly where it waits for nothing. -/
theorem delay_iff (s : Delay) (nus : UInt32)
    (h : nus.toNat * (delayInit s).facUs.toNat < 2 ^ 32) :
    (∀ p : (delayInit s).sysTick.Phase, WaitsLongEnough (delayInit s) nus p ↔
      nus.toNat = 0 ∨ p.cycles = 0 ∨ p.count < (delayInit s).facUs.toNat * nus.toNat) ∧
    ∀ p : (systickInit (delayInit s)).sysTick.Phase,
      WaitsLongEnough (systickInit (delayInit s)) nus p ↔ nus.toNat = 0 :=
  ⟨waitsLongEnough_delayInit h, waitsLongEnough_systickInit h⟩

/-- The timer out of reset. -/
def Delay.reset : Delay := ⟨⟨0, 0⟩, 0, 0⟩

/-- After `delay_init`, with 449 counts to go until the counter starts again, `delay_us(50)` waits
for 450 and one more. -/
theorem delay_fifty : WaitsLongEnough (delayInit .reset) 50 ⟨449, by decide, 7, by decide⟩ :=
  ((delay_iff .reset 50 (by decide)).1 _).2 (.inr (.inr (by decide)))

/-- `delay_us(50)`, as the audio chips are given it, ends after 450 of 3600 cycles. -/
theorem not_waitsLongEnough : ¬ ∀ (s : Delay) (nus : UInt32),
    nus.toNat * (delayInit s).facUs.toNat < 2 ^ 32 →
    (∀ p : (delayInit s).sysTick.Phase, WaitsLongEnough (delayInit s) nus p) ∧
      ∀ p : (systickInit (delayInit s)).sysTick.Phase,
        WaitsLongEnough (systickInit (delayInit s)) nus p := by
  intro hall
  have hwaits := (hall .reset 50 (by decide)).2 ⟨359999, by decide, 0, by decide⟩
  exact absurd ((waitsLongEnough_systickInit (by decide) _).1 hwaits) (by decide)

end YHAudioLink
