import YHAudioLink.Foundation.Agenda
import YHAudioLink.Foundation.DataRefinement
import YHAudioLink.Foundation.Runs
import YHAudioLink.Netif.SysArch

/-!
# The timers of the stack

`timers.c` keeps the handlers that are to be called in a list of delays, `next_timeout`, and the
thread of the stack waits for its messages with the first delay as the timeout. What it learns of
the time is what `sys_arch_mbox_fetch` reports, and of that it takes off the list no more than the
timeout it passed: a longer wait leaves the first delay at zero and the excess is dropped. So there
are two times, the **reported** one, which is the sum of what was reported, and the **counted** one,
in which each report is cut off at the timeout that was passed. They are the same as long as no
report exceeds its timeout.

* `timers_refine_agenda`: in 32-bit arithmetic, and with the pool the entries are taken from, every
  sequence of calls is one on an agenda of deadlines. A handler is called exactly when its deadline
  is the counted time, and of two with the same deadline the one that was set first.
* `periodic_timers`: with the handlers the stack really has, each of which sets itself again, the
  timers for reassembly and ARP are called at every multiple of their intervals in counted time and
  at no other, whatever comes in between, and the pool never runs empty. The TCP timer is set while
  it is marked as active, and only then.

The first rests on the library of agendas and on the span of the list, which stays below 2³²: it is
what the one addition, in `sys_untimeout`, needs. The second is an invariant over runs, in the terms
of the first.
-/

namespace YHAudioLink

open Agenda DataRefinement Runs

/-! ### The list -/

section List

variable {H : Type}

/-- `struct sys_timeo`; `h` is the handler with its argument. -/
structure SysTimeo (H : Type) where
  time : UInt32
  h : H
  deriving DecidableEq

/-- The list and the free elements of the pool `MEMP_SYS_TIMEOUT`. -/
structure Timers (H : Type) where
  nextTimeout : List (SysTimeo H)
  free : ℕ
  deriving DecidableEq

/-- The loop of `sys_timeout` over the entries the new one may follow. -/
def linkTimeo (timeout : SysTimeo H) : List (SysTimeo H) → List (SysTimeo H)
  | [] => []
  | [t] => [t, { timeout with time := timeout.time - t.time }]
  | t :: n :: ts =>
    let timeout := { timeout with time := timeout.time - t.time }
    if n.time > timeout.time then t :: timeout :: { n with time := n.time - timeout.time } :: ts
    else t :: linkTimeo timeout (n :: ts)

/-- `sys_timeout`. -/
def Timers.sysTimeout (s : Timers H) (msecs : UInt32) (h : H) : Timers H :=
  if s.free = 0 then s
  else
    let timeout : SysTimeo H := ⟨msecs, h⟩
    match s.nextTimeout with
    | [] => ⟨[timeout], s.free - 1⟩
    | t :: ts =>
      if t.time > msecs then ⟨timeout :: { t with time := t.time - msecs } :: ts, s.free - 1⟩
      else ⟨linkTimeo timeout (t :: ts), s.free - 1⟩

/-- The loop of `sys_untimeout`: the list without the first entry for the handler. -/
def unlinkTimeo [DecidableEq H] (h : H) : List (SysTimeo H) → Option (List (SysTimeo H))
  | [] => none
  | t :: ts =>
    if t.h = h then
      match ts with
      | [] => some []
      | n :: ts => some ({ n with time := n.time + t.time } :: ts)
    else (unlinkTimeo h ts).map fun ts ↦ t :: ts

/-- `sys_untimeout`. -/
def Timers.sysUntimeout [DecidableEq H] (s : Timers H) (h : H) : Timers H :=
  match unlinkTimeo h s.nextTimeout with
  | none => s
  | some ts => ⟨ts, s.free + 1⟩

/-- `sys_timeouts_mbox_fetch` from `again` to where it goes back there, with the handler it calls,
or returns. `fetched` is what `sys_arch_mbox_fetch` returns if it is called. -/
def Timers.mboxFetch (s : Timers H) (fetched : UInt32) : Option H × Timers H :=
  match s.nextTimeout with
  | [] => (none, s)
  | t :: ts =>
    let timeNeeded := if t.time > 0 then fetched else sysArchTimeout
    if timeNeeded = sysArchTimeout then (some t.h, ⟨ts, s.free + 1⟩)
    else
      let time := if timeNeeded < t.time then t.time - timeNeeded else 0
      (none, { s with nextTimeout := { t with time } :: ts })

/-- A call of `sys_arch_mbox_fetch`: the timeout passed, and what it returned. -/
structure MboxWait where
  timeout : UInt32
  returned : UInt32
  deriving DecidableEq

/-- The time it reports. When it has timed out that is the timeout. -/
def MboxWait.reported (w : MboxWait) : ℕ :=
  if w.returned = sysArchTimeout then w.timeout.toNat else w.returned.toNat

/-- What counts of it: no more than the timeout. -/
def MboxWait.counted (w : MboxWait) : ℕ := min w.reported w.timeout.toNat

/-- The counted time of some waits. -/
def countedTime (ws : List MboxWait) : ℕ := (ws.map MboxWait.counted).sum

/-- The reported time of some waits. -/
def reportedTime (ws : List MboxWait) : ℕ := (ws.map MboxWait.reported).sum

/-- The call of `sys_arch_mbox_fetch` in a pass of the loop: none when the first delay is zero, and
one without a timeout when nothing is set. -/
def Timers.waits (s : Timers H) (fetched : UInt32) : List MboxWait :=
  match s.nextTimeout with
  | [] => [⟨0, fetched⟩]
  | t :: _ => if t.time > 0 then [⟨t.time, fetched⟩] else []

theorem countedTime_append (ws ws' : List MboxWait) :
    countedTime (ws ++ ws') = countedTime ws + countedTime ws' := by
  rw [countedTime, List.map_append, List.sum_append]
  rfl

/-- Counted and reported time differ by what the waits exceeded their timeouts by. -/
theorem countedTime_add_excess (ws : List MboxWait) :
    countedTime ws + (ws.map fun w ↦ w.reported - w.timeout.toNat).sum = reportedTime ws := by
  induction ws with
  | nil => rfl
  | cons w ws ih =>
    have hmin : w.counted + (w.reported - w.timeout.toNat) = w.reported := by
      rw [MboxWait.counted]
      omega
    simp only [countedTime, reportedTime, List.map_cons, List.sum_cons] at ih ⊢
    omega

/-- The time a pass counts. -/
theorem countedTime_waits (t : SysTimeo H) (ts : List (SysTimeo H)) (free : ℕ) (fetched : UInt32) :
    countedTime (Timers.waits ⟨t :: ts, free⟩ fetched) =
      if fetched = sysArchTimeout then t.time.toNat else min fetched.toNat t.time.toNat := by
  rw [Timers.waits]
  dsimp only
  split
  · simp only [countedTime, MboxWait.counted, MboxWait.reported, List.map_cons, List.map_nil,
      List.sum_cons, List.sum_nil]
    split <;> omega
  · next hzero =>
    have hnat : t.time.toNat = 0 := Nat.eq_zero_of_not_pos fun hpos ↦
      hzero (UInt32.lt_iff_toNat_lt.2 hpos)
    rw [hnat, Nat.min_zero, ite_self]
    rfl

/-! ### The agenda -/

/-- The delays in the list. -/
def delays (ts : List (SysTimeo H)) : List (ℕ × H) := ts.map fun t ↦ (t.time.toNat, t.h)

/-- The counted time and the deadlines. -/
structure TimerAgenda (H : Type) where
  now : ℕ
  pending : List (ℕ × H)

/-- The list stands for the agenda. -/
structure Timers.Holds (capacity : ℕ) (s : Timers H) (a : TimerAgenda H) : Prop where
  pending : a.pending = deadlines a.now (delays s.nextTimeout)
  pool : s.free + s.nextTimeout.length = capacity
  fits : span (delays s.nextTimeout) < 2 ^ 32

theorem delays_linkTimeo {timeout t : SysTimeo H} {ts : List (SysTimeo H)}
    (hle : t.time ≤ timeout.time) :
    delays (linkTimeo timeout (t :: ts)) =
      delay timeout.time.toNat timeout.h (delays (t :: ts)) := by
  induction ts generalizing timeout t with
  | nil =>
    have hnat := UInt32.le_iff_toNat_le.1 hle
    simp [linkTimeo, delays, delay, UInt32.toNat_sub_of_le _ _ hle, hnat.not_gt]
  | cons n ts ih =>
    have hnat := UInt32.le_iff_toNat_le.1 hle
    have hsub := UInt32.toNat_sub_of_le _ _ hle
    rw [linkTimeo]
    simp only
    split
    · next hgt =>
      have hlt : (timeout.time - t.time).toNat < n.time.toNat := UInt32.lt_iff_toNat_lt.1 hgt
      have hsub' := UInt32.toNat_sub_of_le _ _ (UInt32.le_of_lt hgt)
      rw [hsub] at hlt hsub'
      simp [delays, delay, hnat.not_gt, hlt, hsub, hsub']
    · next hle' =>
      have hrest := @ih ⟨timeout.time - t.time, timeout.h⟩ n (UInt32.not_lt.1 hle')
      simp only [delays, List.map_cons, hsub] at hrest ⊢
      rw [hrest]
      exact (if_neg hnat.not_gt).symm

theorem length_linkTimeo (timeout t : SysTimeo H) (ts : List (SysTimeo H)) :
    (linkTimeo timeout (t :: ts)).length = ts.length + 2 := by
  induction ts generalizing timeout t with
  | nil => rfl
  | cons n ts ih =>
    rw [linkTimeo]
    simp only
    split
    · rfl
    · rw [List.length_cons, ih, List.length_cons]

/-- `sys_timeout` with an element of the pool. -/
theorem Timers.sysTimeout_spec {s : Timers H} (hfree : s.free ≠ 0) (msecs : UInt32) (h : H) :
    delays (s.sysTimeout msecs h).nextTimeout = delay msecs.toNat h (delays s.nextTimeout) ∧
      (s.sysTimeout msecs h).nextTimeout.length = s.nextTimeout.length + 1 ∧
      (s.sysTimeout msecs h).free = s.free - 1 := by
  obtain ⟨ts, free⟩ := s
  rw [Timers.sysTimeout, if_neg hfree]
  cases ts with
  | nil => exact ⟨rfl, rfl, rfl⟩
  | cons t ts =>
    dsimp only
    split
    · next hgt =>
      have hlt : msecs.toNat < t.time.toNat := UInt32.lt_iff_toNat_lt.1 hgt
      have hsub := UInt32.toNat_sub_of_le _ _ (UInt32.le_of_lt hgt)
      refine ⟨?_, rfl, rfl⟩
      simp [delays, delay, hlt, hsub]
    · next hle =>
      exact ⟨delays_linkTimeo (UInt32.not_lt.1 hle), length_linkTimeo _ _ _, rfl⟩

/-- Taking out the first entry for a handler, or nothing. -/
theorem unlinkTimeo_spec [DecidableEq H] {ts : List (SysTimeo H)}
    (hfits : span (delays ts) < 2 ^ 32) (h : H) :
    (unlinkTimeo h ts = none ∧ delays ts = cancel (fun h' ↦ h' = h) (delays ts)) ∨
      ∃ ts', unlinkTimeo h ts = some ts' ∧
        delays ts' = cancel (fun h' ↦ h' = h) (delays ts) ∧ ts'.length + 1 = ts.length := by
  induction ts with
  | nil => exact .inl ⟨rfl, rfl⟩
  | cons t ts ih =>
    have hspan : t.time.toNat + span (delays ts) < 2 ^ 32 := hfits
    by_cases hh : t.h = h
    · right
      cases ts with
      | nil => exact ⟨[], by simp [unlinkTimeo, hh], by simp [delays, cancel, lend, hh], rfl⟩
      | cons n ts =>
        have hsum : t.time.toNat + (n.time.toNat + span (delays ts)) < 2 ^ 32 := hspan
        have hadd : (n.time + t.time).toNat = n.time.toNat + t.time.toNat := by
          rw [UInt32.toNat_add]
          exact Nat.mod_eq_of_lt (by omega)
        refine ⟨{ n with time := n.time + t.time } :: ts, by simp [unlinkTimeo, hh], ?_, rfl⟩
        simp [delays, cancel, lend, hh, hadd]
    · rcases ih (by omega) with ⟨hnone, hsame⟩ | ⟨ts', hsome, hts', hlen⟩
      · refine .inl ⟨by simp [unlinkTimeo, hh, hnone], ?_⟩
        show (_, _) :: delays ts = cancel _ ((_, _) :: delays ts)
        rw [cancel, if_neg (by simpa using hh), ← hsame]
      · refine .inr ⟨t :: ts', by simp [unlinkTimeo, hh, hsome], ?_, by simp [hlen]⟩
        show (_, _) :: delays ts' = cancel _ ((_, _) :: delays ts)
        rw [cancel, if_neg (by simpa using hh), ← hts']

theorem Timers.Holds.length_pending {capacity : ℕ} {s : Timers H} {a : TimerAgenda H}
    (h : s.Holds capacity a) : a.pending.length = s.nextTimeout.length := by
  rw [h.pending, ← List.length_map (f := Prod.snd), map_snd_deadlines, List.length_map, delays,
    List.length_map]

/-- `sys_timeout` where the list stands for an agenda. -/
theorem Timers.Holds.sysTimeout {capacity : ℕ} {s : Timers H} {a : TimerAgenda H}
    (h : s.Holds capacity a) (hroom : a.pending.length < capacity) (msecs : UInt32) (k : H) :
    (s.sysTimeout msecs k).Holds capacity
      { a with pending := schedule (a.now + msecs.toNat, k) a.pending } := by
  have hlen := h.length_pending
  have hpool := h.pool
  have hfree : s.free ≠ 0 := by omega
  obtain ⟨hdelays, hlength, hfree'⟩ := s.sysTimeout_spec hfree msecs k
  refine ⟨?_, by omega, ?_⟩
  · rw [hdelays, deadlines_delay, ← h.pending]
  · rw [hdelays, span_delay]
    exact max_lt msecs.toNat_lt h.fits

/-- A pass that calls the first handler: its deadline has come, or comes while the thread waits. -/
theorem Timers.mboxFetch_of_due {capacity now free : ℕ} {t : SysTimeo H} {ts : List (SysTimeo H)}
    {pending : List (ℕ × H)} (h : (⟨t :: ts, free⟩ : Timers H).Holds capacity ⟨now, pending⟩)
    {fetched : UInt32} (hdue : now + t.time.toNat = now ∨ fetched = sysArchTimeout) :
    Timers.mboxFetch ⟨t :: ts, free⟩ fetched = (some t.h, ⟨ts, free + 1⟩) ∧
      now + countedTime (Timers.waits ⟨t :: ts, free⟩ fetched) = now + t.time.toNat ∧
      (⟨ts, free + 1⟩ : Timers H).Holds capacity
        ⟨now + t.time.toNat, deadlines (now + t.time.toNat) (delays ts)⟩ := by
  have hpool : free + (ts.length + 1) = capacity := h.pool
  have hpos : t.time > 0 ↔ 0 < t.time.toNat := UInt32.lt_iff_toNat_lt
  have hneeded : (if t.time > 0 then fetched else sysArchTimeout) = sysArchTimeout := by
    rcases hdue with hzero | rfl
    · refine if_neg fun hgt ↦ ?_
      have hlt := hpos.1 hgt
      omega
    · exact ite_self _
  refine ⟨?_, ?_, rfl, ?_, Nat.lt_of_le_of_lt (Nat.le_add_left _ _) h.fits⟩
  · rw [Timers.mboxFetch]
    simp only [hneeded, if_true]
  · rw [countedTime_waits]
    split
    · rfl
    · next hne =>
      have hzero := hdue.resolve_right hne
      omega
  · rw [← hpool]
    simp
    omega

/-- A pass that waits for a message, and gets one before the first deadline or at it. -/
theorem Timers.mboxFetch_of_not_due {capacity now free : ℕ} {t : SysTimeo H}
    {ts : List (SysTimeo H)}
    {pending : List (ℕ × H)} (h : (⟨t :: ts, free⟩ : Timers H).Holds capacity ⟨now, pending⟩)
    {fetched : UInt32} (hdue : ¬ (now + t.time.toNat = now ∨ fetched = sysArchTimeout)) :
    ∃ s', Timers.mboxFetch ⟨t :: ts, free⟩ fetched = (none, s') ∧
      now + countedTime (Timers.waits ⟨t :: ts, free⟩ fetched) =
        min (now + fetched.toNat) (now + t.time.toNat) ∧
      s'.Holds capacity ⟨min (now + fetched.toNat) (now + t.time.toNat), pending⟩ := by
  obtain ⟨hpending, hpool, hfits⟩ := h
  obtain rfl : pending = deadlines now (delays (t :: ts)) := hpending
  obtain ⟨hnz, hnt⟩ := not_or.1 hdue
  have hgt : t.time > 0 := UInt32.lt_iff_toNat_lt.2 (show 0 < t.time.toNat by omega)
  have hcounted : countedTime (Timers.waits ⟨t :: ts, free⟩ fetched) =
      min fetched.toNat t.time.toNat := by
    rw [countedTime_waits]
    exact if_neg hnt
  have htime : (if fetched < t.time then t.time - fetched else 0).toNat =
      t.time.toNat - min fetched.toNat t.time.toNat := by
    split
    · next hlt =>
      have hnat := UInt32.lt_iff_toNat_lt.1 hlt
      rw [UInt32.toNat_sub_of_le _ _ (UInt32.le_of_lt hlt), Nat.min_eq_left hnat.le]
    · next hge =>
      have hnat := UInt32.le_iff_toNat_le.1 (UInt32.not_lt.1 hge)
      rw [Nat.min_eq_right hnat, Nat.sub_self]
      rfl
  have hmin : now + min fetched.toNat t.time.toNat = min (now + fetched.toNat)
      (now + t.time.toNat) := (Nat.add_min_add_left _ _ _).symm
  refine ⟨⟨⟨if fetched < t.time then t.time - fetched else 0, t.h⟩ :: ts, free⟩, ?_,
    by rw [hcounted, hmin], ?_, hpool, ?_⟩
  · rw [Timers.mboxFetch]
    simp only [if_pos hgt, if_neg hnt]
  · have helapse := @deadlines_elapse H (min fetched.toNat t.time.toNat) now
      (delays (t :: ts)) (by
        rintro x ⟨⟩
        exact Nat.min_le_right _ _)
    rw [← hmin]
    refine helapse.symm.trans ?_
    simp only [delays, List.map_cons, elapse, htime]
  · have hle := span_elapse_le (min fetched.toNat t.time.toNat) (delays (t :: ts))
    refine Nat.lt_of_le_of_lt ?_ hfits
    simp only [delays, List.map_cons, elapse, span_cons, htime] at hle ⊢
    exact hle

/-- One pass of the loop in `sys_timeouts_mbox_fetch` on a list that stands for an agenda. -/
theorem Timers.mboxFetch_spec {capacity : ℕ} {s : Timers H} {a : TimerAgenda H}
    (h : s.Holds capacity a) (fetched : UInt32) :
    (a.pending = [] ∧ s.mboxFetch fetched = (none, s)) ∨
      ∃ d k rest, a.pending = (d, k) :: rest ∧ a.now ≤ d ∧
        ((∃ s', (d = a.now ∨ fetched = sysArchTimeout) ∧ s.mboxFetch fetched = (some k, s') ∧
            a.now + countedTime (s.waits fetched) = d ∧ s'.Holds capacity ⟨d, rest⟩) ∨
          ∃ s', ¬ (d = a.now ∨ fetched = sysArchTimeout) ∧ s.mboxFetch fetched = (none, s') ∧
            a.now + countedTime (s.waits fetched) = min (a.now + fetched.toNat) d ∧
            s'.Holds capacity ⟨min (a.now + fetched.toNat) d, a.pending⟩) := by
  obtain ⟨ts, free⟩ := s
  obtain ⟨now, pending⟩ := a
  have hpending : pending = deadlines now (delays ts) := h.pending
  cases ts with
  | nil => exact .inl ⟨hpending, rfl⟩
  | cons t ts =>
    refine .inr ⟨now + t.time.toNat, t.h, deadlines (now + t.time.toNat) (delays ts), hpending,
      Nat.le_add_right _ _, ?_⟩
    by_cases hdue : now + t.time.toNat = now ∨ fetched = sysArchTimeout
    · obtain ⟨hcall, hcounted, hholds⟩ := Timers.mboxFetch_of_due h hdue
      exact .inl ⟨_, hdue, hcall, hcounted, hholds⟩
    · obtain ⟨s', hcall, hcounted, hholds⟩ := Timers.mboxFetch_of_not_due h hdue
      exact .inr ⟨s', hdue, hcall, hcounted, hholds⟩

/-- The list before anything is set. -/
def Timers.init (capacity : ℕ) : Timers H := ⟨[], capacity⟩

theorem Timers.holds_init (capacity : ℕ) :
    (Timers.init capacity : Timers H).Holds capacity ⟨0, []⟩ :=
  ⟨rfl, Nat.add_zero capacity, show 0 < 2 ^ 32 from Nat.two_pow_pos 32⟩

/-! ### Every sequence of calls -/

/-- The calls on the list. -/
inductive TimerOp (H : Type)
  | sysTimeout (msecs : UInt32) (h : H)
  | sysUntimeout (h : H)
  /-- A pass of `sys_timeouts_mbox_fetch`. -/
  | mboxFetch (fetched : UInt32)

variable [DecidableEq H]

/-- A call on the list, with the handler it calls. -/
def timerStep (s : Timers H) : TimerOp H → Option (Option H × Timers H)
  | .sysTimeout msecs h => some (none, s.sysTimeout msecs h)
  | .sysUntimeout h => some (none, s.sysUntimeout h)
  | .mboxFetch fetched => some (s.mboxFetch fetched)

/-- A call on the agenda: a handler that is set is due after its time, unless there are too many;
the first deadline of a handler is given up with `sys_untimeout`; and while the stack waits, time
passes up to the first deadline, where its handler is called. -/
def timerSpec (capacity : ℕ) (a : TimerAgenda H) : TimerOp H → Option H → TimerAgenda H → Prop
  | .sysTimeout msecs h, r, a' => r = none ∧ a' =
      if a.pending.length < capacity then
        { a with pending := schedule (a.now + msecs.toNat, h) a.pending }
      else a
  | .sysUntimeout h, r, a' => r = none ∧ a' =
      { a with pending := a.pending.eraseP fun x ↦ x.2 = h }
  | .mboxFetch fetched, r, a' =>
      match a.pending with
      | [] => r = none ∧ a' = a
      | (d, h) :: rest =>
        if d = a.now ∨ fetched = sysArchTimeout then r = some h ∧ a' = ⟨d, rest⟩
        else r = none ∧ a' = { a with now := min (a.now + fetched.toNat) d }

/-- **One call.** -/
theorem timerStep_refines (capacity : ℕ) :
    Refines (timerStep (H := H)) (timerSpec capacity) (Timers.Holds capacity) := by
  intro s a op h
  cases op with
  | sysTimeout msecs k =>
    by_cases hroom : a.pending.length < capacity
    · exact ⟨none, _, _, rfl, ⟨rfl, (if_pos hroom).symm⟩, h.sysTimeout hroom msecs k⟩
    · have hlen := h.length_pending
      have hpool := h.pool
      have hfree : s.free = 0 := by omega
      refine ⟨none, s, a, ?_, ⟨rfl, (if_neg hroom).symm⟩, h⟩
      rw [timerStep, Timers.sysTimeout, if_pos hfree]
  | sysUntimeout k =>
    refine ⟨none, s.sysUntimeout k, _, rfl, ⟨rfl, rfl⟩, ?_⟩
    have hcancel := deadlines_cancel a.now (fun k' ↦ k' = k) (delays s.nextTimeout)
    rw [← h.pending] at hcancel
    have hspan := span_cancel_le (fun k' ↦ k' = k) (delays s.nextTimeout)
    have hfits := h.fits
    have hpool := h.pool
    rcases unlinkTimeo_spec h.fits k with ⟨hnone, hsame⟩ | ⟨ts, hsome, hts, hlen⟩
    · rw [Timers.sysUntimeout, hnone]
      refine ⟨?_, hpool, hfits⟩
      rw [← hcancel, ← hsame, ← h.pending]
    · rw [Timers.sysUntimeout, hsome]
      refine ⟨?_, ?_, ?_⟩
      · rw [← hcancel, hts]
      · show s.free + 1 + ts.length = capacity
        omega
      · show span (delays ts) < 2 ^ 32
        rw [hts]
        omega
  | mboxFetch fetched =>
    rcases Timers.mboxFetch_spec h fetched with ⟨hnil, hcall⟩ | ⟨d, k, rest, hcons, -, hcase⟩
    · refine ⟨none, s, a, congrArg some hcall, ?_, h⟩
      rw [timerSpec, hnil]
      exact ⟨rfl, rfl⟩
    · rcases hcase with ⟨s', hdue, hcall, -, hs'⟩ | ⟨s', hdue, hcall, -, hs'⟩
      · refine ⟨some k, s', ⟨d, rest⟩, congrArg some hcall, ?_, hs'⟩
        rw [timerSpec, hcons]
        dsimp only
        rw [if_pos hdue]
        exact ⟨rfl, rfl⟩
      · refine ⟨none, s', _, congrArg some hcall, ?_, hs'⟩
        rw [timerSpec, hcons]
        dsimp only
        rw [if_neg hdue]
        exact ⟨rfl, rfl⟩

/-- **The list of delays is an agenda**: whatever is set and given up and however long the stack
waits, the handlers called are those the agenda calls at those times, and the list stands for what
is left on it. -/
theorem timers_refine_agenda (capacity : ℕ) (ops : List (TimerOp H)) :
    ∃ rs s' a', run timerStep (Timers.init capacity) ops = some (rs, s') ∧
      Allowed (timerSpec capacity) ⟨0, []⟩ ops rs a' ∧ s'.Holds capacity a' :=
  (timerStep_refines capacity).run (Timers.holds_init capacity) ops

end List

/-! ### The handlers of the stack -/

/-- The handlers `timers.c` sets. -/
inductive SysTimeoutHandler
  | tcpipTcpTimer
  | ipReassTimer
  | arpTimer
  deriving DecidableEq

open SysTimeoutHandler

/-- `TCP_TMR_INTERVAL`, `IP_TMR_INTERVAL` and `ARP_TMR_INTERVAL`. -/
def SysTimeoutHandler.interval : SysTimeoutHandler → UInt32
  | tcpipTcpTimer => 250
  | ipReassTimer => 1000
  | arpTimer => 5000

/-- `MEMP_NUM_SYS_TIMEOUT`. -/
def mempNumSysTimeout : ℕ := 8

/-- The thread of the stack as far as its timers go. `running` is the handler that is being called;
`waits` are its calls of `sys_arch_mbox_fetch` so far, and `called` are the handlers called, with
the time counted before. -/
structure TcpipThread where
  timers : Timers SysTimeoutHandler
  tcpipTcpTimerActive : Bool
  running : Option SysTimeoutHandler
  waits : List MboxWait
  called : List (ℕ × SysTimeoutHandler)
  deriving DecidableEq

/-- The counted time. -/
def TcpipThread.now (s : TcpipThread) : ℕ := countedTime s.waits

/-- What the thread does. `pcbs` says whether there are `tcp_active_pcbs` or `tcp_tw_pcbs`. -/
inductive TcpipAct
  /-- A pass of `sys_timeouts_mbox_fetch`, up to the call of a handler. -/
  | mboxFetch (fetched : UInt32)
  /-- `tcp_timer_needed`, from wherever the thread is. -/
  | tcpTimerNeeded (pcbs : Bool)
  /-- The end of the handler being called, after `tcp_tmr`, `ip_reass_tmr` or `etharp_tmr`. -/
  | handled (pcbs : Bool)

/-- A step of the thread. -/
def tcpipStep (s : TcpipThread) : TcpipAct → Option TcpipThread
  | .mboxFetch fetched =>
    if s.running = none then
      let waits := s.waits ++ s.timers.waits fetched
      let (running, timers) := s.timers.mboxFetch fetched
      some { s with
        timers, running, waits
        called := s.called ++ running.toList.map fun h ↦ (countedTime waits, h) }
    else none
  | .tcpTimerNeeded pcbs =>
    if !s.tcpipTcpTimerActive && pcbs then
      some { s with
        tcpipTcpTimerActive := true
        timers := s.timers.sysTimeout tcpipTcpTimer.interval tcpipTcpTimer }
    else some s
  | .handled pcbs =>
    match s.running with
    | none => none
    | some tcpipTcpTimer =>
      if pcbs then
        some { s with
          running := none
          timers := s.timers.sysTimeout tcpipTcpTimer.interval tcpipTcpTimer }
      else some { s with running := none, tcpipTcpTimerActive := false }
    | some h => some { s with running := none, timers := s.timers.sysTimeout h.interval h }

/-- `sys_timeouts_init`. -/
def sysTimeoutsInit : Timers SysTimeoutHandler :=
  ((Timers.init mempNumSysTimeout).sysTimeout ipReassTimer.interval ipReassTimer).sysTimeout
    arpTimer.interval arpTimer

/-- The thread when it starts. -/
def TcpipThread.init (s : TcpipThread) : Prop := s = ⟨sysTimeoutsInit, false, none, [], []⟩

/-- The times at which a handler has been called. -/
def TcpipThread.calls (s : TcpipThread) (h : SysTimeoutHandler) : List ℕ :=
  (s.called.filter fun x ↦ x.2 = h).map Prod.fst

/-! ### What is set -/

/-- A handler is due at these times. -/
def due (h : SysTimeoutHandler) (l : List (ℕ × SysTimeoutHandler)) : List ℕ :=
  (l.filter fun x ↦ x.2 = h).map Prod.fst

theorem due_cons (h : SysTimeoutHandler) (d : ℕ) (k : SysTimeoutHandler)
    (l : List (ℕ × SysTimeoutHandler)) :
    due h ((d, k) :: l) = if k = h then d :: due h l else due h l := by
  by_cases hk : k = h <;> simp [due, hk]

/-- Setting another handler changes nothing, and one that was not set is due once. -/
theorem due_schedule (h : SysTimeoutHandler) (d : ℕ) (k : SysTimeoutHandler)
    (l : List (ℕ × SysTimeoutHandler)) (hnone : k = h → due h l = [])
    (hone : (due h l).length ≤ 1) :
    due h (schedule (d, k) l) = if k = h then [d] else due h l := by
  have hperm : (due h (schedule (d, k) l)).Perm (due h ((d, k) :: l)) :=
    ((schedule_perm (d, k) l).filter _).map _
  rw [due_cons] at hperm
  by_cases hk : k = h
  · rw [if_pos hk, hnone hk] at hperm
    rw [if_pos hk, List.perm_singleton.1 hperm]
  · rw [if_neg hk] at hperm ⊢
    rcases hl : due h l with - | ⟨x, rest⟩
    · rw [hl] at hperm
      exact hperm.eq_nil
    · rw [hl] at hperm hone
      obtain rfl : rest = [] := by
        rw [← List.length_eq_zero_iff]
        rw [List.length_cons] at hone
        omega
      exact List.perm_singleton.1 hperm

theorem length_eq_due (l : List (ℕ × SysTimeoutHandler)) :
    l.length = (due tcpipTcpTimer l).length + (due ipReassTimer l).length +
      (due arpTimer l).length := by
  induction l with
  | nil => rfl
  | cons x l ih =>
    obtain ⟨d, k⟩ := x
    rw [due_cons, due_cons, due_cons, List.length_cons, ih]
    cases k <;> simp <;> omega

/-- A handler is due some time if and only if it is in the list. -/
theorem due_ne_nil_iff {capacity : ℕ} {timers : Timers SysTimeoutHandler}
    {a : TimerAgenda SysTimeoutHandler} (holds : timers.Holds capacity a) (h : SysTimeoutHandler) :
    due h a.pending ≠ [] ↔ ∃ t ∈ timers.nextTimeout, t.h = h := by
  have hmap : a.pending.map Prod.snd = timers.nextTimeout.map SysTimeo.h := by
    rw [holds.pending, map_snd_deadlines, delays, List.map_map]
    rfl
  have hdue : due h a.pending ≠ [] ↔ h ∈ a.pending.map Prod.snd := by
    simp only [due, ne_eq, List.map_eq_nil_iff, List.filter_eq_nil_iff, decide_eq_true_eq,
      not_forall, not_not, exists_prop, List.mem_map]
  rw [hdue, hmap, List.mem_map]

/-- **Setting a handler that is not set**, while each is set at most once. -/
theorem sysTimeout_due {timers : Timers SysTimeoutHandler} {a : TimerAgenda SysTimeoutHandler}
    (holds : timers.Holds mempNumSysTimeout a) (once : ∀ h, (due h a.pending).length ≤ 1)
    {h : SysTimeoutHandler} (hnone : due h a.pending = []) :
    ∃ a', (timers.sysTimeout h.interval h).Holds mempNumSysTimeout a' ∧ a'.now = a.now ∧
      ∀ k, due k a'.pending =
        if h = k then [a.now + h.interval.toNat] else due k a.pending := by
  have hroom : a.pending.length < mempNumSysTimeout := by
    have htcp := once tcpipTcpTimer
    have hreass := once ipReassTimer
    have harp := once arpTimer
    have hlen := length_eq_due a.pending
    show a.pending.length < 8
    omega
  refine ⟨_, holds.sysTimeout hroom h.interval h, rfl, fun k ↦ ?_⟩
  exact due_schedule k _ h a.pending (fun heq ↦ heq ▸ hnone) (once k)

/-- What holds whenever the thread is between two steps. -/
structure TcpipThread.Inv (s : TcpipThread) (a : TimerAgenda SysTimeoutHandler) : Prop where
  holds : s.timers.Holds mempNumSysTimeout a
  now : a.now = s.now
  periodic : ∀ h, h ≠ tcpipTcpTimer → ∃ k,
    s.calls h = (List.range k).map (fun i ↦ (i + 1) * h.interval.toNat) ∧
    k * h.interval.toNat ≤ s.now ∧
    (s.running = some h → due h a.pending = [] ∧ s.now = k * h.interval.toNat) ∧
    (s.running ≠ some h → due h a.pending = [(k + 1) * h.interval.toNat])
  tcp : (s.running = some tcpipTcpTimer → s.tcpipTcpTimerActive = true) ∧
    (s.tcpipTcpTimerActive = true ∧ s.running ≠ some tcpipTcpTimer →
      ∃ d, due tcpipTcpTimer a.pending = [d] ∧
        ∀ t ∈ s.calls tcpipTcpTimer, t + tcpipTcpTimer.interval.toNat ≤ d) ∧
    (s.tcpipTcpTimerActive = false ∨ s.running = some tcpipTcpTimer →
      due tcpipTcpTimer a.pending = [])
  spaced : (s.calls tcpipTcpTimer).Pairwise fun t u ↦ t + tcpipTcpTimer.interval.toNat ≤ u
  past : ∀ t ∈ s.calls tcpipTcpTimer, t ≤ s.now
  timeouts : ∀ w ∈ s.waits, w.timeout ≠ 0

namespace TcpipThread.Inv

variable {s : TcpipThread} {a : TimerAgenda SysTimeoutHandler}

theorem once (hs : s.Inv a) (h : SysTimeoutHandler) : (due h a.pending).length ≤ 1 := by
  by_cases htcp : h = tcpipTcpTimer
  · subst htcp
    obtain ⟨-, hset, hunset⟩ := hs.tcp
    by_cases hrun : s.running = some tcpipTcpTimer
    · rw [hunset (.inr hrun)]
      exact Nat.zero_le _
    · cases hactive : s.tcpipTcpTimerActive with
      | true =>
        obtain ⟨d, hd, -⟩ := hset ⟨hactive, hrun⟩
        exact (congrArg List.length hd).le
      | false =>
        rw [hunset (.inl hactive)]
        exact Nat.zero_le _
  · obtain ⟨k, -, -, hrunning, hwaiting⟩ := hs.periodic h htcp
    by_cases hrun : s.running = some h
    · rw [(hrunning hrun).1]
      exact Nat.zero_le _
    · exact (congrArg List.length (hwaiting hrun)).le

/-- A handler that is being called is not set. -/
theorem due_running (hs : s.Inv a) {h : SysTimeoutHandler} (hrun : s.running = some h) :
    due h a.pending = [] := by
  by_cases htcp : h = tcpipTcpTimer
  · subst htcp
    exact hs.tcp.2.2 (.inr hrun)
  · obtain ⟨k, -, -, hrunning, -⟩ := hs.periodic h htcp
    exact (hrunning hrun).1

/-- Between two calls of handlers something is set, so a wait has a timeout. -/
theorem waits_append (hs : s.Inv a) (hrun : s.running = none) (fetched : UInt32) :
    ∀ w ∈ s.waits ++ s.timers.waits fetched, w.timeout ≠ 0 := by
  intro w hw
  rcases List.mem_append.1 hw with hw | hw
  · exact hs.timeouts w hw
  · obtain ⟨k, -, -, -, hwaiting⟩ := hs.periodic arpTimer (by decide)
    have hdue := hwaiting (hrun ▸ (Option.some_ne_none _).symm)
    have hset : due arpTimer a.pending ≠ [] := hdue ▸ List.cons_ne_nil _ _
    obtain ⟨t, ht, -⟩ := (due_ne_nil_iff hs.holds arpTimer).1 hset
    rw [Timers.waits] at hw
    split at hw
    · next hnil => exact absurd ht (hnil ▸ List.not_mem_nil)
    · next t' _ _ =>
      split at hw
      · next hpos =>
        rw [List.mem_singleton.1 hw]
        exact (UInt32.ne_of_lt hpos).symm
      · cases hw

/-- A message comes before the first deadline. -/
theorem elapse (hs : s.Inv a) (hrun : s.running = none) {timers : Timers SysTimeoutHandler}
    {waits : List MboxWait} (htimeouts : ∀ w ∈ waits, w.timeout ≠ 0)
    (hnow : s.now ≤ countedTime waits)
    (holds : timers.Holds mempNumSysTimeout ⟨countedTime waits, a.pending⟩) :
    ({ s with timers, waits } : TcpipThread).Inv ⟨countedTime waits, a.pending⟩ where
  holds := holds
  now := rfl
  periodic h hh := by
    obtain ⟨k, hcalls, hle, -, hwaiting⟩ := hs.periodic h hh
    refine ⟨k, hcalls, hle.trans hnow, fun hrun' ↦ ?_, hwaiting⟩
    cases hrun.symm.trans hrun'
  tcp := hs.tcp
  spaced := hs.spaced
  past t ht := (hs.past t ht).trans hnow
  timeouts := htimeouts

/-- The TCP timer, when its deadline is the first: it is marked as active, it is set only once, and
it was called an interval before at the latest. -/
theorem tcp_of_first (hs : s.Inv a) (hrun : s.running = none) {d : ℕ}
    {rest : List (ℕ × SysTimeoutHandler)} (hpending : a.pending = (d, tcpipTcpTimer) :: rest) :
    s.tcpipTcpTimerActive = true ∧ due tcpipTcpTimer rest = [] ∧
      ∀ t ∈ s.calls tcpipTcpTimer, t + tcpipTcpTimer.interval.toNat ≤ d := by
  have hcons : due tcpipTcpTimer a.pending = d :: due tcpipTcpTimer rest := by
    rw [hpending, due_cons, if_pos rfl]
  obtain ⟨-, hset, hunset⟩ := hs.tcp
  cases hactive : s.tcpipTcpTimerActive with
  | false => exact absurd ((hunset (.inl hactive)).symm.trans hcons) (List.cons_ne_nil _ _).symm
  | true =>
    obtain ⟨d', hd', hafter⟩ := hset ⟨hactive, hrun ▸ (Option.some_ne_none _).symm⟩
    obtain ⟨hd, hrest⟩ := List.cons.inj (hcons.symm.trans hd')
    exact ⟨rfl, hrest, hd ▸ hafter⟩

/-- The first deadline is there. -/
theorem call (hs : s.Inv a) (hrun : s.running = none) {timers : Timers SysTimeoutHandler} {d : ℕ}
    {waits : List MboxWait} (htimeouts : ∀ w ∈ waits, w.timeout ≠ 0)
    (hwaits : countedTime waits = d) {k : SysTimeoutHandler} {rest : List (ℕ × SysTimeoutHandler)}
    (hle : s.now ≤ d) (hpending : a.pending = (d, k) :: rest)
    (holds : timers.Holds mempNumSysTimeout ⟨d, rest⟩) :
    ({ s with timers, running := some k, waits, called := s.called ++ [(d, k)] } :
      TcpipThread).Inv ⟨d, rest⟩ := by
  have hcalls : ∀ h, ({ s with timers, running := some k, waits, called := s.called ++ [(d, k)] } :
      TcpipThread).calls h = s.calls h ++ if k = h then [d] else [] := by
    intro h
    by_cases hk : k = h <;> simp [TcpipThread.calls, hk]
  have hnow : ({ s with timers, running := some k, waits, called := s.called ++ [(d, k)] } :
      TcpipThread).now = d := hwaits
  have hdue : ∀ h, due h a.pending = if k = h then d :: due h rest else due h rest := by
    intro h
    rw [hpending, due_cons]
  have hnone : ∀ h, s.running ≠ some h := fun h hsome ↦ nomatch hrun.symm.trans hsome
  refine ⟨holds, hnow.symm, fun h hh ↦ ?_, ?_, ?_, fun t ht ↦ ?_, htimeouts⟩
  · rw [hnow]
    obtain ⟨n, htimes, hpast, -, hwaiting⟩ := hs.periodic h hh
    have hone := (hdue h).symm.trans (hwaiting (hnone h))
    by_cases hk : k = h
    · rw [if_pos hk] at hone
      obtain ⟨hd, hrest⟩ := List.cons.inj hone
      refine ⟨n + 1, ?_, hd.symm.le, fun _ ↦ ⟨hrest, hd⟩, fun hne ↦ absurd (congrArg some hk) hne⟩
      rw [hcalls, if_pos hk, htimes, List.range_succ, List.map_append, hd]
      rfl
    · rw [if_neg hk] at hone
      refine ⟨n, ?_, hpast.trans hle, fun heq ↦ absurd (Option.some.inj heq) hk, fun _ ↦ hone⟩
      rw [hcalls, if_neg hk, List.append_nil, htimes]
  · obtain ⟨-, hset, hunset⟩ := hs.tcp
    by_cases hk : k = tcpipTcpTimer
    · obtain ⟨hactive, hrest, -⟩ := hs.tcp_of_first hrun (hk ▸ hpending)
      exact ⟨fun _ ↦ hactive, fun hne ↦ absurd (congrArg some hk) hne.2, fun _ ↦ hrest⟩
    · have hsame := hdue tcpipTcpTimer
      rw [if_neg hk] at hsame
      refine ⟨fun heq ↦ absurd (Option.some.inj heq) hk, fun hne ↦ ?_, fun hor ↦ ?_⟩
      · obtain ⟨d', hd', hafter⟩ := hset ⟨hne.1, hnone _⟩
        refine ⟨d', hsame.symm.trans hd', fun t ht ↦ hafter t ?_⟩
        rw [hcalls, if_neg hk, List.append_nil] at ht
        exact ht
      · refine hsame.symm.trans (hunset (.inl (hor.resolve_right ?_)))
        exact fun heq ↦ hk (Option.some.inj heq)
  · rw [hcalls]
    by_cases hk : k = tcpipTcpTimer
    · obtain ⟨-, -, hafter⟩ := hs.tcp_of_first hrun (hk ▸ hpending)
      rw [if_pos hk]
      refine List.pairwise_append.2 ⟨hs.spaced, List.pairwise_singleton _ _, fun t ht u hu ↦ ?_⟩
      obtain rfl := List.mem_singleton.1 hu
      exact hafter t ht
    · rw [if_neg hk, List.append_nil]
      exact hs.spaced
  · rw [hcalls] at ht
    rw [hnow]
    rcases List.mem_append.1 ht with ht | ht
    · exact (hs.past t ht).trans hle
    · by_cases hk : k = tcpipTcpTimer
      · rw [if_pos hk] at ht
        exact (List.mem_singleton.1 ht).le
      · rw [if_neg hk] at ht
        cases ht

/-- A pass of `sys_timeouts_mbox_fetch`. -/
theorem mboxFetch (hs : s.Inv a) {fetched : UInt32} {s' : TcpipThread}
    (hstep : tcpipStep s (.mboxFetch fetched) = some s') : ∃ a', s'.Inv a' := by
  rw [tcpipStep] at hstep
  by_cases hrun : s.running = none
  · rw [if_pos hrun] at hstep
    have htimeouts := hs.waits_append hrun fetched
    have hcounted := countedTime_append s.waits (s.timers.waits fetched)
    have hsame : countedTime s.waits = a.now := hs.now.symm
    rcases Timers.mboxFetch_spec hs.holds fetched with
      ⟨hnil, -⟩ | ⟨d, k, rest, hpending, hle, hcase⟩
    · obtain ⟨_, -, -, -, hwaiting⟩ := hs.periodic arpTimer (by decide)
      have hdue := hwaiting (hrun ▸ (Option.some_ne_none _).symm)
      rw [hnil] at hdue
      cases hdue
    · rcases hcase with ⟨timers, -, hcall, htime, holds⟩ | ⟨timers, -, hcall, htime, holds⟩
      · rw [hsame, htime] at hcounted
        rw [hcall] at hstep
        dsimp only at hstep
        rw [hcounted] at hstep
        obtain rfl := Option.some.inj hstep
        exact ⟨_, hs.call hrun htimeouts hcounted (hs.now ▸ hle) hpending holds⟩
      · rw [hsame, htime] at hcounted
        rw [hcall] at hstep
        obtain rfl := Option.some.inj hstep
        have hnow : s.now ≤ countedTime (s.waits ++ s.timers.waits fetched) := by
          rw [hcounted, ← hs.now]
          exact le_min (Nat.le_add_right _ _) hle
        have hnext := hs.elapse hrun htimeouts hnow (hcounted ▸ holds)
        exact ⟨_, by simpa [hrun] using hnext⟩
  · rw [if_neg hrun] at hstep
    cases hstep

/-- The TCP timer is set where it was not, and is no longer being called. -/
theorem setTcp (hs : s.Inv a) (hnone : due tcpipTcpTimer a.pending = [])
    {running : Option SysTimeoutHandler} (hrun : running ≠ some tcpipTcpTimer)
    (hother : ∀ h, h ≠ tcpipTcpTimer → (running = some h ↔ s.running = some h)) :
    ∃ a', ({ s with
      running
      tcpipTcpTimerActive := true
      timers := s.timers.sysTimeout tcpipTcpTimer.interval tcpipTcpTimer } : TcpipThread).Inv
        a' := by
  obtain ⟨a', holds, hnow, hdue⟩ := sysTimeout_due hs.holds hs.once hnone
  refine ⟨a', holds, hnow.trans hs.now, fun h hh ↦ ?_, ?_, hs.spaced, hs.past, hs.timeouts⟩
  · obtain ⟨k, hcalls, hpast, hrunning, hwaiting⟩ := hs.periodic h hh
    rw [hdue, if_neg hh.symm]
    exact ⟨k, hcalls, hpast, fun heq ↦ hrunning ((hother h hh).1 heq),
      fun hne ↦ hwaiting fun heq ↦ hne ((hother h hh).2 heq)⟩
  · have hset := hdue tcpipTcpTimer
    rw [if_pos rfl, hs.now] at hset
    refine ⟨fun heq ↦ absurd heq hrun, fun _ ↦ ⟨_, hset, fun t ht ↦ ?_⟩, ?_⟩
    · exact Nat.add_le_add_right (hs.past t ht) _
    · rintro (heq | heq)
      · cases heq
      · exact absurd heq hrun

/-- A periodic timer sets itself again. -/
theorem setAgain (hs : s.Inv a) {h : SysTimeoutHandler} (hh : h ≠ tcpipTcpTimer)
    (hrun : s.running = some h) :
    ∃ a', ({ s with
      running := none
      timers := s.timers.sysTimeout h.interval h } : TcpipThread).Inv a' := by
  obtain ⟨a', holds, hnow, hdue⟩ := sysTimeout_due hs.holds hs.once (hs.due_running hrun)
  refine ⟨a', holds, hnow.trans hs.now, fun h' hh' ↦ ?_, ?_, hs.spaced, hs.past, hs.timeouts⟩
  · obtain ⟨k, hcalls, hpast, hrunning, hwaiting⟩ := hs.periodic h' hh'
    refine ⟨k, hcalls, hpast, nofun, fun _ ↦ ?_⟩
    rw [hdue]
    by_cases heq : h = h'
    · obtain ⟨-, htime⟩ := hrunning (heq ▸ hrun)
      rw [if_pos heq, hs.now, htime, heq, Nat.succ_mul]
    · rw [if_neg heq]
      exact hwaiting fun hrun' ↦ heq (Option.some.inj (hrun.symm.trans hrun'))
  · have hne : s.running ≠ some tcpipTcpTimer :=
      fun heq ↦ hh (Option.some.inj (hrun.symm.trans heq))
    obtain ⟨-, hset, hunset⟩ := hs.tcp
    rw [hdue, if_neg hh]
    refine ⟨nofun, fun hactive ↦ hset ⟨hactive.1, hne⟩, fun hor ↦ ?_⟩
    exact hunset (.inl (hor.resolve_right nofun))

/-- **One step.** -/
theorem step (hs : s.Inv a) {act : TcpipAct} {s' : TcpipThread}
    (hstep : tcpipStep s act = some s') :
    ∃ a', s'.Inv a' := by
  cases act with
  | mboxFetch fetched => exact hs.mboxFetch hstep
  | tcpTimerNeeded pcbs =>
    rw [tcpipStep] at hstep
    split at hstep
    · next hneeded =>
      obtain rfl := Option.some.inj hstep
      obtain ⟨hactive, -⟩ := Bool.and_eq_true_iff.1 hneeded
      have hinactive : s.tcpipTcpTimerActive = false := by simpa using hactive
      refine hs.setTcp (hs.tcp.2.2 (.inl hinactive)) (fun heq ↦ ?_) fun _ _ ↦ Iff.rfl
      exact absurd ((hs.tcp.1 heq).symm.trans hinactive) (by decide)
    · exact ⟨a, Option.some.inj hstep ▸ hs⟩
  | handled pcbs =>
    rw [tcpipStep] at hstep
    rcases hrun : s.running with - | h
    · rw [hrun] at hstep
      cases hstep
    · rw [hrun] at hstep
      cases h with
      | tcpipTcpTimer =>
        have hactive := hs.tcp.1 hrun
        have hne : ∀ h, h ≠ tcpipTcpTimer → s.running ≠ some h :=
          fun h hh heq ↦ hh (Option.some.inj (heq.symm.trans hrun))
        dsimp only at hstep
        split at hstep
        · obtain rfl := Option.some.inj hstep
          rw [hactive]
          exact hs.setTcp (hs.due_running hrun) nofun fun h hh ↦ iff_of_false nofun (hne h hh)
        · obtain rfl := Option.some.inj hstep
          refine ⟨a, hs.holds, hs.now, fun h hh ↦ ?_, ?_, hs.spaced, hs.past, hs.timeouts⟩
          · obtain ⟨k, hcalls, hpast, -, hwaiting⟩ := hs.periodic h hh
            exact ⟨k, hcalls, hpast, nofun, fun _ ↦ hwaiting (hne h hh)⟩
          · exact ⟨nofun, fun hset ↦ absurd hset.1 Bool.false_ne_true, fun _ ↦ hs.due_running hrun⟩
      | ipReassTimer =>
        obtain rfl := Option.some.inj hstep
        exact hs.setAgain (by decide) hrun
      | arpTimer =>
        obtain rfl := Option.some.inj hstep
        exact hs.setAgain (by decide) hrun

theorem init (h : s.init) : ∃ a, s.Inv a := by
  subst h
  have hreass := (Timers.holds_init (H := SysTimeoutHandler) mempNumSysTimeout).sysTimeout
    (by decide) ipReassTimer.interval ipReassTimer
  have harp := hreass.sysTimeout (by decide) arpTimer.interval arpTimer
  refine ⟨_, harp, rfl, fun h hh ↦ ⟨0, rfl, (Nat.zero_mul _).le, nofun, fun _ ↦ ?_⟩, ?_, .nil,
    nofun, nofun⟩
  · cases h with
    | tcpipTcpTimer => exact absurd rfl hh
    | ipReassTimer => decide
    | arpTimer => decide
  · exact ⟨nofun, fun hset ↦ absurd hset.1 Bool.false_ne_true, fun _ ↦ by decide⟩

end TcpipThread.Inv

/-- **The timers of the stack run on time, in counted time.** In every run of its thread, whatever
the fetch reports and whenever there are connections, the timer for reassembly and that for ARP have
been called at the multiples of their intervals up to now, once each and at no other time. Two calls
of the TCP timer are an interval apart at least; it is set, or being called, if and only if it is
marked as active; and the pool the timers are taken from never holds fewer than five elements. The
counted time lags behind the reported one by what the waits exceeded the timeouts they were passed
by, and every wait was passed one. -/
theorem periodic_timers {s : TcpipThread} (h : Reachable TcpipThread.init tcpipStep everyStep s) :
    (∀ p, p ≠ tcpipTcpTimer → ∃ k,
      s.calls p = (List.range k).map (fun i ↦ (i + 1) * p.interval.toNat) ∧
      k * p.interval.toNat ≤ s.now ∧ s.now ≤ (k + 1) * p.interval.toNat) ∧
    ((s.calls tcpipTcpTimer).Pairwise fun t u ↦ t + tcpipTcpTimer.interval.toNat ≤ u) ∧
    (s.tcpipTcpTimerActive = true ↔ s.running = some tcpipTcpTimer ∨
      ∃ t ∈ s.timers.nextTimeout, t.h = tcpipTcpTimer) ∧
    5 ≤ s.timers.free ∧
    s.now + (s.waits.map fun w ↦ w.reported - w.timeout.toNat).sum = reportedTime s.waits ∧
    ∀ w ∈ s.waits, w.timeout ≠ 0 := by
  obtain ⟨a, hs⟩ : ∃ a, s.Inv a := by
    induction h with
    | init hs => exact TcpipThread.Inv.init hs
    | step _ _ hstep ih =>
      obtain ⟨a, hs⟩ := ih
      exact hs.step hstep
  refine ⟨fun p hp ↦ ?_, hs.spaced, ?_, ?_, countedTime_add_excess s.waits, hs.timeouts⟩
  · obtain ⟨k, hcalls, hpast, hrunning, hwaiting⟩ := hs.periodic p hp
    refine ⟨k, hcalls, hpast, ?_⟩
    by_cases hrun : s.running = some p
    · rw [(hrunning hrun).2]
      exact Nat.mul_le_mul_right _ (Nat.le_succ k)
    · have hmem : (k + 1) * p.interval.toNat ∈ due p a.pending := by
        rw [hwaiting hrun]
        exact List.mem_singleton_self _
      obtain ⟨x, hx, hd⟩ := List.mem_map.1 hmem
      have hle := (List.mem_filter.1 hx).1
      rw [hs.holds.pending] at hle
      exact hs.now ▸ hd ▸ le_of_mem_deadlines hle
  · rw [← due_ne_nil_iff hs.holds]
    obtain ⟨hrunning, hset, hunset⟩ := hs.tcp
    constructor
    · intro hactive
      by_cases hrun : s.running = some tcpipTcpTimer
      · exact .inl hrun
      · obtain ⟨d, hd, -⟩ := hset ⟨hactive, hrun⟩
        exact .inr (hd ▸ List.cons_ne_nil _ _)
    · rintro (hrun | hne)
      · exact hrunning hrun
      · by_contra hactive
        exact hne (hunset (.inl (Bool.eq_false_iff.2 hactive)))
  · have hpool := hs.holds.pool
    have hlen := hs.holds.length_pending
    have hsum := length_eq_due a.pending
    have htcp := hs.once tcpipTcpTimer
    have hreass := hs.once ipReassTimer
    have harp := hs.once arpTimer
    have hcap : mempNumSysTimeout = 8 := rfl
    omega

/-- Three seconds are reported of a wait for one: the timer for reassembly is called once, and again
a second later. -/
theorem periodic_timers_late :
    ∃ s, Reachable TcpipThread.init tcpipStep everyStep s ∧
      s.calls ipReassTimer = [1000, 2000] ∧ s.now = 2000 ∧ reportedTime s.waits = 4000 ∧
      ∀ p, p ≠ tcpipTcpTimer → ∃ k,
        s.calls p = (List.range k).map (fun i ↦ (i + 1) * p.interval.toNat) ∧
        k * p.interval.toNat ≤ s.now ∧ s.now ≤ (k + 1) * p.interval.toNat := by
  obtain ⟨s, hs, hcheck⟩ := @exists_reachable_of_execOk _ _ TcpipThread.init tcpipStep everyStep
    ⟨sysTimeoutsInit, false, none, [], []⟩ [.mboxFetch 3000, .mboxFetch 0, .handled false,
      .tcpTimerNeeded true, .mboxFetch sysArchTimeout, .handled false, .mboxFetch 700,
      .mboxFetch sysArchTimeout]
    (fun s ↦ s.calls ipReassTimer = [1000, 2000] ∧ s.now = 2000 ∧ reportedTime s.waits = 4000) rfl
    (by decide)
  obtain ⟨hcalls, hnow, hreported⟩ := of_decide_eq_true hcheck
  exact ⟨s, hs, hcalls, hnow, hreported, (periodic_timers hs).1⟩

end YHAudioLink
