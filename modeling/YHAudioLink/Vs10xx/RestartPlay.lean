import YHAudioLink.Vs10xx.ReadyCodec
import YHAudioLink.Vs10xx.WholeFrames

/-!
# Restarting playback

`VS_Restart_Play` sets `SM_CANCEL`, sends zeros until the codec clears the bit, sends the fill byte
or gives up and resets, and looks at the two header registers. Here the whole call is read off the
codec's log, without the readings of `DREQ` (`Restart`): the frames of zeros, each with the probe
after it; then either the fill byte with its frames, or the soft reset; then the two registers, and
what follows.

Two properties are asked of that log.

* `RestartBytes` is about the bytes: chunks of 32 out of a buffer of 32, zeros while the codec is
  probed and the fill byte after it. No call has it (`restartBytes_never`), for every frame is 160
  bytes, at every moment of a call.
* `RestartDecisions` is about what is decided. Two answers of the codec are decided wrongly: the bit
  cleared at the last probe, where the counter has already run out, and header registers that are
  not zero but add up to zero. Everywhere else the decisions are right (`restartDecisions_iff`).

Both rest on the invariant of the cancel loop: the counter is 32 for each probe, and every probe but
the last has found the bit set.
-/

namespace YHAudioLink

open Programs

/-! ### What is asked -/

/-- The first event after the cancellation: `VS_Get_EndFillByte` sets the address it reads, and
`VS_Soft_Reset` clocks a byte on its own. -/
def CodecEvent.endsCancel : CodecEvent → Bool
  | .write address _ => address == spiWramaddr
  | .stray _ => true
  | _ => false

/-- The log as long as the cancellation is tried. -/
def cancelPhase (l : List CodecEvent) : List CodecEvent := l.takeWhile (!·.endsCancel)

/-- The rest of it. -/
def afterCancel (l : List CodecEvent) : List CodecEvent := l.dropWhile (!·.endsCancel)

/-- The value an event reads from a register. -/
def CodecEvent.value? (address : UInt8) : CodecEvent → Option UInt16
  | .read a value => if a = address then some value else none
  | _ => none

/-- The values read from a register. -/
def readsOf (address : UInt8) (l : List CodecEvent) : List UInt16 :=
  l.filterMap (CodecEvent.value? address)

/-- What the reads of `SCI_MODE` inside the cancel loop found. The one before them is the read that
`SM_CANCEL` is added to. -/
def probes (l : List CodecEvent) : List UInt16 := (readsOf spiMode (cancelPhase l)).tail

/-- The end-fill phase runs. -/
def EndFillRuns (l : List CodecEvent) : Prop :=
  (afterCancel l).head? = some (.write spiWramaddr 0x1E06)

/-- The soft reset runs in its place. -/
def SoftResetRuns (l : List CodecEvent) : Prop := (afterCancel l).head? = some (.stray 0xff)

/-- The hard reset runs. -/
def HardResetRuns (l : List CodecEvent) : Prop := .rst false ∈ l

/-- **The bytes sent while playback is restarted.** While the codec is probed, 32 zeros before each
probe, 2048 at most; in the end-fill phase the low byte of what was read, 32 of them as often as the
counter went up, and 2052 at least; and no frame is longer than the buffer it is taken from. -/
structure RestartBytes (l : List CodecEvent) : Prop where
  zeros : chunks (cancelPhase l) = List.replicate (probes l).length (List.replicate 32 0)
  bound : 32 * (probes l).length ≤ 2048
  fill : EndFillRuns l → ∃ value n, readsOf spiWram l = [value] ∧ 2052 ≤ 32 * n ∧
    chunks (afterCancel l) = List.replicate n (List.replicate 32 (value &&& 0xff).toUInt8)
  inside : ∀ c ∈ chunks l, c.length ≤ 32

/-- **What is decided while playback is restarted.** -/
structure RestartDecisions (l : List CodecEvent) : Prop where
  endFill : EndFillRuns l ↔ ∃ p ∈ probes l, p &&& 0x0008 = 0
  softReset : SoftResetRuns l ↔ ¬ ∃ p ∈ probes l, p &&& 0x0008 = 0
  noHardReset : ¬ HardResetRuns l →
    (readsOf spiHdat0 l).getLast? = some 0 ∧ (readsOf spiHdat1 l).getLast? = some 0

/-! ### The functions, without the readings of `DREQ` -/

/-- What a function adds to the log apart from the readings of `DREQ`. Both lines are high before it
and after it. -/
abbrev Shows {α : Type} (p : Vs α) (R : α → List CodecEvent → Prop) : Prop :=
  Emits Codec.step (Codec.Idle true) (fun s ↦ visible s.log) p R

theorem shows_of_logs {α : Type} {p : Vs α} {R : α → List CodecEvent → Prop} (h : Logs true p R) :
    Shows p fun a l ↦ ∃ l₀, l = visible l₀ ∧ R a l₀ :=
  h.view visible_append

section

variable (fuel : ℕ)

theorem shows_outOfFuel {α : Type} {R : α → List CodecEvent → Prop} : Shows (outOfFuel : Vs α) R :=
  fun _ _ ↦ wp_codec_outOfFuel

theorem shows_unseen {o : VsOp} (h : ∀ (s : Codec) r, s.next ⟨o, r⟩ = s) :
    Shows (vs o) fun _ l ↦ l = [] := by
  refine (shows_of_logs (logs_unseen h)).mono ?_
  rintro _ _ ⟨_, rfl, rfl⟩
  rfl

theorem shows_dq : Shows (vs .dq) fun _ l ↦ l = [] := by
  refine (shows_of_logs logs_dq).mono ?_
  rintro _ _ ⟨_, rfl, rfl⟩
  rfl

theorem shows_waitDq : Shows (vsWaitDq fuel) fun _ l ↦ l = [] := by
  refine (shows_of_logs (logs_waitDq fuel)).mono ?_
  rintro - _ ⟨_, rfl, n, rfl⟩
  exact visible_waited n

theorem shows_wrCmd (address : UInt8) (data : UInt16) :
    Shows (vsWrCmd fuel address data) fun _ l ↦ l = [.write address data] := by
  refine (shows_of_logs (logs_wrCmd fuel address data)).mono ?_
  rintro - _ ⟨_, rfl, n, rfl⟩
  rw [visible_append, visible_waited]
  rfl

theorem shows_rdReg (address : UInt8) :
    Shows (vsRdReg fuel address) fun v l ↦ l = [.read address v] := by
  refine (shows_of_logs (logs_rdReg fuel address)).mono ?_
  rintro v _ ⟨_, rfl, n, rfl⟩
  rw [visible_append, visible_waited]
  rfl

/-- **`VS_Send_MusicData`**: a frame is sent if it answers 0. -/
theorem shows_sendMusicData (buf : ℕ → UInt8) :
    Shows (vsSendMusicData fuel buf) fun res l ↦
      l = if res = 0 then [.frame (frameAt buf 0 sendNumPerFrame)] else [] := by
  refine (shows_of_logs (logs_sendMusicData fuel buf)).mono ?_
  rintro _ _ ⟨_, rfl, n, level, rfl, rfl⟩
  rw [musicData, visible_append, visible_waited]
  cases level <;> rfl

/-! ### Resets -/

theorem shows_setRegister (address : UInt8) (expect data : UInt16) {pause : Vs Unit}
    (hpause : Shows pause fun _ l ↦ l = []) (rounds : ℕ) :
    Shows (setRegister fuel address expect data pause rounds) fun _ l ↦
      ∀ e ∈ l, e.register? = some address := by
  have hattempt {next : Vs Unit}
      (hnext : Shows next fun _ l ↦ ∀ e ∈ l, e.register? = some address) :
      Shows (setRegister.attempt fuel address expect data pause next) fun _ l ↦
        ∀ e ∈ l, e.register? = some address := by
    refine .bind (shows_rdReg fuel address) ?_
    rintro v _ rfl
    split
    · refine .bind (shows_wrCmd fuel address data) ?_
      rintro - _ rfl
      refine .bind hpause ?_
      rintro - _ rfl
      refine hnext.mono fun _ l hl ↦ ?_
      rw [List.nil_append, List.singleton_append, List.singleton_append]
      exact List.forall_mem_cons.2 ⟨rfl, List.forall_mem_cons.2 ⟨rfl, hl⟩⟩
    · exact .pure (List.forall_mem_singleton.2 rfl)
  induction rounds with
  | zero => exact hattempt (.pure fun _ h ↦ absurd h List.not_mem_nil)
  | succ rounds ih => exact hattempt ih

/-- What `VS_Soft_Reset` adds: its stray byte, and accesses of the two registers it sets. -/
def SoftResetLog (l : List CodecEvent) : Prop :=
  ∃ l', l = .stray 0xff :: l' ∧
    ∀ e ∈ l', e.register? = some spiMode ∨ e.register? = some spiClockf

theorem shows_delayMs (ms : ℕ) : Shows (vs (.delayMs ms)) fun _ l ↦ l = [] :=
  shows_unseen fun _ _ ↦ rfl

/-- A byte with neither port selected. -/
theorem shows_filler (data : UInt8) :
    Shows (vs (.readWriteByte .filler data)) fun _ l ↦ l = [.stray data] := by
  have hlog : Logs true (vs (.readWriteByte .filler data)) fun _ l ↦ l = [.stray data] := by
    refine .perform ?_
    rintro s r _ hs rfl
    have hxcs : s.xcs = true := hs.xcs
    have hxdcs : s.xdcs = true := hs.xdcs rfl
    have hnext : s.next ⟨.readWriteByte .filler data, r⟩ =
        { s with log := s.log ++ [.stray data] } := by
      simp [Codec.next, Codec.byte, hxcs, hxdcs]
    rw [hnext]
    exact ⟨hs.add _, _, rfl, rfl⟩
  refine (shows_of_logs hlog).mono ?_
  rintro - _ ⟨_, rfl, rfl⟩
  rfl

/-- **`VS_Soft_Reset`.** -/
theorem shows_softReset : Shows (vsSoftReset fuel) fun _ l ↦ SoftResetLog l := by
  refine .bind (shows_waitDq fuel) ?_
  rintro - _ rfl
  refine .bind (shows_filler 0xff) ?_
  rintro - _ rfl
  refine .bind (shows_setRegister fuel spiMode 0x0800 0x0804 (shows_delayMs 2) 101) fun _ l hl ↦ ?_
  refine .bind (shows_waitDq fuel) ?_
  rintro - _ rfl
  refine .bind (shows_setRegister fuel spiClockf 0x9800 0x9800 (.pure rfl) 101) fun _ l' hl' ↦ ?_
  refine (shows_delayMs 20).mono ?_
  rintro - _ rfl
  refine ⟨l ++ l', by simp, fun e he ↦ ?_⟩
  rcases List.mem_append.1 he with he | he
  · exact .inl (hl e he)
  · exact .inr (hl' e he)

theorem shows_hdWait (rounds : ℕ) : Shows (hdWait rounds) fun _ l ↦ l = [] := by
  induction rounds with
  | zero =>
    refine .bind shows_dq ?_
    rintro _ _ rfl
    exact .pure rfl
  | succ rounds ih =>
    refine .bind shows_dq ?_
    rintro _ _ rfl
    split
    · exact .pure rfl
    · refine .bind (shows_unseen fun _ _ ↦ rfl) ?_
      rintro - _ rfl
      exact ih

/-- A line that is set between two functions of the driver. -/
theorem shows_rst (stat : Bool) : Shows (vs (.rst stat)) fun _ l ↦ l = [.rst stat] := by
  refine .perform ?_
  rintro s r _ hs rfl
  exact ⟨hs.add _, _, visible_append _ _, rfl⟩

theorem shows_deselect {o : VsOp} (ho : o = .xcs true ∨ o = .xdcs true) :
    Shows (vs o) fun _ l ↦ l = [] := by
  refine .perform ?_
  rintro s r _ hs rfl
  rcases ho with rfl | rfl
  · refine ⟨⟨rfl, rfl, hs.frame, hs.xdcs⟩, [], ?_, rfl⟩
    show visible (s.log ++ Codec.decode s.command) = _
    rw [hs.command, visible_append]
    rfl
  · refine ⟨⟨hs.xcs, hs.command, rfl, fun _ ↦ rfl⟩, [], ?_, rfl⟩
    show visible (s.log ++ Codec.closeFrame s.frame) = _
    rw [hs.frame, visible_append]
    rfl

/-- **`VS_HD_Reset`.** -/
theorem shows_hdReset : Shows vsHdReset fun _ l ↦ l = [.rst false, .rst true] := by
  refine .bind (shows_rst false) ?_
  rintro - _ rfl
  refine .bind (shows_delayMs 20) ?_
  rintro - _ rfl
  refine .bind (shows_deselect (.inr rfl)) ?_
  rintro - _ rfl
  refine .bind (shows_deselect (.inl rfl)) ?_
  rintro - _ rfl
  refine .bind (shows_rst true) ?_
  rintro - _ rfl
  refine .bind (shows_hdWait 200) ?_
  rintro _ _ rfl
  refine .bind (shows_delayMs 20) ?_
  rintro - _ rfl
  exact .pure rfl

/-! ### The cancel loop -/

/-- The frame that is sent for 32 bytes of the value `v`. -/
def vsbufFrame (stack : ℕ → UInt8) (v : UInt8) : List UInt8 :=
  frameAt (vsbuf stack v) 0 sendNumPerFrame

/-- One round of the cancel loop: a frame of zeros, and what the probe after it found. -/
def cancelRound (stack : ℕ → UInt8) (probe : UInt16) : List CodecEvent :=
  [.frame (vsbufFrame stack 0), .read spiMode probe]

/-- **How the probes end**: none but the last has found `SM_CANCEL` clear, and there is a last one
since it has, or since it was the 64th. -/
def ProbesEnd (ps : List UInt16) : Prop :=
  ∃ before last, ps = before ++ [last] ∧ (∀ p ∈ before, p &&& 0x0008 ≠ 0) ∧ ps.length ≤ 64 ∧
    (last &&& 0x0008 = 0 ∨ ps.length = 64)

theorem shows_cancelLoop (stack : ℕ → UInt8) :
    Shows (cancelLoop fuel stack) fun i l ↦
      ∃ ps, ProbesEnd ps ∧ i = 32 * ps.length ∧ l = ps.flatMap (cancelRound stack) := by
  -- whenever the body begins, every probe so far has found the bit set
  let J : ℕ → List CodecEvent → Prop := fun i l ↦ ∃ ps : List UInt16, (∀ p ∈ ps, p &&& 0x0008 ≠ 0) ∧
    ps.length ≤ 64 ∧ i = 32 * ps.length ∧ l = ps.flatMap (cancelRound stack)
  refine .loop (J := J) (fun _ _ _ ↦ shows_outOfFuel) ?_
    ⟨[], fun _ h ↦ absurd h List.not_mem_nil, by decide, rfl, rfl⟩
  rintro i l ⟨ps, hset, hle, rfl, rfl⟩
  split
  · next hlt =>
    refine .bind (shows_sendMusicData fuel _) ?_
    rintro res _ rfl
    split
    · refine .bind (shows_rdReg fuel spiMode) ?_
      rintro temp _ rfl
      have hround : ps.flatMap (cancelRound stack) ++ cancelRound stack temp =
          (ps ++ [temp]).flatMap (cancelRound stack) := by simp
      have hcount : 32 * ps.length + 32 = 32 * (ps ++ [temp]).length := by simp; omega
      have hle' : (ps ++ [temp]).length ≤ 64 := by simp; omega
      split
      · next hclear =>
        refine .leave ⟨ps ++ [temp], ⟨ps, temp, rfl, hset, hle', .inl hclear⟩, hcount, ?_⟩
        rw [List.append_nil]
        exact hround
      · next hnot =>
        have hset' : ∀ p ∈ ps ++ [temp], p &&& 0x0008 ≠ 0 :=
          List.forall_mem_append.2 ⟨hset, List.forall_mem_singleton.2 hnot⟩
        refine .again ⟨ps ++ [temp], hset', hle', hcount, ?_⟩
        rw [List.append_nil]
        exact hround
    · exact .again ⟨ps, hset, hle, rfl, by simp⟩
  · next hlt =>
    have h64 : ps.length = 64 := by omega
    obtain rfl | ⟨before, last, rfl⟩ := List.eq_nil_or_concat' ps
    · cases h64
    have hbefore : ∀ p ∈ before, p &&& 0x0008 ≠ 0 := (List.forall_mem_append.1 hset).1
    exact .leave ⟨_, ⟨before, last, rfl, hbefore, hle, .inr h64⟩, rfl, List.append_nil _⟩

/-! ### The rest of the call -/

theorem shows_fillLoop (stack : ℕ → UInt8) (fill : UInt8) :
    Shows (fillLoop fuel stack fill) fun _ l ↦
      l = List.replicate 65 (.frame (vsbufFrame stack fill)) := by
  -- 65 frames: the first multiple of 32 from 2052 on is 2080
  let J : ℕ → List CodecEvent → Prop := fun i l ↦ ∃ n ≤ 65, i = 32 * n ∧
    l = List.replicate n (.frame (vsbufFrame stack fill))
  refine .loop (J := J) (fun _ _ _ ↦ shows_outOfFuel) ?_ ⟨0, by decide, rfl, rfl⟩
  rintro i l ⟨n, hn, rfl, rfl⟩
  split
  · next hlt =>
    refine .bind (shows_sendMusicData fuel _) ?_
    rintro res _ rfl
    refine .again ?_
    split
    · refine ⟨n + 1, by omega, by omega, ?_⟩
      rw [List.replicate_succ', List.append_nil]
      rfl
    · refine ⟨n, hn, rfl, ?_⟩
      rw [List.append_nil, List.append_nil]
  · next hlt =>
    obtain rfl : n = 65 := by omega
    exact .leave (List.append_nil _)

/-- What comes after the probes. -/
def FinishLog (stack : ℕ → UInt8) (ps : List UInt16) (l : List CodecEvent) : Prop :=
  if ps.length < 64 then
    ∃ value : UInt16, l = .write spiWramaddr 0x1E06 :: .read spiWram value ::
      List.replicate 65 (.frame (vsbufFrame stack (value &&& 0xff).toUInt8))
  else SoftResetLog l

theorem shows_finishCancel (stack : ℕ → UInt8) (ps : List UInt16) :
    Shows (finishCancel fuel stack (32 * ps.length)) fun _ l ↦ FinishLog stack ps l := by
  rw [finishCancel]
  split
  · next hlt =>
    have hlt' : ps.length < 64 := by omega
    refine .bind (R := fun v l ↦ l = [.write spiWramaddr 0x1E06, .read spiWram v]) ?_ ?_
    · refine .bind (shows_wrCmd fuel _ _) ?_
      rintro - _ rfl
      refine (shows_rdReg fuel _).mono ?_
      rintro v _ rfl
      rfl
    · rintro v _ rfl
      refine (shows_fillLoop fuel stack _).mono ?_
      rintro - _ rfl
      rw [FinishLog, if_pos hlt']
      exact ⟨v, rfl⟩
  · next hlt =>
    have hlt' : ¬ ps.length < 64 := by omega
    refine (shows_softReset fuel).mono fun _ l hl ↦ ?_
    rw [FinishLog, if_neg hlt']
    exact hl

/-- What comes after the two header registers. -/
def VerdictLog (hdat0 hdat1 : UInt16) (l : List CodecEvent) : Prop :=
  if hdat0 + hdat1 ≠ 0 then ∃ l', l = .rst false :: .rst true :: l' ∧ SoftResetLog l' else l = []

/-- **A call of `VS_Restart_Play`**, as the codec sees it. -/
structure Restart (stack : ℕ → UInt8) (mode : UInt16) (ps : List UInt16) (hdat0 hdat1 : UInt16)
    (finish verdict : List CodecEvent) (l : List CodecEvent) : Prop where
  probesEnd : ProbesEnd ps
  finishLog : FinishLog stack ps finish
  verdictLog : VerdictLog hdat0 hdat1 verdict
  log_eq : l = [.read spiMode mode, .write spiMode (mode ||| 0x0008 ||| 0x0004)] ++
    (ps.flatMap (cancelRound stack) ++
      (finish ++ ([.read spiHdat0 hdat0, .read spiHdat1 hdat1] ++ verdict)))

/-- `VS_Restart_Play` after its first read, from where both lines are high. -/
def restartOn (fuel : ℕ) (stack : ℕ → UInt8) (mode : UInt16) : Vs Unit := do
  vsWrCmd fuel spiMode (mode ||| 0x0008 ||| 0x0004)
  let i ← cancelLoop fuel stack
  finishCancel fuel stack i
  let hdat0 ← vsRdReg fuel spiHdat0
  let hdat1 ← vsRdReg fuel spiHdat1
  if hdat0 + hdat1 ≠ 0 then hardReset fuel else pure ()

theorem shows_hardReset : Shows (hardReset fuel) fun _ l ↦
    ∃ l', l = .rst false :: .rst true :: l' ∧ SoftResetLog l' := by
  refine .bind shows_hdReset ?_
  rintro _ _ rfl
  exact (shows_softReset fuel).mono fun _ l hl ↦ ⟨l, rfl, hl⟩

theorem shows_restartOn (stack : ℕ → UInt8) (mode : UInt16) :
    Shows (restartOn fuel stack mode) fun _ l ↦ ∃ ps hdat0 hdat1 finish verdict,
      Restart stack mode ps hdat0 hdat1 finish verdict (.read spiMode mode :: l) := by
  refine .bind (shows_wrCmd fuel _ _) ?_
  rintro - _ rfl
  refine .bind (shows_cancelLoop fuel stack) ?_
  rintro _ _ ⟨ps, hps, rfl, rfl⟩
  refine .bind (shows_finishCancel fuel stack ps) fun _ finish hfinish ↦ ?_
  refine .bind (shows_rdReg fuel _) ?_
  rintro hdat0 _ rfl
  refine .bind (shows_rdReg fuel _) ?_
  rintro hdat1 _ rfl
  split
  · next hsum =>
    refine (shows_hardReset fuel).mono fun _ l hl ↦ ?_
    refine ⟨ps, hdat0, hdat1, finish, l, hps, hfinish, ?_, rfl⟩
    rwa [VerdictLog, if_pos hsum]
  · next hsum =>
    refine .pure ⟨ps, hdat0, hdat1, finish, [], hps, hfinish, ?_, rfl⟩
    rw [VerdictLog, if_neg hsum]

/-- **`VS_Restart_Play`.** -/
theorem restart_of_returns {stack : ℕ → UInt8} {s t : Codec} {tr : List (Event VsOp VsOp.Ans)}
    (hs : s.Idle false) (hlog : s.log = [])
    (hrun : Returns Codec.step (vsRestartPlay fuel stack) s tr () t) :
    ∃ mode ps hdat0 hdat1 finish verdict,
      Restart stack mode ps hdat0 hdat1 finish verdict (visible t.log) := by
  have hwp : wp Codec.step anyOp (vsRdReg fuel spiMode >>= restartOn fuel stack) (fun _ t ↦
      ∃ mode ps hdat0 hdat1 finish verdict,
        Restart stack mode ps hdat0 hdat1 finish verdict (visible t.log)) s := by
    rw [wp_bind]
    refine wp_mono (wp_codec_rdReg fuel hs spiMode) ?_
    rintro mode u ⟨hu, n, hread⟩
    refine wp_mono (shows_restartOn fuel stack mode u hu) ?_
    rintro - v ⟨-, l, hadd, hl⟩
    have hv : visible v.log = visible u.log ++ l := hadd
    refine ⟨mode, ?_⟩
    rw [hv, hread, hlog, List.nil_append, visible_append, visible_waited]
    exact hl
  exact wp_of_steps hwp hrun

end

/-! ### What the properties look at -/

theorem readsOf_append (address : UInt8) (l l' : List CodecEvent) :
    readsOf address (l ++ l') = readsOf address l ++ readsOf address l' :=
  List.filterMap_append

/-- An event that decides nothing: the reset line stays, and neither header register is read. -/
structure CodecEvent.Idle (e : CodecEvent) : Prop where
  rst : e ≠ .rst false
  hdat0 : e.value? spiHdat0 = none
  hdat1 : e.value? spiHdat1 = none

/-- The registers of a soft reset are not the header registers. -/
theorem CodecEvent.idle_of_register {e : CodecEvent}
    (h : e.register? = some spiMode ∨ e.register? = some spiClockf) : e.Idle := by
  cases e with
  | read address value =>
    rcases h with h | h
    · obtain rfl : address = spiMode := by injection h
      exact ⟨CodecEvent.noConfusion, rfl, rfl⟩
    · obtain rfl : address = spiClockf := by injection h
      exact ⟨CodecEvent.noConfusion, rfl, rfl⟩
  | write address value => exact ⟨CodecEvent.noConfusion, rfl, rfl⟩
  | _ => rcases h with h | h <;> cases h

theorem SoftResetLog.idle {l : List CodecEvent} (h : SoftResetLog l) : ∀ e ∈ l, e.Idle := by
  obtain ⟨l', rfl, hl'⟩ := h
  refine List.forall_mem_cons.2 ⟨⟨CodecEvent.noConfusion, rfl, rfl⟩, fun e he ↦ ?_⟩
  exact CodecEvent.idle_of_register (hl' e he)

theorem FinishLog.idle {stack : ℕ → UInt8} {ps : List UInt16} {l : List CodecEvent}
    (h : FinishLog stack ps l) : ∀ e ∈ l, e.Idle := by
  rw [FinishLog] at h
  split at h
  · obtain ⟨value, rfl⟩ := h
    refine List.forall_mem_cons.2 ⟨⟨CodecEvent.noConfusion, rfl, rfl⟩, ?_⟩
    refine List.forall_mem_cons.2 ⟨⟨CodecEvent.noConfusion, rfl, rfl⟩, fun e he ↦ ?_⟩
    rw [List.eq_of_mem_replicate he]
    exact ⟨CodecEvent.noConfusion, rfl, rfl⟩
  · exact h.idle

theorem cancelRounds_idle (stack : ℕ → UInt8) (ps : List UInt16) :
    ∀ e ∈ ps.flatMap (cancelRound stack), e.Idle := by
  intro e he
  obtain ⟨p, -, he⟩ := List.mem_flatMap.1 he
  rcases List.mem_cons.1 he with rfl | he
  · exact ⟨CodecEvent.noConfusion, rfl, rfl⟩
  · rw [List.mem_singleton.1 he]
    exact ⟨CodecEvent.noConfusion, rfl, rfl⟩

/-- The rounds of the cancel loop, looked at one by one. -/
theorem cancelRounds_views (stack : ℕ → UInt8) (ps : List UInt16) :
    (∀ e ∈ ps.flatMap (cancelRound stack), e.endsCancel = false) ∧
      readsOf spiMode (ps.flatMap (cancelRound stack)) = ps ∧
      chunks (ps.flatMap (cancelRound stack)) = List.replicate ps.length (vsbufFrame stack 0) := by
  induction ps with
  | nil => exact ⟨fun _ h ↦ absurd h List.not_mem_nil, rfl, rfl⟩
  | cons p ps ih =>
    obtain ⟨hends, hreads, hchunks⟩ := ih
    refine ⟨?_, ?_, ?_⟩
    · exact List.forall_mem_cons.2 ⟨rfl, List.forall_mem_cons.2 ⟨rfl, hends⟩⟩
    · rw [List.flatMap_cons, readsOf_append, hreads]
      rfl
    · rw [List.flatMap_cons, chunks_append, hchunks]
      rfl

/-- A soft reset, or the end-fill phase, is where the cancellation ends. -/
theorem FinishLog.ends {stack : ℕ → UInt8} {ps : List UInt16} {l : List CodecEvent}
    (h : FinishLog stack ps l) : ∃ e l', l = e :: l' ∧ e.endsCancel = true ∧
      e = if ps.length < 64 then .write spiWramaddr 0x1E06 else .stray 0xff := by
  rw [FinishLog] at h
  split at h
  · next hlt =>
    obtain ⟨value, rfl⟩ := h
    exact ⟨_, _, rfl, rfl, (if_pos hlt).symm⟩
  · next hlt =>
    obtain ⟨l', rfl, -⟩ := h
    exact ⟨_, _, rfl, rfl, (if_neg hlt).symm⟩

/-- A log in two parts, the second of which begins where the cancellation ends. -/
theorem phases_append {l l' : List CodecEvent} {e : CodecEvent}
    (hl : ∀ x ∈ l, x.endsCancel = false) (he : e.endsCancel = true) :
    cancelPhase (l ++ e :: l') = l ∧ afterCancel (l ++ e :: l') = e :: l' := by
  induction l with
  | nil => simp [cancelPhase, afterCancel, he]
  | cons x l ih =>
    obtain ⟨hx, hl⟩ := List.forall_mem_cons.1 hl
    simpa [cancelPhase, afterCancel, hx] using ih hl

namespace Restart

variable {stack : ℕ → UInt8} {mode : UInt16} {ps : List UInt16} {hdat0 hdat1 : UInt16}
  {finish verdict l : List CodecEvent}

/-- **The log is cut where the cancellation ends.** -/
theorem phases (h : Restart stack mode ps hdat0 hdat1 finish verdict l) :
    cancelPhase l = [.read spiMode mode, .write spiMode (mode ||| 0x0008 ||| 0x0004)] ++
        ps.flatMap (cancelRound stack) ∧
      afterCancel l = finish ++ ([.read spiHdat0 hdat0, .read spiHdat1 hdat1] ++ verdict) := by
  obtain ⟨e, l', rfl, hends, -⟩ := h.finishLog.ends
  rw [h.log_eq, ← List.append_assoc]
  refine phases_append ?_ hends
  exact List.forall_mem_cons.2 ⟨rfl, List.forall_mem_cons.2 ⟨rfl, (cancelRounds_views stack ps).1⟩⟩

theorem probes_eq (h : Restart stack mode ps hdat0 hdat1 finish verdict l) : probes l = ps := by
  rw [probes, h.phases.1, readsOf_append, (cancelRounds_views stack ps).2.1]
  rfl

theorem chunks_cancelPhase (h : Restart stack mode ps hdat0 hdat1 finish verdict l) :
    chunks (cancelPhase l) = List.replicate ps.length (vsbufFrame stack 0) := by
  rw [h.phases.1, chunks_append, (cancelRounds_views stack ps).2.2]
  rfl

theorem head_afterCancel (h : Restart stack mode ps hdat0 hdat1 finish verdict l) :
    (afterCancel l).head? =
      some (if ps.length < 64 then .write spiWramaddr 0x1E06 else .stray 0xff) := by
  obtain ⟨e, l', rfl, -, he⟩ := h.finishLog.ends
  rw [h.phases.2, ← he]
  rfl

theorem endFillRuns_iff (h : Restart stack mode ps hdat0 hdat1 finish verdict l) :
    EndFillRuns l ↔ ps.length < 64 := by
  rw [EndFillRuns, h.head_afterCancel, Option.some_inj]
  split
  · next hlt => exact ⟨fun _ ↦ hlt, fun _ ↦ rfl⟩
  · next hlt => exact ⟨fun he ↦ (by cases he), fun hlt' ↦ absurd hlt' hlt⟩

theorem softResetRuns_iff (h : Restart stack mode ps hdat0 hdat1 finish verdict l) :
    SoftResetRuns l ↔ ¬ ps.length < 64 := by
  rw [SoftResetRuns, h.head_afterCancel, Option.some_inj]
  split
  · next hlt => exact ⟨fun he ↦ (by cases he), fun hnot ↦ absurd hlt hnot⟩
  · next hlt => exact ⟨fun _ ↦ hlt, fun _ ↦ rfl⟩

/-- What comes before the header registers decides nothing. -/
theorem idle_before (h : Restart stack mode ps hdat0 hdat1 finish verdict l) :
    ∃ before, (∀ e ∈ before, e.Idle) ∧
      l = before ++ [.read spiHdat0 hdat0, .read spiHdat1 hdat1] ++ verdict := by
  refine ⟨[.read spiMode mode, .write spiMode (mode ||| 0x0008 ||| 0x0004)] ++
    (ps.flatMap (cancelRound stack) ++ finish), fun e he ↦ ?_, ?_⟩
  · rcases List.mem_append.1 he with he | he
    · rcases List.mem_cons.1 he with rfl | he
      · exact ⟨CodecEvent.noConfusion, rfl, rfl⟩
      · rw [List.mem_singleton.1 he]
        exact ⟨CodecEvent.noConfusion, rfl, rfl⟩
    · rcases List.mem_append.1 he with he | he
      · exact cancelRounds_idle stack ps e he
      · exact h.finishLog.idle e he
  · rw [h.log_eq]
    simp only [List.append_assoc]

/-- The last part of the log reads neither header register again. -/
theorem reads_verdict (h : Restart stack mode ps hdat0 hdat1 finish verdict l) :
    ∀ e ∈ verdict, e.value? spiHdat0 = none ∧ e.value? spiHdat1 = none := by
  have hv := h.verdictLog
  rw [VerdictLog] at hv
  split at hv
  · obtain ⟨l', rfl, hl'⟩ := hv
    refine List.forall_mem_cons.2 ⟨⟨rfl, rfl⟩, List.forall_mem_cons.2 ⟨⟨rfl, rfl⟩, fun e he ↦ ?_⟩⟩
    exact ⟨(hl'.idle e he).hdat0, (hl'.idle e he).hdat1⟩
  · rw [hv]
    exact fun _ he ↦ absurd he List.not_mem_nil

theorem readsOf_hdat (h : Restart stack mode ps hdat0 hdat1 finish verdict l) :
    readsOf spiHdat0 l = [hdat0] ∧ readsOf spiHdat1 l = [hdat1] := by
  obtain ⟨before, hbefore, hl⟩ := h.idle_before
  have h0 : readsOf spiHdat0 before = [] :=
    List.filterMap_eq_nil_iff.2 fun e he ↦ (hbefore e he).hdat0
  have h1 : readsOf spiHdat1 before = [] :=
    List.filterMap_eq_nil_iff.2 fun e he ↦ (hbefore e he).hdat1
  have hv0 : readsOf spiHdat0 verdict = [] :=
    List.filterMap_eq_nil_iff.2 fun e he ↦ (h.reads_verdict e he).1
  have hv1 : readsOf spiHdat1 verdict = [] :=
    List.filterMap_eq_nil_iff.2 fun e he ↦ (h.reads_verdict e he).2
  rw [hl, readsOf_append, readsOf_append, readsOf_append, readsOf_append, h0, h1, hv0, hv1]
  exact ⟨rfl, rfl⟩

theorem hardResetRuns_iff (h : Restart stack mode ps hdat0 hdat1 finish verdict l) :
    HardResetRuns l ↔ hdat0 + hdat1 ≠ 0 := by
  obtain ⟨before, hbefore, hl⟩ := h.idle_before
  have hv := h.verdictLog
  rw [VerdictLog] at hv
  constructor
  · intro hrst hsum
    rw [if_neg (not_not_intro hsum)] at hv
    rw [HardResetRuns, hl, hv, List.append_nil] at hrst
    rcases List.mem_append.1 hrst with hrst | hrst
    · exact (hbefore _ hrst).rst rfl
    · rcases List.mem_cons.1 hrst with he | hrst
      · cases he
      · cases List.mem_singleton.1 hrst
  · intro hsum
    rw [if_pos hsum] at hv
    obtain ⟨l', rfl, -⟩ := hv
    rw [HardResetRuns, hl]
    exact List.mem_append_right _ (List.mem_cons_self ..)

end Restart

/-! ### The two laws -/

/-- **Every frame has 160 bytes**, the buffer 32. -/
theorem Restart.not_restartBytes {stack : ℕ → UInt8} {mode : UInt16} {ps : List UInt16}
    {hdat0 hdat1 : UInt16} {finish verdict l : List CodecEvent}
    (h : Restart stack mode ps hdat0 hdat1 finish verdict l) : ¬ RestartBytes l := by
  intro hbytes
  have hzeros := hbytes.zeros
  obtain ⟨before, last, hps, -⟩ := h.probesEnd
  have hpos : ps.length = before.length + 1 := by rw [hps, List.length_append]; rfl
  -- there is a first frame, which would have to be 32 zeros
  rw [h.chunks_cancelPhase, h.probes_eq, hpos, List.replicate_succ, List.replicate_succ] at hzeros
  have hframe : vsbufFrame stack 0 = List.replicate 32 0 := (List.cons.inj hzeros).1
  have hlength : (vsbufFrame stack 0).length = 160 := by
    rw [vsbufFrame, frameAt, List.length_map, List.length_range]
  rw [hframe] at hlength
  cases hlength

/-- **No call sends the bytes it means to.** A call that returns has sent others; and at every
moment of a call, whether or not it returns, no frame that has been put out fits into the buffer of
32 bytes. -/
theorem restartBytes_never {fuel : ℕ} {stack : ℕ → UInt8} {s : Codec} (hs : s.Idle false)
    (hlog : s.log = []) :
    (∀ tr t, Returns Codec.step (vsRestartPlay fuel stack) s tr () t →
      ¬ RestartBytes (visible t.log)) ∧
    ∀ tr q t, Steps Codec.step (vsRestartPlay fuel stack) s tr q t →
      ∀ c ∈ chunks t.log, ¬ c.length ≤ 32 := by
  refine ⟨fun tr t hrun ↦ ?_, fun tr q t hrun c hc ↦ ?_⟩
  · obtain ⟨mode, ps, hdat0, hdat1, finish, verdict, h⟩ := restart_of_returns fuel hs hlog hrun
    exact h.not_restartBytes
  · have hlength : c.length = 160 := length_of_steps fuel hs.frame hlog hrun c hc
    omega

/-- A codec whose registers hold zeros takes 160 zeros before its first probe. -/
theorem restartBytes_never_zeros : ∃ tr t,
    Returns Codec.step (vsRestartPlay 2053 fun _ ↦ 0) Codec.quiet tr () t ∧
      ¬ RestartBytes (visible t.log) := by
  obtain ⟨tr, t, hrun, -⟩ :=
    exists_restartPlay (fun _ ↦ 0) (fun _ ↦ 0) (Codec.quiet_readsRight _)
  exact ⟨tr, t, hrun, (restartBytes_never Codec.quiet_idle rfl).1 tr t hrun⟩

/-- Every call that returns sends the bytes it means to. -/
def RestartBytesAlways : Prop :=
  ∀ fuel stack s tr t, Codec.Idle false s → s.log = [] →
    Returns Codec.step (vsRestartPlay fuel stack) s tr () t → RestartBytes (visible t.log)

/-- Behind the buffer lie bytes that are not zero: they are sent with it. -/
theorem not_restartBytesAlways : ¬ RestartBytesAlways := by
  intro h
  obtain ⟨tr, t, hrun, -⟩ :=
    exists_restartPlay (fun _ ↦ 0) (fun _ ↦ 0xAA) (Codec.quiet_readsRight _)
  obtain ⟨mode, ps, hdat0, hdat1, finish, verdict, hlog⟩ :=
    restart_of_returns 2053 Codec.quiet_idle rfl hrun
  exact hlog.not_restartBytes (h 2053 _ _ tr t Codec.quiet_idle rfl hrun)

/-- **The two answers that are decided wrongly do not come**: the bit cleared at the 64th probe,
where the counter has run out, and header registers that add up to zero without being zero. -/
structure ToldApart (l : List CodecEvent) : Prop where
  lastProbe : ∀ p, (probes l)[63]? = some p → p &&& 0x0008 ≠ 0
  sum : ∀ hdat0 ∈ readsOf spiHdat0 l, ∀ hdat1 ∈ readsOf spiHdat1 l,
    hdat0 + hdat1 = 0 → hdat0 = 0

/-- The bit was found clear exactly if the last probe found it. -/
theorem ProbesEnd.exists_clear_iff {ps before : List UInt16} {last : UInt16}
    (hps : ps = before ++ [last]) (hbefore : ∀ p ∈ before, p &&& 0x0008 ≠ 0) :
    (∃ p ∈ ps, p &&& 0x0008 = 0) ↔ last &&& 0x0008 = 0 := by
  constructor
  · rintro ⟨p, hp, hclear⟩
    rw [hps] at hp
    rcases List.mem_append.1 hp with hp | hp
    · exact absurd hclear (hbefore p hp)
    · exact List.mem_singleton.1 hp ▸ hclear
  · intro hclear
    exact ⟨last, by rw [hps]; simp, hclear⟩

/-- **The counter decides as the bit does**, unless the bit is found clear at the 64th probe. -/
theorem ProbesEnd.decided_iff {ps : List UInt16} (h : ProbesEnd ps) :
    (ps.length < 64 ↔ ∃ p ∈ ps, p &&& 0x0008 = 0) ↔
      ∀ p, ps[63]? = some p → p &&& 0x0008 ≠ 0 := by
  obtain ⟨before, last, hps, hbefore, hle, hend⟩ := h
  -- the 64th probe is the last one, which is the one that is told apart
  have hlast (h64 : ps.length = 64) : ps[63]? = some last := by
    have hlen : before.length = 63 := by
      rw [hps, List.length_append, List.length_singleton] at h64
      omega
    rw [hps, ← hlen]
    exact List.getElem?_concat_length
  rw [ProbesEnd.exists_clear_iff hps hbefore]
  constructor
  · intro hiff p hp hclear
    obtain ⟨hlt, -⟩ := List.getElem?_eq_some_iff.1 hp
    have h64 : ps.length = 64 := by omega
    obtain rfl : last = p := Option.some_inj.1 ((hlast h64).symm.trans hp)
    exact absurd (hiff.2 hclear) (by omega)
  · intro htold
    constructor
    · intro hlt
      exact hend.resolve_right (by omega)
    · intro hclear
      by_contra hnot
      exact htold last (hlast (by omega)) hclear

/-- Two registers are zero if their sum is and the first is. -/
theorem zero_of_sum_iff {hdat0 hdat1 : UInt16} :
    (hdat0 + hdat1 = 0 → hdat0 = 0 ∧ hdat1 = 0) ↔ (hdat0 + hdat1 = 0 → hdat0 = 0) := by
  refine ⟨fun h hsum ↦ (h hsum).1, fun h hsum ↦ ⟨h hsum, ?_⟩⟩
  rwa [h hsum, UInt16.zero_add] at hsum

theorem Restart.restartDecisions_iff {stack : ℕ → UInt8} {mode : UInt16} {ps : List UInt16}
    {hdat0 hdat1 : UInt16} {finish verdict l : List CodecEvent}
    (h : Restart stack mode ps hdat0 hdat1 finish verdict l) :
    RestartDecisions l ↔ ToldApart l := by
  obtain ⟨hread0, hread1⟩ := h.readsOf_hdat
  have hreset : (¬ HardResetRuns l → (readsOf spiHdat0 l).getLast? = some 0 ∧
      (readsOf spiHdat1 l).getLast? = some 0) ↔ (hdat0 + hdat1 = 0 → hdat0 = 0) := by
    rw [h.hardResetRuns_iff, not_not, hread0, hread1, ← zero_of_sum_iff]
    simp
  have hsum : (∀ v ∈ readsOf spiHdat0 l, ∀ w ∈ readsOf spiHdat1 l, v + w = 0 → v = 0) ↔
      (hdat0 + hdat1 = 0 → hdat0 = 0) := by
    rw [hread0, hread1]
    simp
  have hprobes := h.probesEnd.decided_iff
  constructor
  · intro hd
    have hfill := hd.endFill
    rw [h.endFillRuns_iff, h.probes_eq] at hfill
    refine ⟨?_, hsum.2 (hreset.1 hd.noHardReset)⟩
    rw [h.probes_eq]
    exact hprobes.1 hfill
  · intro ht
    have hlast := ht.lastProbe
    rw [h.probes_eq] at hlast
    have hfill := hprobes.2 hlast
    refine ⟨?_, ?_, hreset.2 (hsum.1 ht.sum)⟩
    · rw [h.endFillRuns_iff, h.probes_eq]
      exact hfill
    · rw [h.softResetRuns_iff, h.probes_eq]
      exact not_congr hfill

/-- **The decisions are right exactly where the codec's answers are told apart.** -/
theorem restartDecisions_iff_toldApart {fuel : ℕ} {stack : ℕ → UInt8} {s t : Codec}
    {tr : List (Event VsOp VsOp.Ans)} (hs : s.Idle false) (hlog : s.log = [])
    (hrun : Returns Codec.step (vsRestartPlay fuel stack) s tr () t) :
    RestartDecisions (visible t.log) ↔ ToldApart (visible t.log) := by
  obtain ⟨mode, ps, hdat0, hdat1, finish, verdict, h⟩ := restart_of_returns fuel hs hlog hrun
  exact h.restartDecisions_iff

/-- What a call has decided on is in its log. -/
theorem Restart.reads_mem {stack : ℕ → UInt8} {mode : UInt16} {ps : List UInt16}
    {hdat0 hdat1 : UInt16} {finish verdict l : List CodecEvent}
    (h : Restart stack mode ps hdat0 hdat1 finish verdict l) :
    .read spiHdat0 hdat0 ∈ l ∧ .read spiHdat1 hdat1 ∈ l ∧ ∀ p ∈ ps, .read spiMode p ∈ l := by
  refine ⟨?_, ?_, fun p hp ↦ ?_⟩
  · rw [h.log_eq]
    simp
  · rw [h.log_eq]
    simp
  · have hround : .read spiMode p ∈ ps.flatMap (cancelRound stack) :=
      List.mem_flatMap.2 ⟨p, hp, by simp [cancelRound]⟩
    rw [h.log_eq]
    exact List.mem_append_right _ (List.mem_append_left _ hround)

theorem mem_of_mem_visible {e : CodecEvent} {l : List CodecEvent} (h : e ∈ visible l) : e ∈ l :=
  (List.mem_filter.1 h).1

/-- A codec whose registers hold zeros: the bit is found clear at the first probe, and the fill byte
is sent. -/
theorem restartDecisions_zeros : ∃ tr t,
    Returns Codec.step (vsRestartPlay 2053 fun _ ↦ 0) Codec.quiet tr () t ∧
      RestartDecisions (visible t.log) := by
  obtain ⟨tr, t, hrun, hreads⟩ :=
    exists_restartPlay (fun _ ↦ 0) (fun _ ↦ 0) (Codec.quiet_readsRight _)
  refine ⟨tr, t, hrun, (restartDecisions_iff_toldApart Codec.quiet_idle rfl hrun).2 ?_⟩
  obtain ⟨mode, ps, hdat0, hdat1, finish, verdict, h⟩ :=
    restart_of_returns 2053 Codec.quiet_idle rfl hrun
  obtain ⟨hhdat0, -, hprobes⟩ := h.reads_mem
  have hzero : hdat0 = 0 := hreads _ _ (mem_of_mem_visible hhdat0)
  obtain ⟨before, last, hps, hbefore, -⟩ := h.probesEnd
  have hnil : before = [] := by
    refine List.eq_nil_iff_forall_not_mem.2 fun p hp ↦ ?_
    have hp' : p ∈ ps := by rw [hps]; exact List.mem_append_left _ hp
    have hp0 : p = 0 := hreads _ _ (mem_of_mem_visible (hprobes p hp'))
    exact hbefore p hp (by rw [hp0]; decide)
  refine ⟨fun p hp ↦ ?_, ?_⟩
  · rw [h.probes_eq, hps, hnil] at hp
    cases hp
  · rw [h.readsOf_hdat.1]
    exact fun v hv _ _ _ ↦ (List.mem_singleton.1 hv).trans hzero

/-- Every call that returns has decided rightly. -/
def RestartDecisionsAlways : Prop :=
  ∀ fuel stack s tr t, Codec.Idle false s → s.log = [] →
    Returns Codec.step (vsRestartPlay fuel stack) s tr () t → RestartDecisions (visible t.log)

/-- Header registers of 1 and 65535: the sum is zero, and the codec is not reset. -/
theorem not_restartDecisionsAlways : ¬ RestartDecisionsAlways := by
  intro h
  let regs : UInt8 → UInt16 := fun address ↦
    if address = spiHdat0 then 1 else if address = spiHdat1 then 0xFFFF else 0
  obtain ⟨tr, t, hrun, hreads⟩ :=
    exists_restartPlay regs (fun _ ↦ 0) (Codec.quiet_readsRight _)
  obtain ⟨mode, ps, hdat0, hdat1, finish, verdict, hlog⟩ :=
    restart_of_returns 2053 Codec.quiet_idle rfl hrun
  have htold := hlog.restartDecisions_iff.1 (h 2053 _ _ tr t Codec.quiet_idle rfl hrun)
  obtain ⟨hhdat0, hhdat1, -⟩ := hlog.reads_mem
  obtain rfl : hdat0 = 1 := hreads _ _ (mem_of_mem_visible hhdat0)
  obtain rfl : hdat1 = 0xFFFF := hreads _ _ (mem_of_mem_visible hhdat1)
  have hsum := htold.sum
  rw [hlog.readsOf_hdat.1, hlog.readsOf_hdat.2] at hsum
  have hzero := hsum 1 (List.mem_singleton.2 rfl) 0xFFFF (List.mem_singleton.2 rfl) (by decide)
  exact absurd hzero (by decide)

end YHAudioLink
