import YHAudioLink.Vs10xx.Driver

/-!
# The two select lines of the audio codec

The codec has one SPI bus and two ports on it: commands are taken while `XCS` is low, audio data
while `XDCS` is low. The machine keeps the levels of the two lines, counts the bytes of a command
since `XCS` went low, and remembers what `DREQ` read last.

The **discipline** (`Disciplined`) is a demand on every call about to be made: neither line is
lowered under the other, a command is four bytes between a fall and a rise of `XCS`, and audio data
goes out under `XDCS`. Every function keeps it from any state in which `XCS` is high, for each
raises `XDCS` before it lowers `XCS`. All but one also leave both lines high if they found them so.
The exception is the last frame of `vs10xx_play_dma_send_data` (`wp_dmaLast`).
-/

namespace YHAudioLink

open Programs

/-! ### The machine -/

/-- The select lines, the bytes of the command being clocked, and the last reading of `DREQ`. -/
structure Pins where
  xcs : Bool
  xdcs : Bool
  cmdBytes : ℕ
  dq : Bool
  deriving DecidableEq

namespace Pins

/-- One call of the driver with its answer. -/
def step : Pins → Event VsOp VsOp.Ans → Pins → Prop
  | s, ⟨.xcs stat, _⟩, t => t = { s with xcs := stat, cmdBytes := 0 }
  | s, ⟨.xdcs stat, _⟩, t => t = { s with xdcs := stat }
  | s, ⟨.readWriteByte .command _, _⟩, t => t = { s with cmdBytes := s.cmdBytes + 1 }
  | s, ⟨.dq, level⟩, t => t = { s with dq := level }
  | s, _, t => t = s

/-- Both lines are high. -/
def High (s : Pins) : Prop := s.xcs = true ∧ s.xdcs = true

/-- Both ports are selected at once. -/
def BothLow (s : Pins) : Prop := s.xcs = false ∧ s.xdcs = false

end Pins

/-- **The discipline.** -/
def Disciplined (s : Pins) : VsOp → Prop
  | .xcs false => s.High
  | .xcs true => s.xcs = false → s.cmdBytes = 4
  | .xdcs false => s.xcs = true
  | .readWriteByte .command _ => s.xcs = false ∧ s.xdcs = true ∧ s.cmdBytes < 4
  | .readWriteByte .data _ | .startDma _ => s.xcs = true ∧ s.xdcs = false
  | .readWriteByte .filler _ => s.High
  | _ => True

/-- A disciplined call never selects both ports. -/
theorem not_bothLow_step {s t : Pins} {o : VsOp} {r : VsOp.Ans o} (hok : Disciplined s o)
    (h : ¬ s.BothLow) (hst : s.step ⟨o, r⟩ t) : ¬ t.BothLow := by
  cases o with
  | xcs stat =>
    rw [show t = _ from hst]
    rintro ⟨hxcs, hxdcs⟩
    obtain rfl : stat = false := hxcs
    rw [hok.2] at hxdcs
    cases hxdcs
  | xdcs stat =>
    rw [show t = _ from hst]
    rintro ⟨hxcs, hxdcs⟩
    obtain rfl : stat = false := hxdcs
    rw [show s.xcs = true from hok] at hxcs
    cases hxcs
  | readWriteByte use data =>
    cases use with
    | command =>
      rw [show t = _ from hst]
      exact h
    | _ =>
      rw [show t = s from hst]
      exact h
  | dq =>
    rw [show t = _ from hst]
    exact h
  | outOfFuel => exact r.elim
  | _ =>
    rw [show t = s from hst]
    exact h

/-! ### Rules -/

/-- `XCS` is high, and with `both` set `XDCS` too. -/
def Deselected (both : Bool) (s : Pins) : Prop := s.xcs = true ∧ (both = true → s.xdcs = true)

/-- The data port is selected. -/
def Sending (s : Pins) : Prop := s.xcs = true ∧ s.xdcs = false

/-- The driver's programs that are disciplined and keep a property of the lines. -/
abbrev KeepsPins {α : Type} (I : Pins → Prop) (p : Vs α) : Prop :=
  Keeps Pins.step Disciplined I p

theorem wp_vs {o : VsOp} {Q : VsOp.Ans o → Pins → Prop} {s : Pins} :
    wp Pins.step Disciplined (vs o) Q s =
      (Disciplined s o ∧ ∀ r t, s.step ⟨o, r⟩ t → Q r t) := wp_perform

/-- A call of the hardware is disciplined, and the program goes on from each of its outcomes. -/
theorem wp_vs_bind {α : Type} {o : VsOp} {f : VsOp.Ans o → Vs α} {Q : α → Pins → Prop} {s : Pins}
    (hok : Disciplined s o)
    (h : ∀ r t, s.step ⟨o, r⟩ t → wp Pins.step Disciplined (f r) Q t) :
    wp Pins.step Disciplined (vs o >>= f) Q s := by
  rw [wp_bind, wp_vs]
  exact ⟨hok, h⟩

/-- A property of the lines alone. -/
def OfLines (I : Pins → Prop) : Prop :=
  ∀ s t : Pins, I s → t.xcs = s.xcs → t.xdcs = s.xdcs → I t

theorem ofLines_deselected (both : Bool) : OfLines (Deselected both) :=
  fun _ _ h hxcs hxdcs ↦ ⟨hxcs.trans h.1, fun hb ↦ hxdcs.trans (h.2 hb)⟩

section

variable {I : Pins → Prop}

/-- Calls that do not move a line and may be made at any time. -/
theorem keeps_vs (hI : OfLines I) {o : VsOp} (hok : ∀ s, Disciplined s o)
    (hstep : ∀ s r t, Pins.step s ⟨o, r⟩ t → t.xcs = s.xcs ∧ t.xdcs = s.xdcs) :
    KeepsPins I (vs o) := by
  refine .perform (fun s _ ↦ hok s) fun s r t h hst ↦ ?_
  obtain ⟨hxcs, hxdcs⟩ := hstep s r t hst
  exact hI s t h hxcs hxdcs

/-- The calls the machine does not see. -/
theorem keeps_unseen (hI : OfLines I) {o : VsOp} (hok : ∀ s, Disciplined s o)
    (hstep : ∀ s r t, Pins.step s ⟨o, r⟩ t → t = s) : KeepsPins I (vs o) :=
  keeps_vs hI hok fun s r t hst ↦ by rw [hstep s r t hst]; exact ⟨rfl, rfl⟩

theorem keeps_dq (hI : OfLines I) : KeepsPins I (vs .dq) :=
  keeps_vs hI (fun _ ↦ trivial) fun s r t hst ↦ by rw [show t = _ from hst]; exact ⟨rfl, rfl⟩

/-- Nothing comes after the bound of a loop. -/
theorem wp_outOfFuel {α : Type} {Q : α → Pins → Prop} {s : Pins} :
    wp Pins.step Disciplined outOfFuel Q s :=
  ⟨trivial, fun e ↦ e.elim⟩

theorem keeps_outOfFuel {α : Type} : KeepsPins I (outOfFuel : Vs α) := fun _ _ ↦ wp_outOfFuel

theorem keeps_waitDq (hI : OfLines I) (fuel : ℕ) : KeepsPins I (vsWaitDq fuel) :=
  .loop keeps_outOfFuel (fun _ ↦ .bind (keeps_dq hI) fun _ ↦ .pure _) fuel ()

/-- A byte of audio data under `XDCS`. -/
theorem keeps_data (data : UInt8) : KeepsPins Sending (vs (.readWriteByte .data data)) := by
  refine .perform (fun s hs ↦ hs) fun s r t h hst ↦ ?_
  rw [show t = s from hst]
  exact h

end

section

variable {both : Bool} {α : Type}

theorem Deselected.mono {s : Pins} (h : Deselected true s) : Deselected both s :=
  ⟨h.1, fun _ ↦ h.2 rfl⟩

/-- **A command** is four bytes in a window of its own, with `XDCS` raised before it. -/
theorem wp_command {b₀ b₁ b₂ b₃ : UInt8} {f : UInt8 → UInt8 → Vs α} {Q : α → Pins → Prop} {s : Pins}
    (h : s.xcs = true)
    (hf : ∀ hi lo t, Deselected true t → wp Pins.step Disciplined (f hi lo) Q t) :
    wp Pins.step Disciplined (do
      vs (.xdcs true)
      vs (.xcs false)
      let _ ← vs (.readWriteByte .command b₀)
      let _ ← vs (.readWriteByte .command b₁)
      let hi : UInt8 ← vs (.readWriteByte .command b₂)
      let lo : UInt8 ← vs (.readWriteByte .command b₃)
      vs (.xcs true)
      f hi lo) Q s := by
  refine wp_vs_bind trivial ?_
  rintro - t rfl
  refine wp_vs_bind ⟨h, rfl⟩ ?_
  rintro - t rfl
  refine wp_vs_bind ⟨rfl, rfl, (by decide : 0 < 4)⟩ ?_
  rintro - t rfl
  refine wp_vs_bind ⟨rfl, rfl, (by decide : 1 < 4)⟩ ?_
  rintro - t rfl
  refine wp_vs_bind ⟨rfl, rfl, (by decide : 2 < 4)⟩ ?_
  rintro hi t rfl
  refine wp_vs_bind ⟨rfl, rfl, (by decide : 3 < 4)⟩ ?_
  rintro lo t rfl
  refine wp_vs_bind (fun _ ↦ rfl) ?_
  rintro - t rfl
  exact hf hi lo _ ⟨rfl, fun _ ↦ rfl⟩

/-- **Audio data** goes out between a fall and a rise of `XDCS`. -/
theorem keeps_dataWindow {body : Vs Unit} {rest : Vs α} (hbody : KeepsPins Sending body)
    (hrest : KeepsPins (Deselected both) rest) :
    KeepsPins (Deselected both) (do
      vs (.xdcs false)
      body
      vs (.xdcs true)
      rest) := by
  intro s h
  refine wp_vs_bind h.1 ?_
  rintro - t rfl
  rw [wp_bind]
  refine wp_mono (hbody _ ⟨h.1, rfl⟩) fun _ u hu ↦ ?_
  refine wp_vs_bind trivial ?_
  rintro - v rfl
  exact hrest _ ⟨hu.1, fun _ ↦ rfl⟩

end

/-! ### The functions -/

section

variable {both : Bool} (fuel : ℕ)

theorem keeps_speedLow : KeepsPins (Deselected both) (vs .speedLow) :=
  keeps_unseen (ofLines_deselected both) (fun _ ↦ trivial) fun _ _ _ h ↦ h

theorem keeps_speedHigh : KeepsPins (Deselected both) (vs .speedHigh) :=
  keeps_unseen (ofLines_deselected both) (fun _ ↦ trivial) fun _ _ _ h ↦ h

theorem keeps_delayMs (ms : ℕ) : KeepsPins (Deselected both) (vs (.delayMs ms)) :=
  keeps_unseen (ofLines_deselected both) (fun _ ↦ trivial) fun _ _ _ h ↦ h

/-- **`VS_WR_Cmd`** leaves both lines high, however it found `XDCS`. -/
theorem wp_wrCmd {s : Pins} (h : s.xcs = true) (address : UInt8) (data : UInt16) :
    wp Pins.step Disciplined (vsWrCmd fuel address data) (fun _ t ↦ Deselected true t) s := by
  have hsel : Deselected false s := ⟨h, fun hb ↦ by cases hb⟩
  rw [vsWrCmd, wp_bind]
  refine wp_mono (keeps_waitDq (ofLines_deselected false) fuel s hsel) fun _ t ht ↦ ?_
  rw [wp_bind]
  refine wp_mono (keeps_speedLow t ht) fun _ u hu ↦ ?_
  exact wp_command hu.1 fun _ _ v hv ↦ keeps_speedHigh v hv

/-- **`VS_RD_Reg`** likewise. -/
theorem wp_rdReg {s : Pins} (h : s.xcs = true) (address : UInt8) :
    wp Pins.step Disciplined (vsRdReg fuel address) (fun _ t ↦ Deselected true t) s := by
  have hsel : Deselected false s := ⟨h, fun hb ↦ by cases hb⟩
  have hrest : ∀ v : UInt16, KeepsPins (Deselected true) (do
      vs .speedHigh
      pure v : Vs UInt16) := fun v ↦ .bind keeps_speedHigh fun _ ↦ .pure v
  rw [vsRdReg, wp_bind]
  refine wp_mono (keeps_waitDq (ofLines_deselected false) fuel s hsel) fun _ t ht ↦ ?_
  rw [wp_bind]
  refine wp_mono (keeps_speedLow t ht) fun _ u hu ↦ ?_
  exact wp_command hu.1 fun hi lo v hv ↦ hrest _ v hv

theorem keeps_wrCmd (address : UInt8) (data : UInt16) :
    KeepsPins (Deselected both) (vsWrCmd fuel address data) :=
  fun _ h ↦ wp_mono (wp_wrCmd fuel h.1 address data) fun _ _ ht ↦ ht.mono

theorem keeps_rdReg (address : UInt8) : KeepsPins (Deselected both) (vsRdReg fuel address) :=
  fun _ h ↦ wp_mono (wp_rdReg fuel h.1 address) fun _ _ ht ↦ ht.mono

theorem keeps_wramRead (addr : UInt16) : KeepsPins (Deselected both) (vsWramRead fuel addr) :=
  .bind (keeps_wrCmd fuel _ _) fun _ ↦ keeps_rdReg fuel _

theorem keeps_wramWrite (addr val : UInt16) :
    KeepsPins (Deselected both) (vsWramWrite fuel addr val) :=
  .bind (keeps_wrCmd fuel _ _) fun _ ↦
    .bind (keeps_waitDq (ofLines_deselected both) fuel) fun _ ↦ keeps_wrCmd fuel _ _

theorem keeps_patchRun (addr val : UInt16) (n : ℕ) :
    KeepsPins (Deselected both) (patchRun fuel addr val n) := by
  induction n with
  | zero => exact .pure ()
  | succ n ih => exact .bind (keeps_wrCmd fuel _ _) fun _ ↦ ih

theorem keeps_patchCopy (patch : UInt16 → UInt16) (addr i : UInt16) (n : ℕ) :
    KeepsPins (Deselected both) (patchCopy fuel patch addr i n) := by
  induction n generalizing i with
  | zero => exact .pure i
  | succ n ih => exact .bind (keeps_wrCmd fuel _ _) fun _ ↦ ih (i + 1)

theorem keeps_loadPatch (patch : UInt16 → UInt16) (len : UInt16) :
    KeepsPins (Deselected both) (vsLoadPatch fuel patch len) := by
  refine .loop keeps_outOfFuel (fun i ↦ .ite (.ite ?_ ?_) (.pure _)) fuel 0
  · exact .bind (keeps_patchRun fuel _ _ _) fun _ ↦ .pure _
  · exact .bind (keeps_patchCopy fuel _ _ _ _) fun _ ↦ .pure _

theorem keeps_wrData (data : UInt8) : KeepsPins (Deselected both) (vsWrData data) :=
  .bind keeps_speedHigh fun _ ↦
    keeps_dataWindow (.bind (keeps_data data) fun _ ↦ .pure ()) (.pure ())

theorem keeps_sendFrame (buf : ℕ → UInt8) (i n : ℕ) : KeepsPins Sending (sendFrame buf i n) := by
  induction n generalizing i with
  | zero => exact .pure ()
  | succ n ih => exact .bind (keeps_data _) fun _ ↦ ih (i + 1)

theorem keeps_sendMusicData (buf : ℕ → UInt8) :
    KeepsPins (Deselected both) (vsSendMusicData fuel buf) := by
  refine .bind (keeps_waitDq (ofLines_deselected both) fuel) fun _ ↦ ?_
  refine .bind (keeps_dq (ofLines_deselected both)) fun _ ↦ .ite ?_ (.pure 1)
  exact keeps_dataWindow (keeps_sendFrame buf 0 _) (.pure 0)

theorem keeps_sendBytes (buf : ℕ → UInt8) (len : ℤ) : KeepsPins Sending (sendBytes fuel buf len) :=
  .loop keeps_outOfFuel (fun _ ↦ .ite (.bind (keeps_data _) fun _ ↦ .pure _) (.pure _)) fuel 0

theorem keeps_sendMusicData2 (buf : ℕ → UInt8) (len : ℤ) :
    KeepsPins (Deselected both) (vsSendMusicData2 fuel buf len) :=
  .bind (keeps_dq (ofLines_deselected both)) fun _ ↦
    .ite (keeps_dataWindow (keeps_sendBytes fuel buf len) (.pure 0)) (.pure 1)

theorem keeps_wholeFrames {chunk : ℕ → Vs Unit} (h : ∀ i, KeepsPins (Deselected both) (chunk i))
    (len : ℤ) : KeepsPins (Deselected both) (wholeFrames fuel chunk len) :=
  .loop keeps_outOfFuel (fun i ↦ .ite (.bind (h i) fun _ ↦ .pure _) (.pure _)) fuel 0

theorem keeps_sendData (pbuff : ℕ → UInt8) (len : ℤ) :
    KeepsPins (Deselected both) (vs10xxSendData fuel pbuff len) := by
  refine .bind (keeps_wholeFrames fuel (fun i ↦ ?_) len) fun i ↦ .ite ?_ (.pure ())
  · exact .bind (keeps_sendMusicData fuel _) fun _ ↦ .pure ()
  · exact .bind (keeps_sendMusicData2 fuel _ _) fun _ ↦ .pure ()

theorem keeps_setRegister (address : UInt8) (expect data : UInt16) {pause : Vs Unit}
    (hpause : KeepsPins (Deselected both) pause) (rounds : ℕ) :
    KeepsPins (Deselected both) (setRegister fuel address expect data pause rounds) := by
  have hattempt : ∀ {next : Vs Unit}, KeepsPins (Deselected both) next →
      KeepsPins (Deselected both) (setRegister.attempt fuel address expect data pause next) := by
    intro next hnext
    refine .bind (keeps_rdReg fuel address) fun _ ↦ .ite ?_ (.pure ())
    exact .bind (keeps_wrCmd fuel _ _) fun _ ↦ .bind hpause fun _ ↦ hnext
  induction rounds with
  | zero => exact hattempt (.pure ())
  | succ rounds ih => exact hattempt ih

/-- **`VS_Soft_Reset`** clocks its byte with both lines high, so they have to be. -/
theorem keeps_softReset : KeepsPins (Deselected true) (vsSoftReset fuel) := by
  have hfiller : KeepsPins (Deselected true) (vs (.readWriteByte .filler 0xff)) := by
    refine .perform (fun s hs ↦ ⟨hs.1, hs.2 rfl⟩) fun s r t h hst ↦ ?_
    rw [show t = s from hst]
    exact h
  refine .bind (keeps_waitDq (ofLines_deselected true) fuel) fun _ ↦ .bind hfiller fun _ ↦ ?_
  refine .bind (keeps_setRegister fuel _ _ _ (keeps_delayMs 2) _) fun _ ↦ ?_
  refine .bind (keeps_waitDq (ofLines_deselected true) fuel) fun _ ↦ ?_
  exact .bind (keeps_setRegister fuel _ _ _ (.pure ()) _) fun _ ↦ keeps_delayMs 20

theorem keeps_hdWait {I : Pins → Prop} (hI : OfLines I) (rounds : ℕ) :
    KeepsPins I (hdWait rounds) := by
  induction rounds with
  | zero => exact .bind (keeps_dq hI) fun _ ↦ .pure true
  | succ rounds ih =>
    refine .bind (keeps_dq hI) fun _ ↦ .ite (.pure false) (.bind ?_ fun _ ↦ ih)
    exact keeps_unseen hI (fun _ ↦ trivial) fun _ _ _ h ↦ h

/-- **`VS_HD_Reset`** raises both lines; where no command is being clocked it is disciplined. -/
theorem wp_hdReset {s : Pins} (h : s.xcs = true) :
    wp Pins.step Disciplined vsHdReset (fun _ t ↦ t.High) s := by
  rw [vsHdReset]
  refine wp_vs_bind trivial ?_
  rintro - t rfl
  refine wp_vs_bind trivial ?_
  rintro - t rfl
  refine wp_vs_bind trivial ?_
  rintro - t rfl
  refine wp_vs_bind (fun hlow ↦ absurd (h.symm.trans hlow) (by decide)) ?_
  rintro - t rfl
  refine wp_vs_bind trivial ?_
  rintro - t rfl
  have hrest : KeepsPins (Deselected true) (do
      let late ← hdWait 200
      vs (.delayMs 20)
      pure (if late then 1 else 0) : Vs UInt8) :=
    .bind (keeps_hdWait (ofLines_deselected true) 200) fun _ ↦
      .bind (keeps_delayMs 20) fun _ ↦ .pure _
  exact wp_mono (hrest _ ⟨rfl, fun _ ↦ rfl⟩) fun _ t ht ↦ ⟨ht.1, ht.2 rfl⟩

theorem keeps_cancelLoop (stack : ℕ → UInt8) :
    KeepsPins (Deselected both) (cancelLoop fuel stack) := by
  refine .loop keeps_outOfFuel (fun _ ↦ .ite ?_ (.pure _)) fuel 0
  refine .bind (keeps_sendMusicData fuel _) fun _ ↦ .ite ?_ (.pure _)
  exact .bind (keeps_rdReg fuel _) fun _ ↦ .pure _

theorem keeps_fillLoop (stack : ℕ → UInt8) (fill : UInt8) :
    KeepsPins (Deselected both) (fillLoop fuel stack fill) :=
  .loop keeps_outOfFuel
    (fun _ ↦ .ite (.bind (keeps_sendMusicData fuel _) fun _ ↦ .pure _) (.pure _)) fuel 0

theorem keeps_finishCancel (stack : ℕ → UInt8) (i : ℕ) :
    KeepsPins (Deselected true) (finishCancel fuel stack i) :=
  .ite (.bind (keeps_wramRead fuel _) fun _ ↦ keeps_fillLoop fuel stack _) (keeps_softReset fuel)

theorem keeps_hardReset : KeepsPins (Deselected true) (hardReset fuel) := by
  have hreset : KeepsPins (Deselected true) vsHdReset := fun s h ↦
    wp_mono (wp_hdReset h.1) fun _ _ ht ↦ ⟨ht.1, fun _ ↦ ht.2⟩
  exact .bind hreset fun _ ↦ keeps_softReset fuel

/-- **`VS_Restart_Play`** reads a register first, which raises `XDCS`. -/
theorem wp_restartPlay {s : Pins} (h : s.xcs = true) (stack : ℕ → UInt8) :
    wp Pins.step Disciplined (vsRestartPlay fuel stack) (fun _ t ↦ Deselected true t) s := by
  rw [vsRestartPlay, wp_bind]
  refine wp_mono (wp_rdReg fuel h _) fun temp t ht ↦ ?_
  have hrest : KeepsPins (Deselected true) (do
      vsWrCmd fuel spiMode (temp ||| 0x0008 ||| 0x0004)
      let i ← cancelLoop fuel stack
      finishCancel fuel stack i
      let hdat0 ← vsRdReg fuel spiHdat0
      let hdat1 ← vsRdReg fuel spiHdat1
      if hdat0 + hdat1 ≠ 0 then hardReset fuel else pure ()) := by
    refine .bind (keeps_wrCmd fuel _ _) fun _ ↦ .bind (keeps_cancelLoop fuel stack) fun i ↦ ?_
    refine .bind (keeps_finishCancel fuel stack i) fun _ ↦ .bind (keeps_rdReg fuel _) fun _ ↦ ?_
    exact .bind (keeps_rdReg fuel _) fun _ ↦ .ite (keeps_hardReset fuel) (.pure ())
  exact hrest t ht

/-! ### Sending by DMA -/

/-- A transfer selects the data port if it read `DREQ` high, and otherwise leaves the lines. -/
theorem wp_dmaTransfer {s : Pins} (h : s.xcs = true) (n : ℕ) :
    wp Pins.step Disciplined (dmaTransfer n)
      (fun _ t ↦ t.xcs = true ∧ t.xdcs = if t.dq then false else s.xdcs) s := by
  rw [dmaTransfer]
  refine wp_vs_bind trivial ?_
  rintro level t rfl
  cases level with
  | false => exact ⟨h, rfl⟩
  | true =>
    rw [if_pos rfl]
    refine wp_vs_bind h ?_
    rintro - t rfl
    rw [wp_vs]
    refine ⟨⟨h, rfl⟩, ?_⟩
    rintro - t rfl
    exact ⟨h, rfl⟩

/-- **A whole frame** is followed by a rise of `XDCS`. -/
theorem wp_dmaFrame {s : Pins} (h : s.xcs = true) (pbuff : ℕ → UInt8) (i : ℕ) :
    wp Pins.step Disciplined (dmaFrame pbuff i) (fun _ t ↦ Deselected true t) s := by
  rw [dmaFrame]
  refine wp_vs_bind trivial ?_
  rintro - t rfl
  rw [wp_bind]
  refine wp_mono (wp_dmaTransfer h _) fun _ u hu ↦ ?_
  refine wp_vs_bind trivial ?_
  rintro - v rfl
  rw [wp_vs]
  refine ⟨trivial, ?_⟩
  rintro - w rfl
  exact ⟨hu.1, fun _ ↦ rfl⟩

/-- **The last frame is not**: where `DREQ` read high the data port stays selected. -/
theorem wp_dmaLast {s : Pins} (h : s.xcs = true) (pbuff : ℕ → UInt8) (i n : ℕ) :
    wp Pins.step Disciplined (dmaLast pbuff i n)
      (fun _ t ↦ t.xcs = true ∧ t.xdcs = if t.dq then false else s.xdcs) s := by
  rw [dmaLast]
  refine wp_vs_bind trivial ?_
  rintro - t rfl
  rw [wp_bind]
  refine wp_mono (wp_dmaTransfer h n) fun _ u hu ↦ ?_
  rw [wp_vs]
  refine ⟨trivial, ?_⟩
  rintro - v rfl
  exact hu

/-- The index the whole frames leave is that of a last frame, if there is anything to send. -/
theorem wp_wholeFrames_lt {chunk : ℕ → Vs Unit} (h : ∀ i, KeepsPins (Deselected both) (chunk i))
    {len : ℤ} {s : Pins} (hs : Deselected both s) :
    wp Pins.step Disciplined (wholeFrames fuel chunk len)
      (fun i t ↦ Deselected both t ∧ (0 < len ↔ (i : ℤ) < len)) s := by
  have hstart : 0 < len ↔ ((0 : ℕ) : ℤ) < len := Iff.rfl
  rw [wholeFrames]
  refine wp_loop (J := fun (i : ℕ) s ↦ Deselected both s ∧ (0 < len ↔ (i : ℤ) < len))
    (fun _ _ _ ↦ wp_outOfFuel) (fun i s hJ ↦ ?_) ⟨hs, hstart⟩
  obtain ⟨hs, hi⟩ := hJ
  split
  · next hmore =>
    rw [wp_bind]
    refine wp_mono (h i s hs) fun _ t ht ↦ ⟨fun a ha ↦ ?_, fun b hb ↦ by cases hb⟩
    obtain rfl := Sum.inl.inj ha
    refine ⟨ht, ?_⟩
    have hframe : ((i + sendNumPerFrame : ℕ) : ℤ) = i + 160 := rfl
    have hless : (i : ℤ) < len - 160 := hmore
    omega
  · show (∀ a', Sum.inr i = Sum.inl a' → _) ∧ ∀ b, Sum.inr i = Sum.inr b → _
    refine ⟨fun a ha ↦ (by cases ha), fun b hb ↦ ?_⟩
    obtain rfl := Sum.inr.inj hb
    exact ⟨hs, hi⟩

/-- **`vs10xx_play_dma_send_data`** leaves the data port selected if there was anything to send and
`DREQ` read high at the last frame; otherwise it leaves both lines high if it found them so. -/
theorem wp_playDmaSendData {s : Pins} (hs : Deselected both s) (pbuff : ℕ → UInt8) (len : ℤ) :
    wp Pins.step Disciplined (vs10xxPlayDmaSendData fuel pbuff len)
      (fun _ t ↦ t.xcs = true ∧ (0 < len → t.dq = true → t.xdcs = false) ∧
        (¬ (0 < len ∧ t.dq = true) → Deselected both t)) s := by
  rw [vs10xxPlayDmaSendData, wp_bind]
  have hframes : ∀ i, KeepsPins (Deselected both) (dmaFrame pbuff i) := fun i s h ↦
    wp_mono (wp_dmaFrame h.1 pbuff i) fun _ _ ht ↦ ht.mono
  refine wp_mono (wp_wholeFrames_lt fuel hframes hs) ?_
  rintro i t ⟨ht, hi⟩
  split
  · next hlast =>
    refine wp_mono (wp_dmaLast ht.1 pbuff i _) ?_
    rintro _ u ⟨hxcs, hxdcs⟩
    refine ⟨hxcs, fun _ hdq ↦ ?_, fun hnot ↦ ?_⟩
    · rw [hxdcs, if_pos hdq]
    · have hdq : u.dq = false := by
        rcases hlevel : u.dq with - | -
        · rfl
        · exact absurd ⟨hi.2 hlast, hlevel⟩ hnot
      refine ⟨hxcs, fun hboth ↦ ?_⟩
      rw [hxdcs, hdq]
      exact ht.2 hboth
  · next hnone =>
    exact ⟨ht.1, fun hpos ↦ absurd (hi.1 hpos) hnone, fun _ ↦ ht⟩

end

/-! ### Runs -/

/-- The operations of the driver. -/
inductive VsCall
  | wrCmd (address : UInt8) (data : UInt16)
  | rdReg (address : UInt8)
  | wrData (data : UInt8)
  | sendMusicData (buf : ℕ → UInt8)
  | sendMusicData2 (buf : ℕ → UInt8) (len : ℤ)
  | wramRead (addr : UInt16)
  | wramWrite (addr val : UInt16)
  | loadPatch (patch : UInt16 → UInt16) (len : UInt16)
  | restartPlay (stack : ℕ → UInt8)
  | sendData (pbuff : ℕ → UInt8) (len : ℤ)
  | playDmaSendData (pbuff : ℕ → UInt8) (len : ℤ)

/-- A program whose result is dropped. -/
def dropResult {α : Type} (p : Vs α) : Vs Unit := do
  let _ ← p
  pure ()

/-- The program of an operation. -/
def VsCall.program (fuel : ℕ) : VsCall → Vs Unit
  | wrCmd address data => vsWrCmd fuel address data
  | rdReg address => dropResult (vsRdReg fuel address)
  | wrData data => vsWrData data
  | sendMusicData buf => dropResult (vsSendMusicData fuel buf)
  | sendMusicData2 buf len => dropResult (vsSendMusicData2 fuel buf len)
  | wramRead addr => dropResult (vsWramRead fuel addr)
  | wramWrite addr val => vsWramWrite fuel addr val
  | loadPatch patch len => vsLoadPatch fuel patch len
  | restartPlay stack => vsRestartPlay fuel stack
  | sendData pbuff len => vs10xxSendData fuel pbuff len
  | playDmaSendData pbuff len => vs10xxPlayDmaSendData fuel pbuff len

/-- An operation that sent something by DMA, and whose last reading of `DREQ`, the one at its last
frame, was high. It is told by the call and the state it returned in. -/
def LeavesSelected : VsCall × Pins → Prop
  | (.playDmaSendData _ len, t) => 0 < len ∧ t.dq = true
  | _ => False

/-- Operations one after the other, each with the state it returned in. -/
inductive VsRun (s : Pins) : List (VsCall × Pins) → Pins → Prop
  | start : VsRun s [] s
  | call {log : List (VsCall × Pins)} {t u : Pins} {c : VsCall} {fuel : ℕ}
      {tr : List (Event VsOp VsOp.Ans)} : VsRun s log t →
      Returns Pins.step (c.program fuel) t tr () u → VsRun s (log ++ [(c, u)]) u

/-- **Every operation** is disciplined where `XCS` is high. It returns with `XCS` high; with both
lines high if it found them so, unless it leaves the data port selected; and then `XDCS` is low. -/
theorem wp_program {both : Bool} {s : Pins} (h : Deselected both s) (c : VsCall) (fuel : ℕ) :
    wp Pins.step Disciplined (c.program fuel)
      (fun _ t ↦ t.xcs = true ∧ (LeavesSelected (c, t) → t.xdcs = false) ∧
        (¬ LeavesSelected (c, t) → Deselected both t)) s := by
  have hplain : ∀ {p : Vs Unit}, (∀ t, ¬ LeavesSelected (c, t)) → KeepsPins (Deselected both) p →
      wp Pins.step Disciplined p (fun _ t ↦ t.xcs = true ∧
        (LeavesSelected (c, t) → t.xdcs = false) ∧
        (¬ LeavesSelected (c, t) → Deselected both t)) s := fun hc hp ↦
    wp_mono (hp s h) fun _ t ht ↦ ⟨ht.1, fun hl ↦ absurd hl (hc t), fun _ ↦ ht⟩
  have hdrop : ∀ {α : Type} {p : Vs α}, KeepsPins (Deselected both) p →
      KeepsPins (Deselected both) (dropResult p) := fun hp ↦ .bind hp fun _ ↦ .pure ()
  cases c with
  | wrCmd address data => exact hplain (fun _ ↦ id) (keeps_wrCmd fuel _ _)
  | rdReg address => exact hplain (fun _ ↦ id) (hdrop (keeps_rdReg fuel _))
  | wrData data => exact hplain (fun _ ↦ id) (keeps_wrData _)
  | sendMusicData buf => exact hplain (fun _ ↦ id) (hdrop (keeps_sendMusicData fuel _))
  | sendMusicData2 buf len => exact hplain (fun _ ↦ id) (hdrop (keeps_sendMusicData2 fuel _ _))
  | wramRead addr => exact hplain (fun _ ↦ id) (hdrop (keeps_wramRead fuel _))
  | wramWrite addr val => exact hplain (fun _ ↦ id) (keeps_wramWrite fuel _ _)
  | loadPatch patch len => exact hplain (fun _ ↦ id) (keeps_loadPatch fuel _ _)
  | restartPlay stack =>
    exact hplain (fun _ ↦ id) fun t ht ↦
      wp_mono (wp_restartPlay fuel ht.1 stack) fun _ _ hu ↦ hu.mono
  | sendData pbuff len => exact hplain (fun _ ↦ id) (keeps_sendData fuel _ _)
  | playDmaSendData pbuff len =>
    refine wp_mono (wp_playDmaSendData fuel h pbuff len) ?_
    rintro _ t ⟨hxcs, hlow, hhigh⟩
    exact ⟨hxcs, fun hl ↦ hlow hl.1 hl.2, hhigh⟩

/-- Between operations `XCS` is high; and both lines are, if no operation left the data port
selected. -/
theorem deselected_run {s t : Pins} {log : List (VsCall × Pins)} (hs : s.High)
    (hrun : VsRun s log t) :
    t.xcs = true ∧ ((∀ e ∈ log, ¬ LeavesSelected e) → t.xdcs = true) := by
  induction hrun with
  | start => exact ⟨hs.1, fun _ ↦ hs.2⟩
  | @call log t u c fuel tr _ hcall ih =>
    have hxcs : Deselected false t := ⟨ih.1, fun hb ↦ by cases hb⟩
    refine ⟨(post_of_wp (wp_program hxcs c fuel) hcall).1, fun hnone ↦ ?_⟩
    have hboth : Deselected true t :=
      ⟨ih.1, fun _ ↦ ih.2 fun e he ↦ hnone e (List.mem_append_left _ he)⟩
    exact ((post_of_wp (wp_program hboth c fuel) hcall).2.2 (hnone _ (by simp))).2 rfl

/-- **The chip-select discipline.** In every run of operations from the state after `VS_HD_Reset`,
whatever `DREQ` and the registers read: wherever the next operation has got to, the two lines are
not both low, and the call about to be made is disciplined, so that commands are clocked as four
bytes in one window of `XCS` and data in a window of `XDCS`. And every operation of the run returned
with both lines high if and only if none of them was a `vs10xx_play_dma_send_data` that had
something to send and found `DREQ` high at its last frame. -/
theorem chip_select_iff {s t : Pins} {log : List (VsCall × Pins)} (hs : s.High)
    (hrun : VsRun s log t) :
    (∀ (c : VsCall) fuel tr q u, Steps Pins.step (c.program fuel) t tr q u →
      ¬ u.BothLow ∧ ∀ o k, q = .call o k → Disciplined u o) ∧
    ((∀ e ∈ log, e.2.High) ↔ ∀ e ∈ log, ¬ LeavesSelected e) := by
  constructor
  · intro c fuel tr q u hsteps
    have hxcs := (deselected_run hs hrun).1
    have hsel : Deselected false t := ⟨hxcs, fun hb ↦ by cases hb⟩
    have hwp := wp_program hsel c fuel
    refine ⟨inv_of_wp (I := fun u ↦ ¬ u.BothLow) hwp (fun hlow ↦ ?_)
      (fun _ _ _ _ hok h hst ↦ not_bothLow_step hok h hst) hsteps, ?_⟩
    · exact absurd (hxcs.symm.trans hlow.1) (by decide)
    · rintro o k rfl
      exact ok_of_wp hwp hsteps
  · induction hrun with
    | start => simp
    | @call log t u c fuel tr hbefore hcall ih =>
      have hxcs : Deselected false t := ⟨(deselected_run hs hbefore).1, fun hb ↦ by cases hb⟩
      have hpost := post_of_wp (wp_program hxcs c fuel) hcall
      rw [List.forall_mem_append, List.forall_mem_append, List.forall_mem_singleton,
        List.forall_mem_singleton, ih]
      refine and_congr_right fun hnone ↦ ⟨fun hhigh hl ↦ ?_, fun hl ↦ ?_⟩
      · have hlow := hpost.2.1 hl
        rw [hhigh.2] at hlow
        cases hlow
      · have hall := deselected_run hs (.call hbefore hcall)
        refine ⟨hall.1, hall.2 ?_⟩
        rw [List.forall_mem_append, List.forall_mem_singleton]
        exact ⟨hnone, hl⟩

/-- After `VS_HD_Reset`, with `DREQ` low. -/
def Pins.afterReset : Pins := ⟨true, true, 0, false⟩

/-- A byte sent. -/
theorem wrData_run :
    Returns Pins.step ((VsCall.wrData 7).program 0) .afterReset
      [⟨.speedHigh, ()⟩, ⟨.xdcs false, ()⟩, ⟨.readWriteByte .data 7, (0 : UInt8)⟩, ⟨.xdcs true, ()⟩]
      () .afterReset :=
  .call rfl (.call rfl (.call rfl (.call rfl (.refl _ _))))

/-- A byte by DMA that the codec is not ready for. -/
theorem playDmaSendData_run_not_ready :
    Returns Pins.step ((VsCall.playDmaSendData (fun _ ↦ 7) 1).program 1) .afterReset
      [⟨.fillDma [7], ()⟩, ⟨.dq, false⟩, ⟨.timeDly 2, ()⟩] () .afterReset :=
  .call rfl (.call rfl (.call rfl (.refl _ _)))

/-- A byte by DMA. -/
theorem playDmaSendData_run :
    Returns Pins.step ((VsCall.playDmaSendData (fun _ ↦ 7) 1).program 1) .afterReset
      [⟨.fillDma [7], ()⟩, ⟨.dq, true⟩, ⟨.xdcs false, ()⟩, ⟨.startDma 1, ()⟩, ⟨.timeDly 2, ()⟩] ()
      ⟨true, false, 0, true⟩ :=
  .call rfl (.call rfl (.call rfl (.call rfl (.call rfl (.refl _ _)))))

/-- The law at a run: a byte is sent, and a byte by DMA that the codec is not ready for. -/
theorem chip_select_iff_not_ready :
    let log : List (VsCall × Pins) :=
      [(.wrData 7, .afterReset), (.playDmaSendData (fun _ ↦ 7) 1, .afterReset)]
    (∀ (c : VsCall) fuel tr q u, Steps Pins.step (c.program fuel) .afterReset tr q u →
      ¬ u.BothLow ∧ ∀ o k, q = .call o k → Disciplined u o) ∧
    ((∀ e ∈ log, e.2.High) ↔ ∀ e ∈ log, ¬ LeavesSelected e) := by
  intro log
  have hrun : VsRun .afterReset log .afterReset :=
    .call (.call .start wrData_run) playDmaSendData_run_not_ready
  exact chip_select_iff ⟨rfl, rfl⟩ hrun

/-- **The last frame by DMA leaves the data port selected**: one byte is sent that the codec is
ready for, and the function returns with `XDCS` low. -/
theorem not_chip_select :
    ¬ ∀ log t, VsRun .afterReset log t → ∀ e ∈ log, e.2.High := by
  intro h
  have hhigh := h _ _ (.call .start playDmaSendData_run) _ (List.mem_singleton_self _)
  cases hhigh.2

end YHAudioLink
