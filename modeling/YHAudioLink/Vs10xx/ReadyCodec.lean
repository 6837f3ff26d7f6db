import YHAudioLink.Vs10xx.Codec

/-!
# A codec that is always ready

The waits of the driver have no limit, so whether a call returns is up to the codec. Here is one on
which every call returns: `DREQ` is always high, and a register reads as what a register file `regs`
holds. It is a machine with fewer steps than the codec of the laws, so what holds of every run there
holds here.

`VS_Restart_Play` ends on it (`ends_restartPlay`): each wait in one round, and each of the two loops
of frames because a frame is always taken and the counter goes up. What such a call has read is what
the registers hold (`ReadsRight.step`, which every call keeps). So there is a call for every
register file (`exists_restartPlay`).
-/

namespace YHAudioLink

open Programs

/-! ### The machine -/

/-- What a codec with the registers `regs` answers next, after the bytes of a command so far. -/
def regAnswer (regs : UInt8 → UInt16) (command : List (UInt8 × UInt8)) : UInt8 :=
  match command with
  | [_, (address, _)] => (regs address >>> 8).toUInt8
  | [_, (address, _), _] => (regs address).toUInt8
  | _ => 0

/-- The codec that answers so, and whose `DREQ` is always high. -/
def readyAnswers (regs : UInt8 → UInt16) (s : Codec) : Event VsOp VsOp.Ans → Prop
  | ⟨.dq, level⟩ => level = true
  | ⟨.readWriteByte _ _, answer⟩ => answer = regAnswer regs s.command
  | _ => True

def readyStep (regs : UInt8 → UInt16) (s : Codec) (e : Event VsOp VsOp.Ans) (t : Codec) : Prop :=
  readyAnswers regs s e ∧ t = s.next e

/-- The bound of a loop is not reached. -/
def NotOut (_ : Codec) (o : VsOp) : Prop := o ≠ .outOfFuel

/-- A call that is not the end of a run is answered. -/
theorem readyStep_total (regs : UInt8 → UInt16) (s : Codec) (o : VsOp) (ho : NotOut s o) :
    ∃ r t, readyStep regs s ⟨o, r⟩ t := by
  cases o with
  | dq => exact ⟨true, _, rfl, rfl⟩
  | readWriteByte use data => exact ⟨regAnswer regs s.command, _, rfl, rfl⟩
  | outOfFuel => exact absurd rfl ho
  | _ => exact ⟨(), _, trivial, rfl⟩

/-- The driver's programs that end on a codec that is always ready. -/
abbrev Ends {α : Type} (regs : UInt8 → UInt16) (p : Vs α) : Prop :=
  Keeps (readyStep regs) NotOut (fun _ ↦ True) p

/-! ### Programs that end -/

section

variable {regs : UInt8 → UInt16} {fuel : ℕ}

theorem ends_vs {o : VsOp} (ho : o ≠ .outOfFuel) : Ends regs (vs o) :=
  .perform (fun _ _ ↦ ho) fun _ _ _ _ _ ↦ trivial

theorem wp_ready_dq {Q : Bool → Codec → Prop} {s : Codec} (h : ∀ t, Q true t) :
    wp (readyStep regs) NotOut (vs .dq) Q s := by
  refine ⟨VsOp.noConfusion, ?_⟩
  rintro level t ⟨hlevel, -⟩
  obtain rfl : level = true := hlevel
  exact h t

theorem ends_waitDq (hfuel : 0 < fuel) : Ends regs (vsWaitDq fuel) := by
  refine .loop_of_measure (μ := fun _ ↦ 0) (fun _ s _ ↦ ?_) hfuel
  rw [wp_bind]
  exact wp_ready_dq fun _ ↦ ⟨trivial, fun _ h ↦ (by cases h)⟩

theorem ends_wrCmd (hfuel : 0 < fuel) (address : UInt8) (data : UInt16) :
    Ends regs (vsWrCmd fuel address data) :=
  .bind (ends_waitDq hfuel) fun _ ↦ .bind (ends_vs VsOp.noConfusion) fun _ ↦
    .bind (ends_vs VsOp.noConfusion) fun _ ↦ .bind (ends_vs VsOp.noConfusion) fun _ ↦
    .bind (ends_vs VsOp.noConfusion) fun _ ↦ .bind (ends_vs VsOp.noConfusion) fun _ ↦
    .bind (ends_vs VsOp.noConfusion) fun _ ↦ .bind (ends_vs VsOp.noConfusion) fun _ ↦
    .bind (ends_vs VsOp.noConfusion) fun _ ↦ ends_vs VsOp.noConfusion

theorem ends_rdReg (hfuel : 0 < fuel) (address : UInt8) : Ends regs (vsRdReg fuel address) :=
  .bind (ends_waitDq hfuel) fun _ ↦ .bind (ends_vs VsOp.noConfusion) fun _ ↦
    .bind (ends_vs VsOp.noConfusion) fun _ ↦ .bind (ends_vs VsOp.noConfusion) fun _ ↦
    .bind (ends_vs VsOp.noConfusion) fun _ ↦ .bind (ends_vs VsOp.noConfusion) fun _ ↦
    .bind (ends_vs VsOp.noConfusion) fun _ ↦ .bind (ends_vs VsOp.noConfusion) fun _ ↦
    .bind (ends_vs VsOp.noConfusion) fun _ ↦ .bind (ends_vs VsOp.noConfusion) fun _ ↦ .pure _

theorem ends_sendFrame (buf : ℕ → UInt8) (i n : ℕ) : Ends regs (sendFrame buf i n) := by
  induction n generalizing i with
  | zero => exact .pure ()
  | succ n ih => exact .bind (ends_vs VsOp.noConfusion) fun _ ↦ ih (i + 1)

/-- A frame is always taken. -/
theorem wp_ready_sendMusicData (hfuel : 0 < fuel) (buf : ℕ → UInt8) (s : Codec) :
    wp (readyStep regs) NotOut (vsSendMusicData fuel buf) (fun res _ ↦ res = 0) s := by
  rw [vsSendMusicData, wp_bind]
  refine wp_mono (ends_waitDq hfuel s trivial) fun _ t _ ↦ ?_
  rw [wp_bind]
  refine wp_ready_dq fun u ↦ ?_
  rw [if_pos rfl, wp_bind]
  refine wp_mono (ends_vs VsOp.noConfusion u trivial) fun _ v _ ↦ ?_
  rw [wp_bind]
  refine wp_mono (ends_sendFrame buf 0 sendNumPerFrame v trivial) fun _ w _ ↦ ?_
  rw [wp_bind]
  exact wp_mono (ends_vs VsOp.noConfusion w trivial) fun _ _ _ ↦ rfl

theorem ends_cancelLoop (hfuel : 2048 < fuel) (stack : ℕ → UInt8) :
    Ends regs (cancelLoop fuel stack) := by
  refine .loop_of_measure (μ := fun i ↦ 2048 - i) (fun i s _ ↦ ?_) hfuel
  split
  · next hlt =>
    rw [wp_bind]
    refine wp_mono (wp_ready_sendMusicData (by omega) _ s) ?_
    rintro _ t rfl
    rw [if_pos rfl, wp_bind]
    refine wp_mono (ends_rdReg (by omega) spiMode t trivial) fun temp u _ ↦ ?_
    refine ⟨trivial, fun i' h ↦ ?_⟩
    split at h
    · cases h
    · obtain rfl : i + 32 = i' := by injection h
      omega
  · exact ⟨trivial, fun _ h ↦ (by cases h)⟩

theorem ends_fillLoop (hfuel : 2052 < fuel) (stack : ℕ → UInt8) (fill : UInt8) :
    Ends regs (fillLoop fuel stack fill) := by
  refine .loop_of_measure (μ := fun i ↦ 2052 - i) (fun i s _ ↦ ?_) hfuel
  split
  · next hlt =>
    rw [wp_bind]
    refine wp_mono (wp_ready_sendMusicData (by omega) _ s) ?_
    rintro _ t rfl
    refine ⟨trivial, fun i' h ↦ ?_⟩
    obtain rfl : i + 32 = i' := by injection h
    omega
  · exact ⟨trivial, fun _ h ↦ (by cases h)⟩

theorem ends_setRegister (hfuel : 0 < fuel) (address : UInt8) (expect data : UInt16)
    {pause : Vs Unit} (hpause : Ends regs pause) (rounds : ℕ) :
    Ends regs (setRegister fuel address expect data pause rounds) := by
  have hattempt {next : Vs Unit} (hnext : Ends regs next) :
      Ends regs (setRegister.attempt fuel address expect data pause next) := by
    refine .bind (ends_rdReg hfuel address) fun _ ↦ .ite ?_ (.pure ())
    exact .bind (ends_wrCmd hfuel _ _) fun _ ↦ .bind hpause fun _ ↦ hnext
  induction rounds with
  | zero => exact hattempt (.pure ())
  | succ rounds ih => exact hattempt ih

theorem ends_softReset (hfuel : 0 < fuel) : Ends regs (vsSoftReset fuel) := by
  refine .bind (ends_waitDq hfuel) fun _ ↦ .bind (ends_vs VsOp.noConfusion) fun _ ↦ ?_
  refine .bind (ends_setRegister hfuel _ _ _ (ends_vs VsOp.noConfusion) _) fun _ ↦ ?_
  refine .bind (ends_waitDq hfuel) fun _ ↦ ?_
  exact .bind (ends_setRegister hfuel _ _ _ (.pure ()) _) fun _ ↦ ends_vs VsOp.noConfusion

theorem ends_hdWait (rounds : ℕ) : Ends regs (hdWait rounds) := by
  induction rounds with
  | zero => exact .bind (ends_vs VsOp.noConfusion) fun _ ↦ .pure true
  | succ rounds ih =>
    refine .bind (ends_vs VsOp.noConfusion) fun _ ↦ .ite (.pure false) ?_
    exact .bind (ends_vs VsOp.noConfusion) fun _ ↦ ih

theorem ends_hardReset (hfuel : 0 < fuel) : Ends regs (hardReset fuel) := by
  refine .bind ?_ fun _ ↦ ends_softReset hfuel
  refine .bind (ends_vs VsOp.noConfusion) fun _ ↦ .bind (ends_vs VsOp.noConfusion) fun _ ↦ ?_
  refine .bind (ends_vs VsOp.noConfusion) fun _ ↦ .bind (ends_vs VsOp.noConfusion) fun _ ↦ ?_
  refine .bind (ends_vs VsOp.noConfusion) fun _ ↦ .bind (ends_hdWait 200) fun _ ↦ ?_
  exact .bind (ends_vs VsOp.noConfusion) fun _ ↦ .pure _

/-- **`VS_Restart_Play` ends** on a codec that is always ready, whatever its registers hold. -/
theorem ends_restartPlay (hfuel : 2052 < fuel) (stack : ℕ → UInt8) :
    Ends regs (vsRestartPlay fuel stack) := by
  have hpos : 0 < fuel := by omega
  refine .bind (ends_rdReg hpos _) fun _ ↦ .bind (ends_wrCmd hpos _ _) fun _ ↦ ?_
  refine .bind (ends_cancelLoop (by omega) stack) fun i ↦
    .bind (.ite ?_ (ends_softReset hpos)) fun _ ↦ ?_
  · refine .bind ?_ fun _ ↦ ends_fillLoop hfuel stack _
    exact .bind (ends_wrCmd hpos _ _) fun _ ↦ ends_rdReg hpos _
  · refine .bind (ends_rdReg hpos _) fun _ ↦ .bind (ends_rdReg hpos _) fun _ ↦ ?_
    exact .ite (ends_hardReset hpos) (.pure ())

/-! ### What is read -/

/-- The bytes of a command so far have been answered out of the registers. -/
def Answered (regs : UInt8 → UInt16) (command : List (UInt8 × UInt8)) : Prop :=
  ∀ before x after, command = before ++ x :: after → x.2 = regAnswer regs before

/-- What has been read is what the registers hold. -/
structure ReadsRight (regs : UInt8 → UInt16) (s : Codec) : Prop where
  log : ∀ address value, .read address value ∈ s.log → value = regs address
  command : Answered regs s.command

theorem value_of_decode {command : List (UInt8 × UInt8)} (h : Answered regs command)
    {address : UInt8} {value : UInt16} (hmem : .read address value ∈ Codec.decode command) :
    value = regs address := by
  rcases command with _ | ⟨⟨op, a₀⟩, _ | ⟨⟨adr, a₁⟩, _ | ⟨hi, _ | ⟨lo, _ | ⟨extra, rest⟩⟩⟩⟩⟩
  case cons.cons.cons.cons.nil =>
    have hhi : hi.2 = (regs adr >>> 8).toUInt8 := h [(op, a₀), (adr, a₁)] hi [lo] rfl
    have hlo : lo.2 = (regs adr).toUInt8 := h [(op, a₀), (adr, a₁), hi] lo [] rfl
    rw [Codec.decode] at hmem
    split at hmem
    · cases List.mem_singleton.1 hmem
    · split at hmem
      · have heq := List.mem_singleton.1 hmem
        obtain ⟨rfl, rfl⟩ : address = adr ∧ value = joinBytes hi.2 lo.2 := by
          injection heq with haddress hvalue
          exact ⟨haddress, hvalue⟩
        rw [hhi, hlo, joinBytes_split]
      · exact absurd hmem List.not_mem_nil
  all_goals exact absurd hmem List.not_mem_nil

/-- **The next byte of a command** is answered out of the registers. -/
theorem Answered.snoc {command : List (UInt8 × UInt8)} (h : Answered regs command) (data : UInt8) :
    Answered regs (command ++ [(data, regAnswer regs command)]) := by
  intro before x after hcmd
  rcases List.eq_nil_or_concat after with rfl | ⟨after', y, rfl⟩
  · obtain ⟨rfl, hx⟩ := List.append_inj' hcmd rfl
    rw [← (List.cons.inj hx).1]
  · rw [List.concat_eq_append, ← List.cons_append, ← List.append_assoc] at hcmd
    exact h before x after' (List.append_inj' hcmd rfl).1

theorem not_register_of_closeFrame {frame : List UInt8} :
    ∀ e ∈ Codec.closeFrame frame, e.register? = none := by
  cases frame with
  | nil => exact fun _ he ↦ absurd he List.not_mem_nil
  | cons b bytes => exact List.forall_mem_singleton.2 rfl

/-- What is added to the log is no read of a register. -/
theorem ReadsRight.add {s t : Codec} {l : List CodecEvent} (h : ReadsRight regs s)
    (hlog : t.log = s.log ++ l) (hl : ∀ e ∈ l, e.register? = none) (hcmd : t.command = s.command) :
    ReadsRight regs t := by
  refine ⟨fun address value hmem ↦ ?_, hcmd ▸ h.command⟩
  rw [hlog] at hmem
  rcases List.mem_append.1 hmem with hmem | hmem
  · exact h.log address value hmem
  · cases hl _ hmem

/-- Nothing is added. -/
theorem ReadsRight.same {s t : Codec} (h : ReadsRight regs s) (hlog : t.log = s.log)
    (hcmd : t.command = s.command) : ReadsRight regs t :=
  h.add (hlog.trans (List.append_nil _).symm) (fun _ he ↦ absurd he List.not_mem_nil) hcmd

/-- **A byte** belongs to a command, if there is one. -/
theorem ReadsRight.byte {s : Codec} (h : ReadsRight regs s) (data : UInt8) :
    ReadsRight regs (s.byte data (regAnswer regs s.command)) := by
  have hlog : ∀ address value,
      .read address value ∈ (if s.xcs && s.xdcs then s.log ++ [.stray data] else s.log) →
        value = regs address := by
    intro address value hmem
    split at hmem
    · rcases List.mem_append.1 hmem with hmem | hmem
      · exact h.log address value hmem
      · cases List.mem_singleton.1 hmem
    · exact h.log address value hmem
  refine ⟨hlog, ?_⟩
  show Answered regs (if s.xcs then s.command else s.command ++ [(data, _)])
  split
  · exact h.command
  · exact h.command.snoc data

theorem ReadsRight.step {s t : Codec} {e : Event VsOp VsOp.Ans} (h : ReadsRight regs s)
    (hst : readyStep regs s e t) : ReadsRight regs t := by
  obtain ⟨o, r⟩ := e
  obtain ⟨hanswer, rfl⟩ := hst
  cases o with
  | rst stat => exact h.add rfl (List.forall_mem_singleton.2 rfl) rfl
  | xcs stat =>
    cases stat with
    | false => exact h.same rfl rfl
    | true =>
      -- the command is over: it is put into the log as a read of what was answered
      refine ⟨fun address value hmem ↦ ?_, fun before x after hnil ↦ ?_⟩
      · rcases List.mem_append.1 hmem with hmem | hmem
        · exact h.log address value hmem
        · exact value_of_decode h.command hmem
      · exact absurd hnil (by simp [Codec.next])
  | xdcs stat =>
    cases stat with
    | false => exact h.same rfl rfl
    | true => exact h.add rfl not_register_of_closeFrame rfl
  | readWriteByte use data =>
    obtain rfl : r = regAnswer regs s.command := hanswer
    exact h.byte data
  | dq => exact h.add rfl (List.forall_mem_singleton.2 rfl) rfl
  | startDma n =>
    show ReadsRight regs (if s.xdcs then s else _)
    split
    · exact h
    · exact h.add rfl (List.forall_mem_singleton.2 rfl) rfl
  | outOfFuel => exact r.elim
  | _ => exact h.same rfl rfl

theorem Codec.quiet_readsRight (regs : UInt8 → UInt16) : ReadsRight regs Codec.quiet :=
  ⟨fun _ _ h ↦ absurd h List.not_mem_nil, fun _ _ _ h ↦ absurd h (by simp [Codec.quiet])⟩

/-- **A call on a codec that is always ready**: it returns, and has read what the registers hold. -/
theorem exists_restartPlay (regs : UInt8 → UInt16) (stack : ℕ → UInt8) {s : Codec}
    (hs : ReadsRight regs s) :
    ∃ tr t, Returns Codec.step (vsRestartPlay 2053 stack) s tr () t ∧
      ∀ address value, .read address value ∈ t.log → value = regs address := by
  have hends : Ends regs (vsRestartPlay 2053 stack) := ends_restartPlay (by decide) stack
  obtain ⟨tr, a, t, hrun, -⟩ := exists_returns_of_wp (readyStep_total regs) (hends s trivial)
  have hright : ReadsRight regs t :=
    inv_of_wp (I := ReadsRight regs) (hends s trivial) hs (fun _ _ _ _ _ h hst ↦ h.step hst) hrun
  exact ⟨tr, t, hrun.mono fun _ _ _ h ↦ h.2, hright.log⟩

end

end YHAudioLink
