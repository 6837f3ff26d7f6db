import YHAudioLink.Vs10xx.Codec

/-!
# Frames at every moment

The laws of the driver's functions are about calls that return, and a call need not: its waits have
no limit. What is put out before that is a matter of every moment of a run. Here it is shown for
`VS_Restart_Play` that whatever frame has been put out, whether or not the call returns, has the 160
bytes `VS_Send_MusicData` always sends (`length_of_steps`).

Apart from that function nothing is clocked on the data port (`OffData`), so the law rests on one
demand: where `XDCS` is raised, no frame is open, or a whole one (`ClosesWhole`). It is met by every
operation a run is about to make (`wp_whole_restartPlay`), and it is all that the log needs.
-/

namespace YHAudioLink

open Programs

/-! ### The demand -/

/-- Where the data port is deselected, no frame is open, or a whole one; and no transfer is
started. -/
def ClosesWhole (s : Codec) (o : VsOp) : Prop :=
  (o = .xdcs true → s.frame = [] ∨ s.frame.length = sendNumPerFrame) ∧ ∀ n, o ≠ .startDma n

/-- No frame is open, and the data port is not selected. -/
def NoFrame (s : Codec) : Prop := s.frame = [] ∧ s.xdcs = true

/-- The programs that put out whole frames. -/
abbrev KeepsWhole {α : Type} (p : Vs α) : Prop := Keeps Codec.step ClosesWhole NoFrame p

/-- An operation the demand is not about. -/
theorem closesWhole_of_ne {s : Codec} {o : VsOp} (h : o ≠ .xdcs true) (h' : ∀ n, o ≠ .startDma n) :
    ClosesWhole s o :=
  ⟨fun ho ↦ absurd ho h, h'⟩

/-- An operation that meets the demand, and the program goes on from each of its outcomes. -/
theorem wp_whole_bind {α : Type} {o : VsOp} {f : VsOp.Ans o → Vs α} {Q : α → Codec → Prop}
    {s : Codec}
    (hok : ClosesWhole s o) (h : ∀ r, wp Codec.step ClosesWhole (f r) Q (s.next ⟨o, r⟩)) :
    wp Codec.step ClosesWhole (vs o >>= f) Q s := by
  rw [wp_bind]
  refine ⟨hok, ?_⟩
  rintro r t rfl
  exact h r

/-- A command adds no frame to the log. -/
theorem chunks_decode (command : List (UInt8 × UInt8)) : chunks (Codec.decode command) = [] := by
  rcases command with _ | ⟨a, _ | ⟨b, _ | ⟨c, _ | ⟨d, _ | ⟨e, rest⟩⟩⟩⟩⟩
  case cons.cons.cons.cons.nil =>
    rw [Codec.decode]
    split
    · rfl
    · split <;> rfl
  all_goals rfl

/-- **Whole frames stay all there is** in the log. -/
theorem whole_step {s t : Codec} {o : VsOp} {r : VsOp.Ans o} (hok : ClosesWhole s o)
    (hs : ∀ c ∈ chunks s.log, c.length = sendNumPerFrame) (hst : Codec.step s ⟨o, r⟩ t) :
    ∀ c ∈ chunks t.log, c.length = sendNumPerFrame := by
  have hadd {l l' : List CodecEvent} (hl : ∀ c ∈ chunks l, c.length = sendNumPerFrame)
      (hnone : chunks l' = []) : ∀ c ∈ chunks (l ++ l'), c.length = sendNumPerFrame := by
    rw [chunks_append, hnone, List.append_nil]
    exact hl
  obtain rfl : t = s.next ⟨o, r⟩ := hst
  cases o with
  | rst stat => exact hadd hs rfl
  | xcs stat =>
    cases stat with
    | false => exact hs
    | true => exact hadd hs (chunks_decode _)
  | xdcs stat =>
    cases stat with
    | false => exact hs
    | true =>
      show ∀ c ∈ chunks (s.log ++ Codec.closeFrame s.frame), c.length = sendNumPerFrame
      rcases hframe : s.frame with - | ⟨b, bytes⟩
      · exact hadd hs rfl
      · have hlength := (hok.1 rfl).resolve_left (by rw [hframe]; exact List.cons_ne_nil _ _)
        rw [hframe] at hlength
        rw [chunks_append]
        exact List.forall_mem_append.2 ⟨hs, List.forall_mem_singleton.2 hlength⟩
  | readWriteByte use data =>
    show ∀ c ∈ chunks (if s.xcs && s.xdcs then s.log ++ [.stray data] else s.log),
      c.length = sendNumPerFrame
    split
    · exact hadd hs rfl
    · exact hs
  | dq => exact hadd hs rfl
  | startDma n => exact absurd rfl (hok.2 n)
  | outOfFuel => exact r.elim
  | _ => exact hs

/-! ### Programs that do not use the data port -/

/-- The operation neither selects the data port nor starts a transfer to it. -/
def sparesData : VsOp → Bool
  | .xdcs false | .startDma _ => false
  | _ => true

/-- The programs of such operations. -/
abbrev OffData {α : Type} (p : Vs α) : Prop := Only (fun o ↦ sparesData o = true) p

/-- **With the data port deselected**, what does not use it leaves it so. -/
theorem keepsWhole_of_offData {α : Type} {p : Vs α} (h : OffData p) : KeepsWhole p := by
  refine h.keeps (fun o s ho hs ↦ ⟨fun _ ↦ .inl hs.1, ?_⟩) ?_
  · rintro n rfl
    cases ho
  · rintro o s r _ ho hs rfl
    cases o with
    | xcs stat => cases stat <;> exact hs
    | xdcs stat =>
      cases stat with
      | false => cases ho
      | true => exact ⟨rfl, rfl⟩
    | readWriteByte use data => exact ⟨(if_pos hs.2).trans hs.1, hs.2⟩
    | startDma n => cases ho
    | outOfFuel => exact r.elim
    | _ => exact hs

section

variable (fuel : ℕ)

theorem offData_vs {o : VsOp} (h : sparesData o = true) : OffData (vs o) := .perform h

theorem offData_outOfFuel {α : Type} : OffData (outOfFuel : Vs α) := fun _ _ ↦ ⟨rfl, fun e ↦ e.elim⟩

theorem offData_waitDq : OffData (vsWaitDq fuel) :=
  .loop offData_outOfFuel (fun _ ↦ .bind (offData_vs rfl) fun _ ↦ .pure _) fuel ()

theorem offData_wrCmd (address : UInt8) (data : UInt16) : OffData (vsWrCmd fuel address data) := by
  refine .bind (offData_waitDq fuel) fun _ ↦ .bind (offData_vs rfl) fun _ ↦ ?_
  refine .bind (offData_vs rfl) fun _ ↦ .bind (offData_vs rfl) fun _ ↦
    .bind (offData_vs rfl) fun _ ↦ ?_
  refine .bind (offData_vs rfl) fun _ ↦ .bind (offData_vs rfl) fun _ ↦
    .bind (offData_vs rfl) fun _ ↦ ?_
  exact .bind (offData_vs rfl) fun _ ↦ offData_vs rfl

/-- What `VS_RD_Reg` does once it has deselected the data port. -/
theorem offData_readTail (address : UInt8) : OffData (do
    vs (.xcs false)
    let _ ← vs (.readWriteByte .command vsReadCommand)
    let _ ← vs (.readWriteByte .command address)
    let hi : UInt8 ← vs (.readWriteByte .command 0xff)
    let lo : UInt8 ← vs (.readWriteByte .command 0xff)
    vs (.xcs true)
    vs .speedHigh
    pure (hi.toUInt16 <<< 8 + lo.toUInt16) : Vs UInt16) := by
  refine .bind (offData_vs rfl) fun _ ↦ .bind (offData_vs rfl) fun _ ↦
    .bind (offData_vs rfl) fun _ ↦ ?_
  refine .bind (offData_vs rfl) fun _ ↦ .bind (offData_vs rfl) fun _ ↦
    .bind (offData_vs rfl) fun _ ↦ ?_
  exact .bind (offData_vs rfl) fun _ ↦ .pure _

theorem offData_rdReg (address : UInt8) : OffData (vsRdReg fuel address) :=
  .bind (offData_waitDq fuel) fun _ ↦ .bind (offData_vs rfl) fun _ ↦ .bind (offData_vs rfl) fun _ ↦
    offData_readTail address

theorem offData_setRegister (address : UInt8) (expect data : UInt16) {pause : Vs Unit}
    (hpause : OffData pause) (rounds : ℕ) :
    OffData (setRegister fuel address expect data pause rounds) := by
  have hattempt {next : Vs Unit} (hnext : OffData next) :
      OffData (setRegister.attempt fuel address expect data pause next) := by
    refine .bind (offData_rdReg fuel address) fun _ ↦ .ite ?_ (.pure ())
    exact .bind (offData_wrCmd fuel address data) fun _ ↦ .bind hpause fun _ ↦ hnext
  induction rounds with
  | zero => exact hattempt (.pure ())
  | succ rounds ih => exact hattempt ih

theorem offData_softReset : OffData (vsSoftReset fuel) := by
  refine .bind (offData_waitDq fuel) fun _ ↦ .bind (offData_vs rfl) fun _ ↦ ?_
  refine .bind (offData_setRegister fuel _ _ _ (offData_vs rfl) _) fun _ ↦ ?_
  refine .bind (offData_waitDq fuel) fun _ ↦ ?_
  exact .bind (offData_setRegister fuel _ _ _ (.pure ()) _) fun _ ↦ offData_vs rfl

theorem offData_hdWait (rounds : ℕ) : OffData (hdWait rounds) := by
  induction rounds with
  | zero => exact .bind (offData_vs rfl) fun _ ↦ .pure true
  | succ rounds ih =>
    exact .bind (offData_vs rfl) fun _ ↦ .ite (.pure false) (.bind (offData_vs rfl) fun _ ↦ ih)

theorem offData_hardReset : OffData (hardReset fuel) := by
  refine .bind ?_ fun _ ↦ offData_softReset fuel
  refine .bind (offData_vs rfl) fun _ ↦ .bind (offData_vs rfl) fun _ ↦
    .bind (offData_vs rfl) fun _ ↦ ?_
  refine .bind (offData_vs rfl) fun _ ↦ .bind (offData_vs rfl) fun _ ↦ ?_
  exact .bind (offData_hdWait 200) fun _ ↦ .bind (offData_vs rfl) fun _ ↦ .pure _

/-! ### `VS_Restart_Play` -/

/-- The bytes of a frame, one after the other. -/
theorem wp_whole_sendFrame (buf : ℕ → UInt8) (i n : ℕ) {s : Codec} (hs : s.xdcs = false) :
    wp Codec.step ClosesWhole (sendFrame buf i n)
      (fun _ t ↦ t.frame.length = s.frame.length + n) s := by
  induction n generalizing i s with
  | zero => rfl
  | succ n ih =>
    refine wp_whole_bind (closesWhole_of_ne (by simp) (by simp)) fun r ↦ ?_
    have hframe : (s.byte (buf i) r).frame = s.frame ++ [buf i] := if_neg (by rw [hs]; decide)
    refine wp_mono (ih (s := s.byte (buf i) r) (i + 1) hs) fun _ t ht ↦ ?_
    rw [ht, hframe, List.length_append, List.length_singleton]
    omega

/-- **`VS_Send_MusicData`** closes the frame it has opened. -/
theorem keepsWhole_sendMusicData (buf : ℕ → UInt8) : KeepsWhole (vsSendMusicData fuel buf) := by
  refine .bind (keepsWhole_of_offData (offData_waitDq fuel)) fun _ ↦ ?_
  refine .bind (keepsWhole_of_offData (offData_vs rfl)) fun _ ↦ .ite ?_ (.pure 1)
  refine fun s hs ↦ wp_whole_bind (closesWhole_of_ne (by simp) (by simp)) fun _ ↦ ?_
  rw [wp_bind]
  have hopen := wp_whole_sendFrame buf 0 sendNumPerFrame (s := s.next ⟨.xdcs false, ()⟩) rfl
  refine wp_mono hopen fun _ t ht ↦ ?_
  have hlength : t.frame.length = sendNumPerFrame := by
    have hempty : (s.next ⟨.xdcs false, ()⟩).frame = [] := hs.1
    rw [ht, hempty, List.length_nil, Nat.zero_add]
  exact wp_whole_bind ⟨fun _ ↦ .inr hlength, by simp⟩ fun _ ↦ ⟨rfl, rfl⟩

theorem keepsWhole_cancelLoop (stack : ℕ → UInt8) : KeepsWhole (cancelLoop fuel stack) := by
  refine .loop (keepsWhole_of_offData offData_outOfFuel) (fun i ↦ .ite ?_ (.pure _)) fuel 0
  refine .bind (keepsWhole_sendMusicData fuel _) fun _ ↦ .ite ?_ (.pure _)
  exact .bind (keepsWhole_of_offData (offData_rdReg fuel _)) fun _ ↦ .pure _

theorem keepsWhole_finishCancel (stack : ℕ → UInt8) (i : ℕ) :
    KeepsWhole (finishCancel fuel stack i) := by
  refine .ite ?_ (keepsWhole_of_offData (offData_softReset fuel))
  refine .bind ?_ fun _ ↦ ?_
  · exact .bind (keepsWhole_of_offData (offData_wrCmd fuel _ _)) fun _ ↦
      keepsWhole_of_offData (offData_rdReg fuel _)
  · refine .loop (keepsWhole_of_offData offData_outOfFuel) (fun i ↦ .ite ?_ (.pure _)) fuel 0
    exact .bind (keepsWhole_sendMusicData fuel _) fun _ ↦ .pure _

/-- **The first read** deselects the data port, whatever it was before. -/
theorem wp_whole_rdReg {s : Codec} (hs : s.frame = []) (address : UInt8) :
    wp Codec.step ClosesWhole (vsRdReg fuel address) (fun _ t ↦ NoFrame t) s := by
  have hwait : Keeps Codec.step ClosesWhole (fun t ↦ t.frame = []) (vsWaitDq fuel) := by
    have hout : Keeps Codec.step ClosesWhole (fun t ↦ t.frame = []) (outOfFuel : Vs Unit) :=
      fun _ _ ↦ ⟨closesWhole_of_ne (by simp) (by simp), fun e ↦ e.elim⟩
    refine .loop hout (fun _ ↦ .bind (.perform ?_ ?_) fun _ ↦ .pure _) fuel ()
    · exact fun _ _ ↦ closesWhole_of_ne (by simp) (by simp)
    · rintro t r _ ht rfl
      exact ht
  rw [vsRdReg, wp_bind]
  refine wp_mono (hwait s hs) fun _ t ht ↦ ?_
  refine wp_whole_bind (closesWhole_of_ne (by simp) (by simp)) fun _ ↦ ?_
  refine wp_whole_bind ⟨fun _ ↦ .inl ht, by simp⟩ fun _ ↦ ?_
  exact keepsWhole_of_offData (offData_readTail address) _ ⟨rfl, rfl⟩

theorem wp_whole_restartPlay (stack : ℕ → UInt8) {s : Codec} (hs : s.frame = []) :
    wp Codec.step ClosesWhole (vsRestartPlay fuel stack) (fun _ t ↦ NoFrame t) s := by
  rw [vsRestartPlay, wp_bind]
  refine wp_mono (wp_whole_rdReg fuel hs spiMode) fun temp t ht ↦ ?_
  have hrest : KeepsWhole (do
      vsWrCmd fuel spiMode (temp ||| 0x0008 ||| 0x0004)
      let i ← cancelLoop fuel stack
      finishCancel fuel stack i
      let hdat0 ← vsRdReg fuel spiHdat0
      let hdat1 ← vsRdReg fuel spiHdat1
      if hdat0 + hdat1 ≠ 0 then hardReset fuel else pure ()) := by
    refine .bind (keepsWhole_of_offData (offData_wrCmd fuel _ _)) fun _ ↦ ?_
    refine .bind (keepsWhole_cancelLoop fuel stack) fun i ↦ ?_
    refine .bind (keepsWhole_finishCancel fuel stack i) fun _ ↦ ?_
    refine .bind (keepsWhole_of_offData (offData_rdReg fuel _)) fun _ ↦ ?_
    refine .bind (keepsWhole_of_offData (offData_rdReg fuel _)) fun _ ↦ ?_
    exact .ite (keepsWhole_of_offData (offData_hardReset fuel)) (.pure ())
  exact hrest t ht

/-- **At every moment of a call**, whether or not it returns, every frame put out has 160 bytes. -/
theorem length_of_steps {stack : ℕ → UInt8} {s t : Codec} {q : Vs Unit}
    {tr : List (Event VsOp VsOp.Ans)} (hs : s.frame = []) (hlog : s.log = [])
    (hrun : Steps Codec.step (vsRestartPlay fuel stack) s tr q t) :
    ∀ c ∈ chunks t.log, c.length = sendNumPerFrame := by
  refine inv_of_wp (I := fun t ↦ ∀ c ∈ chunks t.log, c.length = sendNumPerFrame)
    (wp_whole_restartPlay fuel stack hs) ?_ (fun _ _ _ _ hok hI hst ↦ whole_step hok hI hst) hrun
  rw [hlog]
  exact fun c hc ↦ absurd hc List.not_mem_nil

end

end YHAudioLink
