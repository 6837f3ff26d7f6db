import YHAudioLink.Enc28j60.Reinit
import YHAudioLink.Netif.Ethernetif
import YHAudioLink.Netif.SysArch

/-!
# Frames that are not sent

`low_level_output` copies a chain into `s_lwip_buf`, has `ENC28J60_Packet_Send` send the array, and
returns. Below it a frame may be dropped: where the lock is refused, and where the transmitter is
found at work in each of the first 200 rounds of a loop. But `ENC28J60_Packet_Send` returns nothing,
and `low_level_output` returns `ERR_OK` whatever has happened, so the stack is told of no failure
(`sendReported_iff`): a call reports rightly exactly if its frame is sent.

Whether it is sent is a law about the events of a run on any machine: it is decided by what the
controller reports (`traces_packetSend`). In the glue, where a call of the driver is one step, this
is the step's label (`transmit_refines`), and the array handed over is the one the glue's own steps
gather (`exec_gather`).
-/

namespace YHAudioLink

open ByteStore Programs

/-! ### The function -/

/-- The loop of `low_level_output`: the payloads one behind the other, from `send_len` on. -/
def gatherPayloads : (ℕ → UInt8) → ℕ → List (List UInt8) → (ℕ → UInt8) × ℕ
  | buf, sendLen, [] => (buf, sendLen)
  | buf, sendLen, q :: rest => gatherPayloads (store buf sendLen q) (sendLen + q.length) rest

/-- `low_level_output`, for an `ETH_PAD_SIZE` of 0. -/
def lowLevelOutputCall (sLwipBuf : ℕ → UInt8) (p : PbufChain) : Driver ℤ := do
  let gathered := gatherPayloads sLwipBuf 0 p.payloads
  enc28j60PacketSend (UInt32.ofNat gathered.2) gathered.1
  pure errOk

/-! ### What is asked -/

/-- The frame is written into the transmit buffer, and `TXRTS` is set after that. -/
def Transmitted (frame : List UInt8) (tr : List (Event DrvOp DrvOp.Ans)) : Prop :=
  List.Sublist [⟨.writeBuf frame, ()⟩, ⟨.writeOp .bitFieldSet Reg.econ1 0x08, ()⟩] tr

/-- **Send errors are reported**: a call returns `ERR_OK` if its frame is sent, and only then. -/
def SendReported (p : PbufChain) (ret : ℤ) (tr : List (Event DrvOp DrvOp.Ans)) : Prop :=
  ret = errOk ↔ Transmitted p.payloads.flatten tr

/-- In one of so many rounds of status reads the transmitter is found free. -/
def foundFree : ℕ → List Reading → Bool
  | 0, _ => false
  | rounds + 1, rs =>
    match rs with
    | .reg _ _ :: .reg _ estat :: .reg _ econ1 :: rest =>
      if transmitting econ1 || decide (estat &&& 0x02 ≠ 0) then foundFree rounds rest else true
    | _ => false

/-- The lock is granted, and the transmitter is found free in the first 200 rounds. -/
def transmitterGranted : List Reading → Bool
  | .pend err :: rs => decide (err = osErrNone) && foundFree 200 rs
  | _ => false

/-! ### The array -/

/-- What has been gathered follows what the array held up to `send_len`. -/
theorem load_gatherPayloads (buf : ℕ → UInt8) (sendLen : ℕ) (ps : List (List UInt8)) :
    (gatherPayloads buf sendLen ps).2 = sendLen + ps.flatten.length ∧
      load (gatherPayloads buf sendLen ps).1 0 (sendLen + ps.flatten.length) =
        load buf 0 sendLen ++ ps.flatten := by
  induction ps generalizing buf sendLen with
  | nil => exact ⟨rfl, (List.append_nil _).symm⟩
  | cons q ps ih =>
    obtain ⟨hlen, hload⟩ := ih (store buf sendLen q) (sendLen + q.length)
    have hfirst := load_store_append buf 0 sendLen q
    rw [Nat.zero_add] at hfirst
    rw [hfirst] at hload
    rw [List.flatten_cons, List.length_append, ← Nat.add_assoc]
    exact ⟨hlen, hload.trans (List.append_assoc _ _ _)⟩

/-- **The driver is handed the chain.** -/
theorem load_gathered (sLwipBuf : ℕ → UInt8) (p : PbufChain) :
    load (gatherPayloads sLwipBuf 0 p.payloads).1 0
      (UInt32.ofNat (gatherPayloads sLwipBuf 0 p.payloads).2).toNat = p.payloads.flatten := by
  obtain ⟨hlen, hload⟩ := load_gatherPayloads sLwipBuf 0 p.payloads
  have hle := p.length_le
  have htoNat : (UInt32.ofNat (gatherPayloads sLwipBuf 0 p.payloads).2).toNat =
      0 + p.payloads.flatten.length := by
    have hlt : 0 + p.payloads.flatten.length < 2 ^ 32 := by
      have hsize : lwipBufSize < 2 ^ 32 := by decide
      omega
    rw [hlen, UInt32.toNat_ofNat_of_lt' hlt]
  rw [htoNat, hload]
  rfl

/-- The steps of the glue gather the same array. -/
theorem exec_gather {s : Ethernetif} {p : PbufChain} {rest : List (List UInt8)} {sendLen : ℕ}
    (hpc : s.output = .gather p rest sendLen) :
    Runs.exec Ethernetif.step s (List.replicate rest.length .gather) = some { s with
      buf := (gatherPayloads s.buf sendLen rest).1
      output := .gather p [] (gatherPayloads s.buf sendLen rest).2 } := by
  induction rest generalizing s sendLen with
  | nil =>
    obtain ⟨buf, lock, output, input, trace⟩ := s
    obtain rfl : output = .gather p [] sendLen := hpc
    rfl
  | cons q rest ih =>
    have hstep : s.step .gather = some { s with
        buf := store s.buf sendLen q, output := .gather p rest (sendLen + q.length) } := by
      simp only [Ethernetif.step, lowLevelOutput, hpc, Option.some_or]
    exact Runs.exec_cons_eq_some.2 ⟨_, hstep, ih rfl⟩

/-! ### Events without a frame -/

section Events

variable {α β : Type} {frame : List UInt8} {l l' : List (Event DrvOp DrvOp.Ans)}

/-- No operation writes a frame. -/
def Frameless (o : DrvOp) : Prop := ∀ data, o ≠ .writeBuf data

theorem not_transmitted (h : ∀ e ∈ l, Frameless e.1) : ¬ Transmitted frame l := by
  intro hsub
  exact h _ (hsub.subset List.mem_cons_self) frame rfl

theorem Transmitted.behind (h : Transmitted frame l') : Transmitted frame (l ++ l') :=
  h.trans (List.sublist_append_right l l')

theorem Transmitted.ahead (h : Transmitted frame l) : Transmitted frame (l ++ l') :=
  h.trans (List.sublist_append_left l l')

/-- What comes first does not matter where the frame is sent behind it. -/
theorem traces_behind {p : Driver α} {f : α → Driver β}
    (h : ∀ a, Traces (f a) fun _ l ↦ Transmitted frame l) :
    Traces (p >>= f) fun _ l ↦ Transmitted frame l :=
  .bind (Traces.any p) fun a _ _ ↦ (h a).mono fun _ _ hl ↦ hl.behind

end Events

/-! ### The wait -/

theorem frameless_read (addr : UInt8) : Only Frameless (enc28j60Read addr) := by
  refine .bind ((bankOp_setBank addr).mono ?_) fun _ ↦ Only.perform fun _ h ↦ (by cases h)
  rintro _ ho data rfl
  exact ho

theorem frameless_sendWait (rounds : ℕ) : Only Frameless (sendWait rounds) := by
  have hwrite (op : Opcode) (addr data : UInt8) : Only Frameless (enc28j60WriteOp op addr data) :=
    Only.perform fun _ h ↦ (by cases h)
  have hpoll : Only Frameless sendWait.sendPoll := by
    refine .bind (frameless_read _) fun _ ↦ .bind (frameless_read _) fun _ ↦ ?_
    refine .bind (frameless_read _) fun _ ↦ .bind (.ite ?_ (.pure ())) fun _ ↦ .pure _
    exact .bind (hwrite _ _ _) fun _ ↦ hwrite _ _ _
  induction rounds with
  | zero => exact .bind hpoll fun _ ↦ .pure _
  | succ rounds ih => exact .bind hpoll fun _ ↦ .ite ih (.pure _)

/-- Clearing an aborted transmission tells nothing. -/
theorem traces_clearAbort (estat : UInt8) :
    Traces (sendWait.clearAbort estat) fun _ l ↦ Says [] l := by
  rw [sendWait.clearAbort]
  split
  · refine .bind (traces_drv (by simp)) fun _ _ hl ↦ ?_
    exact (traces_drv (by simp)).mono fun _ _ hl' ↦ hl.append hl'
  · exact .pure Says.nil

/-- **One round** reads three registers, and goes on waiting by the last two. -/
theorem traces_sendPoll : Traces sendWait.sendPoll fun busy l ↦ ∃ eir estat econ1,
    readings l = [.reg Reg.eir eir, .reg Reg.estat estat, .reg Reg.econ1 econ1] ∧
      busy = (transmitting econ1 || decide (estat &&& 0x02 ≠ 0)) := by
  refine .bind (traces_read _) fun eir _ h ↦ .bind (traces_read _) fun estat _ h' ↦ ?_
  refine .bind (traces_read _) fun econ1 _ h'' ↦ .bind (traces_clearAbort _) fun _ _ hclear ↦ ?_
  refine .pure ⟨eir, estat, econ1, ?_, rfl⟩
  exact (h.append (h'.append (h''.append (hclear.append Says.nil)))).1

/-- **The wait ends well** exactly if the readings find the transmitter free in time. -/
theorem traces_sendWait (rounds : ℕ) :
    Traces (sendWait rounds) fun free l ↦ ∀ rest, foundFree rounds (readings l ++ rest) = free := by
  induction rounds with
  | zero => exact .bind traces_sendPoll fun _ _ _ ↦ .pure fun _ ↦ rfl
  | succ rounds ih =>
    refine .bind traces_sendPoll ?_
    rintro busy l ⟨eir, estat, econ1, hread, rfl⟩
    have hround : ∀ rs, foundFree (rounds + 1) (readings l ++ rs) =
        if transmitting econ1 || decide (estat &&& 0x02 ≠ 0) then foundFree rounds rs
        else true := by
      intro rs
      rw [hread]
      rfl
    split
    · next hbusy =>
      refine ih.mono fun free l' hl' rest ↦ ?_
      rw [readings_append, List.append_assoc, hround, if_pos hbusy]
      exact hl' rest
    · next hfree =>
      refine .pure fun rest ↦ ?_
      rw [List.append_nil, hround, if_neg hfree]

/-! ### The call -/

section Call

variable {len : UInt32} {packet : ℕ → UInt8}

/-- **A transmission** writes the frame and sets `TXRTS`. -/
theorem traces_transmit (len : UInt32) (packet : ℕ → UInt8) :
    Traces (transmit len packet) fun _ l ↦ Transmitted (load packet 0 len.toNat) l := by
  refine traces_behind fun _ ↦ traces_behind fun _ ↦ traces_behind fun _ ↦ traces_behind fun _ ↦ ?_
  refine traces_behind fun _ ↦ traces_behind fun _ ↦ traces_behind fun _ ↦ traces_behind fun _ ↦ ?_
  refine .bind (Traces.perform _) fun _ l hl ↦ .bind (Traces.perform _) fun _ l' hl' ↦ ?_
  refine (Traces.any _).mono fun _ l'' _ ↦ ?_
  rw [hl, hl']
  exact ((List.nil_sublist l'').cons_cons _).cons_cons _

/-- Under the lock, the frame is sent if the transmitter is found free in time. -/
theorem traces_sendLocked (len : UInt32) (packet : ℕ → UInt8) :
    Traces (sendLocked len packet) fun _ l ↦ ∃ free,
      (∀ rest, foundFree 200 (readings l ++ rest) = free) ∧
      (free = true → Transmitted (load packet 0 len.toNat) l) ∧
      (free = false → ∀ e ∈ l, Frameless e.1) := by
  refine .bind ((traces_sendWait 200).and (Traces.of_only (frameless_sendWait 200))) ?_
  rintro free l ⟨hfree, hquiet⟩
  split
  · next hsend =>
    refine (traces_transmit len packet).mono fun _ l' hl' ↦
      ⟨free, fun rest ↦ ?_, fun _ ↦ hl'.behind, ?_⟩
    · rw [readings_append, List.append_assoc]
      exact hfree _
    · exact fun hno ↦ absurd hsend (by rw [hno]; exact Bool.false_ne_true)
  · next hdrop =>
    refine .pure ⟨free, ?_, fun hyes ↦ absurd hyes hdrop, fun _ ↦ ?_⟩
    · rwa [List.append_nil]
    · rwa [List.append_nil]

/-- **What decides whether a frame is sent** is what the controller reports. -/
theorem traces_packetSend (len : UInt32) (packet : ℕ → UInt8) :
    Traces (enc28j60PacketSend len packet) fun _ l ↦
      (Transmitted (load packet 0 len.toNat) l ↔ transmitterGranted (readings l) = true) := by
  refine .bind (Traces.perform DrvOp.pend) ?_
  rintro (err : UInt8) _ rfl
  have hpend : ∀ l, transmitterGranted (readings ([⟨.pend, err⟩] ++ l)) =
      (decide (err = osErrNone) && foundFree 200 (readings l)) := fun l ↦ rfl
  split
  · next herr =>
    refine .bind (traces_sendLocked len packet) ?_
    rintro _ l ⟨free, hfree, hsent, hdropped⟩
    refine (Traces.perform DrvOp.post).mono ?_
    rintro _ _ rfl
    rw [hpend, decide_eq_true herr, Bool.true_and, readings_append, hfree]
    cases free with
    | true => exact iff_of_true ((hsent rfl).ahead.behind) rfl
    | false =>
      refine iff_of_false (not_transmitted ?_) Bool.false_ne_true
      intro e he
      simp only [List.mem_append, List.mem_singleton] at he
      rcases he with rfl | he | rfl
      · exact fun _ h ↦ (by cases h)
      · exact hdropped rfl e he
      · exact fun _ h ↦ (by cases h)
  · next herr =>
    refine .pure (iff_of_false (not_transmitted ?_) ?_)
    · intro e he
      rw [List.append_nil, List.mem_singleton] at he
      rw [he]
      exact fun _ h ↦ (by cases h)
    · rw [hpend, decide_eq_false herr, Bool.false_and]
      exact Bool.false_ne_true

/-- **A call of the driver is a step of the glue**, whose label says whether the frame is sent. -/
theorem transmit_refines {tr : List (Event DrvOp DrvOp.Ans)} {s : Ethernetif} {p : PbufChain}
    {sendLen : ℕ} (h : Returns anyAnswer (enc28j60PacketSend len s.buf) () tr () ())
    (hlen : len.toNat = sendLen) (hpc : s.output = .transmit p sendLen) :
    ∃ accepted, s.step (.transmit accepted) = some { s with
        output := .post
        trace := if accepted then .sent p (load s.buf 0 sendLen) :: s.trace else s.trace } ∧
      (accepted = true ↔ Transmitted (load s.buf 0 sendLen) tr) := by
  refine ⟨transmitterGranted (readings tr), ?_, ?_⟩
  · simp only [Ethernetif.step, lowLevelOutput, hpc, Option.some_or]
  · exact hlen ▸ (Traces.of_returns (traces_packetSend len s.buf) h).symm

end Call

/-- **The whole call**: it returns `ERR_OK`, and the frame is sent if the transmitter is granted. -/
theorem traces_lowLevelOutputCall (sLwipBuf : ℕ → UInt8) (p : PbufChain) :
    Traces (lowLevelOutputCall sLwipBuf p) fun ret l ↦ ret = errOk ∧
      (Transmitted p.payloads.flatten l ↔ transmitterGranted (readings l) = true) := by
  refine .bind (traces_packetSend _ _) fun _ l hl ↦ .pure ⟨rfl, ?_⟩
  rw [load_gathered] at hl
  rwa [List.append_nil]

/-- **Send errors are reported** exactly where there is none to report: the lock is granted, and the
transmitter is found free in the first 200 rounds. -/
theorem sendReported_iff (sLwipBuf : ℕ → UInt8) (p : PbufChain) {ret : ℤ}
    {tr : List (Event DrvOp DrvOp.Ans)}
    (h : Returns anyAnswer (lowLevelOutputCall sLwipBuf p) () tr ret ()) :
    SendReported p ret tr ↔ transmitterGranted (readings tr) = true := by
  obtain ⟨hret, hsent⟩ := Traces.of_returns (traces_lowLevelOutputCall sLwipBuf p) h
  exact (iff_true_left hret).trans hsent

/-- A controller of which everything reads the same; the lock is granted, and the driver's own
variables are answered as `0`. -/
def sameStatus (value : UInt8) (_ : Unit) : (o : DrvOp) → DrvOp.Ans o
  | .pend => osErrNone
  | .getBank => 0
  | .getNext => 0
  | .readOp _ _ => value
  | .readBuf len => ⟨List.replicate len.toNat value, List.length_replicate⟩
  | .writeOp _ _ _ | .writeBuf _ | .setBank _ | .setNext _ | .setLast _ | .reset | .post => ()

/-- A frame of two pbufs. -/
def twoPbufs : PbufChain := ⟨[[0xFF, 0xFF, 0xFF], [0xAA]], by decide⟩

/-- One call with it. -/
def sendScript (value : UInt8) : List (Event DrvOp DrvOp.Ans) × ℤ × Unit :=
  play (sameStatus value) (fun s _ ↦ s) (lowLevelOutputCall (fun _ ↦ 0) twoPbufs) ()

theorem returns_sendScript (value : UInt8) :
    Returns anyAnswer (lowLevelOutputCall (fun _ ↦ 0) twoPbufs) () (sendScript value).1
      (sendScript value).2.1 () :=
  returns_play (fun _ _ ↦ trivial) _ _

/-- With no status bit set the frame is sent at once. -/
theorem sendReported_idle : SendReported twoPbufs (sendScript 0).2.1 (sendScript 0).1 :=
  (sendReported_iff _ _ (returns_sendScript 0)).2 (by decide +kernel)

/-- With `TXRTS` set in all 201 rounds the frame is dropped, and `ERR_OK` is returned. -/
theorem not_sendReported : ¬ ∀ (sLwipBuf : ℕ → UInt8) (p : PbufChain) (ret : ℤ)
    (tr : List (Event DrvOp DrvOp.Ans)), p.payloads.flatten.length ≤ 1514 →
    Returns anyAnswer (lowLevelOutputCall sLwipBuf p) () tr ret () → SendReported p ret tr := by
  intro hall
  obtain ⟨hret, hsent⟩ := Traces.of_returns (traces_lowLevelOutputCall _ _)
    (returns_sendScript 0x08)
  have hdropped : transmitterGranted (readings (sendScript 0x08).1) = false := by decide +kernel
  rw [hdropped] at hsent
  have hreported := hall _ twoPbufs _ _ (by decide) (returns_sendScript 0x08)
  exact Bool.false_ne_true (hsent.1 (hreported.1 hret))

end YHAudioLink
