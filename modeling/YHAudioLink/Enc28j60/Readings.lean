import YHAudioLink.Enc28j60.Driver
import Mathlib.Logic.Function.Basic

/-!
# What the controller tells the driver

The machine that keeps what the driver is told and what it lays down, and assumes nothing about
either: every read and every pend is answered arbitrarily and recorded, in order; a write of a
control register is remembered under the register's constant; `NextPacketPtr` is a variable. On this
machine each function of the driver has an exact law, and `ENC28J60_Init` and
`ENC28J60_Packet_Receive` are turned into the list of their exit paths (`InitPath`, `ReceivePath`),
which is what later results argue over.
-/

namespace YHAudioLink

open Programs

/-! ### The machine -/

/-- One thing the driver is told. -/
inductive Reading
  /-- The error of a pend. -/
  | pend (err : UInt8)
  /-- A control register, under its constant. -/
  | reg (addr value : UInt8)
  /-- A byte of the buffer memory. -/
  | buf (value : UInt8)
  deriving DecidableEq

/-- What an operation tells. -/
def readingsOf : Event DrvOp DrvOp.Ans → List Reading
  | ⟨.pend, err⟩ => [.pend err]
  | ⟨.readOp .readBufMem _, value⟩ => [.buf value]
  | ⟨.readOp _ addr, value⟩ => [.reg addr value]
  | ⟨.readBuf _, bytes⟩ => bytes.1.map .buf
  | _ => []

/-- The bytes of the buffer memory among the readings. -/
def bufs (rs : List Reading) : List UInt8 :=
  rs.filterMap fun
    | .buf value => some value
    | _ => none

/-- `NextPacketPtr`, the value last written to each control register, and the readings so far. -/
structure DrvState where
  next : UInt32
  written : UInt8 → UInt8
  readings : List Reading

namespace DrvState

/-- More readings. -/
def report (s : DrvState) (rs : List Reading) : DrvState := { s with readings := s.readings ++ rs }

/-- A control register is written. -/
def write (s : DrvState) (addr data : UInt8) : DrvState :=
  { s with written := Function.update s.written addr data }

/-- `NextPacketPtr` is assigned. -/
def point (s : DrvState) (ptr : UInt32) : DrvState := { s with next := ptr }

/-- One operation of the driver with its answer. -/
def step : DrvState → Event DrvOp DrvOp.Ans → DrvState → Prop
  | s, ⟨.getNext, ptr⟩, t => ptr = s.next ∧ t = s
  | s, ⟨.setNext ptr, _⟩, t => t = s.point ptr
  | s, ⟨.writeOp .writeCtrlReg addr data, _⟩, t => t = s.write addr data
  | s, e, t => t = s.report (readingsOf e)

/-- The state after an operation, as a function. -/
def after : DrvState → Event DrvOp DrvOp.Ans → DrvState
  | s, ⟨.setNext ptr, _⟩ => s.point ptr
  | s, ⟨.writeOp .writeCtrlReg addr data, _⟩ => s.write addr data
  | s, e => s.report (readingsOf e)

theorem step_after {s : DrvState} {e : Event DrvOp DrvOp.Ans}
    (h : ∀ ptr, e = ⟨.getNext, ptr⟩ → ptr = s.next) : step s e (s.after e) := by
  obtain ⟨o, r⟩ := e
  cases o with
  | getNext => exact ⟨h r rfl, by simp [after, report, readingsOf]⟩
  | writeOp op addr data => cases op <;> rfl
  | _ => rfl

@[simp] theorem report_report (s : DrvState) (rs rs' : List Reading) :
    (s.report rs).report rs' = s.report (rs ++ rs') := by
  simp [report]

@[simp] theorem report_nil (s : DrvState) : s.report [] = s := by
  simp [report]

@[simp] theorem next_report (s : DrvState) (rs : List Reading) : (s.report rs).next = s.next := rfl

@[simp] theorem written_report (s : DrvState) (rs : List Reading) :
    (s.report rs).written = s.written := rfl

@[simp] theorem readings_report (s : DrvState) (rs : List Reading) :
    (s.report rs).readings = s.readings ++ rs := rfl

@[simp] theorem next_write (s : DrvState) (addr data : UInt8) :
    (s.write addr data).next = s.next := rfl

@[simp] theorem readings_write (s : DrvState) (addr data : UInt8) :
    (s.write addr data).readings = s.readings := rfl

@[simp] theorem next_point (s : DrvState) (ptr : UInt32) : (s.point ptr).next = ptr := rfl

@[simp] theorem written_point (s : DrvState) (ptr : UInt32) :
    (s.point ptr).written = s.written := rfl

@[simp] theorem readings_point (s : DrvState) (ptr : UInt32) :
    (s.point ptr).readings = s.readings := rfl

theorem report_point (s : DrvState) (ptr : UInt32) (rs : List Reading) :
    (s.point ptr).report rs = (s.report rs).point ptr := rfl

@[simp] theorem point_point (s : DrvState) (ptr ptr' : UInt32) :
    (s.point ptr).point ptr' = s.point ptr' := rfl

theorem written_write (s : DrvState) (addr data reg : UInt8) :
    (s.write addr data).written reg = if reg = addr then data else s.written reg := by
  simp [write, Function.update_apply]

end DrvState

/-- The readings of a run. -/
def readings (tr : List (Event DrvOp DrvOp.Ans)) : List Reading := tr.flatMap readingsOf

/-- **The machine records the readings of its run.** -/
theorem readings_of_steps {α : Type} {p q : Driver α} {s t : DrvState}
    {tr : List (Event DrvOp DrvOp.Ans)} (h : Steps DrvState.step p s tr q t) :
    t.readings = s.readings ++ readings tr := by
  induction h with
  | refl => simp [readings]
  | @call o k r s t u tr q hst hrest ih =>
    have hone : t.readings = s.readings ++ readingsOf ⟨o, r⟩ := by
      cases o with
      | writeOp op addr data => cases op <;> rw [show t = _ from hst] <;> simp [readingsOf]
      | getNext => rw [hst.2]; simp [readingsOf]
      | setNext ptr => rw [show t = _ from hst]; simp [readingsOf]
      | _ => rw [show t = _ from hst]; rfl
    rw [ih, hone, List.append_assoc]
    rfl

/-! ### Laws of the functions -/

section

variable {ok : DrvState → DrvOp → Prop}

/-- What a law of a function needs of the demand on operations: it asks nothing of those that do not
complete the buffer's read pointer. -/
def OnlyErdpt (ok : DrvState → DrvOp → Prop) : Prop :=
  ∀ s o, (∀ data, o ≠ .writeOp .writeCtrlReg Reg.erdpth data) → ok s o

theorem onlyErdpt_anyOp : OnlyErdpt anyOp := fun _ _ _ ↦ trivial

variable (hok : OnlyErdpt ok)

include hok

/-- Selecting a bank leaves no trace on this machine. -/
theorem wp_setBank_iff {addr : UInt8} {Q : Unit → DrvState → Prop} {s : DrvState} :
    wp DrvState.step ok (enc28j60SetBank addr) Q s ↔ Q () s := by
  rw [enc28j60SetBank, wp_bind, wp_drv]
  constructor
  · intro h
    have hsame := h.2 (addr &&& bankMask) s (by simp [DrvState.step, readingsOf])
    rwa [if_neg (not_not.2 rfl)] at hsame
  · refine fun h ↦ ⟨hok _ _ (by simp), ?_⟩
    rintro cur t rfl
    split
    · rw [wp_bind, wp_drv]
      refine ⟨hok _ _ (by simp), ?_⟩
      rintro - t rfl
      rw [wp_bind, wp_drv]
      refine ⟨hok _ _ (by simp), ?_⟩
      rintro - t rfl
      rw [wp_drv]
      refine ⟨hok _ _ (by simp), ?_⟩
      rintro - t rfl
      simpa [readingsOf] using h
    · simpa [readingsOf] using h

theorem wp_read_iff {addr : UInt8} {Q : UInt8 → DrvState → Prop} {s : DrvState} :
    wp DrvState.step ok (enc28j60Read addr) Q s ↔ ∀ v, Q v (s.report [.reg addr v]) := by
  rw [enc28j60Read, wp_bind, wp_setBank_iff hok, wp_drv]
  constructor
  · exact fun h v ↦ h.2 v _ rfl
  · refine fun h ↦ ⟨hok _ _ (by simp), ?_⟩
    rintro v t rfl
    exact h v

theorem wp_write_iff {addr data : UInt8} {Q : Unit → DrvState → Prop} {s : DrvState} :
    wp DrvState.step ok (enc28j60Write addr data) Q s ↔
      ok s (.writeOp .writeCtrlReg addr data) ∧ Q () (s.write addr data) := by
  rw [enc28j60Write, wp_bind, wp_setBank_iff hok, wp_drv]
  refine and_congr_right fun _ ↦ ⟨fun h ↦ h () _ rfl, ?_⟩
  rintro h - t rfl
  exact h

theorem wp_readStatus_iff {Q : Unit → DrvState → Prop} {s : DrvState} :
    wp DrvState.step ok readStatus Q s ↔
      ∀ a b c, Q () (s.report [.reg Reg.estat a, .reg Reg.eir b, .reg Reg.econ1 c]) := by
  simp only [readStatus, wp_bind, wp_read_iff hok, wp_pure, DrvState.report_report,
    List.cons_append, List.nil_append]

/-- A byte of the buffer memory. -/
theorem wp_readByte_iff {Q : UInt8 → DrvState → Prop} {s : DrvState} :
    wp DrvState.step ok (enc28j60ReadOp .readBufMem 0) Q s ↔ ∀ v, Q v (s.report [.buf v]) := by
  rw [wp_drv]
  constructor
  · exact fun h v ↦ h.2 v _ rfl
  · refine fun h ↦ ⟨hok _ _ (by simp), ?_⟩
    rintro v t rfl
    exact h v

/-- A bit field is set or cleared, or a reset is requested. -/
theorem wp_writeOp_iff {op : Opcode} {addr data : UInt8} {Q : Unit → DrvState → Prop} {s : DrvState}
    (hop : op ≠ .writeCtrlReg) :
    wp DrvState.step ok (enc28j60WriteOp op addr data) Q s ↔ Q () s := by
  have hstep : ∀ t, DrvState.step s ⟨.writeOp op addr data, ()⟩ t ↔ t = s := by
    intro t
    cases op <;> simp [DrvState.step, readingsOf] at hop ⊢
  rw [wp_drv]
  constructor
  · exact fun h ↦ h.2 () s ((hstep s).2 rfl)
  · refine fun h ↦ ⟨hok _ _ (by simp [hop]), fun r t hst ↦ ?_⟩
    rwa [(hstep t).1 hst]

theorem wp_setNext_iff {ptr : UInt32} {Q : Unit → DrvState → Prop} {s : DrvState} :
    wp DrvState.step ok (drv (.setNext ptr)) Q s ↔ Q () (s.point ptr) := by
  rw [wp_drv]
  constructor
  · exact fun h ↦ h.2 () _ rfl
  · refine fun h ↦ ⟨hok _ _ (by simp), ?_⟩
    rintro r t rfl
    exact h

/-! ### Initialisation -/

/-- A register value with `CLKRDY` clear. -/
def NotReady (v : UInt8) : Prop := v &&& 0x01 = 0

/-- **The wait for the clock**: fewer polls than there are rounds and then a ready one, or as many
polls that are not ready and one more, whose answer is not used. -/
theorem wp_clkrdyWait {rounds : ℕ} {Q : Bool → DrvState → Prop} {s : DrvState}
    (hready : ∀ polls v, polls.length < rounds → (∀ p ∈ polls, NotReady p) → ¬ NotReady v →
      Q true (s.report ((polls ++ [v]).map (.reg Reg.estat))))
    (hlate : ∀ polls v, polls.length = rounds → (∀ p ∈ polls, NotReady p) →
      Q false (s.report ((polls ++ [v]).map (.reg Reg.estat)))) :
    wp DrvState.step ok (clkrdyWait rounds) Q s := by
  induction rounds generalizing s with
  | zero =>
    rw [clkrdyWait, wp_bind, wp_read_iff hok]
    exact fun v ↦ hlate [] v rfl (by simp)
  | succ rounds ih =>
    rw [clkrdyWait, wp_bind, wp_read_iff hok]
    intro v
    split
    · next hnot =>
      refine ih (fun polls w hlen hpolls hw ↦ ?_) fun polls w hlen hpolls ↦ ?_
      · rw [DrvState.report_report]
        refine hready (v :: polls) w (by simpa using hlen) ?_ hw
        exact List.forall_mem_cons.2 ⟨hnot, hpolls⟩
      · rw [DrvState.report_report]
        refine hlate (v :: polls) w (by simpa using hlen) ?_
        exact List.forall_mem_cons.2 ⟨hnot, hpolls⟩
    · next hv => exact hready [] v (by simp) (by simp) hv

/-- A program of quiet operations tells no buffer byte, and leaves the pointers. -/
theorem wp_quiet {α : Type} {p : Driver α} (hp : QuietProg p) {Q : α → DrvState → Prop}
    {s : DrvState}
    (h : ∀ a t more, t.next = s.next → (∀ reg ∈ ringPointers, t.written reg = s.written reg) →
      t.readings = s.readings ++ more → bufs more = [] → Q a t) :
    wp DrvState.step ok p Q s := by
  have hkeeps : Keeps DrvState.step ok (fun t ↦ t.next = s.next ∧
      (∀ reg ∈ ringPointers, t.written reg = s.written reg) ∧
      ∃ more, t.readings = s.readings ++ more ∧ bufs more = []) p := by
    refine hp.keeps (fun o t ho _ ↦ hok t o ?_) fun o t r u ho ht hst ↦ ?_
    · rintro data rfl
      exact ho.2 rfl (by decide)
    · obtain ⟨hnext, hwritten, more, hmore, hbufs⟩ := ht
      cases o with
      | getBank =>
        rw [show u = _ from hst]
        exact ⟨hnext, hwritten, more, by simp [readingsOf, hmore], hbufs⟩
      | setBank bank =>
        rw [show u = _ from hst]
        exact ⟨hnext, hwritten, more, by simp [readingsOf, hmore], hbufs⟩
      | writeBuf data =>
        rw [show u = _ from hst]
        exact ⟨hnext, hwritten, more, by simp [readingsOf, hmore], hbufs⟩
      | readOp op addr =>
        rw [show op = .readCtrlReg from ho] at hst
        rw [show u = _ from hst]
        refine ⟨hnext, hwritten, more ++ [.reg addr r], ?_, ?_⟩
        · simp [readingsOf, hmore]
        · simpa [bufs] using hbufs
      | writeOp op addr data =>
        by_cases hop : op = .writeCtrlReg
        · subst hop
          rw [show u = _ from hst]
          refine ⟨hnext, fun reg hreg ↦ ?_, more, hmore, hbufs⟩
          rw [DrvState.written_write, if_neg (fun heq : reg = addr ↦ ho.2 rfl (heq ▸ hreg))]
          exact hwritten reg hreg
        · have hu : u = t := by
            cases op <;> simp [DrvState.step, readingsOf] at hst hop ⊢ <;> exact hst
          rw [hu]
          exact ⟨hnext, hwritten, more, hmore, hbufs⟩
      | _ => exact absurd ho (by simp [DrvOp.Quiet])
  refine wp_mono (hkeeps s ⟨rfl, fun _ _ ↦ rfl, [], by simp, rfl⟩) fun a t ht ↦ ?_
  obtain ⟨hnext, hwritten, more, hmore, hbufs⟩ := ht
  exact h a t more hnext hwritten hmore hbufs

theorem ok_write {addr data : UInt8} (hne : addr ≠ Reg.erdpth) (s : DrvState) :
    ok s (.writeOp .writeCtrlReg addr data) := by
  refine hok _ _ fun d h ↦ hne ?_
  injection h

end

/-- The exit paths of `ENC28J60_Init`. -/
inductive InitPath (s : DrvState) : UInt8 → DrvState → Prop
  /-- The clock is not stable within the limit; nothing has been assigned or written. -/
  | late (polls : List UInt8) (v : UInt8) : polls.length = 250 → (∀ p ∈ polls, NotReady p) →
      InitPath s 1 (s.report ((polls ++ [v]).map (.reg Reg.estat)))
  /-- The clock is stable, and the controller is configured; what is returned says whether it still
  holds the MAC address. -/
  | configured (polls : List UInt8) (v r : UInt8) (more : List Reading) (t : DrvState) :
      polls.length < 250 → (∀ p ∈ polls, NotReady p) → ¬ NotReady v → t.next = rxstartInit →
      t.written Reg.erxrdptl = lowByte rxstartInit → t.written Reg.erxrdpth = highByte rxstartInit →
      t.readings = s.readings ++ (polls ++ [v]).map (.reg Reg.estat) ++ more → bufs more = [] →
      InitPath s r t

/-- **`ENC28J60_Init` takes one of its paths.** -/
theorem wp_init_path {ok : DrvState → DrvOp → Prop} (hok : OnlyErdpt ok) {macaddr : Fin 6 → UInt8}
    {Q : UInt8 → DrvState → Prop} {s : DrvState} (h : ∀ r t, InitPath s r t → Q r t) :
    wp DrvState.step ok (enc28j60Init macaddr) Q s := by
  rw [enc28j60Init, wp_bind, wp_drv]
  refine ⟨hok _ _ (by simp), ?_⟩
  rintro - t rfl
  rw [wp_bind, wp_writeOp_iff hok (by decide), wp_bind]
  simp only [readingsOf, DrvState.report_nil]
  refine wp_clkrdyWait hok (fun polls v hlen hpolls hv ↦ ?_) fun polls v hlen hpolls ↦ ?_
  · rw [if_pos rfl, configure_eq, wp_bind, wp_setNext_iff hok, wp_bind]
    simp only [bufferSetup, writeAll, wp_bind, wp_write_iff hok, wp_pure]
    refine ⟨ok_write hok (by decide) _, ok_write hok (by decide) _, ok_write hok (by decide) _,
      ok_write hok (by decide) _, ok_write hok (by decide) _, ok_write hok (by decide) _,
      ok_write hok (by decide) _, ok_write hok (by decide) _, ok_write hok (by decide) _,
      ok_write hok (by decide) _, ?_⟩
    refine wp_quiet hok (quiet_configureRest macaddr) fun r t more hnext hwritten hmore hbufs ↦ ?_
    refine h r t (.configured polls v r more t hlen hpolls hv hnext ?_ ?_ ?_ hbufs)
    · rw [hwritten _ (by decide)]
      simp [DrvState.written_write]
    · rw [hwritten _ (by decide)]
      simp [DrvState.written_write]
    · rw [hmore]
      simp
  · rw [if_neg (by decide)]
    exact h 1 _ (.late polls v hlen hpolls)

/-! ### Reception -/

/-- The four registers read first. -/
def statusReadings (estat eir econ1 ptkCnt : UInt8) : List Reading :=
  [.pend osErrNone, .reg Reg.estat estat, .reg Reg.eir eir, .reg Reg.econ1 econ1,
    .reg Reg.epktcnt ptkCnt]

/-- The three registers read around a re-initialisation. -/
def recheckReadings (estat eir econ1 : UInt8) : List Reading :=
  [.reg Reg.estat estat, .reg Reg.eir eir, .reg Reg.econ1 econ1]

/-- Whether the driver waits for the controller. -/
def receiveBusy (estat econ1 : UInt8) : Bool := transmitting econ1 || decide (estat &&& 0x04 ≠ 0)

/-- The count down goes through exactly when the controller is not busy. -/
theorem receiveWait_eq (busy : Bool) (rounds : ℕ) : receiveWait busy (rounds + 1) = !busy := by
  cases busy with
  | false => rfl
  | true =>
    induction rounds with
    | zero => rfl
    | succ rounds ih => exact ih

/-- After the read pointer has been set and the next-packet pointer has been read. -/
def DrvState.fetched (s : DrvState) (status : List Reading) (next0 next1 : UInt8) : DrvState :=
  ((((s.report status).write Reg.erdptl (lowByte s.next)).write Reg.erdpth (highByte s.next)).report
    [.buf next0, .buf next1]).point (word next0 next1)

/-- The exit paths of `ENC28J60_Packet_Receive`. -/
inductive ReceivePath (maxlen : UInt32) (s : DrvState) : Received → DrvState → Prop
  /-- The pend failed. -/
  | refused (err : UInt8) : err ≠ osErrNone →
      ReceivePath maxlen s ⟨none, []⟩ (s.report [.pend err])
  /-- No packet is pending. -/
  | nothing (estat eir econ1 : UInt8) : receiverStuck estat eir econ1 = false →
      ReceivePath maxlen s ⟨some 0, []⟩ (s.report (statusReadings estat eir econ1 0))
  /-- No packet is pending and the receiver is re-initialised. -/
  | revived (estat eir econ1 r a b c : UInt8) (t : DrvState) :
      receiverStuck estat eir econ1 = true →
      InitPath (s.report (statusReadings estat eir econ1 0)) r t →
      ReceivePath maxlen s ⟨some 0, []⟩ (t.report (recheckReadings a b c))
  /-- The controller is busy. -/
  | busy (estat eir econ1 ptkCnt : UInt8) : ptkCnt ≠ 0 → receiveBusy estat econ1 = true →
      ReceivePath maxlen s ⟨some 0, []⟩ (s.report (statusReadings estat eir econ1 ptkCnt))
  /-- The next-packet pointer is outside the ring, and the controller is re-initialised. -/
  | invalid (estat eir econ1 ptkCnt next0 next1 a b c r a' b' c' : UInt8) (t : DrvState) :
      ptkCnt ≠ 0 → receiveBusy estat econ1 = false → ¬ inRing (word next0 next1) →
      InitPath ((s.fetched (statusReadings estat eir econ1 ptkCnt) next0 next1).report
        (recheckReadings a b c)) r t →
      ReceivePath maxlen s ⟨none, []⟩ (t.report (recheckReadings a' b' c'))
  /-- A packet whose status is not ok. -/
  | badStatus (estat eir econ1 ptkCnt next0 next1 len0 len1 stat0 stat1 : UInt8) :
      ptkCnt ≠ 0 → receiveBusy estat econ1 = false → inRing (word next0 next1) →
      word stat0 stat1 &&& 0x80 = 0 →
      ReceivePath maxlen s ⟨some 0, []⟩
        ((((s.fetched (statusReadings estat eir econ1 ptkCnt) next0 next1).report
          [.buf len0, .buf len1, .buf stat0, .buf stat1]).write Reg.erxrdptl
            (lowByte (word next0 next1))).write Reg.erxrdpth (highByte (word next0 next1)))
  /-- A packet. -/
  | frame (estat eir econ1 ptkCnt next0 next1 len0 len1 stat0 stat1 : UInt8) (data : List UInt8) :
      ptkCnt ≠ 0 → receiveBusy estat econ1 = false → inRing (word next0 next1) →
      word stat0 stat1 &&& 0x80 ≠ 0 →
      data.length = (clampLen maxlen (word len0 len1)).toNat →
      ReceivePath maxlen s ⟨some (clampLen maxlen (word len0 len1)), data ++ [0]⟩
        (((((s.fetched (statusReadings estat eir econ1 ptkCnt) next0 next1).report
          [.buf len0, .buf len1, .buf stat0, .buf stat1]).report (data.map .buf)).write Reg.erxrdptl
            (lowByte (word next0 next1))).write Reg.erxrdpth (highByte (word next0 next1)))

section

variable {ok : DrvState → DrvOp → Prop} (hok : OnlyErdpt ok) {maxlen : UInt32}

include hok

/-- The post, on this machine. -/
theorem wp_postLock_iff {Q : Unit → DrvState → Prop} {s : DrvState} :
    wp DrvState.step ok postLock Q s ↔ Q () s := by
  rw [wp_drv]
  constructor
  · exact fun h ↦ h.2 () s (by simp [DrvState.step, readingsOf])
  · refine fun h ↦ ⟨hok _ _ (by simp), ?_⟩
    rintro r t rfl
    simpa [readingsOf] using h

/-- The bytes of a packet, and its release. -/
theorem wp_receiveFrame {next : UInt32} {Q : Received → DrvState → Prop} {s : DrvState}
    (h : ∀ len0 len1 stat0 stat1,
      (word stat0 stat1 &&& 0x80 = 0 → Q ⟨some 0, []⟩
        (((s.report [.buf len0, .buf len1, .buf stat0, .buf stat1]).write Reg.erxrdptl
          (lowByte next)).write Reg.erxrdpth (highByte next))) ∧
      (word stat0 stat1 &&& 0x80 ≠ 0 → ∀ data : List UInt8,
        data.length = (clampLen maxlen (word len0 len1)).toNat →
        Q ⟨some (clampLen maxlen (word len0 len1)), data ++ [0]⟩
          ((((s.report [.buf len0, .buf len1, .buf stat0, .buf stat1]).report
            (data.map .buf)).write Reg.erxrdptl (lowByte next)).write Reg.erxrdpth
              (highByte next)))) :
    wp DrvState.step ok (receiveFrame maxlen next) Q s := by
  simp only [receiveFrame, wp_bind, wp_readByte_iff hok, DrvState.report_report, List.cons_append,
    List.nil_append]
  intro len0 len1 stat0 stat1
  obtain ⟨hbad, hgood⟩ := h len0 len1 stat0 stat1
  have hrelease : ∀ (t : DrvState) (got : UInt32 × List UInt8),
      Q ⟨some got.1, got.2⟩ ((t.write Reg.erxrdptl (lowByte next)).write Reg.erxrdpth
        (highByte next)) →
      wp DrvState.step ok (enc28j60Write Reg.erxrdptl (lowByte next)) (fun _ ↦
        wp DrvState.step ok (enc28j60Write Reg.erxrdpth (highByte next)) fun _ ↦
          wp DrvState.step ok (enc28j60WriteOp .bitFieldSet Reg.econ2 0x40) fun _ ↦
            wp DrvState.step ok (pure ⟨some got.1, got.2⟩) Q) t := by
    intro t got hQ
    rw [wp_write_iff hok]
    refine ⟨ok_write hok (by decide) _, ?_⟩
    rw [wp_write_iff hok]
    refine ⟨ok_write hok (by decide) _, ?_⟩
    rw [wp_writeOp_iff hok (by decide)]
    exact hQ
  rw [readPacket]
  split
  · next hstat => exact hrelease _ (0, []) (hbad hstat)
  · next hstat =>
    rw [wp_bind, wp_drv]
    refine ⟨hok _ _ (by simp), ?_⟩
    rintro ⟨data, hlen⟩ t rfl
    exact hrelease _ (_, data ++ [0]) (hgood hstat data hlen)

/-- **`ENC28J60_Packet_Receive` takes one of its paths.** The one demand on operations that matters
is the one on the two writes of the read pointer. -/
theorem wp_receive_path {Q : Received → DrvState → Prop} {s : DrvState}
    (herdpt : ∀ t : DrvState, t.written Reg.erdptl = lowByte s.next →
      ok t (.writeOp .writeCtrlReg Reg.erdpth (highByte s.next)))
    (h : ∀ r t, ReceivePath maxlen s r t → Q r t) :
    wp DrvState.step ok (enc28j60PacketReceive maxlen) Q s := by
  rw [enc28j60PacketReceive, wp_bind, wp_drv]
  refine ⟨hok _ _ (by simp), ?_⟩
  rintro err t rfl
  split
  · next herr =>
    subst herr
    simp only [receiveLocked, wp_bind, wp_read_iff hok]
    intro estat eir econ1 ptkCnt
    simp only [readingsOf, DrvState.report_report, List.cons_append, List.nil_append]
    split
    · next hcnt =>
      subst hcnt
      rw [receiveNothing, wp_bind, reviveReceiver]
      split
      · next hstuck =>
        rw [wp_bind]
        refine wp_init_path hok fun r t ht ↦ ?_
        rw [wp_readStatus_iff hok]
        intro a b c
        rw [wp_pure, wp_postLock_iff hok]
        exact h _ _ (.revived estat eir econ1 r a b c t hstuck ht)
      · next hstuck =>
        rw [wp_pure, wp_pure, wp_postLock_iff hok]
        exact h _ _ (.nothing estat eir econ1 (by simpa using hstuck))
    · next hcnt =>
      rw [receiveWait_eq, ← receiveBusy]
      split
      · next hfree =>
        have hfree : receiveBusy estat econ1 = false := by simpa using hfree
        rw [receivePending, wp_bind, wp_drv]
        refine ⟨hok _ _ (by simp), ?_⟩
        rintro cur t ⟨rfl, rfl⟩
        rw [wp_bind, wp_write_iff hok]
        refine ⟨ok_write hok (by decide) _, ?_⟩
        rw [wp_bind, wp_write_iff hok]
        refine ⟨herdpt _ (by simp [DrvState.written_write]), ?_⟩
        rw [wp_bind, wp_drv]
        refine ⟨hok _ _ (by simp), ?_⟩
        rintro - t rfl
        simp only [wp_bind, wp_readByte_iff hok, wp_setNext_iff hok, readingsOf,
          DrvState.report_nil, DrvState.report_point, DrvState.report_report, DrvState.point_point,
          List.cons_append, List.nil_append]
        intro next0 next1
        split
        · next hout =>
          have hring : ¬ inRing (word next0 next1) := not_inRing_iff.2 hout
          simp only [receiveInvalid, wp_bind, wp_readStatus_iff hok]
          intro a b c
          refine wp_init_path hok fun r t ht a' b' c' ↦ ?_
          rw [wp_pure, wp_postLock_iff hok]
          exact h _ _ (.invalid estat eir econ1 ptkCnt next0 next1 a b c r a' b' c' t hcnt hfree
            hring ht)
        · next hin =>
          have hring : inRing (word next0 next1) := not_not.1 fun h ↦ hin (not_inRing_iff.1 h)
          refine wp_receiveFrame hok fun len0 len1 stat0 stat1 ↦ ⟨fun hstat ↦ ?_, ?_⟩
          · rw [wp_postLock_iff hok]
            exact h _ _ (.badStatus estat eir econ1 ptkCnt next0 next1 len0 len1 stat0 stat1 hcnt
              hfree hring hstat)
          · intro hstat data hlen
            rw [wp_postLock_iff hok]
            exact h _ _ (.frame estat eir econ1 ptkCnt next0 next1 len0 len1 stat0 stat1 data hcnt
              hfree hring hstat hlen)
      · next hbusy =>
        rw [wp_pure, wp_postLock_iff hok]
        exact h _ _ (.busy estat eir econ1 ptkCnt hcnt (by simpa using hbusy))
  · next herr => exact h _ _ (.refused err herr)

end

end YHAudioLink
