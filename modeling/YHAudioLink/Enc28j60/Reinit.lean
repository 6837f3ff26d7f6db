import YHAudioLink.Foundation.Emissions
import YHAudioLink.Enc28j60.FrameQueue
import YHAudioLink.Enc28j60.Readings

/-!
# Which calls re-initialise the controller

`ENC28J60_Packet_Receive` re-initialises a controller that looks dead, and one whose ring it can no
longer follow. A re-initialisation discards the ring and whatever is being sent, so it should happen
only then (`Needed`), and every other call should leave the controller as it was but for the packet
it takes (`LeftAlone`).

The test for a receive error multiplies `EIR` with the bit instead of masking it, and is true of any
flag in `EIR`. `recoveryRight_iff` says that this is all that is wrong: a call is right exactly if
it does not find the buffer flag with some flag but the receive error (`Misread`).

Two laws are put together.

* What decides is what the call is told (`tells_packetReceive`): a law about the events of a run on
  any machine, so it is proved on the machine that keeps just these.
* A call without a reset leaves the controller alone (`leftAlone_of_noReset`). Its writes are few
  (`Mild`), and each meets the register it names, from any state the driver and the controller may
  be in: the copy of the selected bank is repaired by the registers read first
  (`wp_receiveLocked_any`).
-/

namespace YHAudioLink

open Programs Ring

/-! ### What is asked -/

/-- The receiver is dead although no packet is pending: it is disabled and the clock is stable, or a
receive error is flagged and so is the buffer. -/
def receiverDead (estat eir econ1 : UInt8) : Prop :=
  econ1 &&& 0x04 = 0 ∧ estat &&& 0x01 ≠ 0 ∨ eir &&& 0x01 ≠ 0 ∧ estat &&& 0x40 ≠ 0

/-- A call is told that no packet is pending and that the receiver is `dead`, or that the packet
pending is followed by one outside the ring. -/
def ReinitOn (dead : UInt8 → UInt8 → UInt8 → Prop) (rs : List Reading) : Prop :=
  ∃ estat eir econ1 ptkCnt rest, rs = statusReadings estat eir econ1 ptkCnt ++ rest ∧
    (ptkCnt = 0 ∧ dead estat eir econ1 ∨
      ptkCnt ≠ 0 ∧ ∃ next0 next1 rest', rest = .buf next0 :: .buf next1 :: rest' ∧
        ¬ inRing (word next0 next1))

/-- **A re-initialisation is needed.** -/
abbrev Needed (rs : List Reading) : Prop := ReinitOn receiverDead rs

/-- A flag other than the receive error is set together with the buffer's. -/
def otherFlag (estat eir econ1 : UInt8) : Prop :=
  estat &&& 0x40 ≠ 0 ∧ eir ≠ 0 ∧ eir &&& 0x01 = 0 ∧ ¬ (econ1 &&& 0x04 = 0 ∧ estat &&& 0x01 ≠ 0)

/-- **The flag is taken for a receive error**: no packet is pending, and nothing else is wrong. -/
def Misread (rs : List Reading) : Prop :=
  ∃ estat eir econ1 rest, rs = statusReadings estat eir econ1 0 ++ rest ∧ otherFlag estat eir econ1

/-- The run goes through a re-initialisation, which begins with `ENC28J60_Reset`. -/
def Reinitialises (tr : List (Event DrvOp DrvOp.Ans)) : Prop := ∃ e ∈ tr, ¬ NoReset e

/-- The driver and the controller: the register bank, `NextPacketPtr`, the receiver with the whole
buffer memory, and the control registers as transactions have left them. -/
structure ChipState extends RxState where
  control : UInt8 → UInt8

/-- The control registers under one operation, where `reg` is the register an address reaches. A
reset may do anything. -/
def controlStep (reg : UInt8 → UInt8) (c : UInt8 → UInt8) (e : Event DrvOp DrvOp.Ans)
    (d : UInt8 → UInt8) : Prop :=
  match e with
  | ⟨.writeOp .writeCtrlReg addr data, _⟩ => d = Function.update c (reg addr) data
  | ⟨.writeOp .bitFieldSet addr data, _⟩ => d = Function.update c (reg addr) (c (reg addr) ||| data)
  | ⟨.writeOp .bitFieldClr addr data, _⟩ =>
    d = Function.update c (reg addr) (c (reg addr) &&& ~~~data)
  | ⟨.writeOp .softReset _ _, _⟩ => True
  | ⟨.reset, _⟩ => True
  | _ => d = c

/-- One operation of the driver, after any number of arrivals. -/
def chipStep (s : ChipState) (e : Event DrvOp DrvOp.Ans) (t : ChipState) : Prop :=
  BankState.step s.bank e t.bank ∧ nextStep s.next e t.next ∧
    (∃ c, Receiver.Arrivals s.rx c ∧ Receiver.step s.bank.reg c e t.rx) ∧
    controlStep s.bank.reg s.control e t.control

/-- **Configuration and transmission are left as they were**: every control register but the ring's
two pointers, `ECON2` but for the packet decrement, `ECON1` (with the transmitter's and the
receiver's enable bits) but for the selected bank, and the memory below the ring, which is the
transmit buffer (what arrives is written from `ERXWRPT` on, which the controller keeps in the
ring). -/
structure Untouched (s t : ChipState) : Prop where
  control : ∀ reg, reg ∉ ringPointers → reg ≠ Reg.econ1 → reg ≠ Reg.econ2 →
    t.control reg = s.control reg
  econ2 : t.control Reg.econ2 &&& ~~~0x40 = s.control Reg.econ2 &&& ~~~0x40
  econ1 : t.bank.econ1 &&& 0xFC = s.bank.econ1 &&& 0xFC
  transmit : ringBase ≤ s.rx.erxwrpt → ∀ x < ringBase, t.rx.mem x = s.rx.mem x

/-- **The controller is left alone**, but for one packet: whatever frames are stored in the ring,
from where the driver is to read on, are stored in it afterwards, except for the first if it was
taken, and with those behind them that have arrived. -/
structure LeftAlone (s t : ChipState) : Prop extends Untouched s t where
  frames : ∀ done stored read, s.next.toNat = cell read → Stored done stored 0 read s.rx →
    ∃ taken arrived kept read', taken.length ≤ 1 ∧ stored ++ arrived = taken ++ kept ∧
      t.next.toNat = cell read' ∧ Stored (done ++ taken) kept 0 read' t.rx

/-- **What a call should do.** -/
structure RecoveryRight (s : ChipState) (tr : List (Event DrvOp DrvOp.Ans)) (t : ChipState) :
    Prop where
  onlyNeeded : Reinitialises tr → Needed (readings tr)
  leftAlone : ¬ Needed (readings tr) → LeftAlone s t

/-! ### What decides -/

/-- What the code takes for a dead receiver: one that is, or another flag. -/
theorem receiverStuck_iff {estat eir econ1 : UInt8} :
    receiverStuck estat eir econ1 = true ↔
      receiverDead estat eir econ1 ∨ otherFlag estat eir econ1 := by
  have hmul : eir.toUInt32 * 0x01 ≠ 0 ↔ eir ≠ 0 := by
    rw [UInt32.mul_one, ne_eq, ne_eq, ← UInt8.toUInt32_inj]
    rfl
  have hbit : eir &&& 0x01 ≠ 0 → eir ≠ 0 := by
    rintro h rfl
    exact h rfl
  rw [receiverStuck, Bool.or_eq_true, Bool.and_eq_true, Bool.and_eq_true, decide_eq_true_iff,
    decide_eq_true_iff, decide_eq_true_iff, decide_eq_true_iff, hmul, receiverDead, otherFlag]
  tauto

theorem reinitOn_status {dead : UInt8 → UInt8 → UInt8 → Prop} {estat eir econ1 ptkCnt : UInt8}
    {rest : List Reading} :
    ReinitOn dead (statusReadings estat eir econ1 ptkCnt ++ rest) ↔
      ptkCnt = 0 ∧ dead estat eir econ1 ∨
        ptkCnt ≠ 0 ∧ ∃ next0 next1 rest', rest = .buf next0 :: .buf next1 :: rest' ∧
          ¬ inRing (word next0 next1) := by
  constructor
  · rintro ⟨estat', eir', econ1', ptkCnt', rest', heq, h⟩
    simp only [statusReadings, List.cons_append, List.nil_append, List.cons.injEq,
      Reading.reg.injEq, true_and] at heq
    obtain ⟨rfl, rfl, rfl, rfl, rfl⟩ := heq
    exact h
  · exact fun h ↦ ⟨_, _, _, _, _, rfl, h⟩

/-- The events say `rs`, and the controller is not reset. -/
def Says (rs : List Reading) (l : List (Event DrvOp DrvOp.Ans)) : Prop :=
  readings l = rs ∧ ∀ e ∈ l, NoReset e

theorem readings_append (l l' : List (Event DrvOp DrvOp.Ans)) :
    readings (l ++ l') = readings l ++ readings l' :=
  List.flatMap_append

theorem reinitialises_append {l l' : List (Event DrvOp DrvOp.Ans)} :
    Reinitialises (l ++ l') ↔ Reinitialises l ∨ Reinitialises l' := by
  simp only [Reinitialises, List.mem_append, or_and_right, exists_or]

namespace Says

variable {rs rs' : List Reading} {l l' : List (Event DrvOp DrvOp.Ans)}

theorem nil : Says [] [] := ⟨rfl, fun _ h ↦ absurd h List.not_mem_nil⟩

theorem append (h : Says rs l) (h' : Says rs' l') : Says (rs ++ rs') (l ++ l') := by
  refine ⟨?_, List.forall_mem_append.2 ⟨h.2, h'.2⟩⟩
  rw [readings_append, h.1, h'.1]

theorem not_reinitialises (h : Says rs l) : ¬ Reinitialises l := by
  rintro ⟨e, he, hreset⟩
  exact hreset (h.2 e he)

end Says

/-- **What decides whether a program re-initialises the controller** is that it is told some `R`. -/
def Tells {α : Type} (p : Driver α) (R : List Reading → Prop) : Prop :=
  Traces p fun _ l ↦ (Reinitialises l ↔ R (readings l))

namespace Tells

variable {α β : Type} {p : Driver α} {f : α → Driver β} {R S : List Reading → Prop}

theorem congr (h : Tells p S) (hRS : ∀ rs, R rs ↔ S rs) : Tells p R :=
  h.mono fun _ _ hl ↦ hl.trans (hRS _).symm

/-- A program that does not reset the controller. -/
theorem of_told {rs : List Reading} (hp : Traces p fun _ l ↦ Says rs l) (hR : ¬ R rs) :
    Tells p R := by
  refine hp.mono fun _ l hl ↦ iff_of_false hl.not_reinitialises ?_
  rwa [hl.1]

theorem of_never (hp : Traces p fun _ l ↦ ¬ Reinitialises l) (hR : ∀ rs, ¬ R rs) : Tells p R :=
  hp.mono fun _ _ hl ↦ iff_of_false hl (hR _)

/-- A program that does in any case. -/
theorem of_always (hp : Traces p fun _ l ↦ Reinitialises l) (hR : ∀ rs, R rs) : Tells p R :=
  hp.mono fun _ _ hl ↦ iff_of_true hl (hR _)

/-- **Sequencing**: what is told first stands in front. -/
theorem bind {rs : α → List Reading} (hp : Traces p fun a l ↦ Says (rs a) l)
    (hf : ∀ a, Tells (f a) fun rs' ↦ R (rs a ++ rs')) : Tells (p >>= f) R := by
  refine Emits.bind hp fun a l hl ↦ (hf a).mono fun _ l' hl' ↦ ?_
  rw [reinitialises_append, readings_append, hl.1, or_iff_right hl.not_reinitialises]
  exact hl'

/-- What comes last tells nothing. -/
theorem bind_silent (hp : Tells p R) (hf : ∀ a, Traces (f a) fun _ l ↦ Says [] l) :
    Tells (p >>= f) R := by
  refine Emits.bind hp fun a l hl ↦ (hf a).mono fun _ l' hl' ↦ ?_
  rw [reinitialises_append, readings_append, hl'.1, List.append_nil,
    or_iff_left hl'.not_reinitialises]
  exact hl

end Tells

/-- One operation that is not a reset. -/
theorem traces_drv {o : DrvOp} (ho : o ≠ .reset) :
    Traces (drv o) fun r l ↦ Says (readingsOf ⟨o, r⟩) l := by
  refine (Traces.perform o).mono ?_
  rintro r _ rfl
  exact ⟨List.append_nil _, List.forall_mem_singleton.2 ho⟩

theorem traces_byte : Traces (enc28j60ReadOp .readBufMem 0) fun v l ↦ Says [.buf v] l :=
  traces_drv (by simp)

theorem traces_setBank (addr : UInt8) : Traces (enc28j60SetBank addr) fun _ l ↦ Says [] l := by
  refine (Traces.of_only (bankOp_setBank addr)).mono fun _ l hl ↦ ⟨?_, fun e he ↦ ?_⟩
  · refine List.flatMap_eq_nil_iff.2 fun e he ↦ ?_
    obtain ⟨o, r⟩ := e
    cases o with
    | getBank => rfl
    | setBank bank => rfl
    | writeOp op addr data => rfl
    | _ => exact (hl _ he).elim
  · intro hreset
    have hop := hl e he
    rw [hreset] at hop
    exact hop

theorem traces_read (addr : UInt8) : Traces (enc28j60Read addr) fun v l ↦ Says [.reg addr v] l := by
  refine .bind (traces_setBank addr) fun _ l hl ↦ ?_
  refine (traces_drv (by simp)).mono fun v l' hl' ↦ ?_
  exact hl.append hl'

theorem traces_write (addr data : UInt8) :
    Traces (enc28j60Write addr data) fun _ l ↦ Says [] l := by
  refine .bind (traces_setBank addr) fun _ l hl ↦ ?_
  refine (traces_drv (by simp)).mono fun v l' hl' ↦ ?_
  exact hl.append hl'

/-- **`ENC28J60_Init` resets the controller**, and what follows does not undo it. -/
theorem traces_init_bind {α : Type} (macaddr : Fin 6 → UInt8) (f : UInt8 → Driver α) :
    Traces (enc28j60Init macaddr >>= f) fun _ l ↦ Reinitialises l := by
  have hinit : Traces (enc28j60Init macaddr) fun _ l ↦ Reinitialises l := by
    refine .bind (Traces.perform DrvOp.reset) fun r l hl ↦ (Traces.any _).mono fun _ l' _ ↦ ?_
    rw [hl]
    exact ⟨⟨.reset, r⟩, List.mem_cons_self, fun h ↦ h rfl⟩
  refine .bind hinit fun a l hl ↦ (Traces.any _).mono fun _ l' _ ↦ ?_
  exact reinitialises_append.2 (.inl hl)

/-- **The receiver, if there is nothing to receive**, is re-initialised if it is found stuck. -/
theorem tells_receiveNothing (estat eir econ1 : UInt8) :
    Tells (receiveNothing estat eir econ1) fun _ ↦ receiverStuck estat eir econ1 = true := by
  rw [receiveNothing, reviveReceiver]
  split
  · next hstuck =>
    refine .bind_silent (.of_always (traces_init_bind _ _) fun _ ↦ hstuck) fun _ ↦ ?_
    exact .pure Says.nil
  · next hstuck =>
    exact .bind_silent (.of_told (.pure Says.nil) hstuck) fun _ ↦ .pure Says.nil

/-- The part of a reception that follows a next-packet pointer in the ring. -/
theorem traces_receiveFrame (maxlen next : UInt32) :
    Traces (receiveFrame maxlen next) fun _ l ↦ ¬ Reinitialises l := by
  have honly : Only (fun o ↦ o ≠ .reset) (receiveFrame maxlen next) := by
    have hread : Only (fun o ↦ o ≠ .reset) (enc28j60ReadOp .readBufMem 0) := Only.perform (by simp)
    have hwrite (addr data : UInt8) : Only (fun o ↦ o ≠ .reset) (enc28j60Write addr data) := by
      refine .bind ((bankOp_setBank addr).mono ?_) fun _ ↦ Only.perform (by simp)
      rintro _ ho rfl
      exact ho
    refine .bind hread fun _ ↦ .bind hread fun _ ↦ .bind hread fun _ ↦ .bind hread fun _ ↦ ?_
    refine .bind (.ite (.pure _) (.bind (Only.perform (by simp)) fun _ ↦ .pure _)) fun _ ↦ ?_
    refine .bind (hwrite _ _) fun _ ↦ .bind (hwrite _ _) fun _ ↦ ?_
    exact .bind (Only.perform (by simp)) fun _ ↦ .pure _
  refine (Traces.of_only honly).mono ?_
  rintro _ l hl ⟨e, he, hreset⟩
  exact hreset (hl e he)

/-- What is told first is a next-packet pointer outside the ring. -/
def PointsOutside (rs : List Reading) : Prop :=
  ∃ next0 next1 rest, rs = .buf next0 :: .buf next1 :: rest ∧ ¬ inRing (word next0 next1)

theorem pointsOutside_cons {next0 next1 : UInt8} {rest : List Reading} :
    PointsOutside (.buf next0 :: .buf next1 :: rest) ↔ ¬ inRing (word next0 next1) := by
  constructor
  · rintro ⟨next0', next1', rest', heq, h⟩
    rw [List.cons.injEq, List.cons.injEq, Reading.buf.injEq, Reading.buf.injEq] at heq
    obtain ⟨rfl, rfl, -⟩ := heq
    exact h
  · exact fun h ↦ ⟨_, _, _, rfl, h⟩

/-- **A pending packet** leads to a re-initialisation exactly if its pointer is outside the ring. -/
theorem tells_receivePending (maxlen : UInt32) : Tells (receivePending maxlen) PointsOutside := by
  refine .bind (traces_drv (by simp)) fun cur ↦ .bind (traces_write _ _) fun _ ↦ ?_
  refine .bind (traces_write _ _) fun _ ↦ .bind (traces_drv (by simp)) fun _ ↦ ?_
  refine .bind traces_byte fun next0 ↦ .bind (traces_drv (by simp)) fun _ ↦ ?_
  refine .bind traces_byte fun next1 ↦ .bind (traces_drv (by simp)) fun _ ↦ ?_
  refine Tells.congr ?_ fun rs ↦ pointsOutside_cons
  split
  · next hout =>
    have hring : ¬ inRing (word next0 next1) := not_inRing_iff.2 hout
    refine .of_always ?_ fun _ ↦ hring
    refine .bind (Traces.any _) fun _ l _ ↦ (traces_init_bind _ _).mono fun _ l' hl' ↦ ?_
    exact reinitialises_append.2 (.inr hl')
  · next hin =>
    have hring : ¬ ¬ inRing (word next0 next1) := fun h ↦ hin (not_inRing_iff.1 h)
    exact .of_never (traces_receiveFrame _ _) fun _ ↦ hring

/-- **Under the lock**, with the code's own test for a dead receiver. -/
theorem tells_receiveLocked (maxlen : UInt32) :
    Tells (receiveLocked maxlen) fun rs ↦
      ReinitOn (receiverStuck · · · = true) (.pend osErrNone :: rs) := by
  refine .bind (traces_read _) fun estat ↦ .bind (traces_read _) fun eir ↦ ?_
  refine .bind (traces_read _) fun econ1 ↦ .bind (traces_read _) fun ptkCnt ↦ ?_
  refine Tells.congr ?_ fun rs ↦ reinitOn_status
  split
  · next hzero =>
    refine (tells_receiveNothing estat eir econ1).congr fun rs ↦ ?_
    simp [hzero]
  · next hpending =>
    split
    · refine (tells_receivePending maxlen).congr fun rs ↦ ?_
      simp [hpending, PointsOutside]
    · refine .of_told (.pure Says.nil) ?_
      simp [hpending]

/-- **What decides.** A call re-initialises the controller exactly if it is told so, with the code's
own test for a dead receiver. -/
theorem tells_packetReceive (maxlen : UInt32) :
    Tells (enc28j60PacketReceive maxlen) (ReinitOn (receiverStuck · · · = true)) := by
  refine .bind (traces_drv (by simp)) fun err ↦ ?_
  split
  · next herr =>
    obtain rfl : err = osErrNone := herr
    refine .bind_silent (tells_receiveLocked maxlen) fun _ ↦ ?_
    refine .bind (traces_drv (by simp)) fun _ l hl ↦ .pure ?_
    rw [List.append_nil]
    exact hl
  · next herr =>
    refine .of_told (.pure Says.nil) ?_
    rintro ⟨estat, eir, econ1, ptkCnt, rest, heq, -⟩
    cases heq

/-! ### What a call without a reset does -/

/-- The operations of a reception: what is written is the selected bank, the two pointers of the
ring, and the packet decrement. -/
def Mild : DrvOp → Prop
  | .readOp op _ => op = .readCtrlReg ∨ op = .readBufMem
  | .writeOp .writeCtrlReg addr _ => addr ∈ ringPointers
  | .writeOp .bitFieldClr addr data => addr = Reg.econ1 ∧ data = 0x02 ||| 0x01
  | .writeOp .bitFieldSet addr data =>
    addr = Reg.econ1 ∧ data &&& 0xFC = 0 ∨ addr = Reg.econ2 ∧ data = 0x40
  | .writeOp _ _ _ | .writeBuf _ | .reset | .pend => False
  | _ => True

/-- The machine that is not reset and remembers nothing. -/
def calmStep (_ : Unit) (e : Event DrvOp DrvOp.Ans) (_ : Unit) : Prop := NoReset e

/-- **Mild up to a reset**, after which nothing is asked. -/
abbrev MildProg {α : Type} (p : Driver α) : Prop :=
  Keeps calmStep (fun _ o ↦ Mild o ∨ o = .reset) (fun _ ↦ True) p

theorem mild_drv {o : DrvOp} (ho : Mild o) : MildProg (drv o) :=
  .perform (fun _ _ ↦ .inl ho) fun _ _ _ _ _ ↦ trivial

theorem mild_byte : MildProg (enc28j60ReadOp .readBufMem 0) := mild_drv (.inr rfl)

theorem mild_setBank (addr : UInt8) : MildProg (enc28j60SetBank addr) := by
  refine .bind (mild_drv trivial) fun cur ↦ .ite ?_ (.pure ())
  refine .bind (mild_drv ⟨rfl, rfl⟩) fun _ ↦ ?_
  exact .bind (mild_drv (.inl ⟨rfl, bank_bits addr⟩)) fun _ ↦ mild_drv trivial

theorem mild_read (addr : UInt8) : MildProg (enc28j60Read addr) :=
  .bind (mild_setBank addr) fun _ ↦ mild_drv (.inl rfl)

theorem mild_write {addr data : UInt8} (h : addr ∈ ringPointers) :
    MildProg (enc28j60Write addr data) :=
  .bind (mild_setBank addr) fun _ ↦ mild_drv h

/-- Nothing is asked of `ENC28J60_Init` but its reset. -/
theorem mild_init (macaddr : Fin 6 → UInt8) : MildProg (enc28j60Init macaddr) := by
  intro s _
  rw [enc28j60Init, wp_bind]
  exact ⟨.inr rfl, fun r t hst ↦ absurd rfl hst⟩

theorem mild_readStatus : MildProg readStatus :=
  .bind (mild_read _) fun _ ↦ .bind (mild_read _) fun _ ↦ .bind (mild_read _) fun _ ↦ .pure ()

theorem mild_receiveFrame (maxlen next : UInt32) : MildProg (receiveFrame maxlen next) := by
  refine .bind mild_byte fun _ ↦ .bind mild_byte fun _ ↦ ?_
  refine .bind mild_byte fun _ ↦ .bind mild_byte fun _ ↦ ?_
  refine .bind (.ite (.pure _) (.bind (mild_drv trivial) fun _ ↦ .pure _)) fun _ ↦ ?_
  refine .bind (mild_write (by decide)) fun _ ↦ .bind (mild_write (by decide)) fun _ ↦ ?_
  exact .bind (mild_drv (.inr ⟨rfl, rfl⟩)) fun _ ↦ .pure _

theorem mild_receivePending (maxlen : UInt32) : MildProg (receivePending maxlen) := by
  refine .bind (mild_drv trivial) fun _ ↦ .bind (mild_write (by decide)) fun _ ↦ ?_
  refine .bind (mild_write (by decide)) fun _ ↦ .bind (mild_drv trivial) fun _ ↦ ?_
  refine .bind mild_byte fun _ ↦ .bind (mild_drv trivial) fun _ ↦ ?_
  refine .bind mild_byte fun _ ↦ .bind (mild_drv trivial) fun _ ↦ .ite ?_ ?_
  · exact .bind mild_readStatus fun _ ↦ .bind (mild_init _) fun _ ↦
      .bind mild_readStatus fun _ ↦ .pure _
  · exact mild_receiveFrame maxlen _

theorem mild_receiveLocked (maxlen : UInt32) : MildProg (receiveLocked maxlen) := by
  refine .bind (mild_read _) fun _ ↦ .bind (mild_read _) fun _ ↦ .bind (mild_read _) fun _ ↦ ?_
  refine .bind (mild_read _) fun _ ↦ .ite (.bind (.ite ?_ (.pure ())) fun _ ↦ .pure _) ?_
  · exact .bind (mild_init _) fun _ ↦ mild_readStatus
  · exact .ite (mild_receivePending maxlen) (.pure _)

/-- The ring's pointers are in bank 0. -/
theorem bank_ringPointer {addr : UInt8} (haddr : addr ∈ ringPointers) :
    addr &&& addrMask < 0x1B ∧ addr &&& 0x7F = addr := by
  simp only [ringPointers, List.mem_cons, List.not_mem_nil, or_false] at haddr
  rcases haddr with rfl | rfl | rfl | rfl <;> decide

/-- A write to one of them that meets its register reaches it. -/
theorem reg_ringPointer {b : BankState} {addr data : UInt8} (haddr : addr ∈ ringPointers)
    (hmeets : meetsRegister b (.writeOp .writeCtrlReg addr data)) : b.reg addr = addr := by
  obtain ⟨hbanked, hname⟩ := bank_ringPointer haddr
  rw [BankState.reg_of_bsel (hmeets addr (if_pos hbanked)) hbanked, hname]

/-- What a receiver keeps under mild operations and arrivals: the memory below the ring, and the
frames accepted so far. -/
structure Receiver.Extends (c d : Receiver) : Prop where
  erxwrpt : ringBase ≤ c.erxwrpt → ringBase ≤ d.erxwrpt
  transmit : ringBase ≤ c.erxwrpt → ∀ x < ringBase, d.mem x = c.mem x
  accepted : c.accepted <+: d.accepted

namespace Receiver

variable {c d e : Receiver}

theorem Extends.refl (c : Receiver) : c.Extends c := ⟨id, fun _ _ _ ↦ rfl, List.prefix_refl _⟩

theorem Extends.trans (h : c.Extends d) (h' : d.Extends e) : c.Extends e := by
  refine ⟨h'.erxwrpt ∘ h.erxwrpt, fun hc x hx ↦ ?_, h.accepted.trans h'.accepted⟩
  rw [h'.transmit (h.erxwrpt hc) x hx, h.transmit hc x hx]

/-- Nothing but pointers and the counter is different. -/
theorem Extends.of_eq (hwrpt : d.erxwrpt = c.erxwrpt) (hmem : d.mem = c.mem)
    (hacc : d.accepted = c.accepted) : c.Extends d := by
  refine ⟨fun h ↦ hwrpt ▸ h, fun _ x _ ↦ by rw [hmem], ?_⟩
  rw [hacc]

theorem extends_store (c : Receiver) (f : RxFrame) : c.Extends (c.store f) := by
  refine ⟨fun _ ↦ ?_, fun hc x hx ↦ ?_, ?_⟩
  · rw [erxwrpt_store]
    exact le_advance
  · rw [mem_store]
    exact put_of_lt hc hx
  · rw [accepted_store]
    exact List.prefix_append _ _

theorem extends_arrivals (h : Arrivals c d) : c.Extends d := by
  induction h with
  | refl => exact .refl c
  | tail _ hlast ih =>
    obtain ⟨f, -, rfl⟩ := hlast
    exact ih.trans (extends_store _ f)

theorem extends_readNext (c : Receiver) : c.Extends c.readNext := .of_eq rfl rfl rfl

theorem extends_readsBuf {bytes : List UInt8} (h : ReadsBuf c bytes d) : c.Extends d := by
  induction h with
  | done c => exact .refl c
  | @byte c d e bytes harrive _ ih =>
    exact ((extends_arrivals harrive).trans (extends_readNext d)).trans ih

/-- A pointer of the ring is written. -/
theorem extends_writes {reg data : UInt8} (hreg : reg ∈ ringPointers) (h : c.writes reg data d) :
    c.Extends d := by
  simp only [ringPointers, List.mem_cons, List.not_mem_nil, or_false] at hreg
  rcases hreg with rfl | rfl | rfl | rfl
  · exact (show d = _ from h) ▸ .of_eq rfl rfl rfl
  · exact (show d = _ from h) ▸ .of_eq rfl rfl rfl
  · exact (show d = _ from h) ▸ .of_eq rfl rfl rfl
  · exact (show d = _ from h) ▸ .of_eq rfl rfl rfl

/-- **A mild operation** that meets its register moves pointers and counts. -/
theorem extends_step {b : BankState} {o : DrvOp} {r : DrvOp.Ans o} (hmild : Mild o)
    (hmeets : meetsRegister b o) (h : Receiver.step b.reg c ⟨o, r⟩ d) : c.Extends d := by
  cases o with
  | readOp op addr =>
    rcases (show op = .readCtrlReg ∨ op = .readBufMem from hmild) with rfl | rfl
    · exact h.2 ▸ .refl c
    · exact h.2 ▸ extends_readNext c
  | readBuf len => exact extends_readsBuf h
  | writeOp op addr data =>
    cases op with
    | writeCtrlReg =>
      have haddr : addr ∈ ringPointers := hmild
      rw [Receiver.step, reg_ringPointer haddr hmeets] at h
      exact extends_writes haddr h
    | bitFieldSet =>
      rcases hmild with ⟨rfl, -⟩ | ⟨rfl, rfl⟩
      · exact h rfl ▸ .refl c
      · exact (show d = _ from h) ▸ .of_eq rfl rfl rfl
    | bitFieldClr => exact h (by rw [hmild.1]; rfl) ▸ .refl c
    | _ => exact hmild.elim
  | writeBuf data => exact hmild.elim
  | reset => exact hmild.elim
  | pend => exact hmild.elim
  | _ => exact (show d = c from h) ▸ .refl c

end Receiver

/-- **What mild operations keep**, with the frames accepted so far. -/
structure Calm (s t : ChipState) : Prop where
  rx : s.rx.Extends t.rx
  control : ∀ reg, reg ∉ ringPointers → reg ≠ Reg.econ1 → reg ≠ Reg.econ2 →
    t.control reg = s.control reg
  econ2 : t.control Reg.econ2 &&& ~~~0x40 = s.control Reg.econ2 &&& ~~~0x40
  econ1 : t.bank.econ1 &&& 0xFC = s.bank.econ1 &&& 0xFC

namespace Calm

variable {s t u : ChipState}

theorem refl (s : ChipState) : Calm s s := ⟨.refl _, fun _ _ _ _ ↦ rfl, rfl, rfl⟩

theorem trans (h : Calm s t) (h' : Calm t u) : Calm s u := by
  refine ⟨h.rx.trans h'.rx, fun reg hring h1 h2 ↦ ?_, h'.econ2.trans h.econ2,
    h'.econ1.trans h.econ1⟩
  rw [h'.control reg hring h1 h2, h.control reg hring h1 h2]

/-- Nothing but the receiver is different. -/
theorem of_rx (hrx : s.rx.Extends t.rx) (hbank : t.bank.econ1 = s.bank.econ1)
    (hcontrol : t.control = s.control) : Calm s t := by
  refine ⟨hrx, fun reg _ _ _ ↦ ?_, ?_, ?_⟩
  · rw [hcontrol]
  · rw [hcontrol]
  · rw [hbank]

theorem untouched (h : Calm s t) : Untouched s t := ⟨h.control, h.econ2, h.econ1, h.rx.transmit⟩

end Calm

/-- **A mild operation** that meets its register keeps the control registers. -/
theorem controlStep_calm {b : BankState} {c d : UInt8 → UInt8} {o : DrvOp} {r : DrvOp.Ans o}
    (hmild : Mild o) (hmeets : meetsRegister b o) (h : controlStep b.reg c ⟨o, r⟩ d) :
    (∀ reg, reg ∉ ringPointers → reg ≠ Reg.econ1 → reg ≠ Reg.econ2 → d reg = c reg) ∧
      d Reg.econ2 &&& ~~~0x40 = c Reg.econ2 &&& ~~~0x40 := by
  have hsame (heq : d = c) : (∀ reg, reg ∉ ringPointers → reg ≠ Reg.econ1 → reg ≠ Reg.econ2 →
      d reg = c reg) ∧ d Reg.econ2 &&& ~~~0x40 = c Reg.econ2 &&& ~~~0x40 := by
    rw [heq]
    exact ⟨fun _ _ _ _ ↦ rfl, rfl⟩
  have hecon1 {v : UInt8} (heq : d = Function.update c Reg.econ1 v) :
      (∀ reg, reg ∉ ringPointers → reg ≠ Reg.econ1 → reg ≠ Reg.econ2 → d reg = c reg) ∧
        d Reg.econ2 &&& ~~~0x40 = c Reg.econ2 &&& ~~~0x40 := by
    rw [heq, Function.update_of_ne (by decide)]
    exact ⟨fun reg _ hne _ ↦ Function.update_of_ne hne _ _, rfl⟩
  cases o with
  | writeOp op addr data =>
    cases op with
    | writeCtrlReg =>
      have haddr : addr ∈ ringPointers := hmild
      have hne : Reg.econ2 ≠ addr := by
        rintro rfl
        exact absurd haddr (by decide)
      rw [controlStep, reg_ringPointer haddr hmeets] at h
      rw [h, Function.update_of_ne hne]
      refine ⟨fun reg hring _ _ ↦ Function.update_of_ne ?_ _ _, rfl⟩
      rintro rfl
      exact hring haddr
    | bitFieldSet =>
      rcases hmild with ⟨rfl, -⟩ | ⟨rfl, rfl⟩
      · exact hecon1 h
      · have hset : d = Function.update c Reg.econ2 (c Reg.econ2 ||| 0x40) := h
        rw [hset, Function.update_self]
        exact ⟨fun reg _ _ hne ↦ Function.update_of_ne hne _ _, and_or_of_disjoint rfl⟩
    | bitFieldClr =>
      obtain ⟨rfl, rfl⟩ := hmild
      exact hecon1 h
    | _ => exact hmild.elim
  | reset => exact hmild.elim
  | _ => exact hsame h

/-- It keeps `ECON1` but for the selected bank. -/
theorem bankStep_calm {b b' : BankState} {o : DrvOp} {r : DrvOp.Ans o} (hmild : Mild o)
    (h : BankState.step b ⟨o, r⟩ b') : b'.econ1 &&& 0xFC = b.econ1 &&& 0xFC := by
  cases o with
  | writeOp op addr data =>
    rw [show b' = _ from h]
    cases op with
    | writeCtrlReg =>
      -- `ECON1` is in every bank, and the pointers are not
      have hne : ¬ addr &&& addrMask = Reg.econ1 := by
        intro heq
        have hlt := (bank_ringPointer hmild).1
        rw [heq] at hlt
        exact absurd hlt (by decide)
      rw [BankState.writeEcon1, if_neg hne]
    | bitFieldSet =>
      rcases hmild with ⟨rfl, hdata⟩ | ⟨rfl, rfl⟩
      · exact and_or_of_disjoint hdata
      · rfl
    | bitFieldClr =>
      obtain ⟨rfl, rfl⟩ := hmild
      exact and_and_not_of_disjoint rfl
    | _ => exact hmild.elim
  | reset => exact hmild.elim
  | getBank => rw [h.2]
  | setBank bank => rw [show b' = _ from h]
  | _ => rw [show b' = b from h]

theorem calm_step {s t : ChipState} {o : DrvOp} {r : DrvOp.Ans o} (hmild : Mild o)
    (hmeets : meetsRegister s.bank o) (h : chipStep s ⟨o, r⟩ t) : Calm s t := by
  obtain ⟨hbank, -, ⟨c, harrive, hrx⟩, hcontrol⟩ := h
  obtain ⟨hregs, hecon2⟩ := controlStep_calm hmild hmeets hcontrol
  refine ⟨?_, hregs, hecon2, bankStep_calm hmild hbank⟩
  exact (Receiver.extends_arrivals harrive).trans (Receiver.extends_step hmild hmeets hrx)

/-- What follows a granted pend. -/
def underLock (maxlen : UInt32) : Driver Received := do
  let got ← receiveLocked maxlen
  postLock
  pure got

theorem mild_underLock (maxlen : UInt32) : MildProg (underLock maxlen) :=
  .bind (mild_receiveLocked maxlen) fun _ ↦ .bind (mild_drv trivial) fun _ ↦ .pure _

/-- It meets its registers, from any state. -/
theorem wp_underLock_any (maxlen : UInt32) (b : BankState) :
    wpBank (underLock maxlen) (fun _ b' ↦ b'.Coherent) b := by
  rw [wpBank, underLock, wp_bind]
  have hpost : KeepsCoherent postLock := keepsCoherent_quiet rfl fun _ _ _ h ↦ h
  refine wp_mono (wp_receiveLocked_any maxlen b) fun got b' hb' ↦ ?_
  exact Keeps.bind hpost (fun _ ↦ .pure got) b' hb'

/-- It takes at most one frame. -/
theorem wp_rx_underLock {done : List RxFrame} {read : ℕ} {maxlen : UInt32} {s : RxState}
    (hnext : s.next.toNat = cell read) (hlies : Lies done [] 0 read s.rx) :
    wp runStep anyOp (underLock maxlen)
      (fun _ t ↦ ∃ taken : List RxFrame, taken.length ≤ 1 ∧ Idle (done ++ taken) t) s := by
  rw [underLock, wp_bind]
  refine wp_mono (wp_rx_receiveLocked hnext hlies) fun got t ht ↦ ?_
  rw [wp_bind]
  rcases ht with ⟨-, ht⟩ | ⟨f, -, ht⟩
  · exact wp_mono (wp_rx_postLock ht) fun _ u hu ↦ ⟨[], Nat.zero_le _, by rwa [List.append_nil]⟩
  · exact wp_mono (wp_rx_postLock ht) fun _ u hu ↦ ⟨[f], Nat.le_refl _, hu⟩

section

variable {maxlen : UInt32} {got : Received} {s t : ChipState} {tr : List (Event DrvOp DrvOp.Ans)}

/-- **Without a reset, the part under the lock is mild.** -/
theorem calm_of_underLock (hrun : Returns chipStep (underLock maxlen) s tr got t)
    (hreset : ∀ e ∈ tr, NoReset e) : (∀ e ∈ tr, Mild e.1) ∧ Calm s t := by
  -- the two laws are of the bank and of no state at all; both hold of the machine that is not reset
  let step : ChipState → Event DrvOp DrvOp.Ans → ChipState → Prop :=
    fun s e t ↦ NoReset e ∧ chipStep s e t
  have hmild : wp step (fun _ o ↦ Mild o ∨ o = .reset) (underLock maxlen) (fun _ _ ↦ True) s :=
    wp_comap (π := fun _ ↦ ()) (fun _ _ _ hst ↦ hst.1) (fun _ _ ho ↦ ho)
      (mild_underLock maxlen () trivial)
  have hmeets : wp step (fun s o ↦ meetsRegister s.bank o) (underLock maxlen)
      (fun _ t ↦ t.bank.Coherent) s :=
    wp_comap (π := fun s : ChipState ↦ s.bank) (fun _ _ _ hst ↦ hst.2.1) (fun _ _ ho ↦ ho)
      (wp_underLock_any maxlen s.bank)
  have hrun' : Steps step (underLock maxlen) s tr (.ret got) t := hrun.restrict hreset
  constructor
  · refine events_of_wp hmild ?_ hrun'
    rintro u o r v (ho | rfl) hst
    · exact ho
    · exact absurd rfl hst.1
  · refine inv_of_wp (wp_and_ok hmild hmeets) (I := Calm s) (.refl s) ?_ hrun'
    rintro u o r v ⟨ho | rfl, hreg⟩ hu hst
    · exact hu.trans (calm_step ho hreg hst.2)
    · exact absurd rfl hst.1

/-- **Without a reset, it takes at most one frame.** -/
theorem idle_of_underLock {done : List RxFrame} {read : ℕ}
    (hrun : Returns chipStep (underLock maxlen) s tr got t) (hreset : ∀ e ∈ tr, NoReset e)
    (hnext : s.next.toNat = cell read) (hlies : Lies done [] 0 read s.rx) :
    ∃ taken : List RxFrame, taken.length ≤ 1 ∧ Idle (done ++ taken) t.toRxState := by
  obtain ⟨hmild, -⟩ := calm_of_underLock hrun hreset
  -- under the lock there is no pend, so that the machine of the frame queue can make the run
  have hgranted : ∀ e ∈ tr, NoReset e ∧ granted e := by
    rintro ⟨o, r⟩ he
    refine ⟨hreset _ he, ?_⟩
    cases o with
    | pend => exact (hmild _ he).elim
    | _ => trivial
  let step : ChipState → Event DrvOp DrvOp.Ans → ChipState → Prop :=
    fun s e t ↦ (NoReset e ∧ granted e) ∧ chipStep s e t
  have hwp : wp step anyOp (underLock maxlen)
      (fun _ t ↦ ∃ taken : List RxFrame,
        taken.length ≤ 1 ∧ Idle (done ++ taken) t.toRxState) s := by
    refine wp_comap (π := ChipState.toRxState) ?_ (fun _ _ _ ↦ trivial)
      (wp_rx_underLock hnext hlies)
    rintro u e v ⟨⟨hno, hgrant⟩, hbank, hptr, hrx, -⟩
    exact ⟨hno, hgrant, hbank, hptr, hrx⟩
  exact post_of_wp hwp (hrun.restrict hgranted)

/-- The frames that were stored, with those that have arrived, are those taken and those stored. -/
theorem stored_of_calm {done stored taken : List RxFrame} {read : ℕ} (hcalm : Calm s t)
    (h : Stored done stored 0 read s.rx) (htaken : taken.length ≤ 1)
    (hidle : ∃ read', t.next.toNat = cell read' ∧ Lies (done ++ taken) [] 0 read' t.rx) :
    ∃ taken arrived kept read', taken.length ≤ 1 ∧ stored ++ arrived = taken ++ kept ∧
      t.next.toNat = cell read' ∧ Stored (done ++ taken) kept 0 read' t.rx := by
  obtain ⟨read', hnext, kept, hkept⟩ := hidle
  obtain ⟨arrived, harrived⟩ := hcalm.rx.accepted
  refine ⟨taken, arrived, kept, read', htaken, ?_, hnext, hkept⟩
  have haccepted : done ++ (stored ++ arrived) = done ++ (taken ++ kept) := by
    rw [← List.append_assoc, ← List.append_assoc, ← h.accepted, harrived]
    exact hkept.accepted
  exact List.append_cancel_left haccepted

/-- **A call without a reset leaves the controller alone.** -/
theorem leftAlone_of_noReset (hrun : Returns chipStep (enc28j60PacketReceive maxlen) s tr got t)
    (hreset : ∀ e ∈ tr, NoReset e) : LeftAlone s t := by
  obtain ⟨err, s', tr', rfl, hpend, hrest⟩ := returns_perform_bind_iff.1 hrun
  obtain ⟨hbank, hnext, ⟨c, harrive, hrx⟩, hcontrol⟩ := hpend
  have hb : s'.bank = s.bank := hbank
  have hn : s'.next = s.next := hnext
  have hc : s'.rx = c := hrx
  have hcalm : Calm s s' := by
    refine .of_rx ?_ (by rw [hb]) hcontrol
    rw [hc]
    exact Receiver.extends_arrivals harrive
  have hlies {done stored : List RxFrame} {read : ℕ} (h : Stored done stored 0 read s.rx) :
      Lies done [] 0 read s'.rx := by
    rw [hc]
    exact stable_lies.arrivals ⟨stored, h⟩ harrive
  obtain ⟨-, hreset'⟩ := List.forall_mem_cons.1 hreset
  by_cases herr : err = osErrNone
  · rw [if_pos herr] at hrest
    have hrun' : Returns chipStep (underLock maxlen) s' tr' got t := hrest
    have hcalm' : Calm s t := hcalm.trans (calm_of_underLock hrun' hreset').2
    refine ⟨hcalm'.untouched, fun done stored read hstart hstored ↦ ?_⟩
    obtain ⟨taken, htaken, -, hidle⟩ :=
      idle_of_underLock hrun' hreset' (by rw [hn, hstart]) (hlies hstored)
    exact stored_of_calm hcalm' hstored htaken hidle
  · rw [if_neg herr] at hrest
    obtain ⟨-, -, rfl⟩ := returns_pure_iff.1 hrest
    refine ⟨hcalm.untouched, fun done stored read hstart hstored ↦ ?_⟩
    have hidle : Lies (done ++ []) [] 0 read t.rx := by
      rw [List.append_nil]
      exact hlies hstored
    exact stored_of_calm hcalm hstored (Nat.zero_le _) ⟨read, by rw [hn, hstart], hidle⟩

end

/-! ### When a call is right -/

theorem misread_status {estat eir econ1 ptkCnt : UInt8} {rest : List Reading} :
    Misread (statusReadings estat eir econ1 ptkCnt ++ rest) ↔
      ptkCnt = 0 ∧ otherFlag estat eir econ1 := by
  constructor
  · rintro ⟨estat', eir', econ1', rest', heq, h⟩
    simp only [statusReadings, List.cons_append, List.nil_append, List.cons.injEq,
      Reading.reg.injEq, true_and] at heq
    obtain ⟨rfl, rfl, rfl, rfl, rfl⟩ := heq
    exact ⟨rfl, h⟩
  · rintro ⟨rfl, h⟩
    exact ⟨_, _, _, _, rfl, h⟩

/-- Another flag is no reason. -/
theorem not_receiverDead {estat eir econ1 : UInt8} (h : otherFlag estat eir econ1) :
    ¬ receiverDead estat eir econ1 := by
  obtain ⟨-, -, hrx, hdisabled⟩ := h
  rintro (hdead | ⟨hrx', -⟩)
  · exact hdisabled hdead
  · exact hrx' hrx

/-- **The code's test is the right one**, but where a flag is misread. -/
theorem reinitOn_stuck_iff {rs : List Reading} :
    ReinitOn (receiverStuck · · · = true) rs ↔ Needed rs ∨ Misread rs := by
  constructor
  · rintro ⟨estat, eir, econ1, ptkCnt, rest, rfl, ⟨hzero, hstuck⟩ | hout⟩
    · rcases receiverStuck_iff.1 hstuck with hdead | hother
      · exact .inl ⟨_, _, _, _, _, rfl, .inl ⟨hzero, hdead⟩⟩
      · exact .inr (misread_status.2 ⟨hzero, hother⟩)
    · exact .inl ⟨_, _, _, _, _, rfl, .inr hout⟩
  · rintro (⟨estat, eir, econ1, ptkCnt, rest, rfl, ⟨hzero, hdead⟩ | hout⟩ |
      ⟨estat, eir, econ1, rest, rfl, hother⟩)
    · exact ⟨_, _, _, _, _, rfl, .inl ⟨hzero, receiverStuck_iff.2 (.inl hdead)⟩⟩
    · exact ⟨_, _, _, _, _, rfl, .inr hout⟩
    · exact ⟨_, _, _, _, _, rfl, .inl ⟨rfl, receiverStuck_iff.2 (.inr hother)⟩⟩

theorem not_needed_of_misread {rs : List Reading} (h : Misread rs) : ¬ Needed rs := by
  obtain ⟨estat, eir, econ1, rest, rfl, hother⟩ := h
  rw [Needed, reinitOn_status]
  rintro (⟨-, hdead⟩ | ⟨hpending, -⟩)
  · exact not_receiverDead hother hdead
  · exact hpending rfl

section

variable {maxlen : UInt32} {got : Received} {s t : ChipState} {tr : List (Event DrvOp DrvOp.Ans)}

/-- A call re-initialises the controller if it is needed, or a flag is misread. -/
theorem reinitialises_iff (h : Returns chipStep (enc28j60PacketReceive maxlen) s tr got t) :
    Reinitialises tr ↔ Needed (readings tr) ∨ Misread (readings tr) :=
  (Traces.of_returns (tells_packetReceive maxlen) h).trans reinitOn_stuck_iff

/-- A misread flag is a re-initialisation that is not needed. -/
theorem not_recoveryRight_of_misread
    (h : Returns chipStep (enc28j60PacketReceive maxlen) s tr got t)
    (hmis : Misread (readings tr)) :
    ¬ RecoveryRight s tr t :=
  fun hright ↦ not_needed_of_misread hmis (hright.onlyNeeded ((reinitialises_iff h).2 (.inr hmis)))

/-- **Recovery only when needed**, exactly if no flag is misread. Whatever state the driver and the
controller are in, and whatever is answered, a call re-initialises the controller only if it is
needed, and leaves it alone otherwise, if and only if it does not find, with no packet pending, the
buffer flag set with some flag in `EIR` but not the receive error (while the receiver is not
disabled with the clock ready). -/
theorem recoveryRight_iff (h : Returns chipStep (enc28j60PacketReceive maxlen) s tr got t) :
    RecoveryRight s tr t ↔ ¬ Misread (readings tr) := by
  refine ⟨fun hright hmis ↦ not_recoveryRight_of_misread h hmis hright, fun hmis ↦ ⟨?_, ?_⟩⟩
  · intro hre
    exact ((reinitialises_iff h).1 hre).resolve_right hmis
  · intro hneed
    have hnone : ¬ Reinitialises tr := fun hre ↦ ((reinitialises_iff h).1 hre).elim hneed hmis
    refine leftAlone_of_noReset h fun e he ↦ ?_
    by_contra hreset
    exact hnone ⟨e, he, hreset⟩

end

/-! ### A controller that answers

The controller of the frame queue, whose status registers are read as `status` says. -/

/-- The control registers under an operation, a reset leaving them. -/
def controlAfter (reg : UInt8 → UInt8) (c : UInt8 → UInt8) :
    Event DrvOp DrvOp.Ans → UInt8 → UInt8
  | ⟨.writeOp .writeCtrlReg addr data, _⟩ => Function.update c (reg addr) data
  | ⟨.writeOp .bitFieldSet addr data, _⟩ => Function.update c (reg addr) (c (reg addr) ||| data)
  | ⟨.writeOp .bitFieldClr addr data, _⟩ => Function.update c (reg addr) (c (reg addr) &&& ~~~data)
  | _ => c

theorem controlStep_after (reg : UInt8 → UInt8) (c : UInt8 → UInt8) (e : Event DrvOp DrvOp.Ans) :
    controlStep reg c e (controlAfter reg c e) := by
  obtain ⟨o, r⟩ := e
  cases o with
  | writeOp op addr data => cases op <;> trivial
  | _ => trivial

namespace ChipState

/-- What is answered. -/
def answer (status : UInt8 → UInt8) (s : ChipState) : (o : DrvOp) → DrvOp.Ans o
  | .readOp .readCtrlReg addr =>
    if s.bank.reg addr = Reg.epktcnt then .ofNat s.rx.epktcnt else status addr
  | o => s.toRxState.answer o

/-- How the controller goes on, with no arrivals. -/
def after (s : ChipState) : Event DrvOp DrvOp.Ans → ChipState
  | ⟨.pend, _⟩ => s
  | e => ⟨s.toRxState.after shortFrame e, controlAfter s.bank.reg s.control e⟩

/-- It is the machine. -/
theorem step_after (status : UInt8 → UInt8) (s : ChipState) (o : DrvOp) :
    chipStep s ⟨o, s.answer status o⟩ (s.after ⟨o, s.answer status o⟩) := by
  have hother (heq : s.answer status o = s.toRxState.answer o)
      (hafter : s.after ⟨o, s.toRxState.answer o⟩ =
        ⟨s.toRxState.after shortFrame ⟨o, s.toRxState.answer o⟩,
          controlAfter s.bank.reg s.control ⟨o, s.toRxState.answer o⟩⟩) :
      chipStep s ⟨o, s.answer status o⟩ (s.after ⟨o, s.answer status o⟩) := by
    rw [heq, hafter]
    obtain ⟨-, hbank, hnext, hrx⟩ := RxState.step_after shortFrame s.toRxState o
    exact ⟨hbank, hnext, hrx, controlStep_after _ _ _⟩
  cases o with
  | pend => exact ⟨rfl, rfl, ⟨s.rx, .refl, rfl⟩, rfl⟩
  | readOp op addr =>
    cases op with
    | readCtrlReg => exact ⟨rfl, rfl, ⟨s.rx, .refl, fun h ↦ if_pos h, rfl⟩, rfl⟩
    | _ => exact hother rfl rfl
  | _ => exact hother rfl rfl

/-- The controller after its start, with what is in the ring. -/
def holding (rx : Receiver) : ChipState := ⟨{ RxState.ready with rx := rx }, fun _ ↦ 0⟩

/-- One call. -/
def oneCall (status : UInt8 → UInt8) (rx : Receiver) :
    List (Event DrvOp DrvOp.Ans) × Received × ChipState :=
  play (answer status) after (enc28j60PacketReceive 1518) (holding rx)

theorem returns_oneCall (status : UInt8 → UInt8) (rx : Receiver) :
    Returns chipStep (enc28j60PacketReceive 1518) (holding rx) (oneCall status rx).1
      (oneCall status rx).2.1 (oneCall status rx).2.2 :=
  returns_play (step_after status) _ _

end ChipState

/-- No flag is set. -/
def noFlags : UInt8 → UInt8 := fun _ ↦ 0

/-- The clock is ready, the receiver is enabled, the link has changed (`LINKIF`), and the last
transmission ran out of buffer (`BUFFER`). -/
def linkChanged (reg : UInt8) : UInt8 :=
  if reg = Reg.estat then 0x41
  else if reg = Reg.eir then 0x10
  else if reg = Reg.econ1 then 0x04
  else 0

set_option maxRecDepth 20000 in
/-- The law at a run: a frame is in the ring, and no flag is set. -/
theorem recoveryRight_shortFrame :
    RecoveryRight (.holding (RxState.ready.rx.store shortFrame))
      (ChipState.oneCall noFlags (RxState.ready.rx.store shortFrame)).1
      (ChipState.oneCall noFlags (RxState.ready.rx.store shortFrame)).2.2 := by
  refine (recoveryRight_iff (ChipState.returns_oneCall noFlags _)).2 fun hmis ↦ ?_
  have hfirst :
      (readings (ChipState.oneCall noFlags (RxState.ready.rx.store shortFrame)).1).take 5 =
      statusReadings 0 0 0 1 := by decide +kernel
  rw [← List.take_append_drop 5 (readings _), hfirst, misread_status] at hmis
  exact absurd hmis.1 (by decide)

set_option maxRecDepth 20000 in
/-- With an empty ring, a changed link re-initialises the controller. -/
theorem not_recoveryRight :
    ¬ ∀ (maxlen : UInt32) (s t : ChipState) (tr : List (Event DrvOp DrvOp.Ans)) (got : Received),
      Returns chipStep (enc28j60PacketReceive maxlen) s tr got t → RecoveryRight s tr t := by
  intro h
  have hrun := ChipState.returns_oneCall linkChanged RxState.ready.rx
  have hfirst : (readings (ChipState.oneCall linkChanged RxState.ready.rx).1).take 5 =
      statusReadings 0x41 0x10 0x04 0 := by decide +kernel
  have hmis : Misread (readings (ChipState.oneCall linkChanged RxState.ready.rx).1) := by
    rw [← List.take_append_drop 5 (readings _), hfirst, misread_status]
    exact ⟨rfl, by decide, by decide, by decide, by decide⟩
  exact not_recoveryRight_of_misread hrun hmis (h _ _ _ _ _ hrun)

end YHAudioLink
