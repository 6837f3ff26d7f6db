import YHAudioLink.Enc28j60.Driver
import YHAudioLink.Kernel.Semaphore
import Mathlib.Logic.Relation

/-!
# Exclusive use of the controller

Any number of calls of `ENC28J60_Packet_Send` and `ENC28J60_Packet_Receive` by different tasks,
interleaved at the level of the bus: one step is one byte on the SPI, one change of a select or
reset line, one access to a variable of the driver, one pend or one post. Every answer is arbitrary,
those of the driver's variables included, so nothing about the controller is assumed.

* `onBus` refines the driver's operations to the bus, function by function of the source.
* Each call on its own follows the lock's **discipline**: it pends once, touches the bus and the
  variables only while the pend is granted and not yet posted, and posts once. This is proved of the
  driver's functions and carried to the bus by the refinement of every operation (`wp_interp`).
* Calls that follow the discipline exclude each other. The invariant ties the semaphore's count to
  the one call that holds the lock, and says that this call's bytes are the end of the log.
-/

namespace YHAudioLink

open Programs

/-! ### The bus -/

/-- What the driver's operations are made of. -/
inductive BusOp
  | pend
  | post
  | getBank
  | setBank (bank : UInt8)
  | getNext
  | setNext (ptr : UInt32)
  | setLast (ptr : UInt32)
  /-- The pin `ENC28J60_RST`. -/
  | rst (level : Bool)
  /-- The pin `ENC28J60_CS`. -/
  | cs (level : Bool)
  /-- `SPI2_ReadWriteByte`. -/
  | transfer (data : UInt8)
  deriving DecidableEq

/-- What they answer. -/
abbrev BusOp.Ans : BusOp → Type
  | pend | getBank | transfer _ => UInt8
  | getNext => UInt32
  | _ => Unit

/-- A program on the bus. -/
abbrev BusProg (α : Type) : Type := Prog BusOp BusOp.Ans α

/-- One operation of the bus. -/
def bus (o : BusOp) : BusProg (BusOp.Ans o) := Prog.perform o

/-- The second read of a MAC or MII register, whose first answer is a dummy. -/
def readAgain (addr dat : UInt8) : BusProg UInt8 :=
  if addr &&& 0x80 ≠ 0 then bus (.transfer 0xFF) else pure dat

/-- `ENC28J60_Read_Op`. -/
def readOpOnBus (op : Opcode) (addr : UInt8) : BusProg UInt8 := do
  bus (.cs false)
  let _ ← bus (.transfer (op.byte ||| addr &&& addrMask))
  let dat : UInt8 ← bus (.transfer 0xFF)
  let dat ← readAgain addr dat
  bus (.cs true)
  pure dat

/-- `ENC28J60_Write_Op`. -/
def writeOpOnBus (op : Opcode) (addr data : UInt8) : BusProg Unit := do
  bus (.cs false)
  let _ ← bus (.transfer (op.byte ||| addr &&& addrMask))
  let _ ← bus (.transfer data)
  bus (.cs true)

/-- The loop of `ENC28J60_Read_Buf`. -/
def readBytes : (n : ℕ) → BusProg {bytes : List UInt8 // bytes.length = n}
  | 0 => pure ⟨[], rfl⟩
  | n + 1 => do
    let data : UInt8 ← bus (.transfer 0)
    let rest ← readBytes n
    pure ⟨data :: rest.1, by rw [List.length_cons, rest.2]⟩

/-- The loop of `ENC28J60_Write_Buf`. -/
def writeBytes : List UInt8 → BusProg Unit
  | [] => pure ()
  | data :: rest => do
    let _ ← bus (.transfer data)
    writeBytes rest

/-- `ENC28J60_Reset`, the configuration of the SPI apart. -/
def resetOnBus : BusProg Unit := do
  bus (.rst false)
  bus (.rst true)

/-- `ENC28J60_Read_Buf`. -/
def readBufOnBus (len : UInt32) : BusProg {bytes : List UInt8 // bytes.length = len.toNat} := do
  bus (.cs false)
  let _ ← bus (.transfer Opcode.readBufMem.byte)
  let data ← readBytes len.toNat
  bus (.cs true)
  pure data

/-- `ENC28J60_Write_Buf`. -/
def writeBufOnBus (data : List UInt8) : BusProg Unit := do
  bus (.cs false)
  let _ ← bus (.transfer Opcode.writeBufMem.byte)
  writeBytes data
  bus (.cs true)

/-- **The driver's operations on the bus.** -/
def onBus : (o : DrvOp) → BusProg (DrvOp.Ans o)
  | .pend => bus .pend
  | .post => bus .post
  | .getBank => bus .getBank
  | .setBank bank => bus (.setBank bank)
  | .getNext => bus .getNext
  | .setNext ptr => bus (.setNext ptr)
  | .setLast ptr => bus (.setLast ptr)
  | .reset => resetOnBus
  | .readOp op addr => readOpOnBus op addr
  | .writeOp op addr data => writeOpOnBus op addr data
  | .readBuf len => readBufOnBus len
  | .writeBuf data => writeBufOnBus data

/-! ### The discipline of one call -/

/-- What a call did with the lock. -/
inductive LockEvent
  | granted | refused | posted
  deriving DecidableEq

/-- What an operation of the driver does with the lock. -/
def drvLockEvent : Event DrvOp DrvOp.Ans → Option LockEvent
  | ⟨.pend, err⟩ => some (if err = osErrNone then .granted else .refused)
  | ⟨.post, _⟩ => some .posted
  | _ => none

/-- What an operation of the bus does with the lock. -/
def busLockEvent : Event BusOp BusOp.Ans → Option LockEvent
  | ⟨.pend, err⟩ => some (if err = osErrNone then .granted else .refused)
  | ⟨.post, _⟩ => some .posted
  | _ => none

/-- The machine that records what a call has done with the lock. -/
def history {Op : Type} {Ans : Op → Type} (ev : Event Op Ans → Option LockEvent)
    (h : List LockEvent) (e : Event Op Ans) (t : List LockEvent) : Prop :=
  t = h ++ (ev e).toList

/-- A call pends first; everything else it does with the lock in its hands. -/
def drvAllowed (h : List LockEvent) (o : DrvOp) : Prop :=
  h = if o = .pend then [] else [.granted]

/-- The same on the bus. -/
def busAllowed (h : List LockEvent) (o : BusOp) : Prop :=
  h = if o = .pend then [] else [.granted]

/-- What a call that has returned did with the lock. -/
def Released (h : List LockEvent) : Prop := h = [.granted, .posted] ∨ h = [.refused]

theorem Released.ne_nil {h : List LockEvent} (hr : Released h) : h ≠ [] := by
  rcases hr with rfl | rfl
  · exact List.cons_ne_nil _ _
  · exact List.cons_ne_nil _ _

/-- An operation that leaves the lock alone. -/
def DrvOp.NoLock (o : DrvOp) : Prop := o ≠ .pend ∧ o ≠ .post

theorem DrvOp.Quiet.noLock {o : DrvOp} (h : o.Quiet) : o.NoLock := by
  constructor
  · rintro rfl
    exact h
  · rintro rfl
    exact h

theorem drvLockEvent_eq_none {o : DrvOp} (h : o.NoLock) (r : DrvOp.Ans o) :
    drvLockEvent ⟨o, r⟩ = none := by
  cases o with
  | pend => exact absurd rfl h.1
  | post => exact absurd rfl h.2
  | _ => rfl

/-- The lock stays in a call's hands across operations that leave it alone. -/
theorem keeps_granted {α : Type} {p : Driver α} (h : Only DrvOp.NoLock p) :
    Keeps (history drvLockEvent) drvAllowed (· = [.granted]) p := by
  refine h.keeps (fun o s ho hs ↦ ?_) fun o s r t ho hs hst ↦ ?_
  · rw [drvAllowed, if_neg ho.1, hs]
  · rw [hst, drvLockEvent_eq_none ho, hs]
    rfl

theorem noLock_drv {o : DrvOp} (h : o.NoLock) : Only DrvOp.NoLock (drv o) := Only.perform h

theorem noLock_of_quiet {α : Type} {p : Driver α} (h : QuietProg p) : Only DrvOp.NoLock p :=
  h.mono fun _ ↦ DrvOp.Quiet.noLock

theorem noLock_write (addr data : UInt8) : Only DrvOp.NoLock (enc28j60Write addr data) :=
  .bind (noLock_of_quiet (quiet_setBank addr)) fun _ ↦ noLock_drv ⟨by simp, by simp⟩

theorem noLock_writeAll (table : List (UInt8 × UInt8)) : Only DrvOp.NoLock (writeAll table) := by
  induction table with
  | nil => exact .pure ()
  | cons e table ih => exact .bind (noLock_write _ _) fun _ ↦ ih

theorem noLock_init (macaddr : Fin 6 → UInt8) : Only DrvOp.NoLock (enc28j60Init macaddr) := by
  refine .bind (noLock_drv ⟨by simp, by simp⟩) fun _ ↦ ?_
  refine .bind (noLock_drv ⟨by simp, by simp⟩) fun _ ↦ ?_
  refine .bind (noLock_of_quiet (quiet_clkrdyWait 250)) fun _ ↦ .ite ?_ (.pure 1)
  rw [configure_eq]
  refine .bind (noLock_drv ⟨by simp, by simp⟩) fun _ ↦ .bind (noLock_writeAll _) fun _ ↦ ?_
  exact noLock_of_quiet (quiet_configureRest macaddr)

theorem noLock_receiveFrame (maxlen next : UInt32) :
    Only DrvOp.NoLock (receiveFrame maxlen next) := by
  have hread : Only DrvOp.NoLock (enc28j60ReadOp .readBufMem 0) := noLock_drv ⟨by simp, by simp⟩
  refine .bind hread fun _ ↦ .bind hread fun _ ↦ .bind hread fun _ ↦ .bind hread fun _ ↦ ?_
  refine .bind (.ite (.pure _) (.bind (noLock_drv ⟨by simp, by simp⟩) fun _ ↦ .pure _)) fun _ ↦ ?_
  refine .bind (noLock_write _ _) fun _ ↦ .bind (noLock_write _ _) fun _ ↦ ?_
  exact .bind (noLock_drv ⟨by simp, by simp⟩) fun _ ↦ .pure _

theorem noLock_receivePending (maxlen : UInt32) : Only DrvOp.NoLock (receivePending maxlen) := by
  have hstatus : Only DrvOp.NoLock readStatus := noLock_of_quiet quiet_readStatus
  refine .bind (noLock_drv ⟨by simp, by simp⟩) fun cur ↦ ?_
  refine .bind (noLock_write _ _) fun _ ↦ .bind (noLock_write _ _) fun _ ↦ ?_
  refine .bind (noLock_drv ⟨by simp, by simp⟩) fun _ ↦ ?_
  refine .bind (noLock_drv ⟨by simp, by simp⟩) fun _ ↦ ?_
  refine .bind (noLock_drv ⟨by simp, by simp⟩) fun _ ↦ ?_
  refine .bind (noLock_drv ⟨by simp, by simp⟩) fun _ ↦ ?_
  refine .bind (noLock_drv ⟨by simp, by simp⟩) fun _ ↦ .ite ?_ (noLock_receiveFrame maxlen _)
  exact .bind hstatus fun _ ↦ .bind (noLock_init _) fun _ ↦ .bind hstatus fun _ ↦ .pure _

/-- **Receiving leaves the lock alone** between the pend and the post, on every path. -/
theorem noLock_receiveLocked (maxlen : UInt32) : Only DrvOp.NoLock (receiveLocked maxlen) := by
  have hread : ∀ addr, Only DrvOp.NoLock (enc28j60Read addr) :=
    fun addr ↦ noLock_of_quiet (quiet_read addr)
  refine .bind (hread _) fun _ ↦ .bind (hread _) fun _ ↦ .bind (hread _) fun _ ↦ ?_
  refine .bind (hread _) fun _ ↦ .ite (.bind (.ite ?_ (.pure ())) fun _ ↦ .pure _)
    (.ite ?_ (.pure _))
  · exact .bind (noLock_init _) fun _ ↦ noLock_of_quiet quiet_readStatus
  · exact noLock_receivePending maxlen

/-- **A critical section follows the discipline**: a pend, a program that leaves the lock alone, and
a post; or the pend is refused and nothing is done. -/
theorem disciplined {α β : Type} {body : Driver α} {b : β} {f : α → β}
    (h : Only DrvOp.NoLock body) :
    wp (history drvLockEvent) drvAllowed
      (do
        let err ← pendLock
        if err = osErrNone then do
          let got ← body
          postLock
          pure (f got)
        else pure b)
      (fun _ ↦ Released) [] := by
  rw [wp_bind, wp_drv]
  refine ⟨rfl, fun err t hst ↦ ?_⟩
  have ht : t = [if err = osErrNone then .granted else .refused] := hst
  split
  · next herr =>
    rw [if_pos herr] at ht
    rw [wp_bind]
    refine wp_mono (keeps_granted h t ht) fun got u hu ↦ ?_
    rw [wp_bind, wp_drv]
    refine ⟨hu, fun r v hv ↦ .inl ?_⟩
    rw [hv, hu]
    rfl
  · next herr =>
    rw [if_neg herr] at ht
    exact .inr ht

/-! ### Calls on the bus -/

/-- A call of another task. -/
inductive LockedCall
  | packetSend (len : UInt32) (packet : ℕ → UInt8)
  | packetReceive (maxlen : UInt32)

/-- Its program, the result dropped. -/
def LockedCall.driver : LockedCall → Driver Unit
  | packetSend len packet => enc28j60PacketSend len packet
  | packetReceive maxlen => do
    let _ ← enc28j60PacketReceive maxlen
    pure ()

/-- Its program on the bus. -/
def LockedCall.program (c : LockedCall) : BusProg Unit := c.driver.interp onBus

theorem disciplined_driver (c : LockedCall) :
    wp (history drvLockEvent) drvAllowed c.driver (fun _ ↦ Released) [] := by
  cases c with
  | packetSend len packet =>
    exact disciplined (b := ()) (f := fun _ ↦ ()) (noLock_of_quiet (quiet_sendLocked len packet))
  | packetReceive maxlen =>
    rw [LockedCall.driver, wp_bind]
    exact wp_mono (disciplined (noLock_receiveLocked maxlen)) fun _ _ h ↦ h

/-- An operation of the bus that leaves the lock alone. -/
def BusOp.NoLock (o : BusOp) : Prop := o ≠ .pend ∧ o ≠ .post

/-- A program on the bus that only moves bytes and lines keeps the lock. -/
theorem keeps_granted_bus {α : Type} {p : BusProg α}
    (h : Only BusOp.NoLock p) :
    Keeps (history busLockEvent) busAllowed (· = [.granted]) p := by
  refine h.keeps (fun o s ho hs ↦ ?_) fun o s r t ho hs hst ↦ ?_
  · rw [busAllowed, if_neg ho.1, hs]
  · have hnone : busLockEvent ⟨o, r⟩ = none := by
      cases o with
      | pend => exact absurd rfl ho.1
      | post => exact absurd rfl ho.2
      | _ => rfl
    rw [hst, hnone, hs]
    rfl

theorem noLock_bus {o : BusOp} (h : o.NoLock) : Only BusOp.NoLock (bus o) := Only.perform h

theorem noLock_readBytes (n : ℕ) : Only BusOp.NoLock (readBytes n) := by
  induction n with
  | zero => exact .pure _
  | succ n ih => exact .bind (noLock_bus ⟨by simp, by simp⟩) fun _ ↦ .bind ih fun _ ↦ .pure _

theorem noLock_writeBytes (data : List UInt8) :
    Only BusOp.NoLock (writeBytes data) := by
  induction data with
  | nil => exact .pure ()
  | cons data rest ih => exact .bind (noLock_bus ⟨by simp, by simp⟩) fun _ ↦ ih

/-- **No operation of the driver but the two on the lock touches the lock on the bus.** -/
theorem noLock_onBus {o : DrvOp} (h : o.NoLock) :
    Only BusOp.NoLock (onBus o) := by
  cases o with
  | pend => exact absurd rfl h.1
  | post => exact absurd rfl h.2
  | getBank => exact noLock_bus ⟨by simp, by simp⟩
  | setBank bank => exact noLock_bus ⟨by simp, by simp⟩
  | getNext => exact noLock_bus ⟨by simp, by simp⟩
  | setNext ptr => exact noLock_bus ⟨by simp, by simp⟩
  | setLast ptr => exact noLock_bus ⟨by simp, by simp⟩
  | reset => exact .bind (noLock_bus ⟨by simp, by simp⟩) fun _ ↦ noLock_bus ⟨by simp, by simp⟩
  | readOp op addr =>
    refine .bind (noLock_bus ⟨by simp, by simp⟩) fun _ ↦
      .bind (noLock_bus ⟨by simp, by simp⟩) fun _ ↦ ?_
    refine .bind (noLock_bus ⟨by simp, by simp⟩) fun _ ↦ ?_
    refine .bind (.ite (noLock_bus ⟨by simp, by simp⟩) (.pure _)) fun _ ↦ ?_
    exact .bind (noLock_bus ⟨by simp, by simp⟩) fun _ ↦ .pure _
  | writeOp op addr data =>
    refine .bind (noLock_bus ⟨by simp, by simp⟩) fun _ ↦
      .bind (noLock_bus ⟨by simp, by simp⟩) fun _ ↦ ?_
    exact .bind (noLock_bus ⟨by simp, by simp⟩) fun _ ↦ noLock_bus ⟨by simp, by simp⟩
  | readBuf len =>
    refine .bind (noLock_bus ⟨by simp, by simp⟩) fun _ ↦
      .bind (noLock_bus ⟨by simp, by simp⟩) fun _ ↦ ?_
    refine .bind (noLock_readBytes _) fun _ ↦ ?_
    exact .bind (noLock_bus ⟨by simp, by simp⟩) fun _ ↦ .pure _
  | writeBuf data =>
    refine .bind (noLock_bus ⟨by simp, by simp⟩) fun _ ↦
      .bind (noLock_bus ⟨by simp, by simp⟩) fun _ ↦ ?_
    exact .bind (noLock_writeBytes _) fun _ ↦ noLock_bus ⟨by simp, by simp⟩

/-- Every operation is refined with no other effect on the lock than its own. -/
theorem wp_onBus (o : DrvOp) (h : List LockEvent) (hallowed : drvAllowed h o) :
    wp (history busLockEvent) busAllowed (onBus o)
      (fun r t ↦ history drvLockEvent h ⟨o, r⟩ t) h := by
  by_cases hpend : o = .pend
  · subst hpend
    exact ⟨hallowed, fun r t hst ↦ hst⟩
  by_cases hpost : o = .post
  · subst hpost
    exact ⟨hallowed, fun r t hst ↦ hst⟩
  · rw [drvAllowed, if_neg hpend] at hallowed
    refine wp_mono (keeps_granted_bus (noLock_onBus ⟨hpend, hpost⟩) h hallowed) fun r t ht ↦ ?_
    rw [history, drvLockEvent_eq_none ⟨hpend, hpost⟩, ht, hallowed]
    rfl

/-- **Each call follows the discipline on the bus.** -/
theorem disciplined_program (c : LockedCall) :
    wp (history busLockEvent) busAllowed c.program (fun _ ↦ Released) [] :=
  wp_interp wp_onBus (disciplined_driver c)

/-! ### Interleavings -/

/-- The semaphore, the calls made so far with what is left of them, and everything that was done, by
which call. -/
structure LockSystem where
  count : ℕ
  calls : List (BusProg Unit)
  log : List (ℕ × Event BusOp BusOp.Ans)

namespace LockSystem

/-- After `OSSemCreate(1)`. -/
def init : LockSystem := ⟨1, [], []⟩

/-- The semaphore after an operation. A granted pend takes a token, and is not enabled without one:
the call waits. -/
def semAfter (count : ℕ) : Event BusOp BusOp.Ans → Option ℕ
  | ⟨.pend, err⟩ => if err = osErrNone then osSemPend count else some count
  | ⟨.post, _⟩ => some (osSemPost count)
  | _ => some count

/-- One step: a task makes a call, or a call performs its next operation, with any answer. -/
inductive Step : LockSystem → LockSystem → Prop
  | start (s : LockSystem) (c : LockedCall) : Step s { s with calls := s.calls ++ [c.program] }
  | act (s : LockSystem) (i : ℕ) (o : BusOp) (k : BusOp.Ans o → BusProg Unit) (r : BusOp.Ans o)
      (count : ℕ) : s.calls[i]? = some (.call o k) → semAfter s.count ⟨o, r⟩ = some count →
      Step s ⟨count, s.calls.set i (k r), s.log ++ [(i, ⟨o, r⟩)]⟩

/-- What a call did with the lock. -/
def locks (i : ℕ) (log : List (ℕ × Event BusOp BusOp.Ans)) : List LockEvent :=
  (log.filter (·.1 = i)).filterMap (busLockEvent ·.2)

/-- Whether an operation is seen on the SPI. -/
def onSpi : BusOp → Bool
  | .rst _ | .cs _ | .transfer _ => true
  | _ => false

/-- The calls the traffic on the SPI belongs to, in order. -/
def traffic (log : List (ℕ × Event BusOp BusOp.Ans)) : List ℕ :=
  (log.filter (onSpi ·.2.1)).map Prod.fst

/-- **Transactions are never interleaved**: between two entries of one call, all are that call's. -/
def NeverInterleaved (ids : List ℕ) : Prop :=
  ∀ i j k c : ℕ, i < j → j < k → ids[i]? = some c → ids[k]? = some c → ids[j]? = some c

/-! ### Reading the log -/

theorem locks_snoc_self (i : ℕ) (log : List (ℕ × Event BusOp BusOp.Ans))
    (e : Event BusOp BusOp.Ans) :
    locks i (log ++ [(i, e)]) = locks i log ++ (busLockEvent e).toList := by
  cases h : busLockEvent e <;> simp [locks, h]

theorem locks_snoc_of_ne {i j : ℕ} (hne : i ≠ j) (log : List (ℕ × Event BusOp BusOp.Ans))
    (e : Event BusOp BusOp.Ans) : locks j (log ++ [(i, e)]) = locks j log := by
  simp [locks, hne]

theorem traffic_snoc (i : ℕ) (log : List (ℕ × Event BusOp BusOp.Ans))
    (e : Event BusOp BusOp.Ans) :
    traffic (log ++ [(i, e)]) = traffic log ++ if onSpi e.1 then [i] else [] := by
  cases h : onSpi e.1 <;> simp [traffic, h]

/-- One more entry of the call that has the end of the list. -/
theorem NeverInterleaved.snoc {front : List ℕ} {n c : ℕ}
    (h : NeverInterleaved (front ++ List.replicate n c)) (hc : c ∉ front) :
    NeverInterleaved (front ++ List.replicate n c ++ [c]) := by
  intro i j k d hij hjk hi hk
  by_cases hlast : k < (front ++ List.replicate n c).length
  · rw [List.getElem?_append_left (by omega)] at hi ⊢
    rw [List.getElem?_append_left hlast] at hk
    exact h i j k d hij hjk hi hk
  · -- the new entry is the call's, so the earlier one lies behind `front`
    rw [List.append_assoc, ← List.replicate_succ'] at hi hk ⊢
    have hklt := (List.getElem?_eq_some_iff.1 hk).1
    have hfront : front.length ≤ k := by
      simp only [List.length_append] at hlast
      omega
    have hkd : c = d := by
      rw [List.getElem?_append_right hfront] at hk
      exact (List.eq_of_mem_replicate (List.mem_of_getElem? hk)).symm
    have hifront : front.length ≤ i := by
      by_contra hlt
      rw [List.getElem?_append_left (by omega)] at hi
      exact hc (hkd ▸ List.mem_of_getElem? hi)
    rw [List.getElem?_append_right (by omega), List.getElem?_replicate]
    rw [List.length_append, List.length_replicate] at hklt
    rw [if_pos (by omega), hkd]

/-! ### The invariant -/

/-- **Exclusion.** Every call still follows the discipline. The token is there and no call holds the
lock, or it is gone and one call does. The traffic of the call that holds the lock is the end of the
traffic, and a call that has not pended has none. -/
structure Exclusive (s : LockSystem) : Prop where
  disciplined : ∀ i p, s.calls[i]? = some p →
    wp (history busLockEvent) busAllowed p (fun _ ↦ Released) (locks i s.log)
  unstarted : ∀ i, s.calls.length ≤ i → locks i s.log = []
  token : s.count = 1 ∧ (∀ i, locks i s.log ≠ [.granted]) ∨
    s.count = 0 ∧ ∃ c, locks c s.log = [.granted] ∧ ∀ i, locks i s.log = [.granted] → i = c
  block : ∀ c, locks c s.log = [.granted] →
    ∃ front n, traffic s.log = front ++ List.replicate n c ∧ c ∉ front
  fresh : ∀ i, locks i s.log = [] → i ∉ traffic s.log
  shape : ∀ i, locks i s.log = [] ∨ locks i s.log = [.granted] ∨ Released (locks i s.log)
  grouped : NeverInterleaved (traffic s.log)

theorem exclusive_init : Exclusive init where
  disciplined i p h := by simp [init] at h
  unstarted i _ := rfl
  token := .inl ⟨rfl, fun i h ↦ by simp [locks, init] at h⟩
  block c h := by simp [locks, init] at h
  fresh i _ := by simp [traffic, init]
  shape i := .inl rfl
  grouped := by simp [NeverInterleaved, traffic, init]

theorem Exclusive.start {s : LockSystem} (h : Exclusive s) (c : LockedCall) :
    Exclusive { s with calls := s.calls ++ [c.program] } where
  disciplined i p hp := by
    by_cases hlt : i < s.calls.length
    · rw [List.getElem?_append_left hlt] at hp
      exact h.disciplined i p hp
    · have hlast : i = s.calls.length := by
        have := (List.getElem?_eq_some_iff.1 hp).1
        simp only [List.length_append, List.length_singleton] at this
        omega
      have hpc : p = c.program := by simpa [hlast] using hp.symm
      have hnone : locks i s.log = [] := h.unstarted i (by omega)
      rw [hpc]
      exact hnone ▸ disciplined_program c
  unstarted i hi := h.unstarted i (by simp at hi; omega)
  token := h.token
  block := h.block
  fresh := h.fresh
  shape := h.shape
  grouped := h.grouped

/-- What a call has done with the lock when it is about to perform an operation. -/
theorem Exclusive.allowed {s : LockSystem} (h : Exclusive s) {i : ℕ} {o : BusOp}
    {k : BusOp.Ans o → BusProg Unit} (hi : s.calls[i]? = some (.call o k)) :
    busAllowed (locks i s.log) o :=
  (h.disciplined i _ hi).1

/-- The calls follow the discipline after a step, whichever call moves. -/
theorem Exclusive.disciplined_act {s : LockSystem} (h : Exclusive s) {i : ℕ} {o : BusOp}
    {k : BusOp.Ans o → BusProg Unit} {r : BusOp.Ans o} (hi : s.calls[i]? = some (.call o k))
    (j : ℕ) (p : BusProg Unit) (hp : (s.calls.set i (k r))[j]? = some p) :
    wp (history busLockEvent) busAllowed p (fun _ ↦ Released)
      (locks j (s.log ++ [(i, ⟨o, r⟩)])) := by
  by_cases hij : i = j
  · subst hij
    have hlt := (List.getElem?_eq_some_iff.1 hi).1
    have hpk : k r = p := by simpa [hlt] using hp
    rw [locks_snoc_self, ← hpk]
    exact (h.disciplined i _ hi).2 r _ rfl
  · rw [List.getElem?_set_ne hij] at hp
    rw [locks_snoc_of_ne hij]
    exact h.disciplined j p hp

theorem Exclusive.unstarted_act {s : LockSystem} (h : Exclusive s) {i : ℕ} {o : BusOp}
    {k : BusOp.Ans o → BusProg Unit} {r : BusOp.Ans o} (hi : s.calls[i]? = some (.call o k))
    (j : ℕ) (hj : (s.calls.set i (k r)).length ≤ j) : locks j (s.log ++ [(i, ⟨o, r⟩)]) = [] := by
  have hlt := (List.getElem?_eq_some_iff.1 hi).1
  rw [List.length_set] at hj
  rw [locks_snoc_of_ne (by omega)]
  exact h.unstarted j hj

/-- **A step on the lock** is not seen on the SPI, and the call that takes it has done something
with the lock now. What is left to say is where the token is and who holds the lock. -/
theorem Exclusive.lock_act {s : LockSystem} (h : Exclusive s) {i count : ℕ} {o : BusOp}
    {k : BusOp.Ans o → BusProg Unit} {r : BusOp.Ans o} (hi : s.calls[i]? = some (.call o k))
    (hspi : onSpi o = false)
    (hself : locks i (s.log ++ [(i, ⟨o, r⟩)]) = [.granted] ∨
      Released (locks i (s.log ++ [(i, ⟨o, r⟩)])))
    (htoken : count = 1 ∧ (∀ j, locks j (s.log ++ [(i, ⟨o, r⟩)]) ≠ [.granted]) ∨
      count = 0 ∧ ∃ c, locks c (s.log ++ [(i, ⟨o, r⟩)]) = [.granted] ∧
        ∀ j, locks j (s.log ++ [(i, ⟨o, r⟩)]) = [.granted] → j = c)
    (hblock : ∀ c, locks c (s.log ++ [(i, ⟨o, r⟩)]) = [.granted] →
      ∃ front n, traffic s.log = front ++ List.replicate n c ∧ c ∉ front) :
    Exclusive ⟨count, s.calls.set i (k r), s.log ++ [(i, ⟨o, r⟩)]⟩ := by
  have htraffic : traffic (s.log ++ [(i, ⟨o, r⟩)]) = traffic s.log := by
    rw [traffic_snoc, hspi]
    exact List.append_nil _
  refine ⟨h.disciplined_act hi, h.unstarted_act hi, htoken, ?_, ?_, ?_, ?_⟩
  · rwa [htraffic]
  · intro j hj
    rw [htraffic]
    by_cases hij : i = j
    · rw [← hij] at hj
      rcases hself with hgranted | hreleased
      · exact absurd (hj.symm.trans hgranted) (by simp)
      · exact absurd hj hreleased.ne_nil
    · rw [locks_snoc_of_ne hij] at hj
      exact h.fresh j hj
  · intro j
    by_cases hij : i = j
    · exact .inr (hij ▸ hself)
    · rw [locks_snoc_of_ne hij]
      exact h.shape j
  · rw [htraffic]
    exact h.grouped

/-- **A granted pend.** The token was there, so no call held the lock; the caller had no traffic. -/
theorem Exclusive.grant {s : LockSystem} (h : Exclusive s) {i count : ℕ}
    {k : UInt8 → BusProg Unit} {err : UInt8} (hi : s.calls[i]? = some (.call .pend k))
    (herr : err = osErrNone) (hcount : osSemPend s.count = some count) :
    Exclusive ⟨count, s.calls.set i (k err), s.log ++ [(i, ⟨.pend, err⟩)]⟩ := by
  obtain ⟨hpos, rfl⟩ := osSemPend_eq_some hcount
  have hnone : locks i s.log = [] := h.allowed hi
  have hself : locks i (s.log ++ [(i, ⟨.pend, err⟩)]) = [.granted] := by
    rw [locks_snoc_self, hnone, busLockEvent, if_pos herr]
    rfl
  obtain ⟨hone, hfree⟩ : s.count = 1 ∧ ∀ j, locks j s.log ≠ [.granted] := by
    rcases h.token with htoken | ⟨hzero, -⟩
    · exact htoken
    · omega
  have honly : ∀ j, locks j (s.log ++ [(i, ⟨.pend, err⟩)]) = [.granted] → j = i := by
    intro j hj
    by_contra hne
    rw [locks_snoc_of_ne (Ne.symm hne)] at hj
    exact hfree j hj
  refine h.lock_act hi rfl (.inl hself) (.inr ⟨by simp [hone], i, hself, honly⟩) fun c hc ↦ ?_
  refine ⟨traffic s.log, 0, by rw [List.replicate_zero, List.append_nil], ?_⟩
  rw [honly c hc]
  exact h.fresh i hnone

/-- **A refused pend** leaves the count and adds no holder. -/
theorem Exclusive.refuse {s : LockSystem} (h : Exclusive s) {i : ℕ} {k : UInt8 → BusProg Unit}
    {err : UInt8} (hi : s.calls[i]? = some (.call .pend k)) (herr : err ≠ osErrNone) :
    Exclusive ⟨s.count, s.calls.set i (k err), s.log ++ [(i, ⟨.pend, err⟩)]⟩ := by
  have hnone : locks i s.log = [] := h.allowed hi
  have hself : locks i (s.log ++ [(i, ⟨.pend, err⟩)]) = [.refused] := by
    rw [locks_snoc_self, hnone, busLockEvent, if_neg herr]
    rfl
  have hholds : ∀ j, locks j (s.log ++ [(i, ⟨.pend, err⟩)]) = [.granted] ↔
      locks j s.log = [.granted] := by
    intro j
    by_cases hij : i = j
    · rw [← hij, hself, hnone]
      simp
    · rw [locks_snoc_of_ne hij]
  refine h.lock_act hi rfl (.inr (.inr hself)) ?_ fun c hc ↦ ?_
  · simpa only [ne_eq, hholds] using h.token
  · exact h.block c ((hholds c).1 hc)

/-- The call that holds the lock is the one the token names. -/
theorem Exclusive.holder {s : LockSystem} (h : Exclusive s) {i : ℕ}
    (hi : locks i s.log = [.granted]) :
    s.count = 0 ∧ ∀ j, locks j s.log = [.granted] → j = i := by
  rcases h.token with ⟨-, hfree⟩ | ⟨hzero, c, hc, honly⟩
  · exact absurd hi (hfree i)
  · refine ⟨hzero, fun j hj ↦ ?_⟩
    rw [honly j hj, honly i hi]

/-- **The post.** The one call that held the lock gives the token back. -/
theorem Exclusive.release {s : LockSystem} (h : Exclusive s) {i : ℕ} {k : Unit → BusProg Unit}
    (hi : s.calls[i]? = some (.call .post k)) :
    Exclusive ⟨osSemPost s.count, s.calls.set i (k ()), s.log ++ [(i, ⟨.post, ()⟩)]⟩ := by
  have hheld : locks i s.log = [.granted] := h.allowed hi
  obtain ⟨hzero, honly⟩ := h.holder hheld
  have hself : locks i (s.log ++ [(i, ⟨.post, ()⟩)]) = [.granted, .posted] := by
    rw [locks_snoc_self, hheld]
    rfl
  have hfree : ∀ j, locks j (s.log ++ [(i, ⟨.post, ()⟩)]) ≠ [.granted] := by
    intro j hj
    by_cases hij : i = j
    · rw [← hij, hself] at hj
      exact absurd hj (by simp)
    · rw [locks_snoc_of_ne hij] at hj
      exact hij (honly j hj).symm
  refine h.lock_act hi rfl (.inr (.inl hself)) (.inl ⟨?_, hfree⟩) fun c hc ↦ absurd hc (hfree c)
  rw [hzero]
  rfl

/-- **A step between the pend and the post.** Whatever it puts on the SPI goes behind the traffic of
the same call. -/
theorem Exclusive.work {s : LockSystem} (h : Exclusive s) {i : ℕ} {o : BusOp}
    {k : BusOp.Ans o → BusProg Unit} {r : BusOp.Ans o} (hi : s.calls[i]? = some (.call o k))
    (ho : o.NoLock) : Exclusive ⟨s.count, s.calls.set i (k r), s.log ++ [(i, ⟨o, r⟩)]⟩ := by
  have hheld : locks i s.log = [.granted] := by
    have hallowed := h.allowed hi
    rwa [busAllowed, if_neg ho.1] at hallowed
  have hevent : busLockEvent ⟨o, r⟩ = none := by
    cases o with
    | pend => exact absurd rfl ho.1
    | post => exact absurd rfl ho.2
    | _ => rfl
  have hlocks : ∀ j, locks j (s.log ++ [(i, ⟨o, r⟩)]) = locks j s.log := by
    intro j
    by_cases hij : i = j
    · rw [← hij, locks_snoc_self, hevent]
      exact List.append_nil _
    · exact locks_snoc_of_ne hij _ _
  obtain ⟨-, honly⟩ := h.holder hheld
  obtain ⟨front, n, hblock, hfront⟩ := h.block i hheld
  -- the traffic after the step is still `front` and entries of the call
  have hafter : ∃ m, traffic (s.log ++ [(i, ⟨o, r⟩)]) = front ++ List.replicate m i ∧
      NeverInterleaved (traffic (s.log ++ [(i, ⟨o, r⟩)])) := by
    rw [traffic_snoc, hblock]
    split
    · refine ⟨n + 1, by rw [List.append_assoc, List.replicate_succ'], ?_⟩
      exact NeverInterleaved.snoc (hblock ▸ h.grouped) hfront
    · exact ⟨n, List.append_nil _, by rw [List.append_nil, ← hblock]; exact h.grouped⟩
  obtain ⟨m, hm, hgrouped⟩ := hafter
  refine ⟨h.disciplined_act hi, h.unstarted_act hi, ?_, ?_, ?_, fun j ↦ ?_, hgrouped⟩
  · simp only [hlocks]
    exact h.token
  · intro c hc
    rw [hlocks] at hc
    rw [honly c hc]
    exact ⟨front, m, hm, hfront⟩
  · intro j hj hmem
    rw [hlocks] at hj
    rw [hm, List.mem_append, List.mem_replicate] at hmem
    rcases hmem with hmem | ⟨-, rfl⟩
    · exact h.fresh j hj (hblock ▸ List.mem_append_left _ hmem)
    · rw [hheld] at hj
      cases hj
  · rw [hlocks]
    exact h.shape j

/-- **One step keeps the exclusion.** -/
theorem Exclusive.step {s t : LockSystem} (h : Exclusive s) (hst : Step s t) : Exclusive t := by
  cases hst with
  | start c => exact h.start c
  | act i o k r count hi hcount =>
    cases o with
    | pend =>
      by_cases herr : r = osErrNone
      · rw [semAfter, if_pos herr] at hcount
        exact h.grant hi herr hcount
      · rw [semAfter, if_neg herr] at hcount
        cases hcount
        exact h.refuse hi herr
    | post =>
      cases hcount
      exact h.release hi
    | _ =>
      cases hcount
      exact h.work hi ⟨by simp, by simp⟩

/-- **Every interleaving keeps the exclusion.** -/
theorem exclusive_of_run {s : LockSystem} (h : Relation.ReflTransGen Step init s) :
    Exclusive s := by
  induction h with
  | refl => exact exclusive_init
  | tail _ hst ih => exact ih.step hst

/-- A call that has returned does not hold the lock. -/
theorem Exclusive.released {s : LockSystem} (h : Exclusive s) {i : ℕ}
    (hi : s.calls[i]? = some (.ret ())) : Released (locks i s.log) :=
  h.disciplined i _ hi

/-- No call in progress, and the token is back. -/
theorem Exclusive.count_idle {s : LockSystem} (h : Exclusive s)
    (hidle : ∀ p ∈ s.calls, p = .ret ()) : s.count = 1 := by
  rcases h.token with ⟨hone, -⟩ | ⟨-, c, hc, -⟩
  · exact hone
  · exfalso
    rcases Nat.lt_or_ge c s.calls.length with hlt | hge
    · have hret : s.calls[c]? = some (.ret ()) := by
        rw [List.getElem?_eq_getElem hlt, hidle _ (List.getElem_mem hlt)]
      rcases h.released hret with hrel | hrel <;> simp [hc] at hrel
    · have hnone := h.unstarted c hge
      simp [hc] at hnone

end LockSystem

open LockSystem

/-- **Exclusive use of the controller.** In every interleaving of any number of calls, whatever the
controller answers: the transactions of two calls are never interleaved; the count of the semaphore
is `0` or `1`; a call has pended once at most, and posted at most once and only after a granted
pend; on every exit path it has posted exactly once if its pend was granted, and not at all if it
was refused; and when no call is in progress the count is `1`. -/
theorem controller_exclusive (s : LockSystem) (h : Relation.ReflTransGen Step init s) :
    NeverInterleaved (traffic s.log) ∧ (s.count = 0 ∨ s.count = 1) ∧
    (∀ i, locks i s.log = [] ∨ locks i s.log = [.granted] ∨ Released (locks i s.log)) ∧
    (∀ i, s.calls[i]? = some (.ret ()) → Released (locks i s.log)) ∧
    ((∀ p ∈ s.calls, p = .ret ()) → s.count = 1) := by
  have hinv := exclusive_of_run h
  refine ⟨hinv.grouped, ?_, hinv.shape, fun i hi ↦ hinv.released hi, hinv.count_idle⟩
  rcases hinv.token with ⟨hone, -⟩ | ⟨hzero, -⟩
  · exact .inr hone
  · exact .inl hzero

/-- Two calls: the second finds the lock taken and waits, and the first selects the controller. -/
theorem controller_exclusive_two_calls :
    ∃ s, Relation.ReflTransGen Step init s ∧ s.calls.length = 2 ∧ traffic s.log = [0, 0] ∧
      NeverInterleaved (traffic s.log) := by
  have hrun : ∃ s, Relation.ReflTransGen Step init s ∧ s.calls.length = 2 ∧
      traffic s.log = [0, 0] := by
    refine ⟨_, .tail (.tail (.tail (.tail (.tail (.tail .refl (.start _ (.packetReceive 1518)))
      (.start _ (.packetSend 60 fun _ ↦ 0))) (.act _ 0 .pend _ osErrNone 0 rfl rfl))
      (.act _ 0 .getBank _ 0 0 rfl rfl)) (.act _ 0 (.cs false) _ () 0 rfl rfl))
      (.act _ 0 (.transfer 0x1D) _ 0 0 rfl rfl), rfl, rfl⟩
  obtain ⟨s, hs, hlen, htraffic⟩ := hrun
  exact ⟨s, hs, hlen, htraffic, (controller_exclusive s hs).1⟩

end YHAudioLink
