import YHAudioLink.Foundation.ByteStore
import YHAudioLink.Foundation.Programs
import Mathlib.Data.Fin.VecNotation
import Mathlib.Data.UInt

/-!
# The Ethernet controller's driver

The functions of `enc28j60.c` as programs over an interface of operations: the two calls on the
lock, the accesses to the driver's own variables, and the transactions on the bus. What the
controller answers is not said here; each law brings the machine it needs.

* The variables that outlive a call, `ENC28J60BANK`, `NextPacketPtr` and `LastPacketPtr`, are read
  and written through operations of their own, so that another task could interfere. `eir`, `estat`,
  `econ1` and `ptk_cnt` are assigned before they are read in every call, and are locals here.
* `ENC28J60_Read_Op`, `ENC28J60_Write_Op`, `ENC28J60_Read_Buf` and `ENC28J60_Write_Buf` are one
  operation each, carrying the whole register constant and not only the five bits that are sent.
* A polling loop is a recursion on the rounds it has left.

The length `ENC28J60_Packet_Receive` returns is a local that some paths never assign, so it is an
`Option`.
-/

namespace YHAudioLink

open Programs ByteStore

/-! ### Register constants

A constant packs the address (bits 0 to 4), the bank (bits 5 and 6) and the MAC or MII mark
(bit 7). -/

/-- `ADDR_MASK`. -/
abbrev addrMask : UInt8 := 0x1F

/-- `BANK_MASK`. -/
abbrev bankMask : UInt8 := 0x60

namespace Reg

abbrev eie : UInt8 := 0x1B
abbrev eir : UInt8 := 0x1C
abbrev estat : UInt8 := 0x1D
abbrev econ2 : UInt8 := 0x1E
abbrev econ1 : UInt8 := 0x1F

abbrev erdptl : UInt8 := 0x00 ||| 0x00
abbrev erdpth : UInt8 := 0x01 ||| 0x00
abbrev ewrptl : UInt8 := 0x02 ||| 0x00
abbrev ewrpth : UInt8 := 0x03 ||| 0x00
abbrev etxstl : UInt8 := 0x04 ||| 0x00
abbrev etxsth : UInt8 := 0x05 ||| 0x00
abbrev etxndl : UInt8 := 0x06 ||| 0x00
abbrev etxndh : UInt8 := 0x07 ||| 0x00
abbrev erxstl : UInt8 := 0x08 ||| 0x00
abbrev erxsth : UInt8 := 0x09 ||| 0x00
abbrev erxndl : UInt8 := 0x0A ||| 0x00
abbrev erxndh : UInt8 := 0x0B ||| 0x00
abbrev erxrdptl : UInt8 := 0x0C ||| 0x00
abbrev erxrdpth : UInt8 := 0x0D ||| 0x00

abbrev epmm0 : UInt8 := 0x08 ||| 0x20
abbrev epmm1 : UInt8 := 0x09 ||| 0x20
abbrev epmcsl : UInt8 := 0x10 ||| 0x20
abbrev epmcsh : UInt8 := 0x11 ||| 0x20
abbrev erxfcon : UInt8 := 0x18 ||| 0x20
abbrev epktcnt : UInt8 := 0x19 ||| 0x20

abbrev macon1 : UInt8 := 0x00 ||| 0x40 ||| 0x80
abbrev macon2 : UInt8 := 0x01 ||| 0x40 ||| 0x80
abbrev macon3 : UInt8 := 0x02 ||| 0x40 ||| 0x80
abbrev mabbipg : UInt8 := 0x04 ||| 0x40 ||| 0x80
abbrev maipgl : UInt8 := 0x06 ||| 0x40 ||| 0x80
abbrev maipgh : UInt8 := 0x07 ||| 0x40 ||| 0x80
abbrev mamxfll : UInt8 := 0x0A ||| 0x40 ||| 0x80
abbrev mamxflh : UInt8 := 0x0B ||| 0x40 ||| 0x80
abbrev miregadr : UInt8 := 0x14 ||| 0x40 ||| 0x80
abbrev miwrl : UInt8 := 0x16 ||| 0x40 ||| 0x80
abbrev miwrh : UInt8 := 0x17 ||| 0x40 ||| 0x80

abbrev maadr1 : UInt8 := 0x00 ||| 0x60 ||| 0x80
abbrev maadr0 : UInt8 := 0x01 ||| 0x60 ||| 0x80
abbrev maadr3 : UInt8 := 0x02 ||| 0x60 ||| 0x80
abbrev maadr2 : UInt8 := 0x03 ||| 0x60 ||| 0x80
abbrev maadr5 : UInt8 := 0x04 ||| 0x60 ||| 0x80
abbrev maadr4 : UInt8 := 0x05 ||| 0x60 ||| 0x80
abbrev mistat : UInt8 := 0x0A ||| 0x60 ||| 0x80

/-- The PHY registers, which are not on the bus. -/
abbrev phcon1 : UInt8 := 0x00
abbrev phcon2 : UInt8 := 0x10

end Reg

/-- The SPI operation codes. -/
inductive Opcode
  | readCtrlReg | readBufMem | writeCtrlReg | writeBufMem | bitFieldSet | bitFieldClr | softReset
  deriving DecidableEq, Repr

/-- The byte of an operation code. -/
def Opcode.byte : Opcode → UInt8
  | readCtrlReg => 0x00
  | readBufMem => 0x3A
  | writeCtrlReg => 0x40
  | writeBufMem => 0x7A
  | bitFieldSet => 0x80
  | bitFieldClr => 0xA0
  | softReset => 0xFF

/-! ### Buffer boundaries -/

/-- `TXSTART_INIT`. -/
abbrev txstartInit : UInt32 := 0x0000

/-- `TXSTOP_INIT`. -/
abbrev txstopInit : UInt32 := 0x05f0

/-- `RXSTART_INIT`. -/
abbrev rxstartInit : UInt32 := 0x0600

/-- `RXSTOP_INIT`. -/
abbrev rxstopInit : UInt32 := 0x1ff0

/-- `MAX_FRAMELEN`, in the driver's own width. -/
abbrev mamxfl : UInt32 := 1518

/-- The byte a 32-bit value is cut to when it is passed for a `u8`. -/
abbrev lowByte (v : UInt32) : UInt8 := v.toUInt8

/-- The byte above it. -/
abbrev highByte (v : UInt32) : UInt8 := (v >>> 8).toUInt8

/-- Two bytes read one after the other, put together. -/
abbrev word (lo hi : UInt8) : UInt32 := lo.toUInt32 ||| hi.toUInt32 <<< 8

theorem toNat_word (lo hi : UInt8) : (word lo hi).toNat = lo.toNat + 256 * hi.toNat := by
  have hlo := lo.toNat_lt
  have hhi := hi.toNat_lt
  have hshift : hi.toNat <<< 8 % 4294967296 = hi.toNat <<< 8 := by
    rw [Nat.shiftLeft_eq]
    omega
  have h8 : UInt32.toNat 8 % 32 = 8 := rfl
  simp only [UInt32.toNat_or, UInt8.toNat_toUInt32, UInt32.toNat_shiftLeft]
  rw [h8, hshift, Nat.or_comm, ← Nat.shiftLeft_add_eq_or_of_lt hlo, Nat.shiftLeft_eq]
  omega

/-- An address below `0x10000` is put together again from the bytes it is cut into. -/
theorem word_bytes {ptr : UInt32} (h : ptr.toNat < 65536) :
    word (lowByte ptr) (highByte ptr) = ptr := by
  have hlow : (lowByte ptr).toNat = ptr.toNat % 256 := by simp
  have hhigh : (highByte ptr).toNat = ptr.toNat / 256 := by
    simp [Nat.shiftRight_eq_div_pow]
    omega
  rw [← UInt32.toNat_inj, toNat_word]
  omega

/-- Whether an address lies in the receive ring. -/
def inRing (ptr : UInt32) : Prop := rxstartInit ≤ ptr ∧ ptr ≤ rxstopInit

instance (ptr : UInt32) : Decidable (inRing ptr) := inferInstanceAs (Decidable (_ ∧ _))

/-- The driver's test. -/
theorem not_inRing_iff {ptr : UInt32} : ¬ inRing ptr ↔ ptr < rxstartInit ∨ rxstopInit < ptr := by
  rw [inRing, not_and_or, UInt32.not_le, UInt32.not_le]

theorem inRing.toNat_lt {ptr : UInt32} (h : inRing ptr) : ptr.toNat < 65536 := by
  have hle := UInt32.le_iff_toNat_le.1 h.2
  have hstop : rxstopInit.toNat = 8176 := rfl
  omega

/-- The length the driver settles on for a packet whose status is ok. -/
def clampLen (maxlen count : UInt32) : UInt32 :=
  if maxlen - 1 < count - 4 then maxlen - 1 else count - 4

/-- A count that covers the CRC is clamped without wrapping. -/
theorem toNat_clampLen {maxlen count : UInt32} (hmax : 1 ≤ maxlen) (hcount : 4 ≤ count) :
    (clampLen maxlen count).toNat = min (count.toNat - 4) (maxlen.toNat - 1) := by
  have hsub : (maxlen - 1).toNat = maxlen.toNat - 1 := UInt32.toNat_sub_of_le _ _ hmax
  have hsub' : (count - 4).toNat = count.toNat - 4 := UInt32.toNat_sub_of_le _ _ hcount
  rw [clampLen]
  split
  · next hlt =>
    rw [UInt32.lt_iff_toNat_lt, hsub, hsub'] at hlt
    rw [hsub, min_eq_right (by omega)]
  · next hge =>
    rw [UInt32.lt_iff_toNat_lt, hsub, hsub'] at hge
    rw [hsub', min_eq_left (by omega)]

theorem clampLen_le {maxlen count : UInt32} (hcount : 4 ≤ count) :
    (clampLen maxlen count).toNat ≤ count.toNat - 4 := by
  have hsub : (count - 4).toNat = count.toNat - 4 := UInt32.toNat_sub_of_le _ _ hcount
  rw [clampLen]
  split
  · next hlt =>
    rw [UInt32.lt_iff_toNat_lt, hsub] at hlt
    exact hlt.le
  · exact hsub.le

/-! ### The interface -/

/-- The operations the driver is made of. -/
inductive DrvOp
  /-- `OSSemPend(sem_enc28j60lock, 0, &err)`. -/
  | pend
  /-- `OSSemPost(sem_enc28j60lock)`. -/
  | post
  /-- Reading `ENC28J60BANK`. -/
  | getBank
  /-- Assigning `ENC28J60BANK`. -/
  | setBank (bank : UInt8)
  /-- Reading `NextPacketPtr`. -/
  | getNext
  /-- Assigning `NextPacketPtr`. -/
  | setNext (ptr : UInt32)
  /-- Assigning `LastPacketPtr`. -/
  | setLast (ptr : UInt32)
  /-- `ENC28J60_Reset`. -/
  | reset
  /-- `ENC28J60_Read_Op`. -/
  | readOp (op : Opcode) (addr : UInt8)
  /-- `ENC28J60_Write_Op`. -/
  | writeOp (op : Opcode) (addr data : UInt8)
  /-- `ENC28J60_Read_Buf`, but for the terminating zero it leaves in the buffer. -/
  | readBuf (len : UInt32)
  /-- `ENC28J60_Write_Buf`. -/
  | writeBuf (data : List UInt8)
  deriving DecidableEq

/-- What the operations answer: the error of a pend, a variable, a register or buffer byte, as many
bytes as were asked for. -/
abbrev DrvOp.Ans : DrvOp → Type
  | pend | getBank | readOp _ _ => UInt8
  | getNext => UInt32
  | readBuf len => {bytes : List UInt8 // bytes.length = len.toNat}
  | _ => Unit

/-- A program of the driver. -/
abbrev Driver (α : Type) : Type := Prog DrvOp DrvOp.Ans α

/-- One operation. -/
def drv (o : DrvOp) : Driver (DrvOp.Ans o) := Prog.perform o

theorem wp_drv {σ : Type} {step : σ → Event DrvOp DrvOp.Ans → σ → Prop} {ok : σ → DrvOp → Prop}
    {o : DrvOp} {Q : DrvOp.Ans o → σ → Prop} {s : σ} :
    wp step ok (drv o) Q s = (ok s o ∧ ∀ r t, step s ⟨o, r⟩ t → Q r t) := wp_perform

/-- `OS_ERR_NONE`. -/
abbrev osErrNone : UInt8 := 0

/-- `OSSemPend` on the lock; what is returned is `err`. -/
abbrev pendLock : Driver UInt8 := drv .pend

/-- `OSSemPost` on the lock. -/
abbrev postLock : Driver Unit := drv .post

/-- `ENC28J60_Read_Op`. -/
abbrev enc28j60ReadOp (op : Opcode) (addr : UInt8) : Driver UInt8 := drv (.readOp op addr)

/-- `ENC28J60_Write_Op`. -/
abbrev enc28j60WriteOp (op : Opcode) (addr data : UInt8) : Driver Unit :=
  drv (.writeOp op addr data)

/-! ### Registers -/

/-- `ENC28J60_Set_Bank`. -/
def enc28j60SetBank (bank : UInt8) : Driver Unit := do
  let cur : UInt8 ← drv .getBank
  if bank &&& bankMask ≠ cur then do
    enc28j60WriteOp .bitFieldClr Reg.econ1 (0x02 ||| 0x01)
    enc28j60WriteOp .bitFieldSet Reg.econ1 ((bank &&& bankMask) >>> 5)
    drv (.setBank (bank &&& bankMask))
  else pure ()

/-- `ENC28J60_Read`. -/
def enc28j60Read (addr : UInt8) : Driver UInt8 := do
  enc28j60SetBank addr
  enc28j60ReadOp .readCtrlReg addr

/-- `ENC28J60_Write`. -/
def enc28j60Write (addr data : UInt8) : Driver Unit := do
  enc28j60SetBank addr
  enc28j60WriteOp .writeCtrlReg addr data

/-- `ENC28J60_Write` down a table of registers and values. -/
def writeAll : List (UInt8 × UInt8) → Driver Unit
  | [] => pure ()
  | (addr, data) :: rest => do
    enc28j60Write addr data
    writeAll rest

/-- The wait for `MISTAT.BUSY` to clear, with `rounds` polls to go before it is given up. -/
def phyWait : ℕ → Driver Unit
  | 0 => do
    let _ ← enc28j60Read Reg.mistat
    pure ()
  | rounds + 1 => do
    let mistat ← enc28j60Read Reg.mistat
    if mistat &&& 0x01 ≠ 0 then phyWait rounds else pure ()

/-- `ENC28J60_PHY_Write`. -/
def enc28j60PhyWrite (addr : UInt8) (data : UInt32) : Driver Unit := do
  enc28j60Write Reg.miregadr addr
  enc28j60Write Reg.miwrl (lowByte data)
  enc28j60Write Reg.miwrh (highByte data)
  phyWait 0xFFF

/-! ### Initialisation -/

/-- The receive and transmit buffers, bank 0. -/
def bufferSetup : List (UInt8 × UInt8) :=
  [(Reg.erxstl, lowByte rxstartInit), (Reg.erxsth, highByte rxstartInit),
   (Reg.erxrdptl, lowByte rxstartInit), (Reg.erxrdpth, highByte rxstartInit),
   (Reg.erxndl, lowByte rxstopInit), (Reg.erxndh, highByte rxstopInit),
   (Reg.etxstl, lowByte txstartInit), (Reg.etxsth, highByte txstartInit),
   (Reg.etxndl, lowByte txstopInit), (Reg.etxndh, highByte txstopInit)]

/-- The receive filter, bank 1: unicast frames, frames with a good CRC, and the pattern of broadcast
ARP. -/
def filterSetup : List (UInt8 × UInt8) :=
  [(Reg.erxfcon, 0x80 ||| 0x20 ||| 0x10), (Reg.epmm0, 0x3f), (Reg.epmm1, 0x30),
   (Reg.epmcsl, 0xf9), (Reg.epmcsh, 0xf7)]

/-- The MAC out of reset, bank 2. -/
def macEnable : List (UInt8 × UInt8) :=
  [(Reg.macon1, 0x01 ||| 0x08 ||| 0x04), (Reg.macon2, 0x00)]

/-- The inter-frame gaps and the frame limit, bank 2. -/
def macTiming : List (UInt8 × UInt8) :=
  [(Reg.maipgl, 0x12), (Reg.maipgh, 0x0C), (Reg.mabbipg, 0x15),
   (Reg.mamxfll, lowByte mamxfl), (Reg.mamxflh, highByte mamxfl)]

/-- The MAC address, bank 3, whose bytes the controller keeps backwards. -/
def macAddress (macaddr : Fin 6 → UInt8) : List (UInt8 × UInt8) :=
  [(Reg.maadr5, macaddr 0), (Reg.maadr4, macaddr 1), (Reg.maadr3, macaddr 2),
   (Reg.maadr2, macaddr 3), (Reg.maadr1, macaddr 4), (Reg.maadr0, macaddr 5)]

/-- `g_enc28j60_mac`. -/
def enc28j60Mac : Fin 6 → UInt8 := ![0x2, 0x0, 0x0, 0x1, 0x2, 0x3]

/-- The wait for `ESTAT.CLKRDY`, with `rounds` polls to go; `false` when `retry` has reached its
limit. The poll after the last round is made and its answer is not used. -/
def clkrdyWait : ℕ → Driver Bool
  | 0 => do
    let _ ← enc28j60Read Reg.estat
    pure false
  | rounds + 1 => do
    let estat ← enc28j60Read Reg.estat
    if estat &&& 0x01 = 0 then clkrdyWait rounds else pure true

/-- `ENC28J60_Init` once the clock is stable. -/
def configure (macaddr : Fin 6 → UInt8) : Driver UInt8 := do
  drv (.setNext rxstartInit)
  writeAll bufferSetup
  writeAll filterSetup
  writeAll macEnable
  enc28j60WriteOp .bitFieldSet Reg.macon3 (0x20 ||| 0x10 ||| 0x02 ||| 0x01)
  writeAll macTiming
  writeAll (macAddress macaddr)
  enc28j60PhyWrite Reg.phcon1 0x0100
  enc28j60PhyWrite Reg.phcon2 0x0100
  enc28j60SetBank Reg.econ1
  enc28j60WriteOp .bitFieldClr Reg.eie (0x80 ||| 0x40 ||| 0x01)
  enc28j60WriteOp .bitFieldSet Reg.econ1 0x04
  let maadr5 ← enc28j60Read Reg.maadr5
  pure (if maadr5 = macaddr 0 then 0 else 1)

/-- `ENC28J60_Init`. -/
def enc28j60Init (macaddr : Fin 6 → UInt8) : Driver UInt8 := do
  drv .reset
  enc28j60WriteOp .softReset 0 0xFF
  let ready ← clkrdyWait 250
  if ready then configure macaddr else pure 1

/-! ### Sending -/

/-- `ECON1.TXRTS` or `ECON1.DMAST`: the transmitter or the DMA is at work. -/
def transmitting (econ1 : UInt8) : Bool := decide (econ1 &&& 0x08 ||| econ1 &&& 0x20 ≠ 0)

/-- The loop that waits for the transmitter, clearing an aborted transmission; `false` when `retry`
has passed its limit. -/
def sendWait : ℕ → Driver Bool
  | 0 => do
    let _ ← sendPoll
    pure false
  | rounds + 1 => do
    let busy ← sendPoll
    if busy then sendWait rounds else pure true
where
  /-- One round: whether to go on waiting. -/
  sendPoll : Driver Bool := do
    let _ ← enc28j60Read Reg.eir
    let estat ← enc28j60Read Reg.estat
    let econ1 ← enc28j60Read Reg.econ1
    clearAbort estat
    pure (transmitting econ1 || decide (estat &&& 0x02 ≠ 0))
  /-- `TXABRT` or `LATECOL` are cleared, and `TXERIF` with them. -/
  clearAbort (estat : UInt8) : Driver Unit :=
    if estat &&& (0x02 ||| 0x10) ≠ 0 then do
      enc28j60WriteOp .bitFieldClr Reg.estat (0x02 ||| 0x10)
      enc28j60WriteOp .bitFieldClr Reg.eir 0x02
    else pure ()

/-- The transmission of `len` bytes at `packet`, the controller being free. -/
def transmit (len : UInt32) (packet : ℕ → UInt8) : Driver Unit := do
  enc28j60WriteOp .bitFieldSet Reg.econ1 0x80
  enc28j60WriteOp .bitFieldClr Reg.econ1 0x80
  enc28j60Write Reg.ewrptl (lowByte txstartInit)
  enc28j60Write Reg.ewrpth (highByte txstartInit)
  enc28j60Write Reg.etxndl (lowByte (txstartInit + len))
  enc28j60Write Reg.etxndh (highByte (txstartInit + len))
  enc28j60WriteOp .bitFieldClr Reg.eir 0x08
  enc28j60WriteOp .writeBufMem 0 0x00
  drv (.writeBuf (load packet 0 len.toNat))
  enc28j60WriteOp .bitFieldSet Reg.econ1 0x08
  let eir ← enc28j60Read Reg.eir
  if eir &&& 0x02 ≠ 0 then enc28j60WriteOp .bitFieldClr Reg.econ1 0x08 else pure ()

/-- `ENC28J60_Packet_Send` between the pend and the post. -/
def sendLocked (len : UInt32) (packet : ℕ → UInt8) : Driver Unit := do
  let free ← sendWait 200
  if free then transmit len packet else pure ()

/-- `ENC28J60_Packet_Send`. Its two exits that hold the lock both post. -/
def enc28j60PacketSend (len : UInt32) (packet : ℕ → UInt8) : Driver Unit := do
  let err ← pendLock
  if err = osErrNone then do
    sendLocked len packet
    postLock
  else pure ()

/-! ### Receiving -/

/-- What `ENC28J60_Packet_Receive` leaves: the length it returns, `none` where the local was never
assigned, and what it wrote into the buffer, from its start. -/
structure Received where
  len : Option UInt32
  packet : List UInt8
  deriving DecidableEq

/-- The registers read before and after a re-initialisation, whose values nothing uses. -/
def readStatus : Driver Unit := do
  let _ ← enc28j60Read Reg.estat
  let _ ← enc28j60Read Reg.eir
  let _ ← enc28j60Read Reg.econ1
  pure ()

/-- Whether the receiver looks dead although no packet is pending: disabled with a stable clock, or
in error with the buffer flag. -/
def receiverStuck (estat eir econ1 : UInt8) : Bool :=
  (decide (econ1 &&& 0x04 = 0) && decide (estat &&& 0x01 ≠ 0)) ||
    (decide (eir.toUInt32 * 0x01 ≠ 0) && decide (estat &&& 0x40 ≠ 0))

/-- The re-initialisation of a receiver that looks dead. -/
def reviveReceiver (estat eir econ1 : UInt8) : Driver Unit :=
  if receiverStuck estat eir econ1 then do
    let _ ← enc28j60Init enc28j60Mac
    readStatus
  else pure ()

/-- `EPKTCNT` is zero. -/
def receiveNothing (estat eir econ1 : UInt8) : Driver Received := do
  reviveReceiver estat eir econ1
  pure ⟨some 0, []⟩

/-- The loop that counts to 200 while the registers read before it say the controller is busy; they
are not read again. `false` when `retry` has passed its limit. -/
def receiveWait (busy : Bool) : ℕ → Bool
  | 0 => false
  | rounds + 1 => if busy then receiveWait busy rounds else true

/-- The next-packet pointer is outside the ring. -/
def receiveInvalid : Driver Received := do
  readStatus
  let _ ← enc28j60Init enc28j60Mac
  readStatus
  pure ⟨none, []⟩

/-- The packet's bytes, unless its status is not ok; `ENC28J60_Read_Buf` puts a zero behind them. -/
def readPacket (len rxstat : UInt32) : Driver (UInt32 × List UInt8) :=
  if rxstat &&& 0x80 = 0 then pure (0, [])
  else do
    let data : {bytes : List UInt8 // bytes.length = len.toNat} ← drv (.readBuf len)
    pure (len, data.1 ++ [0])

/-- The rest of a packet whose next-packet pointer is in the ring. -/
def receiveFrame (maxlen next : UInt32) : Driver Received := do
  let len0 ← enc28j60ReadOp .readBufMem 0
  let len1 ← enc28j60ReadOp .readBufMem 0
  let len := word len0 len1 - 4
  let rxstat0 ← enc28j60ReadOp .readBufMem 0
  let rxstat1 ← enc28j60ReadOp .readBufMem 0
  let len := if maxlen - 1 < len then maxlen - 1 else len
  let got ← readPacket len (word rxstat0 rxstat1)
  enc28j60Write Reg.erxrdptl (lowByte next)
  enc28j60Write Reg.erxrdpth (highByte next)
  enc28j60WriteOp .bitFieldSet Reg.econ2 0x40
  pure ⟨some got.1, got.2⟩

/-- A packet is pending and the controller is free. -/
def receivePending (maxlen : UInt32) : Driver Received := do
  let cur : UInt32 ← drv .getNext
  enc28j60Write Reg.erdptl (lowByte cur)
  enc28j60Write Reg.erdpth (highByte cur)
  drv (.setLast cur)
  let next0 ← enc28j60ReadOp .readBufMem 0
  drv (.setNext next0.toUInt32)
  let next1 ← enc28j60ReadOp .readBufMem 0
  drv (.setNext (word next0 next1))
  if word next0 next1 < rxstartInit ∨ rxstopInit < word next0 next1 then receiveInvalid
  else receiveFrame maxlen (word next0 next1)

/-- `ENC28J60_Packet_Receive` between the pend and the post. -/
def receiveLocked (maxlen : UInt32) : Driver Received := do
  let estat ← enc28j60Read Reg.estat
  let eir ← enc28j60Read Reg.eir
  let econ1 ← enc28j60Read Reg.econ1
  let ptkCnt ← enc28j60Read Reg.epktcnt
  if ptkCnt = 0 then receiveNothing estat eir econ1
  else if receiveWait (transmitting econ1 || decide (estat &&& 0x04 ≠ 0)) 200 then
    receivePending maxlen
  else pure ⟨some 0, []⟩

/-- `ENC28J60_Packet_Receive`. Its four exits that hold the lock all post. -/
def enc28j60PacketReceive (maxlen : UInt32) : Driver Received := do
  let err ← pendLock
  if err = osErrNone then do
    let got ← receiveLocked maxlen
    postLock
    pure got
  else pure ⟨none, []⟩

/-! ### What most functions leave alone -/

/-- The registers that hold a pointer into the receive ring. -/
def ringPointers : List UInt8 := [Reg.erdptl, Reg.erdpth, Reg.erxrdptl, Reg.erxrdpth]

/-- An operation is **quiet** if it leaves the lock, the packet pointers and the receive ring's
registers alone, and reads no buffer byte. -/
def DrvOp.Quiet : DrvOp → Prop
  | getBank | setBank _ | writeBuf _ => True
  | readOp op _ => op = .readCtrlReg
  | writeOp op addr _ => op ≠ .softReset ∧ (op = .writeCtrlReg → addr ∉ ringPointers)
  | _ => False

/-- A program of quiet operations. -/
abbrev QuietProg {α : Type} (p : Driver α) : Prop := Only DrvOp.Quiet p

/-- A bit field is set or cleared, or the control byte of a frame is written. -/
theorem quiet_writeOp {op : Opcode} {addr data : UInt8} (hreset : op ≠ .softReset)
    (hwrite : op ≠ .writeCtrlReg) : QuietProg (enc28j60WriteOp op addr data) :=
  Only.perform ⟨hreset, fun h ↦ absurd h hwrite⟩

theorem quiet_setBank (addr : UInt8) : QuietProg (enc28j60SetBank addr) := by
  refine .bind (Only.perform trivial) fun cur ↦ .ite ?_ (.pure ())
  refine .bind (quiet_writeOp (by decide) (by decide)) fun _ ↦ ?_
  exact .bind (quiet_writeOp (by decide) (by decide)) fun _ ↦ Only.perform trivial

theorem quiet_read (addr : UInt8) : QuietProg (enc28j60Read addr) :=
  .bind (quiet_setBank addr) fun _ ↦ Only.perform rfl

theorem quiet_write {addr data : UInt8} (h : addr ∉ ringPointers) :
    QuietProg (enc28j60Write addr data) :=
  .bind (quiet_setBank addr) fun _ ↦ Only.perform ⟨by decide, fun _ ↦ h⟩

/-- A table that writes none of the ring pointers. The test is a Boolean, so that it is evaluated
over the table and not over all addresses. -/
theorem quiet_writeAll {table : List (UInt8 × UInt8)}
    (h : ((table.map Prod.fst).all fun addr ↦ addr ∉ ringPointers) = true) :
    QuietProg (writeAll table) := by
  induction table with
  | nil => exact .pure ()
  | cons e table ih =>
    obtain ⟨he, hrest⟩ := Bool.and_eq_true_iff.1 h
    exact .bind (quiet_write (of_decide_eq_true he)) fun _ ↦ ih hrest

theorem quiet_phyWait (rounds : ℕ) : QuietProg (phyWait rounds) := by
  induction rounds with
  | zero => exact .bind (quiet_read _) fun _ ↦ .pure ()
  | succ rounds ih => exact .bind (quiet_read _) fun _ ↦ .ite ih (.pure ())

theorem quiet_phyWrite (addr : UInt8) (data : UInt32) : QuietProg (enc28j60PhyWrite addr data) :=
  .bind (quiet_write (by decide)) fun _ ↦ .bind (quiet_write (by decide)) fun _ ↦
    .bind (quiet_write (by decide)) fun _ ↦ quiet_phyWait _

theorem quiet_clkrdyWait (rounds : ℕ) : QuietProg (clkrdyWait rounds) := by
  induction rounds with
  | zero => exact .bind (quiet_read _) fun _ ↦ .pure _
  | succ rounds ih => exact .bind (quiet_read _) fun _ ↦ .ite ih (.pure _)

/-- `ENC28J60_Init` after the buffer boundaries have been written. -/
def configureRest (macaddr : Fin 6 → UInt8) : Driver UInt8 := do
  writeAll filterSetup
  writeAll macEnable
  enc28j60WriteOp .bitFieldSet Reg.macon3 (0x20 ||| 0x10 ||| 0x02 ||| 0x01)
  writeAll macTiming
  writeAll (macAddress macaddr)
  enc28j60PhyWrite Reg.phcon1 0x0100
  enc28j60PhyWrite Reg.phcon2 0x0100
  enc28j60SetBank Reg.econ1
  enc28j60WriteOp .bitFieldClr Reg.eie (0x80 ||| 0x40 ||| 0x01)
  enc28j60WriteOp .bitFieldSet Reg.econ1 0x04
  let maadr5 ← enc28j60Read Reg.maadr5
  pure (if maadr5 = macaddr 0 then 0 else 1)

theorem configure_eq (macaddr : Fin 6 → UInt8) :
    configure macaddr = (do
      drv (.setNext rxstartInit)
      writeAll bufferSetup
      configureRest macaddr) := rfl

theorem quiet_configureRest (macaddr : Fin 6 → UInt8) : QuietProg (configureRest macaddr) := by
  refine .bind (quiet_writeAll rfl) fun _ ↦ .bind (quiet_writeAll rfl) fun _ ↦ ?_
  refine .bind (quiet_writeOp (by decide) (by decide)) fun _ ↦ ?_
  refine .bind (quiet_writeAll rfl) fun _ ↦ .bind (quiet_writeAll rfl) fun _ ↦ ?_
  refine .bind (quiet_phyWrite _ _) fun _ ↦ .bind (quiet_phyWrite _ _) fun _ ↦ ?_
  refine .bind (quiet_setBank _) fun _ ↦ ?_
  refine .bind (quiet_writeOp (by decide) (by decide)) fun _ ↦ ?_
  refine .bind (quiet_writeOp (by decide) (by decide)) fun _ ↦ ?_
  exact .bind (quiet_read _) fun _ ↦ .pure _

theorem quiet_sendWait (rounds : ℕ) : QuietProg (sendWait rounds) := by
  have hpoll : QuietProg sendWait.sendPoll := by
    refine .bind (quiet_read _) fun _ ↦ .bind (quiet_read _) fun _ ↦ ?_
    refine .bind (quiet_read _) fun _ ↦ .bind (.ite ?_ (.pure ())) fun _ ↦ .pure _
    exact .bind (quiet_writeOp (by decide) (by decide)) fun _ ↦
      quiet_writeOp (by decide) (by decide)
  induction rounds with
  | zero => exact .bind hpoll fun _ ↦ .pure _
  | succ rounds ih => exact .bind hpoll fun _ ↦ .ite ih (.pure _)

theorem quiet_transmit (len : UInt32) (packet : ℕ → UInt8) : QuietProg (transmit len packet) := by
  refine .bind (quiet_writeOp (by decide) (by decide)) fun _ ↦ ?_
  refine .bind (quiet_writeOp (by decide) (by decide)) fun _ ↦ ?_
  refine .bind (quiet_write (by decide)) fun _ ↦ .bind (quiet_write (by decide)) fun _ ↦ ?_
  refine .bind (quiet_write (by decide)) fun _ ↦ .bind (quiet_write (by decide)) fun _ ↦ ?_
  refine .bind (quiet_writeOp (by decide) (by decide)) fun _ ↦ ?_
  refine .bind (quiet_writeOp (by decide) (by decide)) fun _ ↦ ?_
  refine .bind (Only.perform trivial) fun _ ↦ ?_
  refine .bind (quiet_writeOp (by decide) (by decide)) fun _ ↦ ?_
  refine .bind (quiet_read _) fun _ ↦ .ite ?_ (.pure ())
  exact quiet_writeOp (by decide) (by decide)

/-- **Sending is quiet** but for the lock. -/
theorem quiet_sendLocked (len : UInt32) (packet : ℕ → UInt8) : QuietProg (sendLocked len packet) :=
  .bind (quiet_sendWait 200) fun _ ↦ .ite (quiet_transmit len packet) (.pure ())

theorem quiet_readStatus : QuietProg readStatus :=
  .bind (quiet_read _) fun _ ↦ .bind (quiet_read _) fun _ ↦ .bind (quiet_read _) fun _ ↦ .pure ()

end YHAudioLink
