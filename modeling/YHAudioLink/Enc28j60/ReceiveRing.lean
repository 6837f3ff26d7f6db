import YHAudioLink.Enc28j60.Banks
import YHAudioLink.Foundation.Ring
import Mathlib.Logic.Relation

/-!
# The receive ring of the controller

The controller's side of reception. An accepted frame is laid down in the ring
`[RXSTART_INIT, RXSTOP_INIT]` behind the frame before it, as a record: the address of the next
record, the byte count, the status, and the data with its CRC. `EPKTCNT` counts the records that
have not been taken back, and the controller stops accepting before it would reach the byte at
`ERXRDPT`.

Reading is a pointer, `ERDPT`, that wraps from `RXSTOP_INIT` to `RXSTART_INIT`. A write to
`ERXRDPTL` is held in a latch until `ERXRDPTH` is written, so `ERXRDPT` moves at once.

Frames arrive at any moment, also between two bytes of a burst. What a run can rely on is therefore
what no arrival changes: `Stored` says which frames lie in the ring, and an arrival only appends one
(`Stored.arrives`).
-/

namespace YHAudioLink

open Programs Ring

/-! ### Frames and their records -/

/-- A frame the controller has accepted: its data, of which the last four bytes are the CRC, the two
status bytes, and the bytes left unused behind it. -/
structure RxFrame where
  data : List UInt8
  rxstat0 : UInt8
  rxstat1 : UInt8
  pad : List UInt8
  five_le : 5 ≤ data.length
  received : rxstat0 &&& 0x80 ≠ 0

/-- The number of cells of the ring. -/
def ringSize : ℕ := 6641

/-- The first cell of the ring. -/
def ringBase : ℕ := 1536

theorem ring_bounds :
    rxstartInit.toNat = ringBase ∧ rxstopInit.toNat + 1 = ringBase + ringSize := ⟨rfl, rfl⟩

/-- The cell of a position in the receive ring. -/
abbrev cell (x : ℕ) : ℕ := slot ringBase ringSize x

/-- The ring read by position. -/
abbrev ringView (mem : ℕ → UInt8) : ℕ → UInt8 := unroll ringBase ringSize mem

namespace RxFrame

/-- The number of cells a record takes. -/
def span (f : RxFrame) : ℕ := 6 + f.data.length + f.pad.length

/-- The record of a frame, the next one being at the address `next`. -/
def record (f : RxFrame) (next : ℕ) : List UInt8 :=
  [lowByte (.ofNat next), highByte (.ofNat next), lowByte (.ofNat f.data.length),
    highByte (.ofNat f.data.length), f.rxstat0, f.rxstat1] ++ (f.data ++ f.pad)

/-- The record of a frame that begins at a position. -/
def recordAt (f : RxFrame) (x : ℕ) : List UInt8 := f.record (cell (x + f.span))

@[simp] theorem length_record (f : RxFrame) (next : ℕ) : (f.record next).length = f.span := by
  simp only [record, span, List.length_append, List.length_cons, List.length_nil]
  omega

@[simp] theorem length_recordAt (f : RxFrame) (x : ℕ) : (f.recordAt x).length = f.span :=
  f.length_record _

/-- What the frame carries: its data without the CRC. -/
def payload (f : RxFrame) : List UInt8 := f.data.take (f.data.length - 4)

theorem length_payload (f : RxFrame) : f.payload.length = f.data.length - 4 := by
  rw [payload, List.length_take]
  omega

end RxFrame

/-! ### The controller -/

/-- The receiving half of the controller: its buffer memory, its pointers, the latch of `ERXRDPTL`,
the packet counter, and (for the laws) the frames accepted so far. -/
structure Receiver where
  mem : ℕ → UInt8
  erdpt : ℕ
  erxrdptl : UInt8
  erxrdpt : ℕ
  erxwrpt : ℕ
  epktcnt : ℕ
  accepted : List RxFrame

namespace Receiver

/-- The frame laid down at `ERXWRPT`. -/
def store (c : Receiver) (f : RxFrame) : Receiver :=
  { c with
    mem := put ringBase ringSize c.mem c.erxwrpt
      (f.record (advance ringBase ringSize c.erxwrpt f.span))
    erxwrpt := advance ringBase ringSize c.erxwrpt f.span
    epktcnt := c.epktcnt + 1
    accepted := c.accepted ++ [f] }

@[simp] theorem erdpt_store (c : Receiver) (f : RxFrame) : (c.store f).erdpt = c.erdpt := rfl

@[simp] theorem erxrdptl_store (c : Receiver) (f : RxFrame) :
    (c.store f).erxrdptl = c.erxrdptl := rfl

@[simp] theorem erxrdpt_store (c : Receiver) (f : RxFrame) :
    (c.store f).erxrdpt = c.erxrdpt := rfl

@[simp] theorem erxwrpt_store (c : Receiver) (f : RxFrame) :
    (c.store f).erxwrpt = advance ringBase ringSize c.erxwrpt f.span := rfl

theorem mem_store (c : Receiver) (f : RxFrame) :
    (c.store f).mem = put ringBase ringSize c.mem c.erxwrpt
      (f.record (advance ringBase ringSize c.erxwrpt f.span)) := by
  rw [store]

@[simp] theorem epktcnt_store (c : Receiver) (f : RxFrame) :
    (c.store f).epktcnt = c.epktcnt + 1 := rfl

@[simp] theorem accepted_store (c : Receiver) (f : RxFrame) :
    (c.store f).accepted = c.accepted ++ [f] := rfl

/-- There is room for the frame: the counter does not overflow, and the byte at `ERXRDPT` is not
reached. -/
def Fits (c : Receiver) (f : RxFrame) : Prop :=
  c.epktcnt < 255 ∧ distance ringSize c.erxrdpt c.erxwrpt + f.span < ringSize

instance (c : Receiver) (f : RxFrame) : Decidable (c.Fits f) := inferInstanceAs (Decidable (_ ∧ _))

/-- A frame is accepted. -/
def Arrives (c d : Receiver) : Prop := ∃ f, c.Fits f ∧ d = c.store f

/-- Any number of frames are accepted. -/
abbrev Arrivals : Receiver → Receiver → Prop := Relation.ReflTransGen Arrives

/-- `ERDPT` after a byte has been read. -/
def readNext (c : Receiver) : Receiver :=
  { c with erdpt := advance ringBase ringSize c.erdpt 1 }

/-- A burst of reads, with arrivals before every byte. -/
inductive ReadsBuf : Receiver → List UInt8 → Receiver → Prop
  | done (c : Receiver) : ReadsBuf c [] c
  | byte {c d e : Receiver} {bytes : List UInt8} : Arrivals c d → ReadsBuf d.readNext bytes e →
      ReadsBuf c (d.mem d.erdpt :: bytes) e

/-- A control register is written. The registers that bound the ring, and those that do not belong
to reception, may do anything. -/
def writes (c : Receiver) (reg data : UInt8) (d : Receiver) : Prop :=
  if reg = Reg.erdptl then d = { c with erdpt := c.erdpt / 256 * 256 + data.toNat }
  else if reg = Reg.erdpth then d = { c with erdpt := c.erdpt % 256 + 256 * data.toNat }
  else if reg = Reg.erxrdptl then d = { c with erxrdptl := data }
  else if reg = Reg.erxrdpth then d = { c with erxrdpt := c.erxrdptl.toNat + 256 * data.toNat }
  else True

/-- A bit field is set. `ECON2.PKTDEC` counts a packet off, and the bits of `ECON1` are not the
receiver's. -/
def setsBits (c : Receiver) (reg data : UInt8) (d : Receiver) : Prop :=
  if reg = Reg.econ2 ∧ data = 0x40 then d = { c with epktcnt := c.epktcnt - 1 }
  else reg = Reg.econ1 → d = c

/-- One operation of the driver with its answer, where `reg` is the register an address reaches. A
reset, and every transaction reception has no part in, may do anything. -/
def step (reg : UInt8 → UInt8) : Receiver → Event DrvOp DrvOp.Ans → Receiver → Prop
  | c, ⟨.readOp .readCtrlReg addr, v⟩, d =>
    (reg addr = Reg.epktcnt → v = UInt8.ofNat c.epktcnt) ∧ d = c
  | c, ⟨.readOp .readBufMem _, v⟩, d => v = c.mem c.erdpt ∧ d = c.readNext
  | c, ⟨.readBuf _, bytes⟩, d => ReadsBuf c bytes.1 d
  | c, ⟨.writeOp .writeCtrlReg addr data, _⟩, d => c.writes (reg addr) data d
  | c, ⟨.writeOp .bitFieldSet addr data, _⟩, d => c.setsBits (reg addr) data d
  | c, ⟨.writeOp .bitFieldClr addr _, _⟩, d => reg addr = Reg.econ1 → d = c
  | _, ⟨.readOp _ _, _⟩, _ | _, ⟨.writeOp _ _ _, _⟩, _ | _, ⟨.writeBuf _, _⟩, _
  | _, ⟨.reset, _⟩, _ =>
    True
  | c, _, d => d = c

end Receiver

/-! ### What lies in the ring -/

/-- **The invariant of the ring**: the frames `done` have been taken back, and behind the position
`read` lie the frames `pending`. `held` is 1 between the move of `ERXRDPT` and the decrement of the
counter. -/
structure Stored (done pending : List RxFrame) (held read : ℕ) (c : Receiver) : Prop where
  erxrdpt : c.erxrdpt = cell read
  erxwrpt : c.erxwrpt = cell (chainEnd RxFrame.recordAt read pending)
  fits : chainEnd RxFrame.recordAt read pending < read + ringSize
  chain : Chain RxFrame.recordAt (ringView c.mem) read pending
  accepted : c.accepted = done ++ pending
  epktcnt : c.epktcnt = pending.length + held

namespace Stored

variable {done pending : List RxFrame} {held read : ℕ} {c d : Receiver} {f : RxFrame}

/-- **An arrival appends a frame.** -/
theorem arrives (h : Stored done pending held read c) (hc : c.Fits f) :
    Stored done (pending ++ [f]) held read (c.store f) := by
  have hle : read ≤ chainEnd RxFrame.recordAt read pending := le_chainEnd
  have hroom := hc.2
  rw [h.erxrdpt, h.erxwrpt, distance_slot hle h.fits] at hroom
  have hend : chainEnd RxFrame.recordAt read (pending ++ [f]) =
      chainEnd RxFrame.recordAt read pending + f.span := by
    rw [chainEnd_append_singleton, f.length_recordAt]
  have hfits : chainEnd RxFrame.recordAt read (pending ++ [f]) < read + ringSize := by
    rw [hend]
    omega
  refine ⟨h.erxrdpt, ?_, hfits, ?_, ?_, ?_⟩
  · rw [Receiver.erxwrpt_store, h.erxwrpt, hend, advance_slot]
  · rw [Receiver.mem_store, h.erxwrpt, advance_slot]
    exact h.chain.put hfits.le
  · rw [Receiver.accepted_store, h.accepted, List.append_assoc]
  · rw [Receiver.epktcnt_store, h.epktcnt, List.length_append, List.length_singleton]
    omega

/-- **The first frame is taken back**, but for the counter. -/
theorem release (h : Stored done (f :: pending) 0 read c) :
    Stored (done ++ [f]) pending 1 (read + f.span)
      { c with erxrdpt := cell (read + f.span) } := by
  have hend : chainEnd RxFrame.recordAt read (f :: pending) =
      chainEnd RxFrame.recordAt (read + f.span) pending := by
    rw [chainEnd, f.length_recordAt]
  have hfits := h.fits
  have hchain := h.chain.2
  rw [f.length_recordAt] at hchain
  refine ⟨rfl, ?_, ?_, hchain, ?_, ?_⟩
  · rw [h.erxwrpt, hend]
  · rw [← hend]
    omega
  · rw [h.accepted, List.append_assoc, List.singleton_append]
  · rw [h.epktcnt, List.length_cons]

/-- The counter is counted down. -/
theorem decrement (h : Stored done pending 1 read c) :
    Stored done pending 0 read { c with epktcnt := c.epktcnt - 1 } := by
  refine ⟨h.erxrdpt, h.erxwrpt, h.fits, h.chain, h.accepted, ?_⟩
  rw [h.epktcnt, Nat.add_sub_cancel, Nat.add_zero]

end Stored

end YHAudioLink
