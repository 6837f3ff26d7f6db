import YHAudioLink.Enc28j60.ReceiveResult
import YHAudioLink.Netif.Ethernetif
import Mathlib.Data.List.GetD

/-!
# The driver under the Ethernet glue

In the glue a call of `ENC28J60_Packet_Receive` is one step, and what it answers is a label: there
the array matters, and who writes it when. In the driver it is a program, and what the controller
reports is arbitrary. The two agree. Whatever is reported, a call that got the lock returns what one
of the labels says, and leaves the array as that label does (`exists_rxResponse`), so the step of
the glue is all that a call can do to the card input task (`receive_refines`).

Where the driver does not assign the length, the caller gets what the register held. That value is
`register` here, and nothing is known of it.
-/

namespace YHAudioLink

open ByteStore Programs

/-! ### Two bytes -/

/-- Two bytes as the 16-bit number the controller means. -/
def word16 (lo hi : UInt8) : UInt16 := (word lo hi).toUInt16

@[simp] theorem toUInt32_word16 (lo hi : UInt8) : (word16 lo hi).toUInt32 = word lo hi := by
  have hlo := lo.toNat_lt
  have hhi := hi.toNat_lt
  rw [← UInt32.toNat_inj, word16, UInt16.toNat_toUInt32, UInt32.toNat_toUInt16, toNat_word]
  omega

/-- The status is tested in 16 bits as it is in 32. -/
theorem word16_and_received (lo hi : UInt8) :
    word16 lo hi &&& 0x80 = 0 ↔ word lo hi &&& 0x80 = 0 := by
  have hand : (word16 lo hi &&& 0x80).toUInt32 = word lo hi &&& 0x80 := by
    rw [UInt16.toUInt32_and, toUInt32_word16]
    rfl
  rw [← hand]
  exact UInt16.toUInt32_inj.symm

/-! ### Labels that say what a packet is -/

section

variable {count rxstat : UInt16}

/-- The length the glue works with is the driver's. -/
theorem packetLen_eq_clampLen (maxlen : UInt32) (h : rxstat &&& 0x80 ≠ 0) :
    packetLen maxlen count rxstat = clampLen maxlen count.toUInt32 := if_neg h

/-- The bytes of a packet are those that lie in the buffer memory behind its header. -/
theorem packetBytes_of_length {bytes : List UInt8} (h : rxstat &&& 0x80 ≠ 0)
    (hlen : bytes.length = (clampLen maxFramelen count.toUInt32).toNat) :
    packetBytes count rxstat (fun i ↦ bytes.getD i 0) = bytes := by
  rw [packetBytes, packetLen_eq_clampLen maxFramelen h, ← hlen]
  refine List.ext_getElem (length_load _ _ _) fun i hi hi' ↦ ?_
  rw [getElem_load, Nat.zero_add]
  exact List.getD_eq_getElem _ _ hi'

end

/-! ### The refinement -/

/-- **A label describes a result**: it returns the length, the register's value where there is none,
leaves the array with the bytes stored at its start, and the frame it speaks of is what was read
behind the header. -/
structure RxResponse.Describes (resp : RxResponse) (register : UInt32) (rs : List Reading)
    (r : Received) : Prop where
  ret : resp.ret = r.len.getD register
  buffer : ∀ buf, resp.buffer buf = store buf 0 r.packet
  frame : ∀ bytes, resp.frame = some bytes → bytes = (bufs rs).drop 6

/-- A result without a frame leaves the array. -/
theorem RxResponse.describes_of_frame_none {resp : RxResponse} {register : UInt32}
    {rs : List Reading} {len : Option UInt32} (hret : resp.ret = len.getD register)
    (hframe : resp.frame = none) : resp.Describes register rs ⟨len, []⟩ := by
  refine ⟨hret, fun buf ↦ ?_, fun bytes h ↦ by rw [hframe] at h; cases h⟩
  cases resp with
  | packet count rxstat data => exact absurd hframe (Option.some_ne_none _)
  | _ => rfl

/-- **Path by path**: a call that got the lock is described by a label. -/
theorem ReceivePath.exists_rxResponse {s t : DrvState} {r : Received}
    (h : ReceivePath mamxfl s r t) {rs : List Reading} (hrs : t.readings = s.readings ++ rs)
    (hpend : rs.head? = some (.pend osErrNone)) (register : UInt32) :
    ∃ resp : RxResponse, resp.Describes register rs r := by
  cases h with
  | refused err herr =>
    obtain rfl := List.append_cancel_left hrs
    exact absurd (by simpa using hpend) herr
  | nothing => exact ⟨.noPacket, RxResponse.describes_of_frame_none rfl rfl⟩
  | revived => exact ⟨.noPacket, RxResponse.describes_of_frame_none rfl rfl⟩
  | busy => exact ⟨.busy, RxResponse.describes_of_frame_none rfl rfl⟩
  | invalid => exact ⟨.badPointer register, RxResponse.describes_of_frame_none rfl rfl⟩
  | badStatus estat eir econ1 ptkCnt next0 next1 len0 len1 stat0 stat1 hcnt hfree hring hstat =>
    have hread := eq_of_badStatus hrs
    have hsix : bufs rs = [next0, next1, len0, len1, stat0, stat1] := by simp [hread]
    have hbad : word16 stat0 stat1 &&& 0x80 = 0 := (word16_and_received _ _).2 hstat
    refine ⟨.packet (word16 len0 len1) (word16 stat0 stat1) fun _ ↦ 0,
      if_pos hbad, fun buf ↦ ?_, ?_⟩
    · exact if_pos hbad
    · intro bytes hbytes
      rw [hsix, ← Option.some.inj hbytes]
      exact packetBytes_of_badStatus _ hbad
  | frame estat eir econ1 ptkCnt next0 next1 len0 len1 stat0 stat1 data hcnt hfree hring hstat
      hlen =>
    have hread := eq_of_frame hrs
    have hall : bufs rs = next0 :: next1 :: len0 :: len1 :: stat0 :: stat1 :: data := by
      simp [hread]
    have hgood : word16 stat0 stat1 &&& 0x80 ≠ 0 := fun h0 ↦ hstat ((word16_and_received _ _).1 h0)
    have hdata :
        packetBytes (word16 len0 len1) (word16 stat0 stat1) (fun i ↦ data.getD i 0) = data :=
      packetBytes_of_length hgood (by rw [toUInt32_word16]; exact hlen)
    refine ⟨.packet (word16 len0 len1) (word16 stat0 stat1) fun i ↦ data.getD i 0,
      ?_, fun buf ↦ ?_, ?_⟩
    · show packetLen maxFramelen (word16 len0 len1) (word16 stat0 stat1) = _
      rw [packetLen_eq_clampLen _ hgood, toUInt32_word16]
      rfl
    · show (if word16 stat0 stat1 &&& 0x80 = 0 then buf else readBuf buf _) = _
      rw [if_neg hgood, hdata]
      rfl
    · intro bytes hbytes
      rw [hall, ← Option.some.inj hbytes]
      exact hdata

/-- **What a call returns is one of the labels.** -/
theorem exists_rxResponse {s t : DrvState} {tr : List (Event DrvOp DrvOp.Ans)} {r : Received}
    (h : Returns DrvState.step (enc28j60PacketReceive mamxfl) s tr r t)
    (hpend : (readings tr).head? = some (.pend osErrNone)) (register : UInt32) :
    ∃ resp : RxResponse, resp.Describes register (readings tr) r := by
  have hpath : ReceivePath mamxfl s r t :=
    wp_of_steps (wp_receive_path onlyErdpt_anyOp (fun _ _ ↦ trivial) fun _ _ hpath ↦ hpath) h
  exact hpath.exists_rxResponse (readings_of_steps h) hpend register

/-- **A call of the driver is a step of the glue**: it moves the card input task on to its post,
with the length and the bytes the driver settled on. -/
theorem receive_refines {s t : DrvState} {tr : List (Event DrvOp DrvOp.Ans)} {r : Received}
    (h : Returns DrvState.step (enc28j60PacketReceive mamxfl) s tr r t)
    (hpend : (readings tr).head? = some (.pend osErrNone)) (register : UInt32) {e : Ethernetif}
    (hpc : e.input = .receive) :
    ∃ (resp : RxResponse) (frame : Option (List UInt8)), e.step (.receive resp) = some { e with
        buf := store e.buf 0 r.packet
        input := .post (r.len.getD register) frame } ∧
      ∀ bytes, frame = some bytes → bytes = (bufs (readings tr)).drop 6 := by
  obtain ⟨resp, hret, hbuffer, hframe⟩ := exists_rxResponse h hpend register
  refine ⟨resp, resp.frame, ?_, hframe⟩
  simp only [Ethernetif.step, lowLevelOutput, lowLevelInput, hpc, hret, hbuffer, Option.none_or]

end YHAudioLink
