import YHAudioLink.Foundation.ByteStore
import YHAudioLink.Foundation.Runs
import YHAudioLink.Kernel.Semaphore
import Mathlib.Data.UInt

/-!
# The Ethernet glue

`low_level_output`, run by the tcpip thread, and `low_level_input`, run by the card input task, with
the two driver functions they call. Both move their frames through one static array, `s_lwip_buf`:

* output **gathers** the payloads of its pbuf chain into the array, then takes the lock of the
  controller, hands the array over, and releases the lock;
* input takes the lock, has the controller's bytes put into the array, releases the lock, and then
  **scatters** the array over a freshly allocated pbuf chain.

So the lock covers the transfers to and from the controller and neither the gathering nor the
scattering. A step of the machine is one `memcpy`, one pend or post, or one transfer; the accesses
to the controller's registers around a transfer belong to it, and what they return is a label.

What is handed to the controller and what is returned to lwIP is recorded in `trace`, newest first,
next to what it should have been.
-/

namespace YHAudioLink

open ByteStore

/-! ### Sizes -/

/-- The size of `s_lwip_buf`. -/
abbrev lwipBufSize : ℕ := 2048

/-- `MAX_FRAMELEN`. -/
abbrev maxFramelen : UInt32 := 1518

/-- `PBUF_POOL_BUFSIZE`, a multiple of the alignment. -/
abbrev pbufPoolBufsize : ℕ := 512

/-- A pbuf chain handed to `low_level_output`: its payloads, which fit the array. lwIP sends no
frame longer than the MTU of 1500 and an Ethernet header. -/
structure PbufChain where
  payloads : List (List UInt8)
  length_le : payloads.flatten.length ≤ lwipBufSize
  deriving DecidableEq

/-- The lengths of the pbufs `pbuf_alloc` chains together for `rem` bytes; `fuel` bounds their
number. -/
def pbufAllocLens : ℕ → ℕ → List ℕ
  | 0, _ => []
  | fuel + 1, rem =>
    if rem = 0 then []
    else min rem pbufPoolBufsize :: pbufAllocLens fuel (rem - min rem pbufPoolBufsize)

/-- **The chain holds exactly the requested length.** -/
theorem sum_pbufAllocLens {fuel rem : ℕ} (h : rem ≤ fuel) : (pbufAllocLens fuel rem).sum = rem := by
  induction fuel generalizing rem with
  | zero => rw [Nat.le_zero.1 h, pbufAllocLens, List.sum_nil]
  | succ fuel ih =>
    rw [pbufAllocLens]
    split
    · next hzero => rw [hzero, List.sum_nil]
    · next hpos =>
      have hpiece : 0 < min rem pbufPoolBufsize := by
        rw [lt_min_iff]
        exact ⟨Nat.pos_of_ne_zero hpos, by decide⟩
      have hle : min rem pbufPoolBufsize ≤ rem := min_le_left _ _
      rw [List.sum_cons, ih (by omega)]
      omega

/-! ### What the controller answers -/

/-- One call of `ENC28J60_Packet_Receive`, from the controller's side. -/
inductive RxResponse
  /-- `EPKTCNT` is zero. -/
  | noPacket
  /-- A transmission or a reception is in progress for 200 polls. -/
  | busy
  /-- The next-packet pointer is outside the ring; `len` is returned without having been assigned,
  so it is whatever the register held. -/
  | badPointer (len : UInt32)
  /-- A packet: its byte count, its status and the bytes that follow. -/
  | packet (count : UInt16) (rxstat : UInt16) (data : ℕ → UInt8)

/-- The length `ENC28J60_Packet_Receive` settles on: the CRC is taken off, in 32 bits, the rest is
limited, and a packet whose status is not ok counts as empty. -/
def packetLen (maxlen : UInt32) (count rxstat : UInt16) : UInt32 :=
  let len := count.toUInt32 - 4
  let len := if maxlen - 1 < len then maxlen - 1 else len
  if rxstat &&& 0x80 = 0 then 0 else len

/-- The bytes the controller delivers for a packet. -/
def packetBytes (count rxstat : UInt16) (data : ℕ → UInt8) : List UInt8 :=
  load data 0 (packetLen maxFramelen count rxstat).toNat

/-- `ENC28J60_Read_Buf` behind the bytes puts a terminating zero. -/
def readBuf (buf : ℕ → UInt8) (frame : List UInt8) : ℕ → UInt8 := store buf 0 (frame ++ [0])

/-- The array after `ENC28J60_Packet_Receive`. A packet whose status is not ok is not read. -/
def RxResponse.buffer (buf : ℕ → UInt8) : RxResponse → ℕ → UInt8
  | packet count rxstat data =>
    if rxstat &&& 0x80 = 0 then buf else readBuf buf (packetBytes count rxstat data)
  | _ => buf

/-- The value `ENC28J60_Packet_Receive` returns. -/
def RxResponse.ret : RxResponse → UInt32
  | noPacket | busy => 0
  | badPointer len => len
  | packet count rxstat _ => packetLen maxFramelen count rxstat

/-- The frame the controller delivered, if it delivered one. -/
def RxResponse.frame : RxResponse → Option (List UInt8)
  | packet count rxstat data => some (packetBytes count rxstat data)
  | _ => none

/-- **A frame is shorter than the limit**, also when the byte count was below four. -/
theorem toNat_packetLen_lt (count rxstat : UInt16) :
    (packetLen maxFramelen count rxstat).toNat < 1518 := by
  have hlimit : (maxFramelen - 1).toNat = 1517 := by decide
  simp only [packetLen]
  split
  · decide
  · split
    · rw [hlimit]
      decide
    · next hle =>
      rw [UInt32.lt_iff_toNat_lt, hlimit] at hle
      omega

/-- The length survives the conversion to `u16_t`. -/
theorem toNat_toUInt16_packetLen (count rxstat : UInt16) :
    (packetLen maxFramelen count rxstat).toUInt16.toNat =
      (packetLen maxFramelen count rxstat).toNat := by
  have hlt := toNat_packetLen_lt count rxstat
  rw [UInt32.toNat_toUInt16]
  omega

@[simp] theorem length_packetBytes (count rxstat : UInt16) (data : ℕ → UInt8) :
    (packetBytes count rxstat data).length = (packetLen maxFramelen count rxstat).toNat :=
  length_load _ _ _

/-- A packet whose status is not ok counts as empty. -/
theorem packetBytes_of_badStatus {count rxstat : UInt16} (data : ℕ → UInt8)
    (h : rxstat &&& 0x80 = 0) : packetBytes count rxstat data = [] := by
  have hlen : packetLen maxFramelen count rxstat = 0 := if_pos h
  rw [packetBytes, hlen]
  rfl

/-! ### States -/

/-- Where the tcpip thread is. -/
inductive OutputPc
  | idle
  /-- In the loop of `low_level_output`: `rest` are the payloads still to be copied, to
  `sendLen`. -/
  | gather (p : PbufChain) (rest : List (List UInt8)) (sendLen : ℕ)
  /-- In `ENC28J60_Packet_Send`, with the lock. -/
  | transmit (p : PbufChain) (sendLen : ℕ)
  /-- About to post the lock. -/
  | post

/-- Where the card input task is. The frame the controller delivered is kept beside the length the
code works with. -/
inductive InputPc
  | idle
  /-- In `ENC28J60_Packet_Receive`, with the lock. -/
  | receive
  /-- About to post the lock and return `ret`. -/
  | post (ret : UInt32) (frame : Option (List UInt8))
  /-- About to allocate a chain for `len` bytes. -/
  | alloc (len : UInt16) (frame : Option (List UInt8))
  /-- In the loop of `low_level_input`: `lens` are the pbufs still to be filled, from `revLen`. -/
  | scatter (frame : Option (List UInt8)) (lens : List ℕ) (revLen : ℕ) (done : List (List UInt8))

/-- What is recorded of a run. -/
inductive EthEvent
  /-- The controller was handed `written` for this chain. -/
  | sent (p : PbufChain) (written : List UInt8)
  /-- `low_level_input` returned this chain for a frame. -/
  | input (frame : List UInt8) (payloads : List (List UInt8))
  deriving DecidableEq

/-- The array, the lock, and the two tasks. -/
structure Ethernetif where
  /-- `s_lwip_buf`. -/
  buf : ℕ → UInt8
  /-- The count of `sem_enc28j60lock`. -/
  lock : ℕ
  output : OutputPc
  input : InputPc
  trace : List EthEvent

/-- The initial states: `s_lwip_buf` may hold anything. -/
def Ethernetif.Init (s : Ethernetif) : Prop :=
  ∃ buf, s = ⟨buf, 1, .idle, .idle, []⟩

/-! ### Steps -/

/-- Who moves, with what the environment supplies. -/
inductive EthLabel
  /-- The tcpip thread calls `low_level_output`. -/
  | lowLevelOutput (p : PbufChain)
  /-- It copies the next payload. -/
  | gather
  | outputPend
  /-- The controller is handed the array, or stays busy until the driver gives up. -/
  | transmit (accepted : Bool)
  | outputPost
  /-- The input task calls `low_level_input` and takes the lock. -/
  | inputPend
  | receive (r : RxResponse)
  | inputPost
  /-- `pbuf_alloc` succeeds or fails. -/
  | alloc (granted : Bool)
  /-- The next pbuf is filled, or the filled chain is returned. -/
  | scatter

/-- A step of `low_level_output`. -/
def lowLevelOutput (s : Ethernetif) : EthLabel → Option Ethernetif
  | .lowLevelOutput p =>
    match s.output with
    | .idle => some { s with output := .gather p p.payloads 0 }
    | _ => none
  | .gather =>
    match s.output with
    | .gather p (q :: rest) sendLen =>
      some { s with buf := store s.buf sendLen q, output := .gather p rest (sendLen + q.length) }
    | _ => none
  | .outputPend =>
    match s.output with
    | .gather p [] sendLen =>
      (osSemPend s.lock).map fun cnt ↦ { s with lock := cnt, output := .transmit p sendLen }
    | _ => none
  | .transmit accepted =>
    match s.output with
    | .transmit p sendLen =>
      some { s with
        output := .post
        trace := if accepted then .sent p (load s.buf 0 sendLen) :: s.trace else s.trace }
    | _ => none
  | .outputPost =>
    match s.output with
    | .post => some { s with lock := osSemPost s.lock, output := .idle }
    | _ => none
  | _ => none

/-- A step of `low_level_input`. -/
def lowLevelInput (s : Ethernetif) : EthLabel → Option Ethernetif
  | .inputPend =>
    match s.input with
    | .idle => (osSemPend s.lock).map fun cnt ↦ { s with lock := cnt, input := .receive }
    | _ => none
  | .receive r =>
    match s.input with
    | .receive => some { s with buf := r.buffer s.buf, input := .post r.ret r.frame }
    | _ => none
  | .inputPost =>
    match s.input with
    | .post ret frame =>
      some { s with
        lock := osSemPost s.lock
        input := if ret.toUInt16 = 0 then .idle else .alloc ret.toUInt16 frame }
    | _ => none
  | .alloc granted =>
    match s.input with
    | .alloc len frame =>
      some { s with
        input :=
          if granted then .scatter frame (pbufAllocLens len.toNat len.toNat) 0 [] else .idle }
    | _ => none
  | .scatter =>
    match s.input with
    | .scatter frame (q :: lens) revLen done =>
      some { s with
        input := .scatter frame lens (revLen + q) (done ++ [load s.buf revLen q]) }
    | .scatter (some frame) [] _ done =>
      some { s with input := .idle, trace := .input frame done :: s.trace }
    | .scatter none [] _ _ => some { s with input := .idle }
    | _ => none
  | _ => none

/-- One step of the glue. -/
def Ethernetif.step (s : Ethernetif) (a : EthLabel) : Option Ethernetif :=
  (lowLevelOutput s a).or (lowLevelInput s a)

/-! ### What a step can do -/

/-- The transitions of the glue. -/
inductive EthMove (s : Ethernetif) : EthLabel → Ethernetif → Prop
  | lowLevelOutput (p : PbufChain) (hpc : s.output = .idle) :
    EthMove s (.lowLevelOutput p) { s with output := .gather p p.payloads 0 }
  | gather (p : PbufChain) (q : List UInt8) (rest : List (List UInt8)) (sendLen : ℕ)
      (hpc : s.output = .gather p (q :: rest) sendLen) :
    EthMove s .gather { s with
      buf := store s.buf sendLen q, output := .gather p rest (sendLen + q.length) }
  | outputPend (p : PbufChain) (sendLen : ℕ) (hpc : s.output = .gather p [] sendLen)
      (hlock : 0 < s.lock) :
    EthMove s .outputPend { s with lock := s.lock - 1, output := .transmit p sendLen }
  | transmit (p : PbufChain) (sendLen : ℕ) (accepted : Bool)
      (hpc : s.output = .transmit p sendLen) :
    EthMove s (.transmit accepted) { s with
      output := .post
      trace := if accepted then .sent p (load s.buf 0 sendLen) :: s.trace else s.trace }
  | outputPost (hpc : s.output = .post) :
    EthMove s .outputPost { s with lock := osSemPost s.lock, output := .idle }
  | inputPend (hpc : s.input = .idle) (hlock : 0 < s.lock) :
    EthMove s .inputPend { s with lock := s.lock - 1, input := .receive }
  | receive (r : RxResponse) (hpc : s.input = .receive) :
    EthMove s (.receive r) { s with buf := r.buffer s.buf, input := .post r.ret r.frame }
  | inputPost (ret : UInt32) (frame : Option (List UInt8)) (hpc : s.input = .post ret frame) :
    EthMove s .inputPost { s with
      lock := osSemPost s.lock
      input := if ret.toUInt16 = 0 then .idle else .alloc ret.toUInt16 frame }
  | alloc (granted : Bool) (len : UInt16) (frame : Option (List UInt8))
      (hpc : s.input = .alloc len frame) :
    EthMove s (.alloc granted) { s with
      input :=
        if granted then .scatter frame (pbufAllocLens len.toNat len.toNat) 0 [] else .idle }
  | scatter (frame : Option (List UInt8)) (q : ℕ) (lens : List ℕ) (revLen : ℕ)
      (done : List (List UInt8)) (hpc : s.input = .scatter frame (q :: lens) revLen done) :
    EthMove s .scatter { s with
      input := .scatter frame lens (revLen + q) (done ++ [load s.buf revLen q]) }
  | inputReturn (frame : List UInt8) (revLen : ℕ) (done : List (List UInt8))
      (hpc : s.input = .scatter (some frame) [] revLen done) :
    EthMove s .scatter { s with input := .idle, trace := .input frame done :: s.trace }
  | inputReturnNone (revLen : ℕ) (done : List (List UInt8))
      (hpc : s.input = .scatter none [] revLen done) :
    EthMove s .scatter { s with input := .idle }

theorem ethMove_of_lowLevelOutput {s t : Ethernetif} {a : EthLabel}
    (h : lowLevelOutput s a = some t) : EthMove s a t := by
  cases a with
  | lowLevelOutput p =>
    simp only [lowLevelOutput] at h
    split at h
    · next hpc => exact Option.some.inj h ▸ .lowLevelOutput p hpc
    · exact absurd h (by simp)
  | gather =>
    simp only [lowLevelOutput] at h
    split at h
    · next p q rest sendLen hpc => exact Option.some.inj h ▸ .gather p q rest sendLen hpc
    · exact absurd h (by simp)
  | outputPend =>
    simp only [lowLevelOutput] at h
    split at h
    · next p sendLen hpc =>
      obtain ⟨cnt, hcnt, rfl⟩ := Option.map_eq_some_iff.1 h
      obtain ⟨hlock, rfl⟩ := osSemPend_eq_some hcnt
      exact .outputPend p sendLen hpc hlock
    · exact absurd h (by simp)
  | transmit accepted =>
    simp only [lowLevelOutput] at h
    split at h
    · next p sendLen hpc => exact Option.some.inj h ▸ .transmit p sendLen accepted hpc
    · exact absurd h (by simp)
  | outputPost =>
    simp only [lowLevelOutput] at h
    split at h
    · next hpc => exact Option.some.inj h ▸ .outputPost hpc
    · exact absurd h (by simp)
  | inputPend | receive | inputPost | alloc | scatter => exact absurd h (by simp [lowLevelOutput])

theorem ethMove_of_lowLevelInput {s t : Ethernetif} {a : EthLabel}
    (h : lowLevelInput s a = some t) : EthMove s a t := by
  cases a with
  | inputPend =>
    simp only [lowLevelInput] at h
    split at h
    · next hpc =>
      obtain ⟨cnt, hcnt, rfl⟩ := Option.map_eq_some_iff.1 h
      obtain ⟨hlock, rfl⟩ := osSemPend_eq_some hcnt
      exact .inputPend hpc hlock
    · exact absurd h (by simp)
  | receive r =>
    simp only [lowLevelInput] at h
    split at h
    · next hpc => exact Option.some.inj h ▸ .receive r hpc
    · exact absurd h (by simp)
  | inputPost =>
    simp only [lowLevelInput] at h
    split at h
    · next ret frame hpc => exact Option.some.inj h ▸ .inputPost ret frame hpc
    · exact absurd h (by simp)
  | alloc granted =>
    simp only [lowLevelInput] at h
    split at h
    · next len frame hpc => exact Option.some.inj h ▸ .alloc granted len frame hpc
    · exact absurd h (by simp)
  | scatter =>
    simp only [lowLevelInput] at h
    split at h
    · next frame q lens revLen done hpc =>
      exact Option.some.inj h ▸ .scatter frame q lens revLen done hpc
    · next frame revLen done hpc => exact Option.some.inj h ▸ .inputReturn frame revLen done hpc
    · next revLen done hpc => exact Option.some.inj h ▸ .inputReturnNone revLen done hpc
    · exact absurd h (by simp)
  | lowLevelOutput | gather | outputPend | transmit | outputPost =>
    exact absurd h (by simp [lowLevelInput])

/-- **Every step of the glue is one of the transitions.** -/
theorem ethMove_of_step {s t : Ethernetif} {a : EthLabel} (h : s.step a = some t) :
    EthMove s a t := by
  rcases Option.or_eq_some_iff.1 h with h | ⟨-, h⟩
  · exact ethMove_of_lowLevelOutput h
  · exact ethMove_of_lowLevelInput h

/-- Reachable states of the glue, under a guard. -/
abbrev EthReachable (ok : Ethernetif → EthLabel → Bool) : Ethernetif → Prop :=
  Runs.Reachable Ethernetif.Init Ethernetif.step ok

end YHAudioLink
