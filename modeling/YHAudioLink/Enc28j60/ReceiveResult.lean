import YHAudioLink.Enc28j60.Readings

/-!
# What `ENC28J60_Packet_Receive` returns

The length should be assigned on every path, and be `0` or the byte count without the CRC, limited
to `maxlen - 1`, for bytes that were read in this call. Three defects of the code stand against it:

* `len` is not assigned when the pend fails, and not when the next-packet pointer is outside the
  ring;
* `len -= 4` is unsigned and comes before the limit, so a byte count below four becomes a huge
  length, which the limit then turns into `maxlen - 1`.

`receive_right_iff` says that these are all: it is the condition on what the controller reports
under which the result is right, in both directions.
-/

namespace YHAudioLink

open Programs

/-! ### The law -/

/-- The length that should be returned, given the bytes read from the buffer memory. A call that
reads a packet reads its next-packet pointer, its byte count, its status and its data. -/
def expectedLen (maxlen : UInt32) : List UInt8 → ℕ
  | _ :: _ :: len0 :: len1 :: stat0 :: stat1 :: _ =>
    if word stat0 stat1 &&& 0x80 = 0 then 0
    else if word len0 len1 < 4 then 0
    else min ((word len0 len1).toNat - 4) (maxlen.toNat - 1)
  | _ => 0

/-- **The result is right**: the length is assigned and as expected, and the buffer starts with that
many bytes read in this call behind the packet's header. -/
def ReturnsRight (maxlen : UInt32) (rs : List Reading) (r : Received) : Prop :=
  ∃ len, r.len = some len ∧ len.toNat = expectedLen maxlen (bufs rs) ∧
    len.toNat ≤ ((bufs rs).drop 6).length ∧
    r.packet.take len.toNat = ((bufs rs).drop 6).take len.toNat

/-- A packet header the driver can handle: the next-packet pointer is in the ring and, where the
byte count is read too, the status is not ok, or the count covers the CRC, or nothing fits the
buffer. -/
def SoundHeader (maxlen : UInt32) : List UInt8 → Prop
  | next0 :: next1 :: len0 :: len1 :: stat0 :: stat1 :: _ =>
    inRing (word next0 next1) ∧
      (word stat0 stat1 &&& 0x80 = 0 ∨ 4 ≤ word len0 len1 ∨ maxlen = 1)
  | next0 :: next1 :: _ => inRing (word next0 next1)
  | _ => True

/-- What the controller and the kernel have to report. -/
def SoundReport (maxlen : UInt32) (rs : List Reading) : Prop :=
  rs.head? = some (.pend osErrNone) ∧ SoundHeader maxlen (bufs rs)

/-! ### Lengths -/

/-- **A count below four wraps**, so that what is left of it is not zero unless nothing fits. -/
theorem clampLen_eq_zero_iff {maxlen count : UInt32} (hmax : 1 ≤ maxlen) (hcount : count < 4) :
    (clampLen maxlen count).toNat = 0 ↔ maxlen = 1 := by
  have hsub : (maxlen - 1).toNat = maxlen.toNat - 1 := UInt32.toNat_sub_of_le _ _ hmax
  have hpos : 0 < (count - 4).toNat := by
    rw [UInt32.toNat_sub, UInt32.lt_iff_toNat_lt] at *
    have : (4 : UInt32).toNat = 4 := rfl
    omega
  have hone : maxlen = 1 ↔ maxlen.toNat = 1 := UInt32.toNat_inj.symm
  rw [UInt32.le_iff_toNat_le] at hmax
  have hmax' : 1 ≤ maxlen.toNat := hmax
  rw [clampLen]
  split
  · rw [hsub, hone]
    omega
  · next hge =>
    rw [UInt32.lt_iff_toNat_lt, hsub] at hge
    rw [hone]
    omega

/-! ### The readings of a path -/

@[simp] theorem bufs_nil : bufs [] = [] := rfl

@[simp] theorem bufs_buf (v : UInt8) (rs : List Reading) : bufs (.buf v :: rs) = v :: bufs rs := rfl

@[simp] theorem bufs_append (rs rs' : List Reading) : bufs (rs ++ rs') = bufs rs ++ bufs rs' :=
  List.filterMap_append

@[simp] theorem bufs_map_buf (data : List UInt8) : bufs (data.map .buf) = data := by
  induction data with
  | nil => rfl
  | cons v data ih => exact congrArg (v :: ·) ih

@[simp] theorem bufs_map_reg (addr : UInt8) (values : List UInt8) :
    bufs (values.map (.reg addr)) = [] := by
  induction values with
  | nil => rfl
  | cons v values ih => exact ih

@[simp] theorem bufs_statusReadings (estat eir econ1 ptkCnt : UInt8) :
    bufs (statusReadings estat eir econ1 ptkCnt) = [] := rfl

@[simp] theorem bufs_recheckReadings (estat eir econ1 : UInt8) :
    bufs (recheckReadings estat eir econ1) = [] := rfl

@[simp] theorem readings_fetched (s : DrvState) (status : List Reading) (next0 next1 : UInt8) :
    (s.fetched status next0 next1).readings =
      s.readings ++ (status ++ [.buf next0, .buf next1]) := by
  simp [DrvState.fetched]

section Packet

variable {s : DrvState} {rs status header data : List Reading} {next0 next1 : UInt8}
  {pointerl pointerh : UInt8}

/-- The status registers, the next-packet pointer and the packet header, of a packet whose status is
not ok. -/
theorem eq_of_badStatus
    (hrs : ((((s.fetched status next0 next1).report header).write Reg.erxrdptl pointerl).write
      Reg.erxrdpth pointerh).readings = s.readings ++ rs) :
    rs = status ++ ([.buf next0, .buf next1] ++ header) :=
  List.append_cancel_left (by rw [← hrs]; simp)

/-- And behind them the bytes of the frame, of one that is delivered. -/
theorem eq_of_frame
    (hrs : (((((s.fetched status next0 next1).report header).report data).write Reg.erxrdptl
      pointerl).write Reg.erxrdpth pointerh).readings = s.readings ++ rs) :
    rs = status ++ ([.buf next0, .buf next1] ++ (header ++ data)) :=
  List.append_cancel_left (by rw [← hrs]; simp)

end Packet

/-- No buffer byte is read by `ENC28J60_Init`. -/
theorem InitPath.readings {s t : DrvState} {r : UInt8} (h : InitPath s r t) :
    ∃ more, t.readings = s.readings ++ more ∧ bufs more = [] := by
  cases h with
  | late polls v hlen hpolls => exact ⟨_, rfl, bufs_map_reg _ _⟩
  | configured polls v r more t hlen hpolls hv hnext hlow hhigh hread hbufs =>
    refine ⟨_, by rw [hread, List.append_assoc], ?_⟩
    rw [bufs_append, bufs_map_reg, hbufs]
    rfl

theorem returnsRight_zero {maxlen : UInt32} {rs : List Reading} {packet : List UInt8}
    (h : expectedLen maxlen (bufs rs) = 0) : ReturnsRight maxlen rs ⟨some 0, packet⟩ :=
  ⟨0, rfl, h.symm, Nat.zero_le _, by simp⟩

theorem not_returnsRight_none {maxlen : UInt32} {rs : List Reading} {packet : List UInt8} :
    ¬ ReturnsRight maxlen rs ⟨none, packet⟩ := by
  rintro ⟨len, hlen, -⟩
  cases hlen

/-- **Path by path**: the result is right exactly on a sound report. -/
theorem ReceivePath.right_iff {maxlen : UInt32} (hmax : 1 ≤ maxlen) {s t : DrvState} {r : Received}
    (h : ReceivePath maxlen s r t) {rs : List Reading} (hrs : t.readings = s.readings ++ rs) :
    ReturnsRight maxlen rs r ↔ SoundReport maxlen rs := by
  cases h with
  | refused err herr =>
    obtain rfl := List.append_cancel_left hrs
    refine ⟨fun hright ↦ absurd hright not_returnsRight_none, fun hsound ↦ ?_⟩
    exact absurd (by simpa using hsound.1) herr
  | nothing estat eir econ1 hstuck =>
    obtain rfl := List.append_cancel_left hrs
    exact iff_of_true (returnsRight_zero rfl) ⟨rfl, trivial⟩
  | revived estat eir econ1 v a b c u hstuck hinit =>
    obtain ⟨more, hmore, hbufs⟩ := hinit.readings
    have hread : rs = statusReadings estat eir econ1 0 ++ (more ++ recheckReadings a b c) :=
      List.append_cancel_left (by rw [← hrs]; simp [hmore])
    have hnone : bufs rs = [] := by simp [hread, hbufs]
    refine iff_of_true (returnsRight_zero (by rw [hnone]; rfl)) ⟨by rw [hread]; rfl, ?_⟩
    rw [hnone]
    trivial
  | busy estat eir econ1 ptkCnt hcnt hbusy =>
    obtain rfl := List.append_cancel_left hrs
    exact iff_of_true (returnsRight_zero rfl) ⟨rfl, trivial⟩
  | invalid estat eir econ1 ptkCnt next0 next1 a b c v a' b' c' u hcnt hfree hring hinit =>
    obtain ⟨more, hmore, hbufs⟩ := hinit.readings
    have hread : rs = statusReadings estat eir econ1 ptkCnt ++ ([.buf next0, .buf next1] ++
        (recheckReadings a b c ++ (more ++ recheckReadings a' b' c'))) :=
      List.append_cancel_left (by rw [← hrs]; simp [hmore])
    have htwo : bufs rs = [next0, next1] := by simp [hread, hbufs]
    refine iff_of_false not_returnsRight_none fun hsound ↦ hring ?_
    have hheader := hsound.2
    rwa [htwo] at hheader
  | badStatus estat eir econ1 ptkCnt next0 next1 len0 len1 stat0 stat1 hcnt hfree hring hstat =>
    have hread := eq_of_badStatus hrs
    have hsix : bufs rs = [next0, next1, len0, len1, stat0, stat1] := by simp [hread]
    refine iff_of_true (returnsRight_zero ?_) ⟨by rw [hread]; rfl, ?_⟩
    · rw [hsix, expectedLen, if_pos hstat]
    · rw [hsix]
      exact ⟨hring, .inl hstat⟩
  | frame estat eir econ1 ptkCnt next0 next1 len0 len1 stat0 stat1 data hcnt hfree hring hstat
      hlen =>
    have hread := eq_of_frame hrs
    have hbytes : bufs rs = next0 :: next1 :: len0 :: len1 :: stat0 :: stat1 :: data := by
      simp [hread]
    have hdrop : (bufs rs).drop 6 = data := by rw [hbytes]; rfl
    -- the bytes are always the ones just read; the length is what can go wrong
    have hright : ReturnsRight maxlen rs ⟨some (clampLen maxlen (word len0 len1)), data ++ [0]⟩ ↔
        (clampLen maxlen (word len0 len1)).toNat = expectedLen maxlen (bufs rs) := by
      constructor
      · rintro ⟨len, hsome, hexpected, -⟩
        rwa [Option.some.inj hsome]
      · refine fun hexpected ↦ ⟨_, rfl, hexpected, by rw [hdrop, hlen], ?_⟩
        rw [hdrop, ← hlen, List.take_left', List.take_length]
        rfl
    have hsound : SoundReport maxlen rs ↔ 4 ≤ word len0 len1 ∨ maxlen = 1 := by
      rw [SoundReport, hbytes, SoundHeader]
      have hhead : rs.head? = some (.pend osErrNone) := by rw [hread]; rfl
      simp [hhead, hring, hstat]
    rw [hright, hsound, hbytes, expectedLen, if_neg hstat]
    by_cases hcount : word len0 len1 < 4
    · rw [if_pos hcount, clampLen_eq_zero_iff hmax hcount, or_iff_right (UInt32.not_le.2 hcount)]
    · rw [if_neg hcount]
      have hge : 4 ≤ word len0 len1 := UInt32.not_lt.1 hcount
      exact iff_of_true (toNat_clampLen hmax hge) (.inl hge)

/-- **When the result is right.** For every limit, every call and everything the controller and the
kernel may answer: the length is assigned and is the expected one, for bytes read in the call, if
and only if the pend succeeded and the packet header read, if any, has its next-packet pointer in
the ring and, unless its status is not ok or nothing fits the buffer, a byte count of four or
more. -/
theorem receive_right_iff (maxlen : UInt32) (s t : DrvState) (tr : List (Event DrvOp DrvOp.Ans))
    (r : Received) (hmax : 1 ≤ maxlen)
    (h : Returns DrvState.step (enc28j60PacketReceive maxlen) s tr r t) :
    ReturnsRight maxlen (readings tr) r ↔ SoundReport maxlen (readings tr) := by
  have hpath : ReceivePath maxlen s r t :=
    wp_of_steps (wp_receive_path onlyErdpt_anyOp (fun _ _ ↦ trivial) fun _ _ hpath ↦ hpath) h
  exact hpath.right_iff hmax (readings_of_steps h)

/-! ### Two packets -/

/-- A controller with one packet pending, whose buffer memory delivers `header` and then bytes
`0xAA`. The copy of the bank is answered as `0`, and the clock is stable. -/
def packetScript (header : List UInt8) (s : DrvState) : (o : DrvOp) → DrvOp.Ans o
  | .pend => osErrNone
  | .getBank => 0
  | .getNext => s.next
  | .readOp .readBufMem _ => header.getD (bufs s.readings).length 0xAA
  | .readOp _ addr => if addr = Reg.epktcnt ∨ addr = Reg.estat then 1 else 0
  | .readBuf len => ⟨List.replicate len.toNat 0xAA, List.length_replicate⟩
  | .post | .setBank _ | .setNext _ | .setLast _ | .reset | .writeOp _ _ _ | .writeBuf _ => ()

theorem packetScript_step (header : List UInt8) (s : DrvState) (o : DrvOp) :
    DrvState.step s ⟨o, packetScript header s o⟩ (s.after ⟨o, packetScript header s o⟩) := by
  refine DrvState.step_after fun ptr h ↦ ?_
  cases h
  rfl

/-- A driver that has just been initialised. -/
def freshDriver : DrvState := ⟨rxstartInit, fun _ ↦ 0, []⟩

/-- The run of a reception with the limit the network interface passes. -/
def receiveScript (header : List UInt8) : List (Event DrvOp DrvOp.Ans) × Received × DrvState :=
  play (packetScript header) DrvState.after (enc28j60PacketReceive mamxfl) freshDriver

theorem returns_receiveScript (header : List UInt8) :
    Returns DrvState.step (enc28j60PacketReceive mamxfl) freshDriver (receiveScript header).1
      (receiveScript header).2.1 (receiveScript header).2.2 :=
  returns_play (packetScript_step header) _ _

/-- A packet of byte count 6, of which two are data. -/
theorem receive_right_iff_two_bytes :
    ReturnsRight mamxfl (readings (receiveScript [0x0C, 0x06, 6, 0, 0x80, 0]).1)
      (receiveScript [0x0C, 0x06, 6, 0, 0x80, 0]).2.1 := by
  refine (receive_right_iff _ _ _ _ _ (by decide) (returns_receiveScript _)).2 ⟨?_, ?_⟩
  · rfl
  · have hbytes : bufs (readings (receiveScript [0x0C, 0x06, 6, 0, 0x80, 0]).1) =
        [0x0C, 0x06, 6, 0, 0x80, 0, 0xAA, 0xAA] := by decide +kernel
    rw [hbytes]
    exact ⟨by decide, .inr (.inl (by decide))⟩

/-- **The result is not always right**: a packet of byte count 0 makes a length of 1517. -/
theorem not_receive_right :
    ¬ ∀ (maxlen : UInt32) (s t : DrvState) (tr : List (Event DrvOp DrvOp.Ans)) (r : Received),
      1 ≤ maxlen → Returns DrvState.step (enc28j60PacketReceive maxlen) s tr r t →
      ReturnsRight maxlen (readings tr) r := by
  intro h
  obtain ⟨len, hlen, hexpected, -⟩ :=
    h mamxfl _ _ _ _ (by decide) (returns_receiveScript [0x0C, 0x06, 0, 0, 0x80, 0])
  have hret : (receiveScript [0x0C, 0x06, 0, 0, 0x80, 0]).2.1.len = some 1517 := by decide +kernel
  have hzero : expectedLen mamxfl
      (bufs (readings (receiveScript [0x0C, 0x06, 0, 0, 0x80, 0]).1)) = 0 := by decide +kernel
  rw [hret] at hlen
  rw [hzero, ← Option.some.inj hlen] at hexpected
  exact absurd hexpected (by decide)

end YHAudioLink
