import YHAudioLink.Lwip.IpHeader

/-!
# Datagrams on the wire

How `udp_sendto_if` and `ip_output_if` put a datagram into a packet, and how `ip_input` and
`udp_input` take it out again. The sender works on one chain of `pbuf`s and the receiver on another;
neither needs to know how the other's is cut, since checksums do not depend on it.

Each function has one lemma that says what becomes of the bytes: `udpSendtoIf_spec` for the sender,
`ipInput_of_setHdr` for `ip_input`, which also cuts off what the network has added at the end, and
`udpInput_spec` for the datagram. Below them are those of the operations on chains
(`writeFront_spec`, `pbufRealloc_spec`, `pbufHide_spec`). Put together they are the way from one
application to the other (`udp_delivered`). Two searches are left out, that for an interface with
the destination in `ip_input` and that for the `pcb` in `udp_input`; what is said holds where each
has found one.
-/

namespace YHAudioLink

open OnesComplement

/-! ### The UDP header -/

/-- `struct udp_hdr`. -/
def udpHdrBytes (srcPort destPort len chksum : UInt16) : List UInt8 :=
  netBytes srcPort ++ netBytes destPort ++ netBytes len ++ leBytes chksum

/-- The first bytes of a chain overwritten, all in its first `pbuf`. -/
def writeFront (hdr : List UInt8) : List PbufPart → List PbufPart
  | [] => []
  | q :: p =>
    if h : hdr.length ≤ q.data.length then
      ⟨q.payload, hdr ++ q.data.drop hdr.length, by
        rw [List.length_append, List.length_drop, Nat.add_sub_cancel' h]
        exact q.len_lt⟩ :: p
    else q :: p

/-- `tot_len`. -/
def totLen (p : List PbufPart) : UInt16 := UInt16.ofNat (chainData p).length

/-- `udp_sendto_if` from where `q` is the packet to be sent, with room for the header in its first
`pbuf`: the packet it hands to IP. -/
def udpSendtoIf (q : List PbufPart) (src dest : UInt32) (srcPort destPort : UInt16)
    (noChksum : Bool) : List PbufPart :=
  let q := writeFront (udpHdrBytes srcPort destPort (totLen q) 0) q
  if noChksum then q
  else
    let udpchksum := inetChksumPseudo q src dest ipProtoUdp (totLen q)
    let udpchksum := if udpchksum = 0 then 0xffff else udpchksum
    writeFront (udpHdrBytes srcPort destPort (totLen q) udpchksum) q

/-! ### Receiving -/

/-- `pbuf_realloc`, as far as the bytes go: the first `newLen` of them. -/
def pbufTrim : List PbufPart → ℕ → List PbufPart
  | [], _ => []
  | q :: p, newLen =>
    if newLen > q.data.length then q :: pbufTrim p (newLen - q.data.length)
    else [⟨q.payload, q.data.take newLen,
      Nat.lt_of_le_of_lt (List.length_take_le' _ _) q.len_lt⟩]

/-- `pbuf_realloc`. -/
def pbufRealloc (p : List PbufPart) (newLen : UInt16) : List PbufPart :=
  if newLen ≥ totLen p then p else pbufTrim p newLen.toNat

/-- `pbuf_header` with a negative increment: the front of the first `pbuf` hidden. -/
def pbufHide (n : ℕ) : List PbufPart → Option (List PbufPart)
  | [] => none
  | q :: p =>
    if n ≤ q.data.length then
      some (⟨q.payload + UInt32.ofNat n, q.data.drop n,
        Nat.lt_of_le_of_lt (by rw [List.length_drop]; exact Nat.sub_le _ _) q.len_lt⟩ :: p)
    else none

/-- The bytes at `p->payload`. -/
def payloadData : List PbufPart → List UInt8
  | [] => []
  | q :: _ => q.data

/-- What is handed to the receiver of a datagram. -/
structure UdpReceived where
  src : UInt32
  srcPort : UInt16
  dest : UInt32
  destPort : UInt16
  p : List PbufPart

/-- `udp_input` of a datagram that somebody is bound to the port of; the search for the `pcb`, and
what becomes of a datagram without one, are not here. -/
def udpInput (p : List PbufPart) : Option UdpReceived :=
  let iphdr := payloadData p
  let hlen := (iphdr.getD 0 0 &&& 0x0f).toNat * 4
  let src := fieldU32 iphdr 12
  let dest := fieldU32 iphdr 16
  if (totLen p).toNat < hlen + 8 then none
  else (pbufHide hlen p).bind fun p ↦
    let udphdr := payloadData p
    if fieldU16 udphdr 6 ≠ 0 ∧ inetChksumPseudo p src dest ipProtoUdp (totLen p) ≠ 0 then none
    else (pbufHide 8 p).map fun p ↦
      ⟨src, lwipHtons (fieldU16 udphdr 0), dest, lwipHtons (fieldU16 udphdr 2), p⟩

/-- What `ip_input` does with a packet. -/
inductive IpInput
  | drop
  /-- To `ip_reass`. -/
  | fragment (p : List PbufPart)
  /-- To the protocol. -/
  | deliver (proto : UInt8) (p : List PbufPart)

/-- `ip_input`; `accepts` are the tests of the addresses, which depend on the interfaces: that an
interface has the destination, and that the source is no broadcast or multicast address. -/
def ipInput (accepts : UInt32 → UInt32 → Bool) (p : List PbufPart) : IpInput :=
  let iphdr := payloadData p
  if iphdr.getD 0 0 >>> 4 ≠ 4 then .drop
  else
    let iphdrHlen := (iphdr.getD 0 0 &&& 0x0f).toNat * 4
    let iphdrLen := lwipHtons (fieldU16 iphdr 2)
    if iphdrHlen > iphdr.length ∨ iphdrLen > totLen p then .drop
    else if inetChksum ((p.map PbufPart.payload).headD 0) (iphdr.take iphdrHlen) ≠ 0 then .drop
    else
      let p := pbufRealloc p iphdrLen
      if ¬ accepts (fieldU32 iphdr 12) (fieldU32 iphdr 16) then .drop
      else if fieldU16 iphdr 6 &&& lwipHtons (0x1fff ||| 0x2000) ≠ 0 then .fragment p
      else .deliver (iphdr.getD 9 0) p

/-! ### Chains cut at the front and at the end -/

section Chains

variable {p p' : List PbufPart} {n : ℕ} {hdr : List UInt8}

/-- The first `pbuf` holds the first bytes. -/
theorem chainData_eq_payloadData_append (p : List PbufPart) :
    ∃ rest, chainData p = payloadData p ++ rest := by
  cases p with
  | nil => exact ⟨[], rfl⟩
  | cons q p => exact ⟨chainData p, rfl⟩

theorem payloadData_take (h : n ≤ (payloadData p).length) :
    (payloadData p).take n = (chainData p).take n := by
  obtain ⟨rest, hrest⟩ := chainData_eq_payloadData_append p
  rw [hrest, List.take_append_of_le_length h]

theorem payloadData_getD {i : ℕ} (h : i < (payloadData p).length) :
    (payloadData p).getD i 0 = (chainData p).getD i 0 := by
  obtain ⟨rest, hrest⟩ := chainData_eq_payloadData_append p
  rw [hrest, List.getD_eq_getElem?_getD, List.getD_eq_getElem?_getD, List.getElem?_append_left h]

theorem writeFront_spec (h : hdr.length ≤ (payloadData p).length) (hne : 0 < hdr.length) :
    chainData (writeFront hdr p) = hdr ++ (chainData p).drop hdr.length ∧
      (payloadData (writeFront hdr p)).length = (payloadData p).length := by
  cases p with
  | nil => exact absurd hne (Nat.not_lt.2 h)
  | cons q p =>
    have hq : hdr.length ≤ q.data.length := h
    rw [writeFront, dif_pos hq]
    refine ⟨?_, ?_⟩
    · show hdr ++ q.data.drop hdr.length ++ chainData p = hdr ++ (q.data ++ chainData p).drop _
      rw [List.drop_append_of_le_length hq, List.append_assoc]
    · show (hdr ++ q.data.drop hdr.length).length = q.data.length
      rw [List.length_append, List.length_drop, Nat.add_sub_cancel' hq]

theorem pbufTrim_spec (p : List PbufPart) (n : ℕ) :
    chainData (pbufTrim p n) = (chainData p).take n ∧
      payloadData (pbufTrim p n) = (payloadData p).take n := by
  induction p generalizing n with
  | nil => simp [pbufTrim, chainData, payloadData]
  | cons q p ih =>
    rw [pbufTrim]
    split
    · next hmore =>
      refine ⟨?_, ?_⟩
      · show q.data ++ chainData (pbufTrim p (n - q.data.length)) = (q.data ++ chainData p).take n
        rw [(ih _).1, List.take_append, List.take_of_length_le (Nat.le_of_lt hmore)]
      · exact (List.take_of_length_le (Nat.le_of_lt hmore)).symm
    · next hlast =>
      refine ⟨?_, rfl⟩
      show q.data.take n ++ [] = (q.data ++ chainData p).take n
      rw [List.append_nil, List.take_append_of_le_length (Nat.le_of_not_gt hlast)]

/-- **`pbuf_realloc` keeps the first bytes.** -/
theorem pbufRealloc_spec {newLen : UInt16} (hfit : (chainData p).length < 65536) :
    chainData (pbufRealloc p newLen) = (chainData p).take newLen.toNat ∧
      payloadData (pbufRealloc p newLen) = (payloadData p).take newLen.toNat := by
  have htot : (totLen p).toNat = (chainData p).length := by
    rw [totLen, UInt16.toNat_ofNat']
    exact Nat.mod_eq_of_lt hfit
  rw [pbufRealloc]
  split
  · next hall =>
    have hle : (chainData p).length ≤ newLen.toNat := by
      rw [← htot]
      exact UInt16.le_iff_toNat_le.1 hall
    obtain ⟨rest, hrest⟩ := chainData_eq_payloadData_append p
    rw [List.take_of_length_le hle, List.take_of_length_le]
    · exact ⟨rfl, rfl⟩
    · rw [hrest, List.length_append] at hle
      omega
  · exact pbufTrim_spec p newLen.toNat

/-- **`pbuf_header` hides the first bytes** if the first `pbuf` has them. -/
theorem pbufHide_spec (h : n ≤ (payloadData p).length) (hne : 0 < n) :
    ∃ p', pbufHide n p = some p' ∧ chainData p' = (chainData p).drop n ∧
      payloadData p' = (payloadData p).drop n := by
  cases p with
  | nil => exact absurd hne (Nat.not_lt.2 h)
  | cons q p =>
    have hq : n ≤ q.data.length := h
    refine ⟨_, if_pos hq, ?_, rfl⟩
    show q.data.drop n ++ chainData p = (q.data ++ chainData p).drop n
    rw [List.drop_append_of_le_length hq]

end Chains

/-! ### From the sender to the receiver -/

section RoundTrip

variable {q : List PbufPart} {src dest : UInt32} {srcPort destPort : UInt16} {noChksum : Bool}

theorem toNat_totLen {p : List PbufPart} (h : (chainData p).length < 65536) :
    (totLen p).toNat = (chainData p).length := by
  rw [totLen, UInt16.toNat_ofNat']
  exact Nat.mod_eq_of_lt h

theorem length_udpHdrBytes (len chksum : UInt16) :
    (udpHdrBytes srcPort destPort len chksum).length = 8 := by
  simp [udpHdrBytes, netBytes, leBytes]

/-- A checksum put into a header that had none completes the sum. -/
theorem sum_udp_chksum (len chksum : UInt16) (data : List UInt8)
    (hchksum : chksum.toNat = 65535 - sum 256 (bytesValue (pseudoHeader src dest ipProtoUdp len ++
      (udpHdrBytes srcPort destPort len 0 ++ data))) ∨
      chksum.toNat = 65535 ∧ sum 256 (bytesValue (pseudoHeader src dest ipProtoUdp len ++
        (udpHdrBytes srcPort destPort len 0 ++ data))) = 65535) :
    sum 256 (bytesValue (pseudoHeader src dest ipProtoUdp len ++
      (udpHdrBytes srcPort destPort len chksum ++ data))) = 65535 := by
  have hfront : ∀ c : UInt16, pseudoHeader src dest ipProtoUdp len ++
      (udpHdrBytes srcPort destPort len c ++ data) =
        (pseudoHeader src dest ipProtoUdp len ++ netBytes srcPort ++ netBytes destPort ++
          netBytes len) ++ leBytes c ++ data := by
    intro c
    simp only [udpHdrBytes, List.append_assoc]
  rw [hfront] at hchksum ⊢
  exact sum_chksum (by simp [pseudoHeader, addrBytes, netBytes]) hchksum

/-- **What `udp_sendto_if` hands to IP**: the header and the data, and a checksum that completes the
sum, if there is one. -/
theorem udpSendtoIf_spec (hq : 8 ≤ (payloadData q).length) :
    ∃ chksum, chainData (udpSendtoIf q src dest srcPort destPort noChksum) =
        udpHdrBytes srcPort destPort (totLen q) chksum ++ (chainData q).drop 8 ∧
      (chksum ≠ 0 → sum 256 (bytesValue (pseudoHeader src dest ipProtoUdp (totLen q) ++
        (udpHdrBytes srcPort destPort (totLen q) chksum ++ (chainData q).drop 8))) = 65535) := by
  have hlen := fun chksum ↦
    @length_udpHdrBytes srcPort destPort (totLen q) chksum
  obtain ⟨hdata, hpayload⟩ := @writeFront_spec q (udpHdrBytes srcPort destPort (totLen q) 0)
    (by rw [hlen]; exact hq) (by rw [hlen]; decide)
  obtain ⟨q₀, hq₀⟩ : ∃ q₀, writeFront (udpHdrBytes srcPort destPort (totLen q) 0) q = q₀ := ⟨_, rfl⟩
  rw [hq₀] at hdata hpayload
  rw [hlen] at hdata
  have hsame : (chainData q₀).length = (chainData q).length := by
    obtain ⟨rest, hrest⟩ := chainData_eq_payloadData_append q
    have hge : 8 ≤ (chainData q).length := by
      rw [hrest, List.length_append]
      omega
    rw [hdata, List.length_append, hlen, List.length_drop]
    omega
  have htot : totLen q₀ = totLen q := by rw [totLen, totLen, hsame]
  simp only [udpSendtoIf, hq₀, htot]
  cases noChksum with
  | true => exact ⟨0, hdata, fun hne ↦ absurd rfl hne⟩
  | false =>
    obtain ⟨c, hc⟩ : ∃ c, inetChksumPseudo q₀ src dest ipProtoUdp (totLen q) = c := ⟨_, rfl⟩
    have hcval : c.toNat = 65535 - sum 256 (bytesValue
      (pseudoHeader src dest ipProtoUdp (totLen q) ++
        (udpHdrBytes srcPort destPort (totLen q) 0 ++ (chainData q).drop 8))) := by
      rw [← hc, toNat_inetChksumPseudo, hdata]
    have hlt := sum_lt (b := 256) (by decide)
      (bytesValue (pseudoHeader src dest ipProtoUdp (totLen q) ++
      (udpHdrBytes srcPort destPort (totLen q) 0 ++ (chainData q).drop 8)))
    obtain ⟨chksum, hchksum⟩ : ∃ chksum : UInt16, (if c = 0 then 0xffff else c) = chksum := ⟨_, rfl⟩
    obtain ⟨hdata', -⟩ := @writeFront_spec q₀ (udpHdrBytes srcPort destPort (totLen q) chksum)
      (by rw [hlen, hpayload]; exact hq) (by rw [hlen]; decide)
    have hdrop : (chainData q₀).drop 8 = (chainData q).drop 8 := by
      rw [hdata, List.drop_append_of_le_length (by rw [hlen]),
        List.drop_of_length_le (by rw [hlen]),
        List.nil_append]
    rw [hlen, hdrop] at hdata'
    simp only [hc, hchksum, Bool.false_eq_true, if_false]
    refine ⟨chksum, hdata', fun _ ↦ sum_udp_chksum _ _ _ ?_⟩
    by_cases hzero : c = 0
    · rw [if_pos hzero] at hchksum
      have hcz : c.toNat = 0 := congrArg UInt16.toNat hzero
      refine .inr ⟨congrArg UInt16.toNat hchksum.symm, ?_⟩
      omega
    · rw [if_neg hzero] at hchksum
      exact .inl (hchksum ▸ hcval)

/-- The header `ip_output_if` writes for a datagram. -/
def udpIpHdr (q : List PbufPart) (src dest : UInt32) (tos ttl : UInt8) (id : UInt16) : IpHdr :=
  ⟨tos, UInt16.ofNat ((chainData q).length + 20), id, ttl, ipProtoUdp, src, dest⟩

/-- The packet on the wire. -/
def udpPacket (q : List PbufPart) (src dest : UInt32) (srcPort destPort : UInt16) (noChksum : Bool)
    (tos ttl : UInt8) (id : UInt16) : List UInt8 :=
  ipOutputIf (udpIpHdr q src dest tos ttl id)
    (chainData (udpSendtoIf q src dest srcPort destPort noChksum))

/-- **`ip_input` accepts** a packet whose header adds up, padded or not, and cuts it to its length.
What has an offset, or more behind it, goes to `ip_reass`. -/
theorem ipInput_of_setHdr {h : IpHdr} {len offset chksum : UInt16} {body pad : List UInt8}
    {p : List PbufPart} {accepts : UInt32 → UInt32 → Bool}
    (hsum : sum 256 (bytesValue (setHdr (h.bytes 0) len offset chksum)) = 65535)
    (hlen : len.toNat = 20 + body.length)
    (hp : chainData p = setHdr (h.bytes 0) len offset chksum ++ body ++ pad)
    (hfit : (chainData p).length < 65536) (hfirst : 20 ≤ (payloadData p).length)
    (haccepts : accepts h.src h.dest = true) :
    ipInput accepts p = (if offset &&& (0x1fff ||| 0x2000) = 0
        then .deliver h.proto (pbufRealloc p len) else .fragment (pbufRealloc p len)) ∧
      chainData (pbufRealloc p len) = setHdr (h.bytes 0) len offset chksum ++ body ∧
      payloadData (pbufRealloc p len) = (payloadData p).take (20 + body.length) := by
  obtain ⟨hvhl, hflen, -, hoff, hproto, hsrc, hdest, hhdr⟩ :=
    setHdr_fields h len offset chksum (body ++ pad)
  have hdata : chainData p = setHdr (h.bytes 0) len offset chksum ++ (body ++ pad) := by
    rw [hp, List.append_assoc]
  rw [← hdata] at hvhl hflen hoff hproto hsrc hdest
  have hget : ∀ i < 20, (payloadData p).getD i 0 = (chainData p).getD i 0 :=
    fun i hi ↦ payloadData_getD (Nat.lt_of_lt_of_le hi hfirst)
  have h16 : ∀ i < 19, fieldU16 (payloadData p) i = fieldU16 (chainData p) i := by
    intro i hi
    rw [fieldU16, fieldU16, hget i (by omega), hget (i + 1) (by omega)]
  have h32 : ∀ i < 17, fieldU32 (payloadData p) i = fieldU32 (chainData p) i := by
    intro i hi
    rw [fieldU32, fieldU32, hget i (by omega), hget (i + 1) (by omega), hget (i + 2) (by omega),
      hget (i + 3) (by omega)]
  have htake : (payloadData p).take 20 = setHdr (h.bytes 0) len offset chksum := by
    rw [payloadData_take hfirst, hdata, List.take_append_of_le_length hhdr.ge,
      List.take_of_length_le hhdr.le]
  have hadds : ∀ addr, inetChksum addr ((payloadData p).take 20) = 0 := by
    intro addr
    rw [htake]
    exact inetChksum_eq_zero addr (Nat.lt_of_le_of_lt hhdr.le (by decide)) hsum
  have htot := toNat_totLen hfit
  have hle : ¬ len > totLen p := by
    rw [gt_iff_lt, UInt16.lt_iff_toNat_lt, htot, hlen, hdata, List.length_append, hhdr,
      List.length_append]
    omega
  have hhlen : (ipVhl &&& 0x0f).toNat * 4 = 20 := by decide
  have hversion : ¬ ipVhl >>> 4 ≠ 4 := by decide
  have hfrag : lwipHtons offset &&& lwipHtons (0x1fff ||| 0x2000) ≠ 0 ↔
      ¬ offset &&& (0x1fff ||| 0x2000) = 0 := by
    rw [lwipHtons_and]
    exact not_congr ⟨fun heq ↦ by rw [← lwipHtons_lwipHtons (offset &&& _), heq]; rfl, fun heq ↦ by
      rw [heq]; rfl⟩
  obtain ⟨hrealloc, hfront⟩ := @pbufRealloc_spec p len hfit
  refine ⟨?_, ?_, ?_⟩
  · rw [ipInput]
    simp only [hget 0 (by decide), hget 9 (by decide), h16 2 (by decide), h16 6 (by decide),
      h32 12 (by decide), h32 16 (by decide), hvhl, hflen, hoff, hproto, hsrc, hdest, hhlen,
      hadds, haccepts]
    rw [if_neg hversion, if_neg (not_or.2 ⟨Nat.not_lt.2 hfirst, hle⟩),
      if_neg (by decide), if_neg (by decide)]
    simp only [hfrag, ite_not]
  · rw [hrealloc, hlen, hp]
    have hplen : (setHdr (h.bytes 0) len offset chksum ++ body).length = 20 + body.length := by
      rw [List.length_append, hhdr]
    rw [List.take_append_of_le_length hplen.ge, List.take_of_length_le hplen.le]
  · rw [hfront, hlen]

/-- In particular what `ip_output_if` has sent. -/
theorem ipInput_of_ipOutputIf {h : IpHdr} {packet pad : List UInt8} {p : List PbufPart}
    {accepts : UInt32 → UInt32 → Bool} (hlen : h.len.toNat = 20 + packet.length)
    (hp : chainData p = ipOutputIf h packet ++ pad) (hfit : (chainData p).length < 65536)
    (hfirst : 20 ≤ (payloadData p).length) (haccepts : accepts h.src h.dest = true) :
    ipInput accepts p = .deliver h.proto (pbufRealloc p h.len) ∧
      chainData (pbufRealloc p h.len) = ipOutputIf h packet ∧
      payloadData (pbufRealloc p h.len) = (payloadData p).take (20 + packet.length) := by
  have hself := setHdr_self h (ipChksumInline h)
  have hsum := sum_ipChksumInline h
  rw [ipOutputIf, ← hself] at hp ⊢
  rw [← hself] at hsum
  exact ipInput_of_setHdr hsum hlen hp hfit hfirst haccepts

/-- What `udp_input` reads in the first bytes of a datagram. -/
theorem udpHdr_fields (len chksum : UInt16) (rest : List UInt8) :
    let data := udpHdrBytes srcPort destPort len chksum ++ rest
    lwipHtons (fieldU16 data 0) = srcPort ∧ lwipHtons (fieldU16 data 2) = destPort ∧
      fieldU16 data 6 = chksum :=
  ⟨lwipHtons_loadU16_netBytes srcPort, lwipHtons_loadU16_netBytes destPort, loadU16_leBytes chksum⟩

/-- **What `udp_input` makes of a packet**: it checks the sum, if there is one, and delivers the
data with the addresses and the ports. The first `pbuf` need only hold the headers. -/
theorem udpInput_spec {h : IpHdr} {ipChksum len chksum : UInt16} {data : List UInt8}
    {p : List PbufPart} (hp : chainData p =
      h.bytes ipChksum ++ (udpHdrBytes srcPort destPort len chksum ++ data))
    (hfit : (chainData p).length < 65536) (hfirst : 28 ≤ (payloadData p).length)
    (hlen : len.toNat = 8 + data.length)
    (hsum : chksum ≠ 0 → sum 256 (bytesValue (pseudoHeader h.src h.dest ipProtoUdp len ++
      (udpHdrBytes srcPort destPort len chksum ++ data))) = 65535) :
    ∃ p', udpInput p = some ⟨h.src, srcPort, h.dest, destPort, p'⟩ ∧ chainData p' = data := by
  obtain ⟨datagram, hdatagram⟩ : ∃ d, udpHdrBytes srcPort destPort len chksum ++ data = d :=
    ⟨_, rfl⟩
  have hdlen : datagram.length = len.toNat := by
    rw [← hdatagram, List.length_append, length_udpHdrBytes, hlen]
  obtain ⟨hvhl, -, -, -, -, hsrc, hdest, hhdr⟩ := setHdr_fields h h.len 0 ipChksum datagram
  rw [hdatagram] at hp hsum
  rw [setHdr_self] at hvhl hsrc hdest hhdr
  rw [← hp] at hvhl hsrc hdest
  have hget : ∀ i < 28, (payloadData p).getD i 0 = (chainData p).getD i 0 :=
    fun i hi ↦ payloadData_getD (Nat.lt_of_lt_of_le hi hfirst)
  have h32 : ∀ i < 24, fieldU32 (payloadData p) i = fieldU32 (chainData p) i := by
    intro i hi
    rw [fieldU32, fieldU32, hget i (by omega), hget (i + 1) (by omega), hget (i + 2) (by omega),
      hget (i + 3) (by omega)]
  have htot := toNat_totLen hfit
  have htotal : (chainData p).length = 20 + datagram.length := by
    rw [hp, List.length_append, hhdr]
  -- the IP header is hidden
  obtain ⟨p₁, hhide, hchain₁, hpayload₁⟩ := @pbufHide_spec p 20 (by omega) (by decide)
  have hdata₁ : chainData p₁ = datagram := by
    rw [hchain₁, hp, List.drop_append_of_le_length (by rw [hhdr]),
      List.drop_of_length_le (by rw [hhdr]), List.nil_append]
  have hfront₁ : 8 ≤ (payloadData p₁).length := by
    rw [hpayload₁, List.length_drop]
    omega
  have hget₁ : ∀ i < 8, (payloadData p₁).getD i 0 = datagram.getD i 0 := by
    intro i hi
    rw [payloadData_getD (Nat.lt_of_lt_of_le hi hfront₁), hdata₁]
  have h16 : ∀ i < 7, fieldU16 (payloadData p₁) i = fieldU16 datagram i := by
    intro i hi
    rw [fieldU16, fieldU16, hget₁ i (by omega), hget₁ (i + 1) (by omega)]
  obtain ⟨hsp, hdp, hck⟩ := @udpHdr_fields srcPort destPort len chksum data
  rw [hdatagram] at hsp hdp hck
  have htot₁ : totLen p₁ = len := by
    refine UInt16.toNat_inj.1 ?_
    rw [toNat_totLen (by rw [hdata₁, hdlen]; exact len.toNat_lt), hdata₁, hdlen]
  have hcheck : ¬ (chksum ≠ 0 ∧ inetChksumPseudo p₁ h.src h.dest ipProtoUdp len ≠ 0) := by
    rintro ⟨hne, hbad⟩
    refine hbad (UInt16.toNat_inj.1 ?_)
    rw [toNat_inetChksumPseudo, hdata₁, hsum hne]
    rfl
  -- and then the UDP header
  obtain ⟨p₂, hhide₂, hchain₂, -⟩ := pbufHide_spec hfront₁ (by decide)
  have hdata₂ : chainData p₂ = data := by
    rw [hchain₂, hdata₁, ← hdatagram, List.drop_append_of_le_length (by rw [length_udpHdrBytes]),
      List.drop_of_length_le (by rw [length_udpHdrBytes]), List.nil_append]
  refine ⟨p₂, ?_, hdata₂⟩
  have hihl : (ipVhl &&& 0x0f).toNat * 4 = 20 := by decide
  have hlong : ¬ (totLen p).toNat < 20 + 8 := by omega
  rw [udpInput]
  simp only [hget 0 (by decide), h32 12 (by decide), h32 16 (by decide), hvhl, hsrc, hdest, hihl]
  rw [if_neg hlong, hhide, Option.bind_some]
  simp only [h16 0 (by decide), h16 2 (by decide), h16 6 (by decide), hsp, hdp, hck, htot₁]
  rw [if_neg hcheck, hhide₂]
  rfl

/-- **A datagram arrives as it was sent**, if it is sent in one packet, its addresses pass the tests
of the receiver, and somebody is bound to the port. Whatever chain it is sent from and whatever
chain it is received in, with or without a checksum, and padded or not: `ip_input` hands the packet
to `udp_input`, and this delivers the data, with the addresses and ports of the sender. The first
`pbuf` of the receiver need only hold the headers. -/
theorem udp_delivered (hq : 8 ≤ (payloadData q).length)
    (hlen : (chainData q).length + 20 < 65536) {tos ttl : UInt8} {id : UInt16} {p : List PbufPart}
    {pad : List UInt8} {accepts : UInt32 → UInt32 → Bool}
    (hp : chainData p = udpPacket q src dest srcPort destPort noChksum tos ttl id ++ pad)
    (hfit : (chainData p).length < 65536) (hfirst : 28 ≤ (payloadData p).length)
    (haccepts : accepts src dest = true) :
    ∃ p' r, ipInput accepts p = .deliver ipProtoUdp p' ∧ udpInput p' = some r ∧ r.src = src ∧
      r.srcPort = srcPort ∧ r.dest = dest ∧ r.destPort = destPort ∧
      chainData r.p = (chainData q).drop 8 := by
  obtain ⟨chksum, hpacket, hsum⟩ :=
    @udpSendtoIf_spec q src dest srcPort destPort noChksum hq
  have hge : 8 ≤ (chainData q).length := by
    obtain ⟨rest, hrest⟩ := chainData_eq_payloadData_append q
    rw [hrest, List.length_append]
    omega
  have hudplen : (totLen q).toNat = 8 + ((chainData q).drop 8).length := by
    rw [toNat_totLen (by omega), List.length_drop]
    omega
  obtain ⟨datagram, hdatagram⟩ :
      ∃ d, chainData (udpSendtoIf q src dest srcPort destPort noChksum) = d := ⟨_, rfl⟩
  rw [hdatagram] at hpacket
  have hdlen : datagram.length = (chainData q).length := by
    rw [hpacket, List.length_append, length_udpHdrBytes, List.length_drop]
    omega
  obtain ⟨hdr, hhdr⟩ : ∃ hdr, udpIpHdr q src dest tos ttl id = hdr := ⟨_, rfl⟩
  have hhlen : hdr.len.toNat = 20 + datagram.length := by
    rw [← hhdr, hdlen, Nat.add_comm]
    exact (UInt16.toNat_ofNat').trans (Nat.mod_eq_of_lt hlen)
  obtain ⟨hproto, hsrc, hdest⟩ : hdr.proto = ipProtoUdp ∧ hdr.src = src ∧ hdr.dest = dest :=
    hhdr ▸ ⟨rfl, rfl, rfl⟩
  rw [udpPacket, hdatagram, hhdr] at hp
  rw [← hsrc, ← hdest] at haccepts
  obtain ⟨hip, hchain, hfront⟩ := ipInput_of_ipOutputIf hhlen hp hfit (by omega) haccepts
  obtain ⟨p', hp'⟩ : ∃ p', pbufRealloc p hdr.len = p' := ⟨_, rfl⟩
  rw [hp'] at hip hchain hfront
  rw [hproto] at hip
  have hfirst' : 28 ≤ (payloadData p').length := by
    rw [hfront, List.length_take]
    omega
  have hlen' : (chainData p').length < 65536 := by
    rw [hchain, ipOutputIf, List.length_append]
    have htwenty : (hdr.bytes (ipChksumInline hdr)).length = 20 := rfl
    omega
  rw [ipOutputIf, hpacket] at hchain
  rw [← hsrc, ← hdest] at hsum
  obtain ⟨p₂, hcall, hdata⟩ := udpInput_spec hchain hlen' hfirst' hudplen hsum
  exact ⟨p', _, hip, hcall, hsrc, rfl, hdest, rfl, hdata⟩

end RoundTrip

/-- One byte of data, sent from two `pbuf`s and received in one, with a byte of padding. -/
theorem udp_delivered_byte :
    let q : List PbufPart := [⟨0, List.replicate 8 0, by decide⟩, ⟨0, [0x41], by decide⟩]
    let packet := udpPacket q 0x1e01a8c0 0x6e01a8c0 8089 8089 false 0 255 7
    ∃ p' r, ipInput (fun _ _ ↦ true) [⟨14, packet ++ [0], by decide⟩] = .deliver ipProtoUdp p' ∧
      udpInput p' = some r ∧ r.src = 0x1e01a8c0 ∧ r.srcPort = 8089 ∧ r.dest = 0x6e01a8c0 ∧
      r.destPort = 8089 ∧ chainData r.p = [0x41] :=
  @udp_delivered [⟨0, List.replicate 8 0, by decide⟩, ⟨0, [0x41], by decide⟩] 0x1e01a8c0 0x6e01a8c0
    8089 8089 false (by decide) (by decide) 0 255 7
    [⟨14, udpPacket [⟨0, List.replicate 8 0, by decide⟩, ⟨0, [0x41], by decide⟩]
      0x1e01a8c0 0x6e01a8c0 8089 8089 false 0 255 7 ++ [0], by decide⟩] [0] (fun _ _ ↦ true)
    (List.append_nil _) (by decide) (by decide) rfl

end YHAudioLink
