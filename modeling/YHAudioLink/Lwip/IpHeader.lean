import YHAudioLink.Lwip.InetChksum

/-!
# The IP header

The header `ip_output_if` writes, what is read in it, and its checksum. `ip_output_if` does not call
`inet_chksum` for it but adds up the words while it writes them; the sum comes out complete all the
same (`sum_ipChksumInline`). `ip_frag` changes three fields of a header and computes the checksum
afresh, which completes the sum again (`sum_setHdr`). A complete sum is what `ip_input` checks
(`inetChksum_eq_zero`).

The fields are stored in network order and read by the processor in its own. Two reads of a field
are enough for everything below, `fieldU16` and `fieldU32`, and `setHdr_fields` says once what they
find.
-/

namespace YHAudioLink

open OnesComplement

/-! ### Numbers in headers -/

/-- A 16-bit field as it is stored. -/
def leBytes (n : UInt16) : List UInt8 := [n.toUInt8, (n >>> 8).toUInt8]

/-- A 16-bit field as it is loaded. -/
def fieldU16 (data : List UInt8) (i : ℕ) : UInt16 := loadU16 (data.getD i 0) (data.getD (i + 1) 0)

/-- An address as it is loaded. -/
def fieldU32 (data : List UInt8) (i : ℕ) : UInt32 :=
  loadU32 (data.getD i 0) (data.getD (i + 1) 0) (data.getD (i + 2) 0) (data.getD (i + 3) 0)

theorem getD_take {l : List UInt8} {n i : ℕ} (hi : i < n) : (l.take n).getD i 0 = l.getD i 0 := by
  rw [List.getD_eq_getElem?_getD, List.getElem?_take_of_lt hi, ← List.getD_eq_getElem?_getD]

theorem fieldU16_take {l : List UInt8} {n i : ℕ} (hi : i + 1 < n) :
    fieldU16 (l.take n) i = fieldU16 l i := by
  rw [fieldU16, fieldU16, getD_take (Nat.lt_of_succ_lt hi), getD_take hi]

theorem fieldU32_take {l : List UInt8} {n i : ℕ} (hi : i + 3 < n) :
    fieldU32 (l.take n) i = fieldU32 l i := by
  rw [fieldU32, fieldU32, getD_take (by omega), getD_take (by omega), getD_take (by omega),
    getD_take hi]

theorem loadU16_leBytes (n : UInt16) : loadU16 n.toUInt8 (n >>> 8).toUInt8 = n := by
  have hn : n.toNat < 65536 := n.toNat_lt
  have h8 : (n >>> 8).toNat = n.toNat / 256 := by
    rw [UInt16.toNat_shiftRight]
    exact Nat.shiftRight_eq_div_pow _ 8
  refine UInt16.toNat_inj.1 ?_
  rw [toNat_loadU16, UInt16.toNat_toUInt8, UInt16.toNat_toUInt8, h8]
  omega

theorem lwipHtons_loadU16_netBytes (n : UInt16) : lwipHtons (loadU16 (n >>> 8).toUInt8 n.toUInt8) =
    n := by
  have hn : n.toNat < 65536 := n.toNat_lt
  have h8 : (n >>> 8).toNat = n.toNat / 256 := by
    rw [UInt16.toNat_shiftRight]
    exact Nat.shiftRight_eq_div_pow _ 8
  refine UInt16.toNat_inj.1 ?_
  have hhigh : n.toNat / 256 % 256 = n.toNat / 256 := Nat.mod_eq_of_lt (by omega)
  have hparts : (n.toNat / 256 + 256 * (n.toNat % 256)) % 256 = n.toNat / 256 ∧
      (n.toNat / 256 + 256 * (n.toNat % 256)) / 256 = n.toNat % 256 := by omega
  rw [toNat_lwipHtons, toNat_loadU16, UInt16.toNat_toUInt8, UInt16.toNat_toUInt8, h8]
  show (n.toNat / 256 % 256 + 256 * (n.toNat % 256)) % 256 * 256 +
    (n.toNat / 256 % 256 + 256 * (n.toNat % 256)) / 256 = n.toNat
  rw [hhigh, hparts.1, hparts.2]
  omega

theorem lwipHtons_lwipHtons (n : UInt16) : lwipHtons (lwipHtons n) = n := by
  refine UInt16.toNat_inj.1 ?_
  have hn := n.toNat_lt
  rw [toNat_lwipHtons, toNat_lwipHtons]
  omega

theorem loadU32_addrBytes (a : UInt32) :
    loadU32 a.toUInt8 (a >>> 8).toUInt8 (a >>> 16).toUInt8 (a >>> 24).toUInt8 = a :=
  UInt32.toNat_inj.1 ((toNat_loadU32 _ _ _ _).trans (bytesValue_addrBytes a))

theorem bytesValue_leBytes (n : UInt16) : bytesValue (leBytes n) = n.toNat := by
  rw [← congrArg UInt16.toNat (loadU16_leBytes n), toNat_loadU16]
  simp [leBytes]

/-- A word behind an even number of bytes counts as it is loaded. -/
theorem bytesValue_word {l₁ : List UInt8} (h : l₁.length % 2 = 0) (n : UInt16) (l₂ : List UInt8) :
    Rep 256 (bytesValue (l₁ ++ leBytes n ++ l₂))
    (n.toNat + bytesValue (l₁ ++ leBytes 0 ++ l₂)) := by
  have hsplit : ∀ n : UInt16, bytesValue (l₁ ++ leBytes n ++ l₂) = Nat.ofDigits 256
      (l₁.map UInt8.toNat ++ n.toUInt8.toNat :: (n >>> 8).toUInt8.toNat :: l₂.map UInt8.toNat) := by
    intro n
    simp [bytesValue, leBytes]
  have heven : (l₁.map UInt8.toNat).length % 2 = 0 := by rwa [List.length_map]
  have hword := ofDigits_word (b := 256) (by decide) heven n.toUInt8.toNat (n >>> 8).toUInt8.toNat
    (l₂.map UInt8.toNat)
  have hn : n.toUInt8.toNat + 256 * (n >>> 8).toUInt8.toNat = n.toNat := by
    rw [← bytesValue_leBytes]
    simp [leBytes]
  rw [hn] at hword
  rw [hsplit, hsplit]
  exact hword

/-- **A checksum put where there was none completes the sum**; where the sum was complete before,
all ones leave it so. -/
theorem sum_chksum {l₁ l₂ : List UInt8} {n : UInt16} (h : l₁.length % 2 = 0)
    (hn : n.toNat = 65535 - sum 256 (bytesValue (l₁ ++ leBytes 0 ++ l₂)) ∨
      n.toNat = 65535 ∧ sum 256 (bytesValue (l₁ ++ leBytes 0 ++ l₂)) = 65535) :
    sum 256 (bytesValue (l₁ ++ leBytes n ++ l₂)) = 65535 := by
  rw [sum_congr (by decide) (bytesValue_word h n l₂)]
  rcases hn with hcomp | ⟨hones, hsum⟩
  · rw [hcomp]
    exact sum_add_complement (by decide) _
  · obtain ⟨hdvd, hne⟩ := (sum_eq_ones_iff (b := 256) (by decide)).1 hsum
    rw [hones]
    refine (sum_eq_ones_iff (b := 256) (by decide)).2 ⟨?_, by omega⟩
    exact Nat.dvd_add (Nat.dvd_refl 65535) hdvd

/-- `inet_chksum` finds a complete sum. -/
theorem inetChksum_eq_zero {hdr : List UInt8} (addr : UInt32) (hlen : hdr.length < 65536)
    (hsum : sum 256 (bytesValue hdr) = 65535) : inetChksum addr hdr = 0 := by
  refine UInt16.toNat_inj.1 ?_
  rw [toNat_inetChksum addr hlen, hsum]
  rfl

/-! ### The IP header -/

/-- `IP_PROTO_UDP`. -/
def ipProtoUdp : UInt8 := 17

/-- `_v_hl` of a header without options: version 4, five words. -/
def ipVhl : UInt8 := ((4 : UInt8) <<< 4) ||| 5

/-- The fields `ip_output_if` sets; the offset is zero. -/
structure IpHdr where
  tos : UInt8
  len : UInt16
  id : UInt16
  ttl : UInt8
  proto : UInt8
  src : UInt32
  dest : UInt32

/-- `struct ip_hdr` with a checksum. -/
def IpHdr.bytes (h : IpHdr) (chksum : UInt16) : List UInt8 :=
  [ipVhl, h.tos] ++ netBytes h.len ++ netBytes h.id ++ [0, 0] ++ [h.ttl, h.proto] ++
    leBytes chksum ++ addrBytes h.src ++ addrBytes h.dest

/-- `LWIP_MAKE_U16`. -/
def lwipMakeU16 (a b : UInt8) : UInt32 := (a.toUInt32 <<< 8) ||| b.toUInt32

/-- The checksum `ip_output_if` adds up while it sets the fields. -/
def ipChksumInline (h : IpHdr) : UInt16 :=
  let chkSum : UInt32 := 0
  let chkSum := chkSum + lwipMakeU16 h.proto h.ttl
  let chkSum := chkSum + (h.dest &&& 0xffff)
  let chkSum := chkSum + (h.dest >>> 16)
  let chkSum := chkSum + lwipMakeU16 h.tos ipVhl
  let chkSum := chkSum + (lwipHtons h.len).toUInt32
  let chkSum := chkSum + (lwipHtons h.id).toUInt32
  let chkSum := chkSum + (h.src &&& 0xffff)
  let chkSum := chkSum + (h.src >>> 16)
  let chkSum := (chkSum >>> 16) + (chkSum &&& 0xffff)
  let chkSum := (chkSum >>> 16) + chkSum
  (~~~chkSum).toUInt16

/-- `ip_output_if`: the header in front of the packet. It ends with a choice that is not here: the
packet goes to the interface whole, or to `ip_frag` if it is longer than the `mtu`. -/
def ipOutputIf (h : IpHdr) (packet : List UInt8) : List UInt8 :=
  h.bytes (ipChksumInline h) ++ packet

theorem toNat_lwipMakeU16 (a b : UInt8) : (lwipMakeU16 a b).toNat = 256 * a.toNat + b.toNat := by
  have ha := a.toNat_lt
  have hb : b.toNat < 2 ^ 8 := b.toNat_lt
  rw [lwipMakeU16, UInt32.toNat_or, UInt32.toNat_shiftLeft, UInt8.toNat_toUInt32,
    UInt8.toNat_toUInt32]
  show a.toNat <<< 8 % 2 ^ 32 ||| b.toNat = _
  rw [Nat.mod_eq_of_lt, ← Nat.shiftLeft_add_eq_or_of_lt hb, Nat.shiftLeft_eq]
  · omega
  · rw [Nat.shiftLeft_eq]
    omega

/-- The number the header stands for, as far as its sum goes. -/
theorem bytesValue_ipHdr (h : IpHdr) (chksum : UInt16) :
    Rep 256 (bytesValue (h.bytes chksum))
      (ipVhl.toNat + 256 * h.tos.toNat + (lwipHtons h.len).toNat + (lwipHtons h.id).toNat +
        (h.ttl.toNat + 256 * h.proto.toNat) + chksum.toNat + h.src.toNat + h.dest.toNat) := by
  have hword : ∀ (l : List UInt8) (w : List UInt8) (a b : ℕ), l.length % 2 = 0 →
      Rep 256 (bytesValue l) a → bytesValue w = b → Rep 256 (bytesValue (l ++ w)) (a + b) := by
    intro l w a b hl ha hb
    exact (bytesValue_append_even hl w).trans (hb ▸ ha.add (Rep.refl _ _))
  have hpair : ∀ a b : UInt8, bytesValue [a, b] = a.toNat + 256 * b.toNat := fun a b ↦ by simp
  rw [IpHdr.bytes]
  refine hword _ _ _ _ (by simp [netBytes, leBytes, addrBytes]) ?_ (bytesValue_addrBytes _)
  refine hword _ _ _ _ (by simp [netBytes, leBytes]) ?_ (bytesValue_addrBytes _)
  refine hword _ _ _ _ (by simp [netBytes]) ?_ (bytesValue_leBytes _)
  refine hword _ _ _ _ (by simp [netBytes]) ?_ (hpair _ _)
  refine hword _ _ _ 0 (by simp [netBytes]) ?_ (hpair 0 0)
  refine hword _ _ _ _ (by simp [netBytes]) ?_ (bytesValue_netBytes _)
  refine hword _ _ _ _ (by simp) ?_ (bytesValue_netBytes _)
  rw [hpair]
  exact Rep.refl _ _

/-- A few words added up without a carry out of 32 bits. -/
theorem toNat_foldl_add {words : List UInt32} {acc : UInt32}
    (hwords : ∀ w ∈ words, w.toNat < 65536) (hroom : acc.toNat + 65536 * words.length < 2 ^ 32) :
    (words.foldl (· + ·) acc).toNat = acc.toNat + (words.map UInt32.toNat).sum ∧
      (words.map UInt32.toNat).sum ≤ 65536 * words.length := by
  induction words generalizing acc with
  | nil => simp
  | cons w words ih =>
    have hw := hwords w List.mem_cons_self
    rw [List.length_cons] at hroom
    have hadd : (acc + w).toNat = acc.toNat + w.toNat := by
      rw [UInt32.toNat_add, Nat.mod_eq_of_lt (by omega)]
    obtain ⟨hsum, hle⟩ := @ih (acc + w) (fun w' hw' ↦ hwords w' (List.mem_cons_of_mem w hw'))
      (by omega)
    rw [List.foldl_cons, hsum, hadd, List.map_cons, List.sum_cons, Nat.add_assoc, List.length_cons]
    exact ⟨rfl, by omega⟩

/-- What `ip_output_if` adds up. -/
def ipChksumWords (h : IpHdr) : List UInt32 :=
  [lwipMakeU16 h.proto h.ttl, h.dest &&& 0xffff, h.dest >>> 16, lwipMakeU16 h.tos ipVhl,
    (lwipHtons h.len).toUInt32, (lwipHtons h.id).toUInt32, h.src &&& 0xffff, h.src >>> 16]

/-- It is the number the header stands for, as far as its sum goes. -/
theorem ipChksumWords_rep (h : IpHdr) :
    ((ipChksumWords h).foldl (· + ·) 0).toNat ≤ 65536 * 8 ∧
      Rep 256 ((ipChksumWords h).foldl (· + ·) 0).toNat (bytesValue (h.bytes 0)) := by
  have hhalf : ∀ a : UInt32, (a &&& 0xffff).toNat = a.toNat % 65536 ∧
      (a >>> 16).toNat = a.toNat / 65536 := by
    intro a
    refine ⟨(addr_halves a).1, ?_⟩
    rw [UInt32.toNat_shiftRight]
    exact Nat.shiftRight_eq_div_pow _ 16
  have hmake : ∀ a b : UInt8, (lwipMakeU16 a b).toNat < 65536 := by
    intro a b
    have ha := a.toNat_lt
    have hb := b.toNat_lt
    rw [toNat_lwipMakeU16]
    omega
  have hword : ∀ n : UInt16, n.toUInt32.toNat < 65536 := fun n ↦ by
    rw [UInt16.toNat_toUInt32]
    exact n.toNat_lt
  have haddr : ∀ a : UInt32, (a &&& 0xffff).toNat < 65536 ∧ (a >>> 16).toNat < 65536 := by
    intro a
    have ha := a.toNat_lt
    rw [(hhalf a).1, (hhalf a).2]
    omega
  have hlt : ∀ w ∈ ipChksumWords h, w.toNat < 65536 := by
    intro w hw
    simp only [ipChksumWords, List.mem_cons, List.not_mem_nil, or_false] at hw
    rcases hw with rfl | rfl | rfl | rfl | rfl | rfl | rfl | rfl
    · exact hmake _ _
    · exact (haddr _).1
    · exact (haddr _).2
    · exact hmake _ _
    · exact hword _
    · exact hword _
    · exact (haddr _).1
    · exact (haddr _).2
  have hlen : (ipChksumWords h).length = 8 := rfl
  have hzero : (0 : UInt32).toNat = 0 := rfl
  obtain ⟨hsum, hbound⟩ := @toNat_foldl_add (ipChksumWords h) 0 hlt (by rw [hlen, hzero]; decide)
  rw [hlen] at hbound
  rw [hsum, hzero, Nat.zero_add]
  refine ⟨hbound, Rep.trans ?_ (bytesValue_ipHdr h 0).symm⟩
  have hfold : ∀ a : ℕ, Rep 256 (a / 65536 + a % 65536) a := fun a ↦ Rep.fold (by decide) a
  have hsplit : ((ipChksumWords h).map UInt32.toNat).sum =
      ipVhl.toNat + 256 * h.tos.toNat + (lwipHtons h.len).toNat + (lwipHtons h.id).toNat +
        (h.ttl.toNat + 256 * h.proto.toNat) + (0 : UInt16).toNat +
          (h.src.toNat / 65536 + h.src.toNat % 65536) +
            (h.dest.toNat / 65536 + h.dest.toNat % 65536) := by
    simp only [ipChksumWords, List.map_cons, List.map_nil, List.sum_cons, List.sum_nil,
      toNat_lwipMakeU16, UInt16.toNat_toUInt32, (hhalf h.dest).1, (hhalf h.dest).2, (hhalf h.src).1,
      (hhalf h.src).2]
    show _ = _ + 0 + _ + _
    ring
  rw [hsplit]
  exact ((Rep.refl _ _).add (hfold _)).add (hfold _)

/-- **The checksum added up on the way is the one of the header**, as `inet_chksum` finds it. -/
theorem toNat_ipChksumInline (h : IpHdr) :
    (ipChksumInline h).toNat = 65535 - sum 256 (bytesValue (h.bytes 0)) := by
  obtain ⟨hlt, hrep⟩ := ipChksumWords_rep h
  obtain ⟨u, hu⟩ : ∃ u, (ipChksumWords h).foldl (· + ·) 0 = u := ⟨_, rfl⟩
  rw [hu] at hlt hrep
  have hinline : ipChksumInline h =
      (~~~((((u >>> 16) + (u &&& 0xffff)) >>> 16) + ((u >>> 16) + (u &&& 0xffff)))).toUInt16 := by
    rw [← hu]
    rfl
  have hfold : (u >>> 16) + (u &&& 0xffff) = foldU32T u := rfl
  rw [hinline, hfold]
  obtain ⟨v, hv⟩ : ∃ v, foldU32T u = v := ⟨_, rfl⟩
  have hvval : v.toNat = u.toNat / 65536 + u.toNat % 65536 := by rw [← hv, toNat_foldU32T]
  have hvrep : Rep 256 v.toNat (bytesValue (h.bytes 0)) := by
    rw [hvval]
    exact (Rep.fold (by decide) u.toNat).trans hrep
  have hsum : sum 256 (bytesValue (h.bytes 0)) = v.toNat / 65536 + v.toNat % 65536 := by
    refine (Rep.eq_sum (by decide) ?_ ((Rep.fold (by decide) v.toNat).trans hvrep)).symm
    show v.toNat / 65536 + v.toNat % 65536 < 65536
    omega
  have hshift : (v >>> 16).toNat = v.toNat / 65536 := by
    rw [UInt32.toNat_shiftRight]
    exact Nat.shiftRight_eq_div_pow _ 16
  rw [hv, hsum, UInt32.toNat_toUInt16, UInt32.toNat_not, UInt32.toNat_add, hshift]
  show (4294967295 - (v.toNat / 65536 + v.toNat) % 2 ^ 32) % 2 ^ 16 = _
  omega

/-- The header of `ip_output_if` adds up. -/
theorem sum_ipChksumInline (h : IpHdr) : sum 256 (bytesValue (h.bytes (ipChksumInline h))) =
    65535 := by
  have hsplit : ∀ chksum, h.bytes chksum = ([ipVhl, h.tos] ++ netBytes h.len ++ netBytes h.id ++
      [0, 0] ++ [h.ttl, h.proto]) ++ leBytes chksum ++ (addrBytes h.src ++ addrBytes h.dest) :=
    fun chksum ↦ by simp only [IpHdr.bytes, List.append_assoc]
  have hinline := toNat_ipChksumInline h
  rw [hsplit] at hinline ⊢
  exact sum_chksum (by simp [netBytes]) (.inl hinline)

/-! ### A header that is changed -/

/-- A header after `IPH_LEN_SET`, `IPH_OFFSET_SET` and `IPH_CHKSUM_SET`. -/
def setHdr (iphdr : List UInt8) (len offset chksum : UInt16) : List UInt8 :=
  iphdr.take 2 ++ netBytes len ++ (iphdr.drop 4).take 2 ++ netBytes offset ++
    (iphdr.drop 8).take 2 ++ leBytes chksum ++ iphdr.drop 12

/-- The bytes of a header that has been set. -/
theorem setHdr_bytes (h : IpHdr) (chksum₀ len offset chksum : UInt16) :
    setHdr (h.bytes chksum₀) len offset chksum =
      [ipVhl, h.tos] ++ netBytes len ++ netBytes h.id ++ netBytes offset ++ [h.ttl, h.proto] ++
        leBytes chksum ++ addrBytes h.src ++ addrBytes h.dest := by
  simp [setHdr, IpHdr.bytes, netBytes, leBytes, addrBytes]

theorem setHdr_self (h : IpHdr) (chksum : UInt16) : setHdr (h.bytes 0) h.len 0 chksum =
    h.bytes chksum := by
  rw [setHdr_bytes]
  rfl

/-- What is read in a packet with such a header. -/
theorem setHdr_fields (h : IpHdr) (len offset chksum : UInt16) (rest : List UInt8) :
    let data := setHdr (h.bytes 0) len offset chksum ++ rest
    data.getD 0 0 = ipVhl ∧ lwipHtons (fieldU16 data 2) = len ∧ fieldU16 data 4 = lwipHtons h.id ∧
      fieldU16 data 6 = lwipHtons offset ∧ data.getD 9 0 = h.proto ∧ fieldU32 data 12 = h.src ∧
      fieldU32 data 16 = h.dest ∧ (setHdr (h.bytes 0) len offset chksum).length = 20 := by
  have hfield : ∀ n : UInt16, loadU16 (n >>> 8).toUInt8 n.toUInt8 = lwipHtons n := fun n ↦
    (lwipHtons_lwipHtons _).symm.trans (congrArg lwipHtons (lwipHtons_loadU16_netBytes n))
  rw [setHdr_bytes]
  simp [netBytes, leBytes, addrBytes, fieldU16, fieldU32, loadU32_addrBytes, hfield,
    lwipHtons_lwipHtons]

/-- The checksum that is set completes the sum. -/
theorem sum_setHdr (h : IpHdr) (len offset : UInt16) (addr : UInt32) :
    sum 256 (bytesValue (setHdr (h.bytes 0) len offset
      (inetChksum addr (setHdr (h.bytes 0) len offset 0)))) = 65535 := by
  have hsplit : ∀ chksum, setHdr (h.bytes 0) len offset chksum =
      ([ipVhl, h.tos] ++ netBytes len ++ netBytes h.id ++ netBytes offset ++ [h.ttl, h.proto]) ++
        leBytes chksum ++ (addrBytes h.src ++ addrBytes h.dest) := fun chksum ↦ by
    rw [setHdr_bytes]
    simp only [List.append_assoc]
  obtain ⟨-, -, -, -, -, -, -, hlen⟩ := setHdr_fields h len offset 0 []
  have hvalue := toNat_inetChksum addr (Nat.lt_of_le_of_lt hlen.le (by decide))
  obtain ⟨chksum, hchksum⟩ :
    ∃ c, inetChksum addr (setHdr (h.bytes 0) len offset 0) = c := ⟨_, rfl⟩
  rw [hchksum] at hvalue ⊢
  rw [hsplit] at hvalue ⊢
  exact sum_chksum (by simp [netBytes]) (.inl hvalue)

/-! ### Fragment offsets -/

/-- `IPH_OFFSET` of a fragment, as a number. -/
def fragField (ofo : UInt16) (more : Bool) : UInt16 :=
  (0x1fff &&& ofo) ||| if more then 0x2000 else 0

theorem lwipHtons_and (a b : UInt16) : lwipHtons a &&& lwipHtons b = lwipHtons (a &&& b) := by
  simp only [lwipHtons]
  apply UInt16.toBitVec_inj.1
  ext i hi
  simp
  grind

theorem or_and_distrib (a b c : UInt16) : (a ||| b) &&& c = a &&& c ||| b &&& c := by
  apply UInt16.toBitVec_inj.1
  ext i hi
  simp
  grind

theorem fragField_and_offmask (ofo : UInt16) (more : Bool) :
    fragField ofo more &&& 0x1fff = 0x1fff &&& ofo := by
  have hmore : (if more then (0x2000 : UInt16) else 0) &&& 0x1fff = 0 := by cases more <;> decide
  rw [fragField, or_and_distrib, hmore, UInt16.or_zero, UInt16.and_comm, ← UInt16.and_assoc,
    UInt16.and_self]

theorem fragField_and_mf (ofo : UInt16) (more : Bool) :
    fragField ofo more &&& 0x2000 = if more then 0x2000 else 0 := by
  have hmore : (if more then (0x2000 : UInt16) else 0) &&& 0x2000 = if more then 0x2000 else 0 := by
    cases more <;> decide
  have hmask : (0x1fff : UInt16) &&& 0x2000 = 0 := by decide
  rw [fragField, or_and_distrib, hmore, UInt16.and_assoc, UInt16.and_comm ofo,
    ← UInt16.and_assoc, hmask, UInt16.zero_and, UInt16.zero_or]

end YHAudioLink
