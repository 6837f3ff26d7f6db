import YHAudioLink.Foundation.OnesComplement

/-!
# Checksums

`inet_chksum.c`: the sum of a block of memory, of a chain of `pbuf`s, and of a chain with its pseudo
header. The file has three algorithms for a block, one of which is configured, and the sum of a
chain is put together from those of its `pbuf`s, whose bytes are exchanged behind every odd length.

Both questions are answered by the number the bytes stand for, `bytesValue`, and the library of
ones' complement sums. Each algorithm returns its sum, whatever the address of the block
(`toNat_lwipStandardChksum` and those of the other two), so all three agree
(`lwipStandardChksum_agree`). And what has been added of a chain is, with its bytes exchanged or
not, the sum of all bytes so far (`SumsTo`); each `pbuf` keeps that (`SumsTo.addPart`), so where a
packet is cut into `pbuf`s has no influence on its checksum (`inetChksum_of_chain`).
-/

namespace YHAudioLink

open OnesComplement

/-- `FOLD_U32T`. -/
def foldU32T (u : UInt32) : UInt32 := (u >>> 16) + (u &&& 0x0000ffff)

/-- `SWAP_BYTES_IN_WORD`. -/
def swapBytesInWord (w : UInt32) : UInt32 := ((w &&& 0xff) <<< 8) ||| ((w &&& 0xff00) >>> 8)

/-- `lwip_htons`. -/
def lwipHtons (n : UInt16) : UInt16 := ((n &&& 0xff) <<< 8) ||| ((n &&& 0xff00) >>> 8)

/-- The 16-bit word in two bytes of the memory. -/
def loadU16 (lo hi : UInt8) : UInt16 := lo.toUInt16 ||| (hi.toUInt16 <<< 8)

/-! ### The sum of a block -/

/-- The loop over the words of a block, two bytes at a time: the sum, and what is left. `load` puts
a word together. -/
def addWords (load : UInt8 → UInt8 → UInt16) (sum : UInt32) : List UInt8 → UInt32 × List UInt8
  | first :: second :: data => addWords load (sum + (load first second).toUInt32) data
  | data => (sum, data)

/-- `lwip_standard_chksum`, algorithm 2, which is the one compiled. At an odd address the first byte
goes into the upper half of `t`, the other words are read one byte off, and the sum is swapped. -/
def lwipStandardChksum (dataptr : UInt32) (data : List UInt8) : UInt16 :=
  let odd := dataptr &&& 1 ≠ 0
  let pb := if odd then data.tail else data
  let first := if odd then data.headD 0 else 0
  let (sum, ps) := addWords loadU16 0 pb
  let t := loadU16 (ps.headD 0) first
  let sum := sum + t.toUInt32
  let sum := foldU32T sum
  let sum := foldU32T sum
  let sum := if odd then swapBytesInWord sum else sum
  sum.toUInt16

/-- `lwip_standard_chksum`, algorithm 1: words put together from octets in network order. -/
def lwipStandardChksum1 (data : List UInt8) : UInt16 :=
  let (acc, octetptr) := addWords (fun first second ↦ loadU16 second first) 0 data
  let acc := if octetptr.length > 0 then acc + (loadU16 0 (octetptr.headD 0)).toUInt32 else acc
  let acc := foldU32T acc
  let acc := if acc &&& 0xffff0000 ≠ 0 then foldU32T acc else acc
  lwipHtons acc.toUInt16

/-- The 32-bit word in four bytes of the memory. -/
def loadU32 (b₀ b₁ b₂ b₃ : UInt8) : UInt32 :=
  (loadU16 b₀ b₁).toUInt32 ||| ((loadU16 b₂ b₃).toUInt32 <<< 16)

/-- `tmp = sum + *pl++; if (tmp < sum) tmp++;` -/
def addCarry (sum pl : UInt32) : UInt32 :=
  let tmp := sum + pl
  if tmp < sum then tmp + 1 else tmp

/-- The loop over eight bytes at a time: the sum, and what is left. -/
def addDoubleWords (sum : UInt32) : List UInt8 → UInt32 × List UInt8
  | b₀ :: b₁ :: b₂ :: b₃ :: b₄ :: b₅ :: b₆ :: b₇ :: data =>
    addDoubleWords (addCarry (addCarry sum (loadU32 b₀ b₁ b₂ b₃)) (loadU32 b₄ b₅ b₆ b₇)) data
  | data => (sum, data)

/-- One word, if the address behind it is the aligned one. -/
def addUnaligned (addr : UInt32) : List UInt8 → UInt32 × List UInt8
  | lo :: hi :: pl =>
    if addr &&& 3 ≠ 0 then ((loadU16 lo hi).toUInt32, pl) else (0, lo :: hi :: pl)
  | pl => (0, pl)

/-- `lwip_standard_chksum`, algorithm 3: 32 bits at a time, once the address is aligned. -/
def lwipStandardChksum3 (dataptr : UInt32) (data : List UInt8) : UInt16 :=
  let odd := dataptr &&& 1 ≠ 0
  let pb := if odd then data.tail else data
  let first := if odd then data.headD 0 else 0
  let addr := if odd ∧ data ≠ [] then dataptr + 1 else dataptr
  let (sum, pl) := addUnaligned addr pb
  let (sum, ps) := addDoubleWords sum pl
  let sum := foldU32T sum
  let (sum, ps) := addWords loadU16 sum ps
  let t := loadU16 (ps.headD 0) first
  let sum := sum + t.toUInt32
  let sum := foldU32T sum
  let sum := foldU32T sum
  let sum := if odd then swapBytesInWord sum else sum
  sum.toUInt16

/-! ### The sum of a chain -/

/-- What the checksum of a packet sees of a `pbuf`: where the payload lies, and its bytes. -/
structure PbufPart where
  payload : UInt32
  data : List UInt8
  /-- `len` is 16 bits wide. -/
  len_lt : data.length < 65536

/-- The bytes of a chain. -/
def chainData (p : List PbufPart) : List UInt8 := p.flatMap PbufPart.data

/-- A round of the loops over a chain: `chklen` bytes of a `pbuf` added to `acc`, which is swapped
behind a `pbuf` of odd length. -/
def addPart (acc : UInt32) (swapped : Bool) (q : PbufPart) (chklen : ℕ) : UInt32 × Bool :=
  let acc := acc + (lwipStandardChksum q.payload (q.data.take chklen)).toUInt32
  let acc := foldU32T acc
  if q.data.length % 2 ≠ 0 then (swapBytesInWord acc, !swapped) else (acc, swapped)

/-- The loop of `inet_chksum_pbuf` and `inet_chksum_pseudo`. -/
def addParts (acc : UInt32) (swapped : Bool) : List PbufPart → UInt32 × Bool
  | [] => (acc, swapped)
  | q :: p =>
    let (acc, swapped) := addPart acc swapped q q.data.length
    addParts acc swapped p

/-- The loop of `inet_chksum_pseudo_partial`. -/
def addPartsPartial (acc : UInt32) (swapped : Bool) (chksumLen : ℕ) :
    List PbufPart → UInt32 × Bool
  | [] => (acc, swapped)
  | q :: p =>
    if chksumLen > 0 then
      let chklen := if q.data.length > chksumLen then chksumLen else q.data.length
      let (acc, swapped) := addPart acc swapped q chklen
      addPartsPartial acc swapped (chksumLen - chklen) p
    else (acc, swapped)

/-- `if (swapped) acc = SWAP_BYTES_IN_WORD(acc)`. -/
def swapBack (r : UInt32 × Bool) : UInt32 := if r.2 then swapBytesInWord r.1 else r.1

/-- The end of the functions with a pseudo header: the addresses, the protocol and the length. -/
def addPseudo (acc src dest : UInt32) (proto : UInt8) (protoLen : UInt16) : UInt16 :=
  let acc := acc + (src &&& 0xffff)
  let acc := acc + ((src >>> 16) &&& 0xffff)
  let acc := acc + (dest &&& 0xffff)
  let acc := acc + ((dest >>> 16) &&& 0xffff)
  let acc := acc + (lwipHtons proto.toUInt16).toUInt32
  let acc := acc + (lwipHtons protoLen).toUInt32
  let acc := foldU32T acc
  let acc := foldU32T acc
  ~~~acc.toUInt16

/-- `inet_chksum`. -/
def inetChksum (dataptr : UInt32) (data : List UInt8) : UInt16 :=
  ~~~lwipStandardChksum dataptr data

/-- `inet_chksum_pbuf`. -/
def inetChksumPbuf (p : List PbufPart) : UInt16 :=
  ~~~(swapBack (addParts 0 false p)).toUInt16

/-- `inet_chksum_pseudo`. -/
def inetChksumPseudo (p : List PbufPart) (src dest : UInt32) (proto : UInt8) (protoLen : UInt16) :
    UInt16 :=
  addPseudo (swapBack (addParts 0 false p)) src dest proto protoLen

/-- `inet_chksum_pseudo_partial`. -/
def inetChksumPseudoPartial (p : List PbufPart) (src dest : UInt32) (proto : UInt8)
    (protoLen chksumLen : UInt16) : UInt16 :=
  addPseudo (swapBack (addPartsPartial 0 false chksumLen.toNat p)) src dest proto protoLen

/-! ### The arithmetic of words -/

/-- The number the bytes stand for. -/
def bytesValue (bytes : List UInt8) : ℕ := Nat.ofDigits 256 (bytes.map UInt8.toNat)

@[simp] theorem bytesValue_nil : bytesValue [] = 0 := rfl

@[simp] theorem bytesValue_cons (b : UInt8) (bytes : List UInt8) :
    bytesValue (b :: bytes) = b.toNat + 256 * bytesValue bytes := by
  rw [bytesValue, List.map_cons, Nat.ofDigits_cons]
  rfl

theorem bytesValue_append (l₁ l₂ : List UInt8) :
    bytesValue (l₁ ++ l₂) = bytesValue l₁ + 256 ^ l₁.length * bytesValue l₂ := by
  rw [bytesValue, List.map_append, Nat.ofDigits_append, List.length_map]
  rfl

theorem toNat_foldU32T (u : UInt32) :
    (foldU32T u).toNat = u.toNat / 65536 + u.toNat % 65536 := by
  have hu := u.toNat_lt
  have hmask : u.toNat &&& 65535 = u.toNat % 65536 := Nat.and_two_pow_sub_one_eq_mod _ 16
  have hshift : u.toNat >>> 16 = u.toNat / 65536 := Nat.shiftRight_eq_div_pow _ 16
  rw [foldU32T, UInt32.toNat_add, UInt32.toNat_shiftRight, UInt32.toNat_and]
  show (u.toNat >>> 16 + (u.toNat &&& 65535)) % 2 ^ 32 = _
  rw [hmask, hshift]
  omega

theorem swap_bits {w : ℕ} (h : w < 65536) :
    (w &&& 0xff) <<< 8 ||| (w &&& 0xff00) >>> 8 = w % 256 * 256 + w / 256 := by
  have hlow : w &&& 0xff = w % 256 := Nat.and_two_pow_sub_one_eq_mod _ 8
  have hhigh : (w &&& 0xff00) >>> 8 = w / 256 := by
    rw [Nat.shiftRight_and_distrib, Nat.shiftRight_eq_div_pow]
    show w / 256 &&& 2 ^ 8 - 1 = w / 256
    rw [Nat.and_two_pow_sub_one_eq_mod, Nat.mod_eq_of_lt (by omega)]
  rw [hlow, hhigh, ← Nat.shiftLeft_add_eq_or_of_lt (by omega), Nat.shiftLeft_eq]

theorem toNat_swapBytesInWord {w : UInt32} (h : w.toNat < 65536) :
    (swapBytesInWord w).toNat = w.toNat % 256 * 256 + w.toNat / 256 := by
  rw [← swap_bits h, swapBytesInWord, UInt32.toNat_or, UInt32.toNat_shiftLeft,
    UInt32.toNat_shiftRight, UInt32.toNat_and, UInt32.toNat_and]
  show (w.toNat &&& 0xff) <<< 8 % 2 ^ 32 ||| (w.toNat &&& 0xff00) >>> 8 = _
  have hlow : w.toNat &&& 0xff ≤ 0xff := Nat.and_le_right
  rw [Nat.mod_eq_of_lt]
  rw [Nat.shiftLeft_eq]
  omega

theorem toNat_lwipHtons (n : UInt16) : (lwipHtons n).toNat =
    n.toNat % 256 * 256 + n.toNat / 256 := by
  have hn : n.toNat < 65536 := n.toNat_lt
  rw [← swap_bits hn, lwipHtons, UInt16.toNat_or, UInt16.toNat_shiftLeft,
    UInt16.toNat_shiftRight, UInt16.toNat_and, UInt16.toNat_and]
  show (n.toNat &&& 0xff) <<< 8 % 2 ^ 16 ||| (n.toNat &&& 0xff00) >>> 8 = _
  have hlow : n.toNat &&& 0xff ≤ 0xff := Nat.and_le_right
  rw [Nat.mod_eq_of_lt]
  rw [Nat.shiftLeft_eq]
  omega

theorem toNat_loadU16 (lo hi : UInt8) : (loadU16 lo hi).toNat = lo.toNat + 256 * hi.toNat := by
  have hlo : lo.toNat < 2 ^ 8 := lo.toNat_lt
  have hhi := hi.toNat_lt
  rw [loadU16, UInt16.toNat_or, UInt16.toNat_shiftLeft]
  show lo.toNat ||| hi.toNat <<< 8 % 2 ^ 16 = _
  rw [Nat.mod_eq_of_lt, Nat.or_comm, ← Nat.shiftLeft_add_eq_or_of_lt hlo, Nat.shiftLeft_eq]
  · omega
  · rw [Nat.shiftLeft_eq]
    omega

/-- Two folds make a word of any sum. -/
theorem foldU32T_foldU32T (u : UInt32) :
    (foldU32T (foldU32T u)).toNat < 65536 ∧ Rep 256 (foldU32T (foldU32T u)).toNat u.toNat := by
  have hu := u.toNat_lt
  have honce : Rep 256 (foldU32T u).toNat u.toNat := by
    rw [toNat_foldU32T]
    exact Rep.fold (by decide) u.toNat
  have htwice : Rep 256 (foldU32T (foldU32T u)).toNat (foldU32T u).toNat := by
    rw [toNat_foldU32T (foldU32T u)]
    exact Rep.fold (by decide) (foldU32T u).toNat
  refine ⟨?_, htwice.trans honce⟩
  rw [toNat_foldU32T, toNat_foldU32T]
  omega

/-- Swapping a word. -/
theorem swapBytesInWord_rep {w : UInt32} (h : w.toNat < 65536) :
    (swapBytesInWord w).toNat < 65536 ∧ Rep 256 (swapBytesInWord w).toNat (256 * w.toNat) := by
  rw [toNat_swapBytesInWord h]
  exact ⟨by omega, Rep.swap (by decide) w.toNat⟩

/-- A word of the memory, whichever way it is put together: in network order it counts for 256. -/
theorem loadU16_rep (first second : UInt8) :
    Rep 256 (loadU16 first second).toNat (1 * (first.toNat + 256 * second.toNat)) ∧
      Rep 256 (loadU16 second first).toNat (256 * (first.toNat + 256 * second.toNat)) := by
  rw [toNat_loadU16, toNat_loadU16, Nat.one_mul]
  refine ⟨Rep.refl _ _, ?_⟩
  rw [Nat.mul_add, ← Nat.mul_assoc, Nat.add_comm second.toNat]
  exact (Rep.refl _ _).add (Rep.of_sq_mul (by decide) second.toNat).symm

/-- **The loop over the words.** -/
theorem addWords_spec {load : UInt8 → UInt8 → UInt16} {c : ℕ}
    (hload : ∀ first second,
      Rep 256 (load first second).toNat (c * (first.toNat + 256 * second.toNat)))
    (data : List UInt8) (sum : UInt32) (hroom : sum.toNat + 65535 * (data.length / 2) < 2 ^ 32) :
    (addWords load sum data).1.toNat ≤ sum.toNat + 65535 * (data.length / 2) ∧
      (addWords load sum data).2.length ≤ 1 ∧
      Rep 256 ((addWords load sum data).1.toNat + c * bytesValue (addWords load sum data).2)
        (sum.toNat + c * bytesValue data) := by
  induction sum, data using addWords.induct load with
  | case1 sum first second data ih =>
    have hword : (load first second).toNat < 65536 := (load first second).toNat_lt
    have hlen : (first :: second :: data).length / 2 = data.length / 2 + 1 := by
      simp only [List.length_cons]
      omega
    rw [hlen] at hroom
    have hsum : (sum + (load first second).toUInt32).toNat =
        sum.toNat + (load first second).toNat := by
      rw [UInt32.toNat_add, UInt16.toNat_toUInt32, Nat.mod_eq_of_lt (by omega)]
    rw [hsum] at ih
    obtain ⟨hle, hrest, hrep⟩ := ih (by omega)
    rw [addWords, hlen]
    refine ⟨by omega, hrest, hrep.trans ?_⟩
    have hvalue : c * bytesValue (first :: second :: data) =
        c * (first.toNat + 256 * second.toNat) + 256 * 256 * (c * bytesValue data) := by
      rw [bytesValue_cons, bytesValue_cons]
      ring
    rw [hvalue, Nat.add_assoc]
    exact (Rep.refl _ _).add ((hload first second).add (Rep.of_sq_mul (by decide) _).symm)
  | case2 sum data hshort =>
    have hone : data.length ≤ 1 := by
      match data, hshort with
      | [], _ => exact Nat.zero_le 1
      | [_], _ => exact Nat.le_refl 1
      | a :: b :: rest, hshort => exact absurd rfl (hshort a b rest)
    have heq : addWords load sum data = (sum, data) := by
      match data, hone with
      | [], _ => rfl
      | [_], _ => rfl
    rw [heq]
    exact ⟨Nat.le_add_right _ _, hone, Rep.refl _ _⟩

/-- What is left of a block is its number. -/
theorem bytesValue_of_length_le_one {data : List UInt8} (h : data.length ≤ 1) :
    bytesValue data = (data.headD 0).toNat := by
  match data, h with
  | [], _ => rfl
  | [b], _ => rw [bytesValue_cons, bytesValue_nil, Nat.mul_zero, Nat.add_zero]; rfl

/-- An odd address: the first byte, and the others one byte off. -/
theorem bytesValue_tail (data : List UInt8) :
    Rep 256 (256 * (bytesValue data.tail + 256 * (data.headD 0).toNat)) (bytesValue data) := by
  cases data with
  | nil => exact Rep.refl _ _
  | cons b data =>
    rw [bytesValue_cons, Nat.mul_add, ← Nat.mul_assoc, Nat.add_comm]
    exact (Rep.of_sq_mul (by decide) _).add (Rep.refl _ _)

/-- **The end of the algorithms**: the odd bytes, two folds, and the swap. -/
theorem finish_spec {odd : Prop} [Decidable odd] {acc : UInt32} {ps data : List UInt8}
    {first : UInt8} (hacc : acc.toNat + 65535 < 2 ^ 32) (hps : ps.length ≤ 1)
    (hrep : Rep 256 ((if odd then 256 else 1) * (acc.toNat + bytesValue ps + 256 * first.toNat))
      (bytesValue data)) :
    (let sum := foldU32T (foldU32T (acc + (loadU16 (ps.headD 0) first).toUInt32))
      let sum := if odd then swapBytesInWord sum else sum
      sum.toUInt16).toNat = sum 256 (bytesValue data) := by
  obtain ⟨t, ht⟩ : ∃ t, loadU16 (ps.headD 0) first = t := ⟨_, rfl⟩
  have htval : t.toNat = bytesValue ps + 256 * first.toNat := by
    rw [← ht, toNat_loadU16, bytesValue_of_length_le_one hps]
  have htlt : t.toNat < 65536 := t.toNat_lt
  have hsum : (acc + t.toUInt32).toNat = acc.toNat + bytesValue ps + 256 * first.toNat := by
    rw [UInt32.toNat_add, UInt16.toNat_toUInt32, Nat.mod_eq_of_lt (by omega), htval, Nat.add_assoc]
  obtain ⟨hlt, hfold⟩ := foldU32T_foldU32T (acc + t.toUInt32)
  rw [hsum] at hfold
  rw [ht]
  obtain ⟨w, hw⟩ : ∃ w, foldU32T (foldU32T (acc + t.toUInt32)) = w := ⟨_, rfl⟩
  rw [hw] at hlt hfold
  simp only [hw]
  by_cases hodd : odd
  · rw [if_pos hodd] at hrep ⊢
    obtain ⟨hlt', hswap⟩ := swapBytesInWord_rep hlt
    rw [UInt32.toNat_toUInt16, Nat.mod_eq_of_lt hlt']
    exact ((hswap.trans (hfold.mul_left 256)).trans hrep).eq_sum (by decide) hlt'
  · rw [if_neg hodd, Nat.one_mul] at hrep
    rw [if_neg hodd, UInt32.toNat_toUInt16, Nat.mod_eq_of_lt hlt]
    exact (hfold.trans hrep).eq_sum (by decide) hlt

/-- **`lwip_standard_chksum`** is the sum of the bytes, wherever they lie. -/
theorem toNat_lwipStandardChksum (dataptr : UInt32) {data : List UInt8}
    (hlen : data.length < 65536) :
    (lwipStandardChksum dataptr data).toNat = sum 256 (bytesValue data) := by
  have hload : ∀ first second : UInt8, Rep 256 (loadU16 first second).toNat
      (1 * (first.toNat + 256 * second.toNat)) := fun first second ↦ (loadU16_rep first second).1
  have hwords : ∀ pb : List UInt8, pb.length ≤ data.length →
      (addWords loadU16 0 pb).1.toNat + 65535 < 2 ^ 32 ∧ (addWords loadU16 0 pb).2.length ≤ 1 ∧
        Rep 256 ((addWords loadU16 0 pb).1.toNat + bytesValue (addWords loadU16 0 pb).2)
          (bytesValue pb) := by
    intro pb hpb
    have hzero : (0 : UInt32).toNat = 0 := rfl
    obtain ⟨hle, hrest, hrep⟩ := addWords_spec hload pb 0 (by rw [hzero]; omega)
    rw [hzero, Nat.zero_add, Nat.one_mul, Nat.one_mul] at hrep
    rw [hzero] at hle
    exact ⟨by omega, hrest, hrep⟩
  rw [lwipStandardChksum]
  by_cases hodd : dataptr &&& 1 ≠ 0
  · simp only [if_pos hodd]
    obtain ⟨hroom, hrest, hrep⟩ := hwords data.tail (by rw [List.length_tail]; omega)
    have hdata : Rep 256 ((if dataptr &&& 1 ≠ 0 then 256 else 1) *
        ((addWords loadU16 0 data.tail).1.toNat + bytesValue (addWords loadU16 0 data.tail).2 +
          256 * (data.headD 0).toNat)) (bytesValue data) := by
      rw [if_pos hodd]
      exact ((hrep.add (Rep.refl _ _)).mul_left 256).trans (bytesValue_tail data)
    have hfinish := finish_spec hroom hrest hdata
    simpa only [if_pos hodd] using hfinish
  · simp only [if_neg hodd]
    obtain ⟨hroom, hrest, hrep⟩ := hwords data (Nat.le_refl _)
    have hdata : Rep 256 ((if dataptr &&& 1 ≠ 0 then 256 else 1) *
        ((addWords loadU16 0 data).1.toNat + bytesValue (addWords loadU16 0 data).2 +
          256 * (0 : UInt8).toNat)) (bytesValue data) := by
      rw [if_neg hodd, Nat.one_mul]
      exact hrep
    have hfinish := finish_spec hroom hrest hdata
    simpa only [if_neg hodd] using hfinish

/-! ### The other algorithms -/

/-- The upper half of a double word. -/
theorem lt_of_and_eq_zero {u : UInt32} (h : u &&& 0xffff0000 = 0) : u.toNat < 65536 := by
  have hu : u.toNat < 2 ^ 32 := u.toNat_lt
  have hand : u.toNat &&& 0xffff0000 = 0 := congrArg UInt32.toNat h
  have hshift : (u.toNat &&& 0xffff0000) >>> 16 = u.toNat / 65536 := by
    rw [Nat.shiftRight_and_distrib, Nat.shiftRight_eq_div_pow]
    show u.toNat / 65536 &&& 2 ^ 16 - 1 = u.toNat / 65536
    rw [Nat.and_two_pow_sub_one_eq_mod, Nat.mod_eq_of_lt (by omega)]
  rw [hand] at hshift
  have hzero : u.toNat / 65536 = 0 := hshift.symm
  omega

/-- **Algorithm 1** is the sum as well. -/
theorem toNat_lwipStandardChksum1 {data : List UInt8} (hlen : data.length < 65536) :
    (lwipStandardChksum1 data).toNat = sum 256 (bytesValue data) := by
  have hzero : (0 : UInt32).toNat = 0 := rfl
  obtain ⟨hle, hrest, hrep⟩ := @addWords_spec (fun first second ↦ loadU16 second first) _
    (fun first second ↦ (loadU16_rep first second).2) data 0 (by rw [hzero]; omega)
  rw [lwipStandardChksum1]
  obtain ⟨⟨acc, rest⟩, hwords⟩ :
      ∃ r, addWords (fun first second ↦ loadU16 second first) 0 data = r := ⟨_, rfl⟩
  rw [hwords] at hle hrest hrep
  simp only [hzero, Nat.zero_add] at hle hrest hrep
  simp only [hwords]
  -- the last octet, if there is one
  obtain ⟨u, hu⟩ : ∃ u,
    (if rest.length > 0 then acc + (loadU16 0 (rest.headD 0)).toUInt32 else acc) = u := ⟨_, rfl⟩
  have hurep : Rep 256 u.toNat (256 * bytesValue data) := by
    refine Rep.trans ?_ hrep
    have hlast : u.toNat = acc.toNat + 256 * bytesValue rest := by
      rw [← hu, bytesValue_of_length_le_one hrest]
      have hoctet := (rest.headD 0).toNat_lt
      split
      · rw [UInt32.toNat_add, UInt16.toNat_toUInt32, toNat_loadU16]
        have hnone : (0 : UInt8).toNat = 0 := rfl
        omega
      · next hempty =>
        have hnil : rest = [] := List.eq_nil_of_length_eq_zero (by omega)
        rw [hnil]
        rfl
    rw [hlast]
    exact Rep.refl _ _
  rw [hu]
  have hfold : ∃ w, (if foldU32T u &&& 0xffff0000 ≠ 0 then foldU32T (foldU32T u) else foldU32T u) =
      w ∧ w.toNat < 65536 ∧ Rep 256 w.toNat u.toNat := by
    refine ⟨_, rfl, ?_⟩
    split
    · exact foldU32T_foldU32T u
    · next hsmall =>
      refine ⟨lt_of_and_eq_zero (not_not.1 hsmall), ?_⟩
      rw [toNat_foldU32T]
      exact Rep.fold (by decide) u.toNat
  obtain ⟨w, hw, hlt, hwrep⟩ := hfold
  simp only [hw]
  have hw16 : w.toUInt16.toNat = w.toNat := by
    rw [UInt32.toNat_toUInt16, Nat.mod_eq_of_lt hlt]
  have hswap : Rep 256 (lwipHtons w.toUInt16).toNat (256 * w.toNat) := by
    rw [toNat_lwipHtons, hw16]
    exact Rep.swap (by decide) w.toNat
  have hback : Rep 256 (256 * (256 * bytesValue data)) (bytesValue data) := by
    rw [← Nat.mul_assoc]
    exact Rep.of_sq_mul (by decide) _
  exact ((hswap.trans ((hwrep.trans hurep).mul_left 256)).trans hback).eq_sum (by decide)
    (lwipHtons w.toUInt16).toNat_lt

/-- An addition with end-around carry. -/
theorem addCarry_rep (sum pl : UInt32) :
    Rep 256 (addCarry sum pl).toNat (sum.toNat + pl.toNat) := by
  have hs := sum.toNat_lt
  have hp := pl.toNat_lt
  simp only [addCarry, UInt32.lt_iff_toNat_lt, UInt32.toNat_add]
  by_cases hover : sum.toNat + pl.toNat < 2 ^ 32
  · rw [Nat.mod_eq_of_lt hover, if_neg (by omega), UInt32.toNat_add, Nat.mod_eq_of_lt hover]
    exact Rep.refl _ _
  · have hmod : (sum.toNat + pl.toNat) % 2 ^ 32 = sum.toNat + pl.toNat - 2 ^ 32 := by omega
    have hone : (1 : UInt32).toNat = 1 := rfl
    rw [hmod, if_pos (by omega), UInt32.toNat_add, UInt32.toNat_add, hmod, hone,
      Nat.mod_eq_of_lt (by omega)]
    refine ⟨?_, by omega⟩
    exact (Nat.modEq_iff_dvd' (by omega)).2 ⟨65537, by omega⟩

theorem toNat_loadU32 (b₀ b₁ b₂ b₃ : UInt8) :
    (loadU32 b₀ b₁ b₂ b₃).toNat = bytesValue [b₀, b₁, b₂, b₃] := by
  have hlo : (loadU16 b₀ b₁).toNat < 2 ^ 16 := (loadU16 b₀ b₁).toNat_lt
  have hhi : (loadU16 b₂ b₃).toNat < 65536 := (loadU16 b₂ b₃).toNat_lt
  rw [loadU32, UInt32.toNat_or, UInt32.toNat_shiftLeft, UInt16.toNat_toUInt32,
    UInt16.toNat_toUInt32]
  show (loadU16 b₀ b₁).toNat ||| (loadU16 b₂ b₃).toNat <<< 16 % 2 ^ 32 = _
  rw [Nat.mod_eq_of_lt, Nat.or_comm, ← Nat.shiftLeft_add_eq_or_of_lt hlo, Nat.shiftLeft_eq]
  · rw [toNat_loadU16, toNat_loadU16]
    simp only [bytesValue_cons, bytesValue_nil]
    ring
  · rw [Nat.shiftLeft_eq]
    omega

/-- The loop over the double words: there is no bound, since no carry is lost. -/
theorem addDoubleWords_spec (data : List UInt8) (sum : UInt32) :
    (addDoubleWords sum data).2.length ≤ 7 ∧
      Rep 256 ((addDoubleWords sum data).1.toNat + bytesValue (addDoubleWords sum data).2)
        (sum.toNat + bytesValue data) := by
  induction sum, data using addDoubleWords.induct with
  | case1 sum b₀ b₁ b₂ b₃ b₄ b₅ b₆ b₇ data ih =>
    rw [addDoubleWords]
    refine ⟨ih.1, ih.2.trans ?_⟩
    have hcarry : Rep 256
        (addCarry (addCarry sum (loadU32 b₀ b₁ b₂ b₃)) (loadU32 b₄ b₅ b₆ b₇)).toNat
        (sum.toNat + bytesValue [b₀, b₁, b₂, b₃] + bytesValue [b₄, b₅, b₆, b₇]) := by
      have hfirst := addCarry_rep sum (loadU32 b₀ b₁ b₂ b₃)
      have hsecond := addCarry_rep (addCarry sum (loadU32 b₀ b₁ b₂ b₃)) (loadU32 b₄ b₅ b₆ b₇)
      rw [toNat_loadU32] at hfirst hsecond
      exact hsecond.trans (hfirst.add (Rep.refl _ _))
    have hdata : Rep 256 (bytesValue (b₀ :: b₁ :: b₂ :: b₃ :: b₄ :: b₅ :: b₆ :: b₇ :: data))
        (bytesValue [b₀, b₁, b₂, b₃] + (bytesValue [b₄, b₅, b₆, b₇] + bytesValue data)) := by
      have hfour : ∀ (l : List UInt8) (rest : List UInt8), l.length = 4 →
          Rep 256 (bytesValue (l ++ rest)) (bytesValue l + bytesValue rest) := by
        intro l rest hl
        rw [bytesValue_append, hl]
        have hpow := pow_mul_rep (b := 256) (by decide) 4 (bytesValue rest)
        exact (Rep.refl _ _).add (by simpa using hpow)
      exact (hfour [b₀, b₁, b₂, b₃] _ rfl).trans
        ((Rep.refl _ _).add (hfour [b₄, b₅, b₆, b₇] data rfl))
    rw [Nat.add_assoc] at hcarry
    have hsum := hcarry.add (Rep.refl 256 (bytesValue data))
    rw [Nat.add_assoc, Nat.add_assoc] at hsum
    exact hsum.trans ((Rep.refl _ _).add hdata.symm)
  | case2 sum data hshort =>
    have hseven : data.length ≤ 7 := by
      match data, hshort with
      | [], _ | [_], _ | [_, _], _ | [_, _, _], _ | [_, _, _, _], _ | [_, _, _, _, _], _
      | [_, _, _, _, _, _], _ | [_, _, _, _, _, _, _], _ => simp
      | b₀ :: b₁ :: b₂ :: b₃ :: b₄ :: b₅ :: b₆ :: b₇ :: rest, hshort =>
        exact absurd rfl (hshort b₀ b₁ b₂ b₃ b₄ b₅ b₆ b₇ rest)
    have heq : addDoubleWords sum data = (sum, data) := by
      rw [addDoubleWords]
      exact hshort
    rw [heq]
    exact ⟨hseven, Rep.refl _ _⟩

/-- The word before the aligned address. -/
theorem addUnaligned_spec (addr : UInt32) (pb : List UInt8) :
    Rep 256 ((addUnaligned addr pb).1.toNat + bytesValue (addUnaligned addr pb).2)
    (bytesValue pb) := by
  have hzero : ∀ pl, Rep 256 ((0 : UInt32).toNat + bytesValue pl) (bytesValue pl) := fun pl ↦ by
    rw [show (0 : UInt32).toNat = 0 from rfl, Nat.zero_add]
    exact Rep.refl _ _
  match pb with
  | [] => exact hzero _
  | [_] => exact hzero _
  | lo :: hi :: pl =>
    rw [addUnaligned]
    split
    · rw [UInt16.toNat_toUInt32, toNat_loadU16, bytesValue_cons, bytesValue_cons, Nat.mul_add,
        ← Nat.mul_assoc, ← Nat.add_assoc]
      exact (Rep.refl _ _).add (Rep.of_sq_mul (by decide) _).symm
    · exact hzero _

/-- From the aligned address on: the double words, and the words that are left. -/
theorem addAligned_spec (sum : UInt32) (pl : List UInt8) :
    ∃ acc ps, addWords loadU16 (foldU32T (addDoubleWords sum pl).1) (addDoubleWords sum pl).2 =
      (acc, ps) ∧ acc.toNat + 65535 < 2 ^ 32 ∧ ps.length ≤ 1 ∧
      Rep 256 (acc.toNat + bytesValue ps) (sum.toNat + bytesValue pl) := by
  have hload : ∀ first second : UInt8, Rep 256 (loadU16 first second).toNat
      (1 * (first.toNat + 256 * second.toNat)) := fun first second ↦ (loadU16_rep first second).1
  obtain ⟨hrest, hrep⟩ := addDoubleWords_spec pl sum
  obtain ⟨⟨acc, rest⟩, hdouble⟩ : ∃ r, addDoubleWords sum pl = r := ⟨_, rfl⟩
  rw [hdouble] at hrest hrep ⊢
  dsimp only at hrest hrep ⊢
  have hacc := acc.toNat_lt
  have hfold : (foldU32T acc).toNat ≤ 131070 ∧ Rep 256 (foldU32T acc).toNat acc.toNat := by
    rw [toNat_foldU32T]
    exact ⟨by omega, Rep.fold (by decide) acc.toNat⟩
  obtain ⟨hle, hone, hwords⟩ := addWords_spec hload rest (foldU32T acc) (by omega)
  rw [Nat.one_mul, Nat.one_mul] at hwords
  exact ⟨_, _, rfl, by omega, hone, hwords.trans ((hfold.2.add (Rep.refl _ _)).trans hrep)⟩

/-- **Algorithm 3** is the sum as well. -/
theorem toNat_lwipStandardChksum3 (dataptr : UInt32) (data : List UInt8) :
    (lwipStandardChksum3 dataptr data).toNat = sum 256 (bytesValue data) := by
  rw [lwipStandardChksum3]
  by_cases hodd : dataptr &&& 1 ≠ 0
  · simp only [if_pos hodd]
    obtain ⟨addr, haddr⟩ : ∃ addr,
      (if dataptr &&& 1 ≠ 0 ∧ data ≠ [] then dataptr + 1 else dataptr) = addr := ⟨_, rfl⟩
    have hstart := addUnaligned_spec addr data.tail
    obtain ⟨acc, ps, hwords, hroom, hone, hrep⟩ := addAligned_spec (addUnaligned addr data.tail).1
      (addUnaligned addr data.tail).2
    have hdata : Rep 256 ((if dataptr &&& 1 ≠ 0 then 256 else 1) *
        (acc.toNat + bytesValue ps + 256 * (data.headD 0).toNat)) (bytesValue data) := by
      rw [if_pos hodd]
      exact (((hrep.trans hstart).add (Rep.refl _ _)).mul_left 256).trans (bytesValue_tail data)
    have hfinish := finish_spec hroom hone hdata
    simpa only [if_pos hodd, haddr, hwords] using hfinish
  · simp only [if_neg hodd]
    obtain ⟨addr, haddr⟩ : ∃ addr,
      (if dataptr &&& 1 ≠ 0 ∧ data ≠ [] then dataptr + 1 else dataptr) = addr := ⟨_, rfl⟩
    have hstart := addUnaligned_spec addr data
    obtain ⟨acc, ps, hwords, hroom, hone, hrep⟩ := addAligned_spec (addUnaligned addr data).1
      (addUnaligned addr data).2
    have hdata : Rep 256 ((if dataptr &&& 1 ≠ 0 then 256 else 1) *
        (acc.toNat + bytesValue ps + 256 * (0 : UInt8).toNat)) (bytesValue data) := by
      rw [if_neg hodd, Nat.one_mul]
      exact hrep.trans hstart
    have hfinish := finish_spec hroom hone hdata
    simpa only [if_neg hodd, haddr, hwords] using hfinish

/-! ### The functions -/

theorem toNat_not (w : UInt16) : (~~~w).toNat = 65535 - w.toNat := by
  rw [UInt16.toNat_not]
  rfl

/-- **What the loops keep.** `acc` stands for the bytes so far, or for them shifted by one if it has
been swapped an odd number of times. -/
def SumsTo (r : UInt32 × Bool) (v : ℕ) : Prop :=
  r.1.toNat < 65536 ∧ Rep 256 r.1.toNat (256 ^ r.2.toNat * v)

/-- Shifting twice is nothing. -/
theorem pow_toNat_twice (b : Bool) (v : ℕ) : Rep 256 (256 ^ b.toNat * (256 ^ b.toNat * v)) v := by
  cases b with
  | false => simpa using Rep.refl 256 v
  | true =>
    have htwice := Rep.of_sq_mul (b := 256) (by decide) v
    rwa [Nat.mul_assoc] at htwice

theorem SumsTo.swapBack {r : UInt32 × Bool} {v : ℕ} (h : SumsTo r v) :
    (swapBack r).toNat = sum 256 v := by
  obtain ⟨acc, swapped⟩ := r
  cases swapped with
  | false =>
    have hrep := h.2
    simp only [Bool.toNat_false, Nat.pow_zero, Nat.one_mul] at hrep
    exact hrep.eq_sum (by decide) h.1
  | true =>
    obtain ⟨hlt, hswap⟩ := swapBytesInWord_rep h.1
    have hback := pow_toNat_twice true v
    exact ((hswap.trans (h.2.mul_left 256)).trans hback).eq_sum (by decide) hlt

/-- **One round**: the bytes taken are added, whatever the length of the rest. -/
theorem SumsTo.addPart {acc : UInt32} {swapped : Bool} {v : ℕ} (h : SumsTo (acc, swapped) v)
    (q : PbufPart) (chklen : ℕ) :
    SumsTo (addPart acc swapped q chklen)
      (v + 256 ^ swapped.toNat * bytesValue (q.data.take chklen)) ∧
      (YHAudioLink.addPart acc swapped q chklen).2 =
        if q.data.length % 2 ≠ 0 then !swapped else swapped := by
  obtain ⟨hlt, hrep⟩ := h
  dsimp only at hlt hrep
  have hlen : (q.data.take chklen).length < 65536 :=
    Nat.lt_of_le_of_lt (List.length_take_le' _ _) q.len_lt
  obtain ⟨w, hw⟩ : ∃ w, lwipStandardChksum q.payload (q.data.take chklen) = w := ⟨_, rfl⟩
  have hword : Rep 256 w.toNat (bytesValue (q.data.take chklen)) := by
    rw [← hw, toNat_lwipStandardChksum _ hlen]
    exact sum_rep 256 _
  have hwlt : w.toNat < 65536 := w.toNat_lt
  have hadd : (acc + w.toUInt32).toNat = acc.toNat + w.toNat := by
    rw [UInt32.toNat_add, UInt16.toNat_toUInt32, Nat.mod_eq_of_lt (by omega)]
  have hfold : (foldU32T (acc + w.toUInt32)).toNat < 65536 ∧
      Rep 256 (foldU32T (acc + w.toUInt32)).toNat
        (256 ^ swapped.toNat * (v + 256 ^ swapped.toNat * bytesValue (q.data.take chklen))) := by
    rw [toNat_foldU32T, hadd]
    refine ⟨by omega, (Rep.fold (by decide) _).trans ?_⟩
    rw [Nat.mul_add]
    exact (hrep.add hword).trans ((Rep.refl _ _).add (pow_toNat_twice swapped _).symm)
  simp only [YHAudioLink.addPart, hw]
  split
  · obtain ⟨hlt', hswap⟩ := swapBytesInWord_rep hfold.1
    refine ⟨⟨hlt', (hswap.trans (hfold.2.mul_left 256)).trans ?_⟩, rfl⟩
    cases swapped with
    | false =>
      rw [Bool.toNat_false, Nat.pow_zero, Nat.one_mul]
      exact Rep.refl _ _
    | true =>
      have htwice := pow_toNat_twice true (v + 256 ^ true.toNat * bytesValue (q.data.take chklen))
      simpa using htwice
  · exact ⟨hfold, rfl⟩

/-- The bytes so far and one more block. -/
theorem bytesValue_append_rep (l₁ l₂ : List UInt8) :
    Rep 256 (bytesValue l₁ + 256 ^ (decide (l₁.length % 2 = 1)).toNat * bytesValue l₂)
      (bytesValue (l₁ ++ l₂)) := by
  have hparity : (decide (l₁.length % 2 = 1)).toNat = l₁.length % 2 := by
    rcases Nat.mod_two_eq_zero_or_one l₁.length with h | h <;> rw [h] <;> rfl
  rw [bytesValue_append, hparity]
  exact (Rep.refl _ _).add (pow_mul_rep (by decide) _ _).symm

theorem SumsTo.congr {r : UInt32 × Bool} {v v' : ℕ} (h : SumsTo r v) (hv : Rep 256 v v') :
    SumsTo r v' :=
  ⟨h.1, h.2.trans (hv.mul_left _)⟩

/-- A block behind the bytes so far turns the parity when its length is odd. -/
theorem parity_append (l₁ l₂ : List UInt8) :
    (if l₂.length % 2 ≠ 0 then !decide (l₁.length % 2 = 1) else decide (l₁.length % 2 = 1)) =
      decide ((l₁ ++ l₂).length % 2 = 1) := by
  rw [List.length_append]
  rcases Nat.mod_two_eq_zero_or_one l₁.length with h | h <;>
    rcases Nat.mod_two_eq_zero_or_one l₂.length with h' | h' <;>
    simp [Nat.add_mod, h, h']

/-- **The loop over a chain.** -/
theorem addParts_sumsTo (p : List PbufPart) {acc : UInt32} {data : List UInt8}
    (h : SumsTo (acc, decide (data.length % 2 = 1)) (bytesValue data)) :
    SumsTo (addParts acc (decide (data.length % 2 = 1)) p) (bytesValue (data ++ chainData p)) := by
  induction p generalizing acc data with
  | nil =>
    rw [chainData, List.flatMap_nil, List.append_nil]
    exact h
  | cons q p ih =>
    obtain ⟨hsum, hswapped⟩ := h.addPart q q.data.length
    rw [List.take_length] at hsum
    rw [addParts]
    obtain ⟨⟨acc', swapped'⟩, hpart⟩ :
        ∃ r, addPart acc (decide (data.length % 2 = 1)) q q.data.length = r := ⟨_, rfl⟩
    rw [hpart] at hsum hswapped ⊢
    dsimp only at hswapped ⊢
    rw [parity_append] at hswapped
    subst hswapped
    have hrest := ih (hsum.congr (bytesValue_append_rep data q.data))
    rwa [List.append_assoc] at hrest

/-- **The loop over the first bytes of a chain**: the `pbuf` it stops in counts only as far as they
go. -/
theorem addPartsPartial_sumsTo (p : List PbufPart) {acc : UInt32} {data : List UInt8}
    (chksumLen : ℕ) (h : SumsTo (acc, decide (data.length % 2 = 1)) (bytesValue data)) :
    SumsTo (addPartsPartial acc (decide (data.length % 2 = 1)) chksumLen p)
      (bytesValue (data ++ (chainData p).take chksumLen)) := by
  induction p generalizing acc data chksumLen with
  | nil =>
    rw [chainData, List.flatMap_nil, List.take_nil, List.append_nil]
    exact h
  | cons q p ih =>
    rw [addPartsPartial]
    have hdata : chainData (q :: p) = q.data ++ chainData p := rfl
    split
    · next hpos =>
      by_cases hcut : q.data.length > chksumLen
      · obtain ⟨hsum, -⟩ := h.addPart q chksumLen
        have hcongr := hsum.congr (bytesValue_append_rep data (q.data.take chksumLen))
        have htake : (chainData (q :: p)).take chksumLen = q.data.take chksumLen := by
          rw [hdata, List.take_append_of_le_length (Nat.le_of_lt hcut)]
        have hstop : ∀ (acc : UInt32) (swapped : Bool) (p : List PbufPart),
            addPartsPartial acc swapped 0 p = (acc, swapped) := by
          intro acc swapped p
          cases p <;> rfl
        rw [if_pos hcut, htake]
        dsimp only
        rw [Nat.sub_self, hstop]
        exact hcongr
      · obtain ⟨hsum, hswapped⟩ := h.addPart q q.data.length
        rw [List.take_length] at hsum
        rw [if_neg hcut]
        dsimp only
        obtain ⟨⟨acc', swapped'⟩, hpart⟩ :
            ∃ r, addPart acc (decide (data.length % 2 = 1)) q q.data.length = r := ⟨_, rfl⟩
        rw [hpart] at hsum hswapped ⊢
        dsimp only at hswapped ⊢
        rw [parity_append] at hswapped
        subst hswapped
        have hrest := ih (chksumLen - q.data.length)
          (hsum.congr (bytesValue_append_rep data q.data))
        have htake : (chainData (q :: p)).take chksumLen =
            q.data ++ (chainData p).take (chksumLen - q.data.length) := by
          rw [hdata, List.take_append, List.take_of_length_le (Nat.le_of_not_gt hcut)]
        rw [List.append_assoc] at hrest
        rwa [htake]
    · next hzero =>
      rw [Nat.eq_zero_of_not_pos hzero, List.take_zero, List.append_nil]
      exact h

/-- At the beginning there is nothing. -/
theorem sumsTo_zero : SumsTo (0, decide (([] : List UInt8).length % 2 = 1)) (bytesValue []) :=
  ⟨by decide, Rep.refl 256 0⟩

/-- The 32-bit address in four bytes of the memory. -/
def addrBytes (addr : UInt32) : List UInt8 :=
  [addr.toUInt8, (addr >>> 8).toUInt8, (addr >>> 16).toUInt8, (addr >>> 24).toUInt8]

/-- The 16-bit number in network order. -/
def netBytes (n : UInt16) : List UInt8 := [(n >>> 8).toUInt8, n.toUInt8]

/-- **The pseudo header** that goes before the bytes of a packet. -/
def pseudoHeader (src dest : UInt32) (proto : UInt8) (protoLen : UInt16) : List UInt8 :=
  addrBytes src ++ addrBytes dest ++ [0, proto] ++ netBytes protoLen

theorem bytesValue_addrBytes (addr : UInt32) : bytesValue (addrBytes addr) = addr.toNat := by
  have hlt := addr.toNat_lt
  have hshift : ∀ (k : UInt32), k.toNat < 32 → (addr >>> k).toNat = addr.toNat / 2 ^ k.toNat := by
    intro k hk
    rw [UInt32.toNat_shiftRight, Nat.mod_eq_of_lt hk, Nat.shiftRight_eq_div_pow]
  have h8 : (addr >>> 8).toNat = addr.toNat / 256 := hshift 8 (by decide)
  have h16 : (addr >>> 16).toNat = addr.toNat / 65536 := hshift 16 (by decide)
  have h24 : (addr >>> 24).toNat = addr.toNat / 16777216 := hshift 24 (by decide)
  simp only [addrBytes, bytesValue_cons, bytesValue_nil, UInt32.toNat_toUInt8, h8, h16, h24]
  omega

theorem bytesValue_netBytes (n : UInt16) : bytesValue (netBytes n) = (lwipHtons n).toNat := by
  have hlt := n.toNat_lt
  have h8 : (n >>> 8).toNat = n.toNat / 256 := by
    rw [UInt16.toNat_shiftRight]
    exact Nat.shiftRight_eq_div_pow _ 8
  simp only [netBytes, bytesValue_cons, bytesValue_nil, UInt16.toNat_toUInt8, h8, toNat_lwipHtons]
  omega

/-- The halves of an address. -/
theorem addr_halves (addr : UInt32) :
    (addr &&& 0xffff).toNat = addr.toNat % 65536 ∧
      ((addr >>> 16) &&& 0xffff).toNat = addr.toNat / 65536 := by
  have hlt := addr.toNat_lt
  have hmask : ∀ u : ℕ, u &&& 0xffff = u % 65536 := fun u ↦ Nat.and_two_pow_sub_one_eq_mod u 16
  rw [UInt32.toNat_and, UInt32.toNat_and, UInt32.toNat_shiftRight]
  show addr.toNat &&& 0xffff = _ ∧ addr.toNat >>> 16 &&& 0xffff = _
  rw [hmask, hmask, Nat.shiftRight_eq_div_pow]
  omega

/-- A block behind an even number of bytes. -/
theorem bytesValue_append_even {l₁ : List UInt8} (h : l₁.length % 2 = 0) (l₂ : List UInt8) :
    Rep 256 (bytesValue (l₁ ++ l₂)) (bytesValue l₁ + bytesValue l₂) := by
  have heven := bytesValue_append_rep l₁ l₂
  rw [h] at heven
  simpa using heven.symm

theorem bytesValue_pseudoHeader (src dest : UInt32) (proto : UInt8) (protoLen : UInt16) :
    Rep 256 (bytesValue (pseudoHeader src dest proto protoLen))
      (src.toNat + dest.toNat + 256 * proto.toNat + (lwipHtons protoLen).toNat) := by
  have hproto : bytesValue [0, proto] = 256 * proto.toNat := by
    simp only [bytesValue_cons, bytesValue_nil]
    show 0 + 256 * (proto.toNat + 256 * 0) = 256 * proto.toNat
    omega
  have hdest := @bytesValue_append_even (addrBytes src) (by simp [addrBytes]) (addrBytes dest)
  have hzero := @bytesValue_append_even (addrBytes src ++ addrBytes dest)
    (by simp [addrBytes]) [0, proto]
  have hlen := @bytesValue_append_even (addrBytes src ++ addrBytes dest ++ [0, proto])
    (by simp [addrBytes]) (netBytes protoLen)
  rw [bytesValue_addrBytes, bytesValue_addrBytes] at hdest
  rw [hproto] at hzero
  rw [bytesValue_netBytes] at hlen
  exact hlen.trans ((hzero.trans (hdest.add (Rep.refl _ _))).add (Rep.refl _ _))

/-- **The end of the functions with a pseudo header** completes the sum. -/
theorem toNat_addPseudo {acc : UInt32} {v : ℕ} (hacc : acc.toNat = sum 256 v) (src dest : UInt32)
    (proto : UInt8) (protoLen : UInt16) :
    (addPseudo acc src dest proto protoLen).toNat =
      65535 - sum 256 (bytesValue (pseudoHeader src dest proto protoLen) + v) := by
  have hlt : acc.toNat < 65536 := hacc ▸ sum_lt (by decide) v
  obtain ⟨hs, hs'⟩ := addr_halves src
  obtain ⟨hd, hd'⟩ := addr_halves dest
  have hsrc := src.toNat_lt
  have hdest := dest.toNat_lt
  have hproto : (lwipHtons proto.toUInt16).toNat = 256 * proto.toNat := by
    have hlt := proto.toNat_lt
    rw [toNat_lwipHtons, UInt8.toNat_toUInt16]
    omega
  have hplt := proto.toNat_lt
  have hlen : (lwipHtons protoLen).toNat < 65536 := (lwipHtons protoLen).toNat_lt
  obtain ⟨u, hu⟩ : ∃ u, acc + (src &&& (0xffff : UInt32)) + ((src >>> 16) &&& (0xffff : UInt32)) +
    (dest &&& (0xffff : UInt32)) + ((dest >>> 16) &&& (0xffff : UInt32)) +
      (lwipHtons proto.toUInt16).toUInt32 + (lwipHtons protoLen).toUInt32 = u := ⟨_, rfl⟩
  have huval : u.toNat = src.toNat / 65536 + src.toNat % 65536 +
      (dest.toNat / 65536 + dest.toNat % 65536) + 256 * proto.toNat + (lwipHtons protoLen).toNat +
        acc.toNat := by
    rw [← hu]
    simp only [UInt32.toNat_add, UInt16.toNat_toUInt32, hs, hs', hd, hd', hproto]
    omega
  have hfold : ∀ a : ℕ, Rep 256 (a / 65536 + a % 65536) a := fun a ↦ Rep.fold (by decide) a
  obtain ⟨hfoldlt, hrep⟩ := foldU32T_foldU32T u
  have hpseudo : addPseudo acc src dest proto protoLen =
      ~~~(foldU32T (foldU32T u)).toUInt16 := by
    rw [← hu]
    rfl
  rw [hpseudo, toNat_not, UInt32.toNat_toUInt16, Nat.mod_eq_of_lt hfoldlt]
  congr 1
  refine Rep.eq_sum (by decide) hfoldlt (hrep.trans ?_)
  rw [huval, hacc]
  refine Rep.add ?_ (sum_rep 256 v)
  refine Rep.trans ?_ (bytesValue_pseudoHeader src dest proto protoLen).symm
  exact (((hfold _).add (hfold _)).add (Rep.refl _ _)).add (Rep.refl _ _)

/-! ### The results -/

/-- **The algorithms agree**: the one that puts words together from octets, the one that reads words
from wherever the block lies, and the one that adds 32 bits at a time. -/
theorem lwipStandardChksum_agree (dataptr : UInt32) {data : List UInt8}
    (hlen : data.length < 65536) :
    lwipStandardChksum dataptr data = lwipStandardChksum1 data ∧
      lwipStandardChksum3 dataptr data = lwipStandardChksum1 data := by
  have h1 := toNat_lwipStandardChksum1 hlen
  refine ⟨UInt16.toNat_inj.1 ?_, UInt16.toNat_inj.1 ?_⟩
  · rw [toNat_lwipStandardChksum dataptr hlen, h1]
  · rw [toNat_lwipStandardChksum3 dataptr data, h1]

/-- A block at an odd address. -/
theorem lwipStandardChksum_agree_odd :
    lwipStandardChksum 7 [1, 2, 3] = lwipStandardChksum1 [1, 2, 3] ∧
      lwipStandardChksum3 7 [1, 2, 3] = lwipStandardChksum1 [1, 2, 3] :=
  lwipStandardChksum_agree 7 (by decide)

theorem toNat_inetChksum (dataptr : UInt32) {data : List UInt8} (hlen : data.length < 65536) :
    (inetChksum dataptr data).toNat = 65535 - sum 256 (bytesValue data) := by
  rw [inetChksum, toNat_not, toNat_lwipStandardChksum dataptr hlen]

theorem swapBack_addParts (p : List PbufPart) :
    (swapBack (addParts 0 false p)).toNat = sum 256 (bytesValue (chainData p)) :=
  (addParts_sumsTo p sumsTo_zero).swapBack

theorem swapBack_addPartsPartial (p : List PbufPart) (chksumLen : ℕ) :
    (swapBack (addPartsPartial 0 false chksumLen p)).toNat =
      sum 256 (bytesValue ((chainData p).take chksumLen)) :=
  (addPartsPartial_sumsTo p chksumLen sumsTo_zero).swapBack

theorem toNat_inetChksumPbuf (p : List PbufPart) :
    (inetChksumPbuf p).toNat = 65535 - sum 256 (bytesValue (chainData p)) := by
  have hsum := swapBack_addParts p
  have hlt : (swapBack (addParts 0 false p)).toNat < 65536 := hsum ▸ sum_lt (by decide) _
  rw [inetChksumPbuf, toNat_not, UInt32.toNat_toUInt16, Nat.mod_eq_of_lt hlt, hsum]

/-- Behind the pseudo header, which has an even length. -/
theorem sum_pseudoHeader (src dest : UInt32) (proto : UInt8) (protoLen : UInt16)
    (data : List UInt8) :
    sum 256 (bytesValue (pseudoHeader src dest proto protoLen) + bytesValue data) =
      sum 256 (bytesValue (pseudoHeader src dest proto protoLen ++ data)) :=
  sum_congr (by decide)
    (bytesValue_append_even (by simp [pseudoHeader, addrBytes, netBytes]) data).symm

theorem toNat_inetChksumPseudo (p : List PbufPart) (src dest : UInt32) (proto : UInt8)
    (protoLen : UInt16) : (inetChksumPseudo p src dest proto protoLen).toNat =
      65535 - sum 256 (bytesValue (pseudoHeader src dest proto protoLen ++ chainData p)) := by
  rw [inetChksumPseudo, toNat_addPseudo (swapBack_addParts p), sum_pseudoHeader]

theorem toNat_inetChksumPseudoPartial (p : List PbufPart) (src dest : UInt32) (proto : UInt8)
    (protoLen chksumLen : UInt16) :
    (inetChksumPseudoPartial p src dest proto protoLen chksumLen).toNat =
      65535 - sum 256 (bytesValue (pseudoHeader src dest proto protoLen ++
        (chainData p).take chksumLen.toNat)) := by
  rw [inetChksumPseudoPartial, toNat_addPseudo (swapBack_addPartsPartial p _), sum_pseudoHeader]

/-- **A checksum does not depend on where the bytes lie**: however a packet is cut into `pbuf`s, of
whatever lengths and at whatever addresses, its checksums are the one of a block that holds the
pseudo header, if there is one, and the bytes covered. -/
theorem inetChksum_of_chain (p : List PbufPart) (src dest : UInt32) (proto : UInt8)
    (protoLen chksumLen : UInt16) (dataptr : UInt32) (hlen : (chainData p).length < 65524) :
    inetChksumPbuf p = inetChksum dataptr (chainData p) ∧
      inetChksumPseudo p src dest proto protoLen =
        inetChksum dataptr (pseudoHeader src dest proto protoLen ++ chainData p) ∧
      inetChksumPseudoPartial p src dest proto protoLen chksumLen =
        inetChksum dataptr (pseudoHeader src dest proto protoLen ++
          (chainData p).take chksumLen.toNat) := by
  have hheader : (pseudoHeader src dest proto protoLen).length = 12 := by
    simp [pseudoHeader, addrBytes, netBytes]
  refine ⟨UInt16.toNat_inj.1 ?_, UInt16.toNat_inj.1 ?_, UInt16.toNat_inj.1 ?_⟩
  · rw [toNat_inetChksumPbuf, toNat_inetChksum _ (by omega)]
  · rw [toNat_inetChksumPseudo, toNat_inetChksum]
    rw [List.length_append, hheader]
    omega
  · rw [toNat_inetChksumPseudoPartial, toNat_inetChksum]
    rw [List.length_append, hheader, List.length_take]
    omega

/-- A chain of two `pbuf`s, of which the first has an odd length. -/
theorem inetChksum_of_chain_two :
    inetChksumPbuf [⟨4, [1, 2, 3], by decide⟩, ⟨9, [4, 5], by decide⟩] =
        inetChksum 0 [1, 2, 3, 4, 5] ∧
      inetChksumPseudo [⟨4, [1, 2, 3], by decide⟩, ⟨9, [4, 5], by decide⟩] 1 2 17 5 =
        inetChksum 0 (pseudoHeader 1 2 17 5 ++ [1, 2, 3, 4, 5]) ∧
      inetChksumPseudoPartial [⟨4, [1, 2, 3], by decide⟩, ⟨9, [4, 5], by decide⟩] 1 2 17 5 4 =
        inetChksum 0 (pseudoHeader 1 2 17 5 ++ [1, 2, 3, 4]) :=
  inetChksum_of_chain [⟨4, [1, 2, 3], by decide⟩, ⟨9, [4, 5], by decide⟩] 1 2 17 5 4 0 (by decide)

end YHAudioLink
