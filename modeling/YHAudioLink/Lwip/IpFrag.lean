import YHAudioLink.Lwip.ReassRuns

/-!
# Fragmenting packets

`ip_frag` of `ip_frag.c`: as long as something is left, a new `pbuf` takes a copy of the header, and
others that refer to the packet's own memory take as much of it as fits the `mtu`, in blocks of
eight bytes. If there is no memory for one of them, what has been sent is sent and the rest is not.

A round takes what is from `a` to `c` (`Round`), and mirrors it (`fragRefs_spec`) behind a header
that adds up (`isSentFragment_of`). The rounds together send the first fragments of a cut
(`ipFragLoop_spec`). It is a cut of the whole packet if the packet was whole, and a finer one if it
was a fragment already (`ipFrag_fragments`).
-/

namespace YHAudioLink

open Pieces OnesComplement

/-! ### The data -/

/-- `MEMP_NUM_FRAG_PBUF`. -/
def mempNumFragPbuf : ℕ := 15

/-- Where the loop over the `pbuf`s of a fragment stops. -/
inductive FragStop
  /-- The pool `MEMP_FRAG_PBUF` is empty. -/
  | mem
  /-- The chain is at its end. -/
  | null

/-- What a fragment takes of a chain: the `pbuf`s that mirror it, the chain from the `pbuf` it ends
in, and how much of that one it takes. -/
structure FragRefs where
  refs : List PbufPart
  p : List PbufPart
  newpbuflen : ℕ

/-- `ERR_OK`, or `ERR_MEM`. -/
inductive FragErr
  | ok
  | mem
  deriving DecidableEq

/-- What has been handed to `netif->output`, and what is returned. -/
structure FragResult where
  sent : List (List PbufPart)
  err : FragErr

/-! ### The loops -/

/-- `while (left_to_copy)`, with `free` elements in the pool. -/
def fragRefs : ℕ → List PbufPart → ℕ → Except FragStop FragRefs
  | _, p, 0 => .ok ⟨[], p, 0⟩
  | _, [], _ + 1 => .error .null
  | free, q :: p, leftToCopy + 1 =>
    let newpbuflen := if leftToCopy + 1 < q.data.length then leftToCopy + 1 else q.data.length
    if newpbuflen = 0 then fragRefs free p (leftToCopy + 1)
    else
      match free with
      | 0 => .error .mem
      | free + 1 =>
        let newpbuf : PbufPart := ⟨q.payload, q.data.take newpbuflen,
          Nat.lt_of_le_of_lt (List.length_take_le' _ _) q.len_lt⟩
        let leftToCopy := leftToCopy + 1 - newpbuflen
        if leftToCopy = 0 then .ok ⟨[newpbuf], q :: p, newpbuflen⟩
        else (fragRefs free p leftToCopy).map fun r ↦ { r with refs := newpbuf :: r.refs }

theorem length_setHdr_lt (originalIphdr : List UInt8) (len offset chksum : UInt16) :
    (setHdr (originalIphdr.take ipHlen) len offset chksum).length < 65536 := by
  have hle : (originalIphdr.take ipHlen).length ≤ 20 := List.length_take_le _ _
  generalize originalIphdr.take ipHlen = iphdr at hle ⊢
  simp only [setHdr, netBytes, leBytes, List.length_append, List.length_take, List.length_drop,
    List.length_cons, List.length_nil]
  omega

/-- The loop of `ip_frag`. `rambuf` is what `pbuf_alloc` returns for the header of each fragment in
turn; the pool is full again when a fragment has been sent. -/
def ipFragLoop (originalIphdr : List UInt8) (mtu omf nfb : UInt16) (rambuf : ℕ → Option UInt32) :
    ℕ → ℕ → List PbufPart → ℕ → UInt16 → UInt16 → Option FragResult
  | 0, _, _, _, _, _ => none
  | fuel + 1, i, p, poff, left, ofo =>
    if left = 0 then some ⟨[], .ok⟩
    else
      let last : Bool := (left.toNat : ℤ) ≤ (mtu.toNat : ℤ) - ipHlen
      let tmp := omf ||| (0x1fff &&& ofo)
      let tmp := if last then tmp else tmp ||| 0x2000
      let cop := if last then left else nfb * 8
      match rambuf i with
      | none => some ⟨[], .mem⟩
      | some payload =>
        (pbufHide poff p).bind fun p ↦
          match fragRefs mempNumFragPbuf p cop.toNat with
          | .error .null => none
          | .error .mem => some ⟨[], .mem⟩
          | .ok r =>
            let len := cop + UInt16.ofNat ipHlen
            let chksum := inetChksum payload (setHdr (originalIphdr.take ipHlen) len tmp 0)
            let iphdr : PbufPart := ⟨payload, setHdr (originalIphdr.take ipHlen) len tmp chksum,
              length_setHdr_lt originalIphdr len tmp chksum⟩
            (ipFragLoop originalIphdr mtu omf nfb rambuf fuel (i + 1) r.p r.newpbuflen (left - cop)
              (ofo + nfb)).map fun s ↦ { s with sent := (iphdr :: r.refs) :: s.sent }

/-- `ip_frag`. A round that takes nothing is repeated for ever, so one for each number `left` can be
is enough. `none` also stands for the end of the chain before that of the packet. -/
def ipFrag (mtu : UInt16) (rambuf : ℕ → Option UInt32) (p : List PbufPart) : Option FragResult :=
  let originalIphdr := payloadData p
  let tmp := lwipHtons (fieldU16 originalIphdr 6)
  let ofo := tmp &&& 0x1fff
  let omf := tmp &&& 0x2000
  let left := totLen p - UInt16.ofNat ipHlen
  let nfb := UInt16.ofInt (((mtu.toNat : ℤ) - ipHlen).tdiv 8)
  ipFragLoop originalIphdr mtu omf nfb rambuf 65536 0 p ipHlen left ofo

/-! ### What a fragment takes -/

/-- **A fragment mirrors what is next in the chain**, and the chain is left where the next one
starts; unless the pool does not last. -/
theorem fragRefs_spec {free n : ℕ} {p : List PbufPart} (hn : n ≤ (chainData p).length) :
    fragRefs free p n = .error .mem ∧ free < p.length ∨
      ∃ r, fragRefs free p n = .ok r ∧ chainData r.refs = (chainData p).take n ∧
        r.newpbuflen ≤ (payloadData r.p).length ∧ (0 < n → 0 < r.newpbuflen) ∧
        (chainData r.p).drop r.newpbuflen = (chainData p).drop n ∧ r.p.length ≤ p.length := by
  induction p generalizing free n with
  | nil =>
    obtain rfl : n = 0 := Nat.le_zero.1 hn
    exact .inr ⟨_, by rw [fragRefs], rfl, le_rfl, id, rfl, le_rfl⟩
  | cons q p ih =>
    have hdata : chainData (q :: p) = q.data ++ chainData p := rfl
    cases n with
    | zero => exact .inr ⟨_, by rw [fragRefs], rfl, Nat.zero_le _, id, rfl, le_rfl⟩
    | succ n =>
      rw [hdata, List.length_append] at hn
      obtain ⟨len, hlen⟩ :
        ∃ len, (if n + 1 < q.data.length then n + 1 else q.data.length) = len := ⟨_, rfl⟩
      have hmin : len = min (n + 1) q.data.length := by
        rw [← hlen]
        split <;> omega
      rw [fragRefs.eq_def]
      simp only [hlen]
      split
      · next hzero =>
        -- an empty `pbuf`
        have hq : q.data = [] := List.eq_nil_of_length_eq_zero (by omega)
        rw [hdata, hq, List.nil_append]
        rw [hq, List.length_nil, Nat.zero_add] at hn
        rcases @ih free (n + 1) hn with ⟨hmem, hlt⟩ | ⟨r, hr, hrefs, hle, hpos, hdrop, hlen'⟩
        · exact .inl ⟨hmem, Nat.lt_succ_of_lt hlt⟩
        · exact .inr ⟨r, hr, hrefs, hle, hpos, hdrop, Nat.le_succ_of_le hlen'⟩
      · next hpos =>
        cases free with
        | zero => exact .inl ⟨rfl, Nat.zero_lt_succ _⟩
        | succ free =>
          dsimp only
          split
          · next hall =>
            have hlen' : len = n + 1 := by omega
            refine .inr ⟨_, rfl, ?_, ?_, fun _ ↦ Nat.pos_of_ne_zero hpos, ?_, le_rfl⟩
            · show q.data.take len ++ [] = _
              rw [List.append_nil, hdata, ← hlen', List.take_append_of_le_length (by omega)]
            · show len ≤ q.data.length
              omega
            · show (chainData (q :: p)).drop len = _
              rw [hlen']
          · next hmore =>
            have hq : len = q.data.length := by omega
            have htake : q.data.take len = q.data := List.take_of_length_le hq.ge
            have hle' : q.data.length ≤ n + 1 := by omega
            rcases @ih free (n + 1 - len) (by omega) with
              ⟨hmem, hlt⟩ | ⟨r, hr, hrefs, hle, hpos', hdrop, hlen'⟩
            · refine .inl ⟨?_, Nat.succ_lt_succ hlt⟩
              rw [hmem]
              rfl
            · have hlt := Nat.lt_of_le_of_lt (List.length_take_le' len q.data) q.len_lt
              refine .inr ⟨{ r with refs := ⟨q.payload, q.data.take len, hlt⟩ :: r.refs }, ?_, ?_,
                hle, fun _ ↦ hpos' (by omega), ?_, Nat.le_succ_of_le hlen'⟩
              · rw [hr]
                rfl
              · show q.data.take len ++ chainData r.refs = _
                rw [htake, hrefs, hdata, List.take_append, List.take_of_length_le hle', hq]
              · show (chainData r.p).drop r.newpbuflen = _
                rw [hdrop, hdata, List.drop_append, List.drop_of_length_le hle', hq,
                  List.nil_append]

/-! ### The headers of the fragments -/

theorem setHdr_setHdr (h : IpHdr) (chksum₀ len₁ offset₁ chksum₁ len offset chksum : UInt16) :
    setHdr (setHdr (h.bytes chksum₀) len₁ offset₁ chksum₁) len offset chksum =
      setHdr (h.bytes 0) len offset chksum := by
  rw [setHdr_bytes, setHdr_bytes]
  simp [setHdr, netBytes, leBytes]

/-- A flag that is set already. -/
theorem fragField_of_or {ofo : UInt16} {more last : Bool} :
    (if last then (if more then 0x2000 else 0) ||| (0x1fff &&& ofo)
      else ((if more then 0x2000 else 0) ||| (0x1fff &&& ofo)) ||| 0x2000) =
      fragField ofo (more || !last) := by
  have hself : ∀ w : UInt16, 0x2000 ||| w ||| 0x2000 = w ||| 0x2000 := fun w ↦ by
    rw [UInt16.or_comm 0x2000 w, UInt16.or_assoc, UInt16.or_self]
  cases more <;> cases last
  · simp [fragField]
  · simp [fragField, UInt16.or_comm]
  · simp [fragField, hself]
  · simp [fragField, UInt16.or_comm]

/-! ### The fragments -/

/-- What is from `a` to `b`, cut for an `mtu`. -/
structure MtuCut (mtu a b : ℕ) (cut : List (ℕ × ℕ)) : Prop where
  pieces : CutFrom a b cut
  aligned : ∀ y ∈ cut, 8 ∣ y.1
  fits : ∀ y ∈ cut, y.2 - y.1 + 20 ≤ mtu
  /-- All but the last are as long as they can be. -/
  full : ∀ y ∈ cut.dropLast, y.2 - y.1 = (mtu - 20) / 8 * 8

/-- A fragment with a header that adds up. -/
structure IsSentFragment (h : IpHdr) (data : List UInt8) (y : ℕ × ℕ) (q : List PbufPart) : Prop
    extends IsFragment h data y q where
  adds : sum 256 (bytesValue ((payloadData q).take ipHlen)) = 65535

/-- A round of the loop: from `a` up to `c`, which is the end `b` if what is left fits the `mtu`. -/
structure Round (mtu a b c : ℕ) : Prop where
  start : 8 ∣ a
  lt : a < c
  le : c ≤ b
  fits : c - a + 20 ≤ mtu
  stop : c < b → 8 ∣ c
  more : c < b ↔ ¬ b - a ≤ mtu - 20
  full : c = b ∨ c - a = (mtu - 20) / 8 * 8

theorem exists_round {mtu a b : ℕ} (hmtu : 28 ≤ mtu) (hab : a < b) (ha : 8 ∣ a) :
    ∃ c, Round mtu a b c := by
  refine ⟨if b - a ≤ mtu - 20 then b else a + (mtu - 20) / 8 * 8, ⟨ha, ?_, ?_, ?_, ?_, ?_, ?_⟩⟩ <;>
    split <;> omega

theorem MtuCut.nil (mtu a : ℕ) : MtuCut mtu a a [] := ⟨rfl, nofun, nofun, nofun⟩

theorem MtuCut.cons {mtu a b c : ℕ} {cut : List (ℕ × ℕ)} (h : MtuCut mtu c b cut)
    (hround : Round mtu a b c) : MtuCut mtu a b ((a, c) :: cut) := by
  refine ⟨⟨rfl, hround.lt, h.pieces⟩, fun y hy ↦ ?_, fun y hy ↦ ?_, fun y hy ↦ ?_⟩
  · rcases List.mem_cons.1 hy with rfl | hy
    · exact hround.start
    · exact h.aligned y hy
  · rcases List.mem_cons.1 hy with rfl | hy
    · exact hround.fits
    · exact h.fits y hy
  · cases cut with
    | nil => cases hy
    | cons z cut =>
      rw [List.dropLast_cons_cons] at hy
      rcases List.mem_cons.1 hy with rfl | hy
      · -- the last but one does not stop at the end
        obtain ⟨hcut, hz, hlast⟩ := cutFrom_cons_iff.1 h.pieces
        refine hround.full.resolve_left fun heq ↦ ?_
        obtain ⟨y, hy⟩ : ∃ y, (z :: cut).getLast? = some y := ⟨_, List.getLast?_cons⟩
        have hle := hcut.stop_le_last List.mem_cons_self hy
        have hpos := hcut.pos z List.mem_cons_self
        have hlast' := hlast y hy
        omega
      · exact h.full y hy

theorem exists_mtuCut {mtu a b : ℕ} (hmtu : 28 ≤ mtu) (hab : a ≤ b) (ha : a < b → 8 ∣ a) :
    ∃ cut, MtuCut mtu a b cut := by
  induction hn : b - a using Nat.strong_induction_on generalizing a with
  | _ n ih =>
    rcases Nat.eq_or_lt_of_le hab with rfl | hlt
    · exact ⟨[], .nil mtu a⟩
    · obtain ⟨c, hround⟩ := exists_round hmtu hlt (ha hlt)
      have hac := hround.lt
      obtain ⟨cut, hcut⟩ := ih (b - c) (by omega) hround.le hround.stop rfl
      exact ⟨_, hcut.cons hround⟩

/-- **A fragment as it is put together**: the header of the packet with the fields of the fragment,
and what it mirrors. -/
theorem isSentFragment_of {h : IpHdr} {data : List UInt8} {originalIphdr : List UInt8}
    {refs : List PbufPart} {len offset : UInt16} {a c : ℕ} (payload : UInt32)
    (horig : ∃ len offset chksum, originalIphdr.take ipHlen = setHdr (h.bytes 0) len offset chksum)
    (hrefs : chainData refs = slice data (a, c)) (hlen : len = UInt16.ofNat (c - a + 20))
    (hoffset : offset = fragField (UInt16.ofNat (a / 8)) (c < data.length)) :
    IsSentFragment h data (a, c)
      (⟨payload, setHdr (originalIphdr.take ipHlen) len offset
          (inetChksum payload (setHdr (originalIphdr.take ipHlen) len offset 0)),
        length_setHdr_lt originalIphdr len offset _⟩ :: refs) := by
  obtain ⟨len₀, offset₀, chksum₀, horig⟩ := horig
  have hset : ∀ chksum, setHdr (originalIphdr.take ipHlen) len offset chksum =
      setHdr (h.bytes 0) len offset chksum := fun chksum ↦ by rw [horig, setHdr_setHdr]
  obtain ⟨-, -, -, -, -, -, -, htwenty⟩ := setHdr_fields h len offset
    (inetChksum payload (setHdr (h.bytes 0) len offset 0)) []
  refine ⟨⟨⟨inetChksum payload (setHdr (h.bytes 0) len offset 0), ?_⟩, ?_⟩, ?_⟩
  · show setHdr _ len offset _ ++ chainData refs = _
    rw [hset, hset, hrefs, hlen, hoffset]
  · show 20 ≤ (setHdr _ len offset _).length
    rw [hset, hset, htwenty]
  · show sum 256 (bytesValue ((setHdr _ len offset _).take 20)) = 65535
    rw [hset, hset, List.take_of_length_le htwenty.le]
    exact sum_setHdr h len offset payload

/-- **What has become of what is from `a` to `b`**: the first fragments of a cut have been sent, and
all of them unless memory ran out. -/
def SendsCut (h : IpHdr) (data : List UInt8) (mtu a b : ℕ) (r : FragResult) : Prop :=
  ∃ cut rest, MtuCut mtu a b (cut ++ rest) ∧ List.Forall₂ (IsSentFragment h data) cut r.sent ∧
    (r.err = .ok ↔ rest = [])

section Loop

variable {h : IpHdr} {data : List UInt8} {a b c : ℕ}

theorem SendsCut.done (mtu a : ℕ) : SendsCut h data mtu a a ⟨[], .ok⟩ :=
  ⟨[], [], .nil mtu a, .nil, iff_of_true rfl rfl⟩

theorem SendsCut.outOfMemory {mtu : ℕ} (hmtu : 28 ≤ mtu) (hab : a < b) (ha : 8 ∣ a) :
    SendsCut h data mtu a b ⟨[], .mem⟩ := by
  obtain ⟨rest, hrest⟩ := exists_mtuCut hmtu hab.le fun _ ↦ ha
  refine ⟨[], rest, hrest, .nil, iff_of_false FragErr.noConfusion fun hnil ↦ ?_⟩
  rw [hnil] at hrest
  exact hab.ne hrest.pieces

theorem SendsCut.cons {mtu : ℕ} {r : FragResult} {q : List PbufPart}
    (hr : SendsCut h data mtu c b r)
    (hround : Round mtu a b c) (hq : IsSentFragment h data (a, c) q) :
    SendsCut h data mtu a b { r with sent := q :: r.sent } := by
  obtain ⟨cut, rest, hcut, hsent, herr⟩ := hr
  exact ⟨(a, c) :: cut, rest, hcut.cons hround, .cons hq hsent, herr⟩

variable {mtu omf nfb left ofo : UInt16} {last : Bool}

/-- `last` is the round that gets to the end. -/
theorem last_iff (hround : Round mtu.toNat a b c) (hmtu : 28 ≤ mtu.toNat)
    (hleft : left.toNat = b - a) :
    decide ((left.toNat : ℤ) ≤ (mtu.toNat : ℤ) - ipHlen) = true ↔ ¬ c < b := by
  have hcons : ipHlen = 20 := rfl
  rw [decide_eq_true_iff, hround.more, not_not, hleft, hcons]
  omega

/-- `cop` is the length of what the round takes. -/
theorem toNat_cop (hround : Round mtu.toNat a b c) (hleft : left.toNat = b - a)
    (hnfb : nfb.toNat = (mtu.toNat - 20) / 8) (hlast : last = true ↔ ¬ c < b) :
    (if last = true then left else nfb * 8).toNat = c - a := by
  have height : (8 : UInt16).toNat = 8 := rfl
  have hm := mtu.toNat_lt
  have hle := hround.le
  have hfull := hround.full
  split
  · next htrue =>
    have hend := hlast.1 htrue
    omega
  · next hfalse =>
    have hmore := not_not.1 (mt hlast.2 hfalse)
    rw [UInt16.toNat_mul, hnfb, height]
    omega

/-- `tmp` is the offset field of the fragment. -/
theorem tmp_eq_fragField (hcb : c ≤ b) (hb : b ≤ data.length)
    (homf : omf = if b < data.length then 0x2000 else 0) (hlast : last = true ↔ ¬ c < b) :
    (if last = true then omf ||| (0x1fff &&& ofo) else omf ||| (0x1fff &&& ofo) ||| 0x2000) =
      fragField ofo (c < data.length) := by
  have hmore : (decide (b < data.length) || !last) = decide (c < data.length) := by
    by_cases hlt : c < b
    · have hfalse : last = false := Bool.eq_false_iff.2 fun htrue ↦ hlast.1 htrue hlt
      rw [hfalse, Bool.not_false, Bool.or_true, decide_eq_true (hlt.trans_le hb)]
    · have hceq : c = b := Nat.le_antisymm hcb (Nat.le_of_not_lt hlt)
      rw [hlast.2 hlt, hceq, Bool.not_true, Bool.or_false]
  rw [homf, ← hmore, ← fragField_of_or]
  simp only [decide_eq_true_eq]

variable {originalIphdr : List UInt8} {rambuf : ℕ → Option UInt32}

/-- **The rounds of `ip_frag`**, from wherever a round starts. -/
theorem ipFragLoop_spec
    (horig : ∃ len offset chksum, originalIphdr.take ipHlen = setHdr (h.bytes 0) len offset chksum)
    (hb : b ≤ data.length) (hmtu : 28 ≤ mtu.toNat)
    (hnfb : nfb.toNat = (mtu.toNat - 20) / 8) (homf : omf = if b < data.length then 0x2000 else 0)
    {fuel i a poff : ℕ} {p : List PbufPart} {left ofo : UInt16} (hfuel : b - a < fuel) (hab : a ≤ b)
    (hleft : left.toNat = b - a)
    (hat : a < b → 8 ∣ a ∧ ofo = UInt16.ofNat (a / 8) ∧ 0 < poff ∧ poff ≤ (payloadData p).length ∧
      (chainData p).drop poff = slice data (a, b)) :
    ∃ r, ipFragLoop originalIphdr mtu omf nfb rambuf fuel i p poff left ofo = some r ∧
      SendsCut h data mtu.toNat a b r ∧
      (p.length ≤ mempNumFragPbuf → (∀ j, (rambuf j).isSome = true) → r.err = .ok) := by
  induction fuel generalizing i a poff p left ofo with
  | zero => exact absurd hfuel (Nat.not_lt_zero _)
  | succ fuel ih =>
    rw [ipFragLoop]
    split
    · next hzero =>
      -- nothing is left
      have hzero' : left.toNat = 0 := congrArg UInt16.toNat hzero
      obtain rfl : a = b := by omega
      exact ⟨_, rfl, .done mtu.toNat a, fun _ _ ↦ rfl⟩
    · next hne =>
      have hlt : a < b := by
        refine Nat.lt_of_le_of_ne hab fun heq ↦ hne (UInt16.toNat_inj.1 ?_)
        rw [hleft, heq, Nat.sub_self]
        rfl
      obtain ⟨ha, hofo, hpoff, hpay, hdrop⟩ := hat hlt
      obtain ⟨c, hround⟩ := exists_round hmtu hlt ha
      have hac := hround.lt
      have hcb := hround.le
      obtain ⟨last, hlast⟩ :
        ∃ last, decide ((left.toNat : ℤ) ≤ (mtu.toNat : ℤ) - ipHlen) = last := ⟨_, rfl⟩
      have hlast' : last = true ↔ ¬ c < b := hlast ▸ last_iff hround hmtu hleft
      obtain ⟨cop, hcop⟩ : ∃ cop, (if last = true then left else nfb * 8) = cop := ⟨_, rfl⟩
      have hcopval : cop.toNat = c - a := hcop ▸ toNat_cop hround hleft hnfb hlast'
      obtain ⟨tmp, htmp⟩ : ∃ tmp, (if last = true then omf ||| (0x1fff &&& ofo)
        else omf ||| (0x1fff &&& ofo) ||| 0x2000) = tmp := ⟨_, rfl⟩
      have htmpval : tmp = fragField (UInt16.ofNat (a / 8)) (c < data.length) := by
        rw [← htmp, tmp_eq_fragField hcb hb homf hlast', hofo]
      simp only [hlast, hcop, htmp]
      cases hram : rambuf i with
      | none =>
        refine ⟨_, rfl, .outOfMemory hmtu hlt ha, fun _ hall ↦ ?_⟩
        have hsome := hall i
        rw [hram] at hsome
        cases hsome
      | some payload =>
        obtain ⟨p₁, hhide, hdata₁, -⟩ := pbufHide_spec hpay hpoff
        have hlen₁ := length_pbufHide poff p
        rw [hhide, Option.getD_some] at hlen₁
        rw [hdrop] at hdata₁
        have hroom : cop.toNat ≤ (chainData p₁).length := by
          rw [hdata₁, length_slice hb, hcopval]
          omega
        dsimp only
        rw [hhide, Option.bind_some]
        rcases @fragRefs_spec mempNumFragPbuf cop.toNat p₁ hroom with
          ⟨hrefs, hfree⟩ | ⟨r, hr, hrefs, hle, hpos, hdrop', hlen'⟩
        · rw [hrefs]
          exact ⟨_, rfl, .outOfMemory hmtu hlt ha, fun hp _ ↦ absurd hfree (by omega)⟩
        · rw [hr]
          dsimp only
          have hcoplen : cop + UInt16.ofNat ipHlen = UInt16.ofNat (c - a + 20) := by
            have htwenty : (UInt16.ofNat ipHlen).toNat = 20 := rfl
            refine UInt16.toNat_inj.1 ?_
            rw [UInt16.toNat_add, hcopval, htwenty, UInt16.toNat_ofNat']
          have htake : chainData r.refs = slice data (a, c) := by
            rw [hrefs, hdata₁, hcopval, take_slice data hcb]
          have hleft' : (left - cop).toNat = b - c := by
            rw [UInt16.toNat_sub_of_le _ _ (UInt16.le_iff_toNat_le.2 (by omega)), hleft, hcopval]
            omega
          have hnext : c < b → 8 ∣ c ∧ ofo + nfb = UInt16.ofNat (c / 8) ∧ 0 < r.newpbuflen ∧
              r.newpbuflen ≤ (payloadData r.p).length ∧
              (chainData r.p).drop r.newpbuflen = slice data (c, b) := by
            intro hmore
            have hfull := hround.full
            refine ⟨hround.stop hmore, ?_, hpos (by omega), hle, ?_⟩
            · refine UInt16.toNat_inj.1 ?_
              rw [UInt16.toNat_add, hofo, hnfb, UInt16.toNat_ofNat', UInt16.toNat_ofNat']
              omega
            · rw [hdrop', hdata₁, hcopval, drop_slice data hac.le]
          obtain ⟨s, hs, hsends, hok⟩ :=
            @ih (i + 1) c r.newpbuflen r.p (left - cop) (ofo + nfb) (by omega) hcb hleft' hnext
          rw [hs]
          exact ⟨_, rfl, hsends.cons hround (isSentFragment_of payload horig htake hcoplen htmpval),
            fun hp hall ↦ hok (by omega) hall⟩

end Loop

/-! ### A packet -/

/-- The cut of a packet is a cut of all its data. -/
theorem fragCut_iff {data : List UInt8} {x : ℕ × ℕ} {cut : List (ℕ × ℕ)} :
    FragCut data (x :: cut) ↔ CutFrom 0 data.length (x :: cut) ∧ (∀ y ∈ x :: cut, 8 ∣ y.1) ∧
      data.length + 20 < 65536 := by
  rw [cutFrom_cons_iff]
  constructor
  · intro hcut
    exact ⟨⟨hcut.pieces, hcut.first x rfl, hcut.last⟩, hcut.aligned, hcut.fits⟩
  · rintro ⟨⟨hpieces, hfirst, hlast⟩, haligned, hfits⟩
    exact ⟨hpieces, fun y hy ↦ Option.some.inj hy ▸ hfirst, hlast, haligned, hfits⟩

/-- A packet is the fragment of itself that is all of it. -/
theorem isFragment_of_ipOutputIf {h : IpHdr} {data : List UInt8} {p : List PbufPart}
    (hlen : h.len.toNat = data.length + 20) (hp : chainData p = ipOutputIf h data)
    (hfirst : 20 ≤ (payloadData p).length) : IsFragment h data (0, data.length) p := by
  refine ⟨⟨ipChksumInline h, ?_⟩, hfirst⟩
  have hlen' : UInt16.ofNat (data.length - 0 + 20) = h.len :=
    UInt16.toNat_inj.1 (by rw [UInt16.toNat_ofNat', Nat.sub_zero, ← hlen,
      Nat.mod_eq_of_lt h.len.toNat_lt])
  have hslice : slice data (0, data.length) = data := List.take_length
  have hfield : fragField (UInt16.ofNat (0 / 8)) (decide (data.length < data.length)) = 0 := by
    rw [decide_eq_false (Nat.lt_irrefl _)]
    decide
  rw [hp, ipOutputIf, hlen', hslice, hfield, setHdr_self]

theorem FragCut.of_cutFrom {data : List UInt8} {cut : List (ℕ × ℕ)}
    (h : CutFrom 0 data.length cut) (hne : cut ≠ []) (haligned : ∀ y ∈ cut, 8 ∣ y.1)
    (hfits : data.length + 20 < 65536) : FragCut data cut := by
  obtain ⟨x, l, rfl⟩ := List.exists_cons_of_ne_nil hne
  exact fragCut_iff.2 ⟨h, haligned, hfits⟩

/-- A fragment that is cut again leaves a cut of the packet. -/
theorem FragCut.refine {data : List UInt8} {mtu : ℕ} {x : ℕ × ℕ} {pre post sub : List (ℕ × ℕ)}
    (hcut : FragCut data (pre ++ x :: post)) (hsub : MtuCut mtu x.1 x.2 sub) :
    FragCut data (pre ++ (sub ++ post)) := by
  obtain ⟨y, l, hl⟩ :=
    List.exists_cons_of_ne_nil (List.append_ne_nil_of_right_ne_nil pre (List.cons_ne_nil x post))
  have hall := hcut
  rw [hl, fragCut_iff, ← hl] at hall
  obtain ⟨hfrom, haligned, hfits⟩ := hall
  have hpos := hcut.pieces.pos x (List.mem_append_right pre List.mem_cons_self)
  have hne : sub ≠ [] := fun hnil ↦ by
    have hempty := hsub.pieces
    rw [hnil] at hempty
    exact hpos.ne hempty
  refine .of_cutFrom (hfrom.refine hsub.pieces)
    (List.append_ne_nil_of_right_ne_nil pre (List.append_ne_nil_of_left_ne_nil hne post))
    (fun z hz ↦ ?_) hfits
  rcases List.mem_append.1 hz with hz | hz
  · exact haligned z (List.mem_append_left _ hz)
  · rcases List.mem_append.1 hz with hz | hz
    · exact hsub.aligned z hz
    · exact haligned z (List.mem_append_right _ (List.mem_cons_of_mem x hz))

/-- **`ip_frag` cuts a packet into fragments of it**, and a fragment into finer ones: each has a
header that adds up and none is longer than the `mtu`. If memory runs out, the last ones are
missing, and the caller is told so. In place of what was cut they make a cut of the packet again,
which is what the receiver needs. -/
theorem ipFrag_fragments {h : IpHdr} {data : List UInt8} {x : ℕ × ℕ}
    {p : List PbufPart} {mtu : UInt16} (rambuf : ℕ → Option UInt32) {pre post : List (ℕ × ℕ)}
    (hcut : FragCut data (pre ++ x :: post)) (hp : IsFragment h data x p) (hmtu : 28 ≤ mtu.toNat) :
    ∃ r sent rest, ipFrag mtu rambuf p = some r ∧ MtuCut mtu.toNat x.1 x.2 (sent ++ rest) ∧
      List.Forall₂ (IsSentFragment h data) sent r.sent ∧ (r.err = .ok ↔ rest = []) ∧
      (p.length ≤ mempNumFragPbuf → (∀ j, (rambuf j).isSome = true) → r.err = .ok) ∧
      FragCut data (pre ++ (sent ++ rest ++ post)) := by
  have hx : x ∈ pre ++ x :: post := List.mem_append_right pre List.mem_cons_self
  have hpos := hcut.pieces.pos x hx
  have hle := hcut.le_length hx
  have haligned := hcut.aligned x hx
  have hfits := hcut.fits
  have hfield := hp.fieldU16_offset
  obtain ⟨⟨chksum, htake⟩, hdrop, hlen⟩ := hp.header
  rw [length_slice hle] at hlen
  have hcons : ipHlen = 20 := rfl
  have hblock : (UInt16.ofNat (x.1 / 8)).toNat = x.1 / 8 :=
    UInt16.toNat_ofNat'.trans (Nat.mod_eq_of_lt (by omega))
  have hofo : lwipHtons (fieldU16 (payloadData p) 6) &&& 0x1fff = UInt16.ofNat (x.1 / 8) := by
    have hmask : (0x1fff : UInt16).toNat = 2 ^ 13 - 1 := rfl
    rw [hfield, fragField_and_offmask]
    refine UInt16.toNat_inj.1 ?_
    rw [UInt16.toNat_and, hmask, Nat.and_comm, Nat.and_two_pow_sub_one_eq_mod, hblock]
    omega
  have homf : lwipHtons (fieldU16 (payloadData p) 6) &&& 0x2000 =
      if x.2 < data.length then 0x2000 else 0 := by
    rw [hfield, fragField_and_mf]
    simp only [decide_eq_true_eq]
  have hleft : (totLen p - UInt16.ofNat ipHlen).toNat = x.2 - x.1 := by
    have htwenty : (UInt16.ofNat ipHlen).toNat = 20 := rfl
    have htot := @toNat_totLen p (by omega)
    rw [UInt16.toNat_sub_of_le _ _ (UInt16.le_iff_toNat_le.2 (by omega)), htot, htwenty]
    omega
  have hnfb : (UInt16.ofInt (((mtu.toNat : ℤ) - ipHlen).tdiv 8)).toNat = (mtu.toNat - 20) / 8 := by
    have hm := mtu.toNat_lt
    have hdiv : ((mtu.toNat : ℤ) - ipHlen).tdiv 8 = (((mtu.toNat - 20) / 8 : ℕ) : ℤ) := by
      rw [hcons, ← Nat.cast_sub (by omega)]
      rfl
    rw [hdiv, UInt16.ofInt, UInt16.toNat_ofNat']
    omega
  obtain ⟨r, hr, ⟨sent, rest, hmtucut, hsent, herr⟩, hok⟩ :=
    @ipFragLoop_spec h data x.2 mtu _ _ (payloadData p) rambuf ⟨_, _, chksum, htake⟩ hle hmtu
      hnfb homf 65536 0 x.1 ipHlen p (totLen p - UInt16.ofNat ipHlen) _ (by omega) hpos.le hleft
      fun _ ↦ ⟨haligned, hofo, by decide, hp.first, hdrop⟩
  exact ⟨r, sent, rest, hr, hmtucut, hsent, herr, hok, hcut.refine hmtucut⟩

/-- A packet of nine bytes for an `mtu` of 28. -/
theorem ipFrag_fragments_nine :
    ∃ r sent rest, ipFrag 28 (fun _ ↦ some 0) [⟨0, ipOutputIf nineHdr nineData, by decide⟩] =
      some r ∧
      MtuCut 28 0 9 (sent ++ rest) ∧ List.Forall₂ (IsSentFragment nineHdr nineData) sent r.sent ∧
      r.err = .ok ∧ rest = [] ∧ FragCut nineData (sent ++ rest) := by
  have hcut : FragCut nineData ([] ++ (0, 9) :: []) :=
    ⟨⟨.singleton _, by decide⟩, by decide, by decide, by decide, by decide⟩
  obtain ⟨r, sent, rest, hr, hmtu, hsent, herr, hok, hcut'⟩ :=
    @ipFrag_fragments nineHdr nineData (0, 9)
    [⟨0, ipOutputIf nineHdr nineData, by decide⟩] 28 (fun _ ↦ some 0) [] [] hcut
    (isFragment_of_ipOutputIf rfl (List.append_nil _) (by decide)) (by decide)
  have hall := hok (by decide) fun _ ↦ rfl
  rw [List.nil_append, List.append_nil] at hcut'
  exact ⟨r, sent, rest, hr, hmtu, hsent, hall, herr.1 hall, hcut'⟩

end YHAudioLink
