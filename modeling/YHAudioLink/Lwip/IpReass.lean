import Mathlib.Data.UInt
import YHAudioLink.Lwip.Datagram

/-!
# Reassembling packets

`ip_reass` of `ip_frag.c`: fragments are kept per datagram, in order, until there is no gap left,
with a limit on the `pbuf`s and on the datagrams in the queue.

The fragments of a datagram are a list in the order of their offsets, each with its `pbuf`s. Putting
one in walks down the list (`chainFrag`), which checks for gaps on the way, but not everywhere: a
fragment that goes in between two others is compared with the one behind it and not with the one
before it. What this means for a packet is worked out in `Reassembly`. Here are the model and what a
fragment does to its own datagram, as far as order and the number of `pbuf`s go
(`IpReassdata.add_spec`).
-/

namespace YHAudioLink

/-! ### The data -/

/-- A fragment in the queue: `struct ip_reass_helper`, which takes the place of its header, and the
`pbuf`s. `stop` is `end`. -/
structure ReassFrag where
  start : UInt16
  stop : UInt16
  p : List PbufPart

/-- `struct ip_reassdata`; `lastfrag` is `IP_REASS_FLAG_LASTFRAG`. -/
structure IpReassdata where
  p : List ReassFrag
  iphdr : List UInt8
  datagramLen : UInt16
  lastfrag : Bool
  timer : UInt8

/-- `reassdatagrams`, the free elements of the pool `MEMP_REASSDATA`, and `ip_reass_pbufcount`. -/
structure IpReass where
  reassdatagrams : List IpReassdata
  free : ℕ
  pbufcount : UInt16

/-- `IP_REASS_MAXAGE`. -/
def ipReassMaxage : UInt8 := 3

/-- `IP_REASS_MAX_PBUFS`. -/
def ipReassMaxPbufs : ℕ := 10

/-- `MEMP_NUM_REASSDATA`. -/
def mempNumReassdata : ℕ := 5

/-- `IP_HLEN`. -/
def ipHlen : ℕ := 20

/-- What `IP_ADDRESSES_AND_ID_MATCH` compares. -/
def reassKey (iphdr : List UInt8) : UInt32 × UInt32 × UInt16 :=
  (fieldU32 iphdr 12, fieldU32 iphdr 16, fieldU16 iphdr 4)

/-- The offset of a fragment, in units of eight bytes. -/
def fragBlock (iphdr : List UInt8) : UInt16 := lwipHtons (fieldU16 iphdr 6) &&& 0x1fff

/-- The length of a fragment without its header. -/
def fragLen (iphdr : List UInt8) : UInt16 :=
  lwipHtons (fieldU16 iphdr 2) - (iphdr.getD 0 0 &&& 0x0f).toUInt16 * 4

/-- More fragments: `IP_MF`. -/
def fragMore (iphdr : List UInt8) : Bool := fieldU16 iphdr 6 &&& lwipHtons 0x2000 ≠ 0

/-- `pbuf_clen`. -/
def pbufClen (p : List PbufPart) : UInt8 := UInt8.ofNat p.length

/-! ### One datagram -/

/-- Where a fragment goes in a chain: the fragments before it and those behind it, and what `valid`
is after the loop. -/
structure FragPlace where
  before : List ReassFrag
  after : List ReassFrag
  valid : Bool

/-- The loop of `ip_reass_chain_frag_into_datagram_and_validate`, with `iprh_prev`; `none` is
`freepbuf`. -/
def chainFrag (new : ReassFrag) : Option ReassFrag → List ReassFrag → Option FragPlace
  | none, [] => some ⟨[], [], true⟩
  | some prev, [] => some ⟨[], [], prev.stop = new.start⟩
  | iprhPrev, q :: qs =>
    if new.start < q.start then
      match iprhPrev with
      | some prev =>
        if new.start < prev.stop ∨ new.stop > q.start then none else some ⟨[], q :: qs, true⟩
      | none => some ⟨[], q :: qs, true⟩
    else if new.start = q.start then none
    else if new.start < q.stop then none
    else
      let valid := match iprhPrev with
        | some prev => prev.stop = q.start
        | none => true
      (chainFrag new (some q) qs).map fun place ↦
        { place with before := q :: place.before, valid := valid && place.valid }

/-- The loop over the fragments behind the new one. -/
def chainEnds (prev : ReassFrag) : List ReassFrag → Bool
  | [] => true
  | q :: qs => if prev.stop ≠ q.start then false else chainEnds q qs

/-- What becomes of a fragment. -/
inductive FragFate
  /-- It is dropped, at `freepbuf`. -/
  | freed
  | queued
  /-- It is queued, and the datagram is complete. -/
  | complete
  deriving DecidableEq

/-- The last fragment tells how long the datagram is. -/
def IpReassdata.noteLast (ipr : IpReassdata) (fraghdr : List UInt8) : IpReassdata :=
  if fragMore fraghdr then ipr
  else { ipr with lastfrag := true, datagramLen := fragBlock fraghdr * 8 + fragLen fraghdr }

/-- The helper of a new fragment. -/
def newFrag (p : List PbufPart) : ReassFrag :=
  let fraghdr := payloadData p
  let offset := fragBlock fraghdr * 8
  ⟨offset, offset + fragLen fraghdr, p⟩

/-- The part of `ip_reass` for one datagram, from where it has been found up to and with
`ip_reass_chain_frag_into_datagram_and_validate`. -/
def IpReassdata.add (ipr : IpReassdata) (p : List PbufPart) : FragFate × IpReassdata :=
  let ipr := ipr.noteLast (payloadData p)
  let new := newFrag p
  match chainFrag new none ipr.p with
  | none => (.freed, ipr)
  | some place =>
    let chain := place.before ++ new :: place.after
    let ipr := { ipr with p := chain }
    let valid := ipr.lastfrag && place.valid && (chain.map ReassFrag.start).headD 0 = 0 &&
      chainEnds new place.after
    (if valid then .complete else .queued, ipr)

/-- The header of the first fragment that is queued, or that of the fragment at offset 0 from when
it comes. -/
def IpReassdata.updateHdr (ipr : IpReassdata) (fraghdr : List UInt8) : IpReassdata :=
  if fragBlock fraghdr = 0 ∧ fragBlock ipr.iphdr ≠ 0 then { ipr with iphdr := fraghdr.take ipHlen }
  else ipr

/-- A complete datagram as one packet: the header put back in front of the first fragment and hidden
in the others. -/
def IpReassdata.packet (ipr : IpReassdata) : List PbufPart :=
  let datagramLen := ipr.datagramLen + UInt16.ofNat ipHlen
  match ipr.p with
  | [] => []
  | f :: rest =>
    let chksum := inetChksum ((f.p.map PbufPart.payload).headD 0) (setHdr ipr.iphdr datagramLen 0 0)
    writeFront (setHdr ipr.iphdr datagramLen 0 chksum) f.p ++
      rest.flatMap fun r ↦ (pbufHide ipHlen r.p).getD r.p

/-! ### The queue -/

/-- `ip_reass_free_complete_datagram`, without the list: what `pbufs_freed` is, and the packet that
`icmp_time_exceeded` is called for. -/
def IpReassdata.freeComplete (ipr : IpReassdata) : UInt16 × List (List PbufPart) :=
  let pbufsFreed := (ipr.p.map fun f ↦ (pbufClen f.p).toUInt16).sum
  match ipr.p with
  | f :: _ => (pbufsFreed, if f.start = 0 then [writeFront (ipr.iphdr.take ipHlen) f.p] else [])
  | [] => (pbufsFreed, [])

/-- `ip_reass_dequeue_datagram`, for the element at an index and the one that is passed for its
predecessor. `none` is where that one is another, so that what is freed stays in the list. -/
def dequeueDatagram (l : List IpReassdata) (ipr : ℕ) (prev : Option ℕ) :
    Option (List IpReassdata) :=
  if ipr < l.length ∧ (ipr = 0 ∨ prev.map Nat.succ = some ipr) then some (l.eraseIdx ipr) else none

/-- What the loop over the list in `ip_reass_remove_oldest_datagram` finds. -/
structure OldestScan where
  oldest : Option (ℕ × IpReassdata)
  prev : Option ℕ
  otherDatagrams : ℕ

/-- A datagram the fragment does not belong to, at an index. -/
def OldestScan.other (scan : OldestScan) (i : ℕ) (r : IpReassdata) : OldestScan :=
  { scan with
    otherDatagrams := scan.otherDatagrams + 1
    oldest := match scan.oldest with
      | none => some (i, r)
      | some oldest => if r.timer ≤ oldest.2.timer then some (i, r) else some oldest }

/-- The loop over the list in `ip_reass_remove_oldest_datagram`, at an index. -/
def scanOldest (fraghdr : List UInt8) : ℕ → OldestScan → List IpReassdata → OldestScan
  | _, scan, [] => scan
  | i, scan, r :: rs =>
    let scan := if reassKey r.iphdr ≠ reassKey fraghdr then scan.other i r else scan
    let scan := if rs ≠ [] then { scan with prev := some i } else scan
    scanOldest fraghdr (i + 1) scan rs

theorem length_dequeueDatagram {l l' : List IpReassdata} {ipr : ℕ} {prev : Option ℕ}
    (h : dequeueDatagram l ipr prev = some l') : l'.length + 1 = l.length := by
  rw [dequeueDatagram] at h
  split at h
  · next hlt =>
    obtain rfl := Option.some.inj h
    rw [List.length_eraseIdx_of_lt hlt.1]
    omega
  · cases h

/-- `ip_reass_remove_oldest_datagram`: what it returns, and the packets that `icmp_time_exceeded` is
called for. `none` is where it frees an element that stays in the list. -/
def removeOldest (fraghdr : List UInt8) (pbufsNeeded : ℕ) (s : IpReass) :
    Option (ℕ × List (List PbufPart) × IpReass) :=
  let scan := scanOldest fraghdr 0 ⟨none, none, 0⟩ s.reassdatagrams
  match scan.oldest with
  | none => some (0, [], s)
  | some (i, oldest) =>
    match _h : dequeueDatagram s.reassdatagrams i scan.prev with
    | none => none
    | some rest =>
      let (pbufsFreed, exceeded) := oldest.freeComplete
      let s' : IpReass := ⟨rest, s.free + 1, s.pbufcount - pbufsFreed⟩
      if pbufsFreed.toNat < pbufsNeeded ∧ scan.otherDatagrams > 1 then
        (removeOldest fraghdr (pbufsNeeded - pbufsFreed.toNat) s').map fun r ↦
          (pbufsFreed.toNat + r.1, exceeded ++ r.2.1, r.2.2)
      else some (pbufsFreed.toNat, exceeded, s')
termination_by s.reassdatagrams.length
decreasing_by
  have := length_dequeueDatagram _h
  omega

/-- What a call of `ip_reass` returns, the packets that `icmp_time_exceeded` is called for, and the
queue. -/
structure ReassResult where
  r : Option (List PbufPart)
  exceeded : List (List PbufPart)
  s : IpReass

/-- `ip_reass` for a datagram in the queue. -/
def IpReass.addTo (s : IpReass) (i : ℕ) (ipr : IpReassdata) (p : List PbufPart)
    (exceeded : List (List PbufPart)) : ReassResult :=
  let pbufcount := s.pbufcount + (pbufClen p).toUInt16
  match ipr.add p with
  | (.freed, ipr) =>
    ⟨none, exceeded, ⟨s.reassdatagrams.set i ipr, s.free, pbufcount - (pbufClen p).toUInt16⟩⟩
  | (.queued, ipr) => ⟨none, exceeded, ⟨s.reassdatagrams.set i ipr, s.free, pbufcount⟩⟩
  | (.complete, ipr) =>
    ⟨some ipr.packet, exceeded,
      ⟨s.reassdatagrams.eraseIdx i, s.free + 1, pbufcount - (pbufClen ipr.packet).toUInt16⟩⟩

/-- What `ip_reass_enqueue_new_datagram` puts in front of the list. -/
def newDatagram (fraghdr : List UInt8) : IpReassdata :=
  ⟨[], fraghdr.take ipHlen, 0, false, ipReassMaxage⟩

/-- `ip_reass` from where there is room for the fragment. -/
def IpReass.enqueue (s : IpReass) (p : List PbufPart) (exceeded : List (List PbufPart)) :
    Option ReassResult :=
  let fraghdr := payloadData p
  match s.reassdatagrams.findIdx? fun r ↦ reassKey r.iphdr = reassKey fraghdr with
  | some i => (s.reassdatagrams[i]?).map fun ipr ↦ s.addTo i (ipr.updateHdr fraghdr) p exceeded
  | none =>
    let new := newDatagram fraghdr
    if s.free ≠ 0 then
      some (IpReass.addTo ⟨new :: s.reassdatagrams, s.free - 1, s.pbufcount⟩ 0 new p exceeded)
    else
      -- `ip_reass_enqueue_new_datagram` makes room for one more
      match removeOldest fraghdr (pbufClen p).toNat s with
      | none => none
      | some (freed, exceeded', s) =>
        if freed ≥ (pbufClen p).toNat ∧ s.free ≠ 0 then
          some (IpReass.addTo ⟨new :: s.reassdatagrams, s.free - 1, s.pbufcount⟩ 0 new p
            (exceeded ++ exceeded'))
        else some ⟨none, exceeded ++ exceeded', s⟩

/-- `ip_reass`; `none` is where it frees an element of the list that stays in the list. -/
def ipReass (s : IpReass) (p : List PbufPart) : Option ReassResult :=
  let fraghdr := payloadData p
  let clen := (pbufClen p).toNat
  if (fraghdr.getD 0 0 &&& 0x0f).toNat * 4 ≠ ipHlen then some ⟨none, [], s⟩
  else if s.pbufcount.toNat + clen > ipReassMaxPbufs then
    match removeOldest fraghdr clen s with
    | none => none
    | some (freed, exceeded, s) =>
      if freed = 0 ∨ s.pbufcount.toNat + clen > ipReassMaxPbufs then some ⟨none, exceeded, s⟩
      else s.enqueue p exceeded
  else s.enqueue p []

/-- The loop of `ip_reass_tmr`: the datagrams that stay, those that go, and the packets that
`icmp_time_exceeded` is called for. -/
def reassTmr : List IpReassdata → List IpReassdata × List IpReassdata
  | [] => ([], [])
  | r :: rs =>
    let (kept, expired) := reassTmr rs
    if r.timer > 0 then ({ r with timer := r.timer - 1 } :: kept, expired)
    else (kept, r :: expired)

/-- `ip_reass_tmr`. -/
def ipReassTmr (s : IpReass) : IpReass × List (List PbufPart) :=
  let (kept, expired) := reassTmr s.reassdatagrams
  let pbufsFreed := (expired.map fun r ↦ r.freeComplete.1).sum
  (⟨kept, s.free + expired.length, s.pbufcount - pbufsFreed⟩,
    expired.flatMap fun r ↦ r.freeComplete.2)

/-! ### One datagram in order -/

/-- The place of a fragment divides the chain. -/
theorem chainFrag_split {new : ReassFrag} {prev : Option ReassFrag} {l : List ReassFrag}
    {place : FragPlace} (h : chainFrag new prev l = some place) :
    l = place.before ++ place.after ∧ (∀ a ∈ place.before, a.start < new.start) ∧
      ∀ a ∈ place.after.head?, new.start < a.start := by
  fun_induction chainFrag new prev l generalizing place with
  | case1 =>
    obtain rfl := Option.some.inj h
    exact ⟨rfl, nofun, nofun⟩
  | case2 =>
    obtain rfl := Option.some.inj h
    exact ⟨rfl, nofun, nofun⟩
  | case3 => cases h
  | case4 q qs hlt =>
    obtain rfl := Option.some.inj h
    exact ⟨rfl, nofun, fun a ha ↦ Option.some.inj ha ▸ hlt⟩
  | case5 q qs hlt =>
    obtain rfl := Option.some.inj h
    exact ⟨rfl, nofun, fun a ha ↦ Option.some.inj ha ▸ hlt⟩
  | case6 => cases h
  | case7 => cases h
  | case8 _ q qs hlt hne =>
    rename_i ih
    obtain ⟨place', hplace', rfl⟩ := Option.map_eq_some_iff.1 h
    obtain ⟨hsplit, hbefore, hafter⟩ := ih hplace'
    refine ⟨congrArg (q :: ·) hsplit, ?_, hafter⟩
    rintro a ha
    rcases List.mem_cons.1 ha with rfl | ha
    · exact UInt16.lt_of_le_of_ne (UInt16.not_lt.1 hlt) (Ne.symm hne)
    · exact hbefore a ha

/-- The fragments of a chain start one after the other. -/
def Ascending (l : List ReassFrag) : Prop := l.Pairwise fun a b ↦ a.start < b.start

theorem Ascending.insert {new : ReassFrag} {l : List ReassFrag} {place : FragPlace}
    (hl : Ascending l) (h : chainFrag new none l = some place) :
    Ascending (place.before ++ new :: place.after) := by
  obtain ⟨rfl, hbefore, hafter⟩ := chainFrag_split h
  obtain ⟨hb, ha, hba⟩ := List.pairwise_append.1 hl
  have hnew : ∀ a ∈ place.after, new.start < a.start := by
    intro a hmem
    cases hcons : place.after with
    | nil => exact absurd (hcons ▸ hmem) List.not_mem_nil
    | cons b bs =>
      have hb' : new.start < b.start := hafter b (by rw [hcons]; rfl)
      rw [hcons] at hmem ha
      rcases List.mem_cons.1 hmem with rfl | hmem
      · exact hb'
      · exact UInt16.lt_trans hb' (List.rel_of_pairwise_cons ha hmem)
  refine List.pairwise_append.2 ⟨hb, .cons hnew ha, fun a ha' b hb' ↦ ?_⟩
  rcases List.mem_cons.1 hb' with rfl | hb'
  · exact hbefore a ha'
  · exact hba a ha' b hb'

/-- The `pbuf`s of a datagram. -/
def IpReassdata.pbufs (r : IpReassdata) : ℕ := (r.p.map fun f ↦ f.p.length).sum

/-- A datagram as it is while it is in the queue, its chain aside. -/
structure IpReassdata.Good (r : IpReassdata) : Prop where
  ascending : Ascending r.p
  timer : r.timer ≤ ipReassMaxage
  clen : ∀ f ∈ r.p, f.p.length < 256

theorem IpReassdata.noteLast_fields (ipr : IpReassdata) (fraghdr : List UInt8) :
    (ipr.noteLast fraghdr).p = ipr.p ∧ (ipr.noteLast fraghdr).iphdr = ipr.iphdr ∧
      (ipr.noteLast fraghdr).timer = ipr.timer := by
  rw [IpReassdata.noteLast]
  split <;> exact ⟨rfl, rfl, rfl⟩

/-- **What `add` does to a datagram**, as far as its `pbuf`s go. -/
theorem IpReassdata.add_spec {ipr : IpReassdata} (hgood : ipr.Good) {p : List PbufPart}
    (hp : p.length < 256) :
    (ipr.add p).2.Good ∧ (ipr.add p).2.iphdr = ipr.iphdr ∧ (ipr.add p).2.timer = ipr.timer ∧
      (((ipr.add p).1 = .freed ∧ ipr.p ≠ [] ∧ (ipr.add p).2.p = ipr.p) ∨
        ((ipr.add p).1 ≠ .freed ∧ (ipr.add p).2.p ≠ [] ∧
          (ipr.add p).2.pbufs = ipr.pbufs + p.length)) := by
  obtain ⟨hp', hhdr', htimer'⟩ := ipr.noteLast_fields (payloadData p)
  obtain ⟨ipr', hipr'⟩ : ∃ ipr', ipr.noteLast (payloadData p) = ipr' := ⟨_, rfl⟩
  obtain ⟨new, hnew⟩ : ∃ new, newFrag p = new := ⟨_, rfl⟩
  have hnewp : new.p = p := hnew ▸ rfl
  rw [hipr'] at hp' hhdr' htimer'
  rw [IpReassdata.add]
  simp only [hipr', hnew]
  rcases hplace : chainFrag new none ipr'.p with - | place
  · refine ⟨⟨?_, ?_, ?_⟩, hhdr', htimer', .inl ⟨rfl, ?_, hp'⟩⟩
    · exact hp' ▸ hgood.ascending
    · exact htimer' ▸ hgood.timer
    · exact hp' ▸ hgood.clen
    · rintro hnil
      rw [hp', hnil] at hplace
      cases hplace
  · obtain ⟨hsplit, -, -⟩ := chainFrag_split hplace
    have hasc : Ascending (place.before ++ new :: place.after) :=
      Ascending.insert (hp' ▸ hgood.ascending) hplace
    have hmem : ∀ f ∈ place.before ++ new :: place.after, f = new ∨ f ∈ ipr.p := by
      intro f hf
      rw [← hp', hsplit]
      rcases List.mem_append.1 hf with hf | hf
      · exact .inr (List.mem_append_left _ hf)
      · exact (List.mem_cons.1 hf).imp_right (List.mem_append_right _)
    refine ⟨⟨hasc, htimer' ▸ hgood.timer, fun f hf ↦ ?_⟩, hhdr', htimer', .inr ⟨?_, ?_, ?_⟩⟩
    · rcases hmem f hf with rfl | hf
      · rw [hnewp]
        exact hp
      · exact hgood.clen f hf
    · dsimp only
      split <;> nofun
    · exact List.append_ne_nil_of_right_ne_nil _ (List.cons_ne_nil _ _)
    · rw [IpReassdata.pbufs, IpReassdata.pbufs, ← hp', hsplit]
      simp only [List.map_append, List.map_cons, List.sum_append, List.sum_cons, hnewp]
      omega

theorem length_writeFront (hdr : List UInt8) (p : List PbufPart) :
    (writeFront hdr p).length = p.length := by
  cases p with
  | nil => rfl
  | cons q p =>
    rw [writeFront]
    split <;> rfl

theorem length_pbufHide (n : ℕ) (p : List PbufPart) :
    ((pbufHide n p).getD p).length = p.length := by
  cases p with
  | nil => rfl
  | cons q p =>
    rw [pbufHide]
    split <;> rfl

/-- The packet has the `pbuf`s of its fragments. -/
theorem IpReassdata.length_packet (ipr : IpReassdata) : ipr.packet.length = ipr.pbufs := by
  rw [IpReassdata.packet, IpReassdata.pbufs]
  cases ipr.p with
  | nil => rfl
  | cons f rest =>
    simp only [List.length_append, length_writeFront, List.length_flatMap, length_pbufHide,
      List.map_cons, List.sum_cons]

theorem toNat_pbufClen {p : List PbufPart} (h : p.length < 256) :
    (pbufClen p).toUInt16.toNat = p.length := by
  rw [UInt8.toNat_toUInt16]
  exact (UInt8.toNat_ofNat').trans (Nat.mod_eq_of_lt h)

theorem toNat_sum_uint16 {l : List UInt16} (h : (l.map UInt16.toNat).sum < 65536) :
    l.sum.toNat = (l.map UInt16.toNat).sum := by
  induction l with
  | nil => rfl
  | cons n l ih =>
    rw [List.map_cons, List.sum_cons] at h
    rw [List.sum_cons, UInt16.toNat_add, ih (by omega), List.map_cons, List.sum_cons]
    exact Nat.mod_eq_of_lt h

/-- `pbufs_freed` is what the datagram has. -/
theorem IpReassdata.toNat_freeComplete {r : IpReassdata} (hgood : r.Good) (h : r.pbufs < 65536) :
    r.freeComplete.1.toNat = r.pbufs := by
  have hfst : r.freeComplete.1 = (r.p.map fun f ↦ (pbufClen f.p).toUInt16).sum := by
    rw [IpReassdata.freeComplete]
    split <;> rfl
  have hmap : (r.p.map fun f ↦ (pbufClen f.p).toUInt16).map UInt16.toNat =
      r.p.map fun f ↦ f.p.length := by
    rw [List.map_map]
    exact List.map_congr_left fun f hf ↦ toNat_pbufClen (hgood.clen f hf)
  rw [hfst, toNat_sum_uint16 (by rw [hmap]; exact h), hmap]
  rfl

end YHAudioLink
