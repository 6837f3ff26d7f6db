import YHAudioLink.Lwip.IpFrag

/-!
# Fragments on their way

A packet that does not fit is cut by `ip_frag`, its fragments come out of `ip_input` on the other
side, and `ip_reass` puts them together (`fragments_delivered`). Three things meet here. What is
sent is a cut of the packet (`ipFrag_fragments` says so for every allocation). Each fragment has a
header that adds up, whence `ip_input` takes it (`ipInput_of_arrives`); it may have been padded on
the way, and lies in other `pbuf`s. And in the order they have been sent no fragment but the last
completes the packet (`not_completes_in_order`), whatever else comes in between, so that `ip_reass`
returns it once and whole (`delivered_in_order`).
-/

namespace YHAudioLink

open Pieces DataRefinement Runs OnesComplement

/-! ### One fragment -/

/-- What is received of a packet that is sent: its bytes, in a chain of its own, padded or not. -/
structure Arrives (q p : List PbufPart) : Prop where
  bytes : ∃ pad, chainData p = chainData q ++ pad
  fits : (chainData p).length < 65536
  first : 20 ≤ (payloadData p).length

theorem fragField_ne_zero {ofo : UInt16} {more : Bool}
    (h : ofo.toNat < 8192 ∧ ofo ≠ 0 ∨ more = true) :
    fragField ofo more &&& (0x1fff ||| 0x2000) ≠ 0 := by
  intro hzero
  have hand : ∀ m : UInt16, (0x1fff ||| 0x2000) &&& m = m → fragField ofo more &&& m = 0 := by
    intro m hm
    rw [← hm, ← UInt16.and_assoc, hzero, UInt16.zero_and]
  rcases h with ⟨hlt, hne⟩ | hmore
  · have hoff := hand 0x1fff (by decide)
    rw [fragField_and_offmask] at hoff
    refine hne (UInt16.toNat_inj.1 ?_)
    have hmask : (0x1fff : UInt16).toNat = 2 ^ 13 - 1 := rfl
    have hval := congrArg UInt16.toNat hoff
    rw [UInt16.toNat_and, hmask, Nat.and_comm, Nat.and_two_pow_sub_one_eq_mod] at hval
    have hz : (0 : UInt16).toNat = 0 := rfl
    omega
  · have hmf := hand 0x2000 (by decide)
    rw [fragField_and_mf, hmore] at hmf
    exact absurd hmf (by decide)

/-- **`ip_input` takes a fragment** for what it is, and cuts off what it is padded with. -/
theorem ipInput_of_arrives {h : IpHdr} {data : List UInt8} {cut : List (ℕ × ℕ)} {y : ℕ × ℕ}
    {q p : List PbufPart} {accepts : UInt32 → UInt32 → Bool} (hcut : FragCut data cut)
      (hy : y ∈ cut)
    (hpart : y.1 ≠ 0 ∨ y.2 < data.length) (hq : IsSentFragment h data y q) (hp : Arrives q p)
    (haccepts : accepts h.src h.dest = true) :
    ∃ p', ipInput accepts p = .fragment p' ∧ IsFragment h data y p' := by
  have hpos := hcut.pieces.pos y hy
  have hle := hcut.le_length hy
  have hfits := hcut.fits
  have haligned := hcut.aligned y hy
  obtain ⟨chksum, hbytes⟩ := hq.bytes
  obtain ⟨pad, hpad⟩ := hp.bytes
  obtain ⟨-, -, -, -, -, -, -, hhdr⟩ := setHdr_fields h (UInt16.ofNat (y.2 - y.1 + 20))
    (fragField (UInt16.ofNat (y.1 / 8)) (y.2 < data.length)) chksum []
  have hadds := hq.adds
  have hcons : ipHlen = 20 := rfl
  rw [hcons, payloadData_take hq.first, hbytes, List.take_append_of_le_length hhdr.ge,
    List.take_of_length_le hhdr.le] at hadds
  have hslice := @length_slice _ data y.1 y.2 hle
  have hlen : (UInt16.ofNat (y.2 - y.1 + 20)).toNat = 20 + (slice data y).length := by
    rw [UInt16.toNat_ofNat', hslice, Nat.mod_eq_of_lt (by omega), Nat.add_comm]
  rw [hbytes] at hpad
  obtain ⟨hinput, hchain, hfront⟩ := ipInput_of_setHdr hadds hlen hpad hp.fits hp.first haccepts
  have hne : fragField (UInt16.ofNat (y.1 / 8)) (y.2 < data.length) &&&
    (0x1fff ||| 0x2000) ≠ 0 := by
    refine fragField_ne_zero (hpart.imp (fun hstart ↦ ?_) fun hmore ↦ decide_eq_true hmore)
    have hval : (UInt16.ofNat (y.1 / 8)).toNat = y.1 / 8 :=
      UInt16.toNat_ofNat'.trans (Nat.mod_eq_of_lt (by omega))
    refine ⟨by omega, fun hzero ↦ ?_⟩
    have hz : (UInt16.ofNat (y.1 / 8)).toNat = 0 := congrArg UInt16.toNat hzero
    omega
  rw [if_neg hne] at hinput
  refine ⟨_, hinput, ⟨chksum, hchain⟩, ?_⟩
  rw [hfront, List.length_take]
  have hfirst := hp.first
  omega

theorem forall₂_concat {α β : Type*} {R : α → β → Prop} {l : List α} {l' : List β} {a : α} {b : β}
    (h : List.Forall₂ R (l ++ [a]) (l' ++ [b])) : List.Forall₂ R l l' ∧ R a b := by
  rw [← List.forall₂_reverse_iff, List.reverse_append, List.reverse_append] at h
  obtain ⟨hab, hl⟩ := List.forall₂_cons.1 h
  exact ⟨List.forall₂_reverse_iff.1 hl, hab⟩

section Delivery

variable {h : IpHdr} {data : List UInt8} {cut arrived rest : List (ℕ × ℕ)} {x : ℕ × ℕ}

/-- So do all of them. -/
theorem ipInput_of_sent {accepts : UInt32 → UInt32 → Bool} (hcut : FragCut data cut)
    (hpart : ∀ y ∈ cut, y.1 ≠ 0 ∨ y.2 < data.length) (haccepts : accepts h.src h.dest = true)
    {cut' : List (ℕ × ℕ)} (hsub : ∀ y ∈ cut', y ∈ cut) {sent received : List (List PbufPart)}
    (hsent : List.Forall₂ (IsSentFragment h data) cut' sent)
    (harr : List.Forall₂ Arrives sent received) :
    ∃ frags, received.map (ipInput accepts) = frags.map .fragment ∧
      List.Forall₂ (IsFragment h data) cut' frags := by
  induction hsent generalizing received with
  | nil =>
    obtain rfl := List.forall₂_nil_left_iff.1 harr
    exact ⟨[], rfl, .nil⟩
  | @cons y q cut' sent hq hsent ih =>
    obtain ⟨p, received', hp, harr', rfl⟩ := List.forall₂_cons_left_iff.1 harr
    obtain ⟨p', hinput, hfrag⟩ := ipInput_of_arrives hcut (hsub y List.mem_cons_self)
      (hpart y (hsub y List.mem_cons_self)) hq hp haccepts
    obtain ⟨frags, hmap, hfrags⟩ := ih (fun z hz ↦ hsub z (List.mem_cons_of_mem y hz)) harr'
    refine ⟨p' :: frags, ?_, .cons hfrag hfrags⟩
    rw [List.map_cons, List.map_cons, hinput, hmap]

/-! ### In the order they are sent -/

/-- **Only the last fragment completes the packet** when they come in order. -/
theorem not_completes_in_order (hcut : FragCut data cut) (hsplit : cut = arrived ++ x :: rest)
    (hne : rest ≠ []) : ¬ Completes cut arrived x := by
  rintro ⟨-, pre, hole, post, heq, hmem, -⟩
  have hnodup := hcut.pieces.nodup
  rw [hsplit] at hnodup
  have hx := List.mem_append.not.1 (List.nodup_middle.1 hnodup).notMem
  have hsame := hsplit.symm.trans heq
  obtain ⟨-, -, rfl⟩ := (List.append_cons_inj_of_notMem (fun hm ↦ hx (.inl hm))
    (fun hm ↦ hx (.inr hm))).1 hsame
  obtain ⟨z, hz⟩ := List.exists_mem_of_ne_nil _ hne
  have harr : z ∈ arrived := (hmem z).2 (List.mem_append_right pre hz)
  exact (List.nodup_append.1 hnodup).2.2 z harr z (List.mem_cons_of_mem x hz) rfl

/-- None of the first fragments is answered with a packet. -/
theorem none_of_in_order (hcut : FragCut data cut) (hlen : h.len.toNat = data.length + 20)
    {s₀ s : IpReass} {ps : List (List PbufPart)} {rs : List (Option (List PbufPart))}
    (hs₀ : s₀.Inv) (hfilled : s₀.Filled)
    (ht : Tracks h data cut arrived (datagram s₀.reassdatagrams h.key))
    (hrun : run roomyReass s₀ ps = some (rs, s)) (hfit : ∀ p ∈ ps, p.length < 256)
    (hfrag : ∀ p ∈ ps, reassKey (payloadData p) = h.key → ∃ x ∈ cut, IsFragment h data x p)
    (hsplit : cut = arrived ++ arrivedOf h.key ps ++ rest) (hne : rest ≠ []) :
    ∀ z ∈ ps.zip rs, reassKey (payloadData z.1) = h.key → z.2 = none := by
  induction ps generalizing s₀ arrived rs with
  | nil => exact fun z hz ↦ absurd hz List.not_mem_nil
  | cons p ps ih =>
    obtain ⟨⟨r, s₁⟩, hstep, hrest⟩ := Option.bind_eq_some_iff.1 hrun
    obtain ⟨⟨rs', s'⟩, hrun', heq⟩ := Option.bind_eq_some_iff.1 hrest
    obtain ⟨rfl, rfl⟩ := Prod.mk.inj (Option.some.inj heq)
    obtain ⟨hinv₁, hfilled₁⟩ := hs₀.roomyReass hfilled (hfit p List.mem_cons_self) hstep
    obtain ⟨hsome, hnext⟩ := ht.step hcut hlen hs₀ hstep (hfrag p List.mem_cons_self)
    rw [arrivedOf_cons, ← List.append_assoc] at hsplit
    have hnone : reassKey (payloadData p) = h.key → r = none := by
      intro hkey
      have harr : arrivedOf h.key [p] = [fragSpan p] := by simp [arrivedOf, hkey]
      rw [harr, List.append_assoc, List.append_assoc, List.singleton_append] at hsplit
      have hnot := not_completes_in_order hcut hsplit (List.append_ne_nil_of_right_ne_nil _ hne)
      exact Option.not_isSome_iff_eq_none.1 fun hr ↦ hnot ((hsome hkey).1 hr)
    intro z hz hkey
    rcases List.mem_cons.1 hz with rfl | hz
    · exact hnone hkey
    · exact ih hinv₁ hfilled₁ (hnext hnone) hrun' (fun q hq ↦ hfit q (List.mem_cons_of_mem _ hq))
        (fun q hq ↦ hfrag q (List.mem_cons_of_mem _ hq)) hsplit z hz hkey

theorem arrivedOf_of_fragments {k : UInt32 × UInt32 × UInt16} {ps : List (List PbufPart)}
    (hcut : FragCut data cut) (hsub : ∀ y ∈ rest, y ∈ cut)
    (hfrag : List.Forall₂ (IsFragment h data) rest
      (ps.filter fun p ↦ reassKey (payloadData p) = k)) : arrivedOf k ps = rest := by
  rw [arrivedOf]
  generalize ps.filter (fun p ↦ reassKey (payloadData p) = k) = frags at hfrag
  induction hfrag with
  | nil => rfl
  | @cons y p rest frags hp _ ih =>
    obtain ⟨-, -, hspan, -, -, -⟩ := hp.fields hcut (hsub y List.mem_cons_self)
    rw [List.map_cons, hspan, ih fun z hz ↦ hsub z (List.mem_cons_of_mem y hz)]

/-- **The fragments of a packet in order**: none but the last is answered with a packet, and the
last with all of it. -/
theorem delivered_in_order (hcut : FragCut data cut) (hlen : h.len.toNat = data.length + 20)
    {s₀ s : IpReass} (hs₀ : Reachable IpReass.init reassStep chainFits s₀)
    (hnew : datagram s₀.reassdatagrams h.key = none) {ps : List (List PbufPart)}
    {last : List PbufPart} (hfrags : List.Forall₂ (IsFragment h data) cut
      ((ps ++ [last]).filter fun p ↦ reassKey (payloadData p) = h.key))
    (hkey : reassKey (payloadData last) = h.key) (hfit : ∀ p ∈ ps, p.length < 256)
    {rs : List (Option (List PbufPart))} (hrun : run roomyReass s₀ ps = some (rs, s))
    (hroom : s.roomy last = true) :
    (∀ z ∈ ps.zip rs, reassKey (payloadData z.1) = h.key → z.2 = none) ∧
      ∃ res q, ipReass s last = some res ∧ res.r = some q ∧ chainData q = ipOutputIf h data := by
  rw [List.filter_append, List.filter_singleton, hkey, decide_eq_true rfl] at hfrags
  rw [cond_true] at hfrags
  rcases List.eq_nil_or_concat cut with rfl | ⟨cut, x, rfl⟩
  · exact absurd (List.forall₂_nil_left_iff.1 hfrags)
      (List.append_ne_nil_of_right_ne_nil _ (List.cons_ne_nil last []))
  · rw [List.concat_eq_append] at hfrags hcut
    obtain ⟨hbefore, hlast⟩ := forall₂_concat hfrags
    have hx : x ∈ cut ++ [x] := List.mem_append_right cut (List.mem_singleton_self x)
    have harrived := arrivedOf_of_fragments hcut (fun y hy ↦ List.mem_append_left [x] hy) hbefore
    have hfrag : ∀ p ∈ ps, reassKey (payloadData p) = h.key →
        ∃ y ∈ cut ++ [x], IsFragment h data y p := by
      intro p hp hkey
      have hmem : p ∈ ps.filter fun p ↦ reassKey (payloadData p) = h.key :=
        List.mem_filter.2 ⟨hp, decide_eq_true hkey⟩
      obtain ⟨i, hi, hget⟩ := List.getElem_of_mem hmem
      have hi' : i < cut.length := hbefore.length_eq ▸ hi
      refine ⟨cut[i], List.mem_append_left _ (List.getElem_mem hi'), ?_⟩
      rw [← hget]
      exact hbefore.get hi' hi
    obtain ⟨hinv₀, hfilled₀⟩ := reass_inv hs₀
    have ht₀ : Tracks h data (cut ++ [x]) [] (datagram s₀.reassdatagrams h.key) := by
      rw [hnew]
      exact rfl
    have hnone := none_of_in_order hcut hlen hinv₀ hfilled₀ ht₀ hrun hfit hfrag
      (by rw [harrived, List.nil_append]) (List.cons_ne_nil x [])
    refine ⟨hnone, ?_⟩
    obtain ⟨hinv, ht⟩ := tracks_run hcut hlen hinv₀ hfilled₀ ht₀ hrun hfit hfrag hnone
    rw [List.nil_append, harrived] at ht
    obtain ⟨res, hcall, -, -, hall⟩ := ht.delivers hinv hcut hlen hx hlast hroom
    have hnodup := hcut.pieces.nodup
    have hnarr : x ∉ cut := fun hmem ↦ (List.nodup_append.1 hnodup).2.2 x hmem x (by simp) rfl
    obtain ⟨q, hq, hdata⟩ := hall (fun y hy ↦ hy) hnarr
    exact ⟨res, q, hcall, hq, hdata⟩

/-- **A packet that is fragmented arrives as it was sent.** `ip_frag` cuts it for an `mtu` it does
not fit; each fragment is received in a chain of its own, and its addresses pass the tests of the
receiver. Then `ip_input` hands all of them to `ip_reass`. Let this be in any state that has nothing
of the packet yet, no freed element left in its list, and the fragments come in order, with packets
of other kinds between them and no call of `ip_reass_tmr`; there is to be room for each. Then no
fragment but the last is answered with a packet, and the last is answered with the one that
`ip_output_if` made. -/
theorem fragments_delivered {mtu : UInt16} {rambuf : ℕ → Option UInt32} {p : List PbufPart}
    {r : FragResult} (hlen : h.len.toNat = data.length + 20) (hp : chainData p = ipOutputIf h data)
    (hfirst : 20 ≤ (payloadData p).length) (hmtu : 28 ≤ mtu.toNat)
    (hlong : mtu.toNat < data.length + 20) (hr : ipFrag mtu rambuf p = some r) (hok : r.err = .ok)
    {received : List (List PbufPart)} (harr : List.Forall₂ Arrives r.sent received)
    {accepts : UInt32 → UInt32 → Bool} (haccepts : accepts h.src h.dest = true) :
    ∃ frags, received.map (ipInput accepts) = frags.map .fragment ∧
      ∀ s₀ : IpReass, Reachable IpReass.init reassStep chainFits s₀ →
      datagram s₀.reassdatagrams h.key = none →
      ∀ ps last, (ps ++ [last]).filter (fun p ↦ reassKey (payloadData p) = h.key) = frags →
      reassKey (payloadData last) = h.key → (∀ p ∈ ps, p.length < 256) →
      ∀ rs s, run roomyReass s₀ ps = some (rs, s) → s.roomy last = true →
      (∀ z ∈ ps.zip rs, reassKey (payloadData z.1) = h.key → z.2 = none) ∧
        ∃ res q, ipReass s last = some res ∧ res.r = some q ∧ chainData q = ipOutputIf h data := by
  have hlt := h.len.toNat_lt
  have hwhole : FragCut data ([] ++ (0, data.length) :: []) := by
    refine .of_cutFrom ⟨rfl, ?_, rfl⟩ (List.cons_ne_nil _ _) (fun y hy ↦ ?_) (by omega)
    · show 0 < data.length
      omega
    · exact List.mem_singleton.1 hy ▸ Nat.dvd_zero 8
  obtain ⟨r', sent, rest, hr', hmtucut, hsent, herr, -, hcut⟩ :=
    ipFrag_fragments rambuf hwhole (isFragment_of_ipOutputIf hlen hp hfirst) hmtu
  obtain rfl := Option.some.inj (hr.symm.trans hr')
  obtain rfl := herr.1 hok
  rw [List.append_nil] at hmtucut
  rw [List.nil_append, List.append_nil, List.append_nil] at hcut
  -- none of the fragments is all of the packet
  have hpart : ∀ y ∈ sent, y.1 ≠ 0 ∨ y.2 < data.length := by
    intro y hy
    have hfits := hmtucut.fits y hy
    have hle := hcut.le_length hy
    omega
  obtain ⟨frags, hinput, hfrags⟩ := ipInput_of_sent hcut hpart haccepts (fun y hy ↦ hy) hsent harr
  refine ⟨frags, hinput, fun s₀ hs₀ hnew ps last hfilter hkey hfit rs s hrun hroom ↦ ?_⟩
  subst hfilter
  exact delivered_in_order hcut hlen hs₀ hnew hfrags hkey hfit hrun hroom

end Delivery

/-- The packet of nine bytes in one `pbuf`. -/
def ninePacket : List PbufPart := [⟨0, ipOutputIf nineHdr nineData, by decide⟩]

theorem arrives_self {p : List PbufPart} (hfits : (chainData p).length < 65536)
    (hfirst : 20 ≤ (payloadData p).length) : Arrives p p :=
  ⟨⟨[], (List.append_nil _).symm⟩, hfits, hfirst⟩

/-- It is sent in two fragments. -/
theorem fragments_delivered_nine :
    ∃ c₁ c₂ s res q, ipFrag 28 (fun _ ↦ some 0) ninePacket = some ⟨[c₁, c₂], .ok⟩ ∧
      [c₁, c₂].map (ipInput fun _ _ ↦ true) = [c₁, c₂].map .fragment ∧
      run roomyReass ⟨[], mempNumReassdata, 0⟩ [c₁] = some ([none], s) ∧
      ipReass s c₂ = some res ∧ res.r = some q ∧ chainData q = ipOutputIf nineHdr nineData := by
  obtain ⟨c₁, c₂, s, hr, hinput, hrun, hroom, hkey₁, hkey₂, harr⟩ :
      ∃ c₁ c₂ s, ipFrag 28 (fun _ ↦ some 0) ninePacket = some ⟨[c₁, c₂], .ok⟩ ∧
        [c₁, c₂].map (ipInput fun _ _ ↦ true) = [c₁, c₂].map .fragment ∧
        run roomyReass ⟨[], mempNumReassdata, 0⟩ [c₁] = some ([none], s) ∧ s.roomy c₂ = true ∧
        reassKey (payloadData c₁) = nineHdr.key ∧ reassKey (payloadData c₂) = nineHdr.key ∧
        Arrives c₁ c₁ ∧ Arrives c₂ c₂ ∧ c₁.length < 256 :=
    ⟨_, _, _, rfl, rfl, rfl, by decide, by decide, by decide,
      arrives_self (by decide) (by decide), arrives_self (by decide) (by decide), by decide⟩
  obtain ⟨harr₁, harr₂, hfit⟩ := harr
  obtain ⟨frags, hfrags, hdelivers⟩ := @fragments_delivered nineHdr nineData 28 (fun _ ↦ some 0)
    ninePacket _ rfl (List.append_nil _) (by decide) (by decide) (by decide) hr rfl _
    (.cons harr₁ (.cons harr₂ .nil)) (fun _ _ ↦ true) rfl
  have hinj : Function.Injective IpInput.fragment := fun a b hab ↦ IpInput.fragment.inj hab
  obtain rfl := List.map_injective_iff.2 hinj (hfrags.symm.trans hinput)
  obtain ⟨-, res, q, hcall, hq, hdata⟩ := hdelivers ⟨[], mempNumReassdata, 0⟩
    (.init rfl) rfl [c₁] c₂
    (by simp [hkey₁, hkey₂]) hkey₂ (fun p hp ↦ List.mem_singleton.1 hp ▸ hfit) [none] s hrun hroom
  exact ⟨c₁, c₂, s, res, q, hr, hinput, hrun, hcall, hq, hdata⟩

end YHAudioLink
