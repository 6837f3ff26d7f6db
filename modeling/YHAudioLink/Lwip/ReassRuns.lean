import YHAudioLink.Foundation.DataRefinement
import YHAudioLink.Lwip.Reassembly

/-!
# Packets put together again

The fragments of a packet come in in any order, some of them more than once, and between them come
those of other packets. As long as there is room, and `ip_reass_tmr` is not called between them,
nothing of this matters to what `ip_reass` makes of them (`ipReass_delivers`).
-/

namespace YHAudioLink

open Pieces DataRefinement Runs

/-! ### The datagrams of other packets -/

/-- The datagram with a key. -/
def datagram (l : List IpReassdata) (k : UInt32 × UInt32 × UInt16) : Option IpReassdata :=
  l.find? fun r ↦ reassKey r.iphdr = k

section Lookup

variable {l₁ l₂ : List IpReassdata} {r : IpReassdata} {k : UInt32 × UInt32 × UInt16}

theorem datagram_middle_of_ne (h : reassKey r.iphdr ≠ k) :
    datagram (l₁ ++ r :: l₂) k = datagram (l₁ ++ l₂) k := by
  simp [datagram, h]

theorem datagram_middle (h : reassKey r.iphdr = k) (h₁ : ∀ r' ∈ l₁, reassKey r'.iphdr ≠ k) :
    datagram (l₁ ++ r :: l₂) k = some r := by
  have hnone : l₁.find? (fun r' ↦ reassKey r'.iphdr = k) = none :=
    List.find?_eq_none.2 fun r' hr' ↦ by simpa using h₁ r' hr'
  simp [datagram, hnone, h]

theorem datagram_eq_none : datagram l₁ k = none ↔ ∀ r ∈ l₁, reassKey r.iphdr ≠ k := by
  simp [datagram]

/-- The others have other keys. -/
theorem key_ne_of_nodup (h : ((l₁ ++ r :: l₂).map fun r ↦ reassKey r.iphdr).Nodup) :
    ∀ r' ∈ l₁ ++ l₂, reassKey r'.iphdr ≠ reassKey r.iphdr := by
  rw [List.map_append, List.map_cons] at h
  obtain ⟨-, h₂, hdisjoint⟩ := List.nodup_append.1 h
  intro r' hr'
  rcases List.mem_append.1 hr' with hr' | hr'
  · exact hdisjoint _ (List.mem_map_of_mem hr') _ List.mem_cons_self
  · exact fun heq ↦ (List.nodup_cons.1 h₂).1 (heq ▸ List.mem_map_of_mem hr')

end Lookup

/-! ### A fragment where there is room -/

/-- There is room for a packet: for its `pbuf`s, and for its datagram if it is a new one. -/
def IpReass.roomy (s : IpReass) (p : List PbufPart) : Bool :=
  s.pbufcount.toNat + (pbufClen p).toNat ≤ ipReassMaxPbufs ∧
    (s.free ≠ 0 ∨ ∃ r ∈ s.reassdatagrams, reassKey r.iphdr = reassKey (payloadData p))

/-- The datagram a fragment is put into. -/
def datagramFor (o : Option IpReassdata) (p : List PbufPart) : IpReassdata :=
  match o with
  | some ipr => ipr.updateHdr (payloadData p)
  | none => newDatagram (payloadData p)

/-- What a fragment does to a datagram by itself. -/
def addAlone (o : Option IpReassdata) (p : List PbufPart) :
    Option (List PbufPart) × Option IpReassdata :=
  match (datagramFor o p).add p with
  | (.complete, ipr) => (some ipr.packet, none)
  | (_, ipr) => (none, some ipr)

theorem reassKey_datagramFor {o : Option IpReassdata} {p : List PbufPart}
    (h : ∀ ipr ∈ o, reassKey ipr.iphdr = reassKey (payloadData p)) :
    reassKey (datagramFor o p).iphdr = reassKey (payloadData p) := by
  cases o with
  | none => exact reassKey_take _
  | some ipr =>
    rw [datagramFor, IpReassdata.updateHdr]
    split
    · exact reassKey_take _
    · exact h ipr rfl

section Room

variable {s : IpReass} {p : List PbufPart}

theorem IpReassdata.iphdr_add (ipr : IpReassdata) (p : List PbufPart) :
    (ipr.add p).2.iphdr = ipr.iphdr := by
  have hhdr := (ipr.noteLast_fields (payloadData p)).2.1
  rw [IpReassdata.add]
  dsimp only
  split
  · exact hhdr
  · exact hhdr

/-- A datagram in the queue, and those around it. -/
theorem addTo_datagram {l₁ l₂ : List IpReassdata} {ipr₀ : IpReassdata} {o : Option IpReassdata}
    (hl : s.reassdatagrams = l₁ ++ ipr₀ :: l₂)
    (hkeys : (s.reassdatagrams.map fun r ↦ reassKey r.iphdr).Nodup)
    (hkey₀ : reassKey ipr₀.iphdr = reassKey (payloadData p))
    (hkey : reassKey (datagramFor o p).iphdr = reassKey (payloadData p))
    (exceeded : List (List PbufPart)) :
    let r := s.addTo l₁.length (datagramFor o p) p exceeded
    (r.r, datagram r.s.reassdatagrams (reassKey (payloadData p))) = addAlone o p ∧
      ∀ k, k ≠ reassKey (payloadData p) →
        datagram r.s.reassdatagrams k = datagram s.reassdatagrams k := by
  have hothers : ∀ r ∈ l₁ ++ l₂, reassKey r.iphdr ≠ reassKey (payloadData p) :=
    hkey₀ ▸ key_ne_of_nodup (hl ▸ hkeys)
  have hset : ∀ ipr', s.reassdatagrams.set l₁.length ipr' = l₁ ++ ipr' :: l₂ := fun ipr' ↦ by
    simp [hl]
  have herase : s.reassdatagrams.eraseIdx l₁.length = l₁ ++ l₂ := by
    rw [hl, List.eraseIdx_append_of_length_le le_rfl, Nat.sub_self, List.eraseIdx_cons_zero]
  have hkey' := (congrArg reassKey ((datagramFor o p).iphdr_add p)).trans hkey
  have hmine : ∀ ipr' : IpReassdata, reassKey ipr'.iphdr = reassKey (payloadData p) →
      datagram (l₁ ++ ipr' :: l₂) (reassKey (payloadData p)) = some ipr' :=
    fun ipr' h ↦ datagram_middle h fun r hr ↦ hothers r (List.mem_append_left _ hr)
  have hrest : ∀ ipr' : IpReassdata, reassKey ipr'.iphdr = reassKey (payloadData p) →
      ∀ k, k ≠ reassKey (payloadData p) →
        datagram (l₁ ++ ipr' :: l₂) k = datagram (l₁ ++ l₂) k :=
    fun ipr' h k hk ↦ datagram_middle_of_ne (h ▸ hk.symm)
  rw [IpReass.addTo, addAlone, hl]
  rcases hadd : (datagramFor o p).add p with ⟨fate, ipr'⟩
  rw [hadd] at hkey'
  cases fate with
  | freed =>
    refine ⟨Prod.ext rfl ?_, fun k hk ↦ ?_⟩ <;> dsimp only <;> rw [← hl, hset]
    · exact hmine ipr' hkey'
    · rw [hl, hrest _ hkey' k hk, hrest _ hkey₀ k hk]
  | queued =>
    refine ⟨Prod.ext rfl ?_, fun k hk ↦ ?_⟩ <;> dsimp only <;> rw [← hl, hset]
    · exact hmine ipr' hkey'
    · rw [hl, hrest _ hkey' k hk, hrest _ hkey₀ k hk]
  | complete =>
    refine ⟨Prod.ext rfl ?_, fun k hk ↦ ?_⟩ <;> dsimp only <;> rw [← hl, herase]
    · exact datagram_eq_none.2 hothers
    · rw [hl, hrest _ hkey₀ k hk]

/-- **A fragment where there is room** does what it does to its datagram by itself, and nothing to
the others. -/
theorem ipReass_of_roomy (hs : s.Inv) (hroom : s.roomy p = true)
    (hhdr : ((payloadData p).getD 0 0 &&& 0x0f).toNat * 4 = ipHlen) :
    ∃ r, ipReass s p = some r ∧
      (r.r, datagram r.s.reassdatagrams (reassKey (payloadData p))) =
        addAlone (datagram s.reassdatagrams (reassKey (payloadData p))) p ∧
      ∀ k, k ≠ reassKey (payloadData p) →
        datagram r.s.reassdatagrams k = datagram s.reassdatagrams k := by
  obtain ⟨hcount, hspace⟩ := of_decide_eq_true hroom
  have hcall : ipReass s p = s.enqueue p [] := by
    rw [ipReass, if_neg (not_not_intro hhdr), if_neg (Nat.not_lt.2 hcount)]
  rw [hcall, IpReass.enqueue]
  rcases hfind : s.reassdatagrams.findIdx? (fun r ↦ reassKey r.iphdr = reassKey (payloadData p))
    with - | i
  · have hkeys : ∀ d ∈ s.reassdatagrams, reassKey d.iphdr ≠ reassKey (payloadData p) := by
      simpa using hfind
    have hfree : s.free ≠ 0 := hspace.resolve_right fun hold ↦ by
      obtain ⟨r, hr, hkey⟩ := hold
      exact hkeys r hr hkey
    have hnone := datagram_eq_none.2 hkeys
    simp only [hfind]
    rw [if_pos hfree, hnone]
    have hnew := hs.enqueueNew hfree hkeys
    obtain ⟨hmine, hothers⟩ := @addTo_datagram
      ⟨newDatagram (payloadData p) :: s.reassdatagrams, s.free - 1, s.pbufcount⟩ p []
      s.reassdatagrams (newDatagram (payloadData p)) none rfl hnew.keys (reassKey_take _)
      (reassKey_take _) []
    refine ⟨_, rfl, hmine, fun k hk ↦ (hothers k hk).trans ?_⟩
    refine @datagram_middle_of_ne [] s.reassdatagrams (newDatagram (payloadData p)) k fun heq ↦ ?_
    exact hk (heq.symm.trans (reassKey_take _))
  · obtain ⟨hlt, hmatch, -⟩ := List.findIdx?_eq_some_iff_getElem.1 hfind
    have hkey : reassKey (s.reassdatagrams[i]).iphdr = reassKey (payloadData p) :=
      of_decide_eq_true hmatch
    have hl := eq_take_cons_drop (List.getElem?_eq_getElem hlt)
    have hothers : ∀ r ∈ s.reassdatagrams.take i ++ s.reassdatagrams.drop (i + 1),
        reassKey r.iphdr ≠ reassKey (payloadData p) := hkey ▸ key_ne_of_nodup (hl ▸ hs.keys)
    have hmine : datagram s.reassdatagrams (reassKey (payloadData p)) =
      some s.reassdatagrams[i] := by
      conv_lhs => rw [hl]
      exact datagram_middle hkey fun r hr ↦ hothers r (List.mem_append_left _ hr)
    have hlen : (s.reassdatagrams.take i).length = i := List.length_take_of_le hlt.le
    have hadd := @addTo_datagram s p _ _ _ (some s.reassdatagrams[i]) hl hs.keys hkey
      (reassKey_datagramFor fun ipr hipr ↦ Option.some.inj hipr ▸ hkey) []
    rw [hlen] at hadd
    rw [hmine]
    refine ⟨_, ?_, hadd.1, hadd.2⟩
    simp only [hfind]
    rw [List.getElem?_eq_getElem hlt]
    rfl

end Room

/-! ### The run -/

/-- `ip_reass` where there is room: what it returns, and the queue. -/
def roomyReass (s : IpReass) (p : List PbufPart) : Option (Option (List PbufPart) × IpReass) :=
  if s.roomy p then (ipReass s p).map fun r ↦ (r.r, r.s) else none

/-- The fragments of a packet that have come in. -/
def arrivedOf (k : UInt32 × UInt32 × UInt16) (ps : List (List PbufPart)) : List (ℕ × ℕ) :=
  (ps.filter fun p ↦ reassKey (payloadData p) = k).map fragSpan

/-- What is in the queue of a packet. -/
def Tracks (h : IpHdr) (data : List UInt8) (cut arrived : List (ℕ × ℕ)) :
    Option IpReassdata → Prop
  | none => arrived = []
  | some ipr => ipr.Collects h data cut arrived ∧ reassKey ipr.iphdr = h.key

section Run

variable {h : IpHdr} {data : List UInt8} {cut arrived : List (ℕ × ℕ)} {x : ℕ × ℕ}
  {p : List PbufPart} {o : Option IpReassdata}

/-- The datagram a fragment is put into has what has arrived. -/
theorem Tracks.datagramFor (ht : Tracks h data cut arrived o) (hcut : FragCut data cut)
    (hx : x ∈ cut)
    (hp : IsFragment h data x p) : (datagramFor o p).Collects h data cut arrived := by
  obtain ⟨-, -, -, -, hhdr, -⟩ := hp.fields hcut hx
  cases o with
  | none =>
    obtain rfl : arrived = [] := ht
    exact ⟨List.nil_sublist _, fun y ↦ Iff.rfl, nofun, hhdr,
      iff_of_false Bool.false_ne_true fun ⟨y, hy, _⟩ ↦ List.not_mem_nil hy, nofun⟩
  | some ipr =>
    obtain ⟨hc, -⟩ := ht
    rw [YHAudioLink.datagramFor, IpReassdata.updateHdr]
    split
    · exact ⟨hc.chain, hc.mem, hc.frag, hhdr, hc.last, hc.len⟩
    · exact hc

theorem Tracks.mem_cut (ht : Tracks h data cut arrived o) {y : ℕ × ℕ} (hy : y ∈ arrived) :
    y ∈ cut := by
  cases o with
  | none =>
    obtain rfl : arrived = [] := ht
    cases hy
  | some ipr => exact ht.1.chain.subset ((ht.1.mem y).2 hy)

/-- **One fragment of the packet.** -/
theorem Tracks.addAlone (ht : Tracks h data cut arrived o) (hcut : FragCut data cut) (hx : x ∈ cut)
    (hp : IsFragment h data x p) (hlen : h.len.toNat = data.length + 20) :
    ((addAlone o p).1.isSome = true ↔ Completes cut arrived x) ∧
      ((addAlone o p).1 = none → Tracks h data cut (arrived ++ [x]) (addAlone o p).2) ∧
      ∀ q, (addAlone o p).1 = some q → chainData q = h.bytes (ipChksumInline h) ++
        (cut.filter fun y ↦ y ∈ arrived ++ [x]).flatMap (slice data) := by
  obtain ⟨-, hkeyp, -, -, -, -⟩ := hp.fields hcut hx
  have hc := ht.datagramFor hcut hx hp
  obtain ⟨hc', hcomplete⟩ := hc.add hcut hx hp
  have hkey : reassKey ((YHAudioLink.datagramFor o p).add p).2.iphdr = h.key := by
    rw [IpReassdata.iphdr_add, reassKey_datagramFor, hkeyp]
    rintro ipr ⟨⟩
    exact ht.2.trans hkeyp.symm
  rw [YHAudioLink.addAlone]
  rcases hadd : (YHAudioLink.datagramFor o p).add p with ⟨fate, ipr'⟩
  rw [hadd] at hc' hcomplete hkey
  cases fate with
  | freed => exact ⟨iff_of_false nofun (nofun ∘ hcomplete.2), fun _ ↦ ⟨hc', hkey⟩, nofun⟩
  | queued => exact ⟨iff_of_false nofun (nofun ∘ hcomplete.2), fun _ ↦ ⟨hc', hkey⟩, nofun⟩
  | complete =>
    have hall := hcomplete.1 rfl
    refine ⟨iff_of_true rfl hall, nofun, fun q hq ↦ ?_⟩
    obtain rfl := Option.some.inj hq
    have hmem : x ∈ ipr'.p.map ReassFrag.span :=
      (hc'.mem x).2 (List.mem_append_right _ (List.mem_singleton_self x))
    have hne : ipr'.p ≠ [] := fun hnil ↦ by
      rw [hnil] at hmem
      cases hmem
    -- the last fragment has arrived, or is this one
    have hlast : ipr'.lastfrag = true := by
      obtain ⟨hnarr, pre, hole, post, hsplit, hmem', -⟩ := hall
      refine hc'.last.2 ?_
      cases hpost : cut.getLast? with
      | none => exact absurd (List.getLast?_eq_none_iff.1 hpost ▸ hx) List.not_mem_nil
      | some z =>
        refine ⟨z, ?_, hcut.last z hpost⟩
        rw [hsplit, List.getLast?_append_of_ne_nil _ (List.cons_ne_nil _ _)] at hpost
        rcases List.mem_cons.1 (List.mem_of_getLast? hpost) with rfl | hz
        · exact List.mem_append_right _ (List.mem_singleton_self z)
        · exact List.mem_append_left _ ((hmem' z).2 (List.mem_append_right _ hz))
    rw [hc'.packet hcut hlen hlast hne]
    congr 2
    refine hcut.pieces.eq_of_mem_iff hc'.chain List.filter_sublist fun y ↦ ?_
    rw [hc'.mem, List.mem_filter, decide_eq_true_iff]
    exact ⟨fun hy ↦ ⟨hc'.chain.subset ((hc'.mem y).2 hy), hy⟩, And.right⟩

/-- **One packet comes in**: what `ip_reass` returns tells whether it was a fragment that completes
the packet; if it was not, there is one more. -/
theorem Tracks.step {s s₁ : IpReass} {r : Option (List PbufPart)} (hcut : FragCut data cut)
    (hlen : h.len.toNat = data.length + 20) (hs : s.Inv)
    (ht : Tracks h data cut arrived (datagram s.reassdatagrams h.key))
    (hstep : roomyReass s p = some (r, s₁))
    (hfrag : reassKey (payloadData p) = h.key → ∃ x ∈ cut, IsFragment h data x p) :
    (reassKey (payloadData p) = h.key → (r.isSome = true ↔ Completes cut arrived (fragSpan p))) ∧
      ((reassKey (payloadData p) = h.key → r = none) →
        Tracks h data cut (arrived ++ arrivedOf h.key [p]) (datagram s₁.reassdatagrams h.key)) := by
  rw [roomyReass] at hstep
  split at hstep
  · next hroom =>
    obtain ⟨res, hcall, hres⟩ := Option.map_eq_some_iff.1 hstep
    obtain ⟨rfl, rfl⟩ := Prod.mk.inj hres
    by_cases hkey : reassKey (payloadData p) = h.key
    · obtain ⟨x, hx, hp⟩ := hfrag hkey
      obtain ⟨hhdr, -, hspan, -, -, -⟩ := hp.fields hcut hx
      obtain ⟨res', hcall', halone, -⟩ := ipReass_of_roomy hs hroom hhdr
      obtain rfl := Option.some.inj (hcall.symm.trans hcall')
      rw [hkey] at halone
      obtain ⟨hsome, hnext, -⟩ := ht.addAlone hcut hx hp hlen
      rw [← halone] at hsome hnext
      refine ⟨fun _ ↦ hspan ▸ hsome, fun hnone ↦ ?_⟩
      have harr : arrivedOf h.key [p] = [x] := by simp [arrivedOf, hkey, hspan]
      rw [harr]
      exact hnext (hnone hkey)
    · refine ⟨fun heq ↦ absurd heq hkey, fun _ ↦ ?_⟩
      have harr : arrivedOf h.key [p] = [] := by simp [arrivedOf, hkey]
      rw [harr, List.append_nil]
      by_cases hhdr : ((payloadData p).getD 0 0 &&& 0x0f).toNat * 4 = ipHlen
      · obtain ⟨res', hcall', -, hothers⟩ := ipReass_of_roomy hs hroom hhdr
        obtain rfl := Option.some.inj (hcall.symm.trans hcall')
        rw [hothers h.key (Ne.symm hkey)]
        exact ht
      · have hdrop : ipReass s p = some ⟨none, [], s⟩ := by
          rw [ipReass]
          exact if_pos hhdr
        obtain rfl := Option.some.inj (hcall.symm.trans hdrop)
        exact ht
  · cases hstep

theorem arrivedOf_cons (k : UInt32 × UInt32 × UInt16) (p : List PbufPart)
    (ps : List (List PbufPart)) : arrivedOf k (p :: ps) = arrivedOf k [p] ++ arrivedOf k ps := by
  rw [arrivedOf, ← List.singleton_append, List.filter_append, List.map_append]
  rfl

theorem IpReass.Inv.roomyReass {s s₁ : IpReass} {r : Option (List PbufPart)} (hs : s.Inv)
    (hfilled : s.Filled) (hfit : p.length < 256) (hstep : roomyReass s p = some (r, s₁)) :
    s₁.Inv ∧ s₁.Filled := by
  rw [YHAudioLink.roomyReass] at hstep
  split at hstep
  · obtain ⟨res, hcall, hres⟩ := Option.map_eq_some_iff.1 hstep
    obtain ⟨-, rfl⟩ := Prod.mk.inj hres
    exact hs.ipReass hfilled hfit hcall
  · cases hstep

/-- **What is in the queue of a packet** after some calls, none of which has returned it. -/
theorem tracks_run (hcut : FragCut data cut) (hlen : h.len.toNat = data.length + 20)
    {s₀ s : IpReass} {ps : List (List PbufPart)} {rs : List (Option (List PbufPart))}
    (hs₀ : s₀.Inv) (hfilled : s₀.Filled)
    (ht : Tracks h data cut arrived (datagram s₀.reassdatagrams h.key))
    (hrun : run roomyReass s₀ ps = some (rs, s)) (hfit : ∀ p ∈ ps, p.length < 256)
    (hfrag : ∀ p ∈ ps, reassKey (payloadData p) = h.key → ∃ x ∈ cut, IsFragment h data x p)
    (hnone : ∀ r ∈ ps.zip rs, reassKey (payloadData r.1) = h.key → r.2 = none) :
    s.Inv ∧ Tracks h data cut (arrived ++ arrivedOf h.key ps)
    (datagram s.reassdatagrams h.key) := by
  induction ps generalizing s₀ arrived rs with
  | nil =>
    obtain ⟨rfl, rfl⟩ := Prod.mk.inj (Option.some.inj hrun)
    refine ⟨hs₀, ?_⟩
    rw [arrivedOf, List.filter_nil, List.map_nil, List.append_nil]
    exact ht
  | cons p ps ih =>
    obtain ⟨⟨r, s₁⟩, hstep, hrest⟩ := Option.bind_eq_some_iff.1 hrun
    obtain ⟨⟨rs', s'⟩, hrun', heq⟩ := Option.bind_eq_some_iff.1 hrest
    obtain ⟨rfl, rfl⟩ := Prod.mk.inj (Option.some.inj heq)
    obtain ⟨hinv₁, hfilled₁⟩ := hs₀.roomyReass hfilled (hfit p List.mem_cons_self) hstep
    obtain ⟨-, hnext⟩ := ht.step hcut hlen hs₀ hstep (hfrag p List.mem_cons_self)
    rw [arrivedOf_cons, ← List.append_assoc]
    exact ih hinv₁ hfilled₁ (hnext (hnone (p, r) List.mem_cons_self)) hrun'
      (fun q hq ↦ hfit q (List.mem_cons_of_mem _ hq))
      (fun q hq ↦ hfrag q (List.mem_cons_of_mem _ hq))
      fun z hz ↦ hnone z (List.mem_cons_of_mem _ hz)

/-- The fragment that is missing when all the others have arrived completes the packet. -/
theorem completes_of_forall (hcut : FragCut data cut) (hx : x ∈ cut)
    (harr : ∀ y ∈ arrived, y ∈ cut) (hall : ∀ y ∈ cut, y ∈ arrived ++ [x]) (hnarr : x ∉ arrived) :
    Completes cut arrived x := by
  obtain ⟨pre, post, rfl⟩ := List.append_of_mem hx
  refine ⟨hnarr, pre, [], post, by rw [List.append_nil], fun y ↦ ⟨fun hy ↦ ?_, fun hy ↦ ?_⟩,
    fun hne ↦ absurd rfl hne⟩
  · rcases List.mem_append.1 (harr y hy) with hy' | hy'
    · exact List.mem_append_left _ hy'
    · exact List.mem_append_right _ ((List.mem_cons.1 hy').resolve_left fun heq ↦ hnarr (heq ▸ hy))
  · have hycut : y ∈ pre ++ x :: post := by
      rcases List.mem_append.1 hy with hy | hy
      · exact List.mem_append_left _ hy
      · exact List.mem_append_right _ (List.mem_cons_of_mem _ hy)
    refine (List.mem_append.1 (hall y hycut)).resolve_right fun heq ↦ ?_
    exact (List.nodup_middle.1 hcut.pieces.nodup).notMem (List.mem_singleton.1 heq ▸ hy)

/-- The pieces one after the other are the data. -/
theorem FragCut.flatMap_slice (hcut : FragCut data cut) (hx : x ∈ cut) :
    cut.flatMap (slice data) = data := by
  cases cut with
  | nil => exact absurd hx List.not_mem_nil
  | cons z l =>
    obtain ⟨y, hy⟩ : ∃ y, (z :: l).getLast? = some y := ⟨_, List.getLast?_cons⟩
    rw [Pieces.flatMap_slice data hcut.pieces y hy, slice, hcut.last y hy, hcut.first z rfl]
    exact List.take_length

/-- **What the next fragment gets**, when none before it has completed the packet. -/
theorem Tracks.delivers {s : IpReass} (ht : Tracks h data cut arrived
    (datagram s.reassdatagrams h.key))
    (hs : s.Inv) (hcut : FragCut data cut) (hlen : h.len.toNat = data.length + 20) (hx : x ∈ cut)
    (hp : IsFragment h data x p) (hroom : s.roomy p = true) :
    ∃ r, ipReass s p = some r ∧ (r.r.isSome = true ↔ Completes cut arrived x) ∧
      (∀ q, r.r = some q → chainData q = h.bytes (ipChksumInline h) ++
        (cut.filter fun y ↦ y ∈ arrived ++ [x]).flatMap (slice data)) ∧
      ((∀ y ∈ cut, y ∈ arrived ++ [x]) → x ∉ arrived →
        ∃ q, r.r = some q ∧ chainData q = ipOutputIf h data) := by
  obtain ⟨hhdr, hkey, -, -, -, -⟩ := hp.fields hcut hx
  obtain ⟨r, hcall, halone, -⟩ := ipReass_of_roomy hs hroom hhdr
  rw [hkey] at halone
  obtain ⟨hsome, -, hdata⟩ := ht.addAlone hcut hx hp hlen
  rw [← congrArg Prod.fst halone] at hsome hdata
  refine ⟨r, hcall, hsome, hdata, fun hall hnarr ↦ ?_⟩
  have hcomplete := completes_of_forall hcut hx (fun y hy ↦ ht.mem_cut hy) hall hnarr
  obtain ⟨q, hq⟩ := Option.isSome_iff_exists.1 (hsome.2 hcomplete)
  have hfilter : (cut.filter fun y ↦ y ∈ arrived ++ [x]) = cut :=
    List.filter_eq_self.2 fun y hy ↦ decide_eq_true (hall y hy)
  refine ⟨q, hq, ?_⟩
  rw [hdata q hq, hfilter, hcut.flatMap_slice hx, ipOutputIf]

/-- **Fragments are put together in any order.** In a queue that has nothing of a packet yet, and in
which no freed element has been left, let its fragments come in, in any order and as often as they
like, with packets of any other kind between them and no call of `ip_reass_tmr`; there is to be room
for each. Then the next fragment makes `ip_reass` return a packet if and only if it completes it,
and what is returned is the header the packet was sent with, and the data of the fragments that have
arrived, in order. So where all have arrived it is the packet as it was sent. -/
theorem ipReass_delivers {s₀ s : IpReass} (hs₀ : Reachable IpReass.init reassStep chainFits s₀)
    (hnew : datagram s₀.reassdatagrams h.key = none) (hcut : FragCut data cut)
    (hlen : h.len.toNat = data.length + 20) {ps : List (List PbufPart)}
    {rs : List (Option (List PbufPart))} (hrun : run roomyReass s₀ ps = some (rs, s))
    (hfit : ∀ p ∈ ps, p.length < 256)
    (hfrag : ∀ p ∈ ps, reassKey (payloadData p) = h.key → ∃ x ∈ cut, IsFragment h data x p)
    (hnone : ∀ r ∈ ps.zip rs, reassKey (payloadData r.1) = h.key → r.2 = none)
    (hx : x ∈ cut) (hp : IsFragment h data x p) (hroom : s.roomy p = true) :
    ∃ r, ipReass s p = some r ∧
      (r.r.isSome = true ↔ Completes cut (arrivedOf h.key ps) x) ∧
      (∀ q, r.r = some q → chainData q = h.bytes (ipChksumInline h) ++
        (cut.filter fun y ↦ y ∈ arrivedOf h.key ps ++ [x]).flatMap (slice data)) ∧
      ((∀ y ∈ cut, y ∈ arrivedOf h.key ps ++ [x]) → x ∉ arrivedOf h.key ps →
        ∃ q, r.r = some q ∧ chainData q = ipOutputIf h data) := by
  obtain ⟨hinv₀, hfilled₀⟩ := reass_inv hs₀
  have ht₀ : Tracks h data cut [] (datagram s₀.reassdatagrams h.key) := by
    rw [hnew]
    exact rfl
  obtain ⟨hinv, ht⟩ := tracks_run hcut hlen hinv₀ hfilled₀ ht₀ hrun hfit hfrag hnone
  rw [List.nil_append] at ht
  exact ht.delivers hinv hcut hlen hx hp hroom

end Run

/-- The header of a packet of nine bytes. -/
def nineHdr : IpHdr := ⟨0, 29, 7, 255, ipProtoUdp, 0x1e01a8c0, 0x6e01a8c0⟩

/-- Its data. -/
def nineData : List UInt8 := [1, 2, 3, 4, 5, 6, 7, 8, 9]

/-- A fragment of it. -/
def nineFrag (x : ℕ × ℕ) : List UInt8 :=
  setHdr (nineHdr.bytes 0) (UInt16.ofNat (x.2 - x.1 + 20))
    (fragField (UInt16.ofNat (x.1 / 8)) (x.2 < nineData.length)) 0 ++ slice nineData x

theorem length_nineFrag (x : ℕ × ℕ) : 20 ≤ (nineFrag x).length ∧ (nineFrag x).length < 65536 := by
  obtain ⟨-, -, -, -, -, -, -, hhdr⟩ := setHdr_fields nineHdr (UInt16.ofNat (x.2 - x.1 + 20))
    (fragField (UInt16.ofNat (x.1 / 8)) (x.2 < nineData.length)) 0 []
  have hslice : (slice nineData x).length ≤ 9 := by
    rw [slice, List.length_take, List.length_drop]
    exact (Nat.min_le_right _ _).trans (Nat.sub_le _ _)
  rw [nineFrag, List.length_append, hhdr]
  omega

/-- The fragment in one `pbuf`. -/
def ninePbuf (x : ℕ × ℕ) : List PbufPart := [⟨0, nineFrag x, (length_nineFrag x).2⟩]

theorem isFragment_ninePbuf (x : ℕ × ℕ) : IsFragment nineHdr nineData x (ninePbuf x) :=
  ⟨⟨0, List.append_nil _⟩, (length_nineFrag x).1⟩

/-- The last byte comes before the first eight. -/
theorem ipReass_delivers_two :
    ∃ s r q, run roomyReass ⟨[], mempNumReassdata, 0⟩ [ninePbuf (8, 9)] = some ([none], s) ∧
      ipReass s (ninePbuf (0, 8)) = some r ∧ r.r = some q ∧
      chainData q = ipOutputIf nineHdr nineData := by
  obtain ⟨s, hrun, hroom⟩ : ∃ s, run roomyReass ⟨[], mempNumReassdata, 0⟩ [ninePbuf (8, 9)] =
      some ([none], s) ∧ s.roomy (ninePbuf (0, 8)) = true := ⟨_, rfl, by decide⟩
  have hcut : FragCut nineData [(0, 8), (8, 9)] :=
    ⟨⟨.cons_cons rfl (.singleton _), by decide⟩, by decide, by decide, by decide, by decide⟩
  obtain ⟨r, hr, -, -, hall⟩ := @ipReass_delivers nineHdr nineData [(0, 8), (8, 9)] (0, 8)
    (ninePbuf (0, 8)) _ s (.init rfl) rfl hcut rfl _ _ hrun (by simp [ninePbuf])
    (fun p hp _ ↦ ⟨(8, 9), by decide, List.mem_singleton.1 hp ▸ isFragment_ninePbuf (8, 9)⟩)
    (by simp) (by decide) (isFragment_ninePbuf (0, 8)) hroom
  have harrived : arrivedOf nineHdr.key [ninePbuf (8, 9)] = [(8, 9)] := by decide
  rw [harrived] at hall
  obtain ⟨q, hq, hdata⟩ := hall (by decide) (by decide)
  exact ⟨s, r, q, hrun, hr, hq, hdata⟩

end YHAudioLink
