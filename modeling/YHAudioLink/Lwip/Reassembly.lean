import YHAudioLink.Foundation.DataRefinement
import YHAudioLink.Foundation.Pieces
import YHAudioLink.Lwip.ReassQueue

/-!
# Reassembly of one packet

What `ip_reass` makes of the fragments of a packet, in whatever order they come. The fragments are a
cut of the packet's data (`FragCut`), and those that have arrived are kept as a sublist of it
(`Collects`).

A fragment that comes twice is dropped. Any other is put in its place, and then the code looks
whether the chain is complete, at every link but the one right in front of the fragment. So the
packet is taken as complete just when nothing else is missing (`Completes`,
`IpReassdata.Collects.add`): if all fragments have arrived, but also with a gap in front of the last
one to come. What is returned then is the header of the packet and the data of the fragments in
order (`IpReassdata.Collects.packet`).
-/

namespace YHAudioLink

open Pieces

/-! ### A fragment -/

/-- A packet's data cut into fragments: each starts at a multiple of eight bytes, as the offset
field asks for. -/
structure FragCut (data : List UInt8) (cut : List (ℕ × ℕ)) : Prop where
  pieces : Cut Prod.fst Prod.snd cut
  first : ∀ x ∈ cut.head?, x.1 = 0
  last : ∀ x ∈ cut.getLast?, x.2 = data.length
  aligned : ∀ x ∈ cut, 8 ∣ x.1
  fits : data.length + 20 < 65536

/-- The packet that takes a piece of the data of a packet with a header. -/
structure IsFragment (h : IpHdr) (data : List UInt8) (x : ℕ × ℕ) (p : List PbufPart) : Prop where
  bytes : ∃ chksum, chainData p = setHdr (h.bytes 0) (UInt16.ofNat (x.2 - x.1 + 20))
    (fragField (UInt16.ofNat (x.1 / 8)) (x.2 < data.length)) chksum ++ slice data x
  first : 20 ≤ (payloadData p).length

/-- The key of the fragments of a packet. -/
def IpHdr.key (h : IpHdr) : UInt32 × UInt32 × UInt16 := (h.src, h.dest, lwipHtons h.id)

/-- Where a fragment starts and stops, as its header says. -/
def fragSpan (p : List PbufPart) : ℕ × ℕ :=
  ((fragBlock (payloadData p) * 8).toNat,
    (fragBlock (payloadData p) * 8 + fragLen (payloadData p)).toNat)

theorem reassKey_setHdr (h : IpHdr) (len offset chksum : UInt16) :
    reassKey (setHdr (h.bytes 0) len offset chksum) = h.key := by
  have hfields := setHdr_fields h len offset chksum []
  rw [List.append_nil] at hfields
  obtain ⟨-, -, hid, -, -, hsrc, hdest, -⟩ := hfields
  rw [reassKey, hid, hsrc, hdest]
  rfl

theorem FragCut.le_length {data : List UInt8} {cut : List (ℕ × ℕ)} (hcut : FragCut data cut)
    {x : ℕ × ℕ} (hx : x ∈ cut) : x.2 ≤ data.length := by
  cases hlast : cut.getLast? with
  | none => exact absurd (List.getLast?_eq_none_iff.1 hlast ▸ hx) List.not_mem_nil
  | some y => exact hcut.last y hlast ▸ hcut.pieces.stop_le_last hx hlast

section Fragment

variable {h : IpHdr} {data : List UInt8} {cut : List (ℕ × ℕ)} {x : ℕ × ℕ} {p : List PbufPart}

/-- The header of a fragment, and what is behind it. -/
theorem IsFragment.header (hf : IsFragment h data x p) :
    (∃ chksum, (payloadData p).take ipHlen = setHdr (h.bytes 0) (UInt16.ofNat (x.2 - x.1 + 20))
      (fragField (UInt16.ofNat (x.1 / 8)) (x.2 < data.length)) chksum) ∧
      (chainData p).drop ipHlen = slice data x ∧
      (chainData p).length = ipHlen + (slice data x).length := by
  obtain ⟨⟨chksum, hbytes⟩, hfirst⟩ := hf
  obtain ⟨-, -, -, -, -, -, -, hhdr⟩ := setHdr_fields h (UInt16.ofNat (x.2 - x.1 + 20))
    (fragField (UInt16.ofNat (x.1 / 8)) (x.2 < data.length)) chksum []
  have hcons : ipHlen = 20 := rfl
  rw [hcons, payloadData_take hfirst, hbytes, List.length_append, hhdr]
  refine ⟨⟨chksum, ?_⟩, ?_, rfl⟩
  · rw [List.take_append_of_le_length hhdr.ge, List.take_of_length_le hhdr.le]
  · rw [List.drop_append_of_le_length hhdr.ge, List.drop_of_length_le hhdr.le, List.nil_append]

/-- The offset field of a fragment. -/
theorem IsFragment.fieldU16_offset (hf : IsFragment h data x p) :
    lwipHtons (fieldU16 (payloadData p) 6) =
      fragField (UInt16.ofNat (x.1 / 8)) (x.2 < data.length) := by
  obtain ⟨⟨chksum, htake⟩, -, -⟩ := hf.header
  have hfields := setHdr_fields h (UInt16.ofNat (x.2 - x.1 + 20))
    (fragField (UInt16.ofNat (x.1 / 8)) (x.2 < data.length)) chksum []
  rw [List.append_nil, ← htake] at hfields
  obtain ⟨-, -, -, hoffset, -⟩ := hfields
  rw [← @fieldU16_take (payloadData p) ipHlen 6 (by decide), hoffset, lwipHtons_lwipHtons]

/-- **What `ip_reass` reads in a fragment.** -/
theorem IsFragment.fields (hf : IsFragment h data x p) (hcut : FragCut data cut) (hx : x ∈ cut) :
    ((payloadData p).getD 0 0 &&& 0x0f).toNat * 4 = ipHlen ∧ reassKey (payloadData p) = h.key ∧
      fragSpan p = x ∧ fragMore (payloadData p) = decide (x.2 < data.length) ∧
      (∃ len offset chksum, (payloadData p).take ipHlen = setHdr (h.bytes 0) len offset chksum) ∧
      (chainData p).drop ipHlen = slice data x := by
  have hfoff := hf.fieldU16_offset
  obtain ⟨⟨chksum, htake⟩, hdrop, -⟩ := hf.header
  have hpos := hcut.pieces.pos x hx
  have hle := hcut.le_length hx
  have hfits := hcut.fits
  obtain ⟨k, hk⟩ := hcut.aligned x hx
  have hlen : (UInt16.ofNat (x.2 - x.1 + 20)).toNat = x.2 - x.1 + 20 :=
    UInt16.toNat_ofNat'.trans (Nat.mod_eq_of_lt (by omega))
  have hblock : (UInt16.ofNat (x.1 / 8)).toNat = x.1 / 8 :=
    UInt16.toNat_ofNat'.trans (Nat.mod_eq_of_lt (by omega))
  obtain ⟨len, hlenDef⟩ : ∃ len, UInt16.ofNat (x.2 - x.1 + 20) = len := ⟨_, rfl⟩
  obtain ⟨field, hfield⟩ : ∃ field,
    fragField (UInt16.ofNat (x.1 / 8)) (x.2 < data.length) = field := ⟨_, rfl⟩
  rw [hlenDef, hfield] at htake
  rw [hfield] at hfoff
  rw [hlenDef] at hlen
  have hfields := setHdr_fields h len field chksum []
  rw [List.append_nil, ← htake] at hfields
  obtain ⟨hvhl, hflen, -, -, -, -, -, -⟩ := hfields
  have hkey := reassKey_setHdr h len field chksum
  have hvhl' : (payloadData p).getD 0 0 = ipVhl := (getD_take (by decide)).symm.trans hvhl
  rw [fieldU16_take (by decide)] at hflen
  have hoffmask : fragBlock (payloadData p) = 0x1fff &&& UInt16.ofNat (x.1 / 8) := by
    rw [fragBlock, hfoff, ← hfield, fragField_and_offmask]
  have hstart : (fragBlock (payloadData p) * 8).toNat = x.1 := by
    have hmask : (0x1fff : UInt16).toNat = 2 ^ 13 - 1 := rfl
    have height : (8 : UInt16).toNat = 8 := rfl
    rw [hoffmask, UInt16.toNat_mul, UInt16.toNat_and, hmask, Nat.and_comm,
      Nat.and_two_pow_sub_one_eq_mod, hblock, height]
    omega
  have hfragLen : (fragLen (payloadData p)).toNat = x.2 - x.1 := by
    have htwenty : ((ipVhl &&& 0x0f).toUInt16 * 4) = 20 := by decide
    have htwenty' : (20 : UInt16).toNat = 20 := rfl
    rw [fragLen, hflen, hvhl', htwenty,
      UInt16.toNat_sub_of_le _ _ (UInt16.le_iff_toNat_le.2 (by omega)), hlen, htwenty']
    omega
  refine ⟨by rw [hvhl']; decide, ?_, Prod.ext hstart ?_, ?_, ⟨len, field, chksum, htake⟩, hdrop⟩
  · rw [← hkey, ← htake]
    exact (reassKey_take _).symm
  · show (_ + _ : UInt16).toNat = _
    rw [UInt16.toNat_add, hstart, hfragLen]
    omega
  · have hmf : fieldU16 (payloadData p) 6 = lwipHtons field := by rw [← hfoff, lwipHtons_lwipHtons]
    rw [fragMore, hmf, lwipHtons_and, ← hfield, fragField_and_mf]
    by_cases hmore : x.2 < data.length
    · simp only [hmore, decide_true]
      decide
    · simp only [hmore, decide_false]
      decide

end Fragment

/-! ### The chain of a cut -/

/-- Where a fragment in the queue starts and stops. -/
def ReassFrag.span (f : ReassFrag) : ℕ × ℕ := (f.start.toNat, f.stop.toNat)

/-- The fragments in a chain are linked. -/
abbrev ChainLinked (l : List ReassFrag) : Prop := Linked Prod.fst Prod.snd (l.map ReassFrag.span)

theorem chainLinked_cons_cons {a b : ReassFrag} {l : List ReassFrag} :
    ChainLinked (a :: b :: l) ↔ a.stop = b.start ∧ ChainLinked (b :: l) := by
  rw [ChainLinked, List.map_cons, List.map_cons, Linked, List.isChain_cons_cons, ← List.map_cons]
  exact and_congr_left' UInt16.toNat_inj

theorem chainEnds_iff (new : ReassFrag) (l : List ReassFrag) :
    chainEnds new l = true ↔ ChainLinked (new :: l) := by
  induction l generalizing new with
  | nil => exact iff_of_true rfl (List.IsChain.singleton _)
  | cons q qs ih =>
    rw [chainEnds, chainLinked_cons_cons, ← ih]
    by_cases heq : new.stop = q.start <;> simp [heq]

/-- A fragment between those before it and those behind it. -/
theorem chainFrag_of_place {new : ReassFrag} {prev : Option ReassFrag} {l₁ l₂ : List ReassFrag}
    (hprev : ∀ a ∈ prev, a.stop ≤ new.start)
    (hbefore : ∀ a ∈ l₁, a.start < new.start ∧ a.stop ≤ new.start)
    (hafter : ∀ a ∈ l₂.head?, new.start < a.start ∧ new.stop ≤ a.start) :
    ∃ valid, chainFrag new prev (l₁ ++ l₂) = some ⟨l₁, l₂, valid⟩ ∧
      (valid = true ↔ ChainLinked (prev.toList ++ l₁) ∧
        (l₂ = [] → ChainLinked (prev.toList ++ l₁ ++ [new]))) := by
  induction l₁ generalizing prev with
  | nil =>
    cases l₂ with
    | nil =>
      cases prev with
      | none => exact ⟨true, rfl, iff_of_true rfl ⟨.nil, fun _ ↦ .singleton _⟩⟩
      | some a =>
        refine ⟨decide (a.stop = new.start), rfl, ?_⟩
        rw [decide_eq_true_iff]
        have hlink := @chainLinked_cons_cons a new []
        exact ⟨fun heq ↦ ⟨.singleton _, fun _ ↦ hlink.2 ⟨heq, .singleton _⟩⟩,
          fun hl ↦ (hlink.1 (hl.2 rfl)).1⟩
    | cons q qs =>
      obtain ⟨hlt, hle⟩ := hafter q rfl
      refine ⟨true, ?_, iff_of_true rfl ⟨?_, nofun⟩⟩
      · rw [List.nil_append, chainFrag.eq_def]
        cases prev with
        | none => simp [hlt]
        | some a =>
          have hover : ¬ (new.start < a.stop ∨ new.stop > q.start) :=
            not_or.2 ⟨UInt16.not_lt.2 (hprev a rfl), UInt16.not_lt.2 hle⟩
          simp only [hlt, if_true, hover, if_false]
      · cases prev with
        | none => exact .nil
        | some a => exact .singleton _
  | cons q l₁ ih =>
    obtain ⟨hlt, hle⟩ := hbefore q List.mem_cons_self
    have hnlt : ¬ new.start < q.start := UInt16.not_lt.2 (UInt16.le_of_lt hlt)
    have hne : new.start ≠ q.start := fun heq ↦ UInt16.lt_irrefl _ (heq ▸ hlt)
    obtain ⟨valid, hcall, hvalid⟩ := @ih (some q) (fun a ha ↦ Option.some.inj ha ▸ hle)
      fun a ha ↦ hbefore a (List.mem_cons_of_mem _ ha)
    have hnstop : ¬ new.start < q.stop := UInt16.not_lt.2 hle
    cases prev with
    | none =>
      refine ⟨valid, ?_, hvalid⟩
      rw [List.cons_append, chainFrag.eq_def]
      simp only [hnlt, hne, hnstop, if_false, hcall]
      simp
    | some a =>
      refine ⟨decide (a.stop = q.start) && valid, ?_, ?_⟩
      · rw [List.cons_append, chainFrag.eq_def]
        simp only [hnlt, hne, hnstop, if_false, hcall]
        simp
      · have hlink : ∀ l, ChainLinked (a :: q :: l) ↔ a.stop = q.start ∧ ChainLinked (q :: l) :=
          fun l ↦ chainLinked_cons_cons
        rw [Bool.and_eq_true, decide_eq_true_iff, hvalid]
        show _ ∧ ChainLinked (q :: l₁) ∧ (l₂ = [] → ChainLinked (q :: (l₁ ++ [new]))) ↔
          ChainLinked (a :: q :: l₁) ∧ (l₂ = [] → ChainLinked (a :: q :: (l₁ ++ [new])))
        rw [hlink, hlink]
        constructor
        · rintro ⟨heq, hl, hend⟩
          exact ⟨⟨heq, hl⟩, fun hnil ↦ ⟨heq, hend hnil⟩⟩
        · rintro ⟨⟨heq, hl⟩, hend⟩
          exact ⟨heq, hl, fun hnil ↦ (hend hnil).2⟩

/-- A fragment that is in the chain already is dropped. -/
theorem chainFrag_of_mem {new : ReassFrag} {prev : Option ReassFrag} {l : List ReassFrag}
    (hl : (l.map ReassFrag.span).Pairwise fun x y ↦ x.1 < y.1) (hmem : ∃ a ∈ l, a.start = new.start)
    (hstop : ∀ a ∈ l, a.start < new.start → a.stop ≤ new.start) : chainFrag new prev l = none := by
  induction l generalizing prev with
  | nil =>
    obtain ⟨a, ha, -⟩ := hmem
    cases ha
  | cons q l ih =>
    rw [List.map_cons] at hl
    obtain ⟨a, ha, heq⟩ := hmem
    rw [chainFrag.eq_def]
    rcases List.mem_cons.1 ha with rfl | ha
    · simp [heq]
    · have hqa : q.start.toNat < a.start.toNat :=
        List.rel_of_pairwise_cons hl (List.mem_map_of_mem ha)
      have hlt : q.start < new.start := heq ▸ UInt16.lt_iff_toNat_lt.2 hqa
      have hnlt : ¬ new.start < q.start := UInt16.not_lt.2 (UInt16.le_of_lt hlt)
      have hne : new.start ≠ q.start := fun h ↦ UInt16.lt_irrefl _ (h ▸ hlt)
      have hnstop : ¬ new.start < q.stop := UInt16.not_lt.2 (hstop q List.mem_cons_self hlt)
      have hrest := @ih (some q) hl.of_cons ⟨a, ha, heq⟩
        fun b hb ↦ hstop b (List.mem_cons_of_mem _ hb)
      simp [hnlt, hne, hnstop, hrest]

/-! ### One datagram -/

/-- What a datagram in the queue has of the fragments that have arrived. -/
structure IpReassdata.Collects (h : IpHdr) (data : List UInt8) (cut arrived : List (ℕ × ℕ))
    (ipr : IpReassdata) : Prop where
  chain : (ipr.p.map ReassFrag.span).Sublist cut
  mem : ∀ x, x ∈ ipr.p.map ReassFrag.span ↔ x ∈ arrived
  frag : ∀ f ∈ ipr.p, IsFragment h data f.span f.p
  hdr : ∃ len offset chksum, ipr.iphdr = setHdr (h.bytes 0) len offset chksum
  last : ipr.lastfrag = true ↔ ∃ x ∈ arrived, x.2 = data.length
  len : ipr.lastfrag = true → ipr.datagramLen.toNat = data.length

/-- **When a fragment completes its packet**: it has not been there before, and what has arrived is
all the others, except that a whole stretch right in front of it may be missing if something is
before that and something is behind the fragment. -/
def Completes (cut arrived : List (ℕ × ℕ)) (x : ℕ × ℕ) : Prop :=
  x ∉ arrived ∧ ∃ pre hole post, cut = pre ++ hole ++ x :: post ∧
    (∀ y, y ∈ arrived ↔ y ∈ pre ++ post) ∧ (hole ≠ [] → pre ≠ [] ∧ post ≠ [])

section Datagram

variable {h : IpHdr} {data : List UInt8} {cut arrived : List (ℕ × ℕ)} {x : ℕ × ℕ}
  {p : List PbufPart} {ipr : IpReassdata}

/-- Where a fragment of the cut goes among those that have arrived. -/
theorem IpReassdata.Collects.place (hc : ipr.Collects h data cut arrived) (hcut : FragCut data cut)
    (hx : x ∈ cut) {new : ReassFrag} (hnew : new.span = x) :
    (x ∈ arrived ∧ chainFrag new none ipr.p = none) ∨
      ∃ pre post l₁ l₂ valid, x ∉ arrived ∧ cut = pre ++ x :: post ∧ ipr.p = l₁ ++ l₂ ∧
        (l₁.map ReassFrag.span).Sublist pre ∧ (l₂.map ReassFrag.span).Sublist post ∧
        chainFrag new none ipr.p = some ⟨l₁, l₂, valid⟩ ∧
        (valid = true ↔ ChainLinked l₁ ∧ (l₂ = [] → ChainLinked (l₁ ++ [new]))) := by
  have hspan : ∀ a : ReassFrag, a.start.toNat = a.span.1 ∧ a.stop.toNat = a.span.2 :=
    fun a ↦ ⟨rfl, rfl⟩
  by_cases harr : x ∈ arrived
  · left
    obtain ⟨a, ha, hax⟩ := List.mem_map.1 ((hc.mem x).2 harr)
    have hsame : a.start = new.start := UInt16.toNat_inj.1 (congrArg Prod.fst (hax.trans hnew.symm))
    refine ⟨harr, chainFrag_of_mem (hcut.pieces.start_lt.sublist hc.chain) ⟨a, ha, hsame⟩
      fun b hb hlt ↦ UInt16.le_iff_toNat_le.2 ?_⟩
    -- of two pieces of the cut, the one that starts first stops before the other
    have hlt' : b.span.1 < x.1 := hnew ▸ UInt16.lt_iff_toNat_lt.1 hlt
    have hb' : b.span ∈ cut := hc.chain.subset (List.mem_map_of_mem hb)
    obtain ⟨pre, post, rfl⟩ := List.append_of_mem hx
    have hstop := List.pairwise_append.1 hcut.pieces.stop_le_start
    have hstart := List.pairwise_append.1 hcut.pieces.start_lt
    show b.span.2 ≤ new.span.1
    rw [hnew]
    rcases List.mem_append.1 hb' with hmem | hmem
    · exact hstop.2.2 b.span hmem x List.mem_cons_self
    · rcases List.mem_cons.1 hmem with heq | hmem
      · rw [heq] at hlt'
        exact absurd hlt' (lt_irrefl _)
      · exact absurd hlt' (List.rel_of_pairwise_cons hstart.2.1 hmem).not_gt
  · right
    obtain ⟨pre, post, hsplit⟩ := List.append_of_mem hx
    have hchain := hc.chain
    have hpieces := hcut.pieces
    rw [hsplit] at hchain hpieces
    obtain ⟨s₁, s₂, hs, hs₁, hs₂, hbefore, hafter⟩ := exists_place hpieces hchain
      fun hmem ↦ harr ((hc.mem x).1 hmem)
    obtain ⟨l₁, l₂, hl, rfl, rfl⟩ := List.map_eq_append_iff.1 hs
    have hpos := hcut.pieces.pos
    have hcutmem : ∀ a ∈ ipr.p, a.span ∈ cut := fun a ha ↦ hc.chain.subset (List.mem_map_of_mem ha)
    obtain ⟨valid, hcall, hvalid⟩ := @chainFrag_of_place new none l₁ l₂ nofun
      (fun a ha ↦ by
        have hle := hbefore a.span (List.mem_map_of_mem ha)
        have hlt := hpos a.span (hcutmem a (hl ▸ List.mem_append_left _ ha))
        refine ⟨UInt16.lt_iff_toNat_lt.2 ?_, UInt16.le_iff_toNat_le.2 ?_⟩
        · show a.span.1 < new.span.1
          rw [hnew]
          omega
        · show a.span.2 ≤ new.span.1
          rw [hnew]
          exact hle)
      (fun a ha ↦ by
        have hmem := List.mem_of_mem_head? ha
        have hle := hafter a.span (List.mem_map_of_mem hmem)
        have hlt := hpos x hx
        refine ⟨UInt16.lt_iff_toNat_lt.2 ?_, UInt16.le_iff_toNat_le.2 ?_⟩
        · show new.span.1 < a.span.1
          rw [hnew]
          omega
        · show new.span.2 ≤ a.span.1
          rw [hnew]
          exact hle)
    exact ⟨pre, post, l₁, l₂, valid, harr, hsplit, hl, hs₁, hs₂, hl ▸ hcall, hvalid⟩

/-- The last fragment has arrived, seen from one of them. -/
theorem FragCut.last_arrived_iff {pre post s₁ s₂ : List (ℕ × ℕ)} (hcut : FragCut data cut)
    (hsplit : cut = pre ++ x :: post) (hs₁ : s₁.Sublist pre) (hs₂ : s₂.Sublist post)
    (hmem : ∀ y, y ∈ s₁ ++ s₂ ↔ y ∈ arrived) :
    (∃ y ∈ arrived ++ [x], y.2 = data.length) ↔ ∀ a ∈ post.getLast?, a ∈ s₂ := by
  have hnodup := hcut.pieces.nodup
  rw [hsplit] at hnodup
  obtain ⟨-, hnodup', hdisjoint⟩ := List.nodup_append.1 hnodup
  have hlast : ∀ a ∈ post.getLast?, a ∈ cut.getLast? := by
    intro a ha
    obtain ⟨post, rfl⟩ := List.getLast?_eq_some_iff.1 ha
    rw [hsplit, ← List.cons_append, ← List.append_assoc]
    exact List.getLast?_concat
  constructor
  · rintro ⟨y, hy, hylen⟩ a ha
    have hapost : a ∈ post := List.mem_of_getLast? ha
    have hya : y = a := by
      have hycut : y ∈ cut := by
        rcases List.mem_append.1 hy with hy | hy
        · rw [hsplit]
          rcases List.mem_append.1 ((hmem y).2 hy) with hy | hy
          · exact List.mem_append_left _ (hs₁.subset hy)
          · exact List.mem_append_right _ (List.mem_cons_of_mem _ (hs₂.subset hy))
        · rw [List.mem_singleton.1 hy, hsplit]
          exact List.mem_append_right _ List.mem_cons_self
      have halen := hcut.last a (hlast a ha)
      obtain ⟨init, hinit⟩ := List.getLast?_eq_some_iff.1 (hlast a ha)
      rw [hinit] at hycut
      rcases List.mem_append.1 hycut with hy' | hy'
      · have hpieces := hcut.pieces
        rw [hinit] at hpieces
        have hle := (List.pairwise_append.1 hpieces.stop_le_start).2.2 y hy' a
          (List.mem_singleton_self a)
        have hlt := hpieces.pos a (List.mem_append_right _ (List.mem_singleton_self a))
        omega
      · exact List.mem_singleton.1 hy'
    subst hya
    have hyarr : y ∈ arrived := by
      rcases List.mem_append.1 hy with hy | hy
      · exact hy
      · exact absurd (List.mem_singleton.1 hy ▸ hapost) (List.nodup_cons.1 hnodup').1
    rcases List.mem_append.1 ((hmem y).2 hyarr) with hy' | hy'
    · exact absurd rfl (hdisjoint y (hs₁.subset hy') y (List.mem_cons_of_mem _ hapost))
    · exact hy'
  · intro hall
    cases hpost : post.getLast? with
    | none =>
      have hnil : post = [] := List.getLast?_eq_none_iff.1 hpost
      subst hnil
      refine ⟨x, List.mem_append_right _ (List.mem_singleton_self x), hcut.last x ?_⟩
      rw [hsplit]
      exact List.getLast?_concat
    | some a =>
      have ha : a ∈ s₂ := hall a hpost
      refine ⟨a, List.mem_append_left _ ((hmem a).1 (List.mem_append_right _ ha)), ?_⟩
      exact hcut.last a (hlast a hpost)

/-- **Completion, in terms of the links.** -/
theorem FragCut.completes_iff {pre post s₁ s₂ : List (ℕ × ℕ)} (hcut : FragCut data cut)
    (hx : x ∉ arrived) (hsplit : cut = pre ++ x :: post) (hs₁ : s₁.Sublist pre)
    (hs₂ : s₂.Sublist post) (hmem : ∀ y, y ∈ s₁ ++ s₂ ↔ y ∈ arrived) :
    (∃ hole, pre = s₁ ++ hole ∧ s₂ = post ∧ (hole ≠ [] → s₁ ≠ [] ∧ post ≠ [])) ↔
      Completes cut arrived x := by
  constructor
  · rintro ⟨hole, rfl, rfl, hhole⟩
    exact ⟨hx, s₁, hole, s₂, hsplit, fun y ↦ (hmem y).symm, hhole⟩
  · rintro ⟨-, pre', hole, post', hsplit', hmem', hhole⟩
    have hpieces := hcut.pieces
    have hnodup := hpieces.nodup
    rw [hsplit] at hnodup hpieces
    obtain ⟨-, hnodup', hdisjoint⟩ := List.nodup_append.1 hnodup
    have heq : pre ++ x :: post = (pre' ++ hole) ++ x :: post' := hsplit.symm.trans hsplit'
    obtain ⟨rfl, rfl⟩ : pre = pre' ++ hole ∧ post = post' := by
      have hxpre : x ∉ pre := fun hmem ↦ hdisjoint x hmem x List.mem_cons_self rfl
      have hsides := (List.append_cons_inj_of_notMem hxpre (List.nodup_cons.1 hnodup').1).1 heq
      exact ⟨hsides.1, hsides.2.2⟩
    have hpre : s₁ = pre' := by
      refine hpieces.of_append_left.eq_of_mem_iff hs₁ (List.sublist_append_left _ _) fun y ↦ ?_
      constructor
      · intro hy
        have harr := (hmem' y).1 ((hmem y).1 (List.mem_append_left _ hy))
        refine (List.mem_append.1 harr).resolve_right fun hpost ↦ ?_
        exact hdisjoint y (hs₁.subset hy) y (List.mem_cons_of_mem _ hpost) rfl
      · intro hy
        have harr := (hmem y).2 ((hmem' y).2 (List.mem_append_left _ hy))
        refine (List.mem_append.1 harr).resolve_right fun hpost ↦ ?_
        exact hdisjoint y (List.mem_append_left _ hy) y
          (List.mem_cons_of_mem _ (hs₂.subset hpost)) rfl
    have hpost : s₂ = post := by
      refine hpieces.of_append_right.of_cons.eq_of_mem_iff hs₂ (List.Sublist.refl _) fun y ↦ ?_
      refine ⟨fun hy ↦ hs₂.subset hy, fun hy ↦ ?_⟩
      have harr := (hmem y).2 ((hmem' y).2 (List.mem_append_right _ hy))
      refine (List.mem_append.1 harr).resolve_left fun hpre ↦ ?_
      exact hdisjoint y (hs₁.subset hpre) y (List.mem_cons_of_mem _ hy) rfl
    exact ⟨hole, by rw [hpre], hpost, fun hne ↦ hpre ▸ hhole hne⟩

/-- The chain starts at 0 if and only if it starts where the cut does. -/
theorem FragCut.head_zero_iff {pre post : List (ℕ × ℕ)} {l₁ l₂ : List ReassFrag} {new : ReassFrag}
    (hcut : FragCut data cut) (hsplit : cut = pre ++ x :: post) (hnew : new.span = x) :
    ((l₁ ++ new :: l₂).map ReassFrag.start).headD 0 = 0 ↔
      ∀ b ∈ (l₁.map ReassFrag.span ++ [x]).head?, ∀ a ∈ (pre ++ [x]).head?, b.1 = a.1 := by
  obtain ⟨a, ha, ha'⟩ : ∃ a, (pre ++ [x]).head? = some a ∧ a ∈ cut.head? := by
    rw [hsplit]
    cases pre with
    | nil => exact ⟨x, rfl, rfl⟩
    | cons a pre => exact ⟨a, rfl, rfl⟩
  have hzero : ∀ f : ReassFrag, f.start = 0 ↔ f.span.1 = a.1 := by
    intro f
    rw [hcut.first a ha', ← UInt16.toNat_inj]
    rfl
  rw [ha]
  cases l₁ with
  | nil =>
    show new.start = 0 ↔ ∀ b ∈ some x, ∀ a' ∈ some a, b.1 = a'.1
    rw [hzero, hnew]
    simp
  | cons f l₁ =>
    show f.start = 0 ↔ ∀ b ∈ some f.span, ∀ a' ∈ some a, b.1 = a'.1
    rw [hzero]
    simp

/-- The flag and the length after a fragment. -/
theorem IpReassdata.Collects.noteLast (hc : ipr.Collects h data cut arrived)
    (hcut : FragCut data cut) (hx : x ∈ cut) (hf : IsFragment h data x p) :
    let ipr' := ipr.noteLast (payloadData p)
    (ipr'.lastfrag = true ↔ ∃ y ∈ arrived ++ [x], y.2 = data.length) ∧
      (ipr'.lastfrag = true → ipr'.datagramLen.toNat = data.length) := by
  obtain ⟨-, -, hspan, hmore, -, -⟩ := hf.fields hcut hx
  have hstop : (fragBlock (payloadData p) * 8 + fragLen (payloadData p)).toNat = x.2 :=
    congrArg Prod.snd hspan
  rw [IpReassdata.noteLast, hmore]
  by_cases hlt : x.2 < data.length
  · rw [if_pos (decide_eq_true hlt)]
    refine ⟨hc.last.trans ⟨?_, ?_⟩, hc.len⟩
    · rintro ⟨y, hy, hlen⟩
      exact ⟨y, List.mem_append_left _ hy, hlen⟩
    rintro ⟨y, hy, hlen⟩
    rcases List.mem_append.1 hy with hy | hy
    · exact ⟨y, hy, hlen⟩
    · rw [List.mem_singleton.1 hy] at hlen
      omega
  · have heq : x.2 = data.length := le_antisymm (hcut.le_length hx) (Nat.not_lt.1 hlt)
    rw [if_neg (by simpa using hlt)]
    refine ⟨iff_of_true rfl ⟨x, ?_, heq⟩, fun _ ↦ hstop.trans heq⟩
    exact List.mem_append_right _ (List.mem_singleton_self x)

/-- A fragment that is there already. -/
theorem IpReassdata.Collects.again (hc : ipr.Collects h data cut arrived) (harr : x ∈ arrived)
    {ipr' : IpReassdata} (hp : ipr'.p = ipr.p) (hhdr : ipr'.iphdr = ipr.iphdr)
    (hlast : ipr'.lastfrag = true ↔ ∃ y ∈ arrived ++ [x], y.2 = data.length)
    (hlen : ipr'.lastfrag = true → ipr'.datagramLen.toNat = data.length) :
    ipr'.Collects h data cut (arrived ++ [x]) := by
  refine ⟨hp ▸ hc.chain, fun y ↦ ?_, hp ▸ hc.frag, hhdr ▸ hc.hdr, hlast, hlen⟩
  rw [hp, hc.mem, List.mem_append, List.mem_singleton]
  exact ⟨.inl, fun hy ↦ hy.elim id fun heq ↦ heq ▸ harr⟩

/-- A fragment put in its place. -/
theorem IpReassdata.Collects.insert (hc : ipr.Collects h data cut arrived)
    {pre post : List (ℕ × ℕ)} {l₁ l₂ : List ReassFrag} {new : ReassFrag}
    (hsplit : cut = pre ++ x :: post) (hl : ipr.p = l₁ ++ l₂)
    (hs₁ : (l₁.map ReassFrag.span).Sublist pre) (hs₂ : (l₂.map ReassFrag.span).Sublist post)
    (hspan : new.span = x) (hf : IsFragment h data x new.p) {ipr' : IpReassdata}
    (hp : ipr'.p = l₁ ++ new :: l₂) (hhdr : ipr'.iphdr = ipr.iphdr)
    (hlast : ipr'.lastfrag = true ↔ ∃ y ∈ arrived ++ [x], y.2 = data.length)
    (hlen : ipr'.lastfrag = true → ipr'.datagramLen.toNat = data.length) :
    ipr'.Collects h data cut (arrived ++ [x]) := by
  have hmap : (l₁ ++ new :: l₂).map ReassFrag.span =
      l₁.map ReassFrag.span ++ x :: l₂.map ReassFrag.span := by
    rw [List.map_append, List.map_cons, hspan]
  refine ⟨?_, fun y ↦ ?_, fun f hf' ↦ ?_, hhdr ▸ hc.hdr, hlast, hlen⟩
  · rw [hp, hmap, hsplit]
    exact hs₁.append (hs₂.cons_cons x)
  · rw [hp, hmap, List.mem_append, List.mem_append, List.mem_singleton, ← hc.mem, hl,
      List.map_append, List.mem_append, List.mem_cons, or_comm (a := y = x), or_assoc]
  · rw [hp] at hf'
    rcases List.mem_append.1 hf' with hf' | hf'
    · exact hc.frag f (hl ▸ List.mem_append_left _ hf')
    · rcases List.mem_cons.1 hf' with rfl | hf'
      · rw [hspan]
        exact hf
      · exact hc.frag f (hl ▸ List.mem_append_right _ hf')

/-- **A fragment that arrives** is kept, and the datagram is complete when it completes it. -/
theorem IpReassdata.Collects.add (hc : ipr.Collects h data cut arrived) (hcut : FragCut data cut)
    (hx : x ∈ cut) (hf : IsFragment h data x p) :
    (ipr.add p).2.Collects h data cut (arrived ++ [x]) ∧
      ((ipr.add p).1 = .complete ↔ Completes cut arrived x) := by
  obtain ⟨-, -, hspan, -, -, -⟩ := hf.fields hcut hx
  obtain ⟨hp', hhdr', -⟩ := ipr.noteLast_fields (payloadData p)
  obtain ⟨hlast', hlen'⟩ := hc.noteLast hcut hx hf
  obtain ⟨ipr', hipr'⟩ : ∃ ipr', ipr.noteLast (payloadData p) = ipr' := ⟨_, rfl⟩
  obtain ⟨new, hnew⟩ : ∃ new, newFrag p = new := ⟨_, rfl⟩
  have hnewspan : new.span = x := hnew ▸ hspan
  have hnewp : new.p = p := hnew ▸ rfl
  rw [hipr'] at hp' hhdr' hlast' hlen'
  rw [IpReassdata.add]
  simp only [hipr', hnew, hp']
  rcases hc.place hcut hx hnewspan with
    ⟨harr, hcall⟩ | ⟨pre, post, l₁, l₂, valid, hnarr, hsplit, hl, hs₁, hs₂, hcall, hvalid⟩
  · rw [hcall]
    refine ⟨hc.again harr hp' hhdr' hlast' hlen', ?_⟩
    exact iff_of_false (fun hfate ↦ by cases hfate) fun hcomplete ↦ hcomplete.1 harr
  · rw [hcall]
    refine ⟨hc.insert hsplit hl hs₁ hs₂ hnewspan (hnewp.symm ▸ hf) rfl hhdr' hlast' hlen', ?_⟩
    -- the four things looked at are the links around the fragment
    have hmem : ∀ y, y ∈ l₁.map ReassFrag.span ++ l₂.map ReassFrag.span ↔ y ∈ arrived := by
      intro y
      rw [← List.map_append, ← hl, hc.mem]
    have hfate : ∀ b : Bool, (if b = true then FragFate.complete else .queued) = .complete ↔
        b = true := by decide
    have hends : chainEnds new l₂ = true ↔
        Linked Prod.fst Prod.snd (x :: l₂.map ReassFrag.span) := by
      rw [chainEnds_iff, ChainLinked, List.map_cons, hnewspan]
    have hvalid' : valid = true ↔ Linked Prod.fst Prod.snd (l₁.map ReassFrag.span) ∧
        (l₂.map ReassFrag.span = [] →
          Linked Prod.fst Prod.snd (l₁.map ReassFrag.span ++ [x])) := by
      rw [hvalid, ChainLinked, ChainLinked, List.map_append, List.map_singleton, hnewspan,
        List.map_eq_nil_iff]
    dsimp only
    rw [hfate, Bool.and_eq_true, Bool.and_eq_true, Bool.and_eq_true, decide_eq_true_iff, hlast',
      hcut.last_arrived_iff hsplit hs₁ hs₂ hmem, hvalid', hcut.head_zero_iff hsplit hnewspan,
      hends, ← hcut.completes_iff hnarr hsplit hs₁ hs₂ hmem,
      ← linked_around_iff (hsplit ▸ hcut.pieces) hs₁ hs₂]
    constructor
    · rintro ⟨⟨⟨hlast, hbefore, hend⟩, hfirst⟩, hafter⟩
      exact ⟨hbefore, hend, hfirst, hafter, hlast⟩
    · rintro ⟨hbefore, hend, hfirst, hafter, hlast⟩
      exact ⟨⟨⟨hlast, hbefore, hend⟩, hfirst⟩, hafter⟩

/-- The checksum of a header is the one `ip_output_if` has computed. -/
theorem inetChksum_ipHdr (addr : UInt32) (h : IpHdr) :
    inetChksum addr (h.bytes 0) = ipChksumInline h := by
  have hlen : (h.bytes 0).length < 65536 := show 20 < 65536 by decide
  exact UInt16.toNat_inj.1 ((toNat_inetChksum addr hlen).trans (toNat_ipChksumInline h).symm)

theorem chainData_append (p q : List PbufPart) : chainData (p ++ q) = chainData p ++ chainData q :=
  List.flatMap_append

/-- **The packet of a complete datagram**: the header the packet was sent with, and what the
fragments hold. -/
theorem IpReassdata.Collects.packet (hc : ipr.Collects h data cut arrived) (hcut : FragCut data cut)
    (hlen : h.len.toNat = data.length + 20) (hlast : ipr.lastfrag = true) (hne : ipr.p ≠ []) :
    chainData ipr.packet = h.bytes (ipChksumInline h) ++
      (ipr.p.map ReassFrag.span).flatMap (slice data) := by
  have hfits := hcut.fits
  have htwenty : (UInt16.ofNat ipHlen).toNat = 20 := rfl
  have hdatagramLen : ipr.datagramLen + UInt16.ofNat ipHlen = h.len := by
    refine UInt16.toNat_inj.1 ?_
    rw [UInt16.toNat_add, hc.len hlast, htwenty, hlen]
    exact Nat.mod_eq_of_lt (by omega)
  obtain ⟨len₀, offset₀, chksum₀, hhdr⟩ := hc.hdr
  have hset : ∀ chksum, setHdr ipr.iphdr h.len 0 chksum = h.bytes chksum := by
    intro chksum
    have hzero : netBytes 0 = [0, 0] := by decide
    rw [hhdr, setHdr_bytes, IpHdr.bytes, ← hzero]
    simp [setHdr, netBytes, leBytes, addrBytes]
  have hspan : ∀ f ∈ ipr.p, f.span ∈ cut := fun f hf ↦ hc.chain.subset (List.mem_map_of_mem hf)
  -- each fragment but the first without its header
  have hrest : ∀ l : List ReassFrag, (∀ f ∈ l, f ∈ ipr.p) →
      chainData (l.flatMap fun r ↦ (pbufHide ipHlen r.p).getD r.p) =
        (l.map ReassFrag.span).flatMap (slice data) := by
    intro l hl
    induction l with
    | nil => rfl
    | cons f l ih =>
      have hf := hc.frag f (hl f List.mem_cons_self)
      obtain ⟨-, -, -, -, -, hslice⟩ := hf.fields hcut (hspan f (hl f List.mem_cons_self))
      obtain ⟨p', hhide, hchain, -⟩ := pbufHide_spec hf.first (by decide : 0 < 20)
      have hhide' : pbufHide ipHlen f.p = some p' := hhide
      rw [List.flatMap_cons, chainData_append, List.map_cons, List.flatMap_cons, ← hslice,
        ih fun f' hf' ↦ hl f' (List.mem_cons_of_mem _ hf'), hhide', Option.getD_some, hchain]
      rfl
  rw [IpReassdata.packet, hdatagramLen]
  cases hp : ipr.p with
  | nil => exact absurd hp hne
  | cons f rest =>
    have hmem : f ∈ ipr.p := hp ▸ List.mem_cons_self
    have hf := hc.frag f hmem
    obtain ⟨-, -, -, -, -, hslice⟩ := hf.fields hcut (hspan f hmem)
    dsimp only
    rw [hset, hset, inetChksum_ipHdr, chainData_append, hrest rest fun f' hf' ↦ by
      rw [hp]
      exact List.mem_cons_of_mem _ hf', List.map_cons, List.flatMap_cons, ← List.append_assoc]
    have hhdrlen : (h.bytes (ipChksumInline h)).length = 20 := rfl
    obtain ⟨hwrite, -⟩ := @writeFront_spec f.p (h.bytes (ipChksumInline h))
      (by rw [hhdrlen]; exact hf.first) (by rw [hhdrlen]; decide)
    rw [hwrite, hhdrlen, ← hslice]
    rfl

end Datagram

end YHAudioLink
