import YHAudioLink.Foundation.Runs
import YHAudioLink.Lwip.IpReass

/-!
# The reassembly queue over runs

What holds of the queue of `ip_reass` whatever fragments come in and however long they take, up to a
call that leaves an element in the list that it has freed (`ipReass_bounded`). The invariant is
`IpReass.Inv`: the count of `pbuf`s is right, the pool and the queue have all elements between them,
keys are distinct, and the datagrams are in the order of their age.

There are three things done to the queue, and each keeps the invariant: a datagram takes the place
of another (`IpReass.Inv.replace`), one is taken out (`IpReass.Inv.erase`), or a new one is put in
front (`IpReass.Inv.enqueueNew`). Making room and the timer take out some datagrams one by one.

When `ip_reass_remove_oldest_datagram` gives a datagram up, it passes the element before the last
one in the list for its predecessor (`scanOldest_prev`). By the order of age the datagram given up
is the last one of the others (`scanOldest_oldest_eq`). So it is unlinked unless the last one is the
fragment's own, with two or more in front of it (`freesLinked`); then it is freed and the list goes
on through it. No run of the model goes beyond such a call, and `IpReass.Inv.ipReass_eq_none_iff`
says which calls these are.
-/

namespace YHAudioLink

open Runs

/-! ### The queue in order -/

/-- The `pbuf`s in the queue. -/
def queuedPbufs (l : List IpReassdata) : ℕ := (l.map IpReassdata.pbufs).sum

/-- What holds of the queue between two calls, and while one is at work in it. -/
structure IpReass.Inv (s : IpReass) : Prop where
  count : s.pbufcount.toNat = queuedPbufs s.reassdatagrams
  bound : queuedPbufs s.reassdatagrams ≤ ipReassMaxPbufs
  pool : s.free + s.reassdatagrams.length = mempNumReassdata
  keys : (s.reassdatagrams.map fun r ↦ reassKey r.iphdr).Nodup
  timers : (s.reassdatagrams.map IpReassdata.timer).Pairwise fun t u ↦ u ≤ t
  good : ∀ r ∈ s.reassdatagrams, r.Good

/-- No datagram in the queue is empty. -/
def IpReass.Filled (s : IpReass) : Prop := ∀ r ∈ s.reassdatagrams, r.p ≠ []

section Queue

variable {s : IpReass} {l l₁ l₂ : List IpReassdata} {ipr ipr₀ : IpReassdata} {p : List PbufPart}

theorem queuedPbufs_middle (l₁ l₂ : List IpReassdata) (r : IpReassdata) :
    queuedPbufs (l₁ ++ r :: l₂) = queuedPbufs (l₁ ++ l₂) + r.pbufs := by
  simp only [queuedPbufs, List.map_append, List.map_cons, List.sum_append, List.sum_cons]
  omega

theorem queuedPbufs_le_of_sublist (h : l₁.Sublist l₂) : queuedPbufs l₁ ≤ queuedPbufs l₂ := by
  induction h with
  | slnil => exact le_rfl
  | cons r _ ih => exact ih.trans (Nat.le_add_left _ _)
  | cons_cons r _ ih => exact Nat.add_le_add_left ih _

/-- What is before a datagram in the queue and what is behind it. -/
theorem eq_take_cons_drop {i : ℕ} (h : l[i]? = some ipr) :
    l = l.take i ++ ipr :: l.drop (i + 1) := by
  obtain ⟨_, rfl⟩ := List.getElem?_eq_some_iff.1 h
  rw [List.getElem_cons_drop, List.take_append_drop]

/-- A datagram in the place of another with the same key and the same timer. -/
theorem IpReass.Inv.replace (hs : s.Inv) (hl : s.reassdatagrams = l₁ ++ ipr₀ :: l₂)
    (hgood : ipr.Good) (htimer : ipr.timer = ipr₀.timer)
    (hkey : reassKey ipr.iphdr = reassKey ipr₀.iphdr) {count : UInt16}
    (hcount : count.toNat = queuedPbufs (l₁ ++ ipr :: l₂))
    (hbound : queuedPbufs (l₁ ++ ipr :: l₂) ≤ ipReassMaxPbufs) :
    (⟨l₁ ++ ipr :: l₂, s.free, count⟩ : IpReass).Inv := by
  obtain ⟨-, -, hpool, hkeys, htimers, hgoods⟩ := hs
  rw [hl] at hpool hkeys htimers hgoods
  refine ⟨hcount, hbound, ?_, ?_, ?_, fun r hr ↦ ?_⟩
  · rw [← hpool]
    simp
  · simpa [hkey] using hkeys
  · rw [List.map_append, List.map_cons, htimer]
    rwa [List.map_append, List.map_cons] at htimers
  · rcases List.mem_append.1 hr with hr | hr
    · exact hgoods r (List.mem_append_left _ hr)
    · rcases List.mem_cons.1 hr with rfl | hr
      · exact hgood
      · exact hgoods r (List.mem_append_right _ (List.mem_cons_of_mem _ hr))

/-- A datagram taken out, and its `pbuf`s no longer counted. -/
theorem IpReass.Inv.erase (hs : s.Inv) (hl : s.reassdatagrams = l₁ ++ ipr :: l₂) {n : UInt16}
    (hn : n.toNat = ipr.pbufs) : (⟨l₁ ++ l₂, s.free + 1, s.pbufcount - n⟩ : IpReass).Inv := by
  have hsum := queuedPbufs_middle l₁ l₂ ipr
  have hsub : (l₁ ++ l₂).Sublist (l₁ ++ ipr :: l₂) := (List.sublist_cons_self ipr l₂).append_left l₁
  obtain ⟨hcount, hbound, hpool, hkeys, htimers, hgoods⟩ := hs
  rw [hl] at hcount hbound hpool hkeys htimers hgoods
  have hle : n ≤ s.pbufcount := UInt16.le_iff_toNat_le.2 (by omega)
  refine ⟨?_, ?_, ?_, hkeys.sublist (hsub.map _), htimers.sublist (hsub.map _),
    fun r hr ↦ hgoods r (hsub.subset hr)⟩
  · dsimp only
    rw [UInt16.toNat_sub_of_le _ _ hle]
    omega
  · dsimp only
    omega
  · rw [← hpool]
    simp
    omega

/-- A datagram given up. -/
theorem IpReass.Inv.evict (hs : s.Inv) (hl : s.reassdatagrams = l₁ ++ ipr :: l₂) :
    (⟨l₁ ++ l₂, s.free + 1, s.pbufcount - ipr.freeComplete.1⟩ : IpReass).Inv := by
  have hmax : ipReassMaxPbufs = 10 := rfl
  have hgood := hs.good ipr (by rw [hl]; exact List.mem_append_right _ List.mem_cons_self)
  have hsum := queuedPbufs_middle l₁ l₂ ipr
  have hbound := hs.bound
  rw [hl] at hbound
  exact hs.erase hl (IpReassdata.toNat_freeComplete hgood (by omega))

/-- A fragment put in, and the datagram taken out if it is complete. -/
theorem IpReass.Inv.addTo (hs : s.Inv) (hl : s.reassdatagrams = l₁ ++ ipr₀ :: l₂)
    (hother : ∀ r ∈ l₁ ++ l₂, r.p ≠ []) (hchain : ipr.p = ipr₀.p) (htimer : ipr.timer = ipr₀.timer)
    (hkey : reassKey ipr.iphdr = reassKey ipr₀.iphdr) (hp : p.length < 256)
    (hroom : queuedPbufs s.reassdatagrams + p.length ≤ ipReassMaxPbufs)
    (exceeded : List (List PbufPart)) :
    (s.addTo l₁.length ipr p exceeded).s.Inv ∧ (s.addTo l₁.length ipr p exceeded).s.Filled := by
  have hmax : ipReassMaxPbufs = 10 := rfl
  have hgood₀ := hs.good ipr₀ (by rw [hl]; exact List.mem_append_right _ List.mem_cons_self)
  have hgood : ipr.Good :=
    ⟨hchain ▸ hgood₀.ascending, htimer ▸ hgood₀.timer, hchain ▸ hgood₀.clen⟩
  have hpbufs : ipr.pbufs = ipr₀.pbufs := by rw [IpReassdata.pbufs, IpReassdata.pbufs, hchain]
  have hcount := hs.count
  have hsum := queuedPbufs_middle l₁ l₂ ipr₀
  rw [hl] at hcount hroom
  have hclen := toNat_pbufClen hp
  have hadded : (s.pbufcount + (pbufClen p).toUInt16).toNat =
      queuedPbufs (l₁ ++ ipr₀ :: l₂) + p.length := by
    rw [UInt16.toNat_add, hclen, hcount]
    exact Nat.mod_eq_of_lt (by omega)
  obtain ⟨hgood', hhdr', htimer', hfate⟩ := IpReassdata.add_spec hgood hp
  rcases hadd : ipr.add p with ⟨fate, ipr'⟩
  rw [hadd] at hgood' hhdr' htimer' hfate
  dsimp only at hgood' hhdr' htimer' hfate
  have hsum' := queuedPbufs_middle l₁ l₂ ipr'
  have hset : s.reassdatagrams.set l₁.length ipr' = l₁ ++ ipr' :: l₂ := by simp [hl]
  have hkey' : reassKey ipr'.iphdr = reassKey ipr₀.iphdr := by rw [hhdr', hkey]
  have hfilled : ipr'.p ≠ [] → ∀ r ∈ l₁ ++ ipr' :: l₂, r.p ≠ [] := by
    intro hne r hr
    rcases List.mem_append.1 hr with hr | hr
    · exact hother r (List.mem_append_left _ hr)
    · rcases List.mem_cons.1 hr with rfl | hr
      · exact hne
      · exact hother r (List.mem_append_right _ hr)
  rw [IpReass.addTo, hadd]
  rcases hfate with ⟨rfl, hne, hsame⟩ | ⟨hnot, hne, hmore⟩
  · -- the fragment is dropped, and what has been counted for it is taken back
    have hpbufs' : ipr'.pbufs = ipr.pbufs := by rw [IpReassdata.pbufs, hsame]; rfl
    have hback : s.pbufcount + (pbufClen p).toUInt16 - (pbufClen p).toUInt16 = s.pbufcount :=
      UInt16.add_sub_cancel _ _
    dsimp only
    rw [hset, hback]
    exact ⟨hs.replace hl hgood' (htimer'.trans htimer) hkey' (by omega) (by omega),
      hfilled (hsame ▸ hne)⟩
  · have hinv : (⟨l₁ ++ ipr' :: l₂, s.free, s.pbufcount + (pbufClen p).toUInt16⟩ : IpReass).Inv :=
      hs.replace hl hgood' (htimer'.trans htimer) hkey' (by omega) (by omega)
    cases fate with
    | freed => exact absurd rfl hnot
    | queued =>
      dsimp only
      rw [hset]
      exact ⟨hinv, hfilled hne⟩
    | complete =>
      have herase : s.reassdatagrams.eraseIdx l₁.length = l₁ ++ l₂ := by
        rw [hl, List.eraseIdx_append_of_length_le le_rfl, Nat.sub_self, List.eraseIdx_cons_zero]
      have hpacket : (pbufClen ipr'.packet).toUInt16.toNat = ipr'.pbufs := by
        rw [toNat_pbufClen, IpReassdata.length_packet]
        rw [IpReassdata.length_packet]
        omega
      dsimp only
      rw [herase]
      exact ⟨hinv.erase rfl hpacket, hother⟩

variable {fraghdr : List UInt8}

theorem OldestScan.other_oldest (scan : OldestScan) (i : ℕ) (r : IpReassdata) :
    (scan.other i r).oldest = some (i, r) ∨ (scan.other i r).oldest = scan.oldest := by
  rw [OldestScan.other]
  dsimp only
  split
  · exact .inl rfl
  · next o ho =>
    split
    · exact .inl rfl
    · exact .inr ho.symm

theorem OldestScan.other_oldest_of_le {scan : OldestScan} {i : ℕ} {r : IpReassdata}
    (h : ∀ o, scan.oldest = some o → r.timer ≤ o.2.timer) :
    (scan.other i r).oldest = some (i, r) := by
  rw [OldestScan.other]
  dsimp only
  split
  · rfl
  · next o ho => exact if_pos (h o ho)

/-- Noting a predecessor changes nothing else. -/
theorem OldestScan.note_fields (scan : OldestScan) (b : Prop) [Decidable b] (i : ℕ) :
    (if b then { scan with prev := some i } else scan).oldest = scan.oldest ∧
      (if b then { scan with prev := some i } else scan).otherDatagrams =
        scan.otherDatagrams := by
  split <;> exact ⟨rfl, rfl⟩

/-- What the scan finds is in the list, and of another datagram than the fragment. -/
theorem scanOldest_oldest {i j : ℕ} {scan : OldestScan} {o : IpReassdata}
    (h : (scanOldest fraghdr i scan l).oldest = some (j, o)) :
    scan.oldest = some (j, o) ∨
      ∃ k, j = i + k ∧ l[k]? = some o ∧ reassKey o.iphdr ≠ reassKey fraghdr := by
  induction l generalizing i scan with
  | nil => exact .inl h
  | cons r rs ih =>
    rw [scanOldest] at h
    rcases ih h with hscan | ⟨k, rfl, hk, hkey⟩
    · rw [(OldestScan.note_fields _ _ i).1] at hscan
      split at hscan
      · next hkey =>
        rcases scan.other_oldest i r with hnew | hsame
        · obtain ⟨rfl, rfl⟩ := Prod.mk.inj (Option.some.inj (hnew.symm.trans hscan))
          exact .inr ⟨0, rfl, rfl, hkey⟩
        · exact .inl (hsame.symm.trans hscan)
      · exact .inl hscan
    · exact .inr ⟨k + 1, by omega, hk, hkey⟩

/-- **Making room** leaves the queue in order, with some of its datagrams. -/
theorem IpReass.Inv.removeOldest (hs : s.Inv) {n freed : ℕ} {exceeded : List (List PbufPart)}
    {s' : IpReass} (h : removeOldest fraghdr n s = some (freed, exceeded, s')) :
    s'.Inv ∧ s'.reassdatagrams.Sublist s.reassdatagrams := by
  induction hlen : s.reassdatagrams.length using Nat.strong_induction_on
    generalizing s n freed exceeded s' with
  | _ len ih =>
    rw [YHAudioLink.removeOldest] at h
    split at h
    · obtain ⟨-, -, rfl⟩ := h
      exact ⟨hs, List.Sublist.refl _⟩
    · next i oldest holdest =>
      obtain ⟨k, hk, hget, -⟩ :=
        (scanOldest_oldest holdest).resolve_left (Option.some_ne_none _).symm
      rw [Nat.zero_add] at hk
      subst hk
      have hl := eq_take_cons_drop hget
      split at h
      · cases h
      · next rest hrest =>
        have hrest' : rest = s.reassdatagrams.take i ++ s.reassdatagrams.drop (i + 1) := by
          rw [dequeueDatagram] at hrest
          split at hrest
          · rw [← Option.some.inj hrest, List.eraseIdx_eq_take_drop_succ]
          · cases hrest
        have hnext := hs.evict hl
        rw [← hrest'] at hnext
        have hsub : rest.Sublist s.reassdatagrams := by
          rw [hrest']
          conv_rhs => rw [hl]
          exact (List.sublist_cons_self _ _).append_left _
        dsimp only at h
        split at h
        · obtain ⟨⟨freed', exceeded', s''⟩, hcall, heq⟩ := Option.map_eq_some_iff.1 h
          obtain ⟨-, -, rfl⟩ := heq
          have hshort := length_dequeueDatagram hrest
          obtain ⟨hinv, hsub'⟩ := ih rest.length (by omega) hnext hcall rfl
          exact ⟨hinv, hsub'.trans hsub⟩
        · obtain ⟨-, -, rfl⟩ := h
          exact ⟨hnext, hsub⟩

theorem reassKey_take (fraghdr : List UInt8) : reassKey (fraghdr.take ipHlen) =
    reassKey fraghdr := by
  rw [reassKey, reassKey, fieldU32_take (by decide), fieldU32_take (by decide),
    fieldU16_take (by decide)]

/-- A datagram that is not in the queue is put in front. -/
theorem IpReass.Inv.enqueueNew (hs : s.Inv) (hfree : s.free ≠ 0)
    (hkeys : ∀ r ∈ s.reassdatagrams, reassKey r.iphdr ≠ reassKey fraghdr) :
    (⟨newDatagram fraghdr :: s.reassdatagrams, s.free - 1, s.pbufcount⟩ : IpReass).Inv := by
  have hpool := hs.pool
  refine ⟨?_, ?_, ?_, ?_, ?_, ?_⟩
  · exact hs.count.trans (Nat.zero_add _).symm
  · exact (Nat.zero_add _).le.trans hs.bound
  · rw [List.length_cons]
    dsimp only
    omega
  · refine List.nodup_cons.2 ⟨fun hmem ↦ ?_, hs.keys⟩
    obtain ⟨r, hr, hkey⟩ := List.mem_map.1 hmem
    exact hkeys r hr (hkey.trans (reassKey_take fraghdr))
  · refine .cons (fun t ht ↦ ?_) hs.timers
    obtain ⟨r, hr, rfl⟩ := List.mem_map.1 ht
    exact (hs.good r hr).timer
  · intro r hr
    rcases List.mem_cons.1 hr with rfl | hr
    · exact ⟨.nil, UInt8.le_refl _, nofun⟩
    · exact hs.good r hr

/-- `ip_reass` where there is room for the fragment. -/
theorem IpReass.Inv.enqueue (hs : s.Inv) (hfilled : s.Filled) (hp : p.length < 256)
    (hroom : queuedPbufs s.reassdatagrams + p.length ≤ ipReassMaxPbufs)
    {exceeded : List (List PbufPart)} {r : ReassResult} (h : s.enqueue p exceeded = some r) :
    r.s.Inv ∧ r.s.Filled := by
  have hnew : ∀ {s : IpReass} {exceeded : List (List PbufPart)}, s.Inv → s.Filled → s.free ≠ 0 →
      (∀ d ∈ s.reassdatagrams, reassKey d.iphdr ≠ reassKey (payloadData p)) →
      queuedPbufs s.reassdatagrams + p.length ≤ ipReassMaxPbufs →
      let new := newDatagram (payloadData p)
      let s' : IpReass := ⟨new :: s.reassdatagrams, s.free - 1, s.pbufcount⟩
      (s'.addTo 0 new p exceeded).s.Inv ∧ (s'.addTo 0 new p exceeded).s.Filled := by
    intro s exceeded hs hfilled hfree hkeys hroom
    refine @IpReass.Inv.addTo _ [] _ _ _ _ (hs.enqueueNew hfree hkeys) rfl hfilled rfl rfl rfl hp ?_
      _
    exact (congrArg (· + p.length) (Nat.zero_add _)).le.trans hroom
  rw [IpReass.enqueue] at h
  dsimp only at h
  split at h
  · next i hfind =>
    obtain ⟨ipr, hget, rfl⟩ := Option.map_eq_some_iff.1 h
    obtain ⟨hlt, hval⟩ := List.getElem?_eq_some_iff.1 hget
    obtain ⟨_, hmatch, -⟩ := List.findIdx?_eq_some_iff_getElem.1 hfind
    have hkey : reassKey ipr.iphdr = reassKey (payloadData p) := by
      rw [hval] at hmatch
      exact of_decide_eq_true hmatch
    have hl := eq_take_cons_drop hget
    have hlen : (s.reassdatagrams.take i).length = i := List.length_take_of_le hlt.le
    have hupdate : (ipr.updateHdr (payloadData p)).p = ipr.p ∧
        (ipr.updateHdr (payloadData p)).timer = ipr.timer ∧
        reassKey (ipr.updateHdr (payloadData p)).iphdr = reassKey ipr.iphdr := by
      rw [IpReassdata.updateHdr]
      split
      · exact ⟨rfl, rfl, (reassKey_take _).trans hkey.symm⟩
      · exact ⟨rfl, rfl, rfl⟩
    obtain ⟨hchain, htimer, hkey'⟩ := hupdate
    have hother : ∀ r ∈ s.reassdatagrams.take i ++ s.reassdatagrams.drop (i + 1), r.p ≠ [] := by
      intro r hr
      rcases List.mem_append.1 hr with hr | hr
      · exact hfilled r (List.mem_of_mem_take hr)
      · exact hfilled r (List.mem_of_mem_drop hr)
    have hadd := hs.addTo hl hother hchain htimer hkey' hp hroom exceeded
    rwa [hlen] at hadd
  · next hfind =>
    have hkeys : ∀ d ∈ s.reassdatagrams, reassKey d.iphdr ≠ reassKey (payloadData p) := by
      simpa using hfind
    split at h
    · next hfree =>
      obtain rfl := Option.some.inj h
      exact hnew hs hfilled hfree hkeys hroom
    · split at h
      · cases h
      · next freed exceeded' s' hremove =>
        obtain ⟨hs', hsub⟩ := hs.removeOldest hremove
        have hfilled' : s'.Filled := fun d hd ↦ hfilled d (hsub.subset hd)
        split at h
        · next hroom' =>
          obtain rfl := Option.some.inj h
          exact hnew hs' hfilled' hroom'.2 (fun d hd ↦ hkeys d (hsub.subset hd))
            ((Nat.add_le_add_right (queuedPbufs_le_of_sublist hsub) _).trans hroom)
        · obtain rfl := Option.some.inj h
          exact ⟨hs', hfilled'⟩

/-- **A fragment** leaves the queue in order. -/
theorem IpReass.Inv.ipReass (hs : s.Inv) (hfilled : s.Filled) (hp : p.length < 256)
    {r : ReassResult} (h : ipReass s p = some r) : r.s.Inv ∧ r.s.Filled := by
  have hclen : (pbufClen p).toNat = p.length := by
    rw [← toNat_pbufClen hp, UInt8.toNat_toUInt16]
  rw [YHAudioLink.ipReass] at h
  simp only [hclen] at h
  split at h
  · obtain rfl := Option.some.inj h
    exact ⟨hs, hfilled⟩
  · split at h
    · split at h
      · cases h
      · next freed exceeded s' hremove =>
        obtain ⟨hs', hsub⟩ := hs.removeOldest hremove
        have hfilled' : s'.Filled := fun d hd ↦ hfilled d (hsub.subset hd)
        split at h
        · obtain rfl := Option.some.inj h
          exact ⟨hs', hfilled'⟩
        · next hroom =>
          have hroom' := Nat.not_lt.1 (not_or.1 hroom).2
          rw [hs'.count] at hroom'
          exact hs'.enqueue hfilled' hp hroom' h
    · next hroom =>
      have hroom' := Nat.not_lt.1 hroom
      rw [hs.count] at hroom'
      exact hs.enqueue hfilled hp hroom' h

/-! ### The timer -/

theorem toNat_timer_sub_one {t : UInt8} (h : 0 < t) : (t - 1).toNat = t.toNat - 1 := by
  have hnat : 0 < t.toNat := UInt8.lt_iff_toNat_lt.1 h
  exact UInt8.toNat_sub_of_le _ _ (UInt8.le_iff_toNat_le.2 hnat)

theorem mem_reassTmr_kept {l : List IpReassdata} {r : IpReassdata} (h : r ∈ (reassTmr l).1) :
    ∃ r' ∈ l, 0 < r'.timer ∧ r = { r' with timer := r'.timer - 1 } := by
  induction l with
  | nil => cases h
  | cons r₀ rs ih =>
    rw [reassTmr] at h
    dsimp only at h
    split at h
    · next hpos =>
      rcases List.mem_cons.1 h with rfl | h
      · exact ⟨r₀, List.mem_cons_self, hpos, rfl⟩
      · obtain ⟨r', hr', hrest⟩ := ih h
        exact ⟨r', List.mem_cons_of_mem _ hr', hrest⟩
    · obtain ⟨r', hr', hrest⟩ := ih h
      exact ⟨r', List.mem_cons_of_mem _ hr', hrest⟩

theorem reassTmr_split (l : List IpReassdata) :
    ((reassTmr l).1.map fun r ↦ reassKey r.iphdr).Sublist (l.map fun r ↦ reassKey r.iphdr) ∧
      (reassTmr l).1.length + (reassTmr l).2.length = l.length ∧
      queuedPbufs (reassTmr l).1 + queuedPbufs (reassTmr l).2 = queuedPbufs l ∧
      (reassTmr l).2.Sublist l := by
  induction l with
  | nil => exact ⟨.slnil, rfl, rfl, .slnil⟩
  | cons r rs ih =>
    obtain ⟨hkeys, hlen, hsum, hsub⟩ := ih
    rw [reassTmr]
    dsimp only
    split
    · refine ⟨hkeys.cons_cons _, ?_, ?_, hsub.cons _⟩
      · simp only [List.length_cons]
        omega
      · simp only [queuedPbufs, List.map_cons, List.sum_cons] at hsum ⊢
        rw [← hsum]
        exact Nat.add_assoc _ _ _
    · refine ⟨hkeys.cons _, ?_, ?_, hsub.cons_cons _⟩
      · simp only [List.length_cons]
        omega
      · simp only [queuedPbufs, List.map_cons, List.sum_cons] at hsum ⊢
        omega

theorem reassTmr_timers {l : List IpReassdata}
    (h : (l.map IpReassdata.timer).Pairwise fun t u ↦ u ≤ t) :
    ((reassTmr l).1.map IpReassdata.timer).Pairwise fun t u ↦ u ≤ t := by
  induction l with
  | nil => exact .nil
  | cons r rs ih =>
    rw [List.map_cons] at h
    rw [reassTmr]
    dsimp only
    split
    · next hpos =>
      refine .cons (fun t ht ↦ ?_) (ih h.of_cons)
      obtain ⟨r', hr', rfl⟩ := List.mem_map.1 ht
      obtain ⟨r₀, hr₀, hpos₀, rfl⟩ := mem_reassTmr_kept hr'
      have hle := UInt8.le_iff_toNat_le.1 (List.rel_of_pairwise_cons h (List.mem_map_of_mem hr₀))
      refine UInt8.le_iff_toNat_le.2 ?_
      dsimp only
      rw [toNat_timer_sub_one hpos₀, toNat_timer_sub_one hpos]
      omega
    · exact ih h.of_cons

/-- **The timer** leaves the queue in order. -/
theorem IpReass.Inv.ipReassTmr (hs : s.Inv) (hfilled : s.Filled) :
    (ipReassTmr s).1.Inv ∧ (ipReassTmr s).1.Filled := by
  obtain ⟨hkeys, hlen, hsum, hsub⟩ := reassTmr_split s.reassdatagrams
  have hmax : ipReassMaxPbufs = 10 := rfl
  have hcount := hs.count
  have hbound := hs.bound
  have hpool := hs.pool
  have hfreed : ((reassTmr s.reassdatagrams).2.map fun r : IpReassdata ↦
    r.freeComplete.1).sum.toNat =
      queuedPbufs (reassTmr s.reassdatagrams).2 := by
    have hmap : ((reassTmr s.reassdatagrams).2.map fun r : IpReassdata ↦ r.freeComplete.1).map
      UInt16.toNat =
        (reassTmr s.reassdatagrams).2.map IpReassdata.pbufs := by
      rw [List.map_map]
      refine List.map_congr_left fun (r : IpReassdata) hr ↦ ?_
      refine IpReassdata.toNat_freeComplete (hs.good r (hsub.subset hr)) ?_
      obtain ⟨l₁, l₂, hl⟩ := List.append_of_mem hr
      have hmiddle := queuedPbufs_middle l₁ l₂ r
      rw [← hl] at hmiddle
      omega
    rw [toNat_sum_uint16] <;> rw [hmap]
    · rfl
    · show queuedPbufs _ < _
      omega
  have hle : ((reassTmr s.reassdatagrams).2.map fun r : IpReassdata ↦ r.freeComplete.1).sum ≤
    s.pbufcount :=
    UInt16.le_iff_toNat_le.2 (by omega)
  refine ⟨⟨?_, ?_, ?_, hs.keys.sublist hkeys, reassTmr_timers hs.timers, fun r hr ↦ ?_⟩,
    fun r hr ↦ ?_⟩
  · show (s.pbufcount - _).toNat = _
    rw [UInt16.toNat_sub_of_le _ _ hle]
    show _ = queuedPbufs (reassTmr s.reassdatagrams).1
    omega
  · show queuedPbufs (reassTmr s.reassdatagrams).1 ≤ _
    omega
  · show s.free + (reassTmr s.reassdatagrams).2.length + (reassTmr s.reassdatagrams).1.length = _
    omega
  · obtain ⟨r', hr', hpos, rfl⟩ := mem_reassTmr_kept hr
    have hgood := hs.good r' hr'
    refine ⟨hgood.ascending, UInt8.le_trans (UInt8.le_iff_toNat_le.2 ?_) hgood.timer, hgood.clen⟩
    rw [toNat_timer_sub_one hpos]
    exact Nat.sub_le _ _
  · obtain ⟨r', hr', -, rfl⟩ := mem_reassTmr_kept hr
    exact hfilled r' hr'

end Queue

/-! ### Making room for a new datagram -/

theorem scanOldest_prev (fraghdr : List UInt8) (i : ℕ) (scan : OldestScan) (l : List IpReassdata) :
    (scanOldest fraghdr i scan l).prev =
      if 2 ≤ l.length then some (i + l.length - 2) else scan.prev := by
  induction l generalizing i scan with
  | nil => rfl
  | cons r rs ih =>
    rw [scanOldest, ih]
    cases rs with
    | nil =>
      rw [if_neg (show ¬ 2 ≤ [].length by decide), if_neg (show ¬ 2 ≤ [r].length by simp)]
      rw [if_neg (not_not_intro rfl)]
      split <;> rfl
    | cons r' rs =>
      simp only [List.length_cons, ne_eq, List.cons_ne_nil, not_false_eq_true, if_true]
      rw [if_pos (show 2 ≤ rs.length + 1 + 1 by omega)]
      split
      · congr 1
        omega
      · congr 1
        omega

/-- The fragment's own datagram is passed over. -/
theorem scanOldest_oldest_of_own {fraghdr : List UInt8} {i : ℕ} {scan : OldestScan}
    {l : List IpReassdata} (hl : ∀ d ∈ l, reassKey d.iphdr = reassKey fraghdr) :
    (scanOldest fraghdr i scan l).oldest = scan.oldest := by
  induction l generalizing i scan with
  | nil => rfl
  | cons d l ih =>
    rw [scanOldest, ih fun d hd ↦ hl d (List.mem_cons_of_mem _ hd),
      (OldestScan.note_fields _ _ i).1, if_neg (not_not_intro (hl d List.mem_cons_self))]

/-- The last datagram that the fragment does not belong to is the oldest one. -/
theorem scanOldest_oldest_eq {fraghdr : List UInt8} {i : ℕ} {scan : OldestScan}
    {l₁ l₂ : List IpReassdata} {r : IpReassdata} (hr : reassKey r.iphdr ≠ reassKey fraghdr)
    (hl₂ : ∀ d ∈ l₂, reassKey d.iphdr = reassKey fraghdr)
    (htimers : ((l₁ ++ r :: l₂).map IpReassdata.timer).Pairwise fun t u ↦ u ≤ t)
    (hscan : ∀ o, scan.oldest = some o → ∀ d ∈ l₁ ++ r :: l₂, d.timer ≤ o.2.timer) :
    (scanOldest fraghdr i scan (l₁ ++ r :: l₂)).oldest = some (i + l₁.length, r) := by
  induction l₁ generalizing i scan with
  | nil =>
    rw [List.nil_append, scanOldest, scanOldest_oldest_of_own hl₂,
      (OldestScan.note_fields _ _ i).1, if_pos hr]
    exact OldestScan.other_oldest_of_le fun o ho ↦ hscan o ho r List.mem_cons_self
  | cons d l₁ ih =>
    rw [List.cons_append, List.map_cons] at htimers
    have hlen : i + (d :: l₁).length = i + 1 + l₁.length := by
      rw [List.length_cons]
      omega
    rw [List.cons_append, scanOldest, hlen]
    refine ih htimers.of_cons fun o ho d' hd' ↦ ?_
    rw [(OldestScan.note_fields _ _ i).1] at ho
    split at ho
    · have htaken := @OldestScan.other_oldest_of_le scan i d
        fun o ho ↦ hscan o ho d List.mem_cons_self
      obtain rfl := Option.some.inj (htaken.symm.trans ho)
      exact List.rel_of_pairwise_cons htimers (List.mem_map_of_mem hd')
    · exact hscan o ho d' (List.mem_cons_of_mem _ hd')

theorem scanOldest_otherDatagrams (fraghdr : List UInt8) (i : ℕ) (scan : OldestScan)
    (l : List IpReassdata) : (scanOldest fraghdr i scan l).otherDatagrams =
      scan.otherDatagrams + l.countP fun r ↦ reassKey r.iphdr ≠ reassKey fraghdr := by
  induction l generalizing i scan with
  | nil => rfl
  | cons r rs ih =>
    rw [scanOldest, ih, (OldestScan.note_fields _ _ i).2]
    by_cases hkey : reassKey r.iphdr ≠ reassKey fraghdr
    · rw [if_pos hkey, List.countP_cons, if_pos (decide_eq_true hkey), OldestScan.other]
      dsimp only
      omega
    · rw [if_neg hkey, List.countP_cons, if_neg (by simpa using hkey), Nat.add_zero]

/-- Where making room for a fragment frees a datagram and leaves it in the list: two datagrams or
more are in front of the fragment's own, and those behind it do not make room enough. -/
def freesLinked (fraghdr : List UInt8) (needed : ℕ) (l : List IpReassdata) : Bool :=
  (l.findIdx? fun r ↦ reassKey r.iphdr = reassKey fraghdr).any fun i ↦
    2 ≤ i ∧ queuedPbufs (l.drop (i + 1)) < needed

section FreesLinked

variable {fraghdr : List UInt8} {l : List IpReassdata} {r : IpReassdata} {n : ℕ}

theorem freesLinked_nil : freesLinked fraghdr n [] = false := rfl

/-- With the fragment's own datagram at the end, those in front of it decide. -/
theorem freesLinked_concat_own (hr : reassKey r.iphdr = reassKey fraghdr)
    (hothers : ∀ d ∈ l, reassKey d.iphdr ≠ reassKey fraghdr) (hn : 0 < n) :
    freesLinked fraghdr n (l ++ [r]) = true ↔ 2 ≤ l.length := by
  have hnone : l.findIdx? (fun d ↦ reassKey d.iphdr = reassKey fraghdr) = none := by
    simpa using hothers
  have hfind : (l ++ [r]).findIdx? (fun d ↦ reassKey d.iphdr = reassKey fraghdr) =
      some l.length := by
    simp [List.findIdx?_append, hnone, List.findIdx?_cons, hr]
  have hdrop : (l ++ [r]).drop (l.length + 1) = [] := by simp
  rw [freesLinked, hfind, Option.any_some, decide_eq_true_iff, hdrop]
  exact and_iff_left hn

/-- With another one at the end, that one makes some of the room. -/
theorem freesLinked_concat (hr : reassKey r.iphdr ≠ reassKey fraghdr) :
    freesLinked fraghdr n (l ++ [r]) = true ↔
      r.pbufs < n ∧ freesLinked fraghdr (n - r.pbufs) l = true := by
  have hfind : (l ++ [r]).findIdx? (fun d ↦ reassKey d.iphdr = reassKey fraghdr) =
      l.findIdx? fun d ↦ reassKey d.iphdr = reassKey fraghdr := by
    simp [List.findIdx?_append, List.findIdx?_cons, hr]
  rw [freesLinked, freesLinked, hfind]
  cases hown : l.findIdx? fun d ↦ reassKey d.iphdr = reassKey fraghdr with
  | none => exact iff_of_false Bool.false_ne_true fun h ↦ Bool.false_ne_true h.2
  | some i =>
    obtain ⟨hi, -⟩ := List.findIdx?_eq_some_iff_getElem.1 hown
    have hdrop : (l ++ [r]).drop (i + 1) = l.drop (i + 1) ++ [r] :=
      List.drop_append_of_le_length hi
    have hsum := queuedPbufs_middle (l.drop (i + 1)) [] r
    rw [List.append_nil] at hsum
    simp only [Option.any_some, decide_eq_true_iff, hdrop, hsum]
    omega

/-- There are other datagrams then. -/
theorem countP_pos_of_freesLinked (h : freesLinked fraghdr n l = true) :
    0 < l.countP fun r ↦ reassKey r.iphdr ≠ reassKey fraghdr := by
  rw [freesLinked] at h
  cases hown : l.findIdx? fun d ↦ reassKey d.iphdr = reassKey fraghdr with
  | none =>
    rw [hown] at h
    cases h
  | some i =>
    obtain ⟨hi, -, hbefore⟩ := List.findIdx?_eq_some_iff_getElem.1 hown
    rw [hown, Option.any_some, decide_eq_true_iff] at h
    exact List.countP_pos_iff.2 ⟨l[0], List.getElem_mem _, by simpa using hbefore 0 (by omega)⟩

end FreesLinked

/-! ### Making room, by the end of the list -/

section MakingRoom

variable {s : IpReass} {l : List IpReassdata} {r own : IpReassdata} {fraghdr : List UInt8}

/-- Where the last datagram is another one than the fragment's, it is given up. -/
theorem IpReass.Inv.removeOldest_concat (hs : s.Inv) (hl : s.reassdatagrams = l ++ [r])
    (hr : reassKey r.iphdr ≠ reassKey fraghdr) (n : ℕ) :
    YHAudioLink.removeOldest fraghdr n s = none ↔
      (r.pbufs < n ∧ 0 < l.countP fun d ↦ reassKey d.iphdr ≠ reassKey fraghdr) ∧
      YHAudioLink.removeOldest fraghdr (n - r.pbufs)
        ⟨l, s.free + 1, s.pbufcount - r.freeComplete.1⟩ = none := by
  have hmax : ipReassMaxPbufs = 10 := rfl
  have hsum := queuedPbufs_middle l [] r
  have htimers := hs.timers
  obtain ⟨_, free, pbufcount⟩ := s
  obtain rfl : _ = l ++ [r] := hl
  have hbound : queuedPbufs (l ++ [r]) ≤ ipReassMaxPbufs := hs.bound
  have hfreed : r.freeComplete.1.toNat = r.pbufs :=
    IpReassdata.toNat_freeComplete (hs.good r (List.mem_append_right _ List.mem_cons_self))
      (by omega)
  have holdest := @scanOldest_oldest_eq fraghdr 0 ⟨none, none, 0⟩ l [] r hr nofun htimers
    fun o ho ↦ absurd ho.symm (Option.some_ne_none o)
  have hothers := scanOldest_otherDatagrams fraghdr 0 ⟨none, none, 0⟩ (l ++ [r])
  have hdequeue : dequeueDatagram (l ++ [r]) l.length
      (scanOldest fraghdr 0 ⟨none, none, 0⟩ (l ++ [r])).prev = some l := by
    have hplace : l.length < (l ++ [r]).length ∧ (l.length = 0 ∨
        (scanOldest fraghdr 0 ⟨none, none, 0⟩ (l ++ [r])).prev.map Nat.succ = some l.length) := by
      rw [scanOldest_prev, List.length_append, List.length_singleton]
      refine ⟨Nat.lt_succ_self _, (Nat.eq_zero_or_pos l.length).imp_right fun hpos ↦ ?_⟩
      rw [if_pos (by omega), Option.map_some]
      congr 1
      omega
    rw [dequeueDatagram, if_pos hplace, List.eraseIdx_append_of_length_le le_rfl, Nat.sub_self]
    exact congrArg some (List.append_nil l)
  rw [Nat.zero_add] at holdest hothers
  rw [List.countP_append, List.countP_singleton, if_pos (decide_eq_true hr)] at hothers
  rw [YHAudioLink.removeOldest]
  simp only [holdest]
  split
  · next hnone => exact absurd (hdequeue.symm.trans hnone) (Option.some_ne_none _)
  · next rest hrest =>
    obtain rfl := Option.some.inj (hdequeue.symm.trans hrest)
    rw [hfreed, hothers]
    split
    · next hmore =>
      rw [Option.map_eq_none_iff, and_iff_right ⟨hmore.1, Nat.lt_of_succ_lt_succ hmore.2⟩]
    · next hmore =>
      refine iff_of_false (Option.some_ne_none _) fun h ↦ hmore ⟨h.1.1, ?_⟩
      exact Nat.add_lt_add_right h.1.2 1

/-- Where the last datagram is the fragment's, the one before it is given up, but the code has
noted it for its own predecessor. -/
theorem IpReass.Inv.removeOldest_concat_own (hs : s.Inv) (hl : s.reassdatagrams = l ++ [r, own])
    (hown : reassKey own.iphdr = reassKey fraghdr) (n : ℕ) :
    YHAudioLink.removeOldest fraghdr n s = none ↔ l ≠ [] := by
  have hkeys := hs.keys
  have htimers := hs.timers
  obtain ⟨_, free, pbufcount⟩ := s
  obtain rfl : _ = l ++ [r, own] := hl
  have hr : reassKey r.iphdr ≠ reassKey fraghdr := by
    rw [List.map_append, List.map_cons, List.map_cons] at hkeys
    have hpair := (List.nodup_append.1 hkeys).2.1
    rw [← hown]
    exact fun heq ↦ (List.nodup_cons.1 hpair).1 (heq ▸ List.mem_singleton_self _)
  have holdest := @scanOldest_oldest_eq fraghdr 0 ⟨none, none, 0⟩ l [own] r hr
    (fun d hd ↦ List.mem_singleton.1 hd ▸ hown) htimers
    fun o ho ↦ absurd ho.symm (Option.some_ne_none o)
  have hprev := scanOldest_prev fraghdr 0 ⟨none, none, 0⟩ (l ++ [r, own])
  have hothers := scanOldest_otherDatagrams fraghdr 0 ⟨none, none, 0⟩ (l ++ [r, own])
  have hlen : (l ++ [r, own]).length = l.length + 2 := by simp
  rw [hlen, if_pos (by omega)] at hprev
  rw [Nat.zero_add] at holdest hothers
  rw [YHAudioLink.removeOldest]
  simp only [holdest]
  cases l with
  | nil =>
    split
    · next hnone =>
      rw [dequeueDatagram, if_pos ⟨by simp, .inl rfl⟩] at hnone
      cases hnone
    · have hone : ¬ 1 < (scanOldest fraghdr 0 ⟨none, none, 0⟩ ([] ++ [r, own])).otherDatagrams := by
        rw [hothers, List.nil_append, List.countP_cons, List.countP_cons,
          if_pos (decide_eq_true hr), if_neg (by simpa using hown)]
        exact lt_irrefl 1
      rw [if_neg fun hmore ↦ hone hmore.2]
      exact iff_of_false (Option.some_ne_none _) fun hne ↦ hne rfl
  | cons d l =>
    have hdequeue : dequeueDatagram (d :: l ++ [r, own]) (d :: l).length
        (scanOldest fraghdr 0 ⟨none, none, 0⟩ (d :: l ++ [r, own])).prev = none := by
      rw [dequeueDatagram, hprev]
      refine if_neg fun hplace ↦ ?_
      rcases hplace.2 with hzero | hnext
      · cases hzero
      · have hnat := Option.some.inj hnext
        simp only [List.length_cons] at hnat
        omega
    split
    · exact iff_of_true rfl (List.cons_ne_nil d l)
    · next hsome => exact absurd (hsome.symm.trans hdequeue) (Option.some_ne_none _)

/-- Where no datagram is another one, none is given up. -/
theorem removeOldest_of_own (n : ℕ)
    (hall : ∀ d ∈ s.reassdatagrams, reassKey d.iphdr = reassKey fraghdr) :
    removeOldest fraghdr n s ≠ none := by
  rw [removeOldest]
  simp only [scanOldest_oldest_of_own hall]
  exact Option.some_ne_none _

/-- **When making room leaves a freed datagram in the list.** The loop takes the last datagram away
as long as it is another one than the fragment's. -/
theorem IpReass.Inv.removeOldest_eq_none_iff (hs : s.Inv) {n : ℕ} (hn : 0 < n) :
    YHAudioLink.removeOldest fraghdr n s = none ↔
      freesLinked fraghdr n s.reassdatagrams = true := by
  obtain ⟨l, hl⟩ : ∃ l, s.reassdatagrams = l := ⟨_, rfl⟩
  rw [hl]
  induction l using List.reverseRecOn generalizing s n with
  | nil =>
    have hall : ∀ d ∈ s.reassdatagrams, reassKey d.iphdr = reassKey fraghdr := by simp [hl]
    exact iff_of_false (removeOldest_of_own n hall) (by simp [freesLinked_nil])
  | append_singleton l r ih =>
    by_cases hr : reassKey r.iphdr = reassKey fraghdr
    · have hothers : ∀ d ∈ l, reassKey d.iphdr ≠ reassKey fraghdr := by
        have hkeys := hs.keys
        rw [hl, List.map_append, List.map_singleton] at hkeys
        intro d hd
        rw [← hr]
        exact (List.nodup_append.1 hkeys).2.2 _ (List.mem_map_of_mem hd) _
          (List.mem_singleton_self _)
      rw [freesLinked_concat_own hr hothers hn]
      rcases List.eq_nil_or_concat l with rfl | ⟨l, d, rfl⟩
      · have hall : ∀ d ∈ s.reassdatagrams, reassKey d.iphdr = reassKey fraghdr := by simp [hl, hr]
        exact iff_of_false (removeOldest_of_own n hall) (by decide)
      · rw [List.concat_eq_append, List.append_assoc, List.singleton_append] at hl
        rw [hs.removeOldest_concat_own hl hr n, List.length_concat, ← List.length_pos_iff]
        omega
    · have hinv := hs.evict hl
      rw [List.append_nil] at hinv
      rw [hs.removeOldest_concat hl hr n, freesLinked_concat hr]
      constructor
      · rintro ⟨⟨hlt, -⟩, hnone⟩
        exact ⟨hlt, (ih hinv (by omega) rfl).1 hnone⟩
      · rintro ⟨hlt, hfrees⟩
        exact ⟨⟨hlt, countP_pos_of_freesLinked hfrees⟩, (ih hinv (by omega) rfl).2 hfrees⟩

end MakingRoom

/-- Where a call of `ip_reass` frees a datagram and leaves it in the list: it has to make room for
`pbuf`s, and that of the fragment is in the way. -/
def IpReass.leavesFreed (s : IpReass) (p : List PbufPart) : Bool :=
  ((payloadData p).getD 0 0 &&& 0x0f).toNat * 4 = ipHlen &&
    ipReassMaxPbufs < s.pbufcount.toNat + p.length &&
    freesLinked (payloadData p) p.length s.reassdatagrams

/-- Room for a new datagram is made without that, for it has no other fragment in the queue. -/
theorem IpReass.Inv.enqueue_ne_none {s : IpReass} (hs : s.Inv) {p : List PbufPart}
    (hclen : 0 < (pbufClen p).toNat) (exceeded : List (List PbufPart)) :
    s.enqueue p exceeded ≠ none := by
  intro hnone
  rw [IpReass.enqueue] at hnone
  dsimp only at hnone
  split at hnone
  · next i hfind =>
    obtain ⟨hlt, -⟩ := List.findIdx?_eq_some_iff_getElem.1 hfind
    rw [List.getElem?_eq_getElem hlt] at hnone
    cases hnone
  · next hfind =>
    split at hnone
    · cases hnone
    · split at hnone
      · next hremove =>
        have hfrees := (hs.removeOldest_eq_none_iff hclen).1 hremove
        rw [freesLinked, hfind] at hfrees
        cases hfrees
      · split at hnone <;> cases hnone

/-- **When a call of `ip_reass` leaves a freed datagram in the list.** -/
theorem IpReass.Inv.ipReass_eq_none_iff {s : IpReass} (hs : s.Inv) {p : List PbufPart}
    (hp : p.length < 256) : YHAudioLink.ipReass s p = none ↔ s.leavesFreed p = true := by
  have hclen : (pbufClen p).toNat = p.length := by
    rw [← toNat_pbufClen hp, UInt8.toNat_toUInt16]
  rw [YHAudioLink.ipReass, IpReass.leavesFreed, Bool.and_eq_true, Bool.and_eq_true,
    decide_eq_true_iff, decide_eq_true_iff]
  rw [hclen]
  split
  · next hhdr => exact iff_of_false (Option.some_ne_none _) fun h ↦ hhdr h.1.1
  · next hhdr =>
    have hpos : 0 < p.length := by
      cases p with
      | nil => exact absurd (show (0 : UInt8).toNat * 4 ≠ ipHlen by decide) hhdr
      | cons q p => exact Nat.succ_pos _
    have hnext : ∀ {s : IpReass} (exceeded : List (List PbufPart)), s.Inv →
        s.enqueue p exceeded ≠ none :=
      fun exceeded hs ↦ hs.enqueue_ne_none (hclen.symm ▸ hpos) exceeded
    split
    · next hfull =>
      rw [and_iff_right ⟨not_not.1 hhdr, hfull⟩, ← hs.removeOldest_eq_none_iff hpos]
      split
      · next hremove => exact iff_of_true rfl hremove
      · next freed exceeded s' hremove =>
        refine iff_of_false ?_ (by rw [hremove]; exact Option.some_ne_none _)
        split
        · exact Option.some_ne_none _
        · exact hnext exceeded (hs.removeOldest hremove).1
    · next hroom => exact iff_of_false (hnext [] hs) fun h ↦ hroom h.1.2

/-! ### Runs -/

/-- What happens to the queue: a fragment comes in, or a second is over. -/
inductive ReassAct
  | input (p : List PbufPart)
  | tmr

/-- A call. There is none that frees an element and leaves it in the list: what the code does from
there on is not the model's. -/
def reassStep (s : IpReass) : ReassAct → Option IpReass
  | .input p => (ipReass s p).map ReassResult.s
  | .tmr => some (ipReassTmr s).1

/-- `ip_reass_init`. -/
def IpReass.init (s : IpReass) : Prop := s = ⟨[], mempNumReassdata, 0⟩

/-- A packet does not have more `pbuf`s than an 8-bit number can count. -/
def chainFits (_ : IpReass) : ReassAct → Bool
  | .input p => p.length < 256
  | .tmr => true

/-- The queue is in order in every run. -/
theorem reass_inv {s : IpReass} (h : Reachable IpReass.init reassStep chainFits s) :
    s.Inv ∧ s.Filled := by
  induction h with
  | init hinit =>
    obtain rfl := hinit
    exact ⟨⟨rfl, Nat.zero_le _, rfl, .nil, .nil, nofun⟩, nofun⟩
  | @step s t act _ hok hstep ih =>
    obtain ⟨hs, hfilled⟩ := ih
    cases act with
    | input p =>
      obtain ⟨r, hr, rfl⟩ := Option.map_eq_some_iff.1 hstep
      exact hs.ipReass hfilled (of_decide_eq_true hok) hr
    | tmr => exact Option.some.inj hstep ▸ hs.ipReassTmr hfilled

/-- A fragment of eight bytes with more to come, by its identification and its offset; the last
bytes of it are in `pbuf`s of their own. -/
def reassFragment (id offset : UInt8) (n : ℕ) : List PbufPart :=
  ⟨0, [0x45, 0, 0, 28, 0, id, 0x20, offset, 255, 17, 0, 0, 192, 168, 1, 30, 192, 168, 1, 110] ++
    List.replicate (8 - n) 0, by simp; omega⟩ :: List.replicate n ⟨0, [0], by decide⟩

end YHAudioLink
