import YHAudioLink.Enc28j60.Exclusion
import YHAudioLink.Enc28j60.ReceiveResult

/-!
# The receive pointer through recoveries

`NextPacketPtr` is overwritten with what the buffer memory says before it is checked. When it turns
out to be outside the ring the controller is re-initialised, which also sets the pointer again; but
`ENC28J60_Init` gives up before that when `ESTAT.CLKRDY` does not appear, and then the pointer stays
outside and the lock is released all the same.

So the pointer is **consistent** whenever the lock is free, in the ring and equal to what `ERXRDPT`
was last given, exactly as long as every re-initialisation that has to repair it sees the clock
within its 250 polls (`consistent_iff_recovers`). The re-initialisation of a receiver that looks
dead may fail either way: it finds the pointer consistent and leaves it so.
-/

namespace YHAudioLink

open Programs

/-! ### The invariant and the condition -/

/-- **Consistency** of the receive pointer. -/
def Consistent (s : DrvState) : Prop :=
  inRing s.next ∧ s.next = word (s.written Reg.erxrdptl) (s.written Reg.erxrdpth)

/-- A poll of `ESTAT` that finds the clock stable. -/
def ClockReady : Reading → Prop
  | .reg addr v => addr = Reg.estat ∧ ¬ NotReady v
  | _ => False

/-- The condition on a call: if the next-packet pointer it reads is outside the ring, one of the 250
polls of the re-initialisation finds the clock stable. Before the polls come the pend, the four
registers, the two bytes of the pointer and three registers again. -/
def Recovers (rs : List Reading) : Prop :=
  ∀ next0 next1, bufs rs = [next0, next1] → ¬ inRing (word next0 next1) →
    ∃ reading ∈ (rs.drop 10).take 250, ClockReady reading

/-- The operation, if it completes `ERDPT`, gives it an address in the ring. -/
def ErdptInRing (s : DrvState) (o : DrvOp) : Prop :=
  ∀ data, o = .writeOp .writeCtrlReg Reg.erdpth data → inRing (word (s.written Reg.erdptl) data)

theorem onlyErdpt_erdptInRing : OnlyErdpt ErdptInRing := fun _ _ h data ho ↦ absurd ho (h data)

/-! ### Initialisation -/

theorem consistent_of_start {s : DrvState} (hnext : s.next = rxstartInit)
    (hlow : s.written Reg.erxrdptl = lowByte rxstartInit)
    (hhigh : s.written Reg.erxrdpth = highByte rxstartInit) : Consistent s := by
  rw [Consistent, hnext, hlow, hhigh]
  decide

/-- **A successful initialisation** makes the pointer consistent, whatever it was. -/
theorem InitPath.consistent_of_success {s t : DrvState} (h : InitPath s 0 t) : Consistent t := by
  cases h with
  | configured polls v r more t hlen hpolls hv hnext hlow hhigh hread hbufs =>
    exact consistent_of_start hnext hlow hhigh

/-- Any initialisation leaves a consistent pointer consistent. -/
theorem InitPath.consistent {s t : DrvState} {r : UInt8} (h : InitPath s r t) (hs : Consistent s) :
    Consistent t := by
  cases h with
  | late polls v hlen hpolls => exact hs
  | configured polls v r more t hlen hpolls hv hnext hlow hhigh hread hbufs =>
    exact consistent_of_start hnext hlow hhigh

/-- **A pointer outside the ring** is repaired exactly when one of the first 250 polls is ready. -/
theorem InitPath.repairs_iff {s t : DrvState} {r : UInt8} (h : InitPath s r t)
    (hs : ¬ inRing s.next) {rs : List Reading} (hrs : t.readings = s.readings ++ rs)
    (behind : List Reading) :
    Consistent t ↔ ∃ reading ∈ (rs ++ behind).take 250, ClockReady reading := by
  cases h with
  | late polls v hlen hpolls =>
    obtain rfl := List.append_cancel_left hrs
    refine iff_of_false (fun ht ↦ hs ht.1) ?_
    rintro ⟨reading, hmem, hready⟩
    have htake : ((polls ++ [v]).map (Reading.reg Reg.estat) ++ behind).take 250 =
        polls.map (.reg Reg.estat) := by
      rw [List.map_append, List.append_assoc, List.take_left' (by rw [List.length_map, hlen])]
    rw [htake] at hmem
    obtain ⟨p, hp, rfl⟩ := List.mem_map.1 hmem
    exact hready.2 (hpolls p hp)
  | configured polls v r more t hlen hpolls hv hnext hlow hhigh hread hbufs =>
    rw [List.append_assoc] at hread
    obtain rfl := List.append_cancel_left (hrs.symm.trans hread)
    refine iff_of_true (consistent_of_start hnext hlow hhigh) ⟨.reg Reg.estat v, ?_, rfl, hv⟩
    -- the ready poll comes behind fewer than 250 others
    rw [List.mem_take_iff_getElem]
    refine ⟨polls.length, by simp; omega, ?_⟩
    simp

/-! ### One call -/

/-- A packet that was fetched leaves the pointer at the next one. -/
theorem consistent_release {s : DrvState} {ptr : UInt32} (hring : inRing ptr) (hs : s.next = ptr) :
    Consistent ((s.write Reg.erxrdptl (lowByte ptr)).write Reg.erxrdpth (highByte ptr)) := by
  refine ⟨by simpa [hs] using hring, ?_⟩
  have hlow : Reg.erxrdptl ≠ Reg.erxrdpth := by decide
  simp only [DrvState.next_write, DrvState.written_write, if_neg hlow, if_true]
  rw [word_bytes hring.toNat_lt, hs]

theorem recovers_of_length {rs : List Reading} (h : (bufs rs).length ≠ 2) : Recovers rs :=
  fun next0 next1 heq ↦ absurd (by rw [heq]; rfl) h

/-- **One reception**: the pointer is consistent again exactly when the call recovers. -/
theorem ReceivePath.consistent_iff {maxlen : UInt32} {s t : DrvState} {r : Received}
    (h : ReceivePath maxlen s r t) (hs : Consistent s) {rs : List Reading}
    (hrs : t.readings = s.readings ++ rs) : Consistent t ↔ Recovers rs := by
  cases h with
  | refused err herr =>
    obtain rfl := List.append_cancel_left hrs
    exact iff_of_true hs (recovers_of_length (by simp [bufs]))
  | nothing estat eir econ1 hstuck =>
    obtain rfl := List.append_cancel_left hrs
    exact iff_of_true hs (recovers_of_length (by simp))
  | revived estat eir econ1 v a b c u hstuck hinit =>
    obtain ⟨more, hmore, hbufs⟩ := hinit.readings
    have hread : rs = statusReadings estat eir econ1 0 ++ (more ++ recheckReadings a b c) :=
      List.append_cancel_left (by rw [← hrs]; simp [hmore])
    exact iff_of_true (hinit.consistent hs) (recovers_of_length (by simp [hread, hbufs]))
  | busy estat eir econ1 ptkCnt hcnt hbusy =>
    obtain rfl := List.append_cancel_left hrs
    exact iff_of_true hs (recovers_of_length (by simp))
  | invalid estat eir econ1 ptkCnt next0 next1 a b c v a' b' c' u hcnt hfree hring hinit =>
    obtain ⟨more, hmore, hbufs⟩ := hinit.readings
    have hread : rs = (statusReadings estat eir econ1 ptkCnt ++ [.buf next0, .buf next1] ++
        recheckReadings a b c) ++ (more ++ recheckReadings a' b' c') :=
      List.append_cancel_left (by rw [← hrs]; simp [hmore])
    have hdrop : rs.drop 10 = more ++ recheckReadings a' b' c' := by rw [hread]; rfl
    have htwo : bufs rs = [next0, next1] := by simp [hread, hbufs]
    have hpolls : Consistent u ↔
        ∃ reading ∈ (more ++ recheckReadings a' b' c').take 250, ClockReady reading :=
      hinit.repairs_iff hring hmore _
    have hrecovers : Recovers rs ↔ ∃ reading ∈ (rs.drop 10).take 250, ClockReady reading := by
      constructor
      · exact fun h ↦ h next0 next1 htwo hring
      · exact fun h _ _ _ _ ↦ h
    rw [hrecovers, hdrop, ← hpolls]
    rfl
  | badStatus estat eir econ1 ptkCnt next0 next1 len0 len1 stat0 stat1 hcnt hfree hring hstat =>
    have hread := eq_of_badStatus hrs
    exact iff_of_true (consistent_release hring rfl) (recovers_of_length (by simp [hread]))
  | frame estat eir econ1 ptkCnt next0 next1 len0 len1 stat0 stat1 data hcnt hfree hring hstat
      hlen =>
    have hread := eq_of_frame hrs
    exact iff_of_true (consistent_release hring rfl) (recovers_of_length (by simp [hread]))

/-- **Sending** leaves the pointer alone. -/
theorem wp_packetSend {ok : DrvState → DrvOp → Prop} (hok : OnlyErdpt ok) {len : UInt32}
    {packet : ℕ → UInt8} {Q : Unit → DrvState → Prop} {s : DrvState}
    (h : ∀ t more, t.next = s.next → (∀ reg ∈ ringPointers, t.written reg = s.written reg) →
      t.readings = s.readings ++ more → bufs more = [] → Q () t) :
    wp DrvState.step ok (enc28j60PacketSend len packet) Q s := by
  rw [enc28j60PacketSend, wp_bind, wp_drv]
  refine ⟨hok _ _ (by simp), ?_⟩
  rintro err t rfl
  split
  · rw [wp_bind]
    refine wp_quiet hok (quiet_sendLocked len packet) fun _ t more hnext hwritten hmore hbufs ↦ ?_
    rw [wp_postLock_iff hok]
    refine h t (.pend err :: more) hnext hwritten ?_ hbufs
    rw [hmore]
    simp [readingsOf]
  · exact h _ [.pend err] rfl (fun _ _ ↦ rfl) rfl rfl

/-- **One call** from a consistent pointer: every address `ERDPT` is given is in the ring, and the
pointer is consistent again exactly when the call recovers. -/
theorem wp_call (c : LockedCall) {s : DrvState} (hs : Consistent s) :
    wp DrvState.step ErdptInRing c.driver
      (fun _ t ↦ ∀ rs, t.readings = s.readings ++ rs → (Consistent t ↔ Recovers rs)) s := by
  cases c with
  | packetSend len packet =>
    refine wp_packetSend onlyErdpt_erdptInRing fun t more hnext hwritten hmore hbufs rs hrs ↦ ?_
    obtain rfl := List.append_cancel_left (hmore.symm.trans hrs)
    refine iff_of_true ?_ (recovers_of_length (by rw [hbufs]; decide))
    rw [Consistent, hnext, hwritten _ (by decide), hwritten _ (by decide)]
    exact hs
  | packetReceive maxlen =>
    rw [LockedCall.driver, wp_bind]
    refine wp_receive_path onlyErdpt_erdptInRing
      (fun t ht data hdata ↦ ?_) fun r t hpath rs hrs ↦ ?_
    · injection hdata with _ _ hdata
      rw [ht, ← hdata, word_bytes hs.1.toNat_lt]
      exact hs.1
    · exact hpath.consistent_iff hs hrs

/-! ### Runs -/

/-- Calls one after the other, each with its events and the state it leaves, which is the state in
which the lock is free. -/
inductive CallRun (s : DrvState) : List (List (Event DrvOp DrvOp.Ans) × DrvState) → DrvState → Prop
  | nil : CallRun s [] s
  | snoc {run : List (List (Event DrvOp DrvOp.Ans) × DrvState)} {t u : DrvState}
      {tr : List (Event DrvOp DrvOp.Ans)} (c : LockedCall) : CallRun s run t →
      Returns DrvState.step c.driver t tr () u → CallRun s (run ++ [(tr, u)]) u

/-- **A run** keeps the pointer consistent exactly as its calls recover, and where the pointer was
consistent at every call it is consistent at the end. -/
theorem CallRun.consistent_iff {s t : DrvState}
    {run : List (List (Event DrvOp DrvOp.Ans) × DrvState)} (h : CallRun s run t)
    (hs : Consistent s) :
    ((∀ e ∈ run, Consistent e.2) ↔ ∀ e ∈ run, Recovers (readings e.1)) ∧
    ((∀ e ∈ run, Consistent e.2) → Consistent t) := by
  induction h with
  | nil => exact ⟨by simp, fun _ ↦ hs⟩
  | @snoc run t u tr c hrun hret ih =>
    obtain ⟨hiff, ht⟩ := ih
    -- the last call starts from a consistent pointer when the ones before it left one
    have hlast (hall : ∀ e ∈ run, Consistent e.2) : Consistent u ↔ Recovers (readings tr) :=
      wp_of_steps (wp_call c (ht hall)) hret _ (readings_of_steps hret)
    simp only [List.forall_mem_append, List.forall_mem_singleton]
    refine ⟨?_, fun hall ↦ hall.2⟩
    rw [← hiff]
    exact and_congr_right hlast

/-- **The receive pointer through recoveries.** After a successful initialisation, in every run of
calls and whatever the controller answers: the pointer is consistent whenever the lock is free if
and only if every call of the run recovers; and then no further call, however far it has got, gives
`ERDPT` an address outside the ring. -/
theorem consistent_iff_recovers (macaddr : Fin 6 → UInt8) (boot s t : DrvState)
    (tr : List (Event DrvOp DrvOp.Ans)) (run : List (List (Event DrvOp DrvOp.Ans) × DrvState))
    (hinit : Returns DrvState.step (enc28j60Init macaddr) boot tr 0 s) (hrun : CallRun s run t) :
    ((Consistent s ∧ ∀ e ∈ run, Consistent e.2) ↔ ∀ e ∈ run, Recovers (readings e.1)) ∧
    ((∀ e ∈ run, Recovers (readings e.1)) → ∀ (c : LockedCall) (tr : List (Event DrvOp DrvOp.Ans))
      (o : DrvOp) (k : DrvOp.Ans o → Driver Unit) (u : DrvState),
      Steps DrvState.step c.driver t tr (.call o k) u → ErdptInRing u o) := by
  have hpath : InitPath boot 0 s :=
    wp_of_steps (wp_init_path onlyErdpt_anyOp fun _ _ h ↦ h) hinit
  have hs : Consistent s := hpath.consistent_of_success
  obtain ⟨hiff, hlast⟩ := hrun.consistent_iff hs
  refine ⟨⟨fun h ↦ hiff.1 h.2, fun h ↦ ⟨hs, hiff.2 h⟩⟩, ?_⟩
  intro hrec c tr o k u hsteps
  exact ok_of_wp (wp_call c (hlast (hiff.2 hrec))) hsteps

/-! ### Two recoveries -/

/-- A controller that is initialised at once and then has a packet whose next-packet pointer is `0`;
`clock` is what `ESTAT` answers from then on. -/
def badPointerScript (clock : UInt8) (s : DrvState) : (o : DrvOp) → DrvOp.Ans o
  | .pend => osErrNone
  | .getBank => 0
  | .getNext => s.next
  | .readOp .readBufMem _ => 0
  | .readOp _ addr =>
    if addr = Reg.estat then if bufs s.readings = [] then 1 else clock
    else if addr = Reg.epktcnt then 1
    else if addr = Reg.maadr5 then 0x2
    else 0
  | .readBuf len => ⟨List.replicate len.toNat 0, List.length_replicate⟩
  | .post | .setBank _ | .setNext _ | .setLast _ | .reset | .writeOp _ _ _ | .writeBuf _ => ()

theorem badPointerScript_step (clock : UInt8) (s : DrvState) (o : DrvOp) :
    DrvState.step s ⟨o, badPointerScript clock s o⟩ (s.after ⟨o, badPointerScript clock s o⟩) := by
  refine DrvState.step_after fun ptr h ↦ ?_
  cases h
  rfl

/-- The first initialisation under the script. -/
def bootScript (clock : UInt8) : List (Event DrvOp DrvOp.Ans) × UInt8 × DrvState :=
  play (badPointerScript clock) DrvState.after (enc28j60Init enc28j60Mac) ⟨0, fun _ ↦ 0, []⟩

/-- The reception that follows it. -/
def recoveryScript (clock : UInt8) : List (Event DrvOp DrvOp.Ans) × Unit × DrvState :=
  play (badPointerScript clock) DrvState.after (LockedCall.packetReceive mamxfl).driver
    (bootScript clock).2.2

theorem returns_bootScript (clock : UInt8) (h : (bootScript clock).2.1 = 0) :
    Returns DrvState.step (enc28j60Init enc28j60Mac) ⟨0, fun _ ↦ 0, []⟩ (bootScript clock).1 0
      (bootScript clock).2.2 := by
  have hret : Returns DrvState.step (enc28j60Init enc28j60Mac) ⟨0, fun _ ↦ 0, []⟩
      (bootScript clock).1 (bootScript clock).2.1 (bootScript clock).2.2 :=
    returns_play (badPointerScript_step clock) _ _
  rwa [h] at hret

theorem callRun_recoveryScript (clock : UInt8) :
    CallRun (bootScript clock).2.2 [((recoveryScript clock).1, (recoveryScript clock).2.2)]
      (recoveryScript clock).2.2 :=
  .snoc (.packetReceive mamxfl) .nil (returns_play (badPointerScript_step clock) _ _)

/-- A bad pointer, and a clock that is stable at the first poll: the call recovers. -/
theorem consistent_iff_recovers_clock :
    Consistent (bootScript 1).2.2 ∧ ∀ e ∈ [((recoveryScript 1).1, (recoveryScript 1).2.2)],
      Consistent e.2 := by
  refine (consistent_iff_recovers enc28j60Mac _ _ _ _ _ (returns_bootScript 1 (by decide +kernel))
    (callRun_recoveryScript 1)).1.2 fun e he ↦ ?_
  rw [List.mem_singleton.1 he]
  intro next0 next1 hbufs hring
  have hready : ¬ (1 : UInt8) &&& 0x01 = 0 := by decide
  refine ⟨.reg Reg.estat 1, ?_, rfl, hready⟩
  have hten : ((readings (recoveryScript 1).1).drop 10).take 250 =
      .reg Reg.estat 1 :: (((readings (recoveryScript 1).1).drop 10).take 250).tail := by
    decide +kernel
  rw [hten]
  exact List.mem_cons_self

set_option maxRecDepth 20000 in
/-- **The pointer is not always consistent**: a bad pointer, and a clock that does not come back. -/
theorem not_consistent :
    ¬ ∀ (macaddr : Fin 6 → UInt8) (boot s t : DrvState) (tr : List (Event DrvOp DrvOp.Ans))
      (run : List (List (Event DrvOp DrvOp.Ans) × DrvState)),
      Returns DrvState.step (enc28j60Init macaddr) boot tr 0 s → CallRun s run t →
      Consistent s ∧ ∀ e ∈ run, Consistent e.2 := by
  intro h
  have hall := (h enc28j60Mac _ _ _ _ _ (returns_bootScript 0 (by decide +kernel))
    (callRun_recoveryScript 0)).2
  have hring : inRing (recoveryScript 0).2.2.next := (hall _ (List.mem_singleton_self _)).1
  have hzero : (recoveryScript 0).2.2.next = 0 := by decide +kernel
  have hout : ∀ ptr : UInt32, ptr = 0 → ¬ inRing ptr := by
    rintro _ rfl
    decide
  exact hout _ hzero hring

end YHAudioLink
