import YHAudioLink.Netif.Ethernetif

/-!
# Isolation of sent and received frames

Whatever the two tasks do to each other, the controller should be handed the payloads of the chain
it is handed for, and the chain returned to lwIP should hold the bytes the controller delivered. In
the trace that is `EthEvent.Intact`, event by event.

The lock does not give this, for it covers neither the gathering nor the scattering: a frame
received between the gathering and the transfer of another one is sent in its place
(`not_frames_isolated`), and a frame about to be sent is scattered into the chain of a received one.

The condition is about the two kinds of steps that write the array. Each task **needs** a range of
it: the sender what it has gathered and not yet handed over, the receiver what was delivered and not
yet scattered. `undisturbed` says that a write leaves the bytes the other task needs as they are,
and in a run of such steps every frame arrives intact (`frames_isolated`).
-/

namespace YHAudioLink

open ByteStore

/-- The law of an event: the bytes are the ones they should be. -/
def EthEvent.Intact : EthEvent → Prop
  | .sent p written => written = p.payloads.flatten
  | .input frame payloads => payloads.flatten = frame

instance EthEvent.decidableIntact : DecidablePred EthEvent.Intact
  | .sent p written => inferInstanceAs (Decidable (written = p.payloads.flatten))
  | .input frame payloads => inferInstanceAs (Decidable (payloads.flatten = frame))

/-! ### The guard -/

/-- The number of bytes, from the start of the array, the sender has gathered and not handed
over. -/
def OutputPc.needs : OutputPc → ℕ
  | .gather _ _ sendLen | .transmit _ sendLen => sendLen
  | _ => 0

/-- Where the bytes start that the receiver has still to scatter, and how many they are. -/
def InputPc.needs : InputPc → ℕ × ℕ
  | .post _ (some frame) | .alloc _ (some frame) => (0, frame.length)
  | .scatter (some _) lens revLen _ => (revLen, lens.sum)
  | _ => (0, 0)

/-- **The guard.** A copy into the array by the sender leaves the bytes the receiver needs as they
are, and a transfer into it those the sender needs. -/
def undisturbed (s : Ethernetif) : EthLabel → Bool
  | .gather =>
    match s.output with
    | .gather _ (q :: _) sendLen =>
      load (store s.buf sendLen q) s.input.needs.1 s.input.needs.2 ==
        load s.buf s.input.needs.1 s.input.needs.2
    | _ => true
  | .receive r => load (r.buffer s.buf) 0 s.output.needs == load s.buf 0 s.output.needs
  | _ => true

/-! ### The invariant -/

/-- What the array holds for the sender. -/
def OutputHolds (buf : ℕ → UInt8) : OutputPc → Prop
  | .gather p rest sendLen => ∃ done, p.payloads = done ++ rest ∧ load buf 0 sendLen = done.flatten
  | .transmit p sendLen => load buf 0 sendLen = p.payloads.flatten
  | _ => True

/-- What the array holds for the receiver: the delivered frame, or the part of it that is not
scattered yet. -/
def InputHolds (buf : ℕ → UInt8) : InputPc → Prop
  | .post ret (some frame) =>
    ret.toUInt16.toNat = frame.length ∧ load buf 0 frame.length = frame
  | .alloc len (some frame) => len.toNat = frame.length ∧ load buf 0 frame.length = frame
  | .scatter (some frame) lens revLen done => done.flatten ++ load buf revLen lens.sum = frame
  | _ => True

/-- The sender's part depends only on the bytes the sender needs. -/
theorem OutputHolds.congr {buf buf' : ℕ → UInt8} {pc : OutputPc} (h : OutputHolds buf pc)
    (hsame : load buf' 0 pc.needs = load buf 0 pc.needs) : OutputHolds buf' pc := by
  cases pc with
  | gather p rest sendLen =>
    obtain ⟨done, hdone, hload⟩ := h
    exact ⟨done, hdone, hsame.trans hload⟩
  | transmit p sendLen => exact hsame.trans h
  | idle | post => trivial

/-- The receiver's part depends only on the bytes the receiver needs. -/
theorem InputHolds.congr {buf buf' : ℕ → UInt8} {pc : InputPc} (h : InputHolds buf pc)
    (hsame : load buf' pc.needs.1 pc.needs.2 = load buf pc.needs.1 pc.needs.2) :
    InputHolds buf' pc := by
  cases pc with
  | idle | receive => trivial
  | post ret frame =>
    rcases frame with - | frame
    · trivial
    · exact ⟨h.1, hsame.trans h.2⟩
  | alloc len frame =>
    rcases frame with - | frame
    · trivial
    · exact ⟨h.1, hsame.trans h.2⟩
  | scatter frame lens revLen done =>
    rcases frame with - | frame
    · trivial
    · have hload : load buf' revLen lens.sum = load buf revLen lens.sum := hsame
      show done.flatten ++ load buf' revLen lens.sum = frame
      rw [hload]
      exact h

/-- **A transfer delivers its frame.** -/
theorem InputHolds.receive (buf : ℕ → UInt8) (r : RxResponse) :
    InputHolds (r.buffer buf) (.post r.ret r.frame) := by
  rcases r with - | - | len | ⟨count, rxstat, data⟩
  · trivial
  · trivial
  · trivial
  · refine ⟨?_, ?_⟩
    · rw [length_packetBytes]
      exact toNat_toUInt16_packetLen count rxstat
    · rw [RxResponse.buffer]
      split
      · next hbad =>
        rw [packetBytes_of_badStatus data hbad]
        rfl
      · exact load_store_left _ _ _ _

/-- A copied payload makes the gathered part longer. -/
theorem OutputHolds.gather {buf : ℕ → UInt8} {p : PbufChain} {q : List UInt8}
    {rest : List (List UInt8)} {sendLen : ℕ} (h : OutputHolds buf (.gather p (q :: rest) sendLen)) :
    OutputHolds (store buf sendLen q) (.gather p rest (sendLen + q.length)) := by
  obtain ⟨done, hdone, hload⟩ := h
  refine ⟨done ++ [q], by rw [hdone, List.append_assoc]; rfl, ?_⟩
  have happend := load_store_append buf 0 sendLen q
  rw [Nat.zero_add] at happend
  rw [happend, hload, List.flatten_append, List.flatten_singleton]

/-- A filled pbuf takes its bytes from the part that is left. -/
theorem InputHolds.scatter {buf : ℕ → UInt8} {frame : Option (List UInt8)} {q : ℕ} {lens : List ℕ}
    {revLen : ℕ} {done : List (List UInt8)}
    (h : InputHolds buf (.scatter frame (q :: lens) revLen done)) :
    InputHolds buf (.scatter frame lens (revLen + q) (done ++ [load buf revLen q])) := by
  rcases frame with - | frame
  · trivial
  · have hall : done.flatten ++ load buf revLen (q :: lens).sum = frame := h
    show (done ++ [load buf revLen q]).flatten ++ load buf (revLen + q) lens.sum = frame
    rw [List.flatten_append, List.flatten_singleton, List.append_assoc, ← load_add,
      ← List.sum_cons]
    exact hall

/-- The invariant of a guarded run. -/
structure Isolated (s : Ethernetif) : Prop where
  output : OutputHolds s.buf s.output
  input : InputHolds s.buf s.input
  trace : ∀ e ∈ s.trace, e.Intact

namespace Isolated

variable {s t : Ethernetif} {a : EthLabel}

theorem of_init (h : s.Init) : Isolated s := by
  obtain ⟨buf, rfl⟩ := h
  exact ⟨trivial, trivial, fun e he ↦ absurd he List.not_mem_nil⟩

/-- An event that is intact joins the trace. -/
theorem trace_cons (h : Isolated s) {e : EthEvent} (he : e.Intact) :
    ∀ e' ∈ e :: s.trace, e'.Intact := by
  intro e' he'
  rcases List.mem_cons.1 he' with rfl | he'
  · exact he
  · exact h.trace e' he'

/-- **Every admitted step keeps the frames apart.** -/
theorem step (h : Isolated s) (hok : undisturbed s a = true) (hst : EthMove s a t) :
    Isolated t := by
  have houtput := h.output
  have hinput := h.input
  cases hst with
  | lowLevelOutput p hpc => exact ⟨⟨[], rfl, rfl⟩, hinput, h.trace⟩
  | gather p q rest sendLen hpc =>
    rw [hpc] at houtput
    simp only [undisturbed, hpc, beq_iff_eq] at hok
    exact ⟨houtput.gather, hinput.congr hok, h.trace⟩
  | outputPend p sendLen hpc =>
    rw [hpc] at houtput
    obtain ⟨done, hdone, hload⟩ := houtput
    refine ⟨?_, hinput, h.trace⟩
    show load s.buf 0 sendLen = p.payloads.flatten
    rw [hload, hdone, List.append_nil]
  | transmit p sendLen accepted hpc =>
    rw [hpc] at houtput
    refine ⟨trivial, hinput, ?_⟩
    dsimp only
    split
    · exact h.trace_cons houtput
    · exact h.trace
  | outputPost hpc => exact ⟨trivial, hinput, h.trace⟩
  | inputPend hpc => exact ⟨houtput, trivial, h.trace⟩
  | receive r hpc =>
    simp only [undisturbed, beq_iff_eq] at hok
    exact ⟨houtput.congr hok, InputHolds.receive s.buf r, h.trace⟩
  | inputPost ret frame hpc =>
    rw [hpc] at hinput
    refine ⟨houtput, ?_, h.trace⟩
    dsimp only
    split
    · trivial
    · rcases frame with - | frame
      · trivial
      · exact hinput
  | alloc granted len frame hpc =>
    rw [hpc] at hinput
    refine ⟨houtput, ?_, h.trace⟩
    dsimp only
    split
    · rcases frame with - | frame
      · trivial
      · obtain ⟨hlen, hload⟩ := hinput
        show [].flatten ++ load s.buf 0 (pbufAllocLens len.toNat len.toNat).sum = frame
        rw [sum_pbufAllocLens le_rfl, hlen, hload]
        rfl
    · trivial
  | scatter frame q lens revLen done hpc =>
    rw [hpc] at hinput
    exact ⟨houtput, hinput.scatter, h.trace⟩
  | inputReturn frame revLen done hpc =>
    rw [hpc] at hinput
    have hall : done.flatten ++ load s.buf revLen ([] : List ℕ).sum = frame := hinput
    rw [List.sum_nil, load_zero, List.append_nil] at hall
    exact ⟨houtput, trivial, h.trace_cons hall⟩
  | inputReturnNone revLen done hpc => exact ⟨houtput, trivial, h.trace⟩

end Isolated

/-! ### The law -/

/-- **Isolation.** In every run in which no write to `s_lwip_buf` changes a byte the other task
still needs: the bytes handed to the controller for a chain are the concatenation of its payloads,
and the chain returned for a frame holds the bytes the controller delivered. -/
theorem frames_isolated {s : Ethernetif} (h : EthReachable undisturbed s) :
    ∀ e ∈ s.trace, e.Intact := by
  have hinv : Isolated s :=
    h.invariant (fun _ ↦ Isolated.of_init) fun _ _ _ hs hok hst ↦ hs.step hok (ethMove_of_step hst)
  exact hinv.trace

/-- The boot state with a zeroed array. -/
def Ethernetif.zeroBoot : Ethernetif := ⟨fun _ ↦ 0, 1, .idle, .idle, []⟩

theorem Ethernetif.exists_reachable (ok : Ethernetif → EthLabel → Bool) (as : List EthLabel)
    (p : Ethernetif → Bool)
    (h : (Runs.execOk Ethernetif.step ok Ethernetif.zeroBoot as).map p = some true) :
    ∃ s, EthReachable ok s ∧ p s = true :=
  Runs.exists_reachable_of_execOk ⟨_, rfl⟩ h

/-- A chain of two payloads. -/
def twoPayloads : PbufChain := ⟨[[1, 2], [3]], by decide⟩

/-- One whole call of `low_level_input` for a frame of one byte. -/
def inputRun (byte : UInt8) : List EthLabel :=
  [.inputPend, .receive (.packet 5 0x80 fun _ ↦ byte), .inputPost, .alloc true, .scatter, .scatter]

/-- A frame is sent and another one received; the first payload is gathered while the input task
waits for the lock to be posted. -/
theorem frames_isolated_both_ways : ∃ s : Ethernetif,
    s.trace = [.input [9] [[9]], .sent twoPayloads [1, 2, 3]] ∧ ∀ e ∈ s.trace, e.Intact := by
  obtain ⟨s, hs, hp⟩ := Ethernetif.exists_reachable undisturbed
    ([.inputPend, .lowLevelOutput twoPayloads, .gather, .receive .noPacket, .inputPost, .gather,
      .outputPend, .transmit true, .outputPost] ++ inputRun 9)
    (fun s ↦ decide (s.trace = [.input [9] [[9]], .sent twoPayloads [1, 2, 3]])) (by decide)
  exact ⟨s, of_decide_eq_true hp, frames_isolated hs⟩

/-- **Without the guard the frames mix.** The chain `1 2 3` has been gathered when a frame of the
one byte `9` is received; what the controller is then handed begins with that frame. -/
theorem not_frames_isolated : ¬ ∀ s : Ethernetif, EthReachable Runs.everyStep s →
    ∀ e ∈ s.trace, e.Intact := by
  intro hall
  obtain ⟨s, hs, hp⟩ := Ethernetif.exists_reachable Runs.everyStep
    ([.lowLevelOutput twoPayloads, .gather, .gather] ++ inputRun 9 ++
      [.outputPend, .transmit true])
    (fun s ↦ !(s.trace.all fun e ↦ decide e.Intact)) (by decide)
  have hintact : (s.trace.all fun e ↦ decide e.Intact) = true :=
    List.all_eq_true.2 fun e he ↦ decide_eq_true (hall s hs e he)
  rw [hintact] at hp
  exact Bool.noConfusion hp

/-! ### Staying inside the array -/

/-- How far the gathering has come. -/
def Gathered : OutputPc → Prop
  | .gather p rest sendLen => ∃ done, p.payloads = done ++ rest ∧ sendLen = done.flatten.length
  | .transmit p sendLen => sendLen = p.payloads.flatten.length
  | _ => True

theorem gathered_of_reachable {ok : Ethernetif → EthLabel → Bool} {s : Ethernetif}
    (h : EthReachable ok s) : Gathered s.output := by
  refine h.invariant (?_ : ∀ s : Ethernetif, s.Init → Gathered s.output) ?_
  · rintro s ⟨buf, rfl⟩
    trivial
  · intro s a t hs _ hst
    cases ethMove_of_step hst with
    | lowLevelOutput p => exact ⟨[], rfl, rfl⟩
    | gather p q rest sendLen hpc =>
      rw [hpc] at hs
      obtain ⟨done, hdone, rfl⟩ := hs
      refine ⟨done ++ [q], by rw [hdone, List.append_assoc]; rfl, ?_⟩
      rw [List.flatten_append, List.length_append, List.flatten_singleton]
    | outputPend p sendLen hpc =>
      rw [hpc] at hs
      obtain ⟨done, hdone, hlen⟩ := hs
      show sendLen = p.payloads.flatten.length
      rw [hlen, hdone, List.append_nil]
    | transmit | outputPost => trivial
    | inputPend | receive | inputPost | alloc | scatter | inputReturn | inputReturnNone => exact hs

/-- **No copy and no transfer writes past the end of the array**, in any run. -/
theorem writes_in_bounds {ok : Ethernetif → EthLabel → Bool} {s : Ethernetif}
    (h : EthReachable ok s) :
    (∀ p q rest sendLen, s.output = .gather p (q :: rest) sendLen →
      sendLen + q.length ≤ lwipBufSize) ∧
    ∀ count rxstat data, (packetBytes count rxstat data ++ [0]).length ≤ lwipBufSize := by
  constructor
  · intro p q rest sendLen hpc
    have hgathered := gathered_of_reachable h
    rw [hpc] at hgathered
    obtain ⟨done, hdone, rfl⟩ := hgathered
    have hfit := p.length_le
    rw [hdone, List.flatten_append, List.flatten_cons, List.length_append,
      List.length_append] at hfit
    omega
  · intro count rxstat data
    have hlt := toNat_packetLen_lt count rxstat
    rw [List.length_append, length_packetBytes, List.length_singleton]
    show _ ≤ 2048
    omega

end YHAudioLink
