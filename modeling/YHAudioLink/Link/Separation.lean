import YHAudioLink.Board.PoolConservation
import YHAudioLink.Pc.Messages

/-!
# Commands and audio on one port

The PC sends commands, headers and recorded samples to one UDP port with no framing, and the board
tells them apart by what they begin with: `parse_AT` looks for `A`, `T`, and `play()` looks for
`R`, `I`, `F`. **Separation** says that the two agree, for every sequence of messages delivered in
order: the line follows the commands, every other datagram is put back for playback with the length
it was received with, and only a header is skipped.

It fails for the samples that look like something else (`not_separated`). What does hold is
separation up to these: a block that begins with `AT` may act as a command, a block that begins with
`RIF` may be skipped, and nothing else is ever taken for what it is not (`separated_up_to_start`).

The proof follows the first three bytes of a payload. Every datagram of the PC has at least that
many, so a receive replaces whatever a recycled buffer began with; what the two classifiers look at
is the beginning of the last datagram received there, even when `play()` looks at a buffer it has
already put back.
-/

namespace YHAudioLink

/-! ### Receives and enqueues in the trace -/

/-- The payloads received, oldest first. -/
def payloads : List Event → List (List UInt8)
  | [] => []
  | .recv (.datagram _ payload) :: tr => payloads tr ++ [payload]
  | _ :: tr => payloads tr

/-- The lengths with which the server put its buffer back, oldest first. -/
def enqueued : List Event → List ℤ
  | [] => []
  | .enqueue len :: tr => enqueued tr ++ [len]
  | _ :: tr => enqueued tr

theorem payloads_lineEvents (x y : Bool) (tr : List Event) :
    payloads (lineEvents x y ++ tr) = payloads tr := by
  rcases x with - | - <;> rcases y with - | - <;> rfl

theorem enqueued_lineEvents (x y : Bool) (tr : List Event) :
    enqueued (lineEvents x y ++ tr) = enqueued tr := by
  rcases x with - | - <;> rcases y with - | - <;> rfl

theorem receipts_lineEvents (x y : Bool) (tr : List Event) :
    receipts (lineEvents x y ++ tr) = receipts tr := by
  rcases x with - | - <;> rcases y with - | - <;> rfl

theorem skip_mem_lineEvents {x y : Bool} {tr : List Event} {blk : List Octet}
    (h : .skip blk ∈ lineEvents x y ++ tr) : .skip blk ∈ tr := by
  rcases x with - | - <;> rcases y with - | - <;> simpa [lineEvents] using h

/-- The payload is that of a message of the PC. -/
def isPcPayload (payload : List UInt8) : Bool :=
  payload == PcMessage.lineEstablish.bytes || payload == PcMessage.lineShutDown.bytes ||
    payload == getWavHeader || payload.length == 800

theorem isPcPayload_iff (payload : List UInt8) :
    isPcPayload payload = true ↔ ∃ m : PcMessage, m.bytes = payload := by
  simp only [isPcPayload, Bool.or_eq_true, beq_iff_eq]
  constructor
  · rintro (((h | h) | h) | h)
    · exact ⟨.lineEstablish, h.symm⟩
    · exact ⟨.lineShutDown, h.symm⟩
    · exact ⟨.wavHeader, h.symm⟩
    · exact ⟨.pcm ⟨payload, h⟩, rfl⟩
  · rintro ⟨m, rfl⟩
    rcases m with - | - | - | blk
    · exact Or.inl (Or.inl (Or.inl rfl))
    · exact Or.inl (Or.inl (Or.inr rfl))
    · exact Or.inl (Or.inr rfl)
    · exact Or.inr blk.length_eq

/-- **The setting.** Every return of `recvfrom` delivers a message of the PC. -/
def fromPc (_ : Board) : Label → Bool
  | .recvfrom (.datagram _ payload) => isPcPayload payload
  | .recvfrom _ => false
  | _ => true

/-! ### The law -/

/-- Separation of a state reached with the messages `sent`: `command` says which messages may act on
the line, `header` which may be skipped. -/
structure Separated (command header : PcMessage → Bool) (s : Board) (sent : List PcMessage) :
    Prop where
  /-- The line changes only when the server processes a command. -/
  line : ∀ a t, s.step a = some t → t.line ≠ s.line →
    (∃ b, s.server = .parse b) ∧ ∃ m, sent.getLast? = some m ∧ command m = true
  /-- Every datagram is put back, a command with length zero and anything else with its received
  length; at most the last one is still in the server's hands. -/
  enqueued : enqueued s.trace <+:
    sent.map fun m ↦ if command m then (0 : ℤ) else m.bytes.length
  pending : sent.length ≤ (YHAudioLink.enqueued s.trace).length + 1
  /-- What `play()` skips began with bytes of a header. -/
  skipped : ∀ blk, .skip blk ∈ s.trace → ∃ o k m, blk.head? = some o ∧ o.stamp = k + 1 ∧
    sent[k]? = some m ∧ header m = true

/-! ### The first three bytes -/

/-- The buffer begins with the first three bytes of the payload. -/
def Starts (b : RevBuffer) (payload : List UInt8) : Prop :=
  ∃ rest, payload = b.bytes 0 :: b.bytes 1 :: b.bytes 2 :: rest

/-- A payload of at least three bytes determines what the buffer begins with. -/
theorem starts_recvfrom (b : RevBuffer) (n : ℕ) (src : Endpoint) (m : PcMessage) :
    Starts (b.recvfrom n (.datagram src m.bytes)) m.bytes := by
  have hlong := m.three_le_length_bytes
  obtain ⟨x, y, z, rest, hbytes⟩ : ∃ x y z rest, m.bytes = x :: y :: z :: rest := by
    rcases hm : m.bytes with - | ⟨x, - | ⟨y, - | ⟨z, rest⟩⟩⟩
    · simp [hm] at hlong
    · simp [hm] at hlong
    · simp [hm] at hlong
    · exact ⟨x, y, z, rest, rfl⟩
  refine ⟨rest, ?_⟩
  rw [hbytes]
  simp [RevBuffer.bytes, RevBuffer.recvfrom, received]

/-- `parse_AT` decides on a buffer as the payload it begins with. -/
theorem Starts.isAT {b : RevBuffer} {payload : List UInt8} (h : Starts b payload) :
    isAT b.bytes = isCommand payload := by
  obtain ⟨rest, rfl⟩ := h
  rw [Bool.eq_iff_iff]
  simp [YHAudioLink.isAT, isCommand]

/-- The header test succeeds on a buffer that begins with `RIF`. -/
theorem Starts.rif {b : RevBuffer} {payload : List UInt8} (h : Starts b payload)
    (hwav : isWavHeader b.bytes = true) : ∃ rest, payload = 0x52 :: 0x49 :: 0x46 :: rest := by
  obtain ⟨rest, rfl⟩ := h
  simp only [isWavHeader, Bool.and_eq_true, beq_iff_eq] at hwav
  obtain ⟨⟨⟨h₀, h₁⟩, h₂⟩, -⟩ := hwav
  exact ⟨rest, by rw [h₀, h₁, h₂]⟩

/-! ### The invariant -/

/-- The length a payload is put back with. -/
def playLen (payload : List UInt8) : ℤ := if isCommand payload then 0 else payload.length

/-- Where the server is in processing the last datagram. -/
def ServerStage (s : Board) : Prop :=
  match s.server with
  | .dequeue | .recvfrom _ => enqueued s.trace = (payloads s.trace).map playLen
  | .parse b => ∃ ps p, payloads s.trace = ps ++ [p] ∧ enqueued s.trace = ps.map playLen ∧
      (s.pool b).len = p.length ∧ Starts (s.pool b) p
  | .postRec b | .postPlay b | .enqueue b => ∃ ps p, payloads s.trace = ps ++ [p] ∧
      enqueued s.trace = ps.map playLen ∧ (s.pool b).len = playLen p

/-- The buffer begins with a payload received, the one its first octet is stamped with. -/
def Headed (tr : List Event) (b : RevBuffer) : Prop :=
  ∃ k p, (b.data 0).stamp = k + 1 ∧ (payloads tr)[k]? = some p ∧ Starts b p

/-- The buffer `play()` has taken, with a length to play. -/
def PlayPc.taken : PlayPc → Option BufId
  | .put b len | .inspect b len => if 0 < len then some b else none
  | _ => none

/-- The invariant of a run that delivers messages of the PC. -/
structure PcRun (s : Board) : Prop where
  messages : ∀ p ∈ payloads s.trace, ∃ m : PcMessage, m.bytes = p
  receipts_eq : receipts s.trace = (payloads s.trace).length
  stage : ServerStage s
  filled : ∀ b, 0 < (s.pool b).len → Headed s.trace (s.pool b)
  taken : ∀ b, s.play.taken = some b → Headed s.trace (s.pool b)
  skipped : ∀ blk, .skip blk ∈ s.trace → ∃ o k rest, blk.head? = some o ∧ o.stamp = k + 1 ∧
    (payloads s.trace)[k]? = some (0x52 :: 0x49 :: 0x46 :: rest)

theorem getElem?_of_isPrefix {α : Type*} {xs ys : List α} {k : ℕ} {x : α} (hpre : xs <+: ys)
    (h : xs[k]? = some x) : ys[k]? = some x := by
  obtain ⟨rest, rfl⟩ := hpre
  obtain ⟨hk, -⟩ := List.getElem?_eq_some_iff.1 h
  rw [List.getElem?_append_left hk, h]

/-- Later receives do not change which payload has a number. -/
theorem Headed.mono {tr tr' : List Event} {b : RevBuffer} (h : Headed tr b)
    (hpre : payloads tr <+: payloads tr') : Headed tr' b := by
  obtain ⟨k, p, hk, hp, hstarts⟩ := h
  exact ⟨k, p, hk, getElem?_of_isPrefix hpre hp, hstarts⟩

/-- The stage depends on the buffer in the server's hands and on nothing else of the pool. -/
theorem ServerStage.of_held {s t : Board} (h : ServerStage s) (hserver : t.server = s.server)
    (hpool : ∀ b, s.server.holds = some b → t.pool b = s.pool b)
    (hpay : payloads t.trace = payloads s.trace) (henq : enqueued t.trace = enqueued s.trace) :
    ServerStage t := by
  unfold ServerStage at h ⊢
  rw [hserver, hpay, henq]
  cases hpc : s.server with
  | dequeue | recvfrom =>
    rw [hpc] at h
    exact h
  | parse b | postRec b | postPlay b | enqueue b =>
    rw [hpc] at h
    dsimp only
    rw [hpool b (by rw [hpc]; rfl)]
    exact h

namespace PcRun

variable {s t : Board} {a : Label}

theorem of_init (h : s.Init) : PcRun s := by
  obtain ⟨-, hlen⟩ := h.pool_queue
  obtain ⟨data, a, c, rfl⟩ := h
  refine ⟨fun p hp ↦ absurd hp List.not_mem_nil, rfl, rfl, ?_, fun b hb ↦ ?_,
    fun blk hblk ↦ absurd hblk List.not_mem_nil⟩
  · intro b hb
    rw [hlen b] at hb
    exact absurd hb (lt_irrefl _)
  · simp [Board.boot, PlayPc.taken] at hb

/-- A step that changes neither the pool nor the receives, nor takes a buffer. -/
theorem of_same (h : PcRun s) (hpool : t.pool = s.pool)
    (hplay : ∀ b, t.play.taken = some b → s.play.taken = some b)
    (hpay : payloads t.trace = payloads s.trace) (hreceipts : receipts t.trace = receipts s.trace)
    (hskip : ∀ blk, .skip blk ∈ t.trace → .skip blk ∈ s.trace) (hstage : ServerStage t) :
    PcRun t := by
  have hheaded : ∀ b, Headed s.trace (s.pool b) → Headed t.trace (t.pool b) := by
    intro b hb
    rw [hpool]
    exact hb.mono (hpay ▸ List.prefix_refl _)
  refine ⟨by rw [hpay]; exact h.messages, by rw [hreceipts, hpay]; exact h.receipts_eq, hstage,
    fun b hb ↦ hheaded b (h.filled b (by rw [← hpool]; exact hb)),
    fun b hb ↦ hheaded b (h.taken b (hplay b hb)), ?_⟩
  intro blk hblk
  rw [hpay]
  exact h.skipped blk (hskip blk hblk)

/-- **A receive.** The buffer now begins with the payload that has just been numbered. -/
theorem recvfrom (h : PcRun s) {b : BufId} {r : RecvFrom} (hpc : s.server = .recvfrom (some b))
    (hok : fromPc s (.recvfrom r) = true) (remoteSin : SockAddrIn) :
    PcRun { s with
      pool := Function.update s.pool b ((s.pool b).recvfrom (receipts s.trace + 1) r)
      remoteSin := remoteSin
      server := .parse b
      trace := .recv r :: s.trace } := by
  obtain ⟨src, m, rfl⟩ : ∃ src m, r = .datagram src (PcMessage.bytes m) := by
    rcases r with - | - | ⟨src, p⟩
    · exact Bool.noConfusion hok
    · exact Bool.noConfusion hok
    · obtain ⟨m, rfl⟩ := (isPcPayload_iff p).1 hok
      exact ⟨src, m, rfl⟩
  have hpay : payloads (.recv (.datagram src m.bytes) :: s.trace) =
      payloads s.trace ++ [m.bytes] := rfl
  have hpre : payloads s.trace <+: payloads (.recv (.datagram src m.bytes) :: s.trace) :=
    List.prefix_append _ _
  have hlong := m.three_le_length_bytes
  have hshort := m.length_bytes_le
  have hreceived : received m.bytes = m.bytes :=
    List.take_of_length_le (by simp only [rcvBufferSize]; omega)
  -- the buffer received into begins with the new payload, the others are as they were
  have hfresh : Headed (.recv (.datagram src m.bytes) :: s.trace)
      ((s.pool b).recvfrom (receipts s.trace + 1) (.datagram src m.bytes)) := by
    refine ⟨(payloads s.trace).length, m.bytes, ?_, ?_, starts_recvfrom _ _ _ _⟩
    · rw [RevBuffer.recvfrom_data_of_lt (by rw [hreceived]; omega), h.receipts_eq]
    · rw [hpay, List.getElem?_concat_length]
  have hheaded : ∀ c, (c ≠ b → Headed s.trace (s.pool c)) →
      Headed (.recv (.datagram src m.bytes) :: s.trace) (Function.update s.pool b
        ((s.pool b).recvfrom (receipts s.trace + 1) (.datagram src m.bytes)) c) := by
    intro c hc
    rcases eq_or_ne c b with rfl | hne
    · rw [Function.update_self]
      exact hfresh
    · rw [Function.update_of_ne hne]
      exact (hc hne).mono hpre
  refine ⟨?_, ?_, ?_, ?_, ?_, ?_⟩
  · intro p hp
    rcases List.mem_append.1 hp with hp | hp
    · exact h.messages p hp
    · exact ⟨m, (List.mem_singleton.1 hp).symm⟩
  · show receipts s.trace + 1 = (payloads s.trace ++ [m.bytes]).length
    rw [h.receipts_eq, List.length_append, List.length_singleton]
  · have hstage := h.stage
    rw [ServerStage, hpc] at hstage
    refine ⟨payloads s.trace, m.bytes, rfl, hstage, ?_, ?_⟩
    · dsimp only
      rw [Function.update_self, RevBuffer.recvfrom_len, RecvFrom.ret, hreceived]
    · dsimp only
      rw [Function.update_self]
      exact starts_recvfrom _ _ _ _
  · intro c hc
    refine hheaded c fun hne ↦ h.filled c ?_
    dsimp only at hc
    rwa [Function.update_of_ne hne] at hc
  · exact fun c hc ↦ hheaded c fun _ ↦ h.taken c hc
  · intro blk hblk
    obtain ⟨o, k, rest, ho, hk, hp⟩ := h.skipped blk (by simpa using hblk)
    exact ⟨o, k, rest, ho, hk, getElem?_of_isPrefix hpre hp⟩

/-- The payload is not a command: it will be put back with its received length. -/
theorem serverData (h : PcRun s) {b : BufId} (hpc : s.server = .parse b)
    (hat : isAT (s.pool b).bytes = false) : PcRun { s with server := .enqueue b } := by
  have hstage := h.stage
  rw [ServerStage, hpc] at hstage
  obtain ⟨ps, p, hpay, henq, hlen, hstarts⟩ := hstage
  refine h.of_same rfl (fun _ ↦ id) rfl rfl (fun _ ↦ id) ⟨ps, p, hpay, henq, ?_⟩
  rw [playLen, ← hstarts.isAT, hat]
  exact hlen

/-- Clearing a length keeps what the buffers begin with. -/
theorem headed_clear {tr : List Event} {pool : BufId → RevBuffer} (b c : BufId)
    (h : Headed tr (pool c)) : Headed tr (Function.update pool b (pool b).clear c) := by
  rcases eq_or_ne c b with rfl | hne
  · rw [Function.update_self]
    exact h
  · rw [Function.update_of_ne hne]
    exact h

/-- A buffer still filled after one has been cleared is another one. -/
theorem filled_of_clear {pool : BufId → RevBuffer} {b c : BufId}
    (h : 0 < (Function.update pool b (pool b).clear c).len) : 0 < (pool c).len := by
  rcases eq_or_ne c b with rfl | hne
  · rw [Function.update_self, RevBuffer.clear_len] at h
    exact absurd h (lt_irrefl _)
  · rwa [Function.update_of_ne hne] at h

/-- The payload is a command: it will be put back with length zero. -/
theorem serverCommand (h : PcRun s) {b : BufId} (line : Bool) (hpc : s.server = .parse b)
    (hat : isAT (s.pool b).bytes = true) :
    PcRun { s with
      pool := Function.update s.pool b (s.pool b).clear
      line := line
      server := if line then .postRec b else .enqueue b
      trace := lineEvents s.line line ++ s.trace } := by
  have hstage := h.stage
  rw [ServerStage, hpc] at hstage
  obtain ⟨ps, p, hpay, henq, -, hstarts⟩ := hstage
  have hpre : payloads s.trace <+: payloads (lineEvents s.line line ++ s.trace) := by
    rw [payloads_lineEvents]
  refine ⟨?_, ?_, ?_, ?_, ?_, ?_⟩
  · rw [payloads_lineEvents]
    exact h.messages
  · rw [payloads_lineEvents, receipts_lineEvents]
    exact h.receipts_eq
  · have hlast : ∃ ps p, payloads (lineEvents s.line line ++ s.trace) = ps ++ [p] ∧
        enqueued (lineEvents s.line line ++ s.trace) = ps.map playLen ∧
          (Function.update s.pool b (s.pool b).clear b).len = playLen p := by
      refine ⟨ps, p, by rw [payloads_lineEvents, hpay], by rw [enqueued_lineEvents, henq], ?_⟩
      rw [Function.update_self, RevBuffer.clear_len, playLen, ← hstarts.isAT, hat, if_pos rfl]
    rcases line with - | -
    · exact hlast
    · exact hlast
  · exact fun c hc ↦ (headed_clear b c (h.filled c (filled_of_clear hc))).mono hpre
  · exact fun c hc ↦ (headed_clear b c (h.taken c hc)).mono hpre
  · intro blk hblk
    rw [payloads_lineEvents]
    exact h.skipped blk (skip_mem_lineEvents hblk)

/-- The buffer is put back with the length of its payload. -/
theorem serverEnqueue (h : PcRun s) {b : BufId} (hpc : s.server = .enqueue b)
    (queue : List BufId) :
    PcRun { s with
      queue := queue, server := .dequeue, trace := .enqueue (s.pool b).len :: s.trace } := by
  have hstage := h.stage
  rw [ServerStage, hpc] at hstage
  obtain ⟨ps, p, hpay, henq, hlen⟩ := hstage
  refine h.of_same rfl (fun _ ↦ id) rfl rfl (fun blk hblk ↦ by simpa using hblk) ?_
  show enqueued s.trace ++ [(s.pool b).len] = (payloads s.trace).map playLen
  rw [henq, hpay, hlen, List.map_append, List.map_singleton]

/-- The player takes a buffer: what it begins with was received. -/
theorem playTake (hc : Conserved s) (h : PcRun s) {b : BufId} (hpc : s.play = .take (some b)) :
    PcRun { s with
      pool := Function.update s.pool b (s.pool b).clear, play := .put b (s.pool b).len } := by
  refine ⟨h.messages, h.receipts_eq, ?_, ?_, ?_, h.skipped⟩
  · refine h.stage.of_held rfl (fun c hserver ↦ ?_) rfl rfl
    have hne : c ≠ b := hc.server_ne_play hserver (by rw [hpc]; rfl)
    exact Function.update_of_ne hne _ _
  · exact fun c hc ↦ headed_clear b c (h.filled c (filled_of_clear hc))
  · intro c hc
    rw [PlayPc.taken] at hc
    split at hc
    · next hlen =>
      obtain rfl : b = c := Option.some.inj hc
      exact headed_clear b b (h.filled b hlen)
    · exact absurd hc (by simp)

/-- A skipped buffer begins with `RIF`, and so does the payload it begins with. -/
theorem playSkip (h : PcRun s) {b : BufId} {len : ℤ} (hpc : s.play = .inspect b len)
    (hlen : 0 < len) (hwav : isWavHeader (s.pool b).bytes = true) :
    PcRun { s with play := .dequeue, trace := .skip ((s.pool b).octets len) :: s.trace } := by
  refine ⟨h.messages, h.receipts_eq, h.stage.of_held rfl (fun _ _ ↦ rfl) rfl rfl, h.filled,
    fun c hc ↦ absurd hc (by simp [PlayPc.taken]), ?_⟩
  intro blk hblk
  rcases List.mem_cons.1 hblk with hblk | hblk
  · obtain rfl := Event.skip.inj hblk
    obtain ⟨k, p, hk, hp, hstarts⟩ := h.taken b (by rw [hpc]; exact if_pos hlen)
    obtain ⟨rest, rfl⟩ := hstarts.rif hwav
    exact ⟨(s.pool b).data 0, k, rest, RevBuffer.head?_octets hlen, hk, hp⟩
  · exact h.skipped blk hblk

/-- **Every step that delivers messages of the PC keeps the invariant.** -/
theorem step (hc : Conserved s) (h : PcRun s) (hok : fromPc s a = true) (hst : Move s a t) :
    PcRun t := by
  have hstage := h.stage
  cases hst with
  | serverDequeue hpc =>
    rw [ServerStage, hpc] at hstage
    exact h.of_same rfl (fun _ ↦ id) rfl rfl (fun _ ↦ id) hstage
  | serverRecvfrom b r hpc => exact h.recvfrom hpc hok _
  | serverData b hpc hat => exact h.serverData hpc hat
  | serverCommand b line hpc hat => exact h.serverCommand line hpc hat
  | serverPostRec b hpc =>
    rw [ServerStage, hpc] at hstage
    split
    · exact h.of_same rfl (fun _ ↦ id) rfl rfl (fun blk hblk ↦ by simpa using hblk) hstage
    · exact h.of_same rfl (fun _ ↦ id) rfl rfl (fun _ ↦ id) hstage
  | serverPostPlay b hpc =>
    rw [ServerStage, hpc] at hstage
    exact h.of_same rfl (fun _ ↦ id) rfl rfl (fun _ ↦ id) hstage
  | serverEnqueue b hpc => exact h.serverEnqueue hpc _
  | playTake b hpc => exact h.playTake hc hpc
  | playPut b len hpc =>
    exact h.of_same rfl (fun c hc ↦ by rw [hpc]; exact hc) rfl rfl (fun _ ↦ id)
      (hstage.of_held rfl (fun _ _ ↦ rfl) rfl rfl)
  | playSkip b len hpc hlen hwav => exact h.playSkip hpc hlen hwav
  | playCheck hpc =>
    refine h.of_same rfl (fun c hc ↦ ?_) rfl rfl (fun _ ↦ id)
      (hstage.of_held rfl (fun _ _ ↦ rfl) rfl rfl)
    rcases hline : s.line with - | - <;> simp [hline, PlayPc.taken] at hc
  | playSend blk hpc =>
    exact h.of_same rfl (fun c hc ↦ by simp [PlayPc.taken] at hc) rfl rfl
      (fun blk hblk ↦ by simpa using hblk) (hstage.of_held rfl (fun _ _ ↦ rfl) rfl rfl)
  | playPend | playDequeue | playEmpty | playInspect | playCopy =>
    exact h.of_same rfl (fun c hc ↦ by simp [PlayPc.taken] at hc) rfl rfl (fun _ ↦ id)
      (hstage.of_held rfl (fun _ _ ↦ rfl) rfl rfl)
  | clientPend | clientHeader | clientBlock =>
    exact h.of_same rfl (fun _ ↦ id) rfl rfl (fun blk hblk ↦ by simpa using hblk)
      (hstage.of_held rfl (fun _ _ ↦ rfl) rfl rfl)
  | clientReadAddr | clientReadPort | clientNoBlock | clientCheck =>
    exact h.of_same rfl (fun _ ↦ id) rfl rfl (fun _ ↦ id)
      (hstage.of_held rfl (fun _ _ ↦ rfl) rfl rfl)

theorem of_reachable (h : BoardReachable fromPc s) : PcRun s :=
  h.invariant_of (fun _ ↦ PcRun.of_init) fun _ _ _ hc hs hok hm ↦ hs.step hc hok hm

/-- The server works through the datagrams in order, one at a time. -/
theorem enqueued_isPrefix (h : PcRun s) :
    enqueued s.trace <+: (payloads s.trace).map playLen ∧
      (payloads s.trace).length ≤ (enqueued s.trace).length + 1 := by
  have hall : ∀ {e : List ℤ} {ps : List (List UInt8)}, e = ps.map playLen →
      e <+: ps.map playLen ∧ ps.length ≤ e.length + 1 := by
    rintro e ps rfl
    exact ⟨List.prefix_refl _, by rw [List.length_map]; omega⟩
  have hinit : ∀ {e : List ℤ} {pps ps : List (List UInt8)} {p : List UInt8}, pps = ps ++ [p] →
      e = ps.map playLen → e <+: pps.map playLen ∧ pps.length ≤ e.length + 1 := by
    rintro e pps ps p rfl rfl
    rw [List.map_append, List.length_append, List.length_map, List.length_singleton]
    exact ⟨List.prefix_append _ _, le_rfl⟩
  have hstage := h.stage
  cases hpc : s.server with
  | dequeue | recvfrom =>
    rw [ServerStage, hpc] at hstage
    exact hall hstage
  | parse b =>
    rw [ServerStage, hpc] at hstage
    obtain ⟨ps, p, hpay, henq, -⟩ := hstage
    exact hinit hpay henq
  | postRec b | postPlay b | enqueue b =>
    rw [ServerStage, hpc] at hstage
    obtain ⟨ps, p, hpay, henq, -⟩ := hstage
    exact hinit hpay henq

end PcRun

/-! ### Messages and the classifiers -/

namespace PcMessage

/-- The messages `parse_AT` takes for a command: the two commands and the blocks that begin with
`AT`. -/
def actsAsCommand (m : PcMessage) : Bool := m.isLineCommand || m.isPcmStarting [0x41, 0x54]

/-- The messages `play()` may skip: the header and the blocks that begin with `RIF`. -/
def maySkip (m : PcMessage) : Bool := m.isHeader || m.isPcmStarting [0x52, 0x49, 0x46]

theorem isCommand_bytes (m : PcMessage) : isCommand m.bytes = m.actsAsCommand := by
  rcases m with - | - | - | ⟨samples, hlen⟩
  · rfl
  · rfl
  · obtain ⟨rest, hrest⟩ := exists_bytes_wavHeader
    rw [hrest]
    rfl
  · rcases samples with - | ⟨x, - | ⟨y, rest⟩⟩
    · simp at hlen
    · simp at hlen
    · simp [bytes, isCommand, actsAsCommand, isLineCommand, isPcmStarting, List.isPrefixOf,
        Bool.beq_comm (a := x), Bool.beq_comm (a := y)]

theorem maySkip_of_bytes {m : PcMessage} {rest : List UInt8}
    (h : m.bytes = 0x52 :: 0x49 :: 0x46 :: rest) : m.maySkip = true := by
  rcases m with - | - | - | ⟨samples, hlen⟩
  · simp [bytes] at h
  · simp [bytes] at h
  · rfl
  · obtain rfl : samples = 0x52 :: 0x49 :: 0x46 :: rest := h
    simp [maySkip, isHeader, isPcmStarting, List.isPrefixOf]

theorem playLen_bytes (m : PcMessage) :
    playLen m.bytes = if m.actsAsCommand then (0 : ℤ) else m.bytes.length := by
  rw [playLen, m.isCommand_bytes]

end PcMessage

/-! ### The law, up to the prefixes -/

/-- Only the processing of a datagram that looks like a command changes the line. -/
theorem isAT_of_line_ne {s t : Board} {a : Label} (hst : Move s a t) (hne : t.line ≠ s.line) :
    ∃ b, s.server = .parse b ∧ isAT (s.pool b).bytes = true := by
  cases hst with
  | serverCommand b line hpc hat => exact ⟨b, hpc, hat⟩
  | serverDequeue | serverRecvfrom | serverData | serverPostRec | serverPostPlay | serverEnqueue
  | playPend | playDequeue | playTake | playPut | playEmpty | playSkip | playInspect | playCopy
  | playSend | playCheck | clientPend | clientReadAddr | clientReadPort | clientHeader | clientBlock
  | clientNoBlock | clientCheck => exact absurd rfl hne

/-- What the invariant says of the classifiers. -/
theorem PcRun.separated {s : Board} (hrun : PcRun s) {sent : List PcMessage}
    (hsent : payloads s.trace = sent.map PcMessage.bytes) :
    Separated PcMessage.actsAsCommand PcMessage.maySkip s sent := by
  have hmap : (sent.map fun m ↦ if m.actsAsCommand then (0 : ℤ) else m.bytes.length) =
      (payloads s.trace).map playLen := by
    rw [hsent, List.map_map]
    exact List.map_congr_left fun m _ ↦ m.playLen_bytes.symm
  have hlength : sent.length = (payloads s.trace).length := by rw [hsent, List.length_map]
  obtain ⟨hpre, hpending⟩ := hrun.enqueued_isPrefix
  refine ⟨?_, by rw [hmap]; exact hpre, by rw [hlength]; exact hpending, ?_⟩
  · intro a t hst hne
    obtain ⟨b, hpc, hat⟩ := isAT_of_line_ne (move_of_step hst) hne
    have hstage := hrun.stage
    rw [ServerStage, hpc] at hstage
    obtain ⟨ps, p, hpay, -, -, hstarts⟩ := hstage
    have hlast : (sent.map PcMessage.bytes).getLast? = some p := by
      rw [← hsent, hpay, List.getLast?_concat]
    rw [List.getLast?_map] at hlast
    obtain ⟨m, hm, rfl⟩ := Option.map_eq_some_iff.1 hlast
    refine ⟨⟨b, hpc⟩, m, hm, ?_⟩
    rw [← m.isCommand_bytes, ← hstarts.isAT, hat]
  · intro blk hblk
    obtain ⟨o, k, rest, ho, hk, hp⟩ := hrun.skipped blk hblk
    rw [hsent, List.getElem?_map] at hp
    obtain ⟨m, hm, hbytes⟩ := Option.map_eq_some_iff.1 hp
    exact ⟨o, k, m, ho, hk, hm, PcMessage.maySkip_of_bytes hbytes⟩

/-- **Separation up to the prefixes.** For every sequence of messages delivered in order, and every
interleaving of the board's tasks: the line changes only when the server processes `AT1`, `AT2` or a
block that begins with `AT`; every other datagram is put back with its received length; and what
`play()` skips was delivered by a header or by a block that begins with `RIF`. -/
theorem separated_up_to_start {s : Board} (h : BoardReachable fromPc s) {sent : List PcMessage}
    (hsent : payloads s.trace = sent.map PcMessage.bytes) :
    Separated PcMessage.actsAsCommand PcMessage.maySkip s sent :=
  (PcRun.of_reachable h).separated hsent

/-- The event is a skipped header. -/
def Event.isSkip : Event → Bool
  | .skip _ => true
  | _ => false

/-- A run with all four kinds: the line is raised, the header is put back with length 44 and
skipped, a block is put back whole, and the line is lowered. -/
theorem separated_up_to_start_session : ∃ (s : Board) (sent : List PcMessage),
    (sent = [.lineEstablish, .wavHeader, .pcm ⟨List.replicate 800 0, List.length_replicate⟩,
        .lineShutDown] ∧
      enqueued s.trace = [0, 44, 800, 0] ∧ s.trace.any Event.isSkip = true) ∧
    Separated PcMessage.actsAsCommand PcMessage.maySkip s sent := by
  obtain ⟨s, hs, hp⟩ := Board.exists_reachable fromPc
    (commandRun PcMessage.lineEstablish.bytes ++ dataRun getWavHeader ++
      List.replicate 15 .play ++ dataRun (List.replicate 800 0) ++
      dataRun PcMessage.lineShutDown.bytes)
    (fun s ↦ decide (payloads s.trace = [PcMessage.lineEstablish.bytes, getWavHeader,
      List.replicate 800 0, PcMessage.lineShutDown.bytes]) &&
      decide (enqueued s.trace = [0, 44, 800, 0]) && s.trace.any Event.isSkip)
    (by decide +kernel)
  rw [Bool.and_eq_true, Bool.and_eq_true, decide_eq_true_eq, decide_eq_true_eq] at hp
  exact ⟨s, _, ⟨rfl, hp.1.2, hp.2⟩, separated_up_to_start hs hp.1.1⟩

/-- A block of samples with these in front and zeros behind. -/
def PcmBlock.startingWith (start : List UInt8) (h : start.length ≤ 800) : PcmBlock :=
  ⟨start ++ List.replicate (800 - start.length) 0, by simp; omega⟩

/-- **Full separation fails.** A block of samples that begins with `AT1` raises the line. And one
that begins with `RIFF` is skipped. -/
theorem not_separated :
    (¬ ∀ (s : Board) (sent : List PcMessage), BoardReachable fromPc s →
      payloads s.trace = sent.map PcMessage.bytes →
        Separated PcMessage.isLineCommand PcMessage.isHeader s sent) ∧
    ∃ (s : Board) (sent : List PcMessage), BoardReachable fromPc s ∧
      sent = [.lineEstablish, .pcm (.startingWith [0x52, 0x49, 0x46, 0x46] (by decide))] ∧
      payloads s.trace = sent.map PcMessage.bytes ∧ s.trace.any Event.isSkip = true ∧
      ¬ Separated PcMessage.isLineCommand PcMessage.isHeader s sent := by
  constructor
  · intro hall
    obtain ⟨s, hs, hp⟩ := Board.exists_reachable fromPc
      [.server, .recvfrom (.datagram somePeer
        (PcmBlock.startingWith [0x41, 0x54, 0x31] (by decide)).samples)]
      (fun s ↦ decide (payloads s.trace =
        [(PcmBlock.startingWith [0x41, 0x54, 0x31] (by decide)).samples]) &&
        decide (s.line = false) && decide ((s.step .server).map Board.line = some true))
      (by decide +kernel)
    simp only [Bool.and_eq_true, decide_eq_true_eq] at hp
    obtain ⟨⟨hpay, hline⟩, hup⟩ := hp
    obtain ⟨t, ht, htline⟩ := Option.map_eq_some_iff.1 hup
    have hsep := hall s [.pcm (.startingWith [0x41, 0x54, 0x31] (by decide))] hs hpay
    obtain ⟨-, m, hm, hmc⟩ := hsep.line .server t ht (by rw [htline, hline]; simp)
    obtain rfl := Option.some.inj hm
    exact Bool.noConfusion hmc
  · obtain ⟨s, hs, hp⟩ := Board.exists_reachable fromPc
      (commandRun PcMessage.lineEstablish.bytes ++
        dataRun (PcmBlock.startingWith [0x52, 0x49, 0x46, 0x46] (by decide)).samples ++
        List.replicate 15 .play)
      (fun s ↦ decide (payloads s.trace = [PcMessage.lineEstablish.bytes,
        (PcmBlock.startingWith [0x52, 0x49, 0x46, 0x46] (by decide)).samples]) &&
        s.trace.any Event.isSkip)
      (by decide +kernel)
    rw [Bool.and_eq_true, decide_eq_true_eq] at hp
    refine ⟨s, _, hs, rfl, hp.1, hp.2, fun hsep ↦ ?_⟩
    obtain ⟨e, he, hskip⟩ := List.any_eq_true.1 hp.2
    cases e with
    | skip blk =>
      obtain ⟨-, k, m, -, -, hm, hheader⟩ := hsep.skipped blk he
      have hmem := List.mem_of_getElem? hm
      simp only [List.mem_cons, List.not_mem_nil, or_false] at hmem
      rcases hmem with rfl | rfl <;> exact Bool.noConfusion hheader
    | _ => exact Bool.noConfusion hskip

/-- A separation that allows less follows where no message makes the difference. -/
theorem Separated.mono {command command' header header' : PcMessage → Bool} {s : Board}
    {sent : List PcMessage} (h : Separated command header s sent)
    (hcommand : ∀ m ∈ sent, command m = command' m) (hheader : ∀ m ∈ sent, header m = header' m) :
    Separated command' header' s sent := by
  have hmap : (sent.map fun m ↦ if command m then (0 : ℤ) else m.bytes.length) =
      sent.map fun m ↦ if command' m then (0 : ℤ) else m.bytes.length :=
    List.map_congr_left fun m hm ↦ by rw [hcommand m hm]
  refine ⟨?_, hmap ▸ h.enqueued, h.pending, ?_⟩
  · intro a t hst hne
    obtain ⟨hpc, m, hm, hmc⟩ := h.line a t hst hne
    exact ⟨hpc, m, hm, hcommand m (List.mem_of_getLast? hm) ▸ hmc⟩
  · intro blk hblk
    obtain ⟨o, k, m, ho, hk, hm, hmh⟩ := h.skipped blk hblk
    exact ⟨o, k, m, ho, hk, hm, hheader m (List.mem_of_getElem? hm) ▸ hmh⟩

/-- **For audio without these beginnings the separation is complete.** -/
theorem separated_of_plain_audio {s : Board} (h : BoardReachable fromPc s) {sent : List PcMessage}
    (hsent : payloads s.trace = sent.map PcMessage.bytes)
    (hplain : ∀ m ∈ sent, m.isPcmStarting [0x41, 0x54] = false ∧
      m.isPcmStarting [0x52, 0x49, 0x46] = false) :
    Separated PcMessage.isLineCommand PcMessage.isHeader s sent := by
  refine ((PcRun.of_reachable h).separated hsent).mono (fun m hm ↦ ?_) fun m hm ↦ ?_
  · rw [PcMessage.actsAsCommand, (hplain m hm).1, Bool.or_false]
  · rw [PcMessage.maySkip, (hplain m hm).2, Bool.or_false]

end YHAudioLink
