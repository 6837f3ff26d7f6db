import YHAudioLink.Board.PoolConservation

/-!
# Payload integrity of the playback path

What reaches the codec, against what was received. The blocks `play()` passes on should be payloads
of received audio datagrams, each whole, none twice, in order of receipt; as lists, that is one
statement: `playedBlocks` is a **sublist** of `audioPayloads`.

The code does not keep it. `play()` saves the length, puts the buffer back in the queue and only
then looks at the data, so three datagrams that arrive in the gap rotate the queue far enough for
the third to be received into the buffer about to be copied (`not_playback_integrity`).

The law holds in every run that never does this (`playback_integrity`). The invariant behind it is
`inFlight`: the payload in the player's hands, then the filled buffers of the queue from the front,
then the payload in the server's hands. What has been played, followed by what is in flight, is a
sublist of what was received; a step either moves a payload along this line or drops one.
-/

namespace YHAudioLink

/-- The values of a block of octets. -/
def values (blk : List Octet) : List UInt8 := blk.map Octet.val

/-- The blocks passed to `vs10xx_play_dma_send_data`, oldest first. -/
def playedBlocks : List Event → List (List UInt8)
  | [] => []
  | .play blk :: tr => playedBlocks tr ++ [values blk]
  | _ :: tr => playedBlocks tr

/-- The payloads of the non-command datagrams received, oldest first. -/
def audioPayloads : List Event → List (List UInt8)
  | [] => []
  | .recv (.datagram _ payload) :: tr =>
    if isCommand payload then audioPayloads tr else audioPayloads tr ++ [received payload]
  | _ :: tr => audioPayloads tr

/-! ### Payloads in flight -/

/-- A payload as an entry of the line of payloads in flight; an empty one is no entry. -/
def entry (blk : List Octet) : List (List UInt8) := if blk = [] then [] else [values blk]

@[simp] theorem entry_nil : entry [] = [] := rfl

theorem entry_of_ne_nil {blk : List Octet} (h : blk ≠ []) : entry blk = [values blk] := if_neg h

theorem entry_sublist (blk : List Octet) : (entry blk).Sublist [values blk] := by
  unfold entry
  split
  · exact List.nil_sublist _
  · exact List.Sublist.refl _

/-- What the server task has received and will enqueue. -/
def serverFlight (pool : BufId → RevBuffer) : ServerPc → List (List UInt8)
  | .parse b => if isAT (pool b).bytes then [] else entry (pool b).payload
  | .postRec b | .postPlay b | .enqueue b => entry (pool b).payload
  | _ => []

/-- What waits in the queue. -/
def queueFlight (pool : BufId → RevBuffer) (queue : List BufId) : List (List UInt8) :=
  queue.flatMap fun b ↦ entry (pool b).payload

/-- What `play()` has taken and not yet passed on. -/
def playFlight (pool : BufId → RevBuffer) : PlayPc → List (List UInt8)
  | .take (some b) => entry (pool b).payload
  | .put b len | .inspect b len => entry ((pool b).octets len)
  | .copy b len => [values ((pool b).octets len)]
  | .send blk => [values blk]
  | _ => []

/-- The payloads received and not yet passed on, oldest first. -/
def Board.inFlight (s : Board) : List (List UInt8) :=
  playFlight s.pool s.play ++ queueFlight s.pool s.queue ++ serverFlight s.pool s.server

/-- What is in the queue does not change when a buffer outside it does. -/
theorem queueFlight_update {pool : BufId → RevBuffer} {queue : List BufId} {b : BufId}
    (hb : b ∉ queue) (x : RevBuffer) :
    queueFlight (Function.update pool b x) queue = queueFlight pool queue := by
  refine List.flatMap_congr fun c hc ↦ ?_
  rw [Function.update_of_ne (ne_of_mem_of_not_mem hc hb)]

theorem queueFlight_append (pool : BufId → RevBuffer) (q : List BufId) (b : BufId) :
    queueFlight pool (q ++ [b]) = queueFlight pool q ++ entry (pool b).payload := by
  simp [queueFlight]

/-- What the server holds does not change when a buffer it does not hold does. -/
theorem serverFlight_update {pool : BufId → RevBuffer} {pc : ServerPc} {b : BufId}
    (hb : pc.holds ≠ some b) (x : RevBuffer) :
    serverFlight (Function.update pool b x) pc = serverFlight pool pc := by
  cases pc with
  | dequeue | recvfrom => rfl
  | parse c | postRec c | postPlay c | enqueue c =>
    have hc : c ≠ b := fun h ↦ hb (by rw [h]; rfl)
    simp [serverFlight, Function.update_of_ne hc]

/-! ### The guard -/

/-- The buffer `play()` has put back although it has still to copy a payload out of it. -/
def PlayPc.borrows : PlayPc → Option BufId
  | .inspect b len => if 0 < len then some b else none
  | .copy b _ => some b
  | _ => none

/-- **The guard.** No datagram is received into the buffer that `play()` has put back and not yet
copied. An empty datagram writes nothing and is harmless there. -/
def copiedBeforeReuse (s : Board) : Label → Bool
  | .recvfrom (.datagram _ payload) =>
    received payload == [] || s.play.borrows == none || s.server.holds != s.play.borrows
  | _ => true

/-- A receive the guard admits leaves the bytes of a buffer that is still to be copied as they
are. -/
theorem data_recvfrom_of_borrows {s : Board} {b c : BufId} {r : RecvFrom}
    (hpc : s.server = .recvfrom (some b)) (hok : copiedBeforeReuse s (.recvfrom r) = true)
    (hborrow : s.play.borrows = some c) (n : ℕ) :
    (Function.update s.pool b ((s.pool b).recvfrom n r) c).data = (s.pool c).data := by
  have hb : s.server.holds = some b := by rw [hpc]; rfl
  rcases eq_or_ne c b with rfl | hne
  · rw [Function.update_self]
    rcases r with - | - | ⟨src, p⟩
    · rfl
    · rfl
    · have hp : received p = [] := by
        simpa [copiedBeforeReuse, hb, hborrow] using hok
      simp [RevBuffer.recvfrom, hp]
  · rw [Function.update_of_ne hne]

/-- **The bytes the player has still to copy** are the same after a receive the guard admits: a
buffer in its hand is another one, and one it has put back is protected by the guard. -/
theorem octets_recvfrom {s : Board} (hc : Conserved s) {b c : BufId} {r : RecvFrom} {len : ℤ}
    (hpc : s.server = .recvfrom (some b)) (hok : copiedBeforeReuse s (.recvfrom r) = true)
    (hplay : s.play = .put c len ∨ s.play = .inspect c len ∨ s.play = .copy c len) (n : ℕ) :
    (Function.update s.pool b ((s.pool b).recvfrom n r) c).octets len =
      (s.pool c).octets len := by
  have hdata := fun (hborrow : s.play.borrows = some c) ↦
    data_recvfrom_of_borrows hpc hok hborrow n
  rcases hplay with hplay | hplay | hplay
  · have hne : c ≠ b := (hc.server_ne_play (by rw [hpc]; rfl) (by rw [hplay]; rfl)).symm
    rw [Function.update_of_ne hne]
  · rcases lt_or_ge 0 len with hlen | hlen
    · exact RevBuffer.octets_congr (hdata (by rw [hplay]; exact if_pos hlen)) len
    · rw [RevBuffer.octets_of_nonpos hlen, RevBuffer.octets_of_nonpos hlen]
  · exact RevBuffer.octets_congr (hdata (by rw [hplay]; rfl)) len

/-- What the player holds or borrows is the same after a receive the guard admits. -/
theorem playFlight_recvfrom {s : Board} (hc : Conserved s) {b : BufId} {r : RecvFrom}
    (hpc : s.server = .recvfrom (some b)) (hok : copiedBeforeReuse s (.recvfrom r) = true)
    (n : ℕ) :
    playFlight (Function.update s.pool b ((s.pool b).recvfrom n r)) s.play =
      playFlight s.pool s.play := by
  cases hplay : s.play with
  | pend | dequeue | send | check => rfl
  | take p =>
    rcases p with - | c
    · rfl
    · have hne : c ≠ b := (hc.server_ne_play (by rw [hpc]; rfl) (by rw [hplay]; rfl)).symm
      simp only [playFlight, Function.update_of_ne hne]
  | put c len => simp only [playFlight, octets_recvfrom hc hpc hok (.inl hplay) n]
  | inspect c len => simp only [playFlight, octets_recvfrom hc hpc hok (.inr (.inl hplay)) n]
  | copy c len => simp only [playFlight, octets_recvfrom hc hpc hok (.inr (.inr hplay)) n]

/-- Clearing the length of the server's buffer takes nothing from the player. -/
theorem playFlight_clear {s : Board} (hc : Conserved s) {b : BufId}
    (hb : s.server.holds = some b) :
    playFlight (Function.update s.pool b (s.pool b).clear) s.play = playFlight s.pool s.play := by
  cases hplay : s.play with
  | pend | dequeue | send | check => rfl
  | take p =>
    rcases p with - | c
    · rfl
    · have hne : c ≠ b := (hc.server_ne_play hb (by rw [hplay]; rfl)).symm
      simp only [playFlight, Function.update_of_ne hne]
  | put c len | inspect c len | copy c len => simp only [playFlight, RevBuffer.octets_update_clear]

/-! ### One receive -/

/-- A payload that is a command is recognised as one, whatever the buffer held before. -/
theorem isAT_recvfrom {b : RevBuffer} {n : ℕ} {src : Endpoint} {p : List UInt8}
    (h : isCommand p = true) : isAT (b.recvfrom n (.datagram src p)).bytes = true := by
  rcases p with - | ⟨x, - | ⟨y, rest⟩⟩
  · simp [isCommand] at h
  · simp [isCommand] at h
  · simp only [isCommand, List.take_succ_cons, List.take_zero, beq_iff_eq, List.cons.injEq,
      and_true] at h
    simp [isAT, RevBuffer.bytes, RevBuffer.recvfrom, received, h.1, h.2]

theorem values_stamped (p : List UInt8) (n : ℕ) : values (p.map fun v ↦ ⟨v, n⟩) = p := by
  simp [values, Function.comp_def]

/-- What a receive puts in the server's hands is at most the audio payload it records. -/
theorem serverFlight_recvfrom_sublist (pool : BufId → RevBuffer) (b : BufId) (n : ℕ)
    (r : RecvFrom) (tr : List Event) (done : List (List UInt8))
    (h : done.Sublist (audioPayloads tr)) :
    (done ++ serverFlight (Function.update pool b ((pool b).recvfrom n r)) (.parse b)).Sublist
      (audioPayloads (.recv r :: tr)) := by
  simp only [serverFlight, Function.update_self]
  rcases r with - | - | ⟨src, p⟩
  · simpa [audioPayloads, RevBuffer.payload, RecvFrom.ret] using h
  · simpa [audioPayloads, RevBuffer.payload, RecvFrom.ret] using h
  · simp only [audioPayloads]
    rcases hcmd : isCommand p with - | -
    · -- an audio datagram: taken for a command because of old bytes, or kept whole
      rw [RevBuffer.payload_recvfrom, if_neg Bool.false_ne_true]
      refine List.Sublist.append h ?_
      split
      · exact List.nil_sublist _
      · exact (entry_sublist _).trans (by rw [values_stamped])
    · rw [if_pos (isAT_recvfrom hcmd), if_pos rfl, List.append_nil]
      exact h

/-! ### The invariant -/

/-- What was passed on, followed by what is in flight, is a sublist of what was received. -/
def InOrder (s : Board) : Prop :=
  (playedBlocks s.trace ++ s.inFlight).Sublist (audioPayloads s.trace)

theorem InOrder.of_init {s : Board} (h : s.Init) : InOrder s := by
  obtain ⟨-, hlen⟩ := h.pool_queue
  have hempty : ∀ b, (s.pool b).payload = [] := fun b ↦ by simp [RevBuffer.payload, hlen b]
  obtain ⟨data, a, c, rfl⟩ := h
  have hq : queueFlight (Board.boot data a c).pool (Board.boot data a c).queue = [] :=
    List.flatMap_eq_nil_iff.2 fun b _ ↦ by rw [hempty b, entry_nil]
  simp only [InOrder, Board.inFlight, hq]
  simp [Board.boot, playedBlocks, playFlight, serverFlight]

/-- A step after which less is in flight, and nothing else changed, keeps the order. -/
theorem InOrder.of_inFlight_sublist {s t : Board} (h : InOrder s)
    (hplayed : playedBlocks t.trace = playedBlocks s.trace)
    (haudio : audioPayloads t.trace = audioPayloads s.trace)
    (hflight : t.inFlight.Sublist s.inFlight) : InOrder t := by
  unfold InOrder
  rw [hplayed, haudio]
  exact (hflight.append_left _).trans h

/-- The transitions of the line leave no trace in either list. -/
theorem playedBlocks_lineEvents (x y : Bool) (tr : List Event) :
    playedBlocks (lineEvents x y ++ tr) = playedBlocks tr := by
  cases x <;> cases y <;> rfl

theorem audioPayloads_lineEvents (x y : Bool) (tr : List Event) :
    audioPayloads (lineEvents x y ++ tr) = audioPayloads tr := by
  cases x <;> cases y <;> rfl

/-- **Every admitted step keeps the order.** Payloads move from the server's hands to the back of
the queue and from its front to the player's hands; a dequeue by the server and a skipped header
drop one. -/
theorem InOrder.step {s t : Board} {a : Label} (hc : Conserved s) (hput : PutCleared s)
    (h : InOrder s) (hok : copiedBeforeReuse s a = true) (hst : Move s a t) : InOrder t := by
  cases hst with
  | serverDequeue hpc =>
    obtain ⟨b, q, hq⟩ := hc.exists_cons_of_server (by rw [hpc]; rfl)
    refine h.of_inFlight_sublist rfl rfl ?_
    simp only [Board.inFlight, hpc, serverFlight, rcvQueueDequeue, hq, List.tail_cons,
      queueFlight, List.flatMap_cons, List.append_nil]
    exact (List.sublist_append_right _ _).append_left _
  | serverRecvfrom b r hpc =>
    have hb : s.server.holds = some b := by rw [hpc]; rfl
    have hbefore : (playedBlocks s.trace ++
        (playFlight s.pool s.play ++ queueFlight s.pool s.queue)).Sublist
          (audioPayloads s.trace) := by
      simpa [InOrder, Board.inFlight, hpc, serverFlight] using h
    simp only [InOrder, Board.inFlight, playFlight_recvfrom hc hpc hok,
      queueFlight_update (hc.not_mem_of_server hb), playedBlocks]
    rw [← List.append_assoc]
    exact serverFlight_recvfrom_sublist s.pool b _ r s.trace _ hbefore
  | serverData b hpc hat =>
    refine h.of_inFlight_sublist rfl rfl ?_
    simp [Board.inFlight, hpc, serverFlight, hat]
  | serverCommand b line hpc hat =>
    have hb : s.server.holds = some b := by rw [hpc]; rfl
    refine h.of_inFlight_sublist (playedBlocks_lineEvents _ _ _)
      (audioPayloads_lineEvents _ _ _) ?_
    simp only [Board.inFlight, playFlight_clear hc hb,
      queueFlight_update (hc.not_mem_of_server hb), hpc, serverFlight, hat, if_true]
    cases line <;> simp
  | serverPostRec b hpc =>
    refine h.of_inFlight_sublist ?_ ?_ (by simp [Board.inFlight, hpc, serverFlight])
    · dsimp only; split <;> rfl
    · dsimp only; split <;> rfl
  | serverPostPlay b hpc =>
    exact h.of_inFlight_sublist rfl rfl (by simp [Board.inFlight, hpc, serverFlight])
  | serverEnqueue b hpc =>
    have hb : s.server.holds = some b := by rw [hpc]; rfl
    refine h.of_inFlight_sublist rfl rfl ?_
    simp [Board.inFlight, hpc, serverFlight, queueFlight_append,
      rcvQueueEnqueue_of_lt (hc.queue_length_lt_of_server hb)]
  | playPend hpc =>
    exact h.of_inFlight_sublist rfl rfl (by simp [Board.inFlight, hpc, playFlight])
  | playDequeue hpc =>
    obtain ⟨b, q, hq⟩ := hc.exists_cons_of_play (by rw [hpc]; rfl)
    refine h.of_inFlight_sublist rfl rfl ?_
    simp [Board.inFlight, hpc, playFlight, rcvQueueDequeue, hq, queueFlight]
  | playTake b hpc =>
    have hb : s.play.holds = some b := by rw [hpc]; rfl
    have hserver : s.server.holds ≠ some b := fun h' ↦ hc.server_ne_play h' hb rfl
    refine h.of_inFlight_sublist rfl rfl ?_
    simp [Board.inFlight, hpc, playFlight, queueFlight_update (hc.not_mem_of_play hb),
      serverFlight_update hserver, RevBuffer.payload]
  | playPut b len hpc =>
    have hb : s.play.holds = some b := by rw [hpc]; rfl
    have hclear : (s.pool b).payload = [] := by simp [RevBuffer.payload, hput b len hpc]
    refine h.of_inFlight_sublist rfl rfl ?_
    simp [Board.inFlight, hpc, playFlight, queueFlight_append, hclear,
      rcvQueueEnqueue_of_lt (hc.queue_length_lt_of_play hb)]
  | playEmpty b len hpc hlen =>
    exact h.of_inFlight_sublist rfl rfl
      (by simp [Board.inFlight, hpc, playFlight, RevBuffer.octets_of_nonpos hlen])
  | playSkip b len hpc hlen =>
    exact h.of_inFlight_sublist rfl rfl (by simp [Board.inFlight, hpc, playFlight])
  | playInspect b len hpc hlen =>
    have hne : (s.pool b).octets len ≠ [] := by
      rw [← List.length_pos_iff_ne_nil, RevBuffer.length_octets]
      omega
    exact h.of_inFlight_sublist rfl rfl
      (by simp [Board.inFlight, hpc, playFlight, entry_of_ne_nil hne])
  | playCopy b len hpc =>
    exact h.of_inFlight_sublist rfl rfl (by simp [Board.inFlight, hpc, playFlight])
  | playSend blk hpc =>
    simpa [InOrder, Board.inFlight, hpc, playFlight, playedBlocks, audioPayloads] using h
  | playCheck hpc =>
    refine h.of_inFlight_sublist rfl rfl ?_
    rcases hline : s.line with - | - <;> simp [Board.inFlight, hpc, playFlight]
  | clientPend | clientHeader | clientBlock | clientReadAddr | clientReadPort | clientNoBlock
  | clientCheck => exact h.of_inFlight_sublist rfl rfl (List.Sublist.refl _)

/-! ### The law -/

/-- **Payload integrity.** In every run that receives no datagram into a buffer `play()` has put
back and not yet copied, the blocks passed to the codec are complete payloads of received
non-command datagrams, each at most once, in order of receipt. -/
theorem playback_integrity {s : Board} (h : BoardReachable copiedBeforeReuse s) :
    (playedBlocks s.trace).Sublist (audioPayloads s.trace) := by
  have hknown : ∀ s, BoardReachable copiedBeforeReuse s → Conserved s ∧ PutCleared s :=
    fun _ hr ↦ ⟨conserved_of_reachable hr, putCleared_of_reachable hr⟩
  have hinv : InOrder s :=
    Runs.Reachable.invariant_of hknown (fun _ ↦ InOrder.of_init)
      (fun _ _ _ hk hs hok hst ↦ hs.step hk.1 hk.2 hok (move_of_step hst)) h
  exact (List.sublist_append_left _ _).trans hinv

/-- One pass of `play()` over an empty buffer with the line up. -/
def emptyPass : List Label := [.play, .play, .play, .play, .play]

/-- The law is about runs that do play: two datagrams are received and both are passed on. -/
theorem playback_integrity_two_blocks : ∃ s : Board,
    playedBlocks s.trace = [[1, 1], [2]] ∧
      (playedBlocks s.trace).Sublist (audioPayloads s.trace) := by
  obtain ⟨s, hs, hp⟩ := Board.exists_reachable copiedBeforeReuse
    (commandRun [0x41, 0x54, 0x31] ++ dataRun [1, 1] ++ dataRun [2] ++ [.play] ++
      emptyPass ++ List.replicate 14 .play)
    (fun s ↦ playedBlocks s.trace == [[1, 1], [2]])
    (by decide)
  exact ⟨s, by simpa using hp, playback_integrity hs⟩

/-- **Without the guard the law fails.** `play()` has saved the length `2` of the datagram `[1, 1]`
and put its buffer back; three more datagrams arrive, and the last one, `[4, 4, 4]`, is received
into that buffer before it is copied. The block passed on is `[4, 4]`, which nobody sent. -/
theorem not_playback_integrity : ¬ ∀ s : Board, BoardReachable Runs.everyStep s →
    (playedBlocks s.trace).Sublist (audioPayloads s.trace) := by
  intro hall
  obtain ⟨s, hs, hp⟩ := Board.exists_reachable Runs.everyStep
    (commandRun [0x41, 0x54, 0x31] ++ dataRun [1, 1] ++ [.play] ++ emptyPass ++ emptyPass ++
      [.play, .play, .play] ++ dataRun [2] ++ dataRun [3] ++
      [.server, .recvfrom (.datagram somePeer [4, 4, 4])] ++ [.play, .play, .play])
    (fun s ↦ !(playedBlocks s.trace).isSublist (audioPayloads s.trace))
    (by decide)
  have hsub := List.isSublist_iff_sublist.2 (hall s hs)
  simp [hsub] at hp

end YHAudioLink
