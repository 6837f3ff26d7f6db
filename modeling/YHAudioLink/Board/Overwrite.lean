import YHAudioLink.Board.PoolConservation

/-!
# Which buffer the server overwrites

The server receives into whatever buffer is at the front of the queue. Empty and filled buffers
share that one FIFO, and `rcv_queue_enqueue` shows what is meant to happen when audio has to be
given up: the front is discarded *when the queue is full*. That branch is never taken
(`receive_pool_conserved`); what decides instead is the order of empty and filled buffers, and the
player keeps moving empty ones to the back, behind filled ones (`not_overwritten_only_when_full`).

Between its dequeue and its enqueue the server takes nothing, and `play()` may turn the queue over
as it likes. What counts is the front the server finds: the three steps that can put a filled buffer
there, in front of an empty one, are its own enqueue and, until it has dequeued, the two moves of
`play()`. `emptyInFront` is the condition on exactly these.
-/

namespace YHAudioLink

/-- The buffer holds an unplayed payload. -/
def Board.filled (s : Board) (b : BufId) : Bool := decide (0 < (s.pool b).len)

/-- The buffer at the front of a queue holds an unplayed payload. -/
def Board.frontFilled (s : Board) (q : List BufId) : Bool := q.head?.any s.filled

/-- **The guard.** The server puts its buffer back only when an empty one is in front or no empty
one is left. Between that and its next dequeue `play()` puts nothing back behind a filled front (its
buffer is empty), and does not take the buffer in front of a filled one that has an empty one behind
it. -/
def emptyInFront (s : Board) : Label → Bool
  | .server =>
    match s.server with
    | .enqueue b => !s.frontFilled s.queue || (s.filled b && s.queue.all s.filled)
    | _ => true
  | .play =>
    match s.server, s.play with
    | .dequeue, .put _ _ => !s.frontFilled s.queue
    | .dequeue, .dequeue => !s.frontFilled s.queue.tail || s.queue.tail.all s.filled
    | _, _ => true
  | _ => true

/-- What the server is about to do: when the buffer it would dequeue holds an unplayed payload, so
does every other buffer in the queue. -/
def Board.OverwritesLast (s : Board) : Prop :=
  s.server = .dequeue → ∀ b q, s.queue = b :: q → 0 < (s.pool b).len →
    ∀ c ∈ q, 0 < (s.pool c).len

section Front

variable {s t : Board} {q : List BufId} {b : BufId}

/-! ### The front of a queue -/

theorem filled_iff : s.filled b = true ↔ 0 < (s.pool b).len :=
  decide_eq_true_iff

/-- Behind a filled front everything is filled, as the guard tests it. -/
theorem frontFilled_or_all_iff : (!s.frontFilled q || q.all s.filled) = true ↔
    ∀ b r, q = b :: r → 0 < (s.pool b).len → ∀ c ∈ r, 0 < (s.pool c).len := by
  cases q with
  | nil => simp [Board.frontFilled]
  | cons b r =>
    simp only [Board.frontFilled, List.head?_cons, Option.any_some, Bool.or_eq_true,
      Bool.not_eq_true', Bool.eq_false_iff, ne_eq, filled_iff, List.all_cons, Bool.and_eq_true,
      List.all_eq_true, List.cons.injEq]
    constructor
    · rintro (hempty | hall) c r' ⟨rfl, rfl⟩ hb
      · exact absurd hb hempty
      · exact hall.2
    · intro h
      by_cases hb : 0 < (s.pool b).len
      · exact .inr ⟨hb, h b r ⟨rfl, rfl⟩ hb⟩
      · exact .inl hb

/-- The same of a queue to which a buffer has been added. -/
theorem frontFilled_append :
    (!s.frontFilled (q ++ [b]) || (q ++ [b]).all s.filled) =
      (!s.frontFilled q || (s.filled b && q.all s.filled)) := by
  cases q with
  | nil => cases hb : s.filled b <;> simp [Board.frontFilled, hb]
  | cons c r => cases hb : s.filled b <;> simp [Board.frontFilled, hb]

/-! ### What a step does to the front -/

/-- Away from its dequeue the server takes nothing. -/
theorem Board.OverwritesLast.of_ne (h : s.server ≠ .dequeue) : s.OverwritesLast :=
  fun hpc ↦ absurd hpc h

theorem overwritesLast_iff (h : s.server = .dequeue) :
    s.OverwritesLast ↔ (!s.frontFilled s.queue || s.queue.all s.filled) = true := by
  rw [frontFilled_or_all_iff]
  exact ⟨fun hs ↦ hs h, fun hs _ ↦ hs⟩

/-- A step that leaves the queue, the payloads in it and the server where they are. -/
theorem Board.OverwritesLast.of_same (h : s.OverwritesLast) (hq : t.queue = s.queue)
    (hlen : ∀ c ∈ s.queue, (t.pool c).len = (s.pool c).len) (hpc : t.server = s.server) :
    t.OverwritesLast := by
  intro ht b r hbr hb c hc
  rw [hq] at hbr
  have hmem : ∀ d ∈ b :: r, (t.pool d).len = (s.pool d).len := fun d hd ↦ hlen d (hbr ▸ hd)
  rw [hmem b List.mem_cons_self] at hb
  rw [hmem c (List.mem_cons_of_mem _ hc)]
  exact h (hpc ▸ ht) b r hbr hb c hc

end Front

/-- **The guard is exact.** A step is admitted if and only if what the server is about to do after
it is right. Only the enqueues, which append, and the dequeue of `play()`, which takes the front
away, change what the server finds; a receive or a clear is of a buffer in somebody's hands. -/
theorem emptyInFront_iff {s t : Board} {a : Label} (hc : Conserved s) (hput : PutCleared s)
    (h : s.OverwritesLast) (hst : Move s a t) : emptyInFront s a = true ↔ t.OverwritesLast := by
  cases hst with
  | serverEnqueue b hpc =>
    have hroom := hc.queue_length_lt_of_server (b := b) (by rw [hpc]; rfl)
    refine Iff.trans ?_ (overwritesLast_iff rfl).symm
    simp only [emptyInFront, hpc, rcvQueueEnqueue_of_lt hroom]
    rw [← frontFilled_append]
    rfl
  | playPut b len hpc =>
    have hroom := hc.queue_length_lt_of_play (b := b) (by rw [hpc]; rfl)
    have hb : s.filled b = false := by simp [Board.filled, hput b len hpc]
    by_cases hserver : s.server = .dequeue
    · refine Iff.trans ?_ (overwritesLast_iff (by exact hserver)).symm
      simp only [emptyInFront, hserver, hpc, rcvQueueEnqueue_of_lt hroom]
      have happ := frontFilled_append (s := s) (q := s.queue) (b := b)
      rw [hb, Bool.false_and, Bool.or_false] at happ
      rw [← happ]
      rfl
    · refine iff_of_true ?_ (.of_ne hserver)
      simp only [emptyInFront]
      split <;> simp_all
  | playDequeue hpc =>
    by_cases hserver : s.server = .dequeue
    · refine Iff.trans ?_ (overwritesLast_iff (by exact hserver)).symm
      simp only [emptyInFront, hserver, hpc, rcvQueueDequeue]
      rfl
    · refine iff_of_true ?_ (.of_ne hserver)
      simp only [emptyInFront]
      split <;> simp_all
  | playTake b hpc =>
    have hmem := hc.not_mem_of_play (b := b) (by rw [hpc]; rfl)
    refine iff_of_true (by simp [emptyInFront, hpc]) (h.of_same rfl (fun c hcq ↦ ?_) rfl)
    simp only [Function.update_of_ne (ne_of_mem_of_not_mem hcq hmem)]
  | serverCommand b line hpc =>
    refine iff_of_true (by simp [emptyInFront, hpc]) (.of_ne ?_)
    cases line <;> simp
  | serverDequeue hpc | serverRecvfrom b r hpc | serverData b hpc | serverPostRec b hpc
  | serverPostPlay b hpc =>
    exact iff_of_true (by simp [emptyInFront, hpc]) (.of_ne (by simp))
  | playPend hpc | playEmpty b len hpc | playSkip b len hpc | playInspect b len hpc
  | playCopy b len hpc | playSend blk hpc | playCheck hpc =>
    exact iff_of_true (by simp [emptyInFront, hpc]) (h.of_same rfl (fun _ _ ↦ rfl) rfl)
  | clientPend | clientReadAddr | clientReadPort | clientHeader | clientBlock | clientNoBlock
  | clientCheck => exact iff_of_true rfl (h.of_same rfl (fun _ _ ↦ rfl) rfl)

theorem Board.OverwritesLast.of_init {s : Board} (h : s.Init) : s.OverwritesLast := by
  intro _ b q _ hb
  rw [h.pool_queue.2 b] at hb
  exact absurd hb (lt_irrefl _)

theorem overwritesLast_of_reachable {s : Board} (h : BoardReachable emptyInFront s) :
    s.OverwritesLast :=
  Runs.Reachable.invariant_of
    (fun _ hs ↦ And.intro (conserved_of_reachable hs) (putCleared_of_reachable hs))
    (fun _ ↦ Board.OverwritesLast.of_init)
    (fun _ _ _ hknown hs hok hst ↦
      (emptyInFront_iff hknown.1 hknown.2 hs (move_of_step hst)).1 hok) h

end YHAudioLink
