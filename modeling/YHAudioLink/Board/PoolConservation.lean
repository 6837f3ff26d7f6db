import YHAudioLink.Board.Tasks
import Mathlib.Data.List.Perm.Basic

/-!
# Conservation of the receive pool

Who owns a receive buffer. Between its dequeue and its enqueue a buffer belongs to the task that
dequeued it; otherwise it is in the queue. `Conserved` says that the queue and the two hands
together are the three buffers, each once, and it is what excludes the two ways the pool could go
wrong: an empty queue at a dequeue (a `NULL` that the next statement dereferences) and a full queue
at an enqueue (a buffer silently dropped).

Everything later that speaks about the content of a buffer rests on this: a task's buffer is not in
the queue, so nobody else can dequeue it.
-/

namespace YHAudioLink

/-- The buffer the server task holds. -/
def ServerPc.holds : ServerPc → Option BufId
  | .dequeue => none
  | .recvfrom p => p
  | .parse b => some b
  | .postRec b => some b
  | .postPlay b => some b
  | .enqueue b => some b

/-- The buffer `play()` holds, from its dequeue to its enqueue. -/
def PlayPc.holds : PlayPc → Option BufId
  | .take p => p
  | .put b _ => some b
  | _ => none

/-- **Ownership.** The queue and the buffers in the two hands are the whole pool, each buffer once,
and neither task has been handed a `NULL`. -/
structure Conserved (s : Board) : Prop where
  owners : (s.queue ++ s.server.holds.toList ++ s.play.holds.toList).Perm
    (List.finRange rcvBufferNum)
  server_ne : s.server ≠ .recvfrom none
  play_ne : s.play ≠ .take none

namespace Conserved

variable {s t : Board} {a : Label}

/-! ### What ownership gives -/

theorem length_add (h : Conserved s) :
    s.queue.length + s.server.holds.toList.length + s.play.holds.toList.length = rcvBufferNum := by
  simpa [add_assoc] using h.owners.length_eq

theorem nodup (h : Conserved s) :
    (s.queue ++ s.server.holds.toList ++ s.play.holds.toList).Nodup :=
  h.owners.nodup_iff.2 (List.nodup_finRange _)

/-- The server's buffer is not in the queue. -/
theorem not_mem_of_server (h : Conserved s) {b : BufId} (hb : s.server.holds = some b) :
    b ∉ s.queue := by
  intro hmem
  have hnd := h.nodup.sublist (List.sublist_append_left _ _)
  rw [hb, Option.toList_some, List.nodup_append] at hnd
  exact hnd.2.2 b hmem b (List.mem_singleton_self b) rfl

/-- The player's buffer is not in the queue. -/
theorem not_mem_of_play (h : Conserved s) {b : BufId} (hb : s.play.holds = some b) :
    b ∉ s.queue := by
  intro hmem
  have hnd := h.nodup
  rw [hb, Option.toList_some, List.nodup_append] at hnd
  exact hnd.2.2 b (List.mem_append_left _ hmem) b (List.mem_singleton_self b) rfl

/-- The two tasks never hold the same buffer. -/
theorem server_ne_play (h : Conserved s) {b c : BufId} (hb : s.server.holds = some b)
    (hc : s.play.holds = some c) : b ≠ c := by
  have hnd := h.nodup
  rw [hb, hc, Option.toList_some, Option.toList_some, List.nodup_append] at hnd
  exact hnd.2.2 b (List.mem_append_right _ (List.mem_singleton_self b)) c
    (List.mem_singleton_self c)

theorem length_toList_le_one {α : Type*} (o : Option α) : o.toList.length ≤ 1 := by
  cases o <;> simp

theorem queue_length_le (h : Conserved s) : s.queue.length ≤ rcvBufferNum := by
  have := h.length_add
  omega

/-- A task with a buffer in hand finds room in the queue. -/
theorem queue_length_lt_of_server (h : Conserved s) {b : BufId} (hb : s.server.holds = some b) :
    s.queue.length < rcvBufferNum := by
  have := h.length_add
  rw [hb, Option.toList_some, List.length_singleton] at this
  omega

theorem queue_length_lt_of_play (h : Conserved s) {b : BufId} (hb : s.play.holds = some b) :
    s.queue.length < rcvBufferNum := by
  have := h.length_add
  rw [hb, Option.toList_some, List.length_singleton] at this
  omega

/-- **A task with empty hands finds a buffer**: the other one holds at most one of the three. -/
theorem exists_cons_of_server (h : Conserved s) (hs : s.server.holds = none) :
    ∃ b q, s.queue = b :: q := by
  have hlen := h.length_add
  have hle := length_toList_le_one s.play.holds
  rw [hs, Option.toList_none, List.length_nil] at hlen
  exact List.exists_cons_of_length_pos (by simp only [rcvBufferNum] at hlen; omega)

theorem exists_cons_of_play (h : Conserved s) (hp : s.play.holds = none) :
    ∃ b q, s.queue = b :: q := by
  have hlen := h.length_add
  have hle := length_toList_le_one s.server.holds
  rw [hp, Option.toList_none, List.length_nil] at hlen
  exact List.exists_cons_of_length_pos (by simp only [rcvBufferNum] at hlen; omega)

/-! ### Ownership is kept -/

theorem of_init (h : s.Init) : Conserved s := by
  obtain ⟨hq, -⟩ := h.pool_queue
  obtain ⟨data, a, c, rfl⟩ := h
  refine ⟨?_, by simp [Board.boot], by simp [Board.boot]⟩
  simp only [Board.boot, ServerPc.holds, PlayPc.holds, Option.toList_none, List.append_nil] at hq ⊢
  rw [hq]

/-- A step that moves no pointer keeps the owners. -/
theorem of_same (h : Conserved s) (hq : t.queue = s.queue)
    (hs : t.server.holds = s.server.holds) (hp : t.play.holds = s.play.holds)
    (hs' : t.server ≠ .recvfrom none) (hp' : t.play ≠ .take none) : Conserved t :=
  ⟨by rw [hq, hs, hp]; exact h.owners, hs', hp'⟩

/-- The front of the queue moves into the server's hand. -/
theorem server_dequeue (h : Conserved s) (hpc : s.server = .dequeue) :
    ∃ b q, s.queue = b :: q ∧
      (q ++ [b] ++ s.play.holds.toList).Perm (List.finRange rcvBufferNum) := by
  obtain ⟨b, q, hq⟩ := h.exists_cons_of_server (by rw [hpc]; rfl)
  refine ⟨b, q, hq, List.Perm.trans ?_ h.owners⟩
  rw [hq, hpc]
  simp [ServerPc.holds]

/-- The front of the queue moves into the player's hand. -/
theorem play_dequeue (h : Conserved s) (hpc : s.play = .dequeue) :
    ∃ b q, s.queue = b :: q ∧
      (q ++ s.server.holds.toList ++ [b]).Perm (List.finRange rcvBufferNum) := by
  obtain ⟨b, q, hq⟩ := h.exists_cons_of_play (by rw [hpc]; rfl)
  refine ⟨b, q, hq, List.Perm.trans ?_ h.owners⟩
  rw [hq, hpc]
  have hrot : (q ++ s.server.holds.toList ++ [b]).Perm (b :: (q ++ s.server.holds.toList)) :=
    List.perm_append_comm
  simpa [PlayPc.holds] using hrot

/-- The server's buffer moves to the back of the queue. -/
theorem server_enqueue (h : Conserved s) {b : BufId} (hb : s.server.holds = some b) :
    (s.queue ++ [b] ++ s.play.holds.toList).Perm (List.finRange rcvBufferNum) := by
  have howners := h.owners
  rw [hb] at howners
  exact howners

/-- The player's buffer moves to the back of the queue. -/
theorem play_enqueue (h : Conserved s) {b : BufId} (hb : s.play.holds = some b) :
    (s.queue ++ [b] ++ s.server.holds.toList).Perm (List.finRange rcvBufferNum) := by
  refine List.Perm.trans ?_ h.owners
  rw [hb, List.append_assoc, List.append_assoc]
  exact List.Perm.append_left _ List.perm_append_comm

/-- **Every step keeps the owners.** The four steps that move a pointer are the dequeues and the
enqueues; the rest leave all three places as they are. -/
theorem step (h : Conserved s) (hst : Move s a t) : Conserved t := by
  have hs_ne := h.server_ne
  have hp_ne := h.play_ne
  cases hst with
  | serverDequeue hpc =>
    obtain ⟨b, q, hq, hperm⟩ := h.server_dequeue hpc
    exact ⟨by simpa [rcvQueueDequeue, hq, ServerPc.holds] using hperm,
      by simp [rcvQueueDequeue, hq], hp_ne⟩
  | serverEnqueue b hpc =>
    have hb : s.server.holds = some b := by rw [hpc]; rfl
    refine ⟨?_, by simp, hp_ne⟩
    simpa [rcvQueueEnqueue_of_lt (h.queue_length_lt_of_server hb), ServerPc.holds] using
      h.server_enqueue hb
  | playDequeue hpc =>
    obtain ⟨b, q, hq, hperm⟩ := h.play_dequeue hpc
    exact ⟨by simpa [rcvQueueDequeue, hq, PlayPc.holds] using hperm, hs_ne,
      by simp [rcvQueueDequeue, hq]⟩
  | playPut b len hpc =>
    have hb : s.play.holds = some b := by rw [hpc]; rfl
    refine ⟨?_, hs_ne, by simp⟩
    simpa [rcvQueueEnqueue_of_lt (h.queue_length_lt_of_play hb), PlayPc.holds] using
      h.play_enqueue hb
  | serverRecvfrom b r hpc => exact h.of_same rfl (by rw [hpc]; rfl) rfl (by simp) hp_ne
  | serverData b hpc => exact h.of_same rfl (by rw [hpc]; rfl) rfl (by simp) hp_ne
  | serverCommand b line hpc =>
    cases line <;> exact h.of_same rfl (by rw [hpc]; rfl) rfl (by simp) hp_ne
  | serverPostRec b hpc => exact h.of_same rfl (by rw [hpc]; rfl) rfl (by simp) hp_ne
  | serverPostPlay b hpc => exact h.of_same rfl (by rw [hpc]; rfl) rfl (by simp) hp_ne
  | playPend hpc => exact h.of_same rfl rfl (by rw [hpc]; rfl) hs_ne (by simp)
  | playTake b hpc => exact h.of_same rfl rfl (by rw [hpc]; rfl) hs_ne (by simp)
  | playEmpty b len hpc => exact h.of_same rfl rfl (by rw [hpc]; rfl) hs_ne (by simp)
  | playSkip b len hpc => exact h.of_same rfl rfl (by rw [hpc]; rfl) hs_ne (by simp)
  | playInspect b len hpc => exact h.of_same rfl rfl (by rw [hpc]; rfl) hs_ne (by simp)
  | playCopy b len hpc => exact h.of_same rfl rfl (by rw [hpc]; rfl) hs_ne (by simp)
  | playSend blk hpc => exact h.of_same rfl rfl (by rw [hpc]; rfl) hs_ne (by simp)
  | playCheck hpc =>
    rcases hline : s.line with - | - <;>
      exact h.of_same rfl rfl (by rw [hpc]; rfl) hs_ne (by simp)
  | clientPend | clientReadAddr | clientReadPort | clientHeader | clientBlock | clientNoBlock
  | clientCheck => exact h.of_same rfl rfl rfl hs_ne hp_ne

end Conserved

/-- The owners are kept in every run, whatever its guard. -/
theorem conserved_of_reachable {ok : Board → Label → Bool} {s : Board}
    (h : BoardReachable ok s) : Conserved s :=
  h.invariant (fun _ ↦ Conserved.of_init) fun _ _ _ hs _ hm ↦ hs.step hm

/-- The invariant rule over the transitions, with ownership known of every state. -/
theorem BoardReachable.invariant_of {ok : Board → Label → Bool} {Inv : Board → Prop}
    (hinit : ∀ s, s.Init → Inv s)
    (hmove : ∀ s a t, Conserved s → Inv s → ok s a = true → Move s a t → Inv t) {s : Board}
    (h : BoardReachable ok s) : Inv s :=
  Runs.Reachable.invariant_of (fun _ ↦ conserved_of_reachable) hinit
    (fun _ _ _ hc hs hok hst ↦ hmove _ _ _ hc hs hok (move_of_step hst)) h

/-- The buffer `play()` is about to put back has been cleared: its length is saved in a local. -/
def PutCleared (s : Board) : Prop :=
  ∀ b len, s.play = .put b len → (s.pool b).len = 0

/-- A buffer the server holds is not the one about to be put back. -/
theorem PutCleared.update {s : Board} (hc : Conserved s) (h : PutCleared s) {b : BufId}
    (hb : s.server.holds = some b) (x : RevBuffer) :
    ∀ c len, s.play = .put c len → (Function.update s.pool b x c).len = 0 := by
  intro c len hplay
  have hne : c ≠ b := (hc.server_ne_play hb (by rw [hplay]; rfl)).symm
  rw [Function.update_of_ne hne]
  exact h c len hplay

theorem putCleared_of_reachable {ok : Board → Label → Bool} {s : Board}
    (h : BoardReachable ok s) : PutCleared s := by
  refine h.invariant_of ?_ ?_
  · rintro s ⟨data, a, c, rfl⟩ b len hplay
    simp [Board.boot] at hplay
  · intro s a t hc hs _ hst
    cases hst with
    | serverRecvfrom b r hpc => exact hs.update hc (by rw [hpc]; rfl) _
    | serverCommand b line hpc => exact hs.update hc (by rw [hpc]; rfl) _
    | playTake b hpc =>
      intro c len hplay
      obtain ⟨rfl, -⟩ := PlayPc.put.inj hplay
      simp
    | playCheck hpc =>
      intro c len hplay
      rcases hline : s.line with - | - <;> simp [hline] at hplay
    | serverDequeue | serverData | serverPostRec | serverPostPlay | serverEnqueue
    | clientPend | clientReadAddr | clientReadPort | clientHeader | clientBlock | clientNoBlock
    | clientCheck => exact hs
    | playPend | playDequeue | playPut | playEmpty | playSkip | playInspect | playCopy
    | playSend => exact fun c len hplay ↦ by simp at hplay

/-! ### The law of the pool -/

/-- A buffer is in exactly one place: once in the queue, with the server, or with `play()`. -/
def Board.OwnedOnce (s : Board) (b : BufId) : Prop :=
  (s.queue.count b = 1 ∧ s.server.holds ≠ some b ∧ s.play.holds ≠ some b) ∨
  (s.queue.count b = 0 ∧ s.server.holds = some b ∧ s.play.holds ≠ some b) ∨
  (s.queue.count b = 0 ∧ s.server.holds ≠ some b ∧ s.play.holds = some b)

theorem Conserved.ownedOnce {s : Board} (h : Conserved s) (b : BufId) : s.OwnedOnce b := by
  have hcount : s.queue.count b + s.server.holds.toList.count b + s.play.holds.toList.count b =
      1 := by
    rw [← List.count_append, ← List.count_append, h.owners.count_eq]
    exact List.count_eq_one_of_mem (List.nodup_finRange _) (List.mem_finRange b)
  have hiff : ∀ o : Option BufId, o.toList.count b = if o = some b then 1 else 0 := by
    intro o
    cases o <;> simp [List.count_cons]
  rw [hiff, hiff] at hcount
  unfold Board.OwnedOnce
  by_cases hs : s.server.holds = some b <;> by_cases hp : s.play.holds = some b <;>
    simp [hs, hp] at hcount ⊢ <;> omega

/-- **Conservation of the pool.** In every state any interleaving of the tasks reaches, every buffer
is in exactly one place; neither dequeue returns `NULL`; the queue never holds more than the whole
pool; and no enqueue finds it full, so the discard in `rcv_queue_enqueue` is never taken. -/
theorem receive_pool_conserved {s : Board} (h : BoardReachable Runs.everyStep s) :
    (∀ b, s.OwnedOnce b) ∧
    (s.server ≠ .recvfrom none ∧ s.play ≠ .take none) ∧
    (s.server = .dequeue ∨ s.play = .dequeue → (rcvQueueDequeue s.queue).1 ≠ none) ∧
    s.queue.length ≤ rcvBufferNum ∧
    (∀ b, s.server = .enqueue b → s.queue.length ≠ rcvBufferNum) ∧
    (∀ b len, s.play = .put b len → s.queue.length ≠ rcvBufferNum) := by
  have hc := conserved_of_reachable h
  refine ⟨hc.ownedOnce, ⟨hc.server_ne, hc.play_ne⟩, ?_, hc.queue_length_le, ?_, ?_⟩
  · rintro (hpc | hpc)
    · obtain ⟨b, q, hq⟩ := hc.exists_cons_of_server (by rw [hpc]; rfl)
      simp [rcvQueueDequeue, hq]
    · obtain ⟨b, q, hq⟩ := hc.exists_cons_of_play (by rw [hpc]; rfl)
      simp [rcvQueueDequeue, hq]
  · intro b hpc
    exact (hc.queue_length_lt_of_server (by rw [hpc]; rfl)).ne
  · intro b len hpc
    exact (hc.queue_length_lt_of_play (by rw [hpc]; rfl)).ne

/-- The law at a moment when both tasks hold a buffer: after an `AT1` datagram the server waits in
`recvfrom` and the player has just dequeued. -/
theorem receive_pool_conserved_both_hands : ∃ s : Board,
    (s.server.holds = some 1 ∧ s.play.holds = some 2) ∧ (∀ b, s.OwnedOnce b) := by
  obtain ⟨s, hs, hp⟩ := Board.exists_reachable Runs.everyStep
    (commandRun [0x41, 0x54, 0x31] ++ [.server, .play, .play])
    (fun s ↦ s.server.holds == some 1 && s.play.holds == some 2)
    (by decide)
  rw [Bool.and_eq_true, beq_iff_eq, beq_iff_eq] at hp
  exact ⟨s, hp, (receive_pool_conserved hs).1⟩

end YHAudioLink
