import YHAudioLink.Board.Tasks

/-!
# Commands out of old bytes

`task_udpserver` hands `parse_AT` the buffer and its size, not what `recvfrom` returned, and
`parse_AT` looks at the first three bytes. After a receive of fewer than three bytes some of those
are what an earlier datagram left in the buffer (or the heap, for a buffer not used yet), and after
a failed receive all of them are.

Whether that shows is a question about two runs: one iteration of the server, from two boards that
differ in old bytes only, with the same return of `recvfrom`. `decidedByReceived_iff` is the answer,
for each return on its own: what an iteration does to the line, the semaphores and the lengths
depends on the received bytes alone, **unless** these are the beginning of a command that goes on in
the old bytes, that is unless they are nothing, `A` or `AT`.
-/

namespace YHAudioLink

/-! ### One iteration of the server -/

/-- The bytes a return of `recvfrom` delivers. -/
def RecvFrom.delivered : RecvFrom → List UInt8
  | .datagram _ payload => received payload
  | _ => []

/-- The part of an iteration that comes after `recvfrom`: `parse_AT`, the posts, and the buffer's
way back into the queue. -/
def serverRest (s : Board) : Option Board := do
  let s ← taskUdpserver s
  match s.server with
  | .postRec _ => taskUdpserver s >>= taskUdpserver >>= taskUdpserver
  | _ => taskUdpserver s

/-- One iteration of the loop of `task_udpserver`; `none` where it dereferences the `NULL` of an
empty queue. -/
def serverIteration (s : Board) (r : RecvFrom) : Option Board := do
  let s ← taskUdpserver s
  let s ← recvfromReturn s r
  serverRest s

/-- What an iteration has an effect on. -/
@[ext]
structure ServerEffect where
  line : Bool
  semVs1053async : ℕ
  semVs1053PlayAsync : ℕ
  len : BufId → ℤ

/-- As it is on a board. -/
def Board.effect (s : Board) : ServerEffect :=
  ⟨s.line, s.semVs1053async, s.semVs1053PlayAsync, fun b ↦ (s.pool b).len⟩

/-- What becomes of it in an iteration, given what `parse_AT` makes of the buffer: the flag it
returns, and the line. -/
def ServerEffect.after (e : ServerEffect) (b : BufId) (ret : ℤ) (cmd : Bool × Bool) :
    ServerEffect where
  line := cmd.2
  semVs1053async := if cmd.1 && cmd.2 then osSemPost e.semVs1053async else e.semVs1053async
  semVs1053PlayAsync :=
    if cmd.1 && cmd.2 then osSemPost e.semVs1053PlayAsync else e.semVs1053PlayAsync
  len := Function.update e.len b (if cmd.1 then 0 else ret)

/-- The lengths once that of one buffer is cleared. -/
theorem len_update_clear (pool : BufId → RevBuffer) (b : BufId) :
    (fun c ↦ (Function.update pool b (pool b).clear c).len) =
      Function.update (fun c ↦ (pool c).len) b 0 := by
  funext c
  rcases eq_or_ne c b with rfl | hne
  · rw [Function.update_self, Function.update_self, RevBuffer.clear_len]
  · rw [Function.update_of_ne hne, Function.update_of_ne hne]

/-- What `parse_AT` makes of the buffer decides the rest of the iteration. -/
theorem serverRest_effect {s : Board} {b : BufId} (hpc : s.server = .parse b) :
    (serverRest s).map Board.effect =
      some (s.effect.after b (s.pool b).len (parseAT (s.pool b).bytes s.line)) := by
  obtain ⟨⟨ret, line⟩, hparse⟩ : ∃ cmd, parseAT (s.pool b).bytes s.line = cmd := ⟨_, rfl⟩
  rcases ret with - | -
  · simp [serverRest, taskUdpserver, hpc, hparse, ServerEffect.after, Board.effect]
  · rcases line with - | - <;>
      simp [serverRest, taskUdpserver, hpc, hparse, ServerEffect.after, Board.effect,
        len_update_clear]

/-- What becomes of the other buffers' lengths does not depend on the length the buffer had. -/
theorem ServerEffect.after_congr {e e' : ServerEffect} {b : BufId} {ret : ℤ} {cmd : Bool × Bool}
    (hrec : e'.semVs1053async = e.semVs1053async)
    (hplay : e'.semVs1053PlayAsync = e.semVs1053PlayAsync) (hlen : ∀ c ≠ b, e'.len c = e.len c) :
    e'.after b ret cmd = e.after b ret cmd := by
  refine ServerEffect.ext rfl ?_ ?_ (funext fun c ↦ ?_)
  · simp only [after, hrec]
  · simp only [after, hplay]
  · rcases eq_or_ne c b with rfl | hne
    · simp only [after, Function.update_self]
    · simp only [after, Function.update_of_ne hne, hlen c hne]

/-- **An iteration of the server** is decided by `parse_AT` on the buffer after the receive. -/
theorem serverIteration_effect {s : Board} {b : BufId} {r : RecvFrom} (hpc : s.server = .dequeue)
    (hqueue : s.queue.head? = some b) :
    (serverIteration s r).map Board.effect = some (s.effect.after b r.ret
      (parseAT ((s.pool b).recvfrom (receipts s.trace + 1) r).bytes s.line)) := by
  obtain ⟨t, ht, hparse, hb, hline, hrec, hplay, hlen⟩ : ∃ t,
      (taskUdpserver s >>= fun s₁ ↦ recvfromReturn s₁ r) = some t ∧ t.server = .parse b ∧
      t.pool b = (s.pool b).recvfrom (receipts s.trace + 1) r ∧ t.line = s.line ∧
      t.semVs1053async = s.semVs1053async ∧ t.semVs1053PlayAsync = s.semVs1053PlayAsync ∧
      ∀ c ≠ b, (t.pool c).len = (s.pool c).len := by
    refine ⟨_, by simp [taskUdpserver, recvfromReturn, hpc, rcvQueueDequeue, hqueue]; rfl, ?_⟩
    simp +contextual [Function.update_of_ne]
  have hiter : serverIteration s r = serverRest t := by
    rw [serverIteration, ← bind_assoc, ht]
    rfl
  rw [hiter, serverRest_effect hparse, hb, hline, RevBuffer.recvfrom_len]
  exact congrArg some (ServerEffect.after_congr hrec hplay hlen)

/-- Without a buffer there is no iteration. -/
theorem serverIteration_none {s : Board} {r : RecvFrom} (hpc : s.server = .dequeue)
    (hqueue : s.queue.head? = none) : serverIteration s r = none := by
  simp [serverIteration, taskUdpserver, recvfromReturn, hpc, rcvQueueDequeue, hqueue]

/-! ### Two runs -/

/-- Two boards that differ in old bytes only, beyond the first `n` bytes of the buffer that is
received into next. -/
structure SameBeyond (n : ℕ) (s s' : Board) : Prop where
  rest : s' = { s with pool := s'.pool }
  len : ∀ b, (s'.pool b).len = (s.pool b).len
  delivered : ∀ b, s.queue.head? = some b → ∀ i < n, (s'.pool b).data i = (s.pool b).data i

/-- An iteration with this return of `recvfrom` has the same effect on any two such boards. -/
def DecidedByReceived (r : RecvFrom) : Prop :=
  ∀ s s', s.server = .dequeue → SameBeyond r.delivered.length s s' →
    (serverIteration s' r).map Board.effect = (serverIteration s r).map Board.effect

/-- The bytes of a buffer after a receive: those that were delivered, and behind them the old
ones. -/
theorem recvfrom_bytes (b : RevBuffer) (n : ℕ) (r : RecvFrom) :
    (b.recvfrom n r).bytes = fun i ↦ r.delivered.getD i (b.bytes i) := by
  funext i
  rcases r with - | - | ⟨src, payload⟩
  · rfl
  · rfl
  · simp only [RevBuffer.bytes, RevBuffer.recvfrom, RecvFrom.delivered, List.getD_eq_getElem?_getD]
    rcases (received payload)[i]? with - | v <;> rfl

/-- What `parse_AT` makes of received bytes with old ones behind them. -/
def parseReceived (delivered : List UInt8) (old : ℕ → UInt8) (line : Bool) : Bool × Bool :=
  parseAT (fun i ↦ delivered.getD i (old i)) line

/-- An old command in a buffer. -/
def oldCommand (cmd : UInt8) : ℕ → UInt8
  | 0 => 0x41
  | 1 => 0x54
  | _ => cmd

/-- Where the beginning of a command is received over an old one, the old one is still there. -/
theorem getD_oldCommand {delivered : List UInt8} (h : delivered <+: [0x41, 0x54]) (cmd : UInt8) :
    (fun i ↦ delivered.getD i (oldCommand cmd i)) = oldCommand cmd := by
  funext i
  rw [List.getD_eq_getElem?_getD]
  rcases hi : delivered[i]? with - | v
  · rfl
  · obtain ⟨hlt, hv⟩ := List.getElem?_eq_some_iff.1 hi
    have hle : delivered.length ≤ 2 := h.length_le
    have hget := h.getElem hlt
    obtain rfl | rfl : i = 0 ∨ i = 1 := by omega
    · exact hv.symm.trans hget
    · exact hv.symm.trans hget

/-- What is made of received bytes that are not the beginning of a command does not depend on old
ones. -/
theorem parseReceived_congr {delivered : List UInt8} (h : ¬ delivered <+: [0x41, 0x54])
    (old old' : ℕ → UInt8) (line : Bool) :
    parseReceived delivered old' line = parseReceived delivered old line := by
  rcases delivered with - | ⟨x, - | ⟨y, - | ⟨z, rest⟩⟩⟩
  · exact absurd List.nil_prefix h
  · have hx : x ≠ 0x41 := by
      rintro rfl
      exact h ⟨[0x54], rfl⟩
    simp [parseReceived, parseAT, isAT, hx]
  · have hxy : ¬ (x = 0x41 ∧ y = 0x54) := by
      rintro ⟨rfl, rfl⟩
      exact h List.prefix_rfl
    simp [parseReceived, parseAT, isAT, hxy]
  · -- all three bytes `parse_AT` looks at have been received
    refine parseAT_congr (fun i hi ↦ ?_) line
    have hlt : i < (x :: y :: z :: rest).length := Nat.lt_of_lt_of_le hi (by simp)
    rw [List.getD_eq_getElem?_getD, List.getD_eq_getElem?_getD, List.getElem?_eq_getElem hlt]
    rfl

/-- A board whose buffers come out of the heap with an old command in them. -/
def Board.oldBoot (cmd : UInt8) : Board := Board.boot (fun _ ↦ oldCommand cmd) ⟨0, 0⟩ ⟨0, 0⟩

theorem Board.init_oldBoot (cmd : UInt8) : (Board.oldBoot cmd).Init := ⟨_, _, _, rfl⟩

theorem Board.oldBoot_queue (cmd : UInt8) : (Board.oldBoot cmd).queue.head? = some 0 := by
  rw [(Board.init_oldBoot cmd).pool_queue.1]
  rfl

theorem Board.oldBoot_bytes (cmd : UInt8) (b : BufId) :
    ((Board.oldBoot cmd).pool b).bytes = oldCommand cmd := by
  simp only [oldBoot, boot, revBufferInit_of_all]
  rfl

/-- Two such boards have the same first two bytes in every buffer. -/
theorem Board.sameBeyond_oldBoot {n : ℕ} (hn : n ≤ 2) (cmd cmd' : UInt8) :
    SameBeyond n (Board.oldBoot cmd) (Board.oldBoot cmd') where
  rest := by simp [oldBoot, boot, revBufferInit_of_all]
  len b := by rw [(init_oldBoot cmd).pool_queue.2, (init_oldBoot cmd').pool_queue.2]
  delivered b _ i hi := by
    obtain rfl | rfl : i = 0 ∨ i = 1 := by omega
    · simp [oldBoot, boot, revBufferInit_of_all, oldCommand]
    · simp [oldBoot, boot, revBufferInit_of_all, oldCommand]

/-- **The beginning of a command is completed by old bytes**: the line goes up on one board and
stays down on the other, both just started. -/
theorem not_decidedByReceived_of_prefix {r : RecvFrom} (h : r.delivered <+: [0x41, 0x54]) :
    ¬ DecidedByReceived r := by
  intro hsame
  have heffect := hsame _ _ rfl
    (Board.sameBeyond_oldBoot h.length_le atLineEatablish atLineShutdown)
  have hline (cmd : UInt8) : (serverIteration (Board.oldBoot cmd) r).map (fun t ↦ t.line) =
      some (parseAT (oldCommand cmd) false).2 := by
    have hiter := serverIteration_effect (r := r) rfl (Board.oldBoot_queue cmd)
    rw [recvfrom_bytes, Board.oldBoot_bytes, getD_oldCommand h] at hiter
    have hlines := congrArg (Option.map ServerEffect.line) hiter
    rwa [Option.map_map] at hlines
  have hlines := congrArg (Option.map ServerEffect.line) heffect
  rw [Option.map_map, Option.map_map] at hlines
  change (serverIteration _ r).map (fun t ↦ t.line) = (serverIteration _ r).map (fun t ↦ t.line)
    at hlines
  rw [hline, hline] at hlines
  exact absurd hlines (by decide)

/-- **Commands are decided by the received bytes**, unless these are the beginning of a command that
goes on in the old ones. -/
theorem decidedByReceived_iff (r : RecvFrom) :
    DecidedByReceived r ↔ ¬ r.delivered <+: [0x41, 0x54] := by
  constructor
  · exact fun h hprefix ↦ not_decidedByReceived_of_prefix hprefix h
  · intro h s s' hpc hsame
    have hrest := hsame.rest
    have hpc' : s'.server = .dequeue := by rw [hrest, hpc]
    have hqueue' : s'.queue = s.queue := by rw [hrest]
    have htrace' : s'.trace = s.trace := by rw [hrest]
    have hline' : s'.line = s.line := by rw [hrest]
    have heffect : s'.effect = s.effect := by
      rw [Board.effect, funext hsame.len, hrest]
      rfl
    rcases hhead : s.queue.head? with - | b
    · rw [serverIteration_none hpc hhead, serverIteration_none hpc' (by rw [hqueue', hhead])]
    · rw [serverIteration_effect hpc hhead, serverIteration_effect hpc' (by rw [hqueue', hhead]),
        recvfrom_bytes, recvfrom_bytes, heffect, hline']
      have hparse := parseReceived_congr h (s.pool b).bytes (s'.pool b).bytes s.line
      rw [parseReceived, parseReceived] at hparse
      rw [hparse]

/-- A failed receive over an old command. -/
theorem not_decidedByReceived : ¬ ∀ r, DecidedByReceived r :=
  fun h ↦ not_decidedByReceived_of_prefix (r := .error) List.nil_prefix (h .error)

end YHAudioLink
