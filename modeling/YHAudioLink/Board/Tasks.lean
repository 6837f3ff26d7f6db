import YHAudioLink.Foundation.Runs
import YHAudioLink.Kernel.Semaphore
import YHAudioLink.Board.ReceivePool

/-!
# The three audio tasks of the board

`task_udpserver`, `task_play` and `task_udpclient` as one step machine. Each task is a program
counter over the statements that touch shared data; a step executes one such statement, and a label
says which task moves, so a label sequence is an interleaving. Statements that touch only a task's
own locals, or a buffer the task alone holds, are merged into a neighbouring step.

* The server loops `dequeue → recvfrom → parse → (post, post) → enqueue`.
* The player waits for its semaphore, then loops `dequeue → take → put → inspect → copy → send →
  check`; it puts the buffer back *before* it looks into it.
* The client waits for its semaphore, reads the remote address, sends one WAV header and then polls
  the recorder until it sees the line down.

A `NULL` from the queue is kept as a value: the program counters `recvfrom none` and `take none` are
reached by it and have no step, since the next statement dereferences the pointer.

## The trace

What the machine does to the outside, and what it receives, is recorded in `trace`, **newest event
first**. It is ghost: no step reads it except to number the datagrams.
-/

namespace YHAudioLink

/-! ### Program counters -/

/-- Where `task_udpserver` is. -/
inductive ServerPc
  | dequeue
  /-- Blocked in `recvfrom` into the buffer `pbuff` points to. -/
  | recvfrom (pbuff : Option BufId)
  | parse (pbuff : BufId)
  /-- About to post `sem_vs1053async`. -/
  | postRec (pbuff : BufId)
  /-- About to post `sem_vs1053_play_async`. -/
  | postPlay (pbuff : BufId)
  | enqueue (pbuff : BufId)
  deriving DecidableEq

/-- Where `play()` is, after its setup. -/
inductive PlayPc
  | pend
  | dequeue
  /-- `prcv_buff` is dequeued; its length is about to be saved and cleared. -/
  | take (prcvBuff : Option BufId)
  /-- The length is saved in `len`; the buffer is about to go back. -/
  | put (prcvBuff : BufId) (len : ℤ)
  /-- The buffer is back in the queue and is about to be inspected. -/
  | inspect (prcvBuff : BufId) (len : ℤ)
  /-- It is not a WAV header; `len` bytes are about to be copied out of it. -/
  | copy (prcvBuff : BufId) (len : ℤ)
  /-- The copy is about to be passed to `vs10xx_play_dma_send_data`. -/
  | send (pbuff : List Octet)
  | check
  deriving DecidableEq

/-- Where `task_udpclient` is, after its setup. -/
inductive ClientPc
  | pend
  | readAddr
  | readPort
  | header
  | record
  | check
  deriving DecidableEq

/-! ### Events and states -/

/-- What is recorded of a run. -/
inductive Event
  /-- `recvfrom` returned in the server. -/
  | recv (r : RecvFrom)
  /-- `is_line_established` went from 0 to 1. -/
  | up
  /-- `is_line_established` went from 1 to 0. -/
  | down
  /-- The server put its buffer back, with this length. -/
  | enqueue (len : ℤ)
  /-- A token was added to `sem_vs1053async`. -/
  | post
  /-- The client consumed a token of `sem_vs1053async`. -/
  | pend
  /-- The client sent a WAV header. -/
  | header (dest : Endpoint) (data : List UInt8)
  /-- The client sent a recorded block. -/
  | block (dest : Endpoint) (data : List UInt8)
  /-- `play()` skipped a buffer with this content as a WAV header. -/
  | skip (blk : List Octet)
  /-- `play()` passed this block to `vs10xx_play_dma_send_data`. -/
  | play (blk : List Octet)
  deriving DecidableEq

/-- The shared data of the three tasks, their program counters and the trace. -/
structure Board where
  /-- `s_rcv_buffer`. -/
  pool : BufId → RevBuffer
  /-- `s_rcv_queue`. -/
  queue : List BufId
  /-- `is_line_established`. -/
  line : Bool
  /-- `g_remote_sin`. -/
  remoteSin : SockAddrIn
  /-- The count of `sem_vs1053async`. -/
  semVs1053async : ℕ
  /-- The count of `sem_vs1053_play_async`. -/
  semVs1053PlayAsync : ℕ
  server : ServerPc
  play : PlayPc
  client : ClientPc
  /-- The local `sin` of `task_udpclient`. -/
  sin : SockAddrIn
  trace : List Event

/-- The number of returns of `recvfrom` so far. -/
def receipts : List Event → ℕ
  | [] => 0
  | .recv _ :: tr => receipts tr + 1
  | _ :: tr => receipts tr

/-- The transition of `is_line_established` that an assignment makes, if any. -/
def lineEvents : Bool → Bool → List Event
  | false, true => [.up]
  | true, false => [.down]
  | _, _ => []

/-- The board when the three tasks enter their loops: `rev_buffer_init` has completed with all
allocations, whatever the allocated memory holds. -/
def Board.boot (data : BufId → ℕ → UInt8) (remoteSin sin : SockAddrIn) : Board where
  pool := (revBufferInit fun i ↦ some fun j ↦ ⟨data i j, 0⟩).1
  queue := (revBufferInit fun i ↦ some fun j ↦ ⟨data i j, 0⟩).2
  line := false
  remoteSin := remoteSin
  semVs1053async := 0
  semVs1053PlayAsync := 0
  server := .dequeue
  play := .pend
  client := .pend
  sin := sin
  trace := []

/-- The initial states: uninitialised buffer memory and addresses are arbitrary. -/
def Board.Init (s : Board) : Prop :=
  ∃ data remoteSin sin, s = Board.boot data remoteSin sin

/-! ### The steps of the tasks -/

/-- Who moves. The return of `recvfrom` and a poll of the recorder carry what the environment
supplies. -/
inductive Label
  | server
  | recvfrom (r : RecvFrom)
  | play
  | client
  /-- A poll of the recorder: `w` is the value of `SPI_HDAT1`, `samples` the words `SPI_HDAT0`
  returns when it is read. -/
  | record (w : UInt16) (samples : ℕ → UInt16)

/-- A step of `task_udpserver` other than the return of `recvfrom`. -/
def taskUdpserver (s : Board) : Option Board :=
  match s.server with
  | .dequeue =>
    some { s with
      queue := (rcvQueueDequeue s.queue).2
      server := .recvfrom (rcvQueueDequeue s.queue).1 }
  | .recvfrom _ => none
  | .parse b =>
    let (ret, line) := parseAT (s.pool b).bytes s.line
    if ret then
      some { s with
        pool := Function.update s.pool b (s.pool b).clear
        line := line
        server := if line then .postRec b else .enqueue b
        trace := lineEvents s.line line ++ s.trace }
    else
      some { s with line := line, server := .enqueue b }
  | .postRec b =>
    some { s with
      semVs1053async := osSemPost s.semVs1053async
      server := .postPlay b
      trace := if s.semVs1053async < 65535 then .post :: s.trace else s.trace }
  | .postPlay b =>
    some { s with semVs1053PlayAsync := osSemPost s.semVs1053PlayAsync, server := .enqueue b }
  | .enqueue b =>
    some { s with
      queue := rcvQueueEnqueue s.queue b
      server := .dequeue
      trace := .enqueue (s.pool b).len :: s.trace }

/-- The return of `recvfrom` in `task_udpserver`: the buffer, the length and, for a datagram, the
global `g_remote_sin` are written. -/
def recvfromReturn (s : Board) (r : RecvFrom) : Option Board :=
  match s.server with
  | .recvfrom (some b) =>
    some { s with
      pool := Function.update s.pool b ((s.pool b).recvfrom (receipts s.trace + 1) r)
      remoteSin :=
        match r with
        | .datagram src _ => src.toSockAddr
        | _ => s.remoteSin
      server := .parse b
      trace := .recv r :: s.trace }
  | _ => none

/-- A step of `task_play`, which does nothing but call `play()`. -/
def taskPlay (s : Board) : Option Board :=
  match s.play with
  | .pend =>
    (osSemPend s.semVs1053PlayAsync).map fun cnt ↦
      { s with semVs1053PlayAsync := cnt, play := .dequeue }
  | .dequeue =>
    some { s with
      queue := (rcvQueueDequeue s.queue).2
      play := .take (rcvQueueDequeue s.queue).1 }
  | .take none => none
  | .take (some b) =>
    some { s with
      pool := Function.update s.pool b (s.pool b).clear
      play := .put b (s.pool b).len }
  | .put b len =>
    some { s with queue := rcvQueueEnqueue s.queue b, play := .inspect b len }
  | .inspect b len =>
    if 0 < len then
      if isWavHeader (s.pool b).bytes then
        -- `continue`: the line is not looked at after a skipped header
        some { s with play := .dequeue, trace := .skip ((s.pool b).octets len) :: s.trace }
      else some { s with play := .copy b len }
    else some { s with play := .check }
  | .copy b len => some { s with play := .send ((s.pool b).octets len) }
  | .send blk => some { s with play := .check, trace := .play blk :: s.trace }
  | .check => some { s with play := if s.line then .dequeue else .pend }

/-- The header `task_udpclient` sends: 500 blocks of 512 bytes are announced. -/
def clientHeader : List UInt8 := (wavHeaderInit (500 * 512 + 36) (500 * 512)).bytes

/-- A step of `task_udpclient` other than a poll of the recorder. -/
def taskUdpclient (s : Board) : Option Board :=
  match s.client with
  | .pend =>
    (osSemPend s.semVs1053async).map fun cnt ↦
      { s with semVs1053async := cnt, client := .readAddr, trace := .pend :: s.trace }
  | .readAddr =>
    some { s with sin := { s.sin with sin_addr := s.remoteSin.sin_addr }, client := .readPort }
  | .readPort =>
    some { s with
      sin := { s.sin with sin_port := htons (ntohs s.remoteSin.sin_port - 1) }
      client := .header }
  | .header =>
    some { s with
      client := .record
      trace := .header s.sin.endpoint clientHeader :: s.trace }
  | .record => none
  | .check => some { s with client := if s.line then .record else .pend }

/-- The 512 bytes read out of the recorder, each word low byte first. -/
def sndData (samples : ℕ → UInt16) : List UInt8 :=
  (List.range 256).flatMap fun k ↦ le16 (samples k)

/-- A poll of the recorder in `task_udpclient`: a block is read and sent when the recorder holds
between 256 and 895 words. -/
def recordPoll (s : Board) (w : UInt16) (samples : ℕ → UInt16) : Option Board :=
  match s.client with
  | .record =>
    if 256 ≤ w ∧ w < 896 then
      some { s with
        client := .check
        trace := .block s.sin.endpoint (sndData samples) :: s.trace }
    else some { s with client := .check }
  | _ => none

/-- One step of the board. -/
def Board.step (s : Board) : Label → Option Board
  | .server => taskUdpserver s
  | .recvfrom r => recvfromReturn s r
  | .play => taskPlay s
  | .client => taskUdpclient s
  | .record w samples => recordPoll s w samples

/-! ### What a step can do -/

/-- The transitions of the board, one constructor for each way a statement can go. This is what
invariants are proved over; `move_of_step` connects it to the step function. -/
inductive Move (s : Board) : Label → Board → Prop
  | serverDequeue (hpc : s.server = .dequeue) :
    Move s .server { s with
      queue := (rcvQueueDequeue s.queue).2
      server := .recvfrom (rcvQueueDequeue s.queue).1 }
  | serverRecvfrom (b : BufId) (r : RecvFrom) (hpc : s.server = .recvfrom (some b)) :
    Move s (.recvfrom r) { s with
      pool := Function.update s.pool b ((s.pool b).recvfrom (receipts s.trace + 1) r)
      remoteSin :=
        match r with
        | .datagram src _ => src.toSockAddr
        | _ => s.remoteSin
      server := .parse b
      trace := .recv r :: s.trace }
  | serverData (b : BufId) (hpc : s.server = .parse b) (hat : isAT (s.pool b).bytes = false) :
    Move s .server { s with server := .enqueue b }
  | serverCommand (b : BufId) (line : Bool) (hpc : s.server = .parse b)
      (hat : isAT (s.pool b).bytes = true) (hline : (parseAT (s.pool b).bytes s.line).2 = line) :
    Move s .server { s with
      pool := Function.update s.pool b (s.pool b).clear
      line := line
      server := if line then .postRec b else .enqueue b
      trace := lineEvents s.line line ++ s.trace }
  | serverPostRec (b : BufId) (hpc : s.server = .postRec b) :
    Move s .server { s with
      semVs1053async := osSemPost s.semVs1053async
      server := .postPlay b
      trace := if s.semVs1053async < 65535 then .post :: s.trace else s.trace }
  | serverPostPlay (b : BufId) (hpc : s.server = .postPlay b) :
    Move s .server { s with
      semVs1053PlayAsync := osSemPost s.semVs1053PlayAsync, server := .enqueue b }
  | serverEnqueue (b : BufId) (hpc : s.server = .enqueue b) :
    Move s .server { s with
      queue := rcvQueueEnqueue s.queue b
      server := .dequeue
      trace := .enqueue (s.pool b).len :: s.trace }
  | playPend (hpc : s.play = .pend) (hsem : 0 < s.semVs1053PlayAsync) :
    Move s .play { s with semVs1053PlayAsync := s.semVs1053PlayAsync - 1, play := .dequeue }
  | playDequeue (hpc : s.play = .dequeue) :
    Move s .play { s with
      queue := (rcvQueueDequeue s.queue).2
      play := .take (rcvQueueDequeue s.queue).1 }
  | playTake (b : BufId) (hpc : s.play = .take (some b)) :
    Move s .play { s with
      pool := Function.update s.pool b (s.pool b).clear
      play := .put b (s.pool b).len }
  | playPut (b : BufId) (len : ℤ) (hpc : s.play = .put b len) :
    Move s .play { s with queue := rcvQueueEnqueue s.queue b, play := .inspect b len }
  | playEmpty (b : BufId) (len : ℤ) (hpc : s.play = .inspect b len) (hlen : len ≤ 0) :
    Move s .play { s with play := .check }
  | playSkip (b : BufId) (len : ℤ) (hpc : s.play = .inspect b len) (hlen : 0 < len)
      (hwav : isWavHeader (s.pool b).bytes = true) :
    Move s .play { s with
      play := .dequeue, trace := .skip ((s.pool b).octets len) :: s.trace }
  | playInspect (b : BufId) (len : ℤ) (hpc : s.play = .inspect b len) (hlen : 0 < len)
      (hwav : isWavHeader (s.pool b).bytes = false) :
    Move s .play { s with play := .copy b len }
  | playCopy (b : BufId) (len : ℤ) (hpc : s.play = .copy b len) :
    Move s .play { s with play := .send ((s.pool b).octets len) }
  | playSend (blk : List Octet) (hpc : s.play = .send blk) :
    Move s .play { s with play := .check, trace := .play blk :: s.trace }
  | playCheck (hpc : s.play = .check) :
    Move s .play { s with play := if s.line then .dequeue else .pend }
  | clientPend (hpc : s.client = .pend) (hsem : 0 < s.semVs1053async) :
    Move s .client { s with
      semVs1053async := s.semVs1053async - 1, client := .readAddr, trace := .pend :: s.trace }
  | clientReadAddr (hpc : s.client = .readAddr) :
    Move s .client { s with
      sin := { s.sin with sin_addr := s.remoteSin.sin_addr }, client := .readPort }
  | clientReadPort (hpc : s.client = .readPort) :
    Move s .client { s with
      sin := { s.sin with sin_port := htons (ntohs s.remoteSin.sin_port - 1) }
      client := .header }
  | clientHeader (hpc : s.client = .header) :
    Move s .client { s with
      client := .record
      trace := .header s.sin.endpoint clientHeader :: s.trace }
  | clientBlock (w : UInt16) (samples : ℕ → UInt16) (hpc : s.client = .record)
      (hw : 256 ≤ w ∧ w < 896) :
    Move s (.record w samples) { s with
      client := .check
      trace := .block s.sin.endpoint (sndData samples) :: s.trace }
  | clientNoBlock (w : UInt16) (samples : ℕ → UInt16) (hpc : s.client = .record) :
    Move s (.record w samples) { s with client := .check }
  | clientCheck (hpc : s.client = .check) :
    Move s .client { s with client := if s.line then .record else .pend }

theorem move_of_taskUdpserver {s t : Board} (h : taskUdpserver s = some t) :
    Move s .server t := by
  unfold taskUdpserver at h
  split at h
  · next hpc => exact Option.some.inj h ▸ .serverDequeue hpc
  · exact absurd h (by simp)
  · next b hpc =>
    rcases hat : isAT (s.pool b).bytes with - | -
    · simp only [parseAT, hat] at h
      exact Option.some.inj h ▸ .serverData b hpc hat
    · simp only [parseAT, hat, if_true] at h
      exact Option.some.inj h ▸ .serverCommand b _ hpc hat (by simp [parseAT, hat])
  · next b hpc => exact Option.some.inj h ▸ .serverPostRec b hpc
  · next b hpc => exact Option.some.inj h ▸ .serverPostPlay b hpc
  · next b hpc => exact Option.some.inj h ▸ .serverEnqueue b hpc

theorem move_of_recvfromReturn {s t : Board} {r : RecvFrom}
    (h : recvfromReturn s r = some t) : Move s (.recvfrom r) t := by
  unfold recvfromReturn at h
  split at h
  · next b hpc => exact Option.some.inj h ▸ .serverRecvfrom b r hpc
  · exact absurd h (by simp)

theorem move_of_taskPlay {s t : Board} (h : taskPlay s = some t) : Move s .play t := by
  unfold taskPlay at h
  split at h
  · next hpc =>
    obtain ⟨cnt, hcnt, rfl⟩ := Option.map_eq_some_iff.1 h
    obtain ⟨hsem, rfl⟩ := osSemPend_eq_some hcnt
    exact .playPend hpc hsem
  · next hpc => exact Option.some.inj h ▸ .playDequeue hpc
  · exact absurd h (by simp)
  · next b hpc => exact Option.some.inj h ▸ .playTake b hpc
  · next b len hpc => exact Option.some.inj h ▸ .playPut b len hpc
  · next b len hpc =>
    split at h
    · next hlen =>
      split at h
      · next hwav => exact Option.some.inj h ▸ .playSkip b len hpc hlen hwav
      · next hwav =>
        exact Option.some.inj h ▸ .playInspect b len hpc hlen (Bool.eq_false_iff.2 hwav)
    · next hlen => exact Option.some.inj h ▸ .playEmpty b len hpc (not_lt.1 hlen)
  · next b len hpc => exact Option.some.inj h ▸ .playCopy b len hpc
  · next blk hpc => exact Option.some.inj h ▸ .playSend blk hpc
  · next hpc => exact Option.some.inj h ▸ .playCheck hpc

theorem move_of_taskUdpclient {s t : Board} (h : taskUdpclient s = some t) :
    Move s .client t := by
  unfold taskUdpclient at h
  split at h
  · next hpc =>
    obtain ⟨cnt, hcnt, rfl⟩ := Option.map_eq_some_iff.1 h
    obtain ⟨hsem, rfl⟩ := osSemPend_eq_some hcnt
    exact .clientPend hpc hsem
  · next hpc => exact Option.some.inj h ▸ .clientReadAddr hpc
  · next hpc => exact Option.some.inj h ▸ .clientReadPort hpc
  · next hpc => exact Option.some.inj h ▸ .clientHeader hpc
  · exact absurd h (by simp)
  · next hpc => exact Option.some.inj h ▸ .clientCheck hpc

theorem move_of_recordPoll {s t : Board} {w : UInt16} {samples : ℕ → UInt16}
    (h : recordPoll s w samples = some t) : Move s (.record w samples) t := by
  unfold recordPoll at h
  split at h
  · next hpc =>
    split at h
    · next hw => exact Option.some.inj h ▸ .clientBlock w samples hpc hw
    · exact Option.some.inj h ▸ .clientNoBlock w samples hpc
  · exact absurd h (by simp)

/-- **Every step of the board is one of the transitions.** -/
theorem move_of_step {s t : Board} {a : Label} (h : s.step a = some t) : Move s a t := by
  cases a with
  | server => exact move_of_taskUdpserver h
  | recvfrom r => exact move_of_recvfromReturn h
  | play => exact move_of_taskPlay h
  | client => exact move_of_taskUdpclient h
  | record w samples => exact move_of_recordPoll h

/-- Reachable states of the board, under a guard. -/
abbrev BoardReachable (ok : Board → Label → Bool) : Board → Prop :=
  Runs.Reachable Board.Init Board.step ok

/-- The invariant rule over the transitions of the board. -/
theorem BoardReachable.invariant {ok : Board → Label → Bool} {Inv : Board → Prop}
    (hinit : ∀ s, s.Init → Inv s)
    (hmove : ∀ s a t, Inv s → ok s a = true → Move s a t → Inv t) {s : Board}
    (h : BoardReachable ok s) : Inv s :=
  Runs.Reachable.invariant hinit (fun _ _ _ hs hok hst ↦ hmove _ _ _ hs hok (move_of_step hst)) h

/-- What the pool and the queue are at the start. -/
theorem Board.Init.pool_queue {s : Board} (h : s.Init) :
    s.queue = List.finRange rcvBufferNum ∧ ∀ b, (s.pool b).len = 0 := by
  obtain ⟨data, a, c, rfl⟩ := h
  simp [Board.boot, revBufferInit_of_all]

/-! ### Schedules for replayed runs -/

/-- The boot state with zeroed memory and addresses. -/
def Board.zeroBoot : Board := Board.boot (fun _ _ ↦ 0) ⟨0, 0⟩ ⟨0, 0⟩

theorem Board.init_zeroBoot : Board.zeroBoot.Init := ⟨_, _, _, rfl⟩

/-- A schedule that can be replayed from there under a guard, and ends in a state with a checkable
property, reaches such a state. -/
theorem Board.exists_reachable (ok : Board → Label → Bool) (as : List Label) (p : Board → Bool)
    (h : (Runs.execOk Board.step ok Board.zeroBoot as).map p = some true) :
    ∃ s, BoardReachable ok s ∧ p s = true :=
  Runs.exists_reachable_of_execOk Board.init_zeroBoot h

/-- The host datagrams come from in replayed runs. -/
def somePeer : Endpoint := ⟨1, 50001⟩

/-- One whole iteration of the server on a datagram that is not an AT datagram, or is one that
leaves the line down. -/
def dataRun (payload : List UInt8) : List Label :=
  [.server, .recvfrom (.datagram somePeer payload), .server, .server]

/-- One whole iteration of the server on an AT datagram after which the line is up. -/
def commandRun (payload : List UInt8) : List Label :=
  [.server, .recvfrom (.datagram somePeer payload), .server, .server, .server, .server]

end YHAudioLink
