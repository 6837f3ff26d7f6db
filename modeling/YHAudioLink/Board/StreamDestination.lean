import YHAudioLink.Board.Session

/-!
# Where the stream goes

A token of `sem_vs1053async` stands for the datagram it was posted for, but it does not carry the
address of that datagram. `recvfrom` overwrites the global `g_remote_sin` on every datagram of every
host, and `task_udpclient` reads it later, the address and the port in two statements, after it has
consumed the token. So the stream may go to a host that never asked for it
(`not_stream_destined`).

Tokens are matched with consumptions in the order of a semaphore: the `k`-th token consumed is the
`k`-th posted. `streamSource` is the host whose `AT1` the current stream answers, if its token was
posted for one.

The condition is about **which datagram was the last to arrive** at the two moments of reading
(`readsOwnSource`): one from the address, then one from the port, that the token was posted for. In
a run that meets it at every read, everything the client sends goes to the source of its token and
that source's port minus one (`stream_destined`).
-/

namespace YHAudioLink

/-! ### Tokens and their sources -/

/-- The last return of `recvfrom`. -/
def lastRecv : List Event → Option RecvFrom
  | [] => none
  | .recv r :: _ => some r
  | _ :: tr => lastRecv tr

/-- The source of the last datagram received. -/
def lastSource : List Event → Option Endpoint
  | [] => none
  | .recv (.datagram src _) :: _ => some src
  | _ :: tr => lastSource tr

/-- The source of an `AT1` datagram. -/
def establishSource : Option RecvFrom → Option Endpoint
  | some (.datagram src payload) => if isEstablish payload then some src else none
  | _ => none

/-- The tokens posted, oldest first, each with the source of the `AT1` datagram it was posted for.
The server receives nothing between a datagram and its post, so that datagram is the last one. -/
def tokens : List Event → List (Option Endpoint)
  | [] => []
  | .post :: tr => tokens tr ++ [establishSource (lastRecv tr)]
  | _ :: tr => tokens tr

/-- The number of tokens the client has consumed. -/
def consumed : List Event → ℕ
  | [] => 0
  | .pend :: tr => consumed tr + 1
  | _ :: tr => consumed tr

/-- The source of the `AT1` datagram whose token was consumed last. -/
def streamSource (tr : List Event) : Option Endpoint :=
  match consumed tr with
  | 0 => none
  | k + 1 => ((tokens tr)[k]?).join

/-- Where a stream for this source belongs: the same host, one port lower. -/
def Endpoint.streamTarget (e : Endpoint) : Endpoint := ⟨e.ip, e.port - 1⟩

/-- The law of a trace: everything the client sends goes to the target of its stream. -/
def ToTokenSource : List Event → Prop
  | [] => True
  | .header dest _ :: tr | .block dest _ :: tr =>
    (∀ src, streamSource tr = some src → dest = src.streamTarget) ∧ ToTokenSource tr
  | _ :: tr => ToTokenSource tr

/-- A further token does not change the one consumed last. -/
theorem streamSource_post {tr : List Event} (h : consumed tr ≤ (tokens tr).length) :
    streamSource (.post :: tr) = streamSource tr := by
  have htokens : tokens (.post :: tr) = tokens tr ++ [establishSource (lastRecv tr)] := rfl
  have hconsumed : consumed (.post :: tr) = consumed tr := rfl
  rw [streamSource, streamSource, htokens, hconsumed]
  rcases hk : consumed tr with - | k
  · rfl
  · rw [hk] at h
    dsimp only
    rw [List.getElem?_append_left (by omega)]

/-- The transitions of the line are neither receives, nor tokens, nor sends. -/
theorem destination_lineEvents (x y : Bool) (tr : List Event) :
    lastSource (lineEvents x y ++ tr) = lastSource tr ∧
      tokens (lineEvents x y ++ tr) = tokens tr ∧
      consumed (lineEvents x y ++ tr) = consumed tr ∧
      (ToTokenSource tr → ToTokenSource (lineEvents x y ++ tr)) := by
  rcases x with - | - <;> rcases y with - | - <;> exact ⟨rfl, rfl, rfl, id⟩

/-! ### The guard -/

/-- **The guard.** When the client reads the address, and again when it reads the port, the last
datagram received came from the address, or the port, of the `AT1` datagram whose token it has
consumed. -/
def readsOwnSource (s : Board) : Label → Bool
  | .client =>
    match s.client, streamSource s.trace with
    | .readAddr, some src => (lastSource s.trace).map Endpoint.ip == some src.ip
    | .readPort, some src => (lastSource s.trace).map Endpoint.port == some src.port
    | _, _ => true
  | _ => true

/-! ### The invariant -/

/-- What the client's local `sin` holds on the way from the token to the last block. -/
def AddressedFor (sin : SockAddrIn) (src : Option Endpoint) : ClientPc → Prop
  | .pend | .readAddr => True
  | .readPort => ∀ e, src = some e → sin.sin_addr = e.ip
  | .header | .record | .check => ∀ e, src = some e → sin.endpoint = e.streamTarget

/-- The invariant of a guarded run. -/
structure Destined (s : Board) : Prop where
  remote : ∀ src, lastSource s.trace = some src → s.remoteSin = src.toSockAddr
  count : (tokens s.trace).length = consumed s.trace + s.semVs1053async
  client : AddressedFor s.sin (streamSource s.trace) s.client
  law : ToTokenSource s.trace

namespace Destined

variable {s t : Board} {a : Label}

theorem of_init (h : s.Init) : Destined s := by
  obtain ⟨data, a, c, rfl⟩ := h
  exact ⟨fun src hsrc ↦ absurd hsrc (by simp [lastSource, Board.boot]), rfl, trivial, trivial⟩

/-- A step that touches neither the address, nor the semaphore, nor the client, nor the events the
law is about keeps the invariant. -/
theorem of_same (h : Destined s) (hremote : t.remoteSin = s.remoteSin)
    (hsem : t.semVs1053async = s.semVs1053async) (hclient : t.client = s.client)
    (hsin : t.sin = s.sin) (hlast : lastSource t.trace = lastSource s.trace)
    (htokens : tokens t.trace = tokens s.trace) (hconsumed : consumed t.trace = consumed s.trace)
    (hlaw : ToTokenSource s.trace → ToTokenSource t.trace) : Destined t := by
  have hsource : streamSource t.trace = streamSource s.trace := by
    rw [streamSource, streamSource, htokens, hconsumed]
  refine ⟨?_, ?_, ?_, hlaw h.law⟩
  · rw [hlast, hremote]
    exact h.remote
  · rw [htokens, hconsumed, hsem]
    exact h.count
  · rw [hsin, hsource, hclient]
    exact h.client

/-- A datagram replaces the address, whoever it comes from. -/
theorem recvfrom (h : Destined s) (r : RecvFrom) (pool : BufId → RevBuffer) (pc : ServerPc) :
    Destined { s with
      pool := pool
      remoteSin :=
        match r with
        | .datagram src _ => src.toSockAddr
        | _ => s.remoteSin
      server := pc
      trace := .recv r :: s.trace } := by
  refine ⟨?_, h.count, h.client, h.law⟩
  rcases r with - | - | ⟨src, payload⟩
  · exact h.remote
  · exact h.remote
  · rintro e he
    obtain rfl : src = e := Option.some.inj he
    rfl

/-- A token is posted behind those that are there. -/
theorem post (h : Destined s) (pc : ServerPc) :
    Destined { s with
      semVs1053async := osSemPost s.semVs1053async
      server := pc
      trace := if s.semVs1053async < 65535 then .post :: s.trace else s.trace } := by
  have hcount := h.count
  by_cases hsem : s.semVs1053async < 65535
  · simp only [hsem, if_true, osSemPost]
    have hsource : streamSource (.post :: s.trace) = streamSource s.trace :=
      streamSource_post (by omega)
    refine ⟨h.remote, ?_, ?_, h.law⟩
    · show (tokens s.trace ++ [establishSource (lastRecv s.trace)]).length =
        consumed s.trace + (s.semVs1053async + 1)
      rw [List.length_append, hcount, List.length_singleton]
      omega
    · dsimp only
      rw [hsource]
      exact h.client
  · -- the post is refused: the count is at its maximum
    simp only [hsem, if_false, osSemPost]
    exact ⟨h.remote, hcount, h.client, h.law⟩

/-- The client consumes a token; nothing is addressed yet. -/
theorem pend (h : Destined s) (hsem : 0 < s.semVs1053async) :
    Destined { s with
      semVs1053async := s.semVs1053async - 1, client := .readAddr, trace := .pend :: s.trace } := by
  refine ⟨h.remote, ?_, trivial, h.law⟩
  show (tokens s.trace).length = consumed s.trace + 1 + (s.semVs1053async - 1)
  rw [h.count]
  omega

/-- The address read is that of the token's source. -/
theorem readAddr (h : Destined s) (hpc : s.client = .readAddr)
    (hok : readsOwnSource s .client = true) :
    Destined { s with
      sin := { s.sin with sin_addr := s.remoteSin.sin_addr }, client := .readPort } := by
  refine ⟨h.remote, h.count, ?_, h.law⟩
  intro e he
  have hlast : (lastSource s.trace).map Endpoint.ip = some e.ip := by
    simpa [readsOwnSource, hpc, he] using hok
  obtain ⟨last, hlast', hip⟩ := Option.map_eq_some_iff.1 hlast
  show s.remoteSin.sin_addr = e.ip
  rw [h.remote last hlast', ← hip]
  rfl

/-- The port read is that of the token's source, and the address has not changed since. -/
theorem readPort (h : Destined s) (hpc : s.client = .readPort)
    (hok : readsOwnSource s .client = true) :
    Destined { s with
      sin := { s.sin with sin_port := htons (ntohs s.remoteSin.sin_port - 1) }
      client := .header } := by
  refine ⟨h.remote, h.count, ?_, h.law⟩
  intro e he
  have hclient := h.client
  rw [hpc] at hclient
  have hlast : (lastSource s.trace).map Endpoint.port = some e.port := by
    simpa [readsOwnSource, hpc, he] using hok
  obtain ⟨last, hlast', hport⟩ := Option.map_eq_some_iff.1 hlast
  have hread : ntohs s.remoteSin.sin_port = e.port := by
    rw [h.remote last hlast', ← hport]
    exact ntohs_htons last.port
  show (⟨s.sin.sin_addr, ntohs (htons (ntohs s.remoteSin.sin_port - 1))⟩ : Endpoint) =
    ⟨e.ip, e.port - 1⟩
  rw [hclient e he, ntohs_htons, hread]

/-- **Every admitted step keeps the stream on its way.** -/
theorem step (h : Destined s) (hok : readsOwnSource s a = true) (hst : Move s a t) :
    Destined t := by
  have hclient := h.client
  cases hst with
  | serverRecvfrom b r hpc => exact h.recvfrom r _ _
  | serverCommand b line =>
    obtain ⟨hlast, htokens, hconsumed, hlaw⟩ := destination_lineEvents s.line line s.trace
    exact h.of_same rfl rfl rfl rfl hlast htokens hconsumed hlaw
  | serverPostRec b => exact h.post _
  | clientPend hpc hsem => exact h.pend hsem
  | clientReadAddr hpc => exact h.readAddr hpc hok
  | clientReadPort hpc => exact h.readPort hpc hok
  | clientHeader hpc =>
    rw [hpc] at hclient
    exact ⟨h.remote, h.count, hclient, hclient, h.law⟩
  | clientBlock w samples hpc =>
    rw [hpc] at hclient
    exact ⟨h.remote, h.count, hclient, hclient, h.law⟩
  | clientNoBlock w samples hpc =>
    rw [hpc] at hclient
    exact ⟨h.remote, h.count, hclient, h.law⟩
  | clientCheck hpc =>
    rw [hpc] at hclient
    refine ⟨h.remote, h.count, ?_, h.law⟩
    rcases s.line with - | -
    · exact trivial
    · exact hclient
  | serverDequeue | serverData | serverPostPlay | serverEnqueue | playPend | playDequeue | playTake
  | playPut | playEmpty | playSkip | playInspect | playCopy | playSend | playCheck =>
    exact h.of_same rfl rfl rfl rfl rfl rfl rfl id

end Destined

/-! ### The law -/

/-- **Stream destination.** In every run in which the client, when it reads `g_remote_sin`, finds
the last datagram received to be from the address, and then from the port, of the `AT1` datagram
whose token it consumed: every header and every block it sends goes to the source address of that
datagram and to its source port minus one. -/
theorem stream_destined {s : Board} (h : BoardReachable readsOwnSource s) :
    ToTokenSource s.trace := by
  have hinv : Destined s :=
    h.invariant (fun _ ↦ Destined.of_init) fun _ _ _ hs hok hm ↦ hs.step hok hm
  exact hinv.law

/-- Another host, for replayed runs. -/
def otherPeer : Endpoint := ⟨2, 9⟩

/-- The event is a block sent to this endpoint. -/
def Event.isBlockTo (e : Endpoint) : Event → Bool
  | .block dest _ => dest == e
  | _ => false

/-- A stream is opened for `somePeer` and one block is sent; a datagram of another host arrives
after the reads, and one more block still goes to `somePeer`. -/
theorem stream_destined_two_blocks : ∃ s : Board,
    (s.trace.countP (Event.isBlockTo ⟨1, 50000⟩) = 2 ∧
      lastSource s.trace = some otherPeer) ∧ ToTokenSource s.trace := by
  obtain ⟨s, hs, hp⟩ := Board.exists_reachable readsOwnSource
    (commandRun [0x41, 0x54, 0x31] ++ [.client, .client, .client, .client,
      .record 256 fun _ ↦ 0, .server, .recvfrom (.datagram otherPeer [1]), .client,
      .record 256 fun _ ↦ 0])
    (fun s ↦ s.trace.countP (Event.isBlockTo ⟨1, 50000⟩) == 2 &&
      lastSource s.trace == some otherPeer)
    (by decide)
  rw [Bool.and_eq_true, beq_iff_eq, beq_iff_eq] at hp
  exact ⟨s, hp, stream_destined hs⟩

/-- **Without the guard the law fails.** `AT1` comes from `somePeer`, then a datagram of another
host arrives before the client runs, and the header goes to that host. -/
theorem not_stream_destined : ¬ ∀ s : Board, BoardReachable Runs.everyStep s →
    ToTokenSource s.trace := by
  intro hall
  obtain ⟨s, hs, hp⟩ := Board.exists_reachable Runs.everyStep
    (commandRun [0x41, 0x54, 0x31] ++ [.server, .recvfrom (.datagram otherPeer [1]),
      .client, .client, .client])
    (fun s ↦ decide (s.client = .header) && decide (s.sin.endpoint = ⟨2, 8⟩) &&
      decide (streamSource s.trace = some somePeer))
    (by decide)
  simp only [Bool.and_eq_true, decide_eq_true_eq] at hp
  obtain ⟨⟨hpc, hsin⟩, hsource⟩ := hp
  have hsend : s.step .client = some { s with
      client := .record, trace := .header s.sin.endpoint clientHeader :: s.trace } := by
    simp only [Board.step, taskUdpclient, hpc]
  have hdest := (hall _ (.step hs rfl hsend)).1 somePeer hsource
  rw [hsin] at hdest
  exact absurd hdest (by decide)

end YHAudioLink
