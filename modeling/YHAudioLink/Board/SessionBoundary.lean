import YHAudioLink.Board.Playback
import YHAudioLink.Board.Session

/-!
# Audio and the boundary of a session

What `play()` passes to the codec should belong to the session it is heard in: received after the
most recent 0→1 transition of `is_line_established`, and while the line was up. Because every octet
carries the number of its datagram, this is a law about numbers: the stamps of a played block are
among `inSession`, the datagrams of the session.

Nothing in the two tasks keeps it. The pool is never flushed, so what the old session left in it is
played in the new one (`not_no_session_crossed`); the server queues what it receives whatever the
line state; and the player may stand anywhere in its loop when the line changes. The other end of
the link does clear its queues when a session starts.

`freshSession` names the three ways across the boundary: the line is raised while a payload is still
in the pool or in the player's hands, audio is queued while the line is down and the player still
runs, and a datagram of a line that is down is received into the buffer the player is about to copy.
A run that takes none of them keeps the law (`no_session_crossed`).
-/

namespace YHAudioLink

/-! ### The datagrams of a session -/

/-- The numbers of the datagrams received since the last 0→1 transition while the line was up. -/
def inSession : List Event → List ℕ
  | [] => []
  | .up :: _ => []
  | .recv _ :: tr => if lineUp tr then (receipts tr + 1) :: inSession tr else inSession tr
  | _ :: tr => inSession tr

/-- Every octet of the block was delivered by a datagram of the session. -/
def InSession (tr : List Event) (blk : List Octet) : Prop :=
  ∀ o ∈ blk, o.stamp ∈ inSession tr

/-- The law of a trace: every block played is of the session it is played in. -/
def NoCrossing : List Event → Prop
  | [] => True
  | .play blk :: tr => InSession tr blk ∧ NoCrossing tr
  | _ :: tr => NoCrossing tr

/-- `NoCrossing` as a test. -/
def isNoCrossing : List Event → Bool
  | [] => true
  | .play blk :: tr => blk.all (fun o ↦ (inSession tr).contains o.stamp) && isNoCrossing tr
  | _ :: tr => isNoCrossing tr

theorem isNoCrossing_iff (tr : List Event) : isNoCrossing tr = true ↔ NoCrossing tr := by
  induction tr with
  | nil => simp [isNoCrossing, NoCrossing]
  | cons e tr ih =>
    cases e with
    | play blk => simp [isNoCrossing, NoCrossing, InSession, ih]
    | recv | up | down | enqueue | post | pend | header | block | skip =>
      exact ih

theorem InSession.nil (tr : List Event) : InSession tr [] :=
  fun _ ho ↦ absurd ho List.not_mem_nil

/-- A receive only adds to the session. -/
theorem InSession.recv {tr : List Event} {blk : List Octet} (h : InSession tr blk)
    (r : RecvFrom) : InSession (.recv r :: tr) blk := by
  intro o ho
  simp only [inSession]
  split
  · exact List.mem_cons_of_mem _ (h o ho)
  · exact h o ho

/-- Unless the line is raised, an assignment to it leaves the session as it is. -/
theorem inSession_lineEvents {x y : Bool} (h : ¬ (x = false ∧ y = true)) (tr : List Event) :
    inSession (lineEvents x y ++ tr) = inSession tr := by
  rcases x with - | - <;> rcases y with - | -
  · rfl
  · exact absurd ⟨rfl, rfl⟩ h
  · rfl
  · rfl

theorem noCrossing_lineEvents {x y : Bool} {tr : List Event} (h : NoCrossing tr) :
    NoCrossing (lineEvents x y ++ tr) := by
  rcases x with - | - <;> rcases y with - | - <;> exact h

/-! ### The guard -/

/-- What `play()` has in its hands, or is about to copy out of a buffer it has put back. -/
def PlayPc.carried (pool : BufId → RevBuffer) : PlayPc → List Octet
  | .put b len | .inspect b len | .copy b len => (pool b).octets len
  | .send blk => blk
  | _ => []

/-- The player waits for its semaphore and no token is left. -/
def Board.parked (s : Board) : Bool := s.play == .pend && s.semVs1053PlayAsync == 0

/-- No buffer but `b` holds a payload. -/
def Board.emptyBut (s : Board) (b : BufId) : Bool :=
  (List.finRange rcvBufferNum).all fun c ↦ c == b || decide ((s.pool c).len ≤ 0)

/-- **The guard.** The line is raised only with an empty pool and empty-handed player; audio is
queued on a line that is down only while the player is parked; and no datagram of a line that is
down is received into the buffer `play()` has put back and not yet copied. -/
def freshSession (s : Board) : Label → Bool
  | .server =>
    match s.server with
    | .parse b =>
      if isAT (s.pool b).bytes then
        s.line || !(parseAT (s.pool b).bytes s.line).2 ||
          (s.emptyBut b && (s.play.carried s.pool).isEmpty)
      else s.line || decide ((s.pool b).len ≤ 0) || s.parked
    | _ => true
  | .recvfrom r => s.line || copiedBeforeReuse s (.recvfrom r)
  | _ => true

/-- Under that guard a receive leaves what the player carries as it is. -/
theorem carried_recvfrom {s : Board} (hc : Conserved s) {b : BufId} {r : RecvFrom}
    (hpc : s.server = .recvfrom (some b)) (hok : copiedBeforeReuse s (.recvfrom r) = true)
    (n : ℕ) :
    s.play.carried (Function.update s.pool b ((s.pool b).recvfrom n r)) =
      s.play.carried s.pool := by
  cases hplay : s.play with
  | pend | dequeue | take | send | check => rfl
  | put c len => exact octets_recvfrom hc hpc hok (.inl hplay) n
  | inspect c len => exact octets_recvfrom hc hpc hok (.inr (.inl hplay)) n
  | copy c len => exact octets_recvfrom hc hpc hok (.inr (.inr hplay)) n

/-! ### The invariant -/

/-- The server is about to post one of the two semaphores. -/
def ServerPc.signalling : ServerPc → Bool
  | .postRec _ | .postPlay _ => true
  | _ => false

/-- The invariant of a guarded run. The buffer the server is about to parse is left out while the
line is down: what is in it has not been queued. -/
structure SessionClean (s : Board) : Prop where
  line_eq : s.line = lineUp s.trace
  signalling : s.server.signalling = true → s.line = true
  pool : ∀ c, (s.server = .parse c → s.line = true) →
    InSession s.trace (s.pool c).payload ∨ (s.line = false ∧ s.parked = true)
  carried : InSession s.trace (s.play.carried s.pool)
  law : NoCrossing s.trace

namespace SessionClean

variable {s t : Board} {a : Label}

theorem of_init (h : s.Init) : SessionClean s := by
  obtain ⟨-, hlen⟩ := h.pool_queue
  have hempty : ∀ c, (s.pool c).payload = [] := fun c ↦
    RevBuffer.octets_of_nonpos (hlen c).le
  obtain ⟨data, a, c, rfl⟩ := h
  exact ⟨rfl, fun h ↦ Bool.noConfusion h, fun c _ ↦ Or.inl (hempty c ▸ InSession.nil _),
    InSession.nil _, trivial⟩

/-- While the player runs, whatever has been queued is of the session. -/
theorem payload_inSession (h : SessionClean s) (hplay : s.play ≠ .pend) {c : BufId}
    (hc : s.server = .parse c → s.line = true) : InSession s.trace (s.pool c).payload := by
  refine (h.pool c hc).resolve_right ?_
  rintro ⟨-, hparked⟩
  rw [Board.parked, Bool.and_eq_true, beq_iff_eq] at hparked
  exact hplay hparked.1

/-- A step that touches neither the pool, nor the line, nor the player, nor the events of a session
keeps the invariant. -/
theorem of_same (h : SessionClean s) (hpool : t.pool = s.pool) (hline : t.line = s.line)
    (hplay : t.play = s.play) (hsem : t.semVs1053PlayAsync = s.semVs1053PlayAsync)
    (hserver : ∀ c, s.server = .parse c → t.server = .parse c)
    (hsignal : t.server.signalling = true → s.server.signalling = true)
    (hup : lineUp t.trace = lineUp s.trace) (hin : inSession t.trace = inSession s.trace)
    (hlaw : NoCrossing s.trace → NoCrossing t.trace) : SessionClean t := by
  have hInSession : ∀ blk, InSession s.trace blk → InSession t.trace blk := by
    intro blk hblk o ho
    rw [hin]
    exact hblk o ho
  refine ⟨by rw [hline, hup, h.line_eq], fun h' ↦ hline ▸ h.signalling (hsignal h'), ?_, ?_,
    hlaw h.law⟩
  · intro c hc
    rw [hline] at hc ⊢
    rw [Board.parked, hpool, hplay, hsem]
    exact (h.pool c fun hpc ↦ hc (hserver c hpc)).imp_left (hInSession _)
  · rw [hpool, hplay]
    exact hInSession _ h.carried

/-- A step of the running player that changes neither the pool nor the session. -/
theorem of_play (h : SessionClean s) (hpc : s.play ≠ .pend) {pc : PlayPc} {queue : List BufId}
    {tr : List Event} (hup : lineUp tr = lineUp s.trace) (hin : inSession tr = inSession s.trace)
    (hcarried : InSession s.trace (pc.carried s.pool)) (hlaw : NoCrossing tr) :
    SessionClean { s with queue := queue, play := pc, trace := tr } := by
  have hInSession : ∀ blk, InSession s.trace blk → InSession tr blk := by
    intro blk hblk o ho
    rw [hin]
    exact hblk o ho
  exact ⟨h.line_eq.trans hup.symm, h.signalling,
    fun c hc ↦ Or.inl (hInSession _ (h.payload_inSession hpc hc)), hInSession _ hcarried, hlaw⟩

/-! ### The server's steps -/

/-- **A receive.** On an established line the fresh bytes are of the session; on a line that is down
they are not, but the buffer is not queued yet and the player does not look into it. -/
theorem recvfrom (hc : Conserved s) (h : SessionClean s) {b : BufId} {r : RecvFrom}
    (hpc : s.server = .recvfrom (some b)) (hok : freshSession s (.recvfrom r) = true)
    (remoteSin : SockAddrIn) :
    SessionClean { s with
      pool := Function.update s.pool b ((s.pool b).recvfrom (receipts s.trace + 1) r)
      remoteSin := remoteSin
      server := .parse b
      trace := .recv r :: s.trace } := by
  have hb : s.server.holds = some b := by rw [hpc]; rfl
  refine ⟨h.line_eq, fun h' ↦ Bool.noConfusion h', ?_, ?_, h.law⟩
  · intro c hline
    rcases eq_or_ne c b with rfl | hne
    · -- the buffer received into counts only once the line is up
      have hup : lineUp s.trace = true := h.line_eq ▸ hline rfl
      left
      dsimp only
      rw [Function.update_self]
      rcases r with - | - | ⟨src, p⟩
      · exact InSession.nil _
      · exact InSession.nil _
      · intro o ho
        rw [RevBuffer.payload_recvfrom] at ho
        obtain ⟨v, -, rfl⟩ := List.mem_map.1 ho
        simp [inSession, hup]
    · dsimp only
      rw [Function.update_of_ne hne]
      have hold := h.pool c fun hpc' ↦ by simp [hpc] at hpc'
      exact hold.imp_left fun h' ↦ h'.recv r
  · rcases hline : s.line with - | -
    · -- on a line that is down the guard keeps the bytes the player needs
      have hcopied : copiedBeforeReuse s (.recvfrom r) = true := by
        simpa [freshSession, hline] using hok
      have hsame : s.play.carried (Function.update s.pool b
          ((s.pool b).recvfrom (receipts s.trace + 1) r)) = s.play.carried s.pool :=
        carried_recvfrom hc hpc hcopied _
      dsimp only
      rw [hsame]
      exact h.carried.recv r
    · -- on an established line a byte is either the old one or a fresh one
      have hup : lineUp s.trace = true := h.line_eq ▸ hline
      have hoctets : ∀ c len, InSession s.trace ((s.pool c).octets len) →
          InSession (.recv r :: s.trace) ((Function.update s.pool b
            ((s.pool b).recvfrom (receipts s.trace + 1) r) c).octets len) := by
        intro c len hold
        rcases eq_or_ne c b with rfl | hne
        · rw [Function.update_self]
          intro o ho
          obtain ⟨i, hi, rfl⟩ := RevBuffer.mem_octets.1 ho
          rcases RevBuffer.recvfrom_data (s.pool c) (receipts s.trace + 1) r i with hi' | hi'
          · simp [inSession, hup, hi']
          · rw [hi']
            exact hold.recv r _ (RevBuffer.mem_octets.2 ⟨i, hi, rfl⟩)
        · rw [Function.update_of_ne hne]
          exact hold.recv r
      have hcarried := h.carried
      cases hplay : s.play with
      | pend | dequeue | take | check => exact InSession.nil _
      | put c len | inspect c len | copy c len =>
        rw [hplay] at hcarried
        exact hoctets c len hcarried
      | send blk =>
        rw [hplay] at hcarried
        exact hcarried.recv r

/-- A payload is handed on for playback: on an established line it is of the session, on a line
that is down the guard lets it through only while the player is parked. -/
theorem serverData (h : SessionClean s) {b : BufId} (hpc : s.server = .parse b)
    (hat : isAT (s.pool b).bytes = false) (hok : freshSession s .server = true) :
    SessionClean { s with server := .enqueue b } := by
  refine ⟨h.line_eq, fun h' ↦ Bool.noConfusion h', ?_, h.carried, h.law⟩
  intro c _
  by_cases hc : s.server = .parse c → s.line = true
  · exact h.pool c hc
  · -- the buffer just parsed, on a line that is down
    obtain ⟨hpc', hdown⟩ := Classical.not_imp.1 hc
    obtain rfl : b = c := ServerPc.parse.inj (hpc.symm.trans hpc')
    have hline : s.line = false := Bool.not_eq_true _ ▸ hdown
    simp only [freshSession, hpc, hat, hline, Bool.false_eq_true, if_false, Bool.false_or,
      Bool.or_eq_true, decide_eq_true_eq] at hok
    rcases hok with hlen | hparked
    · left
      show InSession s.trace ((s.pool b).octets (s.pool b).len)
      rw [RevBuffer.octets_of_nonpos hlen]
      exact InSession.nil _
    · exact Or.inr ⟨hline, hparked⟩

/-- Clearing the server's buffer takes no byte from the player. -/
theorem carried_clear (s : Board) (b : BufId) :
    s.play.carried (Function.update s.pool b (s.pool b).clear) = s.play.carried s.pool := by
  cases s.play with
  | pend | dequeue | take | send | check => rfl
  | put c len | inspect c len | copy c len => exact RevBuffer.octets_update_clear s.pool b c len

/-- **A command.** A session begins with an empty pool and an empty-handed player; any other command
leaves the session as it is. -/
theorem serverCommand (h : SessionClean s) {b : BufId} {line : Bool} (hpc : s.server = .parse b)
    (hat : isAT (s.pool b).bytes = true) (hline : (parseAT (s.pool b).bytes s.line).2 = line)
    (hok : freshSession s .server = true) :
    SessionClean { s with
      pool := Function.update s.pool b (s.pool b).clear
      line := line
      server := if line then .postRec b else .enqueue b
      trace := lineEvents s.line line ++ s.trace } := by
  have hpcs : ∀ c, (if line then ServerPc.postRec b else .enqueue b) ≠ .parse c := by
    intro c
    split <;> simp
  have hsignal : (if line then ServerPc.postRec b else .enqueue b).signalling = true →
      line = true := by
    rcases line with - | -
    · exact fun h' ↦ Bool.noConfusion h'
    · exact fun _ ↦ rfl
  by_cases hraise : s.line = false ∧ line = true
  · -- the line is raised: nothing is left to cross
    obtain ⟨hdown, rfl⟩ := hraise
    simp only [freshSession, hpc, hat, if_true, hdown, Bool.false_or] at hok
    rw [← hdown, hline, Bool.not_true, Bool.false_or, Bool.and_eq_true, List.isEmpty_iff] at hok
    obtain ⟨hempty, hhands⟩ := hok
    refine ⟨by rw [hdown]; rfl, hsignal, ?_, ?_, noCrossing_lineEvents h.law⟩
    · intro c _
      left
      rcases eq_or_ne c b with rfl | hne
      · dsimp only
        rw [Function.update_self, RevBuffer.payload_clear]
        exact InSession.nil _
      · have hc := List.all_eq_true.1 hempty c (List.mem_finRange c)
        simp only [Bool.or_eq_true, beq_iff_eq, hne, false_or, decide_eq_true_eq] at hc
        dsimp only
        rw [Function.update_of_ne hne, RevBuffer.payload, RevBuffer.octets_of_nonpos hc]
        exact InSession.nil _
    · dsimp only
      rw [carried_clear, hhands]
      exact InSession.nil _
  · -- the session goes on, or the line goes down
    have hsame : ∀ blk, InSession s.trace blk → InSession (lineEvents s.line line ++ s.trace) blk :=
      by
      intro blk hblk o ho
      rw [inSession_lineEvents hraise]
      exact hblk o ho
    refine ⟨(lineUp_lineEvents _ _ _ h.line_eq).symm, hsignal, ?_, ?_,
      noCrossing_lineEvents h.law⟩
    · intro c _
      rcases eq_or_ne c b with rfl | hne
      · left
        dsimp only
        rw [Function.update_self, RevBuffer.payload_clear]
        exact InSession.nil _
      · dsimp only
        rw [Function.update_of_ne hne]
        have hc : s.server = .parse c → s.line = true := by
          intro hpc'
          exact absurd (ServerPc.parse.inj (hpc'.symm.trans hpc)) hne
        refine (h.pool c hc).imp (hsame _) fun hparked ↦ ⟨?_, hparked.2⟩
        -- the line was down and is not raised
        rcases line with - | -
        · rfl
        · exact absurd ⟨hparked.1, rfl⟩ hraise
    · dsimp only
      rw [carried_clear]
      exact hsame _ h.carried

/-- Posting the player's semaphore unparks it, with the line up. -/
theorem serverPostPlay (h : SessionClean s) {b : BufId} (hpc : s.server = .postPlay b) :
    SessionClean { s with
      semVs1053PlayAsync := osSemPost s.semVs1053PlayAsync, server := .enqueue b } := by
  have hline : s.line = true := h.signalling (by rw [hpc]; rfl)
  refine ⟨h.line_eq, fun h' ↦ Bool.noConfusion h', ?_, h.carried, h.law⟩
  intro c _
  refine Or.inl ((h.pool c fun _ ↦ hline).resolve_right ?_)
  rintro ⟨hdown, -⟩
  rw [hline] at hdown
  exact Bool.noConfusion hdown

/-! ### The player's steps -/

/-- The player wakes: it was not parked, for it had a token. -/
theorem playPend (h : SessionClean s) (hsem : 0 < s.semVs1053PlayAsync) :
    SessionClean { s with semVs1053PlayAsync := s.semVs1053PlayAsync - 1, play := .dequeue } := by
  refine ⟨h.line_eq, h.signalling, ?_, InSession.nil _, h.law⟩
  intro c hc
  refine Or.inl ((h.pool c hc).resolve_right ?_)
  rintro ⟨-, hparked⟩
  rw [Board.parked, Bool.and_eq_true, beq_iff_eq, beq_iff_eq] at hparked
  omega

/-- The player takes a buffer: its payload goes from the pool into the player's hands. -/
theorem playTake (hc : Conserved s) (h : SessionClean s) {b : BufId}
    (hpc : s.play = .take (some b)) :
    SessionClean { s with
      pool := Function.update s.pool b (s.pool b).clear, play := .put b (s.pool b).len } := by
  have hrun : s.play ≠ .pend := by simp [hpc]
  refine ⟨h.line_eq, h.signalling, ?_, ?_, h.law⟩
  · intro c hline
    left
    dsimp only
    rcases eq_or_ne c b with rfl | hne
    · rw [Function.update_self, RevBuffer.payload_clear]
      exact InSession.nil _
    · rw [Function.update_of_ne hne]
      exact h.payload_inSession hrun hline
  · show InSession s.trace
      ((Function.update s.pool b (s.pool b).clear b).octets (s.pool b).len)
    rw [Function.update_self, RevBuffer.clear_octets]
    refine h.payload_inSession hrun fun hserver ↦ ?_
    -- the server cannot be parsing the buffer the player holds
    exact absurd rfl (hc.server_ne_play (b := b) (c := b) (by rw [hserver]; rfl)
      (by rw [hpc]; rfl))

/-- **Every admitted step keeps the session clean.** -/
theorem step (hc : Conserved s) (h : SessionClean s) (hok : freshSession s a = true)
    (hst : Move s a t) : SessionClean t := by
  have hcarried := h.carried
  cases hst with
  | serverRecvfrom b r hpc => exact h.recvfrom hc hpc hok _
  | serverData b hpc hat => exact h.serverData hpc hat hok
  | serverCommand b line hpc hat hline => exact h.serverCommand hpc hat hline hok
  | serverPostRec b hpc =>
    have hsame : ∀ tr, lineUp tr = lineUp s.trace → inSession tr = inSession s.trace →
        (NoCrossing s.trace → NoCrossing tr) → SessionClean { s with
          semVs1053async := osSemPost s.semVs1053async, server := .postPlay b, trace := tr } :=
      fun tr hup hin hlaw ↦ h.of_same rfl rfl rfl rfl (fun c hpc' ↦ by simp [hpc] at hpc')
        (fun _ ↦ by rw [hpc]; rfl) hup hin hlaw
    split
    · exact hsame _ rfl rfl id
    · exact hsame _ rfl rfl id
  | serverPostPlay b hpc => exact h.serverPostPlay hpc
  | serverDequeue hpc | serverEnqueue b hpc =>
    exact h.of_same rfl rfl rfl rfl (fun c hpc' ↦ by simp [hpc] at hpc')
      (fun h' ↦ Bool.noConfusion h') rfl rfl id
  | playPend hpc hsem => exact h.playPend hsem
  | playTake b hpc => exact h.playTake hc hpc
  | playDequeue hpc | playEmpty b len hpc | playSkip b len hpc =>
    exact h.of_play (by simp [hpc]) rfl rfl (InSession.nil _) h.law
  | playPut b len hpc | playInspect b len hpc | playCopy b len hpc =>
    rw [hpc] at hcarried
    exact h.of_play (by simp [hpc]) rfl rfl hcarried h.law
  | playSend blk hpc =>
    rw [hpc] at hcarried
    exact h.of_play (by simp [hpc]) rfl rfl (InSession.nil _) ⟨hcarried, h.law⟩
  | playCheck hpc =>
    refine h.of_play (by simp [hpc]) rfl rfl ?_ h.law
    rcases s.line with - | - <;> exact InSession.nil _
  | clientPend | clientReadAddr | clientReadPort | clientHeader | clientBlock | clientNoBlock
  | clientCheck => exact h.of_same rfl rfl rfl rfl (fun _ h' ↦ h') id rfl rfl id

end SessionClean

/-! ### The law -/

/-- **No audio crosses a session boundary.** In every run in which the line is raised only over an
empty pool and an empty-handed player, audio is queued on a line that is down only for a parked
player, and no datagram of a line that is down lands in the buffer about to be copied: every byte
`play()` passes on was received after the most recent 0→1 transition, while the line was up. -/
theorem no_session_crossed {s : Board} (h : BoardReachable freshSession s) :
    NoCrossing s.trace := by
  have hinv : SessionClean s :=
    h.invariant_of (fun _ ↦ SessionClean.of_init) fun _ _ _ hc hs hok hm ↦ hs.step hc hok hm
  exact hinv.law

/-- A session is opened, one datagram of it is played, it is closed, another one is opened and one
datagram of that is played. -/
theorem no_session_crossed_two_sessions : ∃ s : Board,
    (playedBlocks s.trace = [[7], [8]] ∧ ups s.trace = 2) ∧ NoCrossing s.trace := by
  obtain ⟨s, hs, hp⟩ := Board.exists_reachable freshSession
    (commandRun [0x41, 0x54, 0x31] ++ dataRun [7] ++ [.play] ++ emptyPass ++ emptyPass ++
      List.replicate 7 .play ++ dataRun [0x41, 0x54, 0x32] ++ commandRun [0x41, 0x54, 0x31] ++
      dataRun [8] ++ emptyPass ++ emptyPass ++ List.replicate 7 .play)
    (fun s ↦ playedBlocks s.trace == [[7], [8]] && ups s.trace == 2)
    (by decide)
  rw [Bool.and_eq_true, beq_iff_eq, beq_iff_eq] at hp
  exact ⟨s, hp, no_session_crossed hs⟩

/-- **Without the guard the law fails.** A payload of the first session is still in the pool when
`AT2` ends it; after the next `AT1` the player finds it in the queue and plays it. -/
theorem not_no_session_crossed : ¬ ∀ s : Board, BoardReachable Runs.everyStep s →
    NoCrossing s.trace := by
  intro hall
  obtain ⟨s, hs, hp⟩ := Board.exists_reachable Runs.everyStep
    (commandRun [0x41, 0x54, 0x31] ++ dataRun [7] ++ dataRun [0x41, 0x54, 0x32] ++
      commandRun [0x41, 0x54, 0x31] ++ [.play] ++ List.replicate 7 .play)
    (fun s ↦ !isNoCrossing s.trace)
    (by decide)
  have hno := (isNoCrossing_iff _).2 (hall s hs)
  rw [hno] at hp
  exact Bool.noConfusion hp

end YHAudioLink
