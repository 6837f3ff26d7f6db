import YHAudioLink.Board.Session

/-!
# Framing of the outgoing stream

`task_udpclient` sends one WAV header per token of `sem_vs1053async` and then blocks until it sees
the line down. Its stream is **framed** when headers and sessions match: no more headers than 0→1
transitions, no header while the line is down, and no block of a session without a header of that
session before it.

A counting semaphore and a flag carry the same fact, and they part company in three ways. An AT
datagram on an established line posts another token, which outlives the session
(`not_stream_framed`); a shutdown before the client has taken the token leaves a token with the
line down; and a shutdown followed at once by an establish is not seen by the polling client, which
goes on in the new session without a header.

`onePerSession` rules out exactly these: the line is raised, or an AT datagram processed while it is
up, only by a 0→1 transition that finds the client back at its semaphore with no token left, and it
is lowered only after the client has sent its header. Under this guard flag, semaphore and client
move through the four phases of `Phase` in turn.
-/

namespace YHAudioLink

/-- The law of a trace: every header is sent while the line is up, and every block sent while it is
up follows a header of the same session. -/
def Framed : List Event → Prop
  | [] => True
  | .header _ _ :: tr => lineUp tr = true ∧ Framed tr
  | .block _ _ :: tr => (lineUp tr = true → headerSinceUp tr = true) ∧ Framed tr
  | _ :: tr => Framed tr

/-- `Framed` as a test. -/
def isFramed : List Event → Bool
  | [] => true
  | .header _ _ :: tr => lineUp tr && isFramed tr
  | .block _ _ :: tr => (!lineUp tr || headerSinceUp tr) && isFramed tr
  | _ :: tr => isFramed tr

theorem isFramed_iff (tr : List Event) : isFramed tr = true ↔ Framed tr := by
  induction tr with
  | nil => simp [isFramed, Framed]
  | cons e tr ih =>
    cases e <;> simp only [isFramed, Framed, Bool.and_eq_true, Bool.or_eq_true, Bool.not_eq_true',
      ih]
    rcases lineUp tr with - | - <;> simp

instance (tr : List Event) : Decidable (Framed tr) :=
  decidable_of_iff (isFramed tr = true) (isFramed_iff tr)

/-! ### The guard -/

/-- The client has taken a token and not yet sent the header for it. -/
def ClientPc.opening : ClientPc → Bool
  | .readAddr | .readPort | .header => true
  | _ => false

/-- **The guard.** An AT datagram that leaves the line up is processed only as a 0→1 transition
that finds the client waiting with no token outstanding; one that lowers the line is processed only
once the token of the session is consumed and its header sent. -/
def onePerSession (s : Board) : Label → Bool
  | .server =>
    match s.server with
    | .parse b =>
      if isAT (s.pool b).bytes then
        if (parseAT (s.pool b).bytes s.line).2 then
          !s.line && s.client == .pend && s.semVs1053async == 0
        else !s.line || (s.semVs1053async == 0 && !s.client.opening)
      else true
    | _ => true
  | _ => true

/-! ### The phases of a session -/

/-- The server is about to post `sem_vs1053async`. -/
def ServerPc.posting : ServerPc → Bool
  | .postRec _ => true
  | _ => false

/-- How flag, semaphore and client stand to each other in a guarded run. -/
inductive Phase (s : Board) : Prop
  /-- The line is down, no token is on its way, and the client waits or is about to see it. -/
  | idle (hline : s.line = false) (hsem : s.semVs1053async = 0)
      (hpost : s.server.posting = false) (hclient : s.client.opening = false)
  /-- The line is up and its one token is about to be posted, or posted and not yet consumed. -/
  | raised (hline : s.line = true) (hclient : s.client = .pend)
      (htoken : s.semVs1053async + (if s.server.posting then 1 else 0) = 1)
      (hfresh : headerSinceUp s.trace = false) (hroom : headers s.trace < ups s.trace)
  /-- The client has consumed the token and is about to send the header. -/
  | opening (hline : s.line = true) (hclient : s.client.opening = true)
      (hsem : s.semVs1053async = 0) (hpost : s.server.posting = false)
      (hroom : headers s.trace < ups s.trace)
  /-- The header of the session is sent and the client streams. -/
  | streaming (hline : s.line = true) (hclient : s.client = .record ∨ s.client = .check)
      (hsem : s.semVs1053async = 0) (hpost : s.server.posting = false)
      (hheader : headerSinceUp s.trace = true)

/-- The invariant of a guarded run. -/
structure Framing (s : Board) : Prop where
  line_eq : s.line = lineUp s.trace
  headers_le : headers s.trace ≤ ups s.trace
  framed : Framed s.trace
  phase : Phase s

namespace Framing

variable {s t : Board} {a : Label}

theorem of_init (h : s.Init) : Framing s := by
  obtain ⟨data, a, c, rfl⟩ := h
  exact ⟨rfl, Nat.le_refl _, trivial, .idle rfl rfl rfl rfl⟩

/-- A step that touches neither the line, nor the semaphore, nor the client, nor the events of a
session keeps the invariant. -/
theorem of_same (h : Framing s) (hline : t.line = s.line)
    (hsem : t.semVs1053async = s.semVs1053async) (hclient : t.client = s.client)
    (hpost : t.server.posting = s.server.posting) (hup : lineUp t.trace = lineUp s.trace)
    (hups : ups t.trace = ups s.trace) (hheaders : headers t.trace = headers s.trace)
    (hsince : headerSinceUp t.trace = headerSinceUp s.trace)
    (hframed : Framed s.trace → Framed t.trace) : Framing t := by
  refine ⟨by rw [hline, hup, h.line_eq], by rw [hheaders, hups]; exact h.headers_le,
    hframed h.framed, ?_⟩
  cases h.phase with
  | idle h₁ h₂ h₃ h₄ =>
    exact .idle (hline ▸ h₁) (hsem ▸ h₂) (hpost ▸ h₃) (by rw [hclient]; exact h₄)
  | raised h₁ h₂ h₃ h₄ h₅ =>
    exact .raised (hline ▸ h₁) (hclient ▸ h₂) (by rw [hsem, hpost]; exact h₃) (hsince ▸ h₄)
      (by rw [hheaders, hups]; exact h₅)
  | opening h₁ h₂ h₃ h₄ h₅ =>
    exact .opening (hline ▸ h₁) (by rw [hclient]; exact h₂) (hsem ▸ h₃) (hpost ▸ h₄)
      (by rw [hheaders, hups]; exact h₅)
  | streaming h₁ h₂ h₃ h₄ h₅ =>
    exact .streaming (hline ▸ h₁) (hclient ▸ h₂) (hsem ▸ h₃) (hpost ▸ h₄) (hsince ▸ h₅)

/-- A datagram that leaves the line up raises it, and the phase goes from `idle` to `raised`. -/
theorem command_up (h : Framing s) (b : BufId) (hdown : s.line = false)
    (hclient : s.client = .pend) (hsem : s.semVs1053async = 0) :
    Framing { s with
      pool := Function.update s.pool b (s.pool b).clear
      line := true
      server := .postRec b
      trace := lineEvents s.line true ++ s.trace } := by
  have hle := h.headers_le
  rw [hdown]
  refine ⟨rfl, Nat.le_succ_of_le hle, h.framed, ?_⟩
  exact .raised rfl hclient (by simp [hsem, ServerPc.posting]) rfl (Nat.lt_succ_of_le hle)

/-- A datagram that leaves the line down ends the session, if there is one. -/
theorem command_down (h : Framing s) (b : BufId) (hpc : s.server = .parse b)
    (hok : s.line = false ∨ (s.semVs1053async = 0 ∧ s.client.opening = false)) :
    Framing { s with
      pool := Function.update s.pool b (s.pool b).clear
      line := false
      server := .enqueue b
      trace := lineEvents s.line false ++ s.trace } := by
  rcases hline : s.line with - | -
  · -- the line was down already: the datagram changes nothing
    exact h.of_same hline.symm rfl rfl (by rw [hpc]; rfl) rfl rfl rfl rfl id
  · obtain ⟨hsem, hclient⟩ := hok.resolve_left (by simp [hline])
    exact ⟨rfl, h.headers_le, h.framed, .idle rfl hsem rfl hclient⟩

/-- The token is posted: it was due, so the count goes from 0 to 1. -/
theorem post (h : Framing s) (b : BufId) (hpc : s.server = .postRec b) :
    Framing { s with
      semVs1053async := osSemPost s.semVs1053async
      server := .postPlay b
      trace := if s.semVs1053async < 65535 then .post :: s.trace else s.trace } := by
  have hposting : s.server.posting = true := by rw [hpc]; rfl
  cases h.phase with
  | raised hline hclient htoken hfresh hroom =>
    have hsem : s.semVs1053async = 0 := by simpa [hposting] using htoken
    rw [hsem]
    exact ⟨h.line_eq, h.headers_le, h.framed, .raised hline hclient rfl hfresh hroom⟩
  | idle _ _ hpost => simp [hposting] at hpost
  | opening _ _ _ hpost => simp [hposting] at hpost
  | streaming _ _ _ hpost => simp [hposting] at hpost

/-- The client consumes the token of the session. -/
theorem pend (h : Framing s) (hsem : 0 < s.semVs1053async) :
    Framing { s with
      semVs1053async := s.semVs1053async - 1
      client := .readAddr
      trace := .pend :: s.trace } := by
  refine ⟨h.line_eq, h.headers_le, h.framed, ?_⟩
  cases h.phase with
  | raised hline _ htoken _ hroom =>
    have hpost : s.server.posting = false := by
      by_contra hne
      rw [if_pos (by simpa using hne)] at htoken
      omega
    have hone : s.semVs1053async = 1 := by simpa [hpost] using htoken
    exact .opening hline rfl (show s.semVs1053async - 1 = 0 by omega) hpost hroom
  | idle _ hzero => omega
  | opening _ _ hzero => omega
  | streaming _ _ hzero => omega

/-- The client's steps between the token and the header. -/
theorem opening_step (h : Framing s) (hopening : s.client.opening = true) {pc : ClientPc}
    (hpc : pc.opening = true) (sin : SockAddrIn) : Framing { s with sin := sin, client := pc } := by
  refine ⟨h.line_eq, h.headers_le, h.framed, ?_⟩
  cases h.phase with
  | opening hline _ hsem hpost hroom => exact .opening hline hpc hsem hpost hroom
  | idle _ _ _ hclient => simp [hopening] at hclient
  | raised _ hclient => simp [hclient, ClientPc.opening] at hopening
  | streaming _ hclient =>
    rcases hclient with hclient | hclient <;> simp [hclient, ClientPc.opening] at hopening

/-- The header is sent: the line is up, and the session has had none. -/
theorem header (h : Framing s) (hpc : s.client = .header) (dest : Endpoint) (data : List UInt8) :
    Framing { s with client := .record, trace := .header dest data :: s.trace } := by
  cases h.phase with
  | opening hline _ hsem hpost hroom =>
    refine ⟨h.line_eq, hroom, ⟨h.line_eq ▸ hline, h.framed⟩, ?_⟩
    exact .streaming hline (Or.inl rfl) hsem hpost rfl
  | idle _ _ _ hclient => simp [hpc, ClientPc.opening] at hclient
  | raised _ hclient => simp [hpc] at hclient
  | streaming _ hclient => simp [hpc] at hclient

/-- Where the client polls, an established line has its header. -/
theorem headerSinceUp_of_record (h : Framing s) (hpc : s.client = .record)
    (hup : lineUp s.trace = true) : headerSinceUp s.trace = true := by
  rw [← h.line_eq] at hup
  cases h.phase with
  | streaming _ _ _ _ hheader => exact hheader
  | idle hline => simp [hup] at hline
  | raised _ hclient => simp [hpc] at hclient
  | opening _ hclient => simp [hpc, ClientPc.opening] at hclient

/-- The client moves between polling and checking, and back to its semaphore once the line is
down. -/
theorem poll_step (h : Framing s) (hpc : s.client = .record ∨ s.client = .check) {pc : ClientPc}
    (hnext : pc = .record ∨ pc = .check ∨ (pc = .pend ∧ s.line = false)) :
    Framing { s with client := pc } := by
  refine ⟨h.line_eq, h.headers_le, h.framed, ?_⟩
  cases h.phase with
  | idle hline hsem hpost hclient =>
    refine .idle hline hsem hpost ?_
    rcases hnext with rfl | rfl | ⟨rfl, -⟩ <;> rfl
  | streaming hline hclient hsem hpost hheader =>
    refine .streaming hline ?_ hsem hpost hheader
    rcases hnext with rfl | rfl | ⟨rfl, hdown⟩
    · exact Or.inl rfl
    · exact Or.inr rfl
    · simp [hline] at hdown
  | raised _ hclient => rcases hpc with hpc | hpc <;> simp [hpc] at hclient
  | opening _ hclient => rcases hpc with hpc | hpc <;> simp [hpc, ClientPc.opening] at hclient

/-- **Every admitted step keeps the framing.** -/
theorem step (h : Framing s) (hok : onePerSession s a = true) (hst : Move s a t) : Framing t := by
  cases hst with
  | serverCommand b line hpc hat hline =>
    simp only [onePerSession, hpc, hat, if_true, hline] at hok
    rcases line with - | -
    · refine h.command_down b hpc ?_
      simpa using hok
    · simp only [if_true, Bool.and_eq_true, Bool.not_eq_true', beq_iff_eq] at hok
      exact h.command_up b hok.1.1 hok.1.2 hok.2
  | serverPostRec b hpc => exact h.post b hpc
  | clientPend _ hsem => exact h.pend hsem
  | clientReadAddr hpc => exact h.opening_step (by rw [hpc]; rfl) rfl _
  | clientReadPort hpc => exact h.opening_step (by rw [hpc]; rfl) rfl _
  | clientHeader hpc => exact h.header hpc _ _
  | clientBlock w samples hpc =>
    have hpoll := h.poll_step (Or.inl hpc) (Or.inr (Or.inl rfl))
    exact ⟨hpoll.line_eq, hpoll.headers_le, ⟨h.headerSinceUp_of_record hpc, h.framed⟩,
      match hpoll.phase with
      | .idle h₁ h₂ h₃ h₄ => .idle h₁ h₂ h₃ h₄
      | .raised h₁ h₂ h₃ h₄ h₅ => .raised h₁ h₂ h₃ h₄ h₅
      | .opening h₁ h₂ h₃ h₄ h₅ => .opening h₁ h₂ h₃ h₄ h₅
      | .streaming h₁ h₂ h₃ h₄ h₅ => .streaming h₁ h₂ h₃ h₄ h₅⟩
  | clientNoBlock w samples hpc => exact h.poll_step (Or.inl hpc) (Or.inr (Or.inl rfl))
  | clientCheck hpc =>
    refine h.poll_step (Or.inr hpc) ?_
    rcases hline : s.line with - | -
    · exact Or.inr (Or.inr ⟨rfl, rfl⟩)
    · exact Or.inl rfl
  | serverDequeue hpc | serverRecvfrom b r hpc | serverData b hpc | serverPostPlay b hpc
  | serverEnqueue b hpc =>
    exact h.of_same rfl rfl rfl (by rw [hpc]; rfl) rfl rfl rfl rfl id
  | playPend | playDequeue | playTake | playPut | playEmpty | playSkip | playInspect | playCopy
  | playSend | playCheck => exact h.of_same rfl rfl rfl rfl rfl rfl rfl rfl id

end Framing

/-! ### The law -/

/-- **Session framing.** In every run in which the line is raised only when the client is back at
its semaphore with no token left, no AT datagram is processed while it is up except to lower it, and
it is lowered only after the header: the client has sent at most one header per 0→1 transition,
none while the line was down, and every block of a session follows a header of that session. -/
theorem stream_framed {s : Board} (h : BoardReachable onePerSession s) :
    headers s.trace ≤ ups s.trace ∧ Framed s.trace := by
  have hinv : Framing s :=
    h.invariant (fun _ ↦ Framing.of_init) fun _ _ _ hs hok hm ↦ hs.step hok hm
  exact ⟨hinv.headers_le, hinv.framed⟩

/-- The client takes a token, sends its header and one block. -/
def streamRun : List Label :=
  [.client, .client, .client, .client, .record 256 fun _ ↦ 0, .client]

/-- Two sessions, each streamed: two headers for two transitions. -/
theorem stream_framed_two_sessions : ∃ s : Board,
    (headers s.trace = 2 ∧ ups s.trace = 2) ∧ headers s.trace ≤ ups s.trace ∧ Framed s.trace := by
  obtain ⟨s, hs, hp⟩ := Board.exists_reachable onePerSession
    (commandRun [0x41, 0x54, 0x31] ++ streamRun ++ dataRun [0x41, 0x54, 0x32] ++
      [.record 0 fun _ ↦ 0, .client] ++ commandRun [0x41, 0x54, 0x31] ++ streamRun)
    (fun s ↦ headers s.trace == 2 && ups s.trace == 2)
    (by decide)
  rw [Bool.and_eq_true, beq_iff_eq, beq_iff_eq] at hp
  exact ⟨s, hp, stream_framed hs⟩

/-- **Without the guard the law fails.** `AT1` is received twice, so two tokens are posted for one
session; after `AT2` the client consumes the second one and sends another header, with the line
down. -/
theorem not_stream_framed : ¬ ∀ s : Board, BoardReachable Runs.everyStep s →
    headers s.trace ≤ ups s.trace ∧ Framed s.trace := by
  intro hall
  obtain ⟨s, hs, hp⟩ := Board.exists_reachable Runs.everyStep
    (commandRun [0x41, 0x54, 0x31] ++ commandRun [0x41, 0x54, 0x31] ++ streamRun ++
      dataRun [0x41, 0x54, 0x32] ++ [.record 0 fun _ ↦ 0, .client] ++ streamRun)
    (fun s ↦ headers s.trace == 2 && ups s.trace == 1)
    (by decide)
  rw [Bool.and_eq_true, beq_iff_eq, beq_iff_eq] at hp
  have hle := (hall s hs).1
  omega

end YHAudioLink
