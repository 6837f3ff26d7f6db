import YHAudioLink.Pc.SessionCommands

/-!
# The header at the head of the outgoing stream

The first `DataAvailable` of a session puts a WAV header into `m_queue_rec`, starts `ThreadDoRec`,
and then enqueues two blocks: the queue of three is full before the thread has run. The header is an
ordinary element of a queue that drops its oldest element, so whether it is ever sent depends on how
soon the thread takes it out (`not_header_first`: a second callback before the thread's first
`Dequeue` discards it, and the stream starts with samples).

`headerSafe` excludes the two ways of losing it:

* a block is enqueued while the queue is full and the header is its front;
* the thread finds `m_is_line_snd` cleared, by `RecordingStopped`, while the header is queued; it
  then sends `AT2` and never looks at the queue.

Until it is sent the header is in one place, and `HeaderPhase` says which: nothing has been enqueued
yet, the header is the front of the queue, or the thread holds it.
-/

namespace YHAudioLink

/-! ### A session -/

/-- `Start` has just started the recorder of a session, and nothing is left of an earlier one. -/
structure SessionStarted (s : YHnet) : Prop where
  connected : s.mIsConnected = true
  silent : s.mIsLineSnd = false
  waveIn : s.mWaveIn = some s.starts
  queue : s.mQueueRec = []
  pending : s.pending = []
  recordings : s.recordings = [⟨s.starts, false⟩]
  threads : s.threads = []
  ui : s.ui = .idle

/-- The session is the only one: `Start` is not clicked again. -/
def oneSession (s : YHnet) : PcLabel → Bool
  | .click => s.mIsConnected
  | _ => true

/-- **The guard.** In the one session, no block is enqueued while the header is the front of a full
queue, and `ThreadDoRec` does not find `m_is_line_snd` cleared while the header is queued. -/
def headerSafe (s : YHnet) : PcLabel → Bool
  | .click => s.mIsConnected
  | .enqueueBlock => !(s.mQueueRec.length == 3 && s.mQueueRec.head? == some .wavHeader)
  | .thread i =>
    (s.threads[i]?.map RecThread.pc) != some .check || s.mIsLineSnd ||
      !s.mQueueRec.contains .wavHeader
  | _ => true

/-- States of a session that began in `s₀`, under a guard. -/
abbrev SessionReachable (ok : YHnet → PcLabel → Bool) (s₀ : YHnet) : YHnet → Prop :=
  Runs.Reachable (fun s ↦ s = s₀) YHnet.step ok

/-- The header is queued, or a thread is about to send it. -/
def YHnet.HoldsHeader (s : YHnet) : Prop :=
  .wavHeader ∈ s.mQueueRec ∨ ∃ th ∈ s.threads, th.pc = .send .wavHeader

/-- **The header comes first.** Of what has been sent since `s₀` the first datagram is the header of
44 bytes; and from the moment a thread has been started the header is queued, about to be sent, or
among what has been sent. -/
def HeaderFirst (s₀ s : YHnet) : Prop :=
  ∃ new, s.sent = new ++ s₀.sent ∧
    (∀ m, new.getLast? = some m → m = .wavHeader ∧ m.bytes.length = 44) ∧
    (s.threads ≠ [] ∨ new ≠ [] → s.HoldsHeader ∨ .wavHeader ∈ new)

/-! ### One recorder -/

/-- The session has at most its one recorder, and once a thread runs no callback finds
`m_is_line_snd` cleared. -/
structure OneRecorder (s : YHnet) : Prop where
  recordings : s.recordings.length ≤ 1
  ui : s.ui ≠ .starting
  started : s.threads ≠ [] → s.mIsLineSnd = true ∨ s.recordings = []

theorem length_stopRecording (session : ℕ) (recordings : List Recording) :
    (stopRecording session recordings).length = recordings.length := List.length_map _

namespace OneRecorder

variable {s t : YHnet} {a : PcLabel}

/-- A thread that moves was running before. -/
theorem started_of_getElem? (h : OneRecorder s) {i : ℕ} {th : RecThread}
    (hth : s.threads[i]? = some th) : s.mIsLineSnd = true ∨ s.recordings = [] :=
  h.started (List.ne_nil_of_mem (List.mem_of_getElem? hth))

/-- The recorder that is done was the only one. -/
theorem recordingsDone_eq_nil (h : OneRecorder s) {session : ℕ}
    (hrec : ∃ r ∈ s.recordings, r.session = session) :
    recordingsDone session s.recordings = [] := by
  obtain ⟨r, hr, rfl⟩ := hrec
  obtain ⟨r', hr'⟩ := List.length_eq_one_iff.1
    (le_antisymm h.recordings (List.length_pos_of_mem hr))
  rw [hr'] at hr ⊢
  rw [List.mem_singleton.1 hr]
  simp [recordingsDone]

theorem step (h : OneRecorder s) (hok : oneSession s a = true) (hst : PcMove s a t) :
    OneRecorder t := by
  cases hst with
  | clickStart _ hconn =>
    rw [oneSession, hconn] at hok
    exact Bool.noConfusion hok
  | clickShutDown session =>
    refine ⟨(length_stopRecording _ _).trans_le h.recordings, h.ui, fun ht ↦ ?_⟩
    rcases h.started ht with hsnd | hrec
    · exact Or.inl hsnd
    · refine Or.inr ?_
      show stopRecording session s.recordings = []
      rw [hrec]
      rfl
  | clickFault => exact ⟨h.recordings, fun hui ↦ UiPc.noConfusion hui, h.started⟩
  | startRecording hui => exact absurd hui h.ui
  | firstData => exact ⟨h.recordings, h.ui, fun _ ↦ Or.inl rfl⟩
  | moreData => exact ⟨h.recordings, h.ui, h.started⟩
  | enqueueBlock => exact ⟨h.recordings, h.ui, h.started⟩
  | recordingStopped session hrec =>
    rw [h.recordingsDone_eq_nil hrec]
    rcases s.mWaveIn with - | current
    · exact ⟨Nat.zero_le 1, h.ui, fun _ ↦ Or.inr rfl⟩
    · exact ⟨Nat.zero_le 1, h.ui, fun _ ↦ Or.inr rfl⟩
  | threadCheck i th hth => exact ⟨h.recordings, h.ui, fun _ ↦ h.started_of_getElem? hth⟩
  | threadDequeue i th pc hth => exact ⟨h.recordings, h.ui, fun _ ↦ h.started_of_getElem? hth⟩
  | threadSend i th e hth => exact ⟨h.recordings, h.ui, fun _ ↦ h.started_of_getElem? hth⟩
  | threadShutDown i th left hth =>
    exact ⟨h.recordings, h.ui, fun _ ↦ h.started_of_getElem? hth⟩

end OneRecorder

/-! ### What a statement does -/

section Statements

variable {s t : YHnet} {i : ℕ}

/-- A block is enqueued only by a callback that still has one. -/
theorem enqueueBlock_of_step (h : s.step .enqueueBlock = some t) :
    ∃ blk rest, s.pending = blk :: rest ∧
      t = { s with mQueueRec := yhbufferEnqueue s.mQueueRec (.pcm blk), pending := rest } := by
  simp only [YHnet.step, enqueueBlock] at h
  split at h
  · exact absurd h (by simp)
  · split at h
    · next blk rest hpending => exact ⟨blk, rest, hpending, (Option.some.inj h).symm⟩
    · exact absurd h (by simp)

theorem threadDoRec_of_step (h : s.step (.thread i) = some t) : threadDoRec s i = some t := by
  rw [YHnet.step] at h
  split at h
  · exact absurd h (by simp)
  · exact h

/-- Only a running thread moves. -/
theorem threadDoRec_running (h : threadDoRec s i = some t) : ∃ th, s.threads[i]? = some th := by
  rw [threadDoRec] at h
  split at h
  · exact absurd h (by simp)
  · next th hth => exact ⟨th, hth⟩

theorem threadDoRec_check {th : RecThread} (hth : s.threads[i]? = some th) (hpc : th.pc = .check) :
    threadDoRec s i = some { s with
      threads := s.threads.set i
        { th with pc := if s.mIsLineSnd then .dequeue else .shutDown 3 } } := by
  simp only [threadDoRec, hth, hpc]

/-- What the thread dequeues is the front. -/
theorem threadDoRec_dequeue {th : RecThread} {e : PcMessage} {rest : List PcMessage}
    (hth : s.threads[i]? = some th) (hpc : th.pc = .dequeue) (hqueue : s.mQueueRec = e :: rest) :
    threadDoRec s i = some { s with
      mQueueRec := rest, threads := s.threads.set i { th with pc := .send e } } := by
  simp only [threadDoRec, hth, hpc, hqueue]
  rfl

theorem threadDoRec_send {th : RecThread} {e : PcMessage} (hth : s.threads[i]? = some th)
    (hpc : th.pc = .send e) :
    threadDoRec s i = some { s with
      threads := s.threads.set i { th with pc := .check }, sent := e :: s.sent } := by
  simp only [threadDoRec, hth, hpc]

/-- A statement of a thread sends at most one datagram. -/
theorem threadDoRec_sent (h : threadDoRec s i = some t) :
    t.sent = s.sent ∨ ∃ m, t.sent = m :: s.sent := by
  cases pcMove_of_thread h with
  | threadCheck | threadDequeue => exact Or.inl rfl
  | threadSend _ th e => exact Or.inr ⟨e, rfl⟩
  | threadShutDown => exact Or.inr ⟨.lineShutDown, rfl⟩

end Statements

/-! ### Where the header is -/

/-- The whereabouts of the header of the session that began in `s₀`. -/
inductive HeaderPhase (s₀ s : YHnet) : Prop
  /-- No callback has come. -/
  | before (hsent : s.sent = s₀.sent) (hthreads : s.threads = []) (hqueue : s.mQueueRec = [])
      (hpending : s.pending = []) (hsnd : s.mIsLineSnd = false)
  /-- The header is the front of the queue, and the thread is on its way to it. -/
  | queued (session : ℕ) (pc : RecPc) (rest : List PcMessage) (hsent : s.sent = s₀.sent)
      (hthreads : s.threads = [⟨session, pc⟩]) (hpc : pc = .check ∨ pc = .dequeue)
      (hqueue : s.mQueueRec = .wavHeader :: rest)
  /-- The thread has dequeued it. -/
  | inHand (session : ℕ) (hsent : s.sent = s₀.sent)
      (hthreads : s.threads = [⟨session, .send .wavHeader⟩])
  | sent (new : List PcMessage) (hsent : s.sent = new ++ s₀.sent)
      (hlast : new.getLast? = some .wavHeader)

/-- A block that is enqueued behind a header in front of a queue that is not full leaves it
there. -/
theorem yhbufferEnqueue_header {rest : List PcMessage} (e : PcMessage)
    (h : (PcMessage.wavHeader :: rest).length ≠ 3) :
    yhbufferEnqueue (.wavHeader :: rest) e = .wavHeader :: (rest ++ [e]) := by
  rw [yhbufferEnqueue, if_neg h, List.cons_append]

namespace HeaderPhase

variable {s₀ s t : YHnet} {a : PcLabel}

/-- What the phases say of the stream. -/
theorem headerFirst (h : HeaderPhase s₀ s) : HeaderFirst s₀ s := by
  cases h with
  | before hsent hthreads =>
    refine ⟨[], hsent, fun m hm ↦ absurd hm (by simp), fun hstarted ↦ ?_⟩
    rcases hstarted with hstarted | hstarted
    · exact absurd hthreads hstarted
    · exact absurd rfl hstarted
  | queued session pc rest hsent _ _ hqueue =>
    refine ⟨[], hsent, fun m hm ↦ absurd hm (by simp), fun _ ↦ Or.inl (Or.inl ?_)⟩
    rw [hqueue]
    exact List.mem_cons_self
  | inHand session hsent hthreads =>
    refine ⟨[], hsent, fun m hm ↦ absurd hm (by simp), fun _ ↦ Or.inl (Or.inr ?_)⟩
    rw [hthreads]
    exact ⟨_, List.mem_singleton_self _, rfl⟩
  | sent new hsent hlast =>
    refine ⟨new, hsent, fun m hm ↦ ?_, fun _ ↦ Or.inr (List.mem_of_getLast? hlast)⟩
    obtain rfl : .wavHeader = m := Option.some.inj (hlast.symm.trans hm)
    exact ⟨rfl, PcMessage.length_getWavHeader⟩

/-- A phase before the header is sent knows of the threads, the queue and what was sent only. -/
theorem of_eq (h : HeaderPhase s₀ s) (hsent : t.sent = s.sent) (hthreads : t.threads = s.threads)
    (hqueue : t.mQueueRec = s.mQueueRec)
    (hsnd : s.threads = [] → t.pending = s.pending ∧
      (s.mIsLineSnd = false → t.mIsLineSnd = false)) :
    HeaderPhase s₀ t := by
  cases h with
  | before hsent' hthreads' hqueue' hpending' hsnd' =>
    obtain ⟨hpending, hclear⟩ := hsnd hthreads'
    exact .before (hsent.trans hsent') (hthreads.trans hthreads') (hqueue.trans hqueue')
      (hpending.trans hpending') (hclear hsnd')
  | queued session pc rest hsent' hthreads' hpc' hqueue' =>
    exact .queued session pc rest (hsent.trans hsent') (hthreads.trans hthreads') hpc'
      (hqueue.trans hqueue')
  | inHand session hsent' hthreads' =>
    exact .inHand session (hsent.trans hsent') (hthreads.trans hthreads')
  | sent new hsent' hlast' => exact .sent new (hsent.trans hsent') hlast'

/-- What is sent after the header is sent behind it. -/
theorem sent_cons {new : List PcMessage} (hsent : s.sent = new ++ s₀.sent)
    (hlast : new.getLast? = some .wavHeader) (m : PcMessage) (ht : t.sent = m :: s.sent) :
    HeaderPhase s₀ t := by
  refine .sent (m :: new) ?_ ?_
  · rw [ht, hsent, List.cons_append]
  · rw [List.getLast?_cons, hlast]
    rfl

/-- A later callback has no header to enqueue. -/
theorem moreData (h : HeaderPhase s₀ s) (hsnd : s.mIsLineSnd = true) (pending : List PcmBlock) :
    HeaderPhase s₀ { s with pending := pending } := by
  cases h with
  | before _ _ _ _ hclear => exact Bool.noConfusion (hsnd.symm.trans hclear)
  | queued session pc rest hsent hthreads hpc hqueue =>
    exact .queued session pc rest hsent hthreads hpc hqueue
  | inHand session hsent hthreads => exact .inHand session hsent hthreads
  | sent new hsent hlast => exact .sent new hsent hlast

/-- The first callback enqueues the header into an empty queue. -/
theorem firstData (h : HeaderPhase s₀ s) (hone : OneRecorder s) {session : ℕ} {e : WaveInBuffer}
    (hrec : ∃ r ∈ s.recordings, r.session = session) (hsnd : s.mIsLineSnd = false) :
    HeaderPhase s₀ { s with
      mIsLineSnd := true
      mQueueRec := yhbufferEnqueue s.mQueueRec .wavHeader
      pending := [e.first, e.second]
      threads := s.threads ++ [⟨session, .check⟩] } := by
  have hnone : s.threads = [] := by
    by_contra hrun
    obtain ⟨r, hr, -⟩ := hrec
    rcases hone.started hrun with hsnd' | hrec'
    · rw [hsnd] at hsnd'
      exact Bool.noConfusion hsnd'
    · rw [hrec'] at hr
      exact List.not_mem_nil hr
  cases h with
  | before hsent hthreads hqueue =>
    refine .queued session .check [] hsent ?_ (Or.inl rfl) ?_
    · show s.threads ++ [⟨session, .check⟩] = [⟨session, .check⟩]
      rw [hthreads, List.nil_append]
    · show yhbufferEnqueue s.mQueueRec .wavHeader = [.wavHeader]
      rw [hqueue]
      rfl
  | queued _ _ _ _ hthreads => exact absurd (hthreads.symm.trans hnone) (List.cons_ne_nil _ _)
  | inHand _ _ hthreads => exact absurd (hthreads.symm.trans hnone) (List.cons_ne_nil _ _)
  | sent new hsent hlast => exact .sent new hsent hlast

/-- A block is enqueued; the guard says that the front that is dropped is not the header. -/
theorem enqueueBlock (h : HeaderPhase s₀ s) (hok : headerSafe s .enqueueBlock = true)
    (hst : s.step .enqueueBlock = some t) : HeaderPhase s₀ t := by
  obtain ⟨blk, rest, hpending, rfl⟩ := enqueueBlock_of_step hst
  cases h with
  | before _ _ _ hnone => exact absurd (hpending.symm.trans hnone) (List.cons_ne_nil _ _)
  | queued session pc queue hsent hthreads hpc hqueue =>
    have hroom : (PcMessage.wavHeader :: queue).length ≠ 3 := by
      intro hfull
      rw [headerSafe, hqueue, hfull] at hok
      exact Bool.noConfusion hok
    refine .queued session pc (queue ++ [.pcm blk]) hsent hthreads hpc ?_
    show yhbufferEnqueue s.mQueueRec (.pcm blk) = _
    rw [hqueue, yhbufferEnqueue_header _ hroom]
  | inHand session hsent hthreads => exact .inHand session hsent hthreads
  | sent new hsent hlast => exact .sent new hsent hlast

/-- The thread of the session moves while the header is queued. The guard says that it stays in its
loop, and what it dequeues is the header. -/
theorem thread_of_queued {i session : ℕ} {pc : RecPc} {rest : List PcMessage}
    (hok : headerSafe s (.thread i) = true) (hst : threadDoRec s i = some t)
    (hsent : s.sent = s₀.sent) (hthreads : s.threads = [⟨session, pc⟩])
    (hpc : pc = .check ∨ pc = .dequeue) (hqueue : s.mQueueRec = .wavHeader :: rest) :
    HeaderPhase s₀ t := by
  obtain ⟨th, hth⟩ := threadDoRec_running hst
  have hat := hth
  rw [hthreads] at hat
  obtain ⟨rfl, rfl⟩ := getElem?_singleton hat
  rcases hpc with rfl | rfl
  · have hsnd : s.mIsLineSnd = true := by
      simpa [headerSafe, hth, hqueue] using hok
    rw [threadDoRec_check hth rfl, hsnd, hthreads] at hst
    obtain rfl := Option.some.inj hst
    exact .queued session .dequeue rest hsent rfl (Or.inr rfl) hqueue
  · rw [threadDoRec_dequeue hth rfl hqueue, hthreads] at hst
    obtain rfl := Option.some.inj hst
    exact .inHand session hsent rfl

/-- The thread moves with the header in hand. -/
theorem thread_of_inHand {i session : ℕ} (hst : threadDoRec s i = some t)
    (hsent : s.sent = s₀.sent) (hthreads : s.threads = [⟨session, .send .wavHeader⟩]) :
    HeaderPhase s₀ t := by
  obtain ⟨th, hth⟩ := threadDoRec_running hst
  have hat := hth
  rw [hthreads] at hat
  obtain ⟨rfl, rfl⟩ := getElem?_singleton hat
  rw [threadDoRec_send hth rfl] at hst
  obtain rfl := Option.some.inj hst
  refine .sent [.wavHeader] ?_ rfl
  show .wavHeader :: s.sent = .wavHeader :: s₀.sent
  rw [hsent]

/-- A statement of a thread. -/
theorem thread (h : HeaderPhase s₀ s) {i : ℕ} (hok : headerSafe s (.thread i) = true)
    (hst : threadDoRec s i = some t) : HeaderPhase s₀ t := by
  cases h with
  | before _ hthreads =>
    obtain ⟨th, hth⟩ := threadDoRec_running hst
    simp [hthreads] at hth
  | queued session pc rest hsent hthreads hpc hqueue =>
    exact thread_of_queued hok hst hsent hthreads hpc hqueue
  | inHand session hsent hthreads => exact thread_of_inHand hst hsent hthreads
  | sent new hsent hlast =>
    rcases threadDoRec_sent hst with ht | ⟨m, ht⟩
    · exact .sent new (ht.trans hsent) hlast
    · exact sent_cons hsent hlast m ht

/-- **Every admitted step keeps the header in one place until it is sent.** -/
theorem step (hone : OneRecorder s) (h : HeaderPhase s₀ s) (hok : headerSafe s a = true)
    (hst : s.step a = some t) : HeaderPhase s₀ t := by
  cases pcMove_of_step hst with
  | clickStart _ hconn =>
    rw [headerSafe, hconn] at hok
    exact Bool.noConfusion hok
  | clickShutDown | clickFault => exact h.of_eq rfl rfl rfl fun _ ↦ ⟨rfl, id⟩
  | startRecording hui => exact absurd hui hone.ui
  | firstData session e hrec hsnd => exact h.firstData hone hrec hsnd
  | moreData session e hsnd => exact h.moreData hsnd _
  | enqueueBlock => exact h.enqueueBlock hok hst
  | recordingStopped session hrec => exact h.of_eq rfl rfl rfl fun _ ↦ ⟨rfl, fun _ ↦ rfl⟩
  | threadCheck i => exact h.thread hok (threadDoRec_of_step hst)
  | threadDequeue i => exact h.thread hok (threadDoRec_of_step hst)
  | threadSend i => exact h.thread hok (threadDoRec_of_step hst)
  | threadShutDown i => exact h.thread hok (threadDoRec_of_step hst)

theorem of_started (h : SessionStarted s₀) : HeaderPhase s₀ s₀ :=
  .before rfl h.threads h.queue h.pending h.silent

end HeaderPhase

theorem OneRecorder.of_started {s : YHnet} (h : SessionStarted s) : OneRecorder s := by
  refine ⟨?_, ?_, fun ht ↦ absurd h.threads ht⟩
  · rw [h.recordings, List.length_singleton]
  · rw [h.ui]
    exact UiPc.noConfusion

/-! ### The law -/

/-- The header guard keeps to one session. -/
theorem oneSession_of_headerSafe {s : YHnet} {a : PcLabel} (h : headerSafe s a = true) :
    oneSession s a = true := by
  cases a with
  | click => exact h
  | _ => rfl

/-- **The header comes first.** In every run of a session in which no block is enqueued while the
header is the front of a full queue, and in which `ThreadDoRec` does not find `m_is_line_snd`
cleared while the header is queued: the first datagram of the session is the header, and from its
first callback on the header is queued, about to be sent, or sent. -/
theorem header_first {s₀ s : YHnet} (h₀ : SessionStarted s₀)
    (h : SessionReachable headerSafe s₀ s) : HeaderFirst s₀ s := by
  have hone : ∀ s, SessionReachable headerSafe s₀ s → OneRecorder s := by
    intro s hs
    refine hs.invariant ?_ fun _ _ _ ih hok hst ↦
      ih.step (oneSession_of_headerSafe hok) (pcMove_of_step hst)
    rintro s rfl
    exact .of_started h₀
  have hphase : HeaderPhase s₀ s := by
    refine Runs.Reachable.invariant_of hone ?_ (fun _ _ _ ho ih hok hst ↦ ih.step ho hok hst) h
    rintro s rfl
    exact .of_started h₀
  exact hphase.headerFirst

/-- A schedule that can be replayed from the start of a session under a guard reaches a state of
that session. -/
theorem YHnet.exists_sessionReachable (ok : YHnet → PcLabel → Bool) (s₀ : YHnet)
    (as : List PcLabel) (p : YHnet → Bool)
    (h : (Runs.execOk YHnet.step ok s₀ as).map p = some true) :
    ∃ s, SessionReachable ok s₀ s ∧ p s = true :=
  Runs.exists_reachable_of_execOk rfl h

/-- The state in which the first session has just been started. -/
def firstSession : YHnet :=
  { YHnet.initial with
    mIsConnected := true
    mWaveIn := some 1
    recordings := [⟨1, false⟩]
    starts := 1
    sent := [.lineEstablish] }

/-- It is where connecting leads to. -/
example : Runs.exec YHnet.step YHnet.initial [.click, .startRecording] = some firstSession := rfl

theorem sessionStarted_firstSession : SessionStarted firstSession :=
  ⟨rfl, rfl, rfl, rfl, rfl, rfl, rfl, rfl⟩

/-- A thread that runs between the callback's blocks: header and samples are sent in order. -/
theorem header_first_session : ∃ s : YHnet, HeaderFirst firstSession s ∧
    s.sent = [.pcm silence.first, .wavHeader, .lineEstablish] := by
  obtain ⟨s, hs, hp⟩ := YHnet.exists_sessionReachable headerSafe firstSession
    [.dataAvailable 1 silence, .enqueueBlock, .thread 0, .enqueueBlock, .thread 0, .thread 0,
      .dataAvailable 1 silence, .enqueueBlock, .thread 0, .thread 0, .thread 0]
    (fun s ↦ s.sent == [.pcm silence.first, .wavHeader, .lineEstablish])
    (by decide +kernel)
  exact ⟨s, header_first sessionStarted_firstSession hs, eq_of_beq hp⟩

/-- **Without the guard it does not.** Two callbacks come before the thread is scheduled: the first
block of the second one discards the header, and the thread sends samples first. -/
theorem not_header_first : ¬ ∀ s₀ s : YHnet, SessionStarted s₀ → SessionReachable oneSession s₀ s →
    HeaderFirst s₀ s := by
  intro hall
  obtain ⟨s, hs, hp⟩ := YHnet.exists_sessionReachable oneSession firstSession
    [.dataAvailable 1 silence, .enqueueBlock, .enqueueBlock, .dataAvailable 1 silence,
      .enqueueBlock, .thread 0, .thread 0, .thread 0]
    (fun s ↦ s.sent == [.pcm silence.first, .lineEstablish])
    (by decide +kernel)
  obtain ⟨new, hsent, hfirst, -⟩ := hall firstSession s sessionStarted_firstSession hs
  have hnew : new = [.pcm silence.first] := by
    have happ : [.pcm silence.first] ++ firstSession.sent = new ++ firstSession.sent :=
      (eq_of_beq hp).symm.trans hsent
    exact (List.append_cancel_right happ).symm
  rw [hnew] at hfirst
  have hheader := (hfirst _ rfl).1
  exact PcMessage.noConfusion hheader

end YHAudioLink
