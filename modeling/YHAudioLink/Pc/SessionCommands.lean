import YHAudioLink.Pc.YHnet

/-!
# The last command and the button

What the board was last told should be what the button says: `AT1` while the PC is connected, `AT2`
after it has been disconnected, as soon as no `ThreadDoRec` of an ended session runs and no
`RecordingStopped` is outstanding.

`AT1` is sent by the UI, `AT2` by a thread that the first `DataAvailable` starts and that may still
be sending half-second after half-second when the user connects again. So the two disagree when a
session is shut down before its first callback, for then nobody ever sends `AT2`
(`not_last_command_agrees`), when a session is started while the last one is still ending, and when
the recorder gives up by itself in the middle of one: the thread then says `AT2` to a board whose
button still shows the connection.

`sessionsInTurn` excludes exactly these: `RecordingStopped` comes only once the thread of the
session has been started and the session has been shut down, and `Start` is clicked only when the
last session has ended completely. Sessions then go round the five phases of `PcPhase`.
-/

namespace YHAudioLink

/-- The last command sent. -/
def lastCommand (sent : List PcMessage) : Option PcMessage := sent.find? PcMessage.isLineCommand

/-- No `ThreadDoRec` of a session that has been shut down is running, and no `RecordingStopped` is
outstanding. -/
def YHnet.Quiet (s : YHnet) : Prop :=
  (∀ th ∈ s.threads, s.mIsConnected = true ∧ th.session = s.starts) ∧
    ∀ r ∈ s.recordings, r.stopped = false

/-- The last command is the one the button shows. -/
def YHnet.Agrees (s : YHnet) : Prop :=
  (s.mIsConnected = true → lastCommand s.sent = some .lineEstablish) ∧
    (s.mIsConnected = false → 0 < s.starts → lastCommand s.sent = some .lineShutDown)

/-- **The guard.** `Start` is clicked only when no `ThreadDoRec` is running and no
`RecordingStopped` is outstanding, and `RecordingStopped` is delivered only after a thread has been
started for the session and the session has been shut down. -/
def sessionsInTurn (s : YHnet) : PcLabel → Bool
  | .click => s.mIsConnected || (s.threads.isEmpty && s.recordings.all fun r ↦ !r.stopped)
  | .recordingStopped _ => s.mIsLineSnd && !s.mIsConnected
  | _ => true

/-! ### Audio is no command -/

/-- Neither the queue nor a thread holds a command. -/
structure AudioOnly (s : YHnet) : Prop where
  queue : ∀ m ∈ s.mQueueRec, m.isLineCommand = false
  threads : ∀ th ∈ s.threads, ∀ e, th.pc = .send e → e.isLineCommand = false

namespace AudioOnly

variable {s t : YHnet} {a : PcLabel}

theorem enqueue {q : List PcMessage} (h : ∀ m ∈ q, m.isLineCommand = false) {e : PcMessage}
    (he : e.isLineCommand = false) : ∀ m ∈ yhbufferEnqueue q e, m.isLineCommand = false := by
  intro m hm
  rcases mem_yhbufferEnqueue hm with hm | rfl
  · exact h m hm
  · exact he

/-- A thread that moves to a place with no command in hand. -/
theorem set (h : AudioOnly s) (i : ℕ) (th : RecThread)
    (hth : ∀ e, th.pc = .send e → e.isLineCommand = false) :
    ∀ th' ∈ s.threads.set i th, ∀ e, th'.pc = .send e → e.isLineCommand = false := by
  intro th' hth'
  rcases List.mem_or_eq_of_mem_set hth' with hmem | rfl
  · exact h.threads th' hmem
  · exact hth

theorem step (h : AudioOnly s) (hst : PcMove s a t) : AudioOnly t := by
  cases hst with
  | clickStart => exact ⟨fun m hm ↦ absurd hm List.not_mem_nil, h.threads⟩
  | firstData session e =>
    refine ⟨enqueue h.queue rfl, fun th hth e he ↦ ?_⟩
    rcases List.mem_append.1 hth with hth | hth
    · exact h.threads th hth e he
    · rw [List.mem_singleton.1 hth] at he
      exact absurd he (by simp)
  | enqueueBlock blk rest => exact ⟨enqueue h.queue rfl, h.threads⟩
  | threadCheck i th =>
    refine ⟨h.queue, h.set i _ fun e he ↦ ?_⟩
    rcases hsnd : s.mIsLineSnd with - | - <;> simp [hsnd] at he
  | threadDequeue i th pc hth hpc hnext =>
    refine ⟨fun m hm ↦ h.queue m (List.mem_of_mem_tail hm), h.set i _ fun e he ↦ ?_⟩
    obtain rfl : pc = .send e := he
    rcases hnext with hnext | ⟨e', he', hnext⟩
    · exact RecPc.noConfusion hnext
    · rw [RecPc.send.inj hnext]
      exact h.queue e' he'
  | threadSend i th => exact ⟨h.queue, h.set i _ fun e he ↦ RecPc.noConfusion he⟩
  | threadShutDown i th left =>
    refine ⟨h.queue, ?_⟩
    dsimp only
    split
    · exact fun th' hth' ↦ h.threads th' (List.mem_of_mem_eraseIdx hth')
    · exact h.set i _ fun e he ↦ RecPc.noConfusion he
  | clickShutDown | clickFault | startRecording | moreData | recordingStopped =>
    exact ⟨h.queue, h.threads⟩

theorem of_reachable {ok : YHnet → PcLabel → Bool} (h : PcReachable ok s) : AudioOnly s := by
  refine h.invariant ?_ fun _ _ _ hs _ hst ↦ hs.step (pcMove_of_step hst)
  rintro s rfl
  exact ⟨fun m hm ↦ absurd hm List.not_mem_nil, fun th hth ↦ absurd hth List.not_mem_nil⟩

end AudioOnly

/-! ### The phases of a session -/

/-- The thread is in its sending loop. -/
def RecPc.looping : RecPc → Bool
  | .shutDown _ => false
  | _ => true

/-- Either no callback has come yet, or the thread of the session is in its loop. -/
def RecThreads (s : YHnet) : Prop :=
  (s.mIsLineSnd = false ∧ s.threads = []) ∨
    (s.mIsLineSnd = true ∧ ∃ pc, pc.looping = true ∧ s.threads = [⟨s.starts, pc⟩])

/-- How the parties stand to each other in a guarded run. -/
inductive PcPhase (s : YHnet) : Prop
  /-- Before the first session and after each one. -/
  | disconnected (hconn : s.mIsConnected = false) (hui : s.ui = .idle) (hrec : s.recordings = [])
      (hsnd : s.mIsLineSnd = false) (hthreads : s.threads = [])
      (hlast : 0 < s.starts → lastCommand s.sent = some .lineShutDown)
  /-- `AT1` is sent and the recorder is about to be made. -/
  | starting (hconn : s.mIsConnected = true) (hui : s.ui = .starting) (hrec : s.recordings = [])
      (hsnd : s.mIsLineSnd = false) (hthreads : s.threads = [])
      (hlast : lastCommand s.sent = some .lineEstablish)
  /-- The recorder runs. -/
  | recording (hconn : s.mIsConnected = true) (hui : s.ui = .idle)
      (hrec : s.recordings = [⟨s.starts, false⟩]) (hwave : s.mWaveIn = some s.starts)
      (hthreads : RecThreads s) (hlast : lastCommand s.sent = some .lineEstablish)
  /-- The recorder has been stopped and has not said so yet. -/
  | stopping (hconn : s.mIsConnected = false) (hui : s.ui = .idle)
      (hrec : s.recordings = [⟨s.starts, true⟩]) (hthreads : RecThreads s)
  /-- The thread finds `m_is_line_snd` cleared and sends `AT2`. -/
  | closing (hconn : s.mIsConnected = false) (hui : s.ui = .idle) (hrec : s.recordings = [])
      (hsnd : s.mIsLineSnd = false) (hthreads : ∃ pc, s.threads = [⟨s.starts, pc⟩])

theorem lastCommand_cons_of_audio {m : PcMessage} (h : m.isLineCommand = false)
    (sent : List PcMessage) : lastCommand (m :: sent) = lastCommand sent := by
  rw [lastCommand, List.find?_cons_of_neg (by simp [h]), lastCommand]

/-- The only running thread is the one that moves. -/
theorem getElem?_singleton {α : Type*} {x y : α} {i : ℕ} (h : [x][i]? = some y) :
    i = 0 ∧ x = y := by
  rcases i with - | i
  · exact ⟨rfl, Option.some.inj h⟩
  · simp at h

namespace PcPhase

variable {s t : YHnet} {a : PcLabel}

theorem of_initial : PcPhase YHnet.initial :=
  .disconnected rfl rfl rfl rfl rfl fun h ↦ absurd h (lt_irrefl _)

/-- **What the phases say of the last command.** -/
theorem agrees (h : PcPhase s) (hquiet : s.Quiet) : s.Agrees := by
  cases h with
  | disconnected hconn _ _ _ _ hlast =>
    exact ⟨fun h ↦ by simp [hconn] at h, fun _ ↦ hlast⟩
  | starting hconn _ _ _ _ hlast => exact ⟨fun _ ↦ hlast, fun h ↦ by simp [hconn] at h⟩
  | recording hconn _ _ _ _ hlast => exact ⟨fun _ ↦ hlast, fun h ↦ by simp [hconn] at h⟩
  | stopping _ _ hrec =>
    have hout := hquiet.2 ⟨s.starts, true⟩ (by rw [hrec]; exact List.mem_singleton_self _)
    exact Bool.noConfusion hout
  | closing hconn _ _ _ hthreads =>
    obtain ⟨pc, hthreads⟩ := hthreads
    have hrun := hquiet.1 ⟨s.starts, pc⟩ (by rw [hthreads]; exact List.mem_singleton_self _)
    rw [hconn] at hrun
    exact Bool.noConfusion hrun.1

/-- `Start` is admitted only between sessions. -/
theorem clickStart (h : PcPhase s) (hconn : s.mIsConnected = false)
    (hok : sessionsInTurn s .click = true) :
    PcPhase { s with
      mIsConnected := true
      mQueueRec := []
      ui := .starting
      starts := s.starts + 1
      sent := .lineEstablish :: s.sent } := by
  simp only [sessionsInTurn, hconn, Bool.false_or, Bool.and_eq_true, List.isEmpty_iff,
    List.all_eq_true, Bool.not_eq_true'] at hok
  obtain ⟨hnone, hquiet⟩ := hok
  cases h with
  | disconnected _ _ hrec hsnd hthreads => exact .starting rfl rfl hrec hsnd hthreads rfl
  | starting hconn' => simp [hconn] at hconn'
  | recording hconn' => simp [hconn] at hconn'
  | stopping _ _ hrec =>
    have hout := hquiet ⟨s.starts, true⟩ (by rw [hrec]; exact List.mem_singleton_self _)
    exact Bool.noConfusion hout
  | closing _ _ _ _ hthreads =>
    obtain ⟨pc, hthreads⟩ := hthreads
    rw [hthreads] at hnone
    exact absurd hnone (List.cons_ne_nil _ _)

/-- On an idle UI a connected PC has its recorder. -/
theorem recording_of_connected (h : PcPhase s) (hui : s.ui = .idle)
    (hconn : s.mIsConnected = true) :
    s.recordings = [⟨s.starts, false⟩] ∧ s.mWaveIn = some s.starts ∧ RecThreads s := by
  cases h with
  | recording _ _ hrec hwave hthreads => exact ⟨hrec, hwave, hthreads⟩
  | starting _ hui' => simp [hui] at hui'
  | disconnected hconn' => simp [hconn] at hconn'
  | stopping hconn' => simp [hconn] at hconn'
  | closing hconn' => simp [hconn] at hconn'

/-- `ShutDown` stops the recorder of the session. -/
theorem clickShutDown (h : PcPhase s) {session : ℕ} (hui : s.ui = .idle)
    (hconn : s.mIsConnected = true) (hwave : s.mWaveIn = some session) :
    PcPhase { s with
      mIsConnected := false, recordings := stopRecording session s.recordings } := by
  obtain ⟨hrec, hwave', hthreads⟩ := h.recording_of_connected hui hconn
  obtain rfl : session = s.starts := Option.some.inj (hwave.symm.trans hwave')
  refine .stopping rfl hui ?_ hthreads
  show stopRecording s.starts s.recordings = [⟨s.starts, true⟩]
  rw [hrec, stopRecording, List.map_singleton, if_pos rfl]

/-- The recorder of the session is made. -/
theorem startRecording (h : PcPhase s) (hui : s.ui = .starting) :
    PcPhase { s with
      mWaveIn := some s.starts
      recordings := s.recordings ++ [⟨s.starts, false⟩]
      ui := .idle } := by
  cases h with
  | starting hconn _ hrec hsnd hthreads hlast =>
    refine .recording hconn rfl ?_ rfl (Or.inl ⟨hsnd, hthreads⟩) hlast
    show s.recordings ++ [⟨s.starts, false⟩] = [⟨s.starts, false⟩]
    rw [hrec, List.nil_append]
  | disconnected _ hui' => simp [hui] at hui'
  | recording _ hui' => simp [hui] at hui'
  | stopping _ hui' => simp [hui] at hui'
  | closing _ hui' => simp [hui] at hui'

/-- The first callback starts the thread of the session, also when the recorder has been stopped
already. -/
theorem firstData (h : PcPhase s) {session : ℕ} (hrec : ∃ r ∈ s.recordings, r.session = session)
    (hsnd : s.mIsLineSnd = false) (queue : List PcMessage) (pending : List PcmBlock) :
    PcPhase { s with
      mIsLineSnd := true
      mQueueRec := queue
      pending := pending
      threads := s.threads ++ [⟨session, .check⟩] } := by
  have hstarted : session = s.starts → RecThreads s →
      ∃ pc, pc.looping = true ∧ s.threads ++ [⟨session, .check⟩] = [⟨s.starts, pc⟩] := by
    rintro rfl (⟨-, hthreads⟩ | ⟨hsnd', -⟩)
    · exact ⟨.check, rfl, by rw [hthreads, List.nil_append]⟩
    · simp [hsnd] at hsnd'
  have hsession : ∀ b, s.recordings = [⟨s.starts, b⟩] → session = s.starts := by
    intro b hrec'
    rw [hrec'] at hrec
    obtain ⟨r, hr, rfl⟩ := hrec
    rw [List.mem_singleton.1 hr]
  have hnone : s.recordings ≠ [] := by
    obtain ⟨r, hr, -⟩ := hrec
    exact List.ne_nil_of_mem hr
  cases h with
  | recording hconn hui hrec' hwave hthreads hlast =>
    exact .recording hconn hui hrec' hwave
      (Or.inr ⟨rfl, hstarted (hsession _ hrec') hthreads⟩) hlast
  | stopping hconn hui hrec' hthreads =>
    exact .stopping hconn hui hrec' (Or.inr ⟨rfl, hstarted (hsession _ hrec') hthreads⟩)
  | disconnected _ _ hrec' => exact absurd hrec' hnone
  | starting _ _ hrec' => exact absurd hrec' hnone
  | closing _ _ hrec' => exact absurd hrec' hnone

/-- The recorder is done; the guard says that the session has been shut down and that there is a
thread to find out. -/
theorem recordingStopped (h : PcPhase s) {session : ℕ}
    (hrec : ∃ r ∈ s.recordings, r.session = session)
    (hok : sessionsInTurn s (.recordingStopped session) = true) :
    PcPhase { s with
      mIsLineSnd := false
      mWaveIn := none
      recordings :=
        match s.mWaveIn with
        | some current => stopRecording current (recordingsDone session s.recordings)
        | none => recordingsDone session s.recordings } := by
  simp only [sessionsInTurn, Bool.and_eq_true, Bool.not_eq_true'] at hok
  obtain ⟨hsnd, hdown⟩ := hok
  obtain ⟨r, hr, rfl⟩ := hrec
  cases h with
  | stopping hconn hui hrec' hthreads =>
    have hdone : recordingsDone r.session s.recordings = [] := by
      rw [hrec'] at hr ⊢
      rw [List.mem_singleton.1 hr]
      simp [recordingsDone]
    refine .closing hconn hui ?_ rfl ?_
    · dsimp only
      rw [hdone]
      rcases s.mWaveIn with - | current <;> rfl
    · rcases hthreads with ⟨hsnd', -⟩ | ⟨-, pc, -, hthreads⟩
      · simp [hsnd] at hsnd'
      · exact ⟨pc, hthreads⟩
  | recording hconn => simp [hdown] at hconn
  | disconnected _ _ hrec' => simp [hrec'] at hr
  | starting _ _ hrec' => simp [hrec'] at hr
  | closing _ _ hrec' => simp [hrec'] at hr

/-- A statement of the thread that keeps it in its loop while `m_is_line_snd` is set, and sends no
command. -/
theorem thread (h : PcPhase s) {i : ℕ} {th : RecThread} (hth : s.threads[i]? = some th)
    (pc : RecPc) (queue sent : List PcMessage)
    (hloop : s.mIsLineSnd = true → th.pc.looping = true → pc.looping = true)
    (hlast' : lastCommand sent = lastCommand s.sent) :
    PcPhase { s with
      mQueueRec := queue, threads := s.threads.set i { th with pc := pc }, sent := sent } := by
  have hmoved : ∀ pc', s.threads = [⟨s.starts, pc'⟩] →
      th.pc = pc' ∧ s.threads.set i { th with pc := pc } = [⟨s.starts, pc⟩] := by
    intro pc' hthreads
    rw [hthreads] at hth ⊢
    obtain ⟨rfl, rfl⟩ := getElem?_singleton hth
    exact ⟨rfl, rfl⟩
  have hrun : RecThreads s → RecThreads { s with
      mQueueRec := queue, threads := s.threads.set i { th with pc := pc }, sent := sent } := by
    rintro (⟨-, hthreads⟩ | ⟨hsnd, pc', hlooping, hthreads⟩)
    · simp [hthreads] at hth
    · obtain ⟨hpc, hset⟩ := hmoved pc' hthreads
      exact Or.inr ⟨hsnd, pc, hloop hsnd (hpc ▸ hlooping), hset⟩
  cases h with
  | recording hconn hui hrec hwave hthreads hlast =>
    exact .recording hconn hui hrec hwave (hrun hthreads) (hlast'.trans hlast)
  | stopping hconn hui hrec hthreads => exact .stopping hconn hui hrec (hrun hthreads)
  | closing hconn hui hrec hsnd hthreads =>
    obtain ⟨pc', hthreads⟩ := hthreads
    exact .closing hconn hui hrec hsnd ⟨pc, (hmoved pc' hthreads).2⟩
  | disconnected _ _ _ _ hthreads => simp [hthreads] at hth
  | starting _ _ _ _ hthreads => simp [hthreads] at hth

/-- `AT2` is sent only between sessions; with the last one the session has ended. -/
theorem threadShutDown (h : PcPhase s) {i : ℕ} {th : RecThread} {left : ℕ}
    (hth : s.threads[i]? = some th) (hpc : th.pc = .shutDown left) :
    PcPhase { s with
      threads :=
        if left ≤ 1 then s.threads.eraseIdx i
        else s.threads.set i { th with pc := .shutDown (left - 1) }
      sent := .lineShutDown :: s.sent } := by
  have hrun : ¬ RecThreads s := by
    rintro (⟨-, hthreads⟩ | ⟨-, pc, hlooping, hthreads⟩)
    · simp [hthreads] at hth
    · rw [hthreads] at hth
      obtain ⟨-, rfl⟩ := getElem?_singleton hth
      obtain rfl : pc = .shutDown left := hpc
      exact Bool.noConfusion hlooping
  cases h with
  | closing hconn hui hrec hsnd hthreads =>
    obtain ⟨pc, hthreads⟩ := hthreads
    rw [hthreads] at hth
    obtain ⟨rfl, rfl⟩ := getElem?_singleton hth
    by_cases hleft : left ≤ 1
    · refine .disconnected hconn hui hrec hsnd ?_ fun _ ↦ rfl
      dsimp only
      rw [if_pos hleft, hthreads]
      rfl
    · refine .closing hconn hui hrec hsnd ⟨.shutDown (left - 1), ?_⟩
      dsimp only
      rw [if_neg hleft, hthreads]
      rfl
  | recording _ _ _ _ hthreads => exact absurd hthreads hrun
  | stopping _ _ _ hthreads => exact absurd hthreads hrun
  | disconnected _ _ _ _ hthreads => simp [hthreads] at hth
  | starting _ _ _ _ hthreads => simp [hthreads] at hth

/-- The queue and the blocks on their way into it have no part in the phases. -/
theorem of_queue (h : PcPhase s) (queue : List PcMessage) (pending : List PcmBlock) :
    PcPhase { s with mQueueRec := queue, pending := pending } := by
  cases h with
  | disconnected h₁ h₂ h₃ h₄ h₅ h₆ => exact .disconnected h₁ h₂ h₃ h₄ h₅ h₆
  | starting h₁ h₂ h₃ h₄ h₅ h₆ => exact .starting h₁ h₂ h₃ h₄ h₅ h₆
  | recording h₁ h₂ h₃ h₄ h₅ h₆ => exact .recording h₁ h₂ h₃ h₄ h₅ h₆
  | stopping h₁ h₂ h₃ h₄ => exact .stopping h₁ h₂ h₃ h₄
  | closing h₁ h₂ h₃ h₄ h₅ => exact .closing h₁ h₂ h₃ h₄ h₅

/-- **Every admitted step stays in the phases.** -/
theorem step (haudio : AudioOnly s) (h : PcPhase s) (hok : sessionsInTurn s a = true)
    (hst : PcMove s a t) : PcPhase t := by
  cases hst with
  | clickStart hui hconn => exact h.clickStart hconn hok
  | clickShutDown session hui hconn hwave => exact h.clickShutDown hui hconn hwave
  | clickFault hui hconn hwave =>
    obtain ⟨-, hwave', -⟩ := h.recording_of_connected hui hconn
    rw [hwave] at hwave'
    exact absurd hwave' (by simp)
  | startRecording hui => exact h.startRecording hui
  | firstData session e hrec hsnd => exact h.firstData hrec hsnd _ _
  | moreData session e => exact h.of_queue _ _
  | enqueueBlock blk rest => exact h.of_queue _ _
  | recordingStopped session hrec => exact h.recordingStopped hrec hok
  | threadCheck i th hth hpc =>
    refine h.thread hth _ _ _ (fun hsnd _ ↦ ?_) rfl
    rw [hsnd]
    rfl
  | threadDequeue i th pc hth hpc hnext =>
    refine h.thread hth _ _ _ (fun _ _ ↦ ?_) rfl
    rcases hnext with rfl | ⟨e, -, rfl⟩ <;> rfl
  | threadSend i th e hth hpc =>
    have he : e.isLineCommand = false := haudio.threads th (List.mem_of_getElem? hth) e hpc
    exact h.thread hth _ _ _ (fun _ _ ↦ rfl) (lastCommand_cons_of_audio he _)
  | threadShutDown i th left hth hpc => exact h.threadShutDown hth hpc

end PcPhase

/-! ### The law -/

/-- **The last command is the one the button shows.** In every run in which `Start` is clicked only
when the last session has ended completely, and `RecordingStopped` comes only after the session's
thread has been started and the session has been shut down: whenever no thread of an ended session
runs and no `RecordingStopped` is outstanding, the last command sent is `AT1` if the PC is
connected, and `AT2` if it is not and has been. -/
theorem last_command_agrees {s : YHnet} (h : PcReachable sessionsInTurn s) (hquiet : s.Quiet) :
    s.Agrees := by
  have hphase : PcPhase s := by
    refine Runs.Reachable.invariant_of (fun _ ↦ AudioOnly.of_reachable) ?_
      (fun _ _ _ haudio hs hok hst ↦ hs.step haudio hok (pcMove_of_step hst)) h
    rintro s rfl
    exact .of_initial
  exact hphase.agrees hquiet

/-- The buffer of a silent callback. -/
def silence : WaveInBuffer := ⟨List.replicate 1600 0, List.length_replicate⟩

/-- A whole session: connect, one callback, disconnect; the thread sends its three `AT2`. -/
theorem last_command_agrees_session : ∃ s : YHnet,
    (s.mIsConnected = false ∧ s.starts = 1 ∧ s.threads = []) ∧
      lastCommand s.sent = some .lineShutDown := by
  obtain ⟨s, hs, hp⟩ := YHnet.exists_reachable sessionsInTurn
    ([.click, .startRecording, .dataAvailable 1 silence, .enqueueBlock, .enqueueBlock] ++
      List.replicate 3 (.thread 0) ++ [.click, .recordingStopped 1] ++
      List.replicate 4 (.thread 0))
    (fun s ↦ !s.mIsConnected && s.starts == 1 && s.threads.isEmpty && s.recordings.isEmpty)
    (by decide +kernel)
  simp only [Bool.and_eq_true, Bool.not_eq_true', beq_iff_eq, List.isEmpty_iff] at hp
  obtain ⟨⟨⟨hconn, hstarts⟩, hthreads⟩, hrec⟩ := hp
  have hquiet : s.Quiet := by
    refine ⟨fun th hth ↦ ?_, fun r hr ↦ ?_⟩
    · simp [hthreads] at hth
    · simp [hrec] at hr
  exact ⟨s, ⟨hconn, hstarts, hthreads⟩,
    (last_command_agrees hs hquiet).2 hconn (by rw [hstarts]; exact Nat.one_pos)⟩

/-- **Without the guard it is not.** The user disconnects before the first callback has come: no
thread is ever started, and the last command remains `AT1`. -/
theorem not_last_command_agrees : ¬ ∀ s : YHnet, PcReachable Runs.everyStep s →
    s.Quiet → s.Agrees := by
  intro hall
  obtain ⟨s, hs, hp⟩ := YHnet.exists_reachable Runs.everyStep
    [.click, .startRecording, .click, .recordingStopped 1]
    (fun s ↦ !s.mIsConnected && s.starts == 1 && s.threads.isEmpty && s.recordings.isEmpty &&
      lastCommand s.sent == some .lineEstablish)
    (by decide +kernel)
  simp only [Bool.and_eq_true, Bool.not_eq_true', beq_iff_eq, List.isEmpty_iff] at hp
  obtain ⟨⟨⟨⟨hconn, hstarts⟩, hthreads⟩, hrec⟩, hlast⟩ := hp
  have hquiet : s.Quiet := by
    refine ⟨fun th hth ↦ ?_, fun r hr ↦ ?_⟩
    · simp [hthreads] at hth
    · simp [hrec] at hr
  have hagrees := (hall s hs hquiet).2 hconn (by rw [hstarts]; exact Nat.one_pos)
  rw [hlast] at hagrees
  exact absurd hagrees (by decide)

end YHAudioLink
