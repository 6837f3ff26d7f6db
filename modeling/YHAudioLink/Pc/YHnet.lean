import YHAudioLink.Foundation.Runs
import YHAudioLink.Pc.Messages

/-!
# The sending side of the PC

`YHnet` and the connect button of `MainWindow`, as one step machine. Its parties are the UI, which
runs the click handler, the callbacks of NAudio's recorder, and the `ThreadDoRec` threads.

* A click either starts a session (`Start`: clear the queue, send `AT1`, then make and start a
  recorder) or shuts it down (`ShutDown`: stop and dispose the recorder). Between sending `AT1` and
  starting the recorder other parties may move.
* The first `DataAvailable` of a session sets `m_is_line_snd`, enqueues a WAV header and **starts
  the thread**; every one enqueues two blocks.
* `RecordingStopped` clears `m_is_line_snd`, whichever recorder it comes from.
* The thread sends what it dequeues while `m_is_line_snd` is set, then `AT2` three times, half a
  second apart, and ends.

## What is assumed of the recorder

A recorder that has been started may deliver `DataAvailable` at any time, with no bound on the first
one, until it delivers `RecordingStopped`. That it delivers once: some time after it was stopped or
disposed, or **of its own accord**, when it cannot reuse a buffer. `recordings` are the recorders
started and not yet done; a `RecordingStopped` is known to be outstanding when the recorder has been
stopped.

The playing side of `YHnet` shares no data with this one, nor do the files it can save to.
-/

namespace YHAudioLink

/-! ### The queue -/

/-- `YHbuffer.Enqueue` with `m_blocks = 3`: append, after dropping the front of a full queue. -/
def yhbufferEnqueue (q : List PcMessage) (e : PcMessage) : List PcMessage :=
  (if q.length = 3 then q.tail else q) ++ [e]

/-- `YHbuffer.Dequeue`: the front, or an empty element. -/
def yhbufferDequeue (q : List PcMessage) : Option PcMessage × List PcMessage :=
  (q.head?, q.tail)

/-- What is in the queue afterwards was in it before or is the new element. -/
theorem mem_yhbufferEnqueue {q : List PcMessage} {e m : PcMessage}
    (h : m ∈ yhbufferEnqueue q e) : m ∈ q ∨ m = e := by
  rw [yhbufferEnqueue, List.mem_append, List.mem_singleton] at h
  refine h.imp_left fun hm ↦ ?_
  split at hm
  · exact List.mem_of_mem_tail hm
  · exact hm

/-! ### States -/

/-- Where a `ThreadDoRec` thread is. -/
inductive RecPc
  /-- About to test `m_is_line_snd`. -/
  | check
  | dequeue
  /-- About to send an element it has dequeued. -/
  | send (e : PcMessage)
  /-- Out of the loop, with this many `LineShutDown` calls to make. -/
  | shutDown (left : ℕ)
  deriving DecidableEq

/-- A `ThreadDoRec` thread that has not ended, with the session whose recorder started it. -/
structure RecThread where
  session : ℕ
  pc : RecPc
  deriving DecidableEq

/-- A recorder that has been started and has not yet delivered `RecordingStopped`. -/
structure Recording where
  session : ℕ
  /-- Stopped or disposed: its `RecordingStopped` is outstanding. -/
  stopped : Bool
  deriving DecidableEq

/-- Where the UI thread is. -/
inductive UiPc
  | idle
  /-- In `Start`, after `LineEstablish`. -/
  | starting
  /-- A null reference was not caught: the process is gone. -/
  | faulted
  deriving DecidableEq

/-- The sending side of the PC. -/
structure YHnet where
  /-- `m_is_connected` of the window. -/
  mIsConnected : Bool
  /-- `m_is_line_snd`. -/
  mIsLineSnd : Bool
  /-- `m_wave_in`, by the session it was made in. -/
  mWaveIn : Option ℕ
  /-- `m_queue_rec`. -/
  mQueueRec : List PcMessage
  /-- The blocks the running `waveIn_DataAvailable` has still to enqueue. -/
  pending : List PcmBlock
  recordings : List Recording
  threads : List RecThread
  ui : UiPc
  /-- The number of sessions started. -/
  starts : ℕ
  /-- What `SendTo` was called with, newest first. -/
  sent : List PcMessage

/-- The window has just been opened. -/
def YHnet.initial : YHnet where
  mIsConnected := false
  mIsLineSnd := false
  mWaveIn := none
  mQueueRec := []
  pending := []
  recordings := []
  threads := []
  ui := .idle
  starts := 0
  sent := []

/-! ### Steps -/

/-- Who moves. -/
inductive PcLabel
  | click
  /-- The rest of `Start`. -/
  | startRecording
  | dataAvailable (session : ℕ) (e : WaveInBuffer)
  /-- `waveIn_DataAvailable` enqueues the next of its two blocks. -/
  | enqueueBlock
  | recordingStopped (session : ℕ)
  /-- A statement of the `i`-th running `ThreadDoRec`. -/
  | thread (i : ℕ)

/-- `StopRecording` or `Dispose` on the recorder of a session. -/
def stopRecording (session : ℕ) (recordings : List Recording) : List Recording :=
  recordings.map fun r ↦ if r.session = session then { r with stopped := true } else r

/-- `BtnConnect_Click`, up to the end of `LineEstablish` or to the end of `ShutDown`. -/
def btnConnectClick (s : YHnet) : Option YHnet :=
  match s.ui with
  | .idle =>
    if s.mIsConnected then
      match s.mWaveIn with
      | some session =>
        some { s with
          mIsConnected := false, recordings := stopRecording session s.recordings }
      | none => some { s with mIsConnected := false, ui := .faulted }
    else
      some { s with
        mIsConnected := true
        mQueueRec := []
        ui := .starting
        starts := s.starts + 1
        sent := .lineEstablish :: s.sent }
  | _ => none

/-- `Start` after `LineEstablish`: a new recorder is made and started. -/
def startRecording (s : YHnet) : Option YHnet :=
  match s.ui with
  | .starting =>
    some { s with
      mWaveIn := some s.starts
      recordings := s.recordings ++ [⟨s.starts, false⟩]
      ui := .idle }
  | _ => none

/-- `waveIn_DataAvailable`, up to the first of its two blocks. -/
def waveInDataAvailable (s : YHnet) (session : ℕ) (e : WaveInBuffer) : Option YHnet :=
  if s.pending = [] ∧ ∃ r ∈ s.recordings, r.session = session then
    if s.mIsLineSnd then some { s with pending := [e.first, e.second] }
    else
      some { s with
        mIsLineSnd := true
        mQueueRec := yhbufferEnqueue s.mQueueRec .wavHeader
        pending := [e.first, e.second]
        threads := s.threads ++ [⟨session, .check⟩] }
  else none

/-- A block is enqueued. -/
def enqueueBlock (s : YHnet) : Option YHnet :=
  match s.pending with
  | blk :: rest =>
    some { s with mQueueRec := yhbufferEnqueue s.mQueueRec (.pcm blk), pending := rest }
  | [] => none

/-- The recorders left when that of a session is done. -/
def recordingsDone (session : ℕ) (recordings : List Recording) : List Recording :=
  recordings.filter fun r ↦ r.session ≠ session

/-- `OnRecordingStopped`, called for the recorder of a session, whether it was stopped or gave up by
itself. It disposes whatever `m_wave_in` holds by then. -/
def onRecordingStopped (s : YHnet) (session : ℕ) : Option YHnet :=
  if ∃ r ∈ s.recordings, r.session = session then
    let recordings := recordingsDone session s.recordings
    some { s with
      mIsLineSnd := false
      mWaveIn := none
      recordings :=
        match s.mWaveIn with
        | some current => stopRecording current recordings
        | none => recordings }
  else none

/-- A statement of the `i`-th running `ThreadDoRec`; after its last `LineShutDown` the thread has
ended. -/
def threadDoRec (s : YHnet) (i : ℕ) : Option YHnet :=
  match s.threads[i]? with
  | none => none
  | some th =>
    match th.pc with
    | .check =>
      some { s with
        threads := s.threads.set i
          { th with pc := if s.mIsLineSnd then .dequeue else .shutDown 3 } }
    | .dequeue =>
      some { s with
        mQueueRec := (yhbufferDequeue s.mQueueRec).2
        threads := s.threads.set i
          { th with
            pc :=
              match (yhbufferDequeue s.mQueueRec).1 with
              | some e => .send e
              | none => .check } }
    | .send e =>
      some { s with threads := s.threads.set i { th with pc := .check }, sent := e :: s.sent }
    | .shutDown left =>
      some { s with
        threads :=
          if left ≤ 1 then s.threads.eraseIdx i
          else s.threads.set i { th with pc := .shutDown (left - 1) }
        sent := .lineShutDown :: s.sent }

/-- One step of the PC; none is left after a fault. -/
def YHnet.step (s : YHnet) (a : PcLabel) : Option YHnet :=
  if s.ui = .faulted then none
  else
    match a with
    | .click => btnConnectClick s
    | .startRecording => startRecording s
    | .dataAvailable session e => waveInDataAvailable s session e
    | .enqueueBlock => enqueueBlock s
    | .recordingStopped session => onRecordingStopped s session
    | .thread i => threadDoRec s i

/-! ### What a step can do -/

/-- The transitions of the PC, one constructor for each way a statement can go. -/
inductive PcMove (s : YHnet) : PcLabel → YHnet → Prop
  | clickStart (hui : s.ui = .idle) (hconn : s.mIsConnected = false) :
    PcMove s .click { s with
      mIsConnected := true
      mQueueRec := []
      ui := .starting
      starts := s.starts + 1
      sent := .lineEstablish :: s.sent }
  | clickShutDown (session : ℕ) (hui : s.ui = .idle) (hconn : s.mIsConnected = true)
      (hwave : s.mWaveIn = some session) :
    PcMove s .click { s with
      mIsConnected := false, recordings := stopRecording session s.recordings }
  | clickFault (hui : s.ui = .idle) (hconn : s.mIsConnected = true) (hwave : s.mWaveIn = none) :
    PcMove s .click { s with mIsConnected := false, ui := .faulted }
  | startRecording (hui : s.ui = .starting) :
    PcMove s .startRecording { s with
      mWaveIn := some s.starts
      recordings := s.recordings ++ [⟨s.starts, false⟩]
      ui := .idle }
  | firstData (session : ℕ) (e : WaveInBuffer) (hrec : ∃ r ∈ s.recordings, r.session = session)
      (hsnd : s.mIsLineSnd = false) :
    PcMove s (.dataAvailable session e) { s with
      mIsLineSnd := true
      mQueueRec := yhbufferEnqueue s.mQueueRec .wavHeader
      pending := [e.first, e.second]
      threads := s.threads ++ [⟨session, .check⟩] }
  | moreData (session : ℕ) (e : WaveInBuffer) (hsnd : s.mIsLineSnd = true) :
    PcMove s (.dataAvailable session e) { s with pending := [e.first, e.second] }
  | enqueueBlock (blk : PcmBlock) (rest : List PcmBlock) :
    PcMove s .enqueueBlock { s with
      mQueueRec := yhbufferEnqueue s.mQueueRec (.pcm blk), pending := rest }
  | recordingStopped (session : ℕ) (hrec : ∃ r ∈ s.recordings, r.session = session) :
    PcMove s (.recordingStopped session) { s with
      mIsLineSnd := false
      mWaveIn := none
      recordings :=
        match s.mWaveIn with
        | some current => stopRecording current (recordingsDone session s.recordings)
        | none => recordingsDone session s.recordings }
  | threadCheck (i : ℕ) (th : RecThread) (hth : s.threads[i]? = some th) (hpc : th.pc = .check) :
    PcMove s (.thread i) { s with
      threads := s.threads.set i
        { th with pc := if s.mIsLineSnd then .dequeue else .shutDown 3 } }
  | threadDequeue (i : ℕ) (th : RecThread) (pc : RecPc) (hth : s.threads[i]? = some th)
      (hpc : th.pc = .dequeue) (hnext : pc = .check ∨ ∃ e ∈ s.mQueueRec, pc = .send e) :
    PcMove s (.thread i) { s with
      mQueueRec := (yhbufferDequeue s.mQueueRec).2
      threads := s.threads.set i { th with pc := pc } }
  | threadSend (i : ℕ) (th : RecThread) (e : PcMessage) (hth : s.threads[i]? = some th)
      (hpc : th.pc = .send e) :
    PcMove s (.thread i) { s with
      threads := s.threads.set i { th with pc := .check }, sent := e :: s.sent }
  | threadShutDown (i : ℕ) (th : RecThread) (left : ℕ) (hth : s.threads[i]? = some th)
      (hpc : th.pc = .shutDown left) :
    PcMove s (.thread i) { s with
      threads :=
        if left ≤ 1 then s.threads.eraseIdx i
        else s.threads.set i { th with pc := .shutDown (left - 1) }
      sent := .lineShutDown :: s.sent }

theorem pcMove_of_click {s t : YHnet} (h : btnConnectClick s = some t) : PcMove s .click t := by
  unfold btnConnectClick at h
  split at h
  · next hui =>
    split at h
    · next hconn =>
      split at h
      · next session hwave => exact Option.some.inj h ▸ .clickShutDown session hui hconn hwave
      · next hwave => exact Option.some.inj h ▸ .clickFault hui hconn hwave
    · next hconn => exact Option.some.inj h ▸ .clickStart hui (Bool.eq_false_iff.2 hconn)
  · exact absurd h (by simp)

theorem pcMove_of_dataAvailable {s t : YHnet} {session : ℕ} {e : WaveInBuffer}
    (h : waveInDataAvailable s session e = some t) :
    PcMove s (.dataAvailable session e) t := by
  unfold waveInDataAvailable at h
  split at h
  · next hrec =>
    split at h
    · next hsnd => exact Option.some.inj h ▸ .moreData session e hsnd
    · next hsnd =>
      exact Option.some.inj h ▸ .firstData session e hrec.2 (Bool.eq_false_iff.2 hsnd)
  · exact absurd h (by simp)

theorem pcMove_of_thread {s t : YHnet} {i : ℕ} (h : threadDoRec s i = some t) :
    PcMove s (.thread i) t := by
  unfold threadDoRec at h
  split at h
  · exact absurd h (by simp)
  · next th hth =>
    split at h
    · next hpc => exact Option.some.inj h ▸ .threadCheck i th hth hpc
    · next hpc =>
      refine Option.some.inj h ▸ .threadDequeue i th _ hth hpc ?_
      rcases hq : (yhbufferDequeue s.mQueueRec).1 with - | e
      · exact Or.inl rfl
      · exact Or.inr ⟨e, List.mem_of_mem_head? hq, rfl⟩
    · next e hpc => exact Option.some.inj h ▸ .threadSend i th e hth hpc
    · next left hpc => exact Option.some.inj h ▸ .threadShutDown i th left hth hpc

/-- **Every step of the PC is one of the transitions.** -/
theorem pcMove_of_step {s t : YHnet} {a : PcLabel} (h : s.step a = some t) : PcMove s a t := by
  unfold YHnet.step at h
  split at h
  · exact absurd h (by simp)
  · cases a with
    | click => exact pcMove_of_click h
    | startRecording =>
      simp only [startRecording] at h
      split at h
      · next hui => exact Option.some.inj h ▸ .startRecording hui
      · exact absurd h (by simp)
    | dataAvailable session e => exact pcMove_of_dataAvailable h
    | enqueueBlock =>
      simp only [enqueueBlock] at h
      split at h
      · next blk rest _ => exact Option.some.inj h ▸ .enqueueBlock blk rest
      · exact absurd h (by simp)
    | recordingStopped session =>
      simp only [onRecordingStopped] at h
      split at h
      · next hrec => exact Option.some.inj h ▸ .recordingStopped session hrec
      · exact absurd h (by simp)
    | thread i => exact pcMove_of_thread h

/-- Reachable states of the PC, under a guard. -/
abbrev PcReachable (ok : YHnet → PcLabel → Bool) : YHnet → Prop :=
  Runs.Reachable (fun s ↦ s = YHnet.initial) YHnet.step ok

/-- A schedule that can be replayed from the start under a guard, and ends in a state with a
checkable property, reaches such a state. -/
theorem YHnet.exists_reachable (ok : YHnet → PcLabel → Bool) (as : List PcLabel)
    (p : YHnet → Bool) (h : (Runs.execOk YHnet.step ok YHnet.initial as).map p = some true) :
    ∃ s, PcReachable ok s ∧ p s = true :=
  Runs.exists_reachable_of_execOk rfl h

end YHAudioLink
