import YHAudioLink.Pc.YHbuffer

/-!
# The chunker

`waveIn_DataAvailable`, over buffers of any length: what it puts into `m_queue_rec`, and where it
throws. In the machine of `YHnet` a callback brings a `WaveInBuffer`, which has 1600 bytes by its
type; here the arguments are those of the device, a buffer and how many of its bytes were recorded,
and the elements are made by `new YHElement` with its own two limits.

The code cuts every buffer at 800 and at 1600 and looks at neither length. So a call makes two
blocks or throws (`waveInDataAvailable_eq`), a run puts exactly the first 1600 bytes of each buffer
into the queue (`chunksKept_iff_flatMap`), and these are what was recorded, at every moment of the
run, where every event has recorded 1600 bytes (`chunksKept_iff`). With such events the chunker is
the one of `YHnet` (`WaveInBuffer.chunks_args`).

Other parties take elements out in between; nothing that is put in depends on it.
-/

namespace YHAudioLink

open Runs

/-! ### The arguments and the elements -/

/-- `WaveInEventArgs`: of the bytes in the buffer, the first `bytesRecorded` were recorded. -/
structure WaveInEventArgs where
  buffer : List UInt8
  bytesRecorded : ℕ
  le_length : bytesRecorded ≤ buffer.length

/-- What was recorded. -/
def WaveInEventArgs.recorded (e : WaveInEventArgs) : List UInt8 := e.buffer.take e.bytesRecorded

/-- The bytes of an element that its readers look at: the first `m_len` of `m_data`. -/
def YHElement.chunk (e : YHElement) : List UInt8 := (e.mData.getD []).take e.mLen.toNat

namespace YHElement

/-- **An element of bytes** that are as long as the length says, where the array has room for
them. -/
def ofBytes (bytes : List UInt8) : YHElement :=
  ⟨some (bytes ++ List.replicate (4096 - bytes.length) 0), bytes.length⟩

@[simp] theorem chunk_ofBytes (bytes : List UInt8) : (ofBytes bytes).chunk = bytes := by
  show (bytes ++ List.replicate (4096 - bytes.length) 0).take bytes.length = bytes
  exact List.take_left

/-- `new YHElement(data, len)` copies the first `len` bytes, where the data have as many and the
array has room. -/
theorem new_eq_ofBytes {data : List UInt8} {len : ℤ} (hpos : 0 ≤ len) (hlen : len ≤ data.length)
    (hmax : len ≤ 4096) : new (some data) len = some (ofBytes (data.take len.toNat)) := by
  have htake : (data.take len.toNat).length = len.toNat := List.length_take_of_le (by omega)
  rw [new, if_pos ⟨hpos, hlen, hmax⟩, ofBytes, htake, Int.toNat_of_nonneg hpos]

/-- `Array.Copy` throws where the data are too short. -/
theorem new_eq_none {data : List UInt8} {len : ℤ} (hlen : data.length < len) :
    new (some data) len = none := by
  have hshort : ¬ (0 ≤ len ∧ len ≤ data.length ∧ len ≤ 4096) := by omega
  rw [new, if_neg hshort]

end YHElement

/-! ### The recorder's side of `YHnet` -/

/-- What `waveIn_DataAvailable` works on, and the elements it has put into the queue, oldest
first. -/
structure Recorder where
  /-- `m_is_line_snd`. -/
  mIsLineSnd : Bool
  /-- `m_queue_rec`. -/
  mQueueRec : List YHElement
  enqueued : List YHElement

namespace Recorder

/-- `Start` has cleared the queue, and no callback has come. -/
def initial : Recorder := ⟨false, [], []⟩

/-- An element goes into the queue of three, which drops its oldest if it is full. -/
def put (s : Recorder) (e : YHElement) : Recorder :=
  { s with
    mQueueRec := (if s.mQueueRec.length = 3 then s.mQueueRec.tail else s.mQueueRec) ++ [e]
    enqueued := s.enqueued ++ [e] }

/-- `m_queue_rec.Enqueue(data, len)`; `none` where making the element throws. -/
def enqueue (s : Recorder) (data : List UInt8) (len : ℤ) : Option Recorder :=
  (YHElement.new (some data) len).map s.put

/-- The header, with the first callback of a session. -/
def enqueueHeader (s : Recorder) : Option Recorder :=
  if s.mIsLineSnd then some s
  else
    let temp := getWavHeader
    enqueue { s with mIsLineSnd := true } temp temp.length

/-- `waveIn_DataAvailable`; `none` where it throws. -/
def waveInDataAvailable (s : Recorder) (e : WaveInEventArgs) : Option Recorder :=
  s.enqueueHeader.bind fun s ↦
    (s.enqueue e.buffer 800).bind fun s ↦
      s.enqueue ((e.buffer.drop 800).take 800) 800

end Recorder

/-- What happens to the queue. -/
inductive RecOp
  | dataAvailable (e : WaveInEventArgs)
  /-- `ThreadDoRec` takes the front. -/
  | dequeue

/-- One step; `none` where the callback throws. -/
def Recorder.step (s : Recorder) : RecOp → Option Recorder
  | .dataAvailable e => s.waveInDataAvailable e
  | .dequeue => some { s with mQueueRec := s.mQueueRec.tail }

/-- The events of a run. -/
def recordings (ops : List RecOp) : List WaveInEventArgs :=
  ops.filterMap fun
    | .dataAvailable e => some e
    | .dequeue => none

@[simp] theorem recordings_nil : recordings [] = [] := rfl

@[simp] theorem recordings_dataAvailable (e : WaveInEventArgs) (ops : List RecOp) :
    recordings (.dataAvailable e :: ops) = e :: recordings ops := rfl

@[simp] theorem recordings_dequeue (ops : List RecOp) :
    recordings (.dequeue :: ops) = recordings ops := rfl

theorem recordings_append (ops ops' : List RecOp) :
    recordings (ops ++ ops') = recordings ops ++ recordings ops' := List.filterMap_append

/-- **No recorded byte lost, invented or reordered**: no call throws; what has been put into the
queue is a header and chunks of at most 4096 bytes; and the chunks, one after the other, are what
the events recorded. -/
def ChunksKept (ops : List RecOp) : Prop :=
  ∃ t, exec Recorder.step .initial ops = some t ∧
    (∀ header ∈ t.enqueued.head?, header.chunk = getWavHeader) ∧
    (∀ c ∈ t.enqueued.tail, c.chunk.length ≤ 4096) ∧
    t.enqueued.tail.flatMap YHElement.chunk = (recordings ops).flatMap WaveInEventArgs.recorded

/-! ### A call -/

/-- The two blocks a call makes. -/
def WaveInEventArgs.blocks (e : WaveInEventArgs) : List YHElement :=
  [.ofBytes (e.buffer.take 800), .ofBytes ((e.buffer.drop 800).take 800)]

namespace Recorder

/-- Elements put in one after the other. -/
def putAll (s : Recorder) (es : List YHElement) : Recorder := es.foldl put s

@[simp] theorem enqueued_putAll (s : Recorder) (es : List YHElement) :
    (s.putAll es).enqueued = s.enqueued ++ es := by
  induction es generalizing s with
  | nil => exact (List.append_nil _).symm
  | cons e es ih =>
    show ((s.put e).putAll es).enqueued = _
    rw [ih, put, List.append_assoc]
    rfl

@[simp] theorem mIsLineSnd_putAll (s : Recorder) (es : List YHElement) :
    (s.putAll es).mIsLineSnd = s.mIsLineSnd := by
  induction es generalizing s with
  | nil => rfl
  | cons e es ih => exact ih (s.put e)

/-- The header comes once. -/
def headers (s : Recorder) : List YHElement :=
  if s.mIsLineSnd then [] else [.ofBytes getWavHeader]

theorem enqueueHeader_eq (s : Recorder) :
    s.enqueueHeader = some ({ s with mIsLineSnd := true }.putAll s.headers) := by
  rw [enqueueHeader, headers]
  split
  · next hsnd =>
    obtain ⟨snd, queue, enqueued⟩ := s
    obtain rfl : snd = true := hsnd
    rfl
  · have hmax : getWavHeader.length ≤ 4096 := by
      rw [PcMessage.length_getWavHeader]
      decide
    rw [enqueue, YHElement.new_eq_ofBytes (by omega) le_rfl (by omega), Int.toNat_natCast,
      List.take_length]
    rfl

/-- **A call** puts the header, if it is the first, and two blocks; it throws where the buffer has
fewer than 1600 bytes. -/
theorem waveInDataAvailable_eq (s : Recorder) (e : WaveInEventArgs) :
    s.waveInDataAvailable e =
      if 1600 ≤ e.buffer.length then
        some ({ s with mIsLineSnd := true }.putAll (s.headers ++ e.blocks))
      else none := by
  rw [waveInDataAvailable, enqueueHeader_eq, Option.bind_some]
  have hsecond : ((e.buffer.drop 800).take 800).length = min 800 (e.buffer.length - 800) := by
    rw [List.length_take, List.length_drop]
  split
  · next hlong =>
    have hfirst : YHElement.new (some e.buffer) 800 = some (.ofBytes (e.buffer.take 800)) :=
      YHElement.new_eq_ofBytes (by omega) (by omega) (by omega)
    have hrest : YHElement.new (some ((e.buffer.drop 800).take 800)) 800 =
        some (.ofBytes (((e.buffer.drop 800).take 800).take 800)) :=
      YHElement.new_eq_ofBytes (by omega) (by omega) (by omega)
    rw [List.take_take, Nat.min_self] at hrest
    rw [enqueue, hfirst, Option.map_some, Option.bind_some, enqueue, hrest, Option.map_some]
    simp only [putAll, WaveInEventArgs.blocks, List.foldl_append, List.foldl_cons, List.foldl_nil]
  · next hshort =>
    have hthrows : YHElement.new (some ((e.buffer.drop 800).take 800)) 800 = none :=
      YHElement.new_eq_none (by omega)
    refine Option.bind_eq_none_iff.2 fun t _ ↦ ?_
    rw [enqueue, hthrows, Option.map_none]

end Recorder

/-- The two blocks are the first 1600 bytes. -/
theorem WaveInEventArgs.flatMap_chunk_blocks (e : WaveInEventArgs) :
    e.blocks.flatMap YHElement.chunk = e.buffer.take 1600 := by
  have hsplit : e.buffer.take (800 + 800) = e.buffer.take 800 ++ (e.buffer.drop 800).take 800 :=
    List.take_add
  show e.blocks.flatMap YHElement.chunk = e.buffer.take (800 + 800)
  rw [hsplit]
  simp [blocks]

/-- **With full buffers the chunker is the one of `YHnet`**: the two blocks are the two halves. -/
theorem WaveInBuffer.chunks_args (e : WaveInBuffer) :
    (⟨e.bytes, 1600, e.length_eq.ge⟩ : WaveInEventArgs).blocks.map YHElement.chunk =
      [(PcMessage.pcm e.first).bytes, (PcMessage.pcm e.second).bytes] := by
  simp [WaveInEventArgs.blocks, PcMessage.bytes, WaveInBuffer.first, WaveInBuffer.second]

/-! ### A run -/

section Run

variable {s t : Recorder} {ops : List RecOp}

/-- The header that is due with the first of the events, if there is one. -/
def Recorder.headersBefore (s : Recorder) (es : List WaveInEventArgs) : List YHElement :=
  if es = [] then [] else s.headers

/-- **A run that does not throw** puts in a header, if one is due, and the blocks of its events. -/
theorem exec_of_long (hlong : ∀ e ∈ recordings ops, 1600 ≤ e.buffer.length) :
    ∃ t, exec Recorder.step s ops = some t ∧ t.enqueued = s.enqueued ++
      (s.headersBefore (recordings ops) ++ (recordings ops).flatMap WaveInEventArgs.blocks) := by
  induction ops generalizing s with
  | nil => exact ⟨s, rfl, by simp [Recorder.headersBefore]⟩
  | cons op ops ih =>
    rcases op with e | -
    · obtain ⟨he, hrest⟩ := List.forall_mem_cons.1 hlong
      have hstep : s.step (.dataAvailable e) = _ :=
        (s.waveInDataAvailable_eq e).trans (if_pos he)
      obtain ⟨t, hexec, ht⟩ := ih
        (s := { s with mIsLineSnd := true }.putAll (s.headers ++ e.blocks))
        hrest
      have hlater : ({ s with mIsLineSnd := true }.putAll (s.headers ++ e.blocks)).headersBefore
          (recordings ops) = [] := by
        simp [Recorder.headersBefore, Recorder.headers]
      refine ⟨t, exec_cons_eq_some.2 ⟨_, hstep, hexec⟩, ?_⟩
      rw [ht, hlater]
      simp [Recorder.headersBefore]
    · obtain ⟨t, hexec, ht⟩ := ih (s := { s with mQueueRec := s.mQueueRec.tail }) hlong
      exact ⟨t, exec_cons_eq_some.2 ⟨_, rfl, hexec⟩, ht⟩

/-- **A run throws** at its first buffer of fewer than 1600 bytes. -/
theorem long_of_exec (hexec : exec Recorder.step s ops = some t) :
    ∀ e ∈ recordings ops, 1600 ≤ e.buffer.length := by
  induction ops generalizing s with
  | nil => simp
  | cons op ops ih =>
    obtain ⟨u, hstep, hrest⟩ := exec_cons_eq_some.1 hexec
    rcases op with e | -
    · refine List.forall_mem_cons.2 ⟨?_, ih hrest⟩
      by_contra hshort
      have hthrows : s.step (.dataAvailable e) = none :=
        (s.waveInDataAvailable_eq e).trans (if_neg hshort)
      rw [hthrows] at hstep
      exact absurd hstep (by simp)
    · exact ih hrest

/-- What a run leaves in front of the chunks, and the chunks. -/
theorem initial_enqueued (es : List WaveInEventArgs) :
    (∀ header ∈ (Recorder.initial.headersBefore es ++ es.flatMap WaveInEventArgs.blocks).head?,
        header.chunk = getWavHeader) ∧
      (Recorder.initial.headersBefore es ++ es.flatMap WaveInEventArgs.blocks).tail =
        es.flatMap WaveInEventArgs.blocks := by
  cases es with
  | nil => simp [Recorder.headersBefore]
  | cons e es => simp [Recorder.headersBefore, Recorder.headers, Recorder.initial]

/-- No block is longer than its half. -/
theorem length_chunk_le {es : List WaveInEventArgs} {c : YHElement}
    (hc : c ∈ es.flatMap WaveInEventArgs.blocks) : c.chunk.length ≤ 4096 := by
  obtain ⟨e, -, hc⟩ := List.mem_flatMap.1 hc
  have hhalf : c.chunk.length ≤ 800 := by
    rcases List.mem_pair.1 hc with rfl | rfl
    · rw [YHElement.chunk_ofBytes, List.length_take]
      exact Nat.min_le_left _ _
    · rw [YHElement.chunk_ofBytes, List.length_take]
      exact Nat.min_le_left _ _
  omega

/-- The chunks of a run are the first 1600 bytes of each buffer. -/
theorem flatMap_chunk (es : List WaveInEventArgs) :
    (es.flatMap WaveInEventArgs.blocks).flatMap YHElement.chunk =
      es.flatMap fun e ↦ e.buffer.take 1600 := by
  rw [List.flatMap_assoc]
  exact congrArg (es.flatMap ·) (funext WaveInEventArgs.flatMap_chunk_blocks)

/-- **What the code does with a run**: it keeps it where no buffer is too short and the first 1600
bytes of the buffers happen to be what was recorded. -/
theorem chunksKept_iff_flatMap :
    ChunksKept ops ↔ (∀ e ∈ recordings ops, 1600 ≤ e.buffer.length) ∧
      ((recordings ops).flatMap fun e ↦ e.buffer.take 1600) =
        (recordings ops).flatMap WaveInEventArgs.recorded := by
  obtain ⟨hheader, htail⟩ := initial_enqueued (recordings ops)
  constructor
  · rintro ⟨t, hexec, -, -, hchunks⟩
    have hlong := long_of_exec hexec
    obtain ⟨t', hexec', ht⟩ := exec_of_long (s := Recorder.initial) hlong
    obtain rfl : t' = t := Option.some.inj (hexec'.symm.trans hexec)
    rw [ht, Recorder.initial, List.nil_append, ← Recorder.initial, htail, flatMap_chunk] at hchunks
    exact ⟨hlong, hchunks⟩
  · rintro ⟨hlong, hchunks⟩
    obtain ⟨t, hexec, ht⟩ := exec_of_long (s := Recorder.initial) hlong
    have ht : t.enqueued = Recorder.initial.headersBefore (recordings ops) ++
        (recordings ops).flatMap WaveInEventArgs.blocks := ht
    refine ⟨t, hexec, ?_, ?_, ?_⟩
    · rw [ht]
      exact hheader
    · rw [ht, htail]
      exact fun c hc ↦ length_chunk_le hc
    · rw [ht, htail, flatMap_chunk, hchunks]

end Run

/-- **The chunker keeps a run at every moment of it** exactly where every event has recorded 1600
bytes. -/
theorem chunksKept_iff (ops : List RecOp) :
    (∀ ops', ops' <+: ops → ChunksKept ops') ↔ ∀ e ∈ recordings ops, e.bytesRecorded = 1600 := by
  constructor
  · intro hkept e he
    obtain ⟨op, hop, hdata⟩ := List.mem_filterMap.1 he
    obtain ⟨before, behind, rfl⟩ := List.append_of_mem hop
    rcases op with e' | -
    · obtain rfl : e' = e := Option.some.inj hdata
      -- the run up to the event, and the run with it
      obtain ⟨-, hbefore⟩ := chunksKept_iff_flatMap.1 (hkept before (List.prefix_append _ _))
      obtain ⟨hlong, hwith⟩ := chunksKept_iff_flatMap.1
        (hkept (before ++ [.dataAvailable e']) ⟨behind, by simp⟩)
      have hlong : 1600 ≤ e'.buffer.length := hlong e' (by simp [recordings_append])
      simp only [recordings_append, recordings_dataAvailable, recordings_nil, List.flatMap_append,
        List.flatMap_singleton, hbefore] at hwith
      have hsame : e'.buffer.take 1600 = e'.recorded := List.append_cancel_left hwith
      have hlengths := congrArg List.length hsame
      rw [List.length_take_of_le hlong, WaveInEventArgs.recorded,
        List.length_take_of_le e'.le_length] at hlengths
      exact hlengths.symm
    · exact absurd hdata (by simp)
  · rintro hall ops' ⟨rest, rfl⟩
    have hall : ∀ e ∈ recordings ops', e.bytesRecorded = 1600 := fun e he ↦
      hall e (recordings_append ops' rest ▸ List.mem_append_left _ he)
    refine chunksKept_iff_flatMap.2 ⟨fun e he ↦ hall e he ▸ e.le_length, ?_⟩
    have hrecorded : ∀ e ∈ recordings ops', e.buffer.take 1600 = e.recorded := fun e he ↦ by
      rw [WaveInEventArgs.recorded, hall e he]
    exact List.flatMap_congr hrecorded

/-- The last buffer of a recording: 1000 of its 1600 bytes were recorded. -/
def partialBuffer : WaveInEventArgs := ⟨List.replicate 1600 0, 1000, by
  rw [List.length_replicate]
  decide⟩

/-- Of a partial buffer 600 bytes are sent that were not recorded. -/
theorem not_chunksKept : ¬ ∀ ops : List RecOp, ChunksKept ops := by
  intro hall
  obtain ⟨-, hbytes⟩ := chunksKept_iff_flatMap.1 (hall [.dataAvailable partialBuffer])
  rw [recordings_dataAvailable, recordings_nil, List.flatMap_singleton,
    List.flatMap_singleton] at hbytes
  have hlengths := congrArg List.length hbytes
  rw [WaveInEventArgs.recorded, List.length_take, List.length_take] at hlengths
  have hbuffer : partialBuffer.buffer.length = 1600 := List.length_replicate
  have hrecorded : partialBuffer.bytesRecorded = 1000 := rfl
  omega

end YHAudioLink
