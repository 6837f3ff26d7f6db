import YHAudioLink.Vs10xx.Codec

/-!
# Audio is delivered where `DREQ` stays high

`vs10xx_send_data` and `vs10xx_play_dma_send_data` cut a buffer into frames of 160 bytes and a last
one of what is left, and look at `DREQ` for each. Where the codec is found busy the frame is left
out: `VS_Send_MusicData` waits for `DREQ`, looks a second time, and answers 1 if it has gone low,
which nobody reads; `VS_Send_MusicData2` and the DMA version look once and go on.

Which readings decide is a property of the readings alone. For the DMA version all do; for the other
one those of each wait do not (`musicTests`). The law, `delivered_iff`, is that the buffer arrives,
every byte once and in its order, exactly where every deciding reading was high.

The loop of the whole frames is one proof for both (`logs_wholeFrames`), over what a single frame
adds to the log. Its invariant counts the frames sent against the readings, so that a frame left out
shows in the number of bytes.
-/

namespace YHAudioLink

open Programs

/-! ### What is asked -/

/-- **Complete delivery**: the codec was presented with `pbuff[0..len)`, in chunks that are not too
long. -/
structure Delivered (pbuff : ℕ → UInt8) (len : ℕ) (l : List CodecEvent) : Prop where
  bytes : (chunks l).flatten = frameAt pbuff 0 len
  short : ∀ c ∈ chunks l, c.length ≤ sendNumPerFrame

/-- The frames before the last one. -/
def wholeCount (len : ℕ) : ℕ := (len - 1) / sendNumPerFrame

/-- The readings `vs10xx_send_data` decides on, with `k` frames to go before the last: of each wait
nothing, and then one reading. -/
def musicTests : ℕ → List Bool → List Bool
  | 0, readings => readings
  | k + 1, readings =>
    match readings.dropWhile (!·) with
    | _ :: level :: rest => level :: musicTests k rest
    | _ => []

/-- The readings `vs10xx_play_dma_send_data` decides on. -/
def dmaTests (_ : ℕ) (readings : List Bool) : List Bool := readings

/-! ### Frames and the readings that decide on them -/

/-- A part of a buffer, and what follows it. -/
theorem frameAt_add (pbuff : ℕ → UInt8) (i m n : ℕ) :
    frameAt pbuff i (m + n) = frameAt pbuff i m ++ frameAt pbuff (i + m) n := by
  induction n with
  | zero => exact (List.append_nil _).symm
  | succ n ih => rw [← Nat.add_assoc, frameAt_add_one, ih, frameAt_add_one, List.append_assoc,
      Nat.add_assoc]

@[simp] theorem length_frameAt (pbuff : ℕ → UInt8) (i n : ℕ) : (frameAt pbuff i n).length = n := by
  rw [frameAt, List.length_map, List.length_range]

/-- **The whole frames sent so far**, with the readings that decided on them. -/
structure FramesSent (pbuff : ℕ → UInt8) (levels : List Bool) (l : List CodecEvent) : Prop where
  size : ∀ c ∈ chunks l, c.length = sendNumPerFrame
  count : (chunks l).length = levels.count true
  bytes : (∀ level ∈ levels, level = true) →
    (chunks l).flatten = frameAt pbuff 0 (sendNumPerFrame * levels.length)

theorem framesSent_nil (pbuff : ℕ → UInt8) : FramesSent pbuff [] [] :=
  ⟨fun _ h ↦ absurd h List.not_mem_nil, rfl, fun _ ↦ rfl⟩

/-- One more frame. -/
theorem FramesSent.snoc {pbuff : ℕ → UInt8} {levels : List Bool} {l l' : List CodecEvent}
    {level : Bool}
    (h : FramesSent pbuff levels l)
    (hl' : chunks l' =
      if level then [frameAt pbuff (sendNumPerFrame * levels.length) sendNumPerFrame] else []) :
    FramesSent pbuff (levels ++ [level]) (l ++ l') := by
  have hchunks : chunks (l ++ l') = chunks l ++ _ := (chunks_append l l').trans (by rw [hl'])
  refine ⟨fun c hc ↦ ?_, ?_, fun hlevels ↦ ?_⟩
  · rw [hchunks] at hc
    rcases List.mem_append.1 hc with hc | hc
    · exact h.size c hc
    · cases level with
      | false => cases hc
      | true =>
        rw [if_pos rfl, List.mem_singleton] at hc
        rw [hc, length_frameAt]
  · rw [hchunks, List.length_append, h.count, List.count_append]
    cases level <;> rfl
  · obtain rfl : level = true := hlevels level (by simp)
    have hbefore := h.bytes fun b hb ↦ hlevels b (List.mem_append_left _ hb)
    rw [hchunks, if_pos rfl, List.flatten_append, hbefore, List.flatten_singleton,
      List.length_append, List.length_singleton, Nat.mul_add, Nat.mul_one, frameAt_add,
      Nat.zero_add]

/-- Every frame has 160 bytes. -/
theorem FramesSent.length_flatten {pbuff : ℕ → UInt8} {levels : List Bool} {l : List CodecEvent}
    (h : FramesSent pbuff levels l) :
    (chunks l).flatten.length = sendNumPerFrame * levels.count true := by
  have hsizes : (chunks l).map List.length = List.replicate (chunks l).length sendNumPerFrame :=
    List.map_eq_replicate_iff.2 h.size
  rw [List.length_flatten, hsizes, List.sum_replicate_nat, h.count, Nat.mul_comm]

/-- **What was sent, with the last frame, is the buffer if every reading was high**, and otherwise
it is too short. -/
theorem FramesSent.delivered_iff {pbuff : ℕ → UInt8} {levels : List Bool} {l l' : List CodecEvent}
    {level : Bool} {len : ℕ} (h : FramesSent pbuff levels l)
    (hlt : sendNumPerFrame * levels.length < len)
    (hle : len ≤ sendNumPerFrame * levels.length + sendNumPerFrame)
    (hl' : chunks l' = if level then [frameAt pbuff (sendNumPerFrame * levels.length)
      (len - sendNumPerFrame * levels.length)] else []) :
    Delivered pbuff len (l ++ l') ↔ ∀ b ∈ levels ++ [level], b = true := by
  have hchunks : chunks (l ++ l') = chunks l ++ _ := (chunks_append l l').trans (by rw [hl'])
  constructor
  · intro hdel
    have hlength : (chunks (l ++ l')).flatten.length = len := by rw [hdel.bytes, length_frameAt]
    rw [hchunks, List.flatten_append, List.length_append, h.length_flatten] at hlength
    have hcount : levels.count true ≤ levels.length := List.count_le_length
    -- a frame left out is not made up for by the last one, nor the last one by the others
    cases level with
    | false =>
      rw [if_neg Bool.false_ne_true, List.flatten_nil, List.length_nil] at hlength
      have := Nat.mul_le_mul_left sendNumPerFrame hcount
      omega
    | true =>
      rw [if_pos rfl, List.flatten_singleton, length_frameAt] at hlength
      have hall : levels.count true = levels.length := by
        have : sendNumPerFrame * levels.count true = sendNumPerFrame * levels.length := by omega
        exact Nat.eq_of_mul_eq_mul_left (by decide) this
      intro b hb
      rcases List.mem_append.1 hb with hb | hb
      · exact (List.count_eq_length.1 hall b hb).symm
      · exact List.mem_singleton.1 hb
  · intro hall
    have hlevels := h.bytes fun b hb ↦ hall b (List.mem_append_left _ hb)
    obtain rfl : level = true := hall level (by simp)
    rw [if_pos rfl] at hchunks
    refine ⟨?_, fun c hc ↦ ?_⟩
    · rw [hchunks, List.flatten_append, hlevels, List.flatten_singleton]
      conv_rhs => rw [← Nat.add_sub_cancel' hlt.le, frameAt_add, Nat.zero_add]
    · rw [hchunks] at hc
      rcases List.mem_append.1 hc with hc | hc
      · exact (h.size c hc).le
      · rw [List.mem_singleton.1 hc, length_frameAt]
        omega

/-- What one frame adds: it is sent if the reading that decides on it is high. -/
def FrameLaw (tests : ℕ → List Bool → List Bool) (bytes : List UInt8) (l : List CodecEvent) :
    Prop :=
  ∃ level, (chunks l = if level then [bytes] else []) ∧
    ∀ k rest, tests (k + 1) (dqReadings l ++ rest) = level :: tests k rest

/-- What the last frame adds. -/
def LastLaw (bytes : List UInt8) (l : List CodecEvent) : Prop :=
  ∃ level, (chunks l = if level then [bytes] else []) ∧ dqReadings l = [level]

section

variable {tests : ℕ → List Bool → List Bool} {pbuff : ℕ → UInt8} {chunk : ℕ → Vs Unit}
  {last : ℕ → Vs Unit}

/-- **The loop of the whole frames.** -/
theorem logs_wholeFrames (fuel len : ℕ)
    (hchunk : ∀ i, Logs false (chunk i) fun _ l ↦
      FrameLaw tests (frameAt pbuff i sendNumPerFrame) l) :
    Logs false (wholeFrames fuel chunk len) fun i l ↦ ∃ levels : List Bool,
      levels.length = wholeCount len ∧ i = sendNumPerFrame * levels.length ∧
      FramesSent pbuff levels l ∧
      ∀ k rest, tests (levels.length + k) (dqReadings l ++ rest) = levels ++ tests k rest := by
  -- whenever the body begins, one reading has decided on each frame so far
  let J : ℕ → List CodecEvent → Prop := fun i l ↦ ∃ levels : List Bool,
    (i = 0 ∨ i < len) ∧ i = sendNumPerFrame * levels.length ∧ FramesSent pbuff levels l ∧
    ∀ k rest, tests (levels.length + k) (dqReadings l ++ rest) = levels ++ tests k rest
  refine .loop (J := J) (fun _ _ _ ↦ logs_outOfFuel) ?_
    ⟨[], .inl rfl, rfl, framesSent_nil pbuff,
      fun k rest ↦ by rw [List.length_nil, Nat.zero_add]; rfl⟩
  rintro i l ⟨levels, hi, hcount, hsent, htests⟩
  split
  · next hlt =>
    refine .bind (hchunk i) ?_
    rintro - l' ⟨level, hl', htest⟩
    have hi' : i + sendNumPerFrame = sendNumPerFrame * (levels ++ [level]).length := by
      rw [List.length_append, List.length_singleton, Nat.mul_add, Nat.mul_one, hcount]
    refine .again ⟨levels ++ [level], .inr (by omega), hi', ?_, fun k rest ↦ ?_⟩
    · rw [List.append_nil]
      exact hsent.snoc (hcount ▸ hl')
    · rw [List.append_nil, dqReadings_append, List.append_assoc, List.length_append,
        List.length_singleton, Nat.add_assoc, htests, Nat.add_comm 1 k, htest, List.append_assoc]
      rfl
  · next hlt =>
    -- what is left is one frame, or part of one
    refine .leave ?_
    rw [List.append_nil]
    refine ⟨levels, ?_, hcount, hsent, htests⟩
    have hlen : len ≤ i + 160 := by
      have : ¬ (i : ℤ) < len - 160 := hlt
      omega
    have hdiv : levels.length = (len - 1) / 160 := by
      have hi160 : i = 160 * levels.length := hcount
      omega
    exact hdiv

/-- **The two senders**, over what they do for one frame. -/
theorem logs_send (fuel len : ℕ) (htests : ∀ readings, tests 0 readings = readings)
    (hchunk : ∀ i, Logs false (chunk i) fun _ l ↦
      FrameLaw tests (frameAt pbuff i sendNumPerFrame) l)
    (hlast : ∀ i < len, len ≤ i + sendNumPerFrame →
      Logs false (last i) fun _ l ↦ LastLaw (frameAt pbuff i (len - i)) l) :
    Logs false (do
      let i ← wholeFrames fuel chunk len
      if (i : ℤ) < len then last i else pure ()) fun _ l ↦
      (Delivered pbuff len l ↔
        ∀ level ∈ tests (wholeCount len) (dqReadings l), level = true) := by
  refine .bind (logs_wholeFrames fuel len hchunk) ?_
  rintro _ l ⟨levels, hcount, rfl, hsent, hread⟩
  have hdiv : levels.length = (len - 1) / 160 := hcount
  split
  · next hlt =>
    have hlt' : 160 * levels.length < len := by
      have : ((160 * levels.length : ℕ) : ℤ) < len := hlt
      omega
    have hle : len ≤ 160 * levels.length + 160 := by omega
    refine (hlast _ hlt' hle).mono ?_
    rintro - l' ⟨level, hl', hlevel⟩
    have hall : tests (wholeCount len) (dqReadings (l ++ l')) = levels ++ [level] := by
      have := hread 0 [level]
      rwa [Nat.add_zero, htests, hcount, ← hlevel, ← dqReadings_append, hlevel] at this
    rw [hall]
    exact hsent.delivered_iff hlt' hle hl'
  · next hlt =>
    -- only the empty buffer has no last frame
    obtain rfl : len = 0 := by
      have : ¬ ((160 * levels.length : ℕ) : ℤ) < len := hlt
      omega
    obtain rfl : levels = [] := List.eq_nil_of_length_eq_zero hcount
    have hnone : chunks l = [] := List.eq_nil_of_length_eq_zero hsent.count
    have hall : tests (wholeCount 0) (dqReadings (l ++ [])) = [] := by
      have := hread 0 []
      rw [htests, List.append_nil] at this
      rw [List.append_nil]
      exact this
    refine .pure ?_
    rw [hall, List.append_nil]
    refine ⟨fun _ _ h ↦ absurd h List.not_mem_nil, fun _ ↦ ⟨?_, fun c hc ↦ ?_⟩⟩
    · rw [hnone]
      rfl
    · rw [hnone] at hc
      exact absurd hc List.not_mem_nil

end

/-! ### The two functions -/

/-- A part of a buffer is the beginning of the rest of it. -/
theorem frameAt_shift (pbuff : ℕ → UInt8) (i n : ℕ) :
    frameAt (fun k ↦ pbuff (i + k)) 0 n = frameAt pbuff i n := by
  simp only [frameAt, Nat.zero_add]

/-- A wait and the reading after it: the second one decides. -/
theorem musicTests_succ (k n : ℕ) (level : Bool) (rest : List Bool) :
    musicTests (k + 1) (List.replicate n false ++ true :: level :: rest) =
      level :: musicTests k rest := by
  have hdrop : (List.replicate n false ++ true :: level :: rest).dropWhile (!·) =
      true :: level :: rest := by
    induction n with
    | zero => rfl
    | succ n ih => exact ih
  rw [musicTests, hdrop]

/-- **One frame of `vs10xx_send_data`.** -/
theorem frameLaw_musicData (bytes : List UInt8) (n : ℕ) (level : Bool) :
    FrameLaw musicTests bytes (musicData n level bytes) := by
  refine ⟨level, ?_, fun k rest ↦ ?_⟩
  · rw [musicData, chunks_append, chunks_waited, List.nil_append]
    cases level <;> rfl
  · have hreadings : dqReadings (musicData n level bytes) =
        List.replicate n false ++ [true, level] := by
      rw [musicData, dqReadings_append, dqReadings_waited, List.append_assoc]
      cases level <;> rfl
    rw [hreadings, List.append_assoc]
    exact musicTests_succ k n level rest

/-- A frame that one reading decides on. -/
theorem chunks_dmaData (level : Bool) (bytes : List UInt8) :
    chunks (dmaData level bytes) = (if level then [bytes] else []) ∧
      dqReadings (dmaData level bytes) = [level] := by
  cases level <;> exact ⟨rfl, rfl⟩

/-- **`vs10xx_send_data`.** -/
theorem logs_sendData (fuel : ℕ) (pbuff : ℕ → UInt8) (len : ℕ) :
    Logs false (vs10xxSendData fuel pbuff len) fun _ l ↦
      (Delivered pbuff len l ↔
        ∀ level ∈ musicTests (wholeCount len) (dqReadings l), level = true) := by
  refine logs_send fuel len (fun _ ↦ rfl) (fun i ↦ ?_) fun i hlt hle ↦ ?_
  · refine .bind (logs_sendMusicData fuel _) ?_
    rintro _ _ ⟨n, level, rfl, rfl⟩
    refine .pure ?_
    rw [List.append_nil, frameAt_shift]
    exact frameLaw_musicData _ n level
  · have hcast : (len : ℤ) - i = ((len - i : ℕ) : ℤ) := by omega
    have hsmall : len ≤ i + 160 := hle
    rw [hcast]
    refine .bind (logs_sendMusicData2 fuel _ (by omega) (by omega)) ?_
    rintro _ _ ⟨level, rfl⟩
    refine .pure ?_
    rw [List.append_nil, frameAt_shift]
    exact ⟨level, by cases level <;> exact ⟨rfl, rfl⟩⟩

/-- **`vs10xx_play_dma_send_data`.** -/
theorem logs_dmaSendData (fuel : ℕ) (pbuff : ℕ → UInt8) (len : ℕ) :
    Logs false (vs10xxPlayDmaSendData fuel pbuff len) fun _ l ↦
      (Delivered pbuff len l ↔
        ∀ level ∈ dmaTests (wholeCount len) (dqReadings l), level = true) := by
  refine logs_send fuel len (fun _ ↦ rfl) (fun i ↦ ?_) fun i hlt hle ↦ ?_
  · refine (logs_dmaFrame pbuff i).mono ?_
    rintro - _ ⟨level, rfl⟩
    obtain ⟨hchunks, hread⟩ := chunks_dmaData level (frameAt pbuff i sendNumPerFrame)
    exact ⟨level, hchunks, fun k rest ↦ by rw [hread]; rfl⟩
  · have hcast : ((len : ℤ) - i).toNat = len - i := by omega
    rw [hcast]
    refine (logs_dmaLast pbuff i (len - i)).mono ?_
    rintro - _ ⟨level, rfl⟩
    exact ⟨level, chunks_dmaData level _⟩

/-- **A buffer is delivered exactly where the readings that decide are high.** -/
theorem delivered_iff_tests_high (pbuff : ℕ → UInt8) (len : ℕ) :
    (∀ fuel s tr t, Codec.Idle false s → s.log = [] →
      Returns Codec.step (vs10xxSendData fuel pbuff len) s tr () t →
      (Delivered pbuff len t.log ↔
        ∀ level ∈ musicTests (wholeCount len) (dqReadings t.log), level = true)) ∧
    ∀ fuel s tr t, Codec.Idle false s → s.log = [] →
      Returns Codec.step (vs10xxPlayDmaSendData fuel pbuff len) s tr () t →
      (Delivered pbuff len t.log ↔
        ∀ level ∈ dmaTests (wholeCount len) (dqReadings t.log), level = true) := by
  refine ⟨fun fuel s tr t hs hlog hrun ↦ ?_, fun fuel s tr t hs hlog hrun ↦ ?_⟩
  · obtain ⟨-, l, hadd, hl⟩ := (logs_sendData fuel pbuff len).of_returns hs hrun
    rw [hlog, List.nil_append] at hadd
    rw [hadd]
    exact hl
  · obtain ⟨-, l, hadd, hl⟩ := (logs_dmaSendData fuel pbuff len).of_returns hs hrun
    rw [hlog, List.nil_append] at hadd
    rw [hadd]
    exact hl

/-- A codec with `DREQ` high. -/
def highAnswers (_ : Codec) : (o : VsOp) → Option (VsOp.Ans o)
  | .dq => some true
  | .readWriteByte _ _ => some (0 : UInt8)
  | .outOfFuel => none
  | .rst _ | .xcs _ | .xdcs _ | .speedLow | .speedHigh | .fillDma _ | .startDma _ | .delayMs _
  | .delayUs _ | .timeDly _ => some ()

/-- Two whole frames and one byte, with `DREQ` high. -/
theorem delivered_three_frames :
    (∃ tr t, Returns Codec.step (vs10xxSendData 4 UInt8.ofNat 321) Codec.quiet tr () t ∧
      Delivered UInt8.ofNat 321 t.log) ∧
    ∃ tr t, Returns Codec.step (vs10xxPlayDmaSendData 4 UInt8.ofNat 321) Codec.quiet tr () t ∧
      Delivered UInt8.ofNat 321 t.log := by
  have hnext : ∀ s e, Codec.step s e (s.next e) := fun _ _ ↦ rfl
  constructor
  · obtain ⟨⟨tr, ⟨⟩, t⟩, hrun, htests⟩ := Option.map_eq_some_iff.1
      (show (tryPlay highAnswers Codec.next (vs10xxSendData 4 UInt8.ofNat 321) Codec.quiet).map
        (fun r ↦ musicTests (wholeCount 321) (dqReadings r.2.2.log)) = some [true, true, true] by
          decide +kernel)
    have hreturns : Returns Codec.step (vs10xxSendData 4 UInt8.ofNat 321) Codec.quiet
        tr () t := returns_tryPlay hnext hrun
    refine ⟨tr, t, hreturns, ?_⟩
    refine ((delivered_iff_tests_high _ 321).1 4 _ _ _ Codec.quiet_idle rfl hreturns).2 ?_
    rw [htests]
    decide
  · obtain ⟨⟨tr, ⟨⟩, t⟩, hrun, htests⟩ := Option.map_eq_some_iff.1
      (show (tryPlay highAnswers Codec.next (vs10xxPlayDmaSendData 4 UInt8.ofNat 321)
        Codec.quiet).map (fun r ↦ dmaTests (wholeCount 321) (dqReadings r.2.2.log)) =
          some [true, true, true] by decide +kernel)
    have hreturns : Returns Codec.step (vs10xxPlayDmaSendData 4 UInt8.ofNat 321) Codec.quiet
        tr () t := returns_tryPlay hnext hrun
    refine ⟨tr, t, hreturns, ?_⟩
    refine ((delivered_iff_tests_high _ 321).2 4 _ _ _ Codec.quiet_idle rfl hreturns).2 ?_
    rw [htests]
    decide

/-- Every run that returns has delivered its buffer. -/
def Delivers (send : ℕ → (ℕ → UInt8) → ℤ → Vs Unit) : Prop :=
  ∀ fuel pbuff (len : ℕ) s tr t, Codec.Idle false s → s.log = [] →
    Returns Codec.step (send fuel pbuff len) s tr () t → Delivered pbuff len t.log

/-- One byte, with `DREQ` low: both functions return and have sent nothing. -/
theorem not_delivers : ¬ Delivers vs10xxSendData ∧ ¬ Delivers vs10xxPlayDmaSendData := by
  have hnone {l : List CodecEvent} (hl : chunks l = []) : ¬ Delivered (fun _ ↦ 7) 1 l := by
    intro h
    have := h.bytes
    rw [hl] at this
    cases this
  constructor
  · intro h
    refine hnone ?_ (h 1 (fun _ ↦ 7) 1 Codec.quiet [⟨.dq, false⟩] _ Codec.quiet_idle rfl
      (.call rfl (.refl _ _)))
    rfl
  · intro h
    refine hnone ?_ (h 1 (fun _ ↦ 7) 1 Codec.quiet
      [⟨.fillDma [7], ()⟩, ⟨.dq, false⟩, ⟨.timeDly 2, ()⟩] _ Codec.quiet_idle rfl
      (.call rfl (.call rfl (.call rfl (.refl _ _)))))
    rfl

end YHAudioLink
