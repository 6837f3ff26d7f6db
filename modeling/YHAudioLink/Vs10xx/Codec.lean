import YHAudioLink.Foundation.Emissions
import YHAudioLink.Vs10xx.Driver

/-!
# What the codec sees

The other end of the driver's wires. The codec takes what is clocked while one of its ports is
selected: four bytes under `XCS` are a command, to read or to write a register, and it is carried
out when `XCS` rises; bytes under `XDCS` are a frame of audio, and so is what a DMA transfer sends.
A byte clocked with neither port selected is stray. The log is what the codec has seen, with the
levels of `DREQ` that were read in between.

Nothing is assumed about the codec: a byte is answered by any byte, and `DREQ` is read as any level.
The laws say what each function of the driver adds to the log, and they are as exact as the
function: a function that waits adds some readings of a low `DREQ` and one of a high one.
-/

namespace YHAudioLink

open Programs

/-! ### The machine -/

/-- What the codec sees. -/
inductive CodecEvent
  /-- A register is read, with what the codec answered. -/
  | read (address : UInt8) (value : UInt16)
  /-- A register is written. -/
  | write (address : UInt8) (value : UInt16)
  /-- What was clocked while the data port was selected. -/
  | frame (bytes : List UInt8)
  /-- A DMA transfer to the data port. -/
  | dma (bytes : List UInt8)
  /-- A byte with neither port selected. -/
  | stray (data : UInt8)
  /-- A reading of `DREQ`. -/
  | dq (level : Bool)
  /-- The reset line. -/
  | rst (stat : Bool)
  deriving DecidableEq

/-- Two bytes of a command, the high one first. -/
def joinBytes (hi lo : UInt8) : UInt16 := hi.toUInt16 <<< 8 + lo.toUInt16

/-- The lines, what has been clocked since a port was selected (each byte of a command with its
answer), `vs10xx_play_dma_buff`, and the log. -/
structure Codec where
  xcs : Bool
  xdcs : Bool
  command : List (UInt8 × UInt8)
  frame : List UInt8
  dmaBuff : List UInt8
  log : List CodecEvent
  deriving DecidableEq

namespace Codec

/-- The command that four bytes are. -/
def decode : List (UInt8 × UInt8) → List CodecEvent
  | [(opcode, _), (address, _), hi, lo] =>
    if opcode = vsWriteCommand then [.write address (joinBytes hi.1 lo.1)]
    else if opcode = vsReadCommand then [.read address (joinBytes hi.2 lo.2)]
    else []
  | _ => []

/-- What is seen of a frame when the port is deselected. -/
def closeFrame : List UInt8 → List CodecEvent
  | [] => []
  | b :: bytes => [.frame (b :: bytes)]

/-- A byte goes to the ports that are selected. -/
def byte (s : Codec) (out answer : UInt8) : Codec :=
  { s with
    command := if s.xcs then s.command else s.command ++ [(out, answer)]
    frame := if s.xdcs then s.frame else s.frame ++ [out]
    log := if s.xcs && s.xdcs then s.log ++ [.stray out] else s.log }

/-- One call of the driver with its answer. -/
def next (s : Codec) : Event VsOp VsOp.Ans → Codec
  | ⟨.rst stat, _⟩ => { s with log := s.log ++ [.rst stat] }
  | ⟨.xcs true, _⟩ => { s with xcs := true, command := [], log := s.log ++ decode s.command }
  | ⟨.xcs false, _⟩ => { s with xcs := false }
  | ⟨.xdcs true, _⟩ => { s with xdcs := true, frame := [], log := s.log ++ closeFrame s.frame }
  | ⟨.xdcs false, _⟩ => { s with xdcs := false }
  | ⟨.readWriteByte _ data, answer⟩ => s.byte data answer
  | ⟨.dq, level⟩ => { s with log := s.log ++ [.dq level] }
  | ⟨.fillDma bytes, _⟩ => { s with dmaBuff := bytes ++ s.dmaBuff.drop bytes.length }
  | ⟨.startDma cndtr, _⟩ =>
    if s.xdcs then s else { s with log := s.log ++ [.dma (s.dmaBuff.take cndtr)] }
  | _ => s

/-- The codec with the driver on its wires: any answer is possible. -/
def step (s : Codec) (e : Event VsOp VsOp.Ans) (t : Codec) : Prop := t = s.next e

/-- Between two functions of the driver: no command is being clocked, and no frame. With `both` set
the data port is not selected either. -/
structure Idle (both : Bool) (s : Codec) : Prop where
  xcs : s.xcs = true
  command : s.command = []
  frame : s.frame = []
  xdcs : both = true → s.xdcs = true

theorem Idle.mono {both : Bool} {s : Codec} (h : s.Idle true) : s.Idle both :=
  ⟨h.xcs, h.command, h.frame, fun _ ↦ h.xdcs rfl⟩

theorem Idle.weaken {both : Bool} {s : Codec} (h : s.Idle both) : s.Idle false :=
  ⟨h.xcs, h.command, h.frame, fun hb ↦ by cases hb⟩

/-- What is added to the log leaves the codec idle. -/
theorem Idle.add {both : Bool} {s : Codec} (h : s.Idle both) (l : List CodecEvent) :
    Idle both { s with log := s.log ++ l } :=
  ⟨h.xcs, h.command, h.frame, h.xdcs⟩

/-- The codec before anything has been sent. -/
def quiet : Codec where
  xcs := true
  xdcs := true
  command := []
  frame := []
  dmaBuff := []
  log := []

theorem quiet_idle {both : Bool} : quiet.Idle both := ⟨rfl, rfl, rfl, fun _ ↦ rfl⟩

end Codec

/-! ### Views of the log -/

namespace CodecEvent

/-- The chunk of audio an event presents to the codec. -/
def chunk? : CodecEvent → Option (List UInt8)
  | frame bytes => some bytes
  | dma bytes => some bytes
  | _ => none

/-- The level an event reads. -/
def level? : CodecEvent → Option Bool
  | dq level => some level
  | _ => none

/-- The register an event accesses. -/
def register? : CodecEvent → Option UInt8
  | read address _ => some address
  | write address _ => some address
  | _ => none

end CodecEvent

/-- The chunks of audio the codec was presented with. -/
def chunks (l : List CodecEvent) : List (List UInt8) := l.filterMap CodecEvent.chunk?

/-- The readings of `DREQ`. -/
def dqReadings (l : List CodecEvent) : List Bool := l.filterMap CodecEvent.level?

/-- The log without the readings of `DREQ`. -/
def visible (l : List CodecEvent) : List CodecEvent := l.filter (·.level?.isNone)

theorem visible_append (l l' : List CodecEvent) : visible (l ++ l') = visible l ++ visible l' :=
  List.filter_append _ _

@[simp] theorem chunks_append (l l' : List CodecEvent) : chunks (l ++ l') = chunks l ++ chunks l' :=
  List.filterMap_append

@[simp] theorem dqReadings_append (l l' : List CodecEvent) :
    dqReadings (l ++ l') = dqReadings l ++ dqReadings l' :=
  List.filterMap_append

/-! ### Rules -/

/-- What a function adds to the log, from an idle state to an idle state. -/
abbrev Logs {α : Type} (both : Bool) (p : Vs α) (R : α → List CodecEvent → Prop) : Prop :=
  Emits Codec.step (Codec.Idle both) Codec.log p R

/-- A call of the hardware, and the program goes on from each of its outcomes. -/
theorem wp_codec_bind {α : Type} {o : VsOp} {f : VsOp.Ans o → Vs α} {Q : α → Codec → Prop}
    {s : Codec}
    (h : ∀ r, wp Codec.step anyOp (f r) Q (s.next ⟨o, r⟩)) :
    wp Codec.step anyOp (vs o >>= f) Q s := by
  rw [wp_bind]
  refine ⟨trivial, ?_⟩
  rintro r t rfl
  exact h r

/-- Nothing comes after the bound of a loop. -/
theorem wp_codec_outOfFuel {α : Type} {Q : α → Codec → Prop} {s : Codec} :
    wp Codec.step anyOp outOfFuel Q s :=
  ⟨trivial, fun e ↦ e.elim⟩

theorem logs_outOfFuel {both : Bool} {α : Type} {R : α → List CodecEvent → Prop} :
    Logs both (outOfFuel : Vs α) R :=
  fun _ _ ↦ wp_codec_outOfFuel

section

variable {both : Bool}

/-- The calls the codec does not see. -/
theorem logs_unseen {o : VsOp} (h : ∀ (s : Codec) r, s.next ⟨o, r⟩ = s) :
    Logs both (vs o) fun _ l ↦ l = [] := by
  refine .perform fun s r t hs hst ↦ ?_
  obtain rfl : t = s := hst.trans (h s r)
  exact ⟨hs, [], (List.append_nil _).symm, rfl⟩

/-- A reading of `DREQ`. -/
theorem logs_dq : Logs both (vs .dq) fun level l ↦ l = [.dq level] := by
  refine .perform ?_
  rintro s level _ hs rfl
  exact ⟨hs.add _, _, rfl, rfl⟩

/-- What a wait adds: `n` readings of a low `DREQ`, and one of a high one. -/
def waited (n : ℕ) : List CodecEvent := List.replicate n (.dq false) ++ [.dq true]

@[simp] theorem chunks_waited (n : ℕ) : chunks (waited n) = [] := by
  have hlow : chunks (List.replicate n (.dq false)) = [] := List.filterMap_replicate_of_none rfl
  rw [waited, chunks_append, hlow]
  rfl

@[simp] theorem dqReadings_waited (n : ℕ) :
    dqReadings (waited n) = List.replicate n false ++ [true] := by
  have hlow : dqReadings (List.replicate n (.dq false)) = List.replicate n false :=
    List.filterMap_replicate_of_some rfl
  rw [waited, dqReadings_append, hlow]
  rfl

theorem visible_waited (n : ℕ) : visible (waited n) = [] := by
  refine List.filter_eq_nil_iff.2 fun e he ↦ ?_
  rcases List.mem_append.1 he with he | he
  · rw [List.eq_of_mem_replicate he]
    exact Bool.false_ne_true
  · rw [List.mem_singleton.1 he]
    exact Bool.false_ne_true

theorem logs_waitDq (fuel : ℕ) : Logs both (vsWaitDq fuel) fun _ l ↦ ∃ n, l = waited n := by
  let J : Unit → List CodecEvent → Prop := fun _ l ↦ ∃ n, l = List.replicate n (.dq false)
  refine .loop (J := J) (fun _ _ _ ↦ logs_outOfFuel) ?_ ⟨0, rfl⟩
  rintro - l ⟨n, rfl⟩
  refine .bind logs_dq ?_
  rintro level _ rfl
  cases level with
  | true =>
    refine .leave ⟨n, ?_⟩
    rw [List.append_nil]
    rfl
  | false =>
    refine .again ⟨n + 1, ?_⟩
    rw [List.append_nil, List.replicate_succ']

end

/-! ### Commands -/

/-- The bytes of a word, joined again. -/
theorem joinBytes_split (data : UInt16) : joinBytes (data >>> 8).toUInt8 data.toUInt8 = data := by
  have hlt : data.toNat < 65536 := data.toNat_lt
  apply UInt16.toNat_inj.1
  simp only [joinBytes, UInt16.toNat_add, UInt16.toNat_shiftLeft, UInt8.toNat_toUInt16,
    UInt16.toNat_toUInt8, UInt16.toNat_shiftRight]
  rw [show UInt16.toNat 8 % 16 = 8 from rfl, Nat.shiftRight_eq_div_pow, Nat.shiftLeft_eq]
  omega

section

variable {both : Bool} (fuel : ℕ)

/-- **A command**, from the wait before it on. Both lines are high after it, however `XDCS` was
found. -/
theorem wp_codec_command {α : Type} {b₀ b₁ b₂ b₃ : UInt8} {f : UInt8 → UInt8 → α} {s : Codec}
    (h : s.Idle false) :
    wp Codec.step anyOp (do
      vsWaitDq fuel
      vs .speedLow
      vs (.xdcs true)
      vs (.xcs false)
      let _ ← vs (.readWriteByte .command b₀)
      let _ ← vs (.readWriteByte .command b₁)
      let hi : UInt8 ← vs (.readWriteByte .command b₂)
      let lo : UInt8 ← vs (.readWriteByte .command b₃)
      vs (.xcs true)
      vs .speedHigh
      pure (f hi lo) : Vs α) (fun a t ↦ t.Idle true ∧ ∃ n a₀ a₁ hi lo, a = f hi lo ∧
        t.log = s.log ++
          (waited n ++ Codec.decode [(b₀, a₀), (b₁, a₁), (b₂, hi), (b₃, lo)])) s := by
  rw [wp_bind]
  refine wp_mono (logs_waitDq fuel s h) ?_
  rintro - t ⟨ht, l, hlog, n, rfl⟩
  refine wp_codec_bind fun _ ↦ wp_codec_bind fun _ ↦ wp_codec_bind fun _ ↦ ?_
  refine wp_codec_bind fun a₀ ↦ wp_codec_bind fun a₁ ↦ wp_codec_bind fun hi ↦ ?_
  refine wp_codec_bind fun lo ↦ wp_codec_bind fun _ ↦ wp_codec_bind fun _ ↦ ?_
  refine ⟨⟨rfl, rfl, rfl, fun _ ↦ rfl⟩, n, a₀, a₁, hi, lo, rfl, ?_⟩
  have hcmd : t.command = [] := ht.command
  have hframe : t.frame = [] := ht.frame
  simp [Codec.next, Codec.byte, hcmd, hframe, hlog, Codec.closeFrame]

/-- **`VS_WR_Cmd`** is a wait and a write. -/
theorem wp_codec_wrCmd {s : Codec} (h : s.Idle false) (address : UInt8) (data : UInt16) :
    wp Codec.step anyOp (vsWrCmd fuel address data) (fun _ t ↦ t.Idle true ∧
      ∃ n, t.log = s.log ++ (waited n ++ [.write address data])) s := by
  refine wp_mono (wp_codec_command fuel (f := fun _ _ ↦ ()) h) ?_
  rintro - t ⟨ht, n, a₀, a₁, hi, lo, -, hlog⟩
  refine ⟨ht, n, ?_⟩
  rw [hlog, Codec.decode, if_pos rfl, joinBytes_split]

/-- **`VS_RD_Reg`** is a wait and a read, and returns what the codec answered. -/
theorem wp_codec_rdReg {s : Codec} (h : s.Idle false) (address : UInt8) :
    wp Codec.step anyOp (vsRdReg fuel address) (fun v t ↦ t.Idle true ∧
      ∃ n, t.log = s.log ++ (waited n ++ [.read address v])) s := by
  refine wp_mono (wp_codec_command fuel (f := joinBytes) h) ?_
  rintro _ t ⟨ht, n, a₀, a₁, hi, lo, rfl, hlog⟩
  exact ⟨ht, n, hlog⟩

theorem logs_wrCmd (address : UInt8) (data : UInt16) :
    Logs both (vsWrCmd fuel address data) fun _ l ↦ ∃ n, l = waited n ++ [.write address data] := by
  refine fun s hs ↦ wp_mono (wp_codec_wrCmd fuel (hs.weaken) address data) ?_
  rintro - t ⟨ht, n, hlog⟩
  exact ⟨ht.mono, _, hlog, n, rfl⟩

theorem logs_rdReg (address : UInt8) :
    Logs both (vsRdReg fuel address) fun v l ↦ ∃ n, l = waited n ++ [.read address v] := by
  refine fun s hs ↦ wp_mono (wp_codec_rdReg fuel hs.weaken address) ?_
  rintro v t ⟨ht, n, hlog⟩
  exact ⟨ht.mono, _, hlog, n, rfl⟩

/-! ### Audio data -/

/-- A frame begins with its first byte. -/
theorem frameAt_succ (buf : ℕ → UInt8) (i n : ℕ) :
    frameAt buf i (n + 1) = buf i :: frameAt buf (i + 1) n := by
  rw [frameAt, frameAt, List.range_succ_eq_map, List.map_cons, List.map_map]
  refine congrArg (buf i :: ·) (List.map_congr_left fun k _ ↦ ?_)
  rw [Function.comp_apply, Nat.add_right_comm, Nat.add_assoc]

/-- A frame ends with its last byte. -/
theorem frameAt_add_one (buf : ℕ → UInt8) (i n : ℕ) :
    frameAt buf i (n + 1) = frameAt buf i n ++ [buf (i + n)] := by
  rw [frameAt, List.range_succ, List.map_append]
  rfl

/-- The bytes of a frame, under the data port. -/
theorem wp_codec_sendFrame (buf : ℕ → UInt8) (i n : ℕ) {s : Codec} (hxcs : s.xcs = true)
    (hxdcs : s.xdcs = false) :
    wp Codec.step anyOp (sendFrame buf i n)
      (fun _ t ↦ t = { s with frame := s.frame ++ frameAt buf i n }) s := by
  induction n generalizing i s with
  | zero =>
    show s = _
    rw [frameAt, List.range_zero, List.map_nil, List.append_nil]
  | succ n ih =>
    refine wp_codec_bind fun r ↦ ?_
    have hnext : s.next ⟨.readWriteByte .data (buf i), r⟩ =
        { s with frame := s.frame ++ [buf i] } := by
      simp [Codec.next, Codec.byte, hxcs, hxdcs]
    rw [hnext]
    refine wp_mono (ih (i + 1) hxcs hxdcs) ?_
    rintro - t rfl
    rw [frameAt_succ, List.append_assoc, List.singleton_append]

/-- A frame of some bytes is seen when the port is deselected. -/
theorem closeFrame_frameAt (buf : ℕ → UInt8) (i : ℕ) {n : ℕ} (hn : 0 < n) :
    Codec.closeFrame (frameAt buf i n) = [.frame (frameAt buf i n)] := by
  obtain ⟨m, rfl⟩ : ∃ m, n = m + 1 := ⟨n - 1, by omega⟩
  rw [frameAt_succ]
  rfl

/-- **Audio data** between a fall and a rise of `XDCS` is a frame. -/
theorem logs_dataWindow {α : Type} {body : Vs Unit} {bytes : List UInt8} {a : α}
    (hbody : ∀ s : Codec, s.xcs = true → s.xdcs = false →
      wp Codec.step anyOp body (fun _ t ↦ t = { s with frame := s.frame ++ bytes }) s) :
    Logs both (do
      vs (.xdcs false)
      body
      vs (.xdcs true)
      pure a) fun b l ↦ b = a ∧ l = Codec.closeFrame bytes := by
  intro s hs
  refine wp_codec_bind fun _ ↦ ?_
  rw [wp_bind]
  refine wp_mono (hbody _ hs.xcs rfl) ?_
  rintro - t rfl
  refine wp_codec_bind fun _ ↦ ?_
  refine ⟨⟨hs.xcs, hs.command, rfl, fun _ ↦ rfl⟩, _, ?_, rfl, rfl⟩
  show s.log ++ Codec.closeFrame (s.frame ++ bytes) = _
  rw [hs.frame, List.nil_append]

/-- What **`VS_Send_MusicData`** adds: a wait, a second reading, and a frame if that is high too. -/
def musicData (n : ℕ) (level : Bool) (bytes : List UInt8) : List CodecEvent :=
  waited n ++ .dq level :: if level then [.frame bytes] else []

theorem logs_sendMusicData (buf : ℕ → UInt8) :
    Logs both (vsSendMusicData fuel buf) fun res l ↦ ∃ n level,
      res = (if level then 0 else 1) ∧ l = musicData n level (frameAt buf 0 sendNumPerFrame) := by
  refine .bind (logs_waitDq fuel) ?_
  rintro - _ ⟨n, rfl⟩
  refine .bind logs_dq ?_
  rintro level _ rfl
  cases level with
  | false => exact .pure ⟨n, false, rfl, rfl⟩
  | true =>
    refine (logs_dataWindow fun s ↦ wp_codec_sendFrame buf 0 sendNumPerFrame).mono ?_
    rintro _ _ ⟨rfl, rfl⟩
    refine ⟨n, true, rfl, ?_⟩
    rw [closeFrame_frameAt buf 0 (by decide)]
    rfl

/-- The loop of `VS_Send_MusicData2`, where its counter of 8 bits reaches the length. -/
theorem wp_codec_sendBytes (buf : ℕ → UInt8) {len : ℕ} (hlen : len < 256) {s : Codec}
    (hxcs : s.xcs = true) (hxdcs : s.xdcs = false) :
    wp Codec.step anyOp (sendBytes fuel buf len)
      (fun _ t ↦ t = { s with frame := s.frame ++ frameAt buf 0 len }) s := by
  let J : UInt8 → Codec → Prop := fun n t ↦
    n.toNat ≤ len ∧ t = { s with frame := s.frame ++ frameAt buf 0 n.toNat }
  refine wp_loop (J := J) (fun _ _ _ ↦ wp_codec_outOfFuel) ?_ ⟨Nat.zero_le _, by rw [frameAt]; simp⟩
  rintro n _ ⟨hn, rfl⟩
  split
  · next hlt =>
    have hsucc : (n + 1).toNat = n.toNat + 1 := by
      rw [UInt8.toNat_add]
      exact Nat.mod_eq_of_lt (by have : UInt8.toNat 1 = 1 := rfl; omega)
    refine wp_codec_bind fun r ↦ ⟨fun n' h ↦ ?_, fun _ h ↦ (by cases h)⟩
    obtain rfl : n + 1 = n' := by injection h
    refine ⟨by omega, ?_⟩
    rw [hsucc, frameAt_add_one, ← List.append_assoc, Nat.zero_add]
    simp [Codec.next, Codec.byte, hxcs, hxdcs]
  · next hlt =>
    obtain rfl : n.toNat = len := by omega
    exact ⟨fun _ h ↦ (by cases h), fun _ _ ↦ rfl⟩

/-- **`VS_Send_MusicData2`** looks at `DREQ` once, and sends its frame if that is high. -/
theorem logs_sendMusicData2 (buf : ℕ → UInt8) {len : ℕ} (h₀ : 0 < len) (hlen : len < 256) :
    Logs both (vsSendMusicData2 fuel buf len) fun _ l ↦ ∃ level,
      l = .dq level :: if level then [.frame (frameAt buf 0 len)] else [] := by
  refine .bind logs_dq ?_
  rintro level _ rfl
  cases level with
  | false => exact .pure ⟨false, rfl⟩
  | true =>
    refine (logs_dataWindow fun s ↦ wp_codec_sendBytes fuel buf hlen).mono ?_
    rintro _ _ ⟨-, rfl⟩
    refine ⟨true, ?_⟩
    rw [closeFrame_frameAt buf 0 h₀]
    rfl

/-! ### Audio data by DMA -/

/-- What a frame by DMA adds. -/
def dmaData (level : Bool) (bytes : List UInt8) : List CodecEvent :=
  .dq level :: if level then [.dma bytes] else []

/-- **The last frame by DMA.** It leaves the data port selected if it was sent. -/
theorem logs_dmaLast (pbuff : ℕ → UInt8) (i n : ℕ) :
    Logs false (dmaLast pbuff i n) fun _ l ↦ ∃ level, l = dmaData level (frameAt pbuff i n) := by
  intro s hs
  refine wp_codec_bind fun _ ↦ ?_
  rw [wp_bind]
  refine wp_codec_bind fun level ↦ ?_
  cases level with
  | false =>
    refine ⟨trivial, ?_⟩
    rintro - _ rfl
    exact ⟨⟨hs.xcs, hs.command, hs.frame, fun h ↦ by cases h⟩, _, rfl, false, rfl⟩
  | true =>
    rw [if_pos rfl]
    refine wp_codec_bind fun _ ↦ ⟨trivial, ?_⟩
    rintro - _ rfl
    refine ⟨trivial, ?_⟩
    rintro - _ rfl
    refine ⟨⟨hs.xcs, hs.command, hs.frame, fun h ↦ by cases h⟩, _, ?_, true, rfl⟩
    have htake : (frameAt pbuff i n ++ s.dmaBuff.drop (frameAt pbuff i n).length).take n =
        frameAt pbuff i n := List.take_left' (by rw [frameAt]; simp)
    show (s.log ++ [CodecEvent.dq true]) ++ [.dma (List.take n (frameAt pbuff i n ++ _))] = _
    rw [htake, List.append_assoc]
    rfl

/-- **A whole frame by DMA.** The port is deselected again. -/
theorem logs_dmaFrame (pbuff : ℕ → UInt8) (i : ℕ) :
    Logs false (dmaFrame pbuff i) fun _ l ↦
      ∃ level, l = dmaData level (frameAt pbuff i sendNumPerFrame) := by
  intro s hs
  have hlast := logs_dmaLast pbuff i sendNumPerFrame s hs
  simp only [dmaLast, dmaFrame, wp_bind] at hlast ⊢
  refine wp_mono hlast fun _ t ht ↦ ?_
  refine wp_mono ht fun _ u hu ↦ ?_
  refine wp_mono hu ?_
  rintro - v ⟨hv, l, hlog, hl⟩
  refine ⟨trivial, ?_⟩
  rintro - _ rfl
  refine ⟨⟨hv.xcs, hv.command, rfl, fun _ ↦ rfl⟩, l, ?_, hl⟩
  show v.log ++ Codec.closeFrame v.frame = _
  rw [hv.frame, hlog]
  exact List.append_nil _

end

end YHAudioLink
