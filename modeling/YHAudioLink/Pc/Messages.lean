import YHAudioLink.Wire.WavHeader

/-!
# What the PC sends

`YHnet` sends four kinds of datagrams to the board, all through `SendTo` and all to the same port:
the commands `AT1` and `AT2`, a WAV header at the start of a recording, and blocks of 800 recorded
bytes. Nothing marks a datagram as a command or as audio; a kind is what was put into the payload.

A recorded block is a structure that carries its length, so a block of any other size cannot be
built. The samples in it are arbitrary.
-/

namespace YHAudioLink

/-- A block of recorded samples, as `waveIn_DataAvailable` puts it in the queue. -/
structure PcmBlock where
  samples : List UInt8
  length_eq : samples.length = 800
  deriving DecidableEq

/-- The buffer of one `DataAvailable` callback: 100 ms of 8 kHz, 16 bit, mono. -/
structure WaveInBuffer where
  bytes : List UInt8
  length_eq : bytes.length = 1600

/-- `e.Buffer, 800`: the first 800 bytes. -/
def WaveInBuffer.first (e : WaveInBuffer) : PcmBlock :=
  ⟨e.bytes.take 800, by simp [e.length_eq]⟩

/-- `e.Buffer.Skip(800).Take(800)`: the other 800. -/
def WaveInBuffer.second (e : WaveInBuffer) : PcmBlock :=
  ⟨(e.bytes.drop 800).take 800, by simp [e.length_eq]⟩

/-- **Cutting the callback's buffer loses nothing.** -/
theorem WaveInBuffer.first_append_second (e : WaveInBuffer) :
    e.first.samples ++ e.second.samples = e.bytes := by
  have hrest : (e.bytes.drop 800).length ≤ 800 := by simp [e.length_eq]
  show e.bytes.take 800 ++ (e.bytes.drop 800).take 800 = e.bytes
  rw [List.take_of_length_le hrest, List.take_append_drop]

/-- A datagram of the PC. -/
inductive PcMessage
  | lineEstablish
  | lineShutDown
  | wavHeader
  | pcm (blk : PcmBlock)
  deriving DecidableEq

namespace PcMessage

/-- The payload `SendTo` is called with. -/
def bytes : PcMessage → List UInt8
  | lineEstablish => [0x41, 0x54, 0x31]
  | lineShutDown => [0x41, 0x54, 0x32]
  | wavHeader => getWavHeader
  | pcm blk => blk.samples

/-- The message is one of the two commands. -/
def isLineCommand : PcMessage → Bool
  | lineEstablish | lineShutDown => true
  | _ => false

/-- The message is a WAV header. -/
def isHeader : PcMessage → Bool
  | wavHeader => true
  | _ => false

/-- The message is a recorded block whose samples begin with these bytes. -/
def isPcmStarting (start : List UInt8) : PcMessage → Bool
  | pcm blk => start.isPrefixOf blk.samples
  | _ => false

theorem length_getWavHeader : getWavHeader.length = 44 := WaveHeaderStruct.length_bytes _

/-- No datagram of the PC is shorter than a command. -/
theorem three_le_length_bytes (m : PcMessage) : 3 ≤ m.bytes.length := by
  rcases m with - | - | - | blk
  · exact le_rfl
  · exact le_rfl
  · show 3 ≤ getWavHeader.length
    rw [length_getWavHeader]
    omega
  · show 3 ≤ blk.samples.length
    rw [blk.length_eq]
    omega

/-- No datagram of the PC is longer than a recorded block. -/
theorem length_bytes_le (m : PcMessage) : m.bytes.length ≤ 800 := by
  rcases m with - | - | - | blk
  · show 3 ≤ 800
    omega
  · show 3 ≤ 800
    omega
  · show getWavHeader.length ≤ 800
    rw [length_getWavHeader]
    omega
  · exact blk.length_eq.le

/-- A header begins with the four bytes `RIFF`. -/
theorem exists_bytes_wavHeader :
    ∃ rest, wavHeader.bytes = [0x52, 0x49, 0x46, 0x46] ++ rest :=
  exists_bytes_wavHeaderInit _ _

end PcMessage

end YHAudioLink
