import Mathlib.Data.UInt
import Mathlib.Data.List.Basic

/-!
# The WAV header both ends send

`wav.c` on the board and `WavHeader.cs` on the PC build the same packed structure: a RIFF chunk, a
`fmt ` chunk and the head of a `data` chunk, stored byte by byte in little-endian order. The board
sends it before its recording, the PC before its own.
-/

namespace YHAudioLink

/-- The two bytes of a 16-bit field of a packed structure, low byte first. -/
def le16 (x : UInt16) : List UInt8 :=
  [x.toUInt8, (x >>> 8).toUInt8]

/-- The four bytes of a 32-bit field of a packed structure, low byte first. -/
def le32 (x : UInt32) : List UInt8 :=
  [x.toUInt8, (x >>> 8).toUInt8, (x >>> 16).toUInt8, (x >>> 24).toUInt8]

/-- `ChunkRIFF`. -/
structure ChunkRIFF where
  chunkID : UInt32
  chunkSize : UInt32
  format : UInt32

/-- `ChunkFMT`. -/
structure ChunkFMT where
  chunkID : UInt32
  chunkSize : UInt32
  audioFormat : UInt16
  numOfChannels : UInt16
  sampleRate : UInt32
  byteRate : UInt32
  blockAlign : UInt16
  bitsPerSample : UInt16

/-- `ChunkDATA`. -/
structure ChunkDATA where
  chunkID : UInt32
  chunkSize : UInt32

/-- `WaveHeaderStruct`, the same on both ends. -/
structure WaveHeaderStruct where
  riff : ChunkRIFF
  fmt : ChunkFMT
  data : ChunkDATA

/-- The bytes of the packed header, in the order of its fields. -/
def WaveHeaderStruct.bytes (wh : WaveHeaderStruct) : List UInt8 :=
  le32 wh.riff.chunkID ++ le32 wh.riff.chunkSize ++ le32 wh.riff.format ++
    le32 wh.fmt.chunkID ++ le32 wh.fmt.chunkSize ++ le16 wh.fmt.audioFormat ++
    le16 wh.fmt.numOfChannels ++ le32 wh.fmt.sampleRate ++ le32 wh.fmt.byteRate ++
    le16 wh.fmt.blockAlign ++ le16 wh.fmt.bitsPerSample ++
    le32 wh.data.chunkID ++ le32 wh.data.chunkSize

/-- `wav_header_init`: 8 kHz, 16 bit, mono PCM. -/
def wavHeaderInit (riff_sz data_sz : UInt32) : WaveHeaderStruct where
  riff := { chunkID := 0x46464952, chunkSize := riff_sz, format := 0x45564157 }
  fmt :=
    { chunkID := 0x20746D66, chunkSize := 16, audioFormat := 0x01, numOfChannels := 1,
      sampleRate := 8000, byteRate := 8000 * 2, blockAlign := 2, bitsPerSample := 16 }
  data := { chunkID := 0x61746164, chunkSize := data_sz }

/-- `WavHeader.GetWavHeader` of the PC, with its fixed data size of one megabyte. -/
def getWavHeader : List UInt8 :=
  (wavHeaderInit (1024 * 1024 + 36) (1024 * 1024)).bytes

@[simp] theorem length_le16 (x : UInt16) : (le16 x).length = 2 := rfl

@[simp] theorem length_le32 (x : UInt32) : (le32 x).length = 4 := rfl

@[simp] theorem WaveHeaderStruct.length_bytes (wh : WaveHeaderStruct) : wh.bytes.length = 44 := by
  simp [WaveHeaderStruct.bytes]

/-- Every header starts with the four bytes `RIFF`. -/
theorem exists_bytes_wavHeaderInit (riff_sz data_sz : UInt32) :
    ∃ rest, (wavHeaderInit riff_sz data_sz).bytes = [0x52, 0x49, 0x46, 0x46] ++ rest := by
  have hriff : le32 0x46464952 = [0x52, 0x49, 0x46, 0x46] := by decide
  simp only [WaveHeaderStruct.bytes, wavHeaderInit, hriff, List.append_assoc]
  exact ⟨_, rfl⟩

end YHAudioLink
