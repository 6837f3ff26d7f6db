import YHAudioLink.Foundation.Programs
import Mathlib.Data.UInt

/-!
# The audio codec's driver

The functions of `vs10xx_core.c`, and the two that send audio in `task_play.c`, as programs over the
calls of `vs10xx_cfg_t`: the reset line, the two select lines, a byte exchanged over SPI, and the
level of `DREQ`.

* A byte is exchanged for a purpose that the source shows by the function it stands in: it is part
  of a command, or audio data, or (once, in `VS_Soft_Reset`) neither.
* The driver waits for `DREQ` without a limit, and some of its loops go round until the codec has
  taken what they send. Such a loop is given `fuel`, a bound on its rounds, and a run that reaches
  the bound ends there. What holds for every `fuel` holds for every finite piece of every run.
* `VS_Restart_Play` sends frames of 160 bytes out of an array of 32. What lies behind the array is a
  parameter.
-/

namespace YHAudioLink

open Programs

/-! ### The interface -/

/-- `SEND_NUM_PER_FRAME`. -/
abbrev sendNumPerFrame : ℕ := 160

/-- `VS_WRITE_COMMAND`. -/
abbrev vsWriteCommand : UInt8 := 0x02

/-- `VS_READ_COMMAND`. -/
abbrev vsReadCommand : UInt8 := 0x03

abbrev spiMode : UInt8 := 0x00
abbrev spiClockf : UInt8 := 0x03
abbrev spiWram : UInt8 := 0x06
abbrev spiWramaddr : UInt8 := 0x07
abbrev spiHdat0 : UInt8 := 0x08
abbrev spiHdat1 : UInt8 := 0x09

/-- What a byte is exchanged for. -/
inductive ByteUse
  | command | data | filler
  deriving DecidableEq

/-- The calls the driver is made of. A level is `true` when it is high. -/
inductive VsOp
  /-- `VS_RST`. -/
  | rst (stat : Bool)
  /-- `VS_XCS`, the select line of the command port. -/
  | xcs (stat : Bool)
  /-- `VS_XDCS`, the select line of the data port. -/
  | xdcs (stat : Bool)
  /-- `VS_SPI_SpeedLow`. -/
  | speedLow
  /-- `VS_SPI_SpeedHigh`. -/
  | speedHigh
  /-- `VS_SPI_ReadWriteByte`. -/
  | readWriteByte (use : ByteUse) (data : UInt8)
  /-- `VS_DQ`. -/
  | dq
  /-- The copy into `vs10xx_play_dma_buff`. -/
  | fillDma (bytes : List UInt8)
  /-- `SPI_I2S_DMACmd` and `vs10xx_play_dma_enable`. -/
  | startDma (cndtr : ℕ)
  /-- `delay_ms`. -/
  | delayMs (ms : ℕ)
  /-- `delay_us`. -/
  | delayUs (us : ℕ)
  /-- `OSTimeDly`. -/
  | timeDly (ticks : ℕ)
  /-- The bound on the rounds of a loop is reached. -/
  | outOfFuel

/-- What the calls answer. Nothing comes after the bound of a loop. -/
abbrev VsOp.Ans : VsOp → Type
  | readWriteByte _ _ => UInt8
  | dq => Bool
  | outOfFuel => Empty
  | _ => Unit

/-- A program of the driver. -/
abbrev Vs (α : Type) : Type := Prog VsOp VsOp.Ans α

/-- One call. -/
def vs (o : VsOp) : Vs (VsOp.Ans o) := Prog.perform o

/-- The end of a run that reaches the bound of a loop. -/
def outOfFuel {α : Type} : Vs α := .call .outOfFuel fun e ↦ e.elim

/-- `VS_WAIT_DQ`, and the waits written out: until `DREQ` is high. -/
def vsWaitDq (fuel : ℕ) : Vs Unit :=
  Prog.loop outOfFuel (fun _ ↦ do
    let dq : Bool ← vs .dq
    pure (if dq then .inr () else .inl ())) fuel ()

/-! ### Commands -/

/-- `VS_WR_Cmd`. -/
def vsWrCmd (fuel : ℕ) (address : UInt8) (data : UInt16) : Vs Unit := do
  vsWaitDq fuel
  vs .speedLow
  vs (.xdcs true)
  vs (.xcs false)
  let _ ← vs (.readWriteByte .command vsWriteCommand)
  let _ ← vs (.readWriteByte .command address)
  let _ ← vs (.readWriteByte .command (data >>> 8).toUInt8)
  let _ ← vs (.readWriteByte .command data.toUInt8)
  vs (.xcs true)
  vs .speedHigh

/-- `VS_RD_Reg`. -/
def vsRdReg (fuel : ℕ) (address : UInt8) : Vs UInt16 := do
  vsWaitDq fuel
  vs .speedLow
  vs (.xdcs true)
  vs (.xcs false)
  let _ ← vs (.readWriteByte .command vsReadCommand)
  let _ ← vs (.readWriteByte .command address)
  let hi : UInt8 ← vs (.readWriteByte .command 0xff)
  let lo : UInt8 ← vs (.readWriteByte .command 0xff)
  vs (.xcs true)
  vs .speedHigh
  pure (hi.toUInt16 <<< 8 + lo.toUInt16)

/-- `VS_WRAM_Read`. -/
def vsWramRead (fuel : ℕ) (addr : UInt16) : Vs UInt16 := do
  vsWrCmd fuel spiWramaddr addr
  vsRdReg fuel spiWram

/-- `VS_WRAM_Write`. -/
def vsWramWrite (fuel : ℕ) (addr val : UInt16) : Vs Unit := do
  vsWrCmd fuel spiWramaddr addr
  vsWaitDq fuel
  vsWrCmd fuel spiWram val

/-- `VS_Get_EndFillByte`. -/
def vsGetEndFillByte (fuel : ℕ) : Vs UInt16 := vsWramRead fuel 0x1E06

/-- A run-length run of a patch: one value to one register, `n` times. -/
def patchRun (fuel : ℕ) (addr val : UInt16) : ℕ → Vs Unit
  | 0 => pure ()
  | n + 1 => do
    vsWrCmd fuel addr.toUInt8 val
    patchRun fuel addr val n

/-- A copy run of a patch: the next `n` values to one register. -/
def patchCopy (fuel : ℕ) (patch : UInt16 → UInt16) (addr : UInt16) : UInt16 → ℕ → Vs UInt16
  | i, 0 => pure i
  | i, n + 1 => do
    vsWrCmd fuel addr.toUInt8 (patch i)
    patchCopy fuel patch addr (i + 1) n

/-- `VS_Load_Patch`. The index has 16 bits and wraps around. -/
def vsLoadPatch (fuel : ℕ) (patch : UInt16 → UInt16) (len : UInt16) : Vs Unit :=
  Prog.loop outOfFuel (fun i : UInt16 ↦
    if i < len then
      if patch (i + 1) &&& 0x8000 ≠ 0 then do
        patchRun fuel (patch i) (patch (i + 2)) (patch (i + 1) &&& 0x7FFF).toNat
        pure (.inl (i + 3))
      else do
        let i' ← patchCopy fuel patch (patch i) (i + 2) (patch (i + 1)).toNat
        pure (.inl i')
    else pure (.inr ())) fuel 0

/-! ### Audio data -/

/-- `VS_WR_Data`. -/
def vsWrData (data : UInt8) : Vs Unit := do
  vs .speedHigh
  vs (.xdcs false)
  let _ ← vs (.readWriteByte .data data)
  vs (.xdcs true)

/-- The bytes of a frame, `n` of them from `i` on. -/
def sendFrame (buf : ℕ → UInt8) (i : ℕ) : ℕ → Vs Unit
  | 0 => pure ()
  | n + 1 => do
    let _ ← vs (.readWriteByte .data (buf i))
    sendFrame buf (i + 1) n

/-- `VS_Send_MusicData`. -/
def vsSendMusicData (fuel : ℕ) (buf : ℕ → UInt8) : Vs UInt8 := do
  vsWaitDq fuel
  let dq : Bool ← vs .dq
  if dq then do
    vs (.xdcs false)
    sendFrame buf 0 sendNumPerFrame
    vs (.xdcs true)
    pure 0
  else pure 1

/-- The loop of `VS_Send_MusicData2`, whose counter has 8 bits. -/
def sendBytes (fuel : ℕ) (buf : ℕ → UInt8) (len : ℤ) : Vs Unit :=
  Prog.loop outOfFuel (fun n : UInt8 ↦
    if (n.toNat : ℤ) < len then do
      let _ ← vs (.readWriteByte .data (buf n.toNat))
      pure (.inl (n + 1))
    else pure (.inr ())) fuel 0

/-- `VS_Send_MusicData2`. -/
def vsSendMusicData2 (fuel : ℕ) (buf : ℕ → UInt8) (len : ℤ) : Vs UInt8 := do
  let dq : Bool ← vs .dq
  if dq then do
    vs (.xdcs false)
    sendBytes fuel buf len
    vs (.xdcs true)
    pure 0
  else pure 1

/-- The loop both senders of audio begin with: `chunk` for every frame but the last, and then the
index of the last. -/
def wholeFrames (fuel : ℕ) (chunk : ℕ → Vs Unit) (len : ℤ) : Vs ℕ :=
  Prog.loop outOfFuel (fun i : ℕ ↦
    if (i : ℤ) < len - sendNumPerFrame then do
      chunk i
      pure (.inl (i + sendNumPerFrame))
    else pure (.inr i)) fuel 0

/-- `vs10xx_send_data`. -/
def vs10xxSendData (fuel : ℕ) (pbuff : ℕ → UInt8) (len : ℤ) : Vs Unit := do
  let i ← wholeFrames fuel (fun i ↦ do
    let _ ← vsSendMusicData fuel fun n ↦ pbuff (i + n)
    pure ()) len
  if (i : ℤ) < len then do
    let _ ← vsSendMusicData2 fuel (fun n ↦ pbuff (i + n)) (len - i)
    pure ()
  else pure ()

/-- The DMA transfer of `n` bytes out of `vs10xx_play_dma_buff`, if the codec is ready for them. -/
def dmaTransfer (n : ℕ) : Vs Unit := do
  let dq : Bool ← vs .dq
  if dq then do
    vs (.xdcs false)
    vs (.startDma n)
  else pure ()

/-- The frame of `n` bytes at `i`. -/
def frameAt (pbuff : ℕ → UInt8) (i n : ℕ) : List UInt8 := (List.range n).map fun k ↦ pbuff (i + k)

/-- One whole frame by DMA. -/
def dmaFrame (pbuff : ℕ → UInt8) (i : ℕ) : Vs Unit := do
  vs (.fillDma (frameAt pbuff i sendNumPerFrame))
  dmaTransfer sendNumPerFrame
  vs (.timeDly 2)
  vs (.xdcs true)

/-- The last frame by DMA. The data port stays selected. -/
def dmaLast (pbuff : ℕ → UInt8) (i n : ℕ) : Vs Unit := do
  vs (.fillDma (frameAt pbuff i n))
  dmaTransfer n
  vs (.timeDly 2)

/-- `vs10xx_play_dma_send_data`. -/
def vs10xxPlayDmaSendData (fuel : ℕ) (pbuff : ℕ → UInt8) (len : ℤ) : Vs Unit := do
  let i ← wholeFrames fuel (dmaFrame pbuff) len
  if (i : ℤ) < len then dmaLast pbuff i (len - i).toNat else pure ()

/-! ### Resets -/

/-- Write a register until it reads back, for at most `rounds + 1` rounds. -/
def setRegister (fuel : ℕ) (address : UInt8) (expect data : UInt16) (pause : Vs Unit) : ℕ → Vs Unit
  | 0 => setRegister.attempt fuel address expect data pause (pure ())
  | rounds + 1 =>
    setRegister.attempt fuel address expect data pause
      (setRegister fuel address expect data pause rounds)
where
  /-- One round, and `next` after it if the register has not read back. -/
  attempt (fuel : ℕ) (address : UInt8) (expect data : UInt16) (pause next : Vs Unit) : Vs Unit := do
    let read ← vsRdReg fuel address
    if read ≠ expect then do
      vsWrCmd fuel address data
      pause
      next
    else pure ()

/-- `VS_Soft_Reset`. -/
def vsSoftReset (fuel : ℕ) : Vs Unit := do
  vsWaitDq fuel
  let _ ← vs (.readWriteByte .filler 0xff)
  setRegister fuel spiMode 0x0800 0x0804 (vs (.delayMs 2)) 101
  vsWaitDq fuel
  setRegister fuel spiClockf 0x9800 0x9800 (pure ()) 101
  vs (.delayMs 20)

/-- The wait of `VS_HD_Reset`, with `rounds` polls to go; whether it was given up. -/
def hdWait : ℕ → Vs Bool
  | 0 => do
    let _ ← vs .dq
    pure true
  | rounds + 1 => do
    let dq : Bool ← vs .dq
    if dq then pure false
    else do
      vs (.delayUs 50)
      hdWait rounds

/-- `VS_HD_Reset`. -/
def vsHdReset : Vs UInt8 := do
  vs (.rst false)
  vs (.delayMs 20)
  vs (.xdcs true)
  vs (.xcs true)
  vs (.rst true)
  let late ← hdWait 200
  vs (.delayMs 20)
  pure (if late then 1 else 0)

/-- `vsbuf` with the value `v` in all its 32 bytes; behind it lies `stack`. -/
def vsbuf (stack : ℕ → UInt8) (v : UInt8) (n : ℕ) : UInt8 := if n < 32 then v else stack n

/-- The zeros of `VS_Restart_Play`, until `SM_CANCEL` is clear; the final counter. -/
def cancelLoop (fuel : ℕ) (stack : ℕ → UInt8) : Vs ℕ :=
  Prog.loop outOfFuel (fun i : ℕ ↦
    if i < 2048 then do
      let res ← vsSendMusicData fuel (vsbuf stack 0)
      if res = 0 then do
        let temp ← vsRdReg fuel spiMode
        pure (if temp &&& 0x0008 = 0 then .inr (i + 32) else .inl (i + 32))
      else pure (.inl i)
    else pure (.inr i)) fuel 0

/-- The fill bytes of `VS_Restart_Play`. -/
def fillLoop (fuel : ℕ) (stack : ℕ → UInt8) (fill : UInt8) : Vs Unit :=
  Prog.loop outOfFuel (fun i : ℕ ↦
    if i < 2052 then do
      let res ← vsSendMusicData fuel (vsbuf stack fill)
      pure (.inl (if res = 0 then i + 32 else i))
    else pure (.inr ())) fuel 0

/-- `VS_Restart_Play` once the cancellation has been tried. -/
def finishCancel (fuel : ℕ) (stack : ℕ → UInt8) (i : ℕ) : Vs Unit :=
  if i < 2048 then do
    let temp ← vsGetEndFillByte fuel
    fillLoop fuel stack (temp &&& 0xff).toUInt8
  else vsSoftReset fuel

/-- The hard reset of `VS_Restart_Play`. -/
def hardReset (fuel : ℕ) : Vs Unit := do
  let _ ← vsHdReset
  vsSoftReset fuel

/-- `VS_Restart_Play`. -/
def vsRestartPlay (fuel : ℕ) (stack : ℕ → UInt8) : Vs Unit := do
  let temp ← vsRdReg fuel spiMode
  vsWrCmd fuel spiMode (temp ||| 0x0008 ||| 0x0004)
  let i ← cancelLoop fuel stack
  finishCancel fuel stack i
  let hdat0 ← vsRdReg fuel spiHdat0
  let hdat1 ← vsRdReg fuel spiHdat1
  if hdat0 + hdat1 ≠ 0 then hardReset fuel else pure ()

end YHAudioLink
