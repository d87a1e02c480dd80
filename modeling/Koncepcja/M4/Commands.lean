import Koncepcja.M4.Network

/-!
# The Commands of the M4 Board

The remaining handlers, the table of the commands, and the two ports of the board.

## Main results

- `cmdCopybuf_safe`, `cmdRomcp_safe`: copies inside a buffer.
-/

namespace Koncepcja.M4

open Checked

variable {ω : Type} (w : Host ω) {f : Bytes}

/-! ## The remaining handlers -/

def cmdVersion : Handler ω Unit := reply (ascii "M4 konCePCja v1.0" ++ [0])

def cmdNmi : Handler ω Unit := do
  act w.mf2stop
  respondOk

def cmdUpgrade : Handler ω Unit := respondOk

def cmdCopybuf : Handler ω Unit := do
  if (← size) < 7 then respondError none
  else do
    let offset := word (← frame 4) (← frame 3)
    let copied := word (← frame 6) (← frame 5)
    let b ← get
    let dataStart := 5 + offset
    -- Nothing is available behind the end of the response.
    let available := b.responseLen - dataStart
    let copySize := min (min copied available) (responseSize - 4)
    copyTo 0 [m4Ok, 0, 0]
    when (0 < copySize ∧ dataStart < b.responseLen) do
      let data ← responseBytes dataStart copySize
      copyTo 3 data
    setLen (3 + copySize)

def cmdRomlow : Handler ω Unit := do
  when (4 ≤ (← size)) do
    let _ ← frame 3
  respondOk

def cmdRomcp : Handler ω Unit := do
  if (← size) < 11 then respondError none
  else do
    let destOff := word (← frame 4) (← frame 3)
    let srcOff := word (← frame 7) (← frame 6)
    let copied := word (← frame 10) (← frame 9)
    match (← get).rom with
    | none => respondError none
    | some rom => do
      if 0x4000 < srcOff + copied ∨ 0x4000 < destOff + copied then respondError none
      else do
        let data ← romBytes rom srcOff copied
        copyToRom rom destOff data
        respondOk

def cmdRomsupdate : Handler ω Unit := respondOk

/-- A number converted to `size_t`. -/
def sizeT (x : Int) : Nat := (x % 2 ^ 64).toNat

def cmdConfig : Handler ω Unit := do
  let n ← size
  if n < 4 then respondError none
  else do
    let configOffset := (← frame 3).toNat
    -- An offset behind the buffer makes this difference very large.
    let maxLen := min (n - 4) (sizeT ((configSize : Int) - configOffset))
    when (0 < maxLen) do
      let data ← frameBytes 4 maxLen
      copyToConfig configOffset data
    match (← get).rom with
    | none => respondOk
    | some rom => do
      when (configOffset + maxLen ≤ 0xC00) do
        let data ← frameBytes 4 maxLen
        copyToRom rom (0x3400 + configOffset) data
      respondOk

def cmdRomwrite : Handler ω Unit := respondOk

/-! ## The table -/

def cCopybuf : UInt16 := 0x4329
def cHttpgetmem : UInt16 := 0x4328
def cConfig : UInt16 := 0x43FE

def commands : List (UInt16 × Handler ω Unit) := [
  (0x4326, cmdVersion),
  (0x4308, cmdCd w),
  (0x4306, cmdReaddir w),
  (0x4301, cmdOpen w),
  (0x4304, cmdClose w),
  (0x4302, cmdRead w),
  (0x4312, cmdRead2 w),
  (0x430B, cmdReadsector w),
  (0x430C, cmdWritesector w),
  (0x430D, cmdFormattrack),
  (0x4303, cmdWrite w),
  (0x431B, cmdWrite2 w),
  (0x4305, cmdSeek w),
  (0x4307, cmdEof w),
  (0x4309, cmdFree w),
  (0x4311, cmdFsize w),
  (0x4316, cmdFstat),
  (0x430A, cmdFtell w),
  (0x430E, cmdErasefile w),
  (0x430F, cmdRename w),
  (0x4310, cmdMakedir w),
  (0x4313, cmdGetpath),
  (0x4320, cmdHttpget w),
  (cHttpgetmem, cmdHttpgetmem w),
  (0x4325, cmdDirsetargs w),
  (0x4314, cmdSdread),
  (0x4315, cmdSdwrite),
  (0x4321, cmdSetnetwork),
  (0x4322, cmdM4off),
  (0x4323, cmdNetstat w),
  (0x4324, cmdTime w),
  (0x4331, cmdNetsocket w),
  (0x4332, cmdNetconnect w),
  (0x4333, cmdNetclose w),
  (0x4334, cmdNetsend w),
  (0x4335, cmdNetrecv w),
  (0x4336, cmdNethostip w),
  (0x4337, cmdNetrssi),
  (0x4338, cmdNetbind w),
  (0x4339, cmdNetlisten w),
  (0x433A, cmdNetaccept w),
  (0x433B, cmdGetnetwork),
  (0x433C, cmdWifipow),
  (0x431D, cmdNmi w),
  (0x4327, cmdUpgrade),
  (cCopybuf, cmdCopybuf),
  (0x432A, cmdCopyfile w),
  (0x433D, cmdRomlow),
  (0x43FC, cmdRomcp),
  (0x432B, cmdRomsupdate),
  (cConfig, cmdConfig),
  (0x43FD, cmdRomwrite)]

def handler (cmd : UInt16) : Handler ω Unit := ((commands w).lookup cmd).getD (respondError none)

/-! ## The ports -/

def m4boardDataOut (val : UInt8) : Handler ω Unit := modify fun b => { b with cmdBuf := b.cmdBuf ++ [val] }

def clearFrame : Handler ω Unit := modify fun b => { b with cmdBuf := [] }

/-- The board with an empty response. -/
def cleared (b : Board ω) : Board ω := { b with response := fun _ => 0, responseLen := 0 }

def m4boardExecute : Handler ω Unit := do
  if (← size) < 3 then clearFrame
  else do
    let cmd := UInt16.ofNat (word (← frame 1) (← frame 2))
    modify cleared
    handler w cmd
    clearFrame

/-- The response is copied into the ROM, at the address `0xE800` of the CPC. -/
def m4boardWriteResponse (rom : Fin romSize → UInt8) : Handler ω Unit := do
  let b ← get
  let len := min b.responseLen.val responseSize
  when (b.responseLen ≠ 0) do
    let data ← responseBytes 0 len
    copyToRom rom 0x2800 data

/-- The port that has a frame executed. -/
def m4boardOutHandlerFc : Handler ω Unit := do
  m4boardExecute w
  match (← get).rom with
  | none => pure ()
  | some rom => m4boardWriteResponse rom

/-! ## Safe handlers -/

section

variable {w}

theorem cmdVersion_safe : InBounds f (cmdVersion : Handler ω Unit) := reply_safe (by decide)

theorem cmdNmi_safe : InBounds f (cmdNmi w) := act_safe.seq respondOk_safe

/-- What is available is inside the response. -/
theorem cmdCopybuf_safe : InBounds f (cmdCopybuf : Handler ω Unit) := by
  refine size_safe <| .ite (fun _ => respondError_safe) fun hlong => ?_
  refine (frame_safe (by omega)).bind fun _ => (frame_safe (by omega)).bind fun _ => ?_
  refine (frame_safe (by omega)).bind fun _ => (frame_safe (by omega)).bind fun _ => Safe.get fun b _ => ?_
  have hlen := b.responseLen.is_lt
  have hsize : 5 ≤ responseSize := by decide
  refine (copyTo_safe (by decide)).seq <| (when_safe fun _ => ?_).seq (setLen_safe (by omega))
  exact (responseBytes_returns (by omega)).bind fun data hdata => copyTo_safe (by omega)

theorem cmdRomlow_safe : InBounds f (cmdRomlow : Handler ω Unit) := by
  refine size_safe <| (when_safe fun hlong => ?_).seq respondOk_safe
  exact (frame_safe hlong).bind fun _ => .pure ()

theorem cmdRomcp_safe : InBounds f (cmdRomcp : Handler ω Unit) := by
  refine size_safe <| .ite (fun _ => respondError_safe) fun hlong => ?_
  refine (frame_safe (by omega)).bind fun _ => (frame_safe (by omega)).bind fun _ => ?_
  refine (frame_safe (by omega)).bind fun _ => (frame_safe (by omega)).bind fun _ => ?_
  refine (frame_safe (by omega)).bind fun _ => (frame_safe (by omega)).bind fun _ => Safe.get fun b _ => ?_
  cases b.rom with
  | none => exact respondError_safe
  | some rom =>
    refine .ite (fun _ => respondError_safe) fun hfits => ?_
    have hsize : romSize = 0x4000 := rfl
    refine (romBytes_returns (by omega)).bind fun data hdata => (copyToRom_safe ?_).seq respondOk_safe
    omega

end

end Koncepcja.M4
