import Rtes.MicrocodeModel
import Rtes.Runs

/-!
The double buffering of the Bt878 driver `btvid3.c`, in the mode 320x240 with `NUMFRAMES` 2.

The DMA engine writes the frames in turn. It raises `RISCI` when a frame is complete, and
starts over with frame 0 when `DMA_CTL_REG` goes from zero to a non-zero value. An interrupt
is handled at once: a status with `RISCI` means that a frame has just been completed, and the
frame is counted as complete whatever else the status says. The other registers, the
microcode and the contents of the frames are left out, and `btvid_drvr` copies a frame in one
step.
-/

namespace Rtes.BtvidModel

open Rtes.MicrocodeModel (dmaMcSync dmaMcWrite dmaMcSkip dmaMcJump)

def numframes : ℕ := 2

/-! ### Interrupt status -/

def mysteryInt : BitVec 32 := 0x00400000
def scerrInt : BitVec 32 := 0x00080000
def ocerrInt : BitVec 32 := 0x00040000
def pabortInt : BitVec 32 := 0x00020000
def riperrInt : BitVec 32 := 0x00010000
def pperrInt : BitVec 32 := 0x00008000
def fdsrInt : BitVec 32 := 0x00004000
def ftrgtInt : BitVec 32 := 0x00002000
def fbusInt : BitVec 32 := 0x00001000
def risciInt : BitVec 32 := 0x00000800

def intErrorsToCheck : BitVec 32 :=
  scerrInt ||| ocerrInt ||| pabortInt ||| riperrInt ||| pperrInt ||| fdsrInt ||| ftrgtInt |||
    fbusInt ||| mysteryInt

/-- `if(status & mask) n++` -/
def tally (status mask n : BitVec 32) : BitVec 32 := if status &&& mask ≠ 0 then n + 1 else n

/-! ### State -/

/-- The counters that `full_reset` clears. -/
structure Counters where
  frameAcqCnt : BitVec 32 := 0
  frameRdyCnt : BitVec 32 := 0
  lastDstatus : BitVec 32 := 0
  lastIsrStatus : BitVec 32 := 0
  totalDmaDisabledErrs : BitVec 32 := 0
  totalSyncErrs : BitVec 32 := 0
  totalAbortErrs : BitVec 32 := 0
  totalDmaErrs : BitVec 32 := 0
  totalParityErrs : BitVec 32 := 0
  totalBusParityErrs : BitVec 32 := 0
  totalFifoOverrunErrs : BitVec 32 := 0
  totalFifoResyncErrs : BitVec 32 := 0
  totalBusLatencyErrs : BitVec 32 := 0
  totalRiscInts : BitVec 32 := 0
  totalWriteTags : BitVec 32 := 0
  totalSkipTags : BitVec 32 := 0
  totalJumpTags : BitVec 32 := 0
  totalSyncTags : BitVec 32 := 0

/-- `writing` is the frame the engine writes, `completed` the one it completed last,
`connected` whether the interrupt handler is installed. `given` and `copied` are history: at
each `semGive`, `current_frame` and the frame completed; at each copy, `current_frame` and the
frame being written. -/
structure State where
  dmaCtl : BitVec 32
  writing : ℕ
  completed : Option ℕ
  connected : Bool
  frameRdy : Bool
  currentFrame : ℕ
  totalInts : BitVec 32
  counters : Counters
  given : List (ℕ × Option ℕ)
  copied : List (ℕ × ℕ)

/-- After the first `start_video`. -/
def init : State where
  dmaCtl := 0
  writing := 0
  completed := none
  connected := false
  frameRdy := false
  currentFrame := 1
  totalInts := 0
  counters := {}
  given := []
  copied := []

/-! ### The driver -/

def haltAcq (s : State) : State := { s with dmaCtl := 0 }

def startAcq (s : State) : State :=
  { s with dmaCtl := 0xF, writing := if s.dmaCtl = 0 then 0 else s.writing }

/-- The branch of `pci_inta_isr` for errors. -/
def isrError (s : State) (status : BitVec 32) : State :=
  let totalDmaDisabledErrs := tally status 0x08000000 s.counters.totalDmaDisabledErrs
  let s := { s with counters.totalDmaDisabledErrs := totalDmaDisabledErrs }
  let s := startAcq (haltAcq s)
  let s :=
    if status &&& scerrInt ≠ 0 then
      startAcq (haltAcq { s with counters.totalSyncErrs := s.counters.totalSyncErrs + 1 })
    else s
  let s :=
    if status &&& ocerrInt ≠ 0 then
      startAcq (haltAcq { s with counters.totalDmaErrs := s.counters.totalDmaErrs + 1 })
    else s
  { s with
    counters.totalAbortErrs := tally status pabortInt s.counters.totalAbortErrs
    counters.totalParityErrs := tally status riperrInt s.counters.totalParityErrs
    counters.totalBusParityErrs := tally status pperrInt s.counters.totalBusParityErrs
    counters.totalFifoResyncErrs := tally status fdsrInt s.counters.totalFifoResyncErrs
    counters.totalFifoOverrunErrs := tally status ftrgtInt s.counters.totalFifoOverrunErrs
    counters.totalBusLatencyErrs := tally status fbusInt s.counters.totalBusLatencyErrs }

/-- The branch of `pci_inta_isr` for a frame. The status shows the tags of the microcode in
its upper bits. -/
def isrFrame (s : State) (status dstatus : BitVec 32) : State :=
  let currentFrame := if s.currentFrame = 0 then 1 else 0
  { s with
    counters.totalRiscInts := s.counters.totalRiscInts + 1
    counters.totalWriteTags := tally status (dmaMcWrite <<< 12) s.counters.totalWriteTags
    counters.totalSkipTags := tally status (dmaMcSkip <<< 12) s.counters.totalSkipTags
    counters.totalJumpTags := tally status (dmaMcJump <<< 12) s.counters.totalJumpTags
    counters.totalSyncTags := tally status (dmaMcSync <<< 12) s.counters.totalSyncTags
    counters.frameAcqCnt := s.counters.frameAcqCnt + 1
    counters.lastDstatus := dstatus
    currentFrame
    frameRdy := true
    given := s.given ++ [(currentFrame, s.completed)] }

/-- `status` and `dstatus` are what the two registers read. -/
def pciIntaIsr (s : State) (status dstatus : BitVec 32) : State :=
  let s := { s with totalInts := s.totalInts + 1, counters.lastIsrStatus := status }
  if status &&& intErrorsToCheck ≠ 0 then isrError s status
  else if status &&& risciInt ≠ 0 then isrFrame s status dstatus
  else s

/-- `current_frame` and `total_ints` are not cleared. -/
def fullReset (s : State) : State := { haltAcq s with counters := {}, frameRdy := false }

def startVideo (s : State) : State := { s with frameRdy := false }

def activate (s : State) : State := startAcq { s with connected := true }

/-- One turn of the loop, once `semTake` has returned. -/
def btvidDrvr (s : State) : State :=
  { s with
    frameRdy := false
    counters.frameRdyCnt := s.counters.frameRdyCnt + 1
    copied := s.copied ++ [(s.currentFrame, s.writing)] }

/-! ### Steps -/

/-- The engine completes a frame and goes on with the next. -/
def frameDone (s : State) : State :=
  { s with completed := some s.writing, writing := (s.writing + 1) % numframes }

/-- `isr` is an interrupt with what it reads, `drvr` one turn of `btvid_drvr`, `restart`
`full_reset`, `start_video` and `activate`. -/
inductive Act
  | activate
  | isr (status dstatus : BitVec 32)
  | restart
  | drvr

def step (s : State) : Act → Option State
  | .activate => some (activate s)
  | .isr status dstatus =>
    if s.connected then
      some (pciIntaIsr (if status &&& risciInt ≠ 0 then frameDone s else s) status dstatus)
    else none
  | .restart => some (activate (startVideo (fullReset s)))
  | .drvr => if s.frameRdy then some (btvidDrvr s) else none

end Rtes.BtvidModel
