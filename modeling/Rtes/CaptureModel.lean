import Rtes.Bytes
import Rtes.Runs
import Rtes.SeqModel

/-!
The way of a frame through `capturelib.c`, from the buffers shared with the V4L2 driver
through the ring to the scratchpad, and the services of `seqv4l2.c` that move it.

The driver hands out a buffer it has queued, or none, and refuses a buffer that the
application has not dequeued: `VIDIOC_QBUF` then fails and `errno_exit` ends the process. The
retry on `EINTR` in `xioctl` is inside a request; the result of `select` is not read. Times,
messages and the files written by `save_image` are left out, and what `process_image` makes
of a frame is the parameter `convert`. The driver never reports more bytes than a frame of
the ring has room for.
-/

namespace Rtes.CaptureModel

open Rtes.Bytes Rtes.Runs Rtes.SeqModel Rtes.Release

/-- The answer to `VIDIOC_DQBUF`: a buffer and the bytes used in it, or an error. -/
inductive Dequeue
  | ok (index : ℕ) (data : List Byte)
  | eagain
  | eio
  | other

def Dequeue.Succeeds : Dequeue → Prop
  | .ok _ _ => True
  | _ => False

lemma Dequeue.Succeeds.eq_ok {o : Dequeue} (h : o.Succeeds) : ∃ i data, o = .ok i data := by
  cases o with
  | ok i data => exact ⟨i, data, rfl⟩
  | eagain | eio | other => exact h.elim

/-- The fields of `struct v4l2_buffer` that are read back. -/
structure FrameBuf where
  index : ℕ
  bytesused : ℕ

/-- `reader` is history: which `seq_frame_read`, counted from 0, stored the frame. -/
structure SaveFrame where
  frame : Buf
  reader : Option ℕ

structure Ring where
  ringSize : ℕ
  tailIdx : ℕ
  headIdx : ℕ
  count : ℤ
  saveFrame : ℕ → SaveFrame

/-- `queued` are the buffers with the driver, `held` those the application has dequeued.
`reads` and `processed`, the completed reads and the readers of the frames processed, are
history. -/
structure State where
  nBuffers : ℕ
  queued : List ℕ
  held : List ℕ
  buffers : ℕ → Buf
  frameBuf : FrameBuf
  readFramecnt : ℤ
  processFramecnt : ℕ
  saveFramecnt : ℕ
  ring : Ring
  scratchpad : Buf
  exited : Bool
  reads : ℕ
  processed : List (Option ℕ)

def startupFrames : ℤ := 30

/-- After `init_mmap`, with the buffers the driver granted: they are mapped and not queued. -/
def initMmap (framesPerSec reqCount : ℕ) : State where
  nBuffers := reqCount
  queued := []
  held := List.range reqCount
  buffers := fun _ _ => 0
  frameBuf := ⟨reqCount - 1, 0⟩
  readFramecnt := -startupFrames
  processFramecnt := 0
  saveFramecnt := 0
  ring :=
    { ringSize := 3 * framesPerSec, tailIdx := 0, headIdx := 0, count := 0,
      saveFrame := fun _ => ⟨fun _ => 0, none⟩ }
  scratchpad := fun _ => 0
  exited := false
  reads := 0
  processed := []

/-- `VIDIOC_QBUF` for `frame_buf`. -/
def qbuf (s : State) : State :=
  if s.frameBuf.index ∈ s.held then
    { s with
      queued := s.queued ++ [s.frameBuf.index]
      held := s.held.erase s.frameBuf.index }
  else { s with exited := true }

def startCapturing (s : State) : State :=
  (List.range s.nBuffers).foldl (fun s i => qbuf { s with frameBuf := ⟨i, 0⟩ }) s

/-- `read_frame` after `VIDIOC_DQBUF` has filled in `frame_buf`. -/
def dequeued (s : State) (index : ℕ) (data : List Byte) : State :=
  { s with
    queued := s.queued.erase index
    held := index :: s.held
    buffers := Function.update s.buffers index (blit (s.buffers index) 0 data)
    frameBuf := ⟨index, data.length⟩
    readFramecnt := s.readFramecnt + 1
    -- the assertion on the index
    exited := decide (s.nBuffers ≤ index) }

/-- A buffer is dequeued only if it is with the driver. -/
def readFrame (s : State) : Dequeue → Option (Bool × State)
  | .ok index data =>
    if index ∈ s.queued then some (true, dequeued s index data) else none
  | .eagain => some (false, { s with frameBuf := ⟨0, 0⟩ })
  | .eio => some (false, { s with frameBuf := ⟨0, 0⟩ })
  | .other => some (false, { s with frameBuf := ⟨0, 0⟩, exited := true })

/-- The `memcpy` of `seq_frame_read` and the advance of the tail. -/
def toRing (s : State) : State :=
  let r := s.ring
  let frame := blit (r.saveFrame r.tailIdx).frame 0
    (slice (s.buffers s.frameBuf.index) 0 s.frameBuf.bytesused)
  { s with
    ring := { r with
      tailIdx := (r.tailIdx + 1) % r.ringSize
      count := r.count + 1
      saveFrame := Function.update r.saveFrame r.tailIdx ⟨frame, some s.reads⟩ }
    reads := s.reads + 1 }

/-- What `read_frame` returns is not looked at. -/
def seqFrameRead (s : State) (o : Dequeue) : Option State :=
  if s.exited then none
  else (readFrame s o).map fun r => if r.2.exited then r.2 else qbuf (toRing r.2)

def seqFrameProcess (convert : Buf → Buf → Buf) (s : State) : State :=
  let r := s.ring
  let headIdx := (r.headIdx + 2) % r.ringSize
  { s with
    scratchpad := convert (r.saveFrame headIdx).frame s.scratchpad
    processFramecnt := s.processFramecnt + 1
    ring := { r with
      headIdx := (headIdx + 3) % r.ringSize
      count := r.count - 5 }
    processed := s.processed ++ [(r.saveFrame headIdx).reader] }

def seqFrameStore (s : State) : State :=
  { s with saveFramecnt := s.saveFramecnt + 1 }

/-! ### The services of `seqv4l2.c` -/

/-- One release of a service, with the answer its dequeue gets. -/
inductive Job
  | acquisition (o : Dequeue)
  | process
  | storage

def Job.service : Job → Service3
  | .acquisition _ => .acquisition
  | .process => .process
  | .storage => .storage

def Job.Succeeds : Job → Prop
  | .acquisition o => o.Succeeds
  | _ => True

def Job.work (convert : Buf → Buf → Buf) (s : State) : Job → Option State
  | .acquisition o => seqFrameRead s o
  | .process => some (seqFrameProcess convert s)
  | .storage => some (seqFrameStore s)

/-- The capture library, `S1Cnt`, `S2Cnt` and `S3Cnt`, and `abortTest`. -/
structure Camera where
  cap : State
  cnt : Service3 → ℕ
  abortTest : Bool

/-- A service does the work of one release. Once `abortTest` is set there is no further one:
the next tick shuts the services down. -/
def serve (convert : Buf → Buf → Buf) (c : Camera) (j : Job) : Option Camera :=
  if c.abortTest || c.cap.exited then none
  else (j.work convert c.cap).map fun cap =>
    { cap
      cnt := Function.update c.cnt j.service (c.cnt j.service + 1)
      abortTest := seqv4l2.quits j.service (c.cnt j.service + 1) }

/-- The service that an operation of `Sequencer` releases when `seqCnt` is `n`. -/
def released (n : ℕ) : Op Service3 → Option Service3
  | .release i period => if n % period = 0 then some i else none
  | _ => none

/-- The releases of the first `t` ticks, each tick's in the order of the services. -/
def schedule (t : ℕ) : List Service3 :=
  (List.range t).flatMap fun n => seqv4l2.entry.filterMap (released (n + 1))

/-- What `main` of `seqv4l2.c` has done before it starts the services, the first
`seq_frame_read` aside. -/
def boot (framesPerSec reqCount : ℕ) : State := startCapturing (initMmap framesPerSec reqCount)

def start (s : State) : Camera := ⟨s, fun _ => 0, false⟩

end Rtes.CaptureModel
