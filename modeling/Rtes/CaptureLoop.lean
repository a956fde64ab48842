import Rtes.CaptureModel
import Rtes.Checked
import Rtes.Ring

/-!
The indices of the ring of frames, moved by the services of `seqv4l2.c` and by `mainloop`.

A pass of `mainloop` waits for a frame, reads it into the ring and processes and stores the one
at the head; a pass that gets no frame, or is early or interrupted, leaves the ring alone. How
many passes there are is not looked at. `seq_frame_process` moves the head by two and, having
processed the frame there, by three.
-/

namespace Rtes.CaptureLoop

open Rtes.Bytes Rtes.Checked Rtes.Runs Rtes.Ring Rtes.CaptureModel

/-! ### A pass of `mainloop` -/

/-- What `select` comes back with. -/
inductive Select
  | ready
  | timeout
  | eintr
  | other

/-- What a pass is told: by `select`, by the dequeue, and whether `nanosleep` returned 0. -/
structure Pass where
  select : Select
  dequeue : Dequeue
  slept : Bool

/-- `process_image` on the frame at the head. -/
def processImage (convert : Buf → Buf → Buf) (s : State) : State :=
  let f := s.ring.saveFrame s.ring.headIdx
  { s with
    scratchpad := convert f.frame s.scratchpad
    processFramecnt := s.processFramecnt + 1
    processed := s.processed ++ [f.reader] }

/-- "advance ring buffer for next write" -/
def advanceHead (s : State) : State :=
  { s with
    ring := { s.ring with
      headIdx := (s.ring.headIdx + 1) % s.ring.ringSize
      count := s.ring.count - 1 } }

/-- The frame goes into the ring; the one at the head is processed twice and saved. -/
def readProcess (convert : Buf → Buf → Buf) (s : State) : State :=
  advanceHead (seqFrameStore (processImage convert (processImage convert (toRing s))))

def mainloop (convert : Buf → Buf → Buf) (s : State) (p : Pass) : Option State :=
  match p.select with
  | .eintr => some s
  | .other => some { s with exited := true }
  | .timeout => some { s with exited := true }
  | .ready =>
    (readFrame s p.dequeue).map fun r =>
      if r.2.exited || !r.1 then r.2
      else if p.slept && decide (r.2.readFramecnt > 1) then qbuf (readProcess convert r.2)
      else qbuf r.2

inductive Op
  | seqFrameRead (o : Dequeue)
  | seqFrameProcess
  | mainloop (p : Pass)

/-- A process that has exited does nothing more. -/
def step (convert : Buf → Buf → Buf) (s : State) (op : Op) : Option State :=
  if s.exited then none
  else match op with
    | .seqFrameRead o => CaptureModel.seqFrameRead s o
    | .seqFrameProcess => some (CaptureModel.seqFrameProcess convert s)
    | .mainloop p => CaptureLoop.mainloop convert s p

/-! ### The indices -/

/-- The ring with its indices in place. -/
def Consistent (r : Ring) : Prop := Balanced r.ringSize r.tailIdx r.headIdx r.count

variable {convert : Buf → Buf → Buf} {s s' : State}

lemma ring_qbuf (s : State) : (qbuf s).ring = s.ring := by
  unfold qbuf
  split_ifs <;> rfl

lemma ring_readFrame {o : Dequeue} {r : Bool × State} (h : readFrame s o = some r) :
    r.2.ring = s.ring := by
  cases o with
  | ok i data =>
    simp only [readFrame] at h
    split_ifs at h
    obtain rfl := Option.some.inj h
    rfl
  | eagain | eio | other =>
    obtain rfl := Option.some.inj h
    rfl

lemma Consistent.toRing (h : Consistent s.ring) : Consistent (toRing s).ring := h.produce 1

lemma Consistent.seqFrameProcess (h : Consistent s.ring) :
    Consistent (seqFrameProcess convert s).ring := by
  have hboth := (h.consume 2).consume 3
  rwa [sub_sub] at hboth

/-- One in and one out: the count is what it was. -/
lemma Consistent.readProcess (h : Consistent s.ring) : Consistent (readProcess convert s).ring :=
  h.toRing.consume 1

lemma Consistent.seqFrameRead {o : Dequeue} (h : Consistent s.ring)
    (hs : seqFrameRead s o = some s') : Consistent s'.ring := by
  unfold CaptureModel.seqFrameRead at hs
  split_ifs at hs
  obtain ⟨r, hr, rfl⟩ := Option.map_eq_some_iff.mp hs
  have hring : Consistent r.2.ring := ring_readFrame hr ▸ h
  split_ifs
  · exact hring
  · rw [ring_qbuf]
    exact hring.toRing

lemma Consistent.mainloop {p : Pass} (h : Consistent s.ring)
    (hs : mainloop convert s p = some s') : Consistent s'.ring := by
  unfold CaptureLoop.mainloop at hs
  cases hsel : p.select with
  | eintr | other | timeout =>
    rw [hsel] at hs
    obtain rfl := Option.some.inj hs
    exact h
  | ready =>
    rw [hsel] at hs
    obtain ⟨r, hr, rfl⟩ := Option.map_eq_some_iff.mp hs
    have hring : Consistent r.2.ring := ring_readFrame hr ▸ h
    split_ifs
    · exact hring
    · rw [ring_qbuf]
      exact hring.readProcess
    · rw [ring_qbuf]
      exact hring

lemma Consistent.step {op : Op} (h : Consistent s.ring) (hs : step convert s op = some s') :
    Consistent s'.ring := by
  unfold CaptureLoop.step at hs
  split_ifs at hs
  cases op with
  | seqFrameRead o => exact h.seqFrameRead hs
  | seqFrameProcess =>
    obtain rfl := Option.some.inj hs
    exact h.seqFrameProcess
  | mainloop p => exact h.mainloop hs

/-- **The indices and the count stay consistent**, whatever the calls are and in any order, also
when the count is negative. Nothing else is asked of the state that `init_mmap` was called in. -/
theorem ring_consistent (framesPerSec reqCount : ℕ) (hf : 1 ≤ framesPerSec) {ops : List Op}
    (hs : s.ring = (initMmap framesPerSec reqCount).ring)
    (hr : run (step convert) s ops = some s') :
    s'.ring.tailIdx < s'.ring.ringSize ∧ s'.ring.headIdx < s'.ring.ringSize ∧
      (s'.ring.tailIdx : ℤ) ≡ s'.ring.headIdx + s'.ring.count [ZMOD s'.ring.ringSize] := by
  have hinit : Consistent s.ring := by
    have hsize : 0 < 3 * framesPerSec := Nat.mul_pos (by decide) hf
    rw [hs]
    exact balanced_zero hsize
  have hend : Consistent s'.ring :=
    run_inv (I := fun t => Consistent t.ring) (fun _ _ _ h hstep => h.step hstep) hinit hr
  exact ⟨hend.tail_lt, hend.head_lt, hend.balance⟩

/-- A frame is read and processed by `mainloop`; then two more, which the ring does not hold, are
processed by `seq_frame_process`. -/
theorem ring_consistent_one :
    ∃ s', run (step fun _ b => b) { boot 1 1 with readFramecnt := 1 }
        [.mainloop ⟨.ready, .ok 0 [], true⟩, .seqFrameProcess, .seqFrameProcess,
          .seqFrameRead (.ok 0 [])] = some s' ∧
      s'.ring.count = -9 ∧ s'.ring.tailIdx < s'.ring.ringSize ∧
      s'.ring.headIdx < s'.ring.ringSize ∧
      (s'.ring.tailIdx : ℤ) ≡ s'.ring.headIdx + s'.ring.count [ZMOD s'.ring.ringSize] := by
  have hr : run (step fun _ b => b) { boot 1 1 with readFramecnt := 1 }
      [.mainloop ⟨.ready, .ok 0 [], true⟩, .seqFrameProcess, .seqFrameProcess,
        .seqFrameRead (.ok 0 [])] = some _ := rfl
  exact ⟨_, hr, rfl, ring_consistent 1 1 le_rfl (by rfl) hr⟩

/-! ### The machine's arithmetic -/

/-- `(idx + k) % ring_size` as the compiler has it: the sum is an `int`, the remainder is taken of
it as an `unsigned int` and stored in an `int`. -/
def advanceInt (ringSize : ℕ) (idx k : ℤ) : Option ℤ :=
  (fitInt (idx + k)).map fun x => int32 (x % 2 ^ 32 % ringSize)

lemma advanceInt_eq {ringSize idx k : ℕ} (hidx : idx < ringSize) (hsize : ringSize + k ≤ 2 ^ 31) :
    advanceInt ringSize idx k = some ((idx + k) % ringSize : ℕ) := by
  have hfit : fitInt (idx + k) = some (idx + k : ℤ) :=
    fitInt_eq_some.mpr ⟨rfl, by omega, by omega⟩
  have hwrap : (idx + k : ℤ) % 2 ^ 32 = idx + k := Int.emod_eq_of_lt (by omega) (by omega)
  have hlt : (idx + k : ℤ) % ringSize < ringSize := Int.emod_lt_of_pos _ (by omega)
  have hnonneg : 0 ≤ (idx + k : ℤ) % ringSize := Int.emod_nonneg _ (by omega)
  rw [advanceInt, hfit, Option.map_some, hwrap, int32_eq (by omega) (by omega)]
  rfl

/-- In a consistent ring that fits the address space the model's arithmetic is the machine's: no
sum overflows and no index turns negative on its way through `unsigned int`. -/
theorem Consistent.advanceInt {r : Ring} (h : Consistent r) (hsize : r.ringSize + 3 ≤ 2 ^ 31)
    {k : ℕ} (hk : k ≤ 3) :
    advanceInt r.ringSize r.tailIdx k = some ((r.tailIdx + k) % r.ringSize : ℕ) ∧
      advanceInt r.ringSize r.headIdx k = some ((r.headIdx + k) % r.ringSize : ℕ) :=
  ⟨advanceInt_eq h.tail_lt (by omega), advanceInt_eq h.head_lt (by omega)⟩

end Rtes.CaptureLoop
