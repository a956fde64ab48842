import Rtes.CaptureModel

/-!
Who owns the buffers shared with the V4L2 driver.

`seq_frame_read` gives back what it dequeued as long as the dequeue succeeds. After `EAGAIN`
or `EIO` it goes on with the cleared `frame_buf` and queues buffer 0, which is with the driver
already; `mainloop` queues a buffer only if `read_frame` returned one.
-/

namespace Rtes.CaptureOwner

open Rtes.Bytes Rtes.Runs Rtes.CaptureModel

/-- Each mapped buffer is with exactly one of the driver and the application, once. -/
def Owned (s : State) : Prop := (s.queued ++ s.held).Perm (List.range s.nBuffers)

/-- A call of `seq_frame_read` requeues a buffer only while it is dequeued, and buffers have
one owner before the dequeue and between the dequeue and the requeue. -/
def Proper (s : State) (o : Dequeue) : Prop :=
  Owned s ∧ ∀ rc s₁, readFrame s o = some (rc, s₁) →
    Owned s₁ ∧ (s₁.exited = false → s₁.frameBuf.index ∈ s₁.held)

/-- Between two calls. -/
structure Idle (s : State) : Prop where
  owned : Owned s
  held : s.held = []
  running : s.exited = false

lemma Idle.mem_queued {s : State} (h : Idle s) {i : ℕ} : i ∈ s.queued ↔ i < s.nBuffers := by
  have hp := h.owned
  rw [Owned, h.held, List.append_nil] at hp
  rw [hp.mem_iff, List.mem_range]

/-! ### The requests -/

lemma Owned.qbuf {s : State} (h : Owned s) : Owned (qbuf s) := by
  unfold CaptureModel.qbuf
  split_ifs with hi
  · have hmove : (s.queued ++ [s.frameBuf.index] ++ s.held.erase s.frameBuf.index).Perm
        (s.queued ++ s.held) := by
      rw [List.append_assoc]
      exact (List.perm_cons_erase hi).symm.append_left s.queued
    exact hmove.trans h
  · exact h

lemma Owned.readFrame {s s₁ : State} {o : Dequeue} {rc : Bool} (h : Owned s)
    (hr : readFrame s o = some (rc, s₁)) : Owned s₁ := by
  cases o with
  | ok i data =>
    simp only [CaptureModel.readFrame] at hr
    split_ifs at hr with hi
    obtain ⟨-, rfl⟩ := Prod.mk.inj (Option.some.inj hr)
    have hmove : (s.queued.erase i ++ i :: s.held).Perm (s.queued ++ s.held) :=
      List.perm_middle.trans ((List.perm_cons_erase hi).symm.append_right s.held)
    exact hmove.trans h
  | eagain | eio | other =>
    obtain ⟨-, rfl⟩ := Prod.mk.inj (Option.some.inj hr)
    exact h

/-- A call that gets a buffer stores its bytes and gives it back. -/
lemma seqFrameRead_ok {s s' : State} (h : Idle s) {i : ℕ} {data : List Byte}
    (hs : seqFrameRead s (.ok i data) = some s') :
    i ∈ s.queued ∧ s' = { toRing (dequeued s i data) with
      queued := s.queued.erase i ++ [i], held := [] } := by
  unfold seqFrameRead at hs
  rw [h.running, if_neg Bool.false_ne_true, Option.map_eq_some_iff] at hs
  obtain ⟨⟨rc, s₁⟩, hr, hs'⟩ := hs
  simp only [readFrame] at hr
  split_ifs at hr with hi
  obtain ⟨rfl, rfl⟩ := Prod.mk.inj (Option.some.inj hr)
  have hlt : i < s.nBuffers := h.mem_queued.mp hi
  refine ⟨hi, ?_⟩
  rw [← hs']
  simp [dequeued, toRing, qbuf, hlt, h.held]

lemma Idle.seqFrameRead {s s' : State} (h : Idle s) {i : ℕ} {data : List Byte}
    (hs : seqFrameRead s (.ok i data) = some s') : Idle s' := by
  obtain ⟨hi, rfl⟩ := seqFrameRead_ok h hs
  have hlt : i < s.nBuffers := h.mem_queued.mp hi
  have hmove : (s.queued.erase i ++ [i]).Perm s.queued :=
    (List.perm_append_singleton i _).trans (List.perm_cons_erase hi).symm
  have hq : s.queued.Perm (List.range s.nBuffers) := by
    simpa [Owned, h.held] using h.owned
  refine ⟨?_, rfl, ?_⟩
  · simpa [Owned, toRing, dequeued] using hmove.trans hq
  · simpa [toRing, dequeued] using hlt

/-! ### Start -/

lemma foldl_qbuf {s : State} {is : List ℕ} (hheld : s.held = is) :
    ∃ fb, is.foldl (fun s i => qbuf { s with frameBuf := ⟨i, 0⟩ }) s =
      { s with queued := s.queued ++ is, held := [], frameBuf := fb } := by
  induction is generalizing s with
  | nil => exact ⟨s.frameBuf, by rw [List.append_nil, List.foldl_nil, ← hheld]⟩
  | cons i is ih =>
    have hq : qbuf { s with frameBuf := ⟨i, 0⟩ } =
        { s with queued := s.queued ++ [i], held := is, frameBuf := ⟨i, 0⟩ } := by
      simp [qbuf, hheld]
    obtain ⟨fb, hfb⟩ := @ih { s with queued := s.queued ++ [i], held := is, frameBuf := ⟨i, 0⟩ } rfl
    refine ⟨fb, ?_⟩
    rw [List.foldl_cons, hq, hfb, List.append_assoc, List.singleton_append]

lemma boot_eq (framesPerSec reqCount : ℕ) :
    ∃ fb, boot framesPerSec reqCount = { initMmap framesPerSec reqCount with
      queued := List.range reqCount, held := [], frameBuf := fb } :=
  foldl_qbuf (s := initMmap framesPerSec reqCount) rfl

lemma idle_boot (framesPerSec reqCount : ℕ) : Idle (boot framesPerSec reqCount) := by
  obtain ⟨fb, h⟩ := boot_eq framesPerSec reqCount
  rw [h]
  exact ⟨by simp [Owned, initMmap], rfl, rfl⟩

/-! ### Runs -/

lemma proper_ok {s : State} (h : Idle s) (i : ℕ) (data : List Byte) :
    Proper s (.ok i data) := by
  refine ⟨h.owned, fun rc s₁ hr => ⟨h.owned.readFrame hr, fun _ => ?_⟩⟩
  simp only [readFrame] at hr
  split_ifs at hr with hi
  obtain ⟨-, rfl⟩ := Prod.mk.inj (Option.some.inj hr)
  exact List.mem_cons_self

/-- After a dequeue that failed, buffer 0 is queued a second time. -/
lemma not_proper {s : State} (h : Idle s) {o : Dequeue} (ho : o = .eagain ∨ o = .eio) :
    ¬ Proper s o := by
  intro hp
  have hr : readFrame s o = some (false, { s with frameBuf := ⟨0, 0⟩ }) := by
    rcases ho with rfl | rfl <;> rfl
  have hmem := (hp.2 _ _ hr).2 h.running
  rw [h.held] at hmem
  exact List.not_mem_nil hmem

lemma requeue_iff {s s' : State} {os : List Dequeue} (h : Idle s)
    (hrun : run seqFrameRead s os = some s') :
    (Meets seqFrameRead Proper s os ∧ Owned s') ↔ .eagain ∉ os ∧ .eio ∉ os := by
  induction os generalizing s with
  | nil =>
    obtain rfl := Option.some.inj hrun
    simp [Meets, h.owned]
  | cons o os ih =>
    obtain ⟨s₁, h₁, hrun₁⟩ := run_cons.mp hrun
    cases o with
    | ok i data =>
      have hrest := ih (h.seqFrameRead h₁) hrun₁
      simpa [Meets, proper_ok h, h₁] using hrest
    | eagain => simp [Meets, not_proper h (Or.inl rfl)]
    | eio => simp [Meets, not_proper h (Or.inr rfl)]
    | other =>
      -- the process has exited, so this was the last call
      obtain rfl : s₁ = { s with frameBuf := ⟨0, 0⟩, exited := true } := by
        simpa [seqFrameRead, h.running, readFrame] using h₁.symm
      obtain rfl : os = [] := by
        cases os with
        | nil => rfl
        | cons o os =>
          obtain ⟨s₂, h₂, -⟩ := run_cons.mp hrun₁
          simp [seqFrameRead] at h₂
      obtain rfl := Option.some.inj hrun₁
      have hp : Proper s .other := by
        refine ⟨h.owned, fun rc s₂ hr => ⟨h.owned.readFrame hr, ?_⟩⟩
        obtain ⟨-, rfl⟩ := Prod.mk.inj (Option.some.inj hr)
        simp
      have ho : Owned { s with frameBuf := ⟨0, 0⟩, exited := true } := h.owned
      simp [Meets, hp, ho]

/-- **Buffer ownership**: `seq_frame_read` queues only buffers it has dequeued, in a run in
which no dequeue fails, and in no other. -/
theorem requeue_owned_iff {framesPerSec reqCount : ℕ} {os : List Dequeue} {s : State}
    (hrun : run seqFrameRead (boot framesPerSec reqCount) os = some s) :
    (Meets seqFrameRead Proper (boot framesPerSec reqCount) os ∧ Owned s) ↔
      .eagain ∉ os ∧ .eio ∉ os :=
  requeue_iff (idle_boot framesPerSec reqCount) hrun

theorem requeue_owned_iff_two_frames :
    ∃ s, run seqFrameRead (boot 1 6) [.ok 0 [], .ok 1 []] = some s ∧ Owned s ∧
      Meets seqFrameRead Proper (boot 1 6) [.ok 0 [], .ok 1 []] := by
  have hany : (run seqFrameRead (boot 1 6) [.ok 0 [], .ok 1 []]).isSome := by decide +kernel
  obtain ⟨s, hs⟩ := Option.isSome_iff_exists.mp hany
  have h := (requeue_owned_iff hs).mpr (by simp)
  exact ⟨s, hs, h.2, h.1⟩

/-- The first dequeue answers `EAGAIN`: buffer 0 is queued while the driver has it, and the
process exits. -/
theorem requeue_unowned :
    ∃ s s₁ s', run seqFrameRead (boot 1 6) [] = some s ∧
      readFrame s .eagain = some (false, s₁) ∧ s₁.frameBuf.index = 0 ∧ 0 ∈ s₁.queued ∧
      0 ∉ s₁.held ∧ seqFrameRead s .eagain = some s' ∧ s'.exited = true := by
  refine ⟨_, _, _, rfl, rfl, rfl, ?_, ?_, rfl, ?_⟩ <;> decide +kernel

end Rtes.CaptureOwner
