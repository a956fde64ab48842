import Rtes.CaptureOwner
import Rtes.Ring

/-!
The ring of frames between acquisition and processing in `seqv4l2.c`.

Five frames are read for each one that is processed, and the ring has `3 * FRAMES_PER_SEC`
slots. `Pace` is the intended traffic: groups of five reads, each group consumed by one
`seq_frame_process`. The schedule follows it whatever the size of the ring.
-/

namespace Rtes.CaptureRing

open Rtes.Bytes Rtes.Runs Rtes.Ring Rtes.SeqModel Rtes.CaptureModel Rtes.CaptureOwner

/-- The ring neither overflows nor underflows, and the frame in the middle of each group of
five is the one that was processed. -/
def Lossless (s : State) : Prop :=
  0 ≤ s.ring.count ∧ s.ring.count ≤ s.ring.ringSize ∧
    ∀ k r, s.processed[k]? = some r → r = some (5 * k + 2)

/-! ### The indices -/

/-- Where the indices stand, by the numbers of reads and of frames processed. -/
structure Indexed (s : State) : Prop where
  tail : s.ring.tailIdx = s.reads % s.ring.ringSize
  head : s.ring.headIdx = 5 * s.processed.length % s.ring.ringSize
  count : s.ring.count = s.reads - 5 * s.processed.length
  slots : Keeps s.ring.ringSize s.reads (fun k => (s.ring.saveFrame k).reader) some

lemma Indexed.toRing {s : State} (h : Indexed s) : Indexed (toRing s) := by
  refine ⟨?_, h.head, ?_, ?_⟩
  · simp only [CaptureModel.toRing, h.tail, Nat.mod_add_mod]
  · simp only [CaptureModel.toRing, h.count]
    push_cast
    ring
  · have heq : (fun k => ((CaptureModel.toRing s).ring.saveFrame k).reader) =
        Function.update (fun k => (s.ring.saveFrame k).reader) (s.reads % s.ring.ringSize)
          (some s.reads) := by
      funext k
      simp only [CaptureModel.toRing, h.tail, Function.update_apply]
      split_ifs <;> rfl
    rw [heq]
    exact h.slots.write

lemma Indexed.seqFrameProcess {s : State} (h : Indexed s) (convert : Buf → Buf → Buf) :
    Indexed (seqFrameProcess convert s) := by
  refine ⟨h.tail, ?_, ?_, h.slots⟩
  · simp only [CaptureModel.seqFrameProcess, h.head, Nat.mod_add_mod, List.length_append,
      List.length_singleton]
    congr 1
  · simp only [CaptureModel.seqFrameProcess, h.count, List.length_append, List.length_singleton]
    push_cast
    ring

lemma Indexed.seqFrameRead {s s' : State} (h : Indexed s) (hi : Idle s) {i : ℕ}
    {data : List Byte} (hs : seqFrameRead s (.ok i data) = some s') : Indexed s' := by
  obtain ⟨-, rfl⟩ := seqFrameRead_ok hi hs
  have hd : Indexed (dequeued s i data) := ⟨h.tail, h.head, h.count, h.slots⟩
  exact ⟨hd.toRing.tail, hd.toRing.head, hd.toRing.count, hd.toRing.slots⟩

/-- The frame that `seq_frame_process` takes, if it is still there. -/
lemma Indexed.processed {s : State} (h : Indexed s) (convert : Buf → Buf → Buf)
    (hr : 5 * s.processed.length + 2 < s.reads)
    (hn : s.reads ≤ 5 * s.processed.length + 2 + s.ring.ringSize) :
    (CaptureModel.seqFrameProcess convert s).processed =
      s.processed ++ [some (5 * s.processed.length + 2)] := by
  have hslot := h.slots _ hr hn
  simp only [CaptureModel.seqFrameProcess, h.head, Nat.mod_add_mod, hslot]

/-! ### The pace -/

/-- `done` groups are processed and `waiting` frames of the next are read. -/
structure Pace where
  done : ℕ
  waiting : ℕ

def pace (q : Pace) : Service3 → Option Pace
  | .acquisition => if q.waiting < 5 then some ⟨q.done, q.waiting + 1⟩ else none
  | .process => if q.waiting = 5 then some ⟨q.done + 1, 0⟩ else none
  | .storage => some q

lemma releases_eq (n : ℕ) :
    seqv4l2.entry.filterMap (released n) =
      if n % 100 = 0 then [.acquisition, .process, .storage]
      else if n % 20 = 0 then [.acquisition] else [] := by
  have h : n % 100 = 0 → n % 20 = 0 := by omega
  by_cases h100 : n % 100 = 0
  · simp [seqv4l2, List.filterMap_cons, released, h100, h h100]
  · by_cases h20 : n % 20 = 0 <;> simp [seqv4l2, List.filterMap_cons, released, h100, h20]

lemma schedule_succ (t : ℕ) :
    schedule (t + 1) = schedule t ++ seqv4l2.entry.filterMap (released (t + 1)) := by
  simp [schedule, List.range_succ]

lemma schedule_mono {t t' : ℕ} (h : t ≤ t') : schedule t <+: schedule t' := by
  induction t', h using Nat.le_induction with
  | base => exact List.prefix_rfl
  | succ t' _ ih => exact ih.trans (schedule_succ t' ▸ List.prefix_append _ _)

/-- **The schedule keeps the pace.** -/
lemma run_pace (t : ℕ) : run pace ⟨0, 0⟩ (schedule t) = some ⟨t / 100, t % 100 / 20⟩ := by
  induction t with
  | zero => rfl
  | succ t ih =>
    rw [schedule_succ, run_append]
    refine ⟨_, ih, ?_⟩
    rw [releases_eq]
    split_ifs with h100 h20
    · -- the fifth read of a group, and its processing
      have hw : t % 100 / 20 = 4 := by omega
      have hd : (t + 1) / 100 = t / 100 + 1 := by omega
      simp [run, pace, hw, hd, h100]
    · have hw : t % 100 / 20 < 5 := by omega
      have hd : (t + 1) / 100 = t / 100 := by omega
      have hw' : (t + 1) % 100 / 20 = t % 100 / 20 + 1 := by omega
      simp [run, pace, hw, hd, hw']
    · have hd : (t + 1) / 100 = t / 100 := by omega
      have hw : (t + 1) % 100 / 20 = t % 100 / 20 := by omega
      simp [run, hd, hw]

/-- The frames read so far only grow in number. -/
lemma pace_le {q q' : Pace} {i : Service3} (hi : pace q i = some q') :
    5 * q.done + q.waiting ≤ 5 * q'.done + q'.waiting := by
  cases i with
  | acquisition =>
    simp only [pace] at hi
    split_ifs at hi
    obtain rfl := Option.some.inj hi
    dsimp only
    omega
  | process =>
    simp only [pace] at hi
    split_ifs at hi
    obtain rfl := Option.some.inj hi
    dsimp only
    omega
  | storage =>
    obtain rfl := Option.some.inj hi
    exact le_rfl

lemma run_pace_of_isPrefix {t : ℕ} {l : List Service3} (h : l <+: schedule t) :
    ∃ q, run pace ⟨0, 0⟩ l = some q ∧ 5 * q.done + q.waiting ≤ t / 20 := by
  obtain ⟨l', hl⟩ := h
  have hrun := run_pace t
  rw [← hl, run_append] at hrun
  obtain ⟨q, hq, hrest⟩ := hrun
  have hle := run_inv (I := fun q' => 5 * q.done + q.waiting ≤ 5 * q'.done + q'.waiting)
    (fun _ _ _ h hi => h.trans (pace_le hi)) le_rfl hrest
  dsimp only at hle
  exact ⟨q, hq, by omega⟩

/-! ### Simulation -/

/-- The ring is where the pace says. -/
structure Follows (n : ℕ) (s : State) (q : Pace) : Prop where
  idle : Idle s
  size : s.ring.ringSize = n
  indexed : Indexed s
  reads : s.reads = 5 * q.done + 1 + q.waiting
  processed : s.processed.length = q.done
  waiting : q.waiting ≤ 5
  middle : 4 ≤ n → ∀ k r, s.processed[k]? = some r → r = some (5 * k + 2)

lemma Follows.lossless {n : ℕ} {s : State} {q : Pace} (h : Follows n s q)
    (hn : q.waiting < n) (hm : 4 ≤ n ∨ q.done = 0) : Lossless s := by
  have hcount := h.indexed.count
  rw [h.reads, h.processed] at hcount
  push_cast at hcount
  refine ⟨by omega, by rw [h.size]; omega, ?_⟩
  rcases hm with hm | hm
  · exact h.middle hm
  · have hnil : s.processed = [] := List.length_eq_zero_iff.mp (h.processed.trans hm)
    simp [hnil]

lemma Follows.seqFrameRead {n : ℕ} {s s' : State} {q : Pace} (h : Follows n s q)
    (hw : q.waiting < 5) {o : Dequeue} (ho : o.Succeeds) (hs : seqFrameRead s o = some s') :
    Follows n s' ⟨q.done, q.waiting + 1⟩ := by
  obtain ⟨i, data, rfl⟩ := ho.eq_ok
  have hidle := h.idle.seqFrameRead hs
  have hindexed := h.indexed.seqFrameRead h.idle hs
  obtain ⟨-, rfl⟩ := seqFrameRead_ok h.idle hs
  refine ⟨hidle, h.size, hindexed, ?_, h.processed, hw, h.middle⟩
  have hreads := h.reads
  simp only [toRing, dequeued]
  omega

lemma Follows.seqFrameProcess {n : ℕ} {s : State} {q : Pace} (h : Follows n s q)
    (hw : q.waiting = 5) (convert : Buf → Buf → Buf) :
    Follows n (seqFrameProcess convert s) ⟨q.done + 1, 0⟩ := by
  have hreads := h.reads
  refine ⟨⟨h.idle.owned, h.idle.held, h.idle.running⟩, h.size,
    h.indexed.seqFrameProcess convert, ?_, ?_, by simp, fun hn => ?_⟩
  · simp only [CaptureModel.seqFrameProcess]
    omega
  · simp [CaptureModel.seqFrameProcess, h.processed]
  · -- the frame is still in its slot, as at most three have been read after it
    have hp := h.processed
    have hsize := h.size
    rw [h.indexed.processed convert (by omega) (by omega)]
    intro k r hk
    rcases Nat.lt_trichotomy k s.processed.length with hlt | rfl | hgt
    · rw [List.getElem?_append_left hlt] at hk
      exact h.middle hn k r hk
    · simpa using hk.symm
    · rw [List.getElem?_eq_none (by simp; omega)] at hk
      exact absurd hk (by simp)

lemma Follows.work {n : ℕ} {s s' : State} {q q' : Pace} {j : Job} (h : Follows n s q)
    (hj : j.Succeeds) {convert : Buf → Buf → Buf} (hs : j.work convert s = some s')
    (hq : pace q j.service = some q') : Follows n s' q' := by
  cases j with
  | acquisition o =>
    simp only [Job.service, pace] at hq
    split_ifs at hq with hw
    obtain rfl := Option.some.inj hq
    exact h.seqFrameRead hw hj hs
  | process =>
    simp only [Job.service, pace] at hq
    split_ifs at hq with hw
    obtain rfl := Option.some.inj hq
    obtain rfl := Option.some.inj hs
    exact h.seqFrameProcess hw convert
  | storage =>
    obtain rfl := Option.some.inj hq
    obtain rfl := Option.some.inj hs
    exact ⟨⟨h.idle.owned, h.idle.held, h.idle.running⟩, h.size,
      ⟨h.indexed.tail, h.indexed.head, h.indexed.count, h.indexed.slots⟩, h.reads,
      h.processed, h.waiting, h.middle⟩

/-- **The camera follows the pace.** -/
lemma Follows.run {n : ℕ} {c c' : Camera} {q q' : Pace} {js : List Job}
    {convert : Buf → Buf → Buf} (h : Follows n c.cap q) (hok : ∀ j ∈ js, j.Succeeds)
    (hrun : run (serve convert) c js = some c') (hq : run pace q (js.map Job.service) = some q') :
    Follows n c'.cap q' := by
  induction js generalizing c q with
  | nil =>
    obtain rfl := Option.some.inj hrun
    obtain rfl := Option.some.inj hq
    exact h
  | cons j js ih =>
    obtain ⟨c₁, hc₁, hrun₁⟩ := run_cons.mp hrun
    obtain ⟨q₁, hq₁, hq₂⟩ := run_cons.mp hq
    unfold serve at hc₁
    split_ifs at hc₁
    obtain ⟨s, hs, rfl⟩ := Option.map_eq_some_iff.mp hc₁
    exact ih (h.work (hok j (by simp)) hs hq₁) (fun j' hj' => hok j' (by simp [hj'])) hrun₁ hq₂

lemma follows_start {framesPerSec reqCount : ℕ} {o : Dequeue} {s : State} (ho : o.Succeeds)
    (hup : seqFrameRead (boot framesPerSec reqCount) o = some s) :
    Follows (3 * framesPerSec) s ⟨0, 0⟩ := by
  obtain ⟨i, data, rfl⟩ := ho.eq_ok
  have hidle := idle_boot framesPerSec reqCount
  have hindexed : Indexed (boot framesPerSec reqCount) := by
    obtain ⟨fb, hboot⟩ := boot_eq framesPerSec reqCount
    rw [hboot]
    exact ⟨by simp [initMmap], by simp [initMmap], rfl, keeps_zero⟩
  refine ⟨hidle.seqFrameRead hup, ?_, hindexed.seqFrameRead hidle hup, ?_, ?_, by simp, ?_⟩
  all_goals
    obtain ⟨-, rfl⟩ := seqFrameRead_ok hidle hup
    obtain ⟨fb, hboot⟩ := boot_eq framesPerSec reqCount
    simp [hboot, toRing, dequeued, initMmap]

/-- **The frame ring** loses no frame while it is not driven for 60 ticks, or if it has the
six slots that two frames a second would give it; as it is, the fourth frame overruns it. -/
theorem ring_lossless_iff {framesPerSec reqCount t : ℕ} (hF : 1 ≤ framesPerSec)
    {convert : Buf → Buf → Buf} {o : Dequeue} {s : State} {js : List Job} {c : Camera}
    (hup : seqFrameRead (boot framesPerSec reqCount) o = some s) (ho : o.Succeeds)
    (hjs : js.map Job.service = schedule t) (hok : ∀ j ∈ js, j.Succeeds)
    (hrun : run (serve convert) (start s) js = some c) :
    (∀ pre c, pre <+: js → run (serve convert) (start s) pre = some c → Lossless c.cap) ↔
      t < 60 ∨ 2 ≤ framesPerSec := by
  have hstart : Follows (3 * framesPerSec) (start s).cap ⟨0, 0⟩ := follows_start ho hup
  constructor
  · intro h
    by_contra hnot
    obtain ⟨ht, rfl⟩ : 60 ≤ t ∧ framesPerSec = 1 := by omega
    -- the three reads of the first 60 ticks
    have hpre : (js.take 3).map Job.service = schedule 60 := by
      rw [List.map_take, hjs]
      exact (List.prefix_iff_eq_take.mp (schedule_mono ht)).symm
    rw [← List.take_append_drop 3 js, run_append] at hrun
    obtain ⟨c₁, hc₁, -⟩ := hrun
    have hf := hstart.run (fun j hj => hok j (List.mem_of_mem_take hj)) hc₁
      (hpre ▸ run_pace 60)
    have hcount := hf.indexed.count
    have hle := (h _ c₁ (List.take_prefix 3 js) hc₁).2.1
    rw [hf.reads, hf.processed] at hcount
    rw [hf.size, hcount] at hle
    exact absurd hle (by decide)
  · intro h pre c' hpre hc'
    obtain ⟨q, hq, hle⟩ := run_pace_of_isPrefix (hjs ▸ hpre.map Job.service)
    have hf := hstart.run (fun j hj => hok j (hpre.subset hj)) hc' hq
    have hw := hf.waiting
    exact hf.lossless (by omega) (by omega)

/-- The first two releases of `Service_1`. -/
theorem ring_lossless_iff_two_releases :
    ∃ s c, seqFrameRead (boot 1 6) (.ok 0 []) = some s ∧
      run (serve fun _ pad => pad) (start s) [.acquisition (.ok 1 []), .acquisition (.ok 2 [])] =
        some c ∧ Lossless c.cap := by
  have hok : ∀ j ∈ [Job.acquisition (.ok 1 []), .acquisition (.ok 2 [])], j.Succeeds := by
    simp [Job.Succeeds, Dequeue.Succeeds]
  have hjs : [Job.acquisition (.ok 1 []), .acquisition (.ok 2 [])].map Job.service =
      schedule 59 := by decide +kernel
  have ho : (Dequeue.ok 0 []).Succeeds := trivial
  obtain ⟨s, hup⟩ : ∃ s, seqFrameRead (boot 1 6) (.ok 0 []) = some s := ⟨_, rfl⟩
  have hs := Option.some.inj hup
  obtain ⟨c, hrun⟩ : ∃ c, run (serve fun _ pad => pad) (start s)
      [.acquisition (.ok 1 []), .acquisition (.ok 2 [])] = some c := by
    rw [← hs]
    exact ⟨_, rfl⟩
  refine ⟨s, c, hup, hrun, ?_⟩
  exact (ring_lossless_iff le_rfl hup ho hjs hok hrun).mpr (Or.inl (by decide)) _ _
    List.prefix_rfl hrun

/-- The third release fills a fourth slot of three, and the first frame processed is 5. -/
theorem ring_overrun :
    ∃ s c₃ c, seqFrameRead (boot 1 6) (.ok 0 []) = some s ∧
      run (serve fun _ pad => pad) (start s)
        [.acquisition (.ok 1 []), .acquisition (.ok 2 []), .acquisition (.ok 3 [])] = some c₃ ∧
      c₃.cap.ring.ringSize = 3 ∧ c₃.cap.ring.count = 4 ∧
      run (serve fun _ pad => pad) c₃
        [.acquisition (.ok 4 []), .acquisition (.ok 5 []), .process] = some c ∧
      c.cap.processed = [some 5] := by
  refine ⟨_, _, _, rfl, rfl, ?_, ?_, rfl, ?_⟩ <;> decide +kernel

end Rtes.CaptureRing
