import Rtes.SeqModel

/-!
What holds of the Linux sequencers in every interleaving: who is left waiting when
`Sequencer` has shut down, that no release is left out or made twice, and when none is lost.
-/

namespace Rtes.SeqShutdown

open Rtes.Runs Rtes.Release Rtes.ReleaseThread Rtes.SeqModel Finset
open Service7

/-- Where a program gets to by the actions `as`. -/
abbrev Reaches {ι : Type} [DecidableEq ι] (p : Script ι) (as : List (Act ι)) (s : State ι) : Prop :=
  run (step p) (init p) as = some s

/-- No step of the run is service `i` finding its flag down after its shutdown post, with
nothing left to take. -/
abbrev InTime {ι : Type} [DecidableEq ι] (p : Script ι) (as : List (Act ι)) (i : ι) : Prop :=
  Meets (step p) (Prompt i) (init p) as

/-! ### `seqgen.c`, `seqgen2.c`, `seqgen3.c` -/

/-- **Shutdown strands no service that reads its flag in time**, in any of the three
programs. In the two whose `Sequencer` is a thread it strands every other. -/
theorem shutdown_strands_iff (prog : Program) (sequencePeriods : ℕ) (as : List (Act Service7))
    (s : State Service7) (hr : Reaches (prog.script sequencePeriods) as s) (hd : s.done = true)
    (i : Service7) :
    (InTime (prog.script sequencePeriods) as i → ¬ (s.svc i).Stranded) ∧
      (prog ≠ .seqgen3 → ((s.svc i).Stranded ↔ ¬ InTime (prog.script sequencePeriods) as i)) := by
  refine ⟨fun hq => not_stranded (prog.post_mem sequencePeriods) hq hr hd, fun hprog => ?_⟩
  cases prog with
  | seqgen => exact stranded_iff (by decide) shutdown_nodup post_mem_shutdown hr hd
  | seqgen2 => exact stranded_iff (by decide) shutdown_nodup post_mem_shutdown hr hd
  | seqgen3 => exact absurd rfl hprog

/-- `Service_1` waits, `Sequencer` runs to its end, and then `Service_1` takes its shutdown post
and finds `abortS1` up. -/
def servedThread : List (Act Service7) :=
  [Act.svc S1] ++ List.replicate 24 (Act.seq 0) ++ List.replicate 4 (Act.svc S1)

theorem shutdown_strands_iff_served :
    ∃ s, Reaches (Program.seqgen2.script 1) servedThread s ∧
      InTime (Program.seqgen2.script 1) servedThread S1 ∧
      (s.done = true ∧ (s.svc S1).waits = 1 ∧ (s.svc S1).final = true) ∧ ¬ (s.svc S1).Stranded := by
  have hq : InTime (Program.seqgen2.script 1) servedThread S1 := by decide +kernel
  obtain ⟨s, hr, hs⟩ : ∃ s, Reaches (Program.seqgen2.script 1) servedThread s ∧
      s.done = true ∧ (s.svc S1).waits = 1 ∧ (s.svc S1).final = true := by
    refine exists_run_of_any (P := fun s : State Service7 =>
      s.done = true ∧ (s.svc S1).waits = 1 ∧ (s.svc S1).final = true) ?_
    decide +kernel
  exact ⟨s, hr, hq, hs, (shutdown_strands_iff .seqgen2 1 _ s hr hs.1 S1).1 hq⟩

/-- `Service_1` waits, `Sequencer` runs its one cycle and makes the first shutdown post,
`Service_1` takes it, finds `abortS1` down and waits again, `Sequencer` goes on to its end. -/
def strandingThread : List (Act Service7) :=
  [Act.svc S1] ++ List.replicate 11 (Act.seq 0) ++ List.replicate 4 (Act.svc S1) ++
    List.replicate 13 (Act.seq 0)

/-- The same, from a signal of the timer. -/
def strandingHandler : List (Act Service7) :=
  [Act.svc S1, Act.expire, Act.fire] ++ List.replicate 6 (Act.seq 0) ++
    List.replicate 4 (Act.svc S1) ++ List.replicate 13 (Act.seq 0)

theorem shutdown_strands_service1 :
    (∃ s, Reaches (Program.seqgen.script 1) strandingThread s ∧
      s.done = true ∧ (s.svc S1).Stranded) ∧
    (∃ s, Reaches (Program.seqgen2.script 1) strandingThread s ∧
      s.done = true ∧ (s.svc S1).Stranded) ∧
    ∃ s, Reaches (Program.seqgen3.script 1) strandingHandler s ∧
      s.done = true ∧ (s.svc S1).Stranded := by
  let P : State Service7 → Prop := fun s =>
    s.done = true ∧ (s.svc S1).pc = .wait ∧ (s.svc S1).sem = 0
  refine ⟨?_, ?_, ?_⟩
  · refine exists_run_of_any (P := P) ?_
    decide +kernel
  · refine exists_run_of_any (P := P) ?_
    decide +kernel
  · refine exists_run_of_any (P := P) ?_
    decide +kernel

/-! ### `seqgen2.c` -/

lemma mem_releases (i : Service7) :
    (i, divisor i) ∈ [S1, S2, S3, S4, S5, S6, S7].map fun i => (i, divisor i) :=
  List.mem_map_of_mem (by cases i <;> decide)

/-- **No release is left out or made twice.** The posts of a service are the cycles its divisor
divides among those in which `Sequencer` came by, and the shutdown's; they are the waits
that returned, the value of the semaphore and the posts that found it full; `SiCnt` counts these
waits; and `Sequencer` comes by in every cycle. No post finds the semaphore full, in any
interleaving, exactly when `sequencePeriods` is below `SEM_VALUE_MAX` times the divisor. -/
theorem release_conservation (sequencePeriods : ℕ) (i : Service7) :
    (∀ as s, Reaches (seqgen2 sequencePeriods) as s →
      (s.svc i).posts =
          #{n ∈ (s.svc i).cycles | divisor i ∣ n} + (if (s.svc i).final then 1 else 0) ∧
        ((s.svc i).posts = (s.svc i).waits + (s.svc i).sem + (s.svc i).lost ∧
          (s.svc i).sem ≤ semValueMax) ∧
        ((s.svc i).cnt = (s.svc i).waits ∨ (s.svc i).cnt + 1 = (s.svc i).waits) ∧
        ∃ c, (c = s.seqCnt ∨ c + 1 = s.seqCnt) ∧ (s.svc i).cycles = Icc 1 c) ∧
    ((∀ as s, Reaches (seqgen2 sequencePeriods) as s →
        (s.svc i).posts = (s.svc i).waits + (s.svc i).sem) ↔
      sequencePeriods < divisor i * semValueMax) := by
  refine ⟨fun as s hr => ?_, ?_⟩
  · obtain ⟨htally, hcounts, c, hc, -, hcycles⟩ :=
      conserved (by decide) shutdown_nodup post_mem_shutdown hr (mem_releases i)
    refine ⟨htally, ⟨hcounts.tokens, hcounts.room⟩, ?_, c, hc, hcycles⟩
    have hc : (s.svc i).cnt + (if (s.svc i).pc = .count then 1 else 0) = (s.svc i).waits :=
      hcounts.counted
    split_ifs at hc <;> omega
  · have hN : 0 < divisor i ∧ 1 < divisor i * semValueMax := by cases i <;> decide
    refine (none_lost_iff (by decide) shutdown_nodup post_mem_shutdown (mem_releases i)).trans ?_
    rw [Nat.div_lt_iff_lt_mul hN.1, mul_comm, max_lt_iff]
    exact and_iff_right hN.2

/-- Two cycles and the shutdown, with `Service_1` lagging one post behind; and the 2000 cycles that
`main` asks for lose no post. -/
theorem release_conservation_two_cycles :
    (∃ s, Reaches (seqgen2 2)
        (List.replicate 20 (Act.seq 0) ++ List.replicate 3 (Act.svc S1) ++
          List.replicate 14 (Act.seq 0)) s ∧
      (s.svc S1).final = true ∧ (s.svc S1).sem = 1 ∧
      (s.svc S1).posts = #{n ∈ (s.svc S1).cycles | divisor S1 ∣ n} + 1) ∧
    ∀ as s, Reaches (seqgen2 2000) as s → (s.svc S1).posts = (s.svc S1).waits + (s.svc S1).sem := by
  refine ⟨?_, (release_conservation 2000 S1).2.mpr (by decide)⟩
  obtain ⟨s, hr, hf, hsem⟩ : ∃ s, Reaches (seqgen2 2)
      (List.replicate 20 (Act.seq 0) ++ List.replicate 3 (Act.svc S1) ++
        List.replicate 14 (Act.seq 0)) s ∧ (s.svc S1).final = true ∧ (s.svc S1).sem = 1 := by
    refine exists_run_of_any
      (P := fun s : State Service7 => (s.svc S1).final = true ∧ (s.svc S1).sem = 1) ?_
    decide +kernel
  refine ⟨s, hr, hf, hsem, ?_⟩
  rw [((release_conservation 2 S1).1 _ s hr).1, hf]
  rfl

/-- `Service_1` is never scheduled, and `Sequencer` comes by it in `2 * SEM_VALUE_MAX` cycles: with
the shutdown's it makes one post more than the semaphore can hold. -/
theorem seqgen2_post_lost :
    ∃ n s, Reaches (seqgen2 (2 * semValueMax)) (List.replicate n (Act.seq 0)) s ∧
      (s.svc S1).posts = semValueMax + 1 ∧ (s.svc S1).waits = 0 ∧
      (s.svc S1).posts ≠ (s.svc S1).waits + (s.svc S1).sem := by
  obtain ⟨n, s, hr, hposts, hwaits⟩ := exists_unserved semValueMax_pos (2 * semValueMax)
    (by decide) shutdown_nodup post_mem_shutdown (mem_releases S1)
  have hroom : (s.svc S1).sem ≤ semValueMax :=
    (conserved (by decide) shutdown_nodup post_mem_shutdown hr (mem_releases S1)).2.1.room
  have hdiv : max 1 (2 * semValueMax) / divisor S1 = semValueMax := by decide
  rw [hdiv] at hposts
  refine ⟨n, s, hr, hposts, hwaits, ?_⟩
  rw [hposts, hwaits]
  omega

/-! ### `seqv4l2.c` -/

lemma seqv4l2_guarded : Guarded (fun _ => false) seqv4l2.shutdown := by
  simp [seqv4l2, Guarded]

lemma seqv4l2_post (i : Service3) : .post i ∈ seqv4l2.shutdown := by cases i <;> decide

/-- **Shutdown of the camera**: nobody is left waiting, and a service that takes a release
when its flag is up never starts its work function. -/
theorem camera_shutdown (as : List (Act Service3)) (s : State Service3)
    (hr : Reaches seqv4l2 as s) (i : Service3) :
    (s.done = true → ¬ (s.svc i).Stranded) ∧
      ((s.svc i).abort = true → (s.svc i).pc = .wait → ∀ s₁, step seqv4l2 s (.svc i) = some s₁ →
        ∀ bs s₂, run (step seqv4l2) s₁ bs = some s₂ → (s₂.svc i).pc ≠ .work) := by
  refine ⟨fun hd => not_stranded_of_guarded seqv4l2_post seqv4l2_guarded hr hd, ?_⟩
  intro ha hpc s₁ h₁ bs s₂ h₂
  have hlate : (s₁.svc i).Late := by
    cases step_moves h₁ with
    | svc hv => simpa using Service.late_of_wait ha hpc hv
  rcases (late_run hlate h₂).2 with h | h <;> simp [h]

/-- The sub-rates of `seqv4l2.c`. -/
def subRate : Service3 → ℕ
  | .acquisition => 20
  | .process => 100
  | .storage => 100

/-- A service that has not moved in the first `t` ticks, while its semaphore is not full. -/
def resting (t : ℕ) (i : Service3) : Service :=
  { Service.init with sem := t / subRate i, posts := t / subRate i, cycles := Icc 1 t }

/-- The state after `t` ticks in which no service has moved. -/
def quiet (t : ℕ) : State Service3 where
  seqCnt := t
  abortTest := false
  armed := true
  pending := false
  acts := List.replicate t ⟨[], []⟩
  svc := resting t
  done := false
  exited := false

/-- The timer runs out and `Sequencer` handles the signal to its end. -/
def tick (t : ℕ) : List (Act Service3) := [Act.expire, Act.fire] ++ List.replicate 5 (Act.seq t)

lemma resting_succ {t : ℕ} (ht : t < semValueMax) (i : Service3) :
    resting (t + 1) i = (resting t i).release semValueMax (t + 1) (subRate i) := by
  have hsem : t / subRate i < semValueMax := (Nat.div_le_self _ _).trans_lt ht
  have hcycles : insert (t + 1) (Icc 1 t) = Icc 1 (t + 1) := insert_Icc (Nat.succ_pos t)
  unfold Service.release
  split_ifs with h
  · simp [resting, Service.post, hsem, Nat.succ_div, Nat.dvd_of_mod_eq_zero h, hcycles]
  · simp [resting, Nat.succ_div, Nat.dvd_iff_mod_eq_zero, h, hcycles]

lemma run_tick {t : ℕ} (ht : t < semValueMax) :
    run (step seqv4l2) (quiet t) (tick t) = some (quiet (t + 1)) := by
  -- the activation of this tick is the last of the list
  have hget : ∀ b : Activation Service3, (List.replicate t ⟨[], []⟩ ++ [b])[t]? = some b := by
    intro b
    simp
  have hset : ∀ b c : Activation Service3,
      ((List.replicate t ⟨[], []⟩ : List (Activation Service3)) ++ [b]).set t c =
        List.replicate t ⟨[], []⟩ ++ [c] := by
    intro b c
    simp
  have hrun : run (step seqv4l2) (quiet t) (tick t) = some { quiet t with
      seqCnt := t + 1
      acts := List.replicate t ⟨[], []⟩ ++ [⟨[], []⟩]
      svc := fun i => Op.on semValueMax (t + 1) i (Op.on semValueMax (t + 1) i
        (Op.on semValueMax (t + 1) i (resting t i)
          (.release .acquisition 20)) (.release .process 100)) (.release .storage 100) } := by
    simp only [run, tick, List.replicate, List.cons_append, List.nil_append, List.foldlM_cons,
      List.foldlM_nil, step, next, seqStep, quiet, seqv4l2, hget, hset, Option.bind_eq_bind,
      Option.bind_some, Option.pure_def, Bool.false_eq_true, if_false, if_true, reduceCtorEq]
    rfl
  have hsvc : (fun i => Op.on semValueMax (t + 1) i (Op.on semValueMax (t + 1) i
        (Op.on semValueMax (t + 1) i (resting t i)
          (.release .acquisition 20)) (.release .process 100)) (.release .storage 100)) =
      resting (t + 1) := by
    funext i
    rw [resting_succ ht]
    cases i <;> simp [Op.on, subRate]
  rw [hrun, hsvc, ← List.replicate_succ']
  rfl

lemma run_ticks {n : ℕ} (hn : n ≤ semValueMax) :
    run (step seqv4l2) (init seqv4l2) ((List.range n).flatMap tick) = some (quiet n) := by
  induction n with
  | zero =>
    have hsvc : (fun _ => Service.init) = resting 0 := by
      funext i
      simp [resting, Service.init]
    simp [quiet, init, seqv4l2, hsvc]
  | succ n ih =>
    rw [List.range_succ, List.flatMap_append, run_append]
    exact ⟨_, ih (Nat.le_of_succ_le hn), by simpa using run_tick hn⟩

/-- After 1000 ticks `Service_3` stores ten frames, and the next signal shuts down. -/
theorem camera_shutdown_ten_frames :
    ∃ s, Reaches seqv4l2 ((List.range 1000).flatMap tick ++
        (List.replicate 50 (Act.svc .storage) ++ [Act.expire, Act.fire] ++
          List.replicate 8 (Act.seq 1000))) s ∧
      s.done = true ∧ ¬ (s.svc .acquisition).Stranded := by
  obtain ⟨s, hr, hd⟩ : ∃ s, run (step seqv4l2) (quiet 1000)
      (List.replicate 50 (Act.svc .storage) ++ [Act.expire, Act.fire] ++
        List.replicate 8 (Act.seq 1000)) = some s ∧ s.done = true := by
    refine exists_run_of_any (P := fun s : State Service3 => s.done = true) ?_
    decide +kernel
  have hreach := run_append.mpr ⟨_, run_ticks (n := 1000) (by decide), hr⟩
  exact ⟨s, hreach, hd, (camera_shutdown _ s hreach .acquisition).1 hd⟩

end Rtes.SeqShutdown
