import Rtes.Loop
import Rtes.Timetable

/-!
The release times of the VxWorks sequencers `ex0.c` and `ex3.c`, and of `seqgenex0.c`, the
version of Example 0 for Linux.

A tick is one unit of `taskDelay` on VxWorks, counted from the first critical instant, and
one value of `seqCnt` on Linux. Runs are not aborted: `abortTest` stays false. What the
services do with a release is left out; the times until which `seqgenex0.c` sleeps are in
`SeqAbsDelay`.
-/

namespace Rtes.SeqTimetable

open Rtes.Loop Rtes.Timetable

inductive Service
  | S1
  | S2
  | S3
  deriving DecidableEq

open Service

/-! ### VxWorks -/

/-- What `Sequencer` gives at a critical instant. -/
def critical : List (Stmt Service) := [.give S1, .give S2, .give S3]

/-- `Sequencer` of `ex0.c`. -/
def ex0 : Looper Service where
  start := critical
  body :=
    [.delay 2, .give S1,
      .delay 2, .give S1,
      .delay 2, .give S1,
      .delay 2, .give S1,
      .delay 2, .give S1, .give S2,
      .delay 2, .give S1,
      .delay 2, .give S1,
      .delay 1, .give S3,
      .delay 2, .give S1,
      .delay 2, .give S1,
      .delay 1, .give S2,
      .delay 2, .give S1,
      .delay 2, .give S1,
      .delay 2, .give S1,
      .delay 2, .give S1,
      .delay 2] ++ critical

/-- `Sequencer` of `ex3.c`. -/
def ex3 : Looper Service where
  start := critical
  body :=
    [.delay 3, .give S1,
      .delay 2, .give S2,
      .delay 1, .give S1,
      .delay 2, .give S1,
      .delay 2, .give S1, .give S2,
      .delay 2, .give S1,
      .delay 2, .give S1,
      .delay 1] ++ critical

lemma critical_wrap {p : Looper Service} (hs : p.start = critical)
    (h : ∀ i, (span p.body, i) ∈ exec 0 p.body) (i : Service) :
    (0, i) ∈ exec 0 p.start ↔ (span p.body, i) ∈ exec 0 p.body := by
  refine iff_of_true ?_ (h i)
  rw [hs]
  cases i <;> decide

lemma ex0_gives (i : Service) (n : ℕ) :
    ex0.Gives i n ↔ ∃ e ∈ exec 0 ex0.body, e.2 = i ∧ e.1 % 30 = n % 30 :=
  gives_iff (p := ex0) rfl (by decide) (by decide)
    (critical_wrap rfl fun i => by cases i <;> decide) i n

lemma ex3_gives (i : Service) (n : ℕ) :
    ex3.Gives i n ↔ ∃ e ∈ exec 0 ex3.body, e.2 = i ∧ e.1 % 15 = n % 15 :=
  gives_iff (p := ex3) rfl (by decide) (by decide)
    (critical_wrap rfl fun i => by cases i <;> decide) i n

/-- **Example 3**: `ex3.c` keeps to the periods 3, 5 and 15 except at four ticks of each
fifteen. -/
theorem ex3_periodic_iff (n : ℕ) :
    ((ex3.Gives S1 n ↔ 3 ∣ n) ∧ (ex3.Gives S2 n ↔ 5 ∣ n) ∧ (ex3.Gives S3 n ↔ 15 ∣ n)) ↔
      n % 15 ≠ 8 ∧ n % 15 ≠ 9 ∧ n % 15 ≠ 10 ∧ n % 15 ≠ 14 := by
  have hlt : n % 15 < 15 := Nat.mod_lt n (by decide)
  have h3 : 3 ∣ n ↔ 3 ∣ n % 15 := (Nat.dvd_mod_iff (by decide)).symm
  have h5 : 5 ∣ n ↔ 5 ∣ n % 15 := (Nat.dvd_mod_iff (by decide)).symm
  have h15 : 15 ∣ n ↔ 15 ∣ n % 15 := (Nat.dvd_mod_iff (by decide)).symm
  rw [ex3_gives, ex3_gives, ex3_gives, h3, h5, h15]
  generalize n % 15 = m at hlt
  revert m
  decide

theorem ex3_gives_off_period : ¬ ex3.Gives S1 9 ∧ ex3.Gives S1 8 := by
  rw [ex3_gives, ex3_gives]
  decide

/-! ### Linux -/

/-- The periods of Example 0. -/
def period : Service → ℕ
  | S1 => 2
  | S2 => 10
  | S3 => 15

/-- `sem_post`, noted with the value of `seqCnt`, if `T` divides that. -/
def postIf (seqCnt T : ℕ) (i : Service) : List (ℕ × Service) :=
  if seqCnt % T = 0 then [(seqCnt, i)] else []

/-- Once round the loop of `Sequencer` in `seqgenex0.c`: `seqCnt` and the posts so far. -/
def cycle : ℕ × List (ℕ × Service) → ℕ × List (ℕ × Service)
  | (seqCnt, posts) =>
    (seqCnt + 1, posts ++ postIf seqCnt 2 S1 ++ postIf seqCnt 10 S2 ++ postIf seqCnt 15 S3)

/-- The loop goes round again while `seqCnt` is below `sequencePeriods`. -/
def turn (sequencePeriods : ℕ) (s : ℕ × List (ℕ × Service)) :
    Option ((ℕ × List (ℕ × Service)) ⊕ (ℕ × List (ℕ × Service))) :=
  some (if (cycle s).1 < sequencePeriods then .inl (cycle s) else .inr (cycle s))

/-- The posts of `Sequencer` in `seqgenex0.c`, the three at the end included. -/
def seqgenex0 (sequencePeriods fuel : ℕ) : Option (List (ℕ × Service)) :=
  (iter (turn sequencePeriods) fuel (0, [])).map fun s =>
    s.2 ++ [(s.1, S1), (s.1, S2), (s.1, S3)]

/-- The posts of the cycles before `seqCnt`. -/
def Posted (s : ℕ × List (ℕ × Service)) : Prop :=
  ∀ n i, (n, i) ∈ s.2 ↔ n < s.1 ∧ period i ∣ n

lemma mem_postIf {seqCnt T n : ℕ} {i j : Service} :
    (n, i) ∈ postIf seqCnt T j ↔ n = seqCnt ∧ i = j ∧ T ∣ n := by
  unfold postIf
  split_ifs with h
  · simp only [List.mem_singleton, Prod.mk.injEq]
    constructor
    · rintro ⟨rfl, rfl⟩
      exact ⟨rfl, rfl, Nat.dvd_of_mod_eq_zero h⟩
    · exact fun h => ⟨h.1, h.2.1⟩
  · simp only [List.not_mem_nil, false_iff]
    rintro ⟨rfl, -, hd⟩
    exact h (Nat.mod_eq_zero_of_dvd hd)

lemma Posted.cycle {s : ℕ × List (ℕ × Service)} (h : Posted s) : Posted (cycle s) := by
  obtain ⟨seqCnt, posts⟩ := s
  intro n i
  have hi : (n, i) ∈ posts ↔ n < seqCnt ∧ period i ∣ n := h n i
  have hlt : n < seqCnt + 1 ∧ period i ∣ n ↔
      (n < seqCnt ∧ period i ∣ n) ∨ n = seqCnt ∧ period i ∣ n := by
    rw [Nat.lt_succ_iff_lt_or_eq, or_and_right]
  simp only [SeqTimetable.cycle, List.mem_append, mem_postIf, hi, hlt]
  cases i <;> simp [period]

/-- **`seqgenex0.c` returns**, having posted at the multiples of the periods. -/
lemma seqgenex0_posts (sequencePeriods : ℕ) :
    ∃ fuel posts, seqgenex0 sequencePeriods fuel = some posts ∧
      ∀ i, ∀ n < max 1 sequencePeriods, (n, i) ∈ posts ↔ period i ∣ n := by
  have hturn : ∀ s : ℕ × List (ℕ × Service), s.1 < max 1 sequencePeriods ∧ Posted s →
      (∃ s', turn sequencePeriods s = some (.inl s') ∧
        (s'.1 < max 1 sequencePeriods ∧ Posted s') ∧
        max 1 sequencePeriods - s'.1 < max 1 sequencePeriods - s.1) ∨
      ∃ r, turn sequencePeriods s = some (.inr r) ∧ r.1 = max 1 sequencePeriods ∧ Posted r := by
    rintro ⟨c, ps⟩ ⟨hc, hp⟩
    dsimp only at hc
    by_cases hlt : c + 1 < sequencePeriods
    · refine Or.inl ⟨cycle (c, ps), by simp [turn, cycle, hlt], ⟨?_, hp.cycle⟩, ?_⟩
      all_goals simp only [cycle]; omega
    · refine Or.inr ⟨cycle (c, ps), by simp [turn, cycle, hlt], ?_, hp.cycle⟩
      simp only [cycle]
      omega
  have hstart : ((0, []) : ℕ × List (ℕ × Service)).1 < max 1 sequencePeriods ∧
      Posted (0, []) := ⟨by simp, by simp [Posted]⟩
  obtain ⟨⟨seqCnt, posts⟩, hr, hcnt, hp⟩ := iter_total _ _ _ hturn hstart
  refine ⟨_, _, by rw [seqgenex0, hr]; rfl, fun i n hn => ?_⟩
  dsimp only at hcnt
  have hne : n ≠ seqCnt := by omega
  have hlt : n < seqCnt := by omega
  rw [List.mem_append, hp n i]
  simp [hne, hlt]

/-- **Example 0**: in a run of any length the two sequencers release alike, except
`Service_1` at five ticks of each thirty. -/
theorem ex0_agrees_iff (sequencePeriods : ℕ) :
    ∃ fuel posts, seqgenex0 sequencePeriods fuel = some posts ∧
      ∀ i, ∀ n < max 1 sequencePeriods,
        ((ex0.Gives i n ↔ (n, i) ∈ posts) ∧ ((n, i) ∈ posts ↔ period i ∣ n)) ↔
          ¬ (i = S1 ∧ 16 ≤ n % 30 ∧ n % 30 ≤ 20) := by
  obtain ⟨fuel, posts, hrun, hposts⟩ := seqgenex0_posts sequencePeriods
  refine ⟨fuel, posts, hrun, fun i n hn => ?_⟩
  have hlt : n % 30 < 30 := Nat.mod_lt n (by decide)
  have hdvd : period i ∣ n ↔ period i ∣ n % 30 :=
    (Nat.dvd_mod_iff (by cases i <;> decide)).symm
  rw [hposts i n hn, and_iff_left Iff.rfl, ex0_gives, hdvd]
  generalize n % 30 = m at hlt
  cases i <;> revert m <;> decide

/-- With the `RTSEQ_PERIODS` of `seqgen.h`, at tick 150. -/
theorem ex0_agrees_iff_at_150 :
    ∃ fuel posts, seqgenex0 2400 fuel = some posts ∧
      (ex0.Gives S3 150 ↔ (150, S3) ∈ posts) := by
  obtain ⟨fuel, posts, hrun, h⟩ := ex0_agrees_iff 2400
  exact ⟨fuel, posts, hrun, ((h S3 150 (by decide)).mpr (by decide)).1⟩

theorem ex0_misses_16 :
    ∃ fuel posts, seqgenex0 2400 fuel = some posts ∧ (16, S1) ∈ posts ∧ ¬ ex0.Gives S1 16 := by
  obtain ⟨fuel, posts, hrun, hposts⟩ := seqgenex0_posts 2400
  refine ⟨fuel, posts, hrun, (hposts S1 16 (by decide)).mpr (by decide), ?_⟩
  rw [ex0_gives]
  decide

end Rtes.SeqTimetable
