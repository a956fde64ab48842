import Rtes.SeqPreempt

/-!
How much of its load `fib20` does when `fib10` preempts it.

Without preemption the steps done and to come are the same at every statement. What `fib10`
leaves in `idx` and `jdx` takes the turns and steps to come away from `fib20`, so that it does
its load exactly where there were none.
-/

namespace Rtes.SeqHarmless

open Rtes.Loop Rtes.SeqPreempt

/-! ### The steps to come -/

/-- The steps of the inner loop that an undisturbed execution still does. -/
def remaining (seqCnt iterCnt : ℕ) (pc : Pc) (g : Globals) : ℕ :=
  match pc with
  | .clearIdx => iterCnt * (seqCnt - 1)
  | .testIdx => (iterCnt - g.idx) * (seqCnt - 1)
  | .clearFib0 | .setFib1 | .setJdx => seqCnt - 1 + (iterCnt - (g.idx + 1)) * (seqCnt - 1)
  | .startFib | .testJdx => seqCnt - g.jdx + (iterCnt - (g.idx + 1)) * (seqCnt - 1)
  | .shiftFib0 | .shiftFib1 | .addFib | .incJdx =>
    1 + (seqCnt - (g.jdx + 1)) + (iterCnt - (g.idx + 1)) * (seqCnt - 1)
  | .incIdx => (iterCnt - (g.idx + 1)) * (seqCnt - 1)
  | .done => 0

section

variable {seqCnt iterCnt : ℕ}

/-- **A statement keeps the steps done and to come.** -/
lemma exec_remaining (t : Thread) (g : Globals) :
    (exec seqCnt iterCnt t g).1.steps +
        remaining seqCnt iterCnt (exec seqCnt iterCnt t g).1.pc (exec seqCnt iterCnt t g).2 =
      t.steps + remaining seqCnt iterCnt t.pc g := by
  obtain ⟨pc, steps⟩ := t
  cases pc with
  | testIdx =>
    simp only [exec]
    split_ifs with h
    · have hturns : iterCnt - g.idx = iterCnt - (g.idx + 1) + 1 := by omega
      simp only [remaining, hturns, Nat.add_mul]
      omega
    · have hturns : iterCnt - g.idx = 0 := by omega
      simp [remaining, hturns]
  | testJdx =>
    simp only [exec]
    split_ifs with h
    · simp only [remaining]
      omega
    · simp only [remaining]
      omega
  | clearIdx | clearFib0 | setFib1 | setJdx | startFib | shiftFib0 | shiftFib1 | addFib | incIdx
  | done => simp [exec, remaining]
  | incJdx =>
    simp only [exec, remaining]
    omega

/-- A preemption gives no steps. -/
lemma remaining_le {g g' : Globals} (h : Spent seqCnt iterCnt g') (pc : Pc) :
    remaining seqCnt iterCnt pc g' ≤ remaining seqCnt iterCnt pc g := by
  have hidx : iterCnt - (g'.idx + 1) = 0 := by have := h.idx; omega
  have hidx' : iterCnt - g'.idx = 0 := by have := h.idx; omega
  have hjdx := h.jdx
  cases pc <;> simp only [remaining, hidx, hidx', Nat.zero_mul] <;> omega

/-! ### Executions that have lost nothing -/

/-- In turn `i`. A preemption has moved `idx`, if at all, in the last turn. -/
def InTurn (iterCnt i : ℕ) (g : Globals) : Prop := g.idx = i ∨ i + 1 = iterCnt ∧ iterCnt ≤ g.idx

/-- In step `j` of turn `i`, at statement `r` of the step. A preemption has moved `jdx`, if at
all, in the last step of the last turn. -/
def InStep (seqCnt iterCnt r n : ℕ) (g : Globals) : Prop :=
  ∃ i < iterCnt, ∃ j, 1 ≤ j ∧ j + 1 ≤ seqCnt ∧ n = r + period seqCnt * i + 5 * j ∧
    InTurn iterCnt i g ∧ (g.jdx = j ∨ i + 1 = iterCnt ∧ j + 1 = seqCnt ∧ seqCnt ≤ g.jdx)

/-- `n` statements are done and `pc` is next, as without preemption. -/
def OnTrack (seqCnt iterCnt n : ℕ) (pc : Pc) (g : Globals) : Prop :=
  match pc with
  | .clearIdx => n = 0
  | .testIdx => ∃ i ≤ iterCnt, n = 1 + period seqCnt * i ∧
      (g.idx = i ∨ i = iterCnt ∧ iterCnt ≤ g.idx) ∧ (i = iterCnt → seqCnt ≤ g.jdx)
  | .clearFib0 => ∃ i < iterCnt, n = 2 + period seqCnt * i ∧ InTurn iterCnt i g
  | .setFib1 => ∃ i < iterCnt, n = 3 + period seqCnt * i ∧ InTurn iterCnt i g
  | .setJdx => ∃ i < iterCnt, n = 4 + period seqCnt * i ∧ InTurn iterCnt i g
  | .startFib => ∃ i < iterCnt, n = 5 + period seqCnt * i ∧ InTurn iterCnt i g ∧ g.jdx = 1
  | .testJdx => ∃ i < iterCnt, ∃ j, 1 ≤ j ∧ j ≤ seqCnt ∧ n = 1 + period seqCnt * i + 5 * j ∧
      InTurn iterCnt i g ∧ (g.jdx = j ∨ i + 1 = iterCnt ∧ j = seqCnt ∧ seqCnt ≤ g.jdx)
  | .shiftFib0 => InStep seqCnt iterCnt 2 n g
  | .shiftFib1 => InStep seqCnt iterCnt 3 n g
  | .addFib => InStep seqCnt iterCnt 4 n g
  | .incJdx => InStep seqCnt iterCnt 5 n g
  | .incIdx => ∃ i < iterCnt, n = period seqCnt * (i + 1) ∧ InTurn iterCnt i g ∧ seqCnt ≤ g.jdx
  | .done => 2 + period seqCnt * iterCnt ≤ n ∧ Spent seqCnt iterCnt g

/-- Statements before which a preemption costs nothing: the first, the three of the last turn
that come before `jdx` is set, and what is left from the last step on. -/
def Harmless (seqCnt iterCnt n : ℕ) : Prop :=
  n = 0 ∨
    2 + period seqCnt * (iterCnt - 1) ≤ n ∧ n ≤ 4 + period seqCnt * (iterCnt - 1) ∨
    2 + period seqCnt * (iterCnt - 1) + 5 * (seqCnt - 1) ≤ n

variable {n : ℕ} {g g' : Globals}

lemma OnTrack.exec {t : Thread} (h : OnTrack seqCnt iterCnt n t.pc g) (hs : 1 ≤ seqCnt)
    (hi : 1 ≤ iterCnt) :
    OnTrack seqCnt iterCnt (n + 1) (exec seqCnt iterCnt t g).1.pc
      (exec seqCnt iterCnt t g).2 := by
  obtain ⟨pc, steps⟩ := t
  cases pc with
  | clearIdx =>
    obtain rfl : n = 0 := h
    exact ⟨0, by omega, by omega, Or.inl rfl, by omega⟩
  | testIdx =>
    obtain ⟨i, hle, rfl, hidx, hjdx⟩ := h
    simp only [SeqPreempt.exec]
    split_ifs with hlt
    · exact ⟨i, by omega, by omega, Or.inl (by omega)⟩
    · obtain rfl : i = iterCnt := by omega
      exact ⟨by omega, ⟨by omega, hjdx rfl⟩⟩
  | clearFib0 | setFib1 =>
    obtain ⟨i, hlt, rfl, hturn⟩ := h
    exact ⟨i, hlt, by omega, hturn⟩
  | setJdx =>
    obtain ⟨i, hlt, rfl, hturn⟩ := h
    exact ⟨i, hlt, by omega, hturn, rfl⟩
  | startFib =>
    obtain ⟨i, hlt, rfl, hturn, hjdx⟩ := h
    exact ⟨i, hlt, 1, le_rfl, hs, by omega, hturn, Or.inl hjdx⟩
  | testJdx =>
    obtain ⟨i, hlt, j, hj, hjs, rfl, hturn, hjdx⟩ := h
    simp only [SeqPreempt.exec]
    split_ifs with hmore
    · exact ⟨i, hlt, j, hj, by omega, by omega, hturn, Or.inl (by omega)⟩
    · refine ⟨i, hlt, ?_, hturn, by omega⟩
      rw [Nat.mul_succ, period]
      omega
  | shiftFib0 | shiftFib1 | addFib =>
    obtain ⟨i, hlt, j, hj, hjs, rfl, hturn, hjdx⟩ := h
    exact ⟨i, hlt, j, hj, hjs, by omega, hturn, hjdx⟩
  | incJdx =>
    obtain ⟨i, hlt, j, hj, hjs, rfl, hturn, hjdx⟩ := h
    refine ⟨i, hlt, j + 1, by omega, hjs, by omega, hturn, ?_⟩
    simp only [SeqPreempt.exec]
    omega
  | incIdx =>
    obtain ⟨i, hlt, rfl, hturn, hjdx⟩ := h
    refine ⟨i + 1, hlt, by omega, ?_, fun _ => hjdx⟩
    unfold InTurn at hturn
    simp only [SeqPreempt.exec]
    omega
  | done => exact ⟨Nat.le_succ_of_le h.1, h.2⟩

/-- Statement `o` of turn `i`. -/
lemma harmless_iff {i o : ℕ} (hs : 2 ≤ seqCnt) (hi : i < iterCnt) (ho : o < period seqCnt)
    (hn : n = 1 + period seqCnt * i + o) :
    Harmless seqCnt iterCnt n ↔
      i + 1 = iterCnt ∧ (1 ≤ o ∧ o ≤ 3 ∨ 5 * (seqCnt - 1) < o) := by
  unfold Harmless
  rcases Nat.lt_or_ge (i + 1) iterCnt with h | h
  · -- a turn that is not the last ends before the last one starts
    have hend : period seqCnt * i + period seqCnt ≤ period seqCnt * (iterCnt - 1) := by
      rw [← Nat.mul_succ]
      exact Nat.mul_le_mul_left _ (by omega)
    omega
  · obtain rfl : i = iterCnt - 1 := by omega
    omega

/-- After the last turn. -/
lemma harmless_of_end (hi : 1 ≤ iterCnt) (hn : 1 + period seqCnt * iterCnt ≤ n) :
    Harmless seqCnt iterCnt n := by
  have hper : period seqCnt = 5 * seqCnt + 2 := rfl
  have hlast : period seqCnt * iterCnt = period seqCnt * (iterCnt - 1) + period seqCnt := by
    rw [← Nat.mul_succ, Nat.succ_eq_add_one, Nat.sub_add_cancel hi]
  unfold Harmless
  omega

/-- The steps of the turns that follow: there are some unless the turn is the last. -/
lemma InTurn.rest {i : ℕ} (h : InTurn iterCnt i g) (hs : 2 ≤ seqCnt) (hi : i < iterCnt) :
    i + 1 = iterCnt ∧ (iterCnt - (g.idx + 1)) * (seqCnt - 1) = 0 ∨
      i + 1 < iterCnt ∧ 0 < (iterCnt - (g.idx + 1)) * (seqCnt - 1) := by
  unfold InTurn at h
  rcases Nat.lt_or_ge (i + 1) iterCnt with hlt | hge
  · exact Or.inr ⟨hlt, Nat.mul_pos (by omega) (by omega)⟩
  · refine Or.inl ⟨by omega, ?_⟩
    rw [show iterCnt - (g.idx + 1) = 0 by omega, Nat.zero_mul]

/-- **A harmless preemption is not noticed.** -/
lemma OnTrack.preempt {pc : Pc} (h : OnTrack seqCnt iterCnt n pc g) (hs : 2 ≤ seqCnt)
    (hg : Spent seqCnt iterCnt g') (hn : Harmless seqCnt iterCnt n) :
    OnTrack seqCnt iterCnt n pc g' := by
  have hper : period seqCnt = 5 * seqCnt + 2 := rfl
  cases pc with
  | clearIdx => exact h
  | testIdx =>
    obtain ⟨i, hle, hpos, -⟩ := h
    obtain rfl : i = iterCnt := by
      by_contra hne
      rw [harmless_iff hs (show i < iterCnt by omega) (show 0 < period seqCnt by omega) hpos] at hn
      omega
    exact ⟨i, le_rfl, hpos, Or.inr ⟨rfl, hg.idx⟩, fun _ => hg.jdx⟩
  | clearFib0 | setFib1 | setJdx =>
    obtain ⟨i, hlt, hpos, -⟩ := h
    rw [harmless_iff hs hlt (show n - 1 - period seqCnt * i < period seqCnt by omega)
      (by omega)] at hn
    exact ⟨i, hlt, hpos, Or.inr ⟨hn.1, hg.idx⟩⟩
  | startFib =>
    obtain ⟨i, hlt, hpos, -⟩ := h
    rw [harmless_iff hs hlt (show 4 < period seqCnt by omega) (by omega)] at hn
    omega
  | testJdx =>
    obtain ⟨i, hlt, j, hj, hjs, hpos, -⟩ := h
    rw [harmless_iff hs hlt (show 5 * j < period seqCnt by omega) (by omega)] at hn
    exact ⟨i, hlt, j, hj, hjs, hpos, Or.inr ⟨hn.1, hg.idx⟩, Or.inr ⟨hn.1, by omega, hg.jdx⟩⟩
  | shiftFib0 | shiftFib1 | addFib | incJdx =>
    obtain ⟨i, hlt, j, hj, hjs, hpos, -⟩ := h
    rw [harmless_iff hs hlt (show n - 1 - period seqCnt * i < period seqCnt by omega)
      (by omega)] at hn
    exact ⟨i, hlt, j, hj, hjs, hpos, Or.inr ⟨hn.1, hg.idx⟩, Or.inr ⟨hn.1, by omega, hg.jdx⟩⟩
  | incIdx =>
    obtain ⟨i, hlt, hpos, -⟩ := h
    rw [harmless_iff hs hlt (show 5 * seqCnt + 1 < period seqCnt by omega)
      (by rw [Nat.mul_succ] at hpos; omega)] at hn
    exact ⟨i, hlt, hpos, Or.inr ⟨hn.1, hg.idx⟩, hg.jdx⟩
  | done => exact ⟨h.1, hg⟩

/-- **Any other preemption costs steps**, and a harmless one costs none. -/
lemma OnTrack.remaining_preempt {pc : Pc} (h : OnTrack seqCnt iterCnt n pc g) (hs : 2 ≤ seqCnt)
    (hi : 1 ≤ iterCnt) (hg : Spent seqCnt iterCnt g') :
    Harmless seqCnt iterCnt n ∧ remaining seqCnt iterCnt pc g' = remaining seqCnt iterCnt pc g ∨
      ¬ Harmless seqCnt iterCnt n ∧
        remaining seqCnt iterCnt pc g' < remaining seqCnt iterCnt pc g := by
  have hper : period seqCnt = 5 * seqCnt + 2 := rfl
  have hidx := hg.idx
  have hjdx := hg.jdx
  have hturns : iterCnt - g'.idx = 0 := by omega
  have hrest : iterCnt - (g'.idx + 1) = 0 := by omega
  cases pc with
  | clearIdx => exact Or.inl ⟨Or.inl h, rfl⟩
  | testIdx =>
    obtain ⟨i, hle, hpos, hidx, -⟩ := h
    simp only [remaining, hturns, Nat.zero_mul]
    rcases Nat.lt_or_ge i iterCnt with hlt | hge
    · rw [harmless_iff hs hlt (show 0 < period seqCnt by omega) hpos]
      refine Or.inr ⟨by omega, Nat.mul_pos (by omega) (by omega)⟩
    · obtain rfl : i = iterCnt := by omega
      refine Or.inl ⟨harmless_of_end hi hpos.ge, ?_⟩
      rw [show i - g.idx = 0 by omega, Nat.zero_mul]
  | clearFib0 | setFib1 | setJdx =>
    obtain ⟨i, hlt, hpos, hturn⟩ := h
    have hcase := hturn.rest hs hlt
    rw [harmless_iff hs hlt (show n - 1 - period seqCnt * i < period seqCnt by omega) (by omega)]
    simp only [remaining, hrest, Nat.zero_mul]
    omega
  | startFib =>
    obtain ⟨i, hlt, hpos, hturn, hone⟩ := h
    have hcase := hturn.rest hs hlt
    rw [harmless_iff hs hlt (show 4 < period seqCnt by omega) (by omega)]
    simp only [remaining, hrest, Nat.zero_mul]
    omega
  | testJdx =>
    obtain ⟨i, hlt, j, hj, hjs, hpos, hturn, hcnt⟩ := h
    have hcase := hturn.rest hs hlt
    rw [harmless_iff hs hlt (show 5 * j < period seqCnt by omega) (by omega)]
    simp only [remaining, hrest, Nat.zero_mul]
    omega
  | shiftFib0 | shiftFib1 | addFib | incJdx =>
    obtain ⟨i, hlt, j, hj, hjs, hpos, hturn, hcnt⟩ := h
    have hcase := hturn.rest hs hlt
    rw [harmless_iff hs hlt (show n - 1 - period seqCnt * i < period seqCnt by omega) (by omega)]
    simp only [remaining, hrest, Nat.zero_mul]
    omega
  | incIdx =>
    obtain ⟨i, hlt, hpos, hturn, -⟩ := h
    have hcase := hturn.rest hs hlt
    rw [harmless_iff hs hlt (show 5 * seqCnt + 1 < period seqCnt by omega)
      (by rw [Nat.mul_succ] at hpos; omega)]
    simp only [remaining, hrest, Nat.zero_mul]
    omega
  | done => exact Or.inl ⟨harmless_of_end hi (by have := h.1; omega), rfl⟩

/-! ### Whole executions -/

/-- The steps done and, without further preemption, to come. -/
def total (seqCnt iterCnt : ℕ) (r : Run) : ℕ :=
  r.thread.steps + remaining seqCnt iterCnt r.thread.pc r.globals

/-- The run is where it would be without preemption, and will do all its steps. -/
structure Whole (seqCnt iterCnt : ℕ) (r : Run) : Prop where
  track : OnTrack seqCnt iterCnt r.n r.thread.pc r.globals
  total : total seqCnt iterCnt r = iterCnt * (seqCnt - 1)

lemma whole_entry (g : Globals) : Whole seqCnt iterCnt ⟨0, entry, g⟩ := ⟨rfl, Nat.zero_add _⟩

/-- One statement, after a preemption that does no harm or none. -/
lemma Whole.next {r : Run} (h : Whole seqCnt iterCnt r) (hs : 2 ≤ seqCnt) (hi : 1 ≤ iterCnt)
    (hg : g' = r.globals ∨ Harmless seqCnt iterCnt r.n ∧ Spent seqCnt iterCnt g') :
    Whole seqCnt iterCnt (r.next seqCnt iterCnt g') := by
  have htotal := h.total
  unfold SeqHarmless.total at htotal
  rcases hg with rfl | ⟨hharm, hspent⟩
  · exact ⟨h.track.exec (by omega) hi, (exec_remaining _ _).trans htotal⟩
  · have hrem : remaining seqCnt iterCnt r.thread.pc g' =
        remaining seqCnt iterCnt r.thread.pc r.globals := by
      rcases h.track.remaining_preempt hs hi hspent with hkeep | hlose
      · exact hkeep.2
      · exact absurd hharm hlose.1
    refine ⟨(h.track.preempt hs hspent hharm).exec (by omega) hi, ?_⟩
    exact (exec_remaining _ _).trans (hrem ▸ htotal)

/-! ### Preempted executions -/

/-- A preempted run never makes up for a step. -/
lemma total_next_le {r : Run} (hg : g' = r.globals ∨ Spent seqCnt iterCnt g') :
    total seqCnt iterCnt (r.next seqCnt iterCnt g') ≤ total seqCnt iterCnt r := by
  refine (exec_remaining r.thread g').le.trans ?_
  rcases hg with rfl | hspent
  · exact le_rfl
  · exact Nat.add_le_add_left (remaining_le hspent _) _

/-- Whole so far with harmless preemptions only, or short of steps for good after another. -/
def Judged (seqCnt iterCnt : ℕ) (place : ℕ → ℕ) (r : Run) : Prop :=
  Whole seqCnt iterCnt r ∧ (∀ m < r.n, place m ≠ 0 → Harmless seqCnt iterCnt m) ∨
    total seqCnt iterCnt r < iterCnt * (seqCnt - 1) ∧
      ∃ m, place m ≠ 0 ∧ ¬ Harmless seqCnt iterCnt m

lemma Judged.next {place : ℕ → ℕ} {r : Run} (h : Judged seqCnt iterCnt place r)
    (hs : 2 ≤ seqCnt) (hi : 1 ≤ iterCnt)
    (hg : place r.n = 0 ∧ g' = r.globals ∨ place r.n ≠ 0 ∧ Spent seqCnt iterCnt g') :
    Judged seqCnt iterCnt place (r.next seqCnt iterCnt g') := by
  rcases h with ⟨hwhole, hsofar⟩ | ⟨hshort, hharmful⟩
  · -- the statements before the next one
    have hupto : (place r.n ≠ 0 → Harmless seqCnt iterCnt r.n) →
        ∀ m < r.n + 1, place m ≠ 0 → Harmless seqCnt iterCnt m := by
      intro hn m hm hplace
      rcases Nat.lt_succ_iff_lt_or_eq.mp hm with hlt | rfl
      · exact hsofar m hlt hplace
      · exact hn hplace
    rcases hg with ⟨hzero, rfl⟩ | ⟨hplace, hspent⟩
    · exact Or.inl ⟨hwhole.next hs hi (Or.inl rfl), hupto fun h => absurd hzero h⟩
    · rcases hwhole.track.remaining_preempt hs hi hspent with ⟨hharm, -⟩ | ⟨hharmful, hless⟩
      · exact Or.inl ⟨hwhole.next hs hi (Or.inr ⟨hharm, hspent⟩), hupto fun _ => hharm⟩
      · refine Or.inr ⟨?_, r.n, hplace, hharmful⟩
        calc total seqCnt iterCnt (r.next seqCnt iterCnt g')
            = r.thread.steps + remaining seqCnt iterCnt r.thread.pc g' := exec_remaining _ _
          _ < total seqCnt iterCnt r := Nat.add_lt_add_left hless _
          _ = iterCnt * (seqCnt - 1) := hwhole.total
  · exact Or.inr ⟨(total_next_le (hg.imp And.right And.right)).trans_lt hshort, hharmful⟩

/-- The verdict at the end. -/
lemma Judged.done {place : ℕ → ℕ} {r : Run} (h : Judged seqCnt iterCnt place r)
    (hi : 1 ≤ iterCnt) (hpc : r.thread.pc = .done) :
    r.thread.steps ≤ iterCnt * (seqCnt - 1) ∧
      (r.thread.steps = iterCnt * (seqCnt - 1) ↔
        ∀ m, place m ≠ 0 → Harmless seqCnt iterCnt m) := by
  have htotal : total seqCnt iterCnt r = r.thread.steps := by rw [total, hpc, remaining, add_zero]
  rcases h with ⟨hwhole, hsofar⟩ | ⟨hshort, m, hm, hharmful⟩
  · have hfull := htotal ▸ hwhole.total
    have hend := hwhole.track
    rw [hpc] at hend
    refine ⟨hfull.le, iff_of_true hfull fun m hm => ?_⟩
    by_cases hmn : m < r.n
    · exact hsofar m hmn hm
    · exact harmless_of_end hi (by have := hend.1; omega)
  · rw [htotal] at hshort
    exact ⟨hshort.le, iff_of_false hshort.ne fun h => hharmful (h m hm)⟩

lemma preempted_judged (hs : 2 ≤ seqCnt) (hi : 1 ≤ iterCnt) {fuel k : ℕ} {place : ℕ → ℕ}
    (h : preempted seqCnt iterCnt fuel place g = some k) :
    k ≤ iterCnt * (seqCnt - 1) ∧
      (k = iterCnt * (seqCnt - 1) ↔ ∀ m, place m ≠ 0 → Harmless seqCnt iterCnt m) := by
  obtain ⟨x, hx, rfl⟩ := Option.map_eq_some_iff.mp h
  refine iter_inv (Judged seqCnt iterCnt place)
    (fun x : ℕ × Globals => x.1 ≤ iterCnt * (seqCnt - 1) ∧
      (x.1 = iterCnt * (seqCnt - 1) ↔ ∀ m, place m ≠ 0 → Harmless seqCnt iterCnt m)) ?_ ?_ ?_ hx
  · intro r r' hr hturn
    obtain ⟨g', hg', rfl⟩ := turn_inl hturn
    refine hr.next hs hi ((preempt_counts (by omega) hi hg').imp_right fun hc => ?_)
    exact ⟨hc.1, hc.2.1.ge, hc.2.2.ge⟩
  · intro r x hr hturn
    obtain ⟨hpc, rfl⟩ := turn_inr hturn
    exact hr.done hi hpc
  · exact Or.inl ⟨whole_entry g, fun m hm => absurd hm (Nat.not_lt_zero m)⟩

lemma exists_preempted (hs : 1 ≤ seqCnt) (hi : 1 ≤ iterCnt) (place : ℕ → ℕ) (g : Globals) :
    ∃ fuel k, preempted seqCnt iterCnt fuel place g = some k := by
  have hb : ∀ n g, ∃ g',
      preempt seqCnt iterCnt (3 + period seqCnt * iterCnt) (place n) g = some g' ∧
        (g' = g ∨ Spent seqCnt iterCnt g') := by
    intro n g
    obtain ⟨g', hg', hcase⟩ := exists_preempt hs hi le_rfl (place n) g
    exact ⟨g', hg', hcase.imp And.right And.right⟩
  obtain ⟨x, hx⟩ := exists_execution hs hb le_rfl g
  exact ⟨_, x.1, Option.map_eq_some_iff.mpr ⟨x, hx, rfl⟩⟩

end

/-! ### The load of `fib20` -/

/-- The harmless statements of `fib20`, by number. -/
lemma harmless_lab1 (n : ℕ) : Harmless seqIterations FIB_TEST_CYCLES n ↔
    n = 0 ∨ (5150 ≤ n ∧ n ≤ 5152) ∨ 5195 ≤ n := Iff.rfl

lemma fib20_judged {fuel k : ℕ} {place : ℕ → ℕ} {g : Globals} (h : fib20 fuel place g = some k) :
    k ≤ FIB_TEST_CYCLES * (seqIterations - 1) ∧
      (k = FIB_TEST_CYCLES * (seqIterations - 1) ↔
        ∀ n, place n ≠ 0 → n = 0 ∨ (5150 ≤ n ∧ n ≤ 5152) ∨ 5195 ≤ n) := by
  simp only [← harmless_lab1]
  exact preempted_judged (by decide) (by decide) h

/-- `fib20` comes to the end of its macro whatever the preemptions, with at most its load. -/
theorem fib20_returns (place : ℕ → ℕ) (g : Globals) :
    ∃ fuel k, fib20 fuel place g = some k ∧ k ≤ FIB_TEST_CYCLES * (seqIterations - 1) := by
  obtain ⟨fuel, k, hk⟩ : ∃ fuel k, fib20 fuel place g = some k :=
    exists_preempted (by decide) (by decide) place g
  exact ⟨fuel, k, hk, (fib20_judged hk).1⟩

/-- **The load of `fib20` is whole exactly where every preemption comes before its first
statement, before one of the three assignments that open its last turn, or after the last test
of `jdx` that succeeds.** -/
theorem fib20_full_iff (place : ℕ → ℕ) (g : Globals) :
    (∃ fuel, fib20 fuel place g = some (FIB_TEST_CYCLES * (seqIterations - 1))) ↔
      ∀ n, place n ≠ 0 → n = 0 ∨ (5150 ≤ n ∧ n ≤ 5152) ∨ 5195 ≤ n := by
  constructor
  · rintro ⟨fuel, hfull⟩
    exact (fib20_judged hfull).2.mp rfl
  · intro h
    obtain ⟨fuel, k, hk, -⟩ := fib20_returns place g
    have hfull := (fib20_judged hk).2.mpr h
    exact ⟨fuel, hfull ▸ hk⟩

/-- The globals at the start of the program. -/
def initial : Globals := ⟨0, 1, 0, 0, 1⟩

/-- One execution of `fib10` just after `fib20` has set `idx`. -/
theorem fib20_short : ¬ ∃ fuel, fib20 fuel (fun n => if n = 1 then 1 else 0) initial =
    some (FIB_TEST_CYCLES * (seqIterations - 1)) := by
  rintro ⟨fuel, hfull⟩
  have hone := (fib20_judged hfull).2.mp rfl 1 (by decide)
  omega

end Rtes.SeqHarmless
