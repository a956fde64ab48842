import Rtes.Loop

/-!
The synthetic load of `lab1.c` under preemption.

`fib10` and `fib20` run the macro `FIB_TEST` on the same globals. `fib10` has the higher
priority on the same core: whole executions of its macro fall between two statements of
`fib20`, and leave `idx` and `jdx` at the ends of their loops. However often that happens, the
execution of `fib20` ends, and both counters stay within one of their bounds: they are naturals
here.
-/

namespace Rtes.SeqPreempt

open Rtes.Loop

/-! ### The macro -/

structure Globals where
  idx : ℕ
  jdx : ℕ
  fib : UInt32
  fib0 : UInt32
  fib1 : UInt32

/-- The statement of `FIB_TEST` that comes next. -/
inductive Pc
  | clearIdx
  | testIdx
  | clearFib0
  | setFib1
  | setJdx
  | startFib
  | testJdx
  | shiftFib0
  | shiftFib1
  | addFib
  | incJdx
  | incIdx
  | done
  deriving DecidableEq

/-- A service in its macro; `steps` counts the steps of the inner loop that it did itself. -/
structure Thread where
  pc : Pc
  steps : ℕ

/-- One statement. -/
def exec (seqCnt iterCnt : ℕ) (t : Thread) (g : Globals) : Thread × Globals :=
  match t.pc with
  | .clearIdx => ({ t with pc := .testIdx }, { g with idx := 0 })
  | .testIdx => ({ t with pc := if g.idx < iterCnt then .clearFib0 else .done }, g)
  | .clearFib0 => ({ t with pc := .setFib1 }, { g with fib0 := 0 })
  | .setFib1 => ({ t with pc := .setJdx }, { g with fib1 := 1 })
  | .setJdx => ({ t with pc := .startFib }, { g with jdx := 1 })
  | .startFib => ({ t with pc := .testJdx }, { g with fib := g.fib0 + g.fib1 })
  | .testJdx => ({ t with pc := if g.jdx < seqCnt then .shiftFib0 else .incIdx }, g)
  | .shiftFib0 => ({ t with pc := .shiftFib1 }, { g with fib0 := g.fib1 })
  | .shiftFib1 => ({ t with pc := .addFib }, { g with fib1 := g.fib })
  | .addFib => ({ t with pc := .incJdx }, { g with fib := g.fib0 + g.fib1 })
  | .incJdx => ({ pc := .testJdx, steps := t.steps + 1 }, { g with jdx := g.jdx + 1 })
  | .incIdx => ({ t with pc := .testIdx }, { g with idx := g.idx + 1 })
  | .done => (t, g)

def entry : Thread := ⟨.clearIdx, 0⟩

/-- A service with `n` statements of its macro done. -/
structure Run where
  n : ℕ
  thread : Thread
  globals : Globals

/-- The next statement, done on the globals `g`. -/
def Run.next (seqCnt iterCnt : ℕ) (r : Run) (g : Globals) : Run :=
  ⟨r.n + 1, (exec seqCnt iterCnt r.thread g).1, (exec seqCnt iterCnt r.thread g).2⟩

/-- The next statement, after what happens to the globals before it. -/
def turn (seqCnt iterCnt : ℕ) (between : ℕ → Globals → Option Globals) (r : Run) :
    Option (Run ⊕ ℕ × Globals) :=
  if r.thread.pc = .done then some (.inr (r.thread.steps, r.globals))
  else (between r.n r.globals).map fun g => .inl (r.next seqCnt iterCnt g)

/-- An execution, to the steps of its own and the globals it leaves. -/
def execution (seqCnt iterCnt : ℕ) (between : ℕ → Globals → Option Globals) (fuel : ℕ)
    (g : Globals) : Option (ℕ × Globals) :=
  iter (turn seqCnt iterCnt between) fuel ⟨0, entry, g⟩

def fibTest (seqCnt iterCnt fuel : ℕ) (g : Globals) : Option Globals :=
  (execution seqCnt iterCnt (fun _ g => some g) fuel g).map Prod.snd

/-- `k` whole executions by a service that is not preempted. -/
def preempt (seqCnt iterCnt fuel : ℕ) : ℕ → Globals → Option Globals
  | 0, g => some g
  | k + 1, g => (fibTest seqCnt iterCnt fuel g).bind (preempt seqCnt iterCnt fuel k)

/-- The steps of an execution whose statement `n` is preceded by `place n` whole ones. -/
def preempted (seqCnt iterCnt fuel : ℕ) (place : ℕ → ℕ) (g : Globals) : Option ℕ :=
  (execution seqCnt iterCnt (fun n => preempt seqCnt iterCnt fuel (place n)) fuel g).map Prod.fst

/-! ### The services of `lab1.c` -/

def FIB_LIMIT : ℕ := 10

/-- The global `seqIterations`, which is never assigned. -/
def seqIterations : ℕ := FIB_LIMIT

def FIB_TEST_CYCLES : ℕ := 100

/-- The macro in `fib20`, preempted by that in `fib10`. -/
def fib20 (fuel : ℕ) (place : ℕ → ℕ) (g : Globals) : Option ℕ :=
  preempted seqIterations FIB_TEST_CYCLES fuel place g

/-! ### One statement after the other -/

section

variable {seqCnt iterCnt : ℕ} {between : ℕ → Globals → Option Globals} {g g' : Globals}

lemma turn_inl {r r' : Run} (h : turn seqCnt iterCnt between r = some (.inl r')) :
    ∃ g', between r.n r.globals = some g' ∧ r' = r.next seqCnt iterCnt g' := by
  unfold turn at h
  split_ifs at h with hpc
  · simp at h
  · obtain ⟨g', hg', hr'⟩ := Option.map_eq_some_iff.mp h
    exact ⟨g', hg', (Sum.inl.inj hr').symm⟩

lemma turn_inr {r : Run} {x : ℕ × Globals} (h : turn seqCnt iterCnt between r = some (.inr x)) :
    r.thread.pc = .done ∧ x = (r.thread.steps, r.globals) := by
  unfold turn at h
  split_ifs at h with hpc
  · exact ⟨hpc, (Sum.inr.inj (Option.some.inj h)).symm⟩
  · simp at h

/-! ### What an execution leaves -/

/-- The counters of an execution that is not preempted. -/
def Counts (seqCnt iterCnt : ℕ) (pc : Pc) (g : Globals) : Prop :=
  match pc with
  | .clearIdx => True
  | .testIdx => g.idx ≤ iterCnt ∧ (0 < g.idx → g.jdx = seqCnt)
  | .clearFib0 | .setFib1 | .setJdx => g.idx < iterCnt
  | .startFib => g.idx < iterCnt ∧ g.jdx = 1
  | .testJdx => g.idx < iterCnt ∧ g.jdx ≤ seqCnt
  | .shiftFib0 | .shiftFib1 | .addFib | .incJdx => g.idx < iterCnt ∧ g.jdx < seqCnt
  | .incIdx => g.idx < iterCnt ∧ g.jdx = seqCnt
  | .done => g.idx = iterCnt ∧ g.jdx = seqCnt

lemma Counts.exec {t : Thread} (h : Counts seqCnt iterCnt t.pc g) (hs : 1 ≤ seqCnt)
    (hi : 1 ≤ iterCnt) :
    Counts seqCnt iterCnt (exec seqCnt iterCnt t g).1.pc (exec seqCnt iterCnt t g).2 := by
  obtain ⟨pc, steps⟩ := t
  cases pc with
  | testIdx =>
    simp only [SeqPreempt.exec]
    simp only [Counts] at h
    split_ifs with hlt
    · exact hlt
    · exact ⟨by omega, h.2 (by omega)⟩
  | testJdx =>
    simp only [SeqPreempt.exec]
    simp only [Counts] at h
    split_ifs with hlt
    · exact ⟨h.1, hlt⟩
    · exact ⟨h.1, by omega⟩
  | clearIdx | clearFib0 | setFib1 | setJdx | startFib | shiftFib0 | shiftFib1 | addFib | incJdx
  | incIdx | done =>
    simp only [Counts, SeqPreempt.exec, and_true] at h ⊢
    omega

/-- **A whole execution leaves both counters at the ends of their loops.** -/
lemma fibTest_counts (hs : 1 ≤ seqCnt) (hi : 1 ≤ iterCnt) {fuel : ℕ}
    (h : fibTest seqCnt iterCnt fuel g = some g') : g'.idx = iterCnt ∧ g'.jdx = seqCnt := by
  obtain ⟨x, hx, rfl⟩ := Option.map_eq_some_iff.mp h
  refine iter_inv (fun r : Run => Counts seqCnt iterCnt r.thread.pc r.globals)
    (fun x => x.2.idx = iterCnt ∧ x.2.jdx = seqCnt) ?_ ?_ ?_ hx
  · intro r r' hr hturn
    obtain ⟨g', hg', rfl⟩ := turn_inl hturn
    obtain rfl := Option.some.inj hg'
    exact hr.exec hs hi
  · intro r x hr hturn
    obtain ⟨hpc, rfl⟩ := turn_inr hturn
    rw [hpc] at hr
    exact hr
  · trivial

lemma preempt_counts (hs : 1 ≤ seqCnt) (hi : 1 ≤ iterCnt) {fuel k : ℕ}
    (h : preempt seqCnt iterCnt fuel k g = some g') :
    k = 0 ∧ g' = g ∨ k ≠ 0 ∧ g'.idx = iterCnt ∧ g'.jdx = seqCnt := by
  induction k generalizing g with
  | zero => exact Or.inl ⟨rfl, (Option.some.inj h).symm⟩
  | succ k ih =>
    obtain ⟨g₁, h₁, hk⟩ := Option.bind_eq_some_iff.mp h
    refine Or.inr ⟨Nat.succ_ne_zero k, ?_⟩
    rcases ih hk with ⟨-, rfl⟩ | ⟨-, hcounts⟩
    · exact fibTest_counts hs hi h₁
    · exact hcounts

/-! ### The counters stay small -/

/-- The counters of an execution that may be preempted anywhere. -/
def Small (seqCnt iterCnt : ℕ) (pc : Pc) (g : Globals) : Prop :=
  match pc with
  | .clearIdx | .testIdx | .done => g.idx ≤ iterCnt + 1 ∧ g.jdx ≤ seqCnt + 1
  | .clearFib0 | .setFib1 | .setJdx | .startFib | .testJdx | .incIdx =>
    g.idx ≤ iterCnt ∧ g.jdx ≤ seqCnt + 1
  | .shiftFib0 | .shiftFib1 | .addFib | .incJdx => g.idx ≤ iterCnt ∧ g.jdx ≤ seqCnt

lemma Small.le {pc : Pc} (h : Small seqCnt iterCnt pc g) :
    g.idx ≤ iterCnt + 1 ∧ g.jdx ≤ seqCnt + 1 := by
  cases pc <;> simp only [Small] at h <;> omega

lemma Small.exec {t : Thread} (h : Small seqCnt iterCnt t.pc g) :
    Small seqCnt iterCnt (exec seqCnt iterCnt t g).1.pc (exec seqCnt iterCnt t g).2 := by
  obtain ⟨pc, steps⟩ := t
  cases pc with
  | testIdx | testJdx =>
    simp only [SeqPreempt.exec]
    simp only [Small] at h
    split_ifs <;> simp only [Small] <;> omega
  | clearIdx | clearFib0 | setFib1 | setJdx | startFib | shiftFib0 | shiftFib1 | addFib | incJdx
  | incIdx | done =>
    simp only [Small, SeqPreempt.exec] at h ⊢
    omega

/-- **Neither counter ever passes its bound by more than one**, whatever the preemptions, so
that an `unsigned int` holds them. -/
theorem counters_le (hs : 1 ≤ seqCnt) (hi : 1 ≤ iterCnt) (fuel : ℕ) (place : ℕ → ℕ)
    (hg : g.idx ≤ iterCnt + 1 ∧ g.jdx ≤ seqCnt + 1) {r : Run}
    (hr : Relation.ReflTransGen (fun r r' => turn seqCnt iterCnt
      (fun n => preempt seqCnt iterCnt fuel (place n)) r = some (.inl r')) ⟨0, entry, g⟩ r) :
    r.globals.idx ≤ iterCnt + 1 ∧ r.globals.jdx ≤ seqCnt + 1 := by
  suffices hsmall : Small seqCnt iterCnt r.thread.pc r.globals from hsmall.le
  induction hr with
  | refl => exact hg
  | tail _ hturn ih =>
    obtain ⟨g', hg', rfl⟩ := turn_inl hturn
    refine Small.exec ?_
    rcases preempt_counts hs hi hg' with ⟨-, rfl⟩ | ⟨-, hidx, hjdx⟩
    · exact ih
    · generalize Thread.pc _ = pc
      cases pc <;> simp only [Small] <;> omega

/-! ### Executions end -/

/-- The statements of one turn of the outer loop. -/
def period (seqCnt : ℕ) : ℕ := 5 * seqCnt + 2

/-- What an execution leaves behind, as far as it matters to another. -/
structure Spent (seqCnt iterCnt : ℕ) (g : Globals) : Prop where
  idx : iterCnt ≤ g.idx
  jdx : seqCnt ≤ g.jdx

/-- The statements that an undisturbed execution still does. -/
def togo (seqCnt iterCnt : ℕ) (pc : Pc) (g : Globals) : ℕ :=
  let rest := 1 + period seqCnt * (iterCnt - (g.idx + 1))
  match pc with
  | .clearIdx => 2 + period seqCnt * iterCnt
  | .testIdx => 1 + period seqCnt * (iterCnt - g.idx)
  | .clearFib0 => 5 * seqCnt + 1 + rest
  | .setFib1 => 5 * seqCnt + rest
  | .setJdx => 5 * seqCnt - 1 + rest
  | .startFib => 1 + 5 * (seqCnt - g.jdx) + 2 + rest
  | .testJdx => 5 * (seqCnt - g.jdx) + 2 + rest
  | .shiftFib0 => 4 + 5 * (seqCnt - (g.jdx + 1)) + 2 + rest
  | .shiftFib1 => 3 + 5 * (seqCnt - (g.jdx + 1)) + 2 + rest
  | .addFib => 2 + 5 * (seqCnt - (g.jdx + 1)) + 2 + rest
  | .incJdx => 1 + 5 * (seqCnt - (g.jdx + 1)) + 2 + rest
  | .incIdx => 1 + rest
  | .done => 0

lemma exec_togo {t : Thread} (hs : 1 ≤ seqCnt) (hpc : t.pc ≠ .done) (iterCnt : ℕ)
    (g : Globals) :
    togo seqCnt iterCnt (exec seqCnt iterCnt t g).1.pc (exec seqCnt iterCnt t g).2 + 1 =
      togo seqCnt iterCnt t.pc g := by
  obtain ⟨pc, steps⟩ := t
  cases pc with
  | testIdx =>
    simp only [exec]
    split_ifs with hlt
    · have hturns : iterCnt - g.idx = iterCnt - (g.idx + 1) + 1 := by omega
      simp only [togo, hturns, Nat.mul_succ]
      unfold period
      omega
    · have hturns : iterCnt - g.idx = 0 := by omega
      simp [togo, hturns]
  | testJdx =>
    simp only [exec]
    split_ifs <;> simp only [togo] <;> omega
  | clearIdx | clearFib0 | setFib1 | setJdx | startFib | shiftFib0 | shiftFib1 | addFib | incJdx
  | incIdx =>
    simp only [exec, togo, Nat.sub_zero]
    omega
  | done => exact absurd rfl hpc

lemma togo_le (h : Spent seqCnt iterCnt g') (g : Globals) (pc : Pc) :
    togo seqCnt iterCnt pc g' ≤ togo seqCnt iterCnt pc g := by
  have hidx : iterCnt - (g'.idx + 1) = 0 := by have := h.idx; omega
  have hidx' : iterCnt - g'.idx = 0 := by have := h.idx; omega
  have hjdx := h.jdx
  cases pc <;> simp only [togo, hidx, hidx', Nat.mul_zero] <;> omega

/-- **An execution ends**, whatever whole executions come before its statements. -/
lemma exists_execution (hs : 1 ≤ seqCnt)
    (hb : ∀ n g, ∃ g', between n g = some g' ∧ (g' = g ∨ Spent seqCnt iterCnt g'))
    {fuel : ℕ} (hfuel : 3 + period seqCnt * iterCnt ≤ fuel) (g : Globals) :
    ∃ x, execution seqCnt iterCnt between fuel g = some x := by
  obtain ⟨x, hx, -⟩ : ∃ x, iter (turn seqCnt iterCnt between)
      (2 + period seqCnt * iterCnt + 1) ⟨0, entry, g⟩ = some x ∧ True := by
    refine iter_total (fun _ => True) (fun _ => True)
      (fun r : Run => togo seqCnt iterCnt r.thread.pc r.globals) (fun r _ => ?_) trivial
    by_cases hpc : r.thread.pc = .done
    · exact Or.inr ⟨_, if_pos hpc, trivial⟩
    · left
      obtain ⟨g', hg', hcase⟩ := hb r.n r.globals
      refine ⟨r.next seqCnt iterCnt g', (if_neg hpc).trans (by rw [hg']; rfl), trivial, ?_⟩
      have hless := exec_togo hs hpc iterCnt g'
      have hle : togo seqCnt iterCnt r.thread.pc g' ≤
          togo seqCnt iterCnt r.thread.pc r.globals := by
        rcases hcase with rfl | hspent
        · exact le_rfl
        · exact togo_le hspent _ _
      simp only [Run.next]
      omega
  exact ⟨x, iter_mono (fun _ _ h => h) (by omega) hx⟩

lemma exists_preempt (hs : 1 ≤ seqCnt) (hi : 1 ≤ iterCnt) {fuel : ℕ}
    (hfuel : 3 + period seqCnt * iterCnt ≤ fuel) (k : ℕ) (g : Globals) :
    ∃ g', preempt seqCnt iterCnt fuel k g = some g' ∧
      (k = 0 ∧ g' = g ∨ k ≠ 0 ∧ Spent seqCnt iterCnt g') := by
  suffices hsome : ∃ g', preempt seqCnt iterCnt fuel k g = some g' by
    obtain ⟨g', hg'⟩ := hsome
    refine ⟨g', hg', (preempt_counts hs hi hg').imp_right fun h => ⟨h.1, h.2.1.ge, h.2.2.ge⟩⟩
  induction k generalizing g with
  | zero => exact ⟨g, rfl⟩
  | succ k ih =>
    obtain ⟨x, hx⟩ := exists_execution hs (fun _ g => ⟨g, rfl, Or.inl rfl⟩) hfuel g
    obtain ⟨g', hg'⟩ := ih x.2
    exact ⟨g', Option.bind_eq_some_iff.mpr ⟨x.2, Option.map_eq_some_iff.mpr ⟨x, hx, rfl⟩, hg'⟩⟩

end

end Rtes.SeqPreempt
