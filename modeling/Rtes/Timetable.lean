import Mathlib

/-!
A task that gives semaphores at the ticks its delays lead to.

The task runs some statements once and then a loop for ever. A statement waits for a number
of ticks or gives a semaphore, which takes no time. If the first statements give at once
what the loop gives at its very end, the loop goes round from one such instant to the next
and what is given depends on the tick modulo the length of the loop only.
-/

namespace Rtes.Timetable

variable {S : Type*}

inductive Stmt (S : Type*)
  | delay (n : ℕ)
  | give (i : S)

/-- The ticks at which `ss`, started at tick `t`, gives its semaphores. -/
def exec (t : ℕ) : List (Stmt S) → List (ℕ × S)
  | [] => []
  | .delay n :: ss => exec (t + n) ss
  | .give i :: ss => (t, i) :: exec t ss

/-- How long `ss` takes. -/
def span : List (Stmt S) → ℕ
  | [] => 0
  | .delay n :: ss => n + span ss
  | .give _ :: ss => span ss

/-- The statements before the loop, and its body. -/
structure Looper (S : Type*) where
  start : List (Stmt S)
  body : List (Stmt S)

/-- The statements done when the loop has been round `k` times. -/
def Looper.unroll (p : Looper S) : ℕ → List (Stmt S)
  | 0 => p.start
  | k + 1 => p.unroll k ++ p.body

/-- Semaphore `i` is given at tick `n`, when the loop is never left. -/
def Looper.Gives (p : Looper S) (i : S) (n : ℕ) : Prop := ∃ k, (n, i) ∈ exec 0 (p.unroll k)

lemma exec_append (t : ℕ) (ss ss' : List (Stmt S)) :
    exec t (ss ++ ss') = exec t ss ++ exec (t + span ss) ss' := by
  induction ss generalizing t with
  | nil => rfl
  | cons x ss ih =>
    cases x with
    | delay n => simp only [List.cons_append, exec, span, ih, Nat.add_assoc]
    | give i => simp only [List.cons_append, exec, span, ih]

lemma span_append (ss ss' : List (Stmt S)) : span (ss ++ ss') = span ss + span ss' := by
  induction ss with
  | nil => simp [span]
  | cons x ss ih =>
    cases x with
    | delay n => simp only [List.cons_append, span, ih, Nat.add_assoc]
    | give i => simp only [List.cons_append, span, ih]

lemma mem_exec {t n : ℕ} {i : S} {ss : List (Stmt S)} :
    (n, i) ∈ exec t ss ↔ ∃ r, (r, i) ∈ exec 0 ss ∧ n = t + r := by
  induction ss generalizing t n with
  | nil => simp [exec]
  | cons x ss ih =>
    cases x with
    | delay d =>
      simp only [exec]
      rw [ih]
      simp only [ih (t := 0 + d)]
      constructor
      · rintro ⟨r, hr, rfl⟩
        exact ⟨_, ⟨r, hr, rfl⟩, by omega⟩
      · rintro ⟨_, ⟨r, hr, rfl⟩, rfl⟩
        exact ⟨r, hr, by omega⟩
    | give j =>
      simp only [exec, List.mem_cons, Prod.mk.injEq]
      rw [ih]
      constructor
      · rintro (⟨rfl, rfl⟩ | ⟨r, hr, rfl⟩)
        · exact ⟨0, Or.inl ⟨rfl, rfl⟩, rfl⟩
        · exact ⟨r, Or.inr hr, rfl⟩
      · rintro ⟨r, ⟨rfl, rfl⟩ | hr, rfl⟩
        · exact Or.inl ⟨rfl, rfl⟩
        · exact Or.inr ⟨r, hr, rfl⟩

section Loop

variable {p : Looper S} (hstart : span p.start = 0)

include hstart

lemma span_unroll (k : ℕ) : span (p.unroll k) = k * span p.body := by
  induction k with
  | zero => simp [Looper.unroll, hstart]
  | succ k ih => rw [Looper.unroll, span_append, ih, Nat.succ_mul]

lemma mem_unroll {k n : ℕ} {i : S} : (n, i) ∈ exec 0 (p.unroll k) ↔
    (n, i) ∈ exec 0 p.start ∨ ∃ q < k, ∃ r, (r, i) ∈ exec 0 p.body ∧ n = q * span p.body + r := by
  induction k with
  | zero => simp [Looper.unroll]
  | succ k ih =>
    rw [Looper.unroll, exec_append, List.mem_append, ih, span_unroll hstart, Nat.zero_add,
      mem_exec (t := k * span p.body), or_assoc]
    refine or_congr_right ?_
    simp only [Nat.lt_succ_iff_lt_or_eq, or_and_right, exists_or, exists_eq_left]

/-- **The loop repeats**: what is given at a tick depends on the tick modulo the length of
the loop, if the loop ends by giving what was given first. -/
theorem gives_iff (hfirst : ∀ e ∈ exec 0 p.start, e.1 = 0)
    (hbody : ∀ e ∈ exec 0 p.body, 0 < e.1 ∧ e.1 ≤ span p.body)
    (hwrap : ∀ i, (0, i) ∈ exec 0 p.start ↔ (span p.body, i) ∈ exec 0 p.body) (i : S) (n : ℕ) :
    p.Gives i n ↔ ∃ e ∈ exec 0 p.body, e.2 = i ∧ e.1 % span p.body = n % span p.body := by
  constructor
  · rintro ⟨k, hk⟩
    rcases (mem_unroll hstart).mp hk with h | ⟨q, -, r, hr, rfl⟩
    · obtain rfl : n = 0 := hfirst _ h
      exact ⟨_, (hwrap i).mp h, rfl, by simp⟩
    · exact ⟨_, hr, rfl, by simp⟩
  · rintro ⟨⟨r, j⟩, he, rfl, hr⟩
    obtain ⟨h0, hle⟩ := hbody _ he
    have hn := Nat.div_add_mod' n (span p.body)
    rcases Nat.lt_or_eq_of_le hle with hlt | heq
    · -- inside the loop: this time round
      refine ⟨n / span p.body + 1, (mem_unroll hstart).mpr
        (Or.inr ⟨_, Nat.lt_succ_self _, r, he, ?_⟩)⟩
      rw [Nat.mod_eq_of_lt hlt] at hr
      omega
    · -- at its end: the last time round, or the start
      dsimp only at heq hr
      rw [heq, Nat.mod_self] at hr
      rw [← hr, Nat.add_zero] at hn
      rcases Nat.eq_zero_or_pos (n / span p.body) with hq | hq
      · refine ⟨0, (mem_unroll hstart).mpr (Or.inl ?_)⟩
        rw [hq, Nat.zero_mul] at hn
        rw [← hn]
        exact (hwrap j).mpr (heq ▸ he)
      · refine ⟨n / span p.body, (mem_unroll hstart).mpr
          (Or.inr ⟨n / span p.body - 1, by omega, r, he, ?_⟩)⟩
        rw [heq, Nat.sub_one_mul, Nat.sub_add_cancel (Nat.le_mul_of_pos_left _ hq), hn]

end Loop

end Rtes.Timetable
