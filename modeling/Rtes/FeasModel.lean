import Rtes.Loop

/-!
The three feasibility tests of `Feasibility/feasibility_tests.c`, on exact numbers.

An array is a function of the index; only the entries below `numServices` are read. The
`ceil` and `floor` of a quotient of two `double`s are the ceiling and the floor of the
exact quotient. The `while(1)` loop of the completion test has no bound in the source, so
the test takes the fuel of that loop and returns nothing when the loop is cut off.
-/

namespace Rtes.FeasModel

open Rtes.Loop Finset

/-- The `an` each service starts from: `for (j=0; j <= i; j++) an+=wcet[j]`. -/
def anStart (wcet : ℕ → ℕ) (i : ℕ) : ℕ := (List.range (i + 1)).foldl (fun an j => an + wcet j) 0

/-- The `anext` computed from `an`: `wcet[i]`, and for each service above `i` its jobs
released in `an` units. -/
def anNext (period wcet : ℕ → ℕ) (i an : ℕ) : ℕ :=
  (List.range i).foldl (fun anext j => anext + (an ⌈/⌉ period j) * wcet j) (wcet i)

/-- The `while(1)` loop for service `i`: break when `anext == an`, else `an=anext`. -/
def completionLoop (period wcet : ℕ → ℕ) (i fuel : ℕ) : Option ℕ :=
  settle (anNext period wcet i) fuel (anStart wcet i)

/-- `completion_time_feasibility`, with `fuel` rounds for each `while(1)`. -/
def completionTimeFeasibility (fuel numServices : ℕ) (period wcet deadline : ℕ → ℕ) :
    Option Bool :=
  (List.range numServices).foldlM (fun setFeasible i => do
    let an ← completionLoop period wcet i fuel
    pure (if an > deadline i then false else setFeasible)) true

/-- `temp` at the scheduling point `l*period[k]`. -/
def temp (period wcet : ℕ → ℕ) (i k l : ℕ) : ℕ :=
  (List.range (i + 1)).foldl (fun temp j => temp + wcet j * ((l * period k) ⌈/⌉ period j)) 0

/-- `status` for service `i`: both loops are left at the first point whose work fits. -/
def status (period wcet : ℕ → ℕ) (i : ℕ) : Bool :=
  (List.range (i + 1)).any fun k =>
    (List.range' 1 (period i / period k)).any fun l =>
      decide (temp period wcet i k l ≤ l * period k)

/-- `scheduling_point_feasibility`; its `deadline` argument is never read. -/
def schedulingPointFeasibility (numServices : ℕ) (period wcet _deadline : ℕ → ℕ) : Bool :=
  (List.range numServices).foldl (fun rc i => if status period wcet i then rc else false) true

/-- `utility_sum` of `rate_monotonic_least_upper_bound`, as a real number. -/
noncomputable def utilitySum (numServices : ℕ) (period wcet : ℕ → ℕ) : ℝ :=
  (List.range numServices).foldl (fun sum idx => sum + (wcet idx : ℝ) / (period idx : ℝ)) 0

/-- `lub`, as a real number. -/
noncomputable def lub (numServices : ℕ) : ℝ :=
  (numServices : ℝ) * ((2 : ℝ) ^ (1 / (numServices : ℝ)) - 1)

open Classical in
/-- `rate_monotonic_least_upper_bound` in exact real arithmetic; its `deadline` argument is
never read. -/
noncomputable def rateMonotonicLeastUpperBound (numServices : ℕ)
    (period wcet _deadline : ℕ → ℕ) : Bool :=
  decide (utilitySum numServices period wcet ≤ lub numServices)

/-! ### What the loops compute -/

lemma anStart_eq (wcet : ℕ → ℕ) (i : ℕ) : anStart wcet i = ∑ j ∈ range (i + 1), wcet j := by
  rw [anStart, foldl_add, Nat.zero_add]

lemma anNext_eq (period wcet : ℕ → ℕ) (i an : ℕ) :
    anNext period wcet i an = wcet i + ∑ j ∈ range i, (an ⌈/⌉ period j) * wcet j := by
  rw [anNext, foldl_add]

lemma temp_eq (period wcet : ℕ → ℕ) (i k l : ℕ) :
    temp period wcet i k l = ∑ j ∈ range (i + 1), wcet j * ((l * period k) ⌈/⌉ period j) := by
  rw [temp, foldl_add, Nat.zero_add]

lemma utilitySum_eq (n : ℕ) (period wcet : ℕ → ℕ) :
    utilitySum n period wcet = ∑ j ∈ range n, (wcet j : ℝ) / (period j : ℝ) := by
  induction n with
  | zero => simp [utilitySum]
  | succ n ih =>
    rw [utilitySum, List.range_succ, List.foldl_append, ← utilitySum, ih, sum_range_succ]
    simp

lemma status_iff {period wcet : ℕ → ℕ} {i : ℕ} : status period wcet i = true ↔
    ∃ k ≤ i, ∃ l, 1 ≤ l ∧ l ≤ period i / period k ∧
      temp period wcet i k l ≤ l * period k := by
  simp only [status, List.any_eq_true, List.mem_range, List.mem_range'_1, decide_eq_true_eq,
    Nat.lt_succ_iff, Nat.lt_one_add_iff, and_assoc]

lemma scheduling_iff {n : ℕ} {period wcet deadline : ℕ → ℕ} :
    schedulingPointFeasibility n period wcet deadline = true ↔
      ∀ i < n, status period wcet i = true := by
  rw [schedulingPointFeasibility, foldl_flag, decide_eq_true_eq]

lemma completion_succ (fuel n : ℕ) (period wcet deadline : ℕ → ℕ) :
    completionTimeFeasibility fuel (n + 1) period wcet deadline =
      (completionTimeFeasibility fuel n period wcet deadline).bind fun ok =>
        (completionLoop period wcet n fuel).map fun an =>
          if an > deadline n then false else ok := by
  rw [completionTimeFeasibility, List.range_succ, List.foldlM_append, ← completionTimeFeasibility]
  cases completionTimeFeasibility fuel n period wcet deadline with
  | none => rfl
  | some ok => cases h : completionLoop period wcet n fuel <;> simp [h]

/-- **What the completion test returns**: the loop of each service settles, and the answer
is whether all settle within their deadlines. -/
theorem completion_spec {fuel n : ℕ} {period wcet deadline : ℕ → ℕ} {b : Bool} :
    completionTimeFeasibility fuel n period wcet deadline = some b ↔
      (∀ i < n, ∃ an, completionLoop period wcet i fuel = some an) ∧
        (b = true ↔ ∀ i < n, ∀ an, completionLoop period wcet i fuel = some an →
          an ≤ deadline i) := by
  induction n generalizing b with
  | zero => cases b <;> simp [completionTimeFeasibility]
  | succ n ih =>
    simp only [completion_succ, Option.bind_eq_some_iff, Option.map_eq_some_iff,
      Nat.forall_lt_succ_right]
    constructor
    · rintro ⟨ok, hok, an, han, rfl⟩
      obtain ⟨hall, hiff⟩ := ih.mp hok
      refine ⟨⟨hall, an, han⟩, ?_⟩
      simp only [han, Option.some.injEq, forall_eq']
      rw [← hiff]
      by_cases hd : an > deadline n
      · simp [hd]
      · simp [hd, Nat.le_of_not_lt hd]
    · rintro ⟨⟨hall, an, han⟩, hiff⟩
      simp only [han, Option.some.injEq, forall_eq'] at hiff
      -- the flag before service `n` is whether the services before it settle in time
      refine ⟨decide (∀ i < n, ∀ an, completionLoop period wcet i fuel = some an →
        an ≤ deadline i), ih.mpr ⟨hall, by simp⟩, an, han, ?_⟩
      by_cases hd : an > deadline n
      · cases b
        · simp [hd]
        · exact absurd (hiff.mp rfl).2 (by omega)
      · rw [if_neg hd, Bool.eq_iff_iff, decide_eq_true_eq, hiff]
        exact (and_iff_left (by omega)).symm

/-- The test returns as soon as the loop of each service settles. -/
lemma completion_returns {n : ℕ} {period wcet : ℕ → ℕ} (deadline : ℕ → ℕ)
    (h : ∀ i < n, ∃ fuel an, completionLoop period wcet i fuel = some an) :
    ∃ fuel b, completionTimeFeasibility fuel n period wcet deadline = some b := by
  choose! fuel an hloop using h
  -- enough fuel for every service
  have hall : ∀ i < n, completionLoop period wcet i ((range n).sup fuel) = some (an i) :=
    fun i hi => settle_mono (le_sup (f := fuel) (mem_range.mpr hi)) (hloop i hi)
  exact ⟨(range n).sup fuel, decide (∀ i < n, ∀ an,
    completionLoop period wcet i ((range n).sup fuel) = some an → an ≤ deadline i),
    completion_spec.mpr ⟨fun i hi => ⟨an i, hall i hi⟩, by simp⟩⟩

end Rtes.FeasModel
