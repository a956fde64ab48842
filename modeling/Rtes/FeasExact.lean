import Rtes.FeasModel
import Rtes.Preempt

/-!
The completion test is exact for preemptive fixed-priority scheduling.

The loop of service `i` climbs from the sum of the first jobs to the first point that its
own step does not raise. So it settles within a bound exactly when some point within the
bound covers the demand there, and that is when every job meets the bound in every
schedule.
-/

namespace Rtes.FeasExact

open Rtes.Loop Rtes.FeasModel Rtes.Preempt Finset

lemma ceilDiv_mono {a b : ℕ} (T : ℕ) (h : a ≤ b) : a ⌈/⌉ T ≤ b ⌈/⌉ T := by
  simp only [Nat.ceilDiv_eq_add_pred_div]
  exact Nat.div_le_div_right (by omega)

lemma one_le_ceilDiv {a T : ℕ} (hT : 1 ≤ T) (ha : 1 ≤ a) : 1 ≤ a ⌈/⌉ T := by
  by_contra h
  have := (ceilDiv_le_iff_le_mul (b := a) (c := 0) hT).mp (by omega)
  omega

/-- The step of the loop is the demand that response-time analysis asks for. -/
lemma anNext_eq_demand (period wcet : ℕ → ℕ) : anNext period wcet = demand period wcet :=
  funext₂ fun i an => anNext_eq period wcet i an

variable {period wcet : ℕ → ℕ} {i : ℕ}

lemma anNext_mono : Monotone (anNext period wcet i) := by
  intro a b hab
  simp only [anNext_eq]
  gcongr with j hj
  exact ceilDiv_mono _ hab

lemma anStart_le_anNext (hp : ∀ j ≤ i, 1 ≤ period j) {an : ℕ} (h : 1 ≤ an) :
    anStart wcet i ≤ anNext period wcet i an := by
  rw [anStart_eq, anNext_eq, sum_range_succ, Nat.add_comm]
  gcongr with j hj
  exact Nat.le_mul_of_pos_left _ (one_le_ceilDiv (hp j (mem_range.mp hj).le) h)

/-- The loop never goes below where it started. -/
lemma anStart_le_anNext_of_le (hp : ∀ j ≤ i, 1 ≤ period j) {an : ℕ} (h : anStart wcet i ≤ an) :
    anStart wcet i ≤ anNext period wcet i an := by
  rcases Nat.eq_zero_or_pos (anStart wcet i) with h0 | hpos
  · omega
  · exact anStart_le_anNext hp (by omega)

/-- **Where the loop settles.** It settles within `d` exactly when some point from its start
to `d` covers its demand. -/
theorem completionLoop_le_iff (hp : ∀ j ≤ i, 1 ≤ period j) {fuel an d : ℕ}
    (h : completionLoop period wcet i fuel = some an) :
    an ≤ d ↔ ∃ x ≤ d, anStart wcet i ≤ x ∧ anNext period wcet i x ≤ x := by
  constructor
  · intro hd
    exact ⟨an, hd, settle_inv (anStart wcet i ≤ ·) (fun _ => anStart_le_anNext_of_le hp) le_rfl h,
      (settle_fixed h).le⟩
  · rintro ⟨x, hxd, hsx, hx⟩
    exact (settle_le anNext_mono hsx hx h).trans hxd

/-- **The loop settles** if any point above its start covers its demand. -/
theorem completionLoop_returns (hp : ∀ j ≤ i, 1 ≤ period j) {x : ℕ} (hs : anStart wcet i ≤ x)
    (hx : anNext period wcet i x ≤ x) : ∃ fuel an, completionLoop period wcet i fuel = some an :=
  settle_returns anNext_mono (anStart_le_anNext_of_le hp le_rfl) hs hx

/-- The answer of the completion test, without its loop. -/
theorem completion_true_iff {fuel n : ℕ} {deadline : ℕ → ℕ} (hp : ∀ j < n, 1 ≤ period j) {b : Bool}
    (h : completionTimeFeasibility fuel n period wcet deadline = some b) :
    b = true ↔ ∀ i < n, ∃ x ≤ deadline i, anStart wcet i ≤ x ∧ anNext period wcet i x ≤ x := by
  obtain ⟨hret, hb⟩ := completion_spec.mp h
  rw [hb]
  refine forall₂_congr fun i hi => ?_
  obtain ⟨an, han⟩ := hret i hi
  have hiff := completionLoop_le_iff (d := deadline i) (fun j hj => hp j (by omega)) han
  constructor
  · exact fun hall => hiff.mp (hall an han)
  · intro hx an' han'
    rw [han] at han'
    cases han'
    exact hiff.mpr hx

/-- The test returns and accepts if each service has a point within its deadline that covers
its demand. -/
theorem completion_accepts {n : ℕ} {deadline : ℕ → ℕ} (hp : ∀ j < n, 1 ≤ period j)
    (h : ∀ i < n, ∃ x ≤ deadline i, anStart wcet i ≤ x ∧ anNext period wcet i x ≤ x) :
    ∃ fuel, completionTimeFeasibility fuel n period wcet deadline = some true := by
  obtain ⟨fuel, b, hb⟩ : ∃ fuel b, completionTimeFeasibility fuel n period wcet deadline =
      some b := by
    refine completion_returns deadline fun i hi => ?_
    obtain ⟨x, -, hs, hx⟩ := h i hi
    exact completionLoop_returns (fun j hj => hp j (by omega)) hs hx
  obtain rfl : b = true := (completion_true_iff hp hb).mpr h
  exact ⟨fuel, hb⟩

/-- **Exactness of the completion test.** Whenever it returns, it returns true exactly when
in every arrival pattern with releases of each service at least a period apart every job
finishes by its deadline. -/
theorem completion_exact {n : ℕ} {period wcet deadline : ℕ → ℕ} (hp : ∀ j < n, 1 ≤ period j)
    (hw : ∀ j < n, 1 ≤ wcet j) (hd : ∀ j < n, deadline j ≤ period j) {fuel : ℕ} {b : Bool}
    (h : completionTimeFeasibility fuel n period wcet deadline = some b) :
    b = true ↔ ∀ arr, Spaced n arr period → Meets n wcet arr deadline := by
  rw [completion_true_iff hp h, meets_iff hw hp hd, anNext_eq_demand]
  refine forall₂_congr fun i hi => exists_congr fun x => and_congr_right fun _ => ?_
  refine and_congr_left fun hx => ⟨fun hs => ?_, fun h1 => ?_⟩
  · have hi' := single_le_sum_of_canonicallyOrdered (f := wcet) (self_mem_range_succ i)
    have := hw i hi
    rw [anStart_eq] at hs
    omega
  · rw [← anNext_eq_demand] at hx
    exact (anStart_le_anNext (fun j hj => hp j (by omega)) h1).trans hx

/-- The completion test of example 1 of the source: services `1/2`, `1/5`, `2/7` are not
feasible. -/
theorem completion_exact_ex1 :
    completionTimeFeasibility 10 3 (fun j => [2, 5, 7].getD j 0) (fun j => [1, 1, 2].getD j 0)
      (fun j => [2, 5, 7].getD j 0) = some false ∧
    ¬ ∀ arr, Spaced 3 arr (fun j => [2, 5, 7].getD j 0) →
      Meets 3 (fun j => [1, 1, 2].getD j 0) arr (fun j => [2, 5, 7].getD j 0) := by
  have h : completionTimeFeasibility 10 3 (fun j => [2, 5, 7].getD j 0)
      (fun j => [1, 1, 2].getD j 0) (fun j => [2, 5, 7].getD j 0) = some false := by decide
  refine ⟨h, fun hall => ?_⟩
  have := (completion_exact (by decide) (by decide) (by decide) h).mpr hall
  cases this

end Rtes.FeasExact
