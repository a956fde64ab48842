import Rtes.FeasPoints
import Rtes.Hyperbolic

/-!
The rate-monotonic least upper bound is sufficient for both exact tests.

For service `i` and each service `k` above it, take the last release of `k` within the
period of `i`. If the scheduling-point test rejects `i` it rejects these points too, and
then the product of the `1 + wcet/period` exceeds `2`, which the bound excludes for all
the services and so for every prefix of them.
-/

namespace Rtes.FeasLub

open Rtes.Loop Rtes.FeasModel Rtes.FeasExact Rtes.FeasPoints Rtes.Hyperbolic Finset

variable {period wcet : ℕ → ℕ} {i : ℕ}

/-- The last multiple of the period of `k` within the period of `i`. -/
def lastPoint (period : ℕ → ℕ) (i k : ℕ) : ℕ := period i / period k * period k

lemma lastPoint_le (period : ℕ → ℕ) (i k : ℕ) : lastPoint period i k ≤ period i :=
  Nat.div_mul_le_self _ _

/-- Before its last point `j` is released once for each of its points, and once more after
it. -/
lemma ceilDiv_lastPoint_le (hp : ∀ j ≤ i, 1 ≤ period j) (k : ℕ) {j : ℕ} (hj : j ≤ i) :
    lastPoint period i k ⌈/⌉ period j ≤
      period i / period j + if lastPoint period i j < lastPoint period i k then 1 else 0 := by
  rw [ceilDiv_le_iff_le_mul (hp j hj)]
  split
  · exact (lastPoint_le period i k).trans (Nat.lt_mul_div_succ _ (hp j hj)).le
  · next h =>
    rw [Nat.add_zero, Nat.mul_comm]
    exact not_lt.mp h

/-- What a rejected last point says. -/
lemma lastPoint_lt (hp : ∀ j ≤ i, 1 ≤ period j) (hs : ∀ j ≤ i, period j ≤ period i)
    (hno : status period wcet i = false) {k : ℕ} (hk : k ≤ i) :
    lastPoint period i k < (∑ j ∈ range (i + 1), wcet j * (period i / period j)) +
      ∑ j ∈ range (i + 1) with lastPoint period i j < lastPoint period i k, wcet j := by
  have hone : 1 ≤ period i / period k := (Nat.one_le_div_iff (hp k hk)).mpr (hs k hk)
  have hrej : lastPoint period i k < temp period wcet i k (period i / period k) := by
    by_contra hle
    have : status period wcet i = true :=
      status_iff.mpr ⟨k, hk, period i / period k, hone, le_rfl, not_lt.mp hle⟩
    rw [hno] at this
    cases this
  refine hrej.trans_le ?_
  rw [temp_eq, sum_filter, ← sum_add_distrib]
  refine sum_le_sum fun j hj => ?_
  have hji : j ≤ i := Nat.lt_succ_iff.mp (mem_range.mp hj)
  refine (Nat.mul_le_mul_left (wcet j) (ceilDiv_lastPoint_le hp k hji)).trans ?_
  rw [Nat.mul_add]
  split <;> simp

/-- **The hyperbolic bound.** A service whose period is the longest so far passes if the
product of the `1 + wcet/period` up to it is at most `2`. -/
theorem status_of_prod_le_two (hp : ∀ j ≤ i, 1 ≤ period j) (hs : ∀ j ≤ i, period j ≤ period i)
    (hprod : ∏ j ∈ range (i + 1), (1 + (wcet j : ℝ) / (period j : ℝ)) ≤ 2) :
    status period wcet i = true := by
  by_contra hno
  rw [Bool.not_eq_true] at hno
  obtain ⟨S, hS⟩ : ∃ S, S = ∑ j ∈ range (i + 1), wcet j * (period i / period j) := ⟨_, rfl⟩
  have hlt := fun k (hk : k ≤ i) => hS ▸ lastPoint_lt hp hs hno hk
  -- in proportion to its last point, `j` runs its jobs up to that point
  have hshare : ∀ j ∈ range (i + 1), (wcet j : ℝ) / (period j : ℝ) * (lastPoint period i j : ℝ) =
      ((wcet j * (period i / period j) : ℕ) : ℝ) := by
    intro j hj
    have hT : (period j : ℝ) ≠ 0 := by
      have := hp j (Nat.lt_succ_iff.mp (mem_range.mp hj))
      exact_mod_cast (by omega : period j ≠ 0)
    rw [lastPoint]
    push_cast
    field_simp
  have hone : ∀ j ∈ range (i + 1), wcet j ≤ wcet j * (period i / period j) := by
    intro j hj
    have hji := Nat.lt_succ_iff.mp (mem_range.mp hj)
    exact Nat.le_mul_of_pos_right _ ((Nat.one_le_div_iff (hp j hji)).mpr (hs j hji))
  have hkey := add_sum_le_mul_prod (fun j => (lastPoint period i j : ℝ))
    (fun j => (wcet j : ℝ) / (period j : ℝ)) ((S : ℝ) - 1) (range (i + 1))
    (fun _ _ => by positivity) ?_ (fun _ _ => by positivity)
  · rw [sum_congr rfl hshare, ← Nat.cast_sum, ← hS] at hkey
    have hS1 : (1 : ℝ) ≤ S := by
      have h2 : ∑ j ∈ range (i + 1) with lastPoint period i j < lastPoint period i i, wcet j ≤
          S := by
        rw [hS]
        exact (sum_le_sum_of_subset (filter_subset _ _)).trans (sum_le_sum hone)
      have := hlt i le_rfl
      exact_mod_cast (by omega : 1 ≤ S)
    have hle : ((S : ℝ) - 1) * ∏ j ∈ range (i + 1), (1 + (wcet j : ℝ) / (period j : ℝ)) ≤
        ((S : ℝ) - 1) * 2 := mul_le_mul_of_nonneg_left hprod (by linarith)
    linarith
  · intro k hk
    have h := hlt k (Nat.lt_succ_iff.mp (mem_range.mp hk))
    have hle : ∑ j ∈ range (i + 1) with lastPoint period i j < lastPoint period i k, wcet j ≤
        ∑ j ∈ range (i + 1) with lastPoint period i j < lastPoint period i k,
          wcet j * (period i / period j) :=
      sum_le_sum fun j hj => hone j (mem_filter.mp hj).1
    simp only [Nat.cast_lt]
    rw [sum_congr rfl fun j hj => hshare j (mem_filter.mp hj).1, ← Nat.cast_sum]
    have hnat : lastPoint period i k + 1 ≤ S +
        ∑ j ∈ range (i + 1) with lastPoint period i j < lastPoint period i k,
          wcet j * (period i / period j) := by omega
    have : ((lastPoint period i k + 1 : ℕ) : ℝ) ≤ ((S +
        ∑ j ∈ range (i + 1) with lastPoint period i j < lastPoint period i k,
          wcet j * (period i / period j) : ℕ) : ℝ) := by exact_mod_cast hnat
    push_cast at this ⊢
    linarith

/-- A set that the scheduling-point test accepts is one the completion test returns on, and
accepts. -/
theorem completion_of_scheduling {n : ℕ} (hp : ∀ j < n, 1 ≤ period j)
    (h : schedulingPointFeasibility n period wcet period = true) :
    ∃ fuel, completionTimeFeasibility fuel n period wcet period = some true := by
  refine completion_accepts hp fun i hi => ?_
  exact (status_iff_exists fun j hj => hp j (by omega)).mp (scheduling_iff.mp h i hi)

/-- **Sufficiency of the least upper bound.** For services in rate-monotonic order, when the
comparison with the bound holds, the scheduling-point test accepts and the completion test
returns and accepts. -/
theorem lub_sufficient {n : ℕ} {period wcet : ℕ → ℕ} (hn : 1 ≤ n) (hp : ∀ j < n, 1 ≤ period j)
    (hsort : ∀ j k, j ≤ k → k < n → period j ≤ period k)
    (h : rateMonotonicLeastUpperBound n period wcet period = true) :
    (∃ fuel, completionTimeFeasibility fuel n period wcet period = some true) ∧
      schedulingPointFeasibility n period wcet period = true := by
  have hpos : ∀ k, 0 ≤ (wcet k : ℝ) / (period k : ℝ) := fun k => by positivity
  have hprod : ∏ j ∈ range n, (1 + (wcet j : ℝ) / (period j : ℝ)) ≤ 2 := by
    refine prod_le_two (range n) ⟨0, mem_range.mpr hn⟩ _ (fun k _ => hpos k) ?_
    have hle : utilitySum n period wcet ≤ lub n := by
      simpa [rateMonotonicLeastUpperBound] using h
    rw [utilitySum_eq, lub] at hle
    rwa [card_range]
  have hsched : schedulingPointFeasibility n period wcet period = true := by
    refine scheduling_iff.mpr fun i hi => ?_
    refine status_of_prod_le_two (fun j hj => hp j (by omega)) (fun j hj => hsort j i hj hi) ?_
    refine le_trans ?_ hprod
    -- the services below `i` only add factors of at least one
    refine prod_le_prod_of_subset_of_one_le (range_mono hi) (fun j _ => ?_) fun j _ _ => ?_
    · linarith [hpos j]
    · linarith [hpos j]
  exact ⟨completion_of_scheduling hp hsched, hsched⟩

/-- Example 0 of the source passes the bound, so it passes both exact tests. -/
theorem lub_sufficient_ex0 :
    rateMonotonicLeastUpperBound 3 (fun j => [2, 10, 15].getD j 0) (fun j => [1, 1, 2].getD j 0)
      (fun j => [2, 10, 15].getD j 0) = true ∧
    (∃ fuel, completionTimeFeasibility fuel 3 (fun j => [2, 10, 15].getD j 0)
      (fun j => [1, 1, 2].getD j 0) (fun j => [2, 10, 15].getD j 0) = some true) ∧
    schedulingPointFeasibility 3 (fun j => [2, 10, 15].getD j 0) (fun j => [1, 1, 2].getD j 0)
      (fun j => [2, 10, 15].getD j 0) = true := by
  have hroot : (5 / 4 : ℝ) ≤ (2 : ℝ) ^ (1 / (3 : ℝ)) := by
    rw [one_div, Real.le_rpow_inv_iff_of_pos (by norm_num) (by norm_num) (by norm_num)]
    norm_num
  have h : rateMonotonicLeastUpperBound 3 (fun j => [2, 10, 15].getD j 0)
      (fun j => [1, 1, 2].getD j 0) (fun j => [2, 10, 15].getD j 0) = true := by
    rw [rateMonotonicLeastUpperBound, decide_eq_true_eq, utilitySum_eq, lub]
    norm_num [sum_range_succ]
    linarith
  have hsort : ∀ k < 3, ∀ j < k + 1, [2, 10, 15].getD j 0 ≤ [2, 10, 15].getD k 0 := by decide
  exact ⟨h, lub_sufficient (by decide) (by decide) (fun j k hjk hk => hsort k hk j (by omega)) h⟩

end Rtes.FeasLub
