import Rtes.FeasExact

/-!
The completion test and the scheduling-point test agree when deadlines are periods.

The demand of service `i` changes only just after a multiple of one of the periods above
it, so a point that covers its demand can be moved up to the next multiple of some period,
and these are the points the scheduling-point test tries.
-/

namespace Rtes.FeasPoints

open Rtes.Loop Rtes.FeasModel Rtes.FeasExact Finset

variable {period wcet : ℕ → ℕ} {i : ℕ}

lemma le_mul_ceilDiv {T : ℕ} (hT : 1 ≤ T) (x : ℕ) : x ≤ T * (x ⌈/⌉ T) :=
  (ceilDiv_le_iff_le_mul hT).mp le_rfl

/-- Within the period of `i` the work `temp` adds up is the demand of `i`. -/
lemma temp_eq_anNext (hp : ∀ j ≤ i, 1 ≤ period j) {k l : ℕ} (h1 : 1 ≤ l * period k)
    (hT : l * period k ≤ period i) :
    temp period wcet i k l = anNext period wcet i (l * period k) := by
  have hone : (l * period k) ⌈/⌉ period i = 1 := by
    refine le_antisymm ?_ (one_le_ceilDiv (hp i le_rfl) h1)
    rw [ceilDiv_le_iff_le_mul (hp i le_rfl)]
    omega
  rw [temp_eq, anNext_eq, sum_range_succ, hone, Nat.mul_one, Nat.add_comm]
  simp only [Nat.mul_comm]

/-- Moving up to the nearest multiple of a period changes no quotient. -/
lemma ceilDiv_nearest (hp : ∀ j ≤ i, 1 ≤ period j) {x k : ℕ} (hk : k ≤ i)
    (hmin : ∀ j ≤ i, period k * (x ⌈/⌉ period k) ≤ period j * (x ⌈/⌉ period j)) {j : ℕ}
    (hj : j ≤ i) :
    (period k * (x ⌈/⌉ period k)) ⌈/⌉ period j = x ⌈/⌉ period j := by
  refine le_antisymm ?_ (ceilDiv_mono _ (le_mul_ceilDiv (hp k hk) x))
  rw [ceilDiv_le_iff_le_mul (hp j hj)]
  exact hmin j hj

/-- **A point that covers its demand exists within the period exactly when the test finds
one.** -/
theorem status_iff_exists (hp : ∀ j ≤ i, 1 ≤ period j) : status period wcet i = true ↔
    ∃ x ≤ period i, anStart wcet i ≤ x ∧ anNext period wcet i x ≤ x := by
  rw [status_iff]
  constructor
  · rintro ⟨k, hk, l, hl, hlk, ht⟩
    have hT : l * period k ≤ period i := (Nat.le_div_iff_mul_le (hp k hk)).mp hlk
    have h1 : 1 ≤ l * period k := Nat.mul_pos hl (hp k hk)
    rw [temp_eq_anNext hp h1 hT] at ht
    exact ⟨l * period k, hT, (anStart_le_anNext hp h1).trans ht, ht⟩
  · rintro ⟨x, hxT, hsx, hx⟩
    rcases Nat.eq_zero_or_pos x with rfl | hpos
    · -- nothing to run at all: the period itself is a point
      have h0 : ∀ j ∈ range (i + 1), wcet j = 0 := by
        rw [← Finset.sum_eq_zero_iff, ← anStart_eq]
        omega
      refine ⟨i, le_rfl, 1, le_rfl, ?_, ?_⟩
      · rw [Nat.div_self (hp i le_rfl)]
      · rw [temp_eq, Finset.sum_eq_zero fun j hj => by rw [h0 j hj, Nat.zero_mul]]
        exact Nat.zero_le _
    · obtain ⟨k, hk, hmin⟩ := exists_min_image (range (i + 1))
        (fun k => period k * (x ⌈/⌉ period k)) ⟨i, by simp⟩
      simp only [mem_range, Nat.lt_succ_iff] at hk hmin
      have hone : x ⌈/⌉ period i ≤ 1 := by
        rw [ceilDiv_le_iff_le_mul (hp i le_rfl)]; omega
      have hle : period k * (x ⌈/⌉ period k) ≤ period i :=
        (hmin i le_rfl).trans (by simpa using Nat.mul_le_mul_left (period i) hone)
      have hxk := le_mul_ceilDiv (hp k hk) x
      refine ⟨k, hk, x ⌈/⌉ period k, one_le_ceilDiv (hp k hk) hpos, ?_, ?_⟩
      · rw [Nat.le_div_iff_mul_le (hp k hk), Nat.mul_comm]
        exact hle
      · rw [Nat.mul_comm] at hle hxk
        rw [temp_eq_anNext hp (by omega) hle]
        have hsame : anNext period wcet i (x ⌈/⌉ period k * period k) = anNext period wcet i x := by
          simp only [anNext_eq]
          congr 1
          refine sum_congr rfl fun j hj => ?_
          rw [Nat.mul_comm (x ⌈/⌉ period k), ceilDiv_nearest hp hk hmin (mem_range.mp hj).le]
        omega

/-- **The two exact tests agree.** Whenever the completion test returns, it returns what the
scheduling-point test returns, for periods in any order. -/
theorem tests_agree {n : ℕ} {period wcet : ℕ → ℕ} (hp : ∀ j < n, 1 ≤ period j) {fuel : ℕ}
    {b : Bool} (h : completionTimeFeasibility fuel n period wcet period = some b) :
    b = true ↔ schedulingPointFeasibility n period wcet period = true := by
  rw [completion_true_iff hp h, scheduling_iff]
  exact forall₂_congr fun i hi => (status_iff_exists fun j hj => hp j (by omega)).symm

/-- Example 4 of the source, where the core is fully used: both tests accept. -/
theorem tests_agree_ex4 :
    completionTimeFeasibility 10 3 (fun j => [2, 4, 16].getD j 0) (fun j => [1, 1, 4].getD j 0)
      (fun j => [2, 4, 16].getD j 0) = some true ∧
    schedulingPointFeasibility 3 (fun j => [2, 4, 16].getD j 0) (fun j => [1, 1, 4].getD j 0)
      (fun j => [2, 4, 16].getD j 0) = true := by
  have h : completionTimeFeasibility 10 3 (fun j => [2, 4, 16].getD j 0)
      (fun j => [1, 1, 4].getD j 0) (fun j => [2, 4, 16].getD j 0) = some true := by decide
  exact ⟨h, (tests_agree (by decide) h).mp rfl⟩

end Rtes.FeasPoints
