import Rtes.FeasPoints

/-!
When the loop of the completion test ends, and what it ends with.

The demand of service `i` grows with the load `wcet/period` of the services above it. Below
a load of one some point covers it, at a load of one a common multiple of the periods does
if service `i` itself needs nothing, and above that no point does and the loop climbs
forever. Where the loop ends, it ends with the least solution of its equation, and a point
that covers the demand of a set covers that of every lighter set.
-/

namespace Rtes.FeasReturn

open Rtes.Loop Rtes.FeasModel Rtes.FeasExact Rtes.FeasPoints Finset

/-- The utilisation of the first `i` services. -/
def load (period wcet : ℕ → ℕ) (i : ℕ) : ℚ := ∑ j ∈ range i, (wcet j : ℚ) / (period j : ℚ)

variable {period wcet : ℕ → ℕ} {i : ℕ}

lemma load_nonneg (period wcet : ℕ → ℕ) (i : ℕ) : 0 ≤ load period wcet i :=
  sum_nonneg fun _ _ => by positivity

lemma load_mono (period wcet : ℕ → ℕ) : Monotone (load period wcet) := by
  intro i k hik
  exact sum_le_sum_of_subset_of_nonneg (range_mono hik) fun _ _ _ => by positivity

/-! ### The demand between two lines -/

lemma div_le_ceilDiv {T : ℕ} (hT : 1 ≤ T) (x : ℕ) : (x : ℚ) / T ≤ (x ⌈/⌉ T : ℕ) := by
  rw [div_le_iff₀ (by exact_mod_cast hT), mul_comm]
  exact_mod_cast le_mul_ceilDiv hT x

lemma ceilDiv_le_div_add_one {T : ℕ} (hT : 1 ≤ T) (x : ℕ) :
    ((x ⌈/⌉ T : ℕ) : ℚ) ≤ (x : ℚ) / T + 1 := by
  have hpos : (0 : ℚ) < T := by exact_mod_cast hT
  have hnat : T * (x ⌈/⌉ T) ≤ x + T := by
    rw [Nat.ceilDiv_eq_add_pred_div]
    exact (Nat.mul_div_le _ _).trans (by omega)
  have hcast : (T : ℚ) * (x ⌈/⌉ T : ℕ) ≤ x + T := by exact_mod_cast hnat
  rw [div_add_one hpos.ne', le_div_iff₀ hpos, mul_comm]
  exact hcast

/-- The demand grows at least with the load. -/
lemma load_le_anNext (wcet : ℕ → ℕ) (hp : ∀ j < i, 1 ≤ period j) (x : ℕ) :
    (wcet i : ℚ) + load period wcet i * x ≤ anNext period wcet i x := by
  rw [anNext_eq, load, sum_mul]
  push_cast
  refine add_le_add le_rfl (sum_le_sum fun j hj => ?_)
  calc (wcet j : ℚ) / period j * x = (x : ℚ) / period j * wcet j := by ring
    _ ≤ (x ⌈/⌉ period j : ℕ) * wcet j := by
      gcongr
      exact div_le_ceilDiv (hp j (mem_range.mp hj)) x

/-- The demand grows at most with the load, from the sum of the first jobs. -/
lemma anNext_le_load (wcet : ℕ → ℕ) (hp : ∀ j < i, 1 ≤ period j) (x : ℕ) :
    (anNext period wcet i x : ℚ) ≤ anStart wcet i + load period wcet i * x := by
  rw [anNext_eq, anStart_eq, load, sum_mul, sum_range_succ]
  push_cast
  have hsum : ∑ j ∈ range i, ((x ⌈/⌉ period j : ℕ) : ℚ) * wcet j ≤
      ∑ j ∈ range i, ((wcet j : ℚ) + (wcet j : ℚ) / period j * x) := by
    refine sum_le_sum fun j hj => ?_
    calc ((x ⌈/⌉ period j : ℕ) : ℚ) * wcet j ≤ ((x : ℚ) / period j + 1) * wcet j := by
          gcongr
          exact ceilDiv_le_div_add_one (hp j (mem_range.mp hj)) x
      _ = (wcet j : ℚ) + (wcet j : ℚ) / period j * x := by ring
  rw [sum_add_distrib] at hsum
  linarith

/-- At a common multiple of the periods the demand is the load exactly. -/
lemma anNext_of_dvd (wcet : ℕ → ℕ) (hp : ∀ j < i, 1 ≤ period j) {x : ℕ}
    (hx : ∀ j < i, period j ∣ x) :
    (anNext period wcet i x : ℚ) = wcet i + load period wcet i * x := by
  rw [anNext_eq, load, sum_mul]
  push_cast
  congr 1
  refine sum_congr rfl fun j hj => ?_
  have hj' := mem_range.mp hj
  obtain ⟨c, rfl⟩ := hx j hj'
  have hpos : (period j : ℚ) ≠ 0 := by exact_mod_cast (by have := hp j hj'; omega : period j ≠ 0)
  have hceil : (period j * c) ⌈/⌉ period j = c := by
    rw [← smul_eq_mul, smul_ceilDiv (hp j hj')]
  rw [hceil]
  push_cast
  field_simp

/-! ### Termination -/

/-- A point that covers the demand, for a load below one. -/
lemma exists_covering_of_lt (hp : ∀ j < i, 1 ≤ period j) (hU : load period wcet i < 1) :
    ∃ x, anStart wcet i ≤ x ∧ anNext period wcet i x ≤ x := by
  obtain ⟨x, hx⟩ := exists_nat_ge ((anStart wcet i : ℚ) / (1 - load period wcet i))
  have hgap : 0 < 1 - load period wcet i := by linarith
  rw [div_le_iff₀ hgap] at hx
  have hload := mul_nonneg (load_nonneg period wcet i) x.cast_nonneg
  refine ⟨x, ?_, ?_⟩
  · have : (anStart wcet i : ℚ) ≤ x := by linarith
    exact_mod_cast this
  · have : (anNext period wcet i x : ℚ) ≤ x := by linarith [anNext_le_load wcet hp x]
    exact_mod_cast this

/-- A point that covers the demand, for a load of one and nothing to run below it. -/
lemma exists_covering_of_eq (hp : ∀ j < i, 1 ≤ period j) (hU : load period wcet i = 1)
    (hw : wcet i = 0) : ∃ x, anStart wcet i ≤ x ∧ anNext period wcet i x ≤ x := by
  have hprod : 1 ≤ ∏ j ∈ range i, period j :=
    Nat.one_le_iff_ne_zero.mpr (prod_ne_zero_iff.mpr fun j hj => by
      have := hp j (mem_range.mp hj)
      omega)
  refine ⟨anStart wcet i * ∏ j ∈ range i, period j, Nat.le_mul_of_pos_right _ hprod, ?_⟩
  have heq := anNext_of_dvd wcet hp (x := anStart wcet i * ∏ j ∈ range i, period j) fun j hj =>
    (dvd_prod_of_mem period (mem_range.mpr hj)).mul_left _
  rw [hU, hw, one_mul, Nat.cast_zero, zero_add] at heq
  exact_mod_cast heq.le

/-- **When the loop of service `i` ends.** -/
theorem completionLoop_returns_iff (hp : ∀ j ≤ i, 1 ≤ period j) :
    (∃ fuel an, completionLoop period wcet i fuel = some an) ↔
      load period wcet i < 1 ∨ load period wcet i = 1 ∧ wcet i = 0 := by
  have hpi : ∀ j < i, 1 ≤ period j := fun j hj => hp j hj.le
  constructor
  · rintro ⟨fuel, an, h⟩
    have hfix := load_le_anNext wcet hpi an
    rw [settle_fixed h] at hfix
    have hwi : (0 : ℚ) ≤ wcet i := by positivity
    rcases lt_trichotomy (load period wcet i) 1 with hlt | heq | hgt
    · exact Or.inl hlt
    · rw [heq, one_mul] at hfix
      have : (wcet i : ℚ) = 0 := by linarith
      exact Or.inr ⟨heq, by exact_mod_cast this⟩
    · -- the loop has ended at zero, where it started, and then there is no load
      exfalso
      have han : (an : ℚ) = 0 := by nlinarith [(an.cast_nonneg : (0 : ℚ) ≤ an)]
      have hstart := settle_inv (anStart wcet i ≤ ·) (fun _ => anStart_le_anNext_of_le hp) le_rfl h
      have hzero : ∑ j ∈ range (i + 1), wcet j = 0 := by
        rw [← anStart_eq]
        have : an = 0 := by exact_mod_cast han
        omega
      have hload : load period wcet i = 0 := by
        refine sum_eq_zero fun j hj => ?_
        have := sum_eq_zero_iff.mp hzero j (mem_range.mpr (by have := mem_range.mp hj; omega))
        rw [this, Nat.cast_zero, zero_div]
      linarith
  · intro hU
    obtain ⟨x, hs, hx⟩ : ∃ x, anStart wcet i ≤ x ∧ anNext period wcet i x ≤ x := by
      rcases hU with hlt | ⟨heq, hw⟩
      · exact exists_covering_of_lt hpi hlt
      · exact exists_covering_of_eq hpi heq hw
    exact completionLoop_returns hp hs hx

/-- **The completion test returns** exactly on the sets in which the services above each one
leave it time: their load is below one, or it is one and the service needs nothing. -/
theorem completion_returns_iff {n : ℕ} {period : ℕ → ℕ} (wcet deadline : ℕ → ℕ)
    (hp : ∀ j < n, 1 ≤ period j) :
    ((∀ i < n, ∃ fuel an, completionLoop period wcet i fuel = some an) ↔
      ∀ i < n, load period wcet i < 1 ∨ load period wcet i = 1 ∧ wcet i = 0) ∧
    ((∃ fuel b, completionTimeFeasibility fuel n period wcet deadline = some b) ↔
      ∀ i < n, load period wcet i < 1 ∨ load period wcet i = 1 ∧ wcet i = 0) := by
  have hloops : (∀ i < n, ∃ fuel an, completionLoop period wcet i fuel = some an) ↔
      ∀ i < n, load period wcet i < 1 ∨ load period wcet i = 1 ∧ wcet i = 0 :=
    forall₂_congr fun i hi => completionLoop_returns_iff fun j hj => hp j (by omega)
  refine ⟨hloops, ?_⟩
  rw [← hloops]
  constructor
  · rintro ⟨fuel, b, hb⟩ i hi
    obtain ⟨an, han⟩ := (completion_spec.mp hb).1 i hi
    exact ⟨fuel, an, han⟩
  · exact completion_returns deadline

/-- Example 1 of the source, which is not feasible. -/
theorem completion_returns_iff_ex1 :
    ∃ fuel b, completionTimeFeasibility fuel 3 (fun j => [2, 5, 7].getD j 0)
      (fun j => [1, 1, 2].getD j 0) (fun j => [2, 5, 7].getD j 0) = some b := by
  refine (completion_returns_iff (n := 3) (fun j => [1, 1, 2].getD j 0)
    (fun j => [2, 5, 7].getD j 0) (by decide)).2.mpr fun i hi => Or.inl ?_
  have hmono := load_mono (fun j => [2, 5, 7].getD j 0) (fun j => [1, 1, 2].getD j 0)
    (Nat.le_of_lt_succ hi)
  refine hmono.trans_lt ?_
  norm_num [load, sum_range_succ]

/-- Two services, the first of which needs the whole core: the loop of the second climbs
forever. -/
theorem completion_runs_forever :
    (∀ fuel, completionLoop (fun j => [2, 5].getD j 0) (fun j => [2, 1].getD j 0) 1 fuel = none) ∧
    ∀ fuel, completionTimeFeasibility fuel 2 (fun j => [2, 5].getD j 0)
      (fun j => [2, 1].getD j 0) (fun j => [2, 5].getD j 0) = none := by
  have hload : load (fun j => [2, 5].getD j 0) (fun j => [2, 1].getD j 0) 1 = 1 := by
    norm_num [load]
  have hloop : ∀ fuel, completionLoop (fun j => [2, 5].getD j 0) (fun j => [2, 1].getD j 0) 1
      fuel = none := by
    refine fun fuel => Option.eq_none_iff_forall_ne_some.mpr fun an h => ?_
    rcases (completionLoop_returns_iff (by decide)).mp ⟨fuel, an, h⟩ with hlt | ⟨-, hw⟩
    · exact hlt.ne hload
    · exact absurd hw (by decide)
  refine ⟨hloop, fun fuel => Option.eq_none_iff_forall_ne_some.mpr fun b h => ?_⟩
  obtain ⟨an, han⟩ := (completion_spec.mp h).1 1 (by decide)
  rw [hloop] at han
  cases han

/-! ### The least solution -/

lemma load_lt_one {n : ℕ} (hp : ∀ j < n, 1 ≤ period j) (hw : ∀ j < n, 1 ≤ wcet j)
    (hU : load period wcet n ≤ 1) (hi : i < n) : load period wcet i < 1 := by
  have hle := load_mono period wcet (Nat.succ_le_of_lt hi)
  have hw' : (0 : ℚ) < wcet i := by exact_mod_cast hw i hi
  have hp' : (0 : ℚ) < period i := by exact_mod_cast hp i hi
  have hpos := div_pos hw' hp'
  rw [load, Nat.succ_eq_add_one, sum_range_succ, ← load] at hle
  linarith

/-- **The loop finds the least solution.** At a utilisation of at most one the values of `an`
do not decrease, the loop ends, and it ends with the least positive solution of
`t = wcet[i] + Σ ceil(t/period[j])*wcet[j]`. -/
theorem completion_least {n : ℕ} {period wcet : ℕ → ℕ} (hp : ∀ j < n, 1 ≤ period j)
    (hw : ∀ j < n, 1 ≤ wcet j) (hU : ∑ j ∈ range n, (wcet j : ℚ) / (period j : ℚ) ≤ 1)
    {i : ℕ} (hi : i < n) :
    Monotone (fun k => (anNext period wcet i)^[k] (anStart wcet i)) ∧
    ∃ fuel k, completionLoop period wcet i fuel =
        some ((anNext period wcet i)^[k] (anStart wcet i)) ∧
      IsLeast {t | 1 ≤ t ∧ t = wcet i + ∑ j ∈ range i, (t ⌈/⌉ period j) * wcet j}
        ((anNext period wcet i)^[k] (anStart wcet i)) := by
  have hpi : ∀ j ≤ i, 1 ≤ period j := fun j hj => hp j (by omega)
  have hload := load_lt_one hp hw hU hi
  refine ⟨?_, ?_⟩
  · exact anNext_mono.monotone_iterate_of_le_map (anStart_le_anNext_of_le hpi le_rfl)
  · obtain ⟨fuel, an, h⟩ := (completionLoop_returns_iff hpi).mpr (Or.inl hload)
    obtain ⟨k, rfl⟩ := settle_iterate h
    refine ⟨fuel, k, h, ⟨?_, ?_⟩, ?_⟩
    · have hstart := settle_inv (anStart wcet i ≤ ·) (fun _ => anStart_le_anNext_of_le hpi) le_rfl h
      have hone : wcet i ≤ anStart wcet i := by
        rw [anStart_eq]
        exact single_le_sum_of_canonicallyOrdered (self_mem_range_succ i)
      have := hw i hi
      omega
    · rw [← anNext_eq]
      exact (settle_fixed h).symm
    · rintro t ⟨ht, heq⟩
      rw [← anNext_eq] at heq
      exact settle_le anNext_mono (heq ▸ anStart_le_anNext hpi ht) heq.ge h

/-- Example 4 of the source, at a utilisation of one. -/
theorem completion_least_ex4 :
    ∃ fuel an, completionLoop (fun j => [2, 4, 16].getD j 0) (fun j => [1, 1, 4].getD j 0) 2
        fuel = some an ∧
      IsLeast {t | 1 ≤ t ∧ t = [1, 1, 4].getD 2 0 +
        ∑ j ∈ range 2, (t ⌈/⌉ [2, 4, 16].getD j 0) * [1, 1, 4].getD j 0} an := by
  have hU : ∑ j ∈ range 3, ((([1, 1, 4] : List ℕ).getD j 0 : ℕ) : ℚ) /
      (([2, 4, 16] : List ℕ).getD j 0 : ℕ) ≤ 1 := by norm_num [sum_range_succ]
  obtain ⟨-, fuel, k, h⟩ := completion_least (by decide) (by decide) hU (i := 2) (by decide)
  exact ⟨fuel, _, h⟩

/-! ### Lighter sets -/

section Lighter

variable {n : ℕ} {period wcet period' wcet' : ℕ → ℕ}

lemma ceilDiv_anti {T T' : ℕ} (hT : 1 ≤ T) (h : T ≤ T') (x : ℕ) : x ⌈/⌉ T' ≤ x ⌈/⌉ T := by
  rw [ceilDiv_le_iff_le_mul (by omega)]
  exact (le_mul_ceilDiv hT x).trans (Nat.mul_le_mul_right _ h)

/-- A point that covers the demand of a set covers that of a lighter one. -/
lemma covering_of_lighter (hp : ∀ j ≤ i, 1 ≤ period j) (hT : ∀ j ≤ i, period j ≤ period' j)
    (hw : ∀ j ≤ i, wcet' j ≤ wcet j) {x : ℕ}
    (hx : anStart wcet i ≤ x ∧ anNext period wcet i x ≤ x) :
    anStart wcet' i ≤ x ∧ anNext period' wcet' i x ≤ x := by
  have hstart : anStart wcet' i ≤ anStart wcet i := by
    rw [anStart_eq, anStart_eq]
    exact sum_le_sum fun j hj => hw j (Nat.lt_succ_iff.mp (mem_range.mp hj))
  have hnext : anNext period' wcet' i x ≤ anNext period wcet i x := by
    rw [anNext_eq, anNext_eq]
    refine add_le_add (hw i le_rfl) (sum_le_sum fun j hj => ?_)
    have hj' := (mem_range.mp hj).le
    exact Nat.mul_le_mul (ceilDiv_anti (hp j hj') (hT j hj') x) (hw j hj')
  exact ⟨hstart.trans hx.1, hnext.trans hx.2⟩

/-- **Feasibility is sustainable**: with shorter jobs, longer periods and later deadlines
both tests still accept. -/
theorem feasibility_sustainable {deadline deadline' : ℕ → ℕ} (hp : ∀ j < n, 1 ≤ period j)
    (hw : ∀ j < n, wcet' j ≤ wcet j) (hT : ∀ j < n, period j ≤ period' j)
    (hd : ∀ j < n, deadline j ≤ deadline' j) :
    ((∃ fuel, completionTimeFeasibility fuel n period wcet deadline = some true) →
      ∃ fuel, completionTimeFeasibility fuel n period' wcet' deadline' = some true) ∧
    (schedulingPointFeasibility n period wcet period = true →
      schedulingPointFeasibility n period' wcet' period' = true) := by
  have hp' : ∀ j < n, 1 ≤ period' j := fun j hj => (hp j hj).trans (hT j hj)
  have hlight : ∀ i < n, ∀ x, anStart wcet i ≤ x ∧ anNext period wcet i x ≤ x →
      anStart wcet' i ≤ x ∧ anNext period' wcet' i x ≤ x := fun i hi x =>
    covering_of_lighter (fun j hj => hp j (by omega)) (fun j hj => hT j (by omega))
      fun j hj => hw j (by omega)
  refine ⟨?_, fun h => ?_⟩
  · rintro ⟨fuel, h⟩
    refine completion_accepts hp' fun i hi => ?_
    obtain ⟨x, hxd, hx⟩ := (completion_true_iff hp h).mp rfl i hi
    exact ⟨x, hxd.trans (hd i hi), hlight i hi x hx⟩
  · refine scheduling_iff.mpr fun i hi => ?_
    obtain ⟨x, hxT, hx⟩ :=
      (status_iff_exists fun j hj => hp j (by omega)).mp (scheduling_iff.mp h i hi)
    exact (status_iff_exists fun j hj => hp' j (by omega)).mpr
      ⟨x, hxT.trans (hT i hi), hlight i hi x hx⟩

/-- The first two services of example 4 of the source, slowed down to those of example 0. -/
theorem feasibility_sustainable_ex0 :
    (∃ fuel, completionTimeFeasibility fuel 2 (fun j => [2, 10].getD j 0)
      (fun j => [1, 1].getD j 0) (fun j => [2, 10].getD j 0) = some true) ∧
    schedulingPointFeasibility 2 (fun j => [2, 10].getD j 0) (fun j => [1, 1].getD j 0)
      (fun j => [2, 10].getD j 0) = true := by
  have hT : ∀ j < 2, [2, 4].getD j 0 ≤ [2, 10].getD j 0 := by decide
  have hw : ∀ j < 2, [1, 1].getD j 0 ≤ [1, 1].getD j 0 := fun _ _ => le_rfl
  have hp : ∀ j < 2, 1 ≤ [2, 4].getD j 0 := by decide
  have h := feasibility_sustainable hp hw hT hT
  exact ⟨h.1 ⟨10, by decide⟩, h.2 (by decide)⟩

end Lighter

end Rtes.FeasReturn
