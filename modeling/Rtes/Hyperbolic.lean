import Mathlib

/-!
Two inequalities behind utilisation bounds.

If each point `t k` is at most `S` plus what the points below it contribute, each in
proportion `u` to itself, then `S` plus all contributions is at most `S` times the product
of the `1 + u`. And a sum of at most `m (2 ^ (1/m) - 1)` over `m` terms keeps that product
within `2`.
-/

namespace Rtes.Hyperbolic

open Finset

variable {ι : Type*} [DecidableEq ι]

/-- **The product bound.** -/
theorem add_sum_le_mul_prod (t u : ι → ℝ) (S : ℝ) (s : Finset ι) (hu : ∀ k ∈ s, 0 ≤ u k)
    (h : ∀ k ∈ s, t k ≤ S + ∑ l ∈ s with t l < t k, u l * t l)
    (ht : ∀ k ∈ s, 0 ≤ t k) :
    S + ∑ l ∈ s, u l * t l ≤ S * ∏ l ∈ s, (1 + u l) := by
  -- add the points in increasing order
  induction s using Finset.induction_on_max_value t with
  | empty => simp
  | insert a s ha hmax ih =>
    have hs : ∀ k ∈ s, t k ≤ S + ∑ l ∈ s with t l < t k, u l * t l := by
      intro k hk
      have hk' := h k (mem_insert_of_mem hk)
      rwa [filter_insert, if_neg (not_lt.mpr (hmax k hk))] at hk'
    have ih' := ih (fun k hk => hu k (mem_insert_of_mem hk)) hs
      (fun k hk => ht k (mem_insert_of_mem hk))
    have hua := hu a (mem_insert_self a s)
    -- the new point is at most what has been gathered below it
    have hta : t a ≤ S + ∑ l ∈ s, u l * t l := by
      refine (h a (mem_insert_self a s)).trans ?_
      rw [filter_insert, if_neg (lt_irrefl _)]
      have hle : ∑ l ∈ s with t l < t a, u l * t l ≤ ∑ l ∈ s, u l * t l :=
        sum_le_sum_of_subset_of_nonneg (filter_subset _ _) fun l hl _ =>
          mul_nonneg (hu l (mem_insert_of_mem hl)) (ht l (mem_insert_of_mem hl))
      linarith
    rw [sum_insert ha, prod_insert ha]
    calc S + (u a * t a + ∑ l ∈ s, u l * t l)
        = (S + ∑ l ∈ s, u l * t l) + u a * t a := by ring
      _ ≤ (S + ∑ l ∈ s, u l * t l) + u a * (S + ∑ l ∈ s, u l * t l) := by gcongr
      _ = (1 + u a) * (S + ∑ l ∈ s, u l * t l) := by ring
      _ ≤ (1 + u a) * (S * ∏ l ∈ s, (1 + u l)) := by gcongr
      _ = S * ((1 + u a) * ∏ l ∈ s, (1 + u l)) := by ring

omit [DecidableEq ι] in
/-- The product of the `1 + u` is at most that of as many equal factors. -/
lemma prod_one_add_le (s : Finset ι) (hs : s.Nonempty) (u : ι → ℝ) (hu : ∀ k ∈ s, 0 ≤ u k) :
    ∏ k ∈ s, (1 + u k) ≤ (1 + (∑ k ∈ s, u k) / s.card) ^ s.card := by
  have hcard : (0 : ℝ) < s.card := by exact_mod_cast hs.card_pos
  have hpos : ∀ k ∈ s, 0 ≤ 1 + u k := fun k hk => add_nonneg zero_le_one (hu k hk)
  have hamgm := Real.geom_mean_le_arith_mean s (fun _ => 1) (fun k => 1 + u k)
    (fun _ _ => zero_le_one) (by simpa using hcard) hpos
  simp only [Real.rpow_one, sum_const, nsmul_eq_mul, mul_one, one_mul] at hamgm
  rw [sum_add_distrib, sum_const, nsmul_eq_mul, mul_one, add_div, div_self hcard.ne'] at hamgm
  have hprod : 0 ≤ ∏ k ∈ s, (1 + u k) := prod_nonneg hpos
  calc ∏ k ∈ s, (1 + u k)
      = ((∏ k ∈ s, (1 + u k)) ^ ((s.card : ℝ)⁻¹)) ^ s.card := by
        rw [← Real.rpow_natCast, ← Real.rpow_mul hprod, inv_mul_cancel₀ hcard.ne', Real.rpow_one]
    _ ≤ (1 + (∑ k ∈ s, u k) / s.card) ^ s.card := by
        gcongr

omit [DecidableEq ι] in
/-- **The least upper bound keeps the product within two.** -/
theorem prod_le_two (s : Finset ι) (hs : s.Nonempty) (u : ι → ℝ) (hu : ∀ k ∈ s, 0 ≤ u k)
    (h : ∑ k ∈ s, u k ≤ s.card * ((2 : ℝ) ^ (1 / (s.card : ℝ)) - 1)) :
    ∏ k ∈ s, (1 + u k) ≤ 2 := by
  have hcard : (0 : ℝ) < s.card := by exact_mod_cast hs.card_pos
  have hsum : 0 ≤ ∑ k ∈ s, u k := sum_nonneg hu
  have hroot : 1 + (∑ k ∈ s, u k) / s.card ≤ (2 : ℝ) ^ (1 / (s.card : ℝ)) := by
    rw [← le_sub_iff_add_le', div_le_iff₀ hcard, mul_comm]
    exact h
  calc ∏ k ∈ s, (1 + u k) ≤ (1 + (∑ k ∈ s, u k) / s.card) ^ s.card := prod_one_add_le s hs u hu
    _ ≤ ((2 : ℝ) ^ (1 / (s.card : ℝ))) ^ s.card := by gcongr
    _ = 2 := by
        rw [← Real.rpow_natCast, ← Real.rpow_mul zero_le_two, one_div, inv_mul_cancel₀ hcard.ne',
          Real.rpow_one]

end Rtes.Hyperbolic
