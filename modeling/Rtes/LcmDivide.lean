import Rtes.LcmGcf

/-!
Division by repeated subtraction and the least common multiple, as in `lcm/lcmc.c`.

The product of the two arguments wraps before it is divided, so the multiple is found exactly
where the product itself is an `int`. A negative dividend is never reduced: its quotient is `0`.
-/

namespace Rtes.LcmDivide

open Rtes.Loop Rtes.LcmGcf

/-- Once round the loop of `divide`, from the values of `r` and `cnt`. -/
def divideTurn (b : Word) : Word × Word → (Word × Word) ⊕ Word
  | (r, cnt) => if b.sle r then .inl (r - b, cnt + 1) else .inr cnt

def divide (fuel : ℕ) (a b : Word) : Option Word :=
  iter (fun s => some (divideTurn b s)) fuel (a, 0)

def lcmc (fuel : ℕ) (a b : Word) : Option Word := do
  let g ← gcfc fuel a b
  divide fuel (a * b) g

lemma divideTurn_inl {b r cnt : Word} {s' : Word × Word} (h : divideTurn b (r, cnt) = .inl s') :
    b.sle r = true ∧ s' = (r - b, cnt + 1) := by
  unfold divideTurn at h
  dsimp only at h
  split_ifs at h with hle
  exact ⟨hle, (Sum.inl.inj h).symm⟩

lemma divideTurn_inr {b r cnt q : Word} (h : divideTurn b (r, cnt) = .inr q) :
    b.sle r = false ∧ q = cnt := by
  unfold divideTurn at h
  dsimp only at h
  split_ifs at h with hle
  exact ⟨Bool.eq_false_iff.mpr hle, (Sum.inr.inj h).symm⟩

/-- What holds at the head of the loop, for the dividend `a`. -/
structure Head (a b : Word) (s : Word × Word) : Prop where
  cnt : 0 ≤ s.2.toInt
  sum : a.toInt = s.1.toInt + s.2.toInt * b.toInt
  sign : 0 ≤ s.1.toInt ∨ s.2.toInt = 0

/-- **One turn** moves one divisor from the remainder to the quotient. -/
lemma head_turn {a b : Word} (hb : 0 < b.toInt) {s s' : Word × Word} (h : Head a b s)
    (ht : divideTurn b s = .inl s') : Head a b s' ∧ s'.1.toInt.toNat < s.1.toInt.toNat := by
  obtain ⟨r, cnt⟩ := s
  obtain ⟨hcnt, hsum, -⟩ := h
  obtain ⟨hle, rfl⟩ := divideTurn_inl ht
  rw [BitVec.sle_iff_toInt_le] at hle
  dsimp only at hcnt hsum ⊢
  have hr := r.toInt_lt
  have ha := a.toInt_lt
  have hsub : (r - b).toInt = r.toInt - b.toInt := by
    rw [BitVec.toInt_sub]
    exact Int.bmod_eq_of_le (by omega) (by omega)
  -- the quotient counts at most one for each unit of the dividend
  have hmul : cnt.toInt ≤ cnt.toInt * b.toInt := le_mul_of_one_le_right hcnt hb
  have hadd : (cnt + 1).toInt = cnt.toInt + 1 := by
    rw [BitVec.toInt_add]
    exact Int.bmod_eq_of_le (by rw [show (1 : Word).toInt = 1 from rfl]; omega)
      (by rw [show (1 : Word).toInt = 1 from rfl]; omega)
  refine ⟨⟨?_, ?_, Or.inl ?_⟩, ?_⟩
  · dsimp only
    omega
  · dsimp only
    rw [hsub, hadd, hsum]
    ring
  · dsimp only
    omega
  · omega

/-- **The quotient**, which is `0` for a negative dividend. -/
lemma divide_total {b : Word} (a : Word) (hb : 0 < b.toInt) :
    ∃ q, divide (a.toInt.toNat + 1) a b = some q ∧ q.toInt = max (a.toInt / b.toInt) 0 := by
  have hstart : Head a b (a, 0) := ⟨le_refl _, by simp, Or.inr rfl⟩
  refine iter_total (Head a b) _ (fun s => s.1.toInt.toNat) (fun s hs => ?_) hstart
  cases ht : divideTurn b s with
  | inl s' => exact Or.inl ⟨s', rfl, head_turn hb hs ht⟩
  | inr q =>
    refine Or.inr ⟨q, rfl, ?_⟩
    obtain ⟨r, cnt⟩ := s
    obtain ⟨hlt, rfl⟩ := divideTurn_inr ht
    obtain ⟨hcnt, hsum, hsign⟩ := hs
    rw [Bool.eq_false_iff, Ne, BitVec.sle_iff_toInt_le, not_le] at hlt
    dsimp only at hcnt hsum hsign ⊢
    rcases le_or_gt 0 r.toInt with hr | hr
    · have hq : a.toInt / b.toInt = q.toInt := by
        rw [hsum, Int.add_mul_ediv_right _ _ hb.ne', Int.ediv_eq_zero_of_lt hr hlt, zero_add]
      rw [hq, max_eq_left hcnt]
    · have hzero : q.toInt = 0 := hsign.resolve_left (by omega)
      have ha : a.toInt < 0 := by rw [hsum, hzero]; omega
      rw [hzero, max_eq_right (Int.ediv_neg_of_neg_of_pos ha hb).le]

/-- The factor is positive. -/
lemma gcfc_pos {a b : Word} (ha : 0 < a.toInt) (hb : 0 < b.toInt) :
    ∃ fuel g, gcfc fuel a b = some g ∧ g.toInt = Int.gcd a.toInt b.toInt ∧ 0 < g.toInt := by
  obtain ⟨g, hg, hgcd⟩ := gcfc_total ha hb
  refine ⟨_, g, hg, hgcd, ?_⟩
  rw [hgcd]
  exact Nat.cast_pos.mpr (Int.gcd_pos_of_ne_zero_left _ ha.ne')

/-- **What `lcmc` returns**: the wrapped product, divided. -/
lemma lcmc_total {a b : Word} (ha : 0 < a.toInt) (hb : 0 < b.toInt) :
    ∃ fuel q, lcmc fuel a b = some q ∧
      q.toInt = max ((a * b).toInt / Int.gcd a.toInt b.toInt) 0 := by
  obtain ⟨n, g, hg, hgcd, hpos⟩ := gcfc_pos ha hb
  obtain ⟨q, hq, hval⟩ := divide_total (a * b) hpos
  let fuel := max n ((a * b).toInt.toNat + 1)
  have hg' : gcfc fuel a b = some g := iter_mono (fun _ _ h => h) (le_max_left _ _) hg
  have hq' : divide fuel (a * b) g = some q := iter_mono (fun _ _ h => h) (le_max_right _ _) hq
  refine ⟨fuel, q, ?_, by rw [hval, hgcd]⟩
  unfold lcmc
  rw [hg']
  exact hq'

lemma lcmc_unique {fuel fuel' : ℕ} {a b q q' : Word} (h : lcmc fuel a b = some q)
    (h' : lcmc fuel' a b = some q') : q = q' := by
  obtain ⟨g, hg, hq⟩ := Option.bind_eq_some_iff.mp h
  obtain ⟨g', hg', hq'⟩ := Option.bind_eq_some_iff.mp h'
  obtain rfl : g = g' := iter_unique hg hg'
  exact iter_unique hq hq'

/-- The factor and the multiple of two positive numbers. -/
lemma lcm_mul_gcd {x y : ℤ} (hx : 0 < x) (hy : 0 < y) :
    (Int.lcm x y : ℤ) * Int.gcd x y = x * y := by
  rw [mul_comm, ← Nat.cast_mul, Int.gcd_mul_lcm, ← Int.natAbs_mul,
    Int.natAbs_of_nonneg (mul_pos hx hy).le]

/-- A wrapped product is below the product itself, unless that is an `int`. -/
lemma quotient_eq_lcm_iff {a b : Word} (ha : 0 < a.toInt) (hb : 0 < b.toInt) :
    max ((a * b).toInt / Int.gcd a.toInt b.toInt) 0 = Int.lcm a.toInt b.toInt ↔
      a.toInt * b.toInt ≤ 2 ^ 31 - 1 := by
  have hg : (0 : ℤ) < Int.gcd a.toInt b.toInt :=
    Nat.cast_pos.mpr (Int.gcd_pos_of_ne_zero_left _ ha.ne')
  have hL : (0 : ℤ) < Int.lcm a.toInt b.toInt := Nat.cast_pos.mpr (Int.lcm_pos ha.ne' hb.ne')
  have hmul := lcm_mul_gcd ha hb
  constructor
  · intro h
    have hq : (a * b).toInt / Int.gcd a.toInt b.toInt = Int.lcm a.toInt b.toInt := by
      rcases max_choice ((a * b).toInt / (Int.gcd a.toInt b.toInt : ℤ)) 0 with hm | hm <;> omega
    calc a.toInt * b.toInt = Int.lcm a.toInt b.toInt * Int.gcd a.toInt b.toInt := hmul.symm
      _ ≤ (a * b).toInt := (Int.le_ediv_iff_mul_le hg).mp hq.ge
      _ ≤ 2 ^ 31 - 1 := Int.le_sub_one_of_lt (a * b).toInt_lt
  · intro h
    have hpos := mul_pos ha hb
    have hp : (a * b).toInt = a.toInt * b.toInt := by
      rw [BitVec.toInt_mul]
      exact Int.bmod_eq_of_le (by omega) (by omega)
    rw [hp, ← hmul, Int.mul_ediv_cancel _ hg.ne', max_eq_left hL.le]

/-- **`lcmc` is the least common multiple exactly where the product is an `int`.** -/
theorem lcmc_lcm_iff (a b : Word) (ha : 0 < a.toInt) (hb : 0 < b.toInt) :
    (∃ fuel r, lcmc fuel a b = some r ∧ r.toInt = Int.lcm a.toInt b.toInt) ↔
      a.toInt * b.toInt ≤ 2 ^ 31 - 1 := by
  obtain ⟨fuel, q, hq, hval⟩ := lcmc_total ha hb
  rw [← quotient_eq_lcm_iff ha hb, ← hval]
  constructor
  · rintro ⟨fuel', r, hr, hrl⟩
    rw [lcmc_unique hq hr, hrl]
  · intro h
    exact ⟨fuel, q, hq, h⟩

/-- The multiple of `4` and `6`. -/
theorem lcmc_lcm_iff_four_six : ∃ fuel r, lcmc fuel 4 6 = some r ∧ r.toInt = Int.lcm 4 6 :=
  (lcmc_lcm_iff 4 6 (by decide) (by decide)).mpr (by decide)

/-- The multiple of `65536` and itself fits, but the product wraps to `0`. -/
theorem lcmc_product_wraps : Int.lcm (65536 : Word).toInt (65536 : Word).toInt ≤ 2 ^ 31 - 1 ∧
    ¬ ∃ fuel r, lcmc fuel 65536 65536 = some r ∧
      r.toInt = Int.lcm (65536 : Word).toInt (65536 : Word).toInt := by
  refine ⟨by decide, ?_⟩
  rintro ⟨fuel, r, hr, hrl⟩
  obtain ⟨fuel', q, hq, hval⟩ := lcmc_total (a := 65536) (b := 65536) (by decide) (by decide)
  rw [lcmc_unique hr hq, hval] at hrl
  exact absurd hrl (by decide)

end Rtes.LcmDivide
