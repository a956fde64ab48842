import Mathlib

/-!
The leading bits of the sines of natural numbers.

The sine and the cosine of one come from their series. Those of `n` follow by the addition
theorems in integers, scaled by a power of two, with an error that at most doubles from one `n`
to the next.
-/

namespace Rtes.Sines

open Real

/-! ### The series at one -/

/-- The cosine and the sine of one by the terms of the exponential series before `4 * k`. -/
def series : ℕ → ℚ × ℚ
  | 0 => (0, 0)
  | k + 1 =>
    ((series k).1 + 1 / (4 * k).factorial - 1 / (4 * k + 2).factorial,
      (series k).2 + 1 / (4 * k + 1).factorial - 1 / (4 * k + 3).factorial)

lemma sum_series (k : ℕ) : ∑ m ∈ Finset.range (4 * k), Complex.I ^ m / m.factorial =
    ((series k).1 : ℂ) + ((series k).2 : ℂ) * Complex.I := by
  induction k with
  | zero => simp [series]
  | succ k ih =>
    have h0 : Complex.I ^ (4 * k) = 1 := by rw [pow_mul, Complex.I_pow_four, one_pow]
    have h1 : Complex.I ^ (4 * k + 1) = Complex.I := by rw [pow_succ, h0, one_mul]
    have h2 : Complex.I ^ (4 * k + 2) = -1 := by rw [pow_succ, h1, Complex.I_mul_I]
    have h3 : Complex.I ^ (4 * k + 3) = -Complex.I := by rw [pow_succ, h2, neg_one_mul]
    rw [Nat.mul_succ, Finset.sum_range_succ, Finset.sum_range_succ, Finset.sum_range_succ,
      Finset.sum_range_succ, ih, h0, h1, h2, h3, series]
    push_cast
    ring

/-- What the series leaves out. -/
lemma abs_series_le {k : ℕ} (hk : 0 < k) :
    |cos 1 - (series k).1| ≤ (4 * k + 1 : ℝ) / ((4 * k).factorial * (4 * k)) ∧
      |sin 1 - (series k).2| ≤ (4 * k + 1 : ℝ) / ((4 * k).factorial * (4 * k)) := by
  have h := Complex.exp_bound (x := Complex.I) (by simp) (n := 4 * k) (by omega)
  rw [sum_series, Complex.norm_I, one_pow, one_mul] at h
  have hbound : ((4 * k).succ : ℝ) * (((4 * k).factorial : ℝ) * ((4 * k : ℕ) : ℝ))⁻¹ =
      (4 * k + 1 : ℝ) / ((4 * k).factorial * (4 * k)) := by
    push_cast
    ring
  rw [hbound] at h
  have hexp : Complex.exp Complex.I = cos 1 + sin 1 * Complex.I := by
    have := Complex.exp_mul_I 1
    rw [one_mul] at this
    rw [this]
    push_cast
    rfl
  have hre : (Complex.exp Complex.I - (((series k).1 : ℂ) + ((series k).2 : ℂ) * Complex.I)).re =
      cos 1 - (series k).1 := by
    rw [hexp]
    simp only [Complex.sub_re, Complex.add_re, Complex.mul_re, Complex.ofReal_re,
      Complex.ofReal_im, Complex.ratCast_re, Complex.ratCast_im, Complex.I_re, Complex.I_im]
    ring
  have him : (Complex.exp Complex.I - (((series k).1 : ℂ) + ((series k).2 : ℂ) * Complex.I)).im =
      sin 1 - (series k).2 := by
    rw [hexp]
    simp only [Complex.sub_im, Complex.add_im, Complex.mul_im, Complex.ofReal_re,
      Complex.ofReal_im, Complex.ratCast_re, Complex.ratCast_im, Complex.I_re, Complex.I_im]
    ring
  exact ⟨hre ▸ (Complex.abs_re_le_norm _).trans h, him ▸ (Complex.abs_im_le_norm _).trans h⟩

/-! ### In integers -/

/-- The scale, as an integer. -/
def scale : ℤ := 2 ^ 192

/-- The cosine and the sine of one, scaled. -/
def one : ℤ × ℤ := (⌊scale * (series 12).1⌋, ⌊scale * (series 12).2⌋)

/-- The cosine and the sine of `n`, scaled. -/
def approx : ℕ → ℤ × ℤ
  | 0 => (scale, 0)
  | n + 1 =>
    (((approx n).1 * one.1 - (approx n).2 * one.2) / scale,
      ((approx n).1 * one.2 + (approx n).2 * one.1) / scale)

/-- `c` is the scaled `x`, up to `e`. -/
def Near (e x : ℝ) (c : ℤ) : Prop := |c - scale * x| ≤ e

lemma near_floor {x : ℝ} {q : ℚ} (h : |x - q| ≤ 1 / 2 ^ 192) : Near 2 x ⌊scale * q⌋ := by
  have hs : (scale : ℝ) = 2 ^ 192 := by norm_num [scale]
  have h1 : |(scale : ℝ) * q - scale * x| ≤ 1 := by
    rw [← mul_sub, abs_mul, abs_sub_comm, hs, abs_of_pos (by positivity)]
    calc (2 : ℝ) ^ 192 * |x - q| ≤ 2 ^ 192 * (1 / 2 ^ 192) := by gcongr
      _ = 1 := by norm_num
  have h2 : |((⌊(scale : ℚ) * q⌋ : ℤ) : ℝ) - scale * q| ≤ 1 := by
    have hfl : ((⌊(scale : ℚ) * q⌋ : ℤ) : ℚ) ≤ scale * q := Int.floor_le _
    have hlt : (scale : ℚ) * q < ⌊(scale : ℚ) * q⌋ + 1 := Int.lt_floor_add_one _
    have hfl' : ((⌊(scale : ℚ) * q⌋ : ℤ) : ℝ) ≤ scale * q := by exact_mod_cast hfl
    have hlt' : (scale : ℝ) * q < ⌊(scale : ℚ) * q⌋ + 1 := by exact_mod_cast hlt
    rw [abs_le]
    exact ⟨by linarith, by linarith⟩
  unfold Near
  calc |((⌊(scale : ℚ) * q⌋ : ℤ) : ℝ) - scale * x|
      ≤ |((⌊(scale : ℚ) * q⌋ : ℤ) : ℝ) - scale * q| + |(scale : ℝ) * q - scale * x| :=
        abs_sub_le _ _ _
    _ ≤ 2 := by linarith

lemma near_one : Near 2 (cos 1) one.1 ∧ Near 2 (sin 1) one.2 := by
  obtain ⟨hc, hs⟩ := abs_series_le (k := 12) (by norm_num)
  have hsmall : (4 * (12 : ℕ) + 1 : ℝ) / ((4 * 12).factorial * (4 * (12 : ℕ))) ≤ 1 / 2 ^ 192 := by
    norm_num [Nat.factorial]
  exact ⟨near_floor (hc.trans hsmall), near_floor (hs.trans hsmall)⟩

/-- One product of the addition theorems. -/
lemma abs_mul_sub_le {K a b c d e : ℝ} (hK : 0 < K) (hb : |b| ≤ 1) (hd : |d| ≤ 1)
    (ha : |a - K * b| ≤ e) (hc : |c - K * d| ≤ 2) :
    |a * c - K * (K * (b * d))| ≤ K * (e + 2) + 2 * e := by
  have hsplit : a * c - K * (K * (b * d)) =
      K * ((a - K * b) * d) + K * (b * (c - K * d)) + (a - K * b) * (c - K * d) := by ring
  have he : 0 ≤ e := (abs_nonneg _).trans ha
  rw [hsplit]
  calc |K * ((a - K * b) * d) + K * (b * (c - K * d)) + (a - K * b) * (c - K * d)|
      ≤ |K * ((a - K * b) * d)| + |K * (b * (c - K * d))| + |(a - K * b) * (c - K * d)| :=
        abs_add_three _ _ _
    _ = K * (|a - K * b| * |d|) + K * (|b| * |c - K * d|) + |a - K * b| * |c - K * d| := by
        simp only [abs_mul, abs_of_pos hK]
    _ ≤ K * (e * 1) + K * (1 * 2) + e * 2 := by gcongr
    _ = K * (e + 2) + 2 * e := by ring

/-- A sum of two products, divided by the scale. -/
lemma near_div {x e : ℝ} {p : ℤ} (he : 4 * e ≤ scale)
    (h : |(p : ℝ) - scale * (scale * x)| ≤ 2 * (scale * (e + 2) + 2 * e)) :
    Near (2 * e + 6) x (p / scale) := by
  have hpos : (0 : ℝ) < scale := by norm_num [scale]
  have hpos' : (0 : ℤ) < scale := by norm_num [scale]
  -- the quotient is rounded down
  have h1 : |((p / scale : ℤ) : ℝ) - p / scale| ≤ 1 := by
    have hle : (((p / scale : ℤ) * scale : ℤ) : ℝ) ≤ p := by
      exact_mod_cast Int.ediv_mul_le p hpos'.ne'
    have hlt : (p : ℝ) < (((p / scale : ℤ) + 1) * scale : ℤ) := by
      exact_mod_cast Int.lt_ediv_add_one_mul_self p hpos'
    push_cast at hle hlt
    rw [abs_le, ← sub_nonneg, ← sub_nonneg (b := _ - _)]
    have hq : (p : ℝ) / scale * scale = p := div_mul_cancel₀ _ hpos.ne'
    refine ⟨?_, ?_⟩ <;> nlinarith
  have h2 : |(p : ℝ) / scale - scale * x| ≤ 2 * (e + 2) + 1 := by
    have heq : (p : ℝ) / scale - scale * x = (p - scale * (scale * x)) / scale := by
      field_simp
    rw [heq, abs_div, abs_of_pos hpos, div_le_iff₀ hpos]
    refine h.trans ?_
    nlinarith
  unfold Near
  calc |((p / scale : ℤ) : ℝ) - scale * x|
      ≤ |((p / scale : ℤ) : ℝ) - p / scale| + |(p : ℝ) / scale - scale * x| := abs_sub_le _ _ _
    _ ≤ 2 * e + 6 := by linarith

/-- **The error at most doubles**, but for a constant. -/
theorem near_approx {n : ℕ} (hn : n ≤ 186) :
    Near (2 ^ (n + 3) - 6) (cos n) (approx n).1 ∧ Near (2 ^ (n + 3) - 6) (sin n) (approx n).2 := by
  induction n with
  | zero => norm_num [Near, approx]
  | succ n ih =>
    obtain ⟨hc, hs⟩ := ih (by omega)
    obtain ⟨hc1, hs1⟩ := near_one
    have hpos : (0 : ℝ) < scale := by norm_num [scale]
    have he : (4 : ℝ) * (2 ^ (n + 3) - 6) ≤ scale := by
      have : (2 : ℝ) ^ (n + 3) ≤ 2 ^ 190 := pow_le_pow_right₀ (by norm_num) (by omega)
      norm_num [scale] at this ⊢
      linarith
    have hdouble : (2 : ℝ) ^ (n + 1 + 3) - 6 = 2 * (2 ^ (n + 3) - 6) + 6 := by ring
    rw [hdouble]
    push_cast
    rw [cos_add, sin_add]
    refine ⟨near_div he ?_, near_div he ?_⟩
    · have h1 := abs_mul_sub_le hpos (abs_cos_le_one n) (abs_cos_le_one 1) hc hc1
      have h2 := abs_mul_sub_le hpos (abs_sin_le_one n) (abs_sin_le_one 1) hs hs1
      rw [abs_le] at h1 h2 ⊢
      push_cast
      exact ⟨by linarith, by linarith⟩
    · have h1 := abs_mul_sub_le hpos (abs_sin_le_one n) (abs_cos_le_one 1) hs hc1
      have h2 := abs_mul_sub_le hpos (abs_cos_le_one n) (abs_sin_le_one 1) hc hs1
      rw [abs_le] at h1 h2 ⊢
      push_cast
      exact ⟨by linarith, by linarith⟩

/-- The integer `t` is the integer part of the absolute value of the sine of `n`, scaled by
`2 ^ b`: an inequality between integers. -/
def Leads (b n t : ℕ) : Prop :=
  (t : ℤ) * 2 ^ (192 - b) + 2 ^ (n + 3) ≤ |(approx n).2| ∧
    |(approx n).2| + 2 ^ (n + 3) < (t + 1) * 2 ^ (192 - b)

instance Leads.decidable (b n t : ℕ) : Decidable (Leads b n t) :=
  inferInstanceAs (Decidable (_ ∧ _))

/-- **The leading bits of a sine.** -/
theorem floor_abs_sin {b n t : ℕ} (hb : b ≤ 192) (hn : n ≤ 186) (h : Leads b n t) :
    ⌊(2 : ℝ) ^ b * |sin n|⌋₊ = t := by
  obtain ⟨-, hs⟩ := near_approx hn
  have hscale : (scale : ℝ) = 2 ^ b * 2 ^ (192 - b) := by
    rw [← pow_add, Nat.add_sub_cancel' hb]
    norm_num [scale]
  have hpow : (0 : ℝ) < 2 ^ (192 - b) := by positivity
  have hnear : |(|((approx n).2 : ℝ)| - scale * |sin n|)| ≤ 2 ^ (n + 3) - 6 := by
    have hpos : (0 : ℝ) < scale := by norm_num [scale]
    have : (scale : ℝ) * |sin n| = |scale * sin n| := by rw [abs_mul, abs_of_pos hpos]
    rw [this]
    exact (abs_abs_sub_abs_le_abs_sub _ _).trans hs
  obtain ⟨hlo, hhi⟩ := h
  have hlo' : (t : ℝ) * 2 ^ (192 - b) + 2 ^ (n + 3) ≤ |((approx n).2 : ℝ)| := by exact_mod_cast hlo
  have hhi' : |((approx n).2 : ℝ)| + 2 ^ (n + 3) < (t + 1) * 2 ^ (192 - b) := by
    exact_mod_cast hhi
  rw [abs_le, hscale] at hnear
  rw [Nat.floor_eq_iff (by positivity)]
  refine ⟨?_, ?_⟩
  · refine le_of_mul_le_mul_right ?_ hpow
    linarith
  · refine lt_of_mul_lt_mul_right ?_ hpow.le
    linarith

end Rtes.Sines
