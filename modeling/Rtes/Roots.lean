import Mathlib

/-!
The leading bits of the fractional parts of roots, and the first primes in order.
-/

namespace Rtes.Roots

/-! ### Roots -/

/-- The first `b` bits behind the point of the `k`-th root of `n`. -/
noncomputable def rootBits (k b n : ℕ) : ℕ :=
  ⌊((2 ^ b : ℕ) : ℝ) * Int.fract ((n : ℝ) ^ (k : ℝ)⁻¹)⌋₊

lemma floor_root {k b n x : ℕ} (hk : k ≠ 0) (hlo : x ^ k ≤ n * 2 ^ (b * k))
    (hhi : n * 2 ^ (b * k) < (x + 1) ^ k) : ⌊(2 : ℝ) ^ b * (n : ℝ) ^ (k : ℝ)⁻¹⌋₊ = x := by
  have hroot : (0 : ℝ) ≤ 2 ^ b * (n : ℝ) ^ (k : ℝ)⁻¹ := by positivity
  have hpow : ((2 : ℝ) ^ b * (n : ℝ) ^ (k : ℝ)⁻¹) ^ k = n * 2 ^ (b * k) := by
    rw [mul_pow, Real.rpow_inv_natCast_pow (by positivity) hk, ← pow_mul, mul_comm]
  rw [Nat.floor_eq_iff hroot]
  refine ⟨?_, ?_⟩
  · refine le_of_pow_le_pow_left₀ hk hroot ?_
    rw [hpow]
    exact_mod_cast hlo
  · refine lt_of_pow_lt_pow_left₀ k (by positivity) ?_
    rw [hpow]
    exact_mod_cast hhi

/-- Multiples of `2 ^ b` are what the integer part gives. -/
lemma floor_fract {r : ℝ} (hr : 0 ≤ r) (b : ℕ) :
    ⌊(2 : ℝ) ^ b * Int.fract r⌋₊ = ⌊(2 : ℝ) ^ b * r⌋₊ % 2 ^ b := by
  obtain ⟨a, ha⟩ : ∃ a : ℕ, (⌊r⌋ : ℝ) = a := by
    obtain ⟨a, ha⟩ := Int.eq_ofNat_of_zero_le (Int.floor_nonneg.mpr hr)
    exact ⟨a, by rw [ha]; rfl⟩
  have hfract : 0 ≤ (2 : ℝ) ^ b * Int.fract r := mul_nonneg (by positivity) (Int.fract_nonneg r)
  have hsplit : (2 : ℝ) ^ b * r = 2 ^ b * Int.fract r + (2 ^ b * a : ℕ) := by
    push_cast
    rw [← ha, ← mul_add, Int.fract_add_floor]
  have hlt : ⌊(2 : ℝ) ^ b * Int.fract r⌋₊ < 2 ^ b := by
    rw [Nat.floor_lt hfract]
    push_cast
    have := Int.fract_lt_one r
    have hpos : (0 : ℝ) < 2 ^ b := by positivity
    nlinarith
  rw [hsplit, Nat.floor_add_natCast hfract, Nat.add_mul_mod_self_left, Nat.mod_eq_of_lt hlt]

/-- `t` has the first bits behind the point: an inequality between natural numbers, for some
integer part. -/
def Leads (k b n t : ℕ) : Prop :=
  ∃ a < 32, (a * 2 ^ b + t) ^ k ≤ n * 2 ^ (b * k) ∧ n * 2 ^ (b * k) < (a * 2 ^ b + t + 1) ^ k

instance Leads.decidable (k b n t : ℕ) : Decidable (Leads k b n t) :=
  inferInstanceAs (Decidable (∃ a < 32, _ ∧ _))

theorem rootBits_eq {k b n t : ℕ} (hk : k ≠ 0) (ht : t < 2 ^ b) (h : Leads k b n t) :
    rootBits k b n = t := by
  obtain ⟨a, -, hlo, hhi⟩ := h
  rw [rootBits, Nat.cast_pow, Nat.cast_ofNat, floor_fract (by positivity),
    floor_root hk hlo hhi, Nat.mul_comm, Nat.mul_add_mod, Nat.mod_eq_of_lt ht]

/-! ### Primes -/

/-- The prime after `p`. -/
lemma nth_prime_succ {j p q : ℕ} (hp : Nat.nth Nat.Prime j = p) (hpq : p < q) (hq : q.Prime)
    (hnone : ∀ n, p < n → n < q → ¬ n.Prime) : Nat.nth Nat.Prime (j + 1) = q := by
  have hprime : p.Prime := hp ▸ Nat.prime_nth_prime j
  have hcount : Nat.count Nat.Prime p = j := by
    rw [← hp, Nat.count_nth_of_infinite Nat.infinite_setOfPred_prime]
  have hstep : ∀ n, p + 1 ≤ n → n ≤ q → Nat.count Nat.Prime n = j + 1 := by
    intro n hn
    induction n, hn using Nat.le_induction with
    | base =>
      intro _
      rw [Nat.count_succ, if_pos hprime, hcount]
    | succ n hn ih =>
      intro hle
      rw [Nat.count_succ, if_neg (hnone n (by omega) (by omega)), ih (by omega)]
  rw [← hstep q hpq le_rfl, Nat.nth_count hq]

/-- A number below 441 is prime when no smaller number below 21 divides it. -/
def small (n : ℕ) : Bool :=
  Nat.ble 2 n && (List.range 21).all fun m => Nat.ble m 1 || Nat.ble n m || n % m != 0

lemma prime_iff_small {n : ℕ} (hn : n < 441) : n.Prime ↔ small n = true := by
  have hsmall : small n = true ↔ 2 ≤ n ∧ ∀ m < 21, 2 ≤ m → m < n → ¬ m ∣ n := by
    simp only [small, Bool.and_eq_true, List.all_eq_true, List.mem_range, Bool.or_eq_true,
      Nat.ble_eq, bne_iff_ne, Nat.dvd_iff_mod_eq_zero]
    refine and_congr_right fun _ => forall₂_congr fun m _ => ?_
    omega
  rw [hsmall]
  constructor
  · intro h
    refine ⟨h.two_le, fun m _ hm hlt hdvd => ?_⟩
    rcases (Nat.dvd_prime h).mp hdvd with rfl | rfl <;> omega
  · rintro ⟨h2, h⟩
    rw [Nat.prime_def_le_sqrt]
    refine ⟨h2, fun m hm hle hdvd => ?_⟩
    have hsq : m * m ≤ n := Nat.le_sqrt.mp hle
    have hlt : m < 21 := by nlinarith
    exact h m hlt hm (by nlinarith) hdvd

/-- The first eighty primes. -/
def primes : List ℕ :=
   [2, 3, 5, 7, 11, 13, 17, 19, 23, 29, 31, 37, 41, 43, 47, 53, 59, 61, 67, 71, 73, 79, 83, 89,
    97, 101, 103, 107, 109, 113, 127, 131, 137, 139, 149, 151, 157, 163, 167, 173, 179, 181,
    191, 193, 197, 199, 211, 223, 227, 229, 233, 239, 241, 251, 257, 263, 269, 271, 277, 281,
    283, 293, 307, 311, 313, 317, 331, 337, 347, 349, 353, 359, 367, 373, 379, 383, 389, 397,
    401, 409]

lemma filter_small : (List.range 410).filter small = primes := by decide +kernel

lemma primes_sorted : primes.Pairwise (· < ·) := by
  rw [← filter_small]
  exact List.pairwise_lt_range.filter _

lemma prime_iff_mem {n : ℕ} (hn : n < 410) : n.Prime ↔ n ∈ primes := by
  rw [prime_iff_small (by omega), ← filter_small, List.mem_filter, List.mem_range]
  exact (and_iff_right hn).symm

lemma primes_lt {i : ℕ} (hi : i < primes.length) : primes[i] < 410 := by
  have h : ∀ n ∈ primes, n < 410 := by
    intro n hn
    rw [← filter_small, List.mem_filter, List.mem_range] at hn
    exact hn.1
  exact h _ (List.getElem_mem hi)

/-- **The list has the first primes in order.** -/
theorem nth_prime {j : ℕ} (hj : j < primes.length) : Nat.nth Nat.Prime j = primes[j] := by
  induction j with
  | zero => exact Nat.nth_prime_zero_eq_two
  | succ j ih =>
    have hlt : ∀ i (hi : i < primes.length) k (hk : k < primes.length), i < k →
        primes[i] < primes[k] := fun i hi k hk =>
      List.pairwise_iff_getElem.mp primes_sorted i k hi hk
    refine nth_prime_succ (ih (by omega)) (hlt j (by omega) (j + 1) hj (by omega))
      ((prime_iff_mem (primes_lt hj)).mpr (List.getElem_mem hj)) ?_
    intro n h1 h2 h
    -- a prime between the two is in the list, and between them there too
    have hn : n < 410 := h2.trans (primes_lt hj)
    obtain ⟨i, hi, rfl⟩ := List.getElem_of_mem ((prime_iff_mem hn).mp h)
    rcases Nat.lt_trichotomy i (j + 1) with hij | rfl | hij
    · rcases Nat.lt_or_eq_of_le (Nat.le_of_lt_succ hij) with hij' | rfl
      · have := hlt i hi j (by omega) hij'
        omega
      · omega
    · omega
    · have := hlt (j + 1) hj i hi hij
      omega

end Rtes.Roots
