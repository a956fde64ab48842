import Mathlib

/-!
Words as polynomials over the field of two elements, modulo a generator.

Bit `i` of a word is the coefficient of `X ^ i`. A generator of degree `w` is given by the bits
below its leading one, and a word of `w` bits is its own remainder. Shifting a word, and adding
the generator when a bit falls out, is multiplication by `X`.
-/

namespace Rtes.Gf2

open Polynomial

variable {w : ℕ}

/-! ### Words and polynomials -/

/-- The polynomial with the bits of a word as its coefficients. -/
noncomputable def poly (x : BitVec w) : (ZMod 2)[X] :=
  ∑ i ∈ Finset.range w, if x.getLsbD i then X ^ i else 0

lemma coeff_poly (x : BitVec w) (d : ℕ) : (poly x).coeff d = if x.getLsbD d then 1 else 0 := by
  have hterm : ∀ i, (if x.getLsbD i then (X : (ZMod 2)[X]) ^ i else 0).coeff d =
      if d = i then (if x.getLsbD d then 1 else 0) else 0 := by
    intro i
    by_cases h : d = i
    · subst h
      by_cases hx : x.getLsbD d <;> simp [hx]
    · by_cases hx : x.getLsbD i <;> simp [hx, coeff_X_pow, h]
  rw [poly, finsetSum_coeff]
  simp only [hterm, Finset.sum_ite_eq, Finset.mem_range]
  by_cases hd : d < w
  · rw [if_pos hd]
  · rw [if_neg hd, BitVec.getLsbD_of_ge x d (by omega)]
    rfl

@[simp] lemma poly_zero : poly 0#w = 0 := by
  ext d
  rw [coeff_poly, BitVec.getLsbD_zero]
  rfl

lemma poly_xor (x y : BitVec w) : poly (x ^^^ y) = poly x + poly y := by
  ext d
  rw [coeff_add, coeff_poly, coeff_poly, coeff_poly, BitVec.getLsbD_xor]
  cases x.getLsbD d <;> cases y.getLsbD d <;> decide

lemma degree_poly_lt (x : BitVec w) : (poly x).degree < w := by
  rw [degree_lt_iff_coeff_zero]
  intro d hd
  rw [coeff_poly, BitVec.getLsbD_of_ge x d hd]
  rfl

lemma poly_injective {x y : BitVec w} (h : poly x = poly y) : x = y := by
  apply BitVec.eq_of_getLsbD_eq
  intro d _
  have hd : (poly x).coeff d = (poly y).coeff d := by rw [h]
  rw [coeff_poly, coeff_poly] at hd
  revert hd
  cases x.getLsbD d <;> cases y.getLsbD d <;> decide

/-- A word that is put further up in a wider one. -/
lemma poly_setWidth_shiftLeft {v k : ℕ} (x : BitVec v) (hk : v + k ≤ w) :
    poly (x.setWidth w <<< k) = X ^ k * poly x := by
  ext d
  rw [coeff_poly, BitVec.getLsbD_shiftLeft, BitVec.getLsbD_setWidth, coeff_X_pow_mul', coeff_poly]
  by_cases hd : k ≤ d
  · by_cases hv : d - k < v
    · simp [hd, show d < w by omega, show d - k < w by omega]
    · simp [BitVec.getLsbD_of_ge x (d - k) (by omega)]
  · simp [hd, show d < k by omega]

/-- A shift to the left, with the bits that fall out. -/
lemma poly_shiftLeft (x : BitVec w) {k : ℕ} (hk : k ≤ w) :
    X ^ k * poly x = poly (x <<< k) + X ^ w * poly ((x >>> (w - k)).setWidth k) := by
  ext d
  rw [coeff_add, coeff_X_pow_mul', coeff_X_pow_mul', coeff_poly, coeff_poly, coeff_poly,
    BitVec.getLsbD_shiftLeft, BitVec.getLsbD_setWidth, BitVec.getLsbD_ushiftRight]
  by_cases hw : w ≤ d
  · rw [if_pos (hk.trans hw), if_pos hw, show w - k + (d - w) = d - k by omega]
    by_cases hd : d - w < k
    · simp [hd, show ¬ d < w by omega]
    · simp [hd, show ¬ d < w by omega, BitVec.getLsbD_of_ge x (d - k) (by omega)]
  · rw [if_neg hw, add_zero]
    by_cases hd : k ≤ d <;> simp [hd, show d < w by omega, show d < k ↔ ¬ k ≤ d by omega]

/-- What is left of a word when its lowest bits go, one at a time. -/
lemma poly_ushiftRight (x : BitVec w) (j : ℕ) :
    poly (x >>> j) = X * poly (x >>> (j + 1)) + if x.getLsbD j then 1 else 0 := by
  ext d
  rw [coeff_add, coeff_poly, BitVec.getLsbD_ushiftRight, mul_comm]
  cases d with
  | zero =>
    rw [coeff_mul_X_zero, add_zero]
    by_cases hx : x.getLsbD j <;> simp [hx]
  | succ d =>
    rw [coeff_mul_X, coeff_poly, BitVec.getLsbD_ushiftRight, show j + (d + 1) = j + 1 + d by omega]
    by_cases hx : x.getLsbD j <;> simp [hx, coeff_one]

/-! ### Remainders -/

variable (p : BitVec w)

/-- The generator with the bits of `p` below its leading one. -/
noncomputable def generator : (ZMod 2)[X] := X ^ w + poly p

lemma monic_generator : (generator p).Monic := monic_X_pow_add (degree_poly_lt p)

lemma degree_generator : (generator p).degree = w := by
  rw [generator, degree_add_eq_left_of_degree_lt, degree_X_pow]
  rw [degree_X_pow]
  exact degree_poly_lt p

/-- The class of `X`. -/
noncomputable abbrev root : AdjoinRoot (generator p) := AdjoinRoot.root (generator p)

/-- The class of a word. -/
noncomputable def value (x : BitVec w) : AdjoinRoot (generator p) :=
  AdjoinRoot.mk (generator p) (poly x)

@[simp] lemma value_zero : value p 0#w = 0 := by rw [value, poly_zero, map_zero]

lemma value_xor (x y : BitVec w) : value p (x ^^^ y) = value p x + value p y := by
  rw [value, poly_xor, map_add]
  rfl

lemma add_self (x : AdjoinRoot (generator p)) : x + x = 0 := by
  induction x using AdjoinRoot.induction_on with
  | ih q => rw [← map_add, CharTwo.add_self_eq_zero, map_zero]

lemma add_eq_zero_iff {x y : AdjoinRoot (generator p)} : x + y = 0 ↔ x = y := by
  rw [add_eq_zero_iff_eq_neg, neg_eq_of_add_eq_zero_left (add_self p y)]

lemma eq_zero_of_mk_eq_zero {q : (ZMod 2)[X]} (hq : q.degree < w)
    (h : AdjoinRoot.mk (generator p) q = 0) : q = 0 := by
  rw [AdjoinRoot.mk_eq_zero] at h
  by_contra hne
  exact (monic_generator p).not_dvd_of_degree_lt hne (by rwa [degree_generator]) h

lemma value_eq_zero {x : BitVec w} (h : value p x = 0) : x = 0#w :=
  poly_injective <| by rw [eq_zero_of_mk_eq_zero p (degree_poly_lt x) h, poly_zero]

lemma value_injective : Function.Injective (value p) := by
  intro x y h
  rw [← BitVec.xor_eq_zero_iff]
  apply value_eq_zero p
  rw [value_xor, h, add_self]

lemma root_pow_width : root p ^ w = value p p := by
  have h : AdjoinRoot.mk (generator p) (generator p) = 0 := AdjoinRoot.mk_self
  rw [generator, map_add, map_pow, AdjoinRoot.mk_X] at h
  exact (add_eq_zero_iff p).mp h

/-! ### Multiplication by `X` -/

/-- A shift to the left, as the class of a word. -/
lemma value_shiftLeft (x : BitVec w) {k : ℕ} (hk : k ≤ w) :
    root p ^ k * value p x = value p (x <<< k) +
      root p ^ w * AdjoinRoot.mk _ (poly ((x >>> (w - k)).setWidth k)) := by
  have h := congrArg (AdjoinRoot.mk (generator p)) (poly_shiftLeft x hk)
  simp only [map_add, map_mul, map_pow, AdjoinRoot.mk_X] at h
  exact h

/-- A word times `X`. -/
def times (x : BitVec w) : BitVec w := if x.msb then x <<< 1 ^^^ p else x <<< 1

lemma value_times (hw : 0 < w) (x : BitVec w) : value p (times p x) = root p * value p x := by
  have htop : poly ((x >>> (w - 1)).setWidth 1) = if x.msb then 1 else 0 := by
    ext d
    rw [coeff_poly, BitVec.getLsbD_setWidth, BitVec.getLsbD_ushiftRight,
      BitVec.msb_eq_getLsbD_last]
    by_cases hd : d = 0
    · cases h : x.getLsbD (w - 1) <;> simp [hd, h]
    · cases x.getLsbD (w - 1) <;> simp [hd, coeff_one]
  have hshift : root p * value p x = value p (x <<< 1) + if x.msb then value p p else 0 := by
    have h := value_shiftLeft p x hw
    rwa [htop, pow_one, apply_ite (AdjoinRoot.mk _), map_one, map_zero, root_pow_width, mul_ite,
      mul_one, mul_zero] at h
  unfold times
  rw [hshift]
  cases x.msb with
  | false => simp
  | true => simp [value_xor]

lemma width_pos (hp : p.getLsbD 0 = true) : 0 < w := by
  by_contra h
  rw [BitVec.getLsbD_of_ge p 0 (by omega)] at hp
  exact Bool.false_ne_true hp

/-- With a constant term in the generator, `X` has an inverse. -/
lemma isUnit_root (hp : p.getLsbD 0 = true) : IsUnit (root p) := by
  have hw := width_pos p hp
  have h : root p ^ w + (root p * AdjoinRoot.mk (generator p) (poly (p >>> 1)) + 1) = 0 := by
    have hlow := poly_ushiftRight p 0
    rw [BitVec.ushiftRight_zero, hp, if_pos rfl, zero_add] at hlow
    have hgen : AdjoinRoot.mk (generator p) (X ^ w + (X * poly (p >>> 1) + 1)) = 0 := by
      rw [← hlow]
      exact AdjoinRoot.mk_self
    simpa only [map_add, map_pow, map_mul, map_one, AdjoinRoot.mk_X] using hgen
  apply IsUnit.of_mul_eq_one (-(root p ^ (w - 1) + AdjoinRoot.mk (generator p) (poly (p >>> 1))))
  have hpow : root p ^ w = root p * root p ^ (w - 1) := by
    rw [← pow_succ', Nat.sub_add_cancel hw]
  rw [hpow] at h
  linear_combination -h

/-! ### Strings of bits -/

/-- The bits of a word, the highest first. -/
def bits (x : BitVec w) : List Bool := (List.range w).map x.getMsbD

@[simp] lemma length_bits (x : BitVec w) : (bits x).length = w := by simp [bits]

/-- The polynomial with the bits as its coefficients, the last one the constant. -/
noncomputable def bitPoly (l : List Bool) : (ZMod 2)[X] :=
  l.foldl (fun q b => X * q + if b then 1 else 0) 0

lemma foldl_bitPoly (l : List Bool) (q : (ZMod 2)[X]) :
    l.foldl (fun q b => X * q + if b then 1 else 0) q = X ^ l.length * q + bitPoly l := by
  induction l generalizing q with
  | nil => simp [bitPoly]
  | cons b l ih =>
    rw [bitPoly, List.foldl_cons, List.foldl_cons, ih, ih (X * 0 + _), List.length_cons]
    ring

lemma bitPoly_append (a b : List Bool) :
    bitPoly (a ++ b) = X ^ b.length * bitPoly a + bitPoly b := by
  rw [bitPoly, List.foldl_append, foldl_bitPoly]
  rfl

lemma bitPoly_cons (b : Bool) (l : List Bool) :
    bitPoly (b :: l) = (if b then X ^ l.length else 0) + bitPoly l := by
  rw [bitPoly, List.foldl_cons, foldl_bitPoly]
  cases b <;> simp

lemma bitPoly_bits (x : BitVec w) : bitPoly (bits x) = poly x := by
  -- after `k` bits the polynomial is that of the upper `k` bits
  have h : ∀ k ≤ w, bitPoly ((List.range k).map x.getMsbD) = poly (x >>> (w - k)) := by
    intro k hk
    induction k with
    | zero =>
      rw [Nat.sub_zero, BitVec.ushiftRight_eq_zero (le_refl w), poly_zero]
      rfl
    | succ k ih =>
      rw [List.range_succ, List.map_append, bitPoly_append, ih (by omega),
        poly_ushiftRight x (w - (k + 1)), show w - (k + 1) + 1 = w - k by omega]
      simp [bitPoly, BitVec.getMsbD, show k < w by omega, show w - 1 - k = w - (k + 1) by omega]
  have hw := h w le_rfl
  rwa [Nat.sub_self, BitVec.ushiftRight_zero] at hw

lemma bitPoly_eq_sum (l : List Bool) : bitPoly l =
    ∑ k ∈ Finset.range l.length, if l.getD k false then X ^ (l.length - 1 - k) else 0 := by
  induction l with
  | nil => simp [bitPoly]
  | cons b l ih =>
    rw [bitPoly_cons, ih, List.length_cons, Finset.sum_range_succ', add_comm]
    congr 1
    apply Finset.sum_congr rfl
    intro k _
    rw [List.getD_cons_succ, show l.length + 1 - 1 - (k + 1) = l.length - 1 - k by omega]

/-- Where two strings of bits differ. -/
def differences (a b : List Bool) : Finset ℕ :=
  (Finset.range a.length).filter fun k => a.getD k false ≠ b.getD k false

/-- The polynomial with ones at the places `D` of a string of `n` bits. -/
noncomputable def places (n : ℕ) (D : Finset ℕ) : (ZMod 2)[X] := ∑ k ∈ D, X ^ (n - 1 - k)

lemma bitPoly_add {a b : List Bool} (h : a.length = b.length) :
    bitPoly a + bitPoly b = places a.length (differences a b) := by
  rw [bitPoly_eq_sum, bitPoly_eq_sum, ← h, ← Finset.sum_add_distrib, places, differences,
    Finset.sum_filter]
  apply Finset.sum_congr rfl
  intro k _
  cases a.getD k false <;> cases b.getD k false <;> simp [CharTwo.add_self_eq_zero]

lemma differences_nonempty {a b : List Bool} (h : a.length = b.length) (hne : a ≠ b) :
    (differences a b).Nonempty := by
  by_contra hempty
  apply hne
  apply List.ext_getElem h
  intro k ha hb
  by_contra hk
  apply hempty
  refine ⟨k, Finset.mem_filter.mpr ⟨Finset.mem_range.mpr ha, ?_⟩⟩
  rwa [List.getD_eq_getElem _ _ ha, List.getD_eq_getElem _ _ hb]

lemma mem_differences_lt {a b : List Bool} {k : ℕ} (hk : k ∈ differences a b) : k < a.length :=
  Finset.mem_range.mp (Finset.mem_filter.mp hk).1

/-- A multiple of the generator has ones that are at least its degree apart. -/
lemma exists_span (hp : p.getLsbD 0 = true) {n : ℕ} {D : Finset ℕ} (hD : D.Nonempty)
    (hn : ∀ k ∈ D, k < n) (h : AdjoinRoot.mk (generator p) (places n D) = 0) :
    ∃ i ∈ D, ∃ j ∈ D, i + w ≤ j := by
  by_contra hclose
  push Not at hclose
  obtain ⟨j, hj, hmax⟩ := D.exists_max_image id hD
  -- without the zeros at its end the string has fewer than `w` bits
  have hshift : places n D = X ^ (n - 1 - j) * places (j + 1) D := by
    rw [places, places, Finset.mul_sum]
    apply Finset.sum_congr rfl
    intro k hk
    have hkj : k ≤ j := hmax k hk
    have hjn := hn j hj
    rw [← pow_add]
    congr 1
    omega
  rw [hshift, map_mul, map_pow, AdjoinRoot.mk_X, ((isUnit_root p hp).pow _).mul_right_eq_zero] at h
  have hdeg : (places (j + 1) D).degree < w := by
    apply lt_of_le_of_lt (degree_sum_le _ _)
    refine (Finset.sup_lt_iff (WithBot.bot_lt_coe w)).mpr fun k hk => ?_
    rw [degree_X_pow]
    have hw := width_pos p hp
    have hkj := hclose k hk j hj
    exact Nat.cast_lt.mpr (show j + 1 - 1 - k < w by omega)
  have hzero := congrArg (coeff · 0) (eq_zero_of_mk_eq_zero p hdeg h)
  have hone : (places (j + 1) D).coeff 0 = 1 := by
    rw [places, finsetSum_coeff, Finset.sum_eq_single_of_mem j hj]
    · simp
    · intro k hk hkj
      have : k ≤ j := hmax k hk
      rw [coeff_X_pow, if_neg (by omega)]
  rw [hone, coeff_zero] at hzero
  exact one_ne_zero hzero

/-! ### The order of `X` -/

/-- The value `f x`, with `x` evaluated first: the powers below are computed in the kernel. -/
def forced {α : Type*} (x : BitVec w) (f : BitVec w → α) : α :=
  match x.toNat with
  | 0 => f 0#w
  | k + 1 => f (BitVec.ofNat w (k + 1))

@[simp] lemma forced_eq {α : Type*} (x : BitVec w) (f : BitVec w → α) : forced x f = f x := by
  have h : forced x f = f (BitVec.ofNat w x.toNat) := by
    unfold forced
    cases x.toNat <;> rfl
  rw [h, BitVec.ofNat_toNat, BitVec.setWidth_eq]

/-- The word `acc`, shifted by a string of bits, plus the product of the string with `b`. -/
def productFrom (b : BitVec w) : List Bool → BitVec w → BitVec w
  | [], acc => acc
  | bit :: l, acc => forced (times p acc ^^^ if bit then b else 0) (productFrom b l)

/-- The product of two words. -/
def product (a b : BitVec w) : BitVec w := productFrom p b (bits a) 0#w

lemma value_product (hw : 0 < w) (a b : BitVec w) :
    value p (product p a b) = value p a * value p b := by
  have h : ∀ (l : List Bool) (acc : BitVec w), value p (productFrom p b l acc) =
      root p ^ l.length * value p acc + AdjoinRoot.mk _ (bitPoly l) * value p b := by
    intro l
    induction l with
    | nil => simp [bitPoly, productFrom]
    | cons c l ih =>
      intro acc
      have hbit : value p (if c then b else 0) = (if c then 1 else 0) * value p b := by
        cases c <;> simp
      rw [productFrom, forced_eq, ih, value_xor, value_times p hw, hbit, bitPoly_cons, map_add,
        apply_ite (AdjoinRoot.mk _), map_pow, AdjoinRoot.mk_X, map_zero, List.length_cons]
      cases c <;> simp <;> ring
  rw [product, h, bitPoly_bits]
  simp [value]

/-- The number with the given bits below those of `k`. -/
def numberFrom : List Bool → ℕ → ℕ
  | [], k => k
  | bit :: l, k => numberFrom l (2 * k + bit.toNat)

def number (n : List Bool) : ℕ := numberFrom n 0

def powerFrom : List Bool → BitVec w → BitVec w
  | [], acc => acc
  | bit :: l, acc =>
    forced (product p acc acc) fun sq => forced (if bit then times p sq else sq) (powerFrom l)

/-- `X ^ n`, for a number that is given by its bits. -/
def power (n : List Bool) : BitVec w := powerFrom p n 1#w

lemma value_one (hw : 0 < w) : value p 1#w = 1 := by
  have h : poly 1#w = 1 := by
    ext d
    rw [coeff_poly, BitVec.getLsbD_one, coeff_one]
    by_cases hd : d = 0 <;> simp [hd, hw]
  rw [value, h, map_one]

lemma value_power (hw : 0 < w) (n : List Bool) : value p (power p n) = root p ^ number n := by
  have h : ∀ (n : List Bool) (acc : BitVec w) (k : ℕ), value p acc = root p ^ k →
      value p (powerFrom p n acc) = root p ^ numberFrom n k := by
    intro n
    induction n with
    | nil => exact fun acc k h => h
    | cons b n ih =>
      intro acc k hk
      rw [powerFrom, forced_eq, forced_eq]
      apply ih
      have hsq : value p (product p acc acc) = root p ^ (2 * k) := by
        rw [value_product p hw, hk, ← pow_add, two_mul]
      cases b with
      | false => simpa using hsq
      | true => rw [if_pos rfl, value_times p hw, hsq, ← pow_succ', Bool.toNat_true]
  apply h
  rw [pow_zero]
  exact value_one p hw

lemma numberFrom_concat (l : List Bool) (bit : Bool) (k : ℕ) :
    numberFrom (l ++ [bit]) k = 2 * numberFrom l k + bit.toNat := by
  induction l generalizing k with
  | nil => rfl
  | cons c l ih => exact ih _

lemma number_bits (x : BitVec w) : number (bits x) = x.toNat := by
  have h : ∀ k ≤ w, number ((List.range k).map x.getMsbD) = x.toNat >>> (w - k) := by
    intro k hk
    induction k with
    | zero =>
      rw [Nat.sub_zero, Nat.shiftRight_eq_zero _ _ x.isLt]
      rfl
    | succ k ih =>
      have hbit : x.getMsbD k = (x.toNat >>> (w - (k + 1))).testBit 0 := by
        simp [BitVec.getMsbD, show k < w by omega, BitVec.getLsbD,
          show w - 1 - k = w - (k + 1) by omega]
      have hhalf : x.toNat >>> (w - k) = x.toNat >>> (w - (k + 1)) / 2 := by
        rw [show w - k = w - (k + 1) + 1 by omega, Nat.shiftRight_succ]
      rw [List.range_succ, List.map_append, number, List.map_cons, List.map_nil, numberFrom_concat,
        ← number, ih (by omega), hhalf, hbit, Nat.testBit_zero]
      rcases Nat.mod_two_eq_zero_or_one (x.toNat >>> (w - (k + 1))) with h0 | h0 <;>
        simp [h0] <;> omega
  have hw := h w le_rfl
  rwa [Nat.sub_self, Nat.shiftRight_zero] at hw

/-- `X ^ n`, for a number of `b` bits. -/
def rootPow (b n : ℕ) : BitVec w := power p (bits (BitVec.ofNat b n))

lemma value_rootPow (hw : 0 < w) {b n : ℕ} (hn : n < 2 ^ b) :
    value p (rootPow p b n) = root p ^ n := by
  rw [rootPow, value_power p hw, number_bits, BitVec.toNat_ofNat, Nat.mod_eq_of_lt hn]

/-- The order of `X` from finitely many powers. -/
lemma orderOf_root (hw : 0 < w) {b n : ℕ} (hn : n < 2 ^ b) {qs : List ℕ} (hpos : 0 < n)
    (hqs : ∀ q, q.Prime → q ∣ n → q ∈ qs) (hone : rootPow p b n = 1#w)
    (hne : ∀ q ∈ qs, rootPow p b (n / q) ≠ 1#w) : orderOf (root p) = n := by
  apply orderOf_eq_of_pow_and_pow_div_prime hpos
  · rw [← value_rootPow p hw hn, hone, value_one p hw]
  · intro q hq hqn h
    apply hne q (hqs q hq hqn)
    apply value_injective p
    rw [value_rootPow p hw ((Nat.div_le_self n q).trans_lt hn), h, value_one p hw]

/-- Two ones, closer than the order of `X`. -/
lemma places_pair_ne_zero (hp : p.getLsbD 0 = true) {n i j : ℕ} (hij : i < j) (hj : j < n)
    (hord : j - i < orderOf (root p)) : AdjoinRoot.mk (generator p) (places n {i, j}) ≠ 0 := by
  intro h
  rw [places, Finset.sum_pair hij.ne, show n - 1 - i = (n - 1 - j) + (j - i) by omega, pow_add,
    ← mul_add_one, map_mul, map_pow, AdjoinRoot.mk_X, ((isUnit_root p hp).pow _).mul_right_eq_zero,
    map_add, map_pow, AdjoinRoot.mk_X, map_one, add_eq_zero_iff] at h
  exact hord.not_ge (Nat.le_of_dvd (by omega) (orderOf_dvd_of_pow_eq_one h))

/-- A generator with an even number of terms divides polynomials with an even number of terms. -/
lemma even_of_places_eq_zero (heven : (generator p).eval 1 = 0) {n : ℕ} {D : Finset ℕ}
    (h : AdjoinRoot.mk (generator p) (places n D) = 0) : Even D.card := by
  rw [AdjoinRoot.mk_eq_zero] at h
  have heval := eval_eq_zero_of_dvd_of_eval_eq_zero h heven
  rw [places, eval_finsetSum] at heval
  simp only [eval_pow, eval_X, one_pow, Finset.sum_const, nsmul_eq_mul, mul_one] at heval
  exact (ZMod.natCast_eq_zero_iff_even).mp heval

lemma eval_generator : (generator p).eval 1 =
    1 + ∑ i ∈ Finset.range w, if p.getLsbD i then 1 else 0 := by
  rw [generator, poly, eval_add, eval_pow, eval_X, one_pow, eval_finsetSum]
  congr 1
  apply Finset.sum_congr rfl
  intro i _
  cases p.getLsbD i <;> simp

end Rtes.Gf2
