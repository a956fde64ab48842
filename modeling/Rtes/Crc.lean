import Rtes.CrcModel
import Rtes.Gf2

/-!
The checksums of `crc.c` as remainders of polynomials.

The bits of a message, in the order in which they are divided, are the coefficients of a
polynomial. Dividing a bit multiplies the remainder by `X` modulo the generator, and the table
of `crcInit` has the remainders of all bytes.
-/

namespace Rtes.Crc

open Polynomial Rtes.Bytes Rtes.CrcModel Rtes.Gf2

variable {w : ℕ} (s : Standard w)

/-! ### Reflection -/

lemma and_one_ne_zero (x : BitVec 32) : x &&& 0x01 ≠ 0 ↔ x.getLsbD 0 = true := by
  have h := BitVec.and_twoPow x 0
  rw [show BitVec.twoPow 32 0 = 0x01 from rfl] at h
  rw [h]
  cases x.getLsbD 0 <;> decide

lemma getLsbD_one_shiftLeft {j : ℕ} (hj : j < 32) (i : ℕ) :
    ((1 : BitVec 32) <<< j).getLsbD i = decide (i = j) := by
  have h := BitVec.getLsbD_twoPow j i (w := 32)
  rw [BitVec.twoPow_eq] at h
  rw [show (1 : BitVec 32) = 1#32 from rfl, h]
  by_cases hij : i = j
  · simp [hij, hj]
  · simp [hij, Ne.symm hij]

/-- What the loop of `reflect` has after `k` turns. -/
lemma foldl_reflectTurn (data : BitVec 32) {n : ℕ} (hn : n ≤ 32) (k : ℕ) (hk : k ≤ n) :
    ((List.range k).foldl (reflectTurn n) (data, 0)).1 = data >>> k ∧
      ∀ i, ((List.range k).foldl (reflectTurn n) (data, 0)).2.getLsbD i =
        (decide (i < n ∧ n ≤ i + k) && data.getLsbD (n - 1 - i)) := by
  induction k with
  | zero => exact ⟨(BitVec.ushiftRight_zero data).symm, fun i => by simp⟩
  | succ k ih =>
    rw [List.range_succ, List.foldl_append, List.foldl_cons, List.foldl_nil]
    generalize (List.range k).foldl (reflectTurn n) (data, 0) = t at ih ⊢
    obtain ⟨ih₁, ih₂⟩ := ih (by omega)
    refine ⟨?_, fun i => ?_⟩
    · rw [reflectTurn, ih₁, BitVec.shiftRight_add]
    · have hnew : (reflectTurn n t k).2.getLsbD i =
          (decide (i < n ∧ n ≤ i + k) && data.getLsbD (n - 1 - i) ||
            decide (i = n - 1 - k) && data.getLsbD k) := by
        rw [reflectTurn, ih₁]
        simp only [and_one_ne_zero, BitVec.getLsbD_ushiftRight, add_zero]
        cases data.getLsbD k
        · rw [if_neg Bool.false_ne_true, ih₂, Bool.and_false, Bool.or_false]
        · rw [if_pos rfl, BitVec.getLsbD_or, ih₂, getLsbD_one_shiftLeft (by omega), Bool.and_true]
      rw [hnew]
      by_cases hi : i = n - 1 - k
      · rw [hi, show n - 1 - (n - 1 - k) = k by omega]
        simp [show n - 1 - k < n by omega, show n ≤ n - 1 - k + (k + 1) by omega,
          show ¬ n ≤ n - 1 - k + k by omega]
      · simp [hi, show n ≤ i + (k + 1) ↔ n ≤ i + k ∨ i = n - 1 - k by omega]

lemma reflect_eq {v : ℕ} (x : BitVec v) (hv : v ≤ 32) :
    (CrcModel.reflect (x.setWidth 32) v).setWidth v = x.reverse := by
  apply BitVec.eq_of_getLsbD_eq
  intro i hi
  rw [BitVec.getLsbD_setWidth, CrcModel.reflect, (foldl_reflectTurn _ hv v le_rfl).2,
    BitVec.getLsbD_reverse, BitVec.getMsbD, BitVec.getLsbD_setWidth]
  simp [hi, show v - 1 - i < 32 by omega]

lemma bits_reverse_eq_map {v : ℕ} (x : BitVec v) :
    bits x.reverse = (List.range v).map x.getLsbD := by
  apply List.map_congr_left
  intro i _
  exact BitVec.getMsbD_reverse

lemma bits_reverse {v : ℕ} (x : BitVec v) : bits x.reverse = (bits x).reverse := by
  rw [bits_reverse_eq_map]
  apply List.ext_getElem (by simp)
  intro i hi _
  have hv : i < v := by simpa using hi
  simp [bits, BitVec.getMsbD, show v - 1 - i < v by omega, show v - 1 - (v - 1 - i) = i by omega]

/-- The bits of a byte in the order in which they are divided. -/
def byteBits (x : Byte) : List Bool := if s.reflectData then (bits x).reverse else bits x

lemma bits_data (x : Byte) : bits (s.data x) = byteBits s x := by
  unfold Standard.data byteBits
  split_ifs
  · rw [reflect_eq x (by omega), bits_reverse]
  · rfl

/-- The remainder as it is given back. -/
lemma remainder_eq (x : BitVec w) :
    s.remainder x = if s.reflectRemainder then x.reverse else x := by
  unfold Standard.remainder
  split_ifs
  · exact reflect_eq x s.width.2
  · rfl

lemma remainder_injective {x y : BitVec w} (h : s.remainder x = s.remainder y) :
    x = y := by
  rw [remainder_eq, remainder_eq] at h
  split_ifs at h
  · rw [← BitVec.reverse_reverse_eq (x := x), h, BitVec.reverse_reverse_eq]
  · exact h

/-! ### Division -/

lemma divideBit_eq (r : BitVec w) : divideBit s r = times s.polynomial r := by
  have h : r &&& topBit w ≠ 0 ↔ r.msb = true := by
    have hand := BitVec.and_twoPow r (w - 1)
    rw [BitVec.twoPow_eq, ← BitVec.msb_eq_getLsbD_last] at hand
    rw [topBit, hand]
    cases hr : r.msb with
    | false => simp
    | true =>
      have htop : (1#w <<< (w - 1)).getLsbD (w - 1) = true := by
        rw [← BitVec.twoPow_eq, BitVec.getLsbD_twoPow]
        simp [s.pos]
      refine iff_of_true (fun h0 => ?_) rfl
      rw [if_pos rfl] at h0
      rw [h0] at htop
      simp at htop
  unfold divideBit times
  simp only [h]

lemma value_divideByte (r : BitVec w) : value s.polynomial (divideByte s r) =
    root s.polynomial ^ 8 * value s.polynomial r := by
  have h : ∀ (l : List ℕ) (r : BitVec w),
      value s.polynomial (l.foldl (fun r _ => divideBit s r) r) =
        root s.polynomial ^ l.length * value s.polynomial r := by
    intro l
    induction l with
    | nil => simp
    | cons a l ih =>
      intro r
      rw [List.foldl_cons, ih, divideBit_eq, value_times _ s.pos, List.length_cons, pow_succ,
        mul_assoc]
  exact h (List.range 8) r

/-- The bits of a message in the order in which they are divided. -/
def stream (message : List Byte) : List Bool := message.flatMap (byteBits s)

lemma stream_cons (x : Byte) (message : List Byte) :
    stream s (x :: message) = byteBits s x ++ stream s message := rfl

@[simp] lemma length_byteBits (x : Byte) : (byteBits s x).length = 8 := by
  unfold byteBits
  split_ifs <;> simp

@[simp] lemma length_stream (message : List Byte) :
    (stream s message).length = 8 * message.length := by
  simp [stream, List.length_flatMap, mul_comm]

lemma bitPoly_byteBits (x : Byte) : bitPoly (byteBits s x) = poly (s.data x) := by
  rw [← bits_data, bitPoly_bits]

/-- The class of the polynomial of a string of bits. -/
noncomputable def bitValue (l : List Bool) : AdjoinRoot (generator s.polynomial) :=
  AdjoinRoot.mk _ (bitPoly l)

lemma bitValue_append (a b : List Bool) :
    bitValue s (a ++ b) = root s.polynomial ^ b.length * bitValue s a + bitValue s b := by
  simp [bitValue, bitPoly_append]

/-- A byte that is brought into the remainder. -/
lemma value_bring (x : Byte) : root s.polynomial ^ 8 *
    value s.polynomial (x.setWidth w <<< (w - 8)) =
      root s.polynomial ^ w * AdjoinRoot.mk _ (poly x) := by
  rw [value, poly_setWidth_shiftLeft x (Nat.add_sub_cancel' s.width.1).le, map_mul, map_pow,
    AdjoinRoot.mk_X, ← mul_assoc, ← pow_add, Nat.add_sub_cancel' s.width.1]

lemma value_slowByte (r : BitVec w) (x : Byte) :
    value s.polynomial (slowByte s r x) = root s.polynomial ^ 8 * value s.polynomial r +
      root s.polynomial ^ w * bitValue s (byteBits s x) := by
  rw [slowByte, value_divideByte, value_xor, mul_add, value_bring, bitValue,
    bitPoly_byteBits]

/-- **The remainder of a message**, from any remainder on. -/
lemma value_foldl_slowByte (message : List Byte) (r : BitVec w) :
    value s.polynomial (message.foldl (slowByte s) r) =
      root s.polynomial ^ (8 * message.length) * value s.polynomial r +
        root s.polynomial ^ w * bitValue s (stream s message) := by
  induction message generalizing r with
  | nil => simp [stream, bitValue, bitPoly]
  | cons x message ih =>
    rw [List.foldl_cons, ih, value_slowByte, List.length_cons, stream_cons, bitValue_append,
      length_stream]
    ring

/-- The checksum of a message is the remainder of its polynomial. -/
theorem crcSlow_eq_remainder (message : List Byte) :
    ∃ r : BitVec w,
      poly r = (X ^ (8 * message.length) * poly s.initialRemainder +
        X ^ w * bitPoly (stream s message)) %ₘ generator s.polynomial ∧
      crcSlow s message = (if s.reflectRemainder then r.reverse else r) ^^^ s.finalXorValue := by
  refine ⟨message.foldl (slowByte s) s.initialRemainder, ?_, ?_⟩
  · have hmonic := monic_generator s.polynomial
    have h := value_foldl_slowByte s message s.initialRemainder
    simp only [value, bitValue, ← AdjoinRoot.mk_X, ← map_pow, ← map_mul, ← map_add,
      AdjoinRoot.mk_eq_mk] at h
    rw [← modByMonic_eq_of_dvd_sub hmonic h, eq_comm, modByMonic_eq_self_iff hmonic,
      degree_generator]
    exact degree_poly_lt _
  · rw [crcSlow, remainder_eq]

theorem crcSlow_eq_remainder_crcCcitt :
    ∃ r : BitVec 16,
      poly r = (X ^ (8 * 2) * poly crcCcitt.initialRemainder +
        X ^ 16 * bitPoly (stream crcCcitt [0x31, 0x32])) %ₘ generator crcCcitt.polynomial ∧
      crcSlow crcCcitt [0x31, 0x32] =
        (if crcCcitt.reflectRemainder then r.reverse else r) ^^^ crcCcitt.finalXorValue :=
  crcSlow_eq_remainder crcCcitt [0x31, 0x32]

/-! ### The table -/

lemma getD_crcInit (x : Byte) : (crcInit s).getD x.toNat 0 =
    divideByte s (x.setWidth w <<< (w - 8)) := by
  have hx : x.toNat < 256 := x.isLt
  rw [crcInit, List.getD_eq_getElem _ _ (by simpa using hx), List.getElem_map, List.getElem_range,
    BitVec.ofNat_toNat]

lemma fastByte_eq (r : BitVec w) (x : Byte) :
    fastByte s (crcInit s) r x = slowByte s r x := by
  apply value_injective s.polynomial
  -- the bits that the shift drops come back through the table
  have hr := value_shiftLeft s.polynomial r s.width.1
  rw [fastByte, getD_crcInit, value_xor, value_divideByte, value_bring, poly_xor,
    map_add, value_slowByte, hr, bitValue, bitPoly_byteBits]
  ring

/-- **The table gives the checksum of the plain division.** -/
theorem crcFast_eq_crcSlow (message : List Byte) :
    crcFast s (crcInit s) message = crcSlow s message := by
  have h : fastByte s (crcInit s) = slowByte s := by
    funext r x
    exact fastByte_eq s r x
  rw [crcFast, crcSlow, h]

theorem crcFast_eq_crcSlow_crc32 :
    crcFast crc32 (crcInit crc32) [0x31, 0x32] = crcSlow crc32 [0x31, 0x32] :=
  crcFast_eq_crcSlow crc32 [0x31, 0x32]

end Rtes.Crc
