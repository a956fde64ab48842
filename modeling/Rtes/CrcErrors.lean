import Rtes.Crc
import Rtes.Words

/-!
Which errors in a message change its checksum, and what the checksum of a message is that ends
with its own.
-/

namespace Rtes.CrcErrors

open Polynomial Rtes.Bytes Rtes.CrcModel Rtes.Crc Rtes.Gf2

variable {w : ℕ} (s : Standard w)

/-! ### Errors -/

/-- The bits in which two messages differ, by their place in the order of division. -/
def wrongBits (m₁ m₂ : List Byte) : Finset ℕ := differences (stream s m₁) (stream s m₂)

variable {m₁ m₂ : List Byte}

/-- The class of an error. -/
noncomputable def errorValue (m₁ m₂ : List Byte) : AdjoinRoot (generator s.polynomial) :=
  AdjoinRoot.mk _ (places (8 * m₁.length) (wrongBits s m₁ m₂))

lemma bitValue_add (hlen : m₁.length = m₂.length) :
    bitValue s (stream s m₁) + bitValue s (stream s m₂) = errorValue s m₁ m₂ := by
  rw [bitValue, bitValue, ← map_add, bitPoly_add (by simp [hlen]), length_stream]
  rfl

/-- Two messages have one checksum when the generator divides their difference. -/
lemma crcSlow_eq_iff (hp : s.polynomial.getLsbD 0 = true)
    (hlen : m₁.length = m₂.length) :
    crcSlow s m₁ = crcSlow s m₂ ↔ errorValue s m₁ m₂ = 0 := by
  have hunit : IsUnit (root s.polynomial ^ w) := (isUnit_root _ hp).pow w
  have hreg : crcSlow s m₁ = crcSlow s m₂ ↔
      m₁.foldl (slowByte s) s.initialRemainder = m₂.foldl (slowByte s) s.initialRemainder := by
    rw [crcSlow, crcSlow, BitVec.xor_left_inj]
    exact ⟨remainder_injective s, fun h => by rw [h]⟩
  have hval : m₁.foldl (slowByte s) s.initialRemainder = m₂.foldl (slowByte s) s.initialRemainder ↔
      bitValue s (stream s m₁) = bitValue s (stream s m₂) := by
    rw [← (value_injective s.polynomial).eq_iff, value_foldl_slowByte,
      value_foldl_slowByte, hlen, add_right_inj, hunit.mul_right_inj]
  rw [hreg, hval, ← bitValue_add s hlen, add_eq_zero_iff]

/-- **An error goes unnoticed exactly when the generator divides its polynomial.** -/
theorem crcSlow_eq_iff_dvd (hp : s.polynomial.getLsbD 0 = true)
    (hlen : m₁.length = m₂.length) : crcSlow s m₁ = crcSlow s m₂ ↔
      generator s.polynomial ∣ ∑ k ∈ wrongBits s m₁ m₂, X ^ (8 * m₁.length - 1 - k) := by
  rw [crcSlow_eq_iff s hp hlen, errorValue, AdjoinRoot.mk_eq_zero]
  rfl

theorem crcSlow_eq_iff_dvd_crc32 : crcSlow crc32 [0x31, 0x32] = crcSlow crc32 [0x31, 0x33] ↔
    generator crc32.polynomial ∣ ∑ k ∈ wrongBits crc32 [0x31, 0x32] [0x31, 0x33], X ^ (15 - k) :=
  crcSlow_eq_iff_dvd crc32 rfl rfl

lemma byteBits_injective {x y : Byte} (h : byteBits s x = byteBits s y) : x = y := by
  have hbits : bits x = bits y := by
    unfold byteBits at h
    split_ifs at h
    · exact List.reverse_injective h
    · exact h
  apply poly_injective
  rw [← bitPoly_bits, hbits, bitPoly_bits]

lemma stream_injective (hlen : m₁.length = m₂.length) (h : stream s m₁ = stream s m₂) :
    m₁ = m₂ := by
  induction m₁ generalizing m₂ with
  | nil => exact (List.length_eq_zero_iff.mp hlen.symm).symm
  | cons x m₁ ih =>
    obtain ⟨y, m₂, rfl⟩ := List.exists_cons_of_length_eq_add_one hlen.symm
    rw [stream_cons, stream_cons] at h
    obtain ⟨hxy, hm⟩ := List.append_inj h (by simp)
    rw [byteBits_injective s hxy, ih (by simpa using hlen) hm]

lemma wrongBits_nonempty (hlen : m₁.length = m₂.length) (hne : m₁ ≠ m₂) :
    (wrongBits s m₁ m₂).Nonempty :=
  differences_nonempty (by simp [hlen]) fun h => hne (stream_injective s hlen h)

lemma lt_of_mem_wrongBits {k : ℕ} (hk : k ∈ wrongBits s m₁ m₂) : k < 8 * m₁.length := by
  simpa using mem_differences_lt hk

/-- An error that goes unnoticed is spread over more bits than the checksum has. -/
lemma exists_far (hp : s.polynomial.getLsbD 0 = true)
    (hlen : m₁.length = m₂.length) (hne : m₁ ≠ m₂) (h : crcSlow s m₁ = crcSlow s m₂) :
    ∃ i ∈ wrongBits s m₁ m₂, ∃ j ∈ wrongBits s m₁ m₂, i + w ≤ j :=
  exists_span s.polynomial hp (wrongBits_nonempty s hlen hne)
    (fun _ => lt_of_mem_wrongBits s) ((crcSlow_eq_iff s hp hlen).mp h)

/-- **Every burst is noticed** that is no longer than the checksum. -/
theorem burst_noticed (hp : s.polynomial.getLsbD 0 = true)
    (hlen : m₁.length = m₂.length) (hne : m₁ ≠ m₂) {i : ℕ}
    (hburst : ∀ k ∈ wrongBits s m₁ m₂, i ≤ k ∧ k < i + w) : crcSlow s m₁ ≠ crcSlow s m₂ := by
  intro h
  obtain ⟨j, hj, k, hk, hjk⟩ := exists_far s hp hlen hne h
  have := hburst j hj
  have := hburst k hk
  omega

theorem burst_noticed_crc16 : crcSlow crc16 [0x00, 0xFF, 0x00] ≠ crcSlow crc16 [0x80, 0x00, 0x01] :=
  burst_noticed crc16 rfl rfl (by decide) (i := 2) (by decide +kernel)

/-! ### Few wrong bits -/

/-- The prime factors of `2 ^ 15 - 1`. -/
lemma prime_dvd_32767 (q : ℕ) (hq : q.Prime) (h : q ∣ 32767) : q ∈ [7, 31, 151] := by
  rw [show 32767 = 7 * (31 * 151) from rfl, hq.dvd_mul, hq.dvd_mul,
    Nat.prime_dvd_prime_iff_eq hq (by norm_num), Nat.prime_dvd_prime_iff_eq hq (by norm_num),
    Nat.prime_dvd_prime_iff_eq hq (by norm_num)] at h
  simpa using h

/-- The prime factors of `2 ^ 32 - 1`. -/
lemma prime_dvd_4294967295 (q : ℕ) (hq : q.Prime) (h : q ∣ 4294967295) :
    q ∈ [3, 5, 17, 257, 65537] := by
  rw [show 4294967295 = 3 * (5 * (17 * (257 * 65537))) from rfl, hq.dvd_mul, hq.dvd_mul,
    hq.dvd_mul, hq.dvd_mul, Nat.prime_dvd_prime_iff_eq hq (by norm_num),
    Nat.prime_dvd_prime_iff_eq hq (by norm_num), Nat.prime_dvd_prime_iff_eq hq (by norm_num),
    Nat.prime_dvd_prime_iff_eq hq (by norm_num), Nat.prime_dvd_prime_iff_eq hq (by norm_num)] at h
  simpa using h

lemma orderOf_crcCcitt : orderOf (root crcCcitt.polynomial) = 32767 :=
  orderOf_root _ (by decide) (show 32767 < 2 ^ 15 by decide) (by decide) prime_dvd_32767
    (by decide +kernel) (by decide +kernel)

lemma orderOf_crc16 : orderOf (root crc16.polynomial) = 32767 :=
  orderOf_root _ (by decide) (show 32767 < 2 ^ 15 by decide) (by decide) prime_dvd_32767
    (by decide +kernel) (by decide +kernel)

lemma orderOf_crc32 : orderOf (root crc32.polynomial) = 4294967295 :=
  orderOf_root _ (by decide) (show 4294967295 < 2 ^ 32 by decide) (by decide)
    prime_dvd_4294967295 (by decide +kernel) (by decide +kernel)

lemma pair_noticed (hp : s.polynomial.getLsbD 0 = true)
    (hlen : m₁.length = m₂.length) {i j : ℕ} (hij : i < j)
    (hpair : wrongBits s m₁ m₂ = {i, j}) (hord : j - i < orderOf (root s.polynomial)) :
    crcSlow s m₁ ≠ crcSlow s m₂ := by
  have hmem : j ∈ wrongBits s m₁ m₂ := by
    rw [hpair]
    exact Finset.mem_insert_of_mem (Finset.mem_singleton_self j)
  have hj := lt_of_mem_wrongBits s hmem
  rw [Ne, crcSlow_eq_iff s hp hlen, errorValue, hpair]
  exact places_pair_ne_zero _ hp hij hj hord

lemma odd_noticed (hp : s.polynomial.getLsbD 0 = true)
    (heven : (generator s.polynomial).eval 1 = 0) (hlen : m₁.length = m₂.length)
    (hodd : Odd (wrongBits s m₁ m₂).card) : crcSlow s m₁ ≠ crcSlow s m₂ := by
  rw [Ne, crcSlow_eq_iff s hp hlen]
  intro h
  exact Nat.not_even_iff_odd.mpr hodd (even_of_places_eq_zero _ heven h)

/-- **A few wrong bits are noticed**: two that are not too far apart, and with 16 bits any odd
number. -/
theorem few_wrong_bits_noticed (m₁ m₂ : List Byte) (hlen : m₁.length = m₂.length) :
    (∀ i j, i < j → j - i < 32767 → wrongBits crcCcitt m₁ m₂ = {i, j} →
      crcSlow crcCcitt m₁ ≠ crcSlow crcCcitt m₂) ∧
    (∀ i j, i < j → j - i < 32767 → wrongBits crc16 m₁ m₂ = {i, j} →
      crcSlow crc16 m₁ ≠ crcSlow crc16 m₂) ∧
    (∀ i j, i < j → j - i < 4294967295 → wrongBits crc32 m₁ m₂ = {i, j} →
      crcSlow crc32 m₁ ≠ crcSlow crc32 m₂) ∧
    (Odd (wrongBits crcCcitt m₁ m₂).card → crcSlow crcCcitt m₁ ≠ crcSlow crcCcitt m₂) ∧
    (Odd (wrongBits crc16 m₁ m₂).card → crcSlow crc16 m₁ ≠ crcSlow crc16 m₂) := by
  have heven (p : BitVec 16) (h : 1 + (∑ i ∈ Finset.range 16, if p.getLsbD i then 1 else 0) =
      (0 : ZMod 2)) : (generator p).eval 1 = 0 := (eval_generator p).trans h
  refine ⟨fun i j hij hd hp => ?_, fun i j hij hd hp => ?_, fun i j hij hd hp => ?_, fun h => ?_,
    fun h => ?_⟩
  · exact pair_noticed _ rfl hlen hij hp (by rwa [orderOf_crcCcitt])
  · exact pair_noticed _ rfl hlen hij hp (by rwa [orderOf_crc16])
  · exact pair_noticed _ rfl hlen hij hp (by rwa [orderOf_crc32])
  · exact odd_noticed _ rfl (heven _ (by decide)) hlen h
  · exact odd_noticed _ rfl (heven _ (by decide)) hlen h

theorem few_wrong_bits_noticed_bytes :
    crcSlow crcCcitt [0, 0] ≠ crcSlow crcCcitt [1, 1] ∧
    crcSlow crc16 [0, 0] ≠ crcSlow crc16 [1, 1] ∧
    crcSlow crc32 [0, 0] ≠ crcSlow crc32 [1, 1] ∧
    crcSlow crcCcitt [0, 0] ≠ crcSlow crcCcitt [0, 7] ∧
    crcSlow crc16 [0, 0] ≠ crcSlow crc16 [0, 7] := by
  obtain ⟨h₁, h₂, h₃, -, -⟩ := few_wrong_bits_noticed [0, 0] [1, 1] rfl
  obtain ⟨-, -, -, h₄, h₅⟩ := few_wrong_bits_noticed [0, 0] [0, 7] rfl
  refine ⟨h₁ 7 15 (by decide) (by decide) ?_, h₂ 0 8 (by decide) (by decide) ?_,
    h₃ 0 8 (by decide) (by decide) ?_, h₄ ?_, h₅ ?_⟩ <;> decide +kernel

/-! ### Messages that end with their checksum -/

/-- A checksum as bytes: the bits go the way that those of the message go. -/
def trailer (c : BitVec w) : List Byte :=
  if s.reflectData then toBytes (w / 8) c.toNat else (toBytes (w / 8) c.toNat).reverse

lemma flatMap_toBytes (n v : ℕ) :
    (toBytes n v).flatMap (fun x => (bits x).reverse) = (List.range (8 * n)).map v.testBit := by
  induction n generalizing v with
  | zero => rfl
  | succ n ih =>
    have hbyte : (bits (BitVec.ofNat 8 v)).reverse = (List.range 8).map v.testBit := by
      rw [← bits_reverse, bits_reverse_eq_map]
      apply List.map_congr_left
      intro k hk
      rw [BitVec.getLsbD_ofNat, decide_eq_true (List.mem_range.mp hk), Bool.true_and]
    have hrest : (v / 256).testBit = fun k => v.testBit (8 + k) := by
      funext k
      rw [show 256 = 2 ^ 8 from rfl, Nat.testBit_div_two_pow, add_comm]
    rw [toBytes, List.flatMap_cons, ih, hbyte, show 8 * (n + 1) = 8 + 8 * n by ring, List.range_add,
      List.map_append, List.map_map, hrest]
    rfl

/-- The bits of a word in the order in which they are divided. -/
def wordBits (c : BitVec w) : List Bool := if s.reflectData then (bits c).reverse else bits c

lemma stream_trailer (h8 : 8 ∣ w) (c : BitVec w) : stream s (trailer s c) = wordBits s c := by
  have hbytes : (toBytes (w / 8) c.toNat).flatMap (fun x => (bits x).reverse) =
      (bits c).reverse := by
    rw [flatMap_toBytes, Nat.mul_div_cancel' h8, ← bits_reverse, bits_reverse_eq_map]
    rfl
  unfold stream trailer wordBits byteBits
  split_ifs with h
  · exact hbytes
  · rw [List.flatMap_reverse, ← List.reverse_reverse (bits c), ← hbytes]
    rfl

lemma length_trailer (c : BitVec w) : (trailer s c).length = w / 8 := by
  unfold trailer
  split_ifs <;> simp

lemma reverse_xor (x y : BitVec w) : (x ^^^ y).reverse = x.reverse ^^^ y.reverse := by
  apply BitVec.eq_of_getLsbD_eq
  intro i _
  rw [BitVec.getLsbD_reverse, BitVec.getLsbD_xor, BitVec.getLsbD_reverse, BitVec.getLsbD_reverse,
    BitVec.getMsbD_xor]

/-- What the bytes of a checksum bring into the remainder. -/
lemma bitValue_trailer (h8 : 8 ∣ w) (href : s.reflectData = s.reflectRemainder)
    (r : BitVec w) : bitValue s (stream s (trailer s (s.remainder r ^^^ s.finalXorValue))) =
      value s.polynomial r + value s.polynomial (s.remainder s.finalXorValue) := by
  rw [stream_trailer s h8, wordBits, href, ← value_xor, value, ← bitPoly_bits, bitValue,
    remainder_eq, remainder_eq]
  split_ifs
  · rw [← bits_reverse, reverse_xor, BitVec.reverse_reverse_eq]
  · rfl

/-- The checksum of a message with its own checksum behind it does not depend on the message. -/
lemma crcSlow_trailer (h8 : 8 ∣ w)
    (href : s.reflectData = s.reflectRemainder) (m : List Byte) :
    crcSlow s (m ++ trailer s (crcSlow s m)) = crcSlow s (trailer s (crcSlow s [])) := by
  have hreg : ∀ m, value s.polynomial
      ((m ++ trailer s (crcSlow s m)).foldl (slowByte s) s.initialRemainder) =
        root s.polynomial ^ w * value s.polynomial (s.remainder s.finalXorValue) := by
    intro m
    rw [List.foldl_append, value_foldl_slowByte, length_trailer, Nat.mul_div_cancel' h8,
      crcSlow, bitValue_trailer s h8 href, ← mul_add, ← add_assoc, add_self, zero_add]
  have h := value_injective _ ((hreg m).trans (hreg []).symm)
  rw [crcSlow, h]
  rfl

lemma stream_append (m t : List Byte) : stream s (m ++ t) = stream s m ++ stream s t :=
  List.flatMap_append

/-- Behind a message, only its checksum gives that checksum. -/
lemma crcSlow_append_eq_iff (h8 : 8 ∣ w)
    (hp : s.polynomial.getLsbD 0 = true) (href : s.reflectData = s.reflectRemainder)
    (m : List Byte) {t : List Byte} (ht : t.length = w / 8) :
    crcSlow s (m ++ t) = crcSlow s (trailer s (crcSlow s [])) ↔ t = trailer s (crcSlow s m) := by
  rw [← crcSlow_trailer s h8 href m]
  constructor
  · intro h
    by_contra hne
    have hlen : (m ++ t).length = (m ++ trailer s (crcSlow s m)).length := by
      simp [ht, length_trailer]
    obtain ⟨i, hi, j, hj, hij⟩ := exists_far s hp hlen
      (fun hmt => hne (List.append_cancel_left hmt)) h
    have hj' := lt_of_mem_wrongBits s hj
    rw [List.length_append, ht, mul_add, Nat.mul_div_cancel' h8] at hj'
    have hlow : i < (stream s m).length := by
      rw [length_stream]
      omega
    apply (Finset.mem_filter.mp hi).2
    rw [stream_append, stream_append, List.getD_append _ _ _ _ hlow, List.getD_append _ _ _ _ hlow]
  · intro h
    rw [h]

/-- **A receiver finds out whether a message ends with its checksum** by taking the checksum of
all of it. -/
theorem checksum_behind_message (m t : List Byte) :
    (t.length = 2 → (crcSlow crcCcitt (m ++ t) = 0 ↔ t = trailer crcCcitt (crcSlow crcCcitt m))) ∧
    (t.length = 2 → (crcSlow crc16 (m ++ t) = 0 ↔ t = trailer crc16 (crcSlow crc16 m))) ∧
    (t.length = 4 →
      (crcSlow crc32 (m ++ t) = 0x2144DF1C ↔ t = trailer crc32 (crcSlow crc32 m))) := by
  have h₁ : crcSlow crcCcitt (trailer crcCcitt (crcSlow crcCcitt [])) = 0 := by decide +kernel
  have h₂ : crcSlow crc16 (trailer crc16 (crcSlow crc16 [])) = 0 := by decide +kernel
  have h₃ : crcSlow crc32 (trailer crc32 (crcSlow crc32 [])) = 0x2144DF1C := by decide +kernel
  refine ⟨fun ht => ?_, fun ht => ?_, fun ht => ?_⟩
  · rw [← h₁]
    exact crcSlow_append_eq_iff _ (by decide) rfl rfl m ht
  · rw [← h₂]
    exact crcSlow_append_eq_iff _ (by decide) rfl rfl m ht
  · rw [← h₃]
    exact crcSlow_append_eq_iff _ (by decide) rfl rfl m ht

theorem checksum_behind_message_crc32 :
    crcSlow crc32 [0x31, 0x32, 0xCD, 0x44, 0x53, 0x4F] = 0x2144DF1C ↔
      [0xCD, 0x44, 0x53, 0x4F] = trailer crc32 (crcSlow crc32 [0x31, 0x32]) :=
  (checksum_behind_message [0x31, 0x32] [0xCD, 0x44, 0x53, 0x4F]).2.2 rfl

end Rtes.CrcErrors
