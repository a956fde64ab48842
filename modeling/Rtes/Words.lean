import Rtes.Bytes

/-!
Words of `w` bits in memory: bytes put together by shifts, and taken apart again.

`ofBytes` and `toBytes` have the least significant byte first; the other order is the reversed
list.
-/

namespace Rtes.Words

open Rtes.Bytes

variable {w : ℕ}

/-- The word with the bytes `bs`, the least significant first. -/
def word (w : ℕ) (bs : List Byte) : BitVec w := BitVec.ofNat w (ofBytes bs)

@[simp] lemma word_nil : word w [] = 0 := rfl

lemma word_cons_add (b : Byte) (bs : List Byte) :
    word w (b :: bs) = b.setWidth w + word w bs <<< 8 := by
  apply BitVec.eq_of_toNat_eq
  simp only [word, ofBytes, BitVec.toNat_add, BitVec.toNat_ofNat, BitVec.toNat_setWidth,
    BitVec.toNat_shiftLeft, Nat.shiftLeft_eq]
  norm_num [Nat.add_mod, Nat.mul_mod, Nat.mul_comm]

lemma word_cons_or (b : Byte) (bs : List Byte) :
    word w (b :: bs) = b.setWidth w ||| word w bs <<< 8 := by
  rw [word_cons_add]
  apply BitVec.add_eq_or_of_and_eq_zero
  ext i hi
  simp only [BitVec.getElem_and, BitVec.getElem_setWidth, BitVec.getElem_shiftLeft]
  rcases Nat.lt_or_ge i 8 with h | h
  · simp [h]
  · simp [BitVec.getLsbD_of_ge b i h]

/-- Bytes read one by one. -/
lemma take_drop_eq {b : List Byte} {i n : ℕ} (h : i + n ≤ b.length) :
    (b.drop i).take n = (List.range n).map fun k => b.getD (i + k) 0 := by
  have hslice : slice (fun k => b.getD k 0) i n = (b.drop i).take n :=
    slice_eq_take_drop h fun _ _ => rfl
  exact hslice.symm

lemma toBytes_zero (v : ℕ) : toBytes 0 v = [] := rfl

lemma toBytes_of_zero (n : ℕ) : toBytes n 0 = List.replicate n 0 := by
  induction n with
  | zero => rfl
  | succ n ih => rw [toBytes, Nat.zero_div, ih, List.replicate_succ]; rfl

/-- The bytes of a word, taken out by shifts. -/
lemma toBytes_succ (n : ℕ) (x : BitVec w) :
    toBytes (n + 1) x.toNat = x.setWidth 8 :: toBytes n (x >>> 8).toNat := by
  rw [toBytes, BitVec.toNat_ushiftRight, Nat.shiftRight_eq_div_pow, BitVec.ofNat_toNat]

lemma toBytes_add (i n v : ℕ) : toBytes (i + n) v = toBytes i v ++ toBytes n (v / 256 ^ i) := by
  induction i generalizing v with
  | zero => simp [toBytes]
  | succ i ih =>
    rw [Nat.succ_add, toBytes, ih, toBytes, List.cons_append, Nat.div_div_eq_div_mul, ← pow_succ']

/-- Bytes beyond the first `n` do not matter. -/
lemma toBytes_congr {n v v' : ℕ} (h : v % 256 ^ n = v' % 256 ^ n) : toBytes n v = toBytes n v' := by
  induction n generalizing v v' with
  | zero => rfl
  | succ n ih =>
    rw [pow_succ', Nat.mod_mul, Nat.mod_mul] at h
    have hlow : v % 256 = v' % 256 := by omega
    have hhigh : v / 256 % 256 ^ n = v' / 256 % 256 ^ n := by omega
    rw [toBytes, toBytes, ih hhigh]
    congr 1
    apply BitVec.eq_of_toNat_eq
    simpa using hlow

lemma toBytes_injective {n v v' : ℕ} (hv : v < 256 ^ n) (hv' : v' < 256 ^ n)
    (h : toBytes n v = toBytes n v') : v = v' := by
  rw [← ofBytes_toBytes hv, h, ofBytes_toBytes hv']

end Rtes.Words
