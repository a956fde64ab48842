import Mathlib.Data.BitVec

/-!
Fields of a word, each the bits that a mask selects.

A field is written by clearing its bits and setting those of the new value, which has none
outside the mask. Writing one field does not touch another, so writes of two fields commute.
-/

namespace Rtes.BitField

variable {w : ℕ} {mask mask' v v' x : BitVec w}

/-- Write the value `v` into the field `mask` of `x`. -/
def put (mask v x : BitVec w) : BitVec w := x &&& ~~~mask ||| v

/-- The value `v` has no bits outside the field. -/
def Fits (mask v : BitVec w) : Prop := v &&& mask = v

instance : DecidablePred (Fits mask) := fun v => inferInstanceAs (Decidable (v &&& mask = v))

lemma Fits.bit (h : Fits mask v) {i : ℕ} (hi : i < w) (hv : v[i] = true) : mask[i] = true := by
  have hand : (v &&& mask)[i] = true := by rw [h, hv]
  rw [BitVec.getElem_and, hv, Bool.true_and] at hand
  exact hand

lemma put_and_mask (h : Fits mask v) : put mask v x &&& mask = v := by
  ext i hi
  have hbit := h.bit hi
  simp only [put, BitVec.getElem_and, BitVec.getElem_or, BitVec.getElem_not]
  revert hbit
  cases v[i] <;> cases mask[i] <;> simp

lemma put_and_not (h : Fits mask v) : put mask v x &&& ~~~mask = x &&& ~~~mask := by
  ext i hi
  have hbit := h.bit hi
  simp only [put, BitVec.getElem_and, BitVec.getElem_or, BitVec.getElem_not]
  revert hbit
  cases v[i] <;> cases mask[i] <;> simp

lemma put_zero : put mask 0 x = x &&& ~~~mask := BitVec.or_zero

/-- Clearing the field before it is written makes no difference. -/
lemma put_and_not_mask : put mask v (x &&& ~~~mask) = put mask v x := by
  unfold put
  rw [BitVec.and_assoc, BitVec.and_self]

lemma and_not_eq_self : x &&& ~~~mask = x ↔ x &&& mask = 0 := by
  constructor
  · intro h
    rw [← h, BitVec.and_assoc, BitVec.and_comm _ mask, BitVec.and_not_self]
    exact BitVec.and_zero
  · intro h
    ext i hi
    have hbit : (x &&& mask)[i] = false := by rw [h]; exact BitVec.getElem_zero hi
    rw [BitVec.getElem_and] at hbit
    rw [BitVec.getElem_and, BitVec.getElem_not]
    revert hbit
    cases x[i] <;> cases mask[i] <;> simp

lemma put_mask : put mask mask x = x ||| mask := by
  ext i hi
  simp only [put, BitVec.getElem_and, BitVec.getElem_or, BitVec.getElem_not]
  cases mask[i] <;> simp

/-- **Writes of two fields commute.** -/
theorem put_comm (hd : mask &&& mask' = 0) (h : Fits mask v) (h' : Fits mask' v') :
    put mask v (put mask' v' x) = put mask' v' (put mask v x) := by
  ext i hi
  have hbit := h.bit hi
  have hbit' := h'.bit hi
  have hdis : (mask &&& mask')[i] = false := by rw [hd]; exact BitVec.getElem_zero hi
  rw [BitVec.getElem_and] at hdis
  simp only [put, BitVec.getElem_and, BitVec.getElem_or, BitVec.getElem_not]
  revert hbit hbit' hdis
  cases v[i] <;> cases v'[i] <;> cases mask[i] <;> cases mask'[i] <;> simp

end Rtes.BitField
