import Mathlib

/-!
A ring of `n` slots, written one after the other and round again, and the two indices and the
count that a writer and a reader of one keep.
-/

namespace Rtes.Ring

variable {α : Type*} {n w : ℕ} {slot val : ℕ → α}

/-- After `w` writes, write `j` having put down `val j`, the last `n` of them are there. -/
def Keeps (n w : ℕ) (slot val : ℕ → α) : Prop := ∀ j < w, w ≤ j + n → slot (j % n) = val j

lemma keeps_zero : Keeps n 0 slot val := fun _ hj => absurd hj (Nat.not_lt_zero _)

lemma mod_ne_of_lt {j w : ℕ} (hj : j < w) (hw : w < j + n) : j % n ≠ w % n := by
  intro h
  have hd : n ∣ w - j := (Nat.modEq_iff_dvd' hj.le).mp h
  have hle : n ≤ w - j := Nat.le_of_dvd (by omega) hd
  omega

lemma Keeps.write (h : Keeps n w slot val) :
    Keeps n (w + 1) (Function.update slot (w % n) (val w)) val := by
  intro j hj hw
  rcases Nat.lt_or_ge j w with hlt | hge
  · rw [Function.update_of_ne (mod_ne_of_lt hlt (by omega))]
    exact h j hlt (by omega)
  · obtain rfl : j = w := by omega
    exact Function.update_self _ _ _

/-! ### The indices -/

/-- The indices are slots, and the tail is as far ahead of the head as the count says, which may
be negative. -/
structure Balanced (n tail head : ℕ) (count : ℤ) : Prop where
  tail_lt : tail < n
  head_lt : head < n
  balance : (tail : ℤ) ≡ head + count [ZMOD n]

variable {tail head : ℕ} {count : ℤ}

lemma balanced_zero (h : 0 < n) : Balanced n 0 0 0 := ⟨h, h, by simp⟩

lemma cast_mod_modEq (a n : ℕ) : ((a % n : ℕ) : ℤ) ≡ a [ZMOD n] := by
  rw [Int.natCast_mod]
  exact Int.mod_modEq a n

/-- The writer goes on by `k` slots. -/
lemma Balanced.produce (h : Balanced n tail head count) (k : ℕ) :
    Balanced n ((tail + k) % n) head (count + k) := by
  refine ⟨Nat.mod_lt _ (Nat.zero_lt_of_lt h.tail_lt), h.head_lt, ?_⟩
  calc (((tail + k) % n : ℕ) : ℤ) ≡ (tail + k : ℕ) [ZMOD n] := cast_mod_modEq _ _
    _ = tail + k := Nat.cast_add _ _
    _ ≡ head + count + k [ZMOD n] := h.balance.add_right k
    _ = head + (count + k) := add_assoc _ _ _

/-- The reader goes on by `k` slots. -/
lemma Balanced.consume (h : Balanced n tail head count) (k : ℕ) :
    Balanced n tail ((head + k) % n) (count - k) := by
  refine ⟨h.tail_lt, Nat.mod_lt _ (Nat.zero_lt_of_lt h.head_lt), ?_⟩
  have hhead : (((head + k) % n : ℕ) : ℤ) ≡ head + k [ZMOD n] :=
    (Nat.cast_add (R := ℤ) head k) ▸ cast_mod_modEq _ _
  calc (tail : ℤ) ≡ head + count [ZMOD n] := h.balance
    _ = head + k + (count - k) := by ring
    _ ≡ ((head + k) % n : ℕ) + (count - k) [ZMOD n] := hhead.symm.add_right _

end Rtes.Ring
