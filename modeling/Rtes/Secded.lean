import Mathlib

/-!
Extended Hamming codes, with a word as the finite set of the positions that hold a one.

Adding two words is their symmetric difference, so the word read after the faults `F` is
`W ∆ F`. The syndrome of a word is the XOR of its positions; position `0` adds nothing to it
and serves the parity of the whole word. Both checks are additive, hence on a valid word the
verdict depends on the faults alone.
-/

namespace Rtes.Secded

open Finset
open scoped symmDiff

/-- The XOR of the positions that hold a one. -/
def syndrome (W : Finset ℕ) : ℕ := W.fold (· ^^^ ·) 0 id

@[simp] lemma syndrome_empty : syndrome ∅ = 0 := rfl

@[simp] lemma syndrome_singleton (q : ℕ) : syndrome {q} = q := by
  unfold syndrome
  rw [fold_singleton, id, Nat.xor_zero]

lemma syndrome_union {A B : Finset ℕ} (h : Disjoint A B) :
    syndrome (A ∪ B) = syndrome A ^^^ syndrome B := by
  have hui : syndrome (A ∪ B) ^^^ syndrome (A ∩ B) = syndrome A ^^^ syndrome B :=
    fold_union_inter
  rwa [disjoint_iff_inter_eq_empty.mp h, syndrome_empty, Nat.xor_zero] at hui

/-- The syndrome is additive. -/
lemma syndrome_symmDiff (A B : Finset ℕ) : syndrome (A ∆ B) = syndrome A ^^^ syndrome B := by
  have hA := syndrome_union (disjoint_sdiff_inter A B)
  have hB := syndrome_union (disjoint_sdiff_inter B A)
  have hAB : syndrome (A ∆ B) = syndrome (A \ B) ^^^ syndrome (B \ A) :=
    syndrome_union disjoint_sdiff_sdiff
  rw [sdiff_union_inter] at hA hB
  rw [hAB, hA, hB, inter_comm B A, Nat.xor_assoc, Nat.xor_comm (syndrome (B \ A)), ← Nat.xor_assoc
    (syndrome (A ∩ B)), Nat.xor_self, Nat.zero_xor]

/-- So is the parity of the weight. -/
lemma even_card_symmDiff (A B : Finset ℕ) : Even (#(A ∆ B)) ↔ (Even #A ↔ Even #B) := by
  have hA := card_sdiff_add_card_inter A B
  have hB := card_sdiff_add_card_inter B A
  have hAB : #(A ∆ B) = #(A \ B) + #(B \ A) := card_union_of_disjoint disjoint_sdiff_sdiff
  rw [inter_comm] at hB
  rw [hAB, ← hA, ← hB]
  simp only [Nat.even_add]
  tauto

/-- A word that passes both checks. -/
structure Valid (W : Finset ℕ) : Prop where
  syndrome_eq : syndrome W = 0
  even : Even #W

/-- What the two checks tell. -/
inductive Verdict
  | clean
  | parity
  | single (q : ℕ)
  | double
  deriving DecidableEq

def verdict (W : Finset ℕ) : Verdict :=
  if syndrome W = 0 then if Even #W then .clean else .parity
  else if Even #W then .double else .single (syndrome W)

/-- **The verdict on a valid word depends on the faults alone.** -/
theorem verdict_symmDiff {W : Finset ℕ} (hW : Valid W) (F : Finset ℕ) :
    verdict (W ∆ F) = verdict F := by
  unfold verdict
  simp only [syndrome_symmDiff, even_card_symmDiff, hW.syndrome_eq, hW.even, Nat.zero_xor,
    true_iff]

lemma verdict_valid {W : Finset ℕ} (hW : Valid W) : verdict W = .clean := by
  simp [verdict, hW.syndrome_eq, hW.even]

lemma verdict_empty : verdict ∅ = .clean := by
  simp [verdict]

lemma verdict_zero : verdict {0} = .parity := by
  simp [verdict]

lemma verdict_singleton {q : ℕ} (hq : q ≠ 0) : verdict {q} = .single q := by
  simp [verdict, hq]

lemma verdict_pair {F : Finset ℕ} (hF : #F = 2) : verdict F = .double := by
  obtain ⟨p, q, hpq, rfl⟩ := card_eq_two.mp hF
  have hsyn : syndrome {p, q} = p ^^^ q := by
    rw [insert_eq, syndrome_union (by simpa using hpq), syndrome_singleton, syndrome_singleton]
  unfold verdict
  rw [hsyn, hF, if_neg (by rwa [Nat.xor_eq_zero_iff]), if_pos even_two]

end Rtes.Secded
