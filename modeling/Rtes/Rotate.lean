import Mathlib

/-!
Rounds on registers whose names go round.

A round changes a few registers and the next round is the same with every register renamed by
`r`. Moving the values instead of the names gives the loop that has one round for all.
-/

namespace Rtes.Rotate

variable {ι α : Type*}

/-- `F` on registers that are called by their names under `e`. -/
def renamed (e : Equiv.Perm ι) (F : (ι → α) → ι → α) (v : ι → α) : ι → α :=
  F (v ∘ e) ∘ e.symm

/-- **Names or values.** After `n` rounds the register called `i` holds what the loop that moves
the values has in `i`. -/
theorem foldl_renamed (r : Equiv.Perm ι) (F : ℕ → (ι → α) → ι → α) (v : ι → α) (n : ℕ) :
    (List.range n).foldl (fun v t => renamed (r ^ t) (F t) v) v ∘ (r ^ n : Equiv.Perm ι) =
      (List.range n).foldl (fun u t => F t u ∘ r) v := by
  induction n with
  | zero => rfl
  | succ n ih =>
    rw [List.range_succ, List.foldl_append, List.foldl_append, ← ih]
    funext i
    simp [renamed, pow_succ]

/-- When all names are back. -/
lemma foldl_renamed_of_pow_eq_one {r : Equiv.Perm ι} {n : ℕ} (hr : r ^ n = 1)
    (F : ℕ → (ι → α) → ι → α) (v : ι → α) :
    (List.range n).foldl (fun v t => renamed (r ^ t) (F t) v) v =
      (List.range n).foldl (fun u t => F t u ∘ r) v := by
  rw [← foldl_renamed r F v n, hr]
  rfl

/-- Rounds in groups of `c`. -/
lemma foldl_groups {σ : Type*} (f : σ → ℕ → σ) (c m : ℕ) (s : σ) :
    (List.range m).foldl (fun s i => (List.range' (c * i) c).foldl f s) s =
      (List.range (c * m)).foldl f s := by
  induction m with
  | zero => rfl
  | succ m ih =>
    have hrange : List.range (c * (m + 1)) = List.range (c * m) ++ List.range' (c * m) c := by
      rw [List.range_eq_range', List.range_eq_range', Nat.mul_succ]
      have happ : List.range' 0 (c * m) 1 ++ List.range' (0 + 1 * (c * m)) c 1 =
          List.range' 0 (c * m + c) 1 := List.range'_append
      simpa using happ.symm
    rw [List.range_succ, List.foldl_append, ih, hrange, List.foldl_append, List.foldl_cons,
      List.foldl_nil]

end Rtes.Rotate
