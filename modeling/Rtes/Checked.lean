import Mathlib

/-!
Arithmetic in a fixed width, where a result out of range has no value.

A sum is accumulated in a variable that holds the values below a bound, and a search stops at
the first hit. Both go through exactly as on exact numbers unless some value they really
reach is out of range; for the search, values after the first hit do not count.
-/

namespace Rtes.Checked

/-- Conversion to a type that holds the values below `B`. -/
def fit (B x : ℕ) : Option ℕ := if x < B then some x else none

lemma fit_eq_some {B x y : ℕ} : fit B x = some y ↔ x = y ∧ x < B := by
  unfold fit
  split_ifs with h
  · simp [h]
  · simp [h]

lemma fit_eq_none {B x : ℕ} : fit B x = none ↔ B ≤ x := by
  simp [fit]

/-- A signed operation in 32 bits with the exact result `x`. -/
def fitInt (x : ℤ) : Option ℤ := if -2 ^ 31 ≤ x ∧ x < 2 ^ 31 then some x else none

lemma fitInt_eq_some {x y : ℤ} : fitInt x = some y ↔ x = y ∧ -2 ^ 31 ≤ x ∧ x < 2 ^ 31 := by
  unfold fitInt
  split_ifs with h
  · rw [Option.some.injEq, and_iff_left h]
  · exact iff_of_false (by simp) fun hy => h hy.2

/-- A sum accumulated under the bound `B`. -/
def sumFit (B : ℕ) (g : ℕ → ℕ) (a n : ℕ) : Option ℕ :=
  (List.range n).foldlM (fun acc k => fit B (acc + g k)) a

/-- The partial sums only grow, so the last one decides. -/
theorem sumFit_eq {B a : ℕ} (ha : a < B) (g : ℕ → ℕ) (n : ℕ) :
    sumFit B g a n = fit B (a + ∑ k ∈ Finset.range n, g k) := by
  induction n with
  | zero => simp [sumFit, fit, ha]
  | succ n ih =>
    rw [sumFit, List.range_succ, List.foldlM_append, ← sumFit, ih, Finset.sum_range_succ,
      ← Nat.add_assoc]
    by_cases h : a + ∑ k ∈ Finset.range n, g k < B
    · rw [fit_eq_some.mpr ⟨rfl, h⟩]
      simp
    · rw [fit_eq_none.mpr (not_lt.mp h), eq_comm, fit_eq_none.mpr (by omega)]
      rfl

/-- A sum accumulated modulo `B`. -/
lemma foldl_add_mod (B : ℕ) (g : ℕ → ℕ) (n : ℕ) :
    (List.range n).foldl (fun acc k => (acc + g k) % B) 0 =
      (∑ k ∈ Finset.range n, g k) % B := by
  induction n with
  | zero => simp
  | succ n ih =>
    rw [List.range_succ, List.foldl_append, ih, Finset.sum_range_succ, List.foldl_cons,
      List.foldl_nil, Nat.mod_add_mod]

/-- A loop whose body needs a value at each step gets through exactly when it gets them
all. -/
theorem foldlM_eq_some {α β ι : Type*} {p : ι → Option β} {q : ι → β} (g : α → ι → β → α)
    {l : List ι} (hpq : ∀ i ∈ l, ∀ b, p i = some b → b = q i) {a r : α} :
    l.foldlM (fun a i => (p i).bind fun b => some (g a i b)) a = some r ↔
      (∀ i ∈ l, p i = some (q i)) ∧ r = l.foldl (fun a i => g a i (q i)) a := by
  induction l generalizing a with
  | nil => simp [eq_comm]
  | cons i l ih =>
    have ih := fun a => @ih (fun j hj => hpq j (List.mem_cons_of_mem i hj)) a
    rw [List.foldlM_cons, List.foldl_cons, List.forall_mem_cons, and_assoc]
    constructor
    · intro h
      obtain ⟨a', ha', hrest⟩ := Option.bind_eq_some_iff.mp h
      obtain ⟨b, hb, hab⟩ := Option.bind_eq_some_iff.mp ha'
      obtain rfl := hpq i List.mem_cons_self b hb
      obtain rfl := Option.some.inj hab
      exact ⟨hb, (ih _).mp hrest⟩
    · rintro ⟨hi, hrest⟩
      rw [hi]
      exact (ih _).mpr hrest

/-! ### Search -/

section Search

variable {p : ℕ → Option Bool} {q : ℕ → Bool}

/-- What a search finds, if it gets through. -/
lemma anyM_eq_any {l : List ℕ} (hpq : ∀ x ∈ l, ∀ b, p x = some b → b = q x) {b : Bool}
    (h : l.anyM p = some b) : b = l.any q := by
  induction l with
  | nil => simpa using h.symm
  | cons x l ih =>
    rw [List.anyM, Option.bind_eq_bind, Option.bind_eq_some_iff] at h
    obtain ⟨c, hc, hrest⟩ := h
    obtain rfl := hpq x List.mem_cons_self c hc
    rw [List.any_cons]
    cases hq : q x with
    | true =>
      rw [hq] at hrest
      simpa using hrest.symm
    | false =>
      rw [hq] at hrest
      rw [Bool.false_or]
      exact ih (fun y hy => hpq y (List.mem_cons_of_mem x hy)) hrest

/-- **A search gets through** exactly when every test before the first hit, and that of the
hit, does. -/
theorem anyM_range' {s n : ℕ} (hpq : ∀ x, s ≤ x → x < s + n → ∀ b, p x = some b → b = q x) :
    (List.range' s n).anyM p = some ((List.range' s n).any q) ↔
      ∀ x, s ≤ x → x < s + n → (∃ y, s ≤ y ∧ y < x ∧ q y = true) ∨ p x = some (q x) := by
  induction n generalizing s with
  | zero =>
    simp only [List.range'_zero, List.anyM, List.any_nil]
    exact iff_of_true rfl fun x h1 h2 => by omega
  | succ n ih =>
    have ih := ih (s := s + 1) fun x h1 h2 => hpq x (by omega) (by omega)
    rw [List.range'_succ, List.anyM, List.any_cons]
    constructor
    · intro h x h1 h2
      obtain ⟨c, hc, hrest⟩ := Option.bind_eq_some_iff.mp h
      obtain rfl := hpq s le_rfl (by omega) c hc
      rcases Nat.eq_or_lt_of_le h1 with rfl | hlt
      · exact Or.inr hc
      · cases hq : q s with
        | true => exact Or.inl ⟨s, le_rfl, hlt, hq⟩
        | false =>
          rw [hq, Bool.false_or] at hrest
          rcases ih.mp hrest x hlt (by omega) with ⟨y, hy1, hy2, hy⟩ | hp
          · exact Or.inl ⟨y, by omega, hy2, hy⟩
          · exact Or.inr hp
    · intro h
      have hs : p s = some (q s) := by
        rcases h s le_rfl (by omega) with ⟨y, hy1, hy2, -⟩ | hp
        · omega
        · exact hp
      rw [Option.bind_eq_bind, hs, Option.bind_some]
      cases hq : q s with
      | true => rfl
      | false =>
        rw [Bool.false_or]
        refine ih.mpr fun x h1 h2 => ?_
        rcases h x (by omega) (by omega) with ⟨y, hy1, hy2, hy⟩ | hp
        · refine Or.inl ⟨y, ?_, hy2, hy⟩
          rcases Nat.eq_or_lt_of_le hy1 with rfl | hlt
          · rw [hq] at hy
            cases hy
          · exact hlt
        · exact Or.inr hp

end Search

end Rtes.Checked
