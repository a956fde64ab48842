import Mathlib

/-!
Loops that may run forever, cut off by fuel, and their rules.

A loop body goes round again with a new state, breaks with a result, or is itself cut off.
A result got with some fuel is the result with any more fuel, so "the loop returns `r`" is
"some fuel gives `r`".
-/

namespace Rtes.Loop

variable {σ ρ : Type*}

/-- Run `body` until it breaks, at most `fuel` times: `inl` goes round again, `inr`
breaks. -/
def iter (body : σ → Option (σ ⊕ ρ)) : ℕ → σ → Option ρ
  | 0, _ => none
  | fuel + 1, s =>
    match body s with
    | none => none
    | some (.inl s') => iter body fuel s'
    | some (.inr r) => some r

lemma iter_inl {body : σ → Option (σ ⊕ ρ)} {s s' : σ} (h : body s = some (.inl s'))
    (fuel : ℕ) : iter body (fuel + 1) s = iter body fuel s' := by
  simp [iter, h]

lemma iter_inr {body : σ → Option (σ ⊕ ρ)} {s : σ} {r : ρ} (h : body s = some (.inr r))
    (fuel : ℕ) : iter body (fuel + 1) s = some r := by
  simp [iter, h]

/-- **More fuel changes nothing**, neither for the loop nor for a loop inside its body. -/
theorem iter_mono {b c : σ → Option (σ ⊕ ρ)} (hbc : ∀ s x, b s = some x → c s = some x)
    {n m : ℕ} (hnm : n ≤ m) {s : σ} {r : ρ} (h : iter b n s = some r) :
    iter c m s = some r := by
  induction n generalizing m s with
  | zero => simp [iter] at h
  | succ n ih =>
    obtain ⟨m, rfl⟩ : ∃ k, m = k + 1 := ⟨m - 1, by omega⟩
    cases hb : b s with
    | none => simp [iter, hb] at h
    | some x =>
      cases x with
      | inl s' =>
        rw [iter_inl hb] at h
        rw [iter_inl (hbc _ _ hb)]
        exact ih (by omega) h
      | inr r' =>
        rw [iter_inr hb] at h
        rw [iter_inr (hbc _ _ hb), h]

/-- Two loops that agree wherever they get to. -/
lemma iter_congr {b c : σ → Option (σ ⊕ ρ)} (I : σ → Prop) (hbc : ∀ s, I s → b s = c s)
    (hstep : ∀ s s', I s → c s = some (.inl s') → I s') {s : σ} (hs : I s) (fuel : ℕ) :
    iter b fuel s = iter c fuel s := by
  induction fuel generalizing s with
  | zero => rfl
  | succ fuel ih =>
    rw [iter, iter, hbc s hs]
    cases hc : c s with
    | none => rfl
    | some x =>
      cases x with
      | inl s' => exact ih (hstep s s' hs hc)
      | inr r => rfl

/-- **The invariant rule.** What the body keeps going round and turns into `Q` when it
breaks holds of every result. -/
theorem iter_inv {body : σ → Option (σ ⊕ ρ)} (I : σ → Prop) (Q : ρ → Prop)
    (hstep : ∀ s s', I s → body s = some (.inl s') → I s')
    (hbreak : ∀ s r, I s → body s = some (.inr r) → Q r)
    {fuel : ℕ} {s : σ} {r : ρ} (hs : I s) (h : iter body fuel s = some r) : Q r := by
  induction fuel generalizing s with
  | zero => simp [iter] at h
  | succ fuel ih =>
    cases hb : body s with
    | none => simp [iter, hb] at h
    | some x =>
      cases x with
      | inl s' =>
        rw [iter_inl hb] at h
        exact ih (hstep s s' hs hb) h
      | inr r' =>
        rw [iter_inr hb] at h
        cases h
        exact hbreak s r hs hb

/-- **The variant rule.** A body that always gets somewhere, keeping `I` and going round
with less of `μ` each time until it breaks with `Q`, breaks with `Q`. -/
theorem iter_total {body : σ → Option (σ ⊕ ρ)} (I : σ → Prop) (Q : ρ → Prop) (μ : σ → ℕ)
    (hbody : ∀ s, I s → (∃ s', body s = some (.inl s') ∧ I s' ∧ μ s' < μ s) ∨
      ∃ r, body s = some (.inr r) ∧ Q r)
    {s : σ} (hs : I s) : ∃ r, iter body (μ s + 1) s = some r ∧ Q r := by
  induction hk : μ s using Nat.strong_induction_on generalizing s with
  | _ k ih =>
    rcases hbody s hs with ⟨s', hb, hI, hlt⟩ | ⟨r, hb, hr⟩
    · obtain ⟨r, hr, hq⟩ := ih (μ s') (by omega) hI rfl
      refine ⟨r, ?_, hq⟩
      rw [iter_inl hb]
      exact iter_mono (fun _ _ h => h) (by omega) hr
    · exact ⟨r, iter_inr hb k, hr⟩

/-- Two results of one loop are the same. -/
lemma iter_unique {body : σ → Option (σ ⊕ ρ)} {n m : ℕ} {s : σ} {r r' : ρ}
    (h : iter body n s = some r) (h' : iter body m s = some r') : r = r' := by
  have h1 := iter_mono (fun _ _ h => h) (le_max_left n m) h
  have h2 := iter_mono (fun _ _ h => h) (le_max_right n m) h'
  rw [h1] at h2
  exact Option.some.inj h2

/-- A loop whose states are known one after another. -/
lemma iter_of_states {body : σ → Option (σ ⊕ ρ)} {state : ℕ → σ} {N : ℕ} {r : ρ}
    (hstep : ∀ n < N, body (state n) = some (.inl (state (n + 1))))
    (hend : body (state N) = some (.inr r)) : iter body (N + 1) (state 0) = some r := by
  induction N generalizing state with
  | zero => exact iter_inr hend 0
  | succ N ih =>
    rw [iter_inl (hstep 0 (Nat.succ_pos N))]
    exact @ih (fun n => state (n + 1)) (fun n hn => hstep (n + 1) (by omega)) hend

/-! ### Iterating to a fixed point -/

section Settle

variable {α : Type*} [DecidableEq α]

/-- Apply `f` until nothing changes. -/
def settle (f : α → α) : ℕ → α → Option α :=
  iter fun a => some (if f a = a then .inr a else .inl (f a))

lemma settle_fixed {f : α → α} {fuel : ℕ} {a c : α} (h : settle f fuel a = some c) :
    f c = c := by
  refine iter_inv (fun _ => True) (fun c => f c = c) (fun _ _ _ _ => trivial) ?_ trivial h
  intro s r _ hb
  by_cases hs : f s = s
  · simp only [hs, ↓reduceIte, Option.some.injEq, Sum.inr.injEq] at hb
    exact hb ▸ hs
  · simp [hs] at hb

/-- The value settled at is one of the iterates. -/
lemma settle_iterate {f : α → α} {fuel : ℕ} {a c : α} (h : settle f fuel a = some c) :
    ∃ k, c = f^[k] a := by
  refine iter_inv (fun s => ∃ k, s = f^[k] a) (fun c => ∃ k, c = f^[k] a) ?_ ?_ ⟨0, rfl⟩ h
  · rintro s s' ⟨k, rfl⟩ hb
    by_cases he : f (f^[k] a) = f^[k] a
    · simp [he] at hb
    · simp only [he, ↓reduceIte, Option.some.injEq, Sum.inl.injEq] at hb
      exact ⟨k + 1, by rw [← hb, Function.iterate_succ_apply']⟩
  · rintro s r ⟨k, rfl⟩ hb
    by_cases he : f (f^[k] a) = f^[k] a
    · simp only [he, ↓reduceIte, Option.some.injEq, Sum.inr.injEq] at hb
      exact ⟨k, hb.symm⟩
    · simp [he] at hb

lemma settle_mono {f : α → α} {n m : ℕ} (hnm : n ≤ m) {a c : α}
    (h : settle f n a = some c) : settle f m a = some c :=
  iter_mono (fun _ _ h => h) hnm h

/-- What `f` keeps holds of the value settled at. -/
lemma settle_inv {f : α → α} (I : α → Prop) (hI : ∀ a, I a → I (f a)) {fuel : ℕ} {a c : α}
    (ha : I a) (h : settle f fuel a = some c) : I c := by
  refine iter_inv I I (fun s s' hs hb => ?_) (fun s r hs hb => ?_) ha h
  · by_cases he : f s = s
    · simp [he] at hb
    · simp only [he, ↓reduceIte, Option.some.injEq, Sum.inl.injEq] at hb
      exact hb ▸ hI s hs
  · by_cases he : f s = s
    · simp only [he, ↓reduceIte, Option.some.injEq, Sum.inr.injEq] at hb
      exact hb ▸ hs
    · simp [he] at hb

variable [PartialOrder α] {f : α → α}

/-- Iterating a monotone function from below cannot pass a point that `f` does not raise. -/
lemma settle_le (hf : Monotone f) {fuel : ℕ} {a b c : α} (hab : a ≤ b) (hb : f b ≤ b)
    (h : settle f fuel a = some c) : c ≤ b :=
  settle_inv (· ≤ b) (fun _ hx => (hf hx).trans hb) hab h

/-- **Iterating from below settles** as soon as some point above is not raised. -/
theorem settle_returns [LocallyFiniteOrder α] (hf : Monotone f) {a b : α} (hfa : a ≤ f a)
    (hab : a ≤ b) (hb : f b ≤ b) : ∃ fuel c, settle f fuel a = some c := by
  suffices ∃ c, settle f ((Finset.Icc a b).card + 1) a = some c ∧ True from
    ⟨_, this.choose, this.choose_spec.1⟩
  refine iter_total (fun s => s ≤ f s ∧ s ≤ b) _ (fun s => (Finset.Icc s b).card) ?_ ⟨hfa, hab⟩
  rintro s ⟨hs, hsb⟩
  by_cases he : f s = s
  · exact Or.inr ⟨s, by simp [he], trivial⟩
  · refine Or.inl ⟨f s, by simp [he], ⟨hf hs, (hf hsb).trans hb⟩, ?_⟩
    have hlt : s < f s := lt_of_le_of_ne hs (Ne.symm he)
    exact Finset.card_lt_card (Finset.Icc_ssubset_Icc_left hsb hlt le_rfl)

end Settle

/-! ### Counting loops -/

lemma foldl_add (g : ℕ → ℕ) (a n : ℕ) :
    (List.range n).foldl (fun acc k => acc + g k) a = a + ∑ k ∈ Finset.range n, g k := by
  induction n with
  | zero => simp
  | succ n ih => rw [List.range_succ, List.foldl_append, ih, Finset.sum_range_succ]; simp; omega

/-- A flag that a counting loop only ever lowers. -/
lemma foldl_flag (c : ℕ → Bool) (n : ℕ) :
    (List.range n).foldl (fun ok i => if c i then ok else false) true =
      decide (∀ i < n, c i = true) := by
  induction n with
  | zero => simp
  | succ n ih =>
    rw [List.range_succ, List.foldl_append, ih, List.foldl_cons, List.foldl_nil, Bool.eq_iff_iff,
      decide_eq_true_eq, Nat.forall_lt_succ_right]
    cases hc : c n
    · simp
    · simp

/-! ### Steps in a row -/

section Steps

open Finset

/-- A value that changes at one step of a sequence only: what it is before and after. -/
lemma eq_of_steps {β : Type*} {n : ℕ} {f : Fin (n + 1) → β} {c : Fin n}
    (h : ∀ d, d ≠ c → f d.succ = f d.castSucc) :
    f c.castSucc = f 0 ∧ f (Fin.last n) = f c.succ := by
  have hall : ∀ i, (i ≤ c.castSucc → f i = f 0) ∧ (c.succ ≤ i → f i = f c.succ) := by
    intro i
    induction i using Fin.induction with
    | zero => exact ⟨fun _ => rfl, fun hle => absurd hle (by simp)⟩
    | succ d ih =>
      by_cases hd : d = c
      · subst hd
        exact ⟨fun hle => absurd hle (by simp), fun _ => rfl⟩
      · rw [h d hd]
        refine ⟨fun hle => ih.1 (Fin.castSucc_lt_succ.trans_le hle).le, fun hle => ih.2 ?_⟩
        rw [Fin.le_def] at hle ⊢
        have hne : (d : ℕ) ≠ c := fun he => hd (Fin.ext he)
        simp only [Fin.val_succ, Fin.val_castSucc] at hle ⊢
        omega
  exact ⟨(hall _).1 le_rfl, (hall _).2 (Fin.le_last _)⟩

/-- What holds of the first `a` calls and of the next `b`. -/
lemma forall_lt_add {R : ℕ → Prop} {a b : ℕ} (h : ∀ n < a, R n) (h' : ∀ i < b, R (a + i)) :
    ∀ n < a + b, R n := by
  intro n hn
  rcases Nat.lt_or_ge n a with hlt | hge
  · exact h n hlt
  · obtain ⟨i, rfl⟩ := Nat.exists_eq_add_of_le hge
    exact h' i (by omega)

/-- A counter that the steps with `P` raise by one, each at a value with `R`: how far it gets, and
that `R` holds on the way. -/
lemma counter_of_steps {n : ℕ} {f : Fin (n + 1) → ℕ} {P : Fin n → Prop} [DecidablePred P]
    {R : ℕ → Prop} (h : ∀ d, f d.succ = f d.castSucc + if P d then 1 else 0)
    (hR : ∀ d, P d → R (f d.castSucc)) :
    f (Fin.last n) = f 0 + #{d | P d} ∧ ∀ i < #{d | P d}, R (f 0 + i) := by
  rw [card_filter]
  induction n with
  | zero => simp
  | succ n ih =>
    obtain ⟨hlast, hall⟩ : f (Fin.last n).castSucc = f 0 + _ ∧ ∀ i < _, R (f 0 + i) :=
      ih (f := fun i => f i.castSucc) (P := fun d => P d.castSucc) (fun d => h d.castSucc)
        fun d => hR d.castSucc
    have hstep := h (Fin.last n)
    rw [Fin.succ_last] at hstep
    rw [Fin.sum_univ_castSucc, hstep, hlast, Nat.add_assoc]
    refine ⟨rfl, fun i hi => ?_⟩
    rcases Nat.lt_or_ge i (∑ d : Fin n, if P d.castSucc then 1 else 0) with hlt | hge
    · exact hall i hlt
    · by_cases hP : P (Fin.last n)
      · rw [if_pos hP] at hi
        rw [show i = ∑ d : Fin n, if P d.castSucc then 1 else 0 by omega, ← hlast]
        exact hR _ hP
      · rw [if_neg hP] at hi
        omega

end Steps

end Rtes.Loop
