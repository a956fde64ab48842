import Mathlib

/-!
Runs of a system that takes one action after another.

An action leads to one next state or cannot be taken. What every step keeps holds after
every run; what only the steps that meet a condition keep holds after the runs all of
whose steps meet it.
-/

namespace Rtes.Runs

variable {σ α : Type*} (step : σ → α → Option σ)

/-- The state after the actions `as`, if all of them can be taken. -/
def run (s : σ) (as : List α) : Option σ := as.foldlM step s

/-- Every step of the run `as` from `s` is taken in a state that meets `C`. -/
def Meets (C : σ → α → Prop) : σ → List α → Prop
  | _, [] => True
  | s, a :: as => C s a ∧ ∀ s', step s a = some s' → Meets C s' as

/-- Whether a run meets a condition can be evaluated. -/
instance decidableMeets (C : σ → α → Prop) [∀ s a, Decidable (C s a)] :
    ∀ s as, Decidable (Meets step C s as)
  | _, [] => isTrue trivial
  | s, a :: as =>
    match h : step s a with
    | none => decidable_of_iff (C s a) ⟨fun hC => ⟨hC, fun s' hs => by simp [h] at hs⟩, And.left⟩
    | some s' =>
      have := decidableMeets C s' as
      decidable_of_iff (C s a ∧ Meets step C s' as)
        ⟨fun hC => ⟨hC.1, fun t ht => Option.some.inj (h.symm.trans ht) ▸ hC.2⟩,
          fun hC => ⟨hC.1, hC.2 s' h⟩⟩

variable {step} {C : σ → α → Prop} {s s' : σ} {a : α} {as bs : List α}

@[simp] lemma run_nil : run step s [] = some s := rfl

lemma run_cons : run step s (a :: as) = some s' ↔
    ∃ s₁, step s a = some s₁ ∧ run step s₁ as = some s' := by
  simp [run, List.foldlM_cons, Option.bind_eq_some_iff]

lemma run_append : run step s (as ++ bs) = some s' ↔
    ∃ s₁, run step s as = some s₁ ∧ run step s₁ bs = some s' := by
  simp [run, List.foldlM_append, Option.bind_eq_some_iff]

/-- A run can be evaluated to see where it ends. -/
lemma exists_run_of_any {P : σ → Prop} [DecidablePred P]
    (h : (run step s as).any (fun t => decide (P t)) = true) :
    ∃ t, run step s as = some t ∧ P t := by
  simpa [Option.any_eq_true] using h

/-- **The invariant rule**, for the steps that meet `C`. -/
theorem run_inv_of_meets {I : σ → Prop}
    (hstep : ∀ s a s', I s → C s a → step s a = some s' → I s') (hs : I s)
    (hC : Meets step C s as) (hr : run step s as = some s') : I s' := by
  induction as generalizing s with
  | nil => exact Option.some.inj hr ▸ hs
  | cons a as ih =>
    obtain ⟨s₁, h₁, hr₁⟩ := run_cons.mp hr
    exact ih (hstep s a s₁ hs hC.1 h₁) (hC.2 s₁ h₁) hr₁

lemma meets_of_forall (h : ∀ a ∈ as, ∀ s, C s a) (s : σ) : Meets step C s as := by
  induction as generalizing s with
  | nil => trivial
  | cons a as ih =>
    exact ⟨h a (by simp) s, fun s' _ => ih (fun b hb => h b (by simp [hb])) s'⟩

lemma Meets.cons {s₁ : σ} (ha : C s a) (h₁ : step s a = some s₁) (h : Meets step C s₁ as) :
    Meets step C s (a :: as) :=
  ⟨ha, fun _ h₂ => Option.some.inj (h₁.symm.trans h₂) ▸ h⟩

/-- A condition on the actions alone. -/
lemma meets_iff_forall {D : α → Prop} (hr : run step s as = some s') :
    Meets step (fun _ a => D a) s as ↔ ∀ a ∈ as, D a := by
  refine ⟨fun h => ?_, fun h => meets_of_forall (fun a ha _ => h a ha) s⟩
  induction as generalizing s with
  | nil => simp
  | cons a as ih =>
    obtain ⟨s₁, h₁, hr₁⟩ := run_cons.mp hr
    exact List.forall_mem_cons.mpr ⟨h.1, ih hr₁ (h.2 s₁ h₁)⟩

/-- **The invariant rule.** -/
theorem run_inv {I : σ → Prop} (hstep : ∀ s a s', I s → step s a = some s' → I s') (hs : I s)
    (hr : run step s as = some s') : I s' :=
  run_inv_of_meets (C := fun _ _ => True) (fun s a s' h _ => hstep s a s' h) hs
    (meets_of_forall (fun _ _ _ => trivial) s) hr

/-- A condition that follows from an invariant is met by every step. -/
lemma meets_of_inv {I : σ → Prop} (hstep : ∀ s a s', I s → step s a = some s' → I s')
    (hC : ∀ s a, I s → C s a) (hs : I s) : Meets step C s as := by
  induction as generalizing s with
  | nil => trivial
  | cons a as ih => exact ⟨hC s a hs, fun s' h => ih (hstep s a s' hs h)⟩

/-- **The exact condition.** Where a step from a state with `J` leads to a state with `P` exactly
when it meets `C`, and then keeps `J`, all states of a run have `P` exactly when all its steps
meet `C`. -/
theorem forall_prefix_iff_meets {P J : σ → Prop} (hP : ∀ s, J s → P s)
    (hC : ∀ s a s', J s → step s a = some s' → (P s' ↔ C s a))
    (hJ : ∀ s a s', J s → C s a → step s a = some s' → J s') (hs : J s)
    (hr : run step s as = some s') :
    (∀ pre t, pre <+: as → run step s pre = some t → P t) ↔ Meets step C s as := by
  induction as generalizing s with
  | nil =>
    refine iff_of_true (fun pre t hpre ht => ?_) trivial
    rw [List.prefix_nil.mp hpre] at ht
    exact Option.some.inj ht ▸ hP s hs
  | cons a as ih =>
    obtain ⟨s₁, h₁, hr₁⟩ := run_cons.mp hr
    constructor
    · intro h
      have ha : C s a := (hC s a s₁ hs h₁).mp (h [a] s₁ (by simp) (run_cons.mpr ⟨s₁, h₁, rfl⟩))
      refine ⟨ha, fun s₂ h₂ => ?_⟩
      obtain rfl := Option.some.inj (h₁.symm.trans h₂)
      refine (ih (hJ s a s₁ hs ha h₁) hr₁).mp fun pre t hpre ht => ?_
      exact h (a :: pre) t (List.cons_prefix_cons.mpr ⟨rfl, hpre⟩) (run_cons.mpr ⟨s₁, h₁, ht⟩)
    · rintro ⟨ha, hrest⟩ pre t hpre ht
      cases pre with
      | nil => exact Option.some.inj ht ▸ hP s hs
      | cons b pre =>
        obtain ⟨rfl, hpre'⟩ := List.cons_prefix_cons.mp hpre
        obtain ⟨s₂, h₂, ht'⟩ := run_cons.mp ht
        obtain rfl := Option.some.inj (h₁.symm.trans h₂)
        exact (ih (hJ s b s₁ hs ha h₁) hr₁).mpr (hrest s₁ h₁) pre t hpre' ht'

/-- A run that does not meet `C` has a first step that breaks it. -/
lemma exists_of_not_meets (hC : ¬ Meets step C s as) (hr : run step s as = some s') :
    ∃ pre a post s₁ s₂, run step s pre = some s₁ ∧ ¬ C s₁ a ∧ step s₁ a = some s₂ ∧
      run step s₂ post = some s' := by
  induction as generalizing s with
  | nil => exact absurd trivial hC
  | cons a as ih =>
    obtain ⟨s₁, h₁, hr₁⟩ := run_cons.mp hr
    by_cases ha : C s a
    · have hC₁ : ¬ Meets step C s₁ as := fun h => hC (.cons ha h₁ h)
      obtain ⟨pre, b, post, t, t', hpre, hb, ht, hpost⟩ := ih hC₁ hr₁
      exact ⟨a :: pre, b, post, t, t', run_cons.mpr ⟨s₁, h₁, hpre⟩, hb, ht, hpost⟩
    · exact ⟨[], a, as, s, s₁, rfl, ha, h₁, hr₁⟩

end Rtes.Runs
