import Rtes.Loop

/-!
Numbered instructions, executed one after another until control leaves them.

A comparison leaves flags, and a condition reads them; for signed numbers the conditions mean
what their names say, also where the difference overflows. A loop is carried out by a machine
that gets from one head of it to the next in some steps; then the two return together, with
the same result, or both run for ever.
-/

namespace Rtes.Listing

open StateTransition Rtes.Loop

/-! ### Flags -/

/-- Negative, zero and overflow. -/
structure Flags where
  n : Bool
  z : Bool
  v : Bool

/-- The flags after `x - y`. -/
def Flags.compare {w : ℕ} (x y : BitVec w) : Flags := ⟨(x - y).msb, x - y == 0, x.ssubOverflow y⟩

inductive Cond
  | al
  | eq
  | ne
  | lt
  | le
  | gt
  | ge

def Flags.holds (f : Flags) : Cond → Bool
  | .al => true
  | .eq => f.z
  | .ne => !f.z
  | .lt => f.n != f.v
  | .le => f.z || f.n != f.v
  | .gt => !f.z && f.n == f.v
  | .ge => f.n == f.v

section Flags

variable {w : ℕ} (x y : BitVec w)

lemma sub_beq_zero : (x - y == 0) = decide (x = y) := by
  rw [Bool.eq_iff_iff, beq_iff_eq, decide_eq_true_eq]
  exact sub_eq_zero

/-- A difference of two numbers in range: where it overflows its sign is wrong. -/
lemma sign_bne_overflow {d : ℤ} {h : ℕ} (hlo : -(2 * h) < d) (hhi : d < 2 * h) :
    (decide (d.bmod (2 * h) < 0) != (decide (d ≥ h) || decide (d < -h))) = decide (d < 0) := by
  have hcast : ((2 * h : ℕ) : ℤ) = 2 * h := by push_cast; rfl
  rcases lt_or_ge d (-h) with hneg | hneg
  · have hm : d.bmod (2 * h) = d + 2 * h := by
      rw [← Int.add_bmod_right, hcast]
      exact Int.bmod_eq_of_le (by omega) (by omega)
    rw [hm, decide_eq_false (by omega), decide_eq_false (by omega), decide_eq_true hneg,
      decide_eq_true (by omega)]
    rfl
  · rcases lt_or_ge d h with hpos | hpos
    · have hm : d.bmod (2 * h) = d := Int.bmod_eq_of_le (by omega) (by omega)
      rw [hm, decide_eq_false (p := d ≥ h) (by omega), decide_eq_false (p := d < -h) (by omega),
        Bool.or_false, Bool.bne_false]
    · have hm : d.bmod (2 * h) = d - 2 * h := by
        rw [← Int.sub_bmod_right, hcast]
        exact Int.bmod_eq_of_le (by omega) (by omega)
      rw [hm, decide_eq_true (by omega), decide_eq_true hpos,
        decide_eq_false (p := d < 0) (by omega)]
      rfl

lemma msb_sub_bne : ((x - y).msb != x.ssubOverflow y) = x.slt y := by
  rcases w with _ | w
  · rw [BitVec.eq_nil x, BitVec.eq_nil y]
    rfl
  have hx := x.toInt_lt
  have hx' := x.le_toInt
  have hy := y.toInt_lt
  have hy' := y.le_toInt
  rw [Nat.add_sub_cancel] at hx hx' hy hy'
  have hd := sign_bne_overflow (d := x.toInt - y.toInt) (h := 2 ^ w) (by push_cast; omega)
    (by push_cast; omega)
  rw [BitVec.slt_eq_decide, BitVec.ssubOverflow, BitVec.msb_eq_toInt, BitVec.toInt_sub,
    pow_succ' 2 w]
  push_cast at hd
  rw [Nat.add_sub_cancel, hd]
  simp only [sub_neg]

@[simp] lemma holds_eq : (Flags.compare x y).holds .eq = decide (x = y) := sub_beq_zero x y

@[simp] lemma holds_ne : (Flags.compare x y).holds .ne = !decide (x = y) :=
  congrArg (!·) (sub_beq_zero x y)

@[simp] lemma holds_lt : (Flags.compare x y).holds .lt = x.slt y := msb_sub_bne x y

@[simp] lemma holds_ge : (Flags.compare x y).holds .ge = !x.slt y := by
  rw [← msb_sub_bne x y]
  simp [Flags.holds, Flags.compare, bne]

lemma slt_eq_not_or : (decide (x = y) || x.slt y) = !y.slt x := by
  rw [Bool.eq_iff_iff]
  simp only [Bool.or_eq_true, decide_eq_true_eq, BitVec.slt_iff_toInt_lt, Bool.not_eq_true',
    Bool.eq_false_iff, ne_eq, ← BitVec.toInt_inj]
  omega

@[simp] lemma holds_le : (Flags.compare x y).holds .le = !y.slt x := by
  rw [← slt_eq_not_or, ← msb_sub_bne x y, ← sub_beq_zero x y]
  rfl

@[simp] lemma holds_gt : (Flags.compare x y).holds .gt = y.slt x := by
  rw [← Bool.not_not (y.slt x), ← slt_eq_not_or, ← msb_sub_bne x y, ← sub_beq_zero x y]
  simp [Flags.holds, Flags.compare, bne]

end Flags

/-- Cells at different distances below one address. -/
lemma sub_ne {w : ℕ} {x j k : BitVec w} (h : j ≠ k) : x - j ≠ x - k := sub_right_injective.ne h

/-! ### Execution -/

section Run

variable {S : Type*} {f : S → Option S} {s s' t : S}

/-- Execute until there is no next state. -/
def run (f : S → Option S) (fuel : ℕ) (s : S) : Option S :=
  iter (fun s => some ((f s).elim (.inr s) .inl)) fuel s

lemma exists_run_iff : (∃ fuel, run f fuel s = some s') ↔ s' ∈ eval f s := by
  constructor
  · rintro ⟨fuel, h⟩
    refine iter_inv (Reaches f s) (· ∈ eval f s) (fun t t' ht hb => ?_) (fun t r ht hb => ?_)
      .refl h
    · cases hf : f t with
      | none => simp [hf] at hb
      | some u =>
        obtain rfl : u = t' := by simpa [hf] using hb
        exact ht.tail hf
    · cases hf : f t with
      | none =>
        obtain rfl : t = r := by simpa [hf] using hb
        exact mem_eval.mpr ⟨ht, hf⟩
      | some u => simp [hf] at hb
  · intro h
    obtain ⟨hreach, hend⟩ := mem_eval.mp h
    induction hreach using Relation.ReflTransGen.head_induction_on with
    | refl => exact ⟨1, iter_inr (by simp [hend]) 0⟩
    | head hstep _ ih =>
      have hstep : f _ = some _ := hstep
      obtain ⟨fuel, hfuel⟩ := ih (mem_eval.mpr ⟨‹_›, hend⟩)
      exact ⟨fuel + 1, (iter_inl (by simp [hstep]) fuel).trans hfuel⟩

/-- Some steps. -/
def steps (f : S → Option S) : ℕ → S → Option S
  | 0, s => some s
  | k + 1, s => (f s).bind (steps f k)

lemma reaches_of_steps {k : ℕ} (h : steps f k s = some s') : Reaches f s s' := by
  induction k generalizing s with
  | zero =>
    obtain rfl := Option.some.inj h
    exact .refl
  | succ k ih =>
    obtain ⟨t, ht, h⟩ := Option.bind_eq_some_iff.mp h
    exact .head ht (ih h)

lemma reaches₁_of_steps {k : ℕ} (h : steps f (k + 1) s = some s') : Reaches₁ f s s' := by
  obtain ⟨t, ht, h⟩ := Option.bind_eq_some_iff.mp h
  exact .head' ht (reaches_of_steps h)

/-- A machine that stops has one result. -/
lemma run_returns_iff {α : Type*} (hreach : Reaches f s t) (hend : f t = none) {out : S → α}
    {r : α} : (∃ t', (∃ fuel, run f fuel s = some t') ∧ out t' = r) ↔ r = out t := by
  simp only [exists_run_iff]
  have ht : t ∈ eval f s := mem_eval.mpr ⟨hreach, hend⟩
  constructor
  · rintro ⟨t', ht', rfl⟩
    rw [Part.mem_unique ht' ht]
  · rintro rfl
    exact ⟨t, ht, rfl⟩

end Run

/-! ### Loops carried out by a machine -/

section Carries

variable {σ ρ S : Type*} {f : S → Option S} {turn : σ → σ ⊕ ρ} {Head : σ → S → Prop}
  {Exit : ρ → S → Prop}

/-- From one head of the loop to the next, or out of it. -/
structure Carries (f : S → Option S) (turn : σ → σ ⊕ ρ) (Head : σ → S → Prop)
    (Exit : ρ → S → Prop) : Prop where
  again : ∀ s s' t, Head s t → turn s = .inl s' → ∃ t', Head s' t' ∧ Reaches₁ f t t'
  exit : ∀ s r t, Head s t → turn s = .inr r → ∃ t', Exit r t' ∧ Reaches₁ f t t'

/-- **A loop that returns** takes the machine to its exit. -/
theorem Carries.reaches (h : Carries f turn Head Exit) {fuel : ℕ} {s : σ} {r : ρ} {t : S}
    (ht : Head s t) (hr : iter (fun s => some (turn s)) fuel s = some r) :
    ∃ t', Exit r t' ∧ Reaches f t t' := by
  induction fuel generalizing s t with
  | zero => cases hr
  | succ fuel ih =>
    cases hs : turn s with
    | inl s' =>
      rw [iter_inl (by rw [hs])] at hr
      obtain ⟨t', ht', hreach⟩ := h.again s s' t ht hs
      obtain ⟨u, hu, hreach'⟩ := ih ht' hr
      exact ⟨u, hu, hreach.to_reflTransGen.trans hreach'⟩
    | inr r' =>
      rw [iter_inr (by rw [hs])] at hr
      obtain rfl := Option.some.inj hr
      obtain ⟨t', ht', hreach⟩ := h.exit s r' t ht hs
      exact ⟨t', ht', hreach.to_reflTransGen⟩

/-- The loop as a machine of its own, which stops with the result. -/
def turns (turn : σ → σ ⊕ ρ) : σ ⊕ ρ → Option (σ ⊕ ρ)
  | .inl s => some (turn s)
  | .inr _ => none

lemma returns_of_reaches {s : σ} {r : ρ} (h : Reaches (turns turn) (.inl s) (.inr r)) :
    ∃ fuel, iter (fun s => some (turn s)) fuel s = some r := by
  suffices ∀ x, Reaches (turns turn) x (.inr r) →
      ∀ s, x = .inl s → ∃ fuel, iter (fun s => some (turn s)) fuel s = some r from this _ h s rfl
  intro x hx
  induction hx using Relation.ReflTransGen.head_induction_on with
  | refl => intro s hs; cases hs
  | @head x y hstep hrest ih =>
    rintro s rfl
    have hy : turn s = y := Option.some.inj hstep
    cases y with
    | inl s' =>
      obtain ⟨fuel, hfuel⟩ := ih s' rfl
      exact ⟨fuel + 1, (iter_inl (by rw [hy]) fuel).trans hfuel⟩
    | inr r' =>
      -- nothing follows a result
      rcases hrest.cases_head with heq | ⟨_, hnext, -⟩
      · exact ⟨1, (iter_inr (by rw [hy]) 0).trans (by rw [Sum.inr.inj heq])⟩
      · cases hnext

lemma Carries.respects (h : Carries f turn Head Exit) (hstop : ∀ r t, Exit r t → f t = none) :
    Respects (turns turn) f (Sum.elim Head Exit) := by
  rintro (s | r) t ht
  · cases hs : turn s with
    | inl s' => simpa [turns, hs] using h.again s s' t ht hs
    | inr r => simpa [turns, hs] using h.exit s r t ht hs
  · exact hstop r t ht

/-- **The loop and the machine return together**, where the machine stops at the exit. -/
theorem Carries.returns_iff (h : Carries f turn Head Exit) (hstop : ∀ r t, Exit r t → f t = none)
    {s : σ} {t₀ t : S} (hreach : Reaches f t₀ t) (ht : Head s t) {out : S → ρ}
    (hout : ∀ r t, Exit r t → out t = r) {r : ρ} :
    (∃ t', (∃ fuel, run f fuel t₀ = some t') ∧ out t' = r) ↔
      ∃ fuel, iter (fun s => some (turn s)) fuel s = some r := by
  simp only [exists_run_iff, reaches_eval hreach]
  constructor
  · rintro ⟨t', hmem, rfl⟩
    have hhead : Sum.elim Head Exit (.inl s) t := ht
    obtain ⟨x, hx, hxmem⟩ := tr_eval_rev (h.respects hstop) hhead hmem
    obtain ⟨hreach, hend⟩ := mem_eval.mp hxmem
    cases x with
    | inl s' => cases hend
    | inr r' =>
      rw [hout r' t' hx]
      exact returns_of_reaches hreach
  · rintro ⟨fuel, hr⟩
    obtain ⟨t', ht', hreach⟩ := h.reaches ht hr
    exact ⟨t', mem_eval.mpr ⟨hreach, hstop r t' ht'⟩, hout r t' ht'⟩

end Carries

end Rtes.Listing
