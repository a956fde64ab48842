import Mathlib

/-!
Words stored into arrays, and a machine that executes them.

A generator is the list of the stores it makes. The machine is a partial step function with
output; a path is an execution all of whose steps are taken in a state that meets a
condition. Code laid out one instruction after the other is executed in that order.
-/

namespace Rtes.Machine

/-! ### Stores -/

section Stores

variable {κ γ : Type*}

structure Store (κ γ : Type*) where
  array : κ
  idx : ℕ
  cell : γ

/-- One of the stores goes to this element. -/
def Written (sts : List (Store κ γ)) (a : κ) (x : ℕ) : Prop :=
  ∃ st ∈ sts, st.array = a ∧ st.idx = x

/-- The cells `cs` stored from `base` on. -/
def emit (a : κ) : ℕ → List γ → List (Store κ γ)
  | _, [] => []
  | base, c :: cs => ⟨a, base, c⟩ :: emit a (base + 1) cs

/-- The cells `cs` are in memory from `base` on. -/
def Holds (mem : ℕ → γ) (base : ℕ) (cs : List γ) : Prop :=
  ∀ k c, cs[k]? = some c → mem (base + k) = c

variable {a : κ} {x base : ℕ} {cs ds : List γ}

lemma emit_append : emit a base (cs ++ ds) = emit a base cs ++ emit a (base + cs.length) ds := by
  induction cs generalizing base with
  | nil => simp [emit]
  | cons c cs ih =>
    simp only [List.cons_append, emit, ih, List.length_cons]
    congr 3
    omega

/-- Blocks of one length. -/
lemma emit_flatMap_range {f : ℕ → List γ} {len : ℕ} (hf : ∀ i, (f i).length = len) (n : ℕ) :
    emit a base ((List.range n).flatMap f) =
      (List.range n).flatMap fun i => emit a (base + len * i) (f i) := by
  induction n with
  | zero => rfl
  | succ n ih =>
    have hlen : ((List.range n).flatMap f).length = len * n := by
      simp [List.length_flatMap, hf, Nat.mul_comm]
    simp only [List.range_succ, List.flatMap_append, emit_append, ih, hlen,
      List.flatMap_singleton]

lemma mem_emit {st : Store κ γ} :
    st ∈ emit a base cs ↔ ∃ k, st.array = a ∧ st.idx = base + k ∧ cs[k]? = some st.cell := by
  induction cs generalizing base with
  | nil => simp [emit]
  | cons c cs ih =>
    rw [emit, List.mem_cons, ih]
    constructor
    · rintro (rfl | ⟨k, ha, hx, hc⟩)
      · exact ⟨0, rfl, rfl, rfl⟩
      · exact ⟨k + 1, ha, by omega, by simpa using hc⟩
    · rintro ⟨k, ha, hx, hc⟩
      cases k with
      | zero =>
        refine Or.inl ?_
        obtain ⟨a', x', c'⟩ := st
        obtain rfl : a' = a := ha
        obtain rfl : x' = base := hx
        obtain rfl : c = c' := by simpa using hc
        rfl
      | succ k => exact Or.inr ⟨k, ha, by omega, by simpa using hc⟩

lemma written_emit : Written (emit a base cs) a x ↔ base ≤ x ∧ x < base + cs.length := by
  constructor
  · rintro ⟨st, hst, -, rfl⟩
    obtain ⟨k, -, hx, hc⟩ := mem_emit.mp hst
    have hk : k < cs.length := (List.getElem?_eq_some_iff.mp hc).1
    omega
  · rintro ⟨hb, hx⟩
    have hk : x - base < cs.length := by omega
    exact ⟨⟨a, x, cs[x - base]⟩, mem_emit.mpr ⟨x - base, rfl, by simp; omega, by simp [hk]⟩,
      rfl, rfl⟩

lemma holds_append {mem : ℕ → γ} :
    Holds mem base (cs ++ ds) ↔ Holds mem base cs ∧ Holds mem (base + cs.length) ds := by
  constructor
  · intro h
    constructor
    · intro k c hc
      have hk : k < cs.length := (List.getElem?_eq_some_iff.mp hc).1
      exact h k c (by rw [List.getElem?_append_left hk]; exact hc)
    · intro k c hc
      have := h (cs.length + k) c (by rw [List.getElem?_append_right (by omega)]; simpa using hc)
      rwa [← Nat.add_assoc] at this
  · rintro ⟨h₁, h₂⟩ k c hc
    rcases Nat.lt_or_ge k cs.length with hk | hk
    · rw [List.getElem?_append_left hk] at hc
      exact h₁ k c hc
    · rw [List.getElem?_append_right hk] at hc
      have := h₂ _ c hc
      rwa [Nat.add_assoc, Nat.add_sub_cancel' hk] at this

variable [DecidableEq κ]

def put (mem : κ → ℕ → γ) (st : Store κ γ) : κ → ℕ → γ :=
  Function.update mem st.array (Function.update (mem st.array) st.idx st.cell)

/-- The arrays after the stores `sts`, from the contents `prior`. -/
def after (prior : κ → ℕ → γ) (sts : List (Store κ γ)) : κ → ℕ → γ := sts.foldl put prior

variable {sts : List (Store κ γ)}

lemma put_same (mem : κ → ℕ → γ) (st : Store κ γ) : put mem st st.array st.idx = st.cell := by
  simp [put]

lemma put_of_ne (mem : κ → ℕ → γ) {st : Store κ γ} (h : ¬ (st.array = a ∧ st.idx = x)) :
    put mem st a x = mem a x := by
  unfold put
  rcases eq_or_ne a st.array with rfl | ha
  · have hx : x ≠ st.idx := fun hx => h ⟨rfl, hx.symm⟩
    rw [Function.update_self, Function.update_of_ne hx]
  · rw [Function.update_of_ne ha]

/-- What is read back was stored there. -/
lemma Written.exists_store (prior : κ → ℕ → γ) (h : Written sts a x) :
    ∃ st ∈ sts, st.array = a ∧ st.idx = x ∧ after prior sts a x = st.cell := by
  induction sts using List.reverseRecOn with
  | nil => obtain ⟨st, hst, -⟩ := h; exact absurd hst List.not_mem_nil
  | append_singleton sts st ih =>
    have hafter : after prior (sts ++ [st]) = put (after prior sts) st := by simp [after]
    by_cases hst : st.array = a ∧ st.idx = x
    · obtain ⟨rfl, rfl⟩ := hst
      exact ⟨st, by simp, rfl, rfl, by rw [hafter, put_same]⟩
    · obtain ⟨st', hmem, ha, hx⟩ := h
      have hne : st' ≠ st := by rintro rfl; exact hst ⟨ha, hx⟩
      have hmem' : st' ∈ sts := by simpa [hne] using hmem
      obtain ⟨st'', h₁, h₂, h₃, h₄⟩ := ih ⟨st', hmem', ha, hx⟩
      exact ⟨st'', by simp [h₁], h₂, h₃, by rw [hafter, put_of_ne _ hst, h₄]⟩

lemma holds_emit (prior : κ → ℕ → γ) (a : κ) (base : ℕ) (cs : List γ) :
    Holds (after prior (emit a base cs) a) base cs := by
  intro k c hc
  have hk : k < cs.length := (List.getElem?_eq_some_iff.mp hc).1
  have hw : Written (emit a base cs) a (base + k) := written_emit.mpr (by omega)
  obtain ⟨st, hst, -, hx, hcell⟩ := hw.exists_store prior
  obtain ⟨k', -, hx', hc'⟩ := mem_emit.mp hst
  obtain rfl : k' = k := by omega
  rw [hcell]
  exact Option.some.inj (hc'.symm.trans hc)

end Stores

/-! ### Execution -/

section Execution

variable {σ ε : Type*}

/-- `n` steps from one state to another, each taken in a state that meets `P`, with the
output on the way. -/
inductive Path (step : σ → Option (List ε × σ)) (P : σ → Prop) :
    ℕ → σ → List ε → σ → Prop
  | nil (s : σ) : Path step P 0 s [] s
  | cons {n : ℕ} {s s₁ s' : σ} {e es : List ε} (hP : P s) (hs : step s = some (e, s₁))
      (hrest : Path step P n s₁ es s') : Path step P (n + 1) s (e ++ es) s'

variable {step : σ → Option (List ε × σ)} {P : σ → Prop} {n m : ℕ} {s s₁ s' : σ}
  {es es' : List ε}

lemma Path.append (h : Path step P n s es s₁) (h' : Path step P m s₁ es' s') :
    Path step P (n + m) s (es ++ es') s' := by
  induction h with
  | nil => simpa using h'
  | cons hP hs _ ih =>
    rw [List.append_assoc, Nat.add_right_comm]
    exact .cons hP hs (ih h')

lemma Path.mono {P' : σ → Prop} (hP : ∀ s, P s → P' s) (h : Path step P n s es s') :
    Path step P' n s es s' := by
  induction h with
  | nil => exact .nil _
  | cons h hs _ ih => exact .cons (hP _ h) hs ih

/-- What each step establishes holds at the end of a path that has a step. -/
lemma Path.last {Q : σ → Prop} (hQ : ∀ s e s', P s → step s = some (e, s') → Q s')
    (h : Path step P n s es s') (hn : 0 < n) : Q s' := by
  induction h with
  | nil => exact absurd hn (lt_irrefl 0)
  | @cons n s s₁ s' e es hP hs hrest ih =>
    rcases Nat.eq_zero_or_pos n with rfl | hpos
    · cases hrest
      exact hQ _ _ _ hP hs
    · exact ih hpos

/-- **Straight-line code**: if the machine executes each instruction where it stands, then it
executes a list of them laid out in memory. -/
theorem Path.line {γ ι : Type*} {mem : ℕ → γ} {encode : ι → List γ} {out : ι → List ε}
    (pc : ℕ → σ) {is : List ι} {base limit : ℕ}
    (hstep : ∀ i ∈ is, ∀ b, Holds mem b (encode i) → b + (encode i).length ≤ limit →
      P (pc b) ∧ step (pc b) = some (out i, pc (b + (encode i).length)))
    (hmem : Holds mem base (is.flatMap encode))
    (hlimit : base + (is.flatMap encode).length ≤ limit) :
    Path step P is.length (pc base) (is.flatMap out)
      (pc (base + (is.flatMap encode).length)) := by
  induction is generalizing base with
  | nil => exact .nil _
  | cons i is ih =>
    rw [List.flatMap_cons] at hmem hlimit ⊢
    rw [List.flatMap_cons, List.length_append, ← Nat.add_assoc]
    rw [List.length_append] at hlimit
    obtain ⟨hi, hrest⟩ := holds_append.mp hmem
    obtain ⟨hP, hs⟩ := hstep i (by simp) base hi (by omega)
    exact .cons hP hs (ih (fun j hj => hstep j (by simp [hj])) hrest (by omega))

end Execution

end Rtes.Machine
