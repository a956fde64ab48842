import Rtes.Runs

/-!
Threads that take mutexes and update a counter under each.

A thread is at a point of its code, and its next instruction may depend on what a call
returned. A plain lock waits until the mutex is free; a load and a store of a counter are two
instructions. A `Discipline` says at each point which mutexes a thread holds and where it has
left their counters. If every instruction respects it, it tells in every reachable state who
owns what and what the counters are, and no state is stuck in which only threads that hold
nothing wait.
-/

namespace Rtes.Mutex

open Rtes.Runs Function

variable {ι L P R : Type*}

/-- An instruction and the point it leads to. -/
inductive Instr (L P : Type*)
  | skip (p : P)
  | lock (l : L) (p : P)
  | unlock (l : L) (p : P)
  | load (l : L) (k : ℤ → P)
  | store (l : L) (v : ℤ) (p : P)

/-- The instruction never blocks. -/
def Instr.Free : Instr L P → Prop
  | .lock _ _ => False
  | _ => True

structure State (ι L P : Type*) where
  pc : ι → P
  owner : L → Option ι
  cnt : L → ℤ

/-- The code: the instruction of a thread at a point, by what the call there returns. -/
abbrev Code (ι L P R : Type*) := ι → P → R → Option (Instr L P)

def init (start : P) : State ι L P := ⟨fun _ => start, fun _ => none, fun _ => 0⟩

section Steps

variable [DecidableEq ι] [DecidableEq L]

/-- One instruction of thread `t`, if it does not block. -/
def exec (s : State ι L P) (t : ι) : Instr L P → Option (State ι L P)
  | .skip p => some { s with pc := update s.pc t p }
  | .lock l p =>
    if s.owner l = none then
      some { s with pc := update s.pc t p, owner := update s.owner l (some t) }
    else none
  | .unlock l p => some { s with pc := update s.pc t p, owner := update s.owner l none }
  | .load l k => some { s with pc := update s.pc t (k (s.cnt l)) }
  | .store l v p => some { s with pc := update s.pc t p, cnt := update s.cnt l v }

lemma exec_of_free (s : State ι L P) (t : ι) {i : Instr L P} (h : i.Free) :
    ∃ s', exec s t i = some s' := by
  cases i with
  | lock l p => exact h.elim
  | _ => exact ⟨_, rfl⟩

/-- Thread `a.1` goes on, with what its call returns. -/
def step (c : Code ι L P R) (s : State ι L P) (a : ι × R) : Option (State ι L P) :=
  (c a.1 (s.pc a.1) a.2).bind (exec s a.1)

/-- What the threads hold at each point, and where they have left the counters. -/
structure Discipline (ι L P : Type*) where
  valid : ι → P → Prop
  holds : ι → P → L → Prop
  count : ι → P → L → ℤ

namespace Discipline

variable (D : Discipline ι L P)

/-- An instruction of thread `t` at `p` respects the discipline. -/
def Respects (t : ι) (p : P) : Instr L P → Prop
  | .skip p' => D.valid t p' ∧ D.holds t p' = D.holds t p ∧ D.count t p' = D.count t p
  | .lock l p' => D.valid t p' ∧ D.holds t p' = update (D.holds t p) l True ∧
      D.count t p' = update (D.count t p) l 0
  | .unlock l p' => D.valid t p' ∧ D.holds t p l ∧ D.count t p l = 0 ∧
      D.holds t p' = update (D.holds t p) l False ∧ D.count t p' = D.count t p
  | .load l k => D.valid t (k (D.count t p l)) ∧ D.holds t p l ∧
      D.holds t (k (D.count t p l)) = D.holds t p ∧ D.count t (k (D.count t p l)) = D.count t p
  | .store l v p' => D.valid t p' ∧ D.holds t p l ∧ D.holds t p' = D.holds t p ∧
      D.count t p' = update (D.count t p) l v

/-- The state is as the discipline says. -/
structure Obeyed (s : State ι L P) : Prop where
  valid : ∀ t, D.valid t (s.pc t)
  owner : ∀ l t, s.owner l = some t ↔ D.holds t (s.pc t) l
  free : ∀ l, s.owner l = none → s.cnt l = 0
  count : ∀ l t, s.owner l = some t → s.cnt l = D.count t (s.pc t) l

variable {D}

omit [DecidableEq ι] [DecidableEq L] in
lemma obeyed_init {start : P} (hv : ∀ t, D.valid t start) (hh : ∀ t l, ¬ D.holds t start l) :
    D.Obeyed (init start) :=
  ⟨hv, fun l t => iff_of_false (by simp [init]) (hh t l), fun _ _ => rfl,
    fun l t h => by simp [init] at h⟩

variable {s s' : State ι L P} {t : ι}

omit [DecidableEq L] in
/-- What is to be seen of the thread that moves, and of the others. -/
lemma Obeyed.move (h : D.Obeyed s) {p : P} {owner : L → Option ι} {cnt : L → ℤ}
    (hv : D.valid t p) (hown : ∀ l, owner l = some t ↔ D.holds t p l)
    (hoth : ∀ l u, u ≠ t → (owner l = some u ↔ s.owner l = some u))
    (hfree : ∀ l, owner l = none → cnt l = 0)
    (hcnt : ∀ l, owner l = some t → cnt l = D.count t p l)
    (hsame : ∀ l u, u ≠ t → s.owner l = some u → cnt l = s.cnt l) :
    D.Obeyed ⟨update s.pc t p, owner, cnt⟩ := by
  refine ⟨fun u => ?_, fun l u => ?_, hfree, fun l u hu => ?_⟩
  · by_cases hut : u = t
    · subst hut
      simpa using hv
    · simpa [hut] using h.valid u
  · by_cases hut : u = t
    · subst hut
      simpa using hown l
    · simpa [hut, hoth l u hut] using h.owner l u
  · by_cases hut : u = t
    · subst hut
      simpa using hcnt l hu
    · have hu' := (hoth l u hut).mp hu
      have := (hsame l u hut hu').trans (h.count l u hu')
      simpa [hut] using this

omit [DecidableEq ι] [DecidableEq L] in
/-- A mutex that thread `t` holds is held by nobody else. -/
lemma Obeyed.exclusive (h : D.Obeyed s) {l : L} (hl : D.holds t (s.pc t) l) {u : ι}
    (hu : s.owner l = some u) : u = t := by
  have ht := (h.owner l t).mpr hl
  rw [ht] at hu
  exact (Option.some.inj hu).symm

lemma Obeyed.exec (h : D.Obeyed s) {i : Instr L P} (hi : D.Respects t (s.pc t) i)
    (hs : exec s t i = some s') : D.Obeyed s' := by
  cases i with
  | skip p =>
    obtain rfl := Option.some.inj hs
    obtain ⟨hv, hh, hc⟩ := hi
    refine h.move hv (fun l => ?_) (fun _ _ _ => Iff.rfl) h.free (fun l hl => ?_) fun _ _ _ _ => rfl
    · rw [hh]
      exact h.owner l t
    · rw [hc]
      exact h.count l t hl
  | lock l p =>
    obtain ⟨hv, hh, hc⟩ := hi
    simp only [Mutex.exec] at hs
    split_ifs at hs with hfree
    obtain rfl := Option.some.inj hs
    refine h.move hv (fun m => ?_) (fun m u hu => ?_) (fun m hm => ?_) (fun m hm => ?_)
      fun _ _ _ _ => rfl
    · rw [hh]
      by_cases hm : m = l
      · simp [hm]
      · simpa [hm] using h.owner m t
    · by_cases hm : m = l
      · simp [hm, hfree, Ne.symm hu]
      · simp [hm]
    · by_cases hml : m = l
      · simp [hml] at hm
      · exact h.free m (by simpa [hml] using hm)
    · rw [hc]
      by_cases hml : m = l
      · simpa [hml] using h.free l hfree
      · simpa [hml] using h.count m t (by simpa [hml] using hm)
  | unlock l p =>
    obtain ⟨hv, hl, hzero, hh, hc⟩ := hi
    obtain rfl := Option.some.inj hs
    have hown := (h.owner l t).mpr hl
    refine h.move hv (fun m => ?_) (fun m u hu => ?_) (fun m hm => ?_) (fun m hm => ?_)
      fun _ _ _ _ => rfl
    · rw [hh]
      by_cases hm : m = l
      · simp [hm]
      · simpa [hm] using h.owner m t
    · by_cases hm : m = l
      · simp [hm, hown, Ne.symm hu]
      · simp [hm]
    · by_cases hml : m = l
      · rw [hml, h.count l t hown, hzero]
      · exact h.free m (by simpa [hml] using hm)
    · rw [hc]
      by_cases hml : m = l
      · simp [hml] at hm
      · exact h.count m t (by simpa [hml] using hm)
  | load l k =>
    obtain ⟨hv, hl, hh, hc⟩ := hi
    obtain rfl := Option.some.inj hs
    -- nobody else has touched the counter
    rw [← h.count l t ((h.owner l t).mpr hl)] at hv hh hc
    refine h.move hv (fun m => ?_) (fun _ _ _ => Iff.rfl) h.free (fun m hm => ?_) fun _ _ _ _ => rfl
    · rw [hh]
      exact h.owner m t
    · rw [hc]
      exact h.count m t hm
  | store l v p =>
    obtain ⟨hv, hl, hh, hc⟩ := hi
    obtain rfl := Option.some.inj hs
    have hown := (h.owner l t).mpr hl
    refine h.move hv (fun m => ?_) (fun _ _ _ => Iff.rfl) (fun m hm => ?_) (fun m hm => ?_)
      fun m u hu hm => ?_
    · rw [hh]
      exact h.owner m t
    · have hml : m ≠ l := fun he => by simp [he, hown] at hm
      simpa [hml] using h.free m hm
    · rw [hc]
      by_cases hml : m = l
      · simp [hml]
      · simpa [hml] using h.count m t hm
    · have hml : m ≠ l := fun he => hu (h.exclusive (he ▸ hl) hm)
      simp [hml]

lemma Obeyed.step {c : Code ι L P R}
    (hc : ∀ t p r i, D.valid t p → c t p r = some i → D.Respects t p i) {a : ι × R}
    (h : D.Obeyed s) (hs : step c s a = some s') : D.Obeyed s' := by
  obtain ⟨i, hi, hex⟩ := Option.bind_eq_some_iff.mp hs
  exact h.exec (hc _ _ _ _ (h.valid a.1) hi) hex

/-- **Every reachable state is as the discipline says.** -/
theorem obeyed_run {c : Code ι L P R}
    (hc : ∀ t p r i, D.valid t p → c t p r = some i → D.Respects t p i) (start : P)
    (hv : ∀ t, D.valid t start) (hh : ∀ t l, ¬ D.holds t start l) {as : List (ι × R)}
    (hr : run (Mutex.step c) (init start) as = some s) : D.Obeyed s :=
  run_inv (fun _ _ _ h hs => h.step hc hs) (obeyed_init hv hh) hr

/-- **No state is stuck** before the threads are at their ends, if a thread that holds
something can always go on. Of the results `good` are those to count on. -/
theorem Obeyed.not_stuck (h : D.Obeyed s) {c : Code ι L P R} (good : R → Prop)
    (hfree : ∀ t p, D.valid t p → (∃ l, D.holds t p l) →
      ∃ r i, good r ∧ c t p r = some i ∧ i.Free)
    (hnext : ∃ r i, good r ∧ c t (s.pc t) r = some i) :
    ∃ a s', good a.2 ∧ Mutex.step c s a = some s' := by
  -- a thread at an instruction that does not block
  have hgo : ∀ u r i, good r → c u (s.pc u) r = some i → i.Free →
      ∃ a s', good a.2 ∧ Mutex.step c s a = some s' := by
    intro u r i hr hi hf
    obtain ⟨s', hs'⟩ := exec_of_free s u hf
    exact ⟨(u, r), s', hr, Option.bind_eq_some_iff.mpr ⟨i, hi, hs'⟩⟩
  obtain ⟨r, i, hr, hi⟩ := hnext
  cases i with
  | lock l p =>
    cases ho : s.owner l with
    | none => exact ⟨(t, r), _, hr, Option.bind_eq_some_iff.mpr ⟨_, hi, if_pos ho⟩⟩
    | some u =>
      obtain ⟨r', i', hr', hi', hf⟩ := hfree u (s.pc u) (h.valid u) ⟨l, (h.owner l u).mp ho⟩
      exact hgo u r' i' hr' hi' hf
  | skip p => exact hgo t r _ hr hi trivial
  | unlock l p => exact hgo t r _ hr hi trivial
  | load l k => exact hgo t r _ hr hi trivial
  | store l v p => exact hgo t r _ hr hi trivial

end Discipline

end Steps

end Rtes.Mutex
