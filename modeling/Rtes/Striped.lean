import Mathlib

/-!
Threads that update shared cells under striped locks.

Each thread runs a local control that gives it one operation after another. An operation
waits for the semaphore of its cell, reads the cell, writes it back changed, and posts the
semaphore; cells share semaphores. Threads interleave at each of these steps. Every run is
equivalent to one in which the operations happen whole, one after another, in the order of
their writes, and no run gets stuck.
-/

namespace Rtes.Striped

variable {T S O K V L : Type*}

/-- The code of the threads: `next` is the local control, an operation `o` rewrites the cell
`cell o` by `act o`, and `lock` gives the semaphore of a cell. -/
structure Code (S O K V L : Type*) where
  next : S → Option (O × S)
  cell : O → K
  act : O → V → V
  lock : K → L

/-- Where a thread is. -/
inductive Pc (S O V : Type*)
  | idle (l : S)
  | wait (o : O) (l : S)
  | read (o : O) (l : S)
  | write (o : O) (v : V) (l : S)
  | post (o : O) (l : S)
  | done

structure State (T S O K V L : Type*) where
  mem : K → V
  sem : L → ℕ
  pc : T → Pc S O V

/-! ### Semaphores as locks -/

/-- Each semaphore is `1` and held by nobody, or `0` and held by one thread. -/
def Locked (sem : L → ℕ) (held : T → Option L) : Prop :=
  ∀ x, (sem x = 1 ∧ ∀ t, held t ≠ some x) ∨ (sem x = 0 ∧ ∃ t, ∀ u, held u = some x ↔ u = t)

section Locks

variable {sem : L → ℕ} {held : T → Option L} {t : T} {x : L}

lemma Locked.exclusive (h : Locked sem held) {u : T} (ht : held t = some x) (hu : held u = some x) :
    t = u := by
  rcases h x with ⟨-, hfree⟩ | ⟨-, w, hw⟩
  · exact absurd ht (hfree t)
  · rw [(hw t).mp ht, (hw u).mp hu]

variable [DecidableEq T] [DecidableEq L]

lemma Locked.acquire (h : Locked sem held) (ht : held t = none) (hx : 0 < sem x) :
    Locked (Function.update sem x (sem x - 1)) (Function.update held t (some x)) := by
  intro y
  by_cases hy : y = x
  · subst hy
    rcases h y with ⟨h1, hfree⟩ | ⟨h0, -⟩
    · refine Or.inr ⟨by simp [h1], t, fun u => ?_⟩
      by_cases hu : u = t
      · simp [hu]
      · simp [hu, hfree u]
    · omega
  · have hheld : ∀ u, Function.update held t (some x) u = some y ↔ held u = some y := by
      intro u
      by_cases hu : u = t
      · subst hu
        simp [ht, Ne.symm hy]
      · simp [hu]
    simp only [Function.update_of_ne hy, hheld, ne_eq]
    exact h y

lemma Locked.release (h : Locked sem held) (ht : held t = some x) :
    Locked (Function.update sem x (sem x + 1)) (Function.update held t none) := by
  intro y
  by_cases hy : y = x
  · subst hy
    rcases h y with ⟨-, hfree⟩ | ⟨h0, w, hw⟩
    · exact absurd ht (hfree t)
    · refine Or.inl ⟨by simp [h0], fun u => ?_⟩
      by_cases hu : u = t
      · simp [hu]
      · rw [Function.update_of_ne hu, Ne, hw, ← (hw t).mp ht]
        exact hu
  · have hheld : ∀ u, Function.update held t none u = some y ↔ held u = some y := by
      intro u
      by_cases hu : u = t
      · subst hu
        simp [ht, Ne.symm hy]
      · simp [hu]
    simp only [Function.update_of_ne hy, hheld, ne_eq]
    exact h y

end Locks

/-! ### Steps -/

section Steps

variable [DecidableEq T] [DecidableEq K] [DecidableEq L] (c : Code S O K V L)

/-- An operation done whole. -/
def Code.apply (m : K → V) (o : O) : K → V :=
  Function.update m (c.cell o) (c.act o (m (c.cell o)))

/-- The next step of thread `t`, if it is not blocked and not done. -/
def step (s : State T S O K V L) (t : T) : Option (State T S O K V L) :=
  match s.pc t with
  | .idle l =>
    match c.next l with
    | none => some { s with pc := Function.update s.pc t .done }
    | some (o, l') => some { s with pc := Function.update s.pc t (.wait o l') }
  | .wait o l =>
    if 0 < s.sem (c.lock (c.cell o)) then
      some { s with
        sem := Function.update s.sem (c.lock (c.cell o)) (s.sem (c.lock (c.cell o)) - 1)
        pc := Function.update s.pc t (.read o l) }
    else none
  | .read o l => some { s with pc := Function.update s.pc t (.write o (s.mem (c.cell o)) l) }
  | .write o v l =>
    some { s with
      mem := Function.update s.mem (c.cell o) (c.act o v)
      pc := Function.update s.pc t (.post o l) }
  | .post o l =>
    some { s with
      sem := Function.update s.sem (c.lock (c.cell o)) (s.sem (c.lock (c.cell o)) + 1)
      pc := Function.update s.pc t (.idle l) }
  | .done => none

/-- A run under a schedule: the thread that takes each step. -/
def run (s : State T S O K V L) (sched : List T) : Option (State T S O K V L) :=
  sched.foldlM (step c) s

/-- What one step of thread `t` can do. -/
inductive Moves (s : State T S O K V L) (t : T) : State T S O K V L → Prop
  | exit {l : S} (hpc : s.pc t = .idle l) (hn : c.next l = none) :
      Moves s t { s with pc := Function.update s.pc t .done }
  | test {l l' : S} {o : O} (hpc : s.pc t = .idle l) (hn : c.next l = some (o, l')) :
      Moves s t { s with pc := Function.update s.pc t (.wait o l') }
  | wait {o : O} {l : S} (hpc : s.pc t = .wait o l) (hsem : 0 < s.sem (c.lock (c.cell o))) :
      Moves s t { s with
        sem := Function.update s.sem (c.lock (c.cell o)) (s.sem (c.lock (c.cell o)) - 1)
        pc := Function.update s.pc t (.read o l) }
  | read {o : O} {l : S} (hpc : s.pc t = .read o l) :
      Moves s t { s with pc := Function.update s.pc t (.write o (s.mem (c.cell o)) l) }
  | write {o : O} {v : V} {l : S} (hpc : s.pc t = .write o v l) :
      Moves s t { s with
        mem := Function.update s.mem (c.cell o) (c.act o v)
        pc := Function.update s.pc t (.post o l) }
  | post {o : O} {l : S} (hpc : s.pc t = .post o l) :
      Moves s t { s with
        sem := Function.update s.sem (c.lock (c.cell o)) (s.sem (c.lock (c.cell o)) + 1)
        pc := Function.update s.pc t (.idle l) }

lemma step_moves {c : Code S O K V L} {s s' : State T S O K V L} {t : T}
    (hs : step c s t = some s') : Moves c s t s' := by
  unfold step at hs
  split at hs
  case h_1 l hpc =>
    split at hs
    · obtain rfl := Option.some.inj hs
      exact .exit hpc ‹_›
    · obtain rfl := Option.some.inj hs
      exact .test hpc ‹_›
  case h_2 o l hpc =>
    split_ifs at hs with hsem
    obtain rfl := Option.some.inj hs
    exact .wait hpc hsem
  case h_3 o l hpc =>
    obtain rfl := Option.some.inj hs
    exact .read hpc
  case h_4 o v l hpc =>
    obtain rfl := Option.some.inj hs
    exact .write hpc
  case h_5 o l hpc =>
    obtain rfl := Option.some.inj hs
    exact .post hpc
  case h_6 => cases hs

/-- The semaphore a thread has taken. -/
def Code.held : Pc S O V → Option L
  | .read o _ => some (c.lock (c.cell o))
  | .write o _ _ => some (c.lock (c.cell o))
  | .post o _ => some (c.lock (c.cell o))
  | _ => none

/-- `os` are the operations the control gives on the way from `l` to `l'`. -/
inductive Emits (next : S → Option (O × S)) : S → List O → S → Prop
  | nil (l : S) : Emits next l [] l
  | snoc {l l' l'' : S} {os : List O} {o : O} (h : Emits next l os l')
      (ho : next l' = some (o, l'')) : Emits next l (os ++ [o]) l''

/-- A thread that started at `l` and has done the operations `os` is there. -/
def Code.At (l : S) (os : List O) : Pc S O V → Prop
  | .idle l' => Emits c.next l os l'
  | .wait o l' => Emits c.next l (os ++ [o]) l'
  | .read o l' => Emits c.next l (os ++ [o]) l'
  | .write o _ l' => Emits c.next l (os ++ [o]) l'
  | .post _ l' => Emits c.next l os l'
  | .done => ∃ l', Emits c.next l os l' ∧ c.next l' = none

/-- The operations of `t` in a history. -/
def opsOf (t : T) (hist : List (T × O)) : List O := (hist.filter (·.1 = t)).map Prod.snd

lemma mem_opsOf {t : T} {hist : List (T × O)} {o : O} : o ∈ opsOf t hist ↔ (t, o) ∈ hist := by
  simp [opsOf]

lemma opsOf_snoc_same (t : T) (hist : List (T × O)) (o : O) :
    opsOf t (hist ++ [(t, o)]) = opsOf t hist ++ [o] := by
  simp [opsOf]

lemma opsOf_snoc_other {t u : T} (h : u ≠ t) (hist : List (T × O)) (o : O) :
    opsOf u (hist ++ [(t, o)]) = opsOf u hist := by
  simp [opsOf, Ne.symm h]

/-- After the operations of `hist`, in that order, from the memory `m`. -/
structure Inv (m : K → V) (start : T → S) (hist : List (T × O)) (s : State T S O K V L) :
    Prop where
  mem : s.mem = hist.foldl (fun m e => c.apply m e.2) m
  control : ∀ t, c.At (start t) (opsOf t hist) (s.pc t)
  fresh : ∀ t o v l, s.pc t = .write o v l → s.mem (c.cell o) = v
  locks : Locked s.sem fun t => c.held (s.pc t)

end Steps

section Serial

variable [DecidableEq T] {c : Code S O K V L} {m : K → V} {start : T → S} {hist : List (T × O)}
  {s s' : State T S O K V L} {t : T}

lemma held_update (pc : T → Pc S O V) (t : T) (x : Pc S O V) :
    (fun u => c.held (Function.update pc t x u)) =
      Function.update (fun u => c.held (pc u)) t (c.held x) :=
  Function.comp_update c.held pc t x

variable [DecidableEq K]

/-- The fields of `Inv` that speak of one thread at a time, when `t` moves to `x`. -/
lemma Inv.control_update (h : Inv c m start hist s) {x : Pc S O V}
    (hat : c.At (start t) (opsOf t hist) x) (u : T) :
    c.At (start u) (opsOf u hist) (Function.update s.pc t x u) := by
  by_cases hu : u = t
  · subst hu
    rwa [Function.update_self]
  · rw [Function.update_of_ne hu]
    exact h.control u

lemma Inv.fresh_update (h : Inv c m start hist s) {x : Pc S O V}
    (hx : ∀ o v l, x = .write o v l → s.mem (c.cell o) = v) (u : T) (o : O) (v : V) (l : S)
    (hu : Function.update s.pc t x u = .write o v l) : s.mem (c.cell o) = v := by
  by_cases hut : u = t
  · subst hut
    rw [Function.update_self] at hu
    exact hx o v l hu
  · rw [Function.update_of_ne hut] at hu
    exact h.fresh u o v l hu

/-- `t` moves without touching memory or semaphores. -/
lemma Inv.move (h : Inv c m start hist s) {x : Pc S O V}
    (hat : c.At (start t) (opsOf t hist) x) (hheld : c.held x = c.held (s.pc t))
    (hx : ∀ o v l, x = .write o v l → s.mem (c.cell o) = v) :
    Inv c m start hist { s with pc := Function.update s.pc t x } := by
  refine ⟨h.mem, h.control_update hat, h.fresh_update hx, ?_⟩
  rw [held_update, hheld, Function.update_eq_self]
  exact h.locks

/-- The write is where an operation happens. What it writes is right since nobody else has
written the cell since the read, and it leaves alone the cells others have read. -/
lemma Inv.write (h : Inv c m start hist s) {o : O} {v : V} {l : S} (hpc : s.pc t = .write o v l) :
    Inv c m start (hist ++ [(t, o)]) { s with
      mem := Function.update s.mem (c.cell o) (c.act o v)
      pc := Function.update s.pc t (.post o l) } := by
  have hat := h.control t
  rw [hpc] at hat
  refine ⟨?_, fun u => ?_, fun u o' v' l' hu => ?_, ?_⟩
  · rw [List.foldl_append, ← h.mem, ← h.fresh t o v l hpc]
    rfl
  · dsimp only
    by_cases hu : u = t
    · subst hu
      rw [Function.update_self, opsOf_snoc_same]
      exact hat
    · rw [Function.update_of_ne hu, opsOf_snoc_other hu]
      exact h.control u
  · dsimp only at hu ⊢
    by_cases hut : u = t
    · subst hut
      simp at hu
    · rw [Function.update_of_ne hut] at hu
      have hcell : c.cell o' ≠ c.cell o := by
        intro hc
        refine hut (h.locks.exclusive (x := c.lock (c.cell o)) ?_ ?_)
        · simp only [hu, Code.held, hc]
        · simp only [hpc, Code.held]
      rw [Function.update_of_ne hcell]
      exact h.fresh u o' v' l' hu
  · rw [held_update, show c.held (.post o l : Pc S O V) = c.held (s.pc t) by rw [hpc]; rfl,
      Function.update_eq_self]
    exact h.locks

/-- The threads at the start of their code, with no semaphore taken. -/
def spawn (m : K → V) (sem : L → ℕ) (start : T → S) : State T S O K V L :=
  ⟨m, sem, fun t => .idle (start t)⟩

lemma inv_spawn {sem : L → ℕ} (hsem : ∀ x, sem x = 1) :
    Inv c m start [] (spawn m sem start) :=
  ⟨rfl, fun t => .nil (start t), by simp [spawn],
    fun x => Or.inl ⟨hsem x, by simp [spawn, Code.held]⟩⟩

variable [DecidableEq L]

lemma Inv.wait (h : Inv c m start hist s) {o : O} {l : S} (hpc : s.pc t = .wait o l)
    (hsem : 0 < s.sem (c.lock (c.cell o))) :
    Inv c m start hist { s with
      sem := Function.update s.sem (c.lock (c.cell o)) (s.sem (c.lock (c.cell o)) - 1)
      pc := Function.update s.pc t (.read o l) } := by
  have hat := h.control t
  rw [hpc] at hat
  refine ⟨h.mem, h.control_update hat, h.fresh_update (by simp), ?_⟩
  rw [held_update]
  exact h.locks.acquire (by rw [hpc]; rfl) hsem

lemma Inv.post (h : Inv c m start hist s) {o : O} {l : S} (hpc : s.pc t = .post o l) :
    Inv c m start hist { s with
      sem := Function.update s.sem (c.lock (c.cell o)) (s.sem (c.lock (c.cell o)) + 1)
      pc := Function.update s.pc t (.idle l) } := by
  have hat := h.control t
  rw [hpc] at hat
  refine ⟨h.mem, h.control_update hat, h.fresh_update (by simp), ?_⟩
  rw [held_update]
  exact h.locks.release (by rw [hpc]; rfl)

/-- **One step of an interleaving** does one operation whole, or none. -/
theorem inv_step (h : Inv c m start hist s) (hs : step c s t = some s') :
    ∃ hist', Inv c m start hist' s' := by
  have hat := h.control t
  cases step_moves hs with
  | exit hpc hn =>
    rw [hpc] at hat
    exact ⟨hist, h.move ⟨_, hat, hn⟩ (by rw [hpc]; rfl) (by simp)⟩
  | test hpc hn =>
    rw [hpc] at hat
    exact ⟨hist, h.move (.snoc hat hn) (by rw [hpc]; rfl) (by simp)⟩
  | wait hpc hsem => exact ⟨hist, h.wait hpc hsem⟩
  | read hpc =>
    rw [hpc] at hat
    refine ⟨hist, h.move hat (by rw [hpc]; rfl) ?_⟩
    rintro o' v' l' ⟨⟩
    rfl
  | write hpc => exact ⟨_, h.write hpc⟩
  | post hpc => exact ⟨hist, h.post hpc⟩

theorem inv_run {sched : List T} (h : Inv c m start hist s) (hs : run c s sched = some s') :
    ∃ hist', Inv c m start hist' s' := by
  induction sched generalizing s hist with
  | nil => exact ⟨hist, Option.some.inj hs ▸ h⟩
  | cons t sched ih =>
    obtain ⟨s₁, h₁, hs₁⟩ := Option.bind_eq_some_iff.mp hs
    obtain ⟨hist₁, hinv⟩ := inv_step h h₁
    exact ih hinv hs₁

/-- **Every run is serial.** When all threads are done, memory is as after all their
operations, each done whole, in an order that keeps the order of each thread; and all
semaphores are back at `1`. -/
theorem run_serial {sem : L → ℕ} (hsem : ∀ x, sem x = 1) {sched : List T}
    (hs : run c (spawn m sem start) sched = some s) (hdone : ∀ t, s.pc t = .done) :
    (∀ x, s.sem x = 1) ∧ ∃ hist : List (T × O),
      s.mem = hist.foldl (fun m e => c.apply m e.2) m ∧
      ∀ t, ∃ l, Emits c.next (start t) (opsOf t hist) l ∧ c.next l = none := by
  obtain ⟨hist, h⟩ := inv_run (inv_spawn hsem) hs
  refine ⟨fun x => ?_, hist, h.mem, fun t => ?_⟩
  · rcases h.locks x with ⟨h1, -⟩ | ⟨-, t, ht⟩
    · exact h1
    · have := (ht t).mpr rfl
      simp [hdone t, Code.held] at this
  · have := h.control t
    rwa [hdone t] at this

end Serial

/-! ### Every run can go on until all threads are done -/

section Progress

variable [DecidableEq T] [DecidableEq K] [DecidableEq L] {c : Code S O K V L} {m : K → V}
  {start : T → S} {hist : List (T × O)} {s s' : State T S O K V L} {t : T}

/-- A thread with a semaphore is never blocked, and if no thread has one then none is. -/
theorem Inv.progress (h : Inv c m start hist s) (ht : s.pc t ≠ .done) :
    ∃ u s', step c s u = some s' := by
  by_cases hheld : ∃ u x, c.held (s.pc u) = some x
  · obtain ⟨u, x, hu⟩ := hheld
    refine ⟨u, ?_⟩
    unfold step
    cases hpc : s.pc u <;> simp_all [Code.held]
  · have hfree : ∀ x, s.sem x = 1 := by
      intro x
      rcases h.locks x with ⟨h1, -⟩ | ⟨-, u, hu⟩
      · exact h1
      · exact absurd ⟨u, x, (hu u).mpr rfl⟩ hheld
    refine ⟨t, ?_⟩
    unfold step
    cases hpc : s.pc t with
    | idle l => cases hn : c.next l <;> simp [hn]
    | wait o l => simp [hfree]
    | done => exact absurd hpc ht
    | _ => simp

/-- The steps a thread still takes at most, when the control counts down by `rank`. -/
def cost (rank : S → ℕ) : Pc S O V → ℕ
  | .idle l => 5 * rank l + 1
  | .wait _ l => 5 * rank l + 5
  | .read _ l => 5 * rank l + 4
  | .write _ _ l => 5 * rank l + 3
  | .post _ l => 5 * rank l + 2
  | .done => 0

variable {rank : S → ℕ}

/-- The control of every thread counts down. -/
def Descends (c : Code S O K V L) (start : T → S) (rank : S → ℕ) : Prop :=
  ∀ t os l, Emits c.next (start t) os l → ∀ o l', c.next l = some (o, l') → rank l' < rank l

lemma cost_step (hrank : Descends c start rank) (h : Inv c m start hist s)
    (hs : step c s t = some s') :
    ∃ x, s'.pc = Function.update s.pc t x ∧ cost rank x < cost rank (s.pc t) := by
  cases step_moves hs with
  | test hpc hn =>
    have hat := h.control t
    rw [hpc] at hat
    have hlt := hrank t _ _ hat _ _ hn
    exact ⟨_, rfl, by simp only [hpc, cost]; omega⟩
  | _ hpc => exact ⟨_, rfl, by simp only [hpc, cost]; omega⟩

variable [Fintype T]

lemma sum_cost_step (hrank : Descends c start rank) (h : Inv c m start hist s)
    (hs : step c s t = some s') :
    ∑ u, cost rank (s'.pc u) < ∑ u, cost rank (s.pc u) := by
  obtain ⟨x, hpc, hx⟩ := cost_step hrank h hs
  refine Finset.sum_lt_sum (fun u _ => ?_) ⟨t, Finset.mem_univ t, by simpa [hpc] using hx⟩
  by_cases hu : u = t
  · subst hu
    simpa [hpc] using hx.le
  · simp [hpc, hu]

/-- **Every interleaving ends.** -/
theorem run_length_le (hrank : Descends c start rank) (h : Inv c m start hist s)
    {sched : List T} (hs : run c s sched = some s') :
    sched.length + ∑ t, cost rank (s'.pc t) ≤ ∑ t, cost rank (s.pc t) := by
  induction sched generalizing s hist with
  | nil => rw [Option.some.inj hs, List.length_nil, Nat.zero_add]
  | cons t sched ih =>
    obtain ⟨s₁, h₁, hs₁⟩ := Option.bind_eq_some_iff.mp hs
    obtain ⟨hist₁, hinv⟩ := inv_step h h₁
    have hlt := sum_cost_step hrank h h₁
    have hle := ih hinv hs₁
    rw [List.length_cons]
    omega

/-- **And it can be continued until all threads are done.** -/
theorem exists_run (hrank : Descends c start rank) (h : Inv c m start hist s) :
    ∃ sched s', run c s sched = some s' ∧ ∀ t, s'.pc t = .done := by
  induction hn : ∑ t, cost rank (s.pc t) using Nat.strong_induction_on generalizing s hist with
  | _ n ih =>
    by_cases hdone : ∀ t, s.pc t = .done
    · exact ⟨[], s, rfl, hdone⟩
    · push Not at hdone
      obtain ⟨t, ht⟩ := hdone
      obtain ⟨u, s₁, h₁⟩ := h.progress ht
      obtain ⟨hist₁, hinv⟩ := inv_step h h₁
      obtain ⟨sched, s', hs', hall⟩ := ih _ (hn ▸ sum_cost_step hrank h h₁) hinv rfl
      exact ⟨u :: sched, s', Option.bind_eq_some_iff.mpr ⟨s₁, h₁, hs'⟩, hall⟩

end Progress

/-! ### A thread that runs alone -/

section Alone

variable [DecidableEq T] [DecidableEq K] [DecidableEq L] {c : Code S O K V L} {m : K → V}
  {sem : L → ℕ} {start : T → S} {s₀ s s' : State T S O K V L} {t : T}

lemma run_snoc {sched : List T} (hs : run c s₀ sched = some s) (h : Moves c s t s') :
    run c s₀ (sched ++ [t]) = some s' := by
  have hstep : step c s t = some s' := by
    unfold step
    cases h with
    | exit hpc hn => simp only [hpc, hn]
    | test hpc hn => simp only [hpc, hn]
    | wait hpc hsem => simp only [hpc, if_pos hsem]
    | read hpc => simp only [hpc]
    | write hpc => simp only [hpc]
    | post hpc => simp only [hpc]
  unfold run at hs ⊢
  rw [List.foldlM_append, hs]
  simp [hstep]

/-- With the semaphores free a thread can do its next operations with nobody in between. -/
lemma exists_run_idle (hsem : ∀ x, sem x = 1) {os : List O} {l : S}
    (h : Emits c.next (start t) os l) :
    ∃ sched s, run c (spawn m sem start) sched = some s ∧ s.pc t = .idle l ∧ s.sem = sem := by
  induction h with
  | nil => exact ⟨[], _, rfl, rfl, rfl⟩
  | @snoc _ _ _ o _ ho ih =>
    obtain ⟨sched, s, hs, hpc, hsm⟩ := ih
    have htest := run_snoc hs (.test hpc ho)
    have hwait := run_snoc htest (.wait (Function.update_self ..) (by simp [hsm, hsem]))
    have hread := run_snoc hwait (.read (Function.update_self ..))
    have hwrite := run_snoc hread (.write (Function.update_self ..))
    have hpost := run_snoc hwrite (.post (Function.update_self ..))
    refine ⟨_, _, hpost, Function.update_self .., ?_⟩
    simp [hsm, hsem]

/-- **Every operation that its control gives a thread can be reached.** -/
theorem exists_run_read (hsem : ∀ x, sem x = 1) {os : List O} {l l' : S} {o : O}
    (h : Emits c.next (start t) os l) (ho : c.next l = some (o, l')) :
    ∃ sched s, run c (spawn m sem start) sched = some s ∧ s.pc t = .read o l' := by
  obtain ⟨sched, s, hs, hpc, hsm⟩ := exists_run_idle hsem h
  have htest := run_snoc hs (.test hpc ho)
  have hwait := run_snoc htest (.wait (Function.update_self ..) (by simp [hsm, hsem]))
  exact ⟨_, _, hwait, Function.update_self ..⟩

end Alone

end Rtes.Striped
