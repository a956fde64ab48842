import Rtes.Runs

/-!
`pthread.c` of `incdecthread`: a thread that counts two sums up, and one that counts them down.

`gsum` is loaded and stored, and either thread can run in between; `agsum` is changed by one
atomic operation. The threads run in any order. The sums are integers: they stay between
`-COUNT` and `COUNT`, which an `int` has room for.
-/

namespace Rtes.IncDec

open Function Rtes.Runs

/-- `incThread` and `decThread`. -/
inductive Tid
  | inc
  | dec
  deriving DecidableEq

/-- What a thread adds, `INCDEC_AMOUNT` or its negative. -/
def amount : Tid → ℤ
  | .inc => 1
  | .dec => -1

/-- Where a thread is in a turn of its loop, with what it has loaded from `gsum`. -/
inductive Pc
  | load
  | store (v : ℤ)
  | fetchAdd
  deriving DecidableEq

structure Thread where
  i : ℕ
  pc : Pc

structure State where
  gsum : ℤ
  agsum : ℤ
  threads : Tid → Thread

def start : State := ⟨0, 0, fun _ => ⟨0, .load⟩⟩

/-- The next operation of a thread, for a loop of `count` turns. -/
def step (count : ℕ) (s : State) (t : Tid) : Option State :=
  let th := s.threads t
  if th.i < count then
    match th.pc with
    | .load => some ⟨s.gsum, s.agsum, update s.threads t ⟨th.i, .store s.gsum⟩⟩
    | .store v => some ⟨v + amount t, s.agsum, update s.threads t ⟨th.i, .fetchAdd⟩⟩
    | .fetchAdd => some ⟨s.gsum, s.agsum + amount t, update s.threads t ⟨th.i + 1, .load⟩⟩
  else none

/-- Both threads have returned. -/
def State.Joined (count : ℕ) (s : State) : Prop := ∀ t, (s.threads t).i = count

/-! ### Bounds -/

/-- How often a thread has stored `gsum`. -/
def Thread.stores (th : Thread) : ℕ :=
  match th.pc with
  | .fetchAdd => th.i + 1
  | _ => th.i

/-- A value of `gsum` that the stores so far allow. -/
def State.Allows (s : State) (v : ℤ) : Prop :=
  -((s.threads .dec).stores : ℤ) ≤ v ∧ v ≤ (s.threads .inc).stores

/-- What holds in every state of a run. -/
structure Inv (count : ℕ) (s : State) : Prop where
  gsum : s.Allows s.gsum
  loaded : ∀ t v, (s.threads t).pc = .store v → s.Allows v
  agsum : s.agsum = (s.threads .inc).i - (s.threads .dec).i
  le_count : ∀ t, (s.threads t).i ≤ count
  pc : ∀ t, (s.threads t).i = count → (s.threads t).pc = .load

variable {count : ℕ} {s s' : State} {t : Tid}

/-- What an operation does. -/
lemma step_cases (h : step count s t = some s') : (s.threads t).i < count ∧
    ((s.threads t).pc = .load ∧
        s' = ⟨s.gsum, s.agsum, update s.threads t ⟨(s.threads t).i, .store s.gsum⟩⟩ ∨
      (∃ v, (s.threads t).pc = .store v ∧
        s' = ⟨v + amount t, s.agsum, update s.threads t ⟨(s.threads t).i, .fetchAdd⟩⟩) ∨
      (s.threads t).pc = .fetchAdd ∧
        s' = ⟨s.gsum, s.agsum + amount t, update s.threads t ⟨(s.threads t).i + 1, .load⟩⟩) := by
  unfold step at h
  by_cases hi : (s.threads t).i < count
  · refine ⟨hi, ?_⟩
    cases hpc : (s.threads t).pc with
    | load => simp_all
    | store v => simp_all
    | fetchAdd => simp_all
  · simp [hi] at h

lemma inv_start : Inv count start where
  gsum := by simp [State.Allows, start, Thread.stores]
  loaded := by simp [start]
  agsum := by simp [start]
  le_count := by simp [start]
  pc := by simp [start]

/-- An operation only adds to the stores. -/
lemma allows_mono (h : step count s t = some s') {v : ℤ} (hv : s.Allows v) : s'.Allows v := by
  obtain ⟨-, ⟨hpc, rfl⟩ | ⟨x, hpc, rfl⟩ | ⟨hpc, rfl⟩⟩ := step_cases h <;>
    cases t <;> simp_all [State.Allows, Thread.stores] <;> omega

lemma threads_of_ne (h : step count s t = some s') {u : Tid} (hu : u ≠ t) :
    s'.threads u = s.threads u := by
  obtain ⟨-, ⟨-, rfl⟩ | ⟨x, -, rfl⟩ | ⟨-, rfl⟩⟩ := step_cases h <;> exact update_of_ne hu _ _

lemma allows_gsum (hs : Inv count s) (h : step count s t = some s') : s'.Allows s'.gsum := by
  have hmono := allows_mono h hs.gsum
  obtain ⟨-, ⟨-, rfl⟩ | ⟨x, hpc, rfl⟩ | ⟨-, rfl⟩⟩ := step_cases h
  · exact hmono
  · -- the stores that allowed the loaded value, and this one
    have hx := hs.loaded t x hpc
    cases t <;> simp_all [State.Allows, Thread.stores, amount] <;> omega
  · exact hmono

lemma inv_step (hs : Inv count s) (h : step count s t = some s') : Inv count s' := by
  have hcases := step_cases h
  refine ⟨allows_gsum hs h, fun u v hv => ?_, ?_, fun u => ?_, fun u hu => ?_⟩
  · by_cases hut : u = t
    · subst hut
      obtain ⟨-, ⟨-, rfl⟩ | ⟨x, -, rfl⟩ | ⟨-, rfl⟩⟩ := hcases
      · obtain rfl : s.gsum = v := by simpa using hv
        exact allows_mono h hs.gsum
      · simp at hv
      · simp at hv
    · rw [threads_of_ne h hut] at hv
      exact allows_mono h (hs.loaded u v hv)
  · have hag := hs.agsum
    obtain ⟨-, ⟨-, rfl⟩ | ⟨x, -, rfl⟩ | ⟨-, rfl⟩⟩ := hcases <;> cases t <;>
      simp [amount] <;> omega
  · by_cases hut : u = t
    · subst hut
      obtain ⟨hi, ⟨-, rfl⟩ | ⟨x, -, rfl⟩ | ⟨-, rfl⟩⟩ := hcases <;> simp <;> omega
    · rw [threads_of_ne h hut]
      exact hs.le_count u
  · by_cases hut : u = t
    · subst hut
      obtain ⟨hi, ⟨-, rfl⟩ | ⟨x, -, rfl⟩ | ⟨-, rfl⟩⟩ := hcases <;> simp at hu ⊢ <;> omega
    · rw [threads_of_ne h hut] at hu ⊢
      exact hs.pc u hu

lemma inv_run {sched : List Tid} (h : run (step count) start sched = some s) : Inv count s :=
  run_inv (fun _ _ _ => inv_step) inv_start h

lemma Inv.stores_le (hs : Inv count s) (t : Tid) : (s.threads t).stores ≤ count := by
  have hle := hs.le_count t
  unfold Thread.stores
  split
  case h_1 hpc =>
    have hne : (s.threads t).i ≠ count := fun h => by simp [hs.pc t h] at hpc
    omega
  case h_2 => exact hle

/-! ### Runs that are needed -/

/-- A turn that no other thread interrupts. -/
lemma run_turn {i : ℕ} (ht : s.threads t = ⟨i, .load⟩) (hi : i < count) :
    run (step count) s [t, t, t] =
      some ⟨s.gsum + amount t, s.agsum + amount t, update s.threads t ⟨i + 1, .load⟩⟩ := by
  simp [run, step, ht, hi]

lemma run_turns (k : ℕ) {i : ℕ} (ht : s.threads t = ⟨i, .load⟩) (hi : i + k ≤ count) :
    run (step count) s (List.replicate (3 * k) t) =
      some ⟨s.gsum + k * amount t, s.agsum + k * amount t,
        update s.threads t ⟨i + k, .load⟩⟩ := by
  induction k generalizing s i with
  | zero => simp [← ht]
  | succ k ih =>
    have hsplit : List.replicate (3 * (k + 1)) t = [t, t, t] ++ List.replicate (3 * k) t := by
      rw [show 3 * (k + 1) = 3 + 3 * k by ring, List.replicate_add]
      rfl
    rw [hsplit, run_append]
    refine ⟨_, run_turn ht (by omega), ?_⟩
    rw [ih (update_self ..) (by omega)]
    simp only [update_idem, Nat.cast_add, Nat.cast_one, add_mul, one_mul, Option.some.injEq,
      State.mk.injEq]
    refine ⟨by ring, by ring, ?_⟩
    rw [show i + 1 + k = i + (k + 1) by ring]

def Tid.other : Tid → Tid
  | .inc => .dec
  | .dec => .inc

/-- The rest of a turn in which `gsum` has been loaded. -/
lemma run_rest {i : ℕ} {v : ℤ} (ht : s.threads t = ⟨i, .store v⟩) (hi : i < count) :
    run (step count) s [t, t] =
      some ⟨v + amount t, s.agsum + amount t, update s.threads t ⟨i + 1, .load⟩⟩ := by
  simp [run, step, ht, hi]

/-- While `t` is between its load and its store, the other thread makes `k` turns, and they are
lost. -/
lemma exists_run (t : Tid) {k : ℕ} (hcount : 0 < count) (hk : k ≤ count) :
    ∃ sched s, run (step count) start sched = some s ∧ s.Joined count ∧ s.gsum = k * amount t := by
  have hne : t.other ≠ t := by cases t <;> decide
  have hamount : amount t.other = -amount t := by cases t <;> rfl
  let s₁ : State := ⟨0, 0, update start.threads t ⟨0, .store 0⟩⟩
  have h₁ : run (step count) start [t] = some s₁ := by simp [run, step, start, hcount, s₁]
  have hother : s₁.threads t.other = ⟨0, .load⟩ := update_of_ne hne _ _
  have h₂ := run_turns k hother (by omega : 0 + k ≤ count)
  let s₂ : State := ⟨s₁.gsum + k * amount t.other, s₁.agsum + k * amount t.other,
    update s₁.threads t.other ⟨0 + k, .load⟩⟩
  have hstore : s₂.threads t = ⟨0, .store 0⟩ := by simp [s₂, s₁, hne.symm]
  have h₃ := run_rest hstore hcount
  let s₃ : State := ⟨0 + amount t, s₂.agsum + amount t, update s₂.threads t ⟨0 + 1, .load⟩⟩
  have hload : s₃.threads t = ⟨0 + 1, .load⟩ := update_self ..
  have h₄ := run_turns (count - 1) hload (by omega : 0 + 1 + (count - 1) ≤ count)
  let s₄ : State := ⟨s₃.gsum + (count - 1 : ℕ) * amount t, s₃.agsum + (count - 1 : ℕ) * amount t,
    update s₃.threads t ⟨0 + 1 + (count - 1), .load⟩⟩
  have hlast : s₄.threads t.other = ⟨k, .load⟩ := by simp [s₄, s₃, s₂, hne]
  have h₅ := run_turns (count - k) hlast (by omega : k + (count - k) ≤ count)
  refine ⟨_, _, run_append.mpr ⟨_, h₁, run_append.mpr ⟨_, h₂, run_append.mpr ⟨_, h₃,
    run_append.mpr ⟨_, h₄, h₅⟩⟩⟩⟩, fun u => ?_, ?_⟩
  · obtain rfl | rfl : u = t ∨ u = t.other := by cases t <;> cases u <;> simp [Tid.other]
    · simp [s₄, hne.symm]
      omega
    · simp
      omega
  · have hturns : ((count - 1 : ℕ) : ℤ) = count - 1 := by omega
    have hrest : ((count - k : ℕ) : ℤ) = count - k := by omega
    simp only [s₄, s₃, hamount, hturns, hrest]
    ring

/-- **The outcomes**: `gsum` stays between `-COUNT` and `COUNT`; at the end `agsum` is zero, and
`gsum` can be each of these numbers. -/
theorem gsum_outcomes (hcount : 0 < count) :
    (∀ sched s, run (step count) start sched = some s → -(count : ℤ) ≤ s.gsum ∧ s.gsum ≤ count) ∧
    (∀ sched s, run (step count) start sched = some s → s.Joined count → s.agsum = 0) ∧
    ∀ v : ℤ, (∃ sched s, run (step count) start sched = some s ∧ s.Joined count ∧ s.gsum = v) ↔
      -(count : ℤ) ≤ v ∧ v ≤ count := by
  have hrange : ∀ sched s, run (step count) start sched = some s →
      -(count : ℤ) ≤ s.gsum ∧ s.gsum ≤ count := by
    intro sched s h
    obtain ⟨hlo, hhi⟩ := (inv_run h).gsum
    have hinc := (inv_run h).stores_le .inc
    have hdec := (inv_run h).stores_le .dec
    omega
  refine ⟨hrange, fun sched s h hj => ?_, fun v => ⟨?_, fun ⟨hlo, hhi⟩ => ?_⟩⟩
  · rw [(inv_run h).agsum, hj .inc, hj .dec, sub_self]
  · rintro ⟨sched, s, h, -, rfl⟩
    exact hrange sched s h
  · obtain hv | hv := le_total 0 v
    · obtain ⟨sched, s, h, hj, hs⟩ := exists_run .inc (k := v.toNat) hcount (by omega)
      exact ⟨sched, s, h, hj, by rw [hs, amount]; omega⟩
    · obtain ⟨sched, s, h, hj, hs⟩ := exists_run .dec (k := (-v).toNat) hcount (by omega)
      exact ⟨sched, s, h, hj, by rw [hs, amount]; omega⟩

/-- Three turns of each thread can leave `gsum` at 2. -/
theorem gsum_outcomes_three :
    ∃ sched s, run (step 3) start sched = some s ∧ s.Joined 3 ∧ s.gsum = 2 :=
  ((gsum_outcomes (by decide)).2.2 2).mpr (by decide)

end Rtes.IncDec
