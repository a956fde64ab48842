import Rtes.Mutex

/-!
`grabRsrcs` of `deadlock_timeout.c`, run by any number of threads.

Each thread takes the first of its two resources with a plain lock and tries for the second
with a timed one, thread 1 in the order A, B and every other in the order B, A. The two
versions of the file differ only in how they sleep between the locks and in where the
mutexes are initialised. The printed times and counters are left out.
-/

namespace Rtes.DeadlockTimeout

open Rtes.Runs Rtes.Mutex Function

inductive Rsrc
  | A
  | B
  deriving DecidableEq

/-- What a call of `pthread_mutex_lock` or `pthread_mutex_timedlock` returns: 0, `ETIMEDOUT` or
another error. -/
inductive Rc
  | ok
  | etimedout
  | error
  deriving DecidableEq

/-- Where a thread is, with the value it has loaded if it is about to store a counter. -/
inductive Pc
  | lock1
  | inc1
  | inc1Store (v : ℤ)
  | sleep
  | timedlock2
  | inc2
  | inc2Store (v : ℤ)
  | dec2
  | dec2Store (v : ℤ)
  | unlock2
  | dec1
  | dec1Store (v : ℤ)
  | unlock1
  | exit
  deriving DecidableEq

def THREAD_1 : ℤ := 1

def first (threadIdx : ℤ) : Rsrc := if threadIdx = THREAD_1 then .A else .B

def second (threadIdx : ℤ) : Rsrc := if threadIdx = THREAD_1 then .B else .A

/-- The code of `grabRsrcs`. A timeout and another error of the timed lock are handled alike. -/
def grabRsrcs (threadIdx : ℤ) : Pc → Rc → Option (Instr Rsrc Pc)
  | .lock1, .ok => some (.lock (first threadIdx) .inc1)
  | .lock1, .error => some (.skip .exit)
  | .inc1, .ok => some (.load (first threadIdx) .inc1Store)
  | .inc1Store v, .ok => some (.store (first threadIdx) (v + 1) .sleep)
  | .sleep, .ok => some (.skip .timedlock2)
  | .timedlock2, .ok => some (.lock (second threadIdx) .inc2)
  | .timedlock2, .etimedout => some (.skip .dec1)
  | .timedlock2, .error => some (.skip .dec1)
  | .inc2, .ok => some (.load (second threadIdx) .inc2Store)
  | .inc2Store v, .ok => some (.store (second threadIdx) (v + 1) .dec2)
  | .dec2, .ok => some (.load (second threadIdx) .dec2Store)
  | .dec2Store v, .ok => some (.store (second threadIdx) (v - 1) .unlock2)
  | .unlock2, .ok => some (.unlock (second threadIdx) .dec1)
  | .dec1, .ok => some (.load (first threadIdx) .dec1Store)
  | .dec1Store v, .ok => some (.store (first threadIdx) (v - 1) .unlock1)
  | .unlock1, .ok => some (.unlock (first threadIdx) .exit)
  | _, _ => none

variable {ι : Type*}

/-- The threads, each with its index. -/
def code (threadIdx : ι → ℤ) : Code ι Rsrc Pc Rc := fun t => grabRsrcs (threadIdx t)

def start : State ι Rsrc Pc := Mutex.init .lock1

/-! ### What a thread holds -/

/-- The thread holds the resource it takes first. -/
def Pc.holdsFirst : Pc → Prop
  | .lock1 | .exit => False
  | _ => True

def Pc.holdsSecond : Pc → Prop
  | .inc2 | .inc2Store _ | .dec2 | .dec2Store _ | .unlock2 => True
  | _ => False

def Pc.countFirst : Pc → ℤ
  | .lock1 | .inc1 | .inc1Store _ | .unlock1 | .exit => 0
  | _ => 1

def Pc.countSecond : Pc → ℤ
  | .dec2 | .dec2Store _ => 1
  | _ => 0

/-- The value loaded is the one the counter still has. -/
def Pc.Valid : Pc → Prop
  | .inc1Store v | .inc2Store v => v = 0
  | .dec1Store v | .dec2Store v => v = 1
  | _ => True

def discipline (threadIdx : ι → ℤ) : Discipline ι Rsrc Pc where
  valid _ p := p.Valid
  holds t p l := if l = first (threadIdx t) then p.holdsFirst else p.holdsSecond
  count t p l := if l = first (threadIdx t) then p.countFirst else p.countSecond

lemma eq_second_iff (k : ℤ) (l : Rsrc) : l = second k ↔ l ≠ first k := by
  unfold first second
  split <;> cases l <;> decide

lemma update_first (k : ℤ) {α : Type*} (a b x : α) :
    update (fun l => if l = first k then a else b) (first k) x =
      fun l => if l = first k then x else b := by
  ext l
  by_cases h : l = first k
  · simp [h]
  · simp [h]

lemma update_second (k : ℤ) {α : Type*} (a b x : α) :
    update (fun l => if l = first k then a else b) (second k) x =
      fun l => if l = first k then a else x := by
  ext l
  by_cases h : l = first k
  · rw [update_of_ne (fun h' => (eq_second_iff k l).mp h' h), if_pos h, if_pos h]
  · rw [(eq_second_iff k l).mpr h, update_self, if_neg ((eq_second_iff k _).mp rfl)]

section

variable (threadIdx : ι → ℤ) (t : ι) {p : Pc}

lemma holds_first (h : p.holdsFirst) : (discipline threadIdx).holds t p (first (threadIdx t)) := by
  dsimp only [discipline]
  rwa [if_pos rfl]

lemma holds_second (h : p.holdsSecond) :
    (discipline threadIdx).holds t p (second (threadIdx t)) := by
  dsimp only [discipline]
  rwa [if_neg ((eq_second_iff _ _).mp rfl)]

variable (p)

lemma count_first :
    (discipline threadIdx).count t p (first (threadIdx t)) = p.countFirst := if_pos rfl

lemma count_second :
    (discipline threadIdx).count t p (second (threadIdx t)) = p.countSecond :=
  if_neg ((eq_second_iff _ _).mp rfl)

end

/-- Every instruction respects the discipline. -/
lemma respects (threadIdx : ι → ℤ) (t : ι) (p : Pc) (r : Rc) (i : Instr Rsrc Pc)
    (hv : (discipline threadIdx).valid t p) (hi : code threadIdx t p r = some i) :
    (discipline threadIdx).Respects t p i := by
  have fst : ∀ {q : Pc}, q.holdsFirst → (discipline threadIdx).holds t q (first (threadIdx t)) :=
    holds_first threadIdx t
  have snd : ∀ {q : Pc}, q.holdsSecond → (discipline threadIdx).holds t q (second (threadIdx t)) :=
    holds_second threadIdx t
  match p, r, hi with
  | .lock1, .ok, rfl =>
    exact ⟨trivial, (update_first _ _ _ _).symm, (update_first _ _ _ _).symm⟩
  | .lock1, .error, rfl => exact ⟨trivial, rfl, rfl⟩
  | .inc1, .ok, rfl => exact ⟨count_first threadIdx t .inc1, fst trivial, rfl, rfl⟩
  | .inc1Store v, .ok, rfl =>
    obtain rfl : v = 0 := hv
    exact ⟨trivial, fst trivial, rfl, (update_first _ _ _ _).symm⟩
  | .sleep, .ok, rfl => exact ⟨trivial, rfl, rfl⟩
  | .timedlock2, .ok, rfl =>
    exact ⟨trivial, (update_second _ _ _ _).symm, (update_second _ _ _ _).symm⟩
  | .timedlock2, .etimedout, rfl => exact ⟨trivial, rfl, rfl⟩
  | .timedlock2, .error, rfl => exact ⟨trivial, rfl, rfl⟩
  | .inc2, .ok, rfl => exact ⟨count_second threadIdx t .inc2, snd trivial, rfl, rfl⟩
  | .inc2Store v, .ok, rfl =>
    obtain rfl : v = 0 := hv
    exact ⟨trivial, snd trivial, rfl, (update_second _ _ _ _).symm⟩
  | .dec2, .ok, rfl => exact ⟨count_second threadIdx t .dec2, snd trivial, rfl, rfl⟩
  | .dec2Store v, .ok, rfl =>
    obtain rfl : v = 1 := hv
    exact ⟨trivial, snd trivial, rfl, (update_second _ _ _ _).symm⟩
  | .unlock2, .ok, rfl =>
    exact ⟨trivial, snd trivial, count_second threadIdx t .unlock2,
      (update_second _ _ _ _).symm, rfl⟩
  | .dec1, .ok, rfl => exact ⟨count_first threadIdx t .dec1, fst trivial, rfl, rfl⟩
  | .dec1Store v, .ok, rfl =>
    obtain rfl : v = 1 := hv
    exact ⟨trivial, fst trivial, rfl, (update_first _ _ _ _).symm⟩
  | .unlock1, .ok, rfl =>
    exact ⟨trivial, fst trivial, count_first threadIdx t .unlock1,
      (update_first _ _ _ _).symm, rfl⟩

/-- A thread that holds something is not at a plain lock. -/
lemma exists_free (threadIdx : ι → ℤ) (t : ι) (p : Pc)
    (hh : ∃ l, (discipline threadIdx).holds t p l) :
    ∃ r i, r ≠ .error ∧ code threadIdx t p r = some i ∧ i.Free := by
  obtain ⟨l, hl⟩ := hh
  cases p with
  | lock1 =>
    simp [discipline, Pc.holdsFirst, Pc.holdsSecond] at hl
  | exit =>
    simp [discipline, Pc.holdsFirst, Pc.holdsSecond] at hl
  | timedlock2 => exact ⟨.etimedout, _, by decide, rfl, trivial⟩
  | _ => exact ⟨.ok, _, by decide, rfl, trivial⟩

lemma countFirst_le (p : Pc) : p.countFirst ≤ 1 := by
  cases p <;> simp [Pc.countFirst]

lemma countSecond_le (p : Pc) : p.countSecond ≤ 1 := by
  cases p <;> simp [Pc.countSecond]

variable [DecidableEq ι]

/-- **Timed locking resolves the opposite-order grab.** However the calls of any number of
threads interleave and return: a counter is at most one, and zero while its mutex is free; a
thread that has exited holds no mutex; until all have exited some thread can go on, without
counting on an error of a lock; and then both mutexes are free and both counters zero. -/
theorem timedlock_resolves (threadIdx : ι → ℤ) (as : List (ι × Rc)) (s : State ι Rsrc Pc)
    (hr : run (Mutex.step (code threadIdx)) start as = some s) :
    (∀ l, s.cnt l ≤ 1 ∧ (s.owner l = none → s.cnt l = 0)) ∧
    (∀ t, s.pc t = .exit → ∀ l, s.owner l ≠ some t) ∧
    ((∃ t, s.pc t ≠ .exit) →
      ∃ a s', a.2 ≠ .error ∧ Mutex.step (code threadIdx) s a = some s') ∧
    ((∀ t, s.pc t = .exit) → ∀ l, s.owner l = none ∧ s.cnt l = 0) := by
  have h : (discipline threadIdx).Obeyed s :=
    Discipline.obeyed_run (respects threadIdx) .lock1 (fun _ => trivial)
      (fun t l => by simp [discipline, Pc.holdsFirst, Pc.holdsSecond]) hr
  have hexit : ∀ t, s.pc t = .exit → ∀ l, s.owner l ≠ some t := by
    intro t ht l ho
    have hl := (h.owner l t).mp ho
    simp [discipline, ht, Pc.holdsFirst, Pc.holdsSecond] at hl
  refine ⟨fun l => ⟨?_, h.free l⟩, hexit, ?_, fun hall l => ?_⟩
  · cases ho : s.owner l with
    | none => simp [h.free l ho]
    | some t =>
      rw [h.count l t ho]
      dsimp only [discipline]
      split_ifs
      · exact countFirst_le _
      · exact countSecond_le _
  · rintro ⟨t, ht⟩
    refine h.not_stuck (· ≠ Rc.error) (fun t p _ => exists_free threadIdx t p) (t := t) ?_
    cases hp : s.pc t with
    | exit => exact absurd hp ht
    | _ => exact ⟨.ok, _, by decide, rfl⟩
  · have ho : s.owner l = none :=
      Option.eq_none_iff_forall_ne_some.mpr fun t => hexit t (hall t) l
    exact ⟨ho, h.free l ho⟩

/-- Thread 1 has A and thread 2 has B, and each tries for the other's. -/
def crossing : List (Bool × Rc) :=
  [(true, .ok), (false, .ok), (true, .ok), (true, .ok), (true, .ok), (false, .ok), (false, .ok),
    (false, .ok)]

theorem timedlock_resolves_crossing :
    ∃ s, run (Mutex.step (code fun t : Bool => if t then 1 else 2)) start crossing = some s ∧
      s.owner .A = some true ∧ s.owner .B = some false ∧ s.pc true = .timedlock2 ∧
      s.pc false = .timedlock2 ∧
      ∃ a s', a.2 ≠ .error ∧
        Mutex.step (code fun t : Bool => if t then 1 else 2) s a = some s' := by
  obtain ⟨s, hs⟩ : ∃ s, run (Mutex.step (code fun t : Bool => if t then 1 else 2)) start
      crossing = some s := ⟨_, rfl⟩
  have ht : s.pc true = .timedlock2 := by
    rw [← Option.some.inj hs]
    rfl
  have hgo := (timedlock_resolves _ crossing s hs).2.2.1 ⟨true, by rw [ht]; decide⟩
  refine ⟨s, hs, ?_, ?_, ht, ?_, hgo⟩
  all_goals
    rw [← Option.some.inj hs]
    rfl

end Rtes.DeadlockTimeout
