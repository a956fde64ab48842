import Rtes.Runs

/-!
Periodic services released by a sequencer through counting semaphores.

Each service loops: it tests its abort flag, waits for its semaphore, counts the release and
works; some services read the flag again between the wait and the work. A sequencer counts
cycles and posts the semaphore of a service in the cycles its period divides; when it stops
it posts every semaphore once more and sets the flags. A semaphore has a largest value, and a
post of one that has it fails and is lost. The sequencer is one thread that loops, or a handler
that a timer starts anew in each cycle, possibly while an earlier activation is still under way.
All of them interleave at every single operation.
-/

namespace Rtes.Release

open Rtes.Runs

/-! ### One service, with its semaphore and its flag -/

/-- Where a service is in its loop. -/
inductive Pc
  | test
  | wait
  | recheck
  | count
  | work
  | exit
  deriving DecidableEq

/-- A service. The last five fields are history that no step reads: the calls that post the
semaphore, those of them that failed, the waits that returned, the cycles in which the sequencer
came by, and whether the shutdown post is done. -/
structure Service where
  pc : Pc
  sem : ℕ
  abort : Bool
  cnt : ℕ
  posts : ℕ
  lost : ℕ
  waits : ℕ
  cycles : Finset ℕ
  final : Bool

namespace Service

def init : Service := ⟨.test, 0, false, 0, 0, 0, 0, ∅, false⟩

/-- A post, which fails where the semaphore has the value `max`. -/
def post (max : ℕ) (v : Service) : Service :=
  if v.sem < max then { v with sem := v.sem + 1, posts := v.posts + 1 }
  else { v with posts := v.posts + 1, lost := v.lost + 1 }

/-- The sequencer comes by in cycle `n`: a post if the period divides it. -/
def release (max n period : ℕ) (v : Service) : Service :=
  if n % period = 0 then { v.post max with cycles := insert n v.cycles }
  else { v with cycles := insert n v.cycles }

/-- The shutdown post. -/
def close (max : ℕ) (v : Service) : Service := { v.post max with final := true }

def setAbort (v : Service) : Service := { v with abort := true }

/-- The service's own next step, if it is not blocked and has not ended. -/
def step (recheck : Bool) (v : Service) : Option Service :=
  match v.pc with
  | .test => some { v with pc := if v.abort then .exit else .wait }
  | .wait =>
    if v.sem = 0 then none
    else some { v with
      sem := v.sem - 1
      waits := v.waits + 1
      pc := if recheck then .recheck else .count }
  | .recheck => some { v with pc := if v.abort then .exit else .count }
  | .count => some { v with cnt := v.cnt + 1, pc := .work }
  | .work => some { v with pc := .test }
  | .exit => none

/-- What the sequencer can do to a service. -/
inductive Poked (max : ℕ) (v : Service) : Service → Prop
  | release (n period : ℕ) : Poked max v (v.release max n period)
  | close : Poked max v (v.close max)
  | setAbort : Poked max v v.setAbort

/-- The service sits in its wait and there is nothing to take. -/
def Stranded (v : Service) : Prop := v.pc = .wait ∧ v.sem = 0

/-- The service is about to read its flag, still down, when its shutdown post has been made
and there is nothing left to take. -/
def Hasty (v : Service) : Prop :=
  v.pc = .test ∧ v.abort = false ∧ v.final = true ∧ v.sem = 0

instance decidableHasty (v : Service) : Decidable v.Hasty := inferInstanceAs (Decidable (_ ∧ _))

/-- After the shutdown post a service that waits has something to take. -/
def Safe (v : Service) : Prop := v.final = true → v.pc = .wait → 0 < v.sem

/-- Posts are waits that returned, tokens still there or lost, none is lost before there are more
than the semaphore can hold, and a service that does not read its flag again counts every wait. -/
structure Counts (max : ℕ) (v : Service) : Prop where
  tokens : v.posts = v.waits + v.sem + v.lost
  room : v.sem ≤ max
  spared : v.lost = 0 ∨ max < v.posts
  counted : v.cnt + (if v.pc = .count then 1 else 0) = v.waits
  plain : v.pc ≠ .recheck

/-- The service has taken a release with its flag up and will end. -/
def Late (v : Service) : Prop := v.abort = true ∧ (v.pc = .recheck ∨ v.pc = .exit)

variable {recheck : Bool} {max : ℕ} {v v' : Service}

/-- A post changes the semaphore and what is known of posts, and nothing else. -/
lemma post_frame (max : ℕ) (v : Service) : (v.post max).pc = v.pc ∧
    (v.post max).abort = v.abort ∧ (v.post max).cnt = v.cnt ∧ (v.post max).waits = v.waits ∧
    (v.post max).cycles = v.cycles ∧ (v.post max).final = v.final := by
  unfold post; split <;> exact ⟨rfl, rfl, rfl, rfl, rfl, rfl⟩

@[simp] lemma post_pc (max : ℕ) (v : Service) : (v.post max).pc = v.pc := (post_frame max v).1

@[simp] lemma post_abort (max : ℕ) (v : Service) : (v.post max).abort = v.abort :=
  (post_frame max v).2.1

@[simp] lemma post_cnt (max : ℕ) (v : Service) : (v.post max).cnt = v.cnt :=
  (post_frame max v).2.2.1

@[simp] lemma post_waits (max : ℕ) (v : Service) : (v.post max).waits = v.waits :=
  (post_frame max v).2.2.2.1

@[simp] lemma post_cycles (max : ℕ) (v : Service) : (v.post max).cycles = v.cycles :=
  (post_frame max v).2.2.2.2.1

@[simp] lemma post_final (max : ℕ) (v : Service) : (v.post max).final = v.final :=
  (post_frame max v).2.2.2.2.2

@[simp] lemma post_posts (max : ℕ) (v : Service) : (v.post max).posts = v.posts + 1 := by
  unfold post; split <;> rfl

/-- A post is there or lost. -/
lemma post_tokens (max : ℕ) (v : Service) :
    (v.post max).sem = v.sem + 1 ∧ v.sem < max ∧ (v.post max).lost = v.lost ∨
      (v.post max).sem = v.sem ∧ max ≤ v.sem ∧ (v.post max).lost = v.lost + 1 := by
  unfold post
  split_ifs with h
  · exact Or.inl ⟨rfl, h, rfl⟩
  · exact Or.inr ⟨rfl, not_lt.mp h, rfl⟩

lemma sem_le_post (max : ℕ) (v : Service) : v.sem ≤ (v.post max).sem := by
  rcases post_tokens max v with ⟨h, -, -⟩ | ⟨h, -, -⟩ <;> omega

@[simp] lemma close_pc (max : ℕ) (v : Service) : (v.close max).pc = v.pc := post_pc max v

@[simp] lemma close_abort (max : ℕ) (v : Service) : (v.close max).abort = v.abort :=
  post_abort max v

lemma post_sem_pos (hmax : 0 < max) (v : Service) : 0 < (v.post max).sem := by
  rcases post_tokens max v with ⟨h, -, -⟩ | ⟨h, h', -⟩ <;> omega

@[simp] lemma release_pc (n N : ℕ) (v : Service) : (v.release max n N).pc = v.pc := by
  unfold release; split <;> simp

@[simp] lemma release_abort (n N : ℕ) (v : Service) : (v.release max n N).abort = v.abort := by
  unfold release; split <;> simp

@[simp] lemma release_final (n N : ℕ) (v : Service) : (v.release max n N).final = v.final := by
  unfold release; split <;> simp

@[simp] lemma release_waits (n N : ℕ) (v : Service) : (v.release max n N).waits = v.waits := by
  unfold release; split <;> simp

@[simp] lemma release_cycles (n N : ℕ) (v : Service) :
    (v.release max n N).cycles = insert n v.cycles := by
  unfold release; split <;> rfl

lemma sem_le_release (n N : ℕ) (v : Service) : v.sem ≤ (v.release max n N).sem := by
  unfold release
  split
  · exact sem_le_post max v
  · exact le_rfl

lemma release_posts (n N : ℕ) (v : Service) :
    (v.release max n N).posts = v.posts + if n % N = 0 then 1 else 0 := by
  unfold release; split <;> simp

/-- What a step of the service's own can be. -/
lemma step_cases (h : v.step recheck = some v') :
    (v.pc = .test ∧ v.abort = false ∧ v' = { v with pc := .wait }) ∨
    (v.pc = .wait ∧ 0 < v.sem ∧ v' = { v with
      sem := v.sem - 1
      waits := v.waits + 1
      pc := if recheck then .recheck else .count }) ∨
    (v.pc = .recheck ∧ v.abort = false ∧ v' = { v with pc := .count }) ∨
    (v.pc = .count ∧ v' = { v with cnt := v.cnt + 1, pc := .work }) ∨
    (v.pc = .work ∧ v' = { v with pc := .test }) ∨
    ((v.pc = .test ∨ v.pc = .recheck) ∧ v.abort = true ∧ v' = { v with pc := .exit }) := by
  unfold step at h
  cases hpc : v.pc <;> cases ha : v.abort <;> simp only [hpc, ha] at h <;> grind

/-- The service itself never touches its flag or the sequencer's history. -/
lemma step_frame (h : v.step recheck = some v') :
    v'.abort = v.abort ∧ v'.final = v.final ∧ v'.posts = v.posts ∧ v'.cycles = v.cycles := by
  rcases step_cases h with ⟨-, -, rfl⟩ | ⟨-, -, rfl⟩ | ⟨-, -, rfl⟩ | ⟨-, rfl⟩ | ⟨-, rfl⟩ |
    ⟨-, -, rfl⟩ <;> exact ⟨rfl, rfl, rfl, rfl⟩

lemma Poked.final (h : Poked max v v') (hf : v.final = true) : v'.final = true := by
  cases h with
  | release n N => simpa using hf
  | close => rfl
  | setAbort => exact hf

lemma Poked.abort (h : Poked max v v') (ha : v.abort = true) : v'.abort = true := by
  cases h with
  | release n N => simpa using ha
  | close => simpa using ha
  | setAbort => rfl

lemma Safe.poked (hmax : 0 < max) (hv : v.Safe) (h : Poked max v v') : v'.Safe := by
  intro hf hw
  cases h with
  | release n N =>
    rw [release_pc] at hw
    rw [release_final] at hf
    exact (hv hf hw).trans_le (sem_le_release n N v)
  | close => exact post_sem_pos hmax v
  | setAbort => exact hv hf hw

/-- Only a read of the flag in the wrong moment leads into a wait for nothing. -/
lemma safe_of_step (hq : ¬ v.Hasty) (h : v.step recheck = some v') : v'.Safe := by
  intro hf hw
  rcases step_cases h with ⟨hpc, ha, rfl⟩ | ⟨-, -, rfl⟩ | ⟨-, -, rfl⟩ | ⟨-, rfl⟩ | ⟨-, rfl⟩ |
    ⟨-, -, rfl⟩
  · -- into the wait: the read was not hasty, so there is a token
    exact Nat.pos_of_ne_zero fun h0 => hq ⟨hpc, ha, hf, h0⟩
  · cases recheck <;> simp at hw
  all_goals simp at hw

lemma Counts.post (hv : v.Counts max) : (v.post max).Counts max := by
  obtain ⟨ht, hr, hl, hc, hp⟩ := hv
  have htokens := post_tokens max v
  refine ⟨?_, ?_, ?_, by simpa using hc, by simpa using hp⟩
  · rw [post_posts, post_waits]
    omega
  · omega
  · rw [post_posts]
    omega

/-- The numbers do not depend on the sequencer's other history. -/
lemma Counts.congr (hv : v.Counts max) (cycles : Finset ℕ) (final abort : Bool) :
    Counts max { v with cycles, final, abort } :=
  ⟨hv.tokens, hv.room, hv.spared, hv.counted, hv.plain⟩

lemma Counts.poked (hv : v.Counts max) (h : Poked max v v') : v'.Counts max := by
  cases h with
  | release n N =>
    unfold release
    split
    · exact hv.post.congr _ _ _
    · exact hv.congr _ _ _
  | close => exact hv.post.congr _ _ _
  | setAbort => exact hv.congr _ _ _

lemma Counts.step (hv : v.Counts max) (h : v.step false = some v') : v'.Counts max := by
  obtain ⟨ht, hr, hl, hc, hp⟩ := hv
  rcases step_cases h with ⟨hpc, -, rfl⟩ | ⟨hpc, hs, rfl⟩ | ⟨hpc, -, rfl⟩ | ⟨hpc, rfl⟩ |
    ⟨hpc, rfl⟩ | ⟨hpc | hpc, -, rfl⟩
  case inr.inr.inl => exact absurd hpc hp
  case inr.inr.inr.inr.inr.inr => exact absurd hpc hp
  all_goals
    rw [hpc] at hc
    constructor <;> simp at hc ⊢ <;> omega

lemma Late.poked (hv : v.Late) (h : Poked max v v') : v'.Late := by
  refine ⟨h.abort hv.1, ?_⟩
  cases h with
  | release n N => simpa using hv.2
  | close => simpa using hv.2
  | setAbort => exact hv.2

lemma Late.step (hv : v.Late) (h : v.step recheck = some v') : v'.Late := by
  obtain ⟨ha, hpc⟩ := hv
  refine ⟨(step_frame h).1 ▸ ha, ?_⟩
  rcases step_cases h with ⟨h1, -, -⟩ | ⟨h1, -, -⟩ | ⟨-, h1, -⟩ | ⟨h1, -⟩ | ⟨h1, -⟩ | ⟨-, -, rfl⟩
  · simp [h1] at hpc
  · simp [h1] at hpc
  · simp [ha] at h1
  · simp [h1] at hpc
  · simp [h1] at hpc
  · exact Or.inr rfl

/-- A release taken with the flag up. -/
lemma late_of_wait (ha : v.abort = true) (hpc : v.pc = .wait) (h : v.step true = some v') :
    v'.Late := by
  rcases step_cases h with ⟨h1, -, -⟩ | ⟨-, -, rfl⟩ | ⟨h1, -, -⟩ | ⟨h1, -⟩ | ⟨h1, -⟩ | ⟨h1, -, -⟩
  case inr.inl => exact ⟨ha, Or.inl rfl⟩
  all_goals simp [hpc] at h1

end Service

/-! ### The sequencer -/

/-- What a sequencer does in a cycle, one operation at a time. -/
inductive Op (ι : Type*)
  | sleep
  | tick
  | release (i : ι) (period : ℕ)
  | check
  deriving DecidableEq

/-- What it does to shut down. -/
inductive Close (ι : Type*)
  | disarm
  | post (i : ι)
  | abort (i : ι)
  deriving DecidableEq

/-- The code. `check` is the exit test: if `stop` then the operations of `shutdown` come
next, before what is left of the cycle, and if not then those of `again`. A service sets the
test flag when its job makes it `quits`. With `timer` an activation starts at each signal,
without it there is one from the start. The largest value of a semaphore is `semMax`. -/
structure Script (ι : Type*) where
  semMax : ℕ
  semMax_pos : 0 < semMax
  entry : List (Op ι)
  again : List (Op ι)
  shutdown : List (Close ι)
  stop : Bool → ℕ → Bool
  recheck : Bool
  quits : ι → ℕ → Bool
  timer : Bool

/-- What one activation of the sequencer has still to do. -/
structure Activation (ι : Type*) where
  closing : List (Close ι)
  todo : List (Op ι)

/-- `done`, a history field, is set once an activation is past its shutdown. -/
structure State (ι : Type*) where
  seqCnt : ℕ
  abortTest : Bool
  armed : Bool
  pending : Bool
  acts : List (Activation ι)
  svc : ι → Service
  done : Bool
  exited : Bool

/-- The actions: activation `k` does its next operation or fails in its sleep, a service does
its next step, the timer runs out, its signal is delivered. -/
inductive Act (ι : Type*)
  | seq (k : ℕ)
  | fail (k : ℕ)
  | svc (i : ι)
  | expire
  | fire
  deriving DecidableEq

section Steps

variable {ι : Type*} [DecidableEq ι] (p : Script ι)

def init : State ι :=
  { seqCnt := 0, abortTest := false, armed := p.timer, pending := false,
    acts := if p.timer then [] else [⟨[], p.entry⟩], svc := fun _ => .init,
    done := false, exited := false }

/-- What an operation in cycle `n` does to service `i`. -/
def Op.on (max n : ℕ) (i : ι) (v : Service) : Op ι → Service
  | .release j period => if j = i then v.release max n period else v
  | _ => v

def Close.on (max : ℕ) (i : ι) (v : Service) : Close ι → Service
  | .post j => if j = i then v.close max else v
  | .abort j => if j = i then v.setAbort else v
  | .disarm => v

/-- The next operation of activation `k`. -/
def seqStep (s : State ι) (k : ℕ) : Option (State ι) :=
  match s.acts[k]? with
  | some ⟨c :: cs, todo⟩ =>
    some { s with
      svc := fun i => c.on p.semMax i (s.svc i)
      armed := if c = .disarm then false else s.armed
      acts := s.acts.set k ⟨cs, todo⟩
      done := s.done || cs.isEmpty }
  | some ⟨[], .check :: todo⟩ =>
    some { s with
      acts := s.acts.set k
        (if p.stop s.abortTest s.seqCnt then ⟨p.shutdown, todo⟩ else ⟨[], p.again ++ todo⟩) }
  | some ⟨[], o :: todo⟩ =>
    some { s with
      svc := fun i => o.on p.semMax s.seqCnt i (s.svc i)
      seqCnt := if o = .tick then s.seqCnt + 1 else s.seqCnt
      acts := s.acts.set k ⟨[], todo⟩ }
  | _ => none

/-- One action of the process, as long as it has not exited. -/
def next (s : State ι) : Act ι → Option (State ι)
  | .seq k => seqStep p s k
  | .fail k =>
    match s.acts[k]? with
    | some ⟨[], .sleep :: _⟩ => some { s with exited := true }
    | _ => none
  | .svc i =>
    ((s.svc i).step p.recheck).map fun v =>
      { s with
        svc := Function.update s.svc i v
        abortTest := s.abortTest || ((s.svc i).pc = .work && p.quits i (s.svc i).cnt) }
  | .expire => if s.armed then some { s with pending := true } else none
  | .fire =>
    if s.pending then some { s with pending := false, acts := s.acts ++ [⟨[], p.entry⟩] }
    else none

def step (s : State ι) (a : Act ι) : Option (State ι) := if s.exited then none else next p s a

/-- What one action can do. -/
inductive Moves (s : State ι) : Act ι → State ι → Prop
  | close {k : ℕ} {c : Close ι} {cs : List (Close ι)} {todo : List (Op ι)}
      (hk : s.acts[k]? = some ⟨c :: cs, todo⟩) :
      Moves s (.seq k) { s with
        svc := fun i => c.on p.semMax i (s.svc i)
        armed := if c = .disarm then false else s.armed
        acts := s.acts.set k ⟨cs, todo⟩
        done := s.done || cs.isEmpty }
  | check {k : ℕ} {todo : List (Op ι)} (hk : s.acts[k]? = some ⟨[], .check :: todo⟩) :
      Moves s (.seq k) { s with
        acts := s.acts.set k
          (if p.stop s.abortTest s.seqCnt then ⟨p.shutdown, todo⟩ else ⟨[], p.again ++ todo⟩) }
  | op {k : ℕ} {o : Op ι} {todo : List (Op ι)} (ho : o ≠ .check)
      (hk : s.acts[k]? = some ⟨[], o :: todo⟩) :
      Moves s (.seq k) { s with
        svc := fun i => o.on p.semMax s.seqCnt i (s.svc i)
        seqCnt := if o = .tick then s.seqCnt + 1 else s.seqCnt
        acts := s.acts.set k ⟨[], todo⟩ }
  | fail {k : ℕ} : Moves s (.fail k) { s with exited := true }
  | svc {i : ι} {v : Service} (hv : (s.svc i).step p.recheck = some v) :
      Moves s (.svc i) { s with
        svc := Function.update s.svc i v
        abortTest := s.abortTest || ((s.svc i).pc = .work && p.quits i (s.svc i).cnt) }
  | expire (ha : s.armed = true) : Moves s .expire { s with pending := true }
  | fire (hp : s.pending = true) :
      Moves s .fire { s with pending := false, acts := s.acts ++ [⟨[], p.entry⟩] }

variable {p} {s s' : State ι} {a : Act ι}

lemma seqStep_moves {k : ℕ} (h : seqStep p s k = some s') : Moves p s (.seq k) s' := by
  unfold seqStep at h
  split at h
  · obtain rfl := Option.some.inj h
    exact .close ‹_›
  · obtain rfl := Option.some.inj h
    exact .check ‹_›
  · obtain rfl := Option.some.inj h
    rename_i o todo hno hk
    exact .op (fun ho => hno (by rw [ho])) hk
  · cases h

lemma step_moves (h : step p s a = some s') : Moves p s a s' := by
  unfold step at h
  split_ifs at h
  cases a with
  | seq k => exact seqStep_moves h
  | fail k =>
    simp only [next] at h
    split at h
    · obtain rfl := Option.some.inj h
      exact .fail
    · cases h
  | svc i =>
    obtain ⟨v, hv, rfl⟩ := Option.map_eq_some_iff.mp h
    exact .svc hv
  | expire =>
    simp only [next] at h
    split_ifs at h with ha
    obtain rfl := Option.some.inj h
    exact .expire ha
  | fire =>
    simp only [next] at h
    split_ifs at h with hp
    obtain rfl := Option.some.inj h
    exact .fire hp

/-- What an action does to service `i`: nothing, or what the sequencer does to it, or a step
of its own. -/
lemma step_svc (h : step p s a = some s') (i : ι) :
    s'.svc i = s.svc i ∨ (s.svc i).Poked p.semMax (s'.svc i) ∨
      a = .svc i ∧ (s.svc i).step p.recheck = some (s'.svc i) := by
  cases step_moves h with
  | @close k c cs todo hk =>
    cases c with
    | disarm => exact Or.inl rfl
    | post j =>
      by_cases hj : j = i
      · exact Or.inr (Or.inl (by simpa [Close.on, hj] using Service.Poked.close))
      · exact Or.inl (by simp [Close.on, hj])
    | abort j =>
      by_cases hj : j = i
      · exact Or.inr (Or.inl (by simpa [Close.on, hj] using Service.Poked.setAbort))
      · exact Or.inl (by simp [Close.on, hj])
  | check hk => exact Or.inl rfl
  | @op k o todo ho hk =>
    cases o with
    | release j N =>
      by_cases hj : j = i
      · exact Or.inr (Or.inl (by simpa [Op.on, hj] using Service.Poked.release _ _))
      · exact Or.inl (by simp [Op.on, hj])
    | sleep => exact Or.inl rfl
    | tick => exact Or.inl rfl
    | check => exact absurd rfl ho
  | fail => exact Or.inl rfl
  | @svc j v hv =>
    by_cases hj : i = j
    · subst hj
      exact Or.inr (Or.inr ⟨rfl, by simpa using hv⟩)
    · exact Or.inl (by simp [hj])
  | expire ha => exact Or.inl rfl
  | fire hp => exact Or.inl rfl

/-- What the sequencer and the service itself keep of a service. -/
lemma svc_inv {I : Service → Prop} (hpoked : ∀ v v', I v → v.Poked p.semMax v' → I v')
    (hown : ∀ v v', I v → v.step p.recheck = some v' → I v') (i : ι) (hs : I (s.svc i))
    (h : step p s a = some s') : I (s'.svc i) := by
  rcases step_svc h i with he | hp | ⟨-, ho⟩
  · rwa [he]
  · exact hpoked _ _ hs hp
  · exact hown _ _ hs ho

lemma final_mono (h : step p s a = some s') (i : ι) (hf : (s.svc i).final = true) :
    (s'.svc i).final = true :=
  svc_inv (fun _ _ hv hp => hp.final hv) (fun _ _ hv ho => (Service.step_frame ho).2.1 ▸ hv) i hf h

lemma abort_mono (h : step p s a = some s') (i : ι) (ha : (s.svc i).abort = true) :
    (s'.svc i).abort = true :=
  svc_inv (fun _ _ hv hp => hp.abort hv) (fun _ _ hv ho => (Service.step_frame ho).1 ▸ hv) i ha h

/-! ### Shutting down -/

/-- An activation in its shutdown has posted, or will post, every semaphore. -/
structure Covered (s : State ι) : Prop where
  posts : ∀ b ∈ s.acts, b.closing ≠ [] → ∀ i, (s.svc i).final = true ∨ .post i ∈ b.closing
  done : s.done = true → ∀ i, (s.svc i).final = true

omit [DecidableEq ι] in
lemma covered_init : Covered (init p) := by
  constructor
  · intro b hb
    by_cases ht : p.timer = true <;> simp [init, ht] at hb
    simp [hb]
  · simp [init]

/-- The activations other than the one that moves keep what they had. -/
lemma Covered.other (hc : Covered s) (h : step p s a = some s') {b : Activation ι}
    (hb : b ∈ s.acts) (hne : b.closing ≠ []) (i : ι) :
    (s'.svc i).final = true ∨ .post i ∈ b.closing :=
  (hc.posts b hb hne i).imp_left (final_mono h i)

lemma Covered.step (hp : ∀ i, .post i ∈ p.shutdown) (hc : Covered s) (h : step p s a = some s') :
    Covered s' := by
  have hother := fun b hb => hc.other h (b := b) hb
  have hmono := final_mono h
  cases step_moves h with
  | @close k c cs todo hk =>
    have hmem := List.mem_of_getElem? hk
    -- what is still to post, after `c`
    have hcs : ∀ i, (c.on p.semMax i (s.svc i)).final = true ∨ .post i ∈ cs := by
      intro i
      rcases hc.posts _ hmem (by simp) i with hf | hpost
      · exact Or.inl (hmono i hf)
      · rcases List.mem_cons.mp hpost with rfl | hpost
        · exact Or.inl (by simp [Close.on, Service.close])
        · exact Or.inr hpost
    refine ⟨fun b hb hne => ?_, fun hd i => ?_⟩
    · rcases List.mem_or_eq_of_mem_set hb with hb | rfl
      · exact hother b hb hne
      · exact hcs
    · rcases (Bool.or_eq_true _ _).mp hd with hd | hd
      · exact hmono i (hc.done hd i)
      · rw [List.isEmpty_iff.mp hd] at hcs
        exact (hcs i).resolve_right List.not_mem_nil
  | check hk =>
    refine ⟨fun b hb hne => ?_, hc.done⟩
    rcases List.mem_or_eq_of_mem_set hb with hb | rfl
    · exact hother b hb hne
    · split_ifs at hne ⊢
      · exact fun i => Or.inr (hp i)
      · exact absurd rfl hne
  | op ho hk =>
    refine ⟨fun b hb hne => ?_, fun hd i => hmono i (hc.done hd i)⟩
    rcases List.mem_or_eq_of_mem_set hb with hb | rfl
    · exact hother b hb hne
    · exact absurd rfl hne
  | fail => exact ⟨hc.posts, hc.done⟩
  | svc hv => exact ⟨hother, fun hd i => hmono i (hc.done hd i)⟩
  | expire ha => exact ⟨hc.posts, hc.done⟩
  | fire hp =>
    refine ⟨fun b hb hne => ?_, hc.done⟩
    rcases List.mem_append.mp hb with hb | hb
    · exact hother b hb hne
    · exact absurd (by rw [List.mem_singleton.mp hb]) hne

/-- The condition: service `i` does not read its flag in the wrong moment. -/
def Prompt (i : ι) (s : State ι) (a : Act ι) : Prop := a = .svc i → ¬ (s.svc i).Hasty

instance decidablePrompt (i : ι) (s : State ι) (a : Act ι) : Decidable (Prompt i s a) :=
  inferInstanceAs (Decidable (a = .svc i → ¬ (s.svc i).Hasty))

lemma safe_step (i : ι) (hs : (s.svc i).Safe) (hq : Prompt i s a) (h : step p s a = some s') :
    (s'.svc i).Safe := by
  rcases step_svc h i with he | hp | ⟨ha, ho⟩
  · rwa [he]
  · exact hs.poked p.semMax_pos hp
  · exact Service.safe_of_step (hq ha) ho

/-- **No service that reads its flag in time is stranded** by a shutdown that posts every
semaphore. -/
theorem not_stranded (hp : ∀ i, .post i ∈ p.shutdown) {as : List (Act ι)} {i : ι}
    (hq : Meets (step p) (Prompt i) (init p) as) (hr : run (step p) (init p) as = some s)
    (hd : s.done = true) : ¬ (s.svc i).Stranded := by
  rintro ⟨hw, h0⟩
  have hc : Covered s := run_inv (fun _ _ _ hc h => hc.step hp h) covered_init hr
  have hs : (s.svc i).Safe :=
    run_inv_of_meets (I := fun s => (s.svc i).Safe) (fun _ _ _ hs hq h => safe_step i hs hq h)
      (fun hf => by simp [init, Service.init] at hf) hq hr
  have := hs (hc.done hd i) hw
  omega

/-! ### Flags before posts -/

/-- With the flags `flag` up, each post comes after the flag of its service. -/
def Guarded (flag : ι → Bool) : List (Close ι) → Prop
  | [] => True
  | .disarm :: cs => Guarded flag cs
  | .abort i :: cs => Guarded (Function.update flag i true) cs
  | .post i :: cs => flag i = true ∧ Guarded flag cs

lemma Guarded.mono {f g : ι → Bool} (hfg : ∀ i, f i = true → g i = true) {cs : List (Close ι)}
    (h : Guarded f cs) : Guarded g cs := by
  induction cs generalizing f g with
  | nil => trivial
  | cons c cs ih =>
    cases c with
    | disarm => exact ih hfg h
    | abort j =>
      refine ih (fun i hi => ?_) h
      by_cases hij : i = j
      · simp [hij]
      · rw [Function.update_of_ne hij] at hi ⊢
        exact hfg i hi
    | post j => exact ⟨hfg j h.1, ih hfg h.2⟩

lemma Guarded.tail (max : ℕ) {svc : ι → Service} {c : Close ι} {cs : List (Close ι)}
    (h : Guarded (fun i => (svc i).abort) (c :: cs)) :
    Guarded (fun i => (c.on max i (svc i)).abort) cs := by
  cases c with
  | disarm => exact h
  | abort j =>
    refine Guarded.mono (fun i hi => ?_) h
    by_cases hij : i = j
    · simp [Close.on, hij, Service.setAbort]
    · rw [Function.update_of_ne hij] at hi
      simpa [Close.on, Ne.symm hij] using hi
  | post j =>
    refine Guarded.mono (fun i hi => ?_) h.2
    by_cases hij : j = i
    · simpa [Close.on, hij] using hi
    · simpa [Close.on, hij] using hi

/-- Every activation raises each flag before the post, so a service whose shutdown post is
done has its flag up. -/
structure FlagsFirst (s : State ι) : Prop where
  closing : ∀ b ∈ s.acts, Guarded (fun i => (s.svc i).abort) b.closing
  flag : ∀ i, (s.svc i).final = true → (s.svc i).abort = true

lemma flagsFirst_init : FlagsFirst (init p) := by
  constructor
  · intro b hb
    by_cases ht : p.timer = true <;> simp [init, ht] at hb
    simp [hb, Guarded]
  · simp [init, Service.init]

/-- A service's flag can only be missing after the shutdown post if this step makes it. -/
lemma FlagsFirst.flag_step (hf : FlagsFirst s) (h : step p s a = some s')
    (hpost : ∀ i, (s.svc i).final = false → (s'.svc i).final = false ∨ (s'.svc i).abort = true)
    (i : ι) (hfin : (s'.svc i).final = true) : (s'.svc i).abort = true := by
  cases hb : (s.svc i).final with
  | true => exact abort_mono h i (hf.flag i hb)
  | false =>
    rcases hpost i hb with h1 | h1
    · simp [hfin] at h1
    · exact h1

lemma FlagsFirst.step (hg : Guarded (fun _ => false) p.shutdown) (hf : FlagsFirst s)
    (h : step p s a = some s') : FlagsFirst s' := by
  have hother : ∀ b ∈ s.acts, Guarded (fun i => (s'.svc i).abort) b.closing := fun b hb =>
    (hf.closing b hb).mono (abort_mono h)
  have hflag := hf.flag_step h
  cases step_moves h with
  | @close k c cs todo hk =>
    have hc := hf.closing _ (List.mem_of_getElem? hk)
    refine ⟨fun b hb => ?_, hflag fun i hi => ?_⟩
    · rcases List.mem_or_eq_of_mem_set hb with hb | rfl
      · exact hother b hb
      · exact hc.tail p.semMax
    · cases c with
      | disarm => exact Or.inl hi
      | abort j =>
        refine Or.inl ?_
        dsimp only [Close.on]
        split_ifs <;> exact hi
      | post j =>
        dsimp only [Close.on]
        split_ifs with hij
        · -- the post itself, which the flag guards
          rw [Service.close_abort]
          exact Or.inr (hij ▸ hc.1)
        · exact Or.inl hi
  | check hk =>
    refine ⟨fun b hb => ?_, hf.flag⟩
    rcases List.mem_or_eq_of_mem_set hb with hb | rfl
    · exact hother b hb
    · split_ifs
      · exact hg.mono (by simp)
      · trivial
  | @op k o todo ho hk =>
    refine ⟨fun b hb => ?_, hflag fun i hi => Or.inl ?_⟩
    · rcases List.mem_or_eq_of_mem_set hb with hb | rfl
      · exact hother b hb
      · trivial
    · cases o with
      | release j N =>
        dsimp only [Op.on]
        split_ifs
        · rw [Service.release_final, hi]
        · exact hi
      | _ => exact hi
  | fail => exact ⟨hf.closing, hf.flag⟩
  | @svc j v hv =>
    refine ⟨hother, hflag fun i hi => Or.inl ?_⟩
    by_cases hij : i = j
    · subst hij
      simpa [(Service.step_frame hv).2.1] using hi
    · simpa [hij] using hi
  | expire ha => exact ⟨hf.closing, hf.flag⟩
  | fire hp =>
    refine ⟨fun b hb => ?_, hf.flag⟩
    rcases List.mem_append.mp hb with hb | hb
    · exact hother b hb
    · rw [List.mem_singleton.mp hb]
      trivial

/-- **A shutdown that raises each flag before it posts strands nobody.** -/
theorem not_stranded_of_guarded (hp : ∀ i, .post i ∈ p.shutdown)
    (hg : Guarded (fun _ => false) p.shutdown) {as : List (Act ι)} {i : ι}
    (hr : run (Release.step p) (init p) as = some s) (hd : s.done = true) :
    ¬ (s.svc i).Stranded := by
  refine not_stranded hp (meets_of_inv (I := FlagsFirst) (fun _ _ _ hf h => hf.step hg h) ?_
    flagsFirst_init) hr hd
  rintro s a hf - ⟨-, ha, hfin, -⟩
  simp [hf.flag i hfin] at ha

/-- **A service that takes a release with its flag up never works again.** -/
theorem late_run {i : ι} {as : List (Act ι)} (hs : (s.svc i).Late)
    (hr : run (Release.step p) s as = some s') : (s'.svc i).Late :=
  run_inv (I := fun s => (s.svc i).Late)
    (fun _ _ _ hs h => svc_inv (I := Service.Late) (fun _ _ hv hp => hv.poked hp)
      (fun _ _ hv ho => hv.step ho) i hs h) hs hr

end Steps

end Rtes.Release
