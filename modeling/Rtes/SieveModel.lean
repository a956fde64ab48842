import Rtes.Bytes
import Rtes.Loop
import Rtes.Striped

/-!
The threaded sieve of `erastothenes_pthreads/erast.c`.

`MAX` and `NUM_THREADS` are the parameters `max` and `numThreads`. `malloc` gives the array
`MAX / 8 + 1` bytes or `main` exits, so `MAX` is far from the end of `unsigned long long` and
the numbers are naturals; the array itself is taken as unbounded. The calls of `set_isprime`
before the threads exist have the locks to themselves and are done whole. Printing and the
choice of a scheduling policy are left out.
-/

namespace Rtes.SieveModel

open Rtes.Bytes Rtes.Loop Rtes.Striped

/-- `MAX` and `NUM_THREADS`, which "must be divisible by 2". -/
structure Config where
  max : ℕ
  numThreads : ℕ
  pos : 0 < numThreads
  even : Even numThreads

/-- `NUM_LOCKS`. -/
def Config.numLocks (cfg : Config) : ℕ := 4 * cfg.numThreads

/-! ### The packed array -/

def chkIsprime (isprime : Buf) (i : ℕ) : Bool :=
  decide (isprime (i / 8) &&& ((1 : Byte) <<< (i % 8)) > 0)

/-- What `set_isprime` makes of the byte it reads. -/
def setByte (i : ℕ) (val b : Byte) : Byte :=
  if val > 0 then b ||| ((1 : Byte) <<< (i % 8)) else b &&& ~~~((1 : Byte) <<< (i % 8))

def setIsprime (isprime : Buf) (i : ℕ) (val : Byte) : Buf :=
  Function.update isprime (i / 8) (setByte i val (isprime (i / 8)))

lemma chkIsprime_eq (isprime : Buf) (i : ℕ) :
    chkIsprime isprime i = (isprime (i / 8)).getLsbD (i % 8) := by
  have hbit : ∀ (r : Fin 8) (b : Byte),
      decide (b &&& ((1 : Byte) <<< (r : ℕ)) > 0) = b.getLsbD r := by decide +kernel
  exact hbit ⟨i % 8, by omega⟩ (isprime (i / 8))

lemma setByte_bit (i : ℕ) (val b : Byte) {r : ℕ} (hr : r < 8) : (setByte i val b).getLsbD r =
    if r = i % 8 then decide (val > 0) else b.getLsbD r := by
  have hone : ∀ q r : Fin 8, ((1 : Byte) <<< (q : ℕ)).getLsbD r = decide (r = q) := by decide
  have hmask : ((1 : Byte) <<< (i % 8)).getLsbD r = decide (r = i % 8) := by
    rw [hone ⟨i % 8, by omega⟩ ⟨r, hr⟩]
    simp
  unfold setByte
  by_cases hv : val > 0
  · rw [if_pos hv, BitVec.getLsbD_or, hmask, decide_eq_true hv]
    split_ifs with hi
    · rw [decide_eq_true hi, Bool.or_true]
    · rw [decide_eq_false hi, Bool.or_false]
  · rw [if_neg hv, BitVec.getLsbD_and, BitVec.getLsbD_not, hmask, decide_eq_false hv,
      decide_eq_true hr, Bool.true_and]
    split_ifs with hi
    · rw [decide_eq_true hi, Bool.not_true, Bool.and_false]
    · rw [decide_eq_false hi, Bool.not_false, Bool.and_true]

/-- **The array holds one bit for each index.** -/
theorem chkIsprime_setIsprime (isprime : Buf) (i k : ℕ) (val : Byte) :
    chkIsprime (setIsprime isprime i val) k =
      if k = i then decide (val > 0) else chkIsprime isprime k := by
  rw [chkIsprime_eq, chkIsprime_eq]
  unfold setIsprime
  by_cases hb : k / 8 = i / 8
  · have hki : k = i ↔ k % 8 = i % 8 := by omega
    rw [hb, Function.update_self, setByte_bit _ _ _ (by omega)]
    simp only [hki]
  · rw [Function.update_of_ne hb, if_neg (by rintro rfl; exact hb rfl)]

/-- Some indices set to one value after another. -/
lemma chkIsprime_foldl (is : List ℕ) (val : Byte) (isprime : Buf) (k : ℕ) :
    chkIsprime (is.foldl (fun b i => setIsprime b i val) isprime) k =
      if k ∈ is then decide (val > 0) else chkIsprime isprime k := by
  induction is generalizing isprime with
  | nil => simp
  | cons i is ih =>
    rw [List.foldl_cons, ih, chkIsprime_setIsprime]
    by_cases hk : k = i <;> simp [hk]

/-! ### The threads -/

/-- `threadID` after the loop
`for(idx=0, ridx=(NUM_THREADS-1); idx<NUM_THREADS; idx+=2, ridx-=2)`; both branches of its
body are the same. `ridx` is never negative when it is stored. -/
def threadID (numThreads : ℕ) : ℕ → ℕ :=
  ((List.range' 0 ((numThreads + 1) / 2) 2).foldl
    (fun ((ridx, id) : ℤ × (ℕ → ℕ)) idx =>
      (ridx - 2, Function.update (Function.update id idx ridx.toNat) (idx + 1) idx))
    ((numThreads : ℤ) - 1, fun _ => 0)).2

structure ThreadArgs where
  threadIdx : ℕ
  j : ℕ
  p : ℕ

/-- The loop of `invalidate_thread`: the next call of `set_isprime` from the loop test on. -/
def invalidateThread (cfg : Config) (thargs : ThreadArgs) : Option ((ℕ × Byte) × ThreadArgs) :=
  if thargs.j < cfg.max + 1 then
    if thargs.j + thargs.threadIdx * thargs.p > cfg.max + 1 then none
    else some ((thargs.j + thargs.threadIdx * thargs.p, 0),
      { thargs with j := thargs.j + cfg.numThreads * thargs.p })
  else none

/-- The threads: `set_isprime` is `sem_wait`, a read, a write and `sem_post`. -/
def threads (cfg : Config) : Code ThreadArgs (ℕ × Byte) ℕ Byte (Fin cfg.numLocks) where
  next := invalidateThread cfg
  cell o := o.1 / 8
  act o := setByte o.1 o.2
  lock idx := ⟨idx % cfg.numLocks, Nat.mod_lt _ (Nat.mul_pos (by decide) cfg.pos)⟩

/-- What `main` hands to the threads for a prime `p`. -/
def threadarg (cfg : Config) (p : ℕ) (t : Fin cfg.numThreads) : ThreadArgs :=
  ⟨threadID cfg.numThreads t, 2 * p, p⟩

/-- The loop of `SEQUENTIAL_INVALIDATE`. -/
def sequentialInvalidate (fuel : ℕ) (cfg : Config) (p : ℕ) (isprime : Buf) : Option Buf :=
  iter (fun ((j, isprime) : ℕ × Buf) =>
    some (if j < cfg.max + 1 then .inl (j + p, setIsprime isprime j 0) else .inr isprime))
    fuel (2 * p, isprime)

/-- The indices the loop of `SEQUENTIAL_INVALIDATE` hands to `set_isprime`. -/
def sequentialCalls (fuel : ℕ) (cfg : Config) (p : ℕ) : Option (List ℕ) :=
  iter (fun ((j, calls) : ℕ × List ℕ) =>
    some (if j < cfg.max + 1 then .inl (j + p, calls ++ [j]) else .inr calls)) fuel (2 * p, [])

/-- The inner loop of `SEQUENTIAL_GRID_INVALIDATE`: the indices it hands to `set_isprime`, and
the array. -/
def gridColumn (fuel : ℕ) (cfg : Config) (p threadIdx : ℕ) (isprime : Buf) :
    Option (List ℕ × Buf) :=
  iter (fun s : ℕ × List ℕ × Buf => match s with
    | (j, calls, isprime) =>
      some (if j < cfg.max + 1 then
        if j + threadIdx * p > cfg.max + 1 then .inr (calls, isprime)
        else .inl (j + cfg.numThreads * p, calls ++ [j + threadIdx * p],
          setIsprime isprime (j + threadIdx * p) 0)
      else .inr (calls, isprime))) fuel (2 * p, [], isprime)

/-- The first `n` columns of `SEQUENTIAL_GRID_INVALIDATE`, one after another. -/
def gridColumns (fuel : ℕ) (cfg : Config) (p n : ℕ) (isprime : Buf) : Option (List ℕ × Buf) :=
  (List.range n).foldlM (fun (calls, isprime) threadIdx =>
    (gridColumn fuel cfg p threadIdx isprime).map fun (more, isprime) => (calls ++ more, isprime))
    ([], isprime)

def gridInvalidate (fuel : ℕ) (cfg : Config) (p : ℕ) (isprime : Buf) : Option (List ℕ × Buf) :=
  gridColumns fuel cfg p cfg.numThreads isprime

/-! ### main -/

/-- The state of `main` at the head of its `while` loop. -/
structure Main (cfg : Config) where
  p : ℕ
  isprime : Buf
  sem : Fin cfg.numLocks → ℕ

/-- `sem_init` with `0`, then `sem_post`, on each lock. -/
def initLocks (n : ℕ) : Fin n → ℕ :=
  (List.finRange n).foldl (fun sem idx =>
    let sem := Function.update sem idx 0
    Function.update sem idx (sem idx + 1)) fun _ => 0

/-- `main` up to the `while` loop, with `junk` in the memory from `malloc`. -/
def start (cfg : Config) (junk : Buf) : Main cfg where
  p := 2
  isprime := (List.range' 2 (cfg.max - 2)).foldl (fun b i => setIsprime b i 1)
    (Function.update junk 0 0xFC)
  sem := initLocks cfg.numLocks

/-- The search for the next prime from `p + 1` on; `p` stays if there is none. -/
def nextPrime (cfg : Config) (isprime : Buf) (p : ℕ) : ℕ :=
  ((List.range' (p + 1) (cfg.max - p)).find? (chkIsprime isprime)).getD p

/-- One round of the `while` loop, the threads interleaved in any way. -/
inductive Round (cfg : Config) : Main cfg → Main cfg → Prop
  | mk {m : Main cfg} {sched : List (Fin cfg.numThreads)}
      {s : State (Fin cfg.numThreads) ThreadArgs (ℕ × Byte) ℕ Byte (Fin cfg.numLocks)}
      (hp : m.p * m.p ≤ cfg.max)
      (hrun : run (threads cfg) (spawn m.isprime m.sem (threadarg cfg m.p)) sched = some s)
      (hdone : ∀ t, s.pc t = .done) :
      Round cfg m ⟨nextPrime cfg s.mem m.p, s.mem, s.sem⟩

end Rtes.SieveModel
