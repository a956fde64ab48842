import Rtes.SeqTimetable

/-!
The synthetic load of the VxWorks services, the macro `FIB_TEST` of `ex0.c` and `ex3.c`.

The macro works on the locals of the service, which live across its releases. It sets `idx`
anew but not `jdx`, so only the first turn of the first release does any work. Steps of the
inner loop are counted beside the locals.
-/

namespace Rtes.SeqLoad

open Rtes.SeqTimetable

structure Locals where
  idx : UInt32
  jdx : UInt32
  fib : UInt32
  fib0 : UInt32
  fib1 : UInt32

/-- The body of the inner loop. -/
def Locals.fibStep (l : Locals) : Locals :=
  { l with fib0 := l.fib1, fib1 := l.fib, fib := l.fib1 + l.fib, jdx := l.jdx + 1 }

/-- The step of the outer loop. -/
def Locals.next (l : Locals) : Locals := { l with idx := l.idx + 1 }

lemma toNat_add_one {x y : UInt32} (h : x < y) : (x + 1).toNat = x.toNat + 1 := by
  have hx := UInt32.lt_iff_toNat_lt.mp h
  have hy := y.toNat_lt
  have hone : (1 : UInt32).toNat = 1 := rfl
  rw [UInt32.toNat_add, hone]
  exact Nat.mod_eq_of_lt (by omega)

/-- The inner loop, with the steps done before it. -/
def inner (seqCnt : UInt32) (l : Locals) (done : ℕ) : Locals × ℕ :=
  if h : l.jdx < seqCnt then inner seqCnt l.fibStep (done + 1) else (l, done)
termination_by seqCnt.toNat - l.jdx.toNat
decreasing_by
  have hlt := UInt32.lt_iff_toNat_lt.mp h
  have hadd := toNat_add_one h
  change seqCnt.toNat - (l.jdx + 1).toNat < _
  omega

lemma inner_idx (seqCnt : UInt32) (l : Locals) (done : ℕ) :
    (inner seqCnt l done).1.idx = l.idx := by
  fun_induction inner with
  | case1 l done h ih => exact ih
  | case2 l done h => rfl

/-- The outer loop, from the value that `idx` has. -/
def outer (seqCnt iterCnt : UInt32) (l : Locals) (done : ℕ) : Locals × ℕ :=
  if _h : l.idx < iterCnt then
    let r := inner seqCnt { l with fib := l.fib0 + l.fib1 } done
    outer seqCnt iterCnt r.1.next r.2
  else (l, done)
termination_by iterCnt.toNat - l.idx.toNat
decreasing_by
  have hlt := UInt32.lt_iff_toNat_lt.mp _h
  have hadd := toNat_add_one _h
  have hidx : r.1.idx = l.idx := inner_idx ..
  change iterCnt.toNat - (r.1.idx + 1).toNat < _
  rw [hidx, hadd]
  omega

def fibTest (seqCnt iterCnt : UInt32) (l : Locals) : Locals × ℕ :=
  outer seqCnt iterCnt { l with idx := 0 } 0

inductive Example
  | ex0
  | ex3

def FIB_LIMIT_FOR_32_BIT : UInt32 := 47

/-- The second argument that the services give to `FIB_TEST`. -/
def iterCnt : Example → Service → UInt32
  | .ex0, .S1 => 17500
  | .ex0, .S2 => 17500
  | .ex0, .S3 => 35000
  | .ex3, .S1 => 17500
  | .ex3, .S2 => 35000
  | .ex3, .S3 => 52500

/-- The locals when a service starts. -/
def start : Locals := ⟨0, 1, 0, 0, 1⟩

/-- A service: its locals, its counter `fib1Cnt`, `fib2Cnt` or `fib3Cnt`, and the steps of each
release so far. -/
structure Task where
  locals : Locals
  fibCnt : UInt32
  loads : List ℕ

/-- Once round the loop of a service, from `semTake` on. -/
def release (seqIterations : UInt32) (x : Example) (i : Service) (t : Task) : Task :=
  let r := fibTest seqIterations (iterCnt x i) t.locals
  ⟨r.1, t.fibCnt + 1, t.loads ++ [r.2]⟩

/-- `fibS1`, `fibS2` or `fibS3` after `n` releases. -/
def releases (seqIterations : UInt32) (x : Example) (i : Service) : ℕ → Task
  | 0 => ⟨start, 0, []⟩
  | n + 1 => release seqIterations x i (releases seqIterations x i n)

/-- The inner loop counts `jdx` up to its bound. -/
lemma inner_eq (seqCnt : UInt32) (l : Locals) (done : ℕ) :
    (inner seqCnt l done).2 = done + (seqCnt.toNat - l.jdx.toNat) ∧
      (inner seqCnt l done).1.jdx.toNat = max l.jdx.toNat seqCnt.toNat := by
  fun_induction inner with
  | case1 l done h ih =>
    have hlt := UInt32.lt_iff_toNat_lt.mp h
    have hadd : l.fibStep.jdx.toNat = l.jdx.toNat + 1 := toNat_add_one h
    rw [hadd] at ih
    omega
  | case2 l done h =>
    have hlt := mt UInt32.lt_iff_toNat_lt.mpr h
    dsimp only
    omega

/-- All the work of the outer loop is in its first turn. -/
lemma outer_eq (seqCnt iterCnt : UInt32) (l : Locals) (done : ℕ) :
    (outer seqCnt iterCnt l done).2 =
        done + (if l.idx < iterCnt then seqCnt.toNat - l.jdx.toNat else 0) ∧
      (outer seqCnt iterCnt l done).1.jdx.toNat =
        if l.idx < iterCnt then max l.jdx.toNat seqCnt.toNat else l.jdx.toNat := by
  fun_induction outer with
  | case1 l done h r ih =>
    obtain ⟨hdone, hjdx⟩ : r.2 = done + (seqCnt.toNat - l.jdx.toNat) ∧
        r.1.jdx.toNat = max l.jdx.toNat seqCnt.toNat := inner_eq ..
    have hnext : r.1.next.jdx.toNat = max l.jdx.toNat seqCnt.toNat := hjdx
    rw [if_pos h, if_pos h]
    -- the turns that follow find `jdx` at the bound
    rw [hnext] at ih
    split_ifs at ih <;> omega
  | case2 l done h => rw [if_neg h, if_neg h]; exact ⟨rfl, rfl⟩

lemma fibTest_eq (seqCnt : UInt32) (x : Example) (i : Service) (l : Locals) :
    (fibTest seqCnt (iterCnt x i) l).2 = seqCnt.toNat - l.jdx.toNat ∧
      (fibTest seqCnt (iterCnt x i) l).1.jdx.toNat = max l.jdx.toNat seqCnt.toNat := by
  have hpos : 0 < iterCnt x i := by cases x <;> cases i <;> decide
  obtain ⟨hdone, hjdx⟩ := outer_eq seqCnt (iterCnt x i) { l with idx := 0 } 0
  rw [if_pos hpos, zero_add] at hdone
  rw [if_pos hpos] at hjdx
  exact ⟨hdone, hjdx⟩

/-- **The loads of a run**: the first release does one sequence, the others nothing. -/
lemma releases_eq (seqIterations : UInt32) (x : Example) (i : Service) (n : ℕ) :
    (releases seqIterations x i (n + 1)).loads =
        (seqIterations.toNat - 1) :: List.replicate n 0 ∧
      (releases seqIterations x i (n + 1)).locals.jdx.toNat = max 1 seqIterations.toNat := by
  induction n with
  | zero =>
    obtain ⟨hdone, hjdx⟩ := fibTest_eq seqIterations x i start
    exact ⟨congrArg (fun k => [k]) hdone, hjdx⟩
  | succ n ih =>
    obtain ⟨hloads, hjdx⟩ := ih
    obtain ⟨hdone, hjdx'⟩ :=
      fibTest_eq seqIterations x i (releases seqIterations x i (n + 1)).locals
    rw [hjdx] at hdone hjdx'
    have hzero : seqIterations.toNat - max 1 seqIterations.toNat = 0 := by omega
    refine ⟨?_, hjdx'.trans (by omega)⟩
    calc (releases seqIterations x i (n + 1 + 1)).loads
        = (releases seqIterations x i (n + 1)).loads ++ [_] := rfl
      _ = ((seqIterations.toNat - 1) :: List.replicate n 0) ++ [0] := by rw [hloads, hdone, hzero]
      _ = (seqIterations.toNat - 1) :: List.replicate (n + 1) 0 := by
          rw [List.cons_append, ← List.replicate_succ']

/-- One sequence is as much as `iterCnt` of them only where it has no steps. -/
lemma first_full_iff (seqIterations : UInt32) (x : Example) (i : Service) :
    ((seqIterations.toNat - 1 : ℕ) : ℤ) = (iterCnt x i).toNat * (seqIterations.toNat - 1) ↔
      seqIterations = 1 := by
  have hcnt : 1 < (iterCnt x i).toNat := by cases x <;> cases i <;> decide
  have hone : seqIterations = 1 ↔ seqIterations.toNat = 1 := UInt32.toNat_inj.symm
  rw [hone]
  constructor
  · intro h
    rcases Nat.lt_or_ge seqIterations.toNat 1 with hs | hs
    · obtain hs : seqIterations.toNat = 0 := by omega
      rw [hs] at h
      omega
    · rw [Nat.cast_sub hs, Nat.cast_one] at h
      by_contra hne
      have hcnt1 := (right_eq_mul₀ (by omega)).mp h
      omega
  · intro h
    rw [h, Nat.cast_one, sub_self, mul_zero]
    rfl

/-- **Every release does its full load exactly where there is none to do**: no release, or a
sequence of one. -/
theorem loads_full_iff (seqIterations : UInt32) (x : Example) (i : Service) (n : ℕ) :
    (∀ k ∈ (releases seqIterations x i n).loads,
      (k : ℤ) = (iterCnt x i).toNat * (seqIterations.toNat - 1)) ↔
      n = 0 ∨ seqIterations = 1 := by
  rcases n with _ | n
  · exact iff_of_true (fun k hk => absurd hk (List.not_mem_nil)) (Or.inl rfl)
  · obtain ⟨hloads, -⟩ := releases_eq seqIterations x i n
    rw [hloads, List.forall_mem_cons, first_full_iff, or_iff_right (Nat.succ_ne_zero n),
      and_iff_left_iff_imp]
    rintro rfl k hk
    rw [List.eq_of_mem_replicate hk]
    rfl

/-- With the value that `seqIterations` has in the source, the first release of `S1` falls
short. -/
theorem loads_short : ¬ ∀ k ∈ (releases FIB_LIMIT_FOR_32_BIT .ex0 .S1 1).loads,
    (k : ℤ) = (iterCnt .ex0 .S1).toNat * (FIB_LIMIT_FOR_32_BIT.toNat - 1) := by
  rw [(releases_eq FIB_LIMIT_FOR_32_BIT .ex0 .S1 0).1]
  decide

end Rtes.SeqLoad
