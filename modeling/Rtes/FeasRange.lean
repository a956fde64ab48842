import Rtes.Checked
import Rtes.FeasReturn

/-!
The two exact tests of `Feasibility/feasibility_tests.c` in the types of the source.

`an` and `anext` are `unsigned int` and `temp` is `int`. The sum that `an` starts from wraps
around. The other sums are `double`s converted back at every addition, and the conversion of
a value out of range has no defined result, so here the test has none. A `double` holds the
quotients, products and sums exactly as long as they are in range.
-/

namespace Rtes.FeasRange

open Rtes.Loop Rtes.Checked Rtes.FeasModel Rtes.FeasExact Rtes.FeasPoints Rtes.FeasReturn
open Rtes.Preempt Finset

/-! ### The tests -/

def anStart32 (wcet : ℕ → ℕ) (i : ℕ) : ℕ :=
  (List.range (i + 1)).foldl (fun an j => (an + wcet j) % 2 ^ 32) 0

def anNext32 (period wcet : ℕ → ℕ) (i an : ℕ) : Option ℕ :=
  sumFit (2 ^ 32) (fun j => (an ⌈/⌉ period j) * wcet j) (wcet i) i

def completionLoop32 (period wcet : ℕ → ℕ) (i fuel : ℕ) : Option ℕ :=
  iter (fun an => (anNext32 period wcet i an).map fun anext =>
    if anext = an then .inr an else .inl anext) fuel (anStart32 wcet i)

def completionTimeFeasibility32 (fuel numServices : ℕ) (period wcet deadline : ℕ → ℕ) :
    Option Bool :=
  (List.range numServices).foldlM (fun setFeasible i => do
    let an ← completionLoop32 period wcet i fuel
    pure (if an > deadline i then false else setFeasible)) true

def temp32 (period wcet : ℕ → ℕ) (i k l : ℕ) : Option ℕ :=
  sumFit (2 ^ 31) (fun j => wcet j * ((l * period k) ⌈/⌉ period j)) 0 (i + 1)

/-- Both loops are left at the first point whose work fits. -/
def status32 (period wcet : ℕ → ℕ) (i : ℕ) : Option Bool :=
  (List.range (i + 1)).anyM fun k =>
    (List.range' 1 (period i / period k)).anyM fun l =>
      (temp32 period wcet i k l).map fun temp => decide (temp ≤ l * period k)

def schedulingPointFeasibility32 (numServices : ℕ) (period wcet _deadline : ℕ → ℕ) :
    Option Bool :=
  (List.range numServices).foldlM (fun rc i => do
    let status ← status32 period wcet i
    pure (if status then rc else false)) true

/-! ### The scheduling-point test -/

/-- What the services up to `i` need in the first `t` units. -/
def work (period wcet : ℕ → ℕ) (i t : ℕ) : ℕ :=
  ∑ j ∈ range (i + 1), wcet j * (t ⌈/⌉ period j)

/-- The points `l*period[k]` within the period of service `i`. -/
def Point (period : ℕ → ℕ) (i k l : ℕ) : Prop := k ≤ i ∧ 1 ≤ l ∧ l ≤ period i / period k

/-- Every point at which the services up to `i` need `2^31` units or more comes after one
that fits, in the order of `k` and then `l`. -/
def FitsFirst (period wcet : ℕ → ℕ) (i : ℕ) : Prop :=
  ∀ k l, Point period i k l → 2 ^ 31 ≤ work period wcet i (l * period k) →
    ∃ k' l', Point period i k' l' ∧ (k' < k ∨ k' = k ∧ l' < l) ∧
      work period wcet i (l' * period k') ≤ l' * period k'

variable {period wcet : ℕ → ℕ} {i : ℕ}

lemma temp_eq_work (k l : ℕ) : temp period wcet i k l = work period wcet i (l * period k) :=
  temp_eq period wcet i k l

lemma temp32_eq (k l : ℕ) : temp32 period wcet i k l = fit (2 ^ 31) (temp period wcet i k l) := by
  rw [temp32, sumFit_eq (by decide), Nat.zero_add, ← temp_eq]

/-- The test of one point. -/
lemma fits32_eq_some {k l : ℕ} {b : Bool} :
    (temp32 period wcet i k l).map (fun temp => decide (temp ≤ l * period k)) = some b ↔
      temp period wcet i k l < 2 ^ 31 ∧ b = decide (temp period wcet i k l ≤ l * period k) := by
  rw [temp32_eq, Option.map_eq_some_iff]
  simp only [fit_eq_some]
  constructor
  · rintro ⟨x, ⟨rfl, hlt⟩, rfl⟩
    exact ⟨hlt, rfl⟩
  · rintro ⟨hlt, rfl⟩
    exact ⟨_, ⟨rfl, hlt⟩, rfl⟩

/-- The points of one `k`. -/
lemma points32_iff (k : ℕ) :
    (List.range' 1 (period i / period k)).anyM (fun l =>
        (temp32 period wcet i k l).map fun temp => decide (temp ≤ l * period k)) =
      some ((List.range' 1 (period i / period k)).any fun l =>
        decide (temp period wcet i k l ≤ l * period k)) ↔
    ∀ l, 1 ≤ l → l ≤ period i / period k → 2 ^ 31 ≤ temp period wcet i k l →
      ∃ l', 1 ≤ l' ∧ l' < l ∧ temp period wcet i k l' ≤ l' * period k := by
  rw [anyM_range' fun l _ _ b hb => (fits32_eq_some.mp hb).2]
  simp only [fits32_eq_some, and_true, decide_eq_true_eq]
  constructor
  · intro h l h1 h2 hbig
    rcases h l h1 (by omega) with hfit | hlt
    · exact hfit
    · omega
  · intro h l h1 h2
    by_cases hbig : 2 ^ 31 ≤ temp period wcet i k l
    · exact Or.inl (h l h1 (by omega) hbig)
    · exact Or.inr (not_le.mp hbig)

/-- **The search for service `i` gets through** exactly when it finds a point that fits
before one that is out of range. -/
theorem status32_iff : status32 period wcet i = some (status period wcet i) ↔
    FitsFirst period wcet i := by
  have hinner : ∀ k b, (List.range' 1 (period i / period k)).anyM (fun l =>
        (temp32 period wcet i k l).map fun temp => decide (temp ≤ l * period k)) = some b →
      b = (List.range' 1 (period i / period k)).any fun l =>
        decide (temp period wcet i k l ≤ l * period k) := fun k b hb =>
    anyM_eq_any (fun l _ b hb => (fits32_eq_some.mp hb).2) hb
  rw [status32, status, List.range_eq_range', anyM_range' fun k _ _ => hinner k]
  simp only [points32_iff, List.any_eq_true, List.mem_range'_1, decide_eq_true_eq]
  constructor
  · rintro h k l ⟨hk, h1, h2⟩ hbig
    rw [← temp_eq_work] at hbig
    rcases h k (Nat.zero_le k) (by omega) with ⟨k', -, hk', l', ⟨h1', h2'⟩, hfit⟩ | hl
    · rw [temp_eq_work] at hfit
      exact ⟨k', l', ⟨by omega, h1', by omega⟩, Or.inl hk', hfit⟩
    · obtain ⟨l', h1', hlt, hfit⟩ := hl l h1 h2 hbig
      rw [temp_eq_work] at hfit
      exact ⟨k, l', ⟨hk, h1', by omega⟩, Or.inr ⟨rfl, hlt⟩, hfit⟩
  · intro h k _ hk
    by_cases hearly : ∃ k', 0 ≤ k' ∧ k' < k ∧ ∃ l, (1 ≤ l ∧ l < 1 + period i / period k') ∧
        temp period wcet i k' l ≤ l * period k'
    · exact Or.inl hearly
    · refine Or.inr fun l h1 h2 hbig => ?_
      rw [temp_eq_work] at hbig
      obtain ⟨k', l', ⟨hk', h1', h2'⟩, hlt | ⟨rfl, hlt⟩, hfit⟩ := h k l ⟨by omega, h1, h2⟩ hbig
      · rw [← temp_eq_work] at hfit
        exact absurd ⟨k', Nat.zero_le k', hlt, l', ⟨h1', by omega⟩, hfit⟩ hearly
      · rw [← temp_eq_work] at hfit
        exact ⟨l', h1', hlt, hfit⟩

/-- What the search finds, if it gets through. -/
lemma status32_eq {b : Bool} (h : status32 period wcet i = some b) :
    b = status period wcet i := by
  refine anyM_eq_any (fun k _ b hb => ?_) h
  exact anyM_eq_any (fun l _ b hb => (fits32_eq_some.mp hb).2) hb

lemma scheduling32_iff {n : ℕ} {deadline : ℕ → ℕ} :
    schedulingPointFeasibility32 n period wcet deadline =
        some (schedulingPointFeasibility n period wcet deadline) ↔
      ∀ i < n, FitsFirst period wcet i := by
  have h := foldlM_eq_some (fun rc _ status => if status then rc else false)
    (p := status32 period wcet) (l := List.range n) (a := true)
    (r := schedulingPointFeasibility n period wcet deadline) fun i _ _ hb => status32_eq hb
  refine h.trans ((and_iff_left rfl).trans ?_)
  simp only [List.mem_range, status32_iff]

/-! ### The completion test -/

lemma anNext32_eq (hw : wcet i < 2 ^ 32) (an : ℕ) :
    anNext32 period wcet i an = fit (2 ^ 32) (anNext period wcet i an) := by
  rw [anNext32, sumFit_eq hw, ← anNext_eq]

/-- At a utilisation of at most one the first jobs together fit in the longest period. -/
lemma anStart_lt (h32 : ∀ j ≤ i, period j < 2 ^ 32) (hp : ∀ j ≤ i, 1 ≤ period j)
    (hU : load period wcet (i + 1) ≤ 1) : anStart wcet i < 2 ^ 32 := by
  have hsum : (∑ j ∈ range (i + 1), (wcet j : ℚ)) ≤
      ∑ j ∈ range (i + 1), (wcet j : ℚ) / period j * (2 ^ 32 - 1) := by
    refine sum_le_sum fun j hj => ?_
    have hji : j ≤ i := Nat.lt_succ_iff.mp (mem_range.mp hj)
    have hpos : (0 : ℚ) < period j := by exact_mod_cast hp j hji
    have hlt : (period j : ℚ) + 1 ≤ 2 ^ 32 := by exact_mod_cast h32 j hji
    calc (wcet j : ℚ) = (wcet j : ℚ) / period j * period j := by field_simp
      _ ≤ (wcet j : ℚ) / period j * (2 ^ 32 - 1) := by
        gcongr
        linarith
  rw [← sum_mul, ← load] at hsum
  have hle : (anStart wcet i : ℚ) < 2 ^ 32 := by
    rw [anStart_eq]
    push_cast
    nlinarith
  exact_mod_cast hle

lemma anStart32_eq (h : anStart wcet i < 2 ^ 32) : anStart32 wcet i = anStart wcet i := by
  rw [anStart32, foldl_add_mod, ← anStart_eq, Nat.mod_eq_of_lt h]

section Loop

variable (hs : anStart wcet i < 2 ^ 32) (hw : wcet i < 2 ^ 32)

include hs hw

/-- A result in range is the exact one. -/
lemma completionLoop_of_32 {fuel an : ℕ} (h : completionLoop32 period wcet i fuel = some an) :
    completionLoop period wcet i fuel = some an ∧ an < 2 ^ 32 := by
  rw [completionLoop32, anStart32_eq hs] at h
  refine ⟨iter_mono (fun a x hx => ?_) le_rfl h, ?_⟩
  · rw [anNext32_eq hw, Option.map_eq_some_iff] at hx
    obtain ⟨anext, ha, rfl⟩ := hx
    obtain ⟨rfl, -⟩ := fit_eq_some.mp ha
    rfl
  · refine iter_inv (fun _ => True) (· < 2 ^ 32) (fun _ _ _ _ => trivial) ?_ trivial h
    intro a r _ hr
    rw [anNext32_eq hw, Option.map_eq_some_iff] at hr
    obtain ⟨anext, ha, hr⟩ := hr
    obtain ⟨rfl, hlt⟩ := fit_eq_some.mp ha
    split_ifs at hr with he
    rw [he] at hlt
    exact Sum.inr.inj hr ▸ hlt

/-- The values of `an` only grow, so if the last is in range all are. -/
lemma completionLoop32_of_lt {fuel an : ℕ} (h : completionLoop period wcet i fuel = some an)
    (hlt : an < 2 ^ 32) (hle : anStart wcet i ≤ an) :
    completionLoop32 period wcet i fuel = some an := by
  rw [completionLoop32, anStart32_eq hs, ← h]
  have hfix : ∀ a ≤ an, anNext period wcet i a ≤ an := fun a ha =>
    (anNext_mono ha).trans_eq (settle_fixed h)
  refine iter_congr (· ≤ an) (fun a ha => ?_) (fun a a' ha hstep => ?_) hle fuel
  · rw [anNext32_eq hw, fit_eq_some.mpr ⟨rfl, (hfix a ha).trans_lt hlt⟩]
    rfl
  · have heq := Option.some.inj hstep
    split_ifs at heq
    exact Sum.inl.inj heq ▸ hfix a ha

end Loop

/-- The test gets through exactly when the loop of each service does. -/
lemma verdict_eq_some (loop : ℕ → Option ℕ) {n : ℕ} {deadline : ℕ → ℕ} {b : Bool} {q : ℕ → ℕ}
    (hq : ∀ i < n, ∀ an, loop i = some an → an = q i) :
    (List.range n).foldlM (fun ok i => do
        let an ← loop i
        pure (if an > deadline i then false else ok)) true = some b ↔
      (∀ i < n, loop i = some (q i)) ∧
        b = (List.range n).foldl (fun ok i => if q i > deadline i then false else ok) true := by
  have h := foldlM_eq_some (fun ok i an => if an > deadline i then false else ok)
    (l := List.range n) (a := true) (r := b) fun i hi an => hq i (List.mem_range.mp hi) an
  simp only [List.mem_range] at h
  exact h

/-- **No overflow.** At a utilisation of at most one both tests stay in the range of their
variables, and so decide as on exact numbers, exactly when for each service some `t < 2^32`
covers its demand and every point at which the services up to it need `2^31` units or more
comes after one that fits. -/
theorem no_overflow_iff {n : ℕ} {period wcet : ℕ → ℕ} (deadline : ℕ → ℕ)
    (h32 : ∀ j < n, period j < 2 ^ 32) (hw : ∀ j < n, 1 ≤ wcet j ∧ wcet j ≤ period j)
    (hU : ∑ j ∈ range n, (wcet j : ℚ) / (period j : ℚ) ≤ 1) :
    (schedulingPointFeasibility32 n period wcet deadline =
        some (schedulingPointFeasibility n period wcet deadline) ∧
      ∃ fuel b, completionTimeFeasibility32 fuel n period wcet deadline = some b ∧
        completionTimeFeasibility fuel n period wcet deadline = some b) ↔
    (∀ i < n, FitsFirst period wcet i) ∧
      ∀ i < n, ∃ t, 1 ≤ t ∧ t < 2 ^ 32 ∧ demand period wcet i t ≤ t := by
  rw [scheduling32_iff]
  refine and_congr_right fun _ => ?_
  have hp : ∀ j < n, 1 ≤ period j := fun j hj => (hw j hj).1.trans (hw j hj).2
  have hpi : ∀ i < n, ∀ j ≤ i, 1 ≤ period j := fun i hi j hj => hp j (by omega)
  have hwi : ∀ i < n, wcet i < 2 ^ 32 := fun i hi => (hw i hi).2.trans_lt (h32 i hi)
  have hs : ∀ i < n, anStart wcet i < 2 ^ 32 := fun i hi =>
    anStart_lt (fun j hj => h32 j (by omega)) (hpi i hi)
      ((load_mono period wcet (Nat.succ_le_of_lt hi)).trans hU)
  have hone : ∀ i < n, 1 ≤ anStart wcet i := by
    intro i hi
    rw [anStart_eq]
    exact (hw i hi).1.trans (single_le_sum_of_canonicallyOrdered (self_mem_range_succ i))
  rw [← anNext_eq_demand]
  constructor
  · rintro ⟨fuel, b, h, -⟩ i hi
    have hall := (verdict_eq_some (fun i => completionLoop32 period wcet i fuel)
      (q := fun i => (completionLoop32 period wcet i fuel).getD 0)
      fun i _ an han => by simp [han]).mp h
    obtain ⟨hloop, hlt⟩ := completionLoop_of_32 (hs i hi) (hwi i hi) (hall.1 i hi)
    have hle := settle_inv (anStart wcet i ≤ ·) (fun _ => anStart_le_anNext_of_le (hpi i hi))
      le_rfl hloop
    exact ⟨_, (hone i hi).trans hle, hlt, (settle_fixed hloop).le⟩
  · intro h
    obtain ⟨fuel, b, hb⟩ := completion_returns deadline fun i hi =>
      (completionLoop_returns_iff (hpi i hi)).mpr
        (Or.inl (load_lt_one hp (fun j hj => (hw j hj).1) hU hi))
    refine ⟨fuel, b, ?_, hb⟩
    have hall := (verdict_eq_some (fun i => completionLoop period wcet i fuel)
      (q := fun i => (completionLoop period wcet i fuel).getD 0)
      fun i _ an han => by simp [han]).mp hb
    refine
      (verdict_eq_some (fun i => completionLoop32 period wcet i fuel) fun i hi an han => ?_).mpr
      ⟨fun i hi => ?_, hall.2⟩
    · rw [(completionLoop_of_32 (hs i hi) (hwi i hi) han).1]
      rfl
    · have hloop := hall.1 i hi
      obtain ⟨t, ht, hlt, hcov⟩ := h i hi
      have hle := settle_inv (anStart wcet i ≤ ·) (fun _ => anStart_le_anNext_of_le (hpi i hi))
        le_rfl hloop
      refine completionLoop32_of_lt (hs i hi) (hwi i hi) hloop (lt_of_le_of_lt ?_ hlt) hle
      exact (completionLoop_le_iff (hpi i hi) hloop).mpr
        ⟨t, le_rfl, (anStart_le_anNext (hpi i hi) ht).trans hcov, hcov⟩

/-- Example 0 of the source. -/
theorem no_overflow_iff_ex0 :
    (∀ i < 3, FitsFirst (fun j => [2, 10, 15].getD j 0) (fun j => [1, 1, 2].getD j 0) i) ∧
      ∀ i < 3, ∃ t, 1 ≤ t ∧ t < 2 ^ 32 ∧
        demand (fun j => [2, 10, 15].getD j 0) (fun j => [1, 1, 2].getD j 0) i t ≤ t := by
  have hU : ∑ j ∈ range 3, ((([1, 1, 2] : List ℕ).getD j 0 : ℕ) : ℚ) /
      (([2, 10, 15] : List ℕ).getD j 0 : ℕ) ≤ 1 := by norm_num [sum_range_succ]
  exact (no_overflow_iff (fun j => [2, 10, 15].getD j 0) (by decide) (by decide) hU).mp
    ⟨by decide, 10, true, by decide, by decide⟩

/-- Periods of about four seconds, in nanoseconds. -/
def nsPeriod (j : ℕ) : ℕ := [4294967295, 4294967292, 4294967295].getD j 0

def nsWcet (j : ℕ) : ℕ := [2147483648, 2147483644, 1].getD j 0

/-- `temp` leaves its range at the first point of the first service, and `anext` in the first
round for the third. -/
theorem overflow_nanoseconds :
    (∀ j < 3, nsPeriod j < 2 ^ 32) ∧ (∀ j < 3, 1 ≤ nsWcet j ∧ nsWcet j ≤ nsPeriod j) ∧
    ∑ j ∈ range 3, (nsWcet j : ℚ) / (nsPeriod j : ℚ) ≤ 1 ∧
    temp32 nsPeriod nsWcet 0 0 1 = none ∧
    schedulingPointFeasibility32 3 nsPeriod nsWcet nsPeriod = none ∧
    anNext32 nsPeriod nsWcet 2 (anStart32 nsWcet 2) = none ∧
    ∀ fuel, completionTimeFeasibility32 fuel 3 nsPeriod nsWcet nsPeriod = none := by
  have hnext : anNext32 nsPeriod nsWcet 2 (anStart32 nsWcet 2) = none := by decide +kernel
  refine ⟨by decide, by decide, ?_, by decide +kernel, by decide +kernel, hnext, fun fuel => ?_⟩
  · norm_num [sum_range_succ, nsPeriod, nsWcet]
  · refine Option.eq_none_iff_forall_ne_some.mpr fun b h => ?_
    have hall := (verdict_eq_some (fun i => completionLoop32 nsPeriod nsWcet i fuel)
      (q := fun i => (completionLoop32 nsPeriod nsWcet i fuel).getD 0)
      fun i _ an han => by simp [han]).mp h
    have hloop : completionLoop32 nsPeriod nsWcet 2 fuel = none := by
      cases fuel with
      | zero => rfl
      | succ fuel => simp only [completionLoop32, iter, hnext, Option.map_none]
    have h2 := hall.1 2 (by decide)
    rw [hloop] at h2
    cases h2

end Rtes.FeasRange
