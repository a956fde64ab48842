import Mathlib

/-!
Preemptive fixed-priority scheduling of one core, in unit slots.

Service `j` outranks service `k` when `j < k`. At each instant the jobs released then join
the queue of their service, and the first service with an unfinished job runs the oldest
of its jobs for one unit. Nothing is dropped: a job leaves its queue only by finishing.

The two halves of response-time analysis are proved here. If `x` units are enough for one
job of `i` and everything that services above `i` can release in `x` units, then no job of
`i` takes longer than `x`; and when all services are released together at time `0`, the
first job of `i` cannot finish at an `f` that is too short for that.
-/

namespace Rtes.Preempt

open Finset

/-- A released job: when it was released, and the units it still has to run. -/
structure Job where
  release : ℕ
  left : ℕ
  deriving DecidableEq

/-- The unfinished jobs of each service, oldest first. -/
abbrev Ready := ℕ → List Job

section Schedule

variable (n : ℕ) (wcet : ℕ → ℕ) (arr : ℕ → ℕ → Bool)

/-- The jobs released at time `t` join the queues. -/
def join (t : ℕ) (q : Ready) : Ready := fun j =>
  if arr j t then q j ++ [⟨t, wcet j⟩] else q j

/-- The service of highest priority that has a job. -/
def pick (q : Ready) : Option ℕ := (List.range n).find? fun j => !(q j).isEmpty

/-- Run the oldest job of a queue for one unit. -/
def serve : List Job → List Job
  | [] => []
  | b :: rest => if b.left ≤ 1 then rest else { b with left := b.left - 1 } :: rest

/-- One slot: join, pick, run. -/
def slot (t : ℕ) (q : Ready) : Ready :=
  match pick n (join wcet arr t q) with
  | none => join wcet arr t q
  | some j => Function.update (join wcet arr t q) j (serve (join wcet arr t q j))

/-- The queues at time `t`, before the releases of that instant. -/
def ready : ℕ → Ready
  | 0 => fun _ => []
  | t + 1 => slot n wcet arr t (ready t)

/-- The queues at time `t`, with the releases of that instant. -/
def queued (t : ℕ) : Ready := join wcet arr t (ready n wcet arr t)

/-- The service that has the core in slot `t`. -/
def core (t : ℕ) : Option ℕ := pick n (queued n wcet arr t)

/-- The job of `i` released at `r` runs its last unit in the slot that ends at `f`. -/
def FinishesAt (i r f : ℕ) : Prop :=
  ∃ t, f = t + 1 ∧ core n wcet arr t = some i ∧
    (queued n wcet arr t i).head? = some ⟨r, 1⟩

/-- Every job of every service finishes at most `deadline` after its release. -/
def Meets (deadline : ℕ → ℕ) : Prop :=
  ∀ i < n, ∀ r, arr i r → ∃ f ≤ r + deadline i, FinishesAt n wcet arr i r f

/-- Consecutive releases of each service are at least its period apart. -/
def Spaced (period : ℕ → ℕ) : Prop :=
  ∀ j < n, ∀ u v, u < v → arr j u → arr j v → u + period j ≤ v

/-- The units run by service `j` in the `x` slots from `s`. -/
def ran (j s x : ℕ) : ℕ := ∑ u ∈ range x, if core n wcet arr (s + u) = some j then 1 else 0

end Schedule

/-- The number of jobs of service `j` released in the `x` instants from `s`. -/
def released (arr : ℕ → ℕ → Bool) (j s x : ℕ) : ℕ :=
  ∑ u ∈ range x, if arr j (s + u) then 1 else 0

/-- The units still to run in a queue. -/
def work (q : List Job) : ℕ := (q.map Job.left).sum

/-! ### Counting releases -/

lemma div_lt_ceilDiv {T u x : ℕ} (hT : 0 < T) (h : u < x) : u / T < x ⌈/⌉ T := by
  have hx : x ≤ T * (x ⌈/⌉ T) := (ceilDiv_le_iff_le_mul hT).mp le_rfl
  rw [Nat.div_lt_iff_lt_mul hT, Nat.mul_comm]
  omega

/-- **At most `⌈x / T⌉` of `T`-spaced points lie among `x` consecutive ones.** -/
theorem card_spaced_le {T : ℕ} (hT : 0 < T) (p : ℕ → Bool)
    (hp : ∀ u v, u < v → p u → p v → u + T ≤ v) (s x : ℕ) :
    (∑ u ∈ range x, if p (s + u) then 1 else 0) ≤ x ⌈/⌉ T := by
  rw [← card_filter, ← card_range (x ⌈/⌉ T)]
  refine card_le_card_of_injOn (· / T) ?_ ?_
  · intro u hu
    simp only [coe_filter, mem_range, Set.mem_ofPred_eq] at hu
    simpa using div_lt_ceilDiv hT hu.1
  · intro u hu v hv huv
    simp only [coe_filter, mem_range, Set.mem_ofPred_eq] at hu hv
    -- two points in one block of length `T` are closer than `T`
    have hmu := Nat.mod_add_div u T
    have hmv := Nat.mod_add_div v T
    have h1 := Nat.mod_lt u hT
    have h2 := Nat.mod_lt v hT
    simp only at huv
    rw [huv] at hmu
    rcases Nat.lt_trichotomy u v with h | h | h
    · have := hp _ _ (by omega) hu.2 hv.2; omega
    · exact h
    · have := hp _ _ (by omega) hv.2 hu.2; omega

/-- Exactly the multiples of `T` are released: at least `⌈x / T⌉` of them lie below `x`. -/
lemma ceilDiv_le_card_dvd {T : ℕ} (hT : 0 < T) (x : ℕ) :
    x ⌈/⌉ T ≤ ∑ u ∈ range x, if T ∣ u then 1 else 0 := by
  rw [← card_filter, ← card_range (x ⌈/⌉ T)]
  refine card_le_card_of_injOn (T * ·) ?_ ?_
  · intro k hk
    simp only [coe_range, Set.mem_Iio] at hk
    have : ¬ x ≤ T * k := fun h => absurd ((ceilDiv_le_iff_le_mul hT).mpr h) (by omega)
    simp only [coe_filter, mem_range, Set.mem_ofPred_eq, Nat.dvd_mul_right, and_true]
    omega
  · intro a _ b _ hab
    exact Nat.eq_of_mul_eq_mul_left hT hab

/-! ### One slot -/

section Slot

variable {n : ℕ} {wcet : ℕ → ℕ} {arr : ℕ → ℕ → Bool}

lemma pick_some {q : Ready} {j : ℕ} (h : pick n q = some j) :
    j < n ∧ q j ≠ [] ∧ ∀ k < j, q k = [] := by
  obtain ⟨hj, as, bs, heq, has⟩ := List.find?_eq_some_iff_append.mp h
  have hlen : as.length < n := by
    have := congrArg List.length heq; simp at this; omega
  have hget : ∀ k < n, (List.range n)[k]? = some k := fun k hk => List.getElem?_range hk
  have hjl : j = as.length := by
    have := hget as.length hlen
    rw [heq] at this
    simpa using this
  refine ⟨by omega, by simpa using hj, fun k hk => ?_⟩
  have hmem : k ∈ as := by
    have := hget k (by omega)
    rw [heq, List.getElem?_append_left (by omega)] at this
    exact List.mem_of_getElem? this
  simpa using has k hmem

lemma pick_le {q : Ready} {i : ℕ} (hi : i < n) (hq : q i ≠ []) :
    ∃ j ≤ i, pick n q = some j := by
  cases h : pick n q with
  | none =>
    have := List.find?_eq_none.mp h i (List.mem_range.mpr hi)
    simp [hq] at this
  | some j =>
    refine ⟨j, ?_, rfl⟩
    by_contra hlt
    exact hq ((pick_some h).2.2 i (by omega))

lemma ready_succ_of_ne {t j : ℕ} (h : core n wcet arr t ≠ some j) :
    ready n wcet arr (t + 1) j = queued n wcet arr t j := by
  unfold core queued at h
  simp only [ready, slot, queued]
  cases hp : pick n (join wcet arr t (ready n wcet arr t)) with
  | none => rfl
  | some k =>
    have hk : j ≠ k := fun e => h (by rw [hp, e])
    simp [Function.update_of_ne hk]

lemma ready_succ_of_eq {t j : ℕ} (h : core n wcet arr t = some j) :
    ready n wcet arr (t + 1) j = serve (queued n wcet arr t j) := by
  unfold core queued at h
  simp [ready, slot, queued, h]

lemma queued_of_not {t j : ℕ} (h : arr j t = false) :
    queued n wcet arr t j = ready n wcet arr t j := by
  simp [queued, join, h]

lemma queued_of_arr {t j : ℕ} (h : arr j t = true) :
    queued n wcet arr t j = ready n wcet arr t j ++ [⟨t, wcet j⟩] := by
  simp [queued, join, h]

lemma work_queued (t j : ℕ) : work (queued n wcet arr t j) =
    work (ready n wcet arr t j) + if arr j t then wcet j else 0 := by
  cases h : arr j t
  · simp [queued_of_not h]
  · simp [queued_of_arr h, work]

lemma mem_serve {q : List Job} {b : Job} (hb : b ∈ serve q) (hq : ∀ c ∈ q, 1 ≤ c.left) :
    1 ≤ b.left := by
  cases q with
  | nil => simp [serve] at hb
  | cons a rest =>
    by_cases ha : a.left ≤ 1
    · simp only [serve, ha, ↓reduceIte] at hb
      exact hq b (List.mem_cons_of_mem a hb)
    · simp only [serve, ha, ↓reduceIte, List.mem_cons] at hb
      rcases hb with rfl | hb
      · simp only; omega
      · exact hq b (List.mem_cons_of_mem a hb)

lemma work_serve {q : List Job} (hq : ∀ c ∈ q, 1 ≤ c.left) (hne : q ≠ []) :
    work (serve q) + 1 = work q := by
  cases q with
  | nil => exact absurd rfl hne
  | cons a rest =>
    have ha := hq a (by simp)
    by_cases h1 : a.left ≤ 1
    · simp only [serve, h1, ↓reduceIte, work, List.map_cons, List.sum_cons]; omega
    · simp only [serve, h1, ↓reduceIte, work, List.map_cons, List.sum_cons]; omega

lemma pos_queued (hw : ∀ j < n, 1 ≤ wcet j) {j t : ℕ} (hj : j < n)
    (hr : ∀ b ∈ ready n wcet arr t j, 1 ≤ b.left) : ∀ b ∈ queued n wcet arr t j, 1 ≤ b.left := by
  intro b hb
  cases h : arr j t
  · exact hr b (queued_of_not h ▸ hb)
  · rw [queued_of_arr h, List.mem_append, List.mem_singleton] at hb
    rcases hb with hb | rfl
    · exact hr b hb
    · exact hw j hj

/-- A job in a queue has something left to run. -/
lemma left_pos (arr : ℕ → ℕ → Bool) (hw : ∀ j < n, 1 ≤ wcet j) {j : ℕ} (hj : j < n) (t : ℕ) :
    ∀ b ∈ ready n wcet arr t j, 1 ≤ b.left := by
  induction t with
  | zero => simp [ready]
  | succ t ih =>
    intro b hb
    by_cases h : core n wcet arr t = some j
    · rw [ready_succ_of_eq h] at hb
      exact mem_serve hb (pos_queued hw hj ih)
    · rw [ready_succ_of_ne h] at hb
      exact pos_queued hw hj ih b hb

/-- What a slot does to the work of one service. -/
lemma work_succ (arr : ℕ → ℕ → Bool) (hw : ∀ j < n, 1 ≤ wcet j) {j : ℕ} (hj : j < n)
    (t : ℕ) :
    work (ready n wcet arr (t + 1) j) + (if core n wcet arr t = some j then 1 else 0) =
      work (ready n wcet arr t j) + if arr j t then wcet j else 0 := by
  rw [← work_queued]
  by_cases h : core n wcet arr t = some j
  · rw [ready_succ_of_eq h, if_pos h]
    exact work_serve (pos_queued hw hj (left_pos arr hw hj t)) (pick_some h).2.1
  · rw [ready_succ_of_ne h, if_neg h, Nat.add_zero]

/-- **The work balance of a window**: what is left is what was there, plus what was
released, minus what was run. -/
theorem work_window (arr : ℕ → ℕ → Bool) (hw : ∀ j < n, 1 ≤ wcet j) {j : ℕ} (hj : j < n)
    (s x : ℕ) :
    work (ready n wcet arr (s + x) j) + ran n wcet arr j s x =
      work (ready n wcet arr s j) + released arr j s x * wcet j := by
  induction x with
  | zero => simp [ran, released]
  | succ x ih =>
    have h := work_succ arr hw hj (s + x)
    rw [ran, released, sum_range_succ, sum_range_succ, ← ran, ← released, ← Nat.add_assoc s x 1,
      Nat.add_mul]
    have hm : (if arr j (s + x) then 1 else 0) * wcet j = if arr j (s + x) then wcet j else 0 := by
      split <;> simp
    omega

lemma work_eq_zero (hw : ∀ j < n, 1 ≤ wcet j) {j : ℕ} (hj : j < n) {t : ℕ} :
    work (ready n wcet arr t j) = 0 ↔ ready n wcet arr t j = [] := by
  constructor
  · intro h
    cases hr : ready n wcet arr t j with
    | nil => rfl
    | cons b rest =>
      have hb := left_pos arr hw hj t b (by rw [hr]; simp)
      rw [hr] at h
      simp only [work, List.map_cons, List.sum_cons] at h
      omega
  · intro h
    simp [h, work]

lemma sum_ran (i s x : ℕ) : ∑ j ∈ range (i + 1), ran n wcet arr j s x =
    ∑ u ∈ range x, if ∃ j ≤ i, core n wcet arr (s + u) = some j then 1 else 0 := by
  simp only [ran]
  rw [sum_comm]
  refine sum_congr rfl fun u _ => ?_
  cases h : core n wcet arr (s + u) with
  | none => simp
  | some k => simp

/-- Services `0 .. i` cannot run more than one unit a slot. -/
lemma sum_ran_le (n : ℕ) (wcet : ℕ → ℕ) (arr : ℕ → ℕ → Bool) (i s x : ℕ) :
    ∑ j ∈ range (i + 1), ran n wcet arr j s x ≤ x := by
  rw [sum_ran]
  calc (∑ u ∈ range x, if ∃ j ≤ i, core n wcet arr (s + u) = some j then 1 else 0)
      ≤ ∑ _u ∈ range x, 1 := sum_le_sum fun u _ => by split <;> omega
    _ = x := by simp

/-- When services `0 .. i` hold the core throughout a window they run all of it. -/
lemma sum_ran_eq {i s x : ℕ} (h : ∀ u < x, ∃ j ≤ i, core n wcet arr (s + u) = some j) :
    ∑ j ∈ range (i + 1), ran n wcet arr j s x = x := by
  rw [sum_ran, sum_congr rfl fun u hu => if_pos (h u (mem_range.mp hu))]
  simp

end Slot

/-! ### No job takes longer than the demand allows -/

/-- The units that one job of `i` and all that the services above `i` release in `x`
instants, at most, have to run. -/
def demand (period wcet : ℕ → ℕ) (i x : ℕ) : ℕ :=
  wcet i + ∑ j ∈ range i, (x ⌈/⌉ period j) * wcet j

section Response

variable {n : ℕ} {wcet period : ℕ → ℕ} {arr : ℕ → ℕ → Bool}

lemma released_le (hsp : Spaced n arr period) {j : ℕ} (hj : j < n) (hT : 1 ≤ period j)
    (s x : ℕ) : released arr j s x ≤ x ⌈/⌉ period j :=
  card_spaced_le hT (arr j) (hsp j hj) s x

/-- Before any instant `r` there is one where no service above `i` has a job, since when
they have held the core. -/
lemma busy_start (wcet : ℕ → ℕ) (arr : ℕ → ℕ → Bool) {i : ℕ} (hi : i < n) (r : ℕ) :
    ∃ s ≤ r, (∀ j < i, ready n wcet arr s j = []) ∧
      ∀ u, s ≤ u → u < r → ∃ j < i, core n wcet arr u = some j := by
  induction r with
  | zero => exact ⟨0, le_rfl, by simp [ready], by omega⟩
  | succ r ih =>
    by_cases hq : ∀ j < i, ready n wcet arr (r + 1) j = []
    · exact ⟨r + 1, le_rfl, hq, by omega⟩
    · obtain ⟨s, hs, hsq, hbusy⟩ := ih
      refine ⟨s, by omega, hsq, fun u hsu hur => ?_⟩
      rcases Nat.lt_succ_iff_lt_or_eq.mp hur with h | rfl
      · exact hbusy u hsu h
      -- the slot before an instant that is not quiet was not idle either
      push Not at hq
      obtain ⟨j, hj, hne⟩ := hq
      have hqd : queued n wcet arr u j ≠ [] := by
        by_cases hc : core n wcet arr u = some j
        · exact (pick_some hc).2.1
        · rwa [ready_succ_of_ne hc] at hne
      obtain ⟨k, hk, hpk⟩ := pick_le (show j < n by omega) hqd
      exact ⟨k, by omega, hpk⟩

lemma ran_zero {j s x : ℕ} (h : ∀ u < x, core n wcet arr (s + u) ≠ some j) :
    ran n wcet arr j s x = 0 :=
  sum_eq_zero fun u hu => if_neg (h u (mem_range.mp hu))

lemma ran_add (j s x y : ℕ) :
    ran n wcet arr j s (x + y) = ran n wcet arr j s x + ran n wcet arr j (s + x) y := by
  simp only [ran, sum_range_add, Nat.add_assoc]

variable {i x : ℕ}

/-- **The queue of `i` empties** within `x` of a release into it while it was empty. -/
theorem clears (hw : ∀ j < n, 1 ≤ wcet j) (hp : ∀ j < n, 1 ≤ period j)
    (hsp : Spaced n arr period) (hi : i < n) (hd : demand period wcet i x ≤ x)
    (hx : x ≤ period i) {r : ℕ} (har : arr i r) (hr : ready n wcet arr r i = []) :
    ∃ f, r < f ∧ f ≤ r + x ∧ ready n wcet arr f i = [] := by
  by_contra hno
  push Not at hno
  obtain ⟨s, hsr, hquiet, hbusy⟩ := busy_start wcet arr hi r
  -- services `0 .. i` hold the core for the `x` slots from `s`
  have hall : ∀ u < x, ∃ j ≤ i, core n wcet arr (s + u) = some j := by
    intro u hu
    rcases Nat.lt_trichotomy (s + u) r with h | h | h
    · obtain ⟨j, hj, hc⟩ := hbusy (s + u) (by omega) h
      exact ⟨j, hj.le, hc⟩
    · exact pick_le hi (by rw [h, queued_of_arr har]; simp)
    · have hne := hno (s + u) h (by omega)
      refine pick_le hi ?_
      cases ha : arr i (s + u)
      · rwa [queued_of_not ha]
      · simp [queued_of_arr ha]
  have hsum := sum_ran_eq hall
  rw [sum_range_succ] at hsum
  -- the services above `i` run no more than they release
  have habove : ∑ j ∈ range i, ran n wcet arr j s x ≤
      ∑ j ∈ range i, (x ⌈/⌉ period j) * wcet j := by
    refine sum_le_sum fun j hj => ?_
    have hji := mem_range.mp hj
    have hbal := work_window arr hw (show j < n by omega) s x
    rw [hquiet j hji] at hbal
    have hrel := Nat.mul_le_mul_right (wcet j)
      (released_le hsp (show j < n by omega) (hp j (by omega)) s x)
    simp only [work, List.map_nil, List.sum_nil] at hbal
    omega
  -- and the job of `i` has not run all its units
  have hown : ran n wcet arr i s x < wcet i := by
    have hbefore : ∀ y, s + y ≤ r → ran n wcet arr i s y = 0 := by
      intro y hy
      refine ran_zero fun u hu hc => ?_
      obtain ⟨j, hj, hcj⟩ := hbusy (s + u) (by omega) (by omega)
      rw [hc] at hcj
      cases hcj
      omega
    rcases Nat.lt_or_ge r (s + x) with hlt | hge
    · obtain ⟨y, hy⟩ : ∃ y, x = (r - s) + y := ⟨s + x - r, by omega⟩
      rw [hy, ran_add, hbefore (r - s) (by omega), show s + (r - s) = r by omega, Nat.zero_add]
      have hbal := work_window arr hw hi r y
      rw [hr] at hbal
      have hpos : work (ready n wcet arr (r + y) i) ≠ 0 := fun h0 =>
        hno (r + y) (by omega) (by omega) ((work_eq_zero hw hi).mp h0)
      have hone : y ⌈/⌉ period i ≤ 1 := by
        rw [ceilDiv_le_iff_le_mul (hp i hi)]; omega
      have hrel := Nat.mul_le_mul_right (wcet i)
        ((released_le hsp hi (hp i hi) r y).trans hone)
      simp only [work, List.map_nil, List.sum_nil] at hbal hpos
      omega
    · have h0 := hbefore x hge
      have := hw i hi
      omega
  unfold demand at hd
  omega

lemma stays_empty {f : ℕ} (hf : ready n wcet arr f i = []) {v : ℕ} (hfv : f ≤ v)
    (hno : ∀ u, f ≤ u → u < v → arr i u = false) : ready n wcet arr v i = [] := by
  induction v, hfv using Nat.le_induction with
  | base => exact hf
  | succ v hfv ih =>
    have hv := ih fun u h1 h2 => hno u h1 (by omega)
    have hq : queued n wcet arr v i = [] := by rw [queued_of_not (hno v hfv (by omega)), hv]
    by_cases hc : core n wcet arr v = some i
    · rw [ready_succ_of_eq hc, hq, serve]
    · rw [ready_succ_of_ne hc, hq]

/-- **A service that can always empty its queue in time never has two jobs**: the queue is
empty at each release. -/
theorem empty_at_release (hw : ∀ j < n, 1 ≤ wcet j) (hp : ∀ j < n, 1 ≤ period j)
    (hsp : Spaced n arr period) (hi : i < n) (hd : demand period wcet i x ≤ x)
    (hx : x ≤ period i) {r : ℕ} (har : arr i r) : ready n wcet arr r i = [] := by
  induction r using Nat.strong_induction_on with
  | _ r ih =>
    by_cases hex : ∃ u < r, arr i u
    · -- the last release before `r` has been served by `r`
      obtain ⟨u, hur, hau, hlast⟩ : ∃ u < r, arr i u ∧ ∀ v, u < v → v < r → arr i v = false := by
        obtain ⟨u0, hu0, hau0⟩ := hex
        have hspec := Nat.findGreatest_spec (P := fun u => u < r ∧ arr i u) hu0.le ⟨hu0, hau0⟩
        refine ⟨_, hspec.1, hspec.2, fun v hv hvr => ?_⟩
        have := Nat.findGreatest_is_greatest hv hvr.le
        simpa [hvr] using this
      obtain ⟨f, huf, hfx, hf⟩ := clears hw hp hsp hi hd hx hau (ih u hur hau)
      have hgap := hsp i hi u r hur hau har
      exact stays_empty hf (by omega) fun v h1 h2 => hlast v (by omega) h2
    · push Not at hex
      exact stays_empty (f := 0) rfl (Nat.zero_le r) fun u _ hu => by simpa using hex u hu

lemma exists_first {P : ℕ → Prop} (h : ∃ f, P f) : ∃ f, P f ∧ ∀ u < f, ¬ P u := by
  classical
  exact ⟨Nat.find h, Nat.find_spec h, fun _ hu => Nat.find_min h hu⟩

lemma serve_singleton {r l : ℕ} :
    serve [⟨r, l⟩] = if l ≤ 1 then [] else [⟨r, l - 1⟩] := rfl

/-- **The response-time bound.** Every job of `i` finishes at most `x` after its
release. -/
theorem finishes_within (hw : ∀ j < n, 1 ≤ wcet j) (hp : ∀ j < n, 1 ≤ period j)
    (hsp : Spaced n arr period) (hi : i < n) (hd : demand period wcet i x ≤ x)
    (hx : x ≤ period i) {r : ℕ} (har : arr i r) :
    ∃ f ≤ r + x, FinishesAt n wcet arr i r f := by
  have hr := empty_at_release hw hp hsp hi hd hx har
  have hex := clears hw hp hsp hi hd hx har hr
  -- the first instant at which the queue is empty again
  obtain ⟨f, ⟨hrf, hfx, hf⟩, hmin'⟩ := exists_first hex
  have hmin : ∀ u, r < u → u < f → ready n wcet arr u i ≠ [] := fun u h1 h2 h3 =>
    hmin' u h2 ⟨h1, by omega, h3⟩
  -- until it empties the queue holds the job released at `r` and no other
  have hone : ∀ u, r ≤ u → u < f → ∃ l, queued n wcet arr u i = [⟨r, l⟩] := by
    intro u hu
    induction u, hu using Nat.le_induction with
    | base => exact fun _ => ⟨wcet i, by rw [queued_of_arr har, hr, List.nil_append]⟩
    | succ u hru ih =>
      intro huf
      obtain ⟨l, hl⟩ := ih (by omega)
      have hna : arr i (u + 1) = false := by
        by_contra h
        have := hsp i hi r (u + 1) (by omega) har (by simpa using h)
        omega
      have hne := hmin (u + 1) (by omega) huf
      rw [queued_of_not hna]
      by_cases hc : core n wcet arr u = some i
      · rw [ready_succ_of_eq hc, hl, serve_singleton] at hne ⊢
        split at hne
        · exact absurd rfl hne
        · next h => exact ⟨l - 1, by rw [if_neg h]⟩
      · exact ⟨l, by rw [ready_succ_of_ne hc, hl]⟩
  obtain ⟨t, rfl⟩ : ∃ t, f = t + 1 := ⟨f - 1, by omega⟩
  obtain ⟨l, hl⟩ := hone t (by omega) (by omega)
  have hc : core n wcet arr t = some i := by
    by_contra hc
    rw [ready_succ_of_ne hc, hl] at hf
    cases hf
  rw [ready_succ_of_eq hc, hl, serve_singleton] at hf
  have hl1 : l = 1 := by
    have hpos := pos_queued hw hi (left_pos arr hw hi t) ⟨r, l⟩ (by rw [hl]; simp)
    simp only at hpos
    split at hf
    · omega
    · cases hf
  exact ⟨t + 1, hfx, t, rfl, hc, by rw [hl, hl1]; rfl⟩

end Response

/-! ### The critical instant -/

/-- All services are released together at time `0` and then once every period. -/
def together (period : ℕ → ℕ) (j t : ℕ) : Bool := decide (period j ∣ t)

section Together

variable {n : ℕ} {wcet period : ℕ → ℕ} {i : ℕ}

lemma spaced_together : Spaced n (together period) period := by
  intro j _ u v huv hu hv
  simp only [together, decide_eq_true_eq] at hu hv
  have := Nat.le_of_dvd (by omega) ((Nat.dvd_sub_iff_left huv.le hu).mpr hv)
  omega

/-- Until service `i` has run the units of one job, the oldest job in its queue is the one
released at time `0`. -/
lemma head_first (n : ℕ) (wcet period : ℕ → ℕ) (i t : ℕ) :
    wcet i ≤ ran n wcet (together period) i 0 t ∨
      (queued n wcet (together period) t i).head? =
        some ⟨0, wcet i - ran n wcet (together period) i 0 t⟩ := by
  induction t with
  | zero =>
    right
    rw [queued_of_arr (by simp [together])]
    simp [ready, ran]
  | succ t ih =>
    have hran : ran n wcet (together period) i 0 (t + 1) = ran n wcet (together period) i 0 t +
        if core n wcet (together period) t = some i then 1 else 0 := by
      rw [ran_add, Nat.zero_add]; rfl
    rcases ih with h | h
    · left; omega
    -- what joins the queue joins behind the job at its head
    have hgrow : ∀ b, (ready n wcet (together period) (t + 1) i).head? = some b →
        (queued n wcet (together period) (t + 1) i).head? = some b := by
      intro b hb
      cases ha : together period i (t + 1)
      · rwa [queued_of_not ha]
      · rw [queued_of_arr ha, List.head?_append, hb]; rfl
    by_cases hc : core n wcet (together period) t = some i
    · rw [if_pos hc] at hran
      by_cases hl : wcet i ≤ ran n wcet (together period) i 0 t + 1
      · left; omega
      · right
        refine hgrow _ ?_
        rw [ready_succ_of_eq hc]
        cases hq : queued n wcet (together period) t i with
        | nil => rw [hq] at h; cases h
        | cons b rest =>
          rw [hq] at h
          cases h
          rw [serve, if_neg (show ¬ wcet i - ran n wcet (together period) i 0 t ≤ 1 by omega)]
          simp only [List.head?_cons, hran, Nat.sub_sub]
    · simp only [if_neg hc, add_zero] at hran
      right
      rw [hran]
      exact hgrow _ (by rw [ready_succ_of_ne hc, h])

/-- **The critical instant.** When all are released together, the first job of `i` finishes
no sooner than the demand allows. -/
theorem demand_le_of_finishes (hw : ∀ j < n, 1 ≤ wcet j) (hp : ∀ j < n, 1 ≤ period j)
    (hi : i < n) {f : ℕ} (hf : FinishesAt n wcet (together period) i 0 f) :
    demand period wcet i f ≤ f := by
  obtain ⟨t, rfl, hc, hhead⟩ := hf
  have hran : ran n wcet (together period) i 0 (t + 1) =
      ran n wcet (together period) i 0 t + 1 := by
    rw [ran_add, Nat.zero_add]
    unfold ran
    rw [sum_range_one, Nat.add_zero, if_pos hc]
  have hown : wcet i ≤ ran n wcet (together period) i 0 (t + 1) := by
    rcases head_first n wcet period i t with h | h
    · omega
    · rw [h] at hhead
      simp only [Option.some.injEq, Job.mk.injEq, true_and] at hhead
      omega
  -- the services above `i` have nothing left when `i` has the core
  have habove : ∑ j ∈ range i, ((t + 1) ⌈/⌉ period j) * wcet j ≤
      ∑ j ∈ range i, ran n wcet (together period) j 0 (t + 1) := by
    refine sum_le_sum fun j hj => ?_
    have hji := mem_range.mp hj
    have hjn : j < n := by omega
    have hbal := work_window (together period) hw hjn 0 (t + 1)
    have hne : core n wcet (together period) t ≠ some j := by
      rw [hc]
      simp only [ne_eq, Option.some.injEq]
      omega
    rw [Nat.zero_add, ready_succ_of_ne hne, (pick_some hc).2.2 j hji] at hbal
    have hrel : (t + 1) ⌈/⌉ period j ≤ released (together period) j 0 (t + 1) := by
      simpa [released, together] using ceilDiv_le_card_dvd (hp j hjn) (t + 1)
    have := Nat.mul_le_mul_right (wcet j) hrel
    simp only [work, List.map_nil, List.sum_nil, ready] at hbal
    omega
  have hcap := sum_ran_le n wcet (together period) i 0 (t + 1)
  rw [sum_range_succ] at hcap
  unfold demand
  omega

end Together

/-- **Exactness of response-time analysis.** With deadlines no longer than periods, every
spaced arrival pattern meets all deadlines exactly when for each service some `x` within
its deadline covers its own demand. -/
theorem meets_iff {n : ℕ} {wcet period deadline : ℕ → ℕ} (hw : ∀ j < n, 1 ≤ wcet j)
    (hp : ∀ j < n, 1 ≤ period j) (hdl : ∀ j < n, deadline j ≤ period j) :
    (∀ arr, Spaced n arr period → Meets n wcet arr deadline) ↔
      ∀ i < n, ∃ x ≤ deadline i, 1 ≤ x ∧ demand period wcet i x ≤ x := by
  constructor
  · intro h i hi
    obtain ⟨f, hfd, hf⟩ := h (together period) spaced_together i hi 0 (by simp [together])
    refine ⟨f, by omega, ?_, demand_le_of_finishes hw hp hi hf⟩
    obtain ⟨t, rfl, -⟩ := hf
    omega
  · intro h arr hsp i hi r har
    obtain ⟨x, hxd, -, hd⟩ := h i hi
    obtain ⟨f, hfx, hf⟩ := finishes_within hw hp hsp hi hd (hxd.trans (hdl i hi)) har
    exact ⟨f, by omega, hf⟩

end Rtes.Preempt
