import Rtes.SieveMain

/-!
Which bytes of its array the sieve uses.

The grid loops let the index `MAX + 1` through: their first guard tests the row without the
column and their second is `> MAX+1`. When `MAX + 1` is a multiple of eight, that index is in
the byte after the last.
-/

namespace Rtes.SieveBounds

open Rtes.Bytes Rtes.Loop Rtes.Striped Rtes.SieveModel Rtes.SieveThreads Rtes.SieveMain

variable {cfg : Config} {p i : ℕ}

/-! ### What the grid loops reach -/

/-- Some row of the column passes both guards with the index `i`. -/
def Visited (cfg : Config) (p col i : ℕ) : Prop :=
  ∃ k, i = 2 * p + k * (cfg.numThreads * p) + col * p ∧
    2 * p + k * (cfg.numThreads * p) < cfg.max + 1 ∧ i ≤ cfg.max + 1

def InGrid (cfg : Config) (p i : ℕ) : Prop := ∃ col < cfg.numThreads, Visited cfg p col i

lemma inGrid_iff_dvd (hp : 0 < p) (hi : i ≤ cfg.max) : InGrid cfg p i ↔ p ∣ i ∧ 2 * p ≤ i := by
  rw [← exists_column cfg hp i]
  constructor
  · rintro ⟨col, hcol, k, hk, -, -⟩
    exact ⟨col, hcol, k, hk⟩
  · rintro ⟨col, hcol, k, hk⟩
    exact ⟨col, hcol, k, hk, by omega, by omega⟩

/-- The index in row `k` and column `col` as a multiple of `p`. -/
lemma index_eq (cfg : Config) (p k col : ℕ) :
    2 * p + k * (cfg.numThreads * p) + col * p = p * (2 + (cfg.numThreads * k + col)) := by
  ring

lemma dvd_of_inGrid (h : InGrid cfg p i) : p ∣ i := by
  obtain ⟨col, -, k, rfl, -, -⟩ := h
  rw [index_eq]
  exact Nat.dvd_mul_right _ _

/-- The quotient tells whether an index is in the first column. -/
lemma dvd_quotient_iff (hp : 0 < p) {k col : ℕ} (hcol : col < cfg.numThreads)
    (hi : i = 2 * p + k * (cfg.numThreads * p) + col * p) :
    cfg.numThreads ∣ i / p - 2 ↔ col = 0 := by
  rw [hi, index_eq, Nat.mul_div_cancel_left _ hp, Nat.add_sub_cancel_left,
    Nat.dvd_add_right (Nat.dvd_mul_right _ _)]
  exact ⟨fun h => Nat.eq_zero_of_dvd_of_lt h hcol, fun h => h ▸ dvd_zero _⟩

/-- **The index past the bound** is reached in every column but the first. -/
lemma inGrid_succ_max (hp : 0 < p) (hle : 2 * p ≤ cfg.max + 1) (hdvd : p ∣ cfg.max + 1) :
    InGrid cfg p (cfg.max + 1) ↔ ¬ cfg.numThreads ∣ (cfg.max + 1) / p - 2 := by
  constructor
  · rintro ⟨col, hcol, k, hk, hrow, -⟩ hd
    obtain rfl := (dvd_quotient_iff hp hcol hk).mp hd
    omega
  · intro hnd
    obtain ⟨col, hcol, k, hk⟩ := (exists_column cfg hp (cfg.max + 1)).mpr ⟨hdvd, hle⟩
    have hcol0 : col ≠ 0 := mt (dvd_quotient_iff hp hcol hk).mpr hnd
    have hpos : 0 < col * p := Nat.mul_pos (Nat.pos_of_ne_zero hcol0) hp
    exact ⟨col, hcol, k, hk, by omega, le_rfl⟩

/-! ### The threads -/

lemma invalidateThread_of_guards {l : ThreadArgs} (hrow : l.j < cfg.max + 1)
    (hidx : l.j + l.threadIdx * l.p ≤ cfg.max + 1) :
    invalidateThread cfg l = some ((l.j + l.threadIdx * l.p, 0),
      { l with j := l.j + cfg.numThreads * l.p }) := by
  unfold invalidateThread
  rw [if_pos hrow, if_neg (not_lt.mpr hidx)]

/-- A row that passes the guards is reached from the first one. -/
lemma exists_emits {a : ThreadArgs} (k : ℕ)
    (hrow : a.j + k * (cfg.numThreads * a.p) < cfg.max + 1)
    (hidx : a.j + k * (cfg.numThreads * a.p) + a.threadIdx * a.p ≤ cfg.max + 1) :
    ∃ os, Emits (invalidateThread cfg) a os
      { a with j := a.j + k * (cfg.numThreads * a.p) } := by
  induction k with
  | zero => exact ⟨[], by simpa using Emits.nil a⟩
  | succ k ih =>
    rw [Nat.succ_mul, ← Nat.add_assoc] at hrow hidx ⊢
    obtain ⟨os, hos⟩ := ih (by omega) (by omega)
    exact ⟨_, .snoc hos (invalidateThread_of_guards (by dsimp only; omega) (by dsimp only; omega))⟩

/-- **An index that some interleaving brings to `set_isprime`.** -/
lemma reads_iff {isprime : Buf} {sem : Fin cfg.numLocks → ℕ} (hsem : ∀ x, sem x = 1) :
    (∃ sched s t val l, run (threads cfg) (spawn isprime sem (threadarg cfg p)) sched = some s ∧
      s.pc t = .read (i, val) l) ↔ InGrid cfg p i := by
  constructor
  · rintro ⟨sched, s, t, val, l, hrun, hpc⟩
    obtain ⟨hist, hinv⟩ := inv_run (inv_spawn hsem) hrun
    have hat := hinv.control t
    rw [hpc] at hat
    have hmem : (i, val) ∈ opsOf t hist ++ [(i, val)] := by simp
    exact ⟨_, threadID_lt cfg t, emits_guards hat hmem⟩
  · rintro ⟨col, hcol, k, rfl, hrow, hidx⟩
    obtain ⟨t, rfl, -⟩ := existsUnique_column cfg hcol
    obtain ⟨os, hos⟩ := exists_emits (a := threadarg cfg p t) k hrow hidx
    obtain ⟨sched, s, hrun, hpc⟩ := exists_run_read (c := threads cfg) (m := isprime) hsem hos
      (invalidateThread_of_guards hrow hidx)
    exact ⟨sched, s, t, _, _, hrun, hpc⟩

/-! ### The sequential grid -/

/-- The inner loop walks its column as a thread would. -/
lemma gridColumn_total (cfg : Config) (hp : 0 < p) (col : ℕ) (isprime : Buf) :
    ∃ r, gridColumn (cfg.max + 1 - 2 * p + 1) cfg p col isprime = some r ∧
      r.2 = r.1.foldl (fun b i => setIsprime b i 0) isprime ∧
      ∀ i, i ∈ r.1 ↔ Visited cfg p col i := by
  let I : ℕ × List ℕ × Buf → Prop := fun s =>
    Emits (invalidateThread cfg) ⟨col, 2 * p, p⟩ (s.2.1.map fun i => (i, 0)) ⟨col, s.1, p⟩ ∧
      s.2.2 = s.2.1.foldl (fun b i => setIsprime b i 0) isprime
  have hend : ∀ s, I s → invalidateThread cfg ⟨col, s.1, p⟩ = none →
      s.2.2 = s.2.1.foldl (fun b i => setIsprime b i 0) isprime ∧
        ∀ i, i ∈ s.2.1 ↔ Visited cfg p col i := by
    rintro s ⟨hem, hbits⟩ hnone
    refine ⟨hbits, fun i => ?_⟩
    have hcol := mem_column (i := i) hem hnone
    rwa [List.mem_map_of_injective (Prod.mk_left_injective 0)] at hcol
  unfold gridColumn
  refine iter_total I _ (fun s => cfg.max + 1 - s.1) ?_ (s := (2 * p, [], isprime)) ⟨.nil _, rfl⟩
  rintro ⟨j, calls, b⟩ hI
  have hem := hI.1
  have hbits := hI.2
  have hpos : 0 < cfg.numThreads * p := Nat.mul_pos cfg.pos hp
  dsimp only at hem hbits ⊢
  by_cases hrow : j < cfg.max + 1
  · by_cases hidx : j + col * p > cfg.max + 1
    · refine Or.inr ⟨(calls, b), by rw [if_pos hrow, if_pos hidx], hend _ hI ?_⟩
      simp [invalidateThread, hidx]
    · refine Or.inl ⟨_, by rw [if_pos hrow, if_neg hidx], ⟨?_, ?_⟩, by omega⟩
      · simp only [List.map_append, List.map_singleton]
        exact .snoc hem (invalidateThread_of_guards hrow (not_lt.mp hidx))
      · simp only [List.foldl_append, ← hbits]
        rfl
  · refine Or.inr ⟨(calls, b), by rw [if_neg hrow], hend _ hI ?_⟩
    simp [invalidateThread, hrow]

lemma gridColumn_eq_some (hp : 0 < p) {fuel col : ℕ} {isprime : Buf} {r : List ℕ × Buf}
    (h : gridColumn fuel cfg p col isprime = some r) :
    r.2 = r.1.foldl (fun b i => setIsprime b i 0) isprime ∧
      ∀ i, i ∈ r.1 ↔ Visited cfg p col i := by
  obtain ⟨r', hr', hspec⟩ := gridColumn_total cfg hp col isprime
  obtain rfl := iter_unique h hr'
  exact hspec

lemma gridColumns_succ (fuel n : ℕ) (isprime : Buf) :
    gridColumns fuel cfg p (n + 1) isprime =
      (gridColumns fuel cfg p n isprime).bind fun r =>
        (gridColumn fuel cfg p n r.2).map fun r' => (r.1 ++ r'.1, r'.2) := by
  unfold gridColumns
  rw [List.range_succ, List.foldlM_append]
  simp

lemma gridColumns_eq_some (hp : 0 < p) {fuel n : ℕ} {isprime : Buf} {r : List ℕ × Buf}
    (h : gridColumns fuel cfg p n isprime = some r) :
    r.2 = r.1.foldl (fun b i => setIsprime b i 0) isprime ∧
      ∀ i, i ∈ r.1 ↔ ∃ col < n, Visited cfg p col i := by
  induction n generalizing r with
  | zero =>
    obtain rfl := Option.some.inj h
    simp
  | succ n ih =>
    rw [gridColumns_succ] at h
    obtain ⟨r₁, h₁, h⟩ := Option.bind_eq_some_iff.mp h
    obtain ⟨r₂, h₂, rfl⟩ := Option.map_eq_some_iff.mp h
    obtain ⟨hbits₁, hmem₁⟩ := ih h₁
    obtain ⟨hbits₂, hmem₂⟩ := gridColumn_eq_some hp h₂
    refine ⟨by rw [List.foldl_append, ← hbits₁, hbits₂], fun i => ?_⟩
    rw [List.mem_append, hmem₁, hmem₂, Nat.exists_lt_succ_right]

lemma exists_gridColumns (cfg : Config) (hp : 0 < p) (n : ℕ) (isprime : Buf) :
    ∃ r, gridColumns (cfg.max + 1 - 2 * p + 1) cfg p n isprime = some r := by
  induction n with
  | zero => exact ⟨_, rfl⟩
  | succ n ih =>
    obtain ⟨r, hr⟩ := ih
    obtain ⟨r', hr', -⟩ := gridColumn_total cfg hp n r.2
    exact ⟨_, by rw [gridColumns_succ, hr, Option.bind_some, hr', Option.map_some]⟩

/-- **The sequential grid** clears what the threads clear. -/
lemma grid_clear (hp : 0 < p) {fuel : ℕ} {isprime : Buf} {r : List ℕ × Buf}
    (h : gridInvalidate fuel cfg p isprime = some r) (hi : i ≤ cfg.max) :
    chkIsprime r.2 i = (chkIsprime isprime i && !decide (p ∣ i ∧ 2 * p ≤ i)) := by
  obtain ⟨hbits, hmem⟩ := gridColumns_eq_some hp h
  have hin : i ∈ r.1 ↔ p ∣ i ∧ 2 * p ≤ i := (hmem i).trans (inGrid_iff_dvd hp hi)
  rw [hbits, chkIsprime_clear hin]

/-! ### Runs of main -/

/-- How the multiples of a prime are cleared. -/
inductive Build
  | sequential
  | threadGrid
  | sequentialGrid

/-- One round of the `while` loop. -/
inductive Step (cfg : Config) : Build → Main cfg → Main cfg → Prop
  | sequential {m : Main cfg} {fuel : ℕ} {bits : Buf} (hp : m.p * m.p ≤ cfg.max)
      (hloop : sequentialInvalidate fuel cfg m.p m.isprime = some bits) :
      Step cfg .sequential m ⟨nextPrime cfg bits m.p, bits, m.sem⟩
  | threadGrid {m m' : Main cfg} (hr : Round cfg m m') : Step cfg .threadGrid m m'
  | sequentialGrid {m : Main cfg} {fuel : ℕ} {calls : List ℕ} {bits : Buf}
      (hp : m.p * m.p ≤ cfg.max)
      (hloop : gridInvalidate fuel cfg m.p m.isprime = some (calls, bits)) :
      Step cfg .sequentialGrid m ⟨nextPrime cfg bits m.p, bits, m.sem⟩

variable {build : Build} {m m' : Main cfg} {junk : Buf}

lemma step_advances (h : Head cfg m) (hs : Step cfg build m m') : Advances cfg m m' := by
  cases hs with
  | sequential hp hloop =>
    obtain ⟨fuel', bits', hloop', hclear⟩ := sequential_clear cfg h.prime.pos m.isprime
    obtain rfl := iter_unique hloop hloop'
    exact advances_of_clear h hp h.free hclear
  | threadGrid hr => exact round_advances h hr
  | sequentialGrid hp hloop =>
    exact advances_of_clear h hp h.free fun i hi => grid_clear h.prime.pos hloop hi

lemma exists_step (build : Build) (h : Head cfg m) (hp : m.p * m.p ≤ cfg.max) :
    ∃ m', Step cfg build m m' := by
  cases build with
  | sequential =>
    obtain ⟨fuel, bits, hloop, -⟩ := sequential_clear cfg h.prime.pos m.isprime
    exact ⟨_, .sequential hp hloop⟩
  | threadGrid =>
    obtain ⟨⟨sched, s, hrun, hdone⟩, -⟩ := threads_end cfg h.prime.pos m.isprime h.free
    exact ⟨_, .threadGrid (.mk hp hrun hdone)⟩
  | sequentialGrid =>
    obtain ⟨r, hr⟩ := exists_gridColumns cfg h.prime.pos cfg.numThreads m.isprime
    exact ⟨_, .sequentialGrid hp hr⟩

/-- `main` comes to the head of its loop with the state `m`. -/
def Reaches (cfg : Config) (build : Build) (junk : Buf) (m : Main cfg) : Prop :=
  Relation.ReflTransGen (Step cfg build) (start cfg junk) m

lemma head_of_reaches (h : Reaches cfg build junk m) : Head cfg m := by
  induction h with
  | refl => exact head_start cfg junk
  | tail _ hs ih => exact ih.next (step_advances ih hs)

/-- **No prime is left out** as long as its square is within the bound. -/
lemma exists_reaches (build : Build) (junk : Buf) {q : ℕ} (hq : q.Prime) (hsq : q * q ≤ cfg.max) :
    ∃ m, Reaches cfg build junk m ∧ m.p = q := by
  have hgo : ∀ n (m : Main cfg), Reaches cfg build junk m → m.p ≤ q → q - m.p = n →
      ∃ m', Reaches cfg build junk m' ∧ m'.p = q := by
    intro n
    induction n using Nat.strong_induction_on with
    | _ n ih =>
      intro m hm hle hn
      rcases eq_or_lt_of_le hle with heq | hlt
      · exact ⟨m, hm, heq⟩
      · have hp : m.p * m.p ≤ cfg.max := (Nat.mul_le_mul hle hle).trans hsq
        obtain ⟨m', hs⟩ := exists_step build (head_of_reaches hm) hp
        have ha := step_advances (head_of_reaches hm) hs
        have hle' := ha.least q hq hlt
        exact ih (q - m'.p) (by have := ha.lt; omega) m' (hm.tail hs) hle' rfl
  exact hgo _ (start cfg junk) .refl hq.two_le rfl

/-! ### The bytes that are used -/

/-- In a round from `m`, `set_isprime` is called with the index `i`. -/
def Clears (cfg : Config) (m : Main cfg) (i : ℕ) : Build → Prop
  | .sequential => ∃ fuel calls, sequentialCalls fuel cfg m.p = some calls ∧ i ∈ calls
  | .threadGrid => ∃ sched s t val l,
      run (threads cfg) (spawn m.isprime m.sem (threadarg cfg m.p)) sched = some s ∧
        s.pc t = .read (i, val) l
  | .sequentialGrid => ∃ fuel calls bits,
      gridInvalidate fuel cfg m.p m.isprime = some (calls, bits) ∧ i ∈ calls

/-- The byte `idx` is used by `set_isprime` or `chk_isprime`: by the loop that sets the bits, in a
round, by the search for the next prime, which stops at the first bit that is set, or by the
count at the end. -/
inductive Uses (cfg : Config) (build : Build) (junk : Buf) : ℕ → Prop
  | init {i : ℕ} (hi : i ∈ List.range' 2 (cfg.max - 2)) : Uses cfg build junk (i / 8)
  | clear {m : Main cfg} {i : ℕ} (hm : Reaches cfg build junk m) (hp : m.p * m.p ≤ cfg.max)
      (hc : Clears cfg m i build) : Uses cfg build junk (i / 8)
  | search {m m' : Main cfg} {j : ℕ} (hm : Reaches cfg build junk m) (hs : Step cfg build m m')
      (hj : j ∈ List.range' (m.p + 1) (cfg.max - m.p))
      (hunset : ∀ k, m.p + 1 ≤ k → k < j → chkIsprime m'.isprime k = false) :
      Uses cfg build junk (j / 8)
  | count {m : Main cfg} {i : ℕ} (hm : Reaches cfg build junk m) (hend : cfg.max < m.p * m.p)
      (hi : i ∈ List.range (cfg.max + 1)) : Uses cfg build junk (i / 8)

/-- The sieve stays in the `MAX / 8 + 1` bytes it has. -/
def InBounds (cfg : Config) (build : Build) (junk : Buf) : Prop :=
  ∀ idx, Uses cfg build junk idx → idx ≤ cfg.max / 8

lemma le_of_sequentialCalls {fuel : ℕ} {calls : List ℕ}
    (h : sequentialCalls fuel cfg p = some calls) : ∀ i ∈ calls, i ≤ cfg.max := by
  refine iter_inv (fun s : ℕ × List ℕ => ∀ i ∈ s.2, i ≤ cfg.max)
    (fun calls => ∀ i ∈ calls, i ≤ cfg.max) ?_ ?_ (by simp) h
  · rintro ⟨j, calls⟩ s' hs hb i hi
    by_cases hj : j < cfg.max + 1
    · obtain rfl : (j + p, calls ++ [j]) = s' := by simpa [hj] using hb
      rcases List.mem_append.mp hi with hi | hi
      · exact hs i hi
      · rw [List.mem_singleton.mp hi]
        omega
    · simp [hj] at hb
  · rintro ⟨j, calls⟩ calls' hs hb
    by_cases hj : j < cfg.max + 1
    · simp [hj] at hb
    · obtain rfl : calls = calls' := by simpa [hj] using hb
      exact hs

/-- In both grids. -/
lemma clears_iff (h : Head cfg m) (hb : build ≠ .sequential) :
    Clears cfg m i build ↔ InGrid cfg m.p i := by
  cases build with
  | sequential => exact absurd rfl hb
  | threadGrid => exact reads_iff h.free
  | sequentialGrid =>
    constructor
    · rintro ⟨fuel, calls, bits, hloop, hi⟩
      exact ((gridColumns_eq_some h.prime.pos hloop).2 i).mp hi
    · intro hi
      obtain ⟨r, hr⟩ := exists_gridColumns cfg h.prime.pos cfg.numThreads m.isprime
      exact ⟨_, _, _, hr, ((gridColumns_eq_some h.prime.pos hr).2 i).mpr hi⟩

/-- A grid that reaches the index past the bound. -/
lemma uses_succ_max (junk : Buf) (build : Build) (hb : build ≠ .sequential) (hp : p.Prime)
    (hsq : p * p ≤ cfg.max) (hgrid : InGrid cfg p (cfg.max + 1)) :
    Uses cfg build junk ((cfg.max + 1) / 8) := by
  obtain ⟨m, hm, rfl⟩ := exists_reaches build junk hp hsq
  exact .clear hm hsq ((clears_iff (head_of_reaches hm) hb).mpr hgrid)

/-- **The sieve stays inside its array** exactly when `MAX + 1` is not a multiple of eight, or is
reached by no prime of the loop except in the first column of the grid, whose guard stops it. -/
theorem inBounds_iff (cfg : Config) (build : Build) (junk : Buf) :
    InBounds cfg build junk ↔ build = .sequential ∨ ¬ 8 ∣ cfg.max + 1 ∨
      ∀ p, p.Prime → p * p ≤ cfg.max → p ∣ cfg.max + 1 →
        cfg.numThreads ∣ (cfg.max + 1) / p - 2 := by
  constructor
  · intro h
    by_contra hnot
    push Not at hnot
    obtain ⟨hb, h8, p, hp, hsq, hdvd, hnd⟩ := hnot
    have h2p : 2 * p ≤ p * p := Nat.mul_le_mul_right p hp.two_le
    have hgrid := (inGrid_succ_max hp.pos (by omega) hdvd).mpr hnd
    have hle := h _ (uses_succ_max junk build hb hp hsq hgrid)
    omega
  · intro h idx hu
    cases hu with
    | init hi =>
      have := List.mem_range'_1.mp hi
      exact Nat.div_le_div_right (by omega)
    | @clear m i hm hsq hc =>
      have hhead := head_of_reaches hm
      have h2p : 2 * m.p ≤ m.p * m.p := Nat.mul_le_mul_right m.p hhead.prime.two_le
      by_cases hb : build = .sequential
      · subst hb
        obtain ⟨fuel, calls, hloop, hi⟩ := hc
        exact Nat.div_le_div_right (le_of_sequentialCalls hloop i hi)
      · have hgrid := (clears_iff hhead hb).mp hc
        rcases Nat.lt_or_ge cfg.max i with hlt | hle
        · -- the index past the bound
          obtain rfl : i = cfg.max + 1 := by
            obtain ⟨col, -, k, -, -, hidx⟩ := hgrid
            omega
          have hdvd := dvd_of_inGrid hgrid
          have hnd := (inGrid_succ_max hhead.prime.pos (by omega) hdvd).mp hgrid
          rcases h.resolve_left hb with h8 | h
          · omega
          · exact absurd (h m.p hhead.prime hsq hdvd) hnd
        · exact Nat.div_le_div_right hle
    | search hm hs hj =>
      have := List.mem_range'_1.mp hj
      exact Nat.div_le_div_right (by omega)
    | count hm hend hi =>
      have := List.mem_range.mp hi
      exact Nat.div_le_div_right (by omega)

/-- Up to seven, four threads: `set_isprime` gets eight and uses a second byte of one. -/
theorem not_inBounds_up_to_seven : let cfg : Config := ⟨7, 4, by decide, by decide⟩
    ¬ InBounds cfg .threadGrid (fun _ => 0) ∧ ¬ InBounds cfg .sequentialGrid (fun _ => 0) := by
  intro cfg
  have hgrid : InGrid cfg 2 8 := ⟨2, by decide, 0, rfl, by decide, le_rfl⟩
  have hpast : ∀ build : Build, build ≠ .sequential → ¬ InBounds cfg build fun _ => 0 := by
    intro build hb h
    have hle : (7 + 1) / 8 ≤ 7 / 8 :=
      h _ (uses_succ_max _ build hb Nat.prime_two (by decide) hgrid)
    exact absurd hle (by decide)
  exact ⟨hpast _ nofun, hpast _ nofun⟩

end Rtes.SieveBounds
