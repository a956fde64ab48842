import Rtes.SieveModel

/-!
The threads of one round clear the multiples of `p` that the sequential loop clears.

The scrambled identifiers give each column of the grid to one thread; thread by thread the
operations are the strided walk of its column; and by `Striped.run_serial` an interleaving
leaves what those operations leave when each is done whole.
-/

namespace Rtes.SieveThreads

open Rtes.Bytes Rtes.Loop Rtes.Striped Rtes.SieveModel

/-! ### The columns -/

lemma threadID_rounds (numThreads n : ℕ) :
    ((List.range' 0 n 2).foldl
      (fun ((ridx, id) : ℤ × (ℕ → ℕ)) idx =>
        (ridx - 2, Function.update (Function.update id idx ridx.toNat) (idx + 1) idx))
      ((numThreads : ℤ) - 1, fun _ => 0)) =
    ((numThreads : ℤ) - 1 - 2 * n, fun t =>
      if t < 2 * n then if t % 2 = 0 then numThreads - 1 - t else t - 1 else 0) := by
  induction n with
  | zero => simp
  | succ n ih =>
    rw [List.range'_concat, List.foldl_append, ih]
    refine Prod.ext (by push_cast; simp only [List.foldl_cons, List.foldl_nil]; omega) ?_
    funext t
    simp only [List.foldl_cons, List.foldl_nil]
    by_cases h1 : t = 0 + 2 * n + 1
    · subst h1
      rw [Function.update_self, if_pos (by omega), if_neg (by omega)]
      omega
    · rw [Function.update_of_ne h1]
      by_cases h0 : t = 0 + 2 * n
      · subst h0
        rw [Function.update_self, if_pos (by omega), if_pos (by omega)]
        omega
      · rw [Function.update_of_ne h0]
        have hlt : t < 2 * (n + 1) ↔ t < 2 * n := by omega
        simp only [hlt]

/-- Even threads get the odd columns from the right, odd threads the even ones from the left. -/
lemma threadID_eq (cfg : Config) {t : ℕ} (ht : t < cfg.numThreads) :
    threadID cfg.numThreads t = if t % 2 = 0 then cfg.numThreads - 1 - t else t - 1 := by
  unfold threadID
  rw [threadID_rounds]
  exact if_pos (by omega)

lemma threadID_lt (cfg : Config) (t : Fin cfg.numThreads) :
    threadID cfg.numThreads t < cfg.numThreads := by
  have hlt := t.isLt
  rw [threadID_eq cfg hlt]
  split_ifs <;> omega

/-- **The scramble covers every column exactly once.** -/
theorem existsUnique_column (cfg : Config) {col : ℕ} (hcol : col < cfg.numThreads) :
    ∃! t : Fin cfg.numThreads, threadID cfg.numThreads t = col := by
  obtain ⟨n, hn⟩ := cfg.even
  refine ⟨⟨if col % 2 = 0 then col + 1 else cfg.numThreads - 1 - col, by split_ifs <;> omega⟩,
    ?_, fun t ht => Fin.ext ?_⟩
  · simp only
    rw [threadID_eq cfg (by split_ifs <;> omega)]
    split_ifs <;> omega
  · have hlt := t.isLt
    dsimp only at ht ⊢
    rw [threadID_eq cfg hlt] at ht
    split_ifs at ht ⊢ <;> omega

/-! ### One column -/

/-- The operations of a thread are the first ones of the strided walk of its column. -/
lemma emits_walk {cfg : Config} {a l : ThreadArgs} {os : List (ℕ × Byte)}
    (h : Emits (invalidateThread cfg) a os l) :
    os = (List.range os.length).map
        (fun k => (a.j + k * (cfg.numThreads * a.p) + a.threadIdx * a.p, 0)) ∧
      l = { a with j := a.j + os.length * (cfg.numThreads * a.p) } := by
  induction h with
  | nil => simp
  | @snoc l' l'' os o _ ho ih =>
    obtain ⟨hos, rfl⟩ := ih
    unfold invalidateThread at ho
    split_ifs at ho
    obtain ⟨rfl, rfl⟩ := Prod.mk.inj (Option.some.inj ho)
    simp only [List.length_append, List.length_singleton]
    refine ⟨?_, ?_⟩
    · rw [List.range_succ, List.map_append, ← hos]
      rfl
    · congr 1
      ring

/-- An operation has passed both guards of the loop. -/
lemma emits_guards {cfg : Config} {a l : ThreadArgs} {os : List (ℕ × Byte)}
    (h : Emits (invalidateThread cfg) a os l) {o : ℕ × Byte} (ho : o ∈ os) :
    ∃ k, o.1 = a.j + k * (cfg.numThreads * a.p) + a.threadIdx * a.p ∧
      a.j + k * (cfg.numThreads * a.p) < cfg.max + 1 ∧ o.1 ≤ cfg.max + 1 := by
  induction h with
  | nil => cases ho
  | @snoc l' l'' os o' h hn ih =>
    rcases List.mem_append.mp ho with ho | ho
    · exact ih ho
    · obtain rfl := List.mem_singleton.mp ho
      obtain ⟨-, rfl⟩ := emits_walk h
      unfold invalidateThread at hn
      split_ifs at hn with h1 h2
      obtain ⟨rfl, -⟩ := Prod.mk.inj (Option.some.inj hn)
      exact ⟨os.length, rfl, h1, not_lt.mp h2⟩

/-- **A thread clears what the guards let through of its column.** -/
lemma mem_column {cfg : Config} {a l : ThreadArgs} {os : List (ℕ × Byte)}
    (h : Emits (invalidateThread cfg) a os l) (hend : invalidateThread cfg l = none) {i : ℕ} :
    (i, 0) ∈ os ↔ ∃ k, i = a.j + k * (cfg.numThreads * a.p) + a.threadIdx * a.p ∧
      a.j + k * (cfg.numThreads * a.p) < cfg.max + 1 ∧ i ≤ cfg.max + 1 := by
  refine ⟨fun hm => emits_guards h hm, fun ⟨k, hk, hj, hi⟩ => ?_⟩
  obtain ⟨hos, rfl⟩ := emits_walk h
  rw [hos]
  refine List.mem_map.mpr ⟨k, List.mem_range.mpr ?_, by rw [hk]⟩
  by_contra hlen
  have hmul : os.length * (cfg.numThreads * a.p) ≤ k * (cfg.numThreads * a.p) :=
    Nat.mul_le_mul_right _ (not_lt.mp hlen)
  unfold invalidateThread at hend
  split_ifs at hend with h1 h2
  · simp only at h2
    omega
  · simp only at h1
    omega

/-! ### The whole grid -/

section Grid

variable {cfg : Config} {p : ℕ} {isprime : Buf}

/-- The columns together hold the multiples of `p` from `2 * p` on. -/
lemma exists_column (cfg : Config) (hp : 0 < p) (i : ℕ) :
    (∃ col < cfg.numThreads, ∃ k, i = 2 * p + k * (cfg.numThreads * p) + col * p) ↔
      p ∣ i ∧ 2 * p ≤ i := by
  refine ⟨fun ⟨col, _, k, hk⟩ => ?_, fun ⟨⟨q, hq⟩, hi⟩ => ?_⟩
  · refine ⟨⟨2 + k * cfg.numThreads + col, by rw [hk]; ring⟩, ?_⟩
    rw [hk, Nat.add_assoc]
    exact Nat.le_add_right _ _
  · have hq2 : 2 ≤ q := by
      by_contra hlt
      nlinarith
    obtain ⟨r, rfl⟩ : ∃ r, q = 2 + r := ⟨q - 2, by omega⟩
    refine ⟨r % cfg.numThreads, Nat.mod_lt r cfg.pos, r / cfg.numThreads, ?_⟩
    have hdiv := Nat.div_add_mod r cfg.numThreads
    calc i = p * (2 + (cfg.numThreads * (r / cfg.numThreads) + r % cfg.numThreads)) := by
          rw [hdiv, hq]
      _ = 2 * p + r / cfg.numThreads * (cfg.numThreads * p) + r % cfg.numThreads * p := by ring

/-- A history in which every thread has walked its column to the end. -/
def Walked (cfg : Config) (p : ℕ) (hist : List (Fin cfg.numThreads × ℕ × Byte)) : Prop :=
  ∀ t, ∃ l, Emits (invalidateThread cfg) (threadarg cfg p t) (opsOf t hist) l ∧
    invalidateThread cfg l = none

lemma val_of_walked {hist : List (Fin cfg.numThreads × ℕ × Byte)} (h : Walked cfg p hist) :
    ∀ e ∈ hist, e.2.2 = 0 := by
  intro e he
  obtain ⟨l, hl, -⟩ := h e.1
  have hmem : e.2 ∈ opsOf e.1 hist := mem_opsOf.mpr he
  rw [(emits_walk hl).1] at hmem
  obtain ⟨k, -, hk⟩ := List.mem_map.mp hmem
  rw [← hk]

lemma mem_of_walked (hp : 0 < p) {hist : List (Fin cfg.numThreads × ℕ × Byte)}
    (h : Walked cfg p hist) {i : ℕ} (hi : i ≤ cfg.max) :
    i ∈ hist.map (fun e => e.2.1) ↔ p ∣ i ∧ 2 * p ≤ i := by
  rw [← exists_column cfg hp i]
  refine ⟨fun hm => ?_, fun ⟨col, hcol, k, hk⟩ => ?_⟩
  · obtain ⟨e, he, rfl⟩ := List.mem_map.mp hm
    have hop : (e.2.1, 0) ∈ opsOf e.1 hist := mem_opsOf.mpr (val_of_walked h e he ▸ he)
    obtain ⟨l, hl, hend⟩ := h e.1
    obtain ⟨k, hk, -⟩ := (mem_column hl hend).mp hop
    exact ⟨_, threadID_lt cfg e.1, k, hk⟩
  · obtain ⟨t, rfl, -⟩ := existsUnique_column cfg hcol
    obtain ⟨l, hl, hend⟩ := h t
    have hguards : 2 * p + k * (cfg.numThreads * p) < cfg.max + 1 ∧ i ≤ cfg.max + 1 := by omega
    have hop := (mem_column hl hend).mpr ⟨k, hk, hguards⟩
    exact List.mem_map.mpr ⟨(t, i, 0), mem_opsOf.mp hop, rfl⟩

lemma chkIsprime_clear {is : List ℕ} {k : ℕ} {P : Prop} [Decidable P] (h : k ∈ is ↔ P) :
    chkIsprime (is.foldl (fun b i => setIsprime b i 0) isprime) k =
      (chkIsprime isprime k && !decide P) := by
  rw [chkIsprime_foldl]
  by_cases hk : P
  · rw [if_pos (h.mpr hk), decide_eq_true hk, Bool.not_true, Bool.and_false]
    rfl
  · rw [if_neg (mt h.mp hk), decide_eq_false hk, Bool.not_false, Bool.and_true]

/-- **A round of the threads**, however they interleave, clears the multiples of `p` from
`2 * p` on and gives all locks back. -/
theorem threads_clear (hp : 0 < p) {sem : Fin cfg.numLocks → ℕ} (hsem : ∀ x, sem x = 1)
    {sched : List (Fin cfg.numThreads)}
    {s : State (Fin cfg.numThreads) ThreadArgs (ℕ × Byte) ℕ Byte (Fin cfg.numLocks)}
    (hrun : run (threads cfg) (spawn isprime sem (threadarg cfg p)) sched = some s)
    (hdone : ∀ t, s.pc t = .done) :
    (∀ x, s.sem x = 1) ∧ ∀ i ≤ cfg.max,
      chkIsprime s.mem i = (chkIsprime isprime i && !decide (p ∣ i ∧ 2 * p ≤ i)) := by
  obtain ⟨hfree, hist, hmem, hops⟩ := run_serial hsem hrun hdone
  have hwalked : Walked cfg p hist := hops
  have hclear : s.mem = (hist.map fun e => e.2.1).foldl (fun b i => setIsprime b i 0) isprime := by
    rw [hmem, List.foldl_map]
    refine List.foldl_ext _ _ _ fun b e he => ?_
    rw [← val_of_walked hwalked e he]
    rfl
  refine ⟨hfree, fun i hi => ?_⟩
  rw [hclear, chkIsprime_clear (mem_of_walked hp hwalked hi)]

/-- The threads can always be run to their end, and every interleaving of them ends. -/
theorem threads_end (cfg : Config) (hp : 0 < p) (isprime : Buf) {sem : Fin cfg.numLocks → ℕ}
    (hsem : ∀ x, sem x = 1) :
    (∃ sched s, run (threads cfg) (spawn isprime sem (threadarg cfg p)) sched = some s ∧
      ∀ t, s.pc t = .done) ∧
    ∃ n, ∀ sched s, run (threads cfg) (spawn isprime sem (threadarg cfg p)) sched = some s →
      sched.length ≤ n := by
  have hinv : Striped.Inv (threads cfg) isprime (threadarg cfg p) []
      (spawn isprime sem (threadarg cfg p)) := inv_spawn hsem
  have hdesc : Descends (threads cfg) (threadarg cfg p) fun l => cfg.max + 1 - l.j := by
    intro t os l hl o l' hn
    obtain ⟨-, rfl⟩ := emits_walk hl
    have hpos : 0 < cfg.numThreads * p := Nat.mul_pos cfg.pos hp
    unfold threads invalidateThread threadarg at hn
    dsimp only at hn
    split_ifs at hn
    obtain ⟨-, rfl⟩ := Prod.mk.inj (Option.some.inj hn)
    unfold threadarg
    dsimp only
    omega
  exact ⟨exists_run hdesc hinv, _,
    fun sched s hs => (Nat.le_add_right _ _).trans (run_length_le hdesc hinv hs)⟩

lemma lt_add_iff_of_dvd {i j : ℕ} (hi : p ∣ i) (hj : p ∣ j) (hne : i ≠ j) :
    i < j + p ↔ i < j := by
  obtain ⟨a, rfl⟩ := hi
  obtain ⟨b, rfl⟩ := hj
  refine ⟨fun h => ?_, fun h => h.trans_le (Nat.le_add_right _ _)⟩
  have hab : a < b + 1 := Nat.lt_of_mul_lt_mul_left (by rwa [← Nat.mul_succ] at h)
  exact lt_of_le_of_ne (Nat.mul_le_mul_left p (by omega)) hne

/-- **The sequential loop** clears the same. -/
theorem sequential_clear (cfg : Config) (hp : 0 < p) (isprime : Buf) :
    ∃ fuel bits, sequentialInvalidate fuel cfg p isprime = some bits ∧ ∀ i ≤ cfg.max,
      chkIsprime bits i = (chkIsprime isprime i && !decide (p ∣ i ∧ 2 * p ≤ i)) := by
  let I : ℕ × Buf → Prop := fun s => (p ∣ s.1 ∧ 2 * p ≤ s.1) ∧ ∀ i,
    chkIsprime s.2 i = (chkIsprime isprime i && !decide ((p ∣ i ∧ 2 * p ≤ i) ∧ i < s.1))
  unfold sequentialInvalidate
  refine ⟨_, iter_total I _ (fun s => cfg.max + 1 - s.1) (fun s hs => ?_) ?_⟩
  · obtain ⟨⟨hdvd, hle⟩, hbits⟩ := hs
    by_cases hj : s.1 < cfg.max + 1
    · refine Or.inl ⟨(s.1 + p, setIsprime s.2 s.1 0), by simp [hj], ⟨⟨?_, ?_⟩, fun i => ?_⟩, ?_⟩
      · exact (Nat.dvd_add_self_right).mpr hdvd
      · exact hle.trans (Nat.le_add_right _ _)
      · rw [chkIsprime_setIsprime, hbits]
        by_cases hi : i = s.1
        · simp [hi, hdvd, hle, hp]
        · have hmult : p ∣ i → (i < s.1 + p ↔ i < s.1) := fun hd => lt_add_iff_of_dvd hd hdvd hi
          rw [if_neg hi]
          congr 3
          simp only [eq_iff_iff]
          tauto
      · simp only
        omega
    · refine Or.inr ⟨s.2, by simp [hj], fun i hi => ?_⟩
      have hlt : i < s.1 := by omega
      rw [hbits]
      simp [hlt]
  · refine ⟨⟨Nat.dvd_mul_left p 2, le_rfl⟩, fun i => ?_⟩
    have hnot : ¬ ((p ∣ i ∧ 2 * p ≤ i) ∧ i < 2 * p) := by omega
    simp [hnot]

end Grid

/-- **Threaded invalidation is sequential invalidation.** Each column of the grid has one
thread; and whatever the array holds, the sequential loop ends, and any interleaving in which
the threads finish leaves the bits at `0` .. `MAX` that it leaves. -/
theorem threaded_eq_sequential (cfg : Config) {p : ℕ} (hp : 0 < p) (isprime : Buf)
    {sem : Fin cfg.numLocks → ℕ} (hsem : ∀ x, sem x = 1) :
    (∀ col < cfg.numThreads, ∃! t : Fin cfg.numThreads, threadID cfg.numThreads t = col) ∧
    ∃ fuel bits, sequentialInvalidate fuel cfg p isprime = some bits ∧ ∀ sched s,
      run (threads cfg) (spawn isprime sem (threadarg cfg p)) sched = some s →
      (∀ t, s.pc t = .done) → ∀ i ≤ cfg.max, chkIsprime s.mem i = chkIsprime bits i := by
  obtain ⟨fuel, bits, hseq, hbits⟩ := sequential_clear cfg hp isprime
  refine ⟨fun col hcol => existsUnique_column cfg hcol, fuel, bits, hseq, ?_⟩
  intro sched s hrun hdone i hi
  rw [(threads_clear hp hsem hrun hdone).2 i hi, hbits i hi]

/-- Four threads, the bound `400`, the multiples of `3`. -/
theorem threaded_eq_sequential_three :
    let cfg : Config := ⟨400, 4, by decide, by decide⟩
    ∃ sched s fuel bits,
      run (threads cfg) (spawn (fun _ => 0xFF) (fun _ => 1) (threadarg cfg 3)) sched = some s ∧
      sequentialInvalidate fuel cfg 3 (fun _ => 0xFF) = some bits ∧
      ∀ i ≤ 400, chkIsprime s.mem i = chkIsprime bits i := by
  intro cfg
  obtain ⟨⟨sched, s, hrun, hdone⟩, -⟩ := threads_end cfg (p := 3) (by decide)
    (fun _ => 0xFF) (fun _ => rfl)
  obtain ⟨-, fuel, bits, hseq, h⟩ := threaded_eq_sequential cfg (p := 3) (by decide)
    (fun _ => 0xFF) (fun _ => rfl)
  exact ⟨sched, s, fuel, bits, hrun, hseq, h sched s hrun hdone⟩

end Rtes.SieveThreads
