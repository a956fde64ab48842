import Rtes.SieveThreads

/-!
The main loop of the sieve leaves the primes.

At the head of the loop `p` is prime, all locks are free, and a bit below `MAX` is set when
its index survives the primes below `p`. The next index that survives `p` too is the next
prime, which Bertrand's postulate puts below `MAX`; and once `p * p` is past `MAX` the indices
that survive are the primes.
-/

namespace Rtes.SieveMain

open Rtes.Bytes Rtes.Striped Rtes.SieveModel Rtes.SieveThreads

/-! ### Survivors -/

/-- No prime below `d` divides `i` properly. -/
def Survives (d i : ℕ) : Prop := 2 ≤ i ∧ ∀ q, q.Prime → q < d → q ∣ i → q = i

lemma survives_two (i : ℕ) : Survives 2 i ↔ 2 ≤ i :=
  ⟨fun h => h.1, fun h => ⟨h, fun _ hq hlt => absurd hq.two_le (not_le.mpr hlt)⟩⟩

lemma survives_succ {p : ℕ} (hp : p.Prime) (i : ℕ) :
    Survives (p + 1) i ↔ Survives p i ∧ ¬ (p ∣ i ∧ 2 * p ≤ i) := by
  refine ⟨fun ⟨h2, h⟩ => ⟨⟨h2, fun q hq hlt => h q hq (by omega)⟩, fun ⟨hd, hle⟩ => ?_⟩,
    fun ⟨⟨h2, h⟩, hnot⟩ => ⟨h2, fun q hq hlt hd => ?_⟩⟩
  · have := h p hp (by omega) hd
    have := hp.pos
    omega
  · rcases Nat.lt_or_ge q p with hqp | hqp
    · exact h q hq hqp hd
    · obtain rfl : q = p := by omega
      obtain ⟨k, rfl⟩ := hd
      by_contra hne
      have hk : 2 ≤ k := by
        rcases k with _ | _ | k
        · omega
        · simp at hne
        · omega
      exact hnot ⟨Nat.dvd_mul_right q k, by nlinarith⟩

/-- Without primes between them two bounds let the same survive. -/
lemma survives_congr {d e : ℕ} (hde : d ≤ e) (h : ∀ q, q.Prime → d ≤ q → e ≤ q) (i : ℕ) :
    Survives d i ↔ Survives e i := by
  refine and_congr_right fun _ => forall₂_congr fun q hq => ?_
  have hlt : q < d ↔ q < e := by
    refine ⟨fun hq' => by omega, fun hq' => ?_⟩
    by_contra hge
    have := h q hq (by omega)
    omega
  rw [hlt]

lemma survives_iff_prime {d i : ℕ} (h : i < d * d) : Survives d i ↔ i.Prime := by
  refine ⟨fun ⟨h2, hs⟩ => ?_, fun hi => ⟨hi.two_le, fun q hq _ hd => ?_⟩⟩
  · by_contra hi
    have hsq : i.minFac ^ 2 ≤ i := Nat.minFac_sq_le_self (by omega) hi
    have hmin : i.minFac.Prime := Nat.minFac_prime (by omega)
    have hlt : i.minFac < d := by nlinarith
    exact hi (hs _ hmin hlt i.minFac_dvd ▸ hmin)
  · exact (Nat.prime_dvd_prime_iff_eq hq hi).mp hd

/-! ### The state at the head of the loop -/

lemma initLocks_eq (n : ℕ) (x : Fin n) : initLocks n x = 1 := by
  have hfold : ∀ (l : List (Fin n)) (sem : Fin n → ℕ), l.foldl (fun sem idx =>
      let sem := Function.update sem idx 0
      Function.update sem idx (sem idx + 1)) sem x = if x ∈ l then 1 else sem x := by
    intro l
    induction l with
    | nil => simp
    | cons y l ih =>
      intro sem
      rw [List.foldl_cons, ih]
      by_cases hxy : x = y <;> by_cases hxl : x ∈ l <;> simp [hxy, hxl]
  unfold initLocks
  rw [hfold, if_pos (List.mem_finRange x)]

/-- What holds each time `main` is about to test `p * p <= MAX`. -/
structure Head (cfg : Config) (m : Main cfg) : Prop where
  prime : m.p.Prime
  free : ∀ x, m.sem x = 1
  bits : ∀ i < cfg.max, chkIsprime m.isprime i = true ↔ Survives m.p i

lemma head_start (cfg : Config) (junk : Buf) : Head cfg (start cfg junk) := by
  refine ⟨Nat.prime_two, initLocks_eq _, fun i hi => ?_⟩
  -- `isprime[0] = 0xFC` leaves the bits `0` and `1` clear
  have hlow : i < 2 → chkIsprime (Function.update junk 0 0xFC) i = false := by
    intro h2
    rw [chkIsprime_eq, show i / 8 = 0 by omega, Function.update_self]
    interval_cases i <;> decide
  unfold start
  dsimp only
  have hmem : i ∈ List.range' 2 (cfg.max - 2) ↔ 2 ≤ i := by
    rw [List.mem_range'_1]
    omega
  rw [survives_two, chkIsprime_foldl]
  rcases Nat.lt_or_ge i 2 with h2 | h2
  · rw [if_neg (mt hmem.mp (by omega)), hlow h2]
    exact iff_of_false (by simp) (by omega)
  · rw [if_pos (hmem.mpr h2)]
    exact iff_of_true (by decide) h2

/-- The search finds the next prime before it runs out. -/
lemma search_spec {cfg : Config} {p : ℕ} (hp : p.Prime) (hsq : p * p ≤ cfg.max) {isprime : Buf}
    (hbits : ∀ i < cfg.max, chkIsprime isprime i = true ↔ Survives (p + 1) i) :
    ∃ q, (List.range' (p + 1) (cfg.max - p)).find? (chkIsprime isprime) = some q ∧ q.Prime ∧
      p < q ∧ ∀ r, r.Prime → p + 1 ≤ r → q ≤ r := by
  have hex : ∃ r, r.Prime ∧ p < r ∧ r ≤ 2 * p := Nat.exists_prime_lt_and_le_two_mul p hp.ne_zero
  have hex' : ∃ r, r.Prime ∧ p < r := hex.imp fun r hr => ⟨hr.1, hr.2.1⟩
  obtain ⟨q, ⟨hq, hpq⟩, hleast⟩ : ∃ q, (q.Prime ∧ p < q) ∧ ∀ r, r.Prime → p + 1 ≤ r → q ≤ r :=
    ⟨Nat.find hex', Nat.find_spec hex', fun r hr hpr => Nat.find_min' hex' ⟨hr, hpr⟩⟩
  have hqmax : q < cfg.max := by
    obtain ⟨r, hr, hpr, hr2⟩ := hex
    have hqr := hleast r hr hpr
    have hp2 := hp.two_le
    have hne : r ≠ 2 * p := by
      rintro rfl
      exact Nat.not_prime_mul (by omega) (by omega) hr
    have h2p : 2 * p ≤ p * p := Nat.mul_le_mul_right p hp2
    omega
  -- below `q` and at `q` the bits already tell the primes
  have hchk : ∀ j ≤ q, chkIsprime isprime j = true ↔ j.Prime := by
    intro j hj
    rw [hbits j (by omega), survives_congr (by omega) hleast]
    exact survives_iff_prime (by nlinarith [hq.two_le])
  refine ⟨q, ?_, hq, hpq, hleast⟩
  rw [List.find?_range'_eq_some]
  refine ⟨(hchk q le_rfl).mpr hq, List.mem_range'_1.mpr ⟨by omega, by omega⟩, fun j hpj hjq => ?_⟩
  rw [Bool.not_eq_true', Bool.eq_false_iff, Ne, hchk j (by omega)]
  intro hj
  have := hleast j hj hpj
  omega

/-- What one round of the loop does. -/
structure Advances (cfg : Config) (m m' : Main cfg) : Prop where
  found : (List.range' (m.p + 1) (cfg.max - m.p)).find? (chkIsprime m'.isprime) = some m'.p
  prime : m'.p.Prime
  lt : m.p < m'.p
  least : ∀ q, q.Prime → m.p + 1 ≤ q → m'.p ≤ q
  free : ∀ x, m'.sem x = 1
  bits : ∀ i ≤ cfg.max,
    chkIsprime m'.isprime i = (chkIsprime m.isprime i && !decide (m.p ∣ i ∧ 2 * m.p ≤ i))

/-- A bit is still set after a round when it was and its index survives `p` too. -/
lemma Advances.survives {cfg : Config} {m m' : Main cfg} (h : Advances cfg m m')
    (hp : m.p.Prime) {i : ℕ} (hi : i ≤ cfg.max) {P : Prop}
    (hb : chkIsprime m.isprime i = true ↔ P ∧ Survives m.p i) :
    chkIsprime m'.isprime i = true ↔ P ∧ Survives m'.p i := by
  rw [h.bits i hi, Bool.and_eq_true, Bool.not_eq_true', decide_eq_false_iff_not, hb, and_assoc,
    ← survives_succ hp, survives_congr h.lt h.least]

/-- A round that clears the multiples of `p` and gives the locks back. -/
lemma advances_of_clear {cfg : Config} {m : Main cfg} (h : Head cfg m) (hsq : m.p * m.p ≤ cfg.max)
    {bits : Buf} {sem : Fin cfg.numLocks → ℕ} (hfree : ∀ x, sem x = 1)
    (hclear : ∀ i ≤ cfg.max,
      chkIsprime bits i = (chkIsprime m.isprime i && !decide (m.p ∣ i ∧ 2 * m.p ≤ i))) :
    Advances cfg m ⟨nextPrime cfg bits m.p, bits, sem⟩ := by
  have hbits : ∀ i < cfg.max, chkIsprime bits i = true ↔ Survives (m.p + 1) i := by
    intro i hi
    rw [hclear i (by omega), survives_succ h.prime, ← h.bits i hi, Bool.and_eq_true,
      Bool.not_eq_true', decide_eq_false_iff_not]
  obtain ⟨q, hfind, hq, hlt, hleast⟩ := search_spec h.prime hsq hbits
  have hnext : nextPrime cfg bits m.p = q := by
    unfold nextPrime
    rw [hfind]
    rfl
  rw [hnext]
  exact ⟨hfind, hq, hlt, hleast, hfree, hclear⟩

lemma round_advances {cfg : Config} {m m' : Main cfg} (h : Head cfg m) (hr : Round cfg m m') :
    Advances cfg m m' := by
  obtain @⟨sched, s, hsq, hrun, hdone⟩ := hr
  obtain ⟨hfree, hclear⟩ := threads_clear h.prime.pos h.free hrun hdone
  exact advances_of_clear h hsq hfree hclear

lemma Head.next {cfg : Config} {m m' : Main cfg} (h : Head cfg m) (ha : Advances cfg m m') :
    Head cfg m' := by
  refine ⟨ha.prime, ha.free, fun i hi => ?_⟩
  have := ha.survives h.prime hi.le (P := True) (by rw [true_and]; exact h.bits i hi)
  rwa [true_and] at this

/-- **One round of the loop.** -/
theorem head_round {cfg : Config} {m m' : Main cfg} (h : Head cfg m) (hr : Round cfg m m') :
    Head cfg m' ∧ m.p < m'.p :=
  ⟨h.next (round_advances h hr), (round_advances h hr).lt⟩

theorem head_run {cfg : Config} {junk : Buf} {m : Main cfg}
    (h : Relation.ReflTransGen (Round cfg) (start cfg junk) m) : Head cfg m := by
  induction h with
  | refl => exact head_start cfg junk
  | tail _ hr ih => exact (head_round ih hr).1

/-- **The loop ends**: while `p * p <= MAX` the threads can run, and `p` grows. -/
theorem exists_end {cfg : Config} {m : Main cfg} (h : Head cfg m) :
    ∃ m', Relation.ReflTransGen (Round cfg) m m' ∧ cfg.max < m'.p * m'.p := by
  induction hn : cfg.max + 1 - m.p using Nat.strong_induction_on generalizing m with
  | _ n ih =>
    rcases Nat.lt_or_ge cfg.max (m.p * m.p) with hend | hsq
    · exact ⟨m, .refl, hend⟩
    · obtain ⟨⟨sched, s, hrun, hdone⟩, -⟩ := threads_end cfg h.prime.pos m.isprime h.free
      have hr := Round.mk hsq hrun hdone
      obtain ⟨h', hlt⟩ := head_round h hr
      have hp : m.p ≤ m.p * m.p := Nat.le_mul_self m.p
      obtain ⟨m', hrun', hend⟩ := ih _ (by omega) h' rfl
      exact ⟨m', .head hr hrun', hend⟩

/-- **The sieve is correct.** Whatever `malloc` returned, `main`'s loop can be run to its end
with the threads interleaved in some way, and after every run that ends the bits below `MAX`
tell the primes. -/
theorem sieve_correct (cfg : Config) (junk : Buf) :
    (∃ m, Relation.ReflTransGen (Round cfg) (start cfg junk) m ∧ cfg.max < m.p * m.p) ∧
    ∀ m, Relation.ReflTransGen (Round cfg) (start cfg junk) m → cfg.max < m.p * m.p →
      ∀ i < cfg.max, chkIsprime m.isprime i = true ↔ i.Prime := by
  refine ⟨exists_end (head_start cfg junk), fun m hrun hend i hi => ?_⟩
  rw [(head_run hrun).bits i hi]
  exact survives_iff_prime (hi.trans hend)

lemma sq_le_of_round {cfg : Config} {m m' : Main cfg} (h : Round cfg m m') :
    m.p * m.p ≤ cfg.max := by
  cases h with
  | mk hp => exact hp

/-- In a row of rounds `p` has grown by one at least in each. -/
lemma add_two_le_p {cfg : Config} {junk : Buf} {f : ℕ → Main cfg} (h0 : f 0 = start cfg junk)
    {n : ℕ} (hf : ∀ k < n, Round cfg (f k) (f (k + 1))) : Head cfg (f n) ∧ n + 2 ≤ (f n).p := by
  induction n with
  | zero =>
    rw [h0]
    exact ⟨head_start cfg junk, le_rfl⟩
  | succ n ih =>
    obtain ⟨hhead, hle⟩ := ih fun k hk => hf k (by omega)
    obtain ⟨hhead', hlt⟩ := head_round hhead (hf n (by omega))
    exact ⟨hhead', by omega⟩

/-- **The sieve loop terminates.** Whatever `malloc` returned: the search of each iteration finds a
larger `p` before it runs out; an iteration that is entered can be completed, and its threads
take boundedly many steps; and no run has more than `√MAX` iterations. -/
theorem sieve_terminates (cfg : Config) (junk : Buf) :
    (∀ m m', Relation.ReflTransGen (Round cfg) (start cfg junk) m → Round cfg m m' →
      (List.range' (m.p + 1) (cfg.max - m.p)).find? (chkIsprime m'.isprime) = some m'.p ∧
        m.p < m'.p) ∧
    (∀ m, Relation.ReflTransGen (Round cfg) (start cfg junk) m → m.p * m.p ≤ cfg.max →
      (∃ m', Round cfg m m') ∧ ∃ bound, ∀ sched s,
        run (threads cfg) (spawn m.isprime m.sem (threadarg cfg m.p)) sched = some s →
          sched.length ≤ bound) ∧
    ∀ n (f : ℕ → Main cfg), f 0 = start cfg junk → (∀ k < n, Round cfg (f k) (f (k + 1))) →
      n * n ≤ cfg.max := by
  refine ⟨fun m m' hm hr => ?_, fun m hm hsq => ?_, fun n f h0 hf => ?_⟩
  · have ha := round_advances (head_run hm) hr
    exact ⟨ha.found, ha.lt⟩
  · have h := head_run hm
    obtain ⟨⟨sched, s, hrun, hdone⟩, hbound⟩ := threads_end cfg h.prime.pos m.isprime h.free
    exact ⟨⟨_, .mk hsq hrun hdone⟩, hbound⟩
  · rcases n with _ | n
    · exact Nat.zero_le _
    · have hle : n + 2 ≤ (f n).p := (add_two_le_p h0 fun k hk => hf k (by omega)).2
      -- the last round was entered
      have hsq := sq_le_of_round (hf n (by omega))
      exact (Nat.mul_le_mul (by omega) (by omega)).trans hsq

end Rtes.SieveMain
