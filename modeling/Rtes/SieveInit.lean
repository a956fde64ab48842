import Rtes.SieveMain

/-!
What the sieve makes of the memory it was given.

The loop that sets the bits stops before `MAX`, while the others run up to `MAX`; so the bit of
`MAX` is what `malloc` left there, unless it is in the first byte, which is stored whole. The
sieve clears it when `MAX` is composite and never sets it.
-/

namespace Rtes.SieveInit

open Rtes.Bytes Rtes.SieveModel Rtes.SieveMain

variable {cfg : Config} {junk : Buf} {m : Main cfg}

/-- The loop over `0` .. `MAX` at the end of `main`, and the `cnt` it prints. -/
def numberOfPrimes (cfg : Config) (isprime : Buf) : BitVec 32 :=
  (List.range (cfg.max + 1)).foldl (fun cnt i => if chkIsprime isprime i then cnt + 1 else cnt) 0

lemma numberOfPrimes_congr {b b' : Buf} (h : ∀ i ≤ cfg.max, chkIsprime b i = chkIsprime b' i) :
    numberOfPrimes cfg b = numberOfPrimes cfg b' := by
  unfold numberOfPrimes
  refine List.foldl_ext _ _ _ fun cnt i hi => ?_
  rw [h i (by have := List.mem_range.mp hi; omega)]

/-- The bits when the loop starts. -/
lemma start_bits (cfg : Config) (junk : Buf) {i : ℕ} (hi : i ≤ cfg.max) :
    chkIsprime (start cfg junk).isprime i = true ↔
      2 ≤ i ∧ (i < cfg.max ∨ i < 8 ∨ chkIsprime junk i = true) := by
  have hfirst : i < 8 → (chkIsprime (Function.update junk 0 0xFC) i = true ↔ 2 ≤ i) := by
    intro h8
    rw [chkIsprime_eq, show i / 8 = 0 by omega, Function.update_self]
    interval_cases i <;> decide
  have hrest : ¬ i < 8 →
      chkIsprime (Function.update junk 0 0xFC) i = chkIsprime junk i := by
    intro h8
    rw [chkIsprime_eq, chkIsprime_eq, Function.update_of_ne (by omega)]
  unfold start
  dsimp only
  rw [chkIsprime_foldl]
  by_cases hmem : i ∈ List.range' 2 (cfg.max - 2)
  · have h2 := List.mem_range'_1.mp hmem
    rw [if_pos hmem]
    exact iff_of_true (by decide) ⟨h2.1, Or.inl (by omega)⟩
  · rw [if_neg hmem]
    rw [List.mem_range'_1] at hmem
    by_cases h8 : i < 8
    · rw [hfirst h8]
      exact ⟨fun h => ⟨h, Or.inr (Or.inl h8)⟩, fun h => h.1⟩
    · rw [hrest h8]
      constructor
      · exact fun h => ⟨by omega, Or.inr (Or.inr h)⟩
      · rintro ⟨-, h | h | h⟩
        · omega
        · omega
        · exact h

/-- **All bits, `MAX` included**: a bit is set when it was at the start and its index survives. -/
lemma bits_run (h : Relation.ReflTransGen (Round cfg) (start cfg junk) m) {i : ℕ}
    (hi : i ≤ cfg.max) : chkIsprime m.isprime i = true ↔
      chkIsprime (start cfg junk).isprime i = true ∧ Survives m.p i := by
  induction h with
  | refl =>
    refine ⟨fun hb => ⟨hb, ?_⟩, fun hb => hb.1⟩
    exact (survives_two i).mpr ((start_bits cfg junk hi).mp hb).1
  | tail hrun hr ih =>
    have hhead := head_run hrun
    exact (round_advances hhead hr).survives hhead.prime hi ih

/-- `main` has left its `while` loop. -/
def Ends (cfg : Config) (junk : Buf) (m : Main cfg) : Prop :=
  Relation.ReflTransGen (Round cfg) (start cfg junk) m ∧ cfg.max < m.p * m.p

lemma exists_ends (cfg : Config) (junk : Buf) : ∃ m, Ends cfg junk m :=
  exists_end (head_start cfg junk)

/-- The bits that `main` counts. -/
lemma bits_end (h : Ends cfg junk m) {i : ℕ} (hi : i ≤ cfg.max) :
    chkIsprime m.isprime i = true ↔
      i.Prime ∧ (i < cfg.max ∨ i < 8 ∨ chkIsprime junk i = true) := by
  rw [bits_run h.1 hi, start_bits cfg junk hi, survives_iff_prime (hi.trans_lt h.2)]
  constructor
  · rintro ⟨⟨-, hb⟩, hp⟩
    exact ⟨hp, hb⟩
  · rintro ⟨hp, hb⟩
    exact ⟨⟨hp.two_le, hb⟩, hp⟩

/-- `main` tells the same whatever `malloc` returned. -/
def Independent (cfg : Config) : Prop :=
  ∀ junk junk' m m', Ends cfg junk m → Ends cfg junk' m' →
    (∀ i ≤ cfg.max, chkIsprime m.isprime i = chkIsprime m'.isprime i) ∧
      numberOfPrimes cfg m.isprime = numberOfPrimes cfg m'.isprime

/-- **The count depends on uninitialised memory** exactly when `MAX` is a prime past the first
byte. -/
theorem independent_iff (cfg : Config) : Independent cfg ↔ cfg.max < 8 ∨ ¬ cfg.max.Prime := by
  constructor
  · intro h
    by_contra hnot
    push Not at hnot
    obtain ⟨h8, hp⟩ := hnot
    obtain ⟨m, hm⟩ := exists_ends cfg fun _ => 0
    obtain ⟨m', hm'⟩ := exists_ends cfg fun _ => 0xFF
    have hclear : chkIsprime (fun _ => 0) cfg.max = false := by
      rw [chkIsprime_eq]
      exact BitVec.getLsbD_zero
    have hset : chkIsprime (fun _ => 0xFF) cfg.max = true := by
      have hones : ∀ r : Fin 8, (0xFF : Byte).getLsbD r = true := by decide
      rw [chkIsprime_eq]
      exact hones ⟨cfg.max % 8, by omega⟩
    have hsame := (h _ _ m m' hm hm').1 cfg.max le_rfl
    rw [Bool.eq_iff_iff, bits_end hm le_rfl, bits_end hm' le_rfl, hclear, hset] at hsame
    rcases (hsame.mpr ⟨hp, Or.inr (Or.inr rfl)⟩).2 with hlt | hlt | hff
    · exact lt_irrefl _ hlt
    · omega
    · cases hff
  · intro h junk junk' m m' hm hm'
    have hsame : ∀ i ≤ cfg.max, chkIsprime m.isprime i = chkIsprime m'.isprime i := by
      intro i hi
      rw [Bool.eq_iff_iff, bits_end hm hi, bits_end hm' hi]
      refine and_congr_right fun hp => ?_
      rcases Nat.lt_or_ge i cfg.max with hlt | hge
      · exact iff_of_true (Or.inl hlt) (Or.inl hlt)
      · obtain rfl : i = cfg.max := le_antisymm hi hge
        have h8 := h.resolve_right (not_not.mpr hp)
        exact iff_of_true (Or.inr (Or.inl h8)) (Or.inr (Or.inl h8))
    exact ⟨hsame, numberOfPrimes_congr hsame⟩

/-- Up to eleven, on zeroed memory and on memory full of ones. -/
theorem count_up_to_eleven : let cfg : Config := ⟨11, 4, by decide, by decide⟩
    ∃ m m', Ends cfg (fun _ => 0) m ∧ Ends cfg (fun _ => 0xFF) m' ∧
      numberOfPrimes cfg m.isprime = 4 ∧ numberOfPrimes cfg m'.isprime = 5 := by
  intro cfg
  obtain ⟨m, hm⟩ := exists_ends cfg fun _ => 0
  obtain ⟨m', hm'⟩ := exists_ends cfg fun _ => 0xFF
  have hprime : ∀ i ≤ 11, i.Prime ↔ i ∈ [2, 3, 5, 7, 11] := by
    intro i hi
    interval_cases i <;> norm_num
  refine ⟨m, m', hm, hm', ?_, ?_⟩
  · have hbits : ∀ i ≤ 11, (i ∈ [2, 3, 5, 7, 11] ∧
        (i < 11 ∨ i < 8 ∨ chkIsprime (fun _ => 0) i = true)) ↔
          chkIsprime (fun k => if k = 0 then 0xAC else 0) i = true := by decide
    refine (numberOfPrimes_congr fun i hi => ?_).trans
      (show numberOfPrimes cfg (fun k => if k = 0 then 0xAC else 0) = 4 by decide)
    rw [Bool.eq_iff_iff, bits_end hm hi, hprime i hi]
    exact hbits i hi
  · have hbits : ∀ i ≤ 11, (i ∈ [2, 3, 5, 7, 11] ∧
        (i < 11 ∨ i < 8 ∨ chkIsprime (fun _ => 0xFF) i = true)) ↔
          chkIsprime (fun k => if k = 0 then 0xAC else 0x08) i = true := by decide
    refine (numberOfPrimes_congr fun i hi => ?_).trans
      (show numberOfPrimes cfg (fun k => if k = 0 then 0xAC else 0x08) = 5 by decide)
    rw [Bool.eq_iff_iff, bits_end hm' hi, hprime i hi]
    exact hbits i hi

end Rtes.SieveInit
