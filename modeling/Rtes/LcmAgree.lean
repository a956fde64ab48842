import Rtes.LcmArm
import Rtes.LcmIntel

/-!
The C code of `lcm/lcmc.c` against the assembly code of `lcm/lcmintel.s` and `lcm/lcmarm.s`.

The five routines for the factor agree on all words. The three for the multiple differ in how
they divide: repeated subtraction leaves a negative product alone and answers `0`, while
`__aeabi_idiv` truncates its quotient toward zero.
-/

namespace Rtes.LcmAgree

open Rtes.LcmGcf Rtes.LcmDivide

/-! ### The factor -/

/-- A run of one of the five routines on `a` and `b`. -/
inductive GcfRun (a b : Word)
  | c
  | intel (call : LcmIntel.Call 0 a b)
  | arm (idiv : LcmArm.State → LcmArm.State) (call : LcmArm.Call 0 a b)
  | arm1 (idiv : LcmArm.State → LcmArm.State) (call : LcmArm.Call LcmArm.GCFA1 a b)
  | arm2 (idiv : LcmArm.State → LcmArm.State) (call : LcmArm.Call LcmArm.GCFA2 a b)

def GcfRun.Returns {a b : Word} : GcfRun a b → Word → Prop
  | .c, r => ∃ fuel, gcfc fuel a b = some r
  | .intel call, r => call.Returns r
  | .arm idiv call, r => call.Returns idiv r
  | .arm1 idiv call, r => call.Returns idiv r
  | .arm2 idiv call, r => call.Returns idiv r

lemma GcfRun.returns_iff {a b : Word} (x : GcfRun a b) (r : Word) :
    x.Returns r ↔ ∃ fuel, gcfc fuel a b = some r := by
  cases x with
  | c => exact Iff.rfl
  | intel call => exact LcmIntel.gcfa_returns call
  | arm idiv call => exact LcmArm.gcfa_returns call
  | arm1 idiv call => exact LcmArm.gcfa1_returns call
  | arm2 idiv call => exact LcmArm.gcfa2_returns call

/-- **The five routines agree.** On any two words all of them return the same word, or none of
them ever returns. -/
theorem gcf_agree (a b : Word) :
    (∃ r, ∀ x : GcfRun a b, ∀ r', x.Returns r' ↔ r' = r) ∨
      ∀ x : GcfRun a b, ∀ r, ¬ x.Returns r := by
  simp only [GcfRun.returns_iff]
  by_cases h : ∃ fuel r, gcfc fuel a b = some r
  · obtain ⟨fuel, r, hr⟩ := h
    refine Or.inl ⟨r, fun _ r' => ⟨?_, ?_⟩⟩
    · rintro ⟨fuel', hr'⟩
      exact Loop.iter_unique hr' hr
    · rintro rfl
      exact ⟨fuel, hr⟩
  · refine Or.inr fun _ r => ?_
    rintro ⟨fuel, hr⟩
    exact h ⟨fuel, r, hr⟩

/-! ### The multiple -/

/-- Subtracting never divides a negative number; truncating does, from `g` down. -/
lemma max_ediv_eq_tdiv_iff {p g : ℤ} (hg : 0 < g) : max (p / g) 0 = p.tdiv g ↔ -g < p := by
  rcases le_or_gt 0 p with hp | hp
  · rw [Int.tdiv_eq_ediv_of_nonneg hp, max_eq_left (Int.ediv_nonneg hp hg.le)]
    exact iff_of_true rfl (by omega)
  · have htdiv : p.tdiv g = -(-p / g) := by
      rw [← Int.tdiv_eq_ediv_of_nonneg (by omega), Int.neg_tdiv, neg_neg]
    rw [htdiv, max_eq_right (Int.ediv_neg_of_neg_of_pos hp hg).le, zero_eq_neg,
      Int.ediv_eq_iff_of_pos hg]
    omega

/-- What the routines return: the C code and the x86 code the quotient of `divide`, the ARM code
the one of `__aeabi_idiv`. -/
lemma lcm_returns {idiv : LcmArm.State → LcmArm.State} (hidiv : LcmArm.IsIdiv idiv) {a b : Word}
    (ha : 0 < a.toInt) (hb : 0 < b.toInt) (i : LcmIntel.Call LcmIntel.LCMA a b)
    (m : LcmArm.Call LcmArm.LCMA a b) : ∃ q q' : Word,
      (∀ r, (∃ fuel, lcmc fuel a b = some r) ↔ r = q) ∧ (∀ r, i.Returns r ↔ r = q) ∧
      (∀ r, m.Returns idiv r ↔ r = q') ∧
      q.toInt = max ((a * b).toInt / Int.gcd a.toInt b.toInt) 0 ∧
      q'.toInt = (a * b).toInt.tdiv (Int.gcd a.toInt b.toInt) := by
  obtain ⟨fuel, g, hg, hgcd, hpos⟩ := gcfc_pos ha hb
  obtain ⟨q, hq, hval⟩ := divide_total (a * b) hpos
  obtain ⟨fuel', q₀, hq₀, hval₀⟩ := lcmc_total ha hb
  have hqq : q₀ = q := BitVec.eq_of_toInt_eq (by rw [hval₀, hval, hgcd])
  have hg0 : g ≠ 0 := by rintro rfl; exact absurd hpos (by decide)
  have hg1 : g ≠ -1 := by rintro rfl; exact absurd hpos (by decide)
  refine ⟨q, (a * b).sdiv g, fun r => ⟨?_, ?_⟩, fun r => LcmIntel.lcma_returns i hg hq,
    fun r => LcmArm.lcma_returns hidiv m hg hg0, by rw [hval, hgcd], ?_⟩
  · rintro ⟨fuel, hr⟩
    rw [lcmc_unique hr hq₀, hqq]
  · rintro rfl
    exact ⟨fuel', hqq ▸ hq₀⟩
  · rw [BitVec.toInt_sdiv_of_ne_or_ne _ _ (Or.inr hg1), hgcd]

/-- **The three routines agree exactly on products above `-g`**, where `g` is the factor and the
product is taken modulo `2 ^ 32`, as a signed number. -/
theorem lcm_agree_iff (a b : Word) (ha : 0 < a.toInt) (hb : 0 < b.toInt)
    (idiv : LcmArm.State → LcmArm.State) (hidiv : LcmArm.IsIdiv idiv)
    (i : LcmIntel.Call LcmIntel.LCMA a b) (m : LcmArm.Call LcmArm.LCMA a b) :
    (∃ r, (∃ fuel, lcmc fuel a b = some r) ∧ i.Returns r ∧ m.Returns idiv r) ↔
      -(Int.gcd a.toInt b.toInt : ℤ) < (a * b).toInt := by
  have hg : (0 : ℤ) < Int.gcd a.toInt b.toInt :=
    Nat.cast_pos.mpr (Int.gcd_pos_of_ne_zero_left _ ha.ne')
  obtain ⟨q, q', hc, hi, hm, hq, hq'⟩ := lcm_returns hidiv ha hb i m
  rw [← max_ediv_eq_tdiv_iff hg, ← hq, ← hq', BitVec.toInt_inj]
  simp only [hc, hi, hm]
  constructor
  · rintro ⟨r, rfl, -, h⟩
    exact h
  · intro h
    exact ⟨q, rfl, rfl, h⟩

/-- A division as `__aeabi_idiv` does it, with nothing else changed. -/
def idiv (s : LcmArm.State) : LcmArm.State := { s with r0 := s.r0.sdiv s.r1, pc := s.lr.toNat }

lemma isIdiv_idiv : LcmArm.IsIdiv idiv where
  quotient _ _ := rfl
  pc _ := rfl
  r4 _ := rfl
  fp _ := rfl
  sp _ := rfl
  mem _ _ _ := rfl

/-- A call from code at `256`. -/
def intelCall (entry : ℕ) (a b : Word) : LcmIntel.Call entry a b where
  state :=
    { eax := 0, edx := 0, edi := a, esi := b, rbp := 0, rsp := 4096, flags := ⟨false, false, false⟩,
      mem := fun x => if x = 4096 then 256 else 0, pc := entry }
  pc := rfl
  edi := rfl
  esi := rfl
  elsewhere := show LcmIntel.listing.length ≤
    (LcmIntel.readQuad (fun x => if x = 4096 then 256 else 0) 4096).toNat by decide

def armCall (entry : ℕ) (a b : Word) : LcmArm.Call entry a b where
  state :=
    { r0 := a, r1 := b, r2 := 0, r3 := 0, r4 := 0, fp := 0, ip := 0, sp := 4096, lr := 256,
      flags := ⟨false, false, false⟩, mem := fun _ => 0, pc := entry }
  pc := rfl
  r0 := rfl
  r1 := rfl
  elsewhere := show LcmArm.listing.length ≤ (256 : Word).toNat by decide

/-- The routines agree on `4` and `6`. -/
theorem lcm_agree_iff_four_six : ∃ r, (∃ fuel, lcmc fuel 4 6 = some r) ∧
    (intelCall LcmIntel.LCMA 4 6).Returns r ∧ (armCall LcmArm.LCMA 4 6).Returns idiv r :=
  (lcm_agree_iff 4 6 (by decide) (by decide) idiv isIdiv_idiv (intelCall LcmIntel.LCMA 4 6)
    (armCall LcmArm.LCMA 4 6)).mpr (by decide)

/-- The product of `65536` and `32768` wraps to a negative number, which only the ARM code
divides. -/
theorem lcm_disagree : ¬ ∃ r, (∃ fuel, lcmc fuel 65536 32768 = some r) ∧
    (intelCall LcmIntel.LCMA 65536 32768).Returns r ∧
      (armCall LcmArm.LCMA 65536 32768).Returns idiv r := by
  rintro ⟨r, hr, -, hr'⟩
  obtain ⟨q, q', hc, -, hm, hq, hq'⟩ := lcm_returns isIdiv_idiv (a := 65536) (b := 32768)
    (by decide) (by decide) (intelCall LcmIntel.LCMA 65536 32768) (armCall LcmArm.LCMA 65536 32768)
  rw [← (hc r).mp hr] at hq
  rw [← (hm r).mp hr', hq] at hq'
  exact absurd hq' (by decide)

end Rtes.LcmAgree
