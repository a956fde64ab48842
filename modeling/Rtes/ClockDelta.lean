import Rtes.Bytes
import Rtes.Checked
import Rtes.Timespec

/-!
The two versions of `delta_t`.

The original one stands in `POSIX-Examples/posix_clock.c` and
`POSIX-Examples-Updated/posix_clock.c`, the rewritten one in `RT-Clock/posix_clock.c`,
`rt_simple_threading/pthread.c` and `rt_simplethread_prio_amp/pthread.c`. The copies of each are
the same code. Both take their differences in `int`: storing a difference of seconds there keeps
its low 32 bits, and an operation on `int` that leaves the range has no defined result.
-/

namespace Rtes.ClockDelta

open Rtes.Bytes Rtes.Checked

def nsecPerSec : ℤ := 1000000000

def ok : ℤ := 0
def error : ℤ := -1

/-- `delta_t` as first written: the value returned and what is in `*delta_t` after. -/
def original (stop start : Timespec) : Option (ℤ × Timespec) := do
  let dtSec := int32 (stop.tvSec - start.tvSec)
  let dtNsec := int32 (stop.tvNsec - start.tvNsec)
  if dtSec ≥ 0 then
    if dtNsec ≥ 0 then pure (ok, ⟨dtSec, dtNsec⟩)
    else
      let sec ← fitInt (dtSec - 1)
      let nsec ← fitInt (nsecPerSec + dtNsec)
      pure (ok, ⟨sec, nsec⟩)
  else
    if dtNsec ≥ 0 then pure (ok, ⟨dtSec, dtNsec⟩)
    else
      let sec ← fitInt (dtSec - 1)
      let nsec ← fitInt (nsecPerSec + dtNsec)
      pure (ok, ⟨sec, nsec⟩)

/-- `delta_t` as rewritten, with `delta` in `*delta_t` before. -/
def rewritten (stop start delta : Timespec) : Option (ℤ × Timespec) := do
  let dtSec := int32 (stop.tvSec - start.tvSec)
  let dtNsec := int32 (stop.tvNsec - start.tvNsec)
  if dtSec = 0 then
    if dtNsec ≥ 0 ∧ dtNsec < nsecPerSec then pure (ok, ⟨0, dtNsec⟩)
    else if dtNsec > nsecPerSec then
      let nsec ← fitInt (dtNsec - nsecPerSec)
      pure (ok, ⟨1, nsec⟩)
    else pure (error, delta)
  else if dtSec > 0 then
    if dtNsec ≥ 0 ∧ dtNsec < nsecPerSec then pure (ok, ⟨dtSec, dtNsec⟩)
    else if dtNsec > nsecPerSec then
      let nsec ← fitInt (dtNsec - nsecPerSec)
      pure (ok, ⟨delta.tvSec + 1, nsec⟩)
    else
      let sec ← fitInt (dtSec - 1)
      let nsec ← fitInt (nsecPerSec + dtNsec)
      pure (ok, ⟨sec, nsec⟩)
  else pure (ok, delta)

/-- A second difference that an `int` holds. -/
def InInt (x : ℤ) : Prop := -2 ^ 31 ≤ x ∧ x < 2 ^ 31

instance (x : ℤ) : Decidable (InInt x) := inferInstanceAs (Decidable (_ ∧ _))

lemma int32_eq_iff {x : ℤ} : int32 x = x ↔ InInt x := by
  refine ⟨fun h => ?_, fun h => int32_eq h.1 h.2⟩
  have hlo : -((2 ^ 32 : ℕ) : ℤ) / 2 ≤ int32 x := Int.le_bmod (by decide)
  have hhi : int32 x < (((2 ^ 32 : ℕ) : ℤ) + 1) / 2 := Int.bmod_lt (by decide)
  rw [h] at hlo hhi
  unfold InInt
  omega

section Specs

variable {stop start : Timespec}

/-- The nanoseconds always fit. -/
lemma int32_nsec (hstop : stop.Normal) (hstart : start.Normal) :
    int32 (stop.tvNsec - start.tvNsec) = stop.tvNsec - start.tvNsec := by
  unfold Timespec.Normal at hstop hstart
  exact int32_eq (by omega) (by omega)

/-- **The original** takes the difference with one borrow. -/
lemma original_eq (hstop : stop.Normal) (hstart : start.Normal) : original stop start =
    if start.tvNsec ≤ stop.tvNsec then
      some (ok, ⟨int32 (stop.tvSec - start.tvSec), stop.tvNsec - start.tvNsec⟩)
    else (fitInt (int32 (stop.tvSec - start.tvSec) - 1)).map fun sec =>
      (ok, ⟨sec, 10 ^ 9 + (stop.tvNsec - start.tvNsec)⟩) := by
  have hfit : start.tvNsec ≤ stop.tvNsec ∨
      fitInt (nsecPerSec + (stop.tvNsec - start.tvNsec)) =
        some (10 ^ 9 + (stop.tvNsec - start.tvNsec)) := by
    rw [fitInt_eq_some]
    unfold Timespec.Normal at hstop hstart
    unfold nsecPerSec
    omega
  unfold original
  dsimp only
  rw [int32_nsec hstop hstart]
  by_cases hle : start.tvNsec ≤ stop.tvNsec
  · simp [hle]
  · have hneg : ¬ stop.tvNsec - start.tvNsec ≥ 0 := by omega
    rw [hfit.resolve_left hle]
    simp only [hneg, hle, ite_self, if_false]
    cases fitInt (int32 (stop.tvSec - start.tvSec) - 1) <;> rfl

/-- **The rewritten version** does too, once the seconds do not go back. -/
lemma rewritten_eq (hstop : stop.Normal) (hstart : start.Normal)
    (hint : InInt (stop.tvSec - start.tvSec)) (delta : Timespec) : rewritten stop start delta =
    if stop.tvSec < start.tvSec then some (ok, delta)
    else if stop.tvSec = start.tvSec ∧ stop.tvNsec < start.tvNsec then some (error, delta)
    else if start.tvNsec ≤ stop.tvNsec then
      some (ok, ⟨stop.tvSec - start.tvSec, stop.tvNsec - start.tvNsec⟩)
    else some (ok, ⟨stop.tvSec - start.tvSec - 1, 10 ^ 9 + (stop.tvNsec - start.tvNsec)⟩) := by
  unfold rewritten
  dsimp only
  rw [int32_nsec hstop hstart, int32_eq hint.1 hint.2]
  unfold InInt at hint
  unfold Timespec.Normal at hstop hstart
  have hsec : nsecPerSec = 10 ^ 9 := rfl
  rcases lt_trichotomy stop.tvSec start.tvSec with hlt | heq | hgt
  · rw [if_neg (by omega), if_neg (by omega), if_pos hlt]
    rfl
  · by_cases hle : start.tvNsec ≤ stop.tvNsec
    · rw [if_pos (by omega), if_pos (by omega), if_neg (by omega), if_neg (by omega), if_pos hle,
        heq, sub_self]
      rfl
    · rw [if_pos (by omega), if_neg (by omega), if_neg (by omega), if_neg (by omega),
        if_pos (by omega)]
      rfl
  · by_cases hle : start.tvNsec ≤ stop.tvNsec
    · rw [if_neg (by omega), if_pos (by omega), if_pos (by omega), if_neg (by omega),
        if_neg (by omega), if_pos hle]
      rfl
    · have hs : fitInt (stop.tvSec - start.tvSec - 1) = some (stop.tvSec - start.tvSec - 1) :=
        fitInt_eq_some.mpr ⟨rfl, by omega, by omega⟩
      have hn : fitInt (nsecPerSec + (stop.tvNsec - start.tvNsec)) =
          some (10 ^ 9 + (stop.tvNsec - start.tvNsec)) :=
        fitInt_eq_some.mpr ⟨by omega, by omega, by omega⟩
      rw [if_neg (by omega), if_pos (by omega), if_neg (by omega), if_neg (by omega),
        if_neg (by omega), if_neg (by omega), if_neg hle, hs, hn]
      rfl

end Specs

/-! ### What they decide -/

/-- What `delta_t` is for: `OK` and the normalised difference, or `ERROR` and nothing stored
when `stop` is before `start`. -/
def Decides (stop start delta : Timespec) (r : Option (ℤ × Timespec)) : Prop :=
  (start.nanos ≤ stop.nanos →
    ∃ d : Timespec, r = some (ok, d) ∧ d.Normal ∧ start.nanos + d.nanos = stop.nanos) ∧
  (stop.nanos < start.nanos → r = some (error, delta))

lemma rewritten_decides {stop start : Timespec} (hstop : stop.Normal) (hstart : start.Normal)
    (hint : InInt (stop.tvSec - start.tvSec)) (hsec : start.tvSec ≤ stop.tvSec)
    (delta : Timespec) : Decides stop start delta (rewritten stop start delta) := by
  have hrw := rewritten_eq hstop hstart hint delta
  rw [if_neg (not_lt.mpr hsec)] at hrw
  unfold Timespec.Normal at hstop hstart
  unfold Decides Timespec.Normal Timespec.nanos
  by_cases hlt : stop.tvSec = start.tvSec ∧ stop.tvNsec < start.tvNsec
  · rw [if_pos hlt] at hrw
    exact ⟨fun hle => absurd hle (by omega), fun _ => hrw⟩
  · rw [if_neg hlt] at hrw
    refine ⟨fun _ => ?_, fun h => absurd h (by omega)⟩
    by_cases hle : start.tvNsec ≤ stop.tvNsec
    · rw [if_pos hle] at hrw
      exact ⟨_, hrw, by dsimp only; omega, by dsimp only; omega⟩
    · rw [if_neg hle] at hrw
      exact ⟨_, hrw, by dsimp only; omega, by dsimp only; omega⟩

/-- **The rewritten `delta_t` decides** exactly when the seconds of `stop` are not before those of
`start`: its two cases leave the third out, which falls through to `OK`. -/
theorem rewritten_decides_iff {stop start : Timespec} (hstop : stop.Normal) (hstart : start.Normal)
    (hint : InInt (stop.tvSec - start.tvSec)) (delta : Timespec) :
    Decides stop start delta (rewritten stop start delta) ↔ start.tvSec ≤ stop.tvSec := by
  refine ⟨fun h => ?_, fun hsec => rewritten_decides hstop hstart hint hsec delta⟩
  by_contra hlt
  have hrw := rewritten_eq hstop hstart hint delta
  rw [if_pos (not_le.mp hlt)] at hrw
  have hbefore : stop.nanos < start.nanos := by
    unfold Timespec.Normal at hstop hstart
    unfold Timespec.nanos
    omega
  have herr := hrw.symm.trans (h.2 hbefore)
  simp [ok, error] at herr

/-- Half a second, across the second. -/
theorem rewritten_decides_iff_borrow :
    Decides ⟨8, 250000000⟩ ⟨7, 750000000⟩ ⟨0, 0⟩
      (rewritten ⟨8, 250000000⟩ ⟨7, 750000000⟩ ⟨0, 0⟩) :=
  (rewritten_decides_iff (by decide) (by decide) (by decide) _).mpr (by decide)

/-- A `stop` one second before `start` is passed as `OK`. -/
theorem not_decides_earlier :
    Timespec.Normal ⟨1, 0⟩ ∧ Timespec.Normal ⟨2, 0⟩ ∧ InInt (1 - 2) ∧
      ¬ Decides ⟨1, 0⟩ ⟨2, 0⟩ ⟨5, 7⟩ (rewritten ⟨1, 0⟩ ⟨2, 0⟩ ⟨5, 7⟩) := by
  refine ⟨by decide, by decide, by decide, fun ⟨_, h⟩ => ?_⟩
  have herr := h (by decide)
  revert herr
  decide

/-- The result of the original is the exact difference. -/
def Exact (stop start : Timespec) (r : Option (ℤ × Timespec)) : Prop :=
  ∃ d : Timespec, r = some (ok, d) ∧ d.Normal ∧ d.nanos = stop.nanos - start.nanos

/-- The original is exact when the second difference, less one for a borrow, stays in `int`. -/
lemma original_exact_iff {stop start : Timespec} (hstop : stop.Normal) (hstart : start.Normal) :
    Exact stop start (original stop start) ↔ InInt (stop.tvSec - start.tvSec) ∧
      (stop.tvNsec < start.tvNsec → stop.tvSec - start.tvSec ≠ -2 ^ 31) := by
  have hrw := original_eq hstop hstart
  unfold Timespec.Normal at hstop hstart
  unfold Exact Timespec.Normal Timespec.nanos
  by_cases hle : start.tvNsec ≤ stop.tvNsec
  · rw [hrw, if_pos hle, and_iff_left (fun h => absurd h (not_lt.mpr hle)), ← int32_eq_iff]
    constructor
    · rintro ⟨d, hd, -, hnanos⟩
      obtain ⟨-, rfl⟩ := Prod.mk.inj (Option.some.inj hd)
      dsimp only at hnanos
      omega
    · intro hint
      exact ⟨_, rfl, by dsimp only; omega, by dsimp only; omega⟩
  · rw [hrw, if_neg hle]
    constructor
    · rintro ⟨d, hd, -, hnanos⟩
      obtain ⟨sec, hsec, hd⟩ := Option.map_eq_some_iff.mp hd
      obtain ⟨-, rfl⟩ := Prod.mk.inj hd
      obtain ⟨hsec, hlo, -⟩ := fitInt_eq_some.mp hsec
      dsimp only at hnanos
      have hint : int32 (stop.tvSec - start.tvSec) = stop.tvSec - start.tvSec := by omega
      exact ⟨int32_eq_iff.mp hint, fun _ => by omega⟩
    · rintro ⟨hint, hne⟩
      have hne := hne (by omega)
      have heq := int32_eq_iff.mpr hint
      unfold InInt at hint
      rw [heq, fitInt_eq_some.mpr ⟨rfl, by omega, by omega⟩]
      exact ⟨_, rfl, by dsimp only; omega, by dsimp only; omega⟩

/-- **The two versions.** Where `stop` is not before `start` they return and store the same; and
in either order the original stores the exact difference exactly when `int` holds the second
difference, and still holds it after a borrow. -/
theorem delta_t_versions {stop start : Timespec} (hstop : stop.Normal) (hstart : start.Normal)
    (delta : Timespec) :
    (start.nanos ≤ stop.nanos → InInt (stop.tvSec - start.tvSec) →
      ∃ d, original stop start = some (ok, d) ∧ rewritten stop start delta = some (ok, d)) ∧
    (Exact stop start (original stop start) ↔ InInt (stop.tvSec - start.tvSec) ∧
      (stop.tvNsec < start.tvNsec → stop.tvSec - start.tvSec ≠ -2 ^ 31)) := by
  refine ⟨fun hle hint => ?_, original_exact_iff hstop hstart⟩
  have hsec : start.tvSec ≤ stop.tvSec := by
    unfold Timespec.Normal at hstop hstart
    unfold Timespec.nanos at hle
    omega
  -- both hold the normalised form of one number
  obtain ⟨d, hd, hnorm, hnanos⟩ := (original_exact_iff hstop hstart).mpr ⟨hint, fun _ => by omega⟩
  obtain ⟨d', hd', hnorm', hnanos'⟩ := (rewritten_decides hstop hstart hint hsec delta).1 hle
  obtain rfl := hnorm.eq_of_nanos hnorm' (by omega)
  exact ⟨d, hd, hd'⟩

/-- A delay shorter than the one asked for, by two nanoseconds. -/
theorem delta_t_versions_early :
    Exact ⟨2, 999999999⟩ ⟨3, 1⟩ (original ⟨2, 999999999⟩ ⟨3, 1⟩) :=
  (delta_t_versions (by decide) (by decide) ⟨0, 0⟩).2.mpr (by decide)

/-- With the most negative second difference the borrow leaves the range of `int`. -/
theorem not_exact_int_min :
    Timespec.Normal ⟨0, 0⟩ ∧ Timespec.Normal ⟨2147483648, 1⟩ ∧ InInt (0 - 2147483648) ∧
      ¬ Exact ⟨0, 0⟩ ⟨2147483648, 1⟩ (original ⟨0, 0⟩ ⟨2147483648, 1⟩) := by
  refine ⟨by decide, by decide, by decide, fun ⟨d, hd, _⟩ => ?_⟩
  have hnone : original ⟨0, 0⟩ ⟨2147483648, 1⟩ = none := by decide
  rw [hnone] at hd
  cases hd

end Rtes.ClockDelta
