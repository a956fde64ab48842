import Rtes.Loop
import Rtes.Timespec

/-!
The wake-up times of `Sequencer` in `sequencer_generic/seqgenex0.c`, built with `ABS_DELAY`.

Each cycle reads the clock, adds the delay that the drift control has left in
`delay_time.tv_nsec`, and sleeps until then. The drift control computes that delay in floating
point; it is a parameter here, as are the clock and the signals that interrupt a sleep. The
posts of the cycle are in `SeqTimetable`.
-/

namespace Rtes.SeqAbsDelay

open Rtes.Loop

def nanosecPerSec : ℤ := 1000000000

/-- The `ABS_DELAY` block before the delay loop: `delay_time` from the relative delay in it and
the time read from the clock. -/
def absDelay (currentTimeVal delayTime : Timespec) : Timespec :=
  let delayTime := { delayTime with tvSec := currentTimeVal.tvSec }
  let delayTime := { delayTime with tvNsec := currentTimeVal.tvNsec + delayTime.tvNsec }
  if delayTime.tvNsec > nanosecPerSec then
    { tvSec := delayTime.tvSec + 1, tvNsec := delayTime.tvNsec - nanosecPerSec }
  else delayTime

def EINTR : ℤ := 4
def EINVAL : ℤ := 22

/-- The times that `clock_nanosleep` takes. -/
def Taken (request : Timespec) : Prop := request.Normal ∧ 0 ≤ request.tvSec

instance (request : Timespec) : Decidable (Taken request) := inferInstanceAs (Decidable (_ ∧ _))

/-- `clock_nanosleep` with `TIMER_ABSTIME`: a time that is not normalised or has negative seconds
is refused, a signal ends the sleep early, and otherwise it returns at the time requested. -/
def clockNanosleep (request : Timespec) (signal : Bool) : ℤ :=
  if Taken request then if signal then EINTR else 0 else EINVAL

/-- How the delay loop is left: with the last `rc`, or through `exit(-1)`. -/
inductive Left
  | woke (rc : ℤ)
  | exit
  deriving DecidableEq

/-- The delay loop; `signal n` tells whether a signal comes during call `n`. -/
def delayLoop (fuel : ℕ) (delayTime : Timespec) (signal : ℕ → Bool) : Option Left :=
  iter (fun delayCnt =>
    let rc := clockNanosleep delayTime (signal delayCnt)
    some (if rc = EINTR then .inl (delayCnt + 1) else if rc < 0 then .inr .exit
      else .inr (.woke rc))) fuel 0

/-- The wake-up time is a time, and the right one. -/
def Valid (currentTimeVal : Timespec) (d : ℤ) (wake : Timespec) : Prop :=
  wake.Normal ∧ wake.nanos = currentTimeVal.nanos + d

lemma absDelay_nanos (currentTimeVal delayTime : Timespec) :
    (absDelay currentTimeVal delayTime).nanos = currentTimeVal.nanos + delayTime.tvNsec := by
  unfold absDelay nanosecPerSec Timespec.nanos
  dsimp only
  split_ifs <;> dsimp only <;> omega

/-- The carry is taken one nanosecond late and a borrow is never taken. -/
lemma absDelay_normal_iff {currentTimeVal delayTime : Timespec} (hcur : currentTimeVal.Normal)
    (hlt : delayTime.tvNsec < 10 ^ 9) : (absDelay currentTimeVal delayTime).Normal ↔
      0 ≤ currentTimeVal.tvNsec + delayTime.tvNsec ∧
        currentTimeVal.tvNsec + delayTime.tvNsec ≠ 10 ^ 9 := by
  unfold Timespec.Normal at hcur ⊢
  unfold absDelay nanosecPerSec
  dsimp only
  split_ifs with hcarry <;> dsimp only <;> omega

/-- An invalid time is refused at once, and the loop takes the refusal for a wake-up. -/
lemma delayLoop_invalid {wake : Timespec} (h : ¬ Taken wake) (signal : ℕ → Bool) (fuel : ℕ) :
    delayLoop (fuel + 1) wake signal = some (.woke EINVAL) :=
  iter_inr (by simp [clockNanosleep, h, EINTR, EINVAL]) fuel

/-- A valid one is slept out, through any number of signals. -/
lemma delayLoop_valid {wake : Timespec} (h : Taken wake) {signal : ℕ → Bool} {n : ℕ}
    (hn : signal n = false) : ∃ fuel, delayLoop fuel wake signal = some (.woke 0) := by
  obtain ⟨r, hr, rfl⟩ : ∃ r, delayLoop (n - 0 + 1) wake signal = some r ∧ r = .woke 0 := by
    -- call `n` is not reached before it, and is not interrupted
    refine iter_total (fun delayCnt => delayCnt ≤ n) _ (fun delayCnt => n - delayCnt)
      (fun k hk => ?_) (Nat.zero_le n)
    cases hs : signal k with
    | true =>
      have hne : k ≠ n := by
        rintro rfl
        rw [hn] at hs
        cases hs
      exact Or.inl ⟨k + 1, by simp [clockNanosleep, h], by omega, by omega⟩
    | false => exact Or.inr ⟨.woke 0, by simp [clockNanosleep, h, EINTR], rfl⟩
  exact ⟨_, hr⟩

/-- **Absolute wake-up times.** For every time read and every delay below a second, late cycles
included, the wake-up time is valid exactly when the sum of the nanoseconds is not negative and
not a whole second; and the delay loop sleeps exactly then, as long as the seconds are not
negative. -/
theorem wake_valid_iff {currentTimeVal : Timespec} (hcur : currentTimeVal.Normal) {d : ℤ}
    (hd : -10 ^ 9 < d ∧ d < 10 ^ 9) (sec : ℤ) :
    (Valid currentTimeVal d (absDelay currentTimeVal ⟨sec, d⟩) ↔
      0 ≤ currentTimeVal.tvNsec + d ∧ currentTimeVal.tvNsec + d ≠ 10 ^ 9) ∧
    ∀ signal : ℕ → Bool, (∃ n, signal n = false) →
      ∃ fuel, delayLoop fuel (absDelay currentTimeVal ⟨sec, d⟩) signal =
        some (.woke (if (0 ≤ currentTimeVal.tvNsec + d ∧ currentTimeVal.tvNsec + d ≠ 10 ^ 9) ∧
          0 ≤ (absDelay currentTimeVal ⟨sec, d⟩).tvSec then 0 else EINVAL)) := by
  have hiff : (absDelay currentTimeVal ⟨sec, d⟩).Normal ↔
      0 ≤ currentTimeVal.tvNsec + d ∧ currentTimeVal.tvNsec + d ≠ 10 ^ 9 :=
    absDelay_normal_iff hcur hd.2
  refine ⟨?_, fun signal ⟨n, hn⟩ => ?_⟩
  · unfold Valid
    rw [hiff, and_iff_left (absDelay_nanos currentTimeVal ⟨sec, d⟩)]
  · have htaken := and_congr_left' (c := 0 ≤ (absDelay currentTimeVal ⟨sec, d⟩).tvSec) hiff
    by_cases h : Taken (absDelay currentTimeVal ⟨sec, d⟩)
    · rw [if_pos (htaken.mp h)]
      exact delayLoop_valid h hn
    · rw [if_neg (mt htaken.mpr h)]
      exact ⟨1, delayLoop_invalid h signal 0⟩

/-- The nominal delay of ten milliseconds, across a second. -/
theorem wake_valid_iff_carry :
    Valid ⟨41, 995000000⟩ 10000000 (absDelay ⟨41, 995000000⟩ ⟨0, 10000000⟩) :=
  (wake_valid_iff (by decide) (by decide) 0).1.mpr (by decide)

/-- Ten milliseconds that end on a whole second, and a late cycle just after one. -/
theorem wake_not_valid :
    ¬ Valid ⟨41, 990000000⟩ 10000000 (absDelay ⟨41, 990000000⟩ ⟨0, 10000000⟩) ∧
      ¬ Valid ⟨41, 2000000⟩ (-5000000) (absDelay ⟨41, 2000000⟩ ⟨0, -5000000⟩) := by
  constructor
  · rintro ⟨h, -⟩
    revert h
    decide
  · rintro ⟨h, -⟩
    revert h
    decide

end Rtes.SeqAbsDelay
