import Mathlib

/-!
Times as seconds and nanoseconds.

A time is normalised when its nanoseconds are less than a second. Every number of nanoseconds
has one normalised form.
-/

namespace Rtes

structure Timespec where
  tvSec : ℤ
  tvNsec : ℤ
  deriving DecidableEq

namespace Timespec

/-- The time in nanoseconds. -/
def nanos (t : Timespec) : ℤ := t.tvSec * 10 ^ 9 + t.tvNsec

/-- The form that `clock_gettime` gives and `clock_nanosleep` accepts. -/
def Normal (t : Timespec) : Prop := 0 ≤ t.tvNsec ∧ t.tvNsec < 10 ^ 9

instance (t : Timespec) : Decidable t.Normal := inferInstanceAs (Decidable (_ ∧ _))

/-- The normalised form is unique. -/
lemma Normal.eq_of_nanos {t u : Timespec} (ht : t.Normal) (hu : u.Normal)
    (h : t.nanos = u.nanos) : t = u := by
  obtain ⟨s, n⟩ := t
  obtain ⟨s', n'⟩ := u
  unfold Normal at ht hu
  unfold nanos at h
  dsimp only at ht hu h
  obtain rfl : s = s' := by omega
  obtain rfl : n = n' := by omega
  rfl

end Timespec

end Rtes
