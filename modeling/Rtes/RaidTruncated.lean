import Rtes.RaidShort

/-!
Restoring from chunk files that are too short.

A read loop that ends has found 512 bytes in its chunk, so a `restoreFile` that returns has found
512 for every stripe in every chunk it reads. At the end of a chunk no try moves anything, and
the loop of that chunk goes round for ever.
-/

namespace Rtes.RaidTruncated

open Rtes.Bytes Rtes.RaidModel Rtes.RaidShort

section Rounds

variable {xfer : Xfer} {fuel : ℕ} {fs : Chunks} {len m : ℤ} {junk : Buf}

/-- `ERROR` of `raidlib.h`. -/
def error : ℤ := -1

/-- A chunk that must be read does not hold its part of every stripe. -/
def Truncated (fs : Chunks) (len m : ℤ) : Prop :=
  ∃ c : Fin 5, m ≠ c + 1 ∧ (opened fs c).length < 512 * stripes len

/-- `restoreFile` as its rounds. -/
lemma restoreFile_eq_some {r : ℤ} {out : List Byte} {fs' : Chunks} :
    restoreFile xfer fuel junk fs len m = some (r, out, fs') ↔
      ∃ s s', before xfer fuel (opened fs) m junk (len.tdiv 2048).toNat = some s ∧
        (if len.tmod 2048 ≠ 0 then
          restoreRound xfer fuel (opened fs) m (len.tmod 2048) s = some s' else s' = s) ∧
        r = len ∧ out = s'.out ∧ fs' = fun c => some (opened fs c) := by
  unfold restoreFile
  simp only [Option.bind_eq_bind, Option.bind_eq_some_iff, Option.pure_def, Option.some.injEq,
    Prod.mk.injEq]
  constructor
  · rintro ⟨s, hs, s', hs', rfl, rfl, rfl⟩
    refine ⟨s, s', hs, ?_, rfl, rfl, rfl⟩
    split_ifs at hs' ⊢
    · exact hs'
    · exact (Option.some.inj hs').symm
  · rintro ⟨s, s', hs, hs', rfl, rfl, rfl⟩
    refine ⟨s, hs, s', ?_, rfl, rfl, rfl⟩
    split_ifs at hs' ⊢
    · exact hs'
    · rw [hs']

/-- **From a chunk that is too short** `restoreFile` does not return, whatever the counts. -/
lemma restoreFile_truncated (hx : Permitted xfer) (h : Truncated fs len m) :
    restoreFile xfer fuel junk fs len m = none := by
  obtain ⟨c, hm, hlt⟩ := h
  rw [Option.eq_none_iff_forall_ne_some]
  rintro ⟨r, out, fs'⟩ hret
  obtain ⟨s, s', hs, hlast, -⟩ := restoreFile_eq_some.mp hret
  obtain ⟨hge, hin⟩ := before_moved hx hs hm
  unfold stripes at hlt
  split_ifs at hlast hlt with h0
  · obtain ⟨hge', hin'⟩ := round_moved hx hlast hm
    omega
  · rcases Nat.eq_zero_or_pos (len.tdiv 2048).toNat with hq | hq
    · omega
    · have := hin hq
      omega

/-- From chunks that are long enough it returns, with complete reads. -/
lemma restoreFile_returns (h0 : 0 ≤ len) (h : ¬ Truncated fs len m) (junk : Buf) :
    ∃ out fs', restoreFile full 1 junk fs len m = some (len, out, fs') := by
  have hlen : ∀ c : Fin 5, m ≠ c + 1 → 512 * stripes len ≤ (opened fs c).length :=
    fun c hm => not_lt.mp fun hlt => h ⟨c, hm, hlt⟩
  unfold stripes at hlen
  obtain ⟨s, hs, hpos, -⟩ := before_total permitted_full 0 junk (len.tdiv 2048).toNat
    (fun _ _ => rfl) fun c hm => le_trans (by omega) (hlen c hm)
  by_cases hmod : len.tmod 2048 ≠ 0
  · simp only [if_pos hmod] at hlen
    obtain ⟨s', hs', -⟩ := round_total permitted_full 0 (s := s) (m := m) (fun _ _ => rfl)
      (fun c hm => by rw [hpos c hm]; exact hlen c hm) (Int.tmod_nonneg 2048 h0)
    exact ⟨_, _, restoreFile_eq_some.mpr ⟨s, s', hs, by rwa [if_pos hmod], rfl, rfl, rfl⟩⟩
  · exact ⟨_, _, restoreFile_eq_some.mpr ⟨s, s, hs, by rw [if_neg hmod], rfl, rfl, rfl⟩⟩

end Rounds

/-- **Truncated chunks.** For all chunk files, every length and every missing chunk, `restoreFile`
returns, with `ERROR` if a chunk it must read is too short, exactly when none is; and when one is
it never returns, whatever counts its reads give. -/
theorem truncated_error_iff (fs : Chunks) (len : ℤ) (h0 : 0 ≤ len) (m : ℤ) (junk : Buf) :
    ((∃ fuel r out fs', restoreFile full fuel junk fs len m = some (r, out, fs') ∧
        (Truncated fs len m → r = error)) ↔ ¬ Truncated fs len m) ∧
    (Truncated fs len m → ∀ xfer, Permitted xfer → ∀ fuel,
      restoreFile xfer fuel junk fs len m = none) := by
  refine ⟨⟨?_, fun h => ?_⟩, fun h xfer hx fuel => restoreFile_truncated hx h⟩
  · rintro ⟨fuel, r, out, fs', hret, -⟩ h
    rw [restoreFile_truncated permitted_full h] at hret
    cases hret
  · obtain ⟨out, fs', hret⟩ := restoreFile_returns h0 h junk
    exact ⟨1, len, out, fs', hret, fun h' => absurd h' h⟩

/-- The five sectors with the second chunk lost. -/
def secondLost : Chunks := Function.update sectors 1 none

/-- Five bytes from what is left, the second chunk said to be missing. -/
theorem truncated_error_iff_missing : ¬ Truncated secondLost 5 2 ∧
    ∃ fuel r out fs', restoreFile full fuel (fun _ => 0) secondLost 5 2 = some (r, out, fs') := by
  have h : ¬ Truncated secondLost 5 2 := by
    rintro ⟨c, hm, hlt⟩
    have hc : c ≠ 1 := by
      rintro rfl
      exact hm rfl
    have hopen : opened secondLost c = opened sectors c := by
      unfold opened secondLost
      rw [Function.update_of_ne hc]
    rw [hopen, length_sectors, stripes_five] at hlt
    omega
  obtain ⟨fuel, r, out, fs', hret, -⟩ :=
    (truncated_error_iff secondLost 5 (by decide) 2 fun _ => 0).1.mpr h
  exact ⟨h, fuel, r, out, fs', hret⟩

/-- With no chunk said to be missing, no return. -/
theorem truncated_no_return : Truncated secondLost 5 0 ∧
    ∀ fuel, restoreFile full fuel (fun _ => 0) secondLost 5 0 = none := by
  have h : Truncated secondLost 5 0 := ⟨1, by decide, by rw [stripes_five]; decide⟩
  exact ⟨h, fun fuel => restoreFile_truncated permitted_full h⟩

end Rtes.RaidTruncated
