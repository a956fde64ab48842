import Rtes.Bytes

/-!
A buffer moved in pieces.

Call `i` moves `k i` bytes, from the offset `off i` of the buffer. The bytes come through in
order and each once exactly when every call finds at its offset what is at the sum of the
counts before it.
-/

namespace Rtes.Pieces

open Rtes.Bytes

variable {b : Buf} {off k : ℕ → ℕ} {n m : ℕ}

/-- The bytes that the first `n` calls move. -/
def sent (k : ℕ → ℕ) (n : ℕ) : ℕ := ∑ i ∈ Finset.range n, k i

def emitted (b : Buf) (off k : ℕ → ℕ) (n : ℕ) : List Byte :=
  (List.range n).flatMap fun i => slice b (off i) (k i)

lemma sent_zero (k : ℕ → ℕ) : sent k 0 = 0 := Finset.sum_range_zero k

lemma sent_succ (k : ℕ → ℕ) (n : ℕ) : sent k (n + 1) = sent k n + k n := Finset.sum_range_succ k n

lemma sent_mono (h : n ≤ m) : sent k n ≤ sent k m :=
  Finset.sum_le_sum_of_subset (Finset.range_subset_range.mpr h)

lemma lt_of_sent_lt (h : sent k n < sent k m) : n < m :=
  not_le.mp fun hle => absurd (sent_mono hle) (not_le.mpr h)

/-- **Calls that move something**, and never more than is left, get to the size. -/
lemma exists_sent_eq {size : ℕ} (h : ∀ n, sent k n < size → 1 ≤ k n)
    (hle : ∀ n, sent k n < size → sent k n + k n ≤ size) :
    ∃ N, sent k N = size ∧ ∀ n < N, sent k n < size := by
  have hex : ∃ N, size ≤ sent k N := by
    by_contra hnone
    have hlt : ∀ n, sent k n < size := fun n => not_le.mp fun hn => hnone ⟨n, hn⟩
    have hge : ∀ n, n ≤ sent k n := by
      intro n
      induction n with
      | zero => exact Nat.zero_le _
      | succ n ih =>
        have := h n (hlt n)
        rw [sent_succ]
        omega
    exact absurd (hlt size) (not_lt.mpr (hge size))
  have hlt : ∀ n < Nat.find hex, sent k n < size := fun n hn => not_le.mp (Nat.find_min hex hn)
  refine ⟨Nat.find hex, le_antisymm ?_ (Nat.find_spec hex), hlt⟩
  cases hN : Nat.find hex with
  | zero =>
    rw [sent_zero]
    exact Nat.zero_le size
  | succ n =>
    rw [sent_succ]
    exact hle n (hlt n (by omega))

lemma emitted_succ (b : Buf) (off k : ℕ → ℕ) (n : ℕ) :
    emitted b off k (n + 1) = emitted b off k n ++ slice b (off n) (k n) := by
  simp [emitted, List.range_succ]

@[simp] lemma length_emitted (b : Buf) (off k : ℕ → ℕ) (n : ℕ) :
    (emitted b off k n).length = sent k n := by
  induction n with
  | zero => rfl
  | succ n ih => rw [emitted_succ, List.length_append, ih, length_slice, sent_succ]

lemma slice_add (b : Buf) (o i j : ℕ) : slice b o (i + j) = slice b o i ++ slice b (o + i) j := by
  simp [slice, List.range_add, Nat.add_assoc]

/-- **What comes through** is the front of the buffer exactly when each call moves the bytes
that are next. -/
theorem emitted_eq_iff : emitted b off k n = slice b 0 (sent k n) ↔
    ∀ i < n, slice b (off i) (k i) = slice b (sent k i) (k i) := by
  induction n with
  | zero => exact iff_of_true rfl fun i hi => absurd hi (Nat.not_lt_zero i)
  | succ n ih =>
    have hlen : (emitted b off k n).length = (slice b 0 (sent k n)).length := by simp
    rw [emitted_succ, sent_succ, slice_add, zero_add, Nat.forall_lt_succ_right, ← ih]
    constructor
    · intro h
      exact List.append_inj h hlen
    · rintro ⟨h, h'⟩
      rw [h, h']

/-- The same bytes at two offsets of every buffer. -/
lemma forall_slice_eq_iff {o o' j : ℕ} :
    (∀ b, slice b o j = slice b o' j) ↔ o = o' ∨ j = 0 := by
  constructor
  · intro h
    by_contra hne
    obtain ⟨ho, hj⟩ := not_or.mp hne
    -- a buffer with a single byte set, at the first offset
    have hfirst := congrArg (fun l => l.getD 0 0) (h fun i => if i = o then 1 else 0)
    rw [getD_slice _ _ (by omega), getD_slice _ _ (by omega), add_zero, add_zero, if_pos rfl,
      if_neg (Ne.symm ho)] at hfirst
    cases hfirst
  · rintro (rfl | rfl) b
    · rfl
    · rfl

end Rtes.Pieces
