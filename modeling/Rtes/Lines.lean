import Mathlib

/-!
Lines read one character at a time.

A reader that stops at each newline has, at any time, read some whole lines and a part of the
next one. It knows where it is in the stream by counting the newlines, since every line has one,
at its end.
-/

namespace Rtes.Lines

variable {α : Type*} (line : ℕ → List α) (nl : α)

/-- The first `k` lines. -/
def text (k : ℕ) : List α := (List.range k).flatMap line

/-- Every line has one newline, at its end. -/
def Ended : Prop := ∀ k, ∃ body, line k = body ++ [nl] ∧ nl ∉ body

/-- `cs` is `r` lines and more characters of the same line. -/
def At (r : ℕ) (cs : List α) : Prop := ∃ part, cs = text line r ++ part ∧ nl ∉ part

variable {line nl} {r j k m : ℕ} {cs : List α} {c : α}

@[simp] lemma text_zero : text line 0 = [] := rfl

lemma text_succ : text line (k + 1) = text line k ++ line k := by
  simp [text, List.range_succ]

lemma text_mono (h : j ≤ k) : text line j <+: text line k := by
  induction k, h using Nat.le_induction with
  | base => exact List.prefix_rfl
  | succ k _ ih => exact ih.trans ⟨line k, text_succ.symm⟩

/-! ### A stream that repeats its first lines -/

lemma text_add (hm : ∀ k, line (m + k) = line k) :
    text line (m + k) = text line m ++ text line k := by
  simp only [text, List.range_add, List.flatMap_append, List.flatMap_map, hm]

lemma text_mul (hm : ∀ k, line (m + k) = line k) (j : ℕ) :
    text line (m * j) = (List.replicate j (text line m)).flatten := by
  induction j with
  | zero => rfl
  | succ j ih =>
    rw [Nat.mul_succ, Nat.add_comm, text_add hm, ih, List.replicate_succ, List.flatten_cons]

/-! ### Positions -/

lemma at_zero : At line nl 0 [] := ⟨[], rfl, by simp⟩

lemma At.text_le (h : At line nl r cs) : text line r <+: cs := by
  obtain ⟨part, rfl, -⟩ := h
  exact ⟨part, rfl⟩

lemma At.other (h : At line nl r cs) (hc : c ≠ nl) : At line nl r (cs ++ [c]) := by
  obtain ⟨part, rfl, hpart⟩ := h
  exact ⟨part ++ [c], by simp, by simp [hpart, Ne.symm hc]⟩

lemma At.eq_text (h : At line nl k cs) (hcs : cs <+: text line k) : cs = text line k :=
  (h.text_le.eq_of_length (Nat.le_antisymm h.text_le.length_le hcs.length_le)).symm

section

variable [DecidableEq α]

lemma count_text (hend : Ended line nl) : (text line k).count nl = k := by
  induction k with
  | zero => rfl
  | succ k ih =>
    obtain ⟨body, hbody, hnl⟩ := hend k
    rw [text_succ, hbody, List.count_append, ih, List.count_append, List.count_eq_zero.mpr hnl]
    simp

lemma At.count (hend : Ended line nl) (h : At line nl r cs) : cs.count nl = r := by
  obtain ⟨part, rfl, hpart⟩ := h
  rw [List.count_append, count_text hend, List.count_eq_zero.mpr hpart, Nat.add_zero]

lemma At.le (hend : Ended line nl) (h : At line nl r cs) (hcs : cs <+: text line k) : r ≤ k := by
  rw [← h.count hend, ← count_text (k := k) hend]
  exact hcs.sublist.count_le nl

/-- What has been read ends within the next line. -/
lemma At.prefix_text (hend : Ended line nl) (h : At line nl r cs) (hcs : cs <+: text line k) :
    cs <+: text line (r + 1) := by
  obtain hk | hk := Nat.lt_or_ge r k
  · have hor := List.prefix_or_prefix_of_prefix hcs (text_mono hk)
    refine hor.resolve_right fun hle => ?_
    have hcount := hle.sublist.count_le nl
    rw [count_text hend, h.count hend] at hcount
    omega
  · exact hcs.trans (text_mono (hk.trans (Nat.le_succ r)))

/-- **A newline** ends the line. -/
lemma At.newline (hend : Ended line nl) (h : At line nl r cs) (hcs : cs ++ [nl] <+: text line k) :
    At line nl (r + 1) (cs ++ [nl]) := by
  have hcount : (cs ++ [nl]).count nl = r + 1 := by
    rw [List.count_append, h.count hend, List.count_singleton_self]
  have hk : r + 1 ≤ k := by
    rw [← hcount, ← count_text (k := k) hend]
    exact hcs.sublist.count_le nl
  suffices heq : cs ++ [nl] = text line (r + 1) from ⟨[], by simp [heq], by simp⟩
  -- the shorter of the two would have fewer newlines
  obtain hle | hle := List.prefix_or_prefix_of_prefix hcs (text_mono hk)
  · obtain ⟨body, hbody, hnl⟩ := hend r
    rw [text_succ, hbody, ← List.append_assoc] at hle ⊢
    refine (List.prefix_concat_iff.mp hle).resolve_right fun hlt => ?_
    have hcount' := hlt.sublist.count_le nl
    rw [hcount, List.count_append, count_text hend, List.count_eq_zero.mpr hnl] at hcount'
    omega
  · refine ((List.prefix_concat_iff.mp hle).resolve_right fun hlt => ?_).symm
    have hcount' := hlt.sublist.count_le nl
    rw [h.count hend, count_text hend] at hcount'
    omega

end

end Rtes.Lines
