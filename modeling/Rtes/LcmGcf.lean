import Rtes.Loop

/-!
The greatest common factor by repeated subtraction, as in `lcm/lcmc.c`.

An `int` is a word of 32 bits: subtraction wraps and the comparison is signed. Between two
positive values neither happens to matter, and the larger of the two shrinks at every turn.
-/

namespace Rtes.LcmGcf

open Rtes.Loop

abbrev Word := BitVec 32

/-- Once round the loop of `gcfc`, from the values of `a` and `b`. -/
def gcfcTurn : Word × Word → (Word × Word) ⊕ Word
  | (a, b) =>
    if a ≠ b then
      if b.slt a then .inl (a - b, b) else .inl (a, b - a)
    else .inr a

def gcfc (fuel : ℕ) (a b : Word) : Option Word := iter (fun s => some (gcfcTurn s)) fuel (a, b)

/-- The values of `a` and `b` that the loop gets to. -/
def Visits : Word × Word → Word × Word → Prop :=
  Relation.ReflTransGen fun s s' => gcfcTurn s = .inl s'

lemma gcfcTurn_inl {a b : Word} {s' : Word × Word} (h : gcfcTurn (a, b) = .inl s') :
    (a ≠ b ∧ b.slt a = true ∧ s' = (a - b, b)) ∨ (a ≠ b ∧ b.slt a = false ∧ s' = (a, b - a)) := by
  unfold gcfcTurn at h
  dsimp only at h
  split_ifs at h with hne hlt
  · exact Or.inl ⟨hne, hlt, (Sum.inl.inj h).symm⟩
  · exact Or.inr ⟨hne, Bool.eq_false_iff.mpr hlt, (Sum.inl.inj h).symm⟩

lemma gcfcTurn_inr {a b r : Word} (h : gcfcTurn (a, b) = .inr r) : a = b ∧ r = a := by
  unfold gcfcTurn at h
  dsimp only at h
  split_ifs at h with hne
  exact ⟨not_not.mp hne, (Sum.inr.inj h).symm⟩

lemma slt_asymm {a b : Word} (h : a.slt b = true) : b.slt a = false := by
  rw [BitVec.slt_iff_toInt_lt] at h
  rw [Bool.eq_false_iff, Ne, BitVec.slt_iff_toInt_lt]
  omega

lemma slt_of_not_slt {a b : Word} (hne : a ≠ b) (h : b.slt a = false) : a.slt b = true := by
  have hne' : a.toInt ≠ b.toInt := mt BitVec.eq_of_toInt_eq hne
  rw [Bool.eq_false_iff, Ne, BitVec.slt_iff_toInt_lt] at h
  rw [BitVec.slt_iff_toInt_lt]
  omega

lemma toInt_sub_of_lt {a b : Word} (hb : 0 < b.toInt) (hlt : b.toInt < a.toInt) :
    (a - b).toInt = a.toInt - b.toInt := by
  have ha := a.toInt_lt
  rw [BitVec.toInt_sub]
  exact Int.bmod_eq_of_le (by omega) (by omega)

/-- What holds at the head of the loop, for the arguments `a` and `b`. -/
structure Head (a b : Word) (s : Word × Word) : Prop where
  fst : 1 ≤ s.1.toInt ∧ s.1.toInt ≤ max a.toInt b.toInt
  snd : 1 ≤ s.2.toInt ∧ s.2.toInt ≤ max a.toInt b.toInt
  gcd : Int.gcd s.1.toInt s.2.toInt = Int.gcd a.toInt b.toInt

/-- The loop goes on for at most as many turns. -/
def size (s : Word × Word) : ℕ := (s.1.toInt + s.2.toInt).toNat

lemma head_start {a b : Word} (ha : 0 < a.toInt) (hb : 0 < b.toInt) : Head a b (a, b) :=
  ⟨⟨ha, le_max_left _ _⟩, ⟨hb, le_max_right _ _⟩, rfl⟩

/-- **One turn** keeps the factor and makes one of the two smaller. -/
lemma head_turn {a b : Word} {s s' : Word × Word} (h : Head a b s) (ht : gcfcTurn s = .inl s') :
    Head a b s' ∧ size s' < size s := by
  obtain ⟨x, y⟩ := s
  obtain ⟨⟨hx, hxm⟩, ⟨hy, hym⟩, hg⟩ := h
  dsimp only at hx hxm hy hym hg
  rcases gcfcTurn_inl ht with ⟨hne, hlt, rfl⟩ | ⟨hne, hlt, rfl⟩
  · rw [BitVec.slt_iff_toInt_lt] at hlt
    have hsub := toInt_sub_of_lt (by omega) hlt
    refine ⟨⟨⟨?_, ?_⟩, ⟨hy, hym⟩, ?_⟩, ?_⟩
    · dsimp only
      omega
    · dsimp only
      omega
    · rw [hsub, Int.gcd_sub_self_left]
      exact hg
    · unfold size
      dsimp only
      omega
  · -- the two differ, so the second is the larger
    have hlt' := BitVec.slt_iff_toInt_lt.mp (slt_of_not_slt hne hlt)
    have hsub := toInt_sub_of_lt (by omega) hlt'
    refine ⟨⟨⟨hx, hxm⟩, ⟨?_, ?_⟩, ?_⟩, ?_⟩
    · dsimp only
      omega
    · dsimp only
      omega
    · rw [hsub, Int.gcd_sub_self_right]
      exact hg
    · unfold size
      dsimp only
      omega

lemma head_visits {a b : Word} (ha : 0 < a.toInt) (hb : 0 < b.toInt) {s : Word × Word}
    (h : Visits (a, b) s) : Head a b s := by
  induction h with
  | refl => exact head_start ha hb
  | tail _ ht ih => exact (head_turn ih ht).1

/-- **The loop ends** with the greatest common divisor. -/
lemma gcfc_total {a b : Word} (ha : 0 < a.toInt) (hb : 0 < b.toInt) :
    ∃ r, gcfc (size (a, b) + 1) a b = some r ∧ r.toInt = Int.gcd a.toInt b.toInt := by
  refine iter_total (Head a b) _ size (fun s hs => ?_) (head_start ha hb)
  cases ht : gcfcTurn s with
  | inl s' => exact Or.inl ⟨s', rfl, head_turn hs ht⟩
  | inr r =>
    refine Or.inr ⟨r, rfl, ?_⟩
    obtain ⟨x, y⟩ := s
    obtain ⟨rfl, rfl⟩ := gcfcTurn_inr ht
    have hx := hs.fst.1
    rw [← hs.gcd, Int.gcd_self]
    dsimp only at hx ⊢
    omega

/-- **`gcfc` is the greatest common divisor.** For positive arguments it returns it, and on
the way both variables stay between `1` and the larger argument. -/
theorem gcfc_gcd (a b : Word) (ha : 0 < a.toInt) (hb : 0 < b.toInt) :
    (∃ fuel, ∀ fuel' ≥ fuel, ∃ r, gcfc fuel' a b = some r ∧
      r.toInt = Int.gcd a.toInt b.toInt) ∧
    ∀ s, Visits (a, b) s → (1 ≤ s.1.toInt ∧ s.1.toInt ≤ max a.toInt b.toInt) ∧
      1 ≤ s.2.toInt ∧ s.2.toInt ≤ max a.toInt b.toInt := by
  refine ⟨⟨size (a, b) + 1, fun fuel hfuel => ?_⟩, fun s hs => ?_⟩
  · obtain ⟨r, hr, hgcd⟩ := gcfc_total ha hb
    exact ⟨r, iter_mono (fun _ _ h => h) hfuel hr, hgcd⟩
  · have h := head_visits ha hb hs
    exact ⟨h.fst, h.snd⟩

/-- The factor of `12` and `18`. -/
theorem gcfc_gcd_twelve_eighteen :
    ∃ fuel, ∀ fuel' ≥ fuel, ∃ r, gcfc fuel' 12 18 = some r ∧ r.toInt = Int.gcd 12 18 :=
  (gcfc_gcd 12 18 (by decide) (by decide)).1

end Rtes.LcmGcf
