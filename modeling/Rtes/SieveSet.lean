import Rtes.SieveModel

/-!
The packed array of the sieve as a set of naturals.

`chk_isprime` and `set_isprime` compute their masks in `int`: the byte of the array is promoted,
and what `set_isprime` makes of it is cut to a byte again when it is stored. Both are written
out here and are the byte operations of the sieve. The set is kept by any calls, one after the
other; `Striped` puts the calls of several threads one after the other.
-/

namespace Rtes.SieveSet

open Rtes.Bytes Rtes.SieveModel

/-! ### The masks in `int` -/

/-- A byte in an expression. -/
def promote (b : Byte) : BitVec 32 := b.setWidth 32

/-- `1<<bitpos`. -/
def mask (i : ℕ) : BitVec 32 := (1 : BitVec 32) <<< (i % 8)

/-- `chk_isprime`, with the value that `>` has in C. -/
def chkIsprimeInt (isprime : Buf) (i : ℕ) : ℤ :=
  if (promote (isprime (i / 8)) &&& mask i).toInt > 0 then 1 else 0

def setIsprimeInt (isprime : Buf) (i : ℕ) (val : Byte) : Buf :=
  Function.update isprime (i / 8) <|
    if (promote val).toInt > 0 then (promote (isprime (i / 8)) ||| mask i).setWidth 8
    else (promote (isprime (i / 8)) &&& ~~~mask i).setWidth 8

lemma setWidth_promote (b : Byte) : (promote b).setWidth 8 = b := by
  rw [promote, BitVec.setWidth_setWidth_of_le b (by decide), BitVec.setWidth_eq]

lemma setWidth_mask (i : ℕ) : (mask i).setWidth 8 = (1 : Byte) <<< (i % 8) := by
  have hmask : ∀ r : Fin 8, ((1 : BitVec 32) <<< (r : ℕ)).setWidth 8 = (1 : Byte) <<< (r : ℕ) := by
    decide
  exact hmask ⟨i % 8, Nat.mod_lt i (by decide)⟩

lemma promote_pos (val : Byte) : (promote val).toInt > 0 ↔ val > 0 := by
  revert val
  decide +kernel

lemma chkIsprimeInt_eq (isprime : Buf) (i : ℕ) :
    chkIsprimeInt isprime i = if chkIsprime isprime i then 1 else 0 := by
  have hbit : ∀ (r : Fin 8) (b : Byte),
      (promote b &&& (1 : BitVec 32) <<< (r : ℕ)).toInt > 0 ↔
        b &&& ((1 : Byte) <<< (r : ℕ)) > 0 := by decide +kernel
  have hi := hbit ⟨i % 8, Nat.mod_lt i (by decide)⟩ (isprime (i / 8))
  simp only [chkIsprimeInt, chkIsprime, mask, hi, decide_eq_true_eq]

/-- **Nothing is lost when the result is cut to a byte.** -/
lemma setIsprimeInt_eq (isprime : Buf) (i : ℕ) (val : Byte) :
    setIsprimeInt isprime i val = setIsprime isprime i val := by
  simp only [setIsprimeInt, setIsprime, setByte, promote_pos, BitVec.setWidth_or,
    BitVec.setWidth_and, BitVec.setWidth_not (show 8 ≤ 32 by decide), setWidth_promote,
    setWidth_mask]

/-! ### The set -/

/-- What a call of `set_isprime` is for. -/
def put (S : Set ℕ) (k : ℕ) (v : Byte) : Set ℕ := if v > 0 then insert k S else S \ {k}

def members (isprime : Buf) : Set ℕ := {i | chkIsprimeInt isprime i = 1}

/-- The calls `set_isprime(k, v)`, one after the other. -/
def setAll (isprime : Buf) (calls : List (ℕ × Byte)) : Buf :=
  calls.foldl (fun b c => setIsprimeInt b c.1 c.2) isprime

/-- The value of the last call on index `i` itself. -/
def lastOn (i : ℕ) (calls : List (ℕ × Byte)) : Option Byte :=
  (calls.reverse.find? fun c => c.1 = i).map Prod.snd

lemma lastOn_snoc (i : ℕ) (calls : List (ℕ × Byte)) (k : ℕ) (v : Byte) :
    lastOn i (calls ++ [(k, v)]) = if i = k then some v else lastOn i calls := by
  unfold lastOn
  rw [List.reverse_append, List.reverse_singleton, List.singleton_append, List.find?_cons]
  by_cases hk : i = k
  · simp [hk]
  · simp [hk, Ne.symm hk]

lemma setAll_snoc (isprime : Buf) (calls : List (ℕ × Byte)) (k : ℕ) (v : Byte) :
    setAll isprime (calls ++ [(k, v)]) = setIsprimeInt (setAll isprime calls) k v := by
  simp [setAll, List.foldl_append]

/-- One call sets the bit of its index and no other. -/
lemma chkIsprimeInt_setIsprimeInt (isprime : Buf) (k i : ℕ) (v : Byte) :
    chkIsprimeInt (setIsprimeInt isprime k v) i =
      if i = k then if v > 0 then 1 else 0 else chkIsprimeInt isprime i := by
  rw [setIsprimeInt_eq, chkIsprimeInt_eq, chkIsprimeInt_eq, chkIsprime_setIsprime]
  by_cases hk : i = k
  · simp [hk]
  · simp [hk]

lemma chkIsprimeInt_setAll (isprime : Buf) (calls : List (ℕ × Byte)) (i : ℕ) :
    chkIsprimeInt (setAll isprime calls) i =
      match lastOn i calls with
      | some v => if v > 0 then 1 else 0
      | none => chkIsprimeInt isprime i := by
  induction calls using List.reverseRecOn with
  | nil => rfl
  | append_singleton calls c ih =>
    obtain ⟨k, v⟩ := c
    rw [setAll_snoc, chkIsprimeInt_setIsprimeInt, lastOn_snoc]
    by_cases hk : i = k
    · rw [if_pos hk, if_pos hk]
    · rw [if_neg hk, if_neg hk, ih]

lemma mem_members {isprime : Buf} {i : ℕ} : i ∈ members isprime ↔ chkIsprimeInt isprime i = 1 :=
  Iff.rfl

/-- One call is one operation on the set. -/
lemma members_setIsprimeInt (isprime : Buf) (k : ℕ) (v : Byte) :
    members (setIsprimeInt isprime k v) = put (members isprime) k v := by
  ext i
  rw [mem_members, chkIsprimeInt_setIsprimeInt, put]
  by_cases hv : v > 0
  · rw [if_pos hv, if_pos hv, Set.mem_insert_iff, mem_members]
    by_cases hk : i = k
    · simp [hk]
    · simp [hk]
  · rw [if_neg hv, if_neg hv, Set.mem_sdiff, Set.mem_singleton_iff, mem_members]
    by_cases hk : i = k
    · simp [hk]
    · simp [hk]

lemma members_setAll (isprime : Buf) (calls : List (ℕ × Byte)) :
    members (setAll isprime calls) = calls.foldl (fun S c => put S c.1 c.2) (members isprime) := by
  induction calls using List.reverseRecOn with
  | nil => rfl
  | append_singleton calls c ih =>
    rw [setAll_snoc, members_setIsprimeInt, ih, List.foldl_append]
    rfl

/-- **The packed array is a set of naturals.** After any calls of `set_isprime` it holds the set
that the calls make of the set it held; `chk_isprime` of an index is told by the last call on
that index, and is what it was if there was none. -/
theorem isprime_implements_set (isprime : Buf) (calls : List (ℕ × Byte)) :
    members (setAll isprime calls) = calls.foldl (fun S c => put S c.1 c.2) (members isprime) ∧
      (∀ i, chkIsprimeInt (setAll isprime calls) i =
        match lastOn i calls with
        | some v => if v > 0 then 1 else 0
        | none => chkIsprimeInt isprime i) ∧
      ∀ i, (∀ c ∈ calls, c.1 ≠ i) →
        chkIsprimeInt (setAll isprime calls) i = chkIsprimeInt isprime i := by
  refine ⟨members_setAll isprime calls, chkIsprimeInt_setAll isprime calls, fun i hi => ?_⟩
  have hnone : lastOn i calls = none := by
    rw [lastOn, Option.map_eq_none_iff, List.find?_eq_none]
    intro c hc
    simpa using hi c (List.mem_reverse.mp hc)
  rw [chkIsprimeInt_setAll, hnone]

end Rtes.SieveSet
