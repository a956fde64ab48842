import Rtes.Bytes

/-!
Character arrays of fixed size, and the calls of `string.h` and `stdio.h` that write them.

A call that would read or write past the end of its array has no result. Text is without the
terminator, which the calls put behind it.
-/

namespace Rtes.CString

open Rtes.Bytes

def text (s : String) : List Byte := s.toList.map fun c => BitVec.ofNat 8 c.toNat

/-- Store `bs` at `off`. -/
def put (buf : List Byte) (off : ℕ) (bs : List Byte) : Option (List Byte) :=
  if off + bs.length ≤ buf.length then some (overlay buf off bs) else none

/-- `snprintf` of `t` to `&buf[off]`, with room for `n` characters. -/
def snprintf (buf : List Byte) (off n : ℕ) (t : List Byte) : Option (List Byte) :=
  put buf off (t.take (n - 1) ++ [0])

/-- `strncat` of `src` to the string at `&buf[off]`. -/
def strncat (buf : List Byte) (off : ℕ) (src : List Byte) (n : ℕ) : Option (List Byte) := do
  let i ← (buf.drop off).findIdx? (· = 0)
  put buf (off + i) (src.take n ++ [0])

/-- The string that an array starts with. -/
def cstr (buf : List Byte) : List Byte := buf.takeWhile (· ≠ 0)

/-- `strcat` of the string in `src`. -/
def strcat (buf src : List Byte) : Option (List Byte) :=
  strncat buf 0 (cstr src) (cstr src).length

section Store

variable {a t rest bs src : List Byte} {n : ℕ}

lemma put_append (h : bs.length ≤ rest.length) :
    put (a ++ rest) a.length bs = some (a ++ bs ++ rest.drop bs.length) := by
  unfold put
  rw [if_pos (by rw [List.length_append]; omega), overlay_append]

lemma put_append_eq_none (h : rest.length < bs.length) : put (a ++ rest) a.length bs = none :=
  if_neg (by rw [List.length_append]; omega)

/-- The terminator is found behind the text. -/
lemma findIdx?_text (ht : (0 : Byte) ∉ t) : (t ++ 0 :: rest).findIdx? (· = 0) = some t.length := by
  rw [List.findIdx?_append, List.findIdx?_eq_none_iff.mpr]
  · simp [List.findIdx?_cons]
  · intro x hx
    exact decide_eq_false fun h => ht (h ▸ hx)

/-- **`strncat` goes on at the terminator**, from wherever in the text it starts to look. -/
lemma strncat_text (ht : (0 : Byte) ∉ t) (j : ℕ) (hj : j ≤ t.length) :
    strncat (a ++ (t ++ 0 :: rest)) (a.length + j) src n =
      put ((a ++ t) ++ 0 :: rest) (a ++ t).length (src.take n ++ [0]) := by
  have hdrop : (a ++ (t ++ 0 :: rest)).drop (a.length + j) = t.drop j ++ 0 :: rest := by
    rw [← List.drop_drop, List.drop_left, List.drop_append_of_le_length hj]
  have hlen : a.length + j + (t.drop j).length = (a ++ t).length := by
    rw [List.length_drop, List.length_append]
    omega
  unfold strncat
  rw [hdrop, findIdx?_text fun h => ht (List.mem_of_mem_drop h)]
  dsimp only [Option.bind_eq_bind, Option.bind_some]
  rw [hlen, List.append_assoc]

/-- **A number and the text behind it**, printed over the rest of an array: exactly where there
is room for the terminator. -/
theorem snprintf_strncat (a rest src : List Byte) {m j : ℕ} (ht : (0 : Byte) ∉ t)
    (hn : t.length < n) (hm : src.length ≤ m) (hj : j ≤ t.length) (hr : t.length < rest.length) :
    (snprintf (a ++ rest) a.length n t).bind (fun b => strncat b (a.length + j) src m) =
      if t.length + src.length < rest.length then
        some (a ++ t ++ src ++ 0 :: rest.drop (t.length + src.length + 1)) else none := by
  have hprint : snprintf (a ++ rest) a.length n t =
      some (a ++ (t ++ 0 :: rest.drop (t.length + 1))) := by
    unfold snprintf
    rw [List.take_of_length_le (by omega), put_append (by simp; omega)]
    simp
  rw [hprint, Option.bind_some, strncat_text ht j hj, List.take_of_length_le hm]
  split_ifs with h
  · have htail : (0 :: rest.drop (t.length + 1)).drop (src ++ [0]).length =
        rest.drop (t.length + src.length + 1) := by
      rw [List.length_append, List.length_singleton, List.drop_succ_cons, List.drop_drop,
        Nat.add_right_comm]
    rw [put_append (by simp; omega), htail]
    simp
  · exact put_append_eq_none (by simp; omega)

/-- **`strcat` goes on at the terminator.** -/
lemma strcat_text (ht : (0 : Byte) ∉ t) (hfit : (cstr src).length ≤ rest.length) :
    strcat (t ++ 0 :: rest) src = some (t ++ cstr src ++ 0 :: rest.drop (cstr src).length) := by
  have hcat := @strncat_text [] t rest (cstr src) (cstr src).length ht 0 (Nat.zero_le _)
  simp only [List.nil_append, List.length_nil, Nat.add_zero, List.take_length] at hcat
  unfold strcat
  rw [hcat, put_append (by simpa using hfit), List.length_append, List.length_singleton,
    List.drop_succ_cons]
  simp

lemma cstr_eq_self (ht : (0 : Byte) ∉ t) : cstr t = t :=
  List.takeWhile_eq_self_iff.mpr fun x hx => decide_eq_true fun h : x = 0 => ht (h ▸ hx)

lemma zero_notMem_cstr (t : List Byte) : (0 : Byte) ∉ cstr t := by
  intro h
  simpa using List.mem_takeWhile_imp h

lemma cstr_text (ht : (0 : Byte) ∉ t) : cstr (t ++ 0 :: rest) = t := by
  unfold cstr
  have hpos : ∀ x ∈ t, decide (x ≠ 0) = true :=
    fun x hx => decide_eq_true fun h : x = 0 => ht (h ▸ hx)
  rw [List.takeWhile_append_of_pos hpos, List.takeWhile_cons_of_neg (by simp), List.append_nil]

lemma exists_cstr_append (h : (0 : Byte) ∈ t) : ∃ rest, t = cstr t ++ 0 :: rest := by
  obtain ⟨s, rest, rfl, hs⟩ := List.eq_append_cons_of_mem h
  exact ⟨rest, by rw [cstr_text hs]⟩

end Store

/-! ### Decimal numbers -/

/-- A number by `"%0wd"`, for a width that is not `0`. -/
def decimal (w x : ℕ) : List Byte :=
  (Nat.digitsAppend 10 w x).reverse.map fun d => BitVec.ofNat 8 (48 + d)

/-- The number that digits stand for. -/
def value (t : List Byte) : ℕ := Nat.ofDigits 10 (t.reverse.map fun b => b.toNat - 48)

lemma value_decimal (w x : ℕ) : value (decimal w x) = x := by
  have hdigit : ∀ d ∈ Nat.digitsAppend 10 w x, (BitVec.ofNat 8 (48 + d)).toNat - 48 = d := by
    intro d hd
    have := Nat.lt_of_mem_digitsAppend (by norm_num : 1 < 10) w d hd
    rw [BitVec.toNat_ofNat]
    omega
  have hmap : (Nat.digitsAppend 10 w x).map
      ((fun b : Byte => b.toNat - 48) ∘ fun d => BitVec.ofNat 8 (48 + d)) =
      Nat.digitsAppend 10 w x := (List.map_congr_left hdigit).trans (List.map_id' _)
  unfold value decimal
  rw [← List.map_reverse, List.reverse_reverse, List.map_map, hmap, Nat.digitsAppend,
    Nat.ofDigits_append_replicate_zero, Nat.ofDigits_digits]

lemma decimal_injective (w : ℕ) : Function.Injective (decimal w) :=
  Function.LeftInverse.injective (value_decimal w)

lemma zero_notMem_decimal (w x : ℕ) : (0 : Byte) ∉ decimal w x := by
  intro h
  obtain ⟨d, hd, h0⟩ := List.mem_map.mp h
  have := Nat.lt_of_mem_digitsAppend (by norm_num : 1 < 10) w d (List.mem_reverse.mp hd)
  have h0 : (48 + d) % 2 ^ 8 = 0 := (BitVec.toNat_ofNat ..).symm.trans (congrArg BitVec.toNat h0)
  omega

/-- The width is met exactly by the numbers that fit. -/
lemma length_decimal (w x : ℕ) : (decimal w x).length = max w (Nat.digits 10 x).length := by
  simp only [decimal, Nat.digitsAppend, List.length_map, List.length_reverse, List.length_append,
    List.length_replicate]
  omega

end Rtes.CString
