import Rtes.CString

/-!
Input streams of `stdio.h`, and the conversions of `sscanf`.

A stream is what is left of a file, with the flag that a read past its end sets. A read gets all
that it asks for as long as there is so much.
-/

namespace Rtes.Stdio

open Rtes.Bytes Rtes.CString

/-- Where a run of elements with `p` ends. -/
lemma while_append {α : Type*} {p : α → Bool} {l rest : List α} (hl : ∀ x ∈ l, p x = true)
    (hrest : ∀ x ∈ rest.head?, p x = false) :
    (l ++ rest).takeWhile p = l ∧ (l ++ rest).dropWhile p = rest := by
  rw [List.takeWhile_append_of_pos hl, List.dropWhile_append_of_pos hl]
  cases rest with
  | nil => simp
  | cons x rest =>
    have hx : ¬ p x = true := by simpa using hrest x rfl
    rw [List.takeWhile_cons_of_neg hx, List.dropWhile_cons_of_neg hx, List.append_nil]
    exact ⟨rfl, rfl⟩

/-! ### Streams -/

structure Stream where
  rest : List Byte
  eof : Bool

def newline : Byte := 10

/-- `getline`: what it returns, the line with its newline, and the stream. At the end of the file
the line is what it was. -/
def getline (s : Stream) (line : List Byte) : ℤ × List Byte × Stream :=
  if s.rest = [] then (-1, line, ⟨[], true⟩)
  else
    let text := s.rest.takeWhile (· ≠ newline)
    match s.rest.dropWhile (· ≠ newline) with
    | [] => (text.length, text, ⟨[], true⟩)
    | _ :: rest => (text.length + 1, text ++ [newline], ⟨rest, s.eof⟩)

/-- `fread` of `n` bytes. -/
def fread (s : Stream) (n : ℕ) : List Byte × Stream :=
  (s.rest.take n, ⟨s.rest.drop n, s.eof || decide (s.rest.length < n)⟩)

lemma getline_line {l : List Byte} (hl : newline ∉ l) (rest line : List Byte) (eof : Bool) :
    getline ⟨l ++ newline :: rest, eof⟩ line =
      ((l.length + 1 : ℤ), l ++ [newline], ⟨rest, eof⟩) := by
  have hne : ∀ b ∈ l, decide (b ≠ newline) = true :=
    fun b hb => decide_eq_true fun h : b = newline => hl (h ▸ hb)
  obtain ⟨htake, hdrop⟩ : (l ++ newline :: rest).takeWhile (· ≠ newline) = l ∧
      (l ++ newline :: rest).dropWhile (· ≠ newline) = newline :: rest :=
    while_append hne (by simp)
  unfold getline
  rw [if_neg (by simp)]
  dsimp only
  rw [htake, hdrop]

lemma fread_all (body : List Byte) (eof : Bool) :
    fread ⟨body, eof⟩ body.length = (body, ⟨[], eof⟩) := by
  simp [fread]

/-! ### Conversions -/

def isSpace (b : Byte) : Bool := b = 32 || (9 ≤ b && b ≤ 13)

def isDigit (b : Byte) : Bool := 48 ≤ b && b ≤ 57

/-- `%s` to an array: it takes the word and its terminator, or is not touched. -/
def scanS (t : List Byte) (buf : List Byte) : Option (List Byte) :=
  let word := (t.dropWhile isSpace).takeWhile fun b => !isSpace b
  if word = [] then some buf else put buf 0 (word ++ [0])

/-- The sign of a number. -/
def scanSign : List Byte → Bool × List Byte
  | [] => (false, [])
  | b :: t => if b = 45 then (true, t) else if b = 43 then (false, t) else (false, b :: t)

/-- `%u`: the number and what follows it. A number out of range is stored as `wide`. -/
def scanU (wide : ℕ) (t : List Byte) : Option (ℕ × List Byte) :=
  let (neg, t) := scanSign (t.dropWhile isSpace)
  let digits := t.takeWhile isDigit
  if digits = [] then none
  else
    let v := value digits
    let stored := if 2 ^ 32 ≤ v then wide else if neg then (2 ^ 32 - v) % 2 ^ 32 else v
    some (stored, t.dropWhile isDigit)

lemma isSpace_of_isDigit {b : Byte} (h : isDigit b = true) :
    isSpace b = false ∧ b ≠ 45 ∧ b ≠ 43 := by
  revert b
  decide +kernel

/-- **A number is read up to its last digit.** -/
lemma scanU_digits {lead ds rest : List Byte} (hlead : ∀ b ∈ lead, isSpace b = true)
    (hne : ds ≠ []) (hds : ∀ b ∈ ds, isDigit b = true)
    (hrest : ∀ b ∈ rest.head?, isDigit b = false) (wide : ℕ) :
    scanU wide (lead ++ (ds ++ rest)) =
      some (if 2 ^ 32 ≤ value ds then wide else value ds, rest) := by
  obtain ⟨d, ds', rfl⟩ := List.exists_cons_of_ne_nil hne
  obtain ⟨hspace, hminus, hplus⟩ := isSpace_of_isDigit (hds d List.mem_cons_self)
  have hskip : (lead ++ (d :: ds' ++ rest)).dropWhile isSpace = d :: ds' ++ rest :=
    (while_append hlead (by simpa using hspace)).2
  have hsign : scanSign (d :: ds' ++ rest) = (false, d :: ds' ++ rest) := by
    rw [List.cons_append, scanSign, if_neg hminus, if_neg hplus]
  obtain ⟨htake, hdrop⟩ := while_append hds hrest
  unfold scanU
  rw [hskip, hsign]
  dsimp only
  rw [htake, hdrop, if_neg hne]
  rfl

/-- Text that starts with something else is no number. -/
lemma scanU_eq_none {b : Byte} (hb : isSpace b = false) (hd : isDigit b = false) (hminus : b ≠ 45)
    (hplus : b ≠ 43) (wide : ℕ) (t : List Byte) : scanU wide (b :: t) = none := by
  have hskip : (b :: t).dropWhile isSpace = b :: t :=
    List.dropWhile_cons_of_neg (by simp [hb])
  have hsign : scanSign (b :: t) = (false, b :: t) := by
    rw [scanSign, if_neg hminus, if_neg hplus]
  unfold scanU
  rw [hskip, hsign]
  dsimp only
  rw [List.takeWhile_cons_of_neg (by simp [hd]), if_pos rfl]

end Rtes.Stdio
