import Rtes.BitField

/-!
The line settings of `Linux_serial/serialutil.c`: four setters on the flag word `c_cflag`.

The constants are those of `termios.h` on Linux, where `B14400` is not defined. A string is the
list of its characters. A setter returns its code and the flags that it leaves.
`serialdev_set_databits` clears the size before it looks at the string, the other three look
first.
-/

namespace Rtes.SerialLine

open Rtes.BitField

abbrev Cflag := BitVec 32

def CBAUD : Cflag := 0o010017
def CSIZE : Cflag := 0o000060
def CS5 : Cflag := 0o000000
def CS6 : Cflag := 0o000020
def CS7 : Cflag := 0o000040
def CS8 : Cflag := 0o000060
def CSTOPB : Cflag := 0o000100
def PARENB : Cflag := 0o000400
def PARODD : Cflag := 0o001000

def EINVAL : ℤ := 1

def serialdevSpeeds : List (String × ℤ) := [
  ("0", 0o000000),
  ("50", 0o000001),
  ("75", 0o000002),
  ("110", 0o000003),
  ("300", 0o000007),
  ("600", 0o000010),
  ("1200", 0o000011),
  ("2400", 0o000013),
  ("4800", 0o000014),
  ("9600", 0o000015),
  ("19200", 0o000016),
  ("38400", 0o000017),
  ("57600", 0o010001),
  ("115200", 0o010002)]

def serialdevFindSpeed (speed : List Char) : ℤ :=
  match serialdevSpeeds.find? fun e => e.1.toList = speed with
  | some e => e.2
  | none => -EINVAL

def serialdevSetSpeed (c : Cflag) (speed : List Char) : ℤ × Cflag :=
  let code := serialdevFindSpeed speed
  if code < 0 then (-1, c) else (0, c &&& ~~~CBAUD ||| BitVec.ofInt 32 code)

/-- The character that a string starts with, which ends an empty one. -/
def first (str : List Char) : Char := str.headD '\x00'

def serialdevSetDatabits (c : Cflag) (databits : List Char) : ℤ × Cflag :=
  let c := c &&& ~~~CSIZE
  match first databits with
  | '5' => (0, c ||| CS5)
  | '6' => (0, c ||| CS6)
  | '7' => (0, c ||| CS7)
  | '8' => (0, c ||| CS8)
  | _ => (-EINVAL, c)

def serialdevSetStopbits (c : Cflag) (stopbits : List Char) : ℤ × Cflag :=
  match first stopbits with
  | '1' => (0, c &&& ~~~CSTOPB)
  | '2' => (0, c ||| CSTOPB)
  | _ => (-EINVAL, c)

def serialdevSetParity (c : Cflag) (parity : List Char) : ℤ × Cflag :=
  match (first parity).toUpper with
  | 'N' => (0, c &&& ~~~(PARENB ||| PARODD))
  | 'O' => (0, c &&& ~~~(PARENB ||| PARODD) ||| (PARENB ||| PARODD))
  | 'E' => (0, c &&& ~~~(PARENB ||| PARODD) ||| PARENB)
  | _ => (-EINVAL, c)

/-- The flags that `terminal_setup` stores, for the four strings that it reads. -/
def terminalSetup (c : Cflag) (speed parity stopbits databits : List Char) : Cflag :=
  let c := (serialdevSetSpeed c speed).2
  let c := (serialdevSetParity c parity).2
  let c := (serialdevSetStopbits c stopbits).2
  (serialdevSetDatabits c databits).2

inductive Setter
  | speed
  | databits
  | stopbits
  | parity
  deriving DecidableEq

def Setter.set : Setter → Cflag → List Char → ℤ × Cflag
  | .speed => serialdevSetSpeed
  | .databits => serialdevSetDatabits
  | .stopbits => serialdevSetStopbits
  | .parity => serialdevSetParity

/-- The bits of a setter. -/
def Setter.mask : Setter → Cflag
  | .speed => CBAUD
  | .databits => CSIZE
  | .stopbits => CSTOPB
  | .parity => PARENB ||| PARODD

/-- The speeds that can be asked for, in bits per second. -/
def rates : List ℕ :=
  [0, 50, 75, 110, 300, 600, 1200, 2400, 4800, 9600, 19200, 38400, 57600, 115200]

/-- `termios.h` numbers the speeds up to 38400 in their order, those above it with a bit more. -/
def rateCode (rate : ℕ) : Cflag :=
  let low := [0, 50, 75, 110, 134, 150, 200, 300, 600, 1200, 1800, 2400, 4800, 9600, 19200, 38400]
  let high := [57600, 115200]
  if rate ∈ low then BitVec.ofNat 32 (low.idxOf rate)
  else 0o010000 ||| BitVec.ofNat 32 (high.idxOf rate + 1)

/-- The speed that a string is the decimal number of. -/
def speedOf (str : List Char) : Option Cflag :=
  (rates.find? fun rate => Nat.toDigits 10 rate = str).map rateCode

/-- The number of data bits that a character stands for. -/
def databitsOf : Char → Option Cflag
  | '5' => some CS5
  | '6' => some CS6
  | '7' => some CS7
  | '8' => some CS8
  | _ => none

def stopbitsOf : Char → Option Cflag
  | '1' => some 0
  | '2' => some CSTOPB
  | _ => none

def parityOf : Char → Option Cflag
  | 'N' => some 0
  | 'O' => some (PARENB ||| PARODD)
  | 'E' => some PARENB
  | _ => none

/-- The setting that a string stands for. -/
def Setter.requested : Setter → List Char → Option Cflag
  | .speed, str => speedOf str
  | .databits, str => databitsOf (first str)
  | .stopbits, str => stopbitsOf (first str)
  | .parity, str => parityOf (first str).toUpper

/-- A call either changes its own bits to the setting requested, or nothing. -/
def Atomic (s : Setter) (c : Cflag) (str : List Char) : Prop :=
  ((s.set c str).1 = 0 ∧ s.requested str = some ((s.set c str).2 &&& s.mask) ∧
      (s.set c str).2 &&& ~~~s.mask = c &&& ~~~s.mask) ∨
    ((s.set c str).1 < 0 ∧ (s.set c str).2 = c)

/-- The two calls, both successful, give the same in either order. -/
def Commute (s s' : Setter) (c : Cflag) (str str' : List Char) : Prop :=
  (s.set c str).1 = 0 → (s'.set c str').1 = 0 →
    s'.set (s.set c str).2 str' = s.set (s'.set c str').2 str

/-- The table of the program has the speeds under their decimal numbers. -/
lemma serialdevSpeeds_eq : serialdevSpeeds.map (fun e => (e.1.toList, e.2)) =
    rates.map fun rate => (Nat.toDigits 10 rate, (rateCode rate).toInt) := by
  decide +kernel

lemma rates_fit : ∀ rate ∈ rates, 0 ≤ (rateCode rate).toInt ∧ Fits CBAUD (rateCode rate) := by
  decide

lemma serialdevFindSpeed_eq (str : List Char) : serialdevFindSpeed str =
    match rates.find? fun rate => Nat.toDigits 10 rate = str with
    | some rate => (rateCode rate).toInt
    | none => -EINVAL := by
  have h := congrArg (List.find? fun e => e.1 = str) serialdevSpeeds_eq
  rw [List.find?_map, List.find?_map] at h
  simp only [Function.comp_def] at h
  unfold serialdevFindSpeed
  cases hrate : rates.find? fun rate => Nat.toDigits 10 rate = str with
  | none =>
    rw [hrate, Option.map_none, Option.map_eq_none_iff] at h
    rw [h]
  | some rate =>
    rw [hrate, Option.map_some, Option.map_eq_some_iff] at h
    obtain ⟨e, he, heq⟩ := h
    rw [he]
    exact congrArg Prod.snd heq

/-- A setter that looks first: the setting requested, or an error and nothing. -/
def store (mask c : Cflag) : Option Cflag → ℤ × Cflag
  | some v => (0, put mask v c)
  | none => (-EINVAL, c)

lemma setSpeed_eq (c : Cflag) (str : List Char) :
    serialdevSetSpeed c str = store CBAUD c (Setter.speed.requested str) := by
  unfold serialdevSetSpeed Setter.requested
  rw [serialdevFindSpeed_eq]
  dsimp only [speedOf]
  cases hrate : rates.find? fun rate => Nat.toDigits 10 rate = str with
  | none => rfl
  | some rate =>
    have hpos := (rates_fit rate (List.mem_of_find?_eq_some hrate)).1
    dsimp only
    rw [if_neg (not_lt.mpr hpos), BitVec.ofInt_toInt]
    rfl

/-- The one that looks last: its field is empty when the string is refused. -/
lemma setDatabits_eq (c : Cflag) (str : List Char) :
    serialdevSetDatabits c str = store CSIZE (c &&& ~~~CSIZE) (Setter.databits.requested str) := by
  unfold serialdevSetDatabits Setter.requested databitsOf
  dsimp only
  split <;> simp [store, put, BitVec.and_assoc]

lemma setStopbits_eq (c : Cflag) (str : List Char) :
    serialdevSetStopbits c str = store CSTOPB c (Setter.stopbits.requested str) := by
  unfold serialdevSetStopbits Setter.requested stopbitsOf
  dsimp only
  split
  · exact congrArg (Prod.mk 0) put_zero.symm
  · exact congrArg (Prod.mk 0) put_mask.symm
  · rfl

lemma setParity_eq (c : Cflag) (str : List Char) :
    serialdevSetParity c str = store (PARENB ||| PARODD) c (Setter.parity.requested str) := by
  unfold serialdevSetParity Setter.requested parityOf
  dsimp only
  split <;> simp [store, put]

/-- The flags in which a setter has looked at its string. -/
def Setter.cleared (s : Setter) (c : Cflag) : Cflag :=
  if s = .databits then c &&& ~~~CSIZE else c

/-- **What a setter does** is the same for all four, but for what one of them clears first. -/
lemma set_eq (s : Setter) (c : Cflag) (str : List Char) :
    s.set c str = store s.mask (s.cleared c) (s.requested str) := by
  cases s with
  | speed => exact setSpeed_eq c str
  | databits => exact setDatabits_eq c str
  | stopbits => exact setStopbits_eq c str
  | parity => exact setParity_eq c str

lemma requested_fits {s : Setter} {str : List Char} {v : Cflag} (h : s.requested str = some v) :
    Fits s.mask v := by
  cases s with
  | speed =>
    obtain ⟨rate, hrate, rfl⟩ := Option.map_eq_some_iff.mp h
    exact (rates_fit rate (List.mem_of_find?_eq_some hrate)).2
  | databits =>
    change databitsOf (first str) = some v at h
    unfold databitsOf at h
    split at h <;> cases h <;> decide
  | stopbits =>
    change stopbitsOf (first str) = some v at h
    unfold stopbitsOf at h
    split at h <;> cases h <;> decide
  | parity =>
    change parityOf (first str).toUpper = some v at h
    unfold parityOf at h
    split at h <;> cases h <;> decide

lemma set_of_requested {s : Setter} {str : List Char} {v : Cflag} (h : s.requested str = some v)
    (c : Cflag) : s.set c str = (0, put s.mask v c) := by
  rw [set_eq, h]
  unfold Setter.cleared
  split_ifs with hs
  · subst hs
    exact congrArg (Prod.mk 0) put_and_not_mask
  · rfl

lemma exists_requested {s : Setter} {c : Cflag} {str : List Char} (h : (s.set c str).1 = 0) :
    ∃ v, s.requested str = some v := by
  rw [set_eq] at h
  cases hr : s.requested str with
  | some v => exact ⟨v, rfl⟩
  | none =>
    rw [hr] at h
    change -EINVAL = 0 at h
    exact absurd h (by decide)

lemma masks_disjoint {s s' : Setter} (h : s ≠ s') : s.mask &&& s'.mask = 0 := by
  cases s <;> cases s' <;> first | exact absurd rfl h | rfl

/-- **Successful calls of different setters commute.** -/
lemma commute (s s' : Setter) (h : s ≠ s') (c : Cflag) (str str' : List Char) :
    Commute s s' c str str' := by
  intro hs hs'
  obtain ⟨v, hv⟩ := exists_requested hs
  obtain ⟨v', hv'⟩ := exists_requested hs'
  have hcomm := put_comm (x := c) (masks_disjoint h) (requested_fits hv) (requested_fits hv')
  rw [set_of_requested hv, set_of_requested hv', set_of_requested hv, set_of_requested hv', hcomm]

lemma atomic_of_requested {s : Setter} {str : List Char} {v : Cflag}
    (h : s.requested str = some v) (c : Cflag) : Atomic s c str := by
  left
  rw [set_of_requested h]
  refine ⟨rfl, ?_, put_and_not (requested_fits h)⟩
  rw [h, put_and_mask (requested_fits h)]

lemma atomic_of_rejected {s : Setter} {str : List Char} (h : s.requested str = none) (c : Cflag) :
    Atomic s c str ↔ s.cleared c = c := by
  unfold Atomic
  rw [set_eq, h]
  simp [store, EINVAL]

lemma databitsOf_eq_none {ch : Char} : databitsOf ch = none ↔ ch ∉ ['5', '6', '7', '8'] := by
  unfold databitsOf
  split <;> simp_all

lemma cleared_eq_self {s : Setter} {c : Cflag} :
    s.cleared c = c ↔ ¬ (s = .databits ∧ c &&& CSIZE ≠ 0) := by
  unfold Setter.cleared
  split_ifs with hs
  · rw [and_not_eq_self, not_and, not_not]
    exact ⟨fun h _ => h, fun h => h hs⟩
  · exact iff_of_true rfl fun h => hs h.1

/-- **A setter is atomic, and commutes with the others, exactly where it is not
`serialdev_set_databits` on a wrong character** that finds a size to clear. -/
theorem setter_atomic_iff (s : Setter) (c : Cflag) (str : List Char) :
    (Atomic s c str ∧ ∀ s' str', s ≠ s' → Commute s s' c str str') ↔
      ¬ (s = .databits ∧ first str ∉ ['5', '6', '7', '8'] ∧ c &&& CSIZE ≠ 0) := by
  rw [and_iff_left fun s' str' h => commute s s' h c str str', ← databitsOf_eq_none]
  cases hr : s.requested str with
  | some v =>
    refine iff_of_true (atomic_of_requested hr c) ?_
    rintro ⟨rfl, hnone, -⟩
    cases hr.symm.trans hnone
  | none =>
    rw [atomic_of_rejected hr, cleared_eq_self]
    refine not_congr ⟨?_, fun h => ⟨h.1, h.2.2⟩⟩
    rintro ⟨rfl, hc⟩
    exact ⟨rfl, hr, hc⟩

/-- Refusing `"9"` leaves a line of eight bits with one of five. -/
theorem databits_refused : (Setter.databits.set CS8 ['9']).1 < 0 ∧
    ¬ Atomic .databits CS8 ['9'] := by
  rw [atomic_of_rejected (s := .databits) rfl]
  decide

/-- `terminal_setup` does not look at the codes: a wrong number of data bits is five. -/
theorem terminalSetup_databits (c : Cflag) (speed parity stopbits databits : List Char) :
    terminalSetup c speed parity stopbits databits &&& CSIZE =
      (Setter.databits.requested databits).getD CS5 := by
  unfold terminalSetup
  dsimp only
  rw [setDatabits_eq]
  cases hr : Setter.databits.requested databits with
  | some v => exact put_and_mask (requested_fits hr)
  | none =>
    change _ &&& ~~~CSIZE &&& CSIZE = 0
    exact and_not_eq_self.mp (by rw [BitVec.and_assoc, BitVec.and_self])

end Rtes.SerialLine
