import Rtes.SerialModel

/-!
Whether the serial shell is in one mode at a time.

`user_control_c` clears the line and the hex flag when it starts and the file flag only for the
selections that end in teletype mode. The escape commands clear nothing: they rely on the
teletype branch, which is taken when no flag is set, but the handler can run after that. So two
flags are set when `h` or `c` is selected while the file flag is up, and when an escape command
meets a mode set meanwhile.

Behind a file setup the white space that ends its last word is still in the stream. A selection made
then reads it and ends in teletype mode, but the session can have read it before.
-/

namespace Rtes.SerialModes

open Rtes.Runs Rtes.SerialModel

/-- At most one of the three flags is set. -/
def Exclusive (s : State) : Prop :=
  ¬ (s.lineInputMode = true ∧ s.hexInputMode = true) ∧
    ¬ (s.lineInputMode = true ∧ s.fileTxMode = true) ∧
    ¬ (s.hexInputMode = true ∧ s.fileTxMode = true)

/-- `h` and `c` are selected only while the file flag is down. -/
def SelectsInTime (s : State) : Prop :=
  s.handler = some .selection → s.stdin.head? = some 'h' ∨ s.stdin.head? = some 'c' →
    s.fileTxMode = false

/-- An escape to a mode is completed only while the flags of the other modes are down. -/
def EscapesInTime (s : State) : Prop :=
  s.handler = none → s.loc = .escape →
    (s.stdin.head? = some 'c' → s.hexInputMode = false ∧ s.fileTxMode = false) ∧
    (s.stdin.head? = some 'h' → s.lineInputMode = false ∧ s.fileTxMode = false) ∧
    (s.stdin.head? = some 'f' → s.lineInputMode = false ∧ s.hexInputMode = false)

/-- What keeps the mode unique, in the state in which a character is read. -/
def Timely (s : State) : Act → Prop
  | .read _ => SelectsInTime s ∧ EscapesInTime s
  | _ => True

instance (s : State) : Decidable (SelectsInTime s) := inferInstanceAs (Decidable (_ → _))

instance (s : State) : Decidable (EscapesInTime s) := inferInstanceAs (Decidable (_ → _))

instance (s : State) : ∀ a, Decidable (Timely s a)
  | .read _ => inferInstanceAs (Decidable (_ ∧ _))
  | .start _ | .type _ | .controlC | .go | .block _ => isTrue trivial

/-- What a run keeps. -/
structure Sound (s : State) : Prop where
  exclusive : s.loc ≠ .off → Exclusive s
  running : s.handler ≠ none → s.loc ≠ .off
  cleared : s.handler = some .selection → s.lineInputMode = false ∧ s.hexInputMode = false

lemma sound_init : Sound init := ⟨fun h => absurd rfl h, fun h => absurd rfl h, nofun⟩

/-! ### Steps -/

/-- So many characters are read, in answers with the number 5. -/
def reads (n : ℕ) : List Act := List.replicate n (.read ⟨true, some 5⟩)

end Rtes.SerialModes
