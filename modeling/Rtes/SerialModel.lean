import Rtes.Runs

/-!
The serial shell of `Linux_serial/serialutil.c`: its input modes and what changes them.

The session loop of `initiate_serial_session` and the `<Ctl>-c` handler `user_control_c` share
three flags and the stream `stdin`. The handler can start between any two characters that the loop
reads; `SIGINT` is not delivered while it runs. `scanf` leaves the white space behind a word in the
stream, where whoever reads next finds it. What comes from the serial device, the prompts, the byte
log and the terminal attributes are left out. The input has no end, and words fit their arrays.
-/

namespace Rtes.SerialModel

/-- The questions of `file_tx_setup`. -/
inductive FileTxQuestion
  | filename
  | blkSize
  | numBlks
  | ack
  deriving DecidableEq

/-- The questions of `terminal_setup`. -/
inductive TerminalQuestion
  | speed
  | parity
  | stopbits
  | databits
  deriving DecidableEq

/-- A question that a word is read for. -/
inductive Question
  | fileTx (q : FileTxQuestion)
  | terminal (q : TerminalQuestion)
  deriving DecidableEq

/-- Where the session is: not running, at the head of its loop, in the branch of a mode (with the
number of characters that `fgets` has), at the character after an escape, at a question (with
whether its word has begun), or at one of the steps of a file transfer. -/
inductive Loc
  | off
  | top
  | line (count : ℕ)
  | hex (count : ℕ)
  | teletype
  | escape
  | asks (q : Question) (word : Bool)
  | blocks
  | getBlock
  | sendBlock
  | ack
  | sent
  deriving DecidableEq

/-- Where the handler is, if it runs. -/
inductive Handler
  | selection
  | asks (q : Question) (word : Bool)
  deriving DecidableEq

/-- `stdin` has the characters that are typed and not read yet. -/
structure State where
  lineInputMode : Bool
  hexInputMode : Bool
  fileTxMode : Bool
  commandMode : Bool
  endOfSession : Bool
  fileTxBlkSize : ℤ
  fileTxNumBlks : ℤ
  stdin : List Char
  loc : Loc
  handler : Option Handler
  deriving DecidableEq

/-- What an answer comes to: whether the file can be opened, and the number that `sscanf` finds. -/
structure Answer where
  opens : Bool
  number : Option ℤ

/-- What `file_tx_setup` does with the answer to a question, and what it asks next. -/
def fileTxSetup (o : Answer) (s : State) : FileTxQuestion → State × Option FileTxQuestion
  | .filename => if o.opens then (s, some .blkSize) else ({ s with fileTxMode := false }, none)
  | .blkSize => ({ s with fileTxBlkSize := o.number.getD s.fileTxBlkSize }, some .numBlks)
  | .numBlks => ({ s with fileTxNumBlks := o.number.getD s.fileTxNumBlks }, some .ack)
  | .ack => (s, none)

/-- What `terminal_setup` asks next. -/
def terminalSetup : TerminalQuestion → Option TerminalQuestion
  | .speed => some .parity
  | .parity => some .stopbits
  | .stopbits => some .databits
  | .databits => none

def answered (o : Answer) (s : State) : Question → State × Option Question
  | .fileTx q => ((fileTxSetup o s q).1, (fileTxSetup o s q).2.map .fileTx)
  | .terminal q => (s, (terminalSetup q).map .terminal)

/-- White space for `scanf`. -/
def isSpace (c : Char) : Bool := c = ' ' || ('\t' ≤ c && c ≤ '\r')

/-- `scanf("%s", instr)` for the question `q`, with `c` next in the stream and `rest` behind it:
white space is skipped before the word, and behind the word it stays. -/
def scanWord (o : Answer) (c : Char) (rest : List Char) (q : Question) (word : Bool) (s : State) :
    State × Option (Question × Bool) :=
  if !isSpace c then ({ s with stdin := rest }, some (q, true))
  else if !word then ({ s with stdin := rest }, some (q, false))
  else ((answered o s q).1, (answered o s q).2.map (·, false))

def CMD_LINE_INPUT_MODE : ℤ := 0
def HEX_INPUT_MODE : ℤ := 1

/-- The head of `initiate_serial_session`, in a new process that has read nothing. -/
def initiateSerialSession (type : ℤ) (s : State) : State :=
  let s := { s with endOfSession := false, stdin := [], loc := .top }
  if type = CMD_LINE_INPUT_MODE then
    { s with lineInputMode := true, fileTxMode := false, hexInputMode := false }
  else if type = HEX_INPUT_MODE then
    { s with lineInputMode := false, fileTxMode := false, hexInputMode := true }
  else
    { s with lineInputMode := false, fileTxMode := false, hexInputMode := false }

/-! ### The handler -/

/-- `user_control_c` up to its `scanf`. -/
def userControlC (s : State) : State :=
  { s with hexInputMode := false, lineInputMode := false, handler := some .selection }

/-- The rest of `user_control_c`, for the selection `ch`. -/
def menuSelection (ch : Char) (s : State) : State :=
  match ch with
  | 'r' => { s with commandMode := !s.commandMode, handler := none }
  | 'z' => { s with handler := some (.asks (.terminal .speed) false) }
  | 'h' => { s with hexInputMode := true, handler := none }
  | 'f' => { s with fileTxMode := true, handler := some (.asks (.fileTx .filename) false) }
  | 'c' => { s with lineInputMode := true, handler := none }
  | 'e' => { s with loc := .off, handler := none }
  | _ => { s with lineInputMode := false, fileTxMode := false, hexInputMode := false,
                  handler := none }

/-- The handler reads the character `c`, with `rest` behind it. -/
def handlerReads (o : Answer) (c : Char) (rest : List Char) (s : State) : Handler → State
  | .selection => menuSelection c { s with stdin := rest }
  | .asks q word =>
    let r := scanWord o c rest q word s
    { r.1 with handler := r.2.map fun n => .asks n.1 n.2 }

/-! ### The session loop -/

/-- The command after an escape in teletype mode. -/
def escapeCommand (c : Char) (s : State) : State :=
  match c with
  | 'c' => { s with lineInputMode := true, loc := .top }
  | 'r' => { s with commandMode := !s.commandMode, loc := .top }
  | 'f' => { s with fileTxMode := true, loc := .asks (.fileTx .filename) false }
  | 'h' => { s with hexInputMode := true, loc := .top }
  | 'z' => { s with loc := .asks (.terminal .speed) false }
  | 'e' => { s with endOfSession := true, loc := .top }
  | _ => { s with loc := .top }

/-- `fgets` has a line, with `c`, when it ends or its 512 bytes are full. -/
def lineEnds (c : Char) (count : ℕ) : Bool := c = '\n' || count + 1 = 511

/-- The session reads the character `c`, with `rest` behind it, where it reads one. -/
def loopReads (o : Answer) (c : Char) (rest : List Char) (s : State) : Option State :=
  match s.loc with
  | .line count =>
    some { s with stdin := rest, loc := if lineEnds c count then .top else .line (count + 1) }
  | .hex count =>
    some { s with stdin := rest, loc := if lineEnds c count then .top else .hex (count + 1) }
  | .teletype => some { s with stdin := rest, loc := if c = '\x1b' then .escape else .top }
  | .escape => some (escapeCommand c { s with stdin := rest })
  | .asks q word =>
    let r := scanWord o c rest q word s
    some { r.1 with loc := match r.2 with | some (q, word) => .asks q word | none => .top }
  | _ => none

/-- The next test or store of the session's own, where it needs no input. A branch of a mode is
also left when `select` fails or only the serial device has input. -/
def go (s : State) : Option State :=
  match s.loc with
  | .top =>
    some { s with loc :=
      if s.endOfSession then .off
      else if s.fileTxMode then .blocks
      else if s.lineInputMode then .line 0
      else if s.hexInputMode then .hex 0
      else .teletype }
  | .line 0 | .hex 0 | .teletype => some { s with loc := .top }
  | .blocks =>
    some { s with loc := if 0 < s.fileTxNumBlks ∧ s.fileTxMode then .getBlock else .sent }
  | .sendBlock =>
    if s.fileTxMode then some { s with fileTxNumBlks := s.fileTxNumBlks - 1, loc := .ack }
    else some { s with loc := .blocks }
  | .ack => some { s with loc := .blocks }
  | .sent => some { s with fileTxMode := false, loc := .top }
  | _ => none

/-- A block of the file, or its end. -/
def getBlock (eof : Bool) (s : State) : Option State :=
  if s.loc = .getBlock then
    some (if eof ∧ 0 < s.fileTxBlkSize then { s with fileTxMode := false, loc := .sendBlock }
      else { s with loc := .sendBlock })
  else none

/-! ### Runs -/

/-- What can happen: a session starts, the user types a character or `<Ctl>-c`, the handler or else
the session reads a character, or the session goes on, or gets a block of the file. -/
inductive Act
  | start (type : ℤ)
  | type (c : Char)
  | controlC
  | read (o : Answer)
  | go
  | block (eof : Bool)

def step (s : State) : Act → Option State
  | .start type => if s.loc = .off then some (initiateSerialSession type s) else none
  | .type c => some { s with stdin := s.stdin ++ [c] }
  | .controlC => if s.loc ≠ .off ∧ s.handler = none then some (userControlC s) else none
  | .read o =>
    match s.stdin, s.handler with
    | [], _ => none
    | c :: rest, some h => some (handlerReads o c rest s h)
    | c :: rest, none => loopReads o c rest s
  | .go => if s.handler = none then go s else none
  | .block eof => if s.handler = none then getBlock eof s else none

/-- Before the first session, after `initialize_serial_device`. -/
def init : State :=
  ⟨true, false, false, true, false, 0, 0, [], .off, none⟩

end Rtes.SerialModel
