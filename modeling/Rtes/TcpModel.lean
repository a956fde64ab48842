import Rtes.Bytes
import Rtes.Runs

/-!
A session of `inet_client.c` with `serve_clients` of `inet_server.c`.

The client sends a count, and then the two take turns for as many rounds: the server sends its
three lines and the client reads them, the client sends its three lines and the server reads
them. What one sends reaches the other's kernel in pieces of any size, is copied from there to
the buffer of its stream in pieces of any size, and is read with `fgetc` until a newline. The
count is received whole, by one `recv`. Each `close` discards what the peer's kernel has not
received yet, after which the peer comes to the end of its input.
-/

namespace Rtes.TcpModel

open Rtes.Bytes

inductive Party
  | client
  | server
  deriving DecidableEq

def Party.peer : Party → Party
  | .client => .server
  | .server => .client

def NSTRS : ℕ := 3

def bytes (s : String) : List Byte := s.toList.map fun c => BitVec.ofNat 8 c.toNat

def strs : Party → List (List Byte)
  | .client =>
    [bytes "Jack be nimble.\n", bytes "Jack be quick.\n",
      bytes "Jack jump over the candlestick.\n"]
  | .server =>
    [bytes "This is the first server string.\n", bytes "This is the second server string.\n",
      bytes "This is the third server string.\n"]

def newline : Byte := 10

abbrev CInt := BitVec (8 * 4)

/-- Where a party is: at its `send` or `recv` of the count, at a line to read or to send in the
round `j`, after the loop, after its `close`, or in the handler of a broken pipe. -/
inductive Loc
  | count
  | read (j i : ℕ)
  | send (j i : ℕ)
  | close
  | closed
  | brokenPipe
  deriving DecidableEq

/-- One end of the connection: the party's variables, the bytes sent to it that are on their way,
in its kernel, and in the buffer of its stream; and which bytes it has read, and which were
discarded by its peer's `close`. -/
structure End where
  loc : Loc
  numSets : CInt
  net : List Byte
  recvq : List Byte
  buf : List Byte
  consumed : List Byte
  lost : List Byte
  deriving DecidableEq

abbrev State := Party → End

/-! ### Control flow -/

/-- The loop at the start of the round `j`. -/
def nextRound (x : Party) (numSets : CInt) (j : ℕ) : Loc :=
  if (j : ℤ) < numSets.toInt then
    match x with
    | .client => .read j 0
    | .server => .send j 0
  else .close

/-- After the line `i` has been read. -/
def nextRead (x : Party) (numSets : CInt) (j i : ℕ) : Loc :=
  if i + 1 < NSTRS then .read j (i + 1)
  else
    match x with
    | .client => .send j 0
    | .server => nextRound .server numSets (j + 1)

/-- After the line `i` has been sent. -/
def nextSend (x : Party) (numSets : CInt) (j i : ℕ) : Loc :=
  if i + 1 < NSTRS then .send j (i + 1)
  else
    match x with
    | .client => nextRound .client numSets (j + 1)
    | .server => .read j 0

/-! ### Steps -/

/-- What a party does next, or what happens on its side: `count` bytes reach its kernel, or are
copied to the buffer of its stream. -/
inductive Op
  | count
  | send
  | deliver (count : ℕ)
  | refill (count : ℕ)
  | fgetc
  | eof
  | close
  deriving DecidableEq

/-- A step of the party `x`, with its end `e` and its peer's end `e'`. -/
def act (x : Party) (e e' : End) : Op → Option (End × End)
  | .count =>
    match x with
    | .client =>
      if e.loc = .count then
        some ({ e with loc := nextRound .client e.numSets 0 },
          { e' with net := e'.net ++ toBytes 4 e.numSets.toNat })
      else none
    | .server =>
      if e.loc = .count ∧ 4 ≤ e.recvq.length then
        let numSets : CInt := BitVec.ofNat _ (ofBytes (e.recvq.take 4))
        some ({ e with
          numSets := numSets, recvq := e.recvq.drop 4, loc := nextRound .server numSets 0 }, e')
      else none
  | .send =>
    match e.loc with
    | .send j i =>
      if e'.loc = .closed then some ({ e with loc := .brokenPipe }, e')
      else some ({ e with loc := nextSend x e.numSets j i },
        { e' with net := e'.net ++ (strs x).getD i [] })
    | _ => none
  | .deliver count =>
    if 0 < count ∧ count ≤ e.net.length then
      some ({ e with recvq := e.recvq ++ e.net.take count, net := e.net.drop count }, e')
    else none
  | .refill count =>
    match e.loc with
    | .read _ _ =>
      if e.buf = [] ∧ 0 < count ∧ count ≤ e.recvq.length then
        some ({ e with buf := e.recvq.take count, recvq := e.recvq.drop count }, e')
      else none
    | _ => none
  | .fgetc =>
    match e.loc, e.buf with
    | .read j i, c :: buf =>
      some ({ e with
        buf := buf
        consumed := e.consumed ++ [c]
        loc := if c = newline then nextRead x e.numSets j i else e.loc }, e')
    | _, _ => none
  | .eof =>
    if e'.loc = .closed ∧ e.net = [] ∧ e.recvq = [] ∧ e.buf = [] then
      match e.loc, x with
      | .read j i, _ => some ({ e with loc := nextRead x e.numSets j i }, e')
      -- `recv` leaves the count as it is
      | .count, .server => some ({ e with loc := nextRound .server e.numSets 0 }, e')
      | _, _ => none
    else none
  | .close =>
    if e.loc = .close then
      some ({ e with loc := .closed }, { e' with net := [], lost := e'.net })
    else none

/-- The state in which the ends of `x` and its peer are `e` and `e'`. -/
def ends (x : Party) (e e' : End) : State := fun y => if y = x then e else e'

def step (s : State) (a : Party × Op) : Option State :=
  (act a.1 (s a.1) (s a.1.peer) a.2).map fun r => ends a.1 r.1 r.2

/-- The two parties after `connect` and `accept`; `old` is the server's count so far. -/
def init (numSets old : CInt) : State := fun x =>
  ⟨.count, match x with | .client => numSets | .server => old, [], [], [], [], []⟩

@[simp] lemma Party.peer_peer (x : Party) : x.peer.peer = x := by cases x <;> rfl

lemma Party.peer_ne (x : Party) : x.peer ≠ x := by cases x <;> simp [peer]

lemma Party.eq_or_eq_peer (x y : Party) : y = x ∨ y = x.peer := by
  cases x <;> cases y <;> simp [peer]

@[simp] lemma ends_self (x : Party) (e e' : End) : ends x e e' x = e := if_pos rfl

@[simp] lemma ends_peer (x : Party) (e e' : End) : ends x e e' x.peer = e' := if_neg x.peer_ne

lemma step_eq_some {s s' : State} {x : Party} {op : Op} : step s (x, op) = some s' ↔
    ∃ e e', act x (s x) (s x.peer) op = some (e, e') ∧ s' = ends x e e' := by
  simp [step, Option.map_eq_some_iff, eq_comm]

end Rtes.TcpModel
