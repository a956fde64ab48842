import Rtes.Bytes
import Rtes.Heap
import Rtes.Runs

/-!
The tasks `sender` and `receiver` of `heap_mq.c`.

The sender allocates a block, copies the text of `imagebuff` to it and sends its address over a
message queue, with an id; the receiver prints the text and frees the block. Every message has
the same priority, so the queue is first in, first out. A call of `mq_send` or `mq_receive`
succeeds, blocks, or returns `ERROR`; `malloc` is taken to succeed.
-/

namespace Rtes.HeapMqModel

open Rtes.Bytes

variable {w : ℕ}

/-- A `void *`, of `w` bytes. -/
abbrev Ptr (w : ℕ) := BitVec (8 * w)

/-- `imagebuff` after the loops of `heap_mq`. -/
def imagebuff : List Byte :=
  let line := (List.range 63).map (fun j => BitVec.ofNat 8 ('A'.toNat + j)) ++ [10]
  ((List.replicate 64 line).flatten.set 4095 0).set 63 0

/-- The string that starts a buffer. -/
def text (buff : List Byte) : List Byte := buff.takeWhile (· ≠ 0)

def mqMaxmsg : ℕ := 100

/-- The sender's `id`. -/
def senderId : BitVec (8 * 4) := 999

/-- What the two `memcpy`s of the sender make of its buffer. -/
def pack (buffptr : Ptr w) (id : BitVec (8 * 4)) : List Byte :=
  toBytes w buffptr.toNat ++ toBytes 4 id.toNat

/-- The pointer that the receiver's first `memcpy` takes from a buffer. -/
def unpackPtr (buffer : List Byte) : Ptr w := BitVec.ofNat _ (ofBytes (buffer.take w))

/-- The id that its second one takes. -/
def unpackId (w : ℕ) (buffer : List Byte) : BitVec (8 * 4) :=
  BitVec.ofNat _ (ofBytes ((buffer.drop w).take 4))

/-- The sender's next statement. -/
inductive SendLoc
  | malloc
  | strcpy
  | pack
  | send
  | delay
  deriving DecidableEq

/-- The receiver's next statement. -/
inductive RecvLoc
  | receive
  | unpack
  | print
  | free
  deriving DecidableEq

/-- The variables of the two tasks, the queue, the heap and the strings in it; and which pairs
have been sent and unpacked so far. -/
structure State (w : ℕ) where
  sloc : SendLoc
  sbuffptr : Ptr w
  sbuffer : List Byte
  rloc : RecvLoc
  rbuffptr : Ptr w
  rid : BitVec (8 * 4)
  rbuffer : List Byte
  queue : List (List Byte)
  heap : Heap (Ptr w)
  str : Ptr w → List Byte
  sent : List (Ptr w × BitVec (8 * 4))
  unpacked : List (Ptr w × BitVec (8 * 4))

def init : State w where
  sloc := .malloc
  sbuffptr := 0
  sbuffer := []
  rloc := .receive
  rbuffptr := 0
  rid := 0
  rbuffer := []
  queue := []
  heap := .empty
  str := fun _ => []
  sent := []
  unpacked := []

/-- The statements of the two tasks; `malloc` with its result, the queue's calls with whether
they succeed. -/
inductive Act (w : ℕ)
  | malloc (p : Ptr w)
  | strcpy
  | pack
  | mqSend (ok : Bool)
  | taskDelay
  | mqReceive (ok : Bool)
  | unpack
  | print
  | free
  deriving DecidableEq

def sender (s : State w) : Act w → Option (State w)
  | .malloc p =>
    if s.sloc = .malloc ∧ p ≠ 0 ∧ s.heap.Avail p then
      some { s with sbuffptr := p, heap := s.heap.malloc p, sloc := .strcpy }
    else none
  | .strcpy =>
    if s.sloc = .strcpy then
      some { s with str := Function.update s.str s.sbuffptr (text imagebuff), sloc := .pack }
    else none
  | .pack =>
    if s.sloc = .pack then
      some { s with sbuffer := pack s.sbuffptr senderId, sloc := .send }
    else none
  | .mqSend true =>
    if s.sloc = .send ∧ s.queue.length < mqMaxmsg then
      some { s with
        queue := s.queue ++ [s.sbuffer]
        sent := s.sent ++ [(s.sbuffptr, senderId)]
        sloc := .delay }
    else none
  -- the error is reported, and the loop goes on
  | .mqSend false => if s.sloc = .send then some { s with sloc := .delay } else none
  | .taskDelay => if s.sloc = .delay then some { s with sloc := .malloc } else none
  | _ => none

def receiver (s : State w) : Act w → Option (State w)
  | .mqReceive true =>
    match s.rloc, s.queue with
    | .receive, m :: queue => some { s with rbuffer := m, queue := queue, rloc := .unpack }
    | _, _ => none
  | .mqReceive false => if s.rloc = .receive then some s else none
  | .unpack =>
    if s.rloc = .unpack then
      some { s with
        rbuffptr := unpackPtr s.rbuffer
        rid := unpackId w s.rbuffer
        unpacked := s.unpacked ++ [(unpackPtr s.rbuffer, unpackId w s.rbuffer)]
        rloc := .print }
    else none
  | .print => if s.rloc = .print then some { s with rloc := .free } else none
  | .free =>
    if s.rloc = .free then some { s with heap := s.heap.free s.rbuffptr, rloc := .receive }
    else none
  | _ => none

def step (s : State w) (a : Act w) : Option (State w) :=
  match a with
  | .mqReceive _ | .unpack | .print | .free => receiver s a
  | _ => sender s a

@[simp] lemma unpackPtr_pack (buffptr : Ptr w) (id : BitVec (8 * 4)) :
    unpackPtr (pack buffptr id) = buffptr := by
  simp [unpackPtr, pack, ofNat_ofBytes]

@[simp] lemma unpackId_pack (buffptr : Ptr w) (id : BitVec (8 * 4)) :
    unpackId w (pack buffptr id) = id := by
  rw [unpackId, pack, List.drop_left' (length_toBytes ..), List.take_of_length_le (by simp)]
  exact ofNat_ofBytes id

end Rtes.HeapMqModel
