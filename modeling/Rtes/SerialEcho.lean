import Rtes.Loop
import Rtes.Pieces

/-!
How `handle_input` of `Linux_serial/serialutil.c` passes on what the serial device sends.

Outside hex and file mode it writes each chunk to standard output, in as many calls as that
takes. The loop keeps the right count of what is left, but goes on from the last count and not
from the sum, so from the third call on it repeats bytes. The prompts, a `read`
that fails, and the byte log after the loop are left out.
-/

namespace Rtes.SerialEcho

open Rtes.Bytes Rtes.Loop Rtes.Pieces

def MAX_INPUT_LENGTH : ℕ := 4096

/-- The locals of the write loop, and what it has written. -/
structure Echo where
  nleft : ℤ
  nwritten : ℤ
  calls : ℕ
  out : List Byte

/-- Once round the write loop; `ret n` is what call `n` of `write` returns. -/
def echoTurn (inbuff : Buf) (ret : ℕ → ℤ) (s : Echo) : Echo ⊕ Echo :=
  if s.nleft > 0 then
    let nwritten := ret s.calls
    if nwritten ≤ 0 then .inr { s with nwritten, calls := s.calls + 1 }
    else .inl {
      nleft := s.nleft - nwritten
      nwritten
      calls := s.calls + 1
      out := s.out ++ slice inbuff s.nwritten.toNat nwritten.toNat }
  else .inr s

def echo (fuel : ℕ) (inbuff : Buf) (ret : ℕ → ℤ) (count : ℕ) : Option Echo :=
  iter (fun s => some (echoTurn inbuff ret s)) fuel ⟨count, 0, 0, []⟩

structure Console where
  inbuff : Buf
  countsofar : ℤ
  out : List Byte

def hexDigit (d : Byte) : Byte := if d < 10 then 0x30 + d else 0x57 + d

/-- A byte by `" %2x"`. -/
def printHex (b : Byte) : List Byte :=
  [0x20, if b < 16 then 0x20 else hexDigit (b / 16), hexDigit (b % 16)]

/-- What one `read` returns. -/
structure Chunk where
  bytes : List Byte
  fits : bytes.length ≤ MAX_INPUT_LENGTH - 1

/-- The buffer after the read, with the terminator behind the bytes. -/
def received (b : Buf) (bytes : List Byte) : Buf :=
  Function.update (blit b 0 bytes) bytes.length 0

/-- Once round the loop of `handle_input`. -/
def handleChunk (fuel : ℕ) (hexInputMode fileTxMode : Bool) (ret : ℕ → ℤ) (c : Chunk)
    (s : Console) : Option Console :=
  let count := c.bytes.length
  let inbuff := received s.inbuff c.bytes
  let s := { s with inbuff, countsofar := int32 (s.countsofar + count) }
  if hexInputMode || fileTxMode then
    some { s with out := s.out ++ (slice inbuff 0 count).flatMap printHex }
  else do
    let e ← echo fuel inbuff ret count
    some { s with out := s.out ++ e.out }

/-- The loop itself, over the chunks that come, each with the counts of its writes. -/
def chunks (fuel : ℕ) (hexInputMode fileTxMode : Bool) :
    List (Chunk × (ℕ → ℤ)) → Console → Option Console
  | [], s => some s
  | (c, ret) :: cs, s => do
    let s ← handleChunk fuel hexInputMode fileTxMode ret c s
    if c.bytes.length = MAX_INPUT_LENGTH - 1 then chunks fuel hexInputMode fileTxMode cs s
    else some s

def handleInput (fuel : ℕ) (hexInputMode fileTxMode : Bool) (cs : List (Chunk × (ℕ → ℤ)))
    (s : Console) : Option Console :=
  chunks fuel hexInputMode fileTxMode cs
    { s with inbuff := blit s.inbuff 0 (List.replicate MAX_INPUT_LENGTH 0) }

/-! ### One chunk -/

/-- Counts that `write` may return while `count` bytes are passed on. -/
structure Partial (count : ℕ) (k : ℕ → ℕ) : Prop where
  pos : ∀ n, sent k n < count → 1 ≤ k n
  le : ∀ n, sent k n < count → sent k n + k n ≤ count

/-- Where call `n` takes its bytes from. -/
def off (k : ℕ → ℕ) : ℕ → ℕ
  | 0 => 0
  | n + 1 => k n

section Echo

variable {count : ℕ} {k : ℕ → ℕ} (inbuff : Buf)

/-- The locals before call `n`. -/
def echoState (inbuff : Buf) (count : ℕ) (k : ℕ → ℕ) (n : ℕ) : Echo :=
  ⟨count - sent k n, off k n, n, emitted inbuff (off k) k n⟩

lemma echoTurn_again (hk : Partial count k) {n : ℕ} (h : sent k n < count) :
    echoTurn inbuff (fun n => k n) (echoState inbuff count k n) =
      .inl (echoState inbuff count k (n + 1)) := by
  have hpos := hk.pos n h
  have hleft : (echoState inbuff count k n).nleft > 0 := by
    dsimp only [echoState]
    omega
  have hret : ¬ (k (echoState inbuff count k n).calls : ℤ) ≤ 0 := by
    dsimp only [echoState]
    omega
  refine (if_pos hleft).trans ((if_neg hret).trans ?_)
  simp only [echoState, off, sent_succ, emitted_succ, Int.toNat_natCast, Nat.cast_add, sub_sub]

lemma echoTurn_done {ret : ℕ → ℤ} {n : ℕ} (h : sent k n = count) :
    echoTurn inbuff ret (echoState inbuff count k n) = .inr (echoState inbuff count k n) :=
  if_neg (by dsimp only [echoState]; omega)

/-- **The loop ends** after the calls that pass on `count` bytes. -/
lemma echo_total (hk : Partial count k) : ∃ N, sent k N = count ∧ (∀ n < N, sent k n < count) ∧
    echo (N + 1) inbuff (fun n => k n) count = some (echoState inbuff count k N) := by
  obtain ⟨N, heq, hlt⟩ := exists_sent_eq hk.pos hk.le
  have hstart : echoState inbuff count k 0 = ⟨count, 0, 0, []⟩ := by
    simp [echoState, sent_zero, off, emitted]
  refine ⟨N, heq, hlt, ?_⟩
  unfold echo
  rw [← hstart]
  exact iter_of_states (fun n hn => congrArg some (echoTurn_again inbuff hk (hlt n hn)))
    (congrArg some (echoTurn_done inbuff heq))

/-- **The bytes come through** exactly when each call finds at its offset those that are next. -/
lemma echo_slice_iff (hk : Partial count k) :
    (∃ fuel e, echo fuel inbuff (fun n => k n) count = some e ∧ e.out = slice inbuff 0 count) ↔
      ∀ n, sent k n < count → slice inbuff (off k n) (k n) = slice inbuff (sent k n) (k n) := by
  obtain ⟨N, heq, hlt, hecho⟩ := echo_total inbuff hk
  have hout : (echoState inbuff count k N).out = slice inbuff 0 count ↔
      ∀ n < N, slice inbuff (off k n) (k n) = slice inbuff (sent k n) (k n) := by
    rw [← emitted_eq_iff, heq]
    rfl
  constructor
  · rintro ⟨fuel, e, he, heout⟩ n hn
    rw [iter_unique he hecho] at heout
    exact hout.mp heout n (lt_of_sent_lt (hn.trans_eq heq.symm))
  · intro h
    exact ⟨N + 1, _, hecho, hout.mpr fun n hn => h n (hlt n hn)⟩

/-- Call `n` takes its bytes from inside the chunk. -/
lemma off_add_le (hk : Partial count k) {n : ℕ} (h : sent k n < count) : off k n + k n ≤ count := by
  have hle := hk.le n h
  cases n with
  | zero =>
    dsimp only [off]
    omega
  | succ n =>
    rw [sent_succ] at hle
    dsimp only [off]
    omega

end Echo

lemma slice_received {b : Buf} {bytes : List Byte} {o j : ℕ} (h : o + j ≤ bytes.length) :
    slice (received b bytes) o j = (bytes.drop o).take j := by
  refine slice_eq_take_drop h fun i hi => ?_
  unfold received
  rw [Function.update_of_ne (by omega), ← zero_add (o + i), blit_in (by omega), zero_add]

lemma slice_received_all (b : Buf) (bytes : List Byte) :
    slice (received b bytes) 0 bytes.length = bytes := by
  rw [slice_received (by omega), List.drop_zero, List.take_length]

lemma handleChunk_out_iff {c : Chunk} {ret : ℕ → ℤ} {s : Console} {out : List Byte} {fuel : ℕ} :
    (∃ s', handleChunk fuel false false ret c s = some s' ∧ s'.out = s.out ++ out) ↔
      ∃ e, echo fuel (received s.inbuff c.bytes) ret c.bytes.length = some e ∧ e.out = out := by
  constructor
  · rintro ⟨s', h, hout⟩
    obtain ⟨e, he, hs'⟩ := Option.bind_eq_some_iff.mp h
    obtain rfl := Option.some.inj hs'
    exact ⟨e, he, List.append_cancel_left hout⟩
  · rintro ⟨e, he, hout⟩
    exact ⟨_, Option.bind_eq_some_iff.mpr ⟨e, he, rfl⟩, congrArg (s.out ++ ·) hout⟩

/-- **A chunk is echoed faithfully exactly when every call finds at its offset, the count of the
call before, the bytes that are next.** -/
theorem handleChunk_echo_iff (c : Chunk) (k : ℕ → ℕ) (hk : Partial c.bytes.length k)
    (s : Console) :
    (∃ fuel s', handleChunk fuel false false (fun n => k n) c s = some s' ∧
      s'.out = s.out ++ c.bytes) ↔
      ∀ n, sent k n < c.bytes.length →
        (c.bytes.drop (off k n)).take (k n) = (c.bytes.drop (sent k n)).take (k n) := by
  have hecho := echo_slice_iff (received s.inbuff c.bytes) hk
  rw [slice_received_all] at hecho
  simp only [handleChunk_out_iff, hecho]
  refine forall₂_congr fun n hn => ?_
  rw [slice_received (off_add_le hk hn), slice_received (hk.le n hn)]

/-- Three bytes. -/
def abc : Chunk := ⟨[0x61, 0x62, 0x63], by decide⟩

def console : Console := ⟨fun _ => 0, 0, []⟩

/-- The last two are the same. -/
def abb : Chunk := ⟨[0x61, 0x62, 0x62], by decide⟩

lemma sent_one (n : ℕ) : sent (fun _ => 1) n = n := by
  simp [sent]

/-- Three calls of one byte each: the third writes the second byte again, which is the third. -/
theorem handleChunk_echo_iff_three_calls : ∃ fuel s',
    handleChunk fuel false false (fun _ => (1 : ℕ)) abb console = some s' ∧
      s'.out = console.out ++ abb.bytes := by
  have hk : Partial abb.bytes.length fun _ => 1 :=
    ⟨fun n _ => le_rfl, fun n hn => by rw [sent_one] at hn ⊢; exact hn⟩
  refine (handleChunk_echo_iff abb (fun _ => 1) hk console).mpr fun n hn => ?_
  rw [sent_one] at hn ⊢
  have hlt : n < 3 := hn
  interval_cases n <;> decide

/-- In calls of one byte each, the third writes the second byte again. -/
theorem echo_repeats : ¬ ∃ fuel s',
    handleChunk fuel false false (fun _ => (1 : ℕ)) abc console = some s' ∧
      s'.out = console.out ++ abc.bytes := by
  have hk : Partial abc.bytes.length fun _ => 1 :=
    ⟨fun n _ => le_rfl, fun n hn => by rw [sent_one] at hn ⊢; exact hn⟩
  have hecho := echo_slice_iff (received console.inbuff abc.bytes) hk
  rw [slice_received_all] at hecho
  simp only [handleChunk_out_iff]
  intro h
  have hthird := hecho.mp h 2 (by rw [sent_one]; decide)
  rw [slice_received (by decide), slice_received (by rw [sent_one]; decide), sent_one] at hthird
  exact absurd hthird (by decide)

/-- **Every chunk of a size comes through exactly when two calls are enough**: the third goes on
from the second count. -/
theorem forall_echo_iff {count : ℕ} {k : ℕ → ℕ} (hk : Partial count k) :
    (∀ inbuff, ∃ fuel e, echo fuel inbuff (fun n => k n) count = some e ∧
      e.out = slice inbuff 0 count) ↔ count ≤ k 0 + k 1 := by
  have htwo : sent k 2 = k 0 + k 1 := by simp [sent, Finset.sum_range_succ]
  simp only [echo_slice_iff _ hk]
  constructor
  · intro h
    by_contra hlt
    have hlt : sent k 2 < count := by omega
    have hone := hk.pos 0 (by rw [sent_zero]; omega)
    rcases forall_slice_eq_iff.mp fun b => h b 2 hlt with heq | hzero
    · rw [htwo] at heq
      dsimp only [off] at heq
      omega
    · have := hk.pos 2 hlt
      omega
  · intro h inbuff n hn
    have hn2 : n < 2 := lt_of_sent_lt (hn.trans_le (h.trans_eq htwo.symm))
    have hoff : off k n = sent k n := by
      interval_cases n
      · rfl
      · simp [off, sent]
    rw [hoff]

/-! ### A run of chunks -/

lemma handleChunk_mono {fuel fuel' : ℕ} (hle : fuel ≤ fuel') {hex file : Bool} {ret : ℕ → ℤ}
    {c : Chunk} {s s' : Console} (h : handleChunk fuel hex file ret c s = some s') :
    handleChunk fuel' hex file ret c s = some s' := by
  unfold handleChunk at h ⊢
  dsimp only at h ⊢
  split_ifs at h ⊢ with hmode
  · exact h
  · obtain ⟨e, he, hs'⟩ := Option.bind_eq_some_iff.mp h
    exact Option.bind_eq_some_iff.mpr ⟨e, iter_mono (fun _ _ h => h) hle he, hs'⟩

lemma chunks_mono {fuel fuel' : ℕ} (hle : fuel ≤ fuel') {hex file : Bool}
    {cs : List (Chunk × (ℕ → ℤ))} {s s' : Console} (h : chunks fuel hex file cs s = some s') :
    chunks fuel' hex file cs s = some s' := by
  induction cs generalizing s with
  | nil => exact h
  | cons p cs ih =>
    obtain ⟨s₁, h₁, hrest⟩ := Option.bind_eq_some_iff.mp h
    refine Option.bind_eq_some_iff.mpr ⟨s₁, handleChunk_mono hle h₁, ?_⟩
    split_ifs at hrest ⊢ with hfull
    · exact ih hrest
    · exact hrest

/-- The bytes up to the first chunk that does not fill the buffer. -/
def taken : List Chunk → List Byte
  | [] => []
  | c :: cs => c.bytes ++ if c.bytes.length = MAX_INPUT_LENGTH - 1 then taken cs else []

/-- **A run of `handle_input`** passes on all that it takes, if two calls are enough for each
chunk. -/
theorem handleInput_echo (cs : List (Chunk × (ℕ → ℕ)))
    (h : ∀ p ∈ cs, Partial p.1.bytes.length p.2 ∧ p.1.bytes.length ≤ p.2 0 + p.2 1)
    (s : Console) : ∃ fuel s',
      handleInput fuel false false (cs.map fun p => (p.1, fun n => (p.2 n : ℤ))) s = some s' ∧
        s'.out = s.out ++ taken (cs.map Prod.fst) := by
  suffices ∀ s : Console, ∃ fuel s',
      chunks fuel false false (cs.map fun p => (p.1, fun n => (p.2 n : ℤ))) s = some s' ∧
        s'.out = s.out ++ taken (cs.map Prod.fst) from this _
  induction cs with
  | nil => exact fun s => ⟨0, s, rfl, (List.append_nil _).symm⟩
  | cons p cs ih =>
    intro s
    obtain ⟨hk, htwo⟩ := h p List.mem_cons_self
    obtain ⟨fuel, e, he, hout⟩ := (forall_echo_iff hk).mpr htwo (received s.inbuff p.1.bytes)
    rw [slice_received_all] at hout
    obtain ⟨s₁, h₁, hout₁⟩ := handleChunk_out_iff.mpr ⟨e, he, hout⟩
    obtain ⟨fuel', s₂, h₂, hout₂⟩ := ih (fun q hq => h q (List.mem_cons_of_mem p hq)) s₁
    have h₁' := handleChunk_mono (le_max_left fuel fuel') h₁
    have h₂' := chunks_mono (le_max_right fuel fuel') h₂
    rw [List.map_cons, List.map_cons, taken]
    by_cases hfull : p.1.bytes.length = MAX_INPUT_LENGTH - 1
    · refine ⟨max fuel fuel', s₂, Option.bind_eq_some_iff.mpr ⟨s₁, h₁', ?_⟩, ?_⟩
      · rw [if_pos hfull]
        exact h₂'
      · rw [if_pos hfull, hout₂, hout₁, List.append_assoc]
    · refine ⟨max fuel fuel', s₁, Option.bind_eq_some_iff.mpr ⟨s₁, h₁', ?_⟩, ?_⟩
      · rw [if_neg hfull]
      · rw [if_neg hfull, hout₁, List.append_nil]

end Rtes.SerialEcho
