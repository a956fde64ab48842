import Rtes.Absorb
import Rtes.Loop

/-!
`sha1.c`, with an `unsigned long` of `w` bits.

Bytes given by a pointer and a length are a list. The copies that are cleared with `memset`
before a function returns are left out, and so is the self test.
-/

namespace Rtes.Sha1Model

open Rtes.Absorb Rtes.Bytes Rtes.Loop

variable {w : ℕ}

/-! ### `sha1_process` -/

/-- `GET_ULONG_BE`. -/
def getUlongBe (w : ℕ) (b : List Byte) (i : ℕ) : BitVec w :=
  (b.getD i 0).setWidth w <<< 24
    ||| (b.getD (i + 1) 0).setWidth w <<< 16
    ||| (b.getD (i + 2) 0).setWidth w <<< 8
    ||| (b.getD (i + 3) 0).setWidth w

/-- The four bytes that `PUT_ULONG_BE` stores. -/
def putUlongBe (n : BitVec w) : List Byte :=
  [(n >>> 24).setWidth 8, (n >>> 16).setWidth 8, (n >>> 8).setWidth 8, n.setWidth 8]

/-- The variables of `sha1_process`, or the elements of `state` that they are for. -/
structure Regs (w : ℕ) where
  A : BitVec w
  B : BitVec w
  C : BitVec w
  D : BitVec w
  E : BitVec w

/-- Their names, for a macro. -/
inductive Reg
  | A | B | C | D | E
  deriving DecidableEq

namespace Regs

def get (v : Regs w) : Reg → BitVec w
  | .A => v.A
  | .B => v.B
  | .C => v.C
  | .D => v.D
  | .E => v.E

def set (v : Regs w) (r : Reg) (x : BitVec w) : Regs w :=
  match r with
  | .A => { v with A := x }
  | .B => { v with B := x }
  | .C => { v with C := x }
  | .D => { v with D := x }
  | .E => { v with E := x }

end Regs

open Reg

def S (x : BitVec w) (n : ℕ) : BitVec w := x <<< n ||| (x &&& 0xFFFFFFFF) >>> (32 - n)

/-- The array `W` when `R(t)` has been evaluated; its value is `W[t & 0x0F]`. -/
def R (t : ℕ) (W : List (BitVec w)) : List (BitVec w) :=
  let temp := W.getD ((t - 3) &&& 0x0F) 0 ^^^ W.getD ((t - 8) &&& 0x0F) 0 ^^^
    W.getD ((t - 14) &&& 0x0F) 0 ^^^ W.getD (t &&& 0x0F) 0
  W.set (t &&& 0x0F) (S temp 1)

/-- What the macro `F` is defined as. -/
abbrev Fun (w : ℕ) := BitVec w → BitVec w → BitVec w → BitVec w

def P (F : Fun w) (K : BitVec w) (a b c d e : Reg) (x : BitVec w) (v : Regs w) : Regs w :=
  let v := v.set e (v.get e + (S (v.get a) 5 + F (v.get b) (v.get c) (v.get d) + K + x))
  v.set b (S (v.get b) 30)

/-- The variables and the array. -/
structure Work (w : ℕ) where
  regs : Regs w
  W : List (BitVec w)

/-- A line `P( a, b, c, d, e, W[t] )`, from 16 on with `R(t)`. -/
def line (F : Fun w) (K : BitVec w) (a b c d e : Reg) (t : ℕ) (s : Work w) : Work w :=
  let W := if t < 16 then s.W else R t s.W
  ⟨P F K a b c d e (W.getD (t &&& 0x0F) 0) s.regs, W⟩

/-- The five lines from `t` on. -/
def five (F : Fun w) (K : BitVec w) (t : ℕ) (s : Work w) : Work w :=
  let s := line F K A B C D E t s
  let s := line F K E A B C D (t + 1) s
  let s := line F K D E A B C (t + 2) s
  let s := line F K C D E A B (t + 3) s
  line F K B C D E A (t + 4) s

/-- The lines with one `F` and `K`. -/
def twenty (F : Fun w) (K : BitVec w) (t : ℕ) (s : Work w) : Work w :=
  let s := five F K t s
  let s := five F K (t + 5) s
  let s := five F K (t + 10) s
  five F K (t + 15) s

/-- All lines. -/
def eighty (s : Work w) : Work w :=
  let s := twenty (fun x y z => z ^^^ (x &&& (y ^^^ z))) 0x5A827999 0 s
  let s := twenty (fun x y z => x ^^^ y ^^^ z) 0x6ED9EBA1 20 s
  let s := twenty (fun x y z => (x &&& y) ||| (z &&& (x ||| y))) 0x8F1BBCDC 40 s
  twenty (fun x y z => x ^^^ y ^^^ z) 0xCA62C1D6 60 s

def sha1Process (state : Regs w) (data : List Byte) : Regs w :=
  let v := (eighty ⟨state, (List.range 16).map fun i => getUlongBe w data (4 * i)⟩).regs
  ⟨state.A + v.A, state.B + v.B, state.C + v.C, state.D + v.D, state.E + v.E⟩

/-! ### The context -/

/-- `sha1_context`. -/
structure Context (w : ℕ) where
  total0 : BitVec w
  total1 : BitVec w
  state : Regs w
  buffer : Buf
  ipad : Buf
  opad : Buf

def sha1Starts (ctx : Context w) : Context w :=
  { ctx with
    total0 := 0
    total1 := 0
    state := ⟨0x67452301, 0xEFCDAB89, 0x98BADCFE, 0x10325476, 0xC3D2E1F0⟩ }

/-- `ilen` is the length of `input`. -/
def sha1Update (ctx : Context w) (input : List Byte) : Context w :=
  if input.length = 0 then ctx
  else
    let left := (ctx.total0 &&& 0x3F).toNat
    let fill := 64 - left
    let ilen : BitVec w := BitVec.ofNat w input.length
    let total0 := (ctx.total0 + ilen) &&& 0xFFFFFFFF
    let total1 := if total0 < ilen then ctx.total1 + 1 else ctx.total1
    let (state, buffer, input, left) :=
      if left ≠ 0 ∧ fill ≤ input.length then
        let buffer := blit ctx.buffer left (input.take fill)
        (sha1Process ctx.state (slice buffer 0 64), buffer, input.drop fill, 0)
      else (ctx.state, ctx.buffer, input, left)
    let (state, input) := drain sha1Process 64 input.length state input
    let buffer := if 0 < input.length then blit buffer left input else buffer
    { ctx with total0, total1, state, buffer }

def sha1Padding : List Byte := 0x80 :: List.replicate 63 0

/-- The output, and the context that is left. -/
def sha1Finish (ctx : Context w) : List Byte × Context w :=
  let high := ctx.total0 >>> 29 ||| ctx.total1 <<< 3
  let low := ctx.total0 <<< 3
  let msglen := putUlongBe high ++ putUlongBe low
  let last := (ctx.total0 &&& 0x3F).toNat
  let padn := if last < 56 then 56 - last else 120 - last
  let ctx := sha1Update ctx (sha1Padding.take padn)
  let ctx := sha1Update ctx msglen
  (putUlongBe ctx.state.A ++ putUlongBe ctx.state.B ++ putUlongBe ctx.state.C ++
    putUlongBe ctx.state.D ++ putUlongBe ctx.state.E, ctx)

/-- `ctx` is what is in the automatic variable before it is set. -/
def sha1 (ctx : Context w) (input : List Byte) : List Byte :=
  let ctx := sha1Starts ctx
  let ctx := sha1Update ctx input
  (sha1Finish ctx).1

/-! ### Files -/

/-- What can be read from a file, and whether it is an error that ends it. -/
structure File where
  bytes : List Byte
  error : Bool

/-- Once round the loop of `sha1_file`, with the context and what is left of the file. -/
def fileTurn : Context w × List Byte → Option ((Context w × List Byte) ⊕ Context w)
  | (ctx, rest) =>
    let buf := rest.take 1024
    if 0 < buf.length then some (.inl (sha1Update ctx buf, rest.drop 1024)) else some (.inr ctx)

/-- The value returned and the output, if there is one. The file is `none` when it cannot be
opened. -/
def sha1File (fuel : ℕ) (ctx : Context w) : Option File → Option (ℤ × Option (List Byte))
  | none => some (1, none)
  | some f => do
    let ctx ← iter fileTurn fuel (sha1Starts ctx, f.bytes)
    pure (if f.error then 2 else 0, some (sha1Finish ctx).1)

/-! ### Keyed digests -/

/-- `scratch` is the context that `sha1` has for a long key. -/
def sha1HmacStarts (scratch ctx : Context w) (key : List Byte) : Context w :=
  let key := if 64 < key.length then sha1 scratch key else key
  let ipad := blit ctx.ipad 0 (List.replicate 64 0x36)
  let opad := blit ctx.opad 0 (List.replicate 64 0x5C)
  let (ipad, opad) := (List.range key.length).foldl
    (fun (pads : Buf × Buf) i =>
      (Function.update pads.1 i (pads.1 i ^^^ key.getD i 0),
        Function.update pads.2 i (pads.2 i ^^^ key.getD i 0))) (ipad, opad)
  let ctx := sha1Starts { ctx with ipad, opad }
  sha1Update ctx (slice ctx.ipad 0 64)

def sha1HmacUpdate (ctx : Context w) (input : List Byte) : Context w := sha1Update ctx input

def sha1HmacFinish (ctx : Context w) : List Byte × Context w :=
  let (tmpbuf, ctx) := sha1Finish ctx
  let ctx := sha1Starts ctx
  let ctx := sha1Update ctx (slice ctx.opad 0 64)
  let ctx := sha1Update ctx tmpbuf
  sha1Finish ctx

def sha1Hmac (scratch ctx : Context w) (key input : List Byte) : List Byte :=
  let ctx := sha1HmacStarts scratch ctx key
  let ctx := sha1HmacUpdate ctx input
  (sha1HmacFinish ctx).1

end Rtes.Sha1Model
