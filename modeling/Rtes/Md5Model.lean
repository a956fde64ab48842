import Rtes.Absorb
import Rtes.Words

/-!
`md5.c`, for each way to build it and for machines of both byte orders.

Bytes given by a pointer and a length are a list; the pointer itself matters where
`md5_process` looks at its alignment.
-/

namespace Rtes.Md5Model

open Rtes.Absorb Rtes.Bytes Rtes.Words

/-! ### `md5_process` -/

/-- `BYTE_ORDER`: -1, 0 or 1. -/
inductive ByteOrder
  | little | unknown | big

/-- How the program was built, the byte order of the machine, and the addresses of the buffer of
the state, of `pad` and of `data` in `md5_finish`. -/
structure Env where
  byteOrder : ByteOrder
  littleEndian : Bool
  buf : ℕ
  pad : ℕ
  data : ℕ

/-- A word that the machine reads from four bytes. -/
def loadWord (env : Env) (bs : List Byte) : BitVec 32 :=
  word 32 (if env.littleEndian then bs else bs.reverse)

/-- `((const md5_word_t *)p)[0]` up to `[15]`. -/
def asWords (env : Env) (p : List Byte) : List (BitVec 32) :=
  (List.range 16).map fun i => loadWord env ((p.drop (4 * i)).take 4)

/-- `X` on a little-endian machine. -/
def littleX (env : Env) (addr : ℕ) (data : List Byte) : List (BitVec 32) :=
  if addr &&& 3 = 0 then asWords env data
  else
    let xbuf := data.take 64
    asWords env xbuf

/-- `X` on a big-endian machine. -/
def bigX (data : List Byte) : List (BitVec 32) :=
  (List.range 16).map fun i =>
    let xp := data.drop (4 * i)
    (xp.getD 0 0).setWidth 32 + (xp.getD 1 0).setWidth 32 <<< 8 +
      (xp.getD 2 0).setWidth 32 <<< 16 + (xp.getD 3 0).setWidth 32 <<< 24

def X (env : Env) (addr : ℕ) (data : List Byte) : List (BitVec 32) :=
  match env.byteOrder with
  | .little => littleX env addr data
  | .unknown => if env.littleEndian then littleX env addr data else bigX data
  | .big => bigX data

/-- The variables of `md5_process`, or the elements of `abcd` that they are for. -/
structure Regs where
  a : BitVec 32
  b : BitVec 32
  c : BitVec 32
  d : BitVec 32

/-- Their names, for a macro. -/
inductive Reg
  | a | b | c | d
  deriving DecidableEq

namespace Regs

def get (v : Regs) : Reg → BitVec 32
  | .a => v.a
  | .b => v.b
  | .c => v.c
  | .d => v.d

def set (v : Regs) (r : Reg) (x : BitVec 32) : Regs :=
  match r with
  | .a => { v with a := x }
  | .b => { v with b := x }
  | .c => { v with c := x }
  | .d => { v with d := x }

end Regs

def tMask : BitVec 32 := ~~~0

/-- `T1` up to `T64`. -/
def T : List (BitVec 32) :=
  [tMask ^^^ 0x28955b87, tMask ^^^ 0x173848a9, 0x242070db, tMask ^^^ 0x3e423111,
    tMask ^^^ 0x0a83f050, 0x4787c62a, tMask ^^^ 0x57cfb9ec, tMask ^^^ 0x02b96afe,
    0x698098d8, tMask ^^^ 0x74bb0850, tMask ^^^ 0x0000a44e, tMask ^^^ 0x76a32841,
    0x6b901122, tMask ^^^ 0x02678e6c, tMask ^^^ 0x5986bc71, 0x49b40821,
    tMask ^^^ 0x09e1da9d, tMask ^^^ 0x3fbf4cbf, 0x265e5a51, tMask ^^^ 0x16493855,
    tMask ^^^ 0x29d0efa2, 0x02441453, tMask ^^^ 0x275e197e, tMask ^^^ 0x182c0437,
    0x21e1cde6, tMask ^^^ 0x3cc8f829, tMask ^^^ 0x0b2af278, 0x455a14ed,
    tMask ^^^ 0x561c16fa, tMask ^^^ 0x03105c07, 0x676f02d9, tMask ^^^ 0x72d5b375,
    tMask ^^^ 0x0005c6bd, tMask ^^^ 0x788e097e, 0x6d9d6122, tMask ^^^ 0x021ac7f3,
    tMask ^^^ 0x5b4115bb, 0x4bdecfa9, tMask ^^^ 0x0944b49f, tMask ^^^ 0x4140438f,
    0x289b7ec6, tMask ^^^ 0x155ed805, tMask ^^^ 0x2b10cf7a, 0x04881d05,
    tMask ^^^ 0x262b2fc6, tMask ^^^ 0x1924661a, 0x1fa27cf8, tMask ^^^ 0x3b53a99a,
    tMask ^^^ 0x0bd6ddbb, 0x432aff97, tMask ^^^ 0x546bdc58, tMask ^^^ 0x036c5fc6,
    0x655b59c3, tMask ^^^ 0x70f3336d, tMask ^^^ 0x00100b82, tMask ^^^ 0x7a7ba22e,
    0x6fa87e4f, tMask ^^^ 0x01d3191f, tMask ^^^ 0x5cfebceb, 0x4e0811a1,
    tMask ^^^ 0x08ac817d, tMask ^^^ 0x42c50dca, 0x2ad7d2bb, tMask ^^^ 0x14792c6e]

def rotateLeft (x : BitVec 32) (n : ℕ) : BitVec 32 := x <<< n ||| x >>> (32 - n)

def F (x y z : BitVec 32) : BitVec 32 := (x &&& y) ||| (~~~x &&& z)

def G (x y z : BitVec 32) : BitVec 32 := (x &&& z) ||| (y &&& ~~~z)

def H (x y z : BitVec 32) : BitVec 32 := x ^^^ y ^^^ z

def I (x y z : BitVec 32) : BitVec 32 := y ^^^ (x ||| ~~~z)

/-- `SET(a, b, c, d, k, s, Ti)`. -/
def SET (F : BitVec 32 → BitVec 32 → BitVec 32 → BitVec 32) (X : List (BitVec 32))
    (ra rb rc rd : Reg) (k s i : ℕ) (v : Regs) : Regs :=
  let t := v.get ra + F (v.get rb) (v.get rc) (v.get rd) + X.getD k 0 + T.getD (i - 1) 0
  v.set ra (rotateLeft t s + v.get rb)

/-- Four operations, from `Ti` on. -/
def four (F : BitVec 32 → BitVec 32 → BitVec 32 → BitVec 32) (X : List (BitVec 32))
    (s0 s1 s2 s3 k0 k1 k2 k3 i : ℕ) (v : Regs) : Regs :=
  let v := SET F X .a .b .c .d k0 s0 i v
  let v := SET F X .d .a .b .c k1 s1 (i + 1) v
  let v := SET F X .c .d .a .b k2 s2 (i + 2) v
  SET F X .b .c .d .a k3 s3 (i + 3) v

/-- Round 1. -/
def round1 (X : List (BitVec 32)) (v : Regs) : Regs :=
  let v := four F X 7 12 17 22 0 1 2 3 1 v
  let v := four F X 7 12 17 22 4 5 6 7 5 v
  let v := four F X 7 12 17 22 8 9 10 11 9 v
  four F X 7 12 17 22 12 13 14 15 13 v

/-- Round 2. -/
def round2 (X : List (BitVec 32)) (v : Regs) : Regs :=
  let v := four G X 5 9 14 20 1 6 11 0 17 v
  let v := four G X 5 9 14 20 5 10 15 4 21 v
  let v := four G X 5 9 14 20 9 14 3 8 25 v
  four G X 5 9 14 20 13 2 7 12 29 v

/-- Round 3. -/
def round3 (X : List (BitVec 32)) (v : Regs) : Regs :=
  let v := four H X 4 11 16 23 5 8 11 14 33 v
  let v := four H X 4 11 16 23 1 4 7 10 37 v
  let v := four H X 4 11 16 23 13 0 3 6 41 v
  four H X 4 11 16 23 9 12 15 2 45 v

/-- Round 4. -/
def round4 (X : List (BitVec 32)) (v : Regs) : Regs :=
  let v := four I X 6 10 15 21 0 7 14 5 49 v
  let v := four I X 6 10 15 21 12 3 10 1 53 v
  let v := four I X 6 10 15 21 8 15 6 13 57 v
  four I X 6 10 15 21 4 11 2 9 61 v

def md5Process (env : Env) (addr : ℕ) (abcd : Regs) (data : List Byte) : Regs :=
  let X := X env addr data
  let v := round1 X abcd
  let v := round2 X v
  let v := round3 X v
  let v := round4 X v
  ⟨abcd.a + v.a, abcd.b + v.b, abcd.c + v.c, abcd.d + v.d⟩

/-! ### The state -/

/-- `md5_state_t`. -/
structure State where
  count0 : BitVec 32
  count1 : BitVec 32
  abcd : Regs
  buf : Buf

def md5Init (pms : State) : State :=
  { pms with
    count0 := 0
    count1 := 0
    abcd := ⟨0x67452301, tMask ^^^ 0x10325476, tMask ^^^ 0x67452301, 0x10325476⟩ }

/-- The loop over full blocks, which moves the pointer. -/
def fullBlocks (env : Env) (p : ℕ) (abcd : Regs) (data : List Byte) : Regs × List Byte :=
  let r := drain (fun (s : Regs × ℕ) b => (md5Process env s.2 s.1 b, s.2 + 64)) 64 data.length
    (abcd, p) data
  (r.1.1, r.2)

/-- `nbytes` is the length of `data`. -/
def md5Append (env : Env) (pms : State) (p : ℕ) (data : List Byte) : State :=
  if data.length = 0 then pms
  else
    let nbytes := data.length
    let offset := (pms.count0 >>> 3 &&& 63).toNat
    let nbits := BitVec.ofNat 32 (nbytes <<< 3)
    let count1 := pms.count1 + BitVec.ofNat 32 (nbytes >>> 29)
    let count0 := pms.count0 + nbits
    let count1 := if count0 < nbits then count1 + 1 else count1
    let finish (abcd : Regs) (buf : Buf) (p : ℕ) (data : List Byte) : State :=
      let (abcd, left) := fullBlocks env p abcd data
      ⟨count0, count1, abcd, if left.length ≠ 0 then blit buf 0 left else buf⟩
    if offset ≠ 0 then
      let copy := if 64 < offset + nbytes then 64 - offset else nbytes
      let buf := blit pms.buf offset (data.take copy)
      if offset + copy < 64 then ⟨count0, count1, pms.abcd, buf⟩
      else finish (md5Process env env.buf pms.abcd (slice buf 0 64)) buf (p + copy)
        (data.drop copy)
    else finish pms.abcd pms.buf p data

def pad64 : List Byte := 0x80 :: List.replicate 63 0

/-- The digest, and the state that is left. -/
def md5Finish (env : Env) (pms : State) : List Byte × State :=
  let count (i : ℕ) : BitVec 32 := if i = 0 then pms.count0 else pms.count1
  let data := (List.range 8).map fun i => (count (i >>> 2) >>> ((i &&& 3) <<< 3)).setWidth 8
  let padn := (((55 : BitVec 32) - pms.count0 >>> 3) &&& 63).toNat + 1
  let pms := md5Append env pms env.pad (pad64.take padn)
  let pms := md5Append env pms env.data data
  let abcd := [pms.abcd.a, pms.abcd.b, pms.abcd.c, pms.abcd.d]
  ((List.range 16).map fun i =>
    (abcd.getD (i >>> 2) 0 >>> ((i &&& 3) <<< 3)).setWidth 8, pms)

end Rtes.Md5Model
