import Rtes.Absorb
import Rtes.Checked

/-!
`sha2.c`, built with and without `UNROLL_LOOPS`.

The functions for 256 and 512 bits are the same text with other numbers, and so are those for
224 and 384 bits: each of them is one definition here, with what makes the difference in
`Params`, in the initial values and in the number of words put out. Bytes given by a pointer and a
length are a list. A function has no result where a shift leaves the range of an `int`.
-/

namespace Rtes.Sha2Model

open Rtes.Absorb Rtes.Bytes Rtes.Checked

scoped instance neZero_eight : NeZero 8 := ⟨Nat.succ_ne_zero 7⟩

variable {w : ℕ}

/-! ### Macros -/

def shfr (x : BitVec w) (n : ℕ) : BitVec w := x >>> n

def rotr (x : BitVec w) (n : ℕ) : BitVec w := x >>> n ||| x <<< (w - n)

def ch (x y z : BitVec w) : BitVec w := (x &&& y) ^^^ (~~~x &&& z)

def maj (x y z : BitVec w) : BitVec w := (x &&& y) ^^^ (x &&& z) ^^^ (y &&& z)

/-- The four bytes that `UNPACK32` stores. -/
def unpack32 (x : BitVec 32) : List Byte :=
  [(x >>> 24).setWidth 8, (x >>> 16).setWidth 8, (x >>> 8).setWidth 8, x.setWidth 8]

def pack32 (str : List Byte) : BitVec 32 :=
  (str.getD 3 0).setWidth 32
    ||| (str.getD 2 0).setWidth 32 <<< 8
    ||| (str.getD 1 0).setWidth 32 <<< 16
    ||| (str.getD 0 0).setWidth 32 <<< 24

def unpack64 (x : BitVec 64) : List Byte :=
  [(x >>> 56).setWidth 8, (x >>> 48).setWidth 8, (x >>> 40).setWidth 8, (x >>> 32).setWidth 8,
    (x >>> 24).setWidth 8, (x >>> 16).setWidth 8, (x >>> 8).setWidth 8, x.setWidth 8]

def pack64 (str : List Byte) : BitVec 64 :=
  (str.getD 7 0).setWidth 64
    ||| (str.getD 6 0).setWidth 64 <<< 8
    ||| (str.getD 5 0).setWidth 64 <<< 16
    ||| (str.getD 4 0).setWidth 64 <<< 24
    ||| (str.getD 3 0).setWidth 64 <<< 32
    ||| (str.getD 2 0).setWidth 64 <<< 40
    ||| (str.getD 1 0).setWidth 64 <<< 48
    ||| (str.getD 0 0).setWidth 64 <<< 56

/-! ### Tables -/

def sha256K : List (BitVec 32) :=
   [0x428a2f98, 0x71374491, 0xb5c0fbcf, 0xe9b5dba5, 0x3956c25b, 0x59f111f1,
    0x923f82a4, 0xab1c5ed5, 0xd807aa98, 0x12835b01, 0x243185be, 0x550c7dc3,
    0x72be5d74, 0x80deb1fe, 0x9bdc06a7, 0xc19bf174, 0xe49b69c1, 0xefbe4786,
    0x0fc19dc6, 0x240ca1cc, 0x2de92c6f, 0x4a7484aa, 0x5cb0a9dc, 0x76f988da,
    0x983e5152, 0xa831c66d, 0xb00327c8, 0xbf597fc7, 0xc6e00bf3, 0xd5a79147,
    0x06ca6351, 0x14292967, 0x27b70a85, 0x2e1b2138, 0x4d2c6dfc, 0x53380d13,
    0x650a7354, 0x766a0abb, 0x81c2c92e, 0x92722c85, 0xa2bfe8a1, 0xa81a664b,
    0xc24b8b70, 0xc76c51a3, 0xd192e819, 0xd6990624, 0xf40e3585, 0x106aa070,
    0x19a4c116, 0x1e376c08, 0x2748774c, 0x34b0bcb5, 0x391c0cb3, 0x4ed8aa4a,
    0x5b9cca4f, 0x682e6ff3, 0x748f82ee, 0x78a5636f, 0x84c87814, 0x8cc70208,
    0x90befffa, 0xa4506ceb, 0xbef9a3f7, 0xc67178f2]

def sha512K : List (BitVec 64) :=
   [0x428a2f98d728ae22, 0x7137449123ef65cd, 0xb5c0fbcfec4d3b2f, 0xe9b5dba58189dbbc,
    0x3956c25bf348b538, 0x59f111f1b605d019, 0x923f82a4af194f9b, 0xab1c5ed5da6d8118,
    0xd807aa98a3030242, 0x12835b0145706fbe, 0x243185be4ee4b28c, 0x550c7dc3d5ffb4e2,
    0x72be5d74f27b896f, 0x80deb1fe3b1696b1, 0x9bdc06a725c71235, 0xc19bf174cf692694,
    0xe49b69c19ef14ad2, 0xefbe4786384f25e3, 0x0fc19dc68b8cd5b5, 0x240ca1cc77ac9c65,
    0x2de92c6f592b0275, 0x4a7484aa6ea6e483, 0x5cb0a9dcbd41fbd4, 0x76f988da831153b5,
    0x983e5152ee66dfab, 0xa831c66d2db43210, 0xb00327c898fb213f, 0xbf597fc7beef0ee4,
    0xc6e00bf33da88fc2, 0xd5a79147930aa725, 0x06ca6351e003826f, 0x142929670a0e6e70,
    0x27b70a8546d22ffc, 0x2e1b21385c26c926, 0x4d2c6dfc5ac42aed, 0x53380d139d95b3df,
    0x650a73548baf63de, 0x766a0abb3c77b2a8, 0x81c2c92e47edaee6, 0x92722c851482353b,
    0xa2bfe8a14cf10364, 0xa81a664bbc423001, 0xc24b8b70d0f89791, 0xc76c51a30654be30,
    0xd192e819d6ef5218, 0xd69906245565a910, 0xf40e35855771202a, 0x106aa07032bbd1b8,
    0x19a4c116b8d2d0c8, 0x1e376c085141ab53, 0x2748774cdf8eeb99, 0x34b0bcb5e19b48a8,
    0x391c0cb3c5c95a63, 0x4ed8aa4ae3418acb, 0x5b9cca4f7763e373, 0x682e6ff3d6b2b8a3,
    0x748f82ee5defb2fc, 0x78a5636f43172f60, 0x84c87814a1f0ab72, 0x8cc702081a6439ec,
    0x90befffa23631e28, 0xa4506cebde82bde9, 0xbef9a3f7b2c67915, 0xc67178f2e372532b,
    0xca273eceea26619c, 0xd186b8c721c0c207, 0xeada7dd6cde0eb1e, 0xf57d4f7fee6ed178,
    0x06f067aa72176fba, 0x0a637dc5a2c898a6, 0x113f9804bef90dae, 0x1b710b35131c471b,
    0x28db77f523047d84, 0x32caab7b40c72493, 0x3c9ebe0a15c9bebc, 0x431d67c49c100d4c,
    0x4cc5d4becb3e42b6, 0x597f299cfc657e2a, 0x5fcb6fab3ad6faec, 0x6c44198c4a475817]

/-- What the functions for words of 32 and of 64 bits differ in. -/
structure Params (w : ℕ) where
  /-- `F1` up to `F4`. -/
  f1 : BitVec w → BitVec w
  f2 : BitVec w → BitVec w
  f3 : BitVec w → BitVec w
  f4 : BitVec w → BitVec w
  k : List (BitVec w)
  pack : List Byte → BitVec w
  unpack : BitVec w → List Byte
  /-- The block size as a power of two. -/
  shift : ℕ
  /-- What `final` takes off the block size. -/
  tail : ℕ

def params256 : Params 32 where
  f1 x := rotr x 2 ^^^ rotr x 13 ^^^ rotr x 22
  f2 x := rotr x 6 ^^^ rotr x 11 ^^^ rotr x 25
  f3 x := rotr x 7 ^^^ rotr x 18 ^^^ shfr x 3
  f4 x := rotr x 17 ^^^ rotr x 19 ^^^ shfr x 10
  k := sha256K
  pack := pack32
  unpack := unpack32
  shift := 6
  tail := 9

def params512 : Params 64 where
  f1 x := rotr x 28 ^^^ rotr x 34 ^^^ rotr x 39
  f2 x := rotr x 14 ^^^ rotr x 18 ^^^ rotr x 41
  f3 x := rotr x 1 ^^^ rotr x 8 ^^^ shfr x 7
  f4 x := rotr x 19 ^^^ rotr x 61 ^^^ shfr x 6
  k := sha512K
  pack := pack64
  unpack := unpack64
  shift := 7
  tail := 17

/-- `SHA256_BLOCK_SIZE` or `SHA512_BLOCK_SIZE`. -/
def Params.blockSize (p : Params w) : ℕ := 2 ^ p.shift

/-! ### `sha256_transf` and `sha512_transf` -/

/-- The arrays `h` and `wv`. -/
abbrev Regs (w : ℕ) := Vector (BitVec w) 8

/-- The elements of an array. -/
def Regs.view (v : Regs w) (i : Fin 8) : BitVec w := v[i]

lemma view_set (v : Regs w) (i : Fin 8) (x : BitVec w) :
    Regs.view (v.set i x) = Function.update v.view i x := by
  funext k
  by_cases h : k = i
  · subst h
    simp [Regs.view]
  · rw [Function.update_of_ne h]
    simp [Regs.view, Fin.val_inj, Ne.symm h]

/-- The array `w` when `SCR(j)` has been done for 16 up to `16 + n`. -/
def schedule (p : Params w) (subBlock : List Byte) : ℕ → List (BitVec w)
  | 0 => (List.range 16).map fun j => p.pack (subBlock.drop (w / 8 * j))
  | n + 1 =>
    let ws := schedule p subBlock n
    let j := 16 + n
    ws ++ [p.f4 (ws.getD (j - 2) 0) + ws.getD (j - 7) 0 + p.f3 (ws.getD (j - 15) 0) +
      ws.getD (j - 16) 0]

/-- The body of the loop over `j`. -/
def roundLoop (p : Params w) (ws : List (BitVec w)) (wv : Regs w) (j : ℕ) : Regs w :=
  let t1 := wv[7] + p.f2 wv[4] + ch wv[4] wv[5] wv[6] + p.k.getD j 0 + ws.getD j 0
  let t2 := p.f1 wv[0] + maj wv[0] wv[1] wv[2]
  let wv := wv.set 7 wv[6]
  let wv := wv.set 6 wv[5]
  let wv := wv.set 5 wv[4]
  let wv := wv.set 4 (wv[3] + t1)
  let wv := wv.set 3 wv[2]
  let wv := wv.set 2 wv[1]
  let wv := wv.set 1 wv[0]
  wv.set 0 (t1 + t2)

/-- It moves the values. -/
lemma roundLoop_eq (p : Params w) (ws : List (BitVec w)) (wv : Regs w) (j : ℕ) :
    roundLoop p ws wv j =
      let t1 := wv[7] + p.f2 wv[4] + ch wv[4] wv[5] wv[6] + p.k.getD j 0 + ws.getD j 0
      let t2 := p.f1 wv[0] + maj wv[0] wv[1] wv[2]
      #v[t1 + t2, wv[0], wv[1], wv[2], wv[3] + t1, wv[4], wv[5], wv[6]] := by
  apply Vector.ext
  intro i hi
  interval_cases i <;> simp [roundLoop]

/-- `SHA256_EXP` and `SHA512_EXP`. -/
def exp (p : Params w) (ws : List (BitVec w)) (a b c d e f g h : Fin 8) (j : ℕ) (wv : Regs w) :
    Regs w :=
  let t1 := wv[h] + p.f2 wv[e] + ch wv[e] wv[f] wv[g] + p.k.getD j 0 + ws.getD j 0
  let t2 := p.f1 wv[a] + maj wv[a] wv[b] wv[c]
  let wv := wv.set d (wv[d] + t1)
  wv.set h (t1 + t2)

/-- Eight calls, from `j` on. -/
def expEight (p : Params w) (ws : List (BitVec w)) (wv : Regs w) (j : ℕ) : Regs w :=
  let wv := exp p ws 0 1 2 3 4 5 6 7 j wv
  let wv := exp p ws 7 0 1 2 3 4 5 6 (j + 1) wv
  let wv := exp p ws 6 7 0 1 2 3 4 5 (j + 2) wv
  let wv := exp p ws 5 6 7 0 1 2 3 4 (j + 3) wv
  let wv := exp p ws 4 5 6 7 0 1 2 3 (j + 4) wv
  let wv := exp p ws 3 4 5 6 7 0 1 2 (j + 5) wv
  let wv := exp p ws 2 3 4 5 6 7 0 1 (j + 6) wv
  exp p ws 1 2 3 4 5 6 7 0 (j + 7) wv

/-- One block. -/
def transfBlock (p : Params w) (unroll : Bool) (h : Regs w) (subBlock : List Byte) : Regs w :=
  let n := p.k.length
  let ws := schedule p subBlock (n - 16)
  let wv :=
    if unroll then (List.range (n / 8)).foldl (fun wv i => expEight p ws wv (8 * i)) h
    else (List.range n).foldl (roundLoop p ws) h
  Vector.zipWith (· + ·) h wv

/-- The loop runs over an `int`, with `block_nb` cast to one. -/
def transf (p : Params w) (unroll : Bool) (h : Regs w) (message : List Byte)
    (blockNb : BitVec 32) : Option (Regs w) :=
  (List.range blockNb.toInt.toNat).foldlM (fun h i =>
    (fit (2 ^ 31) (i <<< p.shift)).bind fun k =>
      some (transfBlock p unroll h ((message.drop k).take p.blockSize))) h

/-- `sha256_ctx` and `sha512_ctx`. -/
structure Ctx (w : ℕ) where
  totLen : BitVec 32
  len : BitVec 32
  block : Buf
  h : Regs w

def init (h0 : Regs w) (ctx : Ctx w) : Ctx w := { ctx with h := h0, len := 0, totLen := 0 }

/-- `len` is the length of `message`. -/
def update (p : Params w) (unroll : Bool) (ctx : Ctx w) (message : List Byte) :
    Option (Ctx w) :=
  let len := BitVec.ofNat 32 message.length
  let size := BitVec.ofNat 32 p.blockSize
  let tmpLen := size - ctx.len
  let remLen := if len < tmpLen then len else tmpLen
  let block := blit ctx.block ctx.len.toNat (message.take remLen.toNat)
  if ctx.len + len < size then some { ctx with block, len := ctx.len + len }
  else do
    let newLen := len - remLen
    let blockNb := newLen / size
    let shiftedMessage := message.drop remLen.toNat
    let h ← transf p unroll ctx.h (slice block 0 p.blockSize) 1
    let h ← transf p unroll h shiftedMessage blockNb
    let remLen := newLen % size
    let block := blit block 0 ((shiftedMessage.drop (blockNb <<< p.shift).toNat).take remLen.toNat)
    some { totLen := ctx.totLen + (blockNb + 1) <<< p.shift, len := remLen, block, h }

/-- The digest of so many words. -/
def final (p : Params w) (words : ℕ) (unroll : Bool) (ctx : Ctx w) : Option (List Byte) := do
  let blockNb := 1 + if p.blockSize - p.tail < ctx.len.toNat % p.blockSize then 1 else 0
  let lenB := (ctx.totLen + ctx.len) <<< 3
  let pmLen := blockNb <<< p.shift
  let len := ctx.len.toNat
  let block := blit ctx.block len (List.replicate (pmLen - len) 0)
  let block := Function.update block len 0x80
  let block := blit block (pmLen - 4) (unpack32 lenB)
  let h ← transf p unroll ctx.h (slice block 0 pmLen) (BitVec.ofNat 32 blockNb)
  some ((h.toList.take words).flatMap p.unpack)

/-! ### SHA-224 -/

def sha224H0 : Regs 32 :=
  #v[0xc1059ed8, 0x367cd507, 0x3070dd17, 0xf70e5939,
    0xffc00b31, 0x68581511, 0x64f98fa7, 0xbefa4fa4]

def sha224Init : Ctx 32 → Ctx 32 := init sha224H0

def sha224Update : Bool → Ctx 32 → List Byte → Option (Ctx 32) := update params256

def sha224Final : Bool → Ctx 32 → Option (List Byte) := final params256 7

/-! ### SHA-256 -/

def sha256H0 : Regs 32 :=
  #v[0x6a09e667, 0xbb67ae85, 0x3c6ef372, 0xa54ff53a,
    0x510e527f, 0x9b05688c, 0x1f83d9ab, 0x5be0cd19]

def sha256Init : Ctx 32 → Ctx 32 := init sha256H0

def sha256Update : Bool → Ctx 32 → List Byte → Option (Ctx 32) := update params256

def sha256Final : Bool → Ctx 32 → Option (List Byte) := final params256 8

/-! ### SHA-384 -/

def sha384H0 : Regs 64 :=
  #v[0xcbbb9d5dc1059ed8, 0x629a292a367cd507, 0x9159015a3070dd17, 0x152fecd8f70e5939,
    0x67332667ffc00b31, 0x8eb44a8768581511, 0xdb0c2e0d64f98fa7, 0x47b5481dbefa4fa4]

def sha384Init : Ctx 64 → Ctx 64 := init sha384H0

def sha384Update : Bool → Ctx 64 → List Byte → Option (Ctx 64) := update params512

def sha384Final : Bool → Ctx 64 → Option (List Byte) := final params512 6

/-! ### SHA-512 -/

def sha512H0 : Regs 64 :=
  #v[0x6a09e667f3bcc908, 0xbb67ae8584caa73b, 0x3c6ef372fe94f82b, 0xa54ff53a5f1d36f1,
    0x510e527fade682d1, 0x9b05688c2b3e6c1f, 0x1f83d9abfb41bd6b, 0x5be0cd19137e2179]

def sha512Init : Ctx 64 → Ctx 64 := init sha512H0

def sha512Update : Bool → Ctx 64 → List Byte → Option (Ctx 64) := update params512

def sha512Final : Bool → Ctx 64 → Option (List Byte) := final params512 8

end Rtes.Sha2Model
