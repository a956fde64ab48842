import Rtes.Bytes

/-!
`crc.c` for each of the standards of `crc.h`.

`TOPBIT`, the shifts of a byte by `WIDTH - 8` and those of the table are shifts of an `int`, so the
file is meant for a `crc` of 8 to 32 bits; CRC-32 has an `unsigned long` for it and is one of these
only where an `unsigned long` has 32 bits. The bounds are part of what a standard is here.
-/

namespace Rtes.CrcModel

open Rtes.Bytes

/-- What `crc.h` says about a standard; `w` is `WIDTH`, the number of bits in a `crc`. -/
structure Standard (w : ℕ) where
  width : 8 ≤ w ∧ w ≤ 32
  polynomial : BitVec w
  initialRemainder : BitVec w
  finalXorValue : BitVec w
  reflectData : Bool
  reflectRemainder : Bool

lemma width_16 : 8 ≤ 16 ∧ 16 ≤ 32 := by decide

lemma width_32 : 8 ≤ 32 ∧ 32 ≤ 32 := by decide

def crcCcitt : Standard 16 := ⟨width_16, 0x1021, 0xFFFF, 0x0000, false, false⟩

def crc16 : Standard 16 := ⟨width_16, 0x8005, 0x0000, 0x0000, true, true⟩

/-- For an `unsigned long` of 32 bits. -/
def crc32 : Standard 32 := ⟨width_32, 0x04C11DB7, 0xFFFFFFFF, 0xFFFFFFFF, true, true⟩

/-- One turn of the loop of `reflect`: `data` and `reflection`. -/
def reflectTurn (nBits : ℕ) (s : BitVec 32 × BitVec 32) (bit : ℕ) : BitVec 32 × BitVec 32 :=
  (s.1 >>> 1, if s.1 &&& 0x01 ≠ 0 then s.2 ||| (1 : BitVec 32) <<< (nBits - 1 - bit) else s.2)

def reflect (data : BitVec 32) (nBits : ℕ) : BitVec 32 :=
  ((List.range nBits).foldl (reflectTurn nBits) (data, 0)).2

variable {w : ℕ}

lemma Standard.pos (s : Standard w) : 0 < w := Nat.lt_of_lt_of_le (by decide) s.width.1

/-- `REFLECT_DATA(X)`. -/
def Standard.data (s : Standard w) (x : Byte) : Byte :=
  if s.reflectData then (reflect (x.setWidth 32) 8).setWidth 8 else x

/-- `REFLECT_REMAINDER(X)`. -/
def Standard.remainder (s : Standard w) (x : BitVec w) : BitVec w :=
  if s.reflectRemainder then (reflect (x.setWidth 32) w).setWidth w else x

/-- `TOPBIT`. -/
def topBit (w : ℕ) : BitVec w := 1#w <<< (w - 1)

/-- "Try to divide the current data bit." -/
def divideBit (s : Standard w) (remainder : BitVec w) : BitVec w :=
  if remainder &&& topBit w ≠ 0 then (remainder <<< 1) ^^^ s.polynomial else remainder <<< 1

/-- "Perform modulo-2 division, a bit at a time." -/
def divideByte (s : Standard w) (remainder : BitVec w) : BitVec w :=
  (List.range 8).foldl (fun r _ => divideBit s r) remainder

/-- A byte of the message in `crcSlow`. -/
def slowByte (s : Standard w) (remainder : BitVec w) (x : Byte) : BitVec w :=
  divideByte s (remainder ^^^ (s.data x).setWidth w <<< (w - 8))

def crcSlow (s : Standard w) (message : List Byte) : BitVec w :=
  s.remainder (message.foldl (slowByte s) s.initialRemainder) ^^^ s.finalXorValue

/-- `crcTable` after `crcInit`. -/
def crcInit (s : Standard w) : List (BitVec w) :=
  (List.range 256).map fun dividend => divideByte s (BitVec.ofNat w dividend <<< (w - 8))

/-- A byte of the message in `crcFast`. -/
def fastByte (s : Standard w) (crcTable : List (BitVec w)) (remainder : BitVec w) (x : Byte) :
    BitVec w :=
  let data := s.data x ^^^ (remainder >>> (w - 8)).setWidth 8
  crcTable.getD data.toNat 0 ^^^ remainder <<< 8

def crcFast (s : Standard w) (crcTable : List (BitVec w)) (message : List Byte) : BitVec w :=
  s.remainder (message.foldl (fastByte s crcTable) s.initialRemainder) ^^^ s.finalXorValue

end Rtes.CrcModel
