import Rtes.Bytes
import Rtes.Secded

/-!
The emulated ECC memory of `hamming-emulator/ecclib.c` and the fault injection of
`ecctest.c`.

An address is its offset into `data_memory`. The C expressions are computed in `int`; none of
their values leaves a byte before it is masked, so bytes are enough. `read_byte` takes what
its caller's buffer `*byteRead` holds and gives what it holds after. Tracing is left out, and
`print_encoded` is kept as the list of the bits it prints, which is where the encoded
positions are defined.
-/

namespace Rtes.EccModel

open Finset Rtes.Bytes Rtes.Secded
open scoped symmDiff

def noError : ℤ := 0
def pwError : ℤ := -1
def doubleBitError : ℤ := -3
def unknownError : ℤ := -4

def p01Bit : Byte := 0x01
def p02Bit : Byte := 0x02
def p03Bit : Byte := 0x04
def p04Bit : Byte := 0x08
def pwBit : Byte := 0x10
def encodedBit : Byte := 0x20
def synBits : Byte := 0x0F

/-- `data_memory` and `code_memory`, of `MEM_SIZE` bytes. -/
structure Ecc where
  dataMemory : Fin 1024 → Byte
  codeMemory : Fin 1024 → Byte

/-- The data bits `DATA_BIT_1` .. `DATA_BIT_8`, each shifted to the lowest place. -/
def dataBit (d : Byte) (k : ℕ) : Byte := (d &&& ((1 : Byte) <<< (k - 1))) >>> (k - 1)

/-- The XOR of all data bits. -/
def dataParity (d : Byte) : Byte :=
  dataBit d 1 ^^^ dataBit d 2 ^^^ dataBit d 3 ^^^ dataBit d 4 ^^^ dataBit d 5 ^^^ dataBit d 6 ^^^
    dataBit d 7 ^^^ dataBit d 8

/-- The XOR of the four check bits. -/
def checkParity (c : Byte) : Byte :=
  (c &&& p01Bit) ^^^ ((c &&& p02Bit) >>> 1) ^^^ ((c &&& p03Bit) >>> 2) ^^^ ((c &&& p04Bit) >>> 3)

/-- The code word of a data byte. -/
def codewordOf (d : Byte) : Byte :=
  let codeword := p01Bit &&&
    (dataBit d 1 ^^^ dataBit d 2 ^^^ dataBit d 4 ^^^ dataBit d 5 ^^^ dataBit d 7)
  let codeword := codeword ||| (p02Bit &&&
    ((dataBit d 1 ^^^ dataBit d 3 ^^^ dataBit d 4 ^^^ dataBit d 6 ^^^ dataBit d 7) <<< 1))
  let codeword := codeword ||| (p03Bit &&&
    ((dataBit d 2 ^^^ dataBit d 3 ^^^ dataBit d 4 ^^^ dataBit d 8) <<< 2))
  let codeword := codeword ||| (p04Bit &&&
    ((dataBit d 5 ^^^ dataBit d 6 ^^^ dataBit d 7 ^^^ dataBit d 8) <<< 3))
  let codeword := codeword ||| (pwBit &&& ((dataParity d ^^^ checkParity codeword) <<< 4))
  codeword ||| encodedBit

def getCodeword (ecc : Ecc) (offset : Fin 1024) : Byte := codewordOf (ecc.dataMemory offset)

def writeByte (ecc : Ecc) (offset : Fin 1024) (byteToWrite : Byte) : ℤ × Ecc :=
  let ecc := { ecc with dataMemory := Function.update ecc.dataMemory offset byteToWrite }
  let codeword := getCodeword ecc offset
  (noError, { ecc with codeMemory := Function.update ecc.codeMemory offset codeword })

/-- The result, what is in `*byteRead`, and the memory after. -/
def readByte (ecc : Ecc) (offset : Fin 1024) (byteRead : Byte) : ℤ × Byte × Ecc :=
  let codeword := getCodeword ecc offset
  let code := ecc.codeMemory offset
  let syn := (codeword &&& synBits) ^^^ (code &&& synBits)
  let pW := code &&& pwBit
  let pW2 := pwBit &&& ((dataParity (ecc.dataMemory offset) ^^^ checkParity code) <<< 4)
  if syn = 0 ∧ pW = pW2 then (noError, byteRead, ecc)
  else if syn = 0 ∧ pW ≠ pW2 then
    (pwError, byteRead, { ecc with
      codeMemory := Function.update ecc.codeMemory offset (code ||| (pW2 &&& pwBit)) })
  else if syn ≠ 0 ∧ pW = pW2 then (doubleBitError, byteRead, ecc)
  else if syn ≠ 0 ∧ pW ≠ pW2 then (syn.toNat, byteRead, ecc)
  else (unknownError, byteRead, ecc)

/-- Flip bit `k` of the data byte. -/
def flipData (ecc : Ecc) (offset : Fin 1024) (k : ℕ) : Ecc :=
  { ecc with dataMemory :=
      Function.update ecc.dataMemory offset (ecc.dataMemory offset ^^^ ((1 : Byte) <<< k)) }

/-- Flip bit `k` of the code byte. -/
def flipCode (ecc : Ecc) (offset : Fin 1024) (k : ℕ) : Ecc :=
  { ecc with codeMemory :=
      Function.update ecc.codeMemory offset (ecc.codeMemory offset ^^^ ((1 : Byte) <<< k)) }

def flipBit (ecc : Ecc) (offset : Fin 1024) (bitToFlip : ℕ) : Ecc :=
  match bitToFlip with
  | 0 => flipCode ecc offset 4
  | 1 => flipCode ecc offset 0
  | 2 => flipCode ecc offset 1
  | 4 => flipCode ecc offset 2
  | 8 => flipCode ecc offset 3
  | 3 => flipData ecc offset 0
  | 5 => flipData ecc offset 1
  | 6 => flipData ecc offset 2
  | 7 => flipData ecc offset 3
  | 9 => flipData ecc offset 4
  | 10 => flipData ecc offset 5
  | 11 => flipData ecc offset 6
  | 12 => flipData ecc offset 7
  | _ => ecc

/-! ### The encoded word -/

/-- The bits `print_encoded` prints: pW p1 p2 d1 p3 d2 d3 d4 p4 d5 d6 d7 d8. -/
def printEncoded (d c : Byte) : List Bool :=
  [c.getLsbD 4, c.getLsbD 0, c.getLsbD 1, d.getLsbD 0, c.getLsbD 2, d.getLsbD 1, d.getLsbD 2,
    d.getLsbD 3, c.getLsbD 3, d.getLsbD 4, d.getLsbD 5, d.getLsbD 6, d.getLsbD 7]

/-- The positions of the encoded word that hold a one. -/
def word (d c : Byte) : Finset ℕ := {q ∈ range 13 | (printEncoded d c).getD q false}

def stored (ecc : Ecc) (a : Fin 1024) : Finset ℕ := word (ecc.dataMemory a) (ecc.codeMemory a)

lemma mem_word {d c : Byte} {q : ℕ} :
    q ∈ word d c ↔ q < 13 ∧ (printEncoded d c).getD q false = true := by
  simp [word]

/-- The encoded word is additive. -/
lemma word_xor (d d' c c' : Byte) : word (d ^^^ d') (c ^^^ c') = word d c ∆ word d' c' := by
  ext q
  rw [mem_symmDiff, mem_word, mem_word, mem_word]
  rcases Nat.lt_or_ge q 13 with hq | hq
  · have hbit : (printEncoded (d ^^^ d') (c ^^^ c')).getD q false =
        ((printEncoded d c).getD q false ^^ (printEncoded d' c').getD q false) := by
      unfold printEncoded
      simp only [BitVec.getLsbD_xor]
      interval_cases q <;> rfl
    rw [hbit]
    cases (printEncoded d c).getD q false <;> cases (printEncoded d' c').getD q false <;> simp [hq]
  · simp [not_lt.mpr hq]

lemma word_split (d c : Byte) : word d c = word d 0 ∆ word 0 c := by
  rw [← word_xor]
  simp

lemma word_pw (d c : Byte) : word d (c ||| pwBit) = insert 0 (word d c) := by
  ext q
  rw [mem_insert, mem_word, mem_word]
  rcases Nat.lt_or_ge q 13 with hq | hq
  · unfold printEncoded pwBit
    simp only [BitVec.getLsbD_or]
    interval_cases q <;> simp
  · simp [not_lt.mpr hq]
    omega

/-! ### What the checks compute -/

lemma data_checks : ∀ d : Byte, syndrome (word d 0) = (codewordOf d &&& synBits).toNat ∧
    dataParity d = if Even #(word d 0) then 0 else 1 := by
  decide +kernel

lemma code_checks : ∀ c : Byte, syndrome (word 0 c) = (c &&& synBits).toNat ∧
    pwBit &&& (checkParity c <<< 4) =
      if Even #(word 0 c) then c &&& pwBit else (c &&& pwBit) ^^^ pwBit := by
  decide +kernel

/-- The `SYNDROME` of `read_byte` is the syndrome of the encoded word. -/
lemma syndrome_word (d c : Byte) :
    syndrome (word d c) = ((codewordOf d &&& synBits) ^^^ (c &&& synBits)).toNat := by
  rw [word_split, syndrome_symmDiff, (data_checks d).1, (code_checks c).1, BitVec.toNat_xor]

lemma pw_and_xor (x y : Byte) : pwBit &&& (x ^^^ y) = (pwBit &&& x) ^^^ (pwBit &&& y) := by
  ext i hi
  simp [Bool.and_xor_distrib_left]

/-- The `pW2` of `read_byte` is `pW` unless the weight of the encoded word is odd. -/
lemma pw2_word (d c : Byte) : pwBit &&& ((dataParity d ^^^ checkParity c) <<< 4) =
    if Even #(word d c) then c &&& pwBit else (c &&& pwBit) ^^^ pwBit := by
  have hdata : pwBit &&& (dataParity d <<< 4) = if Even #(word d 0) then 0 else pwBit := by
    rw [(data_checks d).2]
    split_ifs <;> rfl
  rw [BitVec.shiftLeft_xor_distrib, pw_and_xor, hdata, (code_checks c).2, word_split d c]
  simp only [even_card_symmDiff]
  by_cases hd : Even #(word d 0) <;> by_cases hc : Even #(word 0 c) <;>
    simp only [hd, hc, if_true, if_false, iff_true, iff_false, not_true]
  · exact BitVec.zero_xor
  · exact BitVec.zero_xor
  · exact BitVec.xor_comm _ _
  · rw [BitVec.xor_comm, BitVec.xor_assoc, BitVec.xor_self]
    exact BitVec.xor_zero

lemma pw_ne (c : Byte) : c &&& pwBit ≠ (c &&& pwBit) ^^^ pwBit := by
  intro h
  have h4 := congrArg (BitVec.getLsbD · 4) h
  simp [pwBit] at h4

lemma pw_or (c : Byte) : c ||| (((c &&& pwBit) ^^^ pwBit) &&& pwBit) = c ||| pwBit := by
  apply BitVec.eq_of_getLsbD_eq
  intro i _
  simp only [BitVec.getLsbD_or, BitVec.getLsbD_and, BitVec.getLsbD_xor]
  cases c.getLsbD i <;> cases pwBit.getLsbD i <;> rfl

/-- What `read_byte` returns for a verdict. -/
def code : Verdict → ℤ
  | .clean => noError
  | .parity => pwError
  | .single q => q
  | .double => doubleBitError

/-- **`read_byte` returns the verdict on the stored word**, and writes to the memory only when
the parity alone is wrong. -/
theorem readByte_eq (ecc : Ecc) (a : Fin 1024) (b : Byte) :
    readByte ecc a b = (code (verdict (stored ecc a)), b,
      if verdict (stored ecc a) = .parity then { ecc with
        codeMemory := Function.update ecc.codeMemory a (ecc.codeMemory a ||| pwBit) }
      else ecc) := by
  have hsyn : _ = syndrome (stored ecc a) := (syndrome_word _ _).symm
  have hpw : _ = if Even #(stored ecc a) then _ else _ :=
    pw2_word (ecc.dataMemory a) (ecc.codeMemory a)
  unfold readByte getCodeword verdict
  simp only [hpw]
  generalize (codewordOf (ecc.dataMemory a) &&& synBits) ^^^ (ecc.codeMemory a &&& synBits) = syn
    at hsyn ⊢
  have hzero : syn = 0#8 ↔ syndrome (stored ecc a) = 0 := by
    rw [← hsyn, ← BitVec.toNat_inj]
    rfl
  have hne := pw_ne (ecc.codeMemory a)
  by_cases h0 : syndrome (stored ecc a) = 0 <;> by_cases he : Even #(stored ecc a)
  · simp [hzero, h0, he, code]
  · simp [hzero, h0, he, code, hne, pw_or]
  · simp [hzero, h0, he, code]
  · simp [hzero, h0, he, code, hne, hsyn]

lemma readByte_code (ecc : Ecc) (a : Fin 1024) (b : Byte) :
    (readByte ecc a b).1 = code (verdict (stored ecc a)) := by
  rw [readByte_eq]

end Rtes.EccModel
