import Rtes.Bytes
import Rtes.Loop

/-!
Striping a file over five chunk files with XOR parity, and restoring it, as in
`File-RAID-PoC-Code/raidlib.c`.

The chunk files `StripeChunk1.bin` .. `StripeChunk4.bin` and `StripeChunkXOR.bin` are the
files `0` .. `4`, under the descriptors `fd[0]` .. `fd[4]`; the input and the output are other
files. They are opened with `O_RDWR | O_CREAT` and so created empty when missing and never
truncated. How many bytes a `read` or `write` moves is the kernel's choice: `xfer` gives the
count of each call from the most the call could move. `fread` comes up short only at the end
of the input, which it then records, and `fwrite` writes all it is given. The source repeats
each loop for each chunk, and the body of `restoreFile` once more for the last stripe; each
loop is one definition here, applied to the constants of each copy. `sectorCnt` is never
read, and left out, as are the calls of `printf`.
-/

namespace Rtes.RaidModel

open Rtes.Bytes Rtes.Loop

/-- The chunk files that exist. -/
abbrev Chunks := Fin 5 → Option (List Byte)

/-- Chunk files are written as numerals. -/
scoped instance neZero_five : NeZero 5 := ⟨Nat.succ_ne_zero 4⟩

/-- The bytes moved by a call, from its number and the most it could move. -/
abbrev Xfer := ℕ → ℕ → ℕ

/-- Every call moves all it can. -/
def full : Xfer := fun _ m => m

/-- `open(.., O_RDWR | O_CREAT, 00644)` on each chunk file. -/
def opened (fs : Chunks) (c : Fin 5) : List Byte := (fs c).getD []

/-- `xorLBA` on five sectors of one buffer. -/
def xorLBA (lba1 lba2 lba3 lba4 plba : ℕ) (b : Buf) : Buf :=
  (List.range 512).foldl (fun b idx => Function.update b (plba + idx)
    (b (lba1 + idx) ^^^ b (lba2 + idx) ^^^ b (lba3 + idx) ^^^ b (lba4 + idx))) b

/-- `rebuildLBA` on five sectors of one buffer. -/
def rebuildLBA (lba1 lba2 lba3 plba rlba : ℕ) (b : Buf) : Buf :=
  (List.range 512).foldl (fun b idx => Function.update b (rlba + idx)
    (b (plba + idx) ^^^ (b (lba1 + idx) ^^^ b (lba2 + idx) ^^^ b (lba3 + idx)))) b

/-! ### stripeFile -/

/-- The state of `stripeFile`: what is left of the input and whether its end was hit, the
stripe buffer, the chunk files with their positions, the count so far, and the number of
calls of `write`. -/
structure Striping where
  rest : List Byte
  eof : Bool
  stripe : Buf
  file : Fin 5 → List Byte
  pos : Fin 5 → ℕ
  byteCnt : ℤ
  calls : ℕ

/-- The `do .. while (!(feof(fdin)) && (btoread > 0))` loop, from `offset` and `btoread`; it
leaves the two as they are when it ends. -/
def fillStripe (fuel : ℕ) (s : Striping) : Option (ℕ × ℕ × Striping) :=
  iter (fun (offset, btoread, s) =>
    let got := s.rest.take btoread
    let s' := { s with
      stripe := blit s.stripe offset got
      rest := s.rest.drop btoread
      eof := s.eof || decide (got.length < btoread) }
    let r := (offset + got.length, 2048 - got.length, s')
    some (if !s'.eof && decide (r.2.1 > 0) then .inl r else .inr r)) fuel (0, 2048, s)

/-- One `do .. while (btowrite > 0)` loop: write the 512 bytes at `offset` to `fd[c]`. -/
def writeLoop (xfer : Xfer) (fuel : ℕ) (c : Fin 5) (offset : ℕ) (s : Striping) : Option Striping :=
  iter (fun (offset, s) =>
    let bwritten := xfer s.calls 512
    let s' := { s with
      file := Function.update s.file c
        (overlay (s.file c) (s.pos c) (slice s.stripe offset bwritten))
      pos := Function.update s.pos c (s.pos c + bwritten)
      calls := s.calls + 1 }
    some (if 512 - bwritten > 0 then .inl (offset + bwritten, s') else .inr s')) fuel (offset, s)

/-- The input read for a stripe is padded with zeros and counted. -/
def padStripe (offset btoread : ℕ) (s : Striping) : Option Striping :=
  if offset < 2048 ∧ s.eof then
    some { s with
      stripe := blit s.stripe offset (List.replicate btoread 0)
      byteCnt := int32 (s.byteCnt + offset) }
  else if offset = 2048 then some { s with byteCnt := int32 (s.byteCnt + 2048) }
  else none -- the `assert` fails

/-- One round of the outer loop of `stripeFile`. -/
def stripeRound (xfer : Xfer) (fuel : ℕ) (s : Striping) : Option Striping := do
  let (offset, btoread, s) ← fillStripe fuel s
  let s ← padStripe offset btoread s
  let s := { s with stripe := xorLBA 0 512 1024 1536 2048 s.stripe }
  let s ← writeLoop xfer fuel 0 0 s
  let s ← writeLoop xfer fuel 1 512 s
  let s ← writeLoop xfer fuel 2 1024 s
  let s ← writeLoop xfer fuel 3 1536 s
  writeLoop xfer fuel 4 2048 s

/-- `stripeFile` on an input file with the bytes `input`; `junk` is what the stack buffer
holds before. -/
def stripeFile (xfer : Xfer) (fuel : ℕ) (junk : Buf) (input : List Byte) (fs : Chunks) :
    Option (ℤ × Chunks) := do
  let s ← iter
    (fun s => (stripeRound xfer fuel s).map fun s' => if s'.eof then .inr s' else .inl s') fuel
    ⟨input, false, junk, opened fs, fun _ => 0, 0, 0⟩
  pure (s.byteCnt, fun c => some (s.file c))

/-! ### restoreFile -/

/-- The state of `restoreFile`: the stripe buffer, the positions in the chunk files, the
output written, and the number of calls of `read`. -/
structure Restoring where
  stripe : Buf
  pos : Fin 5 → ℕ
  out : List Byte
  calls : ℕ

/-- One `do .. while (btoread > 0)` loop: read 512 bytes of `fd[c]` to `offset`. -/
def readLoop (xfer : Xfer) (fuel : ℕ) (file : Fin 5 → List Byte) (c : Fin 5) (offset : ℕ)
    (s : Restoring) : Option Restoring :=
  iter (fun (offset, s) =>
    let avail := (file c).drop (s.pos c)
    let bread := xfer s.calls (min 512 avail.length)
    let s' := { s with
      stripe := blit s.stripe offset (avail.take bread)
      pos := Function.update s.pos c (s.pos c + bread)
      calls := s.calls + 1 }
    some (if 512 - bread > 0 then .inl (offset + bread, s') else .inr s')) fuel (offset, s)

/-- Read one chunk's part of a stripe unless that chunk is the missing one. -/
def readPart (xfer : Xfer) (fuel : ℕ) (file : Fin 5 → List Byte) (missingChunk : ℤ) (c : Fin 5)
    (offset : ℕ) (s : Restoring) : Option Restoring :=
  if missingChunk = c + 1 then some s else readLoop xfer fuel file c offset s

/-- Rebuild the missing part of a stripe from the others. -/
def rebuild (missingChunk : ℤ) (b : Buf) : Buf :=
  let b := if missingChunk = 1 then rebuildLBA 512 1024 1536 2048 0 b else b
  let b := if missingChunk = 2 then rebuildLBA 0 1024 1536 2048 512 b else b
  let b := if missingChunk = 3 then rebuildLBA 0 512 1536 2048 1024 b else b
  let b := if missingChunk = 4 then rebuildLBA 0 512 1024 2048 1536 b else b
  if missingChunk = 5 then rebuildLBA 0 512 1024 1536 2048 b else b

/-- The `fwrite` loop of `total` bytes of the stripe. A negative count is converted to a
huge `size_t` and has no defined outcome. -/
def fwriteLoop (fuel : ℕ) (total : ℤ) (s : Restoring) : Option Restoring :=
  iter (fun ((offset, btowrite, s) : ℕ × ℤ × Restoring) =>
    if btowrite < 0 then none
    else
      let s' := { s with out := s.out ++ slice s.stripe offset btowrite.toNat }
      some (if total - btowrite > 0 then .inl (offset + btowrite.toNat, total - btowrite, s')
        else .inr s')) fuel (0, total, s)

/-- Restore one stripe and write `total` bytes of it. -/
def restoreRound (xfer : Xfer) (fuel : ℕ) (file : Fin 5 → List Byte) (missingChunk total : ℤ)
    (s : Restoring) : Option Restoring := do
  let s ← readPart xfer fuel file missingChunk 0 0 s
  let s ← readPart xfer fuel file missingChunk 1 512 s
  let s ← readPart xfer fuel file missingChunk 2 1024 s
  let s ← readPart xfer fuel file missingChunk 3 1536 s
  let s ← readPart xfer fuel file missingChunk 4 2048 s
  fwriteLoop fuel total { s with stripe := rebuild missingChunk s.stripe }

/-- `restoreFile`: the value returned, the bytes of the output file, and the chunk files. -/
def restoreFile (xfer : Xfer) (fuel : ℕ) (junk : Buf) (fs : Chunks) (fileLength missingChunk : ℤ) :
    Option (ℤ × List Byte × Chunks) := do
  let stripeCnt := fileLength.tdiv 2048
  let lastStripeBytes := fileLength.tmod 2048
  let s ← (List.range stripeCnt.toNat).foldlM
    (fun s _ => restoreRound xfer fuel (opened fs) missingChunk 2048 s)
    ⟨junk, fun _ => 0, [], 0⟩
  let s ← (if lastStripeBytes ≠ 0 then
      restoreRound xfer fuel (opened fs) missingChunk lastStripeBytes s
    else pure s)
  pure (fileLength, s.out, fun c => some (opened fs c))

end Rtes.RaidModel
