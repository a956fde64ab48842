import Rtes.Checked
import Rtes.Loop
import Rtes.Stdio

/-!
`brighten.c`, from an image file to the file `brighter.ppm`.

The program has no result where it leaves one of its arrays, or exits with an error before it has
opened `brighter.ppm`. Its files are opened and written without errors; `close` is given a stream
and not a descriptor, so it closes nothing, and what was written gets to the file when the program
ends, which may be an exit with an error in `writeppm`. What the automatic variables hold before
they are set is given by `Junk`. Messages are left out.

`magic` has two bytes and `sscanf` stores three, the last of them behind the array: `spare` is
the number of bytes there in which nothing else is kept.
-/

namespace Rtes.BrightenModel

open Rtes.Bytes Rtes.Checked Rtes.CString Rtes.Loop Rtes.Stdio

/-- `640*480*3`, the size of `img` and `newimg`. -/
def imgSize : ℕ := 640 * 480 * 3

/-- What is in the variables before they are set: `magic` with the bytes behind it, `header`
from its second byte on, `col` and `row` of `readppm`, the images, and the value that `%u` stores
for a number out of range. -/
structure Junk (spare : ℕ) where
  magic : List Byte
  header : List Byte
  col : UInt32
  row : UInt32
  img : Buf
  newimg : Buf
  wide : UInt32
  length_magic : magic.length = 2 + spare
  length_header : header.length = 511

/-! ### `readppm` -/

/-- The variables of `readppm` while it reads the header. -/
structure Reader where
  filep : Stream
  aline : List Byte
  header : List Byte
  headerlen : ℤ

/-- `if((*headerlen += getline(&aline, &linelen, filep)) < 0)` with its exit. -/
def Reader.nextLine (r : Reader) : Option Reader :=
  let (nread, aline, filep) := getline r.filep r.aline
  if r.headerlen + nread < 0 then none
  else some { r with filep, aline, headerlen := r.headerlen + nread }

/-- `strcat(header, aline)`. -/
def Reader.keepLine (r : Reader) : Option Reader :=
  (strcat r.header r.aline).map fun header => { r with header }

/-- `sscanf(aline, "%u %u", &col, &row)`. -/
def scanDims {spare : ℕ} (junk : Junk spare) (aline : List Byte) : ℕ × ℕ :=
  match scanU junk.wide.toNat (cstr aline) with
  | none => (junk.col.toNat, junk.row.toNat)
  | some (col, t) =>
    match scanU junk.wide.toNat t with
    | none => (col, junk.row.toNat)
    | some (row, _) => (col, row)

structure Dims where
  channels : ℕ
  col : ℕ
  row : ℕ

/-- `*bufferlen`. -/
def Dims.bufferlen (d : Dims) : ℤ := int32 (d.row * d.col * d.channels)

/-- The size that `fread` is given. -/
def Dims.size (d : Dims) : ℕ := d.col * d.row * d.channels % 2 ^ 32

/-- The magic line, the line that is ignored, and the line with the dimensions. -/
def readDims {spare : ℕ} (junk : Junk spare) (r : Reader) : Option (Dims × Reader) := do
  let r ← r.nextLine
  let r ← r.keepLine
  let magic ← scanS (cstr r.aline) junk.magic
  let channels := if magic.take 2 = text "P6" then 3 else 1
  -- "ignore comment line or print for debug"
  let r ← r.nextLine
  let r ← r.keepLine
  let r ← r.nextLine
  let (col, row) := scanDims junk r.aline
  let r ← r.keepLine
  pure (⟨channels, col, row⟩, r)

/-- The header. `sat` is read from its last line and not used. -/
def readHeader {spare : ℕ} (junk : Junk spare) (r : Reader) : Option (Dims × Reader) := do
  let (dims, r) ← readDims junk r
  let r ← r.nextLine
  let r ← r.keepLine
  pure (dims, r)

/-- Where the loop of `readppm` is: the place in the buffer, `toread`, the buffer and the
stream. -/
structure Filling where
  buffer : ℕ
  toread : ℤ
  img : Buf
  filep : Stream

/-- Once round the loop, which ends with the buffer. -/
def readTurn (size : ℕ) (f : Filling) : Option (Filling ⊕ Buf) :=
  let (bytes, filep) := fread f.filep size
  if bytes.length = 0 then if filep.eof then some (.inr f.img) else none
  else if imgSize < f.buffer + bytes.length then none
  else
    let img := blit f.img f.buffer bytes
    let toread := f.toread - bytes.length
    if toread > 0 && !filep.eof then some (.inl ⟨f.buffer + bytes.length, toread, img, filep⟩)
    else some (.inr img)

/-- What `readppm` gives back. -/
structure Ppm where
  dims : Dims
  header : List Byte
  headerlen : ℤ
  img : Buf

def readppm {spare : ℕ} (fuel : ℕ) (junk : Junk spare) (file : List Byte) : Option Ppm := do
  let (dims, r) ← readHeader junk ⟨⟨file, false⟩, [], 0 :: junk.header, 0⟩
  let img ← iter (readTurn dims.size) fuel ⟨0, dims.bufferlen, junk.img, r.filep⟩
  pure ⟨dims, r.header, r.headerlen, img⟩

/-! ### `writeppm` -/

/-- How a loop of `writeppm`, and then the program, ends, with what is in the file. -/
inductive Outcome
  | finished (file : List Byte)
  | exited (file : List Byte)
  deriving DecidableEq

/-- Once round a loop of `writeppm` that writes `len` bytes of an array of `cap`: the place in
the array, `towrite`, and the file. -/
def writeTurn (cap : ℕ) (array : Buf) (len : ℤ) :
    ℕ × ℤ × List Byte → Option ((ℕ × ℤ × List Byte) ⊕ Outcome)
  | (place, towrite, file) =>
    -- `fwrite` returns 0, and a stream that is written has no end of file
    if len = 0 then some (.inr (.exited file))
    -- a negative length is as `size_t` more than there is
    else if len < 0 ∨ (cap : ℤ) < place + len then none
    else
      let file := file ++ slice array place len.toNat
      if towrite - len > 0 then some (.inl (place + len.toNat, towrite - len, file))
      else some (.inr (.finished file))

def writeppm (fuel : ℕ) (buffer : Buf) (bufferlen : ℤ) (header : List Byte) (headerlen : ℤ) :
    Option Outcome := do
  match ← iter (writeTurn 512 (fun k => header.getD k 0) headerlen) fuel (0, 0, []) with
  | .finished file => iter (writeTurn imgSize buffer bufferlen) fuel (0, 0, file)
  | .exited file => some (.exited file)

/-! ### `main` -/

/-- `(pix=(unsigned)((img[PIXIDX])*alpha)+beta) > SAT ? SAT : pix`, with `alpha` 1.25 and `beta`
25. The product is exact. -/
def brighter (x : Byte) : Byte :=
  let pix := 5 * x.toNat / 4 + 25
  BitVec.ofNat 8 (if pix > 255 then 255 else pix)

/-- A loop of `main`, `for(i=0; i < n; i++)` with an `int`. -/
def forInt {σ : Type*} (n : ℕ) (body : σ → ℕ → Option σ) (s : σ) : Option σ :=
  if n < 2 ^ 31 then (List.range n).foldlM body s else none

/-- The assignment to `newimg[PIXIDX]`. -/
def setPixel (d : Dims) (img : Buf) (i j : ℕ) (newimg : Buf) (k : ℕ) : Option Buf :=
  let pixidx := (i * d.col * d.channels + j * d.channels + k) % 2 ^ 32
  if pixidx < imgSize then some (Function.update newimg pixidx (brighter (img pixidx))) else none

def pixels (d : Dims) (img newimg : Buf) : Option Buf :=
  forInt d.row (fun newimg i =>
    forInt d.col (fun newimg j => forInt d.channels (setPixel d img i j) newimg) newimg) newimg

/-- The file `brighter.ppm` when the program ends. -/
def brighten {spare : ℕ} (fuel : ℕ) (junk : Junk spare) (file : List Byte) :
    Option Outcome := do
  let ppm ← readppm fuel junk file
  let newimg ← pixels ppm.dims ppm.img junk.newimg
  writeppm fuel newimg ppm.dims.bufferlen ppm.header ppm.headerlen

/-! ### Image files -/

/-- The parts of an image file, in their order. Comments are given from behind the `#` to the
end of the line. -/
structure Parts where
  colour : Bool
  comments : List (List Byte)
  cols : List Byte
  gap : List Byte
  rows : List Byte
  trail : List Byte
  maxval : List Byte
  body : List Byte

def commentLine (c : List Byte) : List Byte := text "#" ++ c ++ [newline]

namespace Parts

variable (m : Parts)

def magic : List Byte := text (if m.colour then "P6" else "P5")

def channels : ℕ := if m.colour then 3 else 1

def dims : List Byte := m.cols ++ (m.gap ++ (m.rows ++ m.trail))

def header : List Byte :=
  m.magic ++ [newline] ++ m.comments.flatMap commentLine ++ (m.dims ++ [newline]) ++
    (m.maxval ++ [newline])

def file : List Byte := m.header ++ m.body

end Parts

/-- A number in decimal. -/
def IsNumber (ds : List Byte) : Prop := ds ≠ [] ∧ ∀ b ∈ ds, isDigit b = true

/-- White space within a line. -/
def IsBlank (t : List Byte) : Prop := ∀ b ∈ t, isSpace b = true ∧ b ≠ newline

/-- A binary PGM or PPM file that the arrays of the program have room for. -/
structure Image extends Parts where
  comments_line : ∀ c ∈ comments, newline ∉ c
  cols_number : IsNumber cols
  gap_blank : gap ≠ [] ∧ IsBlank gap
  rows_number : IsNumber rows
  trail_blank : IsBlank trail
  maxval_number : IsNumber maxval
  length_body : body.length = value rows * value cols * toParts.channels
  body_le : body.length ≤ imgSize
  header_lt : toParts.header.length < 512

/-- The file that is to be written. -/
def Image.brightened (m : Image) : List Byte :=
  m.header ++ m.body.map fun x => BitVec.ofNat 8 (min 255 (⌊(1.25 : ℚ) * x.toNat⌋₊ + 25))

end Rtes.BrightenModel
