import Rtes.Machine

/-!
The DMA microcode that `btvid3.c` generates for the RISC engine of the Bt878, and the engine.

A word is a number or the address of an array element, kept as such: the arrays do not
overlap. The generator is the list of its stores, in order. An engine that meets an address
in place of an instruction, an opcode that is none of the four used here, or a number in
place of an address, stops.
-/

namespace Rtes.MicrocodeModel

open Rtes.Machine

/-- The arrays of microcode. -/
inductive Mc
  | dmaMicrocode
  | dmaPunyMicrocode
  | dmaLargeMicrocode
  deriving DecidableEq

/-- The arrays of frames. -/
inductive Buffer
  | frameBuffer
  | y8FrameBuffer
  | punyFrameBuffer
  deriving DecidableEq

/-- `word w`, `&mc[idx]` or `&buffer[i][j]`. -/
inductive Cell
  | word (w : BitVec 32)
  | code (mc : Mc) (idx : ℕ)
  | pixel (b : Buffer) (i j : ℕ)
  deriving DecidableEq

/-! ### Words -/

def dmaMcSync : BitVec 32 := 0x00080000
def dmaMcWrite : BitVec 32 := 0x00010000
def dmaMcSkip : BitVec 32 := 0x00020000
def dmaMcJump : BitVec 32 := 0x00B40000

def dmaMcSyncFm1Word0 : BitVec 32 := 0x80008006 ||| dmaMcSync
def dmaMcSyncWord1 : BitVec 32 := 0x00000000
def dmaMcSyncVreWord0 : BitVec 32 := 0x80008004 ||| dmaMcSync
def dmaMcSyncVroWord0Irq : BitVec 32 := 0x8100800C

def dmaMcSkip640Sol : BitVec 32 := 0x28000280 ||| dmaMcSkip
def dmaMcSkip640Eol : BitVec 32 := 0x24000280 ||| dmaMcSkip
def dmaMcSkip40Sol : BitVec 32 := 0x28000028 ||| dmaMcSkip
def dmaMcSkip40Eol : BitVec 32 := 0x24000028 ||| dmaMcSkip
def dmaMcSkip1280Sol : BitVec 32 := 0x28000500 ||| dmaMcSkip
def dmaMcSkip1280Eol : BitVec 32 := 0x24000500 ||| dmaMcSkip

def dmaMcWrite1280Line : BitVec 32 := 0x1C000500 ||| dmaMcWrite
def dmaMcWrite80Line : BitVec 32 := 0x1C000050 ||| dmaMcWrite

def dmaMcJumpToBeg : BitVec 32 := 0x70000000 ||| dmaMcJump

/-! ### The generator -/

def mcsize : ℕ := 488
def punymcsize : ℕ := 126
def lgmcsize : ℕ := 968

/-- The number of words in an array. -/
def Mc.size (numframes : ℕ) : Mc → ℕ
  | .dmaMicrocode => numframes * mcsize + 2
  | .dmaPunyMicrocode => numframes * punymcsize + 2
  | .dmaLargeMicrocode => numframes * lgmcsize + 2

/-- The number of words in one frame of an array. -/
def Buffer.width : Buffer → ℕ
  | .frameBuffer => 76800
  | .y8FrameBuffer => 19200
  | .punyFrameBuffer => 1200

abbrev Gen := List (Store Mc Cell)

/-- Stores to an element and the next. -/
def pair (mc : Mc) (idx : ℕ) (c c' : Cell) : Gen := [⟨mc, idx, c⟩, ⟨mc, idx + 1, c'⟩]

def sync (mc : Mc) (idx : ℕ) (word0 : BitVec 32) : Gen :=
  pair mc idx (.word word0) (.word dmaMcSyncWord1)

/-- `for(j=lo,k=0;j<hi;j+=2,k++)` around a line stored at `mcidx+j`. -/
def lines (mcidx lo hi : ℕ) (line : ℕ → ℕ → Gen) : Gen :=
  (List.range ((hi - lo) / 2)).flatMap fun k => line (mcidx + (lo + 2 * k)) k

/-- One frame: the odd lines at `2..oddEnd`, the even ones at `oddEnd+4..evenEnd`. -/
def frame (mc : Mc) (mcidx oddEnd evenEnd : ℕ) (odd even : ℕ → ℕ → Gen) : Gen :=
  sync mc mcidx dmaMcSyncFm1Word0 ++
    lines mcidx 2 oddEnd odd ++
    sync mc (mcidx + oddEnd) dmaMcSyncVreWord0 ++
    sync mc (mcidx + oddEnd + 2) dmaMcSyncFm1Word0 ++
    lines mcidx (oddEnd + 4) evenEnd even ++
    sync mc (mcidx + evenEnd) dmaMcSyncVroWord0Irq

/-- Frame `i` at `size * i`, and after the last frame the jump, to `dma_microcode` in every
mode. -/
def program (mc : Mc) (size numframes : ℕ) (frames : ℕ → ℕ → Gen) : Gen :=
  (List.range numframes).flatMap (fun i => frames i (size * i)) ++
    pair mc (numframes * size) (.word dmaMcJumpToBeg) (.code .dmaMicrocode 0)

/-- A line that is skipped in two halves or written. -/
def line (replaceWriteWithSkip : Bool) (sol eol write : BitVec 32) (mc : Mc) (idx : ℕ)
    (p : Cell) : Gen :=
  if replaceWriteWithSkip then pair mc idx (.word sol) (.word eol)
  else pair mc idx (.word write) p

/-- The even lines go to `dma_microcode` when they are written. -/
def frame80x60 (replaceWriteWithSkip : Bool) (i mcidx : ℕ) : Gen :=
  frame .dmaPunyMicrocode mcidx 32 66
    (fun idx k => line replaceWriteWithSkip dmaMcSkip40Sol dmaMcSkip40Eol dmaMcWrite80Line
      .dmaPunyMicrocode idx (.pixel .punyFrameBuffer i (20 + k * 40)))
    (fun idx k =>
      if replaceWriteWithSkip then
        pair .dmaPunyMicrocode idx (.word dmaMcSkip40Sol) (.word dmaMcSkip40Eol)
      else
        pair .dmaMicrocode idx (.word dmaMcWrite80Line) (.pixel .punyFrameBuffer i (0 + k * 40)))

def frame320x240Gs (replaceWriteWithSkip : Bool) (i mcidx : ℕ) : Gen :=
  frame .dmaMicrocode mcidx 242 486
    (fun idx k => line replaceWriteWithSkip dmaMcSkip40Sol dmaMcSkip40Eol dmaMcWrite80Line
      .dmaMicrocode idx (.pixel .y8FrameBuffer i (80 + k * 160)))
    (fun idx k => line replaceWriteWithSkip dmaMcSkip40Sol dmaMcSkip40Eol dmaMcWrite80Line
      .dmaMicrocode idx (.pixel .y8FrameBuffer i (0 + k * 160)))

def frame320x240 (replaceWriteWithSkip : Bool) (i mcidx : ℕ) : Gen :=
  frame .dmaMicrocode mcidx 242 486
    (fun idx k => line replaceWriteWithSkip dmaMcSkip640Sol dmaMcSkip640Eol dmaMcWrite1280Line
      .dmaMicrocode idx (.pixel .frameBuffer i (320 + k * 640)))
    (fun idx k => line replaceWriteWithSkip dmaMcSkip640Sol dmaMcSkip640Eol dmaMcWrite1280Line
      .dmaMicrocode idx (.pixel .frameBuffer i (0 + k * 640)))

/-- All lines are skipped, and they go to `dma_microcode`. -/
def frame640x480 (_ mcidx : ℕ) : Gen :=
  frame .dmaLargeMicrocode mcidx 482 966
    (fun idx _ => pair .dmaMicrocode idx (.word dmaMcSkip1280Sol) (.word dmaMcSkip1280Eol))
    (fun idx _ => pair .dmaMicrocode idx (.word dmaMcSkip1280Sol) (.word dmaMcSkip1280Eol))

/-- The values of `fsize` that are handled. -/
inductive Fsize
  | NTSC_640_X_480
  | NTSC_320_X_240
  | NTSC_80_X_60
  | NTSC_320_X_240_GS
  deriving DecidableEq

def initializeFrameMc (numframes : ℕ) (replaceWriteWithSkip : Bool) : Fsize → Gen
  | .NTSC_80_X_60 =>
    program .dmaPunyMicrocode punymcsize numframes (frame80x60 replaceWriteWithSkip)
  | .NTSC_320_X_240_GS =>
    program .dmaMicrocode mcsize numframes (frame320x240Gs replaceWriteWithSkip)
  | .NTSC_320_X_240 =>
    program .dmaMicrocode mcsize numframes (frame320x240 replaceWriteWithSkip)
  | .NTSC_640_X_480 => program .dmaLargeMicrocode lgmcsize numframes frame640x480

/-- The array whose first word `load_frame_mc` makes the start address. -/
def loadFrameMc : Fsize → Mc
  | .NTSC_320_X_240 => .dmaMicrocode
  | .NTSC_320_X_240_GS => .dmaMicrocode
  | .NTSC_80_X_60 => .dmaPunyMicrocode
  | .NTSC_640_X_480 => .dmaLargeMicrocode

/-! ### The engine -/

inductive Opcode
  | write
  | skip
  | jump
  | sync
  deriving DecidableEq

def opcode (w : BitVec 32) : Option Opcode :=
  if w >>> 28 = 1 then some .write
  else if w >>> 28 = 2 then some .skip
  else if w >>> 28 = 7 then some .jump
  else if w >>> 28 = 8 then some .sync
  else none

lemma opcode_fm1 : opcode dmaMcSyncFm1Word0 = some .sync := by decide
lemma opcode_vre : opcode dmaMcSyncVreWord0 = some .sync := by decide
lemma opcode_vro : opcode dmaMcSyncVroWord0Irq = some .sync := by decide
lemma opcode_jump : opcode dmaMcJumpToBeg = some .jump := by decide

/-- `count` bytes are written from `&b[i][j]` on, or the interrupt `RISCI` is raised. -/
inductive Event
  | write (b : Buffer) (i j count : ℕ)
  | risci
  deriving DecidableEq

/-- The bytes written, counted from the start of the array. -/
def Event.bytes : Event → List (Buffer × ℕ)
  | .write b i j count => (List.range' (4 * (b.width * i + j)) count).map fun x => (b, x)
  | .risci => []

/-- The bytes of `b[i]`. -/
def Buffer.frame (b : Buffer) (i : ℕ) : List (Buffer × ℕ) :=
  (List.range' (4 * (b.width * i)) (4 * b.width)).map fun x => (b, x)

def risci (w : BitVec 32) : List Event := if w.getLsbD 24 then [.risci] else []

/-- One instruction: what it does and the address of the next. -/
def step (mem : Mc → ℕ → Cell) : Mc × ℕ → Option (List Event × (Mc × ℕ))
  | (mc, idx) =>
    match mem mc idx with
    | .word w =>
      match opcode w, mem mc (idx + 1) with
      | some .write, .pixel b i j =>
        some (.write b i j (w &&& 0xFFF).toNat :: risci w, (mc, idx + 2))
      | some .skip, _ => some (risci w, (mc, idx + 1))
      | some .jump, .code mc' idx' => some (risci w, (mc', idx'))
      | some .sync, _ => some (risci w, (mc, idx + 2))
      | _, _ => none
    | _ => none

/-- The engine goes on to one of the next two words, or jumps. -/
lemma step_cases {mem : Mc → ℕ → Cell} {mc : Mc} {idx : ℕ} {es : List Event} {s : Mc × ℕ}
    (h : step mem (mc, idx) = some (es, s)) :
    s = (mc, idx + 1) ∨ s = (mc, idx + 2) ∨
      ∃ w mc' idx', mem mc idx = .word w ∧ opcode w = some .jump ∧
        mem mc (idx + 1) = .code mc' idx' ∧ s = (mc', idx') := by
  simp only [step] at h
  split at h
  next w hw =>
    split at h
    next => exact Or.inr (Or.inl (Prod.mk.inj (Option.some.inj h)).2.symm)
    next => exact Or.inl (Prod.mk.inj (Option.some.inj h)).2.symm
    next mc' idx' hop hnext =>
      exact Or.inr (Or.inr ⟨w, mc', idx', hw, hop, hnext,
        (Prod.mk.inj (Option.some.inj h)).2.symm⟩)
    next => exact Or.inr (Or.inl (Prod.mk.inj (Option.some.inj h)).2.symm)
    next => exact absurd h (by simp)
  next => exact absurd h (by simp)

/-- The words the engine fetches for the instruction at an address. -/
def fetched (mem : Mc → ℕ → Cell) : Mc × ℕ → List (Mc × ℕ)
  | (mc, idx) =>
    match mem mc idx with
    | .word w =>
      match opcode w with
      | some .write | some .jump | some .sync => [(mc, idx), (mc, idx + 1)]
      | _ => [(mc, idx)]
    | _ => [(mc, idx)]

end Rtes.MicrocodeModel
