import Rtes.MicrocodeModel

/-!
What the engine does with the generated microcode.

In the two modes of 320x240 the stores lay out straight-line code in `dma_microcode`, followed
by a jump to its start. In the other two modes the only jump in the mode's own array leads out
of it.
-/

namespace Rtes.MicrocodeRun

open Rtes.Machine Rtes.MicrocodeModel

/-! ### Straight-line code -/

/-- The instructions other than the jump. -/
inductive Instr
  | write (w : BitVec 32) (b : Buffer) (i j : ℕ)
  | skip (w : BitVec 32)
  | sync (w : BitVec 32)

namespace Instr

def encode : Instr → List Cell
  | write w b i j => [.word w, .pixel b i j]
  | skip w => [.word w]
  | sync w => [.word w, .word dmaMcSyncWord1]

def out : Instr → List Event
  | write w b i j => .write b i j (w &&& 0xFFF).toNat :: risci w
  | skip w => risci w
  | sync w => risci w

/-- The word has the opcode of the instruction. -/
def Valid : Instr → Prop
  | write w _ _ _ => opcode w = some .write
  | skip w => opcode w = some .skip
  | sync w => opcode w = some .sync

end Instr

variable {mem : Mc → ℕ → Cell} {mc : Mc} {b : ℕ}

/-- The engine executes the instruction it finds, and fetches no more than its words. -/
lemma exec_instr {i : Instr} (hi : i.Valid) (hmem : Holds (mem mc) b i.encode) :
    step mem (mc, b) = some (i.out, (mc, b + i.encode.length)) ∧
      ∀ l ∈ fetched mem (mc, b), l.1 = mc ∧ l.2 < b + i.encode.length := by
  cases i with
  | write w buf i j =>
    have h0 : mem mc b = .word w := hmem 0 _ rfl
    have h1 : mem mc (b + 1) = .pixel buf i j := hmem 1 _ rfl
    have hop : opcode w = some .write := hi
    simp [step, fetched, h0, h1, hop, Instr.out, Instr.encode]
  | skip w =>
    have h0 : mem mc b = .word w := hmem 0 _ rfl
    have hop : opcode w = some .skip := hi
    simp [step, fetched, h0, hop, Instr.out, Instr.encode]
  | sync w =>
    have h0 : mem mc b = .word w := hmem 0 _ rfl
    have hop : opcode w = some .sync := hi
    simp [step, fetched, h0, hop, Instr.out, Instr.encode]

/-- The engine fetches only words of `mc` that the stores have put there. -/
def FetchesStored (mc : Mc) (sts : Gen) (prior : Mc → ℕ → Cell) (s : Mc × ℕ) : Prop :=
  ∀ l ∈ fetched (after prior sts) s, l.1 = mc ∧ Written sts l.1 l.2

/-! ### The modes of 320x240 -/

/-- What the two modes differ in: the words for a line, the array of frames, and where in a
frame the odd and the even lines begin. -/
structure Mode where
  replaceWriteWithSkip : Bool
  sol : BitVec 32
  eol : BitVec 32
  write : BitVec 32
  buffer : Buffer
  odd : ℕ → ℕ
  even : ℕ → ℕ
  opcode_sol : opcode sol = some .skip
  opcode_eol : opcode eol = some .skip
  opcode_write : opcode write = some .write

namespace Mode

variable (m : Mode)

/-- The stores of the mode. -/
def gen (numframes : ℕ) : Gen :=
  program .dmaMicrocode mcsize numframes fun i mcidx =>
    frame .dmaMicrocode mcidx 242 486
      (fun idx k => line m.replaceWriteWithSkip m.sol m.eol m.write .dmaMicrocode idx
        (.pixel m.buffer i (m.odd k)))
      (fun idx k => line m.replaceWriteWithSkip m.sol m.eol m.write .dmaMicrocode idx
        (.pixel m.buffer i (m.even k)))

def lineInstrs (i j : ℕ) : List Instr :=
  if m.replaceWriteWithSkip then [.skip m.sol, .skip m.eol] else [.write m.write m.buffer i j]

/-- The 120 lines of a field of frame `i`. -/
def fieldInstrs (i : ℕ) (col : ℕ → ℕ) : List Instr :=
  (List.range 120).flatMap fun k => m.lineInstrs i (col k)

def frameInstrs (i : ℕ) : List Instr :=
  [.sync dmaMcSyncFm1Word0] ++ m.fieldInstrs i m.odd ++
    [.sync dmaMcSyncVreWord0, .sync dmaMcSyncFm1Word0] ++ m.fieldInstrs i m.even ++
    [.sync dmaMcSyncVroWord0Irq]

/-- The instructions of all frames. -/
def instrs (numframes : ℕ) : List Instr := (List.range numframes).flatMap m.frameInstrs

lemma line_eq (idx i j : ℕ) :
    line m.replaceWriteWithSkip m.sol m.eol m.write .dmaMicrocode idx (.pixel m.buffer i j) =
      emit .dmaMicrocode idx ((m.lineInstrs i j).flatMap Instr.encode) := by
  unfold line lineInstrs
  cases m.replaceWriteWithSkip <;> rfl

lemma length_line (i j : ℕ) : ((m.lineInstrs i j).flatMap Instr.encode).length = 2 := by
  unfold lineInstrs
  cases m.replaceWriteWithSkip <;> rfl

lemma encode_field (i : ℕ) (col : ℕ → ℕ) :
    (m.fieldInstrs i col).flatMap Instr.encode =
      (List.range 120).flatMap fun k => (m.lineInstrs i (col k)).flatMap Instr.encode :=
  List.flatMap_assoc

lemma length_field (i : ℕ) (col : ℕ → ℕ) :
    ((m.fieldInstrs i col).flatMap Instr.encode).length = 240 := by
  rw [encode_field, List.length_flatMap]
  simp only [length_line]
  rfl

lemma lines_eq {mcidx lo hi i : ℕ} {col : ℕ → ℕ} (h : (hi - lo) / 2 = 120) :
    lines mcidx lo hi (fun idx k => line m.replaceWriteWithSkip m.sol m.eol m.write
      .dmaMicrocode idx (.pixel m.buffer i (col k))) =
    emit .dmaMicrocode (mcidx + lo) ((m.fieldInstrs i col).flatMap Instr.encode) := by
  rw [encode_field, emit_flatMap_range fun k => m.length_line i (col k)]
  simp only [lines, line_eq, h, Nat.add_assoc]

lemma frame_eq (mcidx i : ℕ) :
    frame .dmaMicrocode mcidx 242 486
      (fun idx k => line m.replaceWriteWithSkip m.sol m.eol m.write .dmaMicrocode idx
        (.pixel m.buffer i (m.odd k)))
      (fun idx k => line m.replaceWriteWithSkip m.sol m.eol m.write .dmaMicrocode idx
        (.pixel m.buffer i (m.even k))) =
    emit .dmaMicrocode mcidx ((m.frameInstrs i).flatMap Instr.encode) := by
  have hsync : ∀ idx w, sync .dmaMicrocode idx w =
      emit .dmaMicrocode idx ([Instr.sync w].flatMap Instr.encode) := fun _ _ => rfl
  have hcons : [Instr.sync dmaMcSyncVreWord0, .sync dmaMcSyncFm1Word0] =
      [.sync dmaMcSyncVreWord0] ++ [.sync dmaMcSyncFm1Word0] := rfl
  have hlen : ∀ w, ([Instr.sync w].flatMap Instr.encode).length = 2 := fun _ => rfl
  unfold frame frameInstrs
  rw [m.lines_eq rfl, m.lines_eq rfl, hcons]
  simp only [hsync, List.flatMap_append, emit_append, hlen, length_field, Nat.add_assoc,
    Nat.reduceAdd, List.append_assoc]

lemma length_frame (i : ℕ) : ((m.frameInstrs i).flatMap Instr.encode).length = 488 := by
  simp only [frameInstrs, List.flatMap_append, List.length_append, length_field]
  rfl

lemma encode_instrs (numframes : ℕ) :
    (m.instrs numframes).flatMap Instr.encode =
      (List.range numframes).flatMap fun i => (m.frameInstrs i).flatMap Instr.encode :=
  List.flatMap_assoc

lemma length_instrs (numframes : ℕ) :
    ((m.instrs numframes).flatMap Instr.encode).length = numframes * 488 := by
  rw [encode_instrs, List.length_flatMap]
  simp only [length_frame]
  simp

/-- **The layout**: the stores put down the frames one after the other and then the jump. -/
lemma gen_eq (numframes : ℕ) :
    m.gen numframes = emit .dmaMicrocode 0 ((m.instrs numframes).flatMap Instr.encode ++
      [.word dmaMcJumpToBeg, .code .dmaMicrocode 0]) := by
  rw [emit_append, length_instrs, encode_instrs, emit_flatMap_range m.length_frame]
  simp only [gen, program, frame_eq, Nat.zero_add]
  rfl

lemma valid_line {i j : ℕ} {c : Instr} (hc : c ∈ m.lineInstrs i j) : c.Valid := by
  unfold lineInstrs at hc
  split_ifs at hc
  · simp only [List.mem_cons, List.not_mem_nil, or_false] at hc
    rcases hc with rfl | rfl
    · exact m.opcode_sol
    · exact m.opcode_eol
  · obtain rfl := List.mem_singleton.mp hc
    exact m.opcode_write

lemma valid_field {i : ℕ} {col : ℕ → ℕ} {c : Instr} (hc : c ∈ m.fieldInstrs i col) :
    c.Valid := by
  obtain ⟨k, -, hk⟩ := List.mem_flatMap.mp hc
  exact m.valid_line hk

lemma valid_instrs {numframes : ℕ} {c : Instr} (hc : c ∈ m.instrs numframes) : c.Valid := by
  obtain ⟨i, -, hi⟩ := List.mem_flatMap.mp hc
  simp only [frameInstrs, List.mem_append, List.mem_cons, List.not_mem_nil, or_false] at hi
  rcases hi with (((rfl | hi) | rfl | rfl) | hi) | rfl
  · exact opcode_fm1
  · exact m.valid_field hi
  · exact opcode_vre
  · exact opcode_fm1
  · exact m.valid_field hi
  · exact opcode_vro

/-- **The run**: the engine executes the frames in order and jumps back, and fetches only
words that were stored for it. -/
lemma path (numframes : ℕ) (prior : Mc → ℕ → Cell) :
    ∃ n > 0, Path (step (after prior (m.gen numframes)))
      (FetchesStored .dmaMicrocode (m.gen numframes) prior)
      n (.dmaMicrocode, 0) ((m.instrs numframes).flatMap Instr.out) (.dmaMicrocode, 0) := by
  rw [m.gen_eq]
  set code := (m.instrs numframes).flatMap Instr.encode
  set cs := code ++ [Cell.word dmaMcJumpToBeg, Cell.code .dmaMicrocode 0]
  have hlen : cs.length = code.length + 2 := by simp [cs]
  obtain ⟨hcode, hjump⟩ := holds_append.mp (holds_emit prior .dmaMicrocode 0 cs)
  have hexec : ∀ i ∈ m.instrs numframes, ∀ b,
      Holds (after prior (emit Mc.dmaMicrocode 0 cs) .dmaMicrocode) b i.encode →
      b + i.encode.length ≤ code.length →
      FetchesStored .dmaMicrocode (emit .dmaMicrocode 0 cs) prior (.dmaMicrocode, b) ∧
      step (after prior (emit .dmaMicrocode 0 cs)) (.dmaMicrocode, b) =
        some (i.out, (.dmaMicrocode, b + i.encode.length)) := by
    intro i hi b hb hle
    obtain ⟨hstep, hfetched⟩ := exec_instr (m.valid_instrs hi) hb
    refine ⟨fun l hl => ?_, hstep⟩
    obtain ⟨hmc, hlt⟩ := hfetched l hl
    refine ⟨hmc, ?_⟩
    rw [hmc]
    exact written_emit.mpr (by omega)
  have hline := Path.line (fun x => (Mc.dmaMicrocode, x)) hexec hcode (Nat.zero_add _).le
  -- the two words after the frames
  have h0 := hjump 0 _ rfl
  have h1 := hjump 1 _ rfl
  rw [Nat.add_zero] at h0
  have hback : step (after prior (emit .dmaMicrocode 0 cs)) (.dmaMicrocode, 0 + code.length) =
      some ([], (.dmaMicrocode, 0)) := by
    simp only [step, h0, h1, opcode_jump]
    rfl
  have hstored : FetchesStored .dmaMicrocode (emit .dmaMicrocode 0 cs) prior
      (.dmaMicrocode, 0 + code.length) := by
    intro l hl
    simp only [fetched, h0, opcode_jump, List.mem_cons, List.not_mem_nil, or_false] at hl
    rcases hl with rfl | rfl
    · exact ⟨rfl, written_emit.mpr (by omega)⟩
    · exact ⟨rfl, written_emit.mpr (by omega)⟩
  have hpath := hline.append (.cons hstored hback (.nil _))
  rw [List.append_nil, List.append_nil] at hpath
  exact ⟨_, by omega, hpath⟩

end Mode

def rgb (replaceWriteWithSkip : Bool) : Mode where
  replaceWriteWithSkip
  sol := dmaMcSkip640Sol
  eol := dmaMcSkip640Eol
  write := dmaMcWrite1280Line
  buffer := .frameBuffer
  odd := fun k => 320 + k * 640
  even := fun k => 0 + k * 640
  opcode_sol := by decide
  opcode_eol := by decide
  opcode_write := by decide

def gs (replaceWriteWithSkip : Bool) : Mode where
  replaceWriteWithSkip
  sol := dmaMcSkip40Sol
  eol := dmaMcSkip40Eol
  write := dmaMcWrite80Line
  buffer := .y8FrameBuffer
  odd := fun k => 80 + k * 160
  even := fun k => 0 + k * 160
  opcode_sol := by decide
  opcode_eol := by decide
  opcode_write := by decide

lemma gen_rgb (numframes : ℕ) (skip : Bool) :
    initializeFrameMc numframes skip .NTSC_320_X_240 = (rgb skip).gen numframes := rfl

lemma gen_gs (numframes : ℕ) (skip : Bool) :
    initializeFrameMc numframes skip .NTSC_320_X_240_GS = (gs skip).gen numframes := rfl

lemma Mode.bounds (m : Mode) {numframes : ℕ} {st : Store Mc Cell} (hst : st ∈ m.gen numframes) :
    st.array = .dmaMicrocode ∧ st.idx < Mc.size numframes .dmaMicrocode := by
  rw [m.gen_eq] at hst
  obtain ⟨k, ha, hx, hc⟩ := mem_emit.mp hst
  have hk := (List.getElem?_eq_some_iff.mp hc).1
  rw [List.length_append, m.length_instrs] at hk
  refine ⟨ha, ?_⟩
  simp only [Mc.size, mcsize, List.length_cons, List.length_nil] at hk ⊢
  omega

/-! ### The picture -/

/-- The lines of a field of frame `i`. -/
def field (i : ℕ) (col : ℕ → ℕ) : List Event :=
  (List.range 120).map fun k => .write .frameBuffer i (col k) 1280

lemma out_field (i : ℕ) (col : ℕ → ℕ) :
    ((rgb false).fieldInstrs i col).flatMap Instr.out = field i col := by
  have hline : ∀ j, ((rgb false).lineInstrs i j).flatMap Instr.out =
      [.write .frameBuffer i j 1280] := fun _ => rfl
  rw [Mode.fieldInstrs, List.flatMap_assoc]
  simp only [hline, field, List.map_eq_flatMap]

lemma out_frame (i : ℕ) :
    ((rgb false).frameInstrs i).flatMap Instr.out =
      (field i (rgb false).odd ++ field i (rgb false).even) ++ [.risci] := by
  have hfm1 : Instr.out (.sync dmaMcSyncFm1Word0) = [] := by decide
  have hvre : Instr.out (.sync dmaMcSyncVreWord0) = [] := by decide
  have hvro : Instr.out (.sync dmaMcSyncVroWord0Irq) = [.risci] := by decide
  simp only [Mode.frameInstrs, List.flatMap_append, out_field, List.flatMap_cons,
    List.flatMap_nil, hfm1, hvre, hvro, List.nil_append, List.append_nil]

lemma flatMap_range' (base len n : ℕ) :
    (List.range n).flatMap (fun k => List.range' (base + len * k) len) =
      List.range' base (len * n) := by
  induction n with
  | zero => simp
  | succ n ih =>
    rw [List.range_succ, List.flatMap_append, ih, List.flatMap_singleton, Nat.mul_succ,
      List.range'_append_1]

lemma bytes_field (i : ℕ) (col : ℕ → ℕ) :
    (field i col).flatMap Event.bytes =
      ((List.range 120).flatMap fun k => List.range' (4 * (76800 * i + col k)) 1280).map
        fun x => (Buffer.frameBuffer, x) := by
  rw [List.map_flatMap, field, List.flatMap_map]
  rfl

/-- An even line and the odd one below it. -/
lemma two_lines (i k : ℕ) :
    List.range' (4 * (76800 * i + (rgb false).even k)) 1280 ++
      List.range' (4 * (76800 * i + (rgb false).odd k)) 1280 =
    List.range' (4 * (76800 * i) + 2560 * k) 2560 := by
  have heven : 4 * (76800 * i + (rgb false).even k) = 4 * (76800 * i) + 2560 * k := by
    simp only [rgb]
    omega
  have hodd : 4 * (76800 * i + (rgb false).odd k) = 4 * (76800 * i) + 2560 * k + 1280 := by
    simp only [rgb]
    omega
  rw [heven, hodd, List.range'_append_1]

/-- **The two fields of a frame tile it.** -/
lemma fields_perm (i : ℕ) :
    ((field i (rgb false).odd ++ field i (rgb false).even).flatMap Event.bytes).Perm
      (Buffer.frame .frameBuffer i) := by
  rw [List.flatMap_append, bytes_field, bytes_field, ← List.map_append]
  refine List.Perm.map _ ?_
  refine List.perm_append_comm.trans ((List.flatMap_append_perm _ _ _).trans ?_)
  simp only [two_lines, flatMap_range']
  rfl

/-- **320x240 in colour.** The generated program writes every byte of the frames, frame by
frame and each byte once, raises one interrupt after each frame, and jumps back; the generator
keeps inside `dma_microcode`. -/
theorem frame_mc_320x240 (numframes : ℕ) (prior : Mc → ℕ → Cell) :
    (∀ st ∈ initializeFrameMc numframes false .NTSC_320_X_240,
      st.array = .dmaMicrocode ∧ st.idx < Mc.size numframes .dmaMicrocode) ∧
    ∃ n > 0, ∃ writes : ℕ → List Event,
      Path (step (after prior (initializeFrameMc numframes false .NTSC_320_X_240)))
        (fun _ => True) n (.dmaMicrocode, 0)
        ((List.range numframes).flatMap fun i => writes i ++ [.risci]) (.dmaMicrocode, 0) ∧
      ∀ i, .risci ∉ writes i ∧
        ((writes i).flatMap Event.bytes).Perm (Buffer.frame .frameBuffer i) := by
  rw [gen_rgb]
  refine ⟨fun st hst => (rgb false).bounds hst, ?_⟩
  obtain ⟨n, hn, hpath⟩ := (rgb false).path numframes prior
  refine ⟨n, hn, fun i => field i (rgb false).odd ++ field i (rgb false).even, ?_,
    fun i => ⟨?_, fields_perm i⟩⟩
  · have hout : ((rgb false).instrs numframes).flatMap Instr.out =
        (List.range numframes).flatMap fun i =>
          (field i (rgb false).odd ++ field i (rgb false).even) ++ [.risci] := by
      rw [Mode.instrs, List.flatMap_assoc]
      simp only [out_frame]
    rw [← hout]
    exact hpath.mono fun _ _ => trivial
  · simp [field]

/-! ### All modes -/

/-- The program of a mode is closed: the generator keeps inside its arrays, and the engine,
started where `load_frame_mc` says, fetches only words of that array that were stored by this
call and comes back to its first word. -/
def Closed (numframes : ℕ) (skip : Bool) (fsize : Fsize) (prior : Mc → ℕ → Cell) : Prop :=
  (∀ st ∈ initializeFrameMc numframes skip fsize, st.idx < st.array.size numframes) ∧
  ∃ n > 0, ∃ es,
    Path (step (after prior (initializeFrameMc numframes skip fsize)))
      (FetchesStored (loadFrameMc fsize) (initializeFrameMc numframes skip fsize) prior)
      n (loadFrameMc fsize, 0) es (loadFrameMc fsize, 0)

lemma Mode.closed (m : Mode) {numframes : ℕ} {skip : Bool} {fsize : Fsize}
    (hgen : initializeFrameMc numframes skip fsize = m.gen numframes)
    (hload : loadFrameMc fsize = .dmaMicrocode) (prior : Mc → ℕ → Cell) :
    Closed numframes skip fsize prior := by
  unfold Closed
  rw [hgen, hload]
  refine ⟨fun st hst => ?_, ?_⟩
  · obtain ⟨ha, hx⟩ := m.bounds hst
    rwa [ha]
  · obtain ⟨n, hn, hpath⟩ := m.path numframes prior
    exact ⟨n, hn, _, hpath⟩

/-- A cell that the engine would take for a jump. -/
def IsJump (c : Cell) : Prop := ∃ w, c = .word w ∧ opcode w = some .jump

/-- The stores put down no jump and stay below `bound`. -/
def NoJump (sts : Gen) (bound : ℕ) : Prop :=
  ∀ st ∈ sts, ¬ IsJump st.cell ∧ st.idx < bound

lemma NoJump.append {g h : Gen} {bound : ℕ} (hg : NoJump g bound) (hh : NoJump h bound) :
    NoJump (g ++ h) bound := by
  intro st hst
  rcases List.mem_append.mp hst with hst | hst
  · exact hg st hst
  · exact hh st hst

lemma noJump_pair {mc : Mc} {idx bound : ℕ} {c c' : Cell} (hc : ¬ IsJump c) (hc' : ¬ IsJump c')
    (h : idx + 1 < bound) : NoJump (pair mc idx c c') bound := by
  intro st hst
  simp only [pair, List.mem_cons, List.not_mem_nil, or_false] at hst
  rcases hst with rfl | rfl
  · exact ⟨hc, by dsimp only; omega⟩
  · exact ⟨hc', h⟩

lemma not_isJump_pixel (b : Buffer) (i j : ℕ) : ¬ IsJump (.pixel b i j) := by
  rintro ⟨w, hw, -⟩
  cases hw

lemma not_isJump_word {w : BitVec 32} (h : opcode w ≠ some .jump) : ¬ IsJump (.word w) := by
  rintro ⟨w', hw, hop⟩
  cases hw
  exact h hop

lemma noJump_lines {mcidx lo hi bound : ℕ} {line : ℕ → ℕ → Gen} (hb : mcidx + hi ≤ bound)
    (hline : ∀ idx k, idx + 1 < bound → NoJump (line idx k) bound) :
    NoJump (lines mcidx lo hi line) bound := by
  intro st hst
  obtain ⟨k, hk, hst⟩ := List.mem_flatMap.mp hst
  rw [List.mem_range] at hk
  exact hline _ k (by omega) st hst

lemma noJump_frame {mc : Mc} {mcidx oddEnd evenEnd bound : ℕ} {odd even : ℕ → ℕ → Gen}
    (h : oddEnd + 4 ≤ evenEnd) (hb : mcidx + evenEnd + 2 ≤ bound)
    (hodd : ∀ idx k, idx + 1 < bound → NoJump (odd idx k) bound)
    (heven : ∀ idx k, idx + 1 < bound → NoJump (even idx k) bound) :
    NoJump (frame mc mcidx oddEnd evenEnd odd even) bound := by
  have hsync : ∀ idx w, opcode w = some .sync → idx + 1 < bound →
      NoJump (sync mc idx w) bound := fun idx w hw hidx =>
    noJump_pair (not_isJump_word (by simp [hw])) (not_isJump_word (by decide)) hidx
  unfold frame
  refine ((((NoJump.append ?_ ?_).append ?_).append ?_).append ?_).append ?_
  · exact hsync _ _ opcode_fm1 (by omega)
  · exact noJump_lines (by omega) hodd
  · exact hsync _ _ opcode_vre (by omega)
  · exact hsync _ _ opcode_fm1 (by omega)
  · exact noJump_lines (by omega) heven
  · exact hsync _ _ opcode_vro (by omega)

lemma mem_program {mc : Mc} {size numframes : ℕ} {frames : ℕ → ℕ → Gen} {st : Store Mc Cell} :
    st ∈ program mc size numframes frames ↔
      (∃ i < numframes, st ∈ frames i (size * i)) ∨
        st = ⟨mc, numframes * size, .word dmaMcJumpToBeg⟩ ∨
        st = ⟨mc, numframes * size + 1, .code .dmaMicrocode 0⟩ := by
  simp [program, pair]

/-- If the frames have no jump, the only jump among the words stored leads to
`dma_microcode`. -/
lemma jump_target {mc : Mc} {size numframes : ℕ} {frames : ℕ → ℕ → Gen}
    (hframes : ∀ i < numframes, NoJump (frames i (size * i)) (numframes * size))
    {prior : Mc → ℕ → Cell} {mc₁ mc' : Mc} {idx idx' : ℕ} {w : BitVec 32}
    (hw₀ : Written (program mc size numframes frames) mc₁ idx)
    (hw₁ : Written (program mc size numframes frames) mc₁ (idx + 1))
    (hw : after prior (program mc size numframes frames) mc₁ idx = .word w)
    (hop : opcode w = some .jump)
    (hnext : after prior (program mc size numframes frames) mc₁ (idx + 1) = .code mc' idx') :
    mc' = .dmaMicrocode := by
  obtain ⟨st, hst, -, hidx, hcell⟩ := hw₀.exists_store prior
  obtain ⟨st', hst', -, hidx', hcell'⟩ := hw₁.exists_store prior
  have hjump : IsJump st.cell := ⟨w, hcell.symm.trans hw, hop⟩
  rcases mem_program.mp hst with ⟨i, hi, hmem⟩ | rfl | rfl
  · exact absurd hjump (hframes i hi st hmem).1
  · -- the word behind the jump is beyond the frames
    rcases mem_program.mp hst' with ⟨i, hi, hmem⟩ | rfl | rfl
    · have := (hframes i hi st' hmem).2
      dsimp only at hidx hidx'
      omega
    · dsimp only at hidx hidx'
      omega
    · have htarget := hnext.symm.trans hcell'
      simp only [Cell.code.injEq] at htarget
      exact htarget.1
  · obtain ⟨w', hw', -⟩ := hjump
    cases hw'

/-- A program whose frames have no jump leaves its array if that is not `dma_microcode`. -/
lemma not_path {mc : Mc} (hmc : mc ≠ .dmaMicrocode) {size numframes : ℕ} {frames : ℕ → ℕ → Gen}
    (hframes : ∀ i < numframes, NoJump (frames i (size * i)) (numframes * size))
    {prior : Mc → ℕ → Cell} {n : ℕ} (hn : 0 < n) {es : List Event} :
    ¬ Path (step (after prior (program mc size numframes frames)))
      (FetchesStored mc (program mc size numframes frames) prior) n (mc, 0) es (mc, 0) := by
  intro hpath
  have hleave : (mc, 0).1 ≠ mc ∨ 0 < (mc, 0).2 := by
    refine hpath.last (Q := fun s => s.1 ≠ mc ∨ 0 < s.2) ?_ hn
    rintro ⟨mc₁, idx⟩ e s' hP hs
    rcases step_cases hs with rfl | rfl | ⟨w, mc', idx', hw, hop, hnext, rfl⟩
    · exact Or.inr (Nat.succ_pos _)
    · exact Or.inr (Nat.succ_pos _)
    · refine Or.inl ?_
      have hf : fetched (after prior (program mc size numframes frames)) (mc₁, idx) =
          [(mc₁, idx), (mc₁, idx + 1)] := by simp [fetched, hw, hop]
      obtain ⟨-, hw₀⟩ := hP (mc₁, idx) (by simp [hf])
      obtain ⟨-, hw₁⟩ := hP (mc₁, idx + 1) (by simp [hf])
      rw [jump_target hframes hw₀ hw₁ hw hop hnext]
      exact hmc.symm
  rcases hleave with h | h
  · exact h rfl
  · exact absurd h (lt_irrefl 0)

lemma not_closed {numframes size : ℕ} {skip : Bool} {fsize : Fsize} {frames : ℕ → ℕ → Gen}
    {mc : Mc} (hgen : initializeFrameMc numframes skip fsize = program mc size numframes frames)
    (hload : loadFrameMc fsize = mc) (hmc : mc ≠ .dmaMicrocode)
    (hframes : ∀ i < numframes, NoJump (frames i (size * i)) (numframes * size))
    (prior : Mc → ℕ → Cell) : ¬ Closed numframes skip fsize prior := by
  rintro ⟨-, n, hn, es, hpath⟩
  rw [hgen, hload] at hpath
  exact not_path hmc hframes hn hpath

lemma frame_le {i numframes : ℕ} (hi : i < numframes) (size : ℕ) :
    size * i + size ≤ numframes * size := by
  have := Nat.mul_le_mul_right size (Nat.succ_le_of_lt hi)
  rw [Nat.succ_mul, Nat.mul_comm i] at this
  exact this

lemma not_closed_80x60 (numframes : ℕ) (skip : Bool) (prior : Mc → ℕ → Cell) :
    ¬ Closed numframes skip .NTSC_80_X_60 prior := by
  have hgen : initializeFrameMc numframes skip .NTSC_80_X_60 =
      program .dmaPunyMicrocode punymcsize numframes (frame80x60 skip) := rfl
  refine not_closed hgen rfl (by decide) (fun i hi => ?_) prior
  have hle : 126 * i + 126 ≤ numframes * 126 := frame_le hi 126
  have hskip : ∀ (mc : Mc) (idx : ℕ), idx + 1 < numframes * punymcsize →
      NoJump (pair mc idx (.word dmaMcSkip40Sol) (.word dmaMcSkip40Eol))
        (numframes * punymcsize) := fun mc idx =>
    noJump_pair (not_isJump_word (by decide)) (not_isJump_word (by decide))
  have hwrite : ∀ (mc : Mc) (idx j : ℕ), idx + 1 < numframes * punymcsize →
      NoJump (pair mc idx (.word dmaMcWrite80Line) (.pixel .punyFrameBuffer i j))
        (numframes * punymcsize) := fun mc idx j =>
    noJump_pair (not_isJump_word (by decide)) (not_isJump_pixel _ _ _)
  refine noJump_frame (by decide) (by simp only [punymcsize]; omega) ?_ ?_
  · intro idx k hidx
    cases skip
    · exact hwrite _ _ _ hidx
    · exact hskip _ _ hidx
  · intro idx k hidx
    cases skip
    · exact hwrite _ _ _ hidx
    · exact hskip _ _ hidx

lemma not_closed_640x480 (numframes : ℕ) (skip : Bool) (prior : Mc → ℕ → Cell) :
    ¬ Closed numframes skip .NTSC_640_X_480 prior := by
  have hgen : initializeFrameMc numframes skip .NTSC_640_X_480 =
      program .dmaLargeMicrocode lgmcsize numframes frame640x480 := rfl
  refine not_closed hgen rfl (by decide) (fun i hi => ?_) prior
  have hle : 968 * i + 968 ≤ numframes * 968 := frame_le hi 968
  have hskip : ∀ idx k : ℕ, idx + 1 < numframes * lgmcsize →
      NoJump (pair .dmaMicrocode idx (.word dmaMcSkip1280Sol) (.word dmaMcSkip1280Eol))
        (numframes * lgmcsize) := fun idx k =>
    noJump_pair (not_isJump_word (by decide)) (not_isJump_word (by decide))
  exact noJump_frame (by decide) (by simp only [lgmcsize]; omega) hskip hskip

/-- **Closed programs**: the programs of the two modes of 320x240 are closed, the others are
not, whatever the number of frames. -/
theorem closed_iff (numframes : ℕ) (skip : Bool) (fsize : Fsize) (prior : Mc → ℕ → Cell) :
    Closed numframes skip fsize prior ↔
      fsize = .NTSC_320_X_240 ∨ fsize = .NTSC_320_X_240_GS := by
  cases fsize with
  | NTSC_320_X_240 => simpa using (rgb skip).closed (gen_rgb numframes skip) rfl prior
  | NTSC_320_X_240_GS => simpa using (gs skip).closed (gen_gs numframes skip) rfl prior
  | NTSC_80_X_60 => simpa using not_closed_80x60 numframes skip prior
  | NTSC_640_X_480 => simpa using not_closed_640x480 numframes skip prior

/-- With `NUMFRAMES` 2: in the mode 80x60 no word 36 is stored and the jump leads to
`dma_microcode`, in the mode 640x480 a line is stored behind the end of `dma_microcode`. -/
theorem not_closed_two_frames :
    ¬ Closed 2 false .NTSC_80_X_60 (fun _ _ => .word 0) ∧
      ¬ Written (initializeFrameMc 2 false .NTSC_80_X_60) .dmaPunyMicrocode 36 ∧
      ⟨.dmaPunyMicrocode, 253, .code .dmaMicrocode 0⟩ ∈ initializeFrameMc 2 false .NTSC_80_X_60 ∧
      ¬ Closed 2 false .NTSC_640_X_480 (fun _ _ => .word 0) ∧
      ∃ st ∈ initializeFrameMc 2 false .NTSC_640_X_480, ¬ st.idx < st.array.size 2 := by
  refine ⟨not_closed_80x60 2 false _, ?_, ?_, not_closed_640x480 2 false _, ?_⟩
  · unfold Written
    decide +kernel
  · exact mem_program.mpr (Or.inr (Or.inr rfl))
  · decide +kernel

end Rtes.MicrocodeRun
