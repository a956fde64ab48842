import Rtes.CaptureColor
import Rtes.CaptureNames
import Rtes.Loop

/-!
How `process_image` of `sequencer_generic/capturelib.c` expands a frame into the scratchpad, and
how much of it `save_image` dumps.

A YUYV frame has two pixels in four bytes, which share their chroma. The build for colour makes
six bytes of them and the one for gray makes two; it is one loop, with the bytes of a group as
its parameter. Reading past the frame, or writing past the scratchpad, has no result.
-/

namespace Rtes.CaptureImage

open Rtes.Bytes Rtes.Loop Rtes.CaptureColor

def MAX_HRES : ℕ := 1920
def MAX_VRES : ℕ := 1080
def MAX_PIXEL_SIZE : ℕ := 3

inductive PixelFormat
  | grey
  | yuyv
  | rgb24
  | other

/-- `COLOR_CONVERT_RGB` or `COLOR_CONVERT_GRAY`. -/
inductive Build
  | rgb
  | gray

structure State where
  scratchpad : Buf
  processFramecnt : ℤ

/-- Store bytes in the scratchpad. -/
def store (b : Buf) (off : ℕ) (bs : List Byte) : Option Buf :=
  if off + bs.length ≤ MAX_HRES * MAX_VRES * MAX_PIXEL_SIZE then some (blit b off bs) else none

/-- The variables of the loop, and the scratchpad. -/
structure Expand where
  i : ℕ
  newi : ℕ
  scratchpad : Buf

/-- Once round the loop, which takes four bytes of the frame and stores `group` of them. -/
def expandTurn (w : ℕ) (group : Byte → Byte → Byte → Byte → List Byte) (frame : List Byte)
    (s : Expand) : Option (Expand ⊕ Buf) :=
  if s.i < frame.length then do
    let y ← frame[s.i]?
    let u ← frame[s.i + 1]?
    let y2 ← frame[s.i + 2]?
    let v ← frame[s.i + 3]?
    let b ← store s.scratchpad s.newi (group y u y2 v)
    some (.inl ⟨s.i + 4, s.newi + w, b⟩)
  else some (.inr s.scratchpad)

def expand (w : ℕ) (group : Byte → Byte → Byte → Byte → List Byte) (fuel : ℕ) (frame : List Byte)
    (b : Buf) : Option Buf :=
  iter (expandTurn w group frame) fuel ⟨0, 0, b⟩

/-- Two pixels, by the conversion `convert`. -/
def rgbGroup (convert : Byte → Byte → Byte → Rgb) (y u y2 v : Byte) : List Byte :=
  let p := convert y u v
  let p2 := convert y2 u v
  [p.r, p.g, p.b, p2.r, p2.g, p2.b]

def grayGroup (y _u y2 _v : Byte) : List Byte := [y, y2]

/-- The loop of the build, with `convert` for `yuv2rgb`. -/
def Build.expand (convert : Byte → Byte → Byte → Rgb) : Build → ℕ → List Byte → Buf → Option Buf
  | .rgb => CaptureImage.expand 6 (rgbGroup convert)
  | .gray => CaptureImage.expand 2 grayGroup

def processImageWith (convert : Byte → Byte → Byte → Rgb) (fuel : ℕ) (build : Build)
    (fmt : PixelFormat) (frame : List Byte) (s : State) : Option State :=
  let s := { s with processFramecnt := int32 (s.processFramecnt + 1) }
  match fmt with
  | .yuyv => (build.expand convert fuel frame s.scratchpad).map fun b => { s with scratchpad := b }
  | .grey | .rgb24 | .other => some s

def processImage : ℕ → Build → PixelFormat → List Byte → State → Option State :=
  processImageWith yuv2rgb

/-- A call of `dump_ppm` or `dump_pgm`. -/
structure Dump where
  format : CaptureNames.Format
  size : ℕ
  tag : ℤ

/-- What `save_image` returns and dumps, for a frame of `size` bytes. -/
def saveImage (build : Build) (fmt : PixelFormat) (size : ℕ) (saveFramecnt processFramecnt : ℤ) :
    ℤ × Option Dump :=
  let saveFramecnt := int32 (saveFramecnt + 1)
  let dump :=
    match fmt with
    | .grey => some ⟨.pgm, size, saveFramecnt⟩
    | .yuyv =>
      if saveFramecnt > 0 then
        match build with
        | .rgb => some ⟨.ppm, size * 6 / 4, saveFramecnt⟩
        | .gray => some ⟨.pgm, size / 2, processFramecnt⟩
      else none
    | .rgb24 => some ⟨.ppm, size, processFramecnt⟩
    | .other => none
  (saveFramecnt, dump)

/-! ### The loop -/

section Expand

variable {w : ℕ} {group : Byte → Byte → Byte → Byte → List Byte} {frame : List Byte} {b : Buf}

/-- The bytes of group `n`. -/
def groupAt (group : Byte → Byte → Byte → Byte → List Byte) (frame : List Byte) (n : ℕ) :
    List Byte :=
  group (frame.getD (4 * n) 0) (frame.getD (4 * n + 1) 0) (frame.getD (4 * n + 2) 0)
    (frame.getD (4 * n + 3) 0)

/-- The scratchpad after `n` groups. -/
def filled (w : ℕ) (group : Byte → Byte → Byte → Byte → List Byte) (frame : List Byte) (b : Buf)
    (n : ℕ) : Buf := fun j =>
  if j < w * n then (groupAt group frame (j / w)).getD (j % w) 0 else b j

lemma filled_group (group : Byte → Byte → Byte → Byte → List Byte) (frame : List Byte) (b : Buf)
    {n N r : ℕ} (hn : n < N) (hr : r < w) :
    filled w group frame b N (w * n + r) = (groupAt group frame n).getD r 0 := by
  have hle : w * (n + 1) ≤ w * N := Nat.mul_le_mul_left w hn
  rw [Nat.mul_succ] at hle
  unfold filled
  rw [if_pos (by omega), Nat.mul_add_div (by omega), Nat.div_eq_of_lt hr, Nat.mul_add_mod,
    Nat.mod_eq_of_lt hr, Nat.add_zero]

lemma filled_succ (hw : ∀ y u y2 v, (group y u y2 v).length = w) (n : ℕ) :
    blit (filled w group frame b n) (w * n) (groupAt group frame n) =
      filled w group frame b (n + 1) := by
  have hlen : (groupAt group frame n).length = w := hw ..
  funext j
  unfold blit
  rw [hlen]
  have hsucc : w * (n + 1) = w * n + w := Nat.mul_succ w n
  by_cases hin : w * n ≤ j ∧ j < w * n + w
  · obtain ⟨r, rfl⟩ := Nat.exists_eq_add_of_le hin.1
    rw [if_pos hin, Nat.add_sub_cancel_left,
      filled_group group frame b (Nat.lt_succ_self n) (by omega)]
  · rw [if_neg hin]
    unfold filled
    by_cases hj : j < w * n
    · rw [if_pos hj, if_pos (by omega)]
    · rw [if_neg hj, if_neg (by omega)]

/-- **One group**: four bytes of the frame and `w` of the scratchpad. -/
lemma expandTurn_again (hw : ∀ y u y2 v, (group y u y2 v).length = w) {n : ℕ}
    (hn : 4 * n + 3 < frame.length)
    (hcap : w * (n + 1) ≤ MAX_HRES * MAX_VRES * MAX_PIXEL_SIZE) :
    expandTurn w group frame ⟨4 * n, w * n, filled w group frame b n⟩ =
      some (.inl ⟨4 * (n + 1), w * (n + 1), filled w group frame b (n + 1)⟩) := by
  have hread : ∀ i < frame.length, frame[i]? = some (frame.getD i 0) := fun i hi => by
    rw [List.getD_eq_getElem _ _ hi, List.getElem?_eq_getElem hi]
  have hstore : store (filled w group frame b n) (w * n) (groupAt group frame n) =
      some (filled w group frame b (n + 1)) := by
    unfold store
    rw [filled_succ hw, if_pos]
    rw [groupAt, hw, ← Nat.mul_succ]
    exact hcap
  unfold expandTurn
  dsimp only
  rw [if_pos (by omega), hread _ (by omega), hread (4 * n + 1) (by omega),
    hread (4 * n + 2) (by omega), hread _ hn]
  change (store _ _ (groupAt group frame n)).bind _ = _
  rw [hstore]
  rfl

/-- **The loop** fills the scratchpad from its start, and stops. -/
theorem expand_eq (hw : ∀ y u y2 v, (group y u y2 v).length = w) (h4 : 4 ∣ frame.length)
    (hcap : w * (frame.length / 4) ≤ MAX_HRES * MAX_VRES * MAX_PIXEL_SIZE) :
    expand w group (frame.length / 4 + 1) frame b =
      some (filled w group frame b (frame.length / 4)) := by
  have hstart : filled w group frame b 0 = b := by
    funext j
    exact if_neg (by omega)
  let state (n : ℕ) : Expand := ⟨4 * n, w * n, filled w group frame b n⟩
  have hagain : ∀ n < frame.length / 4,
      expandTurn w group frame (state n) = some (.inl (state (n + 1))) := fun n hn =>
    expandTurn_again hw (by omega) ((Nat.mul_le_mul_left w hn).trans hcap)
  have hdone : expandTurn w group frame (state (frame.length / 4)) =
      some (.inr (filled w group frame b (frame.length / 4))) :=
    if_neg (by dsimp only [state]; omega)
  have hloop := iter_of_states hagain hdone
  dsimp only [state] at hloop
  rw [hstart, Nat.mul_zero, Nat.mul_zero] at hloop
  exact hloop

end Expand

/-! ### Pixels -/

section Pixels

variable {frame : List Byte} {b : Buf}

/-- Pixel `n` of a frame, by a conversion. -/
def pixel (convert : Byte → Byte → Byte → Rgb) (frame : List Byte) (n : ℕ) : Rgb :=
  convert (frame.getD (2 * n) 0) (frame.getD (4 * (n / 2) + 1) 0) (frame.getD (4 * (n / 2) + 3) 0)

/-- Pixel `n` of the scratchpad. -/
def rgbAt (b : Buf) (n : ℕ) : Rgb := ⟨b (3 * n), b (3 * n + 1), b (3 * n + 2)⟩

/-- The three bytes at an offset of a group. -/
lemma rgb_filled {group : Byte → Byte → Byte → Byte → List Byte} {m N r : ℕ} (hm : m < N)
    (hr : r + 2 < 6) {n : ℕ} (hn : 3 * n = 6 * m + r) :
    rgbAt (filled 6 group frame b N) n = ⟨(groupAt group frame m).getD r 0,
      (groupAt group frame m).getD (r + 1) 0, (groupAt group frame m).getD (r + 2) 0⟩ := by
  have h0 := filled_group group frame b hm (show r < 6 by omega)
  have h1 := filled_group group frame b hm (show r + 1 < 6 by omega)
  have h2 := filled_group group frame b hm hr
  unfold rgbAt
  rw [hn, Nat.add_assoc, Nat.add_assoc, h0, h1, h2]

lemma rgbAt_filled (convert : Byte → Byte → Byte → Rgb) {n : ℕ} (h4 : 4 ∣ frame.length)
    (hn : n < frame.length / 2) :
    rgbAt (filled 6 (rgbGroup convert) frame b (frame.length / 4)) n = pixel convert frame n := by
  obtain ⟨m, rfl | rfl⟩ := Nat.even_or_odd' n
  · have hdiv : 2 * m / 2 = m := by omega
    have hy : 2 * (2 * m) = 4 * m := by ring
    unfold pixel
    rw [rgb_filled (m := m) (r := 0) (by omega) (by omega) (by ring), hdiv, hy]
    rfl
  · have hdiv : (2 * m + 1) / 2 = m := by omega
    have hy : 2 * (2 * m + 1) = 4 * m + 2 := by ring
    unfold pixel
    rw [rgb_filled (m := m) (r := 3) (by omega) (by omega) (by ring), hdiv, hy]
    rfl

lemma filled_gray {n : ℕ} (h4 : 4 ∣ frame.length) (hn : n < frame.length / 2) :
    filled 2 grayGroup frame b (frame.length / 4) n = frame.getD (2 * n) 0 := by
  obtain ⟨m, rfl | rfl⟩ := Nat.even_or_odd' n
  · have hm : m < frame.length / 4 := by omega
    have hy : 2 * (2 * m) = 4 * m := by ring
    rw [hy, ← Nat.add_zero (2 * m), filled_group grayGroup frame b hm (by decide)]
    rfl
  · have hm : m < frame.length / 4 := by omega
    have hy : 2 * (2 * m + 1) = 4 * m + 2 := by ring
    rw [hy, filled_group grayGroup frame b hm (by decide)]
    rfl

/-- A YUYV frame in the build for colour. -/
lemma processImageWith_rgb (convert : Byte → Byte → Byte → Rgb) (s : State)
    (h4 : 4 ∣ frame.length) (hmax : frame.length ≤ MAX_HRES * MAX_VRES * 2) :
    processImageWith convert (frame.length / 4 + 1) .rgb .yuyv frame s = some
      ⟨filled 6 (rgbGroup convert) frame s.scratchpad (frame.length / 4),
        int32 (s.processFramecnt + 1)⟩ := by
  have hexpand : expand 6 (rgbGroup convert) (frame.length / 4 + 1) frame s.scratchpad = _ :=
    expand_eq (fun _ _ _ _ => rfl) h4 (by unfold MAX_HRES MAX_VRES MAX_PIXEL_SIZE at *; omega)
  exact congrArg (Option.map _) hexpand

lemma processImageWith_gray (convert : Byte → Byte → Byte → Rgb) (s : State)
    (h4 : 4 ∣ frame.length) (hmax : frame.length ≤ MAX_HRES * MAX_VRES * 2) :
    processImageWith convert (frame.length / 4 + 1) .gray .yuyv frame s = some
      ⟨filled 2 grayGroup frame s.scratchpad (frame.length / 4),
        int32 (s.processFramecnt + 1)⟩ := by
  have hexpand : expand 2 grayGroup (frame.length / 4 + 1) frame s.scratchpad = _ := expand_eq
    (fun _ _ _ _ => rfl) h4 (by unfold MAX_HRES MAX_VRES MAX_PIXEL_SIZE at *; omega)
  exact congrArg (Option.map _) hexpand

end Pixels

/-- **Expansion is exact and in bounds**: it fills the scratchpad with the pixels of the frame and
leaves the rest of it, and the size that is dumped is the one that was filled. -/
theorem processImage_expands (frame : List Byte) (h4 : 4 ∣ frame.length)
    (hmax : frame.length ≤ MAX_HRES * MAX_VRES * 2) (s : State)
    (saveFramecnt processFramecnt : ℤ) :
    (∃ fuel s', processImage fuel .rgb .yuyv frame s = some s' ∧
      (∀ n < frame.length / 2, rgbAt s'.scratchpad n = yuv2rgb (frame.getD (2 * n) 0)
        (frame.getD (4 * (n / 2) + 1) 0) (frame.getD (4 * (n / 2) + 3) 0)) ∧
      ∀ j, 3 * frame.length / 2 ≤ j → s'.scratchpad j = s.scratchpad j) ∧
    (saveImage .rgb .yuyv frame.length saveFramecnt processFramecnt).2 =
      (if int32 (saveFramecnt + 1) > 0 then
        some ⟨.ppm, 3 * frame.length / 2, int32 (saveFramecnt + 1)⟩ else none) ∧
    ∃ fuel s', processImage fuel .gray .yuyv frame s = some s' ∧
      (∀ n < frame.length / 2, s'.scratchpad n = frame.getD (2 * n) 0) ∧
      ∀ j, frame.length / 2 ≤ j → s'.scratchpad j = s.scratchpad j := by
  have hsize : frame.length * 6 / 4 = 3 * frame.length / 2 := by omega
  refine ⟨⟨_, _, processImageWith_rgb yuv2rgb s h4 hmax, fun n hn => rgbAt_filled yuv2rgb h4 hn,
    fun j hj => if_neg ?_⟩, ?_,
    ⟨_, _, processImageWith_gray yuv2rgb s h4 hmax, fun n hn => filled_gray h4 hn,
      fun j hj => if_neg ?_⟩⟩
  · omega
  · rw [← hsize]
    rfl
  · omega

/-- A frame of two pixels. -/
def twoPixels : List Byte := [100, 128, 100, 200]

/-- Both pixels of it, in the scratchpad and in the size. -/
theorem processImage_expands_twoPixels : ∃ fuel s',
    processImage fuel .rgb .yuyv twoPixels ⟨fun _ => 0, 0⟩ = some s' ∧
      (∀ n < twoPixels.length / 2, rgbAt s'.scratchpad n = yuv2rgb (twoPixels.getD (2 * n) 0)
        (twoPixels.getD (4 * (n / 2) + 1) 0) (twoPixels.getD (4 * (n / 2) + 3) 0)) ∧
      ∀ j, 3 * twoPixels.length / 2 ≤ j → s'.scratchpad j = 0 :=
  (processImage_expands twoPixels (by decide) (by decide) ⟨fun _ => 0, 0⟩ 0 0).1

/-! ### The two conversions of a frame -/

/-- **The two conversions of a frame agree** where `V` is neutral and where red is clipped in both.
Off the border of the neutral values they agree nowhere else, and no other `V` than the neutral
ones is good for all `Y`. -/
theorem frame_near (frame : List Byte) :
    ((∀ n < frame.length / 2, RedAgrees (frame.getD (2 * n) 0) (frame.getD (4 * (n / 2) + 3) 0)) →
      ∀ n < frame.length / 2, (pixel yuv2rgb frame n).Near (pixel yuv2rgbFloat frame n)) ∧
    ((∀ n < frame.length / 2, ¬ Border (frame.getD (4 * (n / 2) + 3) 0)) →
      ((∀ n < frame.length / 2, (pixel yuv2rgb frame n).Near (pixel yuv2rgbFloat frame n)) ↔
        ∀ n < frame.length / 2,
          RedAgrees (frame.getD (2 * n) 0) (frame.getD (4 * (n / 2) + 3) 0))) ∧
    ∀ v, (∀ y u, (yuv2rgb y u v).Near (yuv2rgbFloat y u v)) ↔ Neutral v := by
  have henough : ∀ n, RedAgrees (frame.getD (2 * n) 0) (frame.getD (4 * (n / 2) + 3) 0) →
      (pixel yuv2rgb frame n).Near (pixel yuv2rgbFloat frame n) :=
    fun n h => (rgb_near_iff ..).mpr (red_near_of_redAgrees _ h)
  refine ⟨fun h n hn => henough n (h n hn), fun hborder => ⟨fun h n hn => ?_, fun h n hn => ?_⟩,
    forall_near_iff⟩
  · exact redAgrees_of_red_near (hborder n hn) (h n hn).r
  · exact henough n (h n hn)

/-- Two neutral pixels and two bright ones. -/
def fourPixels : List Byte := [100, 128, 50, 127, 255, 128, 250, 200]

theorem frame_near_fourPixels : 4 ∣ fourPixels.length ∧ ∀ n < fourPixels.length / 2,
    (pixel yuv2rgb fourPixels n).Near (pixel yuv2rgbFloat fourPixels n) :=
  ⟨by decide, (frame_near fourPixels).1 (by decide)⟩

/-- A reddish frame is none of them: its red is 213 and 181. -/
theorem twoPixels_not_near : 4 ∣ twoPixels.length ∧ ¬ ∀ n < twoPixels.length / 2,
    (pixel yuv2rgb twoPixels n).Near (pixel yuv2rgbFloat twoPixels n) := by
  refine ⟨by decide, fun h => ?_⟩
  have hborder : ¬ Border 200 := by
    unfold Border
    decide
  have hred : RedAgrees 100 200 := redAgrees_of_red_near hborder (h 0 (by decide)).r
  exact absurd hred (by decide)

end Rtes.CaptureImage
