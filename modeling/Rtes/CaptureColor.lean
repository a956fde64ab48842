import Rtes.Bytes

/-!
The two colour conversions of `sequencer_generic/capturelib.c`, which are also those of
`simple-capture-1800-syslog/capture.c`.

`yuv2rgb` has the coefficients in 256ths and rounds, `yuv2rgb_float` has them as decimals and
truncates; its formula is evaluated in exact arithmetic here. Green and blue come out within one
of each other for all pixels. For red the decimal coefficient of `V` is `1.1596`, while `409` stands
for `1.596`, so red agrees only near the neutral `V` or where both are clipped. At two values of `V`
on either side of the neutral ones it depends on the rounding.
-/

namespace Rtes.CaptureColor

open Rtes.Bytes

structure Rgb where
  r : Byte
  g : Byte
  b : Byte
  deriving DecidableEq

/-- The value stored for an `int`. -/
def clip (x : ℤ) : ℤ :=
  let x := if x > 255 then 255 else x
  if x < 0 then 0 else x

def yuv2rgb (y u v : Byte) : Rgb :=
  let c : ℤ := y.toNat - 16
  let d : ℤ := u.toNat - 128
  let e : ℤ := v.toNat - 128
  let r1 := (298 * c + 409 * e + 128) >>> (8 : ℕ)
  let g1 := (298 * c - 100 * d - 208 * e + 128) >>> (8 : ℕ)
  let b1 := (298 * c + 516 * d + 128) >>> (8 : ℕ)
  ⟨BitVec.ofInt 8 (clip r1), BitVec.ofInt 8 (clip g1), BitVec.ofInt 8 (clip b1)⟩

/-- The value stored for a `float`. -/
def clipFloat (x : ℚ) : ℤ := if x > 255 then 255 else if x < 0 then 0 else ⌊x⌋

def yuv2rgbFloat (y u v : Byte) : Rgb :=
  let y : ℚ := y.toNat
  let u : ℚ := u.toNat
  let v : ℚ := v.toNat
  let rTemp := 1.164 * (y - 16) + 1.1596 * (v - 128)
  let gTemp := 1.164 * (y - 16) - 0.813 * (v - 128) - 0.391 * (u - 128)
  let bTemp := 1.164 * (y - 16) + 2.018 * (u - 128)
  ⟨BitVec.ofInt 8 (clipFloat rTemp), BitVec.ofInt 8 (clipFloat gTemp),
    BitVec.ofInt 8 (clipFloat bTemp)⟩

/-- Two bytes that differ by at most one. -/
def Near (x y : Byte) : Prop := |(x.toNat : ℤ) - y.toNat| ≤ 1

structure Rgb.Near (p q : Rgb) : Prop where
  r : CaptureColor.Near p.r q.r
  g : CaptureColor.Near p.g q.g
  b : CaptureColor.Near p.b q.b

/-! ### Clipping -/

lemma clip_bounds (x : ℤ) : 0 ≤ clip x ∧ clip x ≤ 255 := by
  unfold clip
  dsimp only
  split_ifs <;> omega

lemma clip_of_mem {x : ℤ} (h0 : 0 ≤ x) (h1 : x ≤ 255) : clip x = x := by
  unfold clip
  dsimp only
  split_ifs <;> omega

lemma clip_of_ge {x : ℤ} (h : 255 ≤ x) : clip x = 255 := by
  unfold clip
  dsimp only
  split_ifs <;> omega

lemma clip_of_neg {x : ℤ} (h : x < 0) : clip x = 0 := by
  unfold clip
  dsimp only
  split_ifs <;> omega

/-- Clipping a number and truncating it is clipping its floor. -/
lemma clipFloat_eq (x : ℚ) : clipFloat x = clip ⌊x⌋ := by
  unfold clipFloat
  split_ifs with hhigh hlow
  · exact (clip_of_ge (Int.le_floor.mpr (by exact_mod_cast hhigh.le))).symm
  · exact (clip_of_neg (Int.floor_lt.mpr (by exact_mod_cast hlow))).symm
  · refine (clip_of_mem (Int.floor_nonneg.mpr (not_lt.mp hlow)) ?_).symm
    exact_mod_cast (Int.floor_le x).trans (not_lt.mp hhigh)

lemma toNat_ofInt {x : ℤ} (h0 : 0 ≤ x) (h1 : x ≤ 255) : ((BitVec.ofInt 8 x).toNat : ℤ) = x := by
  rw [BitVec.toNat_ofInt]
  omega

/-- Two values that were clipped. -/
lemma near_clip_iff (x y : ℤ) :
    Near (BitVec.ofInt 8 (clip x)) (BitVec.ofInt 8 (clip y)) ↔
      (x - y ≤ 1 ∧ y - x ≤ 1) ∨ (x ≤ 1 ∧ y ≤ 1) ∨ (254 ≤ x ∧ 254 ≤ y) := by
  unfold Near
  rw [toNat_ofInt (clip_bounds x).1 (clip_bounds x).2,
    toNat_ofInt (clip_bounds y).1 (clip_bounds y).2, abs_le]
  unfold clip
  dsimp only
  split_ifs <;> omega

/-! ### The two conversions in integers -/

/-- The red of `yuv2rgb_float`, over `10000`. -/
def redOver (y v : Byte) : ℤ := 11640 * (y.toNat - 16) + 11596 * (v.toNat - 128)

/-- Its green and blue, over `1000`. -/
def greenOver (y u v : Byte) : ℤ :=
  1164 * (y.toNat - 16) - 813 * (v.toNat - 128) - 391 * (u.toNat - 128)

def blueOver (y u : Byte) : ℤ := 1164 * (y.toNat - 16) + 2018 * (u.toNat - 128)

lemma yuv2rgb_eq (y u v : Byte) : yuv2rgb y u v =
    ⟨BitVec.ofInt 8 (clip ((298 * (y.toNat - 16 : ℤ) + 409 * (v.toNat - 128) + 128) / 256)),
      BitVec.ofInt 8 (clip ((298 * (y.toNat - 16 : ℤ) - 100 * (u.toNat - 128) -
        208 * (v.toNat - 128) + 128) / 256)),
      BitVec.ofInt 8 (clip ((298 * (y.toNat - 16 : ℤ) + 516 * (u.toNat - 128) + 128) / 256))⟩ := by
  simp only [yuv2rgb, Int.shiftRight_eq_div_pow]
  rfl

lemma yuv2rgbFloat_eq (y u v : Byte) : yuv2rgbFloat y u v =
    ⟨BitVec.ofInt 8 (clip (redOver y v / 10000)), BitVec.ofInt 8 (clip (greenOver y u v / 1000)),
      BitVec.ofInt 8 (clip (blueOver y u / 1000))⟩ := by
  have hred : (1.164 * ((y.toNat : ℚ) - 16) + 1.1596 * ((v.toNat : ℚ) - 128)) =
      (redOver y v : ℚ) / (10000 : ℕ) := by
    unfold redOver
    push_cast
    ring
  have hgreen : (1.164 * ((y.toNat : ℚ) - 16) - 0.813 * ((v.toNat : ℚ) - 128) -
      0.391 * ((u.toNat : ℚ) - 128)) = (greenOver y u v : ℚ) / (1000 : ℕ) := by
    unfold greenOver
    push_cast
    ring
  have hblue : (1.164 * ((y.toNat : ℚ) - 16) + 2.018 * ((u.toNat : ℚ) - 128)) =
      (blueOver y u : ℚ) / (1000 : ℕ) := by
    unfold blueOver
    push_cast
    ring
  simp only [yuv2rgbFloat, hred, hgreen, hblue, clipFloat_eq, Rat.floor_intCast_div_natCast]
  rfl

/-- **Green** is within one. -/
lemma green_near (y u v : Byte) : Near (yuv2rgb y u v).g (yuv2rgbFloat y u v).g := by
  have hy := y.isLt
  have hu := u.isLt
  have hv := v.isLt
  rw [yuv2rgb_eq, yuv2rgbFloat_eq, near_clip_iff, greenOver]
  left
  omega

/-- **Blue** is within one. -/
lemma blue_near (y u v : Byte) : Near (yuv2rgb y u v).b (yuv2rgbFloat y u v).b := by
  have hy := y.isLt
  have hu := u.isLt
  rw [yuv2rgb_eq, yuv2rgbFloat_eq, near_clip_iff, blueOver]
  left
  omega

/-- Both reds are at most 1, where `V` is not neutral. On either side of the neutral values one of
them is the larger. -/
def Dark (y v : Byte) : Prop :=
  if v.toNat ≤ 128 then 11640 * y.toNat + 11596 * v.toNat < 1690528
  else 298 * y.toNat + 409 * v.toNat < 57504

/-- Both reds are at least 254, where `V` is not neutral. -/
def Bright (y v : Byte) : Prop :=
  if v.toNat ≤ 128 then 122016 ≤ 298 * y.toNat + 409 * v.toNat
  else 4210528 ≤ 11640 * y.toNat + 11596 * v.toNat

instance (y v : Byte) : Decidable (Dark y v) := inferInstanceAs (Decidable (ite _ _ _))

instance (y v : Byte) : Decidable (Bright y v) := inferInstanceAs (Decidable (ite _ _ _))

/-- The values of `V` for which the coefficient makes no difference of two. -/
def Neutral (v : Byte) : Prop := 125 ≤ v.toNat ∧ v.toNat ≤ 129

/-- The values of `V` next to them, for which the rounding decides. -/
def Border (v : Byte) : Prop :=
  v.toNat = 123 ∨ v.toNat = 124 ∨ v.toNat = 130 ∨ v.toNat = 131

/-- The pixels with the same red but for one, but for some at the border. -/
def RedAgrees (y v : Byte) : Prop := Neutral v ∨ Dark y v ∨ Bright y v

instance (v : Byte) : Decidable (Neutral v) := inferInstanceAs (Decidable (_ ∧ _))

instance (y v : Byte) : Decidable (RedAgrees y v) := inferInstanceAs (Decidable (_ ∨ _))

lemma red_near_iff (y u v : Byte) : Near (yuv2rgb y u v).r (yuv2rgbFloat y u v).r ↔
    let p : ℤ := (298 * (y.toNat - 16) + 409 * (v.toNat - 128) + 128) / 256
    let q : ℤ := (11640 * (y.toNat - 16) + 11596 * (v.toNat - 128)) / 10000
    (p - q ≤ 1 ∧ q - p ≤ 1) ∨ (p ≤ 1 ∧ q ≤ 1) ∨ (254 ≤ p ∧ 254 ≤ q) := by
  rw [yuv2rgb_eq, yuv2rgbFloat_eq, near_clip_iff]
  rfl

lemma red_near_of_redAgrees {y v : Byte} (u : Byte) (h : RedAgrees y v) :
    Near (yuv2rgb y u v).r (yuv2rgbFloat y u v).r := by
  have hy := y.isLt
  have hv := v.isLt
  rw [red_near_iff]
  dsimp only
  by_cases hn : Neutral v
  · obtain ⟨h0, h1⟩ := hn
    left
    omega
  · unfold Neutral at hn
    right
    rcases h.resolve_left hn with h | h
    · left
      unfold Dark at h
      split_ifs at h <;> omega
    · right
      unfold Bright at h
      split_ifs at h <;> omega

/-- Off the border nothing else comes out the same. -/
lemma redAgrees_of_red_near {y u v : Byte} (hv : ¬ Border v)
    (h : Near (yuv2rgb y u v).r (yuv2rgbFloat y u v).r) : RedAgrees y v := by
  have hy := y.isLt
  have hlt := v.isLt
  rw [red_near_iff] at h
  dsimp only at h
  unfold RedAgrees Neutral Dark Bright
  unfold Border at hv
  split_ifs with hside
  · omega
  · omega

/-- **A pixel** comes out the same, but for one, where its red does. -/
lemma rgb_near_iff (y u v : Byte) : (yuv2rgb y u v).Near (yuv2rgbFloat y u v) ↔
    Near (yuv2rgb y u v).r (yuv2rgbFloat y u v).r :=
  ⟨fun h => h.r, fun h => ⟨h, green_near y u v, blue_near y u v⟩⟩

/-- A pixel for `V` below the neutral values and one for `V` above them. -/
lemma neutral_of_red_near : ∀ v : Byte, Near (yuv2rgb 198 128 v).r (yuv2rgbFloat 198 128 v).r →
    Near (yuv2rgb 24 128 v).r (yuv2rgbFloat 24 128 v).r → Neutral v := by
  simp only [red_near_iff]
  decide +kernel

/-- **The neutral values of `V`** are those for which all pixels come out the same. -/
theorem forall_near_iff (v : Byte) :
    (∀ y u, (yuv2rgb y u v).Near (yuv2rgbFloat y u v)) ↔ Neutral v := by
  constructor
  · intro h
    exact neutral_of_red_near v (h 198 128).r (h 24 128).r
  · intro h y u
    exact (rgb_near_iff y u v).mpr (red_near_of_redAgrees u (Or.inl h))

end Rtes.CaptureColor
