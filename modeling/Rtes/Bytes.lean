import Mathlib

/-!
Byte buffers, byte files and C's `int`.

A buffer is the memory from its first byte on, so that an access past its end is a value
and not an error. A file is the list of its bytes; a write at a position replaces what is
there and extends the file when it runs past the end.
-/

namespace Rtes.Bytes

abbrev Byte := BitVec 8

/-- Memory, as offsets from the start of a buffer. -/
abbrev Buf := ℕ → Byte

/-- The `len` bytes at `off`. -/
def slice (b : Buf) (off len : ℕ) : List Byte := (List.range len).map fun k => b (off + k)

/-- Copy `bs` to `off`. -/
def blit (b : Buf) (off : ℕ) (bs : List Byte) : Buf := fun k =>
  if off ≤ k ∧ k < off + bs.length then bs.getD (k - off) 0 else b k

/-- Write `bs` over the bytes of a file at `pos`. -/
def overlay (f : List Byte) (pos : ℕ) (bs : List Byte) : List Byte :=
  f.take pos ++ bs ++ f.drop (pos + bs.length)

/-- The value of a C `int` after an operation whose exact result is `x`. -/
def int32 (x : ℤ) : ℤ := x.bmod (2 ^ 32)

lemma int32_eq {x : ℤ} (h0 : -2 ^ 31 ≤ x) (h1 : x < 2 ^ 31) : int32 x = x := by
  unfold int32
  exact Int.bmod_eq_of_le (by omega) (by omega)

lemma int32_add (x y : ℤ) : int32 (int32 x + y) = int32 (x + y) := by
  unfold int32
  exact Int.bmod_add_bmod

@[simp] lemma length_slice (b : Buf) (off len : ℕ) : (slice b off len).length = len := by
  simp [slice]

lemma getD_slice (b : Buf) (off : ℕ) {len k : ℕ} (hk : k < len) :
    (slice b off len).getD k 0 = b (off + k) := by
  simp [slice, hk]

lemma blit_in {b : Buf} {o k : ℕ} {bs : List Byte} (hk : k < bs.length) :
    blit b o bs (o + k) = bs.getD k 0 := by
  unfold blit
  rw [if_pos ⟨by omega, by omega⟩, Nat.add_sub_cancel_left]

lemma blit_out {b : Buf} {off k : ℕ} {bs : List Byte} (hk : k < off ∨ off + bs.length ≤ k) :
    blit b off bs k = b k := by
  unfold blit
  exact if_neg (by omega)

lemma length_overlay {f : List Byte} {pos : ℕ} (hpos : pos ≤ f.length) (bs : List Byte) :
    (overlay f pos bs).length = max f.length (pos + bs.length) := by
  simp only [overlay, List.length_append, List.length_take, List.length_drop]
  omega

lemma overlay_append (a rest bs : List Byte) :
    overlay (a ++ rest) a.length bs = a ++ bs ++ rest.drop bs.length := by
  rw [overlay, List.take_left, ← List.drop_drop, List.drop_left]

lemma getD_overlay {f : List Byte} {pos : ℕ} (hpos : pos ≤ f.length) (bs : List Byte) (k : ℕ) :
    (overlay f pos bs).getD k 0 =
      if pos ≤ k ∧ k < pos + bs.length then bs.getD (k - pos) 0 else f.getD k 0 := by
  have hlen : (f.take pos).length = pos := List.length_take_of_le hpos
  have hlen' : (f.take pos ++ bs).length = pos + bs.length := by rw [List.length_append, hlen]
  unfold overlay
  rcases Nat.lt_or_ge k (pos + bs.length) with h | h
  · rw [List.getD_append _ _ _ _ (by omega)]
    rcases Nat.lt_or_ge k pos with h' | h'
    · rw [List.getD_append _ _ _ _ (by omega), if_neg (by omega), List.getD_eq_getElem?_getD,
        List.getElem?_take_of_lt h', ← List.getD_eq_getElem?_getD]
    · rw [List.getD_append_right _ _ _ _ (by omega), if_pos ⟨h', h⟩, hlen]
  · rw [List.getD_append_right _ _ _ _ (by omega), if_neg (by omega), hlen',
      List.getD_eq_getElem?_getD, List.getElem?_drop, ← List.getD_eq_getElem?_getD]
    congr 1
    omega

/-- Lists of one length with the same bytes are the same. -/
lemma ext_getD {l l' : List Byte} (hlen : l.length = l'.length)
    (h : ∀ k < l.length, l.getD k 0 = l'.getD k 0) : l = l' := by
  apply List.ext_getElem hlen
  intro k h1 h2
  have := h k h1
  rwa [List.getD_eq_getElem _ _ h1, List.getD_eq_getElem _ _ h2] at this

/-- The bytes of a buffer that holds part of a list. -/
lemma slice_eq_take_drop {b : Buf} {l : List Byte} {off pos len : ℕ} (hlen : pos + len ≤ l.length)
    (h : ∀ k < len, b (off + k) = l.getD (pos + k) 0) :
    slice b off len = (l.drop pos).take len := by
  apply ext_getD
  · simp only [length_slice, List.length_take, List.length_drop]
    omega
  · intro k hk
    rw [length_slice] at hk
    rw [getD_slice b off hk, h k hk, List.getD_eq_getElem?_getD, List.getD_eq_getElem?_getD,
      List.getElem?_take_of_lt hk, List.getElem?_drop]

/-- **A loop that fills `n` bytes at `p`** from bytes it does not write leaves there what it
read at the start. -/
theorem foldl_update (p : ℕ) (g : Buf → ℕ → Byte) (n : ℕ)
    (hg : ∀ b b' idx, (∀ k, k < p ∨ p + n ≤ k → b k = b' k) → idx < n → g b idx = g b' idx)
    (b : Buf) (k : ℕ) :
    (List.range n).foldl (fun b idx => Function.update b (p + idx) (g b idx)) b k =
      if p ≤ k ∧ k < p + n then g b (k - p) else b k := by
  suffices ∀ m ≤ n, ∀ k, (List.range m).foldl
      (fun b idx => Function.update b (p + idx) (g b idx)) b k =
        if p ≤ k ∧ k < p + m then g b (k - p) else b k from this n le_rfl k
  intro m
  induction m with
  | zero => intro _ k; simp
  | succ m ih =>
    intro hm k
    have ih' := ih (by omega)
    rw [List.range_succ, List.foldl_append, List.foldl_cons, List.foldl_nil]
    by_cases hk : k = p + m
    · subst hk
      rw [Function.update_self, if_pos ⟨by omega, by omega⟩, Nat.add_sub_cancel_left]
      refine hg _ _ _ (fun k hk => ?_) (by omega)
      rw [ih', if_neg (by omega)]
    · rw [Function.update_of_ne hk, ih']
      by_cases h : p ≤ k ∧ k < p + m
      · rw [if_pos h, if_pos ⟨h.1, by omega⟩]
      · rw [if_neg h, if_neg (by omega)]

/-! ### Objects as bytes -/

/-- The `n` bytes of an object with the value `v`, the least significant byte first. -/
def toBytes : ℕ → ℕ → List Byte
  | 0, _ => []
  | n + 1, v => BitVec.ofNat 8 v :: toBytes n (v / 256)

def ofBytes : List Byte → ℕ
  | [] => 0
  | b :: bs => b.toNat + 256 * ofBytes bs

@[simp] lemma length_toBytes (n v : ℕ) : (toBytes n v).length = n := by
  induction n generalizing v with
  | zero => rfl
  | succ n ih => simp [toBytes, ih]

/-- An object copied byte by byte keeps its value. -/
lemma ofBytes_toBytes {n v : ℕ} (hv : v < 256 ^ n) : ofBytes (toBytes n v) = v := by
  induction n generalizing v with
  | zero => simp_all [toBytes, ofBytes]
  | succ n ih =>
    have hdiv : v / 256 < 256 ^ n := Nat.div_lt_of_lt_mul (by rwa [pow_succ'] at hv)
    simp only [toBytes, ofBytes, ih hdiv, BitVec.toNat_ofNat]
    exact Nat.mod_add_div v 256

/-- The bytes of a `BitVec` object. -/
lemma ofNat_ofBytes {n : ℕ} (v : BitVec (8 * n)) :
    BitVec.ofNat (8 * n) (ofBytes (toBytes n v.toNat)) = v := by
  rw [ofBytes_toBytes, BitVec.ofNat_toNat, BitVec.setWidth_eq]
  exact v.isLt.trans_eq (by rw [pow_mul]; norm_num)

end Rtes.Bytes
