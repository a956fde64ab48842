import Rtes.Sha2

/-!
The contexts of `sha2.c` over a sequence of calls.

The length that `final` puts behind the message has 32 bits only, so that a message counts as one
of its length modulo `2 ^ 29` bytes. The pieces are shorter than `2 ^ 31` bytes: beyond that
`transf` shifts an `int` out of its range.
-/

namespace Rtes.Sha2Stream

open Rtes.Absorb Rtes.Bytes Rtes.Checked Rtes.Sha2 Rtes.Sha2Model Rtes.Words

variable {w : ℕ} {p : Params w} {s : Standard w}

lemma blockSize_pos (p : Params w) : 0 < p.blockSize := Nat.two_pow_pos p.shift

lemma shiftLeft_shift (p : Params w) (i : ℕ) : i <<< p.shift = p.blockSize * i := by
  rw [Nat.shiftLeft_eq, Nat.mul_comm, Params.blockSize]

/-- `transf` has a result when no block starts beyond the range of an `int`. -/
lemma transf_eq_some (p : Params w) (unroll : Bool) (h : Regs w) (message : List Byte)
    (blockNb : BitVec 32) (r : Regs w) : transf p unroll h message blockNb = some r ↔
      (∀ i < blockNb.toInt.toNat, p.blockSize * i < 2 ^ 31) ∧
        r = (List.range blockNb.toInt.toNat).foldl (fun h i =>
          transfBlock p unroll h ((message.drop (p.blockSize * i)).take p.blockSize)) h := by
  have hfit : ∀ i, fit (2 ^ 31) (i <<< p.shift) = some (p.blockSize * i) ↔
      p.blockSize * i < 2 ^ 31 := fun i => by
    rw [fit_eq_some, shiftLeft_shift, eq_self_iff_true, true_and]
  rw [transf, foldlM_eq_some (q := fun i => p.blockSize * i) (fun h i k =>
    transfBlock p unroll h ((message.drop k).take p.blockSize)) fun i _ b hb => ?_]
  · simp only [List.mem_range, hfit]
  · rw [← (fit_eq_some.mp hb).1, shiftLeft_shift]

section

variable (hp : Agrees p s)
include hp

/-- `transf` compresses so many blocks. -/
lemma transf_eq (unroll : Bool) (h : Regs w) {message : List Byte} {blockNb : BitVec 32}
    (hlen : p.blockSize * blockNb.toNat ≤ message.length)
    (hint : p.blockSize * blockNb.toNat ≤ 2 ^ 31) : transf p unroll h message blockNb =
      some (blocks s.compress p.blockSize blockNb.toNat h message) := by
  have hpos := blockSize_pos p
  have hturns : blockNb.toInt.toNat = blockNb.toNat := by
    have hsmall : 16 * blockNb.toNat ≤ 2 ^ 31 := by
      refine (Nat.mul_le_mul_right _ ?_).trans hint
      have := hp.size
      omega
    rw [BitVec.toInt_eq_toNat_of_lt (by omega), Int.toNat_natCast]
  rw [transf_eq_some, hturns]
  refine ⟨fun i hi => lt_of_lt_of_le (Nat.mul_lt_mul_of_pos_left hi hpos) hint, ?_⟩
  rw [foldl_blocks, blocks_congr (fun h b hb => transfBlock_eq hp unroll h hb) hlen]

end

/-- The context has been given `m`. -/
structure Taken (p : Params w) (s : Standard w) (h0 : Regs w) (ctx : Ctx w) (m : List Byte) :
    Prop where
  tracks : Tracks s.compress p.blockSize h0 ctx.h ctx.block m
  len : ctx.len.toNat = m.length % p.blockSize
  totLen : ctx.totLen.toNat = p.blockSize * (m.length / p.blockSize) % 2 ^ 32

lemma taken_init (h0 : Regs w) (ctx : Ctx w) : Taken p s h0 (init h0 ctx) [] where
  tracks := Tracks.init h0 _
  len := by simp [init]
  totLen := by simp [init]

section

variable (hp : Agrees p s)
include hp

/-- A piece that does not fill the block. -/
lemma taken_update_of_lt {h0 : Regs w} {ctx : Ctx w} {m x : List Byte}
    (h : Taken p s h0 ctx m) (unroll : Bool)
    (hx : m.length % p.blockSize + x.length < p.blockSize) :
    ∃ ctx', update p unroll ctx x = some ctx' ∧ Taken p s h0 ctx' (m ++ x) := by
  have hsize := hp.size_le
  have hpos := blockSize_pos p
  have hlen : (BitVec.ofNat 32 x.length).toNat = x.length := by
    rw [BitVec.toNat_ofNat, Nat.mod_eq_of_lt (by omega)]
  have hsize' : (BitVec.ofNat 32 p.blockSize).toNat = p.blockSize := by
    rw [BitVec.toNat_ofNat, Nat.mod_eq_of_lt (by omega)]
  have hsum : (ctx.len + BitVec.ofNat 32 x.length).toNat = m.length % p.blockSize + x.length := by
    rw [BitVec.toNat_add, hlen, h.len, Nat.mod_eq_of_lt (by omega)]
  have hlt : ctx.len + BitVec.ofNat 32 x.length < BitVec.ofNat 32 p.blockSize := by
    rw [BitVec.lt_def, hsum, hsize']
    exact hx
  have htmp : (BitVec.ofNat 32 p.blockSize - ctx.len).toNat =
      p.blockSize - m.length % p.blockSize := by
    rw [BitVec.toNat_sub_of_le (by rw [BitVec.le_def, hsize', h.len]; omega), hsize', h.len]
  have hrem : BitVec.ofNat 32 x.length < BitVec.ofNat 32 p.blockSize - ctx.len := by
    rw [BitVec.lt_def, hlen, htmp]
    omega
  have hdiv : (m.length + x.length) / p.blockSize = m.length / p.blockSize := by
    rw [← Nat.div_add_mod m.length p.blockSize, Nat.add_assoc, Nat.mul_add_div hpos,
      Nat.div_eq_of_lt hx, Nat.mul_add_div hpos, Nat.div_eq_of_lt (Nat.mod_lt _ hpos)]
  unfold update
  dsimp only
  rw [if_pos hlt, if_pos hrem, hlen, List.take_length, h.len]
  refine ⟨_, rfl, h.tracks.keep hx, ?_, ?_⟩
  · rw [hsum, List.length_append, Nat.add_mod, Nat.mod_eq_of_lt (a := x.length) (by omega),
      Nat.mod_eq_of_lt hx]
  · rw [h.totLen, List.length_append, hdiv]

/-- A piece that fills the block. -/
lemma taken_update_of_ge {h0 : Regs w} {ctx : Ctx w} {m x : List Byte}
    (h : Taken p s h0 ctx m) (unroll : Bool) (hlt : x.length < 2 ^ 31)
    (hx : p.blockSize ≤ m.length % p.blockSize + x.length) :
    ∃ ctx', update p unroll ctx x = some ctx' ∧ Taken p s h0 ctx' (m ++ x) := by
  have hsize := hp.size_le
  have hpos := blockSize_pos p
  have hmod := Nat.mod_lt m.length hpos
  have hlen : (BitVec.ofNat 32 x.length).toNat = x.length := by
    rw [BitVec.toNat_ofNat, Nat.mod_eq_of_lt (by omega)]
  have hsize' : (BitVec.ofNat 32 p.blockSize).toNat = p.blockSize := by
    rw [BitVec.toNat_ofNat, Nat.mod_eq_of_lt (by omega)]
  have hsum : ¬ ctx.len + BitVec.ofNat 32 x.length < BitVec.ofNat 32 p.blockSize := by
    rw [BitVec.lt_def, BitVec.toNat_add, hlen, h.len, Nat.mod_eq_of_lt (by omega), hsize']
    omega
  have htmp : (BitVec.ofNat 32 p.blockSize - ctx.len).toNat =
      p.blockSize - m.length % p.blockSize := by
    rw [BitVec.toNat_sub_of_le (by rw [BitVec.le_def, hsize', h.len]; omega), hsize', h.len]
  have hrem : ¬ BitVec.ofNat 32 x.length < BitVec.ofNat 32 p.blockSize - ctx.len := by
    rw [BitVec.lt_def, hlen, htmp]
    omega
  -- what is behind the piece that fills the block
  obtain ⟨y, hy⟩ : ∃ y, x.drop (p.blockSize - m.length % p.blockSize) = y := ⟨_, rfl⟩
  have hylen : y.length = x.length - (p.blockSize - m.length % p.blockSize) := by
    rw [← hy, List.length_drop]
  have hnew : (BitVec.ofNat 32 x.length - (BitVec.ofNat 32 p.blockSize - ctx.len)).toNat =
      y.length := by
    rw [BitVec.toNat_sub_of_le (by rw [BitVec.le_def, hlen, htmp]; omega), hlen, htmp, hylen]
  have hdiv : p.blockSize * (y.length / p.blockSize) ≤ y.length := Nat.mul_div_le _ _
  have hnb : y.length / p.blockSize ≤ y.length := Nat.div_le_self _ _
  have hshift : ∀ z : BitVec 32, p.blockSize * z.toNat < 2 ^ 32 →
      (z <<< p.shift).toNat = p.blockSize * z.toNat := by
    intro z hz
    rw [BitVec.toNat_shiftLeft, Nat.shiftLeft_eq, Nat.mul_comm, ← Params.blockSize,
      Nat.mod_eq_of_lt hz]
  have htotal : (m ++ x).length = p.blockSize * (m.length / p.blockSize + 1) + y.length := by
    have := Nat.div_add_mod m.length p.blockSize
    rw [List.length_append, Nat.mul_add, Nat.mul_one]
    omega
  obtain ⟨hs, hr⟩ := h.tracks.fill (x := x) hpos hx
  rw [hy] at hs hr
  obtain ⟨nb, hnb'⟩ : ∃ nb, (BitVec.ofNat 32 x.length - (BitVec.ofNat 32 p.blockSize - ctx.len)) /
      BitVec.ofNat 32 p.blockSize = nb := ⟨_, rfl⟩
  have hnbNat : nb.toNat = y.length / p.blockSize := by
    rw [← hnb', BitVec.toNat_udiv, hnew, hsize']
  have hone : (nb + 1).toNat = y.length / p.blockSize + 1 := by
    rw [BitVec.toNat_add, hnbNat]
    exact Nat.mod_eq_of_lt (show _ + 1 < 2 ^ 32 by omega)
  have hrest : (y.drop (nb <<< p.shift).toNat).take (y.length % p.blockSize) =
      rest p.blockSize (m ++ x) := by
    rw [hshift nb (by rw [hnbNat]; omega), hnbNat, ← hr, rest, List.take_of_length_le]
    rw [List.length_drop, Nat.mod_eq_sub]
  have hstate : (transf p unroll ctx.h (slice (blit ctx.block (m.length % p.blockSize)
      (x.take (p.blockSize - m.length % p.blockSize))) 0 p.blockSize) 1).bind
      (fun h => transf p unroll h y nb) = some (absorb s.compress p.blockSize h0 (m ++ x)) := by
    have hone : (1 : BitVec 32).toNat = 1 := rfl
    rw [transf_eq hp unroll _ (by simp) (by rw [hone]; omega), Option.bind_some,
      transf_eq hp unroll _ (by rw [hnbNat]; exact hdiv) (by rw [hnbNat]; omega), hnbNat, ← hs,
      absorb, hone, blocks, blocks, List.take_of_length_le (by simp)]
  obtain ⟨h₁, hh₁, hh₂⟩ := Option.bind_eq_some_iff.mp hstate
  unfold update
  dsimp only
  rw [if_neg hsum, if_neg hrem, htmp, h.len, hy, hnb', hh₁, Option.bind_eq_bind, Option.bind_some,
    hh₂, Option.bind_some]
  simp only [BitVec.toNat_umod, hnew, hsize', hrest]
  refine ⟨_, rfl, Tracks.of_absorb rfl _, ?_, ?_⟩
  · rw [htotal, BitVec.toNat_umod, hnew, hsize', Nat.mul_add_mod]
  · rw [htotal, Nat.mul_add_div hpos, BitVec.toNat_add, h.totLen,
      hshift _ (by rw [hone, Nat.mul_add]; omega), hone, Nat.mod_add_mod]
    congr 1
    ring

lemma taken_update {h0 : Regs w} {ctx : Ctx w} {m x : List Byte} (h : Taken p s h0 ctx m)
    (unroll : Bool) (hx : x.length < 2 ^ 31) :
    ∃ ctx', update p unroll ctx x = some ctx' ∧ Taken p s h0 ctx' (m ++ x) := by
  rcases Nat.lt_or_ge (m.length % p.blockSize + x.length) p.blockSize with hlt | hge
  · exact taken_update_of_lt hp h unroll hlt
  · exact taken_update_of_ge hp h unroll hx hge

/-! ### The end of the message -/

omit hp in
/-- The message in the block, the mark, and zeros. -/
lemma slice_mark (b : Buf) (len n z : ℕ) (hn : len + 1 + z ≤ n) :
    slice (Function.update (blit b len (List.replicate (n - len) 0)) len 0x80) 0 (len + 1 + z) =
      slice b 0 len ++ 0x80 :: List.replicate z 0 := by
  apply ext_getD
  · simp only [length_slice, List.length_append, List.length_cons, List.length_replicate]
    omega
  · intro k hk
    rw [length_slice] at hk
    rw [getD_slice _ _ hk, Nat.zero_add]
    rcases Nat.lt_trichotomy k len with h | rfl | h
    · rw [Function.update_of_ne (by omega), blit_out (.inl h),
        List.getD_append _ _ _ _ (by simpa), getD_slice _ _ h, Nat.zero_add]
    · rw [Function.update_self, List.getD_append_right _ _ _ _ (by simp), length_slice,
        Nat.sub_self, List.getD_cons_zero]
    · obtain ⟨j, rfl⟩ := Nat.exists_eq_add_of_lt h
      have hj : j + 1 < (List.replicate (n - len) (0 : Byte)).length := by
        rw [List.length_replicate]
        omega
      rw [Function.update_of_ne (by omega), Nat.add_assoc, blit_in hj,
        List.getD_append_right _ _ _ _ (by simp), length_slice, Nat.add_sub_cancel_left,
        List.getD_cons_succ, List.getD_replicate _ (by simpa using hj),
        List.getD_replicate _ (by omega)]

omit hp in
/-- The 32 bits that are stored. -/
lemma lenB_eq {h0 : Regs w} {ctx : Ctx w} {m : List Byte} (h : Taken p s h0 ctx m) :
    ((ctx.totLen + ctx.len) <<< 3).toNat = 8 * (m.length % 2 ^ 29) := by
  have hsum : (ctx.totLen + ctx.len).toNat = m.length % 2 ^ 32 := by
    rw [BitVec.toNat_add, h.totLen, h.len, Nat.mod_add_mod, Nat.div_add_mod]
  rw [BitVec.toNat_shiftLeft, hsum, Nat.shiftLeft_eq]
  omega

lemma bitLength_eq {l : ℕ} (hl : l < 2 ^ 29) {x : BitVec 32} (hx : x.toNat = 8 * l) :
    s.bitLength l = List.replicate (s.lengthBytes - 4) 0 ++ unpack32 x := by
  have hsplit : s.lengthBytes = 4 + (s.lengthBytes - 4) := by
    have := hp.length_ge
    omega
  have hzero : 8 * l / 256 ^ 4 = 0 := Nat.div_eq_of_lt (by norm_num; omega)
  rw [Standard.bitLength, hsplit, toBytes_add, hzero, toBytes_of_zero, List.reverse_append,
    List.reverse_replicate, unpack32_eq, hx, Nat.add_sub_cancel_left]

/-- `final` writes the digest of what the context has been given, with its length modulo
`2 ^ 29`. -/
theorem final_eq {h0 : Regs w} {ctx : Ctx w} {m : List Byte} (h : Taken p s h0 ctx m)
    (unroll : Bool) (words : ℕ) :
    final p words unroll ctx = some (s.digestAt h0 words (m.length % 2 ^ 29) m) := by
  have hpos := blockSize_pos p
  have hmod := Nat.mod_lt m.length hpos
  have htail := hp.tail
  have hle := hp.tail_le
  have hge := hp.length_ge
  obtain ⟨nb, hnb⟩ : ∃ nb, 1 + (if p.blockSize - p.tail < m.length % p.blockSize then 1 else 0) =
    nb := ⟨_, rfl⟩
  have hnb2 : nb ≤ 2 := by
    rw [← hnb]
    split_ifs <;> omega
  have hnbNat : (BitVec.ofNat 32 nb).toNat = nb := by
    rw [BitVec.toNat_ofNat, Nat.mod_eq_of_lt (by omega)]
  have hlenB := lenB_eq h
  have hbits := bitLength_eq hp (Nat.mod_lt m.length (by norm_num : 0 < 2 ^ 29)) hlenB
  obtain ⟨z, hz⟩ : ∃ z, fillers p.blockSize s.lengthBytes m.length + (s.lengthBytes - 4) = z :=
    ⟨_, rfl⟩
  -- the padded message ends with the last block
  have hfill : m.length % p.blockSize + 1 + z + 4 = p.blockSize * nb := by
    rw [← hz, ← hnb]
    split_ifs with hc
    · rw [fillers_of_gt (by omega) (by omega)]
      omega
    · rw [fillers_of_le (by omega)]
      omega
  obtain ⟨t, ht⟩ : ∃ t, (0x80 : Byte) :: List.replicate z 0 ++
    unpack32 ((ctx.totLen + ctx.len) <<< 3) = t := ⟨_, rfl⟩
  have hpad : pad p.blockSize (fun _ => s.bitLength (m.length % 2 ^ 29)) m = m ++ t := by
    have hlen : (s.bitLength (m.length % 2 ^ 29)).length = s.lengthBytes := by
      simp [Standard.bitLength]
    rw [pad, hlen, hbits, ← ht, ← hz, List.replicate_add, List.cons_append, List.append_assoc]
  have h4 : (unpack32 ((ctx.totLen + ctx.len) <<< 3)).length = 4 := rfl
  have hpm : p.blockSize * nb - 4 = m.length % p.blockSize + 1 + z := by omega
  have hblock : slice (blit (Function.update (blit ctx.block (m.length % p.blockSize)
      (List.replicate (p.blockSize * nb - m.length % p.blockSize) 0)) (m.length % p.blockSize) 0x80)
      (p.blockSize * nb - 4) (unpack32 ((ctx.totLen + ctx.len) <<< 3))) 0 (p.blockSize * nb) =
      rest p.blockSize m ++ t := by
    rw [hpm, ← hfill, ← h4, slice_blit, h4, slice_mark _ _ _ _ (by omega), h.tracks.buffer, ← ht]
    simp
  have hdata : (rest p.blockSize m ++ t).length = p.blockSize * nb := by
    rw [List.length_append, length_rest, ← ht, List.length_append, List.length_cons,
      List.length_replicate, h4, ← hfill]
    omega
  have hint : p.blockSize * nb ≤ 2 ^ 31 :=
    (Nat.mul_le_mul hp.size_le hnb2).trans (by norm_num)
  unfold final
  dsimp only
  rw [h.len, Nat.mod_mod, hnb, shiftLeft_shift, hblock,
    transf_eq hp unroll _ (hnbNat.symm ▸ hdata.ge) (hnbNat.symm ▸ hint), hnbNat,
    Option.bind_eq_bind, Option.bind_some, Standard.digestAt, Standard.output, ← hp.size, hpad,
    absorb_append hpos, ← h.tracks.state, absorb_eq_blocks hpos hdata, funext hp.unpack]

lemma taken_foldlM {h0 : Regs w} {ctx : Ctx w} {m : List Byte} (h : Taken p s h0 ctx m)
    (unroll : Bool) (xs : List (List Byte)) (hxs : ∀ x ∈ xs, x.length < 2 ^ 31) :
    ∃ ctx', xs.foldlM (update p unroll) ctx = some ctx' ∧
      Taken p s h0 ctx' (m ++ xs.flatten) := by
  induction xs generalizing ctx m with
  | nil => exact ⟨ctx, rfl, by simpa using h⟩
  | cons x xs ih =>
    obtain ⟨ctx₁, h₁, htaken⟩ := taken_update hp h unroll (hxs x (by simp))
    obtain ⟨ctx', h', hrest⟩ := ih htaken fun y hy => hxs y (by simp [hy])
    refine ⟨ctx', ?_, ?_⟩
    · rw [List.foldlM_cons, h₁]
      exact h'
    · rwa [List.flatten_cons, ← List.append_assoc]

lemma final_foldlM (h0 : Regs w) (words : ℕ) (ctx : Ctx w) (unroll : Bool)
    (xs : List (List Byte)) (hxs : ∀ x ∈ xs, x.length < 2 ^ 31) :
    (xs.foldlM (update p unroll) (init h0 ctx)).bind (final p words unroll) =
      some (s.digestAt h0 words (xs.flatten.length % 2 ^ 29) xs.flatten) := by
  obtain ⟨ctx', h', htaken⟩ := taken_foldlM hp (taken_init h0 ctx) unroll xs hxs
  rw [h', Option.bind_some]
  exact final_eq hp htaken unroll words

end

/-- **A message in pieces**, in both builds and for all four digests. The message counts as one of
its length modulo `2 ^ 29`; for a shorter message this is its SHA-2 digest. -/
theorem sha2_of_pieces (unroll : Bool) (ctx : Ctx 32) (ctx' : Ctx 64) (xs : List (List Byte))
    (hxs : ∀ x ∈ xs, x.length < 2 ^ 31) :
    let m := xs.flatten
    let l := m.length % 2 ^ 29
    (xs.foldlM (sha224Update unroll) (sha224Init ctx)).bind (sha224Final unroll) =
        some (standard256.digestAt (squareRoots 32 64 8) 7 l m) ∧
      (xs.foldlM (sha256Update unroll) (sha256Init ctx)).bind (sha256Final unroll) =
        some (standard256.digestAt (squareRoots 32 32 0) 8 l m) ∧
      (xs.foldlM (sha384Update unroll) (sha384Init ctx')).bind (sha384Final unroll) =
        some (standard512.digestAt (squareRoots 64 64 8) 6 l m) ∧
      (xs.foldlM (sha512Update unroll) (sha512Init ctx')).bind (sha512Final unroll) =
        some (standard512.digestAt (squareRoots 64 64 0) 8 l m) := by
  intro m l
  rw [← sha224H0_eq, ← sha256H0_eq, ← sha384H0_eq, ← sha512H0_eq]
  exact ⟨final_foldlM agrees256 _ 7 ctx unroll xs hxs, final_foldlM agrees256 _ 8 ctx unroll xs hxs,
    final_foldlM agrees512 _ 6 ctx' unroll xs hxs, final_foldlM agrees512 _ 8 ctx' unroll xs hxs⟩

/-- A context before it is set. -/
def blank (w : ℕ) : Ctx w := ⟨0, 0, fun _ => 0, Vector.replicate 8 0⟩

theorem sha2_of_pieces_two :
    ([[0x61], [0x62, 0x63]].foldlM (sha224Update true) (sha224Init (blank 32))).bind
        (sha224Final true) =
        some (standard256.digestAt (squareRoots 32 64 8) 7 3 [0x61, 0x62, 0x63]) ∧
      ([[0x61], [0x62, 0x63]].foldlM (sha256Update true) (sha256Init (blank 32))).bind
        (sha256Final true) =
        some (standard256.digestAt (squareRoots 32 32 0) 8 3 [0x61, 0x62, 0x63]) ∧
      ([[0x61], [0x62, 0x63]].foldlM (sha384Update true) (sha384Init (blank 64))).bind
        (sha384Final true) =
        some (standard512.digestAt (squareRoots 64 64 8) 6 3 [0x61, 0x62, 0x63]) ∧
      ([[0x61], [0x62, 0x63]].foldlM (sha512Update true) (sha512Init (blank 64))).bind
        (sha512Final true) =
        some (standard512.digestAt (squareRoots 64 64 0) 8 3 [0x61, 0x62, 0x63]) :=
  sha2_of_pieces true (blank 32) (blank 64) [[0x61], [0x62, 0x63]] (by decide)

end Rtes.Sha2Stream
