import Rtes.Sha1Stream

/-!
What is built on the digest in `sha1.c`: files, keyed digests. A collision of the digest is one
of `sha1_process`.
-/

namespace Rtes.Sha1Hmac

open Rtes.Absorb Rtes.Bytes Rtes.Loop Rtes.Sha1 Rtes.Sha1Model Rtes.Sha1Stream Rtes.Words

variable {w : ℕ}

/-! ### Collisions -/

lemma output_injective {h h' : Regs 32} (heq : output h = output h') : h = h' := by
  have hword : ∀ x y : BitVec 32, (toBytes 4 x.toNat).reverse = (toBytes 4 y.toNat).reverse →
      x = y := by
    intro x y hxy
    exact BitVec.eq_of_toNat_eq (toBytes_injective x.isLt y.isLt (List.reverse_injective hxy))
  simp only [output, List.flatMap_cons, List.flatMap_nil, List.append_nil] at heq
  obtain ⟨hA, heq⟩ := List.append_inj heq (by simp)
  obtain ⟨hB, heq⟩ := List.append_inj heq (by simp)
  obtain ⟨hC, heq⟩ := List.append_inj heq (by simp)
  obtain ⟨hD, hE⟩ := List.append_inj heq (by simp)
  cases h
  cases h'
  simp only [Regs.mk.injEq]
  exact ⟨hword _ _ hA, hword _ _ hB, hword _ _ hC, hword _ _ hD, hword _ _ hE⟩

lemma bitLength_injective {l l' : ℕ} (hl : l < 2 ^ 61) (hl' : l' < 2 ^ 61)
    (h : bitLength l = bitLength l') : l = l' := by
  have := toBytes_injective (by omega) (by omega) (List.reverse_injective h)
  omega

/-- **Two messages with one digest are one message, or lead to a collision of `sha1_process`**
with two blocks and states that occur on the way. -/
theorem eq_or_meet_of_sha1_eq (hw : 32 ≤ w) (ctx ctx' : Context w) (xs ys : List (List Byte))
    (hxs : ∀ x ∈ xs, x.length < 2 ^ 31) (hys : ∀ y ∈ ys, y.length < 2 ^ 31)
    (hx : xs.flatten.length < 2 ^ 61) (hy : ys.flatten.length < 2 ^ 61)
    (h : (sha1Finish (xs.foldl sha1Update (sha1Starts ctx))).1 =
      (sha1Finish (ys.foldl sha1Update (sha1Starts ctx'))).1) :
    xs.flatten = ys.flatten ∨
      Meet compress 64 h0 (pad 64 bitLength xs.flatten) (pad 64 bitLength ys.flatten) := by
  rw [sha1Finish_eq hw (taken_foldl hw (taken_starts hw ctx) xs hxs),
    sha1Finish_eq hw (taken_foldl hw (taken_starts hw ctx') ys hys)] at h
  rw [or_iff_not_imp_left]
  intro hne
  exact meet_of_pad (by norm_num) (w := 8) (fun l => by simp [bitLength]) (by norm_num)
    (bitLength_injective hx hy) hne (output_injective h)

/-- One message, cut in two ways. -/
theorem eq_or_meet_of_sha1_eq_cuts :
    ([[0x61], [0x62, 0x63]] : List (List Byte)).flatten = [[0x61, 0x62], [0x63]].flatten ∨
      Meet compress 64 h0 (pad 64 bitLength [[0x61], [0x62, 0x63]].flatten)
        (pad 64 bitLength [[0x61, 0x62], [0x63]].flatten) := by
  have hw : 32 ≤ 64 := by decide
  have hxs : ∀ x ∈ ([[0x61], [0x62, 0x63]] : List (List Byte)), x.length < 2 ^ 31 := by decide
  have hys : ∀ y ∈ ([[0x61, 0x62], [0x63]] : List (List Byte)), y.length < 2 ^ 31 := by decide
  apply eq_or_meet_of_sha1_eq hw blank blank _ _ hxs hys (by decide) (by decide)
  rw [sha1Finish_eq hw (taken_foldl hw (taken_starts hw blank) _ hxs),
    sha1Finish_eq hw (taken_foldl hw (taken_starts hw blank) _ hys)]
  rfl

/-! ### Files -/

lemma iter_fileTurn (hw : 32 ≤ w) (bytes : List Byte) {ctx : Context w} {m : List Byte}
    (h : Taken ctx m) :
    ∃ ctx', iter fileTurn (bytes.length + 1) (ctx, bytes) = some ctx' ∧
      Taken ctx' (m ++ bytes) := by
  refine iter_total (fun s : Context w × List Byte => ∃ n, Taken s.1 n ∧ n ++ s.2 = m ++ bytes)
    (fun ctx' => Taken ctx' (m ++ bytes)) (fun s => s.2.length) ?_ ⟨m, h, rfl⟩
  rintro ⟨ctx, rest⟩ ⟨n, hn, heq⟩
  by_cases hrest : 0 < (rest.take 1024).length
  · refine .inl ⟨(sha1Update ctx (rest.take 1024), rest.drop 1024), ?_, ?_, ?_⟩
    · simp only [fileTurn, if_pos hrest]
    · refine ⟨n ++ rest.take 1024, taken_update hw hn ?_, ?_⟩
      · exact (List.length_take_le _ _).trans_lt (by norm_num)
      · rw [List.append_assoc, List.take_append_drop, heq]
    · simp only [List.length_take, List.length_drop] at hrest ⊢
      omega
  · refine .inr ⟨ctx, ?_, ?_⟩
    · simp only [fileTurn, if_neg hrest]
    · have : rest = [] := by simpa using hrest
      rwa [← heq, this, List.append_nil]

/-- **A file of any length**, in reads of at most 1024 bytes: the digest is that of the bytes
that could be read, and the value returned tells whether there was an error. -/
theorem sha1File_eq (hw : 32 ≤ w) (ctx : Context w) (f : File) :
    ∃ fuel, sha1File fuel ctx (some f) =
      some (if f.error then 2 else 0, some (digest f.bytes)) := by
  obtain ⟨ctx', hiter, htaken⟩ := iter_fileTurn hw f.bytes (taken_starts hw ctx)
  refine ⟨f.bytes.length + 1, ?_⟩
  rw [sha1File, hiter]
  simp [sha1Finish_eq hw htaken]

/-- Two reads of 1024 bytes and one of 452, then an error. -/
theorem sha1File_eq_error : ∃ fuel, sha1File fuel blank (some ⟨List.replicate 2500 0x61, true⟩) =
    some (2, some (digest (List.replicate 2500 0x61))) :=
  sha1File_eq (by decide) blank ⟨List.replicate 2500 0x61, true⟩

/-! ### Keyed digests -/

/-- The key with zeros up to the length of a block; a longer key is digested first. -/
def blockKey (key : List Byte) : List Byte :=
  let k := if 64 < key.length then digest key else key
  k ++ List.replicate (64 - k.length) 0

/-- HMAC with SHA-1. -/
def hmac (key m : List Byte) : List Byte :=
  digest ((blockKey key).map (0x5C ^^^ ·) ++ digest ((blockKey key).map (0x36 ^^^ ·) ++ m))

lemma length_digest (m : List Byte) : (digest m).length = 20 := by
  simp [digest, output]

/-- The loop over the key. -/
lemma foldl_key (key : List Byte) (pads : Buf × Buf) (n : ℕ) :
    (List.range n).foldl (fun (pads : Buf × Buf) i =>
      (Function.update pads.1 i (pads.1 i ^^^ key.getD i 0),
        Function.update pads.2 i (pads.2 i ^^^ key.getD i 0))) pads =
      (fun i => if i < n then pads.1 i ^^^ key.getD i 0 else pads.1 i,
        fun i => if i < n then pads.2 i ^^^ key.getD i 0 else pads.2 i) := by
  induction n with
  | zero => simp
  | succ n ih =>
    have hstep : ∀ pad : Buf, Function.update (fun i => if i < n then pad i ^^^ key.getD i 0
        else pad i) n ((if n < n then pad n ^^^ key.getD n 0 else pad n) ^^^ key.getD n 0) =
        fun i => if i < n + 1 then pad i ^^^ key.getD i 0 else pad i := by
      intro pad
      funext i
      rcases Nat.lt_trichotomy i n with h | rfl | h
      · rw [Function.update_of_ne (by omega), if_pos h, if_pos (by omega)]
      · rw [Function.update_self, if_neg (by omega), if_pos (by omega)]
      · rw [Function.update_of_ne (by omega), if_neg (by omega), if_neg (by omega)]
    rw [List.range_succ, List.foldl_append, ih, List.foldl_cons, List.foldl_nil]
    simp only [hstep]

/-- A pad: a byte 64 times, with the key added to it. -/
lemma slice_pad {k : List Byte} (hk : k.length ≤ 64) (c : Byte) (pad : Buf) :
    slice (fun i => if i < k.length then blit pad 0 (List.replicate 64 c) i ^^^ k.getD i 0
      else blit pad 0 (List.replicate 64 c) i) 0 64 =
      (k ++ List.replicate (64 - k.length) 0).map (c ^^^ ·) := by
  apply ext_getD
  · simp only [length_slice, List.length_map, List.length_append, List.length_replicate]
    omega
  · intro i hi
    rw [length_slice] at hi
    have hblit : blit pad 0 (List.replicate 64 c) i = c := by
      have hin : blit pad 0 (List.replicate 64 c) (0 + i) = (List.replicate 64 c).getD i 0 :=
        blit_in (by simpa)
      rw [Nat.zero_add] at hin
      rw [hin, List.getD_replicate _ hi]
    have hlen : i < (k ++ List.replicate (64 - k.length) 0).length := by
      simp only [List.length_append, List.length_replicate]
      omega
    have hmap : ((k ++ List.replicate (64 - k.length) 0).map (c ^^^ ·)).getD i 0 =
        c ^^^ (k ++ List.replicate (64 - k.length) 0).getD i 0 := by
      rw [List.getD_eq_getElem _ _ (by rwa [List.length_map]), List.getElem_map,
        List.getD_eq_getElem _ _ hlen]
    rw [getD_slice _ _ hi, Nat.zero_add, hblit, hmap]
    split_ifs with h
    · rw [List.getD_append _ _ _ _ h]
    · rw [List.getD_append_right _ _ _ _ (by omega), List.getD_replicate _ (by omega)]
      exact BitVec.xor_zero.symm

lemma opad_update (ctx : Context w) (x : List Byte) : (sha1Update ctx x).opad = ctx.opad := by
  unfold sha1Update
  split_ifs <;> rfl

lemma opad_foldl (ctx : Context w) (xs : List (List Byte)) :
    (xs.foldl sha1HmacUpdate ctx).opad = ctx.opad := by
  induction xs generalizing ctx with
  | nil => rfl
  | cons x xs ih => rw [List.foldl_cons, ih, sha1HmacUpdate, opad_update]

lemma opad_finish (ctx : Context w) : (sha1Finish ctx).2.opad = ctx.opad := by
  simp only [sha1Finish, opad_update]

section

variable (hw : 32 ≤ w)
include hw

lemma hmacStarts (scratch ctx : Context w) {key : List Byte} (hkey : key.length < 2 ^ 31) :
    Taken (sha1HmacStarts scratch ctx key) ((blockKey key).map (0x36 ^^^ ·)) ∧
      slice (sha1HmacStarts scratch ctx key).opad 0 64 = (blockKey key).map (0x5C ^^^ ·) := by
  have hsha : sha1 scratch key = digest key := by
    have h := taken_update hw (taken_starts hw scratch) hkey
    exact sha1Finish_eq hw h
  obtain ⟨k, hk⟩ : ∃ k, (if 64 < key.length then digest key else key) = k := ⟨_, rfl⟩
  have hlen : k.length ≤ 64 := by
    rw [← hk]
    split_ifs
    · rw [length_digest]
      norm_num
    · omega
  have hblock : blockKey key = k ++ List.replicate (64 - k.length) 0 := by rw [blockKey, hk]
  unfold sha1HmacStarts
  simp only [hsha, hk, foldl_key, opad_update, hblock]
  refine ⟨?_, slice_pad hlen 0x5C ctx.opad⟩
  have hpad := slice_pad hlen 0x36 ctx.ipad
  rw [← hpad]
  exact taken_update hw (taken_starts hw _) (by simp)

lemma hmacFinish {ctx : Context w} {m : List Byte} (h : Taken ctx m) :
    (sha1HmacFinish ctx).1 = digest (slice ctx.opad 0 64 ++ digest m) := by
  have hopad : (sha1Starts (sha1Finish ctx).2).opad = ctx.opad := opad_finish ctx
  have h1 := taken_update hw (taken_starts hw (sha1Finish ctx).2) (x := slice ctx.opad 0 64)
    (by simp)
  have h2 := taken_update hw h1 (x := digest m) (by rw [length_digest]; norm_num)
  simp only [sha1HmacFinish, hopad, sha1Finish_eq hw h]
  exact sha1Finish_eq hw h2

/-- **The keyed digest of a message in pieces** is HMAC of the key and the message, for keys
shorter and longer than a block. -/
theorem sha1Hmac_of_pieces (scratch ctx : Context w) (key : List Byte) (xs : List (List Byte))
    (hkey : key.length < 2 ^ 31) (hxs : ∀ x ∈ xs, x.length < 2 ^ 31) :
    (sha1HmacFinish (xs.foldl sha1HmacUpdate (sha1HmacStarts scratch ctx key))).1 =
      hmac key xs.flatten := by
  obtain ⟨h, hopad⟩ := hmacStarts hw scratch ctx hkey
  have hfold : Taken (xs.foldl sha1HmacUpdate (sha1HmacStarts scratch ctx key))
      ((blockKey key).map (0x36 ^^^ ·) ++ xs.flatten) := taken_foldl hw h xs hxs
  rw [hmacFinish hw hfold, opad_foldl, hopad, hmac]

end

theorem sha1Hmac_of_pieces_long_key :
    (sha1HmacFinish ([[0x61], [0x62]].foldl sha1HmacUpdate
      (sha1HmacStarts blank blank (List.replicate 65 0xAA)))).1 =
        hmac (List.replicate 65 0xAA) [0x61, 0x62] :=
  sha1Hmac_of_pieces (by decide) blank blank (List.replicate 65 0xAA) [[0x61], [0x62]]
    (by decide) (by decide)

end Rtes.Sha1Hmac
