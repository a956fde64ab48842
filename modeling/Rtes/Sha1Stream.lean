import Rtes.Sha1

/-!
The context of `sha1.c` over a sequence of calls.
-/

namespace Rtes.Sha1Stream

open Rtes.Absorb Rtes.Bytes Rtes.Sha1 Rtes.Sha1Model Rtes.Words

variable {w : ℕ}

/-- The context has been given `m`. -/
structure Taken (ctx : Context w) (m : List Byte) : Prop where
  tracks : Tracks compress 64 h0 (low ctx.state) ctx.buffer m
  total0 : ctx.total0.toNat = m.length % 2 ^ 32
  total1 : ctx.total1.toNat = m.length / 2 ^ 32 % 2 ^ w

section

variable (hw : 32 ≤ w)
include hw

lemma low_process (state : Regs w) {data : List Byte} (hdata : data.length = 64) :
    low (sha1Process state data) = compress (low state) data := by
  rw [low_sha1Process hw, sha1Process_eq _ hdata]

lemma taken_starts (ctx : Context w) : Taken (sha1Starts ctx) [] where
  tracks := by
    have hstate : low (sha1Starts ctx).state = h0 := by
      simp only [low, sha1Starts, h0, BitVec.ofNat_eq_ofNat, BitVec.setWidth_ofNat_of_le hw]
    rw [hstate]
    exact Tracks.init h0 _
  total0 := by simp [sha1Starts]
  total1 := by simp [sha1Starts]

lemma toNat_mod (x : BitVec w) {j : ℕ} (hj : j ≤ 32) :
    (x &&& BitVec.ofNat w (2 ^ j - 1)).toNat = x.toNat % 2 ^ j := by
  have hlt : 2 ^ j - 1 < 2 ^ w := by
    have h1 : 2 ^ j ≤ 2 ^ w := Nat.pow_le_pow_right (by norm_num) (by omega)
    have h2 : 0 < 2 ^ j := by positivity
    omega
  rw [BitVec.toNat_and, BitVec.toNat_ofNat, Nat.mod_eq_of_lt hlt, Nat.and_two_pow_sub_one_eq_mod]

lemma left_eq {ctx : Context w} {m : List Byte} (h : Taken ctx m) :
    (ctx.total0 &&& 0x3F).toNat = m.length % 64 := by
  have := toNat_mod hw ctx.total0 (j := 6) (by norm_num)
  rw [h.total0] at this
  exact this.trans (by omega)

/-- The counter of bytes. -/
lemma total_update {ctx : Context w} {m x : List Byte} (h : Taken ctx m)
    (hx : x.length < 2 ^ 31) :
    let ilen : BitVec w := BitVec.ofNat w x.length
    let total0 := (ctx.total0 + ilen) &&& 0xFFFFFFFF
    total0.toNat = (m ++ x).length % 2 ^ 32 ∧
      (if total0 < ilen then ctx.total1 + 1 else ctx.total1).toNat =
        (m ++ x).length / 2 ^ 32 % 2 ^ w := by
  have hpow : 2 ^ 32 ≤ 2 ^ w := Nat.pow_le_pow_right (by norm_num) hw
  have hdvd : 2 ^ 32 ∣ 2 ^ w := Nat.pow_dvd_pow 2 hw
  have hilen : (BitVec.ofNat w x.length).toNat = x.length := by
    rw [BitVec.toNat_ofNat, Nat.mod_eq_of_lt (by omega)]
  have h0 : ((ctx.total0 + BitVec.ofNat w x.length) &&& 0xFFFFFFFF).toNat =
      (m ++ x).length % 2 ^ 32 := by
    have := toNat_mod hw (ctx.total0 + BitVec.ofNat w x.length) (j := 32) le_rfl
    refine this.trans ?_
    rw [BitVec.toNat_add, hilen, h.total0, Nat.mod_mod_of_dvd _ hdvd, Nat.mod_add_mod,
      List.length_append]
  refine ⟨h0, ?_⟩
  have hlt : ((ctx.total0 + BitVec.ofNat w x.length) &&& 0xFFFFFFFF) < BitVec.ofNat w x.length ↔
      2 ^ 32 ≤ m.length % 2 ^ 32 + x.length := by
    rw [BitVec.lt_def, h0, hilen, List.length_append]
    omega
  have hone : (1 : BitVec w).toNat = 1 := by
    have : 1 < 2 ^ w := by omega
    simpa using Nat.mod_eq_of_lt this
  rw [List.length_append]
  split_ifs with hc
  · rw [hlt] at hc
    rw [BitVec.toNat_add, h.total1, hone, Nat.mod_add_mod]
    congr 1
    omega
  · rw [hlt] at hc
    rw [h.total1]
    congr 1
    omega

/-- The loop over whole blocks. -/
lemma drain_process (state : Regs w) (x : List Byte) :
    low (drain sha1Process 64 x.length state x).1 = absorb compress 64 (low state) x ∧
      (drain sha1Process 64 x.length state x).2 = rest 64 x := by
  have h := drain_map low (fun s b hb => low_process hw s hb) x.length state x
  rw [drain_eq (by norm_num) le_rfl, Prod.mk.injEq] at h
  exact ⟨h.1.symm, h.2.symm⟩

lemma tracks_update {ctx : Context w} {m x : List Byte} (h : Taken ctx m) (hx : x.length ≠ 0) :
    Tracks compress 64 h0 (low (sha1Update ctx x).state) (sha1Update ctx x).buffer (m ++ x) := by
  unfold sha1Update
  simp only [if_neg hx, left_eq hw h]
  by_cases hfill : m.length % 64 ≠ 0 ∧ 64 - m.length % 64 ≤ x.length
  · -- the buffer is filled first
    simp only [if_pos hfill, ite_blit]
    obtain ⟨hs, hr⟩ := h.tracks.fill (x := x) (by norm_num) (by omega)
    obtain ⟨hd, hd'⟩ := drain_process hw (sha1Process ctx.state (slice (blit ctx.buffer
      (m.length % 64) (x.take (64 - m.length % 64))) 0 64)) (x.drop (64 - m.length % 64))
    rw [hd', hr]
    apply Tracks.of_absorb
    rw [hd, low_process hw _ (by simp), hs]
  · simp only [if_neg hfill, ite_blit]
    obtain ⟨hd, hd'⟩ := drain_process hw ctx.state x
    by_cases h0 : m.length % 64 = 0
    · obtain ⟨hs, hr⟩ := h.tracks.aligned (by norm_num) h0 x
      rw [hd', hr, h0]
      apply Tracks.of_absorb
      rw [hd, hs]
    · -- nothing to compress
      have hlt : m.length % 64 + x.length < 64 := by omega
      rw [hd, hd', absorb_of_lt (by omega), rest_of_lt (by omega)]
      exact h.tracks.keep hlt

lemma taken_update {ctx : Context w} {m x : List Byte} (h : Taken ctx m)
    (hx : x.length < 2 ^ 31) : Taken (sha1Update ctx x) (m ++ x) := by
  by_cases h0 : x.length = 0
  · rw [List.length_eq_zero_iff] at h0
    subst h0
    rwa [List.append_nil]
  · obtain ⟨ht0, ht1⟩ := total_update hw h hx
    refine ⟨tracks_update hw h h0, ?_, ?_⟩
    · rw [← ht0, sha1Update, if_neg h0]
    · rw [← ht1, sha1Update, if_neg h0]

/-! ### The end of the message -/

omit hw in
lemma putUlongBe_eq (n : BitVec w) : putUlongBe n = (toBytes 4 n.toNat).reverse := by
  rw [toBytes_succ, toBytes_succ, toBytes_succ, toBytes_succ, toBytes, ← BitVec.shiftRight_add,
    ← BitVec.shiftRight_add]
  rfl

omit hw in
/-- Only the low 32 bits are stored. -/
lemma putUlongBe_of_mod {x : BitVec w} {v : ℕ} (h : x.toNat % 2 ^ 32 = v % 2 ^ 32) :
    putUlongBe x = (toBytes 4 v).reverse := by
  have hlow : toBytes 4 x.toNat = toBytes 4 v := toBytes_congr (by simpa using h)
  rw [putUlongBe_eq, hlow]

/-- The length in bits. -/
lemma msglen_eq {ctx : Context w} {m : List Byte} (h : Taken ctx m) :
    putUlongBe (ctx.total0 >>> 29 ||| ctx.total1 <<< 3) ++ putUlongBe (ctx.total0 <<< 3) =
      bitLength m.length := by
  have hdvd : 2 ^ 32 ∣ 2 ^ w := Nat.pow_dvd_pow 2 hw
  have hlow : (ctx.total0 <<< 3).toNat % 2 ^ 32 = 8 * m.length % 2 ^ 32 := by
    rw [BitVec.toNat_shiftLeft, Nat.shiftLeft_eq, Nat.mod_mod_of_dvd _ hdvd, h.total0]
    omega
  have hhigh : (ctx.total0 >>> 29 ||| ctx.total1 <<< 3).toNat % 2 ^ 32 =
      8 * m.length / 2 ^ 32 % 2 ^ 32 := by
    have h1 : ctx.total0.toNat / 2 ^ 29 % 2 ^ 32 = m.length % 2 ^ 32 / 2 ^ 29 := by
      rw [h.total0]
      omega
    have h2 : ctx.total1.toNat * 2 ^ 3 % 2 ^ w % 2 ^ 32 = (m.length / 2 ^ 32 % 2 ^ 29) <<< 3 := by
      rw [Nat.mod_mod_of_dvd _ hdvd, h.total1, Nat.shiftLeft_eq, ← Nat.mod_mul_mod,
        Nat.mod_mod_of_dvd _ hdvd]
      omega
    rw [BitVec.toNat_or, BitVec.toNat_ushiftRight, BitVec.toNat_shiftLeft, Nat.shiftLeft_eq,
      Nat.shiftRight_eq_div_pow, Nat.or_mod_two_pow, h1, h2, Nat.or_comm,
      ← Nat.shiftLeft_add_eq_or_of_lt (by omega), Nat.shiftLeft_eq]
    omega
  rw [putUlongBe_of_mod hhigh, putUlongBe_of_mod hlow, bitLength, toBytes_add 4 4,
    List.reverse_append]
  rfl

omit hw in
lemma padding_eq (m : List Byte) :
    let last := m.length % 64
    m ++ (sha1Padding.take (if last < 56 then 56 - last else 120 - last)) ++
      bitLength m.length = pad 64 bitLength m := by
  intro last
  have hlast : last < 64 := Nat.mod_lt _ (by norm_num)
  have hlen : (bitLength m.length).length = 8 := by simp [bitLength]
  obtain ⟨z, hz, hz'⟩ : ∃ z, (if last < 56 then 56 - last else 120 - last) = z + 1 ∧
      fillers 64 8 m.length = z := by
    refine ⟨_, ?_, rfl⟩
    unfold fillers
    split_ifs <;> omega
  have hz64 : z ≤ 63 := by
    split_ifs at hz <;> omega
  rw [hz, pad, hlen, hz', sha1Padding, List.take_succ_cons, List.take_replicate,
    Nat.min_eq_left hz64]
  simp

omit hw in
lemma output_low (v : Regs w) : putUlongBe v.A ++ putUlongBe v.B ++ putUlongBe v.C ++
    putUlongBe v.D ++ putUlongBe v.E = output (low v) := by
  have hput : ∀ x : BitVec w, putUlongBe x = (toBytes 4 (x.setWidth 32).toNat).reverse :=
    fun x => putUlongBe_of_mod (by simp)
  simp [hput, output, low]

/-- `sha1_finish` writes the digest of what the context has been given. -/
theorem sha1Finish_eq {ctx : Context w} {m : List Byte} (h : Taken ctx m) :
    (sha1Finish ctx).1 = digest m := by
  have hmsg := msglen_eq hw h
  have hpad := padding_eq m
  simp only [sha1Finish, left_eq hw h, hmsg]
  have h1 := taken_update hw h (x := sha1Padding.take
    (if m.length % 64 < 56 then 56 - m.length % 64 else 120 - m.length % 64))
    (by simp [sha1Padding])
  have h2 := taken_update hw h1 (x := bitLength m.length) (by simp [bitLength])
  rw [output_low, h2.tracks.state, hpad, digest]

lemma taken_foldl {ctx : Context w} {m : List Byte} (h : Taken ctx m) (xs : List (List Byte))
    (hxs : ∀ x ∈ xs, x.length < 2 ^ 31) : Taken (xs.foldl sha1Update ctx) (m ++ xs.flatten) := by
  induction xs generalizing ctx m with
  | nil => simpa using h
  | cons x xs ih =>
    rw [List.foldl_cons, List.flatten_cons, ← List.append_assoc]
    exact ih (taken_update hw h (hxs x (by simp))) fun y hy => hxs y (by simp [hy])

/-- **A message in pieces.** Whatever the pieces, and whatever was in the context before, the
output is the SHA-1 digest of the message. -/
theorem sha1_of_pieces (ctx : Context w) (xs : List (List Byte))
    (hxs : ∀ x ∈ xs, x.length < 2 ^ 31) :
    (sha1Finish (xs.foldl sha1Update (sha1Starts ctx))).1 = digest xs.flatten :=
  sha1Finish_eq hw (taken_foldl hw (taken_starts hw ctx) xs hxs)

end

/-- A context before it is set. -/
def blank : Context 64 := ⟨0, 0, ⟨0, 0, 0, 0, 0⟩, fun _ => 0, fun _ => 0, fun _ => 0⟩

theorem sha1_of_pieces_three :
    (sha1Finish ([[0x61], [], [0x62, 0x63]].foldl sha1Update (sha1Starts blank))).1 =
      digest [0x61, 0x62, 0x63] :=
  sha1_of_pieces (by decide) blank [[0x61], [], [0x62, 0x63]] (by decide)

end Rtes.Sha1Stream
