import Rtes.RaidStripe

/-!
Restoring a striped file with one chunk lost, and the parity of the array over whole runs.

A round reads the parts of one stripe from the chunks that are left and rebuilds the part
of the one that is not, which parity determines. So a restore that starts from what
`stripeFile` left, whatever has become of the missing chunk, writes the input back.
-/

namespace Rtes.RaidRestore

open Rtes.Bytes Rtes.Loop Rtes.RaidModel Rtes.RaidStripe

/-! ### Rebuilding a sector -/

lemma rebuildLBA_at {l1 l2 l3 p r : ℕ} (h1 : l1 + 512 ≤ r ∨ r + 512 ≤ l1)
    (h2 : l2 + 512 ≤ r ∨ r + 512 ≤ l2) (h3 : l3 + 512 ≤ r ∨ r + 512 ≤ l3)
    (hp : p + 512 ≤ r ∨ r + 512 ≤ p) (b : Buf) (i : ℕ) : rebuildLBA l1 l2 l3 p r b i =
      if r ≤ i ∧ i < r + 512 then
        b (p + (i - r)) ^^^ (b (l1 + (i - r)) ^^^ b (l2 + (i - r)) ^^^ b (l3 + (i - r)))
      else b i := by
  refine foldl_update r (fun b idx => b (p + idx) ^^^ (b (l1 + idx) ^^^ b (l2 + idx) ^^^
    b (l3 + idx))) 512 ?_ b i
  intro b b' idx h hidx
  simp only [h (p + idx) (by omega), h (l1 + idx) (by omega), h (l2 + idx) (by omega),
    h (l3 + idx) (by omega)]

lemma xor_missing {a b c d e : Byte} (h : a ^^^ b ^^^ c ^^^ d ^^^ e = 0) :
    a = e ^^^ (b ^^^ c ^^^ d) ∧ b = e ^^^ (a ^^^ c ^^^ d) ∧ c = e ^^^ (a ^^^ b ^^^ d) ∧
      d = e ^^^ (a ^^^ b ^^^ c) ∧ e = d ^^^ (a ^^^ b ^^^ c) := by
  have hbit : ∀ a b c d e : Bool, (a ^^ b ^^ c ^^ d ^^ e) = false →
      a = (e ^^ (b ^^ c ^^ d)) ∧ b = (e ^^ (a ^^ c ^^ d)) ∧ c = (e ^^ (a ^^ b ^^ d)) ∧
        d = (e ^^ (a ^^ b ^^ c)) ∧ e = (d ^^ (a ^^ b ^^ c)) := by decide
  have hi : ∀ i, (a.getLsbD i ^^ b.getLsbD i ^^ c.getLsbD i ^^ d.getLsbD i ^^ e.getLsbD i) =
      false := by
    intro i
    have := congrArg (fun x => BitVec.getLsbD x i) h
    simpa using this
  refine ⟨?_, ?_, ?_, ?_, ?_⟩ <;> apply BitVec.eq_of_getLsbD_eq <;> intro i _ <;>
    simp only [BitVec.getLsbD_xor]
  · exact (hbit _ _ _ _ _ (hi i)).1
  · exact (hbit _ _ _ _ _ (hi i)).2.1
  · exact (hbit _ _ _ _ _ (hi i)).2.2.1
  · exact (hbit _ _ _ _ _ (hi i)).2.2.2.1
  · exact (hbit _ _ _ _ _ (hi i)).2.2.2.2

/-- Rebuilding sector `j` of a stripe from the other four. -/
lemma rebuildLBA_part (j1 j2 j3 jp j : Fin 5) (hne : j ≠ j1 ∧ j ≠ j2 ∧ j ≠ j3 ∧ j ≠ jp) {b : Buf}
    {v : Fin 5 → Byte} {k : ℕ} (hk : k < 512) (hb : ∀ c : Fin 5, c ≠ j → b (512 * c + k) = v c)
    (hv : v j = v jp ^^^ (v j1 ^^^ v j2 ^^^ v j3)) (c : Fin 5) :
    rebuildLBA (512 * j1) (512 * j2) (512 * j3) (512 * jp) (512 * j) b (512 * c + k) = v c := by
  obtain ⟨h1, h2, h3, hp⟩ := hne
  rw [rebuildLBA_at (by omega) (by omega) (by omega) (by omega)]
  by_cases hc : c = j
  · subst hc
    rw [if_pos ⟨by omega, by omega⟩, Nat.add_sub_cancel_left, hb jp hp.symm, hb j1 h1.symm,
      hb j2 h2.symm, hb j3 h3.symm, hv]
  · rw [if_neg (by omega), hb c hc]

/-- **Rebuilding.** If all sectors but the missing one hold their part of a stripe, then all
do after `rebuild`. -/
theorem rebuild_part {m : ℤ} (hm0 : 0 ≤ m) (hm5 : m ≤ 5) {b : Buf} {v : Fin 5 → Byte} {k : ℕ}
    (hk : k < 512) (hpar : parity v = 0) (hb : ∀ c : Fin 5, m ≠ c + 1 → b (512 * c + k) = v c)
    (c : Fin 5) : rebuild m b (512 * c + k) = v c := by
  obtain ⟨e0, e1, e2, e3, e4⟩ := xor_missing hpar
  have hother : ∀ j : Fin 5, m = j + 1 → ∀ c : Fin 5, c ≠ j → b (512 * c + k) = v c :=
    fun j hj c hc => hb c (by omega)
  interval_cases m
  · exact hb c (by omega)
  · exact rebuildLBA_part 1 2 3 4 0 (by simp) hk (hother 0 rfl) e0 c
  · exact rebuildLBA_part 0 2 3 4 1 (by simp) hk (hother 1 rfl) e1 c
  · exact rebuildLBA_part 0 1 3 4 2 (by simp) hk (hother 2 rfl) e2 c
  · exact rebuildLBA_part 0 1 2 4 3 (by simp) hk (hother 3 rfl) e3 c
  · exact rebuildLBA_part 0 1 2 3 4 (by simp) hk (hother 4 rfl) e4 c

/-! ### Reading and restoring one stripe -/

lemma readLoop_once {xfer : Xfer} {s : Restoring} (hx : xfer s.calls 512 = 512) (fuel : ℕ)
    {file : Fin 5 → List Byte} {c : Fin 5} (offset : ℕ) (hlen : s.pos c + 512 ≤ (file c).length) :
    readLoop xfer (fuel + 1) file c offset s = some { s with
      stripe := blit s.stripe offset (((file c).drop (s.pos c)).take 512)
      pos := Function.update s.pos c (s.pos c + 512)
      calls := s.calls + 1 } := by
  have hmin : min 512 ((file c).drop (s.pos c)).length = 512 := by
    rw [List.length_drop]
    omega
  exact iter_inr (by simp only [hmin, hx]; simp) fuel

section Part

variable {xfer : Xfer} {file : Fin 5 → List Byte} {m : ℤ} {c : Fin 5} {s : Restoring}

/-- The next 512 bytes of the chunk are in its slot of the stripe, and the rest of the stripe is as
it was. -/
structure PartRead (file : Fin 5 → List Byte) (c : Fin 5) (s s' : Restoring) : Prop where
  pos : s'.pos c = s.pos c + 512
  slot : ∀ k < 512, s'.stripe (512 * c + k) = (file c).getD (s.pos c + k) 0
  others : ∀ i : ℕ, i < 512 * c ∨ 512 * c + 512 ≤ i → s'.stripe i = s.stripe i

/-- Chunk `c` after one complete read of its part, unless it is the missing one. -/
def wholePart (file : Fin 5 → List Byte) (m : ℤ) (c : Fin 5) (s : Restoring) : Restoring :=
  if m = c + 1 then s else { s with
    stripe := blit s.stripe (512 * c) (((file c).drop (s.pos c)).take 512)
    pos := Function.update s.pos c (s.pos c + 512)
    calls := s.calls + 1 }

lemma wholePart_calls : (wholePart file m c s).calls = s.calls + if m ≠ c + 1 then 1 else 0 := by
  unfold wholePart
  by_cases hm : m = c + 1
  · rw [if_pos hm, if_neg (not_not.mpr hm), Nat.add_zero]
  · rw [if_neg hm, if_pos hm]

lemma wholePart_other {d : Fin 5} (hd : d ≠ c) : (wholePart file m c s).pos d = s.pos d := by
  unfold wholePart
  split_ifs
  · rfl
  · exact Function.update_of_ne hd _ _

lemma wholePart_out : (wholePart file m c s).out = s.out := by
  unfold wholePart
  split_ifs <;> rfl

lemma length_part (hlen : s.pos c + 512 ≤ (file c).length) :
    (((file c).drop (s.pos c)).take 512).length = 512 := by
  rw [List.length_take, List.length_drop]
  omega

lemma wholePart_others (hlen : m ≠ c + 1 → s.pos c + 512 ≤ (file c).length) {i : ℕ}
    (hi : i < 512 * c ∨ 512 * c + 512 ≤ i) : (wholePart file m c s).stripe i = s.stripe i := by
  unfold wholePart
  split_ifs with hm
  · rfl
  · have h512 := length_part (hlen hm)
    exact blit_out (by omega)

lemma partRead_wholePart (hm : m ≠ c + 1) (hlen : s.pos c + 512 ≤ (file c).length) :
    PartRead file c s (wholePart file m c s) := by
  have h512 := length_part hlen
  refine ⟨?_, fun k hk => ?_, fun i hi => wholePart_others (fun _ => hlen) hi⟩
  · unfold wholePart
    rw [if_neg hm]
    exact Function.update_self _ _ _
  · unfold wholePart
    rw [if_neg hm]
    dsimp only
    rw [blit_in (by omega), List.getD_eq_getElem?_getD, List.getElem?_take_of_lt hk,
      List.getElem?_drop, ← List.getD_eq_getElem?_getD]

lemma readPart_whole (fuel : ℕ) (hfull : m ≠ c + 1 → xfer s.calls 512 = 512)
    (hlen : m ≠ c + 1 → s.pos c + 512 ≤ (file c).length) :
    readPart xfer (fuel + 1) file m c (512 * c) s = some (wholePart file m c s) := by
  unfold readPart wholePart
  split_ifs with hm
  · rfl
  · exact readLoop_once (hfull hm) fuel _ (hlen hm)

end Part

section Stripe

variable {m : ℤ} {file : Fin 5 → List Byte} {v : Fin 5 → ℕ → Byte} {t : ℕ} {out : List Byte}

/-- The chunks that are left hold the parts `v` of stripe `t`. -/
def Left (m : ℤ) (file : Fin 5 → List Byte) (v : Fin 5 → ℕ → Byte) (t : ℕ) : Prop :=
  ∀ c : Fin 5, m ≠ c + 1 → 512 * (t + 1) ≤ (file c).length ∧
    ∀ k < 512, (file c).getD (512 * t + k) 0 = v c k

/-- The parts of the chunks below `j` have been read. -/
structure ReadTo (m : ℤ) (v : Fin 5 → ℕ → Byte) (t : ℕ) (out : List Byte) (j : ℕ)
    (s : Restoring) : Prop where
  got : ∀ c : Fin 5, m ≠ c + 1 → (c : ℕ) < j →
    s.pos c = 512 * (t + 1) ∧ ∀ k < 512, s.stripe (512 * c + k) = v c k
  wait : ∀ c : Fin 5, m ≠ c + 1 → j ≤ (c : ℕ) → s.pos c = 512 * t
  out : s.out = out

lemma readPart_step (fuel : ℕ) (hl : Left m file v t) (c : Fin 5) {s : Restoring}
    (h : ReadTo m v t out c s) :
    ∃ s', readPart full (fuel + 1) file m c (512 * c) s = some s' ∧
      ReadTo m v t out (c + 1) s' := by
  have hlen : m ≠ c + 1 → s.pos c + 512 ≤ (file c).length := by
    intro hm
    have h1 := (hl c hm).1
    have h2 := h.wait c hm le_rfl
    omega
  refine ⟨_, readPart_whole fuel (fun _ => rfl) hlen, ⟨fun d hd hlt => ?_, fun d hd hle => ?_,
    wholePart_out.trans h.out⟩⟩
  · by_cases hdc : d = c
    · subst hdc
      have hread := partRead_wholePart hd (hlen hd)
      have hpos := h.wait d hd le_rfl
      refine ⟨by rw [hread.pos, hpos, Nat.mul_succ], fun k hk => ?_⟩
      rw [hread.slot k hk, hpos]
      exact (hl d hd).2 k hk
    · obtain ⟨hp, hs⟩ := h.got d hd (by omega)
      refine ⟨(wholePart_other hdc).trans hp, fun k hk => ?_⟩
      rw [wholePart_others hlen (by omega)]
      exact hs k hk
  · have hdc : d ≠ c := by rintro rfl; omega
    exact (wholePart_other hdc).trans (h.wait d hd (by omega))

/-- **One round of `restoreFile`** with complete reads writes the data of the stripe. -/
theorem restoreRound_full (fuel : ℕ) (hm0 : 0 ≤ m) (hm5 : m ≤ 5) (hl : Left m file v t)
    (hpar : ∀ k < 512, parity (fun c => v c k) = 0) {total : ℕ} {s : Restoring}
    (hpos : ∀ c : Fin 5, m ≠ c + 1 → s.pos c = 512 * t) :
    ∃ s' b, restoreRound full (fuel + 1) file m total s = some s' ∧
      (∀ c : Fin 5, m ≠ c + 1 → s'.pos c = 512 * (t + 1)) ∧ s'.out = s.out ++ slice b 0 total ∧
      ∀ c : Fin 5, ∀ k < 512, b (512 * c + k) = v c k := by
  obtain ⟨s0, e0, h0⟩ := readPart_step fuel hl 0
    (s := s) ⟨fun _ _ h => absurd h (by simp), fun c hc _ => hpos c hc, rfl⟩
  obtain ⟨s1, e1, h1⟩ := readPart_step fuel hl 1 h0
  obtain ⟨s2, e2, h2⟩ := readPart_step fuel hl 2 h1
  obtain ⟨s3, e3, h3⟩ := readPart_step fuel hl 3 h2
  obtain ⟨s4, e4, h4⟩ := readPart_step fuel hl 4 h3
  let b := rebuild m s4.stripe
  refine ⟨{ s4 with stripe := b, out := s4.out ++ slice b 0 total }, b, ?_,
    fun c hc => (h4.got c hc (by omega)).1, ?_, fun c k hk => ?_⟩
  · have hfw : fwriteLoop (fuel + 1) total { s4 with stripe := b } = some
        { s4 with stripe := b, out := s4.out ++ slice b 0 total } :=
      iter_inr (by simp) fuel
    have r0 : readPart full (fuel + 1) file m 0 0 s = some s0 := e0
    have r1 : readPart full (fuel + 1) file m 1 512 s0 = some s1 := e1
    have r2 : readPart full (fuel + 1) file m 2 1024 s1 = some s2 := e2
    have r3 : readPart full (fuel + 1) file m 3 1536 s2 = some s3 := e3
    have r4 : readPart full (fuel + 1) file m 4 2048 s3 = some s4 := e4
    unfold restoreRound
    simp only [r0, r1, r2, r3, r4, Option.bind_eq_bind, Option.bind_some]
    exact hfw
  · rw [h4.out]
  · exact rebuild_part hm0 hm5 hk (hpar k hk) (fun d hd => (h4.got d hd (by omega)).2 k hk) c

end Stripe

/-! ### The round trip -/

lemma cell_data (l : List Byte) {i : ℕ} (hi : i < 2048) :
    cell l ⟨i / 512, by omega⟩ (i % 512) = l.getD i 0 := by
  unfold cell
  rw [if_neg (by rw [Fin.ext_iff]; simp; omega)]
  congr 1
  simp only
  omega

section File

variable {m : ℤ} {file : Fin 5 → List Byte} {input : List Byte}

/-- The chunks that are left hold their parts of the first `n` stripes of the input. -/
def Kept (m : ℤ) (file : Fin 5 → List Byte) (input : List Byte) (n : ℕ) : Prop :=
  ∀ t < n, Left m file (fun c k => cell (input.drop (2048 * t)) c k) t

/-- A round on stripe `t` writes the next `total` bytes of the input. -/
lemma restoreRound_input (fuel : ℕ) (hm0 : 0 ≤ m) (hm5 : m ≤ 5) {n t total : ℕ}
    (hk : Kept m file input n) (ht : t < n) (htot : total ≤ 2048)
    (hlen : 2048 * t + total ≤ input.length) {s : Restoring}
    (hpos : ∀ c : Fin 5, m ≠ c + 1 → s.pos c = 512 * t) (hout : s.out = input.take (2048 * t)) :
    ∃ s', restoreRound full (fuel + 1) file m total s = some s' ∧
      (∀ c : Fin 5, m ≠ c + 1 → s'.pos c = 512 * (t + 1)) ∧
      s'.out = input.take (2048 * t + total) := by
  obtain ⟨s', b, hs', hp, ho, hb⟩ := restoreRound_full fuel hm0 hm5 (hk t ht)
    (fun k _ => parity_cell _ k) hpos
  refine ⟨s', hs', hp, ?_⟩
  rw [ho, hout, List.take_add, slice_eq_take_drop hlen]
  intro i hi
  have h := hb ⟨i / 512, by omega⟩ (i % 512) (by omega)
  rw [cell_data _ (by omega), List.getD_eq_getElem?_getD, List.getElem?_drop,
    ← List.getD_eq_getElem?_getD] at h
  rw [← h]
  congr 1
  simp only
  omega

lemma restoreRounds_input (fuel : ℕ) (hm0 : 0 ≤ m) (hm5 : m ≤ 5) {n : ℕ} (hk : Kept m file input n)
    (junk : Buf) {q : ℕ} (hq : q ≤ n) (hlen : 2048 * q ≤ input.length) :
    ∃ s, (List.range q).foldlM (fun s _ => restoreRound full (fuel + 1) file m 2048 s)
        ⟨junk, fun _ => 0, [], 0⟩ = some s ∧
      (∀ c : Fin 5, m ≠ c + 1 → s.pos c = 512 * q) ∧ s.out = input.take (2048 * q) := by
  induction q with
  | zero => exact ⟨_, rfl, fun _ _ => rfl, by simp⟩
  | succ q ih =>
    obtain ⟨s, hs, hp, ho⟩ := ih (by omega) (by omega)
    obtain ⟨s', hs', hp', ho'⟩ := restoreRound_input fuel hm0 hm5 hk (t := q) (by omega) le_rfl
      (by omega) hp ho
    refine ⟨s', ?_, hp', by rw [ho']; congr 1⟩
    rw [List.range_succ, List.foldlM_append, hs]
    simpa using hs'

/-- **`restoreFile` writes back an input** whose stripes the chunks that are left hold. -/
theorem restoreFile_input {fuel : ℕ} (hf : 1 ≤ fuel) (hm0 : 0 ≤ m) (hm5 : m ≤ 5) (junk : Buf)
    {fs : Chunks} (hk : Kept m (opened fs) input (input.length / 2048 + 1)) :
    restoreFile full fuel junk fs input.length m =
      some ((input.length : ℤ), input, fun c => some (opened fs c)) := by
  obtain ⟨fuel, rfl⟩ : ∃ k, fuel = k + 1 := ⟨fuel - 1, by omega⟩
  obtain ⟨s, hs, hp, ho⟩ := restoreRounds_input fuel hm0 hm5 hk junk (q := input.length / 2048)
    (by omega) (by omega)
  have hq : ((input.length : ℤ).tdiv 2048).toNat = input.length / 2048 := by
    rw [Int.tdiv_eq_ediv_of_nonneg (by omega)]
    omega
  have hr : (input.length : ℤ).tmod 2048 = (input.length % 2048 : ℕ) := by
    rw [Int.tmod_eq_emod_of_nonneg (by omega)]
    omega
  unfold restoreFile
  simp only [hq, hr, hs, Option.bind_eq_bind, Option.bind_some]
  by_cases hlast : input.length % 2048 = 0
  · have hall : s.out = input := by
      rw [ho, List.take_of_length_le (by omega)]
    simp [hlast, hall]
  · obtain ⟨s', hs', -, ho'⟩ := restoreRound_input fuel hm0 hm5 hk (t := input.length / 2048)
      (Nat.lt_succ_self _) (Nat.mod_lt input.length (by omega)).le (by omega) hp ho
    have hall : s'.out = input := by
      rw [ho', List.take_of_length_le (by omega)]
    rw [if_pos (by exact_mod_cast hlast), hs']
    simp [hall]

end File

/-- **The RAID round trip.** For every input shorter than 2^31 bytes, over any earlier chunk
files, `stripeFile` ends, and whatever then happens to the missing chunk, restoring with the
value it returned ends and writes the input. -/
theorem raid_round_trip (input : List Byte) (hlen : input.length < 2 ^ 31) (fs : Chunks) (m : ℤ)
    (hm0 : 0 ≤ m) (hm5 : m ≤ 5) (junk junk' : Buf) :
    ∃ fuel, ∀ fuel' ≥ fuel, ∃ r fs', stripeFile full fuel' junk input fs = some (r, fs') ∧
      ∀ lost : Chunks, (∀ c : Fin 5, m ≠ c + 1 → lost c = fs' c) →
        ∃ fs'', restoreFile full fuel' junk' lost r m = some (r, input, fs'') := by
  refine ⟨input.length / 2048 + 1, fun fuel hfuel => ?_⟩
  obtain ⟨r, fs', hs⟩ := stripeFile_returns input junk fs (show input.length / 2048 < fuel by omega)
  refine ⟨r, fs', hs, fun lost hlost => ?_⟩
  obtain ⟨hr, file, hfile, hholds⟩ := stripeFile_post hs
  rw [int32_eq (by omega) (by omega)] at hr
  rw [hr]
  refine ⟨_, restoreFile_input (by omega) hm0 hm5 junk' fun t ht c hc => ?_⟩
  obtain ⟨hl, hget⟩ := hholds c
  have ho : opened lost c = file c := by
    unfold opened
    rw [hlost c hc, hfile c]
    rfl
  rw [ho]
  refine ⟨by omega, fun k hk => ?_⟩
  rw [hget, if_pos (by omega), part_add input c t hk]

/-- Three bytes over stale chunks, the second chunk lost. -/
theorem raid_round_trip_abc :
    ∃ fuel, ∀ fuel' ≥ fuel, ∃ r fs', stripeFile full fuel' (fun _ => 0) [0x61, 0x62, 0x63]
        (fun _ => some [1, 2, 3, 4]) = some (r, fs') ∧
      ∀ lost : Chunks, (∀ c : Fin 5, (2 : ℤ) ≠ c + 1 → lost c = fs' c) →
        ∃ fs'', restoreFile full fuel' (fun _ => 0) lost r 2 = some (r, [0x61, 0x62, 0x63], fs'') :=
  raid_round_trip [0x61, 0x62, 0x63] (by decide) _ 2 (by decide) (by decide) _ _

/-! ### The parity of the array -/

/-- A completed call, with complete reads and writes, takes the chunk files to others. -/
inductive Call : Chunks → Chunks → Prop
  | stripe {fuel : ℕ} {junk : Buf} {input : List Byte} {fs fs' : Chunks} {r : ℤ}
      (h : stripeFile full fuel junk input fs = some (r, fs')) : Call fs fs'
  | restore {fuel : ℕ} {junk : Buf} {len m : ℤ} {out : List Byte} {fs fs' : Chunks} {r : ℤ}
      (h : restoreFile full fuel junk fs len m = some (r, out, fs')) : Call fs fs'

/-- Five files of one length in whole sectors whose XOR is zero throughout. -/
def Coherent (file : Fin 5 → List Byte) : Prop :=
  ∃ n, (∀ c, (file c).length = 512 * n) ∧
    ∀ k < 512 * n, parity (fun c => (file c).getD k 0) = 0

lemma coherent_empty : Coherent fun _ => [] := ⟨0, by simp, by simp⟩

/-- A shorter input over a longer one leaves a parity-true prefix and a parity-true tail. -/
lemma coherent_holds {input : List Byte} {old file : Fin 5 → List Byte} {t : ℕ} (ho : Coherent old)
    (h : Holds input old t file) : Coherent file := by
  obtain ⟨n, hlen, hpar⟩ := ho
  refine ⟨max n t, fun c => ?_, fun k hk => ?_⟩
  · rw [(h c).1, hlen c]
    omega
  · simp only [(h _).2]
    rcases Nat.lt_or_ge k (512 * t) with hkt | hkt
    · simp only [if_pos hkt]
      exact parity_part input k
    · simp only [if_neg (not_lt.mpr hkt)]
      exact hpar k (by omega)

lemma restoreFile_chunks {fuel : ℕ} {junk : Buf} {fs fs' : Chunks} {len m r : ℤ} {out : List Byte}
    (h : restoreFile full fuel junk fs len m = some (r, out, fs')) :
    fs' = fun c => some (opened fs c) := by
  unfold restoreFile at h
  obtain ⟨s, -, h⟩ := Option.bind_eq_some_iff.1 h
  obtain ⟨s', -, h⟩ := Option.bind_eq_some_iff.1 h
  obtain ⟨-, h⟩ := Prod.mk.inj (Option.some.inj h)
  exact (Prod.mk.inj h).2.symm

lemma call_coherent {fs fs' : Chunks} (h : Call fs fs') (ho : Coherent (opened fs)) :
    (∀ c, ∃ f, fs' c = some f) ∧ Coherent (opened fs') := by
  cases h with
  | stripe h =>
    obtain ⟨-, file, hfile, hholds⟩ := stripeFile_post h
    have : opened fs' = file := funext fun c => by simp [opened, hfile c]
    exact ⟨fun c => ⟨_, hfile c⟩, this ▸ coherent_holds ho hholds⟩
  | restore h =>
    rw [restoreFile_chunks h]
    exact ⟨fun c => ⟨_, rfl⟩, ho⟩

/-- **The parity invariant.** From no chunk files, after any completed calls, either there
are still none or there are five, of one length in whole sectors, and their XOR is zero at
every offset. -/
theorem parity_invariant {fs : Chunks} (h : Relation.ReflTransGen Call (fun _ => none) fs) :
    (∀ c, fs c = none) ∨ (∀ c, ∃ f, fs c = some f) ∧ Coherent (opened fs) := by
  suffices ((∀ c, fs c = none) ∨ ∀ c, ∃ f, fs c = some f) ∧ Coherent (opened fs) from
    this.1.imp id fun hall => ⟨hall, this.2⟩
  induction h with
  | refl => exact ⟨Or.inl fun _ => rfl, coherent_empty⟩
  | tail _ hcall ih =>
    obtain ⟨hall, hco⟩ := call_coherent hcall ih.2
    exact ⟨Or.inr hall, hco⟩

/-- A long file, then a short one over it. -/
theorem parity_invariant_overlay :
    ∃ r r' fs fs', stripeFile full 3 (fun _ => 0) (List.replicate 5000 7) (fun _ => none) =
        some (r, fs) ∧
      stripeFile full 1 (fun _ => 0) [1, 2, 3] fs = some (r', fs') ∧
      (∀ c, ∃ f, fs' c = some f) ∧ Coherent (opened fs') := by
  obtain ⟨r, fs, h⟩ := stripeFile_returns (List.replicate 5000 7) (fun _ => 0) (fun _ => none)
    (show _ < 3 by rw [List.length_replicate]; omega)
  obtain ⟨r', fs', h'⟩ := stripeFile_returns [1, 2, 3] (fun _ => 0) fs (show _ < 1 by simp)
  have hrun : Relation.ReflTransGen Call (fun _ => none) fs' :=
    .tail (.single (.stripe h)) (.stripe h')
  refine ⟨r, r', fs, fs', h, h', (parity_invariant hrun).resolve_left fun hnone => ?_⟩
  obtain ⟨-, file, hfile, -⟩ := stripeFile_post h'
  exact Option.some_ne_none _ ((hfile 0).symm.trans (hnone 0))

end Rtes.RaidRestore
