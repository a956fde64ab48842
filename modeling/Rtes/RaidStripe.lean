import Rtes.RaidModel

/-!
What `stripeFile` leaves in the chunk files when every `write` is complete.

Each round moves one stripe, so after `t` rounds the first `512 t` bytes of each chunk file
are the parts of the first `t` stripes and the rest is what was there before. The round
that finds the end of the input writes a last stripe, padded with zeros, also when nothing
is left to pad.
-/

namespace Rtes.RaidStripe

open Rtes.Bytes Rtes.Loop Rtes.RaidModel

/-- Byte `k` of chunk `c`'s part of a stripe that holds the bytes `l` and then zeros. -/
def cell (l : List Byte) (c : Fin 5) (k : ℕ) : Byte :=
  if c = 4 then l.getD k 0 ^^^ l.getD (512 + k) 0 ^^^ l.getD (1024 + k) 0 ^^^ l.getD (1536 + k) 0
  else l.getD (512 * c + k) 0

/-- Byte `k` of chunk `c` for a whole input. -/
def part (input : List Byte) (c : Fin 5) (k : ℕ) : Byte :=
  cell (input.drop (2048 * (k / 512))) c (k % 512)

/-- The XOR of one byte of each chunk. -/
def parity (v : Fin 5 → Byte) : Byte := v 0 ^^^ v 1 ^^^ v 2 ^^^ v 3 ^^^ v 4

lemma parity_cell (l : List Byte) (k : ℕ) : parity (fun c => cell l c k) = 0 := by
  simp [parity, cell]

lemma parity_part (input : List Byte) (k : ℕ) : parity (fun c => part input c k) = 0 :=
  parity_cell _ _

/-! ### One round -/

lemma fillStripe_eq (fuel : ℕ) (s : Striping) : fillStripe (fuel + 1) s =
    some ((s.rest.take 2048).length, 2048 - (s.rest.take 2048).length,
      { s with
        stripe := blit s.stripe 0 (s.rest.take 2048)
        rest := s.rest.drop 2048
        eof := s.eof || decide ((s.rest.take 2048).length < 2048) }) := by
  refine iter_inr ?_ fuel
  simp

/-- The data half of the buffer once a stripe has been read and padded. -/
lemma padStripe_eq {s : Striping} (hs : s.eof = false) {l : List Byte} {b : Buf} :
    ∃ b', (∀ i < 2048, b' i = l.getD i 0) ∧
      padStripe (l.take 2048).length (2048 - (l.take 2048).length)
        { s with
          stripe := blit b 0 (l.take 2048)
          rest := l.drop 2048
          eof := s.eof || decide ((l.take 2048).length < 2048) } =
      some { s with
        stripe := b'
        rest := l.drop 2048
        eof := decide (l.length < 2048)
        byteCnt := int32 (s.byteCnt + (l.take 2048).length) } := by
  have hget : ∀ i < (l.take 2048).length, (l.take 2048).getD i 0 = l.getD i 0 := by
    intro i hi
    have h2 : i < 2048 := by simp at hi; omega
    rw [List.getD_eq_getElem?_getD, List.getElem?_take_of_lt h2, ← List.getD_eq_getElem?_getD]
  rcases Nat.lt_or_ge l.length 2048 with h | h
  · have ht : l.take 2048 = l := List.take_of_length_le h.le
    refine ⟨blit (blit b 0 l) l.length (List.replicate (2048 - l.length) 0), fun i hi => ?_, ?_⟩
    · rcases Nat.lt_or_ge i l.length with hil | hil
      · rw [blit_out (Or.inl hil)]
        simpa using blit_in (b := b) (o := 0) hil
      · obtain ⟨j, rfl⟩ : ∃ j, i = l.length + j := ⟨i - l.length, by omega⟩
        rw [blit_in (by simp; omega), List.getD_replicate _ (by omega),
          List.getD_eq_default _ _ (by omega)]
    · simp [padStripe, ht, h, hs]
  · have hlen : (l.take 2048).length = 2048 := List.length_take_of_le h
    refine ⟨blit b 0 (l.take 2048), fun i hi => ?_, ?_⟩
    · rw [← hget i (by omega)]
      simpa using blit_in (b := b) (o := 0) (k := i) (show i < (l.take 2048).length by omega)
    · simp [padStripe, hlen, hs, show ¬ l.length < 2048 by omega]

lemma xorLBA_stripe (b : Buf) (i : ℕ) : xorLBA 0 512 1024 1536 2048 b i =
    if 2048 ≤ i ∧ i < 2048 + 512 then
      b (0 + (i - 2048)) ^^^ b (512 + (i - 2048)) ^^^ b (1024 + (i - 2048)) ^^^
        b (1536 + (i - 2048))
    else b i := by
  refine foldl_update 2048 (fun b idx => b (0 + idx) ^^^ b (512 + idx) ^^^ b (1024 + idx) ^^^
    b (1536 + idx)) 512 ?_ b i
  intro b b' idx h hidx
  simp only [h (0 + idx) (by omega), h (512 + idx) (by omega), h (1024 + idx) (by omega),
    h (1536 + idx) (by omega)]

/-- The five sectors of the buffer once the parity has been computed. -/
lemma xorLBA_cell {b : Buf} {l : List Byte} (hb : ∀ i < 2048, b i = l.getD i 0) (c : Fin 5) {k : ℕ}
    (hk : k < 512) : xorLBA 0 512 1024 1536 2048 b (512 * c + k) = cell l c k := by
  rw [xorLBA_stripe]
  unfold cell
  by_cases hc : c = 4
  · subst hc
    rw [if_pos rfl, if_pos ⟨by simp, by simp; omega⟩]
    rw [show 512 * ((4 : Fin 5) : ℕ) + k - 2048 = k by simp]
    rw [hb _ (by omega), hb _ (by omega), hb _ (by omega), hb _ (by omega), Nat.zero_add]
  · have hlt : (c : ℕ) < 4 := by omega
    rw [if_neg hc, if_neg (by omega), hb _ (by omega)]

variable {xfer : Xfer}

lemma writeLoop_once {s : Striping} (hx : xfer s.calls 512 = 512) (fuel : ℕ) (c : Fin 5)
    (offset : ℕ) : writeLoop xfer (fuel + 1) c offset s = some { s with
      file := Function.update s.file c (overlay (s.file c) (s.pos c) (slice s.stripe offset 512))
      pos := Function.update s.pos c (s.pos c + 512)
      calls := s.calls + 1 } :=
  iter_inr (by simp [hx]) fuel

/-- **One round of `stripeFile`** with complete writes. -/
theorem stripeRound_once (fuel : ℕ) {s : Striping} (hs : s.eof = false)
    (hx : ∀ i < 5, xfer (s.calls + i) 512 = 512) :
    ∃ b, (∀ c : Fin 5, ∀ k < 512, b (512 * c + k) = cell s.rest c k) ∧
      stripeRound xfer (fuel + 1) s = some { s with
        rest := s.rest.drop 2048
        eof := decide (s.rest.length < 2048)
        stripe := b
        file := fun c => overlay (s.file c) (s.pos c) (slice b (512 * c) 512)
        pos := fun c => s.pos c + 512
        byteCnt := int32 (s.byteCnt + (s.rest.take 2048).length)
        calls := s.calls + 5 } := by
  obtain ⟨b', hb', hpad⟩ := padStripe_eq hs (l := s.rest) (b := s.stripe)
  refine ⟨xorLBA 0 512 1024 1536 2048 b', fun c k hk => xorLBA_cell hb' c hk, ?_⟩
  have h0 : xfer s.calls 512 = 512 := hx 0 (by omega)
  have h1 : xfer (s.calls + 1) 512 = 512 := hx 1 (by omega)
  have h2 : xfer (s.calls + 1 + 1) 512 = 512 := hx 2 (by omega)
  have h3 : xfer (s.calls + 1 + 1 + 1) 512 = 512 := hx 3 (by omega)
  have h4 : xfer (s.calls + 1 + 1 + 1 + 1) 512 = 512 := hx 4 (by omega)
  unfold stripeRound
  simp only [fillStripe_eq, Option.bind_eq_bind, Option.bind_some, hpad, writeLoop_once, h0, h1, h2,
    h3, h4]
  congr 2
  · funext c
    fin_cases c <;> simp [Function.update]
  · funext c
    fin_cases c <;> simp [Function.update]

/-! ### The whole file -/

/-- The chunk files after `t` stripes of `input`: their parts, over what was there. -/
def Holds (input : List Byte) (old : Fin 5 → List Byte) (t : ℕ) (file : Fin 5 → List Byte) : Prop :=
  ∀ c, (file c).length = max (old c).length (512 * t) ∧
    ∀ k, (file c).getD k 0 = if k < 512 * t then part input c k else (old c).getD k 0

lemma holds_zero (input : List Byte) (old : Fin 5 → List Byte) : Holds input old 0 old :=
  fun _ => ⟨by simp, fun _ => by simp⟩

lemma part_add (input : List Byte) (c : Fin 5) (t : ℕ) {k : ℕ} (hk : k < 512) :
    part input c (512 * t + k) = cell (input.drop (2048 * t)) c k := by
  unfold part
  rw [show (512 * t + k) / 512 = t by omega, show (512 * t + k) % 512 = k by omega]

lemma holds_succ {input : List Byte} {old file : Fin 5 → List Byte} {t : ℕ} {b : Buf}
    (h : Holds input old t file)
    (hb : ∀ c : Fin 5, ∀ k < 512, b (512 * c + k) = cell (input.drop (2048 * t)) c k) :
    Holds input old (t + 1) fun c => overlay (file c) (512 * t) (slice b (512 * c) 512) := by
  intro c
  obtain ⟨hlen, hget⟩ := h c
  have hpos : 512 * t ≤ (file c).length := by omega
  refine ⟨?_, fun k => ?_⟩
  · rw [length_overlay hpos, length_slice, hlen]
    omega
  · rw [getD_overlay hpos, length_slice, hget]
    rcases Nat.lt_or_ge k (512 * t) with h1 | h1
    · rw [if_neg (by omega), if_pos h1, if_pos (by omega)]
    · rcases Nat.lt_or_ge k (512 * t + 512) with h2 | h2
      · obtain ⟨j, rfl⟩ : ∃ j, k = 512 * t + j := ⟨k - 512 * t, by omega⟩
        rw [if_pos ⟨h1, h2⟩, if_pos (by omega), Nat.add_sub_cancel_left,
          getD_slice b _ (by omega), hb c j (by omega), part_add input c t (by omega)]
      · rw [if_neg (by omega), if_neg (by omega), if_neg (by omega)]

/-- The state of the outer loop after `t` full stripes. -/
structure After (input : List Byte) (old : Fin 5 → List Byte) (t : ℕ) (s : Striping) : Prop where
  rest : s.rest = input.drop (2048 * t)
  full : 2048 * t ≤ input.length
  eof : s.eof = false
  pos : ∀ c, s.pos c = 512 * t
  cnt : s.byteCnt = int32 (2048 * t)
  file : Holds input old t s.file

/-- What the outer loop leaves behind. -/
def Done (input : List Byte) (old : Fin 5 → List Byte) (s : Striping) : Prop :=
  s.byteCnt = int32 input.length ∧ Holds input old (input.length / 2048 + 1) s.file

/-- A round of complete writes takes one stripe further, or is the last. -/
lemma round_cases {input : List Byte} {old : Fin 5 → List Byte} {t : ℕ} {s : Striping}
    (h : After input old t s) (hx : ∀ i < 5, xfer (s.calls + i) 512 = 512) (fuel : ℕ) :
    ∃ s', stripeRound xfer (fuel + 1) s = some s' ∧ s'.calls = s.calls + 5 ∧
      (∀ c, s'.pos c = 512 * (t + 1)) ∧
      ((s'.eof = false ∧ After input old (t + 1) s') ∨
        (s'.eof = true ∧ t = input.length / 2048 ∧ Done input old s')) := by
  obtain ⟨b, hb, hround⟩ := stripeRound_once fuel h.eof hx
  have hpos : ∀ c, s.pos c + 512 = 512 * (t + 1) := fun c => by rw [h.pos c, Nat.mul_succ]
  refine ⟨_, hround, rfl, hpos, ?_⟩
  have hfull := h.full
  have hlen : s.rest.length = input.length - 2048 * t := by rw [h.rest, List.length_drop]
  have hcnt : int32 (s.byteCnt + (s.rest.take 2048).length) =
      int32 (2048 * t + min 2048 (input.length - 2048 * t) : ℕ) := by
    rw [h.cnt, int32_add, List.length_take, hlen]
    push_cast
    rfl
  rw [h.rest] at hb
  have hfile : Holds input old (t + 1) fun c =>
      overlay (s.file c) (s.pos c) (slice b (512 * c) 512) := by
    simpa only [h.pos] using holds_succ h.file hb
  rcases Nat.lt_or_ge s.rest.length 2048 with hlt | hge
  · right
    have ht : t = input.length / 2048 := by omega
    refine ⟨by simp [hlt], ht, ?_, ?_⟩
    · simp only [hcnt]
      congr 2
      omega
    · rwa [← ht]
  · left
    refine ⟨by simp [hge], ⟨?_, by omega, by simp [hge], hpos, ?_, hfile⟩⟩
    · rw [h.rest, List.drop_drop]
      congr 1
    · simp only [hcnt]
      rw [show 2048 * t + min 2048 (input.length - 2048 * t) = 2048 * (t + 1) by omega]
      push_cast
      rfl

section Run

variable {input : List Byte} {junk : Buf} {fs : Chunks}

/-- The outer loop of `stripeFile`. -/
def stripeLoop (xfer : Xfer) (fuel fuel' : ℕ) (junk : Buf) (input : List Byte) (fs : Chunks) :
    Option Striping :=
  iter (fun s => (stripeRound xfer fuel s).map fun s' =>
      if s'.eof then (Sum.inr s' : Striping ⊕ Striping) else .inl s') fuel'
    ⟨input, false, junk, opened fs, fun _ => 0, 0, 0⟩

/-- **The outer loop ends** when the writes it takes are complete. -/
theorem loop_total (xfer : Xfer) (input : List Byte) (junk : Buf) (fs : Chunks) (fuel : ℕ)
    (hx : ∀ n < 5 * (input.length / 2048 + 1), xfer n 512 = 512) :
    ∃ s, stripeLoop xfer (fuel + 1) (input.length / 2048 + 1) junk input fs = some s ∧
      (∀ c, s.pos c = 512 * (input.length / 2048 + 1)) ∧ Done input (opened fs) s := by
  have h0 : After input (opened fs) 0 ⟨input, false, junk, opened fs, fun _ => 0, 0, 0⟩ :=
    ⟨rfl, Nat.zero_le _, rfl, fun _ => rfl, rfl, holds_zero _ _⟩
  refine iter_total (fun s => ∃ t, After input (opened fs) t s ∧ s.calls = 5 * t) _
    (fun s => s.rest.length / 2048) ?_ ⟨0, h0, rfl⟩
  rintro s ⟨t, ht, hcalls⟩
  have hle := ht.full
  obtain ⟨s', hs', hcalls', hpos, ⟨he, ha⟩ | ⟨he, rfl, hd⟩⟩ :=
    round_cases ht (fun i hi => hx _ (by omega)) fuel
  · refine Or.inl ⟨s', by simp [hs', he], ⟨t + 1, ha, by omega⟩, ?_⟩
    have hl := ha.full
    rw [ha.rest, ht.rest, List.length_drop, List.length_drop]
    omega
  · exact Or.inr ⟨s', by simp [hs', he], hpos, hd⟩

/-- **`stripeFile` returns the length of the input and leaves its parts in the chunk files**,
over what they held. -/
theorem stripeFile_post {fuel : ℕ} {r : ℤ} {fs' : Chunks}
    (h : stripeFile full fuel junk input fs = some (r, fs')) :
    r = int32 input.length ∧ ∃ file, (∀ c, fs' c = some (file c)) ∧
      Holds input (opened fs) (input.length / 2048 + 1) file := by
  unfold stripeFile at h
  simp only [Option.bind_eq_bind, Option.pure_def, Option.bind_eq_some_iff, Option.some.injEq,
    Prod.mk.injEq] at h
  obtain ⟨s, hs, rfl, rfl⟩ := h
  cases fuel with
  | zero => simp [iter] at hs
  | succ fuel =>
    obtain ⟨s', hs', -, hd⟩ := loop_total full input junk fs fuel fun _ _ => rfl
    rw [iter_unique hs hs']
    exact ⟨hd.1, s'.file, fun _ => rfl, hd.2⟩

/-- **`stripeFile` ends.** -/
theorem stripeFile_returns (input : List Byte) (junk : Buf) (fs : Chunks) {fuel : ℕ}
    (hf : input.length / 2048 < fuel) :
    ∃ r fs', stripeFile full fuel junk input fs = some (r, fs') := by
  obtain ⟨fuel, rfl⟩ : ∃ k, fuel = k + 1 := ⟨fuel - 1, by omega⟩
  obtain ⟨s, hs, -⟩ := loop_total full input junk fs fuel fun _ _ => rfl
  refine ⟨s.byteCnt, fun c => some (s.file c), ?_⟩
  unfold stripeFile
  rw [iter_mono (fun _ _ h => h) (by omega) hs]
  rfl

end Run

end Rtes.RaidStripe
