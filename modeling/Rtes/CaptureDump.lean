import Rtes.CaptureNames
import Rtes.Checked
import Rtes.Loop
import Rtes.Pieces

/-!
How `dump_ppm` and `dump_pgm` of `sequencer_generic/capturelib.c` write a frame.

The loop adds up what the writes return, but every write starts again at the first byte of the
image and asks for all of it. So the image is right only if one write takes it whole, or if what
the others write happens to be what was missing. The file is opened without `O_TRUNC`, so one
that was longer keeps its end. A file that does not exist is empty here; errors of `open` are
left out. The same code is in `simple-capture-1800-syslog/capture.c`.
-/

namespace Rtes.CaptureDump

open Rtes.Bytes Rtes.Checked Rtes.Loop Rtes.Pieces Rtes.CString Rtes.CaptureNames

/-- The open file with its position, and the sum that the loop keeps. -/
structure Writing where
  file : List Byte
  pos : ℕ
  total : ℤ
  calls : ℕ

/-- One write of the image; `ret n` is what write `n` returns. -/
def writeTurn (p : Buf) (size : ℤ) (ret : ℕ → ℤ) (s : Writing) : Option (Writing ⊕ Writing) := do
  let written := ret s.calls
  let total ← fitInt (s.total + written)
  let s' : Writing := {
    file := overlay s.file s.pos (slice p 0 written.toNat)
    pos := s.pos + written.toNat
    total
    calls := s.calls + 1 }
  some (if total < size then .inl s' else .inr s')

/-- The file after the header and the image are written over what it held. -/
def writeFrame (fuel : ℕ) (header : List Byte) (p : Buf) (size : ℤ) (ret : ℕ → ℤ)
    (old : List Byte) : Option (List Byte) := do
  let s ← iter (writeTurn p size ret) fuel ⟨overlay old 0 header, header.length, 0, 0⟩
  some s.file

/-- The files by name, and the static arrays of a dump function. -/
structure Disk where
  files : List Byte → List Byte
  buffers : Buffers

/-- `dump_ppm` or `dump_pgm`. -/
def dump (f : Format) (fuel : ℕ) (p : Buf) (size : ℤ) (c : Call) (ret : ℕ → ℤ) (s : Disk) :
    Option Disk := do
  let buffers ← patch f c s.buffers
  let r := buffers.request
  let file ← writeFrame fuel r.header p size ret (s.files r.name)
  some ⟨Function.update s.files r.name file, buffers⟩

/-! ### The loop -/

section Loop

variable {header old : List Byte} {p : Buf} {size : ℕ} {k : ℕ → ℕ}

/-- After `n` writes. -/
def after (header old : List Byte) (p : Buf) (k : ℕ → ℕ) (n : ℕ) : Writing where
  file := header ++ emitted p (fun _ => 0) k n ++ old.drop (header.length + sent k n)
  pos := header.length + sent k n
  total := sent k n
  calls := n

lemma after_zero :
    after header old p k 0 = ⟨overlay old 0 header, header.length, 0, 0⟩ := by
  simp [after, sent_zero, emitted, overlay]

lemma writeTurn_after (n : ℕ) : writeTurn p size (fun n => k n) (after header old p k n) =
    (fitInt (sent k (n + 1))).bind fun total =>
      some (if total < size then .inl (after header old p k (n + 1))
        else .inr (after header old p k (n + 1))) := by
  have hlen : (header ++ emitted p (fun _ => 0) k n).length = header.length + sent k n := by
    rw [List.length_append, length_emitted]
  have hfile : overlay (after header old p k n).file (header.length + sent k n)
      (slice p 0 (k n)) = (after header old p k (n + 1)).file := by
    dsimp only [after]
    rw [← hlen, overlay_append, hlen, List.drop_drop, length_slice, emitted_succ, sent_succ,
      List.append_assoc header, Nat.add_assoc]
  have hnext : (⟨(after header old p k (n + 1)).file, header.length + sent k n + k n,
      sent k (n + 1), n + 1⟩ : Writing) = after header old p k (n + 1) := by
    rw [Nat.add_assoc, ← sent_succ]
    rfl
  have htotal : (sent k n : ℤ) + k n = sent k (n + 1) := by rw [sent_succ, Nat.cast_add]
  unfold writeTurn
  change (fitInt ((sent k n : ℤ) + k n)).bind _ = _
  rw [htotal]
  cases hfit : fitInt (sent k (n + 1)) with
  | none => rfl
  | some total =>
    obtain ⟨rfl, -⟩ := fitInt_eq_some.mp hfit
    refine congrArg some ?_
    dsimp only
    rw [← hnext, ← hfile]
    rfl

/-- A write that leaves something to do. -/
lemma writeTurn_again {n : ℕ} (hint : size < 2 ^ 31) (h : sent k (n + 1) < size) :
    writeTurn p size (fun n => k n) (after header old p k n) =
      some (.inl (after header old p k (n + 1))) := by
  rw [writeTurn_after, fitInt_eq_some.mpr ⟨rfl, by omega, by omega⟩, Option.bind_some,
    if_pos (by omega)]

lemma writeTurn_done {n : ℕ} (hint : sent k (n + 1) < 2 ^ 31) (h : size ≤ sent k (n + 1)) :
    writeTurn p size (fun n => k n) (after header old p k n) =
      some (.inr (after header old p k (n + 1))) := by
  rw [writeTurn_after, fitInt_eq_some.mpr ⟨rfl, by omega, by omega⟩, Option.bind_some,
    if_neg (by omega)]

lemma writeTurn_cases {n : ℕ} {x : Writing ⊕ Writing}
    (h : writeTurn p size (fun n => k n) (after header old p k n) = some x) :
    (sent k (n + 1) < size ∧ x = .inl (after header old p k (n + 1))) ∨
      (size ≤ sent k (n + 1) ∧ x = .inr (after header old p k (n + 1))) := by
  rw [writeTurn_after] at h
  obtain ⟨total, hfit, hx⟩ := Option.bind_eq_some_iff.mp h
  obtain ⟨rfl, -⟩ := fitInt_eq_some.mp hfit
  obtain rfl := Option.some.inj hx
  split_ifs with hmore
  · exact Or.inl ⟨by omega, rfl⟩
  · exact Or.inr ⟨by omega, rfl⟩

/-- **What a run of the loop leaves**: the file after the write that reaches the size. -/
lemma writeFrame_file {fuel : ℕ} {file : List Byte} (hsize : 0 < size)
    (h : writeFrame fuel header p size (fun n => k n) old = some file) :
    ∃ n, sent k n < size ∧ size ≤ sent k (n + 1) ∧ file = (after header old p k (n + 1)).file := by
  obtain ⟨s, hs, hfile⟩ := Option.bind_eq_some_iff.mp h
  obtain rfl := Option.some.inj hfile
  rw [← after_zero (p := p) (k := k)] at hs
  have hinv := iter_inv (fun s => ∃ n, sent k n < size ∧ s = after header old p k n)
    (fun s => ∃ n, sent k n < size ∧ size ≤ sent k (n + 1) ∧ s = after header old p k (n + 1))
    ?_ ?_ ⟨0, by rw [sent_zero]; exact hsize, rfl⟩ hs
  · obtain ⟨n, hlt, hle, rfl⟩ := hinv
    exact ⟨n, hlt, hle, rfl⟩
  · rintro _ s' ⟨n, hlt, rfl⟩ hturn
    obtain ⟨hmore, hs'⟩ | ⟨-, hs'⟩ := writeTurn_cases hturn
    · exact ⟨n + 1, hmore, Sum.inl.inj hs'⟩
    · cases hs'
  · rintro _ s' ⟨n, hlt, rfl⟩ hturn
    obtain ⟨-, hs'⟩ | ⟨hle, hs'⟩ := writeTurn_cases hturn
    · cases hs'
    · exact ⟨n, hlt, hle, Sum.inr.inj hs'⟩

/-- Where the loop ends with the size, it leaves the header, the pieces, and the old end. -/
lemma writeFrame_of_sent (header old : List Byte) (p : Buf) {N : ℕ} (hint : size < 2 ^ 31)
    (hlt : ∀ n ≤ N, sent k n < size) (heq : sent k (N + 1) = size) : ∃ fuel,
      writeFrame fuel header p size (fun n => k n) old =
        some (after header old p k (N + 1)).file := by
  have hiter : iter (writeTurn p size fun n => k n) (N + 1) (after header old p k 0) =
      some (after header old p k (N + 1)) :=
    iter_of_states (fun n hn => writeTurn_again hint (hlt (n + 1) hn))
      (writeTurn_done (by rw [heq]; exact hint) heq.ge)
  rw [after_zero] at hiter
  refine ⟨N + 1, ?_⟩
  unfold writeFrame
  rw [hiter]
  rfl

/-- The file is right when the size is met, nothing was behind it, and the pieces are the
image. -/
lemma after_file_eq_iff {n : ℕ} (hle : size ≤ sent k n) :
    (after header old p k n).file = header ++ slice p 0 size ↔
      sent k n = size ∧ old.length ≤ header.length + size ∧
        ∀ i < n, slice p 0 (k i) = slice p (sent k i) (k i) := by
  have hpieces : emitted p (fun _ => 0) k n = slice p 0 (sent k n) ↔
      ∀ i < n, slice p 0 (k i) = slice p (sent k i) (k i) := emitted_eq_iff
  rw [← hpieces]
  dsimp only [after]
  rw [List.append_assoc, List.append_cancel_left_eq]
  constructor
  · intro h
    have hlen := congrArg List.length h
    rw [List.length_append, length_emitted, length_slice, List.length_drop] at hlen
    have heq : sent k n = size := by omega
    rw [heq, List.drop_eq_nil_of_le (by omega), List.append_nil] at h
    exact ⟨heq, by omega, by rw [heq, h]⟩
  · rintro ⟨heq, hold, h⟩
    rw [h, heq, List.drop_eq_nil_of_le (by omega), List.append_nil]

/-- The pieces that make the image: no write goes past the size, and each finds at the start of
the image the bytes that are next. -/
def Pieced (p : Buf) (size : ℕ) (k : ℕ → ℕ) : Prop :=
  ∀ n, sent k n < size → sent k n + k n ≤ size ∧ slice p 0 (k n) = slice p (sent k n) (k n)

lemma pieced_of_complete {fuel : ℕ} (hsize : 0 < size)
    (h : writeFrame fuel header p size (fun n => k n) old = some (header ++ slice p 0 size)) :
    old.length ≤ header.length + size ∧ Pieced p size k := by
  obtain ⟨N, hN, hle, hfile⟩ := writeFrame_file hsize h
  obtain ⟨heq, hold, hpieces⟩ := (after_file_eq_iff hle).mp hfile.symm
  refine ⟨hold, fun n hn => ?_⟩
  have hnN : n < N + 1 := lt_of_sent_lt (hn.trans_le hle)
  have hmono := sent_mono (k := k) (Nat.succ_le_of_lt hnN)
  rw [sent_succ, heq] at hmono
  exact ⟨hmono, hpieces n hnN⟩

lemma complete_of_pieced (header : List Byte) (hsize : 0 < size) (hint : size < 2 ^ 31)
    (hk : ∀ n, 1 ≤ k n) (hold : old.length ≤ header.length + size) (h : Pieced p size k) :
    ∃ fuel, writeFrame fuel header p size (fun n => k n) old = some (header ++ slice p 0 size) := by
  obtain ⟨M, heq, hlt⟩ := exists_sent_eq (fun n _ => hk n) fun n hn => (h n hn).1
  obtain ⟨N, rfl⟩ : ∃ N, M = N + 1 := by
    cases M with
    | zero => exact absurd heq (by rw [sent_zero]; exact hsize.ne)
    | succ N => exact ⟨N, rfl⟩
  obtain ⟨fuel, hfile⟩ := writeFrame_of_sent header old p hint
    (fun n hn => hlt n (Nat.lt_succ_of_le hn)) heq
  refine ⟨fuel, hfile.trans (congrArg some ?_)⟩
  exact (after_file_eq_iff heq.ge).mpr ⟨heq, hold, fun i hi => (h i (hlt i hi)).2⟩

end Loop

/-! ### Whole frames -/

/-- **Every image survives exactly when its first write is complete.** -/
theorem forall_complete_iff (header old : List Byte) {size : ℕ} (hsize : 0 < size)
    (hint : size < 2 ^ 31) {k : ℕ → ℕ} (hk : ∀ n, 1 ≤ k n ∧ k n ≤ size) :
    (∀ p, ∃ fuel, writeFrame fuel header p size (fun n => k n) old =
      some (header ++ slice p 0 size)) ↔ old.length ≤ header.length + size ∧ k 0 = size := by
  have hone : sent k 1 = k 0 := by rw [sent_succ, sent_zero, zero_add]
  constructor
  · intro h
    refine ⟨?_, ?_⟩
    · obtain ⟨fuel, hfile⟩ := h fun _ => 0
      exact (pieced_of_complete hsize hfile).1
    · by_contra hne
      have hlt : sent k 1 < size := by
        have := (hk 0).2
        omega
      have hall : ∀ b, slice b 0 (k 1) = slice b (sent k 1) (k 1) := by
        intro b
        obtain ⟨fuel, hfile⟩ := h b
        exact ((pieced_of_complete hsize hfile).2 1 hlt).2
      have hk0 := (hk 0).1
      have hk1 := (hk 1).1
      rcases forall_slice_eq_iff.mp hall with hzero | hzero <;> omega
  · rintro ⟨hold, hfull⟩ p
    refine complete_of_pieced header hsize hint (fun n => (hk n).1) hold fun n hn => ?_
    have hn0 : n = 0 :=
      Nat.lt_one_iff.mp (lt_of_sent_lt (hn.trans_eq (hfull.symm.trans hone.symm)))
    subst hn0
    rw [sent_zero]
    exact ⟨by omega, rfl⟩

/-- A dump gets through where its name fits, and leaves what the writes left in that file. -/
lemma dump_file_iff {f : Format} {fuel : ℕ} {p : Buf} {size : ℤ} {c : Call} {ret : ℕ → ℤ}
    {s : Disk} (hs : Ready f s.buffers) {file : List Byte} :
    (∃ s', dump f fuel p size c ret s = some s' ∧ s'.files (nameOf f c.tag) = file) ↔
      c.tag < 10000 ∧ writeFrame fuel (headerOf f c.sec c.nsec) p size ret
        (s.files (nameOf f c.tag)) = some file := by
  unfold dump
  rw [patch_eq hs]
  by_cases htag : c.tag < 10000
  · rw [if_pos htag, and_iff_right htag]
    dsimp only [Option.bind_eq_bind, Option.bind_some]
    rw [request_buffers]
    dsimp only [Call.request]
    constructor
    · rintro ⟨s', h, rfl⟩
      obtain ⟨file, hfile, hs'⟩ := Option.bind_eq_some_iff.mp h
      obtain rfl := Option.some.inj hs'
      dsimp only
      rw [Function.update_self, hfile]
    · intro h
      refine ⟨_, Option.bind_eq_some_iff.mpr ⟨file, h, rfl⟩, ?_⟩
      dsimp only
      rw [Function.update_self]
  · rw [if_neg htag]
    refine iff_of_false ?_ fun h => htag h.1
    rintro ⟨s', h, -⟩
    cases h

/-- **A frame survives its writes exactly when its name fits, the old file was not longer, no
write goes past the size, and each finds at the start of the image the bytes that are next.** -/
theorem dump_complete_iff (f : Format) (c : Call) (p : Buf) (size : ℕ) (hsize : 0 < size)
    (hint : size < 2 ^ 31) (k : ℕ → ℕ) (hk : ∀ n, 1 ≤ k n ∧ k n ≤ size) (s : Disk)
    (hs : Ready f s.buffers) :
    (∃ fuel s', dump f fuel p size c (fun n => k n) s = some s' ∧
      s'.files (nameOf f c.tag) = headerOf f c.sec c.nsec ++ slice p 0 size) ↔
      c.tag < 10000 ∧ (s.files (nameOf f c.tag)).length ≤ 48 + size ∧
        ∀ n, sent k n < size →
          sent k n + k n ≤ size ∧ slice p 0 (k n) = slice p (sent k n) (k n) := by
  have hheader := length_headerOf f c.sec_lt c.nsec_lt
  simp only [dump_file_iff hs]
  constructor
  · rintro ⟨fuel, htag, h⟩
    have hpieced := pieced_of_complete hsize h
    rw [hheader] at hpieced
    exact ⟨htag, hpieced⟩
  · rintro ⟨htag, hold, h⟩
    rw [← hheader] at hold
    obtain ⟨fuel, hfile⟩ := complete_of_pieced _ hsize hint (fun n => (hk n).1) hold h
    exact ⟨fuel, htag, hfile⟩

/-- The first frame, at time `0`. -/
def firstFrame : Call := ⟨1, 0, 0, by decide, longTag.sec_lt, longTag.nsec_lt⟩

/-- An image whose bytes count up. -/
def sampleImage : Buf := fun i => BitVec.ofNat 8 i

/-- No files yet. -/
def emptyDisk : Disk := ⟨fun _ => [], Format.ppm.initial⟩

/-- Three bytes of one grey in three writes: each writes the first byte, which is the next. -/
theorem dump_complete_iff_three_writes : ∃ fuel s',
    dump .ppm fuel (fun _ => 0x80) (3 : ℕ) firstFrame (fun _ => (1 : ℕ)) emptyDisk = some s' ∧
      s'.files (nameOf .ppm 1) = headerOf .ppm 0 0 ++ [0x80, 0x80, 0x80] := by
  refine (dump_complete_iff .ppm firstFrame (fun _ => 0x80) 3 (by decide) (by decide) (fun _ => 1)
    (fun n => ⟨le_rfl, by decide⟩) emptyDisk (ready_initial .ppm)).mpr
    ⟨by decide, Nat.zero_le _, fun n hn => ?_⟩
  have hsent : sent (fun _ => 1) n = n := by simp [sent]
  rw [hsent] at hn ⊢
  exact ⟨hn, rfl⟩

/-- Two bytes in two writes: the second writes the first byte again. -/
theorem dump_repeats : ¬ ∃ fuel s',
    dump .ppm fuel sampleImage (2 : ℕ) firstFrame (fun _ => (1 : ℕ)) emptyDisk = some s' ∧
      s'.files (nameOf .ppm 1) = headerOf .ppm 0 0 ++ slice sampleImage 0 2 := by
  rintro ⟨fuel, h⟩
  obtain ⟨-, hfile⟩ := (dump_file_iff (c := firstFrame) (ready_initial .ppm)).mp h
  have hsecond := ((pieced_of_complete (by decide) hfile).2 1 (by decide)).2
  exact absurd hsecond (by decide)

end Rtes.CaptureDump
