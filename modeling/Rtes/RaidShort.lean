import Rtes.RaidRestore

/-!
Striping and restoring with transfers that may be short.

Every loop of `raidlib.c` that moves a part of a stripe asks for 512 bytes at each try and stops
when one try has moved all 512. So a loop that ends has moved 512 bytes and what the short tries
before moved, and it moves exactly 512 when its first try does.
-/

namespace Rtes.RaidShort

open Finset Rtes.Bytes Rtes.Loop Rtes.RaidModel Rtes.RaidStripe Rtes.RaidRestore

/-- The counts that a kernel may give: at most what the call could move, and something when there
is something to move. -/
def Permitted (xfer : Xfer) : Prop := ∀ n m, xfer n m ≤ m ∧ (0 < m → 1 ≤ xfer n m)

/-! ### Writing a part -/

section Write

variable {xfer : Xfer} {c : Fin 5} {s s' : Striping}

/-- One try of a write loop. -/
def tryWrite (xfer : Xfer) (c : Fin 5) (offset : ℕ) (s : Striping) : Striping := { s with
  file := Function.update s.file c
    (overlay (s.file c) (s.pos c) (slice s.stripe offset (xfer s.calls 512)))
  pos := Function.update s.pos c (s.pos c + xfer s.calls 512)
  calls := s.calls + 1 }

lemma writeLoop_succ (fuel offset : ℕ) : writeLoop xfer (fuel + 1) c offset s =
    if 512 - xfer s.calls 512 > 0 then
      writeLoop xfer fuel c (offset + xfer s.calls 512) (tryWrite xfer c offset s)
    else some (tryWrite xfer c offset s) := by
  split_ifs with h
  · exact iter_inl (by simp only [h, if_true, tryWrite]) fuel
  · exact iter_inr (by simp only [h, if_false, tryWrite]) fuel

/-- A write to chunk `c` moves its position on and leaves the input and the other positions. -/
structure Wrote (c : Fin 5) (s s' : Striping) : Prop where
  rest : s'.rest = s.rest
  eof : s'.eof = s.eof
  other : ∀ d, d ≠ c → s'.pos d = s.pos d

/-- A loop that ends has moved 512 bytes or more. -/
lemma writeLoop_wrote {fuel offset : ℕ} (h : writeLoop xfer fuel c offset s = some s') :
    Wrote c s s' ∧ s.pos c + 512 ≤ s'.pos c := by
  induction fuel generalizing offset s with
  | zero => cases h
  | succ fuel ih =>
    have hpos : (tryWrite xfer c offset s).pos c = s.pos c + xfer s.calls 512 :=
      Function.update_self _ _ _
    have hother : ∀ d, d ≠ c → (tryWrite xfer c offset s).pos d = s.pos d :=
      fun d hd => Function.update_of_ne hd _ _
    rw [writeLoop_succ] at h
    split_ifs at h with hshort
    · obtain ⟨hw, hle⟩ := ih h
      exact ⟨⟨hw.rest, hw.eof, fun d hd => (hw.other d hd).trans (hother d hd)⟩, by omega⟩
    · obtain rfl := Option.some.inj h
      exact ⟨⟨rfl, rfl, hother⟩, by omega⟩

/-- **It moves exactly 512 only by one complete write.** -/
lemma writeLoop_exact (hx : Permitted xfer) {fuel offset : ℕ}
    (h : writeLoop xfer fuel c offset s = some s') (hpos : s'.pos c = s.pos c + 512) :
    xfer s.calls 512 = 512 ∧ s'.calls = s.calls + 1 := by
  cases fuel with
  | zero => cases h
  | succ fuel =>
    have hle := (hx s.calls 512).1
    rw [writeLoop_succ] at h
    split_ifs at h with hshort
    · -- the rest of the loop moves 512 bytes more
      have hone := (hx s.calls 512).2 (by omega)
      have hmore := (writeLoop_wrote h).2
      have hfirst : (tryWrite xfer c offset s).pos c = s.pos c + xfer s.calls 512 :=
        Function.update_self _ _ _
      omega
    · obtain rfl := Option.some.inj h
      exact ⟨by omega, rfl⟩

/-- **A round** moves 512 bytes or more to each chunk, and exactly 512 to each only by five
complete writes. -/
lemma round_short (hx : Permitted xfer) {fuel : ℕ} (hs : s.eof = false)
    (h : stripeRound xfer fuel s = some s') :
    s'.rest = s.rest.drop 2048 ∧ s'.eof = decide (s.rest.length < 2048) ∧
      (∀ c, s.pos c + 512 ≤ s'.pos c) ∧
      ((∀ c, s'.pos c = s.pos c + 512) →
        s'.calls = s.calls + 5 ∧ ∀ i < 5, xfer (s.calls + i) 512 = 512) := by
  cases fuel with
  | zero => cases h
  | succ fuel =>
    obtain ⟨b, -, hpad⟩ := padStripe_eq hs (l := s.rest) (b := s.stripe)
    unfold stripeRound at h
    simp only [fillStripe_eq, Option.bind_eq_bind, Option.bind_some, hpad,
      Option.bind_eq_some_iff] at h
    obtain ⟨s₁, h₁, s₂, h₂, s₃, h₃, s₄, h₄, h₅⟩ := h
    set s₀ : Striping := { s with
      rest := s.rest.drop 2048
      eof := decide (s.rest.length < 2048)
      stripe := xorLBA 0 512 1024 1536 2048 b
      byteCnt := int32 (s.byteCnt + (s.rest.take 2048).length) } with hs₀
    let σ : Fin 6 → Striping := ![s₀, s₁, s₂, s₃, s₄, s']
    have hloop : ∀ c : Fin 5, ∃ offset,
        writeLoop xfer (fuel + 1) c offset (σ c.castSucc) = some (σ c.succ) := by
      intro c
      fin_cases c
      exacts [⟨_, h₁⟩, ⟨_, h₂⟩, ⟨_, h₃⟩, ⟨_, h₄⟩, ⟨_, h₅⟩]
    have hwrote : ∀ c : Fin 5, Wrote c (σ c.castSucc) (σ c.succ) ∧
        (σ c.castSucc).pos c + 512 ≤ (σ c.succ).pos c :=
      fun c => writeLoop_wrote (hloop c).choose_spec
    have hpos : ∀ c : Fin 5, (σ c.castSucc).pos c = s.pos c ∧ s'.pos c = (σ c.succ).pos c :=
      fun c => eq_of_steps (f := fun i => (σ i).pos c) fun d hd => (hwrote d).1.other c hd.symm
    refine ⟨?_, ?_, fun c => ?_, fun hexact => ?_⟩
    · exact (hwrote 4).1.rest.trans <| (hwrote 3).1.rest.trans <| (hwrote 2).1.rest.trans <|
        (hwrote 1).1.rest.trans (hwrote 0).1.rest
    · exact (hwrote 4).1.eof.trans <| (hwrote 3).1.eof.trans <| (hwrote 2).1.eof.trans <|
        (hwrote 1).1.eof.trans (hwrote 0).1.eof
    · obtain ⟨hbefore, hafter⟩ := hpos c
      have := (hwrote c).2
      omega
    · have hone : ∀ c : Fin 5, xfer (σ c.castSucc).calls 512 = 512 ∧
          (σ c.succ).calls = (σ c.castSucc).calls + 1 := by
        intro c
        obtain ⟨hbefore, hafter⟩ := hpos c
        have := hexact c
        exact writeLoop_exact hx (hloop c).choose_spec (by omega)
      exact counter_of_steps (f := fun i => (σ i).calls) (P := fun _ => True)
        (R := fun n => xfer n 512 = 512) (fun d => (hone d).2) fun d _ => (hone d).1

/-- The outer loop after `t` rounds, with transfers of any size. -/
structure Pace (xfer : Xfer) (input : List Byte) (t : ℕ) (s : Striping) : Prop where
  rest : s.rest = input.drop (2048 * t)
  whole : 2048 * t ≤ input.length
  eof : s.eof = false
  pos : ∀ c, 512 * t ≤ s.pos c
  calls : (∀ c, s.pos c = 512 * t) → s.calls = 5 * t ∧ ∀ n < 5 * t, xfer n 512 = 512

/-- What a round makes of it, whether it is the last or not. -/
lemma Pace.round (hx : Permitted xfer) {input : List Byte} {t fuel : ℕ} (hp : Pace xfer input t s)
    (h : stripeRound xfer fuel s = some s') :
    (∀ c, 512 * (t + 1) ≤ s'.pos c) ∧
      ((∀ c, s'.pos c = 512 * (t + 1)) →
        s'.calls = 5 * (t + 1) ∧ ∀ n < 5 * (t + 1), xfer n 512 = 512) := by
  obtain ⟨-, -, hge, hexact⟩ := round_short hx hp.eof h
  refine ⟨fun c => ?_, fun hpos => ?_⟩
  · have h1 := hp.pos c
    have h2 := hge c
    omega
  · have hbefore : ∀ c, s.pos c = 512 * t := by
      intro c
      have h1 := hp.pos c
      have h2 := hge c
      have h3 := hpos c
      omega
    obtain ⟨hcalls, hfull⟩ := hp.calls hbefore
    obtain ⟨hcalls', hfull'⟩ := hexact fun c => by rw [hpos, hbefore, Nat.mul_succ]
    rw [hcalls] at hfull'
    exact ⟨by omega, forall_lt_add hfull hfull'⟩

/-- **What `stripeFile` is to do**: it ends, having written to each chunk file its part of every
stripe, in order, and no byte more. -/
def StripesExactly (xfer : Xfer) (junk : Buf) (input : List Byte) (fs : Chunks) : Prop :=
  ∃ fuel s, stripeLoop xfer fuel fuel junk input fs = some s ∧
    (∀ c, s.pos c = 512 * (input.length / 2048 + 1)) ∧
    Holds input (opened fs) (input.length / 2048 + 1) s.file

/-- **Striping** does what it is to do exactly when each of its writes is complete. -/
lemma stripesExactly_iff (hx : Permitted xfer) (junk : Buf) (input : List Byte) (fs : Chunks) :
    StripesExactly xfer junk input fs ↔
      ∀ n < 5 * (input.length / 2048 + 1), xfer n 512 = 512 := by
  constructor
  · rintro ⟨fuel, s, hs, hpos, -⟩
    have hstart : Pace xfer input 0 ⟨input, false, junk, opened fs, fun _ => 0, 0, 0⟩ :=
      ⟨rfl, Nat.zero_le _, rfl, fun _ => le_rfl, fun _ => ⟨rfl, fun n hn => by omega⟩⟩
    refine iter_inv (fun s => ∃ t, Pace xfer input t s)
      (fun r => (∀ c, r.pos c = 512 * (input.length / 2048 + 1)) →
        ∀ n < 5 * (input.length / 2048 + 1), xfer n 512 = 512) ?_ ?_ ⟨0, hstart⟩ hs hpos
    · rintro s s' ⟨t, hp⟩ hb
      obtain ⟨r, hr, hif⟩ := Option.map_eq_some_iff.mp hb
      obtain ⟨hrest, heof, -, -⟩ := round_short hx hp.eof hr
      split_ifs at hif with hlast
      obtain rfl := Sum.inl.inj hif
      have hlen : 2048 ≤ input.length - 2048 * t := by
        rw [heof, hp.rest, List.length_drop] at hlast
        simpa using hlast
      have hwhole := hp.whole
      obtain ⟨hge, hexact⟩ := hp.round hx hr
      refine ⟨t + 1, ?_, by omega, by simpa using hlast, hge, hexact⟩
      rw [hrest, hp.rest, List.drop_drop]
      congr 1
    · rintro s r' ⟨t, hp⟩ hb
      obtain ⟨r, hr, hif⟩ := Option.map_eq_some_iff.mp hb
      obtain ⟨-, heof, -, -⟩ := round_short hx hp.eof hr
      split_ifs at hif with hlast
      obtain rfl := Sum.inr.inj hif
      have hlen : input.length - 2048 * t < 2048 := by
        rw [heof, hp.rest, List.length_drop] at hlast
        simpa using hlast
      have hwhole := hp.whole
      rw [show input.length / 2048 = t by omega]
      exact fun hpos => ((hp.round hx hr).2 hpos).2
  · intro hfull
    obtain ⟨s, hs, hpos, hdone⟩ := loop_total xfer input junk fs (input.length / 2048) hfull
    exact ⟨_, s, hs, hpos, hdone.2⟩

end Write

/-! ### Reading a part -/

section Read

variable {xfer : Xfer} {file : Fin 5 → List Byte} {m : ℤ} {c : Fin 5} {s s' : Restoring}

/-- One try of a read loop. -/
def tryRead (xfer : Xfer) (file : Fin 5 → List Byte) (c : Fin 5) (offset : ℕ) (s : Restoring) :
    Restoring :=
  let avail := (file c).drop (s.pos c)
  let bread := xfer s.calls (min 512 avail.length)
  { s with
    stripe := blit s.stripe offset (avail.take bread)
    pos := Function.update s.pos c (s.pos c + bread)
    calls := s.calls + 1 }

/-- What the next try moves. -/
def bread (xfer : Xfer) (file : Fin 5 → List Byte) (c : Fin 5) (s : Restoring) : ℕ :=
  xfer s.calls (min 512 ((file c).drop (s.pos c)).length)

lemma readLoop_succ (fuel offset : ℕ) : readLoop xfer (fuel + 1) file c offset s =
    if 512 - bread xfer file c s > 0 then
      readLoop xfer fuel file c (offset + bread xfer file c s) (tryRead xfer file c offset s)
    else some (tryRead xfer file c offset s) := by
  unfold bread
  split_ifs with h
  · exact iter_inl (by simp only [h, if_true, tryRead]) fuel
  · exact iter_inr (by simp only [h, if_false, tryRead]) fuel

/-- **A loop that ends** has moved 512 bytes or more, and they were there; the other chunks are
where they were. -/
lemma readLoop_read (hx : Permitted xfer) {fuel offset : ℕ}
    (h : readLoop xfer fuel file c offset s = some s') :
    (∀ d, d ≠ c → s'.pos d = s.pos d) ∧ s.pos c + 512 ≤ s'.pos c ∧ s'.pos c ≤ (file c).length := by
  induction fuel generalizing offset s with
  | zero => cases h
  | succ fuel ih =>
    have hpos : (tryRead xfer file c offset s).pos c = s.pos c + bread xfer file c s :=
      Function.update_self _ _ _
    have hother : ∀ d, d ≠ c → (tryRead xfer file c offset s).pos d = s.pos d :=
      fun d hd => Function.update_of_ne hd _ _
    rw [readLoop_succ] at h
    split_ifs at h with hshort
    · obtain ⟨hr, hge, hle⟩ := ih h
      exact ⟨fun d hd => (hr d hd).trans (hother d hd), by omega, hle⟩
    · obtain rfl := Option.some.inj h
      have hle : bread xfer file c s ≤ min 512 ((file c).drop (s.pos c)).length := (hx _ _).1
      rw [List.length_drop] at hle
      exact ⟨hother, by omega, by omega⟩

/-- **It moves exactly 512 only by one complete read.** -/
lemma readLoop_exact (hx : Permitted xfer) {fuel offset : ℕ}
    (hlen : s.pos c + 512 ≤ (file c).length)
    (h : readLoop xfer fuel file c offset s = some s') (hpos : s'.pos c = s.pos c + 512) :
    xfer s.calls 512 = 512 ∧ s'.calls = s.calls + 1 := by
  cases fuel with
  | zero => cases h
  | succ fuel =>
    have hbread : bread xfer file c s = xfer s.calls 512 := by
      unfold bread
      rw [List.length_drop, Nat.min_eq_left (by omega)]
    obtain ⟨hle, hone⟩ := hx s.calls 512
    have hone := hone (by omega)
    rw [readLoop_succ, hbread] at h
    split_ifs at h with hshort
    · have hmore := (readLoop_read hx h).2.1
      have hfirst : (tryRead xfer file c offset s).pos c = s.pos c + bread xfer file c s :=
        Function.update_self _ _ _
      omega
    · obtain rfl := Option.some.inj h
      exact ⟨by omega, rfl⟩

/-! ### Reading a stripe -/

/-- The states from one read of a stripe to the next. -/
def Reads (xfer : Xfer) (fuel : ℕ) (file : Fin 5 → List Byte) (m : ℤ) (σ : Fin 6 → Restoring) :
    Prop :=
  ∀ c : Fin 5, readPart xfer fuel file m c (512 * c) (σ c.castSucc) = some (σ c.succ)

/-- The chunks that a stripe is read from. -/
def chunksRead (m : ℤ) : ℕ := #{c : Fin 5 | m ≠ c + 1}

section Stripe

variable {fuel : ℕ} {σ τ : Fin 6 → Restoring}

lemma Reads.cases (h : Reads xfer fuel file m σ) (c : Fin 5) :
    (m = c + 1 ∧ σ c.succ = σ c.castSucc) ∨
      (m ≠ c + 1 ∧ readLoop xfer fuel file c (512 * c) (σ c.castSucc) = some (σ c.succ)) := by
  have hc := h c
  unfold readPart at hc
  split_ifs at hc with hm
  · exact Or.inl ⟨hm, (Option.some.inj hc).symm⟩
  · exact Or.inr ⟨hm, hc⟩

lemma Reads.unique (h : Reads xfer fuel file m σ) (h' : Reads xfer fuel file m τ)
    (h0 : σ 0 = τ 0) (i : Fin 6) : σ i = τ i := by
  induction i using Fin.induction with
  | zero => exact h0
  | succ c ih =>
    have hc := h c
    rw [ih, h' c] at hc
    exact (Option.some.inj hc).symm

/-- Each chunk is at its old position until its own read, and keeps what that leaves. -/
lemma Reads.pos (hx : Permitted xfer) (h : Reads xfer fuel file m σ) (c : Fin 5) :
    (σ c.castSucc).pos c = (σ 0).pos c ∧ (σ (Fin.last 5)).pos c = (σ c.succ).pos c := by
  refine eq_of_steps (f := fun i => (σ i).pos c) fun d hd => ?_
  rcases h.cases d with ⟨-, hd'⟩ | ⟨-, hd'⟩
  · rw [hd']
  · exact (readLoop_read hx hd').1 c hd.symm

lemma Reads.moved (hx : Permitted xfer) (h : Reads xfer fuel file m σ) (hm : m ≠ c + 1) :
    (σ 0).pos c + 512 ≤ (σ (Fin.last 5)).pos c ∧
      (σ (Fin.last 5)).pos c ≤ (file c).length := by
  obtain ⟨hbefore, hafter⟩ := h.pos hx c
  rcases h.cases c with ⟨hm', -⟩ | ⟨-, hc⟩
  · exact absurd hm' hm
  · rw [hafter, ← hbefore]
    exact (readLoop_read hx hc).2

/-- **Only complete reads** fill the slots of a stripe and nothing else. -/
lemma Reads.exact (hx : Permitted xfer) (h : Reads xfer fuel file m σ)
    (hlen : ∀ c : Fin 5, m ≠ c + 1 → (σ 0).pos c + 512 ≤ (file c).length)
    (hpart : ∀ c : Fin 5, m ≠ c + 1 → PartRead file c (σ c.castSucc) (σ c.succ)) :
    (σ (Fin.last 5)).calls = (σ 0).calls + chunksRead m ∧
      ∀ i < chunksRead m, xfer ((σ 0).calls + i) 512 = 512 := by
  have hone : ∀ c : Fin 5, m ≠ c + 1 → xfer (σ c.castSucc).calls 512 = 512 ∧
      (σ c.succ).calls = (σ c.castSucc).calls + 1 := by
    intro c hm
    have hbefore := (h.pos hx c).1
    rcases h.cases c with ⟨hm', -⟩ | ⟨-, hc⟩
    · exact absurd hm' hm
    · exact readLoop_exact hx (by rw [hbefore]; exact hlen c hm) hc (hpart c hm).pos
  refine counter_of_steps (f := fun i => (σ i).calls) (P := fun c => m ≠ c + 1)
    (R := fun n => xfer n 512 = 512) (fun c => ?_) fun c hm => (hone c hm).1
  rcases h.cases c with ⟨hm, hc⟩ | ⟨hm, -⟩
  · rw [hc, if_neg (not_not.mpr hm), Nat.add_zero]
  · rw [if_pos hm, (hone c hm).2]

/-- **Complete reads** do. -/
lemma exists_reads (fuel : ℕ) (hfull : ∀ i < chunksRead m, xfer (s.calls + i) 512 = 512)
    (hlen : ∀ c : Fin 5, m ≠ c + 1 → s.pos c + 512 ≤ (file c).length) :
    ∃ σ : Fin 6 → Restoring, σ 0 = s ∧ Reads xfer (fuel + 1) file m σ ∧
      ∀ c : Fin 5, m ≠ c + 1 → PartRead file c (σ c.castSucc) (σ c.succ) := by
  let σ : Fin 6 → Restoring := Fin.induction s fun c t => wholePart file m c t
  have hsucc : ∀ c : Fin 5, σ c.succ = wholePart file m c (σ c.castSucc) := fun c => rfl
  have hcount : ∀ c : Fin 5,
      (σ c.succ).calls = (σ c.castSucc).calls + if m ≠ c + 1 then 1 else 0 :=
    fun c => by rw [hsucc, wholePart_calls]
  have hlast : (σ (Fin.last 5)).calls = s.calls + chunksRead m :=
    (counter_of_steps (f := fun i => (σ i).calls) (R := fun _ => True) hcount
      fun _ _ => trivial).1
  have hmono : Monotone fun i => (σ i).calls :=
    Fin.monotone_iff_le_succ.mpr fun c => by rw [hcount]; exact Nat.le_add_right _ _
  have hpos : ∀ c : Fin 5, (σ c.castSucc).pos c = s.pos c := fun c =>
    (eq_of_steps (f := fun i => (σ i).pos c) fun d hd => by
      rw [hsucc, wholePart_other hd.symm]).1
  -- each call is one of those that are complete
  have hcall : ∀ c : Fin 5, m ≠ c + 1 → xfer (σ c.castSucc).calls 512 = 512 := by
    intro c hm
    have hfirst : s.calls ≤ (σ c.castSucc).calls := hmono (Fin.zero_le _)
    have hnext : (σ c.succ).calls ≤ (σ (Fin.last 5)).calls := hmono (Fin.le_last _)
    rw [hcount, if_pos hm] at hnext
    obtain ⟨i, hi⟩ := Nat.exists_eq_add_of_le hfirst
    rw [hi]
    exact hfull i (by omega)
  refine ⟨σ, rfl, fun c => ?_, fun c hm => ?_⟩
  · rw [hsucc]
    exact readPart_whole fuel (hcall c) fun hm => by rw [hpos]; exact hlen c hm
  · rw [hsucc]
    exact partRead_wholePart hm (by rw [hpos]; exact hlen c hm)

/-- The `fwrite` loop takes one turn. -/
lemma fwriteLoop_succ (fuel : ℕ) (total : ℤ) : fwriteLoop (fuel + 1) total s =
    if total < 0 then none
    else some { s with out := s.out ++ slice s.stripe 0 total.toNat } := by
  unfold fwriteLoop
  rw [iter]
  split_ifs with h
  · simp [h]
  · simp [h]

lemma fwriteLoop_keeps {total : ℤ} (h : fwriteLoop fuel total s = some s') :
    s'.pos = s.pos ∧ s'.calls = s.calls := by
  cases fuel with
  | zero => cases h
  | succ fuel =>
    rw [fwriteLoop_succ] at h
    split_ifs at h
    obtain rfl := Option.some.inj h
    exact ⟨rfl, rfl⟩

/-- **A round of `restoreFile`**: the reads, then the rebuilding and the write. -/
lemma restoreRound_eq_some {total : ℤ} : restoreRound xfer fuel file m total s = some s' ↔
    ∃ σ : Fin 6 → Restoring, σ 0 = s ∧ Reads xfer fuel file m σ ∧
      fwriteLoop fuel total { σ (Fin.last 5) with
        stripe := rebuild m (σ (Fin.last 5)).stripe } = some s' := by
  constructor
  · intro h
    unfold restoreRound at h
    simp only [Option.bind_eq_bind, Option.bind_eq_some_iff] at h
    obtain ⟨s₁, h₁, s₂, h₂, s₃, h₃, s₄, h₄, s₅, h₅, h₆⟩ := h
    refine ⟨![s, s₁, s₂, s₃, s₄, s₅], rfl, fun c => ?_, h₆⟩
    fin_cases c
    exacts [h₁, h₂, h₃, h₄, h₅]
  · rintro ⟨σ, rfl, h, hw⟩
    have r₀ : readPart xfer fuel file m 0 0 (σ 0) = some (σ 1) := h 0
    have r₁ : readPart xfer fuel file m 1 512 (σ 1) = some (σ 2) := h 1
    have r₂ : readPart xfer fuel file m 2 1024 (σ 2) = some (σ 3) := h 2
    have r₃ : readPart xfer fuel file m 3 1536 (σ 3) = some (σ 4) := h 3
    have r₄ : readPart xfer fuel file m 4 2048 (σ 4) = some (σ 5) := h 4
    unfold restoreRound
    simp only [r₀, r₁, r₂, r₃, r₄, Option.bind_eq_bind, Option.bind_some]
    exact hw

/-- A round that ends has found 512 bytes in each chunk it reads. -/
lemma round_moved (hx : Permitted xfer) {total : ℤ}
    (h : restoreRound xfer fuel file m total s = some s') (hm : m ≠ c + 1) :
    s.pos c + 512 ≤ s'.pos c ∧ s'.pos c ≤ (file c).length := by
  obtain ⟨σ, rfl, hσ, hw⟩ := restoreRound_eq_some.mp h
  rw [(fwriteLoop_keeps hw).1]
  exact hσ.moved hx hm

/-- A round of complete reads ends. -/
lemma round_total (hx : Permitted xfer) (fuel : ℕ)
    (hfull : ∀ i < chunksRead m, xfer (s.calls + i) 512 = 512)
    (hlen : ∀ c : Fin 5, m ≠ c + 1 → s.pos c + 512 ≤ (file c).length) {total : ℤ}
    (htotal : 0 ≤ total) :
    ∃ s', restoreRound xfer (fuel + 1) file m total s = some s' ∧
      (∀ c : Fin 5, m ≠ c + 1 → s'.pos c = s.pos c + 512) ∧
      s'.calls = s.calls + chunksRead m := by
  obtain ⟨σ, rfl, hσ, hpart⟩ := exists_reads fuel hfull hlen
  have hw : ∃ s', fwriteLoop (fuel + 1) total { σ (Fin.last 5) with
      stripe := rebuild m (σ (Fin.last 5)).stripe } = some s' :=
    ⟨_, by rw [fwriteLoop_succ, if_neg (not_lt.mpr htotal)]⟩
  obtain ⟨s', hw⟩ := hw
  obtain ⟨hpos, hcalls⟩ := fwriteLoop_keeps hw
  refine ⟨s', restoreRound_eq_some.mpr ⟨σ, rfl, hσ, hw⟩, fun c hm => ?_,
    hcalls.trans (hσ.exact hx hlen hpart).1⟩
  obtain ⟨hbefore, hafter⟩ := hσ.pos hx c
  rw [hpos, hafter, (hpart c hm).pos, hbefore]

end Stripe

end Read

/-! ### Restoring a file -/

section Restore

variable {xfer : Xfer} {fuel : ℕ} {file : Fin 5 → List Byte} {fs : Chunks} {len m : ℤ} {junk : Buf}
  {s : Restoring} {t : ℕ}

/-- The stripes that `restoreFile` reads. -/
def stripes (len : ℤ) : ℕ := (len.tdiv 2048).toNat + if len.tmod 2048 ≠ 0 then 1 else 0

/-- `restoreFile` before round `t`. -/
def before (xfer : Xfer) (fuel : ℕ) (file : Fin 5 → List Byte) (m : ℤ) (junk : Buf) (t : ℕ) :
    Option Restoring :=
  (List.range t).foldlM (fun s _ => restoreRound xfer fuel file m 2048 s)
    ⟨junk, fun _ => 0, [], 0⟩

lemma before_succ : before xfer fuel file m junk (t + 1) =
    (before xfer fuel file m junk t).bind (restoreRound xfer fuel file m 2048) := by
  unfold before
  rw [List.range_succ, List.foldlM_append]
  cases (List.range t).foldlM (fun s _ => restoreRound xfer fuel file m 2048 s)
    (⟨junk, fun _ => 0, [], 0⟩ : Restoring) <;> simp

lemma before_moved (hx : Permitted xfer) (h : before xfer fuel file m junk t = some s)
    {c : Fin 5} (hm : m ≠ c + 1) : 512 * t ≤ s.pos c ∧ (0 < t → s.pos c ≤ (file c).length) := by
  induction t generalizing s with
  | zero => exact ⟨by omega, fun h => absurd h (lt_irrefl 0)⟩
  | succ t ih =>
    rw [before_succ] at h
    obtain ⟨s₀, h₀, hround⟩ := Option.bind_eq_some_iff.mp h
    have hle := (ih h₀).1
    obtain ⟨hge, hin⟩ := round_moved hx hround hm
    exact ⟨by omega, fun _ => hin⟩

lemma before_total (hx : Permitted xfer) (fuel : ℕ) (junk : Buf) (t : ℕ)
    (hfull : ∀ n < t * chunksRead m, xfer n 512 = 512)
    (hlen : ∀ c : Fin 5, m ≠ c + 1 → 512 * t ≤ (file c).length) :
    ∃ s, before xfer (fuel + 1) file m junk t = some s ∧
      (∀ c : Fin 5, m ≠ c + 1 → s.pos c = 512 * t) ∧ s.calls = t * chunksRead m := by
  induction t with
  | zero => exact ⟨_, rfl, fun _ _ => rfl, (Nat.zero_mul _).symm⟩
  | succ t ih =>
    rw [Nat.succ_mul] at hfull
    obtain ⟨s, hs, hpos, hcalls⟩ := ih (fun n hn => hfull n (by omega))
      fun c hm => by have := hlen c hm; omega
    obtain ⟨s', hs', hpos', hcalls'⟩ := round_total hx fuel (s := s) (m := m)
      (fun i hi => hfull _ (by omega)) (fun c hm => by rw [hpos c hm]; exact hlen c hm)
      (show (0 : ℤ) ≤ 2048 by decide)
    refine ⟨s', by rw [before_succ, hs]; exact hs', fun c hm => ?_, ?_⟩
    · rw [hpos' c hm, hpos c hm, Nat.mul_succ]
    · rw [hcalls', hcalls, Nat.succ_mul]

/-- **What the reads of `restoreFile` are to do**: in each round, each chunk that is read has its
part of that stripe put into its own slot of the buffer, and nothing else. -/
def RestoresExactly (xfer : Xfer) (junk : Buf) (fs : Chunks) (len m : ℤ) : Prop :=
  ∃ fuel, ∀ t < stripes len, ∃ σ : Fin 6 → Restoring,
    before xfer fuel (opened fs) m junk t = some (σ 0) ∧ Reads xfer fuel (opened fs) m σ ∧
    ∀ c : Fin 5, m ≠ c + 1 → (σ 0).pos c = 512 * t ∧
      PartRead (opened fs) c (σ c.castSucc) (σ c.succ)

/-- **Restoring** does it exactly when each of its reads is complete. -/
lemma restoresExactly_iff (hx : Permitted xfer) (junk : Buf)
    (hlen : ∀ c : Fin 5, m ≠ c + 1 → 512 * stripes len ≤ (opened fs c).length) :
    RestoresExactly xfer junk fs len m ↔
      ∀ n < stripes len * chunksRead m, xfer n 512 = 512 := by
  constructor
  · rintro ⟨fuel, h⟩
    -- round by round, the calls so far were complete
    suffices ∀ t ≤ stripes len, (∀ n < t * chunksRead m, xfer n 512 = 512) ∧
        ∀ s, before xfer fuel (opened fs) m junk t = some s → s.calls = t * chunksRead m from
      (this _ le_rfl).1
    intro t
    induction t with
    | zero =>
      refine fun _ => ⟨fun n hn => absurd hn (by omega), fun s hs => ?_⟩
      obtain rfl := Option.some.inj hs
      exact (Nat.zero_mul _).symm
    | succ t ih =>
      intro ht
      obtain ⟨hfull, hcalls⟩ := ih (by omega)
      obtain ⟨σ, hσ0, hσ, hpart⟩ := h t (by omega)
      have hin : ∀ c : Fin 5, m ≠ c + 1 → (σ 0).pos c + 512 ≤ (opened fs c).length := by
        intro c hm
        have h1 := (hpart c hm).1
        have h2 := hlen c hm
        omega
      obtain ⟨hlast, hone⟩ := hσ.exact hx hin fun c hm => (hpart c hm).2
      rw [hcalls _ hσ0] at hlast hone
      rw [Nat.succ_mul]
      refine ⟨forall_lt_add hfull hone, fun s hs => ?_⟩
      rw [before_succ, hσ0, Option.bind_some] at hs
      obtain ⟨τ, hτ0, hτ, hw⟩ := restoreRound_eq_some.mp hs
      rw [(fwriteLoop_keeps hw).2, hτ.unique hσ hτ0, hlast]
  · intro hfull
    refine ⟨1, fun t ht => ?_⟩
    have hmul : (t + 1) * chunksRead m ≤ stripes len * chunksRead m := Nat.mul_le_mul_right _ ht
    rw [Nat.succ_mul] at hmul
    obtain ⟨s, hs, hpos, hcalls⟩ := before_total hx 0 junk t (fun n hn => hfull n (by omega))
      fun c hm => le_trans (by omega) (hlen c hm)
    obtain ⟨σ, rfl, hσ, hpart⟩ := exists_reads 0 (s := s) (m := m)
      (fun i hi => hfull _ (by omega)) fun c hm => by
        rw [hpos c hm]
        exact le_trans (by omega) (hlen c hm)
    exact ⟨σ, hs, hσ, fun c hm => ⟨hpos c hm, hpart c hm⟩⟩

end Restore

/-- **Short transfers.** For every input and all counts that the kernel may give, each chunk file
is appended exactly its parts if and only if every `write` of `stripeFile` is complete; and, from
chunks that hold the stripes of a file of `len` bytes, each part gets into its own slot and
nothing else if and only if every `read` of `restoreFile` is. -/
theorem transfers_exact_iff {xw xr : Xfer} (hw : Permitted xw) (hr : Permitted xr)
    (junk junk' : Buf) (input : List Byte) (fs fs' : Chunks) (len m : ℤ)
    (hlen : ∀ c : Fin 5, m ≠ c + 1 → 512 * stripes len ≤ (opened fs' c).length) :
    (StripesExactly xw junk input fs ↔
      ∀ n < 5 * (input.length / 2048 + 1), xw n 512 = 512) ∧
    (RestoresExactly xr junk' fs' len m ↔
      ∀ n < stripes len * chunksRead m, xr n 512 = 512) :=
  ⟨stripesExactly_iff hw junk input fs, restoresExactly_iff hr junk' hlen⟩

lemma permitted_full : Permitted full := fun _ _ => ⟨le_rfl, fun h => h⟩

/-- Five chunk files of one sector each. -/
def sectors : Chunks := fun _ => some (List.replicate 512 0)

lemma length_sectors (c : Fin 5) : (opened sectors c).length = 512 := List.length_replicate

lemma stripes_five : stripes 5 = 1 := by decide

/-- Complete transfers of a file of five bytes. -/
theorem transfers_exact_iff_full :
    StripesExactly full (fun _ => 0) [1, 2, 3, 4, 5] (fun _ => none) ∧
      RestoresExactly full (fun _ => 0) sectors 5 2 := by
  have h := transfers_exact_iff permitted_full permitted_full (fun _ => 0) (fun _ => 0)
    [1, 2, 3, 4, 5] (fun _ => none) sectors 5 2 fun c _ => by rw [length_sectors, stripes_five]
  exact ⟨h.1.mpr fun _ _ => rfl, h.2.mpr fun _ _ => rfl⟩

/-- The first transfer moves one byte, all others are complete. -/
def firstShort : Xfer := fun n m => if n = 0 then min 1 m else m

lemma permitted_firstShort : Permitted firstShort := by
  intro n m
  unfold firstShort
  split_ifs <;> omega

/-- After one short write or read the same files are not striped or restored as they should be. -/
theorem firstShort_not_exact : Permitted firstShort ∧
    ¬ StripesExactly firstShort (fun _ => 0) [1, 2, 3, 4, 5] (fun _ => none) ∧
    ¬ RestoresExactly firstShort (fun _ => 0) sectors 5 2 := by
  refine ⟨permitted_firstShort, fun h => ?_, fun h => ?_⟩
  · rw [stripesExactly_iff permitted_firstShort] at h
    exact absurd (h 0 (by decide)) (by decide)
  · rw [restoresExactly_iff permitted_firstShort _ fun c _ => by
      rw [length_sectors, stripes_five]] at h
    exact absurd (h 0 (by decide)) (by decide)

end Rtes.RaidShort
