import Rtes.Bytes

/-!
Iterated compression of a message in blocks.

A compression function takes a chaining value and a block of `n`. The whole blocks of a message
are taken in one after the other and what is left over waits for more of the message; how the
message is cut into pieces makes no difference. A padded message has no rest. Two padded
messages with one result have two different inputs of the compression function with one result,
and both of them are met on the way.
-/

namespace Rtes.Absorb

open Rtes.Bytes

variable {α σ : Type*} (f : σ → List α → σ) (n : ℕ)

/-- The first `k` blocks. -/
def blocks : ℕ → σ → List α → σ
  | 0, s, _ => s
  | k + 1, s, m => blocks k (f s (m.take n)) (m.drop n)

/-- All whole blocks. -/
def absorb (s : σ) (m : List α) : σ := blocks f n (m.length / n) s m

/-- What is behind the whole blocks. -/
def rest (m : List α) : List α := m.drop (n * (m.length / n))

/-- `while (len >= n)`, a block each time round: the loop gives the chaining value and what is
left of the message. -/
def drain : ℕ → σ → List α → σ × List α
  | 0, s, m => (s, m)
  | fuel + 1, s, m =>
    if n ≤ m.length then drain fuel (f s (m.take n)) (m.drop n) else (s, m)

variable {f n}

lemma length_rest (m : List α) : (rest n m).length = m.length % n := by
  rw [rest, List.length_drop, Nat.mod_eq_sub]

lemma absorb_of_lt {m : List α} (h : m.length < n) (s : σ) : absorb f n s m = s := by
  rw [absorb, Nat.div_eq_of_lt h, blocks]

lemma rest_of_lt {m : List α} (h : m.length < n) : rest n m = m := by
  rw [rest, Nat.div_eq_of_lt h, Nat.mul_zero, List.drop_zero]

lemma rest_of_dvd {m : List α} (h : n ∣ m.length) : rest n m = [] := by
  rw [← List.length_eq_zero_iff, length_rest, Nat.mod_eq_zero_of_dvd h]

lemma absorb_eq_blocks {m : List α} {k : ℕ} (hn : 0 < n) (h : m.length = n * k) (s : σ) :
    absorb f n s m = blocks f n k s m := by
  rw [absorb, h, Nat.mul_div_cancel_left k hn]

/-- The blocks by their places. -/
lemma foldl_blocks (k : ℕ) (s : σ) (m : List α) :
    (List.range k).foldl (fun s i => f s ((m.drop (n * i)).take n)) s = blocks f n k s m := by
  induction k generalizing s m with
  | zero => rfl
  | succ k ih =>
    rw [List.range_succ_eq_map, List.foldl_cons, List.foldl_map, blocks, Nat.mul_zero,
      List.drop_zero, ← ih]
    simp only [Nat.mul_succ, List.drop_drop, Nat.add_comm n]

/-- Only blocks of `n` are compressed. -/
lemma blocks_congr {f' : σ → List α → σ} (hf : ∀ s b, b.length = n → f s b = f' s b) {k : ℕ}
    {m : List α} (hm : n * k ≤ m.length) (s : σ) : blocks f n k s m = blocks f' n k s m := by
  induction k generalizing s m with
  | zero => rfl
  | succ k ih =>
    rw [Nat.mul_succ] at hm
    rw [blocks, blocks, hf s _ (List.length_take_of_le (by omega)),
      ih (by rw [List.length_drop]; omega)]

section Block

variable (hn : 0 < n)
include hn

lemma absorb_block {b : List α} (hb : b.length = n) (s : σ) (m : List α) :
    absorb f n s (b ++ m) = absorb f n (f s b) m := by
  rw [absorb, List.length_append, hb, Nat.add_div_left _ hn, blocks, ← hb, List.take_left,
    List.drop_left, hb, absorb]

lemma rest_block {b : List α} (hb : b.length = n) (m : List α) :
    rest n (b ++ m) = rest n m := by
  rw [rest, List.length_append, hb, Nat.add_div_left _ hn, Nat.mul_succ, Nat.add_comm,
    ← List.drop_drop, ← hb, List.drop_left, hb, rest]

/-- A message is short, or a block and a message. -/
lemma block_induction {P : List α → Prop} (short : ∀ m, m.length < n → P m)
    (step : ∀ b m, b.length = n → P m → P (b ++ m)) (m : List α) : P m := by
  obtain ⟨l, hl⟩ : ∃ l, m.length = l := ⟨_, rfl⟩
  induction l using Nat.strong_induction_on generalizing m with
  | _ l ih =>
    rcases Nat.lt_or_ge m.length n with h | h
    · exact short m h
    · rw [← List.take_append_drop n m]
      refine step _ _ (List.length_take_of_le h) (ih (l - n) (by omega) _ ?_)
      rw [List.length_drop, hl]

/-- **The message in two parts.** -/
theorem absorb_append (s : σ) (m x : List α) :
    absorb f n s (m ++ x) = absorb f n (absorb f n s m) (rest n m ++ x) := by
  induction m using block_induction hn generalizing s with
  | short m h => rw [absorb_of_lt h, rest_of_lt h]
  | step b m hb ih => rw [List.append_assoc, absorb_block hn hb, ih, absorb_block hn hb,
      rest_block hn hb]

theorem rest_append (m x : List α) : rest n (m ++ x) = rest n (rest n m ++ x) := by
  induction m using block_induction hn with
  | short m h => rw [rest_of_lt h]
  | step b m hb ih => rw [List.append_assoc, rest_block hn hb, ih, rest_block hn hb]

lemma absorb_append_of_dvd (s : σ) {m : List α} (h : n ∣ m.length) (x : List α) :
    absorb f n s (m ++ x) = absorb f n (absorb f n s m) x := by
  rw [absorb_append hn, rest_of_dvd h, List.nil_append]

lemma absorb_single (s : σ) {b : List α} (hb : b.length = n) : absorb f n s b = f s b := by
  rw [← List.append_nil b, absorb_block hn hb, List.append_nil, absorb_of_lt (by simpa)]

/-- The loop takes in the whole blocks. -/
theorem drain_eq {fuel : ℕ} {m : List α} (hfuel : m.length ≤ fuel) (s : σ) :
    drain f n fuel s m = (absorb f n s m, rest n m) := by
  induction fuel generalizing s m with
  | zero =>
    have h : m.length < n := by omega
    rw [drain, absorb_of_lt h, rest_of_lt h]
  | succ fuel ih =>
    rw [drain]
    split_ifs with h
    · have hb : (m.take n).length = n := List.length_take_of_le h
      rw [ih (by rw [List.length_drop]; omega), ← absorb_block hn hb, ← rest_block hn hb,
        List.take_append_drop]
    · rw [absorb_of_lt (by omega), rest_of_lt (by omega)]

end Block

/-- A loop over a state of which `g` is a view. -/
lemma drain_map {τ : Type*} {f' : τ → List α → τ} (g : σ → τ)
    (hg : ∀ s b, b.length = n → g (f s b) = f' (g s) b) (fuel : ℕ) (s : σ) (m : List α) :
    drain f' n fuel (g s) m = ((g (drain f n fuel s m).1, (drain f n fuel s m).2)) := by
  induction fuel generalizing s m with
  | zero => rfl
  | succ fuel ih =>
    rw [drain, drain]
    split_ifs with h
    · rw [← hg _ _ (List.length_take_of_le h), ih]
    · rfl

/-! ### A context with a buffer -/

/-- A chaining value and a buffer that have taken in the message `m`. -/
structure Tracks {σ : Type*} (f : σ → List Byte → σ) (n : ℕ) (iv : σ) (s : σ) (buf : Buf)
    (m : List Byte) : Prop where
  state : s = absorb f n iv m
  buffer : slice buf 0 (m.length % n) = rest n m

lemma slice_blit (b : Buf) (o : ℕ) (xs : List Byte) :
    slice (blit b o xs) 0 (o + xs.length) = slice b 0 o ++ xs := by
  apply ext_getD
  · simp
  · intro k hk
    rw [length_slice] at hk
    rw [getD_slice _ _ hk, Nat.zero_add]
    rcases Nat.lt_or_ge k o with h | h
    · rw [blit_out (.inl h), List.getD_append _ _ _ _ (by simpa), getD_slice _ _ h, Nat.zero_add]
    · obtain ⟨j, rfl⟩ := Nat.exists_eq_add_of_le h
      rw [blit_in (by omega), List.getD_append_right _ _ _ _ (by simp), length_slice,
        Nat.add_sub_cancel_left]

@[simp] lemma blit_nil (b : Buf) (o : ℕ) : blit b o [] = b := by
  funext k
  exact blit_out (by simp; omega)

/-- A copy that is left out when there is nothing to copy. -/
lemma ite_blit (b : Buf) (o : ℕ) (xs : List Byte) :
    (if 0 < xs.length then blit b o xs else b) = blit b o xs := by
  split_ifs with h
  · rfl
  · rw [List.length_eq_zero_iff.mp (Nat.eq_zero_of_not_pos h), blit_nil]

namespace Tracks

variable {σ : Type*} {f : σ → List Byte → σ} {n : ℕ} {iv s : σ} {buf : Buf} {m x : List Byte}

/-- The rest is copied to the start of the buffer. -/
lemma of_absorb (h : s = absorb f n iv m) (buf : Buf) :
    Tracks f n iv s (blit buf 0 (rest n m)) m where
  state := h
  buffer := by simpa [length_rest, slice] using slice_blit buf 0 (rest n m)

lemma init (iv : σ) (buf : Buf) : Tracks f n iv iv buf [] where
  state := by simp [absorb, blocks]
  buffer := by simp [rest, slice]

/-- What does not fill a block is added to the buffer. -/
lemma keep (h : Tracks f n iv s buf m) (hx : m.length % n + x.length < n) :
    Tracks f n iv s (blit buf (m.length % n) x) (m ++ x) := by
  have hn : 0 < n := by omega
  have hlen : (rest n m ++ x).length < n := by rwa [List.length_append, length_rest]
  refine ⟨?_, ?_⟩
  · rw [absorb_append hn, absorb_of_lt hlen, h.state]
  · rw [rest_append hn, rest_of_lt hlen, ← h.buffer, ← slice_blit, List.length_append,
      Nat.add_mod, Nat.mod_eq_of_lt (a := x.length) (by omega), Nat.mod_eq_of_lt hx]

/-- The buffer is filled and compressed, and then the whole blocks behind it. -/
lemma fill (h : Tracks f n iv s buf m) (hn : 0 < n) (hx : n ≤ m.length % n + x.length) :
    absorb f n (f s (slice (blit buf (m.length % n) (x.take (n - m.length % n))) 0 n))
        (x.drop (n - m.length % n)) = absorb f n iv (m ++ x) ∧
      rest n (x.drop (n - m.length % n)) = rest n (m ++ x) := by
  have hm : m.length % n < n := Nat.mod_lt _ hn
  obtain ⟨y, hy⟩ : ∃ y, x.take (n - m.length % n) = y := ⟨_, rfl⟩
  have hlen : m.length % n + y.length = n := by
    rw [← hy, List.length_take]
    omega
  have hblock : slice (blit buf (m.length % n) y) 0 n = rest n m ++ y := by
    rw [← h.buffer, ← slice_blit, hlen]
  have hb : (rest n m ++ y).length = n := by rw [List.length_append, length_rest, hlen]
  have hsplit : rest n m ++ x = (rest n m ++ y) ++ x.drop (n - m.length % n) := by
    rw [List.append_assoc, ← hy, List.take_append_drop]
  rw [hy, hblock, absorb_append hn iv m, rest_append hn m, hsplit, absorb_block hn hb,
    rest_block hn hb, h.state]
  exact ⟨rfl, rfl⟩

/-- With nothing in the buffer, the whole blocks are taken from the input. -/
lemma aligned (h : Tracks f n iv s buf m) (hn : 0 < n) (hm : m.length % n = 0) (x : List Byte) :
    absorb f n s x = absorb f n iv (m ++ x) ∧ rest n x = rest n (m ++ x) := by
  have hdvd : n ∣ m.length := Nat.dvd_of_mod_eq_zero hm
  rw [absorb_append_of_dvd hn iv hdvd, rest_append hn m, rest_of_dvd hdvd, h.state]
  exact ⟨rfl, rfl⟩

end Tracks

/-! ### Padding -/

/-- The zeros between the mark and the length, which has `w` places. -/
def fillers (n w l : ℕ) : ℕ := (n - (l + 1 + w) % n) % n

/-- The message, the mark, zeros and the length. -/
def pad (n : ℕ) (enc : ℕ → List Byte) (m : List Byte) : List Byte :=
  m ++ 0x80 :: (List.replicate (fillers n (enc m.length).length m.length) 0 ++ enc m.length)

lemma dvd_fillers (n w l : ℕ) (hn : 0 < n) : n ∣ l + 1 + w + fillers n w l := by
  have h := Nat.mod_lt (l + 1 + w) hn
  rw [fillers, Nat.dvd_iff_mod_eq_zero, Nat.add_mod_mod]
  have : l + 1 + w + (n - (l + 1 + w) % n) = n * ((l + 1 + w) / n) + n := by
    have := Nat.div_add_mod (l + 1 + w) n
    omega
  rw [this, Nat.add_mod_right, Nat.mul_mod_right]

lemma fillers_of_le {n w l : ℕ} (h : l % n + 1 + w ≤ n) :
    fillers n w l = n - (l % n + 1 + w) := by
  have hmod : (l + 1 + w) % n = (l % n + 1 + w) % n := by simp [Nat.add_mod]
  rw [fillers, hmod]
  rcases Nat.lt_or_eq_of_le h with h | h
  · rw [Nat.mod_eq_of_lt h, Nat.mod_eq_of_lt (by omega)]
  · rw [h, Nat.mod_self, Nat.sub_zero, Nat.mod_self, Nat.sub_self]

lemma fillers_of_gt {n w l : ℕ} (h : n < l % n + 1 + w) (hle : l % n + 1 + w ≤ 2 * n) :
    fillers n w l = 2 * n - (l % n + 1 + w) := by
  have hmod : (l + 1 + w) % n = (l % n + 1 + w) % n := by simp [Nat.add_mod]
  rw [fillers, hmod]
  rcases Nat.lt_or_eq_of_le hle with hlt | heq
  · rw [Nat.mod_eq_sub_mod h.le, Nat.mod_eq_of_lt (show l % n + 1 + w - n < n by omega),
      Nat.mod_eq_of_lt (by omega)]
    omega
  · rw [heq, Nat.mul_mod_left, Nat.sub_zero, Nat.mod_self, Nat.sub_self]

lemma dvd_length_pad {n : ℕ} (hn : 0 < n) (enc : ℕ → List Byte) (m : List Byte) :
    n ∣ (pad n enc m).length := by
  have h := dvd_fillers n (enc m.length).length m.length hn
  simp only [pad, List.length_append, List.length_cons, List.length_replicate]
  convert h using 1
  omega

/-! ### Collisions -/

section Collision

variable {σ : Type*} (f : σ → List Byte → σ) (n : ℕ)

/-- On their ways through `m` and `m'` from `s` two different inputs of `f` have one result,
with the same blocks behind them. -/
def Meet (s : σ) (m m' : List Byte) : Prop :=
  ∃ p b p' b' q, m = p ++ (b ++ q) ∧ m' = p' ++ (b' ++ q) ∧ n ∣ p.length ∧ n ∣ p'.length ∧
    b.length = n ∧ b'.length = n ∧ (absorb f n s p, b) ≠ (absorb f n s p', b') ∧
    f (absorb f n s p) b = f (absorb f n s p') b'

variable {f n}

/-- The last block of a message of whole blocks. -/
lemma exists_last {m : List Byte} (hm : n ∣ m.length) (hpos : 0 < m.length) :
    ∃ p b, m = p ++ b ∧ b.length = n ∧ n ∣ p.length := by
  have hle : n ≤ m.length := Nat.le_of_dvd hpos hm
  refine ⟨m.take (m.length - n), m.drop (m.length - n), (List.take_append_drop _ _).symm, ?_, ?_⟩
  · rw [List.length_drop]
    omega
  · rw [List.length_take, Nat.min_eq_left (by omega)]
    exact Nat.dvd_sub hm dvd_rfl

lemma absorb_last (hn : 0 < n) (s : σ) {p b : List Byte} (hp : n ∣ p.length)
    (hb : b.length = n) : absorb f n s (p ++ b) = f (absorb f n s p) b := by
  rw [absorb_append_of_dvd hn s hp, absorb_single hn _ hb]

lemma Meet.append {s : σ} {m m' : List Byte} (h : Meet f n s m m') (q : List Byte) :
    Meet f n s (m ++ q) (m' ++ q) := by
  obtain ⟨p, b, p', b', r, rfl, rfl, h⟩ := h
  exact ⟨p, b, p', b', r ++ q, by simp, by simp, h⟩

/-- Messages with one result and different last blocks meet there. -/
lemma meet_last (hn : 0 < n) {s : σ} {p b p' b' : List Byte} (hp : n ∣ p.length)
    (hp' : n ∣ p'.length) (hb : b.length = n) (hb' : b'.length = n)
    (hne : (absorb f n s p, b) ≠ (absorb f n s p', b'))
    (h : absorb f n s (p ++ b) = absorb f n s (p' ++ b')) :
    Meet f n s (p ++ b) (p' ++ b') := by
  rw [absorb_last hn s hp hb, absorb_last hn s hp' hb'] at h
  exact ⟨p, b, p', b', [], by simp, by simp, hp, hp', hb, hb', hne, h⟩

/-- **Two messages of one length with one result meet.** -/
theorem meet_of_length_eq (hn : 0 < n) {s : σ} {m m' : List Byte} (hm : n ∣ m.length)
    (hlen : m.length = m'.length) (hne : m ≠ m') (h : absorb f n s m = absorb f n s m') :
    Meet f n s m m' := by
  -- by induction on the number of blocks, the last block first
  obtain ⟨l, hl⟩ : ∃ l, m.length = l := ⟨_, rfl⟩
  induction l using Nat.strong_induction_on generalizing m m' with
  | _ l ih =>
    rcases Nat.eq_zero_or_pos m.length with h0 | hpos
    · refine absurd ?_ hne
      rw [List.length_eq_zero_iff.mp h0, List.length_eq_zero_iff.mp (hlen.symm.trans h0)]
    · obtain ⟨p, b, rfl, hb, hp⟩ := exists_last hm hpos
      obtain ⟨p', b', rfl, hb', hp'⟩ := exists_last (m := m') (n := n) (hlen ▸ hm) (hlen ▸ hpos)
      by_cases heq : (absorb f n s p, b) = (absorb f n s p', b')
      · obtain ⟨hs, rfl⟩ := Prod.mk.inj heq
        have hlen' : p.length = p'.length := by simpa using hlen
        refine (ih p.length ?_ hp hlen' (fun e => hne (by rw [e])) hs rfl).append b
        rw [← hl, List.length_append]
        omega
      · exact meet_last hn hp hp' hb hb' heq h

/-- The length stands at the end of the last block. -/
lemma pad_last {enc : ℕ → List Byte} {m p b : List Byte} (hw : (enc m.length).length ≤ n)
    (hpad : pad n enc m = p ++ b) (hb : b.length = n) : enc m.length <:+ b := by
  have h : enc m.length <:+ p ++ b := by
    rw [← hpad]
    refine ⟨m ++ 0x80 :: List.replicate (fillers n (enc m.length).length m.length) 0, ?_⟩
    simp [pad]
  exact List.suffix_of_suffix_length_le h (List.suffix_append p b) (by omega)

lemma pad_injective {enc : ℕ → List Byte} {m m' : List Byte} (hlen : m.length = m'.length)
    (h : pad n enc m = pad n enc m') : m = m' :=
  (List.append_inj h hlen).1

/-- **Two padded messages with one result meet**, where the lengths can be told apart. -/
theorem meet_of_pad (hn : 0 < n) {enc : ℕ → List Byte} {w : ℕ} (henc : ∀ l, (enc l).length = w)
    (hw : w ≤ n) {s : σ} {m m' : List Byte}
    (hinj : enc m.length = enc m'.length → m.length = m'.length) (hne : m ≠ m')
    (h : absorb f n s (pad n enc m) = absorb f n s (pad n enc m')) :
    Meet f n s (pad n enc m) (pad n enc m') := by
  have hpos : ∀ m, 0 < (pad n enc m).length := fun m => by simp [pad]
  by_cases hlen : m.length = m'.length
  · refine meet_of_length_eq hn (dvd_length_pad hn enc m) ?_
      (fun e => hne (pad_injective hlen e)) h
    simp [pad, hlen]
  · obtain ⟨p, b, hpb, hb, hp⟩ := exists_last (dvd_length_pad hn enc m) (hpos m)
    obtain ⟨p', b', hpb', hb', hp'⟩ := exists_last (dvd_length_pad hn enc m') (hpos m')
    have hsuf : enc m.length <:+ b := pad_last (by rw [henc]; exact hw) hpb hb
    have hsuf' : enc m'.length <:+ b' := pad_last (by rw [henc]; exact hw) hpb' hb'
    rw [hpb, hpb'] at h ⊢
    refine meet_last hn hp hp' hb hb' (fun e => hlen (hinj ?_)) h
    -- suffixes of one length of one block
    obtain ⟨-, rfl⟩ := Prod.mk.inj e
    have hsuf2 := List.suffix_of_suffix_length_le hsuf hsuf' (by rw [henc, henc])
    exact hsuf2.eq_of_length (by rw [henc, henc])

end Collision

end Rtes.Absorb
