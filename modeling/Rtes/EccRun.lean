import Rtes.EccModel

/-!
Runs of the ECC memory: writes, reads and single-bit faults at any addresses, in any order.

A fault adds its position to the stored word of its address and nothing to the others, so
between two writes the stored word is the one written plus the positions flipped an odd
number of times, until a read finds the parity wrong and sets the bit `pW`.
-/

namespace Rtes.EccRun

open Finset Rtes.Bytes Rtes.Secded Rtes.EccModel
open scoped symmDiff

/-- A call; a `read` finds `b` in its caller's buffer. -/
inductive Op
  | write (a : Fin 1024) (v : Byte)
  | read (a : Fin 1024) (b : Byte)
  | flip (a : Fin 1024) (q : ℕ)
  deriving DecidableEq

def Op.addr : Op → Fin 1024
  | .write a _ => a
  | .read a _ => a
  | .flip a _ => a

def step (ecc : Ecc) : Op → Ecc
  | .write a v => (writeByte ecc a v).2
  | .read a b => (readByte ecc a b).2.2
  | .flip a q => flipBit ecc a q

def run (ecc : Ecc) (ops : List Op) : Ecc := ops.foldl step ecc

lemma run_cons (ecc : Ecc) (op : Op) (ops : List Op) :
    run ecc (op :: ops) = run (step ecc op) ops := rfl

lemma run_append (ecc : Ecc) (ops ops' : List Op) :
    run ecc (ops ++ ops') = run (run ecc ops) ops' := List.foldl_append

/-- The positions flipped an odd number of times at `a`. -/
def flipped (a : Fin 1024) (ops : List Op) : Finset ℕ :=
  {q ∈ range 13 | Odd (ops.count (.flip a q))}

lemma flipped_append (a : Fin 1024) (ops ops' : List Op) :
    flipped a (ops ++ ops') = flipped a ops ∆ flipped a ops' := by
  ext q
  simp only [flipped, mem_symmDiff, mem_filter, List.count_append, Nat.odd_add,
    ← Nat.not_odd_iff_even]
  tauto

lemma flipped_of_ne {a : Fin 1024} {op : Op} (h : ∀ q, op ≠ .flip a q) : flipped a [op] = ∅ := by
  ext q
  simp [flipped, List.count_singleton, h q]

lemma flipped_flip (a : Fin 1024) (q : ℕ) :
    flipped a [.flip a q] = if q < 13 then {q} else ∅ := by
  ext p
  by_cases hp : q = p
  · subst hp
    by_cases hq : q < 13 <;> simp [flipped, hq]
  · have hp' : ¬ p = q := fun h => hp h.symm
    split_ifs <;> simp [flipped, List.count_singleton, hp, hp']

/-! ### What a call does to one address -/

/-- The bits of a code byte outside the encoded word: `ENCODED_BIT` and the unused ones. -/
def spare (c : Byte) : Byte := c &&& 0xE0

lemma spare_xor {m : Byte} (h : spare m = 0#8) (c : Byte) : spare (c ^^^ m) = spare c := by
  apply BitVec.eq_of_getLsbD_eq
  intro i _
  have hi := congrArg (BitVec.getLsbD · i) h
  simp only [spare, BitVec.getLsbD_and, BitVec.getLsbD_zero] at hi
  simp only [spare, BitVec.getLsbD_and, BitVec.getLsbD_xor, Bool.and_xor_distrib_right, hi,
    Bool.xor_false]

lemma spare_or {m : Byte} (h : spare m = 0#8) (c : Byte) : spare (c ||| m) = spare c := by
  apply BitVec.eq_of_getLsbD_eq
  intro i _
  have hi := congrArg (BitVec.getLsbD · i) h
  simp only [spare, BitVec.getLsbD_and, BitVec.getLsbD_zero] at hi
  simp only [spare, BitVec.getLsbD_and, BitVec.getLsbD_or, Bool.and_or_distrib_right, hi,
    Bool.or_false]

lemma printEncoded_of_word {d d' c c' : Byte} (hw : word d c = word d' c') {q : ℕ} (hq : q < 13) :
    (printEncoded d c).getD q false = (printEncoded d' c').getD q false := by
  have := Finset.ext_iff.mp hw q
  rw [mem_word, mem_word] at this
  simpa [hq] using this

lemma data_of_word {d d' c c' : Byte} (hw : word d c = word d' c') : d = d' := by
  have hbit : ∀ q < 13, _ := fun q hq => printEncoded_of_word hw hq
  refine BitVec.eq_of_getLsbD_eq fun i hi => ?_
  interval_cases i
  exacts [hbit 3 (by omega), hbit 5 (by omega), hbit 6 (by omega), hbit 7 (by omega),
    hbit 9 (by omega), hbit 10 (by omega), hbit 11 (by omega), hbit 12 (by omega)]

/-- The encoded word and the spare bits are all there is. -/
lemma code_of_word {d d' c c' : Byte} (hw : word d c = word d' c') (hs : spare c = spare c') :
    c = c' := by
  have hbit : ∀ q < 13, _ := fun q hq => printEncoded_of_word hw hq
  have htop : ∀ i, (c.getLsbD i && (0xE0 : Byte).getLsbD i) =
      (c'.getLsbD i && (0xE0 : Byte).getLsbD i) := by
    intro i
    simpa only [spare, BitVec.getLsbD_and] using congrArg (BitVec.getLsbD · i) hs
  refine BitVec.eq_of_getLsbD_eq fun i hi => ?_
  interval_cases i
  exacts [hbit 1 (by omega), hbit 2 (by omega), hbit 4 (by omega), hbit 8 (by omega),
    hbit 0 (by omega), by simpa using htop 5, by simpa using htop 6, by simpa using htop 7]

lemma pw_mem (d c : Byte) : c &&& pwBit = 0 ↔ 0 ∉ word d c := by
  have hbit : ∀ c : Byte, c &&& pwBit = 0 ↔ c.getLsbD 4 = false := by decide +kernel
  rw [hbit, mem_word]
  simp [printEncoded]

section Call

variable (ecc : Ecc) (a : Fin 1024)

lemma writeByte_same (v : Byte) : (writeByte ecc a v).2.dataMemory a = v ∧
    (writeByte ecc a v).2.codeMemory a = codewordOf v := by
  simp [writeByte, getCodeword]

lemma stored_flipData (k : ℕ) :
    stored (flipData ecc a k) a = stored ecc a ∆ word ((1 : Byte) <<< k) 0 := by
  unfold stored flipData
  rw [← word_xor]
  simp

lemma stored_flipCode (k : ℕ) :
    stored (flipCode ecc a k) a = stored ecc a ∆ word 0 ((1 : Byte) <<< k) := by
  unfold stored flipCode
  rw [← word_xor]
  simp

lemma flipBit_same (q : ℕ) :
    stored (flipBit ecc a q) a = stored ecc a ∆ flipped a [.flip a q] := by
  rw [flipped_flip]
  rcases Nat.lt_or_ge q 13 with hq | hq
  · rw [if_pos hq]
    interval_cases q <;> simp only [flipBit, stored_flipCode, stored_flipData] <;> congr 1
  · rw [if_neg (by omega)]
    have hout : flipBit ecc a q = ecc := by
      unfold flipBit
      split <;> first | omega | rfl
    rw [hout]
    exact (symmDiff_bot _).symm

lemma flipBit_spare (q : ℕ) :
    spare ((flipBit ecc a q).codeMemory a) = spare (ecc.codeMemory a) := by
  have hlow : ∀ k < 5, spare ((1 : Byte) <<< k) = 0 := by decide
  unfold flipBit flipCode flipData
  split <;> simp only [Function.update_self] <;> exact spare_xor (hlow _ (by omega)) _

lemma readByte_quiet (h : verdict (stored ecc a) ≠ .parity) (b : Byte) :
    (readByte ecc a b).2.2 = ecc := by
  rw [readByte_eq, if_neg h]

/-- A read that finds the parity wrong sets the bit `pW`. -/
lemma readByte_parity (h : verdict (stored ecc a) = .parity) (b : Byte) :
    (readByte ecc a b).2.2.dataMemory a = ecc.dataMemory a ∧
      (readByte ecc a b).2.2.codeMemory a = ecc.codeMemory a ||| pwBit := by
  rw [readByte_eq, if_pos h]
  simp

lemma stored_parity (h : verdict (stored ecc a) = .parity) (b : Byte) :
    stored (readByte ecc a b).2.2 a = insert 0 (stored ecc a) := by
  obtain ⟨hd, hc⟩ := readByte_parity ecc a h b
  unfold stored
  rw [hd, hc, word_pw]

lemma readByte_pwError (b : Byte) :
    (readByte ecc a b).1 = pwError ↔ verdict (stored ecc a) = .parity := by
  rw [readByte_code]
  cases verdict (stored ecc a) <;> simp [code, noError, pwError, doubleBitError]

lemma step_other {op : Op} (h : op.addr ≠ a) :
    (step ecc op).dataMemory a = ecc.dataMemory a ∧
      (step ecc op).codeMemory a = ecc.codeMemory a := by
  have ha := h.symm
  cases op with
  | write x v => simp_all [step, writeByte, Op.addr]
  | read x b =>
    simp only [step, readByte_eq]
    split_ifs <;> simp_all [Op.addr]
  | flip x q =>
    simp only [step, flipBit]
    split <;> simp_all [flipCode, flipData, Op.addr]

/-- One call that is no write to `a`, and no read of `a` that finds the parity wrong. -/
lemma stored_step {op : Op} (hw : ∀ v, op ≠ .write a v)
    (hr : ∀ b, op = .read a b → (readByte ecc a b).1 ≠ pwError) :
    stored (step ecc op) a = stored ecc a ∆ flipped a [op] := by
  have hsame : (∀ q, op ≠ .flip a q) → stored (step ecc op) a = stored ecc a →
      stored (step ecc op) a = stored ecc a ∆ flipped a [op] := by
    intro hne h
    rw [h, flipped_of_ne hne]
    exact (symmDiff_bot _).symm
  by_cases ha : op.addr = a
  · cases op with
    | write x v => exact absurd (ha ▸ rfl) (hw v)
    | read x b =>
      obtain rfl : x = a := ha
      have hp : verdict (stored ecc x) ≠ .parity := by
        rw [Ne, ← readByte_pwError ecc x b]
        exact hr b rfl
      exact hsame (by simp) (congrArg (stored · x) (readByte_quiet ecc x hp b))
    | flip x q =>
      obtain rfl : x = a := ha
      exact flipBit_same ecc x q
  · obtain ⟨hd, hc⟩ := step_other ecc a ha
    refine hsame (fun q h => ha (h ▸ rfl)) ?_
    unfold stored
    rw [hd, hc]

lemma spare_step {op : Op} (hw : ∀ v, op ≠ .write a v) :
    spare ((step ecc op).codeMemory a) = spare (ecc.codeMemory a) := by
  by_cases ha : op.addr = a
  · cases op with
    | write x v => exact absurd (ha ▸ rfl) (hw v)
    | read x b =>
      obtain rfl : x = a := ha
      by_cases hp : verdict (stored ecc x) = .parity
      · have hpw : spare pwBit = 0 := by decide
        calc spare ((step ecc (.read x b)).codeMemory x)
            = spare (ecc.codeMemory x ||| pwBit) := congrArg spare (readByte_parity ecc x hp b).2
          _ = spare (ecc.codeMemory x) := spare_or hpw _
      · exact congrArg (fun e : Ecc => spare (e.codeMemory x)) (readByte_quiet ecc x hp b)
    | flip x q =>
      obtain rfl : x = a := ha
      exact flipBit_spare ecc x q
  · rw [(step_other ecc a ha).2]

end Call

/-! ### Runs -/

section Run

variable {a : Fin 1024}

/-- **Stored words over a run** without a write to `a` and without a repair of `a`. -/
theorem stored_run {ops : List Op} (ecc : Ecc) (hw : ∀ v, .write a v ∉ ops)
    (hr : ∀ l l' b, ops = l ++ .read a b :: l' → (readByte (run ecc l) a b).1 ≠ pwError) :
    stored (run ecc ops) a = stored ecc a ∆ flipped a ops := by
  induction ops generalizing ecc with
  | nil => exact (symmDiff_bot _).symm
  | cons op ops ih =>
    have hop : stored (step ecc op) a = stored ecc a ∆ flipped a [op] := by
      apply stored_step
      · rintro v rfl
        exact hw v (by simp)
      · rintro b rfl
        exact hr [] ops b rfl
    have hops := ih (step ecc op) (fun v hv => hw v (by simp [hv])) fun l l' b h =>
      hr (op :: l) l' b (by rw [h]; rfl)
    rw [run_cons, hops, hop, symmDiff_assoc, ← flipped_append, List.singleton_append]

lemma spare_run {ops : List Op} (ecc : Ecc) (hw : ∀ v, .write a v ∉ ops) :
    spare ((run ecc ops).codeMemory a) = spare (ecc.codeMemory a) := by
  induction ops generalizing ecc with
  | nil => rfl
  | cons op ops ih =>
    rw [run_cons, ih _ fun v hv => hw v (by simp [hv]), spare_step]
    rintro v rfl
    exact hw v (by simp)

/-- The bit `pW` of a code word is the one `read_byte` computes. -/
lemma pw_codeword : ∀ v : Byte, pwBit &&& ((dataParity v ^^^ checkParity (codewordOf v)) <<< 4) =
    codewordOf v &&& pwBit := by
  decide +kernel

/-- `write_byte` stores a valid word. -/
lemma valid_codeword (v : Byte) : Valid (word v (codewordOf v)) := by
  refine ⟨?_, ?_⟩
  · rw [syndrome_word, BitVec.xor_self]
    rfl
  · by_contra hodd
    have hpw := pw2_word v (codewordOf v)
    rw [if_neg hodd, pw_codeword] at hpw
    exact pw_ne _ hpw

lemma run_write (ecc : Ecc) (pre : List Op) (v : Byte) :
    (run ecc (pre ++ [.write a v])).dataMemory a = v ∧
      (run ecc (pre ++ [.write a v])).codeMemory a = codewordOf v := by
  rw [run_append]
  exact writeByte_same _ a v

lemma valid_write (ecc : Ecc) (pre : List Op) (v : Byte) :
    Valid (stored (run ecc (pre ++ [.write a v])) a) := by
  obtain ⟨hd, hc⟩ := run_write (a := a) ecc pre v
  unfold stored
  rw [hd, hc]
  exact valid_codeword v

end Run

/-- **SEC-DED over any run.** After the last write to `a`, and while no read of `a` has found
the parity wrong, `read_byte` classifies the positions flipped an odd number of times at `a`. -/
theorem secded_classification (ecc : Ecc) (pre post : List Op) (a : Fin 1024) (v b : Byte)
    (hw : ∀ w, .write a w ∉ post)
    (hr : ∀ l l' b', post = l ++ .read a b' :: l' →
      (readByte (run ecc (pre ++ .write a v :: l)) a b').1 ≠ pwError) :
    (flipped a post = ∅ →
      (readByte (run ecc (pre ++ .write a v :: post)) a b).1 = noError) ∧
    (flipped a post = {0} →
      (readByte (run ecc (pre ++ .write a v :: post)) a b).1 = pwError) ∧
    (∀ q, 1 ≤ q → q ≤ 12 → flipped a post = {q} →
      (readByte (run ecc (pre ++ .write a v :: post)) a b).1 = q) ∧
    (#(flipped a post) = 2 →
      (readByte (run ecc (pre ++ .write a v :: post)) a b).1 = doubleBitError) := by
  have hsplit : ∀ l, run ecc (pre ++ .write a v :: l) = run (run ecc (pre ++ [.write a v])) l := by
    intro l
    rw [← run_append, List.append_assoc, List.singleton_append]
  have hstored : stored (run ecc (pre ++ .write a v :: post)) a =
      stored (run ecc (pre ++ [.write a v])) a ∆ flipped a post := by
    rw [hsplit]
    exact stored_run _ hw fun l l' b' h => hsplit l ▸ hr l l' b' h
  have hread : (readByte (run ecc (pre ++ .write a v :: post)) a b).1 =
      code (verdict (flipped a post)) := by
    rw [readByte_code, hstored, verdict_symmDiff (valid_write ecc pre v)]
  rw [hread]
  refine ⟨fun h => ?_, fun h => ?_, fun q hq _ h => ?_, fun h => ?_⟩
  · rw [h, verdict_empty, code]
  · rw [h, verdict_zero, code]
  · rw [h, verdict_singleton (by omega), code]
  · rw [verdict_pair h, code]

/-- A data bit flipped, between faults at another address. -/
theorem secded_classification_d2 :
    (readByte (run ⟨fun _ => 0, fun _ => 0⟩
      [.write 7 0xAB, .flip 8 0, .flip 7 5, .flip 8 3]) 7 0).1 = 5 := by
  refine (secded_classification ⟨fun _ => 0, fun _ => 0⟩ [] [.flip 8 0, .flip 7 5, .flip 8 3]
    7 0xAB 0 (by simp) fun l l' b h => ?_).2.2.1 5 (by omega) (by omega) (by decide)
  have : Op.read 7 b ∈ [Op.flip 8 0, .flip 7 5, .flip 8 3] := h ▸ by simp
  simp at this

/-- **Repair of the overall parity.** Whenever the bit `pW` is the one outstanding fault of
`a`, `read_byte` reports it; it restores the code word that `write_byte` stored, and the next
read finds no error, just when the fault has cleared the bit. -/
theorem pw_repair_iff (ecc : Ecc) (pre post : List Op) (a : Fin 1024) (v b b' : Byte)
    (hw : ∀ w, .write a w ∉ post) (s₀ s : Ecc) (hs₀ : s₀ = run ecc (pre ++ [.write a v]))
    (hs : s = run s₀ post) (hfault : stored s₀ a ∆ stored s a = {0}) :
    (readByte s a b).1 = pwError ∧
    ((readByte s a b).2.2.codeMemory a = s₀.codeMemory a ↔ s.codeMemory a &&& pwBit = 0) ∧
    ((readByte (readByte s a b).2.2 a b').1 = noError ↔ s.codeMemory a &&& pwBit = 0) := by
  have hvalid : Valid (stored s₀ a) := hs₀ ▸ valid_write ecc pre v
  have hst : stored s a = stored s₀ a ∆ {0} := by
    rw [← hfault, symmDiff_symmDiff_cancel_left]
  have hpar : verdict (stored s a) = .parity := by
    rw [hst, verdict_symmDiff hvalid, verdict_zero]
  have hafter := stored_parity s a hpar b
  refine ⟨(readByte_pwError s a b).mpr hpar, ?_⟩
  by_cases h0 : 0 ∈ stored s a
  · -- the fault has set the bit: nothing changes, and it is found again
    have hset : ¬ s.codeMemory a &&& pwBit = 0 := fun h => (pw_mem _ _).mp h h0
    have hclear : 0 ∉ stored s₀ a := by
      rw [hst, mem_symmDiff] at h0
      simpa using h0
    refine ⟨iff_of_false (fun h => ?_) hset, iff_of_false ?_ hset⟩
    · have hmem : 0 ∈ stored (readByte s a b).2.2 a := hafter ▸ mem_insert_self 0 _
      unfold stored at hmem
      rw [h] at hmem
      exact (pw_mem _ _).mp ((pw_mem _ _).mpr hclear) hmem
    · rw [insert_eq_of_mem h0] at hafter
      rw [(readByte_pwError _ a b').mpr (hafter ▸ hpar)]
      decide
  · -- the fault has cleared the bit: setting it gives the word written
    have hclear : s.codeMemory a &&& pwBit = 0 := (pw_mem _ _).mpr h0
    have hback : stored (readByte s a b).2.2 a = stored s₀ a := by
      have hdisj : Disjoint (stored s a) {0} := by simpa using h0
      rw [hafter, insert_eq, union_comm, ← sup_eq_union, ← hdisj.symmDiff_eq_sup, hst,
        symmDiff_symmDiff_cancel_right]
    refine ⟨iff_of_true ?_ hclear, iff_of_true ?_ hclear⟩
    · refine code_of_word hback ?_
      have hpw : spare pwBit = 0 := by decide
      rw [(readByte_parity s a hpar b).2, spare_or hpw, hs, spare_run s₀ hw]
    · rw [readByte_code, hback, verdict_valid hvalid, code]

/-- The repair of a cleared `pW`. -/
theorem pw_repair_iff_one :
    let s₀ := run ⟨fun _ => 0, fun _ => 0⟩ [.write 0 0x01]
    let s := run s₀ [.flip 0 0]
    (readByte s 0 0).1 = pwError ∧ (readByte s 0 0).2.2.codeMemory 0 = s₀.codeMemory 0 := by
  have h := pw_repair_iff ⟨fun _ => 0, fun _ => 0⟩ [] [.flip 0 0] 0 0x01 0 0 (by simp) _ _ rfl rfl
    (by decide)
  exact ⟨h.1, h.2.1.mpr (by decide)⟩

/-- A zero byte has `pW` clear; a fault that sets it is reported by every read and never
repaired. -/
theorem pw_repair_zero :
    let s₀ := run ⟨fun _ => 0, fun _ => 0⟩ [.write 0 0x00]
    let s := run s₀ [.flip 0 0]
    stored s₀ 0 ∆ stored s 0 = {0} ∧ (readByte s 0 0).1 = pwError ∧
      (readByte s 0 0).2.2.codeMemory 0 ≠ s₀.codeMemory 0 ∧
      (readByte (readByte s 0 0).2.2 0 0).1 = pwError := by
  decide

/-! ### At most one bit flipped -/

/-- The data byte with the position that `read_byte` reports flipped back. -/
def corrected (ecc : Ecc) (a : Fin 1024) (rc : ℤ) : Byte :=
  if 0 < rc then (flipBit ecc a rc.toNat).dataMemory a else ecc.dataMemory a

lemma stored_step_one {ecc : Ecc} {a : Fin 1024} {W : Finset ℕ} {q : ℕ} {op : Op} (hW : Valid W)
    (hs : stored ecc a = W ∨ stored ecc a = W ∆ {q}) (hw : ∀ v, op ≠ .write a v)
    (hq : flipped a [op] ⊆ {q}) :
    stored (step ecc op) a = W ∨ stored (step ecc op) a = W ∆ {q} := by
  by_cases hr : ∃ b, op = .read a b ∧ (readByte ecc a b).1 = pwError
  · -- only a fault in `pW` is taken for one, and setting the bit leaves it or removes it
    obtain ⟨b, rfl, hpw⟩ := hr
    rw [readByte_pwError] at hpw
    have hq0 : q = 0 ∧ stored ecc a = W ∆ {q} := by
      rcases hs with hs | hs
      · rw [hs, verdict_valid hW] at hpw
        exact absurd hpw (by decide)
      · rw [hs, verdict_symmDiff hW] at hpw
        refine ⟨?_, hs⟩
        by_contra hq0
        rw [verdict_singleton hq0] at hpw
        exact absurd hpw (by simp)
    obtain ⟨rfl, hs⟩ := hq0
    have hstep : stored (step ecc (.read a b)) a = insert 0 (W ∆ {0}) :=
      hs ▸ stored_parity ecc a hpw b
    rw [hstep]
    by_cases h0 : 0 ∈ W
    · left
      ext x
      by_cases hx : x = 0 <;> simp [mem_symmDiff, hx, h0]
    · right
      exact insert_eq_of_mem (by simp [mem_symmDiff, h0])
  · have hstep := stored_step ecc a hw fun b hb hpw => hr ⟨b, hb, hpw⟩
    rcases subset_singleton_iff.mp hq with he | he <;> rw [he] at hstep
    · have hid : stored ecc a ∆ ∅ = stored ecc a := symmDiff_bot _
      rw [hstep, hid]
      exact hs
    · rcases hs with hs | hs
      · exact Or.inr (by rw [hstep, hs])
      · exact Or.inl (by rw [hstep, hs, symmDiff_symmDiff_cancel_right])

lemma stored_run_one {ops : List Op} {a : Fin 1024} {W : Finset ℕ} {q : ℕ} (hW : Valid W)
    (ecc : Ecc) (hs : stored ecc a = W ∨ stored ecc a = W ∆ {q}) (hw : ∀ v, .write a v ∉ ops)
    (hq : ∀ op ∈ ops, flipped a [op] ⊆ {q}) :
    stored (run ecc ops) a = W ∨ stored (run ecc ops) a = W ∆ {q} := by
  induction ops generalizing ecc with
  | nil => exact hs
  | cons op ops ih =>
    refine ih (step ecc op) ?_ (fun v hv => hw v (by simp [hv])) fun op' h' => hq op' (by simp [h'])
    refine stored_step_one hW hs ?_ (hq op (by simp))
    rintro v rfl
    exact hw v (by simp)

lemma exists_flipped {a : Fin 1024} {ops : List Op}
    (h : #{q ∈ range 13 | .flip a q ∈ ops} ≤ 1) :
    ∃ q < 13, ∀ op ∈ ops, flipped a [op] ⊆ {q} := by
  have hsub : ∀ op ∈ ops, flipped a [op] ⊆ ({q ∈ range 13 | .flip a q ∈ ops} : Finset ℕ) := by
    intro op hop x hx
    rw [flipped, mem_filter, List.count_singleton] at hx
    obtain ⟨hx13, hodd⟩ := hx
    refine mem_filter.mpr ⟨hx13, ?_⟩
    split_ifs at hodd with heq
    · exact beq_iff_eq.mp heq ▸ hop
    · exact absurd hodd (by decide)
  obtain ⟨q, hq⟩ := card_le_one_iff_subset_singleton.mp h
  rcases subset_singleton_iff.mp hq with he | he
  · exact ⟨0, by omega, fun op hop => (hsub op hop).trans (by rw [he]; exact empty_subset _)⟩
  · refine ⟨q, ?_, fun op hop => (hsub op hop).trans hq⟩
    have hmem : q ∈ ({q ∈ range 13 | .flip a q ∈ ops} : Finset ℕ) := by rw [he]; simp
    exact mem_range.mp (mem_filter.mp hmem).1

/-- **What `read_byte` delivers.** When at most one encoded bit of `a` has been flipped since
the last write, the byte written can be had from the stored data and the position reported;
but the caller's buffer holds it just when it held it before the call. -/
theorem delivers_iff (ecc : Ecc) (pre post : List Op) (a : Fin 1024) (v b : Byte)
    (hw : ∀ w, .write a w ∉ post) (hone : #{q ∈ range 13 | .flip a q ∈ post} ≤ 1) (s : Ecc)
    (hs : s = run ecc (pre ++ .write a v :: post)) :
    corrected s a (readByte s a b).1 = v ∧ ((readByte s a b).2.1 = v ↔ b = v) := by
  refine ⟨?_, by rw [readByte_eq]⟩
  rw [← List.singleton_append, ← List.append_assoc, run_append] at hs
  have hW := valid_write (a := a) ecc pre v
  have hv := (run_write (a := a) ecc pre v).1
  obtain ⟨q, hq13, hq⟩ := exists_flipped hone
  have hstored := stored_run_one hW _ (Or.inl rfl) hw hq
  rw [← hs] at hstored
  unfold corrected
  rcases hstored with h | h
  · rw [readByte_code, h, verdict_valid hW, if_neg (by decide), ← hv]
    exact data_of_word h
  · have hback : stored (flipBit s a q) a = stored (run ecc (pre ++ [.write a v])) a := by
      rw [flipBit_same, flipped_flip, if_pos hq13, h, symmDiff_symmDiff_cancel_right]
    have hdata : (flipBit s a q).dataMemory a = v := (data_of_word hback).trans hv
    rw [readByte_code, h, verdict_symmDiff hW]
    by_cases hq0 : q = 0
    · subst hq0
      rw [verdict_zero, if_neg (by decide)]
      exact hdata
    · rw [verdict_singleton hq0, code, if_pos (by omega), Int.toNat_natCast]
      exact hdata

/-- One fault in the data; the buffer held the byte all along. -/
theorem delivers_iff_d5 :
    let s := run ⟨fun _ => 0, fun _ => 0⟩ [.write 3 0x5A, .read 4 0, .flip 3 9]
    corrected s 3 (readByte s 3 0x5A).1 = 0x5A ∧ (readByte s 3 0x5A).2.1 = 0x5A := by
  have h := delivers_iff ⟨fun _ => 0, fun _ => 0⟩ [] [.read 4 0, .flip 3 9] 3 0x5A 0x5A (by simp)
    (by decide) _ rfl
  exact ⟨h.1, h.2.mpr rfl⟩

/-- No fault at all, and the byte written is not delivered. -/
theorem delivers_iff_clean :
    (readByte (run ⟨fun _ => 0, fun _ => 0⟩ [.write 0 0xAB]) 0 0).1 = noError ∧
      (readByte (run ⟨fun _ => 0, fun _ => 0⟩ [.write 0 0xAB]) 0 0).2.1 ≠ 0xAB := by
  decide

/-! ### Any number of faults -/

/-- The results that mean something: no error, one of the named errors, or the position of an
encoded bit. -/
def Reports (rc : ℤ) : Prop :=
  rc = noError ∨ rc = pwError ∨ rc = doubleBitError ∨ rc = unknownError ∨ 1 ≤ rc ∧ rc ≤ 12

/-- What `read_byte` returns, from the ones of the stored word. -/
lemma readByte_cases (ecc : Ecc) (a : Fin 1024) (b : Byte) :
    (readByte ecc a b).1 =
      if syndrome (stored ecc a) = 0 then if Even #(stored ecc a) then noError else pwError
      else if Even #(stored ecc a) then doubleBitError else syndrome (stored ecc a) := by
  rw [readByte_code]
  unfold verdict
  split_ifs <;> rfl

/-- **Reported positions.** Whatever the two memories hold, the result means something exactly
when the positions that hold a one add up to an encoded position, or are even in number; and
an error that points past the encoded bits is never told apart as unknown. -/
theorem position_reported_iff (ecc : Ecc) (a : Fin 1024) (b : Byte) :
    (Reports (readByte ecc a b).1 ∧
        (12 < syndrome (stored ecc a) → (readByte ecc a b).1 = unknownError) ↔
      syndrome (stored ecc a) ≤ 12) ∧
    (Reports (readByte ecc a b).1 ↔ syndrome (stored ecc a) ≤ 12 ∨ Even #(stored ecc a)) := by
  rw [readByte_cases]
  unfold Reports noError pwError doubleBitError unknownError
  by_cases h0 : syndrome (stored ecc a) = 0
  · by_cases he : Even #(stored ecc a)
    · simp [h0, he]
    · simp [h0, he]
  · by_cases he : Even #(stored ecc a)
    · simp [h0, he]
    · simp only [h0, he, if_false, or_false]
      omega

/-- Three faults, in p1, p3 and p4, are reported as one at position 13. -/
theorem position_thirteen :
    let s := run ⟨fun _ => 0, fun _ => 0⟩ [.write 0 0, .flip 0 1, .flip 0 4, .flip 0 8]
    (readByte s 0 0).1 = 13 ∧ ¬ Reports (readByte s 0 0).1 := by
  intro s
  have h13 : (readByte s 0 0).1 = 13 := by decide
  refine ⟨h13, ?_⟩
  rw [h13]
  unfold Reports noError pwError doubleBitError unknownError
  omega

end Rtes.EccRun
