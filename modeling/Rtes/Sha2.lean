import Rtes.Roots
import Rtes.Rotate
import Rtes.Sha2Model
import Rtes.Words

/-!
What both builds of `sha2.c` do with a block: it is compressed as the standard says.

The standard takes its constants from the roots of the first primes. The tables of the program
are compared with that, so that nothing of them is left in what the program is compared with.
-/

namespace Rtes.Sha2

open Rtes.Absorb Rtes.Bytes Rtes.Roots Rtes.Rotate Rtes.Sha2Model Rtes.Words

variable {w : ℕ}

/-! ### The standard -/

/-- The functions of the standard for words of `w` bits, the number of rounds, and the number of
bytes of a message length. -/
structure Standard (w : ℕ) where
  bigSigma0 : BitVec w → BitVec w
  bigSigma1 : BitVec w → BitVec w
  smallSigma0 : BitVec w → BitVec w
  smallSigma1 : BitVec w → BitVec w
  rounds : ℕ
  lengthBytes : ℕ

def standard256 : Standard 32 where
  bigSigma0 x := x.rotateRight 2 ^^^ x.rotateRight 13 ^^^ x.rotateRight 22
  bigSigma1 x := x.rotateRight 6 ^^^ x.rotateRight 11 ^^^ x.rotateRight 25
  smallSigma0 x := x.rotateRight 7 ^^^ x.rotateRight 18 ^^^ x >>> 3
  smallSigma1 x := x.rotateRight 17 ^^^ x.rotateRight 19 ^^^ x >>> 10
  rounds := 64
  lengthBytes := 8

def standard512 : Standard 64 where
  bigSigma0 x := x.rotateRight 28 ^^^ x.rotateRight 34 ^^^ x.rotateRight 39
  bigSigma1 x := x.rotateRight 14 ^^^ x.rotateRight 18 ^^^ x.rotateRight 41
  smallSigma0 x := x.rotateRight 1 ^^^ x.rotateRight 8 ^^^ x >>> 7
  smallSigma1 x := x.rotateRight 19 ^^^ x.rotateRight 61 ^^^ x >>> 6
  rounds := 80
  lengthBytes := 16

/-- The constant of round `t`: the first bits behind the point of the cube root of a prime. -/
noncomputable def cubeRoot (w t : ℕ) : BitVec w :=
  BitVec.ofNat w (rootBits 3 w (Nat.nth Nat.Prime t))

/-- Eight initial values from the square roots of the primes from number `i` on: the last `w` of
the first `b` bits behind the point. -/
noncomputable def squareRoots (w b i : ℕ) : Regs w :=
  Vector.ofFn fun j => BitVec.ofNat w (rootBits 2 b (Nat.nth Nat.Prime (i + j)))

namespace Standard

variable (s : Standard w)

/-- The message schedule of a block. -/
def words (b : List Byte) (t : ℕ) : BitVec w :=
  if t < 16 then word w ((b.drop (w / 8 * t)).take (w / 8)).reverse
  else s.smallSigma1 (words b (t - 2)) + words b (t - 7) + s.smallSigma0 (words b (t - 15)) +
    words b (t - 16)

noncomputable def round (b : List Byte) (v : Regs w) (t : ℕ) : Regs w :=
  let v := v.view
  let t1 := v 7 + s.bigSigma1 (v 4) + ((v 4 &&& v 5) ^^^ (~~~v 4 &&& v 6)) + cubeRoot w t +
    s.words b t
  let t2 := s.bigSigma0 (v 0) + ((v 0 &&& v 1) ^^^ (v 0 &&& v 2) ^^^ (v 1 &&& v 2))
  #v[t1 + t2, v 0, v 1, v 2, v 3 + t1, v 4, v 5, v 6]

noncomputable def compress (h : Regs w) (b : List Byte) : Regs w :=
  Vector.zipWith (· + ·) h ((List.range s.rounds).foldl (s.round b) h)

/-- A length in bits. -/
def bitLength (l : ℕ) : List Byte := (toBytes s.lengthBytes (8 * l)).reverse

/-- The first words of a hash value. -/
def output (words : ℕ) (h : Regs w) : List Byte :=
  (h.toList.take words).flatMap fun x => (toBytes (w / 8) x.toNat).reverse

/-- The digest of a message, to which a length is added that need not be its own. -/
noncomputable def digestAt (h0 : Regs w) (words l : ℕ) (m : List Byte) : List Byte :=
  output words (absorb s.compress (w / 8 * 16) h0 (pad (w / 8 * 16) (fun _ => s.bitLength l) m))

/-- The digest of a message. -/
noncomputable def digest (h0 : Regs w) (words : ℕ) (m : List Byte) : List Byte :=
  s.digestAt h0 words m.length m

end Standard

/-! ### The macros and tables -/

/-- The macros and tables of the program are those of the standard. -/
structure Agrees (p : Params w) (s : Standard w) : Prop where
  width : w = 8 * (w / 8)
  f1 : ∀ x, p.f1 x = s.bigSigma0 x
  f2 : ∀ x, p.f2 x = s.bigSigma1 x
  f3 : ∀ x, p.f3 x = s.smallSigma0 x
  f4 : ∀ x, p.f4 x = s.smallSigma1 x
  rounds : p.k.length = s.rounds
  rounds_ge : 16 ≤ s.rounds
  rounds_dvd : 8 ∣ s.rounds
  k : ∀ t < s.rounds, p.k.getD t 0 = cubeRoot w t
  pack : ∀ str : List Byte, w / 8 ≤ str.length → p.pack str = word w (str.take (w / 8)).reverse
  unpack : ∀ x, p.unpack x = (toBytes (w / 8) x.toNat).reverse
  size : p.blockSize = w / 8 * 16
  size_le : p.blockSize ≤ 128
  tail : p.tail = s.lengthBytes + 1
  tail_le : p.tail ≤ p.blockSize
  length_ge : 4 ≤ s.lengthBytes

lemma rotr_eq (x : BitVec w) {n : ℕ} (hn : n < w) : rotr x n = x.rotateRight n := by
  rw [rotr, BitVec.rotateRight_def, Nat.mod_eq_of_lt hn]

/-- A table with the cube roots of the first primes. -/
lemma getD_eq_cubeRoot {l : List (BitVec w)} {t : ℕ} (ht : t < 80)
    (h : Leads 3 w (primes.getD t 0) (l.getD t 0).toNat) : l.getD t 0 = cubeRoot w t := by
  have hlen : t < primes.length := ht
  rw [cubeRoot, nth_prime hlen, ← List.getD_eq_getElem _ 0 hlen,
    rootBits_eq (by norm_num) (l.getD t 0).isLt h, BitVec.ofNat_toNat, BitVec.setWidth_eq]

lemma leads_sha256K : ∀ t < 64, Leads 3 32 (primes.getD t 0) (sha256K.getD t 0).toNat := by
  decide +kernel

lemma leads_sha512K : ∀ t < 80, Leads 3 64 (primes.getD t 0) (sha512K.getD t 0).toNat := by
  decide +kernel

/-- A table with the square roots of eight of the first primes. -/
lemma eq_squareRoots {h : Regs w} {i : ℕ} (hi : i ≤ 8)
    (hlead : ∀ j : Fin 8, Leads 2 w (primes.getD (i + j) 0) h[j].toNat) :
    h = squareRoots w w i := by
  apply Vector.ext
  intro j hj
  have hlen : i + j < primes.length := by
    have : primes.length = 80 := rfl
    omega
  have hbits := rootBits_eq (by norm_num) h[j].isLt (hlead ⟨j, hj⟩)
  rw [squareRoots, Vector.getElem_ofFn, nth_prime hlen, ← List.getD_eq_getElem _ 0 hlen, hbits,
    BitVec.ofNat_toNat, BitVec.setWidth_eq]

lemma sha256H0_eq : sha256H0 = squareRoots 32 32 0 :=
  eq_squareRoots (by norm_num) (by decide +kernel)

lemma sha512H0_eq : sha512H0 = squareRoots 64 64 0 :=
  eq_squareRoots (by norm_num) (by decide +kernel)

lemma sha384H0_eq : sha384H0 = squareRoots 64 64 8 :=
  eq_squareRoots (by norm_num) (by decide +kernel)

/-- The values for 224 bits are the second halves of those for 384 bits. -/
lemma sha224H0_eq : sha224H0 = squareRoots 32 64 8 := by
  have hhalf : sha224H0 = sha384H0.map (BitVec.setWidth 32) := by decide +kernel
  rw [hhalf, sha384H0_eq]
  apply Vector.ext
  intro j hj
  simp only [squareRoots, Vector.getElem_map, Vector.getElem_ofFn]
  exact BitVec.setWidth_ofNat_of_le (by norm_num) _

lemma pack32_eq {str : List Byte} (h : 4 ≤ str.length) :
    pack32 str = word 32 (str.take 4).reverse := by
  rw [← List.drop_zero (l := str), take_drop_eq (by omega), List.drop_zero]
  simp only [pack32, List.range_succ, List.range_zero, List.nil_append, List.cons_append,
    List.map_cons, List.map_nil, List.reverse_cons, List.reverse_nil, Nat.zero_add, word_cons_or,
    word_nil, BitVec.shiftLeft_or_distrib, ← BitVec.shiftLeft_add, BitVec.ofNat_eq_ofNat,
    BitVec.zero_shiftLeft, BitVec.or_zero, Nat.reduceAdd, BitVec.or_assoc]

lemma pack64_eq {str : List Byte} (h : 8 ≤ str.length) :
    pack64 str = word 64 (str.take 8).reverse := by
  rw [← List.drop_zero (l := str), take_drop_eq (by omega), List.drop_zero]
  simp only [pack64, List.range_succ, List.range_zero, List.nil_append, List.cons_append,
    List.map_cons, List.map_nil, List.reverse_cons, List.reverse_nil, Nat.zero_add, word_cons_or,
    word_nil, BitVec.shiftLeft_or_distrib, ← BitVec.shiftLeft_add, BitVec.ofNat_eq_ofNat,
    BitVec.zero_shiftLeft, BitVec.or_zero, Nat.reduceAdd, BitVec.or_assoc]

lemma unpack32_eq (x : BitVec 32) : unpack32 x = (toBytes 4 x.toNat).reverse := by
  simp only [unpack32, toBytes_succ, toBytes_zero, ← BitVec.shiftRight_add, Nat.reduceAdd,
    List.reverse_cons, List.reverse_nil, List.nil_append, List.cons_append]

lemma unpack64_eq (x : BitVec 64) : unpack64 x = (toBytes 8 x.toNat).reverse := by
  simp only [unpack64, toBytes_succ, toBytes_zero, ← BitVec.shiftRight_add, Nat.reduceAdd,
    List.reverse_cons, List.reverse_nil, List.nil_append, List.cons_append]

/-- **The macros and the table for words of 32 bits.** -/
theorem agrees256 : Agrees params256 standard256 where
  width := rfl
  f1 x := by simp [params256, standard256, rotr_eq]
  f2 x := by simp [params256, standard256, rotr_eq]
  f3 x := by simp [params256, standard256, rotr_eq, shfr]
  f4 x := by simp [params256, standard256, rotr_eq, shfr]
  rounds := rfl
  rounds_ge := by norm_num [standard256]
  rounds_dvd := by norm_num [standard256]
  k t ht := getD_eq_cubeRoot (ht.trans (by norm_num [standard256])) (leads_sha256K t ht)
  pack _ h := pack32_eq h
  unpack := unpack32_eq
  size := rfl
  size_le := by decide
  tail := rfl
  tail_le := by decide
  length_ge := by decide

/-- **The macros and the table for words of 64 bits.** -/
theorem agrees512 : Agrees params512 standard512 where
  width := rfl
  f1 x := by simp [params512, standard512, rotr_eq]
  f2 x := by simp [params512, standard512, rotr_eq]
  f3 x := by simp [params512, standard512, rotr_eq, shfr]
  f4 x := by simp [params512, standard512, rotr_eq, shfr]
  rounds := rfl
  rounds_ge := by norm_num [standard512]
  rounds_dvd := by norm_num [standard512]
  k t ht := getD_eq_cubeRoot ht (leads_sha512K t ht)
  pack _ h := pack64_eq h
  unpack := unpack64_eq
  size := rfl
  size_le := by decide
  tail := rfl
  tail_le := by decide
  length_ge := by decide

/-! ### Unrolled loops -/

/-- The names from one call of the macro to the next. -/
def turn : Equiv.Perm (Fin 8) := Equiv.subRight 1

lemma turn_pow_eight : turn ^ 8 = 1 := by
  ext i
  revert i
  decide

lemma turn_pow {t : ℕ} (ht : 8 ∣ t) : turn ^ t = 1 := by
  obtain ⟨i, rfl⟩ := ht
  rw [pow_mul, turn_pow_eight, one_pow]

lemma view_injective {v v' : Regs w} (h : v.view = v'.view) : v = v' := by
  apply Vector.ext
  intro i hi
  exact congrFun h ⟨i, hi⟩

section Unrolled

variable (p : Params w) (ws : List (BitVec w))

/-- The macro on registers under their own names. -/
def step (j : ℕ) (u : Fin 8 → BitVec w) : Fin 8 → BitVec w :=
  let t1 := u 7 + p.f2 (u 4) + ch (u 4) (u 5) (u 6) + p.k.getD j 0 + ws.getD j 0
  let t2 := p.f1 (u 0) + maj (u 0) (u 1) (u 2)
  Function.update (Function.update u 3 (u 3 + t1)) 7 (t1 + t2)

/-- The macro under names that are turned by `e`. -/
def named (e : Equiv.Perm (Fin 8)) (j : ℕ) (wv : Regs w) : Regs w :=
  exp p ws (e 0) (e 1) (e 2) (e 3) (e 4) (e 5) (e 6) (e 7) j wv

lemma view_named (e : Equiv.Perm (Fin 8)) (j : ℕ) (wv : Regs w) :
    (named p ws e j wv).view = renamed e (step p ws j) wv.view := by
  have hview : ∀ i : Fin 8, wv[i] = wv.view i := fun _ => rfl
  simp only [named, exp, view_set, renamed, step, Function.update_comp_equiv, Function.comp_apply,
    Equiv.symm_symm, hview]
  rw [Function.comp_assoc, Equiv.self_comp_symm, Function.comp_id]

lemma step_turn (j : ℕ) (wv : Regs w) :
    step p ws j wv.view ∘ turn = (roundLoop p ws wv j).view := by
  rw [roundLoop_eq]
  funext i
  fin_cases i <;> rfl

lemma expEight_eq (wv : Regs w) {j : ℕ} (hj : 8 ∣ j) :
    expEight p ws wv j =
      (List.range' j 8).foldl (fun wv i => named p ws (turn ^ i) i wv) wv := by
  have hturn : ∀ i, turn ^ (j + i) = turn ^ i := fun i => by rw [pow_add, turn_pow hj, one_mul]
  simp only [List.range'_succ, List.range'_zero, List.foldl_cons, List.foldl_nil, add_assoc,
    hturn, turn_pow hj]
  rfl

/-- **Unrolling changes nothing.** -/
theorem foldl_expEight {n : ℕ} (hn : 8 ∣ n) (wv : Regs w) :
    (List.range (n / 8)).foldl (fun wv i => expEight p ws wv (8 * i)) wv =
      (List.range n).foldl (roundLoop p ws) wv := by
  have hgroups : (List.range (n / 8)).foldl (fun wv i => expEight p ws wv (8 * i)) wv =
      (List.range n).foldl (fun wv i => named p ws (turn ^ i) i wv) wv := by
    simp only [fun wv i => expEight_eq p ws wv (Nat.dvd_mul_right 8 i)]
    rw [foldl_groups, Nat.mul_div_cancel' hn]
  have hview : (List.range n).foldl (fun u i => renamed (turn ^ i) (step p ws i) u) wv.view =
      Regs.view ((List.range n).foldl (fun wv i => named p ws (turn ^ i) i wv) wv) :=
    List.foldl_hom Regs.view fun wv i => (view_named p ws (turn ^ i) i wv).symm
  apply view_injective
  rw [hgroups, ← hview, foldl_renamed_of_pow_eq_one (turn_pow hn)]
  exact List.foldl_hom Regs.view fun wv i => step_turn p ws i wv

end Unrolled

/-! ### One block -/

section Block

variable {p : Params w} {s : Standard w} (hp : Agrees p s)
include hp

/-- The array has the words of the schedule. -/
lemma schedule_eq {b : List Byte} (hb : b.length = p.blockSize) (n : ℕ) :
    (schedule p b n).length = 16 + n ∧
      ∀ j < 16 + n, (schedule p b n).getD j 0 = s.words b j := by
  induction n with
  | zero =>
    refine ⟨by simp [schedule], fun j hj => ?_⟩
    have hsize := hp.size
    have hlen : w / 8 * j + w / 8 ≤ b.length := by
      rw [hb, hsize]
      nlinarith
    rw [schedule, List.getD_eq_getElem _ _ (by simpa), List.getElem_map, List.getElem_range,
      hp.pack _ (by rw [List.length_drop]; omega), Standard.words, if_pos hj]
  | succ n ih =>
    obtain ⟨hlen, hget⟩ := ih
    refine ⟨by simp [schedule, hlen, Nat.add_assoc], fun j hj => ?_⟩
    rw [schedule]
    obtain hlt | rfl : j < 16 + n ∨ j = 16 + n := by omega
    · rw [List.getD_append _ _ _ _ (by omega), hget j hlt]
    · rw [List.getD_append_right _ _ _ _ (by omega), hlen, Nat.sub_self, Standard.words,
        if_neg (by omega), ← hget _ (by omega), ← hget _ (by omega), ← hget _ (by omega),
        ← hget _ (by omega), ← hp.f3, ← hp.f4]
      rfl

/-- **A block, in both builds.** -/
theorem transfBlock_eq (unroll : Bool) (h : Regs w) {b : List Byte}
    (hb : b.length = p.blockSize) : transfBlock p unroll h b = s.compress h b := by
  have hge := hp.rounds_ge
  obtain ⟨-, hget⟩ := schedule_eq hp hb (s.rounds - 16)
  have hloop : (List.range s.rounds).foldl (roundLoop p (schedule p b (s.rounds - 16))) h =
      (List.range s.rounds).foldl (s.round b) h := by
    refine List.foldl_ext _ _ _ fun v t ht => ?_
    rw [List.mem_range] at ht
    rw [roundLoop_eq, hget t (by omega), hp.k t ht, hp.f1, hp.f2]
    rfl
  unfold transfBlock
  dsimp only
  rw [hp.rounds, foldl_expEight _ _ hp.rounds_dvd, ite_self, hloop]
  rfl

end Block

end Rtes.Sha2
