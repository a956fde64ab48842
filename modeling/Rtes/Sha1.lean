import Rtes.Rotate
import Rtes.Sha1Model
import Rtes.Words

/-!
`sha1.c` computes SHA-1, whatever the pieces are in which it is given the message and whatever
bits an `unsigned long` has above the lowest 32.

`sha1_process` is taken apart in two steps. The low 32 bits of its variables do not depend on
those above them, so that it can be looked at for words of 32 bits. There its lines are the
rounds of the standard: it gives the variables other names where the standard moves values, and
it keeps the last sixteen words of the schedule and not all of them.
-/

namespace Rtes.Sha1

open Rtes.Absorb Rtes.Bytes Rtes.Rotate Rtes.Sha1Model Rtes.Words
open Rtes.Sha1Model.Reg

variable {w : ℕ}

/-! ### The standard -/

/-- The function of round `t`. -/
def f (t : ℕ) (x y z : BitVec 32) : BitVec 32 :=
  if t < 20 then (x &&& y) ^^^ (~~~x &&& z)
  else if t < 40 then x ^^^ y ^^^ z
  else if t < 60 then (x &&& y) ^^^ (x &&& z) ^^^ (y &&& z)
  else x ^^^ y ^^^ z

def k (t : ℕ) : BitVec 32 :=
  if t < 20 then 0x5A827999 else if t < 40 then 0x6ED9EBA1
  else if t < 60 then 0x8F1BBCDC else 0xCA62C1D6

/-- The message schedule of a block. -/
def schedule (b : List Byte) (t : ℕ) : BitVec 32 :=
  if t < 16 then word 32 ((b.drop (4 * t)).take 4).reverse
  else (schedule b (t - 3) ^^^ schedule b (t - 8) ^^^ schedule b (t - 14) ^^^
    schedule b (t - 16)).rotateLeft 1

/-- One round. -/
def round (b : List Byte) (v : Regs 32) (t : ℕ) : Regs 32 where
  A := v.A.rotateLeft 5 + f t v.B v.C v.D + v.E + k t + schedule b t
  B := v.A
  C := v.B.rotateLeft 30
  D := v.C
  E := v.D

def compress (h : Regs 32) (b : List Byte) : Regs 32 :=
  let v := (List.range 80).foldl (round b) h
  ⟨h.A + v.A, h.B + v.B, h.C + v.C, h.D + v.D, h.E + v.E⟩

def h0 : Regs 32 := ⟨0x67452301, 0xEFCDAB89, 0x98BADCFE, 0x10325476, 0xC3D2E1F0⟩

/-- The length in bits, in eight bytes. -/
def bitLength (l : ℕ) : List Byte := (toBytes 8 (8 * l)).reverse

def output (h : Regs 32) : List Byte :=
  [h.A, h.B, h.C, h.D, h.E].flatMap fun x => (toBytes 4 x.toNat).reverse

/-- SHA-1 of a message. -/
def digest (m : List Byte) : List Byte := output (absorb compress 64 h0 (pad 64 bitLength m))

/-! ### The low 32 bits -/

def low (v : Regs w) : Regs 32 :=
  ⟨v.A.setWidth 32, v.B.setWidth 32, v.C.setWidth 32, v.D.setWidth 32, v.E.setWidth 32⟩

def lowWork (s : Work w) : Work 32 := ⟨low s.regs, s.W.map (BitVec.setWidth 32)⟩

@[simp] lemma get_low (v : Regs w) (r : Reg) : (low v).get r = (v.get r).setWidth 32 := by
  cases r <;> rfl

@[simp] lemma low_set (v : Regs w) (r : Reg) (x : BitVec w) :
    low (v.set r x) = (low v).set r (x.setWidth 32) := by
  cases r <;> rfl

lemma getUlongBe_eq (b : List Byte) (i : ℕ) :
    getUlongBe w b i =
      word w [b.getD (i + 3) 0, b.getD (i + 2) 0, b.getD (i + 1) 0, b.getD i 0] := by
  simp only [getUlongBe, word_cons_or, word_nil, BitVec.shiftLeft_or_distrib,
    ← BitVec.shiftLeft_add, BitVec.ofNat_eq_ofNat, BitVec.zero_shiftLeft, BitVec.or_zero,
    Nat.reduceAdd]
  rw [BitVec.or_comm, BitVec.or_comm (_ ||| _),
    BitVec.or_comm (BitVec.setWidth w (b.getD i _) <<< (24 : ℕ))]

/-- A function of three words whose low bits are a function of theirs. -/
def Narrow (F : Fun w) (F' : Fun 32) : Prop :=
  ∀ x y z, (F x y z).setWidth 32 = F' (x.setWidth 32) (y.setWidth 32) (z.setWidth 32)

section Low

variable (hw : 32 ≤ w)
include hw

lemma getLsbD_mask (i : ℕ) : (0xFFFFFFFF : BitVec w).getLsbD i = decide (i < 32) := by
  change (BitVec.ofNat w (2 ^ 32 - 1)).getLsbD i = _
  rw [BitVec.getLsbD_ofNat, Nat.testBit_two_pow_sub_one]
  by_cases h : i < 32 <;> simp [h]
  omega

lemma setWidth_S (x : BitVec w) (n : ℕ) : (S x n).setWidth 32 = S (x.setWidth 32) n := by
  apply BitVec.eq_of_getLsbD_eq
  intro i hi
  have h1 : i < w := by omega
  have h2 : i - n < 32 := by omega
  simp only [S, BitVec.getLsbD_setWidth, BitVec.getLsbD_or, BitVec.getLsbD_shiftLeft,
    BitVec.getLsbD_ushiftRight, BitVec.getLsbD_and, getLsbD_mask hw, getLsbD_mask le_rfl, hi, h1,
    h2, decide_true, Bool.true_and]
  rw [Bool.and_right_comm, Bool.and_self, Bool.and_comm (x.getLsbD _)]

lemma low_P {F : Fun w} {F' : Fun 32} (hF : Narrow F F') (K : BitVec w) (a b c d e : Reg)
    (x : BitVec w) (v : Regs w) :
    low (P F K a b c d e x v) = P F' (K.setWidth 32) a b c d e (x.setWidth 32) (low v) := by
  have hF' := fun x y z => hF x y z
  simp only [P, low_set, ← get_low, setWidth_S hw, BitVec.setWidth_add _ _ hw, hF']

omit hw in
lemma getD_map_low (W : List (BitVec w)) (i : ℕ) :
    (W.map (BitVec.setWidth 32)).getD i 0 = (W.getD i 0).setWidth 32 := by
  simpa using List.getD_map (n := i) (l := W) (d := 0) (f := BitVec.setWidth 32)

lemma map_R (t : ℕ) (W : List (BitVec w)) :
    (R t W).map (BitVec.setWidth 32) = R t (W.map (BitVec.setWidth 32)) := by
  simp only [R, List.map_set, setWidth_S hw, BitVec.setWidth_xor, getD_map_low]

lemma lowWork_line {F : Fun w} {F' : Fun 32} (hF : Narrow F F') (K : BitVec w)
    (a b c d e : Reg) (t : ℕ) (s : Work w) :
    lowWork (line F K a b c d e t s) =
      line F' (K.setWidth 32) a b c d e t (lowWork s) := by
  have hW : (if t < 16 then s.W else R t s.W).map (BitVec.setWidth 32) =
      if t < 16 then s.W.map (BitVec.setWidth 32) else R t (s.W.map (BitVec.setWidth 32)) := by
    split_ifs
    · rfl
    · exact map_R hw t s.W
  simp only [line, lowWork, low_P hw hF, ← getD_map_low, hW]

lemma lowWork_twenty {F : Fun w} {F' : Fun 32} (hF : Narrow F F') (K : BitVec w) (t : ℕ)
    (s : Work w) : lowWork (twenty F K t s) = twenty F' (K.setWidth 32) t (lowWork s) := by
  simp only [twenty, five, lowWork_line hw hF]

lemma lowWork_eighty (s : Work w) : lowWork (eighty s) = eighty (lowWork s) := by
  have hconst : ∀ x, (BitVec.ofNat w x).setWidth 32 = BitVec.ofNat 32 x :=
    fun x => BitVec.setWidth_ofNat_of_le hw x
  have hch : Narrow (w := w) (fun x y z => z ^^^ (x &&& (y ^^^ z)))
      (fun x y z => z ^^^ (x &&& (y ^^^ z))) := fun x y z => by simp
  have hpar : Narrow (w := w) (fun x y z => x ^^^ y ^^^ z) (fun x y z => x ^^^ y ^^^ z) :=
    fun x y z => by simp
  have hmaj : Narrow (w := w) (fun x y z => (x &&& y) ||| (z &&& (x ||| y)))
      (fun x y z => (x &&& y) ||| (z &&& (x ||| y))) := fun x y z => by simp
  rw [eighty, lowWork_twenty hw hpar, lowWork_twenty hw hmaj, lowWork_twenty hw hpar,
    lowWork_twenty hw hch]
  simp only [BitVec.ofNat_eq_ofNat, hconst]
  rfl

/-- **The low bits of the state after a block** are those of the program with words of 32
bits. -/
theorem low_sha1Process (state : Regs w) (data : List Byte) :
    low (sha1Process state data) = sha1Process (low state) data := by
  have hstart : lowWork ⟨state, (List.range 16).map fun i => getUlongBe w data (4 * i)⟩ =
      ⟨low state, (List.range 16).map fun i => getUlongBe 32 data (4 * i)⟩ := by
    have hword : ∀ bs, (word w bs).setWidth 32 = word 32 bs :=
      fun bs => BitVec.setWidth_ofNat_of_le hw _
    simp [lowWork, getUlongBe_eq, hword]
  simp only [sha1Process, ← hstart, ← lowWork_eighty hw]
  simp only [low, lowWork, BitVec.setWidth_add _ _ hw]

end Low

/-! ### Lines and rounds -/

lemma S_eq_rotateLeft (x : BitVec 32) {n : ℕ} (hn : n < 32) : S x n = x.rotateLeft n := by
  rw [S, BitVec.rotateLeft_def, Nat.mod_eq_of_lt hn, show (0xFFFFFFFF : BitVec 32) =
    BitVec.allOnes 32 from rfl, BitVec.and_allOnes]

/-- The names from one line to the next. -/
def turn : Equiv.Perm Reg where
  toFun | A => E | B => A | C => B | D => C | E => D
  invFun | E => A | A => B | B => C | C => D | D => E
  left_inv r := by cases r <;> rfl
  right_inv r := by cases r <;> rfl

lemma turn_pow_five : turn ^ 5 = 1 := by
  ext r
  cases r <;> rfl

lemma turn_pow {t : ℕ} (ht : 5 ∣ t) : turn ^ t = 1 := by
  obtain ⟨i, rfl⟩ := ht
  rw [pow_mul, turn_pow_five, one_pow]

@[simp] lemma get_set (v : Regs w) (r : Reg) (x : BitVec w) :
    (v.set r x).get = Function.update v.get r x := by
  funext r'
  cases r <;> cases r' <;> rfl

lemma get_injective {v v' : Regs w} (h : v.get = v'.get) : v = v' := by
  cases v
  cases v'
  simp only [Regs.mk.injEq]
  exact ⟨congrFun h A, congrFun h B, congrFun h C, congrFun h D, congrFun h E⟩

/-- `P` on variables under their own names. -/
def step (F : Fun 32) (K x : BitVec 32) (u : Reg → BitVec 32) : Reg → BitVec 32 :=
  Function.update (Function.update u E (u E + (S (u A) 5 + F (u B) (u C) (u D) + K + x))) B
    (S (u B) 30)

/-- `P` under other names. -/
lemma get_P (F : Fun 32) (K x : BitVec 32) (e : Equiv.Perm Reg) (v : Regs 32) :
    (P F K (e A) (e B) (e C) (e D) (e E) x v).get = renamed e (step F K x) v.get := by
  have hne : e B ≠ e E := e.injective.ne (by decide)
  simp only [P, get_set, renamed, step, Function.update_comp_equiv, Function.comp_apply,
    Equiv.symm_symm, Function.update_of_ne hne]
  rw [Function.comp_assoc, Equiv.self_comp_symm, Function.comp_id]

/-- With the values moved, a line is a round. -/
lemma step_turn (b : List Byte) (t : ℕ) (v : Regs 32) :
    step (f t) (k t) (schedule b t) v.get ∘ turn = (round b v t).get := by
  have hA : v.E + (S v.A 5 + f t v.B v.C v.D + k t + schedule b t) =
      v.A.rotateLeft 5 + f t v.B v.C v.D + v.E + k t + schedule b t := by
    rw [S_eq_rotateLeft v.A (by norm_num)]
    ring
  funext r
  cases r with
  | A => exact hA
  | C => exact S_eq_rotateLeft v.B (by norm_num)
  | _ => rfl

/-- A line, under names that are turned by `e`. -/
def named (F : Fun 32) (K : BitVec 32) (e : Equiv.Perm Reg) (t : ℕ) (s : Work 32) : Work 32 :=
  line F K (e A) (e B) (e C) (e D) (e E) t s

lemma five_eq (F : Fun 32) (K : BitVec 32) {t : ℕ} (ht : 5 ∣ t) (s : Work 32) :
    five F K t s = (List.range' t 5).foldl (fun s i => named F K (turn ^ i) i s) s := by
  have hturn : ∀ i, turn ^ (t + i) = turn ^ i := fun i => by rw [pow_add, turn_pow ht, one_mul]
  simp only [List.range'_succ, List.range'_zero, List.foldl_cons, List.foldl_nil, add_assoc,
    hturn, turn_pow ht]
  rfl

lemma twenty_eq {F : Fun 32} {K : BitVec 32} {t : ℕ} (ht : 5 ∣ t)
    (hF : ∀ i, t ≤ i → i < t + 20 → F = f i) (hK : ∀ i, t ≤ i → i < t + 20 → K = k i)
    (s : Work 32) :
    twenty F K t s =
      (List.range' t 20).foldl (fun s i => named (f i) (k i) (turn ^ i) i s) s := by
  have hfive : ∀ j, 5 ∣ j → 5 ∣ t + j := fun j hj => Nat.dvd_add ht hj
  calc twenty F K t s
      = (List.range' t 20).foldl (fun s i => named F K (turn ^ i) i s) s := by
        rw [twenty, five_eq F K ht, five_eq F K (hfive 5 (by norm_num)),
          five_eq F K (hfive 10 (by norm_num)), five_eq F K (hfive 15 (by norm_num)),
          ← List.foldl_append, ← List.foldl_append, ← List.foldl_append]
        rfl
    _ = _ := by
        refine List.foldl_ext _ _ _ fun s i hi => ?_
        rw [List.mem_range'_1] at hi
        rw [hF i hi.1 hi.2, hK i hi.1 hi.2]

lemma ch_eq (x y z : BitVec 32) : z ^^^ (x &&& (y ^^^ z)) = (x &&& y) ^^^ (~~~x &&& z) := by
  ext i hi
  simp only [BitVec.getElem_xor, BitVec.getElem_and, BitVec.getElem_not]
  cases x[i] <;> cases y[i] <;> cases z[i] <;> rfl

lemma maj_eq (x y z : BitVec 32) :
    (x &&& y) ||| (z &&& (x ||| y)) = (x &&& y) ^^^ (x &&& z) ^^^ (y &&& z) := by
  ext i hi
  simp only [BitVec.getElem_xor, BitVec.getElem_and, BitVec.getElem_or]
  cases x[i] <;> cases y[i] <;> cases z[i] <;> rfl

lemma f_ch {i : ℕ} (h : i < 20) : (fun x y z => z ^^^ (x &&& (y ^^^ z))) = f i := by
  funext x y z
  rw [ch_eq, f, if_pos h]

lemma f_parity {i : ℕ} (h : 20 ≤ i ∧ i < 40 ∨ 60 ≤ i) : (fun x y z => x ^^^ y ^^^ z) = f i := by
  funext x y z
  unfold f
  split_ifs <;> first | rfl | omega

lemma f_maj {i : ℕ} (h : 40 ≤ i ∧ i < 60) :
    (fun x y z => (x &&& y) ||| (z &&& (x ||| y))) = f i := by
  funext x y z
  rw [maj_eq, f, if_neg (by omega), if_neg (by omega), if_pos h.2]

/-- **The lines are the rounds**, each under its own names. -/
lemma eighty_eq (s : Work 32) :
    eighty s = (List.range 80).foldl (fun s i => named (f i) (k i) (turn ^ i) i s) s := by
  have hk : ∀ {i c}, c ≤ i → i < c + 20 → c ∈ [0, 20, 40, 60] → k c = k i := by
    intro i c hc hi hmem
    simp only [List.mem_cons, List.not_mem_nil, or_false] at hmem
    unfold k
    rcases hmem with rfl | rfl | rfl | rfl <;> split_ifs <;> first | rfl | omega
  change twenty _ (k 60) 60 (twenty _ (k 40) 40 (twenty _ (k 20) 20 (twenty _ (k 0) 0 s))) = _
  rw [twenty_eq (t := 0) (by norm_num) (fun i _ hi => f_ch (by omega))
      (fun i h h' => hk h h' (by simp)),
    twenty_eq (t := 20) (by norm_num) (fun i h h' => f_parity (.inl ⟨h, h'⟩))
      (fun i h h' => hk h h' (by simp)),
    twenty_eq (t := 40) (by norm_num) (fun i h h' => f_maj ⟨h, h'⟩)
      (fun i h h' => hk h h' (by simp)),
    twenty_eq (t := 60) (by norm_num) (fun i h _ => f_parity (.inr h))
      (fun i h h' => hk h h' (by simp)),
    ← List.foldl_append, ← List.foldl_append, ← List.foldl_append]
  rfl

/-! ### The last sixteen words -/

/-- `W` holds the sixteen words of the schedule before `n`, each at its place modulo 16. -/
structure Window (b : List Byte) (n : ℕ) (W : List (BitVec 32)) : Prop where
  length : W.length = 16
  word : ∀ j < n, n ≤ j + 16 → W.getD (j % 16) 0 = schedule b j

lemma schedule_of_lt {b : List Byte} {t : ℕ} (ht : t < 16) :
    schedule b t = Words.word 32 ((b.drop (4 * t)).take 4).reverse := by
  rw [schedule, if_pos ht]

lemma schedule_of_ge {b : List Byte} {t : ℕ} (ht : 16 ≤ t) :
    schedule b t = (schedule b (t - 3) ^^^ schedule b (t - 8) ^^^ schedule b (t - 14) ^^^
      schedule b (t - 16)).rotateLeft 1 := by
  rw [schedule, if_neg (by omega)]

lemma and_fifteen (n : ℕ) : n &&& 0x0F = n % 16 := Nat.and_two_pow_sub_one_eq_mod n 4

/-- `R(t)` replaces the oldest word. -/
lemma Window.R {b : List Byte} {t : ℕ} {W : List (BitVec 32)} (h : Window b t W)
    (ht : 16 ≤ t) : Window b (t + 1) (Sha1Model.R t W) := by
  have hword : ∀ j, j < t → t ≤ j + 16 → W.getD (j &&& 0x0F) 0 = schedule b j := by
    intro j hj hj'
    rw [and_fifteen]
    exact h.word j hj hj'
  have hold : W.getD (t &&& 0x0F) 0 = schedule b (t - 16) := by
    rw [← hword (t - 16) (by omega) (by omega), and_fifteen, and_fifteen]
    congr 1
    omega
  have hnew : Sha1Model.R t W = W.set (t % 16) (schedule b t) := by
    rw [schedule_of_ge ht, ← hword (t - 3) (by omega) (by omega),
      ← hword (t - 8) (by omega) (by omega), ← hword (t - 14) (by omega) (by omega), ← hold,
      ← S_eq_rotateLeft _ (by norm_num), ← and_fifteen]
    rfl
  refine ⟨by rw [hnew, List.length_set, h.length], fun j hj hj' => ?_⟩
  rw [hnew]
  rcases Nat.lt_or_eq_of_le (Nat.le_of_lt_succ hj) with hlt | rfl
  · rw [List.getD_eq_getElem?_getD, List.getElem?_set_ne (by omega),
      ← List.getD_eq_getElem?_getD, h.word j hlt (by omega)]
  · rw [List.getD_eq_getElem?_getD, List.getElem?_set_self (by rw [h.length]; omega)]
    rfl

lemma window_start {b : List Byte} (hb : b.length = 64) :
    Window b 16 ((List.range 16).map fun i => getUlongBe 32 b (4 * i)) := by
  refine ⟨by simp, fun j hj _ => ?_⟩
  rw [Nat.mod_eq_of_lt hj, schedule_of_lt hj, take_drop_eq (by omega),
    List.getD_eq_getElem _ _ (by simpa)]
  simp only [List.getElem_map, List.getElem_range, getUlongBe_eq]
  rfl

/-- What the lines before `n` leave. -/
lemma lines_eq {b : List Byte} {s : Work 32} (hs : Window b 16 s.W) (n : ℕ) :
    let s' := (List.range n).foldl (fun s i => named (f i) (k i) (turn ^ i) i s) s
    s'.regs.get = (List.range n).foldl
      (fun v t => renamed (turn ^ t) (step (f t) (k t) (schedule b t)) v) s.regs.get ∧
      Window b (max n 16) s'.W := by
  induction n with
  | zero => exact ⟨rfl, hs⟩
  | succ n ih =>
    obtain ⟨hregs, hW⟩ := ih
    simp only [List.range_succ, List.foldl_append, List.foldl_cons, List.foldl_nil]
    generalize (List.range n).foldl (fun s i => named (f i) (k i) (turn ^ i) i s) s = s' at *
    have hW' : Window b (max (n + 1) 16) (if n < 16 then s'.W else Sha1Model.R n s'.W) := by
      split_ifs with h
      · rwa [Nat.max_eq_right (by omega)] at hW ⊢
      · rw [Nat.max_eq_left (by omega)] at hW ⊢
        exact hW.R (by omega)
    have hword := hW'.word n (by omega) (by omega)
    refine ⟨?_, hW'⟩
    rw [← hregs, ← hword, ← get_P, ← and_fifteen]
    rfl

/-- **`sha1_process` is the compression of the standard.** -/
theorem sha1Process_eq (state : Regs 32) {data : List Byte} (hdata : data.length = 64) :
    sha1Process state data = compress state data := by
  have hregs : (eighty ⟨state, (List.range 16).map fun i => getUlongBe 32 data (4 * i)⟩).regs =
      (List.range 80).foldl (round data) state := by
    apply get_injective
    rw [eighty_eq, (lines_eq (window_start hdata) 80).1,
      foldl_renamed_of_pow_eq_one (turn_pow (by norm_num))]
    exact List.foldl_hom Regs.get fun v t => step_turn data t v
  simp only [sha1Process, hregs, compress]

end Rtes.Sha1
