import Rtes.Md5Model
import Rtes.Rotate
import Rtes.Sines

/-!
`md5.c` computes MD5, on machines of both byte orders and whatever the pieces are in which it is
given the message and wherever they are in memory.

The operations of `md5_process` are compared with a loop of 64 rounds that moves the values of
the variables, where the program gives the variables other names.
-/

namespace Rtes.Md5

open Rtes.Absorb Rtes.Bytes Rtes.Md5Model Rtes.Rotate Rtes.Words

/-! ### The algorithm -/

/-- The function of round `t`. -/
def f (t : ℕ) : BitVec 32 → BitVec 32 → BitVec 32 → BitVec 32 :=
  if t < 16 then F else if t < 32 then G else if t < 48 then H else I

/-- The word of the block that round `t` uses. -/
def index (t : ℕ) : ℕ :=
  if t < 16 then t else if t < 32 then (5 * t + 1) % 16
  else if t < 48 then (3 * t + 5) % 16 else 7 * t % 16

def amount (t : ℕ) : ℕ :=
  let s := if t < 16 then [7, 12, 17, 22] else if t < 32 then [5, 9, 14, 20]
    else if t < 48 then [4, 11, 16, 23] else [6, 10, 15, 21]
  s.getD (t % 4) 0

/-- The constant of round `t`, a sine. -/
noncomputable def sine (t : ℕ) : BitVec 32 :=
  BitVec.ofNat 32 ⌊((2 ^ 32 : ℕ) : ℝ) * |Real.sin (t + 1 : ℕ)|⌋₊

/-- The words of a block. -/
def blockWord (b : List Byte) (i : ℕ) : BitVec 32 := word 32 ((b.drop (4 * i)).take 4)

noncomputable def round (b : List Byte) (v : Regs) (t : ℕ) : Regs where
  a := v.d
  b := v.b + (v.a + f t v.b v.c v.d + blockWord b (index t) + sine t).rotateLeft (amount t)
  c := v.b
  d := v.c

noncomputable def compress (h : Regs) (b : List Byte) : Regs :=
  let v := (List.range 64).foldl (round b) h
  ⟨h.a + v.a, h.b + v.b, h.c + v.c, h.d + v.d⟩

def h0 : Regs := ⟨0x67452301, 0xEFCDAB89, 0x98BADCFE, 0x10325476⟩

/-- The length in bits, in eight bytes. -/
def bitLength (l : ℕ) : List Byte := toBytes 8 (8 * l)

def output (h : Regs) : List Byte := [h.a, h.b, h.c, h.d].flatMap fun x => toBytes 4 x.toNat

/-- MD5 of a message. -/
noncomputable def digest (m : List Byte) : List Byte :=
  output (absorb compress 64 h0 (pad 64 bitLength m))

/-! ### The words of a block -/

/-- The program was not built for little-endian machines only, or this is one. -/
def Suits (env : Env) : Prop :=
  match env.byteOrder with
  | .little => env.littleEndian = true
  | _ => True

lemma bigX_eq {b : List Byte} (hb : b.length = 64) :
    bigX b = (List.range 16).map (blockWord b) := by
  apply List.map_congr_left
  intro i hi
  rw [List.mem_range] at hi
  have hget : ∀ j, (b.drop (4 * i)).getD j 0 = b.getD (4 * i + j) 0 := fun j => by
    rw [List.getD_eq_getElem?_getD, List.getElem?_drop, ← List.getD_eq_getElem?_getD]
  rw [blockWord, take_drop_eq (by omega)]
  simp only [hget, List.range_succ, List.range_zero, List.nil_append, List.cons_append]
  simp only [List.map_cons, List.map_nil, word_cons_add, word_nil, BitVec.shiftLeft_add_distrib,
    ← BitVec.shiftLeft_add, BitVec.ofNat_eq_ofNat, BitVec.zero_shiftLeft, BitVec.add_zero,
    Nat.reduceAdd, BitVec.add_assoc]

lemma asWords_eq {env : Env} (henv : env.littleEndian = true) (b : List Byte) :
    asWords env b = (List.range 16).map (blockWord b) := by
  simp only [asWords, loadWord, henv, if_true]
  rfl

lemma littleX_eq {env : Env} (henv : env.littleEndian = true) (addr : ℕ) {b : List Byte}
    (hb : b.length = 64) : littleX env addr b = (List.range 16).map (blockWord b) := by
  unfold littleX
  split_ifs
  · exact asWords_eq henv b
  · rw [List.take_of_length_le hb.le]
    exact asWords_eq henv b

/-- **The words are the same** for both byte orders and every alignment. -/
lemma X_eq {env : Env} (henv : Suits env) (addr : ℕ) {b : List Byte} (hb : b.length = 64) :
    X env addr b = (List.range 16).map (blockWord b) := by
  unfold Suits at henv
  unfold X
  split at henv
  next h =>
    rw [h]
    exact littleX_eq henv addr hb
  next h =>
    split
    next h' => exact absurd h' h
    next =>
      split_ifs with hle
      · exact littleX_eq hle addr hb
      · exact bigX_eq hb
    next => exact bigX_eq hb

/-! ### Operations and rounds -/

lemma leads_T : ∀ t < 64, Sines.Leads 32 (t + 1) (T.getD t 0).toNat := by
  decide +kernel

/-- **The table holds the sines.** -/
lemma T_eq_sine {t : ℕ} (ht : t < 64) : T.getD t 0 = sine t := by
  rw [sine, Nat.cast_pow, Nat.cast_ofNat,
    Sines.floor_abs_sin (by norm_num) (by omega) (leads_T t ht), BitVec.ofNat_toNat,
    BitVec.setWidth_eq]

/-- The names from one operation to the next. -/
def turn : Equiv.Perm Reg where
  toFun | .a => .d | .b => .a | .c => .b | .d => .c
  invFun | .d => .a | .a => .b | .b => .c | .c => .d
  left_inv r := by cases r <;> rfl
  right_inv r := by cases r <;> rfl

lemma turn_pow_four : turn ^ 4 = 1 := by
  ext r
  cases r <;> rfl

lemma turn_pow {t : ℕ} (ht : 4 ∣ t) : turn ^ t = 1 := by
  obtain ⟨i, rfl⟩ := ht
  rw [pow_mul, turn_pow_four, one_pow]

lemma get_set (v : Regs) (r : Reg) (x : BitVec 32) :
    (v.set r x).get = Function.update v.get r x := by
  funext r'
  cases r <;> cases r' <;> rfl

lemma get_injective {v v' : Regs} (h : v.get = v'.get) : v = v' := by
  cases v
  cases v'
  simp only [Regs.mk.injEq]
  exact ⟨congrFun h .a, congrFun h .b, congrFun h .c, congrFun h .d⟩

/-- `SET` on variables under their own names, in round `t`. -/
def step (X : List (BitVec 32)) (t : ℕ) (u : Reg → BitVec 32) : Reg → BitVec 32 :=
  Function.update u .a (rotateLeft (u .a + f t (u .b) (u .c) (u .d) + X.getD (index t) 0 +
    T.getD t 0) (amount t) + u .b)

/-- An operation under names that are turned by `e`. -/
def named (X : List (BitVec 32)) (e : Equiv.Perm Reg) (t : ℕ) (v : Regs) : Regs :=
  SET (f t) X (e .a) (e .b) (e .c) (e .d) (index t) (amount t) (t + 1) v

lemma get_named (X : List (BitVec 32)) (e : Equiv.Perm Reg) (t : ℕ) (v : Regs) :
    (named X e t v).get = renamed e (step X t) v.get := by
  simp only [named, SET, get_set, renamed, step, Function.update_comp_equiv, Function.comp_apply,
    Equiv.symm_symm, Nat.add_sub_cancel]
  rw [Function.comp_assoc, Equiv.self_comp_symm, Function.comp_id]

/-- With the values moved, an operation is a round. -/
lemma step_turn {X : List (BitVec 32)} {b : List Byte} (hX : X = (List.range 16).map (blockWord b))
    {t : ℕ} (ht : t < 64) (v : Regs) : step X t v.get ∘ turn = (round b v t).get := by
  have hi : index t < 16 := by
    unfold index
    split_ifs <;> omega
  have hs : amount t < 32 := by
    unfold amount
    have := Nat.mod_lt t (show 0 < 4 by norm_num)
    generalize t % 4 = j at *
    split_ifs <;> interval_cases j <;> simp
  have hword : X.getD (index t) 0 = blockWord b (index t) := by
    rw [hX, List.getD_eq_getElem _ _ (by simpa), List.getElem_map, List.getElem_range]
  funext r
  cases r with
  | b =>
    change rotateLeft (v.a + f t v.b v.c v.d + X.getD (index t) 0 + T.getD t 0) (amount t) + v.b = _
    rw [hword, T_eq_sine ht, rotateLeft, BitVec.add_comm]
    simp only [round, Regs.get]
    rw [BitVec.rotateLeft_def, Nat.mod_eq_of_lt hs]
  | _ => rfl

/-- **The operations are the rounds**, each under its own names. -/
lemma rounds_eq (X : List (BitVec 32)) (v : Regs) :
    round4 X (round3 X (round2 X (round1 X v))) =
      (List.range 64).foldl (fun v t => named X (turn ^ t) t v) v := by
  have h1 : ∀ v, round1 X v = (List.range' 0 16).foldl (fun v t => named X (turn ^ t) t v) v :=
    fun _ => rfl
  have h2 : ∀ v, round2 X v = (List.range' 16 16).foldl (fun v t => named X (turn ^ t) t v) v :=
    fun _ => rfl
  have h3 : ∀ v, round3 X v = (List.range' 32 16).foldl (fun v t => named X (turn ^ t) t v) v :=
    fun _ => rfl
  have h4 : ∀ v, round4 X v = (List.range' 48 16).foldl (fun v t => named X (turn ^ t) t v) v :=
    fun _ => rfl
  rw [h1, h2, h3, h4, ← List.foldl_append, ← List.foldl_append, ← List.foldl_append]
  rfl

/-- **`md5_process` is the compression**, for every build that suits the machine. -/
theorem md5Process_eq {env : Env} (henv : Suits env) (addr : ℕ) (abcd : Regs) {data : List Byte}
    (hdata : data.length = 64) : md5Process env addr abcd data = compress abcd data := by
  have hX := X_eq henv addr hdata
  have hregs : round4 (X env addr data) (round3 (X env addr data) (round2 (X env addr data)
      (round1 (X env addr data) abcd))) = (List.range 64).foldl (round data) abcd := by
    have hget : (List.range 64).foldl
        (fun u t => renamed (turn ^ t) (step (X env addr data) t) u) abcd.get =
        ((List.range 64).foldl (fun v t => named (X env addr data) (turn ^ t) t v) abcd).get :=
      List.foldl_hom Regs.get fun v t => (get_named _ (turn ^ t) t v).symm
    apply get_injective
    rw [rounds_eq, ← hget, foldl_renamed_of_pow_eq_one (turn_pow (by norm_num))]
    suffices ∀ n ≤ 64, (List.range n).foldl (fun u t => step (X env addr data) t u ∘ turn)
        abcd.get = ((List.range n).foldl (round data) abcd).get from this 64 le_rfl
    intro n hn
    induction n with
    | zero => rfl
    | succ n ih =>
      simp only [List.range_succ, List.foldl_append, List.foldl_cons, List.foldl_nil]
      rw [ih (by omega), step_turn hX (by omega)]
  simp only [md5Process, hregs, compress]

/-! ### The state over a sequence of calls -/

/-- The state has been given `m`. -/
structure Taken (pms : State) (m : List Byte) : Prop where
  tracks : Tracks compress 64 h0 pms.abcd pms.buf m
  count0 : pms.count0.toNat = 8 * m.length % 2 ^ 32
  count1 : pms.count1.toNat = 8 * m.length / 2 ^ 32 % 2 ^ 32

lemma taken_init (pms : State) : Taken (md5Init pms) [] where
  tracks := Tracks.init h0 _
  count0 := rfl
  count1 := rfl

lemma offset_eq {pms : State} {m : List Byte} (h : Taken pms m) :
    (pms.count0 >>> 3 &&& 63).toNat = m.length % 64 := by
  have hand : ∀ x : BitVec 32, (x &&& 63).toNat = x.toNat % 64 := fun x => by
    rw [BitVec.toNat_and]
    exact Nat.and_two_pow_sub_one_eq_mod _ 6
  rw [hand, BitVec.toNat_ushiftRight, h.count0, Nat.shiftRight_eq_div_pow]
  omega

/-- The counter of bits. -/
lemma count_append {pms : State} {m x : List Byte} (h : Taken pms m) (hx : x.length < 2 ^ 28) :
    let nbits := BitVec.ofNat 32 (x.length <<< 3)
    let count1 := pms.count1 + BitVec.ofNat 32 (x.length >>> 29)
    let count0 := pms.count0 + nbits
    count0.toNat = 8 * (m ++ x).length % 2 ^ 32 ∧
      (if count0 < nbits then count1 + 1 else count1).toNat =
        8 * (m ++ x).length / 2 ^ 32 % 2 ^ 32 := by
  have hnbits : (BitVec.ofNat 32 (x.length <<< 3)).toNat = 8 * x.length := by
    rw [BitVec.toNat_ofNat, Nat.shiftLeft_eq]
    omega
  have hhigh : BitVec.ofNat 32 (x.length >>> 29) = 0#32 := by
    rw [Nat.shiftRight_eq_div_pow, Nat.div_eq_of_lt (by omega)]
  have h0 : (pms.count0 + BitVec.ofNat 32 (x.length <<< 3)).toNat =
      8 * (m ++ x).length % 2 ^ 32 := by
    rw [BitVec.toNat_add, hnbits, h.count0, List.length_append]
    omega
  refine ⟨h0, ?_⟩
  have hlt : pms.count0 + BitVec.ofNat 32 (x.length <<< 3) < BitVec.ofNat 32 (x.length <<< 3) ↔
      2 ^ 32 ≤ 8 * m.length % 2 ^ 32 + 8 * x.length := by
    rw [BitVec.lt_def, h0, hnbits, List.length_append]
    omega
  have hone : (1 : BitVec 32).toNat = 1 := rfl
  rw [hhigh, BitVec.add_zero, List.length_append]
  split_ifs with hc
  · rw [hlt] at hc
    rw [BitVec.toNat_add, h.count1, hone]
    omega
  · rw [hlt] at hc
    rw [h.count1]
    omega

section

variable {env : Env} (henv : Suits env)
include henv

lemma fullBlocks_eq (p : ℕ) (abcd : Regs) (x : List Byte) :
    fullBlocks env p abcd x = (absorb compress 64 abcd x, rest 64 x) := by
  have h := drain_map (f := fun (s : Regs × ℕ) b => (md5Process env s.2 s.1 b, s.2 + 64))
    Prod.fst (fun s b hb => md5Process_eq henv s.2 s.1 hb) x.length (abcd, p) x
  rw [drain_eq (by norm_num) le_rfl] at h
  exact h.symm

lemma tracks_append {pms : State} {m x : List Byte} (h : Taken pms m) (hx : x.length ≠ 0)
    (p : ℕ) : Tracks compress 64 h0 (md5Append env pms p x).abcd (md5Append env pms p x).buf
      (m ++ x) := by
  unfold md5Append
  simp only [if_neg hx, offset_eq h, fullBlocks_eq henv, ← Nat.pos_iff_ne_zero, ite_blit]
  by_cases h0 : m.length % 64 = 0
  · rw [h0, if_neg (by norm_num)]
    obtain ⟨hs, hr⟩ := h.tracks.aligned (by norm_num) h0 x
    simp only [hr]
    exact Tracks.of_absorb hs _
  · rw [if_pos (Nat.pos_of_ne_zero h0)]
    rcases Nat.lt_or_ge (m.length % 64 + x.length) 64 with hlt | hge
    · -- the block is not full yet
      rw [if_neg (show ¬ 64 < m.length % 64 + x.length by omega), if_pos hlt, List.take_length]
      exact h.tracks.keep hlt
    · have hcopy : (if 64 < m.length % 64 + x.length then 64 - m.length % 64 else x.length) =
          64 - m.length % 64 := by
        split_ifs <;> omega
      rw [hcopy, if_neg (by omega)]
      obtain ⟨hs, hr⟩ := h.tracks.fill (x := x) (by norm_num) hge
      simp only [hr]
      apply Tracks.of_absorb
      rw [md5Process_eq henv _ _ (by simp), hs]

lemma taken_append {pms : State} {m x : List Byte} (h : Taken pms m) (hx : x.length < 2 ^ 28)
    (p : ℕ) : Taken (md5Append env pms p x) (m ++ x) := by
  by_cases h0 : x.length = 0
  · rw [List.length_eq_zero_iff] at h0
    subst h0
    rwa [List.append_nil]
  · obtain ⟨hc0, hc1⟩ := count_append h hx
    refine ⟨tracks_append henv h h0 p, ?_, ?_⟩
    · rw [← hc0, md5Append, if_neg h0]
      dsimp only
      split_ifs <;> rfl
    · rw [← hc1, md5Append, if_neg h0]
      dsimp only
      split_ifs <;> rfl

omit henv in
lemma bytes_eq (x : BitVec 32) : [x.setWidth 8, (x >>> 8).setWidth 8, (x >>> 16).setWidth 8,
    (x >>> 24).setWidth 8] = toBytes 4 x.toNat := by
  rw [toBytes_succ, toBytes_succ, toBytes_succ, toBytes_succ, toBytes, ← BitVec.shiftRight_add,
    ← BitVec.shiftRight_add]

omit henv in
/-- The length in bits. -/
lemma data_eq {pms : State} {m : List Byte} (h : Taken pms m) :
    let count (i : ℕ) : BitVec 32 := if i = 0 then pms.count0 else pms.count1
    (List.range 8).map (fun i => (count (i >>> 2) >>> ((i &&& 3) <<< 3)).setWidth 8) =
      bitLength m.length := by
  have hlow (v : ℕ) : toBytes 4 (v % 2 ^ 32) = toBytes 4 v := toBytes_congr (by norm_num)
  have hsplit : bitLength m.length = toBytes 4 pms.count0.toNat ++ toBytes 4 pms.count1.toNat := by
    rw [bitLength, toBytes_add 4 4, h.count0, h.count1, hlow, hlow]
    rfl
  rw [hsplit, ← bytes_eq, ← bytes_eq]
  rfl

omit henv in
lemma padding_eq {pms : State} {m : List Byte} (h : Taken pms m) :
    m ++ pad64.take ((((55 : BitVec 32) - pms.count0 >>> 3) &&& 63).toNat + 1) ++
      bitLength m.length = pad 64 bitLength m := by
  have hlen : (bitLength m.length).length = 8 := by simp [bitLength]
  have hpadn : (((55 : BitVec 32) - pms.count0 >>> 3) &&& 63).toNat = fillers 64 8 m.length := by
    rw [BitVec.toNat_and]
    refine (Nat.and_two_pow_sub_one_eq_mod _ 6).trans ?_
    rw [BitVec.toNat_sub, BitVec.toNat_ushiftRight, h.count0, Nat.shiftRight_eq_div_pow]
    have h55 : (55 : BitVec 32).toNat = 55 := rfl
    rw [h55, fillers]
    omega
  have hle : fillers 64 8 m.length ≤ 63 := by
    have : fillers 64 8 m.length < 64 := Nat.mod_lt _ (by norm_num)
    omega
  rw [hpadn, pad, hlen, pad64, List.take_succ_cons, List.take_replicate, Nat.min_eq_left hle]
  simp

omit henv in
lemma output_eq (v : Regs) :
    (List.range 16).map (fun i =>
      ([v.a, v.b, v.c, v.d].getD (i >>> 2) 0 >>> ((i &&& 3) <<< 3)).setWidth 8) = output v := by
  simp only [output, List.flatMap_cons, List.flatMap_nil, ← bytes_eq]
  rfl

/-- `md5_finish` writes the digest of what the state has been given. -/
theorem md5Finish_eq {pms : State} {m : List Byte} (h : Taken pms m) :
    (md5Finish env pms).1 = digest m := by
  have hdata := data_eq h
  have h1 := taken_append henv h
    (x := pad64.take ((((55 : BitVec 32) - pms.count0 >>> 3) &&& 63).toNat + 1))
    ((List.length_take_le' _ _).trans_lt (by simp [pad64])) env.pad
  have h2 := taken_append henv h1 (x := bitLength m.length) (by simp [bitLength]) env.data
  simp only [md5Finish]
  rw [output_eq, hdata, h2.tracks.state, padding_eq h, digest]

/-- Pieces of a message, each with its address. -/
lemma taken_foldl {pms : State} {m : List Byte} (h : Taken pms m) (xs : List (ℕ × List Byte))
    (hxs : ∀ x ∈ xs, x.2.length < 2 ^ 28) :
    Taken (xs.foldl (fun pms x => md5Append env pms x.1 x.2) pms)
      (m ++ (xs.map Prod.snd).flatten) := by
  induction xs generalizing pms m with
  | nil => simpa using h
  | cons x xs ih =>
    rw [List.foldl_cons, List.map_cons, List.flatten_cons, ← List.append_assoc]
    exact ih (taken_append henv h (hxs x (by simp)) x.1) fun y hy => hxs y (by simp [hy])

/-- **A message in pieces.** Whatever the pieces and their addresses, for every build that suits
the machine, the output is the MD5 digest of the message. -/
theorem md5_of_pieces (pms : State) (xs : List (ℕ × List Byte))
    (hxs : ∀ x ∈ xs, x.2.length < 2 ^ 28) :
    (md5Finish env (xs.foldl (fun pms x => md5Append env pms x.1 x.2) (md5Init pms))).1 =
      digest (xs.map Prod.snd).flatten :=
  md5Finish_eq henv (taken_foldl henv (taken_init pms) xs hxs)

end

/-- A build that finds out the byte order when it runs, on a machine that has the low byte
first. -/
def probing : Env := ⟨.unknown, true, 0, 0, 0⟩

def blank : State := ⟨0, 0, h0, fun _ => 0⟩

theorem md5_of_pieces_unaligned :
    (md5Finish probing ([(1, [0x61]), (2, [0x62, 0x63])].foldl
      (fun pms x => md5Append probing pms x.1 x.2) (md5Init blank))).1 =
        digest [0x61, 0x62, 0x63] :=
  md5_of_pieces (show Suits probing from trivial) blank [(1, [0x61]), (2, [0x62, 0x63])] (by decide)

/-! ### Collisions -/

lemma output_injective {h h' : Regs} (heq : output h = output h') : h = h' := by
  have hword : ∀ x y : BitVec 32, toBytes 4 x.toNat = toBytes 4 y.toNat → x = y := by
    intro x y hxy
    exact BitVec.eq_of_toNat_eq (toBytes_injective x.isLt y.isLt hxy)
  simp only [output, List.flatMap_cons, List.flatMap_nil, List.append_nil] at heq
  obtain ⟨ha, heq⟩ := List.append_inj heq (by simp)
  obtain ⟨hb, heq⟩ := List.append_inj heq (by simp)
  obtain ⟨hc, hd⟩ := List.append_inj heq (by simp)
  cases h
  cases h'
  simp only [Regs.mk.injEq]
  exact ⟨hword _ _ ha, hword _ _ hb, hword _ _ hc, hword _ _ hd⟩

/-- **Two messages with one digest are one message, or lead to a collision of `md5_process`**
with two blocks and states that occur on the way. -/
theorem eq_or_meet_of_md5_eq {env env' : Env} (henv : Suits env) (henv' : Suits env')
    (pms pms' : State) (xs ys : List (ℕ × List Byte))
    (hxs : ∀ x ∈ xs, x.2.length < 2 ^ 28) (hys : ∀ y ∈ ys, y.2.length < 2 ^ 28)
    (hx : (xs.map Prod.snd).flatten.length < 2 ^ 61)
    (hy : (ys.map Prod.snd).flatten.length < 2 ^ 61)
    (h : (md5Finish env (xs.foldl (fun pms x => md5Append env pms x.1 x.2) (md5Init pms))).1 =
      (md5Finish env' (ys.foldl (fun pms x => md5Append env' pms x.1 x.2) (md5Init pms'))).1) :
    (xs.map Prod.snd).flatten = (ys.map Prod.snd).flatten ∨
      Meet compress 64 h0 (pad 64 bitLength (xs.map Prod.snd).flatten)
        (pad 64 bitLength (ys.map Prod.snd).flatten) := by
  rw [md5Finish_eq henv (taken_foldl henv (taken_init pms) xs hxs),
    md5Finish_eq henv' (taken_foldl henv' (taken_init pms') ys hys)] at h
  rw [or_iff_not_imp_left]
  intro hne
  refine meet_of_pad (by norm_num) (w := 8) (fun l => by simp [bitLength]) (by norm_num)
    (fun hl => ?_) hne (output_injective h)
  have := toBytes_injective (by omega) (by omega) hl
  omega

/-- Two blocks, from four numbers. -/
def twin (i j k l : ℕ) : List Byte :=
  (toBytes 32 i).reverse ++ (toBytes 32 j).reverse ++ (toBytes 32 k).reverse ++
    (toBytes 32 l).reverse

/-- Two different messages of two blocks with one digest: their blocks meet. -/
theorem eq_or_meet_of_md5_eq_twins :
    let x := twin 0xd131dd02c5e6eec4693d9a0698aff95c2fcab58712467eab4004583eb8fb7f89
      0x55ad340609f4b30283e488832571415a085125e8f7cdc99fd91dbdf280373c5b
      0xd8823e3156348f5bae6dacd436c919c6dd53e2b487da03fd02396306d248cda0
      0xe99f33420f577ee8ce54b67080a80d1ec69821bcb6a8839396f9652b6ff72a70
    let y := twin 0xd131dd02c5e6eec4693d9a0698aff95c2fcab50712467eab4004583eb8fb7f89
      0x55ad340609f4b30283e4888325f1415a085125e8f7cdc99fd91dbd7280373c5b
      0xd8823e3156348f5bae6dacd436c919c6dd53e23487da03fd02396306d248cda0
      0xe99f33420f577ee8ce54b67080280d1ec69821bcb6a8839396f965ab6ff72a70
    Meet compress 64 h0 (pad 64 bitLength x) (pad 64 bitLength y) := by
  intro x y
  have henv : Suits probing := trivial
  have h := eq_or_meet_of_md5_eq henv henv blank blank
    [(0, x)] [(0, y)] (by decide +kernel) (by decide +kernel) (by decide +kernel)
    (by decide +kernel) (by decide +kernel)
  simp only [List.map_cons, List.map_nil, List.flatten_cons, List.flatten_nil,
    List.append_nil] at h
  exact h.resolve_left (by decide +kernel)

end Rtes.Md5
