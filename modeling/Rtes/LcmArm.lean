import Rtes.LcmGcf
import Rtes.Listing

/-!
The hand-written ARM routines of `lcm/lcmarm.s`.

Instructions are numbered in the order of the file, and these numbers stand for their addresses.
Memory is accessed in words only, so it is a word for each address. `divide` and `remain` are
left out, as nothing in the file calls them.
-/

namespace Rtes.LcmArm

open StateTransition Rtes.LcmGcf Rtes.Listing

inductive Reg
  | r0
  | r1
  | r2
  | r3
  | r4
  | fp
  | ip
  | sp
  | lr
  | pc

structure State where
  r0 : Word
  r1 : Word
  r2 : Word
  r3 : Word
  r4 : Word
  fp : Word
  ip : Word
  sp : Word
  lr : Word
  flags : Flags
  mem : Word → Word
  pc : ℕ

/-- Read as an operand, `pc` is two instructions ahead. -/
def State.get (s : State) : Reg → Word
  | .r0 => s.r0
  | .r1 => s.r1
  | .r2 => s.r2
  | .r3 => s.r3
  | .r4 => s.r4
  | .fp => s.fp
  | .ip => s.ip
  | .sp => s.sp
  | .lr => s.lr
  | .pc => BitVec.ofNat 32 (s.pc + 2)

def State.set (s : State) (v : Word) : Reg → State
  | .r0 => { s with r0 := v }
  | .r1 => { s with r1 := v }
  | .r2 => { s with r2 := v }
  | .r3 => { s with r3 := v }
  | .r4 => { s with r4 := v }
  | .fp => { s with fp := v }
  | .ip => { s with ip := v }
  | .sp => { s with sp := v }
  | .lr => { s with lr := v }
  | .pc => { s with pc := v.toNat }

/-- The instructions that the routines use. The last is `bl` to `__aeabi_idiv`, which is not in
the file. -/
inductive Instr
  | mov (rd rm : Reg)
  | addImm (rd rn : Reg) (imm : Word)
  | subImm (rd rn : Reg) (imm : Word)
  | sub (c : Cond) (rd rn rm : Reg)
  | rsb (rd rn rm : Reg)
  | mul (rd rm rs : Reg)
  | cmp (rn rm : Reg)
  | ldr (rd rn : Reg) (back : Word)
  | str (rd rn : Reg) (back : Word)
  | stmfd (regs : List Reg)
  | ldmfd (regs : List Reg)
  | push (regs : List Reg)
  | pop (regs : List Reg)
  | b (c : Cond) (target : ℕ)
  | bl (target : ℕ)
  | bx (rm : Reg)
  | blIdiv

/-- Words stored from `addr` on, the lowest register first. -/
def storeMultiple (mem : Word → Word) : Word → List Word → Word → Word
  | _, [] => mem
  | addr, v :: vs => Function.update (storeMultiple mem (addr + 4) vs) addr v

def loadMultiple (mem : Word → Word) : Word → List Reg → State → State
  | _, [], s => s
  | addr, r :: rs, s => loadMultiple mem (addr + 4) rs (s.set (mem addr) r)

/-- One instruction. `idiv` is what `__aeabi_idiv` makes of the state it is called in. -/
def exec (idiv : State → State) (i : Instr) (s : State) : State :=
  let s' := { s with pc := s.pc + 1 }
  match i with
  | .mov rd rm => s'.set (s.get rm) rd
  | .addImm rd rn imm => s'.set (s.get rn + imm) rd
  | .subImm rd rn imm => s'.set (s.get rn - imm) rd
  | .sub c rd rn rm => if s.flags.holds c then s'.set (s.get rn - s.get rm) rd else s'
  | .rsb rd rn rm => s'.set (s.get rm - s.get rn) rd
  | .mul rd rm rs => s'.set (s.get rm * s.get rs) rd
  | .cmp rn rm => { s' with flags := .compare (s.get rn) (s.get rm) }
  | .ldr rd rn back => s'.set (s.mem (s.get rn - back)) rd
  | .str rd rn back => { s' with mem := Function.update s.mem (s.get rn - back) (s.get rd) }
  | .stmfd regs | .push regs =>
    let base := s.sp - 4 * BitVec.ofNat 32 regs.length
    { s' with mem := storeMultiple s.mem base (regs.map s.get), sp := base }
  | .ldmfd regs => loadMultiple s.mem s.sp regs s'
  | .pop regs =>
    loadMultiple s.mem s.sp regs { s' with sp := s.sp + 4 * BitVec.ofNat 32 regs.length }
  | .b c target => if s.flags.holds c then { s with pc := target } else s'
  | .bl target => { s with lr := BitVec.ofNat 32 (s.pc + 1), pc := target }
  | .bx rm => { s with pc := (s.get rm).toNat }
  | .blIdiv => idiv { s' with lr := BitVec.ofNat 32 (s.pc + 1) }

def LOOPBDY : ℕ := 7
def ELSBR : ℕ := 16
def WHLCHK : ℕ := 20

def gcfa : List Instr := [
  .mov .ip .sp,
  .stmfd [.fp, .ip, .lr, .pc],
  .subImm .fp .ip 4,
  .subImm .sp .sp 8,
  .str .r0 .fp 16,
  .str .r1 .fp 20,
  .b .al WHLCHK,
  -- LOOPBDY
  .ldr .r2 .fp 16,
  .ldr .r3 .fp 20,
  .cmp .r2 .r3,
  .b .le ELSBR,
  .ldr .r3 .fp 16,
  .ldr .r2 .fp 20,
  .rsb .r3 .r2 .r3,
  .str .r3 .fp 16,
  .b .al WHLCHK,
  -- ELSBR
  .ldr .r3 .fp 20,
  .ldr .r2 .fp 16,
  .rsb .r3 .r2 .r3,
  .str .r3 .fp 20,
  -- WHLCHK
  .ldr .r2 .fp 16,
  .ldr .r3 .fp 20,
  .cmp .r2 .r3,
  .b .ne LOOPBDY,
  .ldr .r3 .fp 16,
  .mov .r0 .r3,
  .subImm .sp .fp 12,
  .ldmfd [.fp, .sp, .lr],
  .bx .lr]

def GCFA1 : ℕ := 29
def GCFA1R : ℕ := 33
def LESS : ℕ := 40
def END : ℕ := 42

def gcfa1 : List Instr := [
  .mov .ip .sp,
  .stmfd [.fp, .ip, .lr, .pc],
  .subImm .fp .ip 4,
  .subImm .sp .sp 8,
  -- gcfa1r
  .str .r0 .fp 16,
  .str .r1 .fp 20,
  .cmp .r0 .r1,
  .b .eq END,
  .b .lt LESS,
  .sub .al .r0 .r0 .r1,
  .b .al GCFA1R,
  -- LESS
  .sub .al .r1 .r1 .r0,
  .b .al GCFA1R,
  -- END
  .subImm .sp .fp 12,
  .ldmfd [.fp, .sp, .lr],
  .bx .lr]

def GCFA2 : ℕ := 45
def GCFA2R : ℕ := 49

def gcfa2 : List Instr := [
  .mov .ip .sp,
  .stmfd [.fp, .ip, .lr, .pc],
  .subImm .fp .ip 4,
  .subImm .sp .sp 8,
  -- gcfa2r
  .str .r0 .fp 16,
  .str .r1 .fp 20,
  .cmp .r0 .r1,
  .sub .gt .r0 .r0 .r1,
  .sub .lt .r1 .r1 .r0,
  .b .ne GCFA2R,
  -- END2
  .subImm .sp .fp 12,
  .ldmfd [.fp, .sp, .lr],
  .bx .lr]

def LCMA : ℕ := 58

def lcma : List Instr := [
  .push [.r4, .fp, .lr],
  .addImm .fp .sp 8,
  .subImm .sp .sp 20,
  .str .r0 .fp 24,
  .str .r1 .fp 28,
  .ldr .r3 .fp 24,
  .ldr .r2 .fp 28,
  .mul .r4 .r2 .r3,
  .ldr .r1 .fp 28,
  .ldr .r0 .fp 24,
  .bl 0,
  .mov .r3 .r0,
  .mov .r1 .r3,
  .mov .r0 .r4,
  .blIdiv,
  .mov .r3 .r0,
  .str .r3 .fp 16,
  .ldr .r3 .fp 16,
  .mov .r0 .r3,
  .subImm .sp .fp 8,
  .pop [.r4, .fp, .pc]]

def listing : List Instr := gcfa ++ gcfa1 ++ gcfa2 ++ lcma

def next (idiv : State → State) (s : State) : Option State :=
  (listing[s.pc]?).map fun i => exec idiv i s

/-! ### Calls -/

section Steps

variable {idiv : State → State} {s t : State}

lemma next_of_fetch {i : Instr} (h : listing[s.pc]? = some i) : exec idiv i s ∈ next idiv s := by
  unfold next
  rw [h]
  rfl

lemma next_branch {c : Cond} {target : ℕ} (h : listing[s.pc]? = some (.b c target))
    (hc : s.flags.holds c = true) : { s with pc := target } ∈ next idiv s := by
  have hexec : exec idiv (.b c target) s = { s with pc := target } := if_pos hc
  rw [← hexec]
  exact next_of_fetch h

lemma next_fall {c : Cond} {target : ℕ} (h : listing[s.pc]? = some (.b c target))
    (hc : s.flags.holds c = false) : { s with pc := s.pc + 1 } ∈ next idiv s := by
  have hexec : exec idiv (.b c target) s = { s with pc := s.pc + 1 } :=
    if_neg (by rw [hc]; exact Bool.false_ne_true)
  rw [← hexec]
  exact next_of_fetch h

lemma next_sub {c : Cond} {rd rn rm : Reg} (h : listing[s.pc]? = some (.sub c rd rn rm))
    (hc : s.flags.holds c = true) :
    ({ s with pc := s.pc + 1 } : State).set (s.get rn - s.get rm) rd ∈ next idiv s := by
  have hexec : exec idiv (.sub c rd rn rm) s = _ := if_pos hc
  rw [← hexec]
  exact next_of_fetch h

lemma next_skip {c : Cond} {rd rn rm : Reg} (h : listing[s.pc]? = some (.sub c rd rn rm))
    (hc : s.flags.holds c = false) : { s with pc := s.pc + 1 } ∈ next idiv s := by
  have hexec : exec idiv (.sub c rd rn rm) s = { s with pc := s.pc + 1 } :=
    if_neg (by rw [hc]; exact Bool.false_ne_true)
  rw [← hexec]
  exact next_of_fetch h

/-- The cells of a frame, below its `fp`. -/
def own : List Word := [0, 4, 8, 12, 16, 20]

/-- Inside one of the three routines, which was called in the state `s`. -/
structure Frame (s t : State) : Prop where
  fp : t.fp = s.sp - 4
  oldFp : t.mem (t.fp - 12) = s.fp
  oldSp : t.mem (t.fp - 8) = s.sp
  oldLr : t.mem (t.fp - 4) = s.lr
  r4 : t.r4 = s.r4
  kept : ∀ x, (∀ k ∈ own, x ≠ t.fp - k) → t.mem x = s.mem x

lemma Frame.congr (h : Frame s t) {t' : State} (hmem : t'.mem = t.mem) (hfp : t'.fp = t.fp)
    (hr4 : t'.r4 = t.r4) : Frame s t' := by
  refine ⟨hfp.trans h.fp, ?_, ?_, ?_, hr4.trans h.r4, ?_⟩
  · rw [hmem, hfp, h.oldFp]
  · rw [hmem, hfp, h.oldSp]
  · rw [hmem, hfp, h.oldLr]
  · rw [hmem, hfp]
    exact h.kept

/-- Storing a local variable. -/
lemma Frame.store (h : Frame s t) {t' : State} {k v : Word} (hk : k = 16 ∨ k = 20)
    (hmem : t'.mem = Function.update t.mem (t.fp - k) v) (hfp : t'.fp = t.fp)
    (hr4 : t'.r4 = t.r4) : Frame s t' := by
  have hother : ∀ j, j ≠ k → t'.mem (t.fp - j) = t.mem (t.fp - j) := by
    intro j hj
    rw [hmem, Function.update_of_ne (sub_ne hj)]
  refine ⟨hfp.trans h.fp, ?_, ?_, ?_, hr4.trans h.r4, fun x hx => ?_⟩
  · rw [hfp, hother 12 (by rcases hk with rfl | rfl <;> decide), h.oldFp]
  · rw [hfp, hother 8 (by rcases hk with rfl | rfl <;> decide), h.oldSp]
  · rw [hfp, hother 4 (by rcases hk with rfl | rfl <;> decide), h.oldLr]
  · rw [hfp] at hx
    rw [hmem, Function.update_of_ne (hx k (by rcases hk with rfl | rfl <;> decide))]
    exact h.kept x hx

/-- Back from a call in the state `s`, with the result `r`. -/
structure Back (s : State) (r : Word) (t : State) : Prop where
  pc : t.pc = s.lr.toNat
  r0 : t.r0 = r
  r4 : t.r4 = s.r4
  fp : t.fp = s.fp
  sp : t.sp = s.sp
  kept : ∀ x, (∀ k ∈ own, x ≠ s.sp - 4 - k) → t.mem x = s.mem x

/-- What `stmfd` stores on top of the stack. -/
lemma storeMultiple_four (mem : Word → Word) (x a b c d : Word) :
    storeMultiple mem (x - 16) [a, b, c, d] = Function.update (Function.update (Function.update
      (Function.update mem (x - 4) d) (x - 8) c) (x - 12) b) (x - 16) a := by
  have h12 : x - 16 + 4 = x - 12 := sub_add x 16 4
  have h8 : x - 12 + 4 = x - 8 := sub_add x 12 4
  have h4 : x - 8 + 4 = x - 4 := sub_add x 8 4
  simp only [storeMultiple, h12, h8, h4]

/-- The first four instructions of each routine. -/
lemma prologue (idiv : State → State) (h0 : listing[s.pc]? = some (.mov .ip .sp))
    (h1 : listing[s.pc + 1]? = some (.stmfd [.fp, .ip, .lr, .pc]))
    (h2 : listing[s.pc + 2]? = some (.subImm .fp .ip 4))
    (h3 : listing[s.pc + 3]? = some (.subImm .sp .sp 8)) :
    ∃ t, Reaches (next idiv) s t ∧ Frame s t ∧ t.pc = s.pc + 4 ∧ t.r0 = s.r0 ∧ t.r1 = s.r1 := by
  let mem := storeMultiple s.mem (s.sp - 16) [s.fp, s.sp, s.lr, BitVec.ofNat 32 (s.pc + 1 + 2)]
  have hmem : mem = _ :=
    storeMultiple_four s.mem s.sp s.fp s.sp s.lr (BitVec.ofNat 32 (s.pc + 1 + 2))
  have hfp : ∀ k, s.sp - 4 - k = s.sp - (4 + k) := sub_sub s.sp 4
  let t₁ : State := { s with ip := s.sp, pc := s.pc + 1 }
  let t₂ : State := { t₁ with sp := s.sp - 16, mem, pc := s.pc + 2 }
  let t₃ : State := { t₂ with fp := s.sp - 4, pc := s.pc + 3 }
  let t₄ : State := { t₃ with sp := s.sp - 16 - 8, pc := s.pc + 4 }
  have e₁ : t₁ ∈ next idiv s := next_of_fetch (i := .mov .ip .sp) h0
  have e₂ : t₂ ∈ next idiv t₁ := next_of_fetch (i := .stmfd [.fp, .ip, .lr, .pc]) h1
  have e₃ : t₃ ∈ next idiv t₂ := next_of_fetch (i := .subImm .fp .ip 4) h2
  have e₄ : t₄ ∈ next idiv t₃ := next_of_fetch (i := .subImm .sp .sp 8) h3
  refine ⟨t₄, .head e₁ (.head e₂ (.head e₃ (.single e₄))),
    ⟨rfl, ?_, ?_, ?_, rfl, fun x hx => ?_⟩, rfl, rfl, rfl⟩
  · change mem (s.sp - 4 - 12) = s.fp
    rw [hmem, hfp]
    exact Function.update_self ..
  · change mem (s.sp - 4 - 8) = s.sp
    rw [hmem, hfp, Function.update_of_ne (sub_ne (by decide))]
    exact Function.update_self ..
  · change mem (s.sp - 4 - 4) = s.lr
    rw [hmem, hfp, Function.update_of_ne (sub_ne (by decide)),
      Function.update_of_ne (sub_ne (by decide))]
    exact Function.update_self ..
  · change mem x = s.mem x
    have hne : ∀ k ∈ own, x ≠ s.sp - (4 + k) := fun k hk => hfp k ▸ hx k hk
    have h16 : x ≠ s.sp - 16 := hne 12 (by decide)
    have h12 : x ≠ s.sp - 12 := hne 8 (by decide)
    have h8 : x ≠ s.sp - 8 := hne 4 (by decide)
    have h4 : x ≠ s.sp - 4 := hne 0 (by decide)
    rw [hmem, Function.update_of_ne h16, Function.update_of_ne h12, Function.update_of_ne h8,
      Function.update_of_ne h4]

/-- Their last three. -/
lemma epilogue (idiv : State → State) (h : Frame s t)
    (h0 : listing[t.pc]? = some (.subImm .sp .fp 12))
    (h1 : listing[t.pc + 1]? = some (.ldmfd [.fp, .sp, .lr]))
    (h2 : listing[t.pc + 2]? = some (.bx .lr)) :
    ∃ t', Back s t.r0 t' ∧ Reaches₁ (next idiv) t t' := by
  have h8 : t.fp - 12 + 4 = t.fp - 8 := sub_add t.fp 12 4
  have h4 : t.fp - 8 + 4 = t.fp - 4 := sub_add t.fp 8 4
  have hlr : t.mem (t.fp - 12 + 4 + 4) = s.lr := by rw [h8, h4, h.oldLr]
  have hsp : t.mem (t.fp - 12 + 4) = s.sp := by rw [h8, h.oldSp]
  let t₁ : State := { t with sp := t.fp - 12, pc := t.pc + 1 }
  let t₂ : State := { t with
    fp := t.mem (t.fp - 12)
    sp := t.mem (t.fp - 12 + 4)
    lr := t.mem (t.fp - 12 + 4 + 4)
    pc := t.pc + 2 }
  let t₃ : State := { t₂ with pc := (t.mem (t.fp - 12 + 4 + 4)).toNat }
  have e₁ : t₁ ∈ next idiv t := next_of_fetch (i := .subImm .sp .fp 12) h0
  have e₂ : t₂ ∈ next idiv t₁ := next_of_fetch (i := .ldmfd [.fp, .sp, .lr]) h1
  have e₃ : t₃ ∈ next idiv t₂ := next_of_fetch (i := .bx .lr) h2
  refine ⟨t₃, ⟨congrArg BitVec.toNat hlr, rfl, h.r4, h.oldFp, hsp, fun x hx => ?_⟩,
    .head' e₁ (.head e₂ (.single e₃))⟩
  rw [← h.fp] at hx
  exact h.kept x hx

end Steps

/-! ### The three routines -/

section Routines

variable {idiv : State → State} {s t : State} {a b : Word}

/-- At `WHLCHK`, with the variables `a` and `b` of the C code. -/
structure Head (s : State) (x : Word × Word) (t : State) : Prop where
  pc : t.pc = WHLCHK
  frame : Frame s t
  a : t.mem (t.fp - 16) = x.1
  b : t.mem (t.fp - 20) = x.2

/-- The test of the loop. -/
lemma gcfa_check (hpc : t.pc = WHLCHK) : Reaches₁ (next idiv) t { t with
    r2 := t.mem (t.fp - 16), r3 := t.mem (t.fp - 20),
    flags := .compare (t.mem (t.fp - 16)) (t.mem (t.fp - 20)), pc := 23 } := by
  cases t
  cases hpc
  exact reaches₁_of_steps (k := 2) rfl

/-- The test of the `if`. -/
lemma gcfa_body (hpc : t.pc = WHLCHK) (hne : t.mem (t.fp - 16) ≠ t.mem (t.fp - 20)) :
    Reaches₁ (next idiv) t { t with
      r2 := t.mem (t.fp - 16), r3 := t.mem (t.fp - 20),
      flags := .compare (t.mem (t.fp - 16)) (t.mem (t.fp - 20)), pc := 10 } := by
  refine (gcfa_check hpc).trans (.head (next_branch rfl ?_) (reaches₁_of_steps (k := 2) rfl))
  simpa using hne

lemma gcfa_greater (hpc : t.pc = WHLCHK) (hne : t.mem (t.fp - 16) ≠ t.mem (t.fp - 20))
    (hlt : (t.mem (t.fp - 20)).slt (t.mem (t.fp - 16)) = true) :
    Reaches₁ (next idiv) t { t with
      r2 := t.mem (t.fp - 20), r3 := t.mem (t.fp - 16) - t.mem (t.fp - 20),
      flags := .compare (t.mem (t.fp - 16)) (t.mem (t.fp - 20)),
      mem := Function.update t.mem (t.fp - 16) (t.mem (t.fp - 16) - t.mem (t.fp - 20)),
      pc := WHLCHK } := by
  refine (gcfa_body hpc hne).trans (.head (next_fall rfl ?_) (reaches₁_of_steps (k := 4) rfl))
  simpa using hlt

lemma gcfa_less (hpc : t.pc = WHLCHK) (hne : t.mem (t.fp - 16) ≠ t.mem (t.fp - 20))
    (hlt : (t.mem (t.fp - 20)).slt (t.mem (t.fp - 16)) = false) :
    Reaches₁ (next idiv) t { t with
      r2 := t.mem (t.fp - 16), r3 := t.mem (t.fp - 20) - t.mem (t.fp - 16),
      flags := .compare (t.mem (t.fp - 16)) (t.mem (t.fp - 20)),
      mem := Function.update t.mem (t.fp - 20) (t.mem (t.fp - 20) - t.mem (t.fp - 16)),
      pc := WHLCHK } := by
  refine (gcfa_body hpc hne).trans (.head (next_branch rfl ?_) (reaches₁_of_steps (k := 3) rfl))
  simpa using hlt

lemma gcfa_equal (hpc : t.pc = WHLCHK) (heq : t.mem (t.fp - 16) = t.mem (t.fp - 20)) :
    Reaches₁ (next idiv) t { t with
      r0 := t.mem (t.fp - 16), r2 := t.mem (t.fp - 16), r3 := t.mem (t.fp - 16),
      flags := .compare (t.mem (t.fp - 16)) (t.mem (t.fp - 20)), pc := 26 } := by
  refine (gcfa_check hpc).trans (.head (next_fall rfl ?_) (reaches₁_of_steps (k := 1) rfl))
  simpa using heq

lemma gcfa_carries (idiv : State → State) (s : State) :
    Carries (next idiv) gcfcTurn (Head s) (Back s) := by
  constructor
  · rintro ⟨a, b⟩ x' t ⟨hpc, hframe, rfl, rfl⟩ hturn
    rcases gcfcTurn_inl hturn with ⟨hne, hlt, rfl⟩ | ⟨hne, hlt, rfl⟩
    · refine ⟨_, ?_, gcfa_greater hpc hne hlt⟩
      refine ⟨rfl, hframe.store (Or.inl rfl) rfl rfl rfl, ?_, ?_⟩
      · exact Function.update_self ..
      · exact Function.update_of_ne (sub_ne (by decide)) ..
    · refine ⟨_, ?_, gcfa_less hpc hne hlt⟩
      refine ⟨rfl, hframe.store (Or.inr rfl) rfl rfl rfl, ?_, ?_⟩
      · exact Function.update_of_ne (sub_ne (by decide)) ..
      · exact Function.update_self ..
  · rintro ⟨a, b⟩ r t ⟨hpc, hframe, rfl, rfl⟩ hturn
    obtain ⟨heq, rfl⟩ := gcfcTurn_inr hturn
    have hframe' : Frame s { t with
        r0 := t.mem (t.fp - 16), r2 := t.mem (t.fp - 16), r3 := t.mem (t.fp - 16),
        flags := .compare (t.mem (t.fp - 16)) (t.mem (t.fp - 20)), pc := 26 } :=
      hframe.congr rfl rfl rfl
    obtain ⟨t', hback, hreach⟩ := epilogue idiv hframe' rfl rfl rfl
    exact ⟨t', hback, (gcfa_equal hpc heq).trans hreach⟩

/-- At the head of the loop of `gcfa1` or `gcfa2`, which keep the variables in registers. -/
structure RegHead (pc : ℕ) (s : State) (x : Word × Word) (t : State) : Prop where
  pc : t.pc = pc
  frame : Frame s t
  a : t.r0 = x.1
  b : t.r1 = x.2

/-- The state after the registers are spilled and compared. -/
def spilled (t : State) : State := { t with
  mem := Function.update (Function.update t.mem (t.fp - 16) t.r0) (t.fp - 20) t.r1
  flags := .compare t.r0 t.r1
  pc := t.pc + 3 }

lemma spilled_a (t : State) : (spilled t).mem (t.fp - 16) = t.r0 := by
  dsimp only [spilled]
  rw [Function.update_of_ne (sub_ne (by decide)), Function.update_self]

lemma spilled_b (t : State) : (spilled t).mem (t.fp - 20) = t.r1 := Function.update_self ..

lemma Frame.spilled (h : Frame s t) : Frame s (spilled t) := by
  have h16 : Frame s { t with mem := Function.update t.mem (t.fp - 16) t.r0 } :=
    h.store (Or.inl rfl) rfl rfl rfl
  exact h16.store (Or.inr rfl) rfl rfl rfl

lemma gcfa1_spill (hpc : t.pc = GCFA1R) : Reaches₁ (next idiv) t (spilled t) := by
  cases t
  cases hpc
  exact reaches₁_of_steps (k := 2) rfl

lemma gcfa1_test (hpc : t.pc = GCFA1R) (hne : t.r0 ≠ t.r1) :
    Reaches₁ (next idiv) t { spilled t with pc := 37 } := by
  refine (gcfa1_spill hpc).tail ?_
  cases t
  cases hpc
  exact next_fall rfl (by simpa [spilled] using hne)

lemma gcfa1_greater (hpc : t.pc = GCFA1R) (hne : t.r0 ≠ t.r1) (hlt : t.r1.slt t.r0 = true) :
    Reaches₁ (next idiv) t { spilled t with r0 := t.r0 - t.r1, pc := GCFA1R } := by
  refine (gcfa1_test hpc hne).trans (.head (next_fall rfl ?_) (reaches₁_of_steps (k := 1) rfl))
  simpa [spilled] using slt_asymm hlt

lemma gcfa1_less (hpc : t.pc = GCFA1R) (hne : t.r0 ≠ t.r1) (hlt : t.r1.slt t.r0 = false) :
    Reaches₁ (next idiv) t { spilled t with r1 := t.r1 - t.r0, pc := GCFA1R } := by
  refine (gcfa1_test hpc hne).trans (.head (next_branch rfl ?_) (reaches₁_of_steps (k := 1) rfl))
  simpa [spilled] using slt_of_not_slt hne hlt

lemma gcfa1_equal (hpc : t.pc = GCFA1R) (heq : t.r0 = t.r1) :
    Reaches₁ (next idiv) t { spilled t with pc := END } := by
  refine (gcfa1_spill hpc).tail ?_
  cases t
  cases hpc
  exact next_branch rfl (by simpa [spilled] using heq)

lemma gcfa2_spill (hpc : t.pc = GCFA2R) : Reaches₁ (next idiv) t (spilled t) := by
  cases t
  cases hpc
  exact reaches₁_of_steps (k := 2) rfl

lemma gcfa2_greater (hpc : t.pc = GCFA2R) (hne : t.r0 ≠ t.r1) (hlt : t.r1.slt t.r0 = true) :
    Reaches₁ (next idiv) t { spilled t with r0 := t.r0 - t.r1, pc := GCFA2R } := by
  refine (gcfa2_spill hpc).trans ?_
  cases t
  cases hpc
  refine .head (next_sub rfl ?_) (.head (next_skip rfl ?_) (.single (next_branch rfl ?_)))
  · simpa [spilled] using hlt
  · exact (holds_lt ..).trans (slt_asymm hlt)
  · exact (holds_ne ..).trans (by simpa using hne)

lemma gcfa2_less (hpc : t.pc = GCFA2R) (hne : t.r0 ≠ t.r1) (hlt : t.r1.slt t.r0 = false) :
    Reaches₁ (next idiv) t { spilled t with r1 := t.r1 - t.r0, pc := GCFA2R } := by
  refine (gcfa2_spill hpc).trans ?_
  cases t
  cases hpc
  refine .head (next_skip rfl ?_) (.head (next_sub rfl ?_) (.single (next_branch rfl ?_)))
  · exact (holds_gt ..).trans hlt
  · exact (holds_lt ..).trans (slt_of_not_slt hne hlt)
  · exact (holds_ne ..).trans (by simpa using hne)

lemma gcfa2_equal (hpc : t.pc = GCFA2R) (heq : t.r0 = t.r1) :
    Reaches₁ (next idiv) t { spilled t with pc := 55 } := by
  have hirrefl : t.r1.slt t.r1 = false := by simp [BitVec.slt]
  have hgt : (Flags.compare t.r0 t.r1).holds .gt = false := by rw [holds_gt, heq, hirrefl]
  have hlt : (Flags.compare t.r0 t.r1).holds .lt = false := by rw [holds_lt, heq, hirrefl]
  have hne : (Flags.compare t.r0 t.r1).holds .ne = false := by simpa using heq
  refine (gcfa2_spill hpc).trans ?_
  cases t
  cases hpc
  exact .head (next_skip rfl hgt) (.head (next_skip rfl hlt) (.single (next_fall rfl hne)))

/-- A routine that spills its registers at the head of its loop. -/
lemma spill_carries {pc exit : ℕ}
    (hgreater : ∀ t : State, t.pc = pc → t.r0 ≠ t.r1 → t.r1.slt t.r0 = true →
      Reaches₁ (next idiv) t { spilled t with r0 := t.r0 - t.r1, pc := pc })
    (hless : ∀ t : State, t.pc = pc → t.r0 ≠ t.r1 → t.r1.slt t.r0 = false →
      Reaches₁ (next idiv) t { spilled t with r1 := t.r1 - t.r0, pc := pc })
    (hequal : ∀ t : State, t.pc = pc → t.r0 = t.r1 →
      Reaches₁ (next idiv) t { spilled t with pc := exit })
    (h0 : listing[exit]? = some (.subImm .sp .fp 12))
    (h1 : listing[exit + 1]? = some (.ldmfd [.fp, .sp, .lr]))
    (h2 : listing[exit + 2]? = some (.bx .lr)) (s : State) :
    Carries (next idiv) gcfcTurn (RegHead pc s) (Back s) := by
  constructor
  · rintro ⟨a, b⟩ x' t ⟨hpc, hframe, rfl, rfl⟩ hturn
    rcases gcfcTurn_inl hturn with ⟨hne, hlt, rfl⟩ | ⟨hne, hlt, rfl⟩
    · refine ⟨_, ?_, hgreater t hpc hne hlt⟩
      exact ⟨rfl, hframe.spilled.congr rfl rfl rfl, rfl, rfl⟩
    · refine ⟨_, ?_, hless t hpc hne hlt⟩
      exact ⟨rfl, hframe.spilled.congr rfl rfl rfl, rfl, rfl⟩
  · rintro ⟨a, b⟩ r t ⟨hpc, hframe, rfl, rfl⟩ hturn
    obtain ⟨heq, rfl⟩ := gcfcTurn_inr hturn
    have hframe' : Frame s { spilled t with pc := exit } := hframe.spilled.congr rfl rfl rfl
    obtain ⟨t', hback, hreach⟩ := epilogue idiv hframe' h0 h1 h2
    exact ⟨t', hback, (hequal t hpc heq).trans hreach⟩

lemma gcfa1_carries (idiv : State → State) (s : State) :
    Carries (next idiv) gcfcTurn (RegHead GCFA1R s) (Back s) :=
  spill_carries (fun _ => gcfa1_greater) (fun _ => gcfa1_less) (fun _ => gcfa1_equal) rfl rfl rfl s

lemma gcfa2_carries (idiv : State → State) (s : State) :
    Carries (next idiv) gcfcTurn (RegHead GCFA2R s) (Back s) :=
  spill_carries (fun _ => gcfa2_greater) (fun _ => gcfa2_less) (fun _ => gcfa2_equal) rfl rfl rfl s

/-! ### Entering them -/

lemma gcfa_enter (idiv : State → State) (hpc : s.pc = 0) :
    ∃ t, Reaches (next idiv) s t ∧ Head s (s.r0, s.r1) t := by
  obtain ⟨t, hreach, hframe, htpc, hr0, hr1⟩ := prologue idiv (s := s) (by rw [hpc]; rfl)
    (by rw [hpc]; rfl) (by rw [hpc]; rfl) (by rw [hpc]; rfl)
  have hsteps : steps (next idiv) 3 t = some { t with mem := (spilled t).mem, pc := WHLCHK } := by
    cases t
    obtain rfl : _ = 4 := htpc.trans (by rw [hpc])
    rfl
  refine ⟨_, hreach.trans (reaches_of_steps hsteps), rfl, hframe.spilled.congr rfl rfl rfl, ?_, ?_⟩
  · exact (spilled_a t).trans hr0
  · exact (spilled_b t).trans hr1

lemma gcfa1_enter (idiv : State → State) (hpc : s.pc = GCFA1) :
    ∃ t, Reaches (next idiv) s t ∧ RegHead GCFA1R s (s.r0, s.r1) t := by
  obtain ⟨t, hreach, hframe, htpc, hr0, hr1⟩ := prologue idiv (s := s) (by rw [hpc]; rfl)
    (by rw [hpc]; rfl) (by rw [hpc]; rfl) (by rw [hpc]; rfl)
  exact ⟨t, hreach, htpc.trans (by rw [hpc]; rfl), hframe, hr0, hr1⟩

lemma gcfa2_enter (idiv : State → State) (hpc : s.pc = GCFA2) :
    ∃ t, Reaches (next idiv) s t ∧ RegHead GCFA2R s (s.r0, s.r1) t := by
  obtain ⟨t, hreach, hframe, htpc, hr0, hr1⟩ := prologue idiv (s := s) (by rw [hpc]; rfl)
    (by rw [hpc]; rfl) (by rw [hpc]; rfl) (by rw [hpc]; rfl)
  exact ⟨t, hreach, htpc.trans (by rw [hpc]; rfl), hframe, hr0, hr1⟩

end Routines

/-! ### lcma -/

section Lcma

variable {idiv : State → State} {s : State}

/-- `__aeabi_idiv`: signed division that truncates toward zero, called by the rules of the
platform: it returns to `lr` and keeps `r4`, `fp`, `sp` and the caller's part of the stack. -/
structure IsIdiv (idiv : State → State) : Prop where
  quotient : ∀ s, s.r1 ≠ 0 → (idiv s).r0 = s.r0.sdiv s.r1
  pc : ∀ s, (idiv s).pc = s.lr.toNat
  r4 : ∀ s, (idiv s).r4 = s.r4
  fp : ∀ s, (idiv s).fp = s.fp
  sp : ∀ s, (idiv s).sp = s.sp
  mem : ∀ s k, k.toNat < 2 ^ 31 → (idiv s).mem (s.sp + k) = s.mem (s.sp + k)

/-- What `push` stores on top of the stack. -/
lemma storeMultiple_three (mem : Word → Word) (x a b c : Word) :
    storeMultiple mem (x - 12) [a, b, c] = Function.update (Function.update
      (Function.update mem (x - 4) c) (x - 8) b) (x - 12) a := by
  have h8 : x - 12 + 4 = x - 8 := sub_add x 12 4
  have h4 : x - 8 + 4 = x - 4 := sub_add x 8 4
  simp only [storeMultiple, h8, h4]

lemma lcma_save {t : State} (hpc : t.pc = 59) : Reaches (next idiv) t { t with
    fp := t.sp + 8, sp := t.sp - 20,
    mem := Function.update (Function.update t.mem (t.sp + 8 - 24) t.r0) (t.sp + 8 - 28) t.r1,
    pc := 63 } := by
  cases t
  cases hpc
  exact reaches_of_steps (k := 4) rfl

lemma lcma_load {t : State} (hpc : t.pc = 63) : Reaches (next idiv) t { t with
    r0 := t.mem (t.fp - 24), r1 := t.mem (t.fp - 28), r2 := t.mem (t.fp - 28),
    r3 := t.mem (t.fp - 24), r4 := t.mem (t.fp - 28) * t.mem (t.fp - 24), lr := 69,
    pc := 0 } := by
  cases t
  cases hpc
  exact reaches_of_steps (k := 6) rfl

/-- The arguments and the product, when `lcma` calls `gcfa`. -/
lemma lcma_call (idiv : State → State) (hpc : s.pc = LCMA) : ∃ t, Reaches (next idiv) s t ∧
    t.pc = 0 ∧ t.lr = 69 ∧ t.r0 = s.r0 ∧ t.r1 = s.r1 ∧ t.r4 = s.r1 * s.r0 ∧ t.fp = t.sp + 28 ∧
    t.mem (t.sp + 28) = s.lr := by
  let t : State := { s with
    mem := storeMultiple s.mem (s.sp - 12) [s.r4, s.fp, s.lr], sp := s.sp - 12, pc := 59 }
  have hpush : t ∈ next idiv s := by
    cases s
    cases hpc
    exact next_of_fetch (i := .push [.r4, .fp, .lr]) rfl
  let mem := Function.update (Function.update t.mem (t.sp + 8 - 24) s.r0) (t.sp + 8 - 28) s.r1
  have hfp : t.sp + 8 = s.sp - 4 := sub_add s.sp 12 8
  have hcell : ∀ k, t.sp + 8 - k = s.sp - (4 + k) := fun k => by rw [hfp, sub_sub]
  have hsp : t.sp - 20 + 28 = s.sp - 4 := by
    refine (congrArg (· + 28) (sub_sub s.sp 12 20)).trans ?_
    exact sub_add s.sp (12 + 20) 28
  have hr1 : mem (t.sp + 8 - 28) = s.r1 := Function.update_self ..
  have hr0 : mem (t.sp + 8 - 24) = s.r0 := by
    unfold mem
    rw [Function.update_of_ne (sub_ne (by decide)), Function.update_self]
  have hlr : mem (s.sp - 4) = s.lr := by
    unfold mem
    rw [hcell, hcell, Function.update_of_ne (sub_ne (by decide)),
      Function.update_of_ne (sub_ne (by decide))]
    refine (congrFun (storeMultiple_three s.mem s.sp s.r4 s.fp s.lr) _).trans ?_
    rw [Function.update_of_ne (sub_ne (by decide)), Function.update_of_ne (sub_ne (by decide)),
      Function.update_self]
  refine ⟨_, .head hpush ((lcma_save rfl).trans (lcma_load rfl)), rfl, rfl, hr0, hr1, ?_, ?_, ?_⟩
  · exact congrArg₂ (· * ·) hr1 hr0
  · exact hfp.trans hsp.symm
  · exact (congrArg mem hsp).trans hlr

lemma lcma_restore {t : State} (hpc : t.pc = 73) : Reaches (next idiv) t { t with
    r0 := Function.update t.mem (t.fp - 16) t.r0 (t.fp - 16),
    r3 := Function.update t.mem (t.fp - 16) t.r0 (t.fp - 16),
    sp := t.fp - 8, mem := Function.update t.mem (t.fp - 16) t.r0, pc := 78 } := by
  cases t
  cases hpc
  exact reaches_of_steps (k := 5) rfl

/-- The end of `lcma`. -/
lemma lcma_return (idiv : State → State) {t : State} (hpc : t.pc = 73) :
    ∃ t', Reaches (next idiv) t t' ∧ t'.r0 = t.r0 ∧ t'.pc = (t.mem t.fp).toNat := by
  let mem := Function.update t.mem (t.fp - 16) t.r0
  have htop : t.fp - 8 + 4 + 4 = t.fp - 0 := by
    rw [sub_add t.fp 8 4]
    exact sub_add t.fp 4 4
  have hkept : mem (t.fp - 0) = t.mem (t.fp - 0) := Function.update_of_ne (sub_ne (by decide)) ..
  rw [sub_zero] at htop hkept
  let t₁ : State := { t with
    r0 := mem (t.fp - 16), r3 := mem (t.fp - 16), sp := t.fp - 8, mem, pc := 78 }
  let t₂ : State := { t₁ with
    r4 := mem (t.fp - 8), fp := mem (t.fp - 8 + 4), sp := t.fp - 8 + 12,
    pc := (mem (t.fp - 8 + 4 + 4)).toNat }
  have hpop : t₂ ∈ next idiv t₁ := next_of_fetch (i := .pop [.r4, .fp, .pc]) rfl
  refine ⟨t₂, (lcma_restore hpc).tail hpop, Function.update_self .., ?_⟩
  change (mem (t.fp - 8 + 4 + 4)).toNat = _
  rw [htop, hkept]

lemma lcma_idiv {t : State} (hpc : t.pc = 69) : Reaches (next idiv) t
    (idiv { t with r0 := t.r4, r1 := t.r0, r3 := t.r0, lr := 73, pc := 73 }) := by
  cases t
  cases hpc
  exact reaches_of_steps (k := 4) rfl

/-- The division, after `gcfa` is back. -/
lemma lcma_divide {t : State} (hidiv : IsIdiv idiv) (hpc : t.pc = 69) (hr0 : t.r0 ≠ 0)
    (hfp : t.fp = t.sp + 28) : ∃ t', Reaches (next idiv) t t' ∧
      t'.pc = (t.mem (t.sp + 28)).toNat ∧ t'.r0 = t.r4.sdiv t.r0 := by
  let u : State := { t with r0 := t.r4, r1 := t.r0, r3 := t.r0, lr := 73, pc := 73 }
  have hquot : (idiv u).r0 = t.r4.sdiv t.r0 := hidiv.quotient u hr0
  have hkept : (idiv u).mem (t.sp + 28) = t.mem (t.sp + 28) := hidiv.mem u 28 (by decide)
  obtain ⟨t', hreach, hr0', hpc'⟩ := lcma_return idiv (t := idiv u) (hidiv.pc u)
  refine ⟨t', (lcma_idiv hpc).trans hreach, ?_, hr0'.trans hquot⟩
  have hufp : (idiv u).fp = t.sp + 28 := (hidiv.fp u).trans hfp
  rw [hpc', hufp, hkept]

/-- A cell of the caller is none of the callee's. -/
lemma add_ne_own {x : Word} : ∀ k ∈ own, x + 28 ≠ x - 4 - k := by
  intro k hk h
  have h' : (28 : Word) = -(4 + k) := by
    rw [sub_sub, sub_eq_add_neg] at h
    exact add_left_cancel h
  simp only [own, List.mem_cons, List.not_mem_nil, or_false] at hk
  rcases hk with rfl | rfl | rfl | rfl | rfl | rfl <;> exact absurd h' (by decide)

/-- **`lcma`** divides the product by what `gcfa` returns. -/
theorem lcma_reaches (hidiv : IsIdiv idiv) (hpc : s.pc = LCMA) {fuel : ℕ} {g : Word}
    (hg : gcfc fuel s.r0 s.r1 = some g) (hg0 : g ≠ 0) : ∃ t, Reaches (next idiv) s t ∧
      t.pc = s.lr.toNat ∧ t.r0 = (s.r1 * s.r0).sdiv g := by
  obtain ⟨t, hst, htpc, htlr, hr0, hr1, hr4, hfp, hlr⟩ := lcma_call idiv hpc
  obtain ⟨u, htu, hu⟩ := gcfa_enter idiv htpc
  rw [hr0, hr1] at hu
  obtain ⟨v, hv, huv⟩ := (gcfa_carries idiv t).reaches hu hg
  have hvpc : v.pc = 69 := by rw [hv.pc, htlr]; rfl
  have hvfp : v.fp = v.sp + 28 := by rw [hv.fp, hv.sp, hfp]
  obtain ⟨w, hvw, hwpc, hwr0⟩ := lcma_divide hidiv hvpc (by rw [hv.r0]; exact hg0) hvfp
  refine ⟨w, hst.trans (htu.trans (huv.trans hvw)), ?_, ?_⟩
  · rw [hwpc, hv.sp, hv.kept _ add_ne_own, hlr]
  · rw [hwr0, hv.r4, hv.r0, hr4]

end Lcma

/-! ### Callers -/

/-- A call of the routine at `entry` with the arguments `a` and `b`, from code elsewhere. -/
structure Call (entry : ℕ) (a b : Word) where
  state : State
  pc : state.pc = entry
  r0 : state.r0 = a
  r1 : state.r1 = b
  elsewhere : listing.length ≤ state.lr.toNat

def Call.Returns {entry : ℕ} {a b : Word} (idiv : State → State) (c : Call entry a b) (r : Word) :
    Prop :=
  ∃ t, (∃ fuel, run (next idiv) fuel c.state = some t) ∧ t.r0 = r

section Callers

variable {idiv : State → State} {entry : ℕ} {a b r : Word}

lemma Call.stops (c : Call entry a b) {t : State} (hpc : t.pc = c.state.lr.toNat) :
    next idiv t = none := by
  have hnone : listing[t.pc]? = none := List.getElem?_eq_none (by rw [hpc]; exact c.elsewhere)
  unfold next
  rw [hnone]
  rfl

lemma Call.returns_iff (c : Call entry a b) {Head : Word × Word → State → Prop}
    (hcarries : Carries (next idiv) gcfcTurn Head (Back c.state))
    (henter : ∃ t, Reaches (next idiv) c.state t ∧ Head (c.state.r0, c.state.r1) t) :
    c.Returns idiv r ↔ ∃ fuel, gcfc fuel a b = some r := by
  obtain ⟨t, hreach, ht⟩ := henter
  rw [c.r0, c.r1] at ht
  exact hcarries.returns_iff (fun r t h => c.stops h.pc) hreach ht (fun r t h => h.r0)

/-- **`gcfa`** returns what `gcfc` returns, and runs for ever where it does. -/
theorem gcfa_returns (c : Call 0 a b) : c.Returns idiv r ↔ ∃ fuel, gcfc fuel a b = some r :=
  c.returns_iff (gcfa_carries idiv c.state) (gcfa_enter idiv c.pc)

theorem gcfa1_returns (c : Call GCFA1 a b) : c.Returns idiv r ↔ ∃ fuel, gcfc fuel a b = some r :=
  c.returns_iff (gcfa1_carries idiv c.state) (gcfa1_enter idiv c.pc)

theorem gcfa2_returns (c : Call GCFA2 a b) : c.Returns idiv r ↔ ∃ fuel, gcfc fuel a b = some r :=
  c.returns_iff (gcfa2_carries idiv c.state) (gcfa2_enter idiv c.pc)

/-- **`lcma`** returns the wrapped product divided by the factor. -/
theorem lcma_returns (hidiv : IsIdiv idiv) (c : Call LCMA a b) {fuel : ℕ} {g : Word}
    (hg : gcfc fuel a b = some g) (hg0 : g ≠ 0) : c.Returns idiv r ↔ r = (a * b).sdiv g := by
  have hg' : gcfc fuel c.state.r0 c.state.r1 = some g := by rw [c.r0, c.r1, hg]
  obtain ⟨t, hreach, hpc, hr0⟩ := lcma_reaches hidiv c.pc hg' hg0
  refine (run_returns_iff hreach (c.stops hpc)).trans ?_
  rw [hr0, c.r0, c.r1, mul_comm]

end Callers

end Rtes.LcmArm
