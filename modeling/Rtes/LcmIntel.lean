import Rtes.LcmDivide
import Rtes.Listing

/-!
The x86 routines of `lcm/lcmintel.s`.

Instructions are numbered in the order of the file. Memory is accessed in aligned words of 32
bits, and a quad word is two of them, the low one first. The flags that `subl`, `addl` and
`imull` leave are never read, so only `cmpl` sets them. `remain` is left out, as nothing in the
file calls it.
-/

namespace Rtes.LcmIntel

open StateTransition Rtes.LcmGcf Rtes.LcmDivide Rtes.Listing

abbrev Quad := BitVec 64

structure State where
  eax : Word
  edx : Word
  edi : Word
  esi : Word
  rbp : Quad
  rsp : Quad
  flags : Flags
  mem : Quad → Word
  pc : ℕ

/-- A register, a constant, or the local variable that many bytes below `rbp`. -/
inductive Operand
  | eax
  | edx
  | edi
  | esi
  | imm (v : Word)
  | rbp (back : Quad)

def State.read (s : State) : Operand → Word
  | .eax => s.eax
  | .edx => s.edx
  | .edi => s.edi
  | .esi => s.esi
  | .imm v => v
  | .rbp back => s.mem (s.rbp - back)

/-- There is no instruction with a constant as its destination. -/
def State.write (s : State) (v : Word) : Operand → State
  | .eax => { s with eax := v }
  | .edx => { s with edx := v }
  | .edi => { s with edi := v }
  | .esi => { s with esi := v }
  | .imm _ => s
  | .rbp back => { s with mem := Function.update s.mem (s.rbp - back) v }

def readQuad (mem : Quad → Word) (x : Quad) : Quad := mem (x + 4) ++ mem x

def writeQuad (mem : Quad → Word) (x v : Quad) : Quad → Word :=
  Function.update (Function.update mem (x + 4) (v.extractLsb' 32 32)) x (v.extractLsb' 0 32)

/-- The instructions that the routines use, operands in the order of the file. -/
inductive Instr
  | pushqRbp
  | movqRspRbp
  | subqRsp (imm : Quad)
  | movl (src dst : Operand)
  | cmpl (src dst : Operand)
  | subl (src dst : Operand)
  | addl (src dst : Operand)
  | imull (src dst : Operand)
  | j (c : Cond) (target : ℕ)
  | call (target : ℕ)
  | leave
  | ret

def exec (i : Instr) (s : State) : State :=
  let s' := { s with pc := s.pc + 1 }
  match i with
  | .pushqRbp => { s' with mem := writeQuad s.mem (s.rsp - 8) s.rbp, rsp := s.rsp - 8 }
  | .movqRspRbp => { s' with rbp := s.rsp }
  | .subqRsp imm => { s' with rsp := s.rsp - imm }
  | .movl src dst => s'.write (s.read src) dst
  | .cmpl src dst => { s' with flags := .compare (s.read dst) (s.read src) }
  | .subl src dst => s'.write (s.read dst - s.read src) dst
  | .addl src dst => s'.write (s.read dst + s.read src) dst
  | .imull src dst => s'.write (s.read dst * s.read src) dst
  | .j c target => if s.flags.holds c then { s with pc := target } else s'
  | .call target => { s with
      mem := writeQuad s.mem (s.rsp - 8) (BitVec.ofNat 64 (s.pc + 1)), rsp := s.rsp - 8,
      pc := target }
  | .leave => { s' with rbp := readQuad s.mem s.rbp, rsp := s.rbp + 8 }
  | .ret => { s with pc := (readQuad s.mem s.rsp).toNat, rsp := s.rsp + 8 }

def L4 : ℕ := 5
def L3 : ℕ := 11
def L2 : ℕ := 13

def gcfa : List Instr := [
  .pushqRbp,
  .movqRspRbp,
  .movl .edi (.rbp 4),
  .movl .esi (.rbp 8),
  .j .al L2,
  -- L4
  .movl (.rbp 4) .eax,
  .cmpl (.rbp 8) .eax,
  .j .le L3,
  .movl (.rbp 8) .eax,
  .subl .eax (.rbp 4),
  .j .al L2,
  -- L3
  .movl (.rbp 4) .eax,
  .subl .eax (.rbp 8),
  -- L2
  .movl (.rbp 4) .eax,
  .cmpl (.rbp 8) .eax,
  .j .ne L4,
  .movl (.rbp 4) .eax,
  .leave,
  .ret]

def DIVIDE : ℕ := 19
def L8 : ℕ := 27
def L7 : ℕ := 30

def divide : List Instr := [
  .pushqRbp,
  .movqRspRbp,
  .movl .edi (.rbp 20),
  .movl .esi (.rbp 24),
  .movl (.rbp 20) .eax,
  .movl .eax (.rbp 8),
  .movl (.imm 0) (.rbp 4),
  .j .al L7,
  -- L8
  .movl (.rbp 24) .eax,
  .subl .eax (.rbp 8),
  .addl (.imm 1) (.rbp 4),
  -- L7
  .movl (.rbp 8) .eax,
  .cmpl (.rbp 24) .eax,
  .j .ge L8,
  .movl (.rbp 4) .eax,
  .leave,
  .ret]

def LCMA : ℕ := 36

def lcma : List Instr := [
  .pushqRbp,
  .movqRspRbp,
  .subqRsp 24,
  .movl .edi (.rbp 20),
  .movl .esi (.rbp 24),
  .movl (.rbp 24) .edx,
  .movl (.rbp 20) .eax,
  .movl .edx .esi,
  .movl .eax .edi,
  .call 0,
  .movl .eax .edx,
  .movl (.rbp 20) .eax,
  .imull (.rbp 24) .eax,
  .movl .edx .esi,
  .movl .eax .edi,
  .call DIVIDE,
  .movl .eax (.rbp 4),
  .movl (.rbp 4) .eax,
  .leave,
  .ret]

def listing : List Instr := gcfa ++ divide ++ lcma

def next (s : State) : Option State := (listing[s.pc]?).map fun i => exec i s

/-! ### Calls -/

section Steps

variable {s t : State}

lemma next_of_fetch {i : Instr} (h : listing[s.pc]? = some i) : exec i s ∈ next s := by
  unfold next
  rw [h]
  rfl

lemma next_branch {c : Cond} {target : ℕ} (h : listing[s.pc]? = some (.j c target))
    (hc : s.flags.holds c = true) : { s with pc := target } ∈ next s := by
  have hexec : exec (.j c target) s = { s with pc := target } := if_pos hc
  rw [← hexec]
  exact next_of_fetch h

lemma next_fall {c : Cond} {target : ℕ} (h : listing[s.pc]? = some (.j c target))
    (hc : s.flags.holds c = false) : { s with pc := s.pc + 1 } ∈ next s := by
  have hexec : exec (.j c target) s = { s with pc := s.pc + 1 } :=
    if_neg (by rw [hc]; exact Bool.false_ne_true)
  rw [← hexec]
  exact next_of_fetch h

lemma readQuad_writeQuad (mem : Quad → Word) (x v : Quad) : readQuad (writeQuad mem x v) x = v := by
  have hne : x + 4 ≠ x := by bv_omega
  unfold readQuad writeQuad
  rw [Function.update_self, Function.update_of_ne hne, Function.update_self]
  exact BitVec.extractLsb'_append_extractLsb'

lemma writeQuad_of_ne {mem : Quad → Word} {x y v : Quad} (hlo : y ≠ x) (hhi : y ≠ x + 4) :
    writeQuad mem x v y = mem y := by
  unfold writeQuad
  rw [Function.update_of_ne hlo, Function.update_of_ne hhi]

lemma readQuad_congr {mem mem' : Quad → Word} {x : Quad} (hlo : mem x = mem' x)
    (hhi : mem (x + 4) = mem' (x + 4)) : readQuad mem x = readQuad mem' x := by
  unfold readQuad
  rw [hlo, hhi]

/-- Inside `gcfa` or `divide`, which was called in the state `s`: the words of the caller, from
the return address up, are as they were. -/
structure Frame (s t : State) : Prop where
  rbp : t.rbp = s.rsp - 8
  old : readQuad t.mem t.rbp = s.rbp
  kept : ∀ k : Quad, k.toNat < 2 ^ 63 → t.mem (s.rsp + k) = s.mem (s.rsp + k)

lemma Frame.congr (h : Frame s t) {t' : State} (hmem : t'.mem = t.mem) (hrbp : t'.rbp = t.rbp) :
    Frame s t' := by
  refine ⟨hrbp.trans h.rbp, ?_, ?_⟩
  · rw [hmem, hrbp, h.old]
  · rw [hmem]
    exact h.kept

lemma Frame.ret (h : Frame s t) : readQuad t.mem s.rsp = readQuad s.mem s.rsp := by
  have h0 := h.kept 0 (by decide)
  rw [add_zero] at h0
  exact readQuad_congr h0 (h.kept 4 (by decide))

/-- Storing a local variable. -/
lemma Frame.store (h : Frame s t) {t' : State} {k : Quad} {w : Word} (hpos : 0 < k) (hk : k ≤ 24)
    (hmem : t'.mem = Function.update t.mem (t.rbp - k) w) (hrbp : t'.rbp = t.rbp) :
    Frame s t' := by
  have hother : ∀ y, y ≠ t.rbp - k → t'.mem y = t.mem y := fun y hy => by
    rw [hmem, Function.update_of_ne hy]
  have hlo : t.rbp ≠ t.rbp - k := by bv_omega
  have hhi : t.rbp + 4 ≠ t.rbp - k := by bv_omega
  refine ⟨hrbp.trans h.rbp, ?_, fun j hj => ?_⟩
  · rw [hrbp, ← h.old]
    exact readQuad_congr (hother _ hlo) (hother _ hhi)
  · have hj' : s.rsp + j ≠ t.rbp - k := by
      rw [h.rbp]
      bv_omega
    rw [hother _ hj', h.kept j hj]

/-- Back from a call in the state `s`, with the result `r`. -/
structure Back (s : State) (r : Word) (t : State) : Prop where
  pc : t.pc = (readQuad s.mem s.rsp).toNat
  eax : t.eax = r
  rbp : t.rbp = s.rbp
  rsp : t.rsp = s.rsp + 8
  kept : ∀ k : Quad, k.toNat < 2 ^ 63 → t.mem (s.rsp + k) = s.mem (s.rsp + k)

/-- The first two instructions of each routine. -/
lemma prologue (h0 : listing[s.pc]? = some .pushqRbp)
    (h1 : listing[s.pc + 1]? = some .movqRspRbp) :
    ∃ t, Reaches next s t ∧ Frame s t ∧ t.pc = s.pc + 2 ∧ t.rsp = s.rsp - 8 ∧ t.edi = s.edi ∧
      t.esi = s.esi := by
  let mem := writeQuad s.mem (s.rsp - 8) s.rbp
  let t₁ : State := { s with mem, rsp := s.rsp - 8, pc := s.pc + 1 }
  let t₂ : State := { t₁ with rbp := s.rsp - 8, pc := s.pc + 2 }
  have e₁ : t₁ ∈ next s := next_of_fetch (i := .pushqRbp) h0
  have e₂ : t₂ ∈ next t₁ := next_of_fetch (i := .movqRspRbp) h1
  refine ⟨t₂, .head e₁ (.single e₂), ⟨rfl, readQuad_writeQuad .., fun k hk => ?_⟩, rfl, rfl, rfl,
    rfl⟩
  exact writeQuad_of_ne (by bv_omega) (by bv_omega)

/-- Their last two. -/
lemma epilogue (h : Frame s t) (h0 : listing[t.pc]? = some .leave)
    (h1 : listing[t.pc + 1]? = some .ret) : ∃ t', Back s t.eax t' ∧ Reaches₁ next t t' := by
  let t₁ : State := { t with rbp := readQuad t.mem t.rbp, rsp := t.rbp + 8, pc := t.pc + 1 }
  let t₂ : State := { t₁ with
    pc := (readQuad t.mem (t.rbp + 8)).toNat, rsp := t.rbp + 8 + 8 }
  have e₁ : t₁ ∈ next t := next_of_fetch (i := .leave) h0
  have e₂ : t₂ ∈ next t₁ := next_of_fetch (i := .ret) h1
  have hrsp : t.rbp + 8 = s.rsp := by rw [h.rbp, sub_add_cancel]
  have hret : readQuad t.mem (t.rbp + 8) = readQuad s.mem s.rsp := by rw [hrsp, h.ret]
  exact ⟨t₂, ⟨congrArg BitVec.toNat hret, rfl, h.old, congrArg (· + 8) hrsp, h.kept⟩,
    .head' e₁ (.single e₂)⟩

/-- Memory once the two arguments are saved. -/
def saved (t : State) : Quad → Word :=
  Function.update (Function.update t.mem (t.rbp - 20) t.edi) (t.rbp - 24) t.esi

lemma saved_a (t : State) : saved t (t.rbp - 20) = t.edi := by
  unfold saved
  rw [Function.update_of_ne (sub_ne (by decide)), Function.update_self]

lemma saved_b (t : State) : saved t (t.rbp - 24) = t.esi := Function.update_self ..

lemma Frame.saved (h : Frame s t) : Frame s { t with mem := saved t } := by
  have ha : Frame s { t with mem := Function.update t.mem (t.rbp - 20) t.edi } :=
    h.store (k := 20) (by decide) (by decide) rfl rfl
  exact ha.store (k := 24) (by decide) (by decide) rfl rfl

end Steps

/-! ### gcfa -/

section Gcfa

variable {s t : State} {a b : Word}

/-- At `L2`, with the variables `a` and `b` of the C code. -/
structure Head (s : State) (x : Word × Word) (t : State) : Prop where
  pc : t.pc = L2
  frame : Frame s t
  a : t.mem (t.rbp - 4) = x.1
  b : t.mem (t.rbp - 8) = x.2

/-- The test of the loop. -/
lemma gcfa_check (hpc : t.pc = L2) : Reaches₁ next t { t with
    eax := t.mem (t.rbp - 4),
    flags := .compare (t.mem (t.rbp - 4)) (t.mem (t.rbp - 8)), pc := 15 } := by
  cases t
  cases hpc
  exact reaches₁_of_steps (k := 1) rfl

/-- The test of the `if`. -/
lemma gcfa_body (hpc : t.pc = L2) (hne : t.mem (t.rbp - 4) ≠ t.mem (t.rbp - 8)) :
    Reaches₁ next t { t with
      eax := t.mem (t.rbp - 4),
      flags := .compare (t.mem (t.rbp - 4)) (t.mem (t.rbp - 8)), pc := 7 } := by
  refine (gcfa_check hpc).trans (.head (next_branch rfl ?_) (reaches₁_of_steps (k := 1) rfl))
  simpa using hne

lemma gcfa_greater (hpc : t.pc = L2) (hne : t.mem (t.rbp - 4) ≠ t.mem (t.rbp - 8))
    (hlt : (t.mem (t.rbp - 8)).slt (t.mem (t.rbp - 4)) = true) :
    Reaches₁ next t { t with
      eax := t.mem (t.rbp - 8),
      flags := .compare (t.mem (t.rbp - 4)) (t.mem (t.rbp - 8)),
      mem := Function.update t.mem (t.rbp - 4) (t.mem (t.rbp - 4) - t.mem (t.rbp - 8)),
      pc := L2 } := by
  refine (gcfa_body hpc hne).trans (.head (next_fall rfl ?_) (reaches₁_of_steps (k := 2) rfl))
  simpa using hlt

lemma gcfa_less (hpc : t.pc = L2) (hne : t.mem (t.rbp - 4) ≠ t.mem (t.rbp - 8))
    (hlt : (t.mem (t.rbp - 8)).slt (t.mem (t.rbp - 4)) = false) :
    Reaches₁ next t { t with
      eax := t.mem (t.rbp - 4),
      flags := .compare (t.mem (t.rbp - 4)) (t.mem (t.rbp - 8)),
      mem := Function.update t.mem (t.rbp - 8) (t.mem (t.rbp - 8) - t.mem (t.rbp - 4)),
      pc := L2 } := by
  refine (gcfa_body hpc hne).trans (.head (next_branch rfl ?_) (reaches₁_of_steps (k := 1) rfl))
  simpa using hlt

lemma gcfa_equal (hpc : t.pc = L2) (heq : t.mem (t.rbp - 4) = t.mem (t.rbp - 8)) :
    Reaches₁ next t { t with
      eax := t.mem (t.rbp - 4),
      flags := .compare (t.mem (t.rbp - 4)) (t.mem (t.rbp - 8)), pc := 17 } := by
  refine (gcfa_check hpc).trans (.head (next_fall rfl ?_) (reaches₁_of_steps (k := 0) rfl))
  simpa using heq

lemma gcfa_carries (s : State) : Carries next gcfcTurn (Head s) (Back s) := by
  constructor
  · rintro ⟨a, b⟩ x' t ⟨hpc, hframe, rfl, rfl⟩ hturn
    rcases gcfcTurn_inl hturn with ⟨hne, hlt, rfl⟩ | ⟨hne, hlt, rfl⟩
    · refine ⟨_, ?_, gcfa_greater hpc hne hlt⟩
      refine ⟨rfl, hframe.store (k := 4) (by decide) (by decide) rfl rfl, ?_, ?_⟩
      · exact Function.update_self ..
      · exact Function.update_of_ne (sub_ne (by decide)) ..
    · refine ⟨_, ?_, gcfa_less hpc hne hlt⟩
      refine ⟨rfl, hframe.store (k := 8) (by decide) (by decide) rfl rfl, ?_, ?_⟩
      · exact Function.update_of_ne (sub_ne (by decide)) ..
      · exact Function.update_self ..
  · rintro ⟨a, b⟩ r t ⟨hpc, hframe, rfl, rfl⟩ hturn
    obtain ⟨heq, rfl⟩ := gcfcTurn_inr hturn
    have hframe' : Frame s { t with
        eax := t.mem (t.rbp - 4),
        flags := .compare (t.mem (t.rbp - 4)) (t.mem (t.rbp - 8)), pc := 17 } :=
      hframe.congr rfl rfl
    obtain ⟨t', hback, hreach⟩ := epilogue hframe' rfl rfl
    exact ⟨t', hback, (gcfa_equal hpc heq).trans hreach⟩

lemma gcfa_enter (hpc : s.pc = 0) : ∃ t, Reaches next s t ∧ Head s (s.edi, s.esi) t := by
  obtain ⟨t, hreach, hframe, htpc, -, hedi, hesi⟩ :=
    prologue (s := s) (by rw [hpc]; rfl) (by rw [hpc]; rfl)
  have hsteps : steps next 3 t = some { t with
      mem := Function.update (Function.update t.mem (t.rbp - 4) t.edi) (t.rbp - 8) t.esi
      pc := L2 } := by
    cases t
    obtain rfl : _ = 2 := htpc.trans (by rw [hpc])
    rfl
  have hstored : Frame s { t with mem := Function.update t.mem (t.rbp - 4) t.edi } :=
    hframe.store (k := 4) (by decide) (by decide) rfl rfl
  refine ⟨_, hreach.trans (reaches_of_steps hsteps), rfl,
    hstored.store (k := 8) (by decide) (by decide) rfl rfl, ?_, ?_⟩
  · dsimp only
    rw [Function.update_of_ne (sub_ne (by decide)), Function.update_self, hedi]
  · exact (Function.update_self ..).trans hesi

lemma gcfa_back (hpc : s.pc = 0) {fuel : ℕ} {g : Word} (hg : gcfc fuel s.edi s.esi = some g) :
    ∃ t, Reaches next s t ∧ Back s g t := by
  obtain ⟨u, hsu, hu⟩ := gcfa_enter hpc
  obtain ⟨t, ht, hut⟩ := (gcfa_carries s).reaches hu hg
  exact ⟨t, hsu.trans hut, ht⟩

end Gcfa

/-! ### divide -/

section Divide

variable {s t : State}

/-- At `L7`, with the divisor `b` and the variables `r` and `cnt` of the C code. -/
structure DivideHead (s : State) (b : Word) (x : Word × Word) (t : State) : Prop where
  pc : t.pc = L7
  frame : Frame s t
  b : t.mem (t.rbp - 24) = b
  r : t.mem (t.rbp - 8) = x.1
  cnt : t.mem (t.rbp - 4) = x.2

lemma divide_check (hpc : t.pc = L7) : Reaches₁ next t { t with
    eax := t.mem (t.rbp - 8),
    flags := .compare (t.mem (t.rbp - 8)) (t.mem (t.rbp - 24)), pc := 32 } := by
  cases t
  cases hpc
  exact reaches₁_of_steps (k := 1) rfl

lemma divide_again (hpc : t.pc = L7)
    (hle : (t.mem (t.rbp - 24)).sle (t.mem (t.rbp - 8)) = true) : Reaches₁ next t { t with
      eax := t.mem (t.rbp - 24),
      flags := .compare (t.mem (t.rbp - 8)) (t.mem (t.rbp - 24)),
      mem := Function.update
        (Function.update t.mem (t.rbp - 8) (t.mem (t.rbp - 8) - t.mem (t.rbp - 24))) (t.rbp - 4)
        (t.mem (t.rbp - 4) + 1),
      pc := L7 } := by
  have hkept : Function.update t.mem (t.rbp - 8) (t.mem (t.rbp - 8) - t.mem (t.rbp - 24))
      (t.rbp - 4) = t.mem (t.rbp - 4) := Function.update_of_ne (sub_ne (by decide)) ..
  rw [← hkept]
  refine (divide_check hpc).trans (.head (next_branch rfl ?_) (reaches₁_of_steps (k := 2) rfl))
  rw [holds_ge, ← BitVec.sle_eq_not_slt]
  exact hle

lemma divide_done (hpc : t.pc = L7)
    (hle : (t.mem (t.rbp - 24)).sle (t.mem (t.rbp - 8)) = false) : Reaches₁ next t { t with
      eax := t.mem (t.rbp - 4),
      flags := .compare (t.mem (t.rbp - 8)) (t.mem (t.rbp - 24)), pc := 34 } := by
  refine (divide_check hpc).trans (.head (next_fall rfl ?_) (reaches₁_of_steps (k := 0) rfl))
  rw [holds_ge, ← BitVec.sle_eq_not_slt]
  exact hle

lemma divide_carries (s : State) (b : Word) :
    Carries next (divideTurn b) (DivideHead s b) (Back s) := by
  constructor
  · rintro ⟨r, cnt⟩ x' t ⟨hpc, hframe, rfl, rfl, rfl⟩ hturn
    obtain ⟨hle, rfl⟩ := divideTurn_inl hturn
    have hstored : Frame s { t with
        mem := Function.update t.mem (t.rbp - 8) (t.mem (t.rbp - 8) - t.mem (t.rbp - 24)) } :=
      hframe.store (k := 8) (by decide) (by decide) rfl rfl
    refine ⟨_, ?_, divide_again hpc hle⟩
    refine ⟨rfl, hstored.store (k := 4) (by decide) (by decide) rfl rfl, ?_, ?_, ?_⟩
    · dsimp only
      rw [Function.update_of_ne (sub_ne (by decide)), Function.update_of_ne (sub_ne (by decide))]
    · dsimp only
      rw [Function.update_of_ne (sub_ne (by decide)), Function.update_self]
    · exact Function.update_self ..
  · rintro ⟨r, cnt⟩ q t ⟨hpc, hframe, rfl, rfl, rfl⟩ hturn
    obtain ⟨hle, rfl⟩ := divideTurn_inr hturn
    have hframe' : Frame s { t with
        eax := t.mem (t.rbp - 4),
        flags := .compare (t.mem (t.rbp - 8)) (t.mem (t.rbp - 24)), pc := 34 } :=
      hframe.congr rfl rfl
    obtain ⟨t', hback, hreach⟩ := epilogue hframe' rfl rfl
    exact ⟨t', hback, (divide_done hpc hle).trans hreach⟩

lemma divide_init (hpc : t.pc = 21) : steps next 6 t = some { t with
    eax := saved t (t.rbp - 20)
    mem := Function.update (Function.update (saved t) (t.rbp - 8) (saved t (t.rbp - 20)))
      (t.rbp - 4) 0
    pc := L7 } := by
  cases t
  cases hpc
  rfl

lemma divide_enter (hpc : s.pc = DIVIDE) :
    ∃ t, Reaches next s t ∧ DivideHead s s.esi (s.edi, 0) t := by
  obtain ⟨t, hreach, hframe, htpc, -, hedi, hesi⟩ :=
    prologue (s := s) (by rw [hpc]; rfl) (by rw [hpc]; rfl)
  have hinit := divide_init (t := t) (htpc.trans (by rw [hpc]; rfl))
  have hdividend : Frame s { t with
      mem := Function.update (saved t) (t.rbp - 8) (saved t (t.rbp - 20)) } :=
    hframe.saved.store (k := 8) (by decide) (by decide) rfl rfl
  refine ⟨_, hreach.trans (reaches_of_steps hinit), rfl,
    hdividend.store (k := 4) (by decide) (by decide) rfl rfl, ?_, ?_, ?_⟩
  · dsimp only
    rw [Function.update_of_ne (sub_ne (by decide)), Function.update_of_ne (sub_ne (by decide)),
      saved_b, hesi]
  · dsimp only
    rw [Function.update_of_ne (sub_ne (by decide)), Function.update_self, saved_a, hedi]
  · exact Function.update_self ..

lemma divide_back (hpc : s.pc = DIVIDE) {fuel : ℕ} {q : Word}
    (hq : LcmDivide.divide fuel s.edi s.esi = some q) : ∃ t, Reaches next s t ∧ Back s q t := by
  obtain ⟨u, hsu, hu⟩ := divide_enter hpc
  obtain ⟨t, ht, hut⟩ := (divide_carries s s.esi).reaches hu hq
  exact ⟨t, hsu.trans hut, ht⟩

end Divide

/-! ### lcma -/

section Lcma

variable {s t : State}

/-- Inside `lcma`, which was called in the state `s`. -/
structure LcmaFrame (s t : State) : Prop where
  rbp : t.rbp = t.rsp + 24
  a : t.mem (t.rsp + 4) = s.edi
  b : t.mem (t.rsp + 0) = s.esi
  ret : readQuad t.mem (t.rsp + 32) = readQuad s.mem s.rsp

lemma lcma_load (hpc : t.pc = 38) : steps next 7 t = some { t with
    eax := saved t (t.rbp - 20)
    edx := saved t (t.rbp - 24)
    edi := saved t (t.rbp - 20)
    esi := saved t (t.rbp - 24)
    rsp := t.rsp - 24
    mem := saved t
    pc := 45 } := by
  cases t
  cases hpc
  rfl

/-- The arguments, when `lcma` calls `gcfa`. -/
lemma lcma_enter (hpc : s.pc = LCMA) : ∃ t, Reaches next s t ∧ t.pc = 45 ∧ t.edi = s.edi ∧
    t.esi = s.esi ∧ LcmaFrame s t := by
  obtain ⟨t, hreach, hframe, htpc, hrsp, hedi, hesi⟩ :=
    prologue (s := s) (by rw [hpc]; rfl) (by rw [hpc]; rfl)
  have hload := lcma_load (t := t) (htpc.trans (by rw [hpc]; rfl))
  have hrbp : t.rbp = t.rsp := hframe.rbp.trans hrsp.symm
  have ha : t.rsp - 24 + 4 = t.rbp - 20 := by rw [hrbp]; exact sub_add t.rsp 24 4
  have hb : t.rsp - 24 + 0 = t.rbp - 24 := by rw [hrbp, add_zero]
  have hret : t.rsp - 24 + 32 = s.rsp := by
    rw [hrsp, sub_sub]
    exact sub_add_cancel s.rsp 32
  refine ⟨_, hreach.trans (reaches_of_steps hload), rfl, ?_, ?_, ⟨?_, ?_, ?_, ?_⟩⟩
  · exact (saved_a t).trans hedi
  · exact (saved_b t).trans hesi
  · exact hrbp.trans (sub_add_cancel t.rsp 24).symm
  · exact (congrArg (saved t) ha).trans ((saved_a t).trans hedi)
  · exact (congrArg (saved t) hb).trans ((saved_b t).trans hesi)
  · exact (congrArg (readQuad (saved t)) hret).trans hframe.saved.ret

/-- A call comes back to the next instruction and keeps the words from `rsp` up. -/
lemma call_back {u : State} {target : ℕ} {r : Word} (hpc : t.pc + 1 < 2 ^ 64)
    (h : Back (exec (.call target) t) r u) : u.pc = t.pc + 1 ∧ u.rbp = t.rbp ∧ u.rsp = t.rsp ∧
      ∀ k : Quad, k.toNat < 2 ^ 62 → u.mem (t.rsp + k) = t.mem (t.rsp + k) := by
  refine ⟨?_, h.rbp, ?_, fun k hk => ?_⟩
  · rw [h.pc]
    refine (congrArg BitVec.toNat (readQuad_writeQuad ..)).trans ?_
    rw [BitVec.toNat_ofNat, Nat.mod_eq_of_lt hpc]
  · exact h.rsp.trans (sub_add_cancel t.rsp 8)
  · have hk' : t.rsp + k = t.rsp - 8 + (k + 8) := by rw [sub_add_add_cancel]
    have hkept := h.kept (k + 8) (by bv_omega)
    change u.mem (t.rsp - 8 + (k + 8)) = writeQuad t.mem (t.rsp - 8) _ (t.rsp - 8 + (k + 8))
      at hkept
    rw [← hk'] at hkept
    rw [hkept]
    exact writeQuad_of_ne (by bv_omega) (by bv_omega)

lemma LcmaFrame.back {u : State} {target : ℕ} {r : Word} (hframe : LcmaFrame s t)
    (hpc : t.pc + 1 < 2 ^ 64) (h : Back (exec (.call target) t) r u) : LcmaFrame s u := by
  obtain ⟨-, hrbp, hrsp, hkept⟩ := call_back hpc h
  refine ⟨?_, ?_, ?_, ?_⟩
  · rw [hrbp, hrsp, hframe.rbp]
  · rw [hrsp, hkept 4 (by decide), hframe.a]
  · rw [hrsp, hkept 0 (by decide), hframe.b]
  · rw [hrsp, ← hframe.ret]
    refine readQuad_congr (hkept 32 (by decide)) ?_
    rw [add_assoc]
    exact hkept 36 (by decide)

/-- Calling a routine that returns. -/
lemma LcmaFrame.call {target : ℕ} {r : Word} (hframe : LcmaFrame s t)
    (hfetch : listing[t.pc]? = some (.call target)) (hpc : t.pc + 1 < 2 ^ 64)
    (hcall : ∃ u, Reaches next (exec (.call target) t) u ∧ Back (exec (.call target) t) r u) :
    ∃ u, Reaches next t u ∧ LcmaFrame s u ∧ u.pc = t.pc + 1 ∧ u.eax = r := by
  obtain ⟨u, hreach, hback⟩ := hcall
  exact ⟨u, .head (next_of_fetch hfetch) hreach, hframe.back hpc hback, (call_back hpc hback).1,
    hback.eax⟩

lemma lcma_multiply (hpc : t.pc = 46) : steps next 5 t = some { t with
    eax := t.mem (t.rbp - 20) * t.mem (t.rbp - 24)
    edx := t.eax
    edi := t.mem (t.rbp - 20) * t.mem (t.rbp - 24)
    esi := t.eax
    pc := 51 } := by
  cases t
  cases hpc
  rfl

/-- The product and the factor, when `lcma` calls `divide`. -/
lemma lcma_product (hframe : LcmaFrame s t) (hpc : t.pc = 46) : ∃ u, Reaches next t u ∧
    LcmaFrame s u ∧ u.pc = 51 ∧ u.edi = s.edi * s.esi ∧ u.esi = t.eax := by
  have ha : t.rbp - 20 = t.rsp + 4 := by
    rw [hframe.rbp]
    exact add_sub_assoc t.rsp 24 20
  have hb : t.rbp - 24 = t.rsp + 0 := by
    rw [hframe.rbp]
    exact add_sub_assoc t.rsp 24 24
  refine ⟨_, reaches_of_steps (lcma_multiply hpc), ⟨hframe.rbp, hframe.a, hframe.b, hframe.ret⟩,
    rfl, ?_, rfl⟩
  dsimp only
  rw [ha, hb, hframe.a, hframe.b]

lemma lcma_store (hpc : t.pc = 52) : steps next 2 t = some { t with
    eax := Function.update t.mem (t.rbp - 4) t.eax (t.rbp - 4)
    mem := Function.update t.mem (t.rbp - 4) t.eax
    pc := 54 } := by
  cases t
  cases hpc
  rfl

/-- The end of `lcma`. -/
lemma lcma_return (hframe : LcmaFrame s t) (hpc : t.pc = 52) :
    ∃ t', Reaches next t t' ∧ t'.pc = (readQuad s.mem s.rsp).toNat ∧ t'.eax = t.eax := by
  let mem := Function.update t.mem (t.rbp - 4) t.eax
  let t₁ : State := { t with eax := mem (t.rbp - 4), mem, pc := 54 }
  let t₂ : State := { t₁ with rbp := readQuad mem t.rbp, rsp := t.rbp + 8, pc := 55 }
  let t₃ : State := { t₂ with pc := (readQuad mem (t.rbp + 8)).toNat, rsp := t.rbp + 8 + 8 }
  have e₁ : Reaches next t t₁ := reaches_of_steps (lcma_store hpc)
  have e₂ : t₂ ∈ next t₁ := next_of_fetch (i := .leave) rfl
  have e₃ : t₃ ∈ next t₂ := next_of_fetch (i := .ret) rfl
  have hret : readQuad mem (t.rbp + 8) = readQuad t.mem (t.rbp + 8) :=
    readQuad_congr (Function.update_of_ne (by bv_omega) ..)
      (Function.update_of_ne (by bv_omega) ..)
  refine ⟨t₃, (e₁.tail e₂).tail e₃, ?_, Function.update_self ..⟩
  have hrbp : t.rbp + 8 = t.rsp + 32 := by
    rw [hframe.rbp, add_assoc]
    rfl
  refine congrArg BitVec.toNat (hret.trans ?_)
  rw [hrbp, hframe.ret]

/-- **`lcma`** divides the product by what `gcfa` returns. -/
theorem lcma_reaches (hpc : s.pc = LCMA) {fuel fuel' : ℕ} {g q : Word}
    (hg : gcfc fuel s.edi s.esi = some g)
    (hq : LcmDivide.divide fuel' (s.edi * s.esi) g = some q) :
    ∃ t, Reaches next s t ∧ t.pc = (readQuad s.mem s.rsp).toNat ∧ t.eax = q := by
  obtain ⟨t, hst, htpc, hedi, hesi, hframe⟩ := lcma_enter hpc
  rw [← hedi, ← hesi] at hg
  have hgcfa := gcfa_back (s := exec (.call 0) t) rfl hg
  obtain ⟨u, htu, hframe, hupc, hueax⟩ :=
    hframe.call (by rw [htpc]; rfl) (by rw [htpc]; decide) hgcfa
  obtain ⟨v, huv, hframe, hvpc, hvedi, hvesi⟩ := lcma_product hframe (hupc.trans (by rw [htpc]))
  rw [← hvedi, ← hueax, ← hvesi] at hq
  have hdivide := divide_back (s := exec (.call DIVIDE) v) rfl hq
  obtain ⟨w, hvw, hframe, hwpc, hweax⟩ :=
    hframe.call (by rw [hvpc]; rfl) (by rw [hvpc]; decide) hdivide
  obtain ⟨x, hwx, hxpc, hxeax⟩ := lcma_return hframe (hwpc.trans (by rw [hvpc]))
  exact ⟨x, hst.trans (htu.trans (huv.trans (hvw.trans hwx))), hxpc, hxeax.trans hweax⟩

end Lcma

/-! ### Callers -/

/-- A call of the routine at `entry` with the arguments `a` and `b`, from code elsewhere. -/
structure Call (entry : ℕ) (a b : Word) where
  state : State
  pc : state.pc = entry
  edi : state.edi = a
  esi : state.esi = b
  elsewhere : listing.length ≤ (readQuad state.mem state.rsp).toNat

def Call.Returns {entry : ℕ} {a b : Word} (c : Call entry a b) (r : Word) : Prop :=
  ∃ t, (∃ fuel, run next fuel c.state = some t) ∧ t.eax = r

section Callers

variable {entry : ℕ} {a b r : Word}

lemma Call.stops (c : Call entry a b) {t : State}
    (hpc : t.pc = (readQuad c.state.mem c.state.rsp).toNat) : next t = none := by
  have hnone : listing[t.pc]? = none := List.getElem?_eq_none (by rw [hpc]; exact c.elsewhere)
  unfold next
  rw [hnone]
  rfl

/-- **`gcfa`** returns what `gcfc` returns, and runs for ever where it does. -/
theorem gcfa_returns (c : Call 0 a b) : c.Returns r ↔ ∃ fuel, gcfc fuel a b = some r := by
  obtain ⟨t, hreach, ht⟩ := gcfa_enter c.pc
  rw [c.edi, c.esi] at ht
  exact (gcfa_carries c.state).returns_iff (fun r t h => c.stops h.pc) hreach ht
    (fun r t h => h.eax)

/-- **`lcma`** returns what `divide` makes of the wrapped product and the factor. -/
theorem lcma_returns (c : Call LCMA a b) {fuel fuel' : ℕ} {g q : Word}
    (hg : gcfc fuel a b = some g) (hq : LcmDivide.divide fuel' (a * b) g = some q) :
    c.Returns r ↔ r = q := by
  have hg' : gcfc fuel c.state.edi c.state.esi = some g := by rw [c.edi, c.esi, hg]
  have hq' : LcmDivide.divide fuel' (c.state.edi * c.state.esi) g = some q := by
    rw [c.edi, c.esi, hq]
  obtain ⟨t, hreach, hpc, heax⟩ := lcma_reaches c.pc hg' hq'
  refine (run_returns_iff hreach (c.stops hpc)).trans ?_
  rw [heax]

end Callers

end Rtes.LcmIntel
