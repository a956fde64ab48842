import Rtes.BtvidModel

/-!
Whether `current_frame` keeps step with the DMA engine.

The driver only toggles `current_frame`, and the engine starts over with frame 0 on every
error and every restart. The two stay in step if that happens while `current_frame` is 1, and
the next frame is given out wrongly if it happens while `current_frame` is 0.
-/

namespace Rtes.BtvidFrames

open Rtes.Runs Rtes.BtvidModel

/-- Every `semGive` was for the frame just completed, and no copy was of the frame being
written. -/
structure Sound (s : State) : Prop where
  given : ∀ g ∈ s.given, g.2 = some g.1
  copied : ∀ c ∈ s.copied, c.1 ≠ c.2

/-- The action makes the engine start over. -/
def StartsOver (s : State) : Act → Prop
  | .activate => s.dmaCtl = 0
  | .isr status _ => status &&& intErrorsToCheck ≠ 0
  | .restart => True
  | .drvr => False

/-- The engine starts over only while `current_frame` is 1. -/
def Timely (s : State) (a : Act) : Prop := StartsOver s a → s.currentFrame = 1

/-- A status that makes `pci_inta_isr` give `frameRdy`. -/
def Gives (status : BitVec 32) : Prop :=
  status &&& intErrorsToCheck = 0 ∧ status &&& risciInt ≠ 0

/-! ### One step -/

/-- What a step does to the frames. -/
inductive Moves (s : State) (a : Act) (s' : State) : Prop
  | startOver (h : StartsOver s a) (hctl : s'.dmaCtl ≠ 0) (hw : s'.writing = 0)
      (hconn : s'.connected = true) (hcur : s'.currentFrame = s.currentFrame)
      (hgiven : s'.given = s.given) (hcopied : s'.copied = s.copied)
  | frame (h : ¬ StartsOver s a) (hctl : s'.dmaCtl = s.dmaCtl)
      (hw : s'.writing = (s.writing + 1) % 2) (hconn : s.connected = true)
      (hconn' : s'.connected = true) (hcur : s'.currentFrame = if s.currentFrame = 0 then 1 else 0)
      (hgiven : s'.given = s.given ++ [(s'.currentFrame, some s.writing)])
      (hcopied : s'.copied = s.copied)
  | copy (h : ¬ StartsOver s a) (hctl : s'.dmaCtl = s.dmaCtl) (hw : s'.writing = s.writing)
      (hrdy : s.frameRdy = true) (hrdy' : s'.frameRdy = false)
      (hconn : s'.connected = s.connected) (hcur : s'.currentFrame = s.currentFrame)
      (hgiven : s'.given = s.given)
      (hcopied : s'.copied = s.copied ++ [(s.currentFrame, s.writing)])
  | idle (h : ¬ StartsOver s a) (hctl : s'.dmaCtl = 0 → s.dmaCtl = 0)
      (hon : s.connected = true ∨ s.dmaCtl ≠ 0) (hw : s'.writing = s.writing)
      (hconn : s'.connected = true) (hcur : s'.currentFrame = s.currentFrame)
      (hgiven : s'.given = s.given) (hcopied : s'.copied = s.copied)

lemma startAcq_haltAcq (s : State) :
    startAcq (haltAcq s) = { s with dmaCtl := 0xF, writing := 0 } := rfl

/-- An error restarts the engine and leaves `current_frame` alone. -/
lemma isrError_eq (s : State) (status : BitVec 32) :
    ∃ counters, isrError s status = { s with dmaCtl := 0xF, writing := 0, counters } := by
  unfold isrError
  simp only [startAcq_haltAcq]
  split_ifs <;> exact ⟨_, rfl⟩

lemma isr_moves {s : State} (hconn : s.connected = true) (status dstatus : BitVec 32) :
    Moves s (.isr status dstatus)
      (pciIntaIsr (if status &&& risciInt ≠ 0 then frameDone s else s) status dstatus) := by
  unfold pciIntaIsr
  by_cases herr : status &&& intErrorsToCheck ≠ 0
  · obtain ⟨counters, hc⟩ := isrError_eq
      { (if status &&& risciInt ≠ 0 then frameDone s else s) with
        totalInts := (if status &&& risciInt ≠ 0 then frameDone s else s).totalInts + 1
        counters.lastIsrStatus := status } status
    rw [if_pos herr]
    dsimp only
    rw [hc]
    split_ifs <;> exact .startOver herr (by simp) rfl hconn rfl rfl rfl
  · rw [if_neg herr]
    by_cases hrisci : status &&& risciInt ≠ 0
    · rw [if_pos hrisci, if_pos hrisci]
      exact .frame herr rfl rfl hconn hconn rfl rfl rfl
    · rw [if_neg hrisci, if_neg hrisci]
      exact .idle herr id (Or.inl hconn) rfl hconn rfl rfl rfl

lemma isr_given (s : State) {status : BitVec 32} (h : Gives status) (dstatus : BitVec 32) :
    (pciIntaIsr (if status &&& risciInt ≠ 0 then frameDone s else s) status dstatus).given =
      s.given ++ [(if s.currentFrame = 0 then 1 else 0, some s.writing)] := by
  unfold pciIntaIsr
  rw [if_pos h.2, if_neg (not_not.mpr h.1), if_pos h.2]
  rfl

lemma step_isr {s : State} (hconn : s.connected = true) (status dstatus : BitVec 32) :
    step s (.isr status dstatus) =
      some (pciIntaIsr (if status &&& risciInt ≠ 0 then frameDone s else s) status dstatus) :=
  if_pos hconn

lemma step_moves {s s' : State} {a : Act} (h : step s a = some s') : Moves s a s' := by
  have hon : (0xF : BitVec 32) ≠ 0 := by decide
  cases a with
  | activate =>
    obtain rfl := Option.some.inj h
    by_cases hctl : s.dmaCtl = 0
    · exact .startOver hctl hon (if_pos hctl) rfl rfl rfl rfl
    · exact .idle hctl (fun h => absurd h hon) (Or.inr hctl) (if_neg hctl) rfl rfl rfl rfl
  | isr status dstatus =>
    by_cases hconn : s.connected = true
    · obtain rfl := Option.some.inj ((step_isr hconn status dstatus).symm.trans h)
      exact isr_moves hconn status dstatus
    · have hnone : step s (.isr status dstatus) = none := if_neg hconn
      rw [hnone] at h
      cases h
  | restart =>
    obtain rfl := Option.some.inj h
    exact .startOver trivial hon rfl rfl rfl rfl rfl
  | drvr =>
    by_cases hrdy : s.frameRdy = true
    · have hsome : step s .drvr = some (btvidDrvr s) := if_pos hrdy
      obtain rfl := Option.some.inj (hsome.symm.trans h)
      exact .copy id rfl rfl hrdy rfl rfl rfl rfl rfl
    · have hnone : step s .drvr = none := if_neg hrdy
      rw [hnone] at h
      cases h

/-! ### Runs -/

/-- What every run keeps. -/
structure Plain (s : State) : Prop where
  current : s.currentFrame ≤ 1
  writing : s.writing ≤ 1
  running : s.connected = true ↔ s.dmaCtl ≠ 0
  ready : s.frameRdy = true → s.connected = true

lemma plain_init : Plain init := ⟨le_rfl, Nat.zero_le 1, by decide, by decide⟩

lemma Plain.step {s s' : State} {a : Act} (h : Plain s) (hs : step s a = some s') : Plain s' := by
  have hcur := h.current
  have hwri := h.writing
  cases step_moves hs with
  | startOver _ hctl hw hconn hcur' _ _ =>
    exact ⟨by omega, by omega, iff_of_true hconn hctl, fun _ => hconn⟩
  | frame _ hctl hw hconn hconn' hcur' _ _ =>
    refine ⟨?_, by omega, iff_of_true hconn' ?_, fun _ => hconn'⟩
    · rw [hcur']
      split_ifs <;> omega
    · rw [hctl]
      exact h.running.mp hconn
  | copy _ hctl hw _ hrdy' hconn hcur' _ _ =>
    refine ⟨by omega, by omega, ?_, fun hr => ?_⟩
    · rw [hconn, hctl]
      exact h.running
    · rw [hrdy'] at hr
      cases hr
  | idle _ hctl hon hw hconn hcur' _ _ =>
    have hne : s.dmaCtl ≠ 0 := hon.elim h.running.mp id
    exact ⟨by omega, by omega, iff_of_true hconn (mt hctl hne), fun _ => hconn⟩

/-- What a run keeps in which the engine starts over only while `current_frame` is 1. -/
structure InStep (s : State) : Prop where
  plain : Plain s
  apart : s.connected = true → s.currentFrame ≠ s.writing
  sound : Sound s

lemma inStep_init : InStep init :=
  ⟨plain_init, fun h => absurd h (by decide), ⟨by simp [init], by simp [init]⟩⟩

lemma Sound.congr {s s' : State} (h : Sound s) (hgiven : s'.given = s.given)
    (hcopied : s'.copied = s.copied) : Sound s' := by
  refine ⟨?_, ?_⟩
  · rw [hgiven]
    exact h.given
  · rw [hcopied]
    exact h.copied

lemma InStep.step {s s' : State} {a : Act} (h : InStep s) (ha : Timely s a)
    (hs : step s a = some s') : InStep s' := by
  have hplain := h.plain.step hs
  have hcur := h.plain.current
  have hwri := h.plain.writing
  cases step_moves hs with
  | startOver hover _ hw _ hcur' hgiven hcopied =>
    have hone := ha hover
    exact ⟨hplain, fun _ => by omega, h.sound.congr hgiven hcopied⟩
  | frame _ _ hw hconn _ hcur' hgiven hcopied =>
    -- the frame just completed was the other one
    have hne := h.apart hconn
    have hnew : s'.currentFrame = s.writing := by
      rw [hcur']
      split_ifs <;> omega
    refine ⟨hplain, fun _ => by omega, ?_, ?_⟩
    · rw [hgiven, hnew]
      exact List.forall_mem_append.mpr ⟨h.sound.given, List.forall_mem_singleton.mpr rfl⟩
    · rw [hcopied]
      exact h.sound.copied
  | copy _ _ hw hrdy _ hconn hcur' hgiven hcopied =>
    have hne := h.apart (h.plain.ready hrdy)
    refine ⟨hplain, fun _ => by omega, ?_, ?_⟩
    · rw [hgiven]
      exact h.sound.given
    · rw [hcopied]
      exact List.forall_mem_append.mpr ⟨h.sound.copied, List.forall_mem_singleton.mpr hne⟩
  | idle _ _ hon hw _ hcur' hgiven hcopied =>
    have hne := h.apart (hon.elim id h.plain.running.mpr)
    exact ⟨hplain, fun _ => by omega, h.sound.congr hgiven hcopied⟩

/-- After the engine has started over while `current_frame` was 0, the next frame is given out
under the wrong index. -/
lemma not_sound_of_late {s s' : State} {a : Act} {status dstatus : BitVec 32}
    (hover : StartsOver s a) (hzero : s.currentFrame = 0) (hs : step s a = some s')
    (hstatus : Gives status) :
    ∃ s'', step s' (.isr status dstatus) = some s'' ∧ ¬ Sound s'' := by
  cases step_moves hs with
  | startOver _ _ hw hconn hcur _ _ =>
    refine ⟨_, step_isr hconn status dstatus, fun hsound => ?_⟩
    have hmem := hsound.given
    rw [isr_given s' hstatus, hcur, hzero, hw] at hmem
    have := hmem (1, some 0) (by simp)
    simp at this
  | frame h _ _ _ _ _ _ _ => exact absurd hover h
  | copy h _ _ _ _ _ _ _ _ => exact absurd hover h
  | idle h _ _ _ _ _ _ _ => exact absurd hover h

/-- **Double buffering.** If the engine starts over only while `current_frame` is 1, every
frame given out is the one just completed and no copy is of the frame being written. If it
starts over at another time, the next frame is given out wrongly. -/
theorem frames_in_step {as : List Act} {s : State} (hrun : run step init as = some s) :
    (Meets step Timely init as → Sound s) ∧
    ∀ a s' status dstatus, StartsOver s a → s.currentFrame ≠ 1 → step s a = some s' →
      Gives status → ∃ s'', step s' (.isr status dstatus) = some s'' ∧ ¬ Sound s'' := by
  refine ⟨fun hC => ?_, fun a s' status dstatus hover hne hs hstatus => ?_⟩
  · exact (run_inv_of_meets (fun _ _ _ h ha hs => InStep.step h ha hs) inStep_init hC hrun).sound
  · have hplain : Plain s := run_inv (fun _ _ _ h hs => Plain.step h hs) plain_init hrun
    have hcur := hplain.current
    exact not_sound_of_late hover (by omega) hs hstatus

/-- An error after the second frame. -/
theorem frames_in_step_error :
    ∃ s, run step init [.activate, .isr 0x800 0, .isr 0x800 0, .isr 0x80000 0, .isr 0x800 0] =
      some s ∧ Sound s := by
  obtain ⟨s, hs⟩ : ∃ s, run step init
    [.activate, .isr 0x800 0, .isr 0x800 0, .isr 0x80000 0, .isr 0x800 0] = some s := ⟨_, rfl⟩
  refine ⟨s, hs, (frames_in_step hs).1 ?_⟩
  have hframe : ∀ s, Timely s (.isr 0x800 0) := fun s h => absurd (by decide) h
  refine ⟨fun _ => rfl, fun s₁ h₁ => ?_⟩
  obtain rfl := Option.some.inj h₁
  refine ⟨hframe _, fun s₂ h₂ => ?_⟩
  obtain rfl := Option.some.inj h₂
  refine ⟨hframe _, fun s₃ h₃ => ?_⟩
  obtain rfl := Option.some.inj h₃
  refine ⟨fun _ => by decide +kernel, fun s₄ h₄ => ?_⟩
  obtain rfl := Option.some.inj h₄
  exact ⟨hframe _, fun _ _ => trivial⟩

/-- An error after the first frame: the next frame completed is 0 again and is given out as 1,
which is being written. -/
theorem frames_out_of_step :
    ∃ s, run step init [.activate, .isr 0x800 0, .isr 0x80000 0, .isr 0x800 0, .drvr] = some s ∧
      s.completed = some 0 ∧ s.currentFrame = 1 ∧ s.writing = 1 ∧ s.copied = [(1, 1)] := by
  refine ⟨_, rfl, ?_, ?_, ?_, ?_⟩ <;> decide +kernel

end Rtes.BtvidFrames
