import Rtes.HeapMqModel

/-!
Who owns the blocks that `sender` allocates.

A block passes from the sender to a queued message and from there to the receiver, which frees
it. Whatever the calls return, no block has two owners, none is read or freed after it has been
freed, and the pairs come out as they went in. A failed `mq_send` leaves its block without an
owner: the sender forgets it.
-/

namespace Rtes.HeapMqOwner

open Rtes.Bytes Rtes.Runs Rtes.HeapMqModel

variable {w : ℕ}

/-- The block held by the sender: the one it has allocated and not tried to send yet. -/
def senderPtrs (s : State w) : List (Ptr w) :=
  match s.sloc with
  | .strcpy | .pack | .send => [s.sbuffptr]
  | _ => []

/-- The blocks that the queued messages refer to. -/
def queuedPtrs (s : State w) : List (Ptr w) := s.queue.map unpackPtr

/-- The block held by the receiver: the one in its message, which it has not freed yet. -/
def receiverPtrs (s : State w) : List (Ptr w) :=
  match s.rloc with
  | .receive => []
  | .unpack => [unpackPtr s.rbuffer]
  | .print | .free => [s.rbuffptr]

/-- Every block is held by the sender, referred to by one message, held by the receiver, or
freed once, and only one of these. -/
def Conserved (s : State w) : Prop :=
  ∀ k < s.heap.count,
    s.heap.refs (senderPtrs s) k + s.heap.refs (queuedPtrs s) k +
      s.heap.refs (receiverPtrs s) k + s.heap.freed k = 1

instance (s : State w) : Decidable (Conserved s) :=
  inferInstanceAs (Decidable (∀ k < s.heap.count, _))

/-- All the pointers that own a block. -/
def owners (s : State w) : List (Ptr w) := senderPtrs s ++ (queuedPtrs s ++ receiverPtrs s)

lemma conserved_iff_kept {s : State w} : Conserved s ↔ s.heap.Kept (owners s) := by
  simp only [Conserved, Heap.Kept, owners, Heap.refs_append, ← add_assoc]

/-- The messages on their way: the one the receiver has not unpacked yet, and the queue. -/
def pending (s : State w) : List (List Byte) :=
  if s.rloc = .unpack then s.rbuffer :: s.queue else s.queue

/-- The pointers to blocks that the text has been copied to. -/
def filled (s : State w) : List (Ptr w) :=
  (if s.sloc = .strcpy then [] else senderPtrs s) ++ (queuedPtrs s ++ receiverPtrs s)

/-- What holds of the messages: the sender's buffer holds its pair when it sends, the pairs sent
and not unpacked yet are on their way, and they point to the text. -/
structure Handed (s : State w) : Prop where
  packed : s.sloc = .send → s.sbuffer = pack s.sbuffptr senderId
  pairs : ∃ ps, s.sent = s.unpacked ++ ps ∧ pending s = ps.map fun p => pack p.1 p.2
  filled : ∀ p ∈ filled s, s.str p = text imagebuff

/-- What holds in every state. -/
structure Sound (s : State w) : Prop extends Handed s where
  owns : s.heap.Owns (owners s)

lemma sound_init : Sound (init : State w) where
  owns := Heap.owns_empty
  packed h := nomatch h
  pairs := ⟨[], rfl, rfl⟩
  filled _ h := nomatch h

/-! ### Steps -/

/-- What a step does to the owners: it allocates a block, forgets one, frees one, or passes
them on. -/
inductive Moves (s s' : State w) : Act w → Prop
  | alloc {p} (ha : s.heap.Avail p) (hh : s'.heap = s.heap.malloc p)
      (ho : owners s' = p :: owners s) : Moves s s' (.malloc p)
  | forget {p} (hh : s'.heap = s.heap) (ho : owners s = p :: owners s') :
      Moves s s' (.mqSend false)
  | free {a p} (ha : a ≠ .mqSend false) (hh : s'.heap = s.heap.free p)
      (ho : (owners s).Perm (p :: owners s')) : Moves s s' a
  | pass {a} (ha : a ≠ .mqSend false) (hh : s'.heap = s.heap)
      (ho : (owners s).Perm (owners s')) : Moves s s' a

variable {s s' : State w} {a : Act w}

lemma Moves.owns (hm : Moves s s' a) (h : s.heap.Owns (owners s)) : s'.heap.Owns (owners s') := by
  cases hm with
  | alloc ha hh ho =>
    rw [hh, ho]
    exact h.malloc ha
  | forget hh ho =>
    rw [hh]
    exact (ho ▸ h).drop
  | free ha hh ho =>
    rw [hh]
    exact (h.perm ho).free
  | pass ha hh ho =>
    rw [hh]
    exact h.perm ho

lemma Moves.conserved (hm : Moves s s' a) (h : s.heap.Owns (owners s)) (hc : Conserved s) :
    Conserved s' ↔ a ≠ .mqSend false := by
  rw [conserved_iff_kept] at hc ⊢
  cases hm with
  | alloc ha hh ho =>
    rw [hh, ho]
    exact iff_of_true (hc.malloc h ha) (by simp)
  | forget hh ho =>
    rw [hh]
    exact iff_of_false (ho ▸ h).not_kept (not_not_intro rfl)
  | free ha hh ho =>
    rw [hh]
    exact iff_of_true ((hc.perm ho).free (h.perm ho)) ha
  | pass ha hh ho =>
    rw [hh]
    exact iff_of_true (hc.perm ho) ha

/-- The text goes to the sender's block, and to no other owner's. -/
lemma strcpy_step (h : Sound s) (hg : s.sloc = .strcpy) :
    Moves s { s with
        str := Function.update s.str s.sbuffptr (text imagebuff), sloc := .pack } .strcpy ∧
      Handed { s with
        str := Function.update s.str s.sbuffptr (text imagebuff), sloc := .pack } := by
  have hown : owners s = s.sbuffptr :: (queuedPtrs s ++ receiverPtrs s) := by
    simp [owners, senderPtrs, hg]
  refine ⟨.pass (by simp) rfl ?_, nofun, h.pairs, fun q hq => ?_⟩
  · rw [hown]
    rfl
  · change q ∈ s.sbuffptr :: (queuedPtrs s ++ receiverPtrs s) at hq
    change Function.update s.str s.sbuffptr (text imagebuff) q = _
    obtain rfl | hq := List.mem_cons.mp hq
    · exact Function.update_self ..
    · -- the other owners' blocks are not the one written to
      have hne : q ≠ s.sbuffptr := fun he => (hown ▸ h.owns).notMem_tail (he ▸ hq)
      rw [Function.update_of_ne hne]
      exact h.filled q (by simpa [filled, hg] using hq)

/-- The block passes to the new message. -/
lemma send_step (h : Sound s) (hg : s.sloc = .send) :
    Moves s { s with
        queue := s.queue ++ [s.sbuffer]
        sent := s.sent ++ [(s.sbuffptr, senderId)]
        sloc := .delay } (.mqSend true) ∧
      Handed { s with
        queue := s.queue ++ [s.sbuffer]
        sent := s.sent ++ [(s.sbuffptr, senderId)]
        sloc := .delay } := by
  have hp : (unpackPtr s.sbuffer : Ptr w) = s.sbuffptr := by
    rw [h.packed hg, unpackPtr_pack]
  refine ⟨.pass (by simp) rfl ?_, nofun, ?_, fun q hq => h.filled q ?_⟩
  · simp only [owners, senderPtrs, queuedPtrs, receiverPtrs, hg, List.map_append,
      List.map_cons, List.map_nil, hp, List.singleton_append, List.nil_append,
      List.append_assoc]
    exact List.perm_middle.symm
  · obtain ⟨ps, h₁, h₂⟩ := h.pairs
    refine ⟨ps ++ [(s.sbuffptr, senderId)], by simp [h₁], ?_⟩
    rw [List.map_append, ← h₂, List.map_singleton, ← h.packed hg]
    unfold pending
    split_ifs <;> rfl
  · simp only [filled, senderPtrs, queuedPtrs, receiverPtrs, List.map_append, List.map_cons,
      List.map_nil, hp, hg] at hq ⊢
    simp only [List.mem_append, List.mem_cons, ite_self, List.not_mem_nil, or_false,
      false_or, reduceCtorEq, if_false] at hq ⊢
    tauto

lemma sender_step (h : Sound s) (hs : sender s a = some s') : Moves s s' a ∧ Handed s' := by
  cases a with
  | malloc p =>
    simp only [sender] at hs
    split_ifs at hs with hg
    obtain rfl := Option.some.inj hs
    refine ⟨.alloc hg.2.2 rfl ?_, nofun, h.pairs, fun q hq => h.filled q ?_⟩
    · simp [owners, senderPtrs, queuedPtrs, receiverPtrs, hg.1]
    · simpa [filled, senderPtrs, queuedPtrs, receiverPtrs, hg.1] using hq
  | strcpy =>
    simp only [sender] at hs
    split_ifs at hs with hg
    obtain rfl := Option.some.inj hs
    exact strcpy_step h hg
  | pack =>
    simp only [sender] at hs
    split_ifs at hs with hg
    obtain rfl := Option.some.inj hs
    refine ⟨.pass (by simp) rfl ?_, fun _ => rfl, h.pairs, fun q hq => h.filled q ?_⟩
    · simp [owners, senderPtrs, queuedPtrs, receiverPtrs, hg]
    · simpa [filled, senderPtrs, queuedPtrs, receiverPtrs, hg] using hq
  | mqSend ok =>
    cases ok with
    | true =>
      simp only [sender] at hs
      split_ifs at hs with hg
      obtain rfl := Option.some.inj hs
      exact send_step h hg.1
    | false =>
      simp only [sender] at hs
      split_ifs at hs with hg
      obtain rfl := Option.some.inj hs
      refine ⟨.forget (p := s.sbuffptr) rfl ?_, nofun, h.pairs, fun q hq => h.filled q ?_⟩
      · simp [owners, senderPtrs, queuedPtrs, receiverPtrs, hg]
      · simp [filled, senderPtrs, queuedPtrs, receiverPtrs, hg] at hq ⊢
        exact Or.inr hq
  | taskDelay =>
    simp only [sender] at hs
    split_ifs at hs with hg
    obtain rfl := Option.some.inj hs
    refine ⟨.pass (by simp) rfl ?_, nofun, h.pairs, fun q hq => h.filled q ?_⟩
    · simp [owners, senderPtrs, queuedPtrs, receiverPtrs, hg]
    · simpa [filled, senderPtrs, queuedPtrs, receiverPtrs, hg] using hq
  | mqReceive _ | unpack | print | free => cases hs

lemma receiver_step (h : Sound s) (hs : receiver s a = some s') : Moves s s' a ∧ Handed s' := by
  cases a with
  | mqReceive ok =>
    cases ok with
    | true =>
      simp only [receiver] at hs
      split at hs
      · next m queue hg hq =>
        obtain rfl := Option.some.inj hs
        refine ⟨.pass (by simp) rfl ?_, h.packed, ?_, fun q hm => h.filled q ?_⟩
        · simp only [owners, queuedPtrs, receiverPtrs, hg, hq, List.map_cons, List.append_nil]
          exact (List.perm_append_singleton ..).symm.append_left _
        · obtain ⟨ps, h₁, h₂⟩ := h.pairs
          exact ⟨ps, h₁, by simpa [pending, hg, hq] using h₂⟩
        · simp only [filled, senderPtrs, queuedPtrs, receiverPtrs, hg, hq, List.map_cons,
            List.append_nil, List.mem_append, List.mem_cons, List.not_mem_nil, or_false] at hm ⊢
          tauto
      · cases hs
    | false =>
      simp only [receiver] at hs
      split_ifs at hs
      obtain rfl := Option.some.inj hs
      exact ⟨.pass (by simp) rfl .rfl, h.packed, h.pairs, h.filled⟩
  | unpack =>
    simp only [receiver] at hs
    split_ifs at hs with hg
    obtain rfl := Option.some.inj hs
    refine ⟨.pass (by simp) rfl ?_, h.packed, ?_, fun q hq => h.filled q ?_⟩
    · simp [owners, senderPtrs, queuedPtrs, receiverPtrs, hg]
    · obtain ⟨ps, h₁, h₂⟩ := h.pairs
      rw [pending, if_pos hg] at h₂
      obtain ⟨p, ps, rfl, hp, hq⟩ := List.map_eq_cons_iff.mp h₂.symm
      refine ⟨ps, ?_, hq.symm⟩
      simp [h₁, ← hp]
    · simpa [filled, senderPtrs, queuedPtrs, receiverPtrs, hg] using hq
  | print =>
    simp only [receiver] at hs
    split_ifs at hs with hg
    obtain rfl := Option.some.inj hs
    refine ⟨.pass (by simp) rfl ?_, h.packed, ?_, fun q hq => h.filled q ?_⟩
    · simp [owners, senderPtrs, queuedPtrs, receiverPtrs, hg]
    · simpa [pending, hg] using h.pairs
    · simpa [filled, senderPtrs, queuedPtrs, receiverPtrs, hg] using hq
  | free =>
    simp only [receiver] at hs
    split_ifs at hs with hg
    obtain rfl := Option.some.inj hs
    refine ⟨.free (by simp) rfl ?_, h.packed, ?_, fun q hq => h.filled q ?_⟩
    · simp only [owners, senderPtrs, queuedPtrs, receiverPtrs, hg, List.append_nil,
        ← List.append_assoc]
      exact List.perm_append_singleton ..
    · simpa [pending, hg] using h.pairs
    · simp only [filled, senderPtrs, queuedPtrs, receiverPtrs, hg, List.append_nil,
        List.mem_append] at hq ⊢
      tauto
  | malloc _ | strcpy | pack | mqSend _ | taskDelay => cases hs

lemma step_ok (h : Sound s) (hs : step s a = some s') : Moves s s' a ∧ Sound s' := by
  have hm : Moves s s' a ∧ Handed s' := by
    unfold step at hs
    split at hs
    all_goals first | exact receiver_step h hs | exact sender_step h hs
  exact ⟨hm.1, hm.2, hm.1.owns h.owns⟩

/-! ### Runs -/

lemma sound_run {as : List (Act w)} (hr : run step init as = some s) : Sound s :=
  run_inv (fun _ _ _ h hs => (step_ok h hs).2) sound_init hr

/-- Whatever the calls return, the block that the receiver prints and frees has not been freed,
and holds the sender's text. -/
theorem receiver_reads_text {as : List (Act w)} (hr : run step init as = some s)
    (hloc : s.rloc = .print ∨ s.rloc = .free) :
    s.str s.rbuffptr = text imagebuff ∧
      ∃ k, s.heap.block s.rbuffptr = some k ∧ s.heap.freed k = 0 := by
  have h := sound_run hr
  have hmem : s.rbuffptr ∈ receiverPtrs s := by
    obtain hl | hl := hloc <;> simp [receiverPtrs, hl]
  have hown : s.rbuffptr ∈ owners s := by simp [owners, hmem]
  obtain ⟨k, hk⟩ := h.owns.valid hown
  exact ⟨h.filled _ (by simp [filled, hmem]), k, hk, h.owns.freed_eq_zero hown hk⟩

/-- **Every block has one owner**: in each state of a run every block is held by the sender,
referred to by one message, held by the receiver or freed once, exactly if no `mq_send` of the
run fails; and whatever the calls return, the receiver unpacks the pairs that were packed, in
their order. -/
theorem conserved_iff_no_send_error {as : List (Act w)} (hr : run step init as = some s) :
    s.unpacked <+: s.sent ∧
      ((∀ pre t, pre <+: as → run step init pre = some t → Conserved t) ↔
        .mqSend false ∉ as) := by
  constructor
  · obtain ⟨ps, hps, -⟩ := (sound_run hr).pairs
    exact ⟨ps, hps.symm⟩
  · rw [forall_prefix_iff_meets (J := fun s => Sound s ∧ Conserved s)
      (C := fun _ a => a ≠ .mqSend false) (fun _ h => h.2) ?_ ?_ ?_ hr]
    · rw [meets_iff_forall hr]
      exact ⟨fun h hmem => h _ hmem rfl, fun h a ha he => h (he ▸ ha)⟩
    · intro s a s' h hs
      exact (step_ok h.1 hs).1.conserved h.1.owns h.2
    · intro s a s' h ha hs
      obtain ⟨hm, hs'⟩ := step_ok h.1 hs
      exact ⟨hs', (hm.conserved h.1.owns h.2).mpr ha⟩
    · exact ⟨sound_init, conserved_iff_kept.mpr Heap.kept_empty⟩

/-- One block is sent, printed and freed, and a second one is allocated at its address and sent;
one call of `mq_receive` fails. -/
def twice : List (Act 4) :=
  [.mqReceive false, .malloc 4096, .strcpy, .pack, .mqSend true, .mqReceive true, .unpack, .print,
    .free, .taskDelay, .malloc 4096, .strcpy, .pack, .mqSend true]

theorem conserved_iff_no_send_error_twice :
    ∃ s, run step init twice = some s ∧ s.heap.count = 2 ∧ s.unpacked = [(4096, 999)] ∧
      s.unpacked <+: s.sent ∧
      ∀ pre t, pre <+: twice → run step init pre = some t → Conserved t := by
  obtain ⟨s, hr, hs⟩ : ∃ s, run step init twice = some s ∧ s.heap.count = 2 ∧
      s.unpacked = [(4096, 999)] :=
    exists_run_of_any (by decide +kernel)
  obtain ⟨hsent, hiff⟩ := conserved_iff_no_send_error hr
  exact ⟨s, hr, hs.1, hs.2, hsent, hiff.mpr (by decide)⟩

/-- The first `mq_send` fails, and the sender goes on to its next block. -/
def sendError : List (Act 4) :=
  [.malloc 4096, .strcpy, .pack, .mqSend false, .taskDelay, .malloc 8192]

theorem not_conserved_sendError :
    ∃ s, run step init sendError = some s ∧ s.queue = [] ∧ s.rloc = .receive ∧
      s.sbuffptr = 8192 ∧ s.heap.block 4096 = some 0 ∧ s.heap.freed 0 = 0 ∧ ¬ Conserved s := by
  exact exists_run_of_any (by decide +kernel)

end Rtes.HeapMqOwner
