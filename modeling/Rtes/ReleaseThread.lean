import Rtes.Release

/-!
A sequencer that is one looping thread.

Each cycle sleeps, counts, comes by every service once and tests whether to go on; at the
end the shutdown runs once. So no release is left out or made twice, and none is lost as long as a
semaphore can hold all of them; a service that read its flag in the wrong moment stays where it is.
-/

namespace Rtes.ReleaseThread

open Rtes.Runs Rtes.Release Finset

variable {ι : Type*}

/-- The releases of a cycle, and the test at its end. -/
def releases (rs : List (ι × ℕ)) : List (Op ι) :=
  rs.map (fun r => .release r.1 r.2) ++ [.check]

lemma releases_cons (r : ι × ℕ) (rs : List (ι × ℕ)) :
    releases (r :: rs) = .release r.1 r.2 :: releases rs := rfl

def cycle (rs : List (ι × ℕ)) : List (Op ι) := .sleep :: .tick :: releases rs

/-- A thread that releases each service of `rs` in the cycles its period divides, until the
test flag is up or `periods` cycles are done. -/
def thread {semMax : ℕ} (hmax : 0 < semMax) (rs : List (ι × ℕ)) (shutdown : List (Close ι))
    (periods : ℕ) : Script ι where
  semMax := semMax
  semMax_pos := hmax
  entry := cycle rs
  again := cycle rs
  shutdown := shutdown
  stop := fun abortTest seqCnt => abortTest || decide (periods ≤ seqCnt)
  recheck := false
  quits := fun _ _ => false
  timer := false

variable {semMax : ℕ} {hmax : 0 < semMax} {rs : List (ι × ℕ)} {shutdown : List (Close ι)}
  {periods : ℕ} {s s' : State ι} {a : Act ι} {i : ι}

variable (rs shutdown periods) in
/-- Where the thread is in cycle `n`, and what the services have seen of it. There is one cycle at
least, since the test comes at its end. -/
inductive Phase (svc : ι → Service) (n : ℕ) : Activation ι → Prop
  | pause (todo : List (Op ι)) (ht : todo = cycle rs ∨ todo = .tick :: releases rs)
      (hn : n < max 1 periods) (hf : ∀ i, (svc i).final = false)
      (hc : ∀ r ∈ rs, (svc r.1).cycles = Icc 1 n) : Phase svc n ⟨[], todo⟩
  | cycling (old new : List (ι × ℕ)) (hrs : rs = old ++ new) (hn : 1 ≤ n ∧ n ≤ max 1 periods)
      (hf : ∀ i, (svc i).final = false) (ho : ∀ r ∈ old, (svc r.1).cycles = Icc 1 n)
      (hw : ∀ r ∈ new, (svc r.1).cycles = Icc 1 (n - 1)) : Phase svc n ⟨[], releases new⟩
  | closing (cs : List (Close ι)) (hcs : cs <:+ shutdown) (hn : n = max 1 periods)
      (hf : ∀ i, (svc i).final = true ↔ .post i ∉ cs)
      (hc : ∀ r ∈ rs, (svc r.1).cycles = Icc 1 n) : Phase svc n ⟨cs, []⟩

/-- The posts of a service: one for each cycle its period divides, and the shutdown's. -/
def Tally (svc : ι → Service) (r : ι × ℕ) : Prop :=
  (svc r.1).posts = #{m ∈ (svc r.1).cycles | r.2 ∣ m} + if (svc r.1).final then 1 else 0

variable (rs shutdown periods) in
structure Threaded (s : State ι) : Prop where
  armed : s.armed = false
  pending : s.pending = false
  test : s.abortTest = false
  phase : ∃ b, s.acts = [b] ∧ Phase rs shutdown periods s.svc s.seqCnt b
  tally : ∀ r ∈ rs, Tally s.svc r

/-- The phase and the tally depend on the sequencer's history only. -/
lemma Phase.congr {svc svc' : ι → Service} {n : ℕ} {b : Activation ι}
    (h : Phase rs shutdown periods svc n b)
    (hs : ∀ i, (svc' i).final = (svc i).final ∧ (svc' i).cycles = (svc i).cycles) :
    Phase rs shutdown periods svc' n b := by
  cases h with
  | pause todo ht hn hf hc =>
    exact .pause todo ht hn (fun i => by rw [(hs i).1, hf i]) fun r hr => by rw [(hs _).2, hc r hr]
  | cycling old new hrs hn hf ho hw =>
    exact .cycling old new hrs hn (fun i => by rw [(hs i).1, hf i])
      (fun r hr => by rw [(hs _).2, ho r hr]) fun r hr => by rw [(hs _).2, hw r hr]
  | closing cs hcs hn hf hc =>
    exact .closing cs hcs hn (fun i => by rw [(hs i).1, hf i]) fun r hr => by rw [(hs _).2, hc r hr]

lemma threaded_init :
    Threaded rs shutdown periods (init (thread hmax rs shutdown periods)) := by
  refine ⟨rfl, rfl, rfl, ⟨_, rfl, .pause _ (Or.inl rfl) (lt_max_of_lt_left Nat.one_pos)
    (fun _ => rfl) fun _ _ => rfl⟩, fun r _ => ?_⟩
  simp [Tally, init, Service.init]

/-- One activation: the one that moves is it. -/
lemma single {α : Type*} {l : List α} {b x : α} {k : ℕ} (hb : l = [b]) (hk : l[k]? = some x) :
    k = 0 ∧ b = x := by
  subst hb
  cases k with
  | zero => exact ⟨rfl, by simpa using hk⟩
  | succ k => simp at hk

lemma insert_Icc {n : ℕ} (hn : 1 ≤ n) : insert n (Icc 1 (n - 1)) = Icc 1 n := by
  ext m
  simp only [mem_insert, mem_Icc]
  omega

/-- Coming by in cycle `n` for the first time. -/
lemma Tally.release {svc : ι → Service} {r : ι × ℕ} {n : ℕ} (h : Tally svc r)
    (hn : n ∉ (svc r.1).cycles) {svc' : ι → Service}
    (hs : svc' r.1 = (svc r.1).release semMax n r.2) : Tally svc' r := by
  unfold Tally at h ⊢
  rw [hs, Service.release_posts, Service.release_cycles, Service.release_final, h,
    filter_insert]
  by_cases hd : r.2 ∣ n
  · rw [if_pos hd, if_pos (Nat.mod_eq_zero_of_dvd hd), card_insert_of_notMem (by simp [hn])]
    omega
  · rw [if_neg hd, if_neg fun h0 => hd (Nat.dvd_of_mod_eq_zero h0)]
    rfl

lemma Tally.congr {svc svc' : ι → Service} {r : ι × ℕ} (h : Tally svc r)
    (hp : (svc' r.1).posts = (svc r.1).posts) (hf : (svc' r.1).final = (svc r.1).final)
    (hc : (svc' r.1).cycles = (svc r.1).cycles) : Tally svc' r := by
  unfold Tally at h ⊢
  rw [hp, hf, hc, h]

variable [DecidableEq ι]

lemma close_on_frame (c : Close ι) (i : ι) (v : Service) :
    (c.on semMax i v).cycles = v.cycles ∧ (c.on semMax i v).waits = v.waits := by
  cases c with
  | disarm => exact ⟨rfl, rfl⟩
  | post j => dsimp only [Close.on]; split_ifs <;> simp [Service.close]
  | abort j => dsimp only [Close.on]; split_ifs <;> exact ⟨rfl, rfl⟩

lemma op_on_waits (o : Op ι) (n : ℕ) (i : ι) (v : Service) :
    (o.on semMax n i v).waits = v.waits := by
  cases o with
  | release j N => dsimp only [Op.on]; split_ifs <;> simp
  | _ => rfl

variable (semMax) in
lemma close_on_of_ne {c : Close ι} (h : c ≠ .post i) (v : Service) :
    (c.on semMax i v).final = v.final ∧ (c.on semMax i v).posts = v.posts ∧
      (c.on semMax i v).sem = v.sem ∧ (c.on semMax i v).pc = v.pc := by
  cases c with
  | disarm => exact ⟨rfl, rfl, rfl, rfl⟩
  | post j =>
    have hj : j ≠ i := fun hj => h (by rw [hj])
    simp [Close.on, hj]
  | abort j => dsimp only [Close.on]; split_ifs <;> exact ⟨rfl, rfl, rfl, rfl⟩

/-- An operation of the shutdown. -/
lemma Phase.close (hnd : shutdown.Nodup) {svc : ι → Service} {n : ℕ} {c : Close ι}
    {cs : List (Close ι)} {todo : List (Op ι)}
    (h : Phase rs shutdown periods svc n ⟨c :: cs, todo⟩) :
    Phase rs shutdown periods (fun i => c.on semMax i (svc i)) n ⟨cs, todo⟩ ∧
      ∀ i, c = .post i → (svc i).final = false := by
  cases h with
  | closing _ hcs hn hf hc =>
    have hc' : c ∉ cs := (List.nodup_cons.mp (hcs.sublist.nodup hnd)).1
    refine ⟨.closing cs ((List.suffix_cons c cs).trans hcs) hn (fun i => ?_) fun r hr => ?_,
      fun i hi => ?_⟩
    · by_cases hi : c = .post i
      · subst hi
        simpa [Close.on, Service.close] using hc'
      · rw [(close_on_of_ne _ hi _).1, hf i, List.mem_cons, not_or]
        exact and_iff_right (Ne.symm hi)
    · rw [(close_on_frame c r.1 _).1, hc r hr]
    · rw [← Bool.not_eq_true, hf i, hi]
      simp

lemma Tally.close {svc : ι → Service} {r : ι × ℕ} {c : Close ι} (h : Tally svc r)
    (hc : c = .post r.1 → (svc r.1).final = false) :
    Tally (fun i => c.on semMax i (svc i)) r := by
  by_cases hr : c = .post r.1
  · have hf := hc hr
    subst hr
    unfold Tally at h ⊢
    simp only [hf, Bool.false_eq_true, if_false, add_zero] at h
    simp [Close.on, Service.close, h]
  · obtain ⟨hfin, hposts, -, -⟩ := close_on_of_ne semMax hr (svc r.1)
    exact h.congr hposts hfin (close_on_frame c r.1 _).1

/-- The test at the end of a cycle. -/
lemma Phase.check (hp : ∀ i, .post i ∈ shutdown) {svc : ι → Service} {n : ℕ}
    {todo : List (Op ι)} (h : Phase rs shutdown periods svc n ⟨[], .check :: todo⟩) {b : Bool}
    (hstop : b = decide (periods ≤ n)) :
    Phase rs shutdown periods svc n (if b then ⟨shutdown, todo⟩ else ⟨[], cycle rs ++ todo⟩) := by
  generalize hb : (⟨[], .check :: todo⟩ : Activation ι) = act at h
  cases h with
  | pause t ht hn hf hc =>
    rcases ht with rfl | rfl <;> simp [cycle] at hb
  | cycling old new hrs hn hf ho hw =>
    cases new with
    | cons r new => simp [releases] at hb
    | nil =>
      obtain rfl : todo = [] := by simpa [releases] using hb
      rw [List.append_nil] at hrs ⊢
      cases b with
      | true =>
        have hle := of_decide_eq_true hstop.symm
        refine .closing shutdown (List.suffix_refl _) (by omega) (fun i => ?_) (hrs ▸ ho)
        rw [hf i]
        simpa using hp i
      | false =>
        have hlt := of_decide_eq_false hstop.symm
        exact .pause _ (Or.inl rfl) (by omega) hf (hrs ▸ ho)
  | closing cs hcs hn hf hc => simp at hb

/-- An operation of a cycle. -/
lemma Phase.op (hnd : (rs.map Prod.fst).Nodup) {svc : ι → Service} {n : ℕ} {o : Op ι}
    {todo : List (Op ι)} (ho : o ≠ .check) (h : Phase rs shutdown periods svc n ⟨[], o :: todo⟩)
    (htally : ∀ r ∈ rs, Tally svc r) :
    Phase rs shutdown periods (fun i => o.on semMax n i (svc i)) (if o = .tick then n + 1 else n)
        ⟨[], todo⟩ ∧
      ∀ r ∈ rs, Tally (fun i => o.on semMax n i (svc i)) r := by
  generalize hb : (⟨[], o :: todo⟩ : Activation ι) = act at h
  cases h with
  | pause t ht hn hf hc =>
    rcases ht with rfl | rfl
    · -- the sleep
      obtain ⟨rfl, rfl⟩ : o = .sleep ∧ todo = .tick :: releases rs := by simpa [cycle] using hb
      exact ⟨.pause _ (Or.inr rfl) hn hf hc, htally⟩
    · -- a new cycle, with every service still to come
      obtain ⟨rfl, rfl⟩ : o = .tick ∧ todo = releases rs := by simpa using hb
      exact ⟨.cycling [] rs rfl ⟨by simp, hn⟩ hf (by simp) (by simpa [Op.on] using hc), htally⟩
  | closing cs hcs hn hf hc => simp at hb
  | cycling old new hrs hn hf hold hnew =>
    cases new with
    | nil => simp [releases, ho] at hb
    | cons r new =>
      obtain ⟨rfl, rfl⟩ : o = .release r.1 r.2 ∧ todo = releases new := by
        simpa [releases_cons] using hb
      have hother : ∀ r' ∈ old ++ new, r'.1 ≠ r.1 := by
        intro r' hr' he
        rw [hrs, List.map_append, List.map_cons, List.nodup_middle] at hnd
        rw [← List.map_append] at hnd
        exact (List.nodup_cons.mp hnd).1 (he ▸ List.mem_map_of_mem hr')
      have hsame : ∀ r' ∈ old ++ new,
          Op.on semMax n r'.1 (svc r'.1) (.release r.1 r.2) = svc r'.1 :=
        fun r' hr' => if_neg (Ne.symm (hother r' hr'))
      have hself : Op.on semMax n r.1 (svc r.1) (.release r.1 r.2) =
          (svc r.1).release semMax n r.2 := if_pos rfl
      refine ⟨?_, fun r' hr' => ?_⟩
      · rw [if_neg (by simp)]
        refine .cycling (old ++ [r]) new (by simp [hrs]) hn (fun i => ?_) (fun r' hr' => ?_)
          fun r' hr' => ?_
        · dsimp only [Op.on]
          split_ifs
          · rw [Service.release_final, hf i]
          · exact hf i
        · rcases List.mem_append.mp hr' with hr' | hr'
          · rw [hsame r' (List.mem_append_left _ hr'), hold r' hr']
          · rw [List.mem_singleton.mp hr', hself, Service.release_cycles, hnew r (by simp),
              insert_Icc hn.1]
        · rw [hsame r' (List.mem_append_right _ hr'), hnew r' (by simp [hr'])]
      · by_cases he : r' = r
        · subst he
          refine (htally r' hr').release (n := n) ?_ hself
          rw [hnew r' (by simp), mem_Icc]
          omega
        · have hmem : r' ∈ old ++ new := by
            rw [hrs] at hr'
            simp only [List.mem_append, List.mem_cons] at hr' ⊢
            tauto
          have := hsame r' hmem
          exact (htally r' hr').congr (by rw [this]) (by rw [this]) (by rw [this])

variable (hrs : (rs.map Prod.fst).Nodup) (hnd : shutdown.Nodup) (hp : ∀ i, .post i ∈ shutdown)

include hrs hnd hp in
lemma Threaded.step (h : Threaded rs shutdown periods s)
    (hs : Release.step (thread hmax rs shutdown periods) s a = some s') :
    Threaded rs shutdown periods s' := by
  obtain ⟨harmed, hpending, htest, ⟨b, hb, hph⟩, htally⟩ := h
  cases step_moves hs with
  | @close k c cs todo hk =>
    obtain ⟨rfl, rfl⟩ := single hb hk
    obtain ⟨hph', hfin⟩ := hph.close hnd
    refine ⟨?_, hpending, htest, ⟨_, by rw [hb]; rfl, hph'⟩,
      fun r hr => (htally r hr).close (hfin r.1)⟩
    split_ifs
    · rfl
    · exact harmed
  | check hk =>
    obtain ⟨rfl, rfl⟩ := single hb hk
    have hstop : (s.abortTest || decide (periods ≤ s.seqCnt)) = decide (periods ≤ s.seqCnt) := by
      rw [htest, Bool.false_or]
    exact ⟨harmed, hpending, htest, ⟨_, by rw [hb]; rfl, hph.check hp hstop⟩, htally⟩
  | op ho hk =>
    obtain ⟨rfl, rfl⟩ := single hb hk
    obtain ⟨hph', htally'⟩ := hph.op hrs ho htally
    exact ⟨harmed, hpending, htest, ⟨_, by rw [hb]; rfl, hph'⟩, htally'⟩
  | fail => exact ⟨harmed, hpending, htest, ⟨b, hb, hph⟩, htally⟩
  | @svc j v hv =>
    have hframe : ∀ i, (Function.update s.svc j v i).final = (s.svc i).final ∧
        (Function.update s.svc j v i).posts = (s.svc i).posts ∧
        (Function.update s.svc j v i).cycles = (s.svc i).cycles := by
      intro i
      by_cases hi : i = j
      · subst hi
        simpa using (Service.step_frame hv).2
      · simp [hi]
    exact ⟨harmed, hpending, by simpa [thread] using htest,
      ⟨b, hb, hph.congr fun i => ⟨(hframe i).1, (hframe i).2.2⟩⟩,
      fun r hr => (htally r hr).congr (hframe _).2.1 (hframe _).1 (hframe _).2.2⟩
  | expire ha => simp [harmed] at ha
  | fire hf => simp [hpending] at hf

include hrs hnd hp in
/-- **No release is left out or made twice**, and no cycle is left out. -/
theorem conserved {as : List (Act ι)}
    (hr : run (step (thread hmax rs shutdown periods)) (init (thread hmax rs shutdown periods)) as =
      some s) {r : ι × ℕ} (hmem : r ∈ rs) :
    Tally s.svc r ∧ (s.svc r.1).Counts semMax ∧
      ∃ c, (c = s.seqCnt ∨ c + 1 = s.seqCnt) ∧ c ≤ max 1 periods ∧
        (s.svc r.1).cycles = Icc 1 c := by
  have hinv := run_inv (fun _ _ _ h hs => h.step hrs hnd hp hs) threaded_init hr
  refine ⟨hinv.tally r hmem, ?_, ?_⟩
  · refine run_inv (I := fun s => (s.svc r.1).Counts semMax) (fun _ _ _ h hs => ?_)
      ⟨rfl, Nat.zero_le _, Or.inl rfl, rfl, nofun⟩ hr
    exact svc_inv (I := Service.Counts semMax) (fun _ _ hv hp => hv.poked hp)
      (fun _ _ hv ho => hv.step ho) r.1 h hs
  · obtain ⟨b, -, hph⟩ := hinv.phase
    cases hph with
    | pause _ _ hn _ hc => exact ⟨_, Or.inl rfl, hn.le, hc r hmem⟩
    | closing _ _ hn _ hc => exact ⟨_, Or.inl rfl, hn.le, hc r hmem⟩
    | cycling old new hsplit hn _ ho hw =>
      rw [hsplit] at hmem
      rcases List.mem_append.mp hmem with hmem | hmem
      · exact ⟨_, Or.inl rfl, hn.2, ho r hmem⟩
      · exact ⟨_, Or.inr (by omega), by omega, hw r hmem⟩

/-! ### A run in which no service moves -/

/-- Nobody has waited yet. -/
def Alone (s : State ι) : Prop := s.exited = false ∧ ∀ i, (s.svc i).waits = 0

/-- The thread alone takes the state `s` to one that is `Q`. -/
def Drives (p : Script ι) (s : State ι) (Q : State ι → Prop) : Prop :=
  ∃ n s', run (step p) s (List.replicate n (.seq 0)) = some s' ∧ Alone s' ∧ Q s'

lemma Drives.refl {p : Script ι} {Q : State ι → Prop} (h : Alone s) (hq : Q s) : Drives p s Q :=
  ⟨0, s, rfl, h, hq⟩

lemma Drives.trans {p : Script ι} {Q R : State ι → Prop} (h : Drives p s Q)
    (hqr : ∀ s', Alone s' → Q s' → Drives p s' R) : Drives p s R := by
  obtain ⟨m, s', hr, ha, hq⟩ := h
  obtain ⟨n, t, ht, hat, hR⟩ := hqr s' ha hq
  refine ⟨m + n, t, ?_, hat, hR⟩
  rw [List.replicate_add]
  exact run_append.mpr ⟨s', hr, ht⟩

lemma Drives.of_step {p : Script ι} {Q : State ι → Prop} (hs : step p s (.seq 0) = some s')
    (h : Alone s') (hq : Q s') : Drives p s Q :=
  ⟨1, s', by simp [run, hs], h, hq⟩

lemma drives_close (p : Script ι) (h : Alone s) {c : Close ι} {cs : List (Close ι)}
    (hb : s.acts = [⟨c :: cs, []⟩]) : Drives p s fun s' => s'.acts = [⟨cs, []⟩] := by
  have hs : step p s (.seq 0) = some { s with
      svc := fun i => c.on p.semMax i (s.svc i)
      armed := if c = .disarm then false else s.armed
      acts := s.acts.set 0 ⟨cs, []⟩
      done := s.done || cs.isEmpty } := by
    simp [step, next, seqStep, h.1, hb]
  exact .of_step hs ⟨h.1, fun i => (close_on_frame c i _).2.trans (h.2 i)⟩ (by simp [hb])

lemma drives_shutdown (p : Script ι) (cs : List (Close ι)) :
    ∀ {s : State ι}, Alone s → s.acts = [⟨cs, []⟩] → Drives p s fun s' => s'.acts = [⟨[], []⟩] := by
  induction cs with
  | nil => exact fun h hb => .refl h hb
  | cons c cs ih => exact fun h hb => (drives_close p h hb).trans fun s' => ih

lemma drives_op (p : Script ι) (h : Alone s) {o : Op ι} {todo : List (Op ι)} (ho : o ≠ .check)
    (hb : s.acts = [⟨[], o :: todo⟩]) :
    Drives p s fun s' => s'.acts = [⟨[], todo⟩] ∧
      s'.seqCnt = if o = .tick then s.seqCnt + 1 else s.seqCnt := by
  have hs : step p s (.seq 0) = some { s with
      svc := fun i => o.on p.semMax s.seqCnt i (s.svc i)
      seqCnt := if o = .tick then s.seqCnt + 1 else s.seqCnt
      acts := s.acts.set 0 ⟨[], todo⟩ } := by
    cases o with
    | check => exact absurd rfl ho
    | _ => simp [step, next, seqStep, h.1, hb]
  exact .of_step hs ⟨h.1, fun i => (op_on_waits o _ i _).trans (h.2 i)⟩ ⟨by simp [hb], rfl⟩

lemma drives_check (p : Script ι) (h : Alone s) (hb : s.acts = [⟨[], [.check]⟩]) :
    Drives p s fun s' => s'.seqCnt = s.seqCnt ∧ s'.acts =
      [if p.stop s.abortTest s.seqCnt then ⟨p.shutdown, []⟩ else ⟨[], p.again⟩] := by
  have hs : step p s (.seq 0) = some { s with
      acts := s.acts.set 0
        (if p.stop s.abortTest s.seqCnt then ⟨p.shutdown, []⟩ else ⟨[], p.again ++ []⟩) } := by
    simp [step, next, seqStep, h.1, hb]
  exact .of_step hs h ⟨rfl, by simp [hb]⟩

lemma drives_releases (p : Script ι) (new : List (ι × ℕ)) :
    ∀ {s : State ι}, Alone s → s.acts = [⟨[], releases new⟩] →
      Drives p s fun s' => s'.acts = [⟨[], [.check]⟩] ∧ s'.seqCnt = s.seqCnt := by
  induction new with
  | nil => exact fun h hb => .refl h ⟨hb, rfl⟩
  | cons r new ih =>
    intro s h hb
    rw [releases_cons] at hb
    refine (drives_op p h (by simp) hb).trans fun s' h' ⟨hb', hn⟩ => ?_
    rw [if_neg (by simp)] at hn
    exact hn ▸ ih h' hb'

lemma drives_cycle (p : Script ι) (h : Alone s) (hb : s.acts = [⟨[], cycle rs⟩]) :
    Drives p s fun s' => s'.acts = [⟨[], [.check]⟩] ∧ s'.seqCnt = s.seqCnt + 1 := by
  refine (drives_op p h (by simp) hb).trans fun s₁ h₁ ⟨hb₁, hn₁⟩ => ?_
  refine (drives_op p h₁ (by simp) hb₁).trans fun s₂ h₂ ⟨hb₂, hn₂⟩ => ?_
  rw [if_neg (by simp)] at hn₁
  rw [if_pos rfl, hn₁] at hn₂
  exact hn₂ ▸ drives_releases p rs h₂ hb₂

/-- A cycle is the last, or leaves the count below the periods. -/
lemma drives_turn (h : Alone s) (hb : s.acts = [⟨[], cycle rs⟩]) :
    Drives (thread hmax rs shutdown periods) s fun s' => s'.acts = [⟨[], []⟩] ∨
      s'.acts = [⟨[], cycle rs⟩] ∧ s'.seqCnt = s.seqCnt + 1 ∧ s'.seqCnt < periods := by
  refine (drives_cycle _ h hb).trans fun s₁ h₁ ⟨hb₁, hn₁⟩ => ?_
  refine (drives_check _ h₁ hb₁).trans fun s₂ h₂ ⟨hn₂, hb₂⟩ => ?_
  by_cases hstop : (thread hmax rs shutdown periods).stop s₁.abortTest s₁.seqCnt = true
  · rw [if_pos hstop] at hb₂
    exact (drives_shutdown _ shutdown h₂ hb₂).trans fun s₃ h₃ hb₃ => .refl h₃ (Or.inl hb₃)
  · rw [if_neg hstop] at hb₂
    have hlt : ¬ periods ≤ s₁.seqCnt := by
      intro hle
      simp [thread, hle] at hstop
    exact .refl h₂ (Or.inr ⟨hb₂, by omega, by omega⟩)

variable (hmax rs shutdown periods) in
/-- The thread comes to its end without the services. -/
lemma drives_end (k : ℕ) :
    ∀ {s : State ι}, periods ≤ s.seqCnt + k → Alone s → s.acts = [⟨[], cycle rs⟩] →
      Drives (thread hmax rs shutdown periods) s fun s' => s'.acts = [⟨[], []⟩] := by
  induction k with
  | zero =>
    intro s hk h hb
    refine (drives_turn h hb).trans fun s' h' hq => ?_
    rcases hq with hq | ⟨-, hn, hlt⟩
    · exact .refl h' hq
    · omega
  | succ k ih =>
    intro s hk h hb
    refine (drives_turn h hb).trans fun s' h' hq => ?_
    rcases hq with hq | ⟨hb', hn, -⟩
    · exact .refl h' hq
    · exact ih (by omega) h' hb'

lemma card_multiples (c N : ℕ) : #{m ∈ Icc 1 c | N ∣ m} = c / N := by
  rw [← Nat.Ioc_filter_dvd_card_eq_div]
  rfl

variable (hmax periods) in
include hrs hnd hp in
/-- Without the services the thread makes all its posts, and nobody takes them. -/
lemma exists_unserved {r : ι × ℕ} (hmem : r ∈ rs) :
    ∃ n s, run (step (thread hmax rs shutdown periods)) (init (thread hmax rs shutdown periods))
        (List.replicate n (.seq 0)) = some s ∧
      (s.svc r.1).posts = max 1 periods / r.2 + 1 ∧ (s.svc r.1).waits = 0 := by
  obtain ⟨n, s, hr, ⟨-, hwaits⟩, hb⟩ := drives_end hmax rs shutdown periods periods
    (s := init (thread hmax rs shutdown periods)) (by simp) ⟨rfl, fun _ => rfl⟩ rfl
  refine ⟨n, s, hr, ?_, hwaits r.1⟩
  have hinv := run_inv (fun _ _ _ h hs => h.step hrs hnd hp hs) threaded_init hr
  obtain ⟨b, hb', hph⟩ := hinv.phase
  obtain rfl : b = ⟨[], []⟩ := by simpa using hb'.symm.trans hb
  generalize hact : (⟨[], []⟩ : Activation ι) = act at hph
  cases hph with
  | pause todo ht => rcases ht with rfl | rfl <;> simp [cycle] at hact
  | cycling old new => simp [releases] at hact
  | closing cs hcs hn hf hc =>
    obtain rfl : cs = [] := by simpa using hact.symm
    have htally := hinv.tally r hmem
    unfold Tally at htally
    rw [htally, hc r hmem, card_multiples, if_pos ((hf r.1).mpr (by simp)), hn]

include hrs hnd hp in
/-- **When no post is lost**: exactly when the cycles the period divides are fewer than a
semaphore can hold, so that there is room for the shutdown's post too. -/
theorem none_lost_iff {r : ι × ℕ} (hmem : r ∈ rs) :
    (∀ as s, run (step (thread hmax rs shutdown periods))
        (init (thread hmax rs shutdown periods)) as = some s →
      (s.svc r.1).posts = (s.svc r.1).waits + (s.svc r.1).sem) ↔
      max 1 periods / r.2 < semMax := by
  refine ⟨fun hall => ?_, fun hlt as s hr => ?_⟩
  · -- the services never move: all posts stay in the semaphore
    obtain ⟨n, s, hr, hposts, hwaits⟩ := exists_unserved hmax periods hrs hnd hp hmem
    have hroom := (conserved hrs hnd hp hr hmem).2.1.room
    have := hall _ s hr
    omega
  · obtain ⟨htally, hcounts, c, -, hc, hcycles⟩ := conserved hrs hnd hp hr hmem
    unfold Tally at htally
    rw [hcycles, card_multiples] at htally
    have hdiv : c / r.2 ≤ max 1 periods / r.2 := Nat.div_le_div_right hc
    have hposts : (s.svc r.1).posts ≤ semMax := by
      split_ifs at htally <;> omega
    have := hcounts.tokens
    have := hcounts.spared
    omega

/-! ### A read of the flag in the wrong moment -/

/-- Once the shutdown post is made nothing else comes, so a service that waits for nothing
does so for good. -/
lemma Threaded.stuck (h : Threaded rs shutdown periods s) (hf : (s.svc i).final = true)
    (hst : (s.svc i).Stranded)
    (hs : Release.step (thread hmax rs shutdown periods) s a = some s') :
    (s'.svc i).final = true ∧ (s'.svc i).Stranded := by
  obtain ⟨-, -, -, ⟨b, hb, hph⟩, -⟩ := h
  -- only the shutdown is left to the thread
  obtain ⟨cs, rfl, hpost⟩ : ∃ cs, b = ⟨cs, []⟩ ∧ .post i ∉ cs := by
    cases hph with
    | pause _ _ _ hfin _ => simp [hfin i] at hf
    | cycling _ _ _ _ hfin _ _ => simp [hfin i] at hf
    | closing cs _ _ hfin _ => exact ⟨cs, rfl, (hfin i).mp hf⟩
  cases step_moves hs with
  | @close k c cs' todo hk =>
    obtain ⟨-, heq⟩ := single hb hk
    obtain ⟨rfl, rfl⟩ := Activation.mk.inj heq
    have hc : c ≠ .post i := fun hc => hpost (by simp [hc])
    obtain ⟨hfin, -, hsem, hpc⟩ := close_on_of_ne semMax hc (s.svc i)
    exact ⟨hfin.trans hf, hpc.trans hst.1, hsem.trans hst.2⟩
  | check hk => simpa using (single hb hk).2
  | op ho hk => simpa using (single hb hk).2
  | fail => exact ⟨hf, hst⟩
  | @svc j v hv =>
    by_cases hij : i = j
    · subst hij
      simp [Service.step, hst.1, hst.2] at hv
    · simpa [hij] using ⟨hf, hst⟩
  | expire ha => exact ⟨hf, hst⟩
  | fire hf' => exact ⟨hf, hst⟩

include hrs hnd hp in
/-- **Who is stranded**: exactly the services that read their flag, still down, after their
shutdown post and with nothing left to take. -/
theorem stranded_iff {as : List (Act ι)}
    (hr : run (step (thread hmax rs shutdown periods)) (init (thread hmax rs shutdown periods)) as =
      some s) (hd : s.done = true) :
    (s.svc i).Stranded ↔
      ¬ Meets (step (thread hmax rs shutdown periods)) (Prompt i)
        (init (thread hmax rs shutdown periods)) as := by
  refine ⟨fun hst hq => not_stranded hp hq hr hd hst, fun hq => ?_⟩
  have hinv : ∀ s a s', Threaded rs shutdown periods s →
      step (thread hmax rs shutdown periods) s a = some s' → Threaded rs shutdown periods s' :=
    fun _ _ _ h hs => h.step hrs hnd hp hs
  obtain ⟨pre, a, post, s₁, s₂, hpre, ha, h₂, hpost⟩ := exists_of_not_meets hq hr
  simp only [Prompt, Classical.not_imp, not_not] at ha
  obtain ⟨rfl, hpc, hab, hfin, hsem⟩ := ha
  have ht : Threaded rs shutdown periods s₁ := run_inv hinv threaded_init hpre
  -- the read leads into the wait
  have hst : (s₂.svc i).final = true ∧ (s₂.svc i).Stranded := by
    cases step_moves h₂ with
    | svc hv =>
      simp only [Service.step, hpc, hab, Bool.false_eq_true, if_false, Option.some.injEq] at hv
      subst hv
      simp [Service.Stranded, hfin, hsem]
  refine (run_inv (I := fun s => Threaded rs shutdown periods s ∧ (s.svc i).final = true ∧
    (s.svc i).Stranded) (fun s a s' h hs => ?_) ⟨hinv _ _ _ ht h₂, hst⟩ hpost).2.2
  exact ⟨hinv _ _ _ h.1 hs, h.1.stuck h.2.1 h.2.2 hs⟩

end Rtes.ReleaseThread
