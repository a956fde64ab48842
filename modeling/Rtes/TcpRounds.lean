import Rtes.TcpLink

/-!
The rounds of a session, while both sockets are open.

Each party reads no line before the other has sent it, and sends the lines of a round only after
it has read what it was to read before. So neither can run ahead of the other by more than a
round, and when nothing is under way they cannot both be waiting.
-/

namespace Rtes.TcpRounds

open Rtes.Bytes Rtes.Lines Rtes.Runs Rtes.TcpModel Rtes.TcpLink

/-- Neither party has closed its socket. -/
def Open (s : State) : Prop := ∀ x, (s x).loc ≠ .closed

/-- The party waits for input. -/
def Waits (x : Party) : Loc → Prop
  | .read _ _ => True
  | .count => x = .server
  | _ => False

/-- Both parties wait for input, with both streams and both buffers empty. -/
def Wedged (s : State) : Prop :=
  ∀ x, Waits x (s x).loc ∧ (s x).net = [] ∧ (s x).recvq = [] ∧ (s x).buf = []

/-- The value of `j`, for a session of `n` rounds. -/
def roundOf (n : ℕ) : Loc → ℕ
  | .count => 0
  | .read j _ | .send j _ => j
  | .close | .closed | .brokenPipe => n

/-! ### Runs up to the first close -/

/-- A step does not move the peer, nor a party that has closed. -/
lemma act_loc {x : Party} {e e' e₁ e₁' : End} {op : Op} (h : act x e e' op = some (e₁, e₁')) :
    e₁'.loc = e'.loc ∧ (e.loc = .closed → e₁.loc = .closed) := by
  cases op with
  | count => cases x <;> simp only [act] at h <;> split_ifs at h <;> cases h <;> simp_all
  | send =>
    simp only [act] at h
    split at h
    · split_ifs at h <;> cases h <;> simp_all
    · cases h
  | deliver _ =>
    simp only [act] at h
    split_ifs at h
    cases h
    exact ⟨rfl, fun hc => hc⟩
  | refill _ =>
    simp only [act] at h
    split at h
    · split_ifs at h
      cases h
      exact ⟨rfl, fun hc => hc⟩
    · cases h
  | fgetc =>
    simp only [act] at h
    split at h
    · cases h
      simp_all
    · cases h
  | eof =>
    simp only [act] at h
    split_ifs at h
    split at h <;> cases h <;> simp_all
  | close =>
    simp only [act] at h
    split_ifs at h
    cases h
    exact ⟨rfl, fun _ => rfl⟩

lemma open_of_step {s s' : State} {a : Party × Op} (hs : step s a = some s') (ho : Open s') :
    Open s := by
  obtain ⟨x, op⟩ := a
  obtain ⟨e, e', hact, rfl⟩ := step_eq_some.mp hs
  intro y hy
  obtain rfl | rfl := x.eq_or_eq_peer y
  · exact ho y (by rw [ends_self, (act_loc hact).2 hy])
  · exact ho x.peer (by rw [ends_peer, (act_loc hact).1, hy])

variable {v old : CInt} {as : List (Party × Op)} {s : State}

lemma live_of_open (hr : run step (init v old) as = some s) (ho : Open s) : Live v s := by
  refine run_inv (I := fun s => Open s → Live v s) ?_ (fun _ => live_init v old) hr ho
  rintro s ⟨x, op⟩ s' h hs ho'
  have ho := open_of_step hs ho'
  refine live_step (h ho) hs ?_
  rintro rfl
  obtain ⟨e, e', hact, -⟩ := step_eq_some.mp hs
  simp [act, ho x.peer] at hact

/-! ### What the rounds keep -/

/-- A party whose input is used up has read all that was sent. -/
lemma read_eq {x : Party} {e e' : End} (h : Link v x e e') (ho : e'.loc ≠ .closed)
    (hloc : x = .client ∨ e.loc ≠ .count) (hnet : e.net = []) (hrecvq : e.recvq = [])
    (hbuf : e.buf = []) :
    linesRead x (rounds v) e.loc = linesSent x.peer (rounds v) e'.loc := by
  have ht := h.text_eq hloc
  rw [hnet, hrecvq, hbuf, h.lost ho] at ht
  simp only [List.append_nil] at ht
  rw [← h.position.count (ended_line _), ← ht, count_text (ended_line _)]

lemma waits_cases {x : Party} {loc : Loc} (h : Waits x loc) :
    (∃ j i, loc = .read j i) ∨ x = .server ∧ loc = .count := by
  cases loc with
  | read j i => exact .inl ⟨j, i, rfl⟩
  | count => exact .inr ⟨h, rfl⟩
  | send | close | closed | brokenPipe => exact h.elim

/-- **No deadlock.** -/
theorem not_wedged (h : Live v s) (ho : Open s) : ¬ Wedged s := by
  intro hw
  obtain ⟨hwc, hnetc, hrecvqc, hbufc⟩ := hw .client
  obtain ⟨hws, hnets, hrecvqs, hbufs⟩ := hw .server
  have hc := h .client
  have hs := h .server
  obtain ⟨jc, ic, hlc⟩ := (waits_cases hwc).resolve_right (by simp)
  obtain ⟨js, is, hls⟩ | ⟨-, hls⟩ := waits_cases hws
  · have heqc := read_eq hc (ho .server) (.inl rfl) hnetc hrecvqc hbufc
    have heqs := read_eq hs (ho .client) (.inr (by simp [hls])) hnets hrecvqs hbufs
    have hvc := hc.valid
    have hvs := hs.valid
    simp only [Party.peer, hlc, hls, linesRead, linesSent, Valid] at heqc heqs hvc hvs
    omega
  · -- the count has been sent, but is nowhere
    have hlen := congrArg List.length hs.stream
    simp only [Party.peer, hlc, hls, header, (hs.fresh hls).1, hbufs, hrecvqs, hnets,
      hs.lost (ho .client)] at hlen
    simp at hlen

theorem rounds_close (h : Live v s) :
    roundOf (rounds v) (s .client).loc ≤ roundOf (rounds v) (s .server).loc + 1 ∧
      roundOf (rounds v) (s .server).loc ≤ roundOf (rounds v) (s .client).loc + 1 := by
  have hc := (h .client).read_le
  have hs := (h .server).read_le
  have hvc := (h .client).valid
  have hvs := (h .server).valid
  simp only [Party.peer] at hc hs
  cases hlc : (s .client).loc <;> cases hls : (s .server).loc <;>
    simp only [hlc, hls, linesRead, linesSent, Valid, roundOf] at * <;> omega

lemma text_three (x : Party) : text (line x) NSTRS = (strs x).flatten := by
  cases x <;> rfl

/-- Only the client can have read all lines of its round, when it is about to answer. -/
lemma read_lt_or {x : Party} {n : ℕ} {loc : Loc} (hv : Valid n loc) :
    linesRead x n loc < NSTRS * roundOf n loc + NSTRS ∨ x = .client ∧ ∃ j i, loc = .send j i := by
  unfold NSTRS
  cases loc with
  | send j i => cases x <;> simp [linesRead, roundOf]
  | read j i => exact .inl (Nat.add_lt_add_left hv.2 _)
  | count | close | closed | brokenPipe => simp [linesRead, roundOf]

/-- A party in round `j` has read what was sent before the round, and nothing beyond it. -/
lemma consumed_bounds (h : Live v s) (x : Party) :
    text (line x.peer) (NSTRS * roundOf (rounds v) (s x).loc) <+: (s x).consumed ∧
      (s x).consumed <+: text (line x.peer) (NSTRS * roundOf (rounds v) (s x).loc + NSTRS) := by
  have hx := h x
  have hread : NSTRS * roundOf (rounds v) (s x).loc ≤ linesRead x (rounds v) (s x).loc := by
    unfold NSTRS
    cases x <;> cases (s _).loc <;> simp [roundOf, linesRead]
  refine ⟨(text_mono hread).trans hx.position.text_le, ?_⟩
  obtain hlt | ⟨rfl, j, i, hloc⟩ := read_lt_or (x := x) hx.valid
  · exact (hx.position.prefix_text (ended_line _) hx.consumed_le).trans (text_mono hlt)
  · -- the server has not read the answer yet, so it has sent nothing more
    refine hx.consumed_le.trans (text_mono ?_)
    have hle := (h .server).read_le
    have hv := hx.valid
    have hvs := (h .server).valid
    simp only [Party.peer, hloc, linesSent, Valid] at hle hv
    simp only [Party.peer, hloc, roundOf, NSTRS]
    cases hl : (s .server).loc <;> simp only [hl, linesRead, linesSent, Valid] at hle hvs ⊢ <;>
      omega

/-- A party in round `j` has read `j` copies of its peer's lines and a part of the next. -/
theorem consumed_eq (h : Live v s) (x : Party) :
    ∃ p, (s x).consumed = (List.replicate (roundOf (rounds v) (s x).loc)
        (strs x.peer).flatten).flatten ++ p ∧ p <+: (strs x.peer).flatten := by
  rw [← text_three, ← text_mul (line_add x.peer)]
  obtain ⟨hge, hle⟩ := consumed_bounds h x
  obtain ⟨p, hp⟩ := hge
  refine ⟨p, hp.symm, ?_⟩
  rw [← hp, text_add (line_mul_add x.peer _)] at hle
  exact (List.prefix_append_right_inj _).mp hle

/-- **The rounds stay in step**: for every count that the client sends, in every state up to the
first `close`, the parties are not both waiting with nothing under way, their rounds differ by
one at most once the server has the count, and each has read as many copies of the other's lines
as it has finished rounds, and a part of the next. -/
theorem rounds_in_step (hr : run step (init v old) as = some s) (ho : Open s) :
    ¬ Wedged s ∧
      ((s .server).loc ≠ .count →
        roundOf (rounds v) (s .client).loc ≤ roundOf (rounds v) (s .server).loc + 1 ∧
          roundOf (rounds v) (s .server).loc ≤ roundOf (rounds v) (s .client).loc + 1) ∧
      ∀ x, ∃ p, (s x).consumed = (List.replicate (roundOf (rounds v) (s x).loc)
        (strs x.peer).flatten).flatten ++ p ∧ p <+: (strs x.peer).flatten := by
  have h := live_of_open hr ho
  exact ⟨not_wedged h ho, fun _ => rounds_close h, consumed_eq h⟩

/-- The start of a session of two rounds: the count in two pieces, the server's first line, and
three characters of it. -/
def opening : List (Party × Op) :=
  [(.client, .count), (.server, .deliver 1), (.server, .deliver 3), (.server, .count),
    (.server, .send), (.client, .deliver 5), (.client, .refill 4), (.client, .fgetc),
    (.client, .fgetc), (.client, .fgetc)]

theorem rounds_in_step_opening :
    ∃ s, run step (init 2 0) opening = some s ∧ (s .client).loc = .read 0 0 ∧
      (s .server).loc = .send 0 1 ∧ (s .client).consumed = bytes "Thi" ∧ ¬ Wedged s := by
  obtain ⟨s, hr, hc, hs, hcons⟩ : ∃ s, run step (init 2 0) opening = some s ∧
      (s .client).loc = .read 0 0 ∧ (s .server).loc = .send 0 1 ∧
      (s .client).consumed = bytes "Thi" :=
    exists_run_of_any (by decide +kernel)
  have ho : Open s := by
    intro x
    cases x <;> simp [hc, hs]
  exact ⟨s, hr, hc, hs, hcons, (rounds_in_step hr ho).1⟩

end Rtes.TcpRounds
