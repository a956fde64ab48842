import Rtes.TcpRounds

/-!
What is left of a session at its end.

Both sockets are closed with a zero linger time. The server's `close` finds that the client has
read everything, since the client has answered its last lines. The client's `close` comes right
after its own last lines, and discards those that have not reached the server's kernel; the
server's reading loops take the end of its input for the end of a line, and go on to their end.
-/

namespace Rtes.TcpLinger

open Rtes.Bytes Rtes.Lines Rtes.Runs Rtes.TcpModel Rtes.TcpLink Rtes.TcpRounds

variable {v old : CInt} {as : List (Party × Op)} {s s' : State}

/-- The state after the server has come to the end of its input: the client has read all lines
and has closed, and the server is in its last round and has read what was not discarded. -/
structure Cut (v : CInt) (s : State) : Prop where
  client_loc : (s .client).loc = .closed
  client_input : (s .client).net = [] ∧ (s .client).recvq = [] ∧ (s .client).buf = []
  client_consumed : (s .client).consumed = text (line .server) (3 * rounds v)
  server_loc : (∃ j i, j + 1 = rounds v ∧ i < 3 ∧ (s .server).loc = .read j i) ∨
    (s .server).loc = .close ∨ (s .server).loc = .closed
  server_numSets : (s .server).numSets = v
  server_input : (s .server).net = [] ∧ (s .server).recvq = [] ∧ (s .server).buf = []
  server_consumed : ∃ j i, j + 1 = rounds v ∧ i < 3 ∧
    At (line .client) newline (3 * j + i) (s .server).consumed
  server_lost : text (line .client) (3 * rounds v) = (s .server).consumed ++ (s .server).lost

/-- Where the server goes at the end of its input. -/
lemma nextRead_server {j i : ℕ} (hj : j + 1 = rounds v) :
    (∃ j' i', j' + 1 = rounds v ∧ i' < 3 ∧ nextRead .server v j i = .read j' i') ∨
      nextRead .server v j i = .close := by
  unfold nextRead NSTRS
  split_ifs with hi
  · exact .inl ⟨j, i + 1, hj, hi, rfl⟩
  · refine .inr (if_neg ?_)
    unfold rounds at hj
    omega

/-- The client's input does not end: the server closes only after the client's last line. -/
lemma client_not_eof (h : Live v s) {j i : ℕ} (hloc : (s .client).loc = .read j i) :
    (s .server).loc ≠ .closed := by
  intro hc
  have hle := (h .server).read_le
  have hvalid := (h .client).valid
  simp only [Party.peer, hc, hloc, linesRead, linesSent, Valid] at hle hvalid
  omega

/-- When the client has closed, the server has sent all its lines. -/
lemma server_last (hv : 0 < rounds v) (h : Live v s) (hc : (s .client).loc = .closed) :
    linesSent .server (rounds v) (s .server).loc = 3 * rounds v ∧ (s .server).loc ≠ .count ∧
      ∀ j i, (s .server).loc = .read j i → j + 1 = rounds v := by
  have hle := (h .client).read_le
  have hvalid := (h .server).valid
  simp only [Party.peer, hc, linesRead] at hle
  cases hl : (s .server).loc <;> simp only [hl, linesSent, Valid] at hle hvalid ⊢ <;>
    simp <;> omega

/-- The client has read all that was sent to it when it closes. -/
lemma client_consumed (h : Live v s) (hc : (s .client).loc = .closed)
    (hsent : linesSent .server (rounds v) (s .server).loc = 3 * rounds v) :
    (s .client).consumed = text (line .server) (3 * rounds v) ∧
      (s .client).net = [] ∧ (s .client).recvq = [] ∧ (s .client).buf = [] := by
  have hpos := (h .client).position
  have hpre := (h .client).consumed_le
  have htext := (h .client).text_eq (.inl rfl)
  simp only [Party.peer, hc, hsent, linesRead] at hpos hpre htext
  have heq := hpos.eq_text hpre
  rw [heq, List.self_eq_append_right] at htext
  simp only [List.append_eq_nil_iff] at htext
  obtain ⟨hbuf, hrecvq, hnet, -⟩ := htext
  exact ⟨heq, hnet, hrecvq, hbuf⟩

/-- **The end of an input** comes to the server, in its last round. -/
lemma cut_of_eof {x : Party} (hv : 0 < rounds v) (h : Live v s)
    (hs : step s (x, .eof) = some s') : Cut v s' := by
  obtain ⟨e, e', hact, rfl⟩ := step_eq_some.mp hs
  simp only [act] at hact
  split_ifs at hact with hg
  obtain ⟨hclosed, hnet, hrecvq, hbuf⟩ := hg
  cases x with
  | client =>
    split at hact
    · next j i hloc => exact absurd hclosed (client_not_eof h hloc)
    · next heq => cases heq
    · cases hact
  | server =>
    obtain ⟨hsent, hcount, hlast⟩ := server_last hv h hclosed
    split at hact
    · next j i hloc =>
      cases hact
      obtain ⟨hconsumed, hinput⟩ := client_consumed h hclosed hsent
      have hx := h .server
      have hn : (s .server).numSets = v := hx.numSets.resolve_left (by simp [hloc])
      have hj := hlast j i hloc
      have hi : i < 3 := by
        have hvalid := hx.valid
        rw [hloc] at hvalid
        exact hvalid.2
      have hpos := hx.position
      have htext := hx.text_eq (.inr hcount)
      rw [hloc] at hpos
      simp only [hclosed, hnet, hrecvq, hbuf, List.nil_append] at htext
      refine ⟨hclosed, hinput, hconsumed, ?_, hn, ⟨hnet, hrecvq, hbuf⟩, ⟨j, i, hj, hi, hpos⟩, htext⟩
      simp only [hn, ends_self]
      exact (nextRead_server hj).imp_right .inl
    · next heq _ => exact absurd heq hcount
    · cases hact

/-- A party that is past its count, not sending, and has no input left, can only find the end of
its input or close. -/
lemma act_of_quiet {x : Party} {e e' e₁ e₁' : End} {op : Op} (hact : act x e e' op = some (e₁, e₁'))
    (hcount : e.loc ≠ .count) (hsend : ∀ j i, e.loc ≠ .send j i)
    (hin : e.net = [] ∧ e.recvq = [] ∧ e.buf = []) :
    (∃ j i, e.loc = .read j i ∧ e₁ = { e with loc := nextRead x e.numSets j i } ∧ e₁' = e') ∨
      e.loc = .close ∧ e₁ = { e with loc := .closed } ∧
        e₁' = { e' with net := [], lost := e'.net } := by
  obtain ⟨hnet, hrecvq, hbuf⟩ := hin
  cases op with
  | count => cases x <;> simp [act, hcount] at hact
  | send => simp [act] at hact
  | deliver count =>
    simp only [act, hnet, List.length_nil] at hact
    rw [if_neg (by omega)] at hact
    cases hact
  | refill count =>
    simp only [act, hrecvq, List.length_nil] at hact
    rw [if_neg (by omega)] at hact
    split at hact <;> cases hact
  | fgetc => simp [act, hbuf] at hact
  | eof =>
    simp only [act] at hact
    split_ifs at hact
    split at hact
    · next j i hloc =>
      cases hact
      exact .inl ⟨j, i, hloc, rfl, rfl⟩
    · next hloc => exact absurd hloc hcount
    · cases hact
  | close =>
    simp only [act] at hact
    split_ifs at hact with hloc
    cases hact
    exact .inr ⟨hloc, rfl, rfl⟩

/-- From then on the server only goes through its loops and closes. -/
lemma cut_step {a : Party × Op} (h : Cut v s) (hs : step s a = some s') : Cut v s' := by
  obtain ⟨x, op⟩ := a
  obtain ⟨e, e', hact, rfl⟩ := step_eq_some.mp hs
  cases x with
  | client =>
    have hloc := h.client_loc
    obtain ⟨j, i, hl, -⟩ | ⟨hl, -⟩ :=
      act_of_quiet hact (by simp [hloc]) (by simp [hloc]) h.client_input
    · cases hl.symm.trans hloc
    · cases hl.symm.trans hloc
  | server =>
    have hcount : (s .server).loc ≠ .count := by
      obtain ⟨j, i, -, -, hl⟩ | hl | hl := h.server_loc <;> simp [hl]
    have hsend : ∀ j i, (s .server).loc ≠ .send j i := by
      obtain ⟨j, i, -, -, hl⟩ | hl | hl := h.server_loc <;> simp [hl]
    obtain ⟨j, i, hloc, rfl, rfl⟩ | ⟨hloc, rfl, rfl⟩ :=
      act_of_quiet hact hcount hsend h.server_input
    · have hj : j + 1 = rounds v := by
        obtain ⟨j', i', hj', -, hl⟩ | hl | hl := h.server_loc
        · cases hl.symm.trans hloc
          exact hj'
        · cases hl.symm.trans hloc
        · cases hl.symm.trans hloc
      refine ⟨h.client_loc, h.client_input, h.client_consumed, ?_, h.server_numSets,
        h.server_input, h.server_consumed, h.server_lost⟩
      simp only [h.server_numSets, ends_self]
      exact (nextRead_server hj).imp_right .inl
    · exact ⟨h.client_loc, ⟨rfl, h.client_input.2⟩, h.client_consumed, .inr (.inr rfl),
        h.server_numSets, h.server_input, h.server_consumed, h.server_lost⟩

lemma live_or_cut (hv : 0 < rounds v) (hr : run step (init v old) as = some s) :
    Live v s ∨ Cut v s := by
  refine run_inv (I := fun s => Live v s ∨ Cut v s) ?_ (.inl (live_init v old)) hr
  rintro s ⟨x, op⟩ s' (h | h) hs
  · by_cases hop : op = .eof
    · subst hop
      exact .inr (cut_of_eof hv h hs)
    · exact .inl (live_step h hs hop)
  · exact .inr (cut_step h hs)

/-- `n` copies of a party's lines. -/
def copies (n : ℕ) (x : Party) : List Byte := (List.replicate n (strs x).flatten).flatten

lemma copies_eq_text (n : ℕ) (x : Party) : copies n x = text (line x) (3 * n) := by
  rw [copies, ← text_three]
  exact (text_mul (line_add x) n).symm

/-- What both have read when they have finished. -/
lemma finished (hv : 0 < rounds v) (hr : run step (init v old) as = some s)
    (hfin : ∀ x, (s x).loc = .closed) :
    (s .client).consumed = text (line .server) (3 * rounds v) ∧
      text (line .client) (3 * (rounds v - 1)) <+: (s .server).consumed ∧
      text (line .client) (3 * rounds v) = (s .server).consumed ++ (s .server).lost := by
  obtain h | h := live_or_cut hv hr
  · have hpos := (h .server).position
    have hpre := (h .server).consumed_le
    have htext := (h .server).text_eq (.inr (by simp [hfin .server]))
    simp only [Party.peer, hfin, linesRead, linesSent] at hpos hpre htext
    have heq := hpos.eq_text hpre
    refine ⟨(client_consumed h (hfin .client) ?_).1, ?_, ?_⟩
    · rw [hfin]
      rfl
    · rw [heq]
      exact text_mono (Nat.mul_le_mul_left 3 (Nat.sub_le ..))
    · rw [heq, List.self_eq_append_right] at htext
      simp only [List.append_eq_nil_iff] at htext
      rw [heq, htext.2.2.2, List.append_nil]
  · obtain ⟨j, i, hj, -, hpos⟩ := h.server_consumed
    refine ⟨h.client_consumed, (text_mono ?_).trans hpos.text_le, h.server_lost⟩
    omega

/-- **What is delivered**: in a session of one round or more, when both have finished, the client
has read all of the server's lines; the server has read the client's lines of all rounds but the
last and a part of those of the last, and all of them exactly if the client's `close` discarded
nothing. -/
theorem delivered_iff_none_lost (hr : run step (init v old) as = some s) (hv : 0 < v.toInt)
    (hfin : ∀ x, (s x).loc = .closed) :
    (s .client).consumed = copies (rounds v) .server ∧
      (∃ p, (s .server).consumed = copies (rounds v - 1) .client ++ p ∧
        p <+: (strs .client).flatten) ∧
      ((s .server).consumed = copies (rounds v) .client ↔ (s .server).lost = []) := by
  have hn : 0 < rounds v := by
    unfold rounds
    omega
  obtain ⟨hc, hge, hlost⟩ := finished hn hr hfin
  simp only [copies_eq_text]
  refine ⟨hc, ?_, ?_⟩
  · obtain ⟨p, hp⟩ := hge
    refine ⟨p, hp.symm, ?_⟩
    have hle : (s .server).consumed <+: text (line .client) (3 * rounds v) := ⟨_, hlost.symm⟩
    obtain ⟨n, hn⟩ := Nat.exists_eq_succ_of_ne_zero hn.ne'
    have hadd : text (line .client) (3 * n + 3) = text (line .client) (3 * n) ++ _ :=
      text_add (line_mul_add .client n)
    rw [← hp, hn, Nat.succ_sub_one, Nat.mul_succ, hadd] at hle
    rw [← text_three]
    exact (List.prefix_append_right_inj _).mp hle
  · rw [hlost, List.self_eq_append_right]

/-- The first half of a session of one round, up to where the client has the server's lines. -/
def asked : List (Party × Op) :=
  [(.client, .count), (.server, .deliver 4), (.server, .count), (.server, .send),
    (.server, .send), (.server, .send), (.client, .deliver 100), (.client, .refill 100)]

/-- The client closes while its lines are on their way. -/
def unanswered : List (Party × Op) :=
  [(.client, .send), (.client, .send), (.client, .send), (.client, .close), (.server, .eof),
    (.server, .eof), (.server, .eof), (.server, .close)]

def hasty : List (Party × Op) :=
  asked.append ((List.replicate 100 (Party.client, Op.fgetc)).append unanswered)

lemma run_hasty : ∃ s, run step (init 1 0) hasty = some s ∧ (∀ x, (s x).loc = .closed) ∧
    (s .server).consumed = [] := by
  obtain ⟨s, hr, hc, hs, hcons⟩ : ∃ s, run step (init 1 0) hasty = some s ∧
      (s .client).loc = .closed ∧ (s .server).loc = .closed ∧ (s .server).consumed = [] :=
    exists_run_of_any (by decide +kernel)
  refine ⟨s, hr, fun x => ?_, hcons⟩
  cases x
  · exact hc
  · exact hs

theorem delivered_iff_none_lost_hasty :
    ∃ s, run step (init 1 0) hasty = some s ∧ (s .client).consumed = copies 1 .server ∧
      (s .server).lost ≠ [] := by
  obtain ⟨s, hr, hfin, hs⟩ := run_hasty
  obtain ⟨hc, -, hiff⟩ := delivered_iff_none_lost hr (by decide) hfin
  refine ⟨s, hr, hc, fun hl => ?_⟩
  have hall := hiff.mpr hl
  rw [hs] at hall
  exact absurd hall (by decide)

theorem not_delivered_hasty :
    ∃ s, run step (init 1 0) hasty = some s ∧ (∀ x, (s x).loc = .closed) ∧
      (s .server).consumed ≠ copies 1 .client := by
  obtain ⟨s, hr, hfin, hs⟩ := run_hasty
  refine ⟨s, hr, hfin, ?_⟩
  rw [hs]
  decide

end Rtes.TcpLinger
