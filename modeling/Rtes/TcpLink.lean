import Rtes.Lines
import Rtes.TcpModel

/-!
What the two ends of the connection agree on.

The bytes sent to a party are the ones it has read, those in its buffer, in its kernel and on
their way, and those discarded, in this order. How many lines a party has sent, and how many it
has read, can be told from where it is; so where one party is bounds where the other can be.
-/

namespace Rtes.TcpLink

open Rtes.Bytes Rtes.Lines Rtes.TcpModel

/-- The lines that a party sends, round after round. -/
def line (x : Party) (k : ℕ) : List Byte := (strs x).getD (k % NSTRS) []

/-- How many rounds there are. -/
def rounds (numSets : CInt) : ℕ := numSets.toInt.toNat

/-- How many lines a party has sent. -/
def linesSent (x : Party) (n : ℕ) : Loc → ℕ
  | .count => 0
  | .read j _ =>
    match x with
    | .client => 3 * j
    | .server => 3 * j + 3
  | .send j i => 3 * j + i
  | .close | .closed | .brokenPipe => 3 * n

/-- How many lines it has read. -/
def linesRead (x : Party) (n : ℕ) : Loc → ℕ
  | .count => 0
  | .read j i => 3 * j + i
  | .send j _ =>
    match x with
    | .client => 3 * j + 3
    | .server => 3 * j
  | .close | .closed | .brokenPipe => 3 * n

/-- Where a party can be in a session of `n` rounds in which no pipe breaks. -/
def Valid (n : ℕ) : Loc → Prop
  | .read j i | .send j i => j < n ∧ i < 3
  | .brokenPipe => False
  | _ => True

/-- What a party has sent before its lines, if it is the client; and what its peer has received
of that. -/
def header (numSets : CInt) (x : Party) (loc : Loc) : List Byte :=
  match x with
  | .client => if loc = .count then [] else toBytes 4 numSets.toNat
  | .server => []

/-! ### Lines -/

lemma ended_line (x : Party) : Ended (line x) newline := by
  have h : ∀ i < 3, (strs x).getD i [] = ((strs x).getD i []).dropLast ++ [newline] ∧
      newline ∉ ((strs x).getD i []).dropLast := by
    cases x <;> decide
  exact fun k => ⟨_, h (k % 3) (Nat.mod_lt _ (by decide))⟩

lemma line_add (x : Party) (k : ℕ) : line x (NSTRS + k) = line x k := by
  rw [line, line, Nat.add_mod_left]

lemma line_mul_add (x : Party) (j k : ℕ) : line x (NSTRS * j + k) = line x k := by
  rw [line, line, Nat.mul_add_mod]

lemma line_eq (x : Party) (j : ℕ) {i : ℕ} (hi : i < 3) :
    line x (3 * j + i) = (strs x).getD i [] := by
  rw [line, NSTRS, Nat.mul_add_mod, Nat.mod_eq_of_lt hi]

/-! ### Where the loops lead -/

variable {x : Party} {v : CInt} {j i : ℕ}

/-- A place in the loops, and how many lines have been sent and read there. -/
structure Place (x : Party) (n sent read : ℕ) (loc : Loc) : Prop where
  valid : Valid n loc
  sent : linesSent x n loc = sent
  read : linesRead x n loc = read
  open_ : loc ≠ .closed
  ne_count : loc ≠ .count

lemma place_nextRound (h : j ≤ rounds v) :
    Place x (rounds v) (3 * j) (3 * j) (nextRound x v j) := by
  unfold nextRound
  have hlt : (j : ℤ) < v.toInt ↔ j < rounds v := by
    unfold rounds
    omega
  split_ifs with hj
  · have hj' := hlt.mp hj
    cases x <;> exact ⟨⟨hj', by decide⟩, rfl, rfl, nofun, nofun⟩
  · obtain rfl : j = rounds v := h.antisymm (Nat.le_of_not_lt (mt hlt.mpr hj))
    exact ⟨trivial, rfl, rfl, nofun, nofun⟩

lemma place_nextRead (hj : j < rounds v) (hi : i < 3) :
    Place x (rounds v) (linesSent x (rounds v) (.read j i)) (3 * j + i + 1)
      (nextRead x v j i) := by
  unfold nextRead NSTRS
  split_ifs with hi'
  · exact ⟨⟨hj, hi'⟩, by cases x <;> rfl, rfl, nofun, nofun⟩
  · obtain rfl : i = 2 := by omega
    cases x with
    | client => exact ⟨⟨hj, by decide⟩, rfl, rfl, nofun, nofun⟩
    | server => exact place_nextRound (x := .server) (j := j + 1) hj

lemma place_nextSend (hj : j < rounds v) (hi : i < 3) :
    Place x (rounds v) (3 * j + i + 1) (linesRead x (rounds v) (.send j i))
      (nextSend x v j i) := by
  unfold nextSend NSTRS
  split_ifs with hi'
  · exact ⟨⟨hj, hi'⟩, rfl, by cases x <;> rfl, nofun, nofun⟩
  · obtain rfl : i = 2 := by omega
    cases x with
    | client => exact place_nextRound (x := .client) (j := j + 1) hj
    | server => exact ⟨⟨hj, by decide⟩, rfl, rfl, nofun, nofun⟩

/-! ### The connection -/

/-- What holds of the end `e` of the party `x` and of its peer's end `e'`, as long as no input
has ended. -/
structure Link (v : CInt) (x : Party) (e e' : End) : Prop where
  valid : Valid (rounds v) e.loc
  numSets : (x = .server ∧ e.loc = .count) ∨ e.numSets = v
  fresh : e.loc = .count → e.consumed = [] ∧ e.buf = []
  stream : header v x.peer e'.loc ++ text (line x.peer) (linesSent x.peer (rounds v) e'.loc) =
    header v x.peer e.loc ++ (e.consumed ++ (e.buf ++ (e.recvq ++ (e.net ++ e.lost))))
  position : At (line x.peer) newline (linesRead x (rounds v) e.loc) e.consumed
  lost : e'.loc ≠ .closed → e.lost = []
  net : e'.loc = .closed → e.net = []

def Live (v : CInt) (s : State) : Prop := ∀ x, Link v x (s x) (s x.peer)

lemma live_ends {e e' : End} (h : Link v x e e') (h' : Link v x.peer e' e) :
    Live v (ends x e e') := by
  intro y
  obtain rfl | rfl := x.eq_or_eq_peer y
  · rwa [ends_self, ends_peer]
  · rwa [ends_peer, Party.peer_peer, ends_self]

lemma live_init (v old : CInt) : Live v (init v old) := by
  intro x
  cases x <;>
    exact ⟨trivial, by simp [init], fun _ => ⟨rfl, rfl⟩, rfl, at_zero, fun _ => rfl, fun _ => rfl⟩

variable {e e' e₁ e₁' : End}

/-- Everything sent to a party after the count. -/
lemma Link.text_eq (h : Link v x e e') (hloc : x = .client ∨ e.loc ≠ .count) :
    text (line x.peer) (linesSent x.peer (rounds v) e'.loc) =
      e.consumed ++ (e.buf ++ (e.recvq ++ (e.net ++ e.lost))) := by
  have hs := h.stream
  cases x with
  | client => exact hs
  | server =>
    have hc := hloc.resolve_left nofun
    by_cases hc' : e'.loc = .count
    · -- the count cannot have been received before it is sent
      have hlen := congrArg List.length hs
      simp [header, Party.peer, hc, hc', linesSent] at hlen
      omega
    · simpa only [header, Party.peer, if_neg hc, if_neg hc', List.append_cancel_left_eq] using hs

lemma Link.consumed_le (h : Link v x e e') :
    e.consumed <+: text (line x.peer) (linesSent x.peer (rounds v) e'.loc) := by
  by_cases hloc : e.loc = .count
  · rw [(h.fresh hloc).1]
    exact List.nil_prefix
  · rw [h.text_eq (Or.inr hloc)]
    exact List.prefix_append ..

/-- **A party reads no line before it is sent.** -/
lemma Link.read_le (h : Link v x e e') :
    linesRead x (rounds v) e.loc ≤ linesSent x.peer (rounds v) e'.loc :=
  h.position.le (ended_line _) h.consumed_le

/-- A party that is sending has a peer that is still reading. -/
lemma Link.peer_open (h : Link v x e e') (h' : Link v x.peer e' e) (hloc : e.loc = .send j i) :
    e'.loc ≠ .closed := by
  intro hc
  have hle := h'.read_le
  have hv := h.valid
  rw [hloc] at hv
  rw [hc, hloc, Party.peer_peer] at hle
  simp only [linesRead, linesSent] at hle
  have := hv.1
  have := hv.2
  omega

/-- An end depends on its peer's only through how much that has sent. -/
lemma Link.congr_peer (h : Link v x e e')
    (hh : header v x.peer e₁'.loc = header v x.peer e'.loc)
    (hs : linesSent x.peer (rounds v) e₁'.loc = linesSent x.peer (rounds v) e'.loc)
    (hc : e₁'.loc = .closed ↔ e'.loc = .closed) : Link v x e e₁' where
  valid := h.valid
  numSets := h.numSets
  fresh := h.fresh
  stream := by rw [hh, hs, h.stream]
  position := h.position
  lost ho := h.lost (mt hc.mpr ho)
  net ho := h.net (hc.mp ho)

lemma header_congr {loc loc' : Loc} (h : loc = .count ↔ loc' = .count) :
    header v x loc = header v x loc' := by
  cases x
  · simp only [header, h]
  · rfl

/-! ### Steps -/

lemma link_deliver {count : ℕ} (h : Link v x e e') :
    Link v x { e with recvq := e.recvq ++ e.net.take count, net := e.net.drop count } e' where
  valid := h.valid
  numSets := h.numSets
  fresh := h.fresh
  stream := by
    rw [List.append_assoc, ← List.append_assoc (e.net.take count), List.take_append_drop]
    exact h.stream
  position := h.position
  lost := h.lost
  net hc := by simp [h.net hc]

lemma link_refill {count : ℕ} (h : Link v x e e') (hloc : e.loc = .read j i) (hb : e.buf = []) :
    Link v x { e with buf := e.recvq.take count, recvq := e.recvq.drop count } e' where
  valid := h.valid
  numSets := h.numSets
  fresh hc := by simp [hloc] at hc
  stream := by
    rw [← List.append_assoc (e.recvq.take count), List.take_append_drop, h.stream, hb,
      List.nil_append]
  position := h.position
  lost := h.lost
  net := h.net

/-- Reading a character. -/
lemma link_fgetc {c : Byte} {buf : List Byte} {loc : Loc} {a b : ℕ} (h : Link v x e e')
    (hloc : e.loc = .read j i) (hb : e.buf = c :: buf) (hp : Place x (rounds v) a b loc)
    (hpos : At (line x.peer) newline b (e.consumed ++ [c])) :
    Link v x { e with buf := buf, consumed := e.consumed ++ [c], loc := loc } e' where
  valid := hp.valid
  numSets := .inr (h.numSets.resolve_left (by simp [hloc]))
  fresh hc := absurd hc hp.ne_count
  stream := by
    have hheader : header v x.peer loc = header v x.peer e.loc :=
      header_congr (iff_of_false hp.ne_count (by simp [hloc]))
    rw [hheader, h.stream, hb]
    simp
  position := hp.read.symm ▸ hpos
  lost := h.lost
  net := h.net

/-- **The reading loop** goes on to the next line at a newline. -/
lemma live_fgetc {c : Byte} {buf : List Byte} (h : Link v x e e') (h' : Link v x.peer e' e)
    (hloc : e.loc = .read j i) (hb : e.buf = c :: buf) :
    Live v (ends x { e with
      buf := buf
      consumed := e.consumed ++ [c]
      loc := if c = newline then nextRead x e.numSets j i else e.loc } e') := by
  obtain ⟨hj, hi⟩ : j < rounds v ∧ i < 3 := by simpa [hloc, Valid] using h.valid
  have hn : e.numSets = v := h.numSets.resolve_left (by simp [hloc])
  have hpos := h.position
  rw [hloc] at hpos
  have hp : ∃ b, Place x (rounds v) (linesSent x (rounds v) e.loc) b
        (if c = newline then nextRead x e.numSets j i else e.loc) ∧
      At (line x.peer) newline b (e.consumed ++ [c]) := by
    rw [hn, hloc]
    split_ifs with hc
    · refine ⟨_, place_nextRead hj hi, ?_⟩
      have hpre : e.consumed ++ [c] <+:
          text (line x.peer) (linesSent x.peer (rounds v) e'.loc) := by
        rw [h.text_eq (.inr (by simp [hloc])), hb]
        exact ⟨_, List.append_assoc ..⟩
      subst hc
      exact hpos.newline (ended_line _) hpre
    · exact ⟨_, ⟨⟨hj, hi⟩, rfl, rfl, nofun, nofun⟩, hpos.other hc⟩
  obtain ⟨b, hp, hpos'⟩ := hp
  refine live_ends (link_fgetc h hloc hb hp hpos') (h'.congr_peer ?_ ?_ ?_)
  · exact header_congr (iff_of_false hp.ne_count (by simp [hloc]))
  · rw [Party.peer_peer]
    exact hp.sent
  · exact iff_of_false hp.open_ (by simp [hloc])

/-- Going on without reading. -/
lemma Link.goto (h : Link v x e e') {loc : Loc} {a : ℕ}
    (hp : Place x (rounds v) a (linesRead x (rounds v) e.loc) loc) (hn : e.numSets = v)
    (hh : header v x.peer loc = header v x.peer e.loc) : Link v x { e with loc := loc } e' where
  valid := hp.valid
  numSets := .inr hn
  fresh hc := absurd hc hp.ne_count
  stream := by rw [hh, h.stream]
  position := hp.read.symm ▸ h.position
  lost := h.lost
  net := h.net

lemma live_send (h : Link v x e e') (h' : Link v x.peer e' e) (hloc : e.loc = .send j i) :
    Live v (ends x { e with loc := nextSend x e.numSets j i }
      { e' with net := e'.net ++ (strs x).getD i [] }) := by
  obtain ⟨hj, hi⟩ : j < rounds v ∧ i < 3 := by simpa [hloc, Valid] using h.valid
  have hn : e.numSets = v := h.numSets.resolve_left (by simp [hloc])
  have hp : Place x (rounds v) (3 * j + i + 1) (linesRead x (rounds v) e.loc)
      (nextSend x e.numSets j i) := by
    rw [hn, hloc]
    exact place_nextSend hj hi
  have hne : e.loc ≠ .count := by simp [hloc]
  refine live_ends ?_ ?_
  · refine (h.goto hp hn ?_).congr_peer rfl rfl Iff.rfl
    exact header_congr (iff_of_false hp.ne_count hne)
  · refine ⟨h'.valid, h'.numSets, h'.fresh, ?_, h'.position, ?_, ?_⟩
    · have hs := h'.stream
      have hlost : e'.lost = [] := h'.lost (by simp [hloc])
      rw [Party.peer_peer, hlost, List.append_nil, hloc] at hs
      change _ ++ text (line x) (3 * j + i) = _ at hs
      rw [Party.peer_peer, hp.sent, text_succ, line_eq x j hi, hlost, List.append_nil,
        header_congr (iff_of_false hp.ne_count hne), hloc, ← List.append_assoc, hs]
      simp only [List.append_assoc]
    · exact fun _ => h'.lost (by simp [hloc])
    · exact fun hc => absurd hc hp.open_

lemma live_close (h : Link v x e e') (h' : Link v x.peer e' e) (hloc : e.loc = .close) :
    Live v (ends x { e with loc := .closed } { e' with net := [], lost := e'.net }) := by
  have hlost : e'.lost = [] := h'.lost (by simp [hloc])
  refine live_ends ?_ ?_
  · refine ⟨trivial, .inr (h.numSets.resolve_left (by simp [hloc])), nofun, ?_, ?_, h.lost, h.net⟩
    · have hheader : header v x.peer .closed = header v x.peer e.loc :=
        header_congr (by simp [hloc])
      rw [hheader]
      exact h.stream
    · have hpos := h.position
      rw [hloc] at hpos
      exact hpos
  · refine ⟨h'.valid, h'.numSets, h'.fresh, ?_, h'.position, fun ho => absurd rfl ho, fun _ => rfl⟩
    have hs := h'.stream
    rw [hloc, hlost, List.append_nil] at hs
    exact hs

lemma live_count_client (h : Link v .client e e') (h' : Link v .server e' e)
    (hloc : e.loc = .count) :
    Live v (ends .client { e with loc := nextRound .client e.numSets 0 }
      { e' with net := e'.net ++ toBytes 4 e.numSets.toNat }) := by
  obtain rfl : e.numSets = v := h.numSets.resolve_left (by simp)
  have hp : Place .client (rounds e.numSets) 0 0 (nextRound .client e.numSets 0) :=
    place_nextRound (Nat.zero_le _)
  have hgo : Link e.numSets .client { e with loc := nextRound .client e.numSets 0 } e' := by
    refine h.goto (a := 0) ?_ rfl rfl
    rw [hloc]
    exact hp
  refine live_ends (hgo.congr_peer rfl rfl Iff.rfl) ?_
  refine ⟨h'.valid, h'.numSets, h'.fresh, ?_, h'.position, ?_, ?_⟩
  · -- nothing has been sent before the count
    have hs := h'.stream
    simp only [Party.peer, hloc, header, if_true, linesSent, text_zero, List.nil_append,
      List.nil_eq, List.append_eq_nil_iff] at hs
    obtain ⟨hh, hc, hb, hr, hnet, hl⟩ := hs
    simp only [Party.peer, header, if_neg hp.ne_count, hp.sent, hh, hc, hb, hr, hnet, hl,
      text_zero, List.nil_append, List.append_nil]
  · exact fun _ => h'.lost (by simp [hloc])
  · exact fun hc => absurd hc hp.open_

lemma live_count_server (h : Link v .server e e') (h' : Link v .client e' e)
    (hloc : e.loc = .count) (hlen : 4 ≤ e.recvq.length) :
    Live v (ends .server { e with
      numSets := BitVec.ofNat _ (ofBytes (e.recvq.take 4))
      recvq := e.recvq.drop 4
      loc := nextRound .server (BitVec.ofNat _ (ofBytes (e.recvq.take 4))) 0 } e') := by
  obtain ⟨hc, hb⟩ := h.fresh hloc
  have hs := h.stream
  simp only [Party.peer, hloc, hc, hb, header, if_true, List.nil_append] at hs
  have hne : e'.loc ≠ .count := by
    intro hcount
    have hl := congrArg List.length hs
    simp [hcount, linesSent] at hl
    omega
  rw [if_neg hne] at hs
  -- the first four bytes are the count
  have htake : e.recvq.take 4 = toBytes 4 v.toNat := by
    have ht := congrArg (List.take 4) hs
    rw [List.take_left' (length_toBytes ..), List.take_append_of_le_length hlen] at ht
    exact ht.symm
  have hdrop : text (line .client) (linesSent .client (rounds v) e'.loc) =
      e.recvq.drop 4 ++ (e.net ++ e.lost) := by
    have hd := congrArg (List.drop 4) hs
    rwa [List.drop_left' (length_toBytes ..), List.drop_append_of_le_length hlen] at hd
  have hn : BitVec.ofNat (8 * 4) (ofBytes (e.recvq.take 4)) = v := by
    rw [htake, ofNat_ofBytes]
  have hp : Place .server (rounds v) 0 0 (nextRound .server v 0) := place_nextRound (Nat.zero_le _)
  rw [hn]
  refine live_ends ?_ (h'.congr_peer rfl ?_ ?_)
  · refine ⟨hp.valid, .inr rfl, fun hcount => absurd hcount hp.ne_count, ?_, ?_, h.lost, h.net⟩
    · simp only [Party.peer, header, if_neg hne, if_neg hp.ne_count, hdrop, hc, hb,
        List.nil_append]
    · rw [hp.read, hc]
      exact at_zero
  · rw [hloc]
    exact hp.sent
  · exact iff_of_false hp.open_ (by simp [hloc])

/-- **One step** keeps the ends in agreement, unless it finds the end of an input. -/
lemma live_step {s s' : State} {op : Op} (h : Live v s) (hs : step s (x, op) = some s')
    (hop : op ≠ .eof) : Live v s' := by
  obtain ⟨e, e', hact, rfl⟩ := step_eq_some.mp hs
  have hx := h x
  have hx' := h x.peer
  rw [Party.peer_peer] at hx'
  cases op with
  | count =>
    cases x with
    | client =>
      simp only [act] at hact
      split_ifs at hact with hloc
      cases hact
      exact live_count_client hx hx' hloc
    | server =>
      simp only [act] at hact
      split_ifs at hact with hloc
      cases hact
      exact live_count_server hx hx' hloc.1 hloc.2
  | send =>
    simp only [act] at hact
    split at hact
    · next j i hloc =>
      rw [if_neg (hx.peer_open hx' hloc)] at hact
      cases hact
      exact live_send hx hx' hloc
    · cases hact
  | deliver count =>
    simp only [act] at hact
    split_ifs at hact
    cases hact
    exact live_ends (link_deliver hx) (hx'.congr_peer rfl rfl Iff.rfl)
  | refill count =>
    simp only [act] at hact
    split at hact
    · next j i hloc =>
      split_ifs at hact with hb
      cases hact
      exact live_ends (link_refill hx hloc hb.1) (hx'.congr_peer rfl rfl Iff.rfl)
    · cases hact
  | fgetc =>
    simp only [act] at hact
    split at hact
    · next j i c buf hloc hb =>
      cases hact
      exact live_fgetc hx hx' hloc hb
    · cases hact
  | eof => exact absurd rfl hop
  | close =>
    simp only [act] at hact
    split_ifs at hact with hloc
    cases hact
    exact live_close hx hx' hloc

end Rtes.TcpLink
