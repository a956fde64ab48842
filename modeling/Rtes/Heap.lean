import Mathlib

/-!
Heap blocks and the pointers that own them.

A block is what one `malloc` gave, and blocks are numbered in that order. The address of a freed
block can be given out again; a pointer to it then refers to the newer block. A block is owned
once when the pointers that refer to it and the times it was freed add up to one.
-/

namespace Rtes

/-- How many blocks there were, the last block at each address, and how often each was freed. -/
structure Heap (π : Type*) where
  count : ℕ
  block : π → Option ℕ
  freed : ℕ → ℕ

namespace Heap

variable {π : Type*}

def empty : Heap π := ⟨0, fun _ => none, fun _ => 0⟩

/-- There is no block in use at `p`. -/
def Avail (h : Heap π) (p : π) : Prop := ∀ k ∈ h.block p, 0 < h.freed k

instance (h : Heap π) (p : π) : Decidable (h.Avail p) :=
  inferInstanceAs (Decidable (∀ k ∈ h.block p, 0 < h.freed k))

/-- `malloc` gives the block at `p`. -/
def malloc [DecidableEq π] (h : Heap π) (p : π) : Heap π :=
  ⟨h.count + 1, Function.update h.block p (some h.count), h.freed⟩

def free (h : Heap π) (p : π) : Heap π :=
  match h.block p with
  | none => h
  | some k => { h with freed := Function.update h.freed k (h.freed k + 1) }

/-- How many of the pointers `ps` refer to block `k`. -/
def refs (h : Heap π) (ps : List π) (k : ℕ) : ℕ := ps.countP fun p => h.block p = some k

/-- The pointers `ps` own what they refer to: each refers to a block, and none to one that
another of them refers to or that has been freed. -/
structure Owns (h : Heap π) (ps : List π) : Prop where
  lt : ∀ {p k}, h.block p = some k → k < h.count
  fresh : ∀ {k}, h.count ≤ k → h.freed k = 0
  valid : ∀ {p}, p ∈ ps → ∃ k, h.block p = some k
  once : ∀ k, h.refs ps k + h.freed k ≤ 1

/-- Every block is owned or has been freed, and only once. -/
def Kept (h : Heap π) (ps : List π) : Prop := ∀ k < h.count, h.refs ps k + h.freed k = 1

variable {h : Heap π} {p q : π} {ps qs : List π} {k : ℕ}

lemma refs_append : h.refs (ps ++ qs) k = h.refs ps k + h.refs qs k := List.countP_append

lemma refs_cons : h.refs (p :: ps) k = h.refs ps k + if h.block p = some k then 1 else 0 := by
  simp [refs, List.countP_cons]

lemma refs_perm (hp : ps.Perm qs) : h.refs ps k = h.refs qs k := hp.countP_eq _

lemma refs_pos (hp : p ∈ ps) (hk : h.block p = some k) : 0 < h.refs ps k :=
  List.countP_pos_iff.mpr ⟨p, hp, by simp [hk]⟩

lemma owns_empty : (empty : Heap π).Owns [] :=
  ⟨(nomatch ·), fun _ => rfl, (nomatch ·), fun _ => Nat.zero_le 1⟩

lemma kept_empty : (empty : Heap π).Kept [] := fun _ hk => absurd hk (Nat.not_lt_zero _)

lemma Owns.perm (ho : h.Owns ps) (hp : ps.Perm qs) : h.Owns qs :=
  ⟨ho.lt, ho.fresh, fun hq => ho.valid (hp.mem_iff.mpr hq), fun k => refs_perm hp ▸ ho.once k⟩

lemma Kept.perm (hk : h.Kept ps) (hp : ps.Perm qs) : h.Kept qs :=
  fun k hlt => refs_perm hp ▸ hk k hlt

/-- A pointer that owns its block keeps it from being given out again. -/
lemma Owns.not_avail (ho : h.Owns ps) (hp : p ∈ ps) : ¬ h.Avail p := by
  intro ha
  obtain ⟨k, hk⟩ := ho.valid hp
  have h₁ := ha k hk
  have h₂ := refs_pos hp hk
  have h₃ := ho.once k
  omega

lemma Owns.freed_eq_zero (ho : h.Owns ps) (hp : p ∈ ps) (hk : h.block p = some k) :
    h.freed k = 0 := by
  have h₁ := refs_pos hp hk
  have h₂ := ho.once k
  omega

/-- No two of the pointers are equal. -/
lemma Owns.notMem_tail (ho : h.Owns (p :: ps)) : p ∉ ps := by
  intro hp
  obtain ⟨k, hk⟩ := ho.valid (List.mem_cons_self ..)
  have h₁ := refs_pos hp hk
  have h₂ := ho.once k
  rw [refs_cons, if_pos hk] at h₂
  omega

/-! ### Operations -/

lemma refs_malloc [DecidableEq π] (ho : h.Owns ps) (ha : h.Avail p) :
    (h.malloc p).refs (p :: ps) k = h.refs ps k + if k = h.count then 1 else 0 := by
  have hps : (h.malloc p).refs ps k = h.refs ps k := by
    refine List.countP_congr fun q hq => ?_
    have hne : q ≠ p := by
      rintro rfl
      exact ho.not_avail hq ha
    simp [malloc, Function.update_of_ne hne]
  rw [refs_cons, hps]
  simp [malloc, eq_comm]

lemma owners_free (ho : h.Owns (p :: ps)) :
    (h.free p).refs ps k + (h.free p).freed k = h.refs (p :: ps) k + h.freed k := by
  obtain ⟨j, hj⟩ := ho.valid (List.mem_cons_self ..)
  have hblock : (h.free p).refs ps k = h.refs ps k := by simp [free, hj, refs]
  rw [hblock, refs_cons, hj]
  by_cases hjk : k = j
  · subst hjk
    simp [free, hj]
    omega
  · simp [free, hj, hjk, Ne.symm hjk]

@[simp] lemma count_free : (h.free p).count = h.count := by
  unfold free
  split <;> rfl

@[simp] lemma block_free : (h.free p).block = h.block := by
  unfold free
  split <;> rfl

lemma Owns.malloc [DecidableEq π] (ho : h.Owns ps) (ha : h.Avail p) :
    (h.malloc p).Owns (p :: ps) where
  lt {q j} hq := by
    by_cases hqp : q = p
    · subst hqp
      simp only [Heap.malloc, Function.update_self, Option.some.injEq] at hq
      exact hq ▸ Nat.lt_succ_self _
    · simp only [Heap.malloc, Function.update_of_ne hqp] at hq
      exact (ho.lt hq).trans (Nat.lt_succ_self _)
  fresh hk := ho.fresh (Nat.le_of_succ_le hk)
  valid {q} hq := by
    by_cases hqp : q = p
    · exact ⟨h.count, by simp [Heap.malloc, hqp]⟩
    · obtain ⟨j, hj⟩ := ho.valid ((List.mem_cons.mp hq).resolve_left hqp)
      exact ⟨j, by simpa [Heap.malloc, Function.update_of_ne hqp] using hj⟩
  once j := by
    have h₁ := ho.once j
    rw [refs_malloc ho ha]
    split_ifs with hj
    · -- nothing refers to the new block yet
      have h₂ : h.refs ps j = 0 := by
        refine List.countP_eq_zero.mpr fun q _ hq => ?_
        have h₃ := ho.lt (of_decide_eq_true hq)
        omega
      have h₃ := ho.fresh hj.ge
      change h.refs ps j + 1 + h.freed j ≤ 1
      omega
    · exact h₁

lemma Owns.free (ho : h.Owns (p :: ps)) : (h.free p).Owns ps where
  lt hq := by
    rw [block_free] at hq
    rw [count_free]
    exact ho.lt hq
  fresh {k} hk := by
    rw [count_free] at hk
    obtain ⟨j, hj⟩ := ho.valid (List.mem_cons_self ..)
    have hkj : k ≠ j := ((ho.lt hj).trans_le hk).ne'
    simpa [Heap.free, hj, hkj] using ho.fresh hk
  valid hq := by
    rw [block_free]
    exact ho.valid (List.mem_cons_of_mem _ hq)
  once j := owners_free ho ▸ ho.once j

/-- The pointer is dropped. -/
lemma Owns.drop (ho : h.Owns (p :: ps)) : h.Owns ps where
  lt := ho.lt
  fresh := ho.fresh
  valid hq := ho.valid (List.mem_cons_of_mem _ hq)
  once k := by
    have h₁ := ho.once k
    rw [refs_cons] at h₁
    omega

lemma Kept.malloc [DecidableEq π] (hk : h.Kept ps) (ho : h.Owns ps) (ha : h.Avail p) :
    (h.malloc p).Kept (p :: ps) := by
  intro j hj
  rw [refs_malloc ho ha]
  split_ifs with hjc
  · have h₁ := (ho.malloc ha).once j
    rw [refs_malloc ho ha, if_pos hjc] at h₁
    omega
  · exact hk j (lt_of_le_of_ne (Nat.le_of_lt_succ hj) hjc)

lemma Kept.free (hk : h.Kept (p :: ps)) (ho : h.Owns (p :: ps)) : (h.free p).Kept ps := by
  intro j hj
  rw [owners_free ho]
  exact hk j (count_free ▸ hj)

/-- A dropped block has no owner and has not been freed. -/
lemma Owns.not_kept (ho : h.Owns (p :: ps)) : ¬ h.Kept ps := by
  intro hk
  obtain ⟨k, hp⟩ := ho.valid (List.mem_cons_self ..)
  have h₁ := hk k (ho.lt hp)
  have h₂ := ho.once k
  rw [refs_cons, if_pos hp] at h₂
  omega

end Heap

end Rtes
