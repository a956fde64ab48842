import Mathlib

/-!
Tables whose entries are taken one at a time.

A request names a key and takes the first entry with that key that is still free. So the `n`-th
request for a key gets the `n`-th entry that has it, whatever requests for other keys come
between.
-/

namespace Rtes.FirstFree

variable {ε κ : Type*} [DecidableEq κ] (key : ε → κ)

/-- The entries with the key `k`. -/
def withKey (k : κ) (es : List ε) : List ε := es.filter (key · = k)

/-- Take the first free entry with the key `k`; an entry's flag says that it is taken. -/
def takeFirst (k : κ) : List (ε × Bool) → Option (ε × List (ε × Bool))
  | [] => none
  | (e, taken) :: es =>
    if key e = k ∧ taken = false then some (e, (e, true) :: es)
    else (takeFirst k es).map fun r => (r.1, (e, taken) :: r.2)

/-- The table after `c k` requests for each key `k`. -/
def after : List ε → (κ → ℕ) → List (ε × Bool)
  | [], _ => []
  | e :: es, c =>
    (e, decide (0 < c (key e))) :: after es (Function.update c (key e) (c (key e) - 1))

variable {key}

lemma after_zero (es : List ε) : after key es (fun _ => 0) = es.map (·, false) := by
  induction es with
  | nil => rfl
  | cons e es ih => simp [after, ih]

lemma fst_mem_of_mem_after {x : ε × Bool} {es : List ε} {c : κ → ℕ} (h : x ∈ after key es c) :
    x.1 ∈ es := by
  induction es generalizing c with
  | nil => cases h
  | cons e es ih =>
    obtain rfl | h := List.mem_cons.mp h
    · exact List.mem_cons_self ..
    · exact List.mem_cons_of_mem _ (ih h)

lemma withKey_cons (e : ε) (es : List ε) (k : κ) :
    withKey key k (e :: es) = if key e = k then e :: withKey key k es else withKey key k es := by
  simp [withKey, List.filter_cons]

lemma withKey_append_singleton (es : List ε) (e : ε) (k : κ) :
    withKey key k (es ++ [e]) = withKey key k es ++ if key e = k then [e] else [] := by
  simp [withKey, List.filter_append, List.filter_singleton]

/-- **The next request** for `k` gets the entry that is as many places down among those with
this key as there were requests for it. -/
theorem takeFirst_after (k : κ) (es : List ε) (c : κ → ℕ) :
    takeFirst key k (after key es c) = (withKey key k es)[c k]?.map fun e =>
      (e, after key es (Function.update c k (c k + 1))) := by
  induction es generalizing c with
  | nil => rfl
  | cons e es ih =>
    by_cases he : key e = k
    · subst he
      rw [after, takeFirst, withKey_cons, if_pos rfl]
      obtain hc | ⟨n, hc⟩ : c (key e) = 0 ∨ ∃ n, c (key e) = n + 1 := by
        cases c (key e) <;> simp
      · simp [hc, after]
      · rw [if_neg (by simp [hc]), ih]
        simp [hc, after, Option.map_map, Function.comp_def]
    · rw [after, takeFirst, if_neg (by simp [he]), ih, withKey_cons, if_neg he,
        Function.update_of_ne (Ne.symm he), after, Function.update_of_ne he,
        Function.update_comm (Ne.symm he)]
      simp [Option.map_map, Function.comp_def]

/-- A request that gets nothing leaves the table as it is. -/
lemma after_update_of_none {k : κ} {es : List ε} {c : κ → ℕ} (h : (withKey key k es)[c k]? = none) :
    after key es (Function.update c k (c k + 1)) = after key es c := by
  induction es generalizing c with
  | nil => rfl
  | cons e es ih =>
    by_cases he : key e = k
    · subst he
      rw [withKey_cons, if_pos rfl] at h
      obtain hc | ⟨n, hc⟩ : c (key e) = 0 ∨ ∃ n, c (key e) = n + 1 := by
        cases c (key e) <;> simp
      · simp [hc] at h
      · have hn := ih (c := Function.update c (key e) n) (by simpa [hc] using h)
        simpa [after, hc] using hn
    · rw [withKey_cons, if_neg he] at h
      have hn := ih (c := Function.update c (key e) (c (key e) - 1))
        (by rwa [Function.update_of_ne (Ne.symm he)])
      rw [Function.update_of_ne (Ne.symm he)] at hn
      rw [after, Function.update_of_ne he, Function.update_comm (Ne.symm he), hn, after]

end Rtes.FirstFree
