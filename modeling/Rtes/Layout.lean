import Rtes.Bytes

/-!
Structures of C in memory: where a compiler puts their fields, and loads that are recorded.

Fields are laid out in order, each at the next multiple of its alignment, and a structure is as
strictly aligned as its strictest field and as long as its alignment asks for. What alignment a
scalar has is left to the caller.
-/

namespace Rtes.Layout

open Rtes.Bytes

/-! ### Layout -/

structure Shape where
  size : ℕ
  align : ℕ

/-- The next multiple of `a`. -/
def roundUp (a x : ℕ) : ℕ := (x + a - 1) / a * a

section

variable {ι : Type*}

/-- Where the fields end when they start at `x`. -/
def extent : ℕ → List (ι × Shape) → ℕ
  | x, [] => x
  | x, (_, s) :: fs => extent (roundUp s.align x + s.size) fs

/-- The offset of a field when the fields start at `x`; the end of them if there is none. -/
def offsetFrom [DecidableEq ι] (f : ι) : ℕ → List (ι × Shape) → ℕ
  | x, [] => x
  | x, (g, s) :: fs =>
    if g = f then roundUp s.align x else offsetFrom f (roundUp s.align x + s.size) fs

def offset [DecidableEq ι] (fs : List (ι × Shape)) (f : ι) : ℕ := offsetFrom f 0 fs

def fieldSize [DecidableEq ι] (fs : List (ι × Shape)) (f : ι) : ℕ :=
  ((fs.find? fun g => g.1 = f).map fun g => g.2.size).getD 0

def Shape.struct (fs : List (ι × Shape)) : Shape :=
  let align := fs.foldl (fun a f => max a f.2.align) 1
  ⟨roundUp align (extent 0 fs), align⟩

end

def Shape.array (n : ℕ) (s : Shape) : Shape := ⟨n * s.size, s.align⟩

/-! ### Recorded loads -/

/-- A value computed from memory, with the offsets of the bytes read for it. -/
@[ext] structure Look (α : Type) where
  value : α
  read : List ℕ

instance : Monad Look where
  pure a := ⟨a, []⟩
  bind x f := ⟨(f x.value).value, x.read ++ (f x.value).read⟩

/-- An object of `size` bytes at `off`, the least significant byte first. -/
def load (mem : Buf) (off size : ℕ) : Look ℕ :=
  ⟨ofBytes (slice mem off size), List.range' off size⟩

/-- The field `f` of the structure at `base`. -/
def member {ι : Type*} [DecidableEq ι] (mem : Buf) (fs : List (ι × Shape)) (base : ℕ) (f : ι) :
    Look ℕ :=
  load mem (base + offset fs f) (fieldSize fs f)

section

variable {α β : Type} (a : α) (x : Look α) (f : α → Look β) (g : α → β) (l : List α)

@[simp] lemma value_pure : (pure a : Look α).value = a := rfl

@[simp] lemma read_pure : (pure a : Look α).read = [] := rfl

@[simp] lemma value_bind : (x >>= f).value = (f x.value).value := rfl

@[simp] lemma read_bind : (x >>= f).read = x.read ++ (f x.value).read := rfl

@[simp] lemma value_map : (g <$> x).value = g x.value := rfl

@[simp] lemma read_map : (g <$> x).read = x.read := List.append_nil x.read

instance : LawfulMonad Look :=
  LawfulMonad.mk' Look
    (fun x => by ext1 <;> simp)
    (fun _ _ => rfl)
    (fun x f g => by ext1 <;> simp)

@[simp] lemma value_mapM : (l.mapM f).value = l.map fun a => (f a).value := by
  induction l with
  | nil => rfl
  | cons a l ih => simp [List.mapM_cons, ih]

@[simp] lemma read_mapM : (l.mapM f).read = l.flatMap fun a => (f a).read := by
  induction l with
  | nil => rfl
  | cons a l ih => simp [List.mapM_cons, ih]

end

end Rtes.Layout
