import Rtes.CString

/-!
The names and headers of the frames that `sequencer_generic/capturelib.c` dumps.

`dump_ppm` and `dump_pgm` print the tag into a static array that holds the name of the file, and
the time into another that holds the header, at fixed places, and put the text that follows
back behind each number. The header always fits. The name has room for four digits only: the
text behind a fifth runs past its array. The same code is in `simple-capture-1800-syslog/capture.c`.
-/

namespace Rtes.CaptureNames

open Rtes.Bytes Rtes.CString

inductive Format
  | ppm
  | pgm

def Format.suffix : Format → String
  | .ppm => ".ppm"
  | .pgm => ".pgm"

/-- The start of a header, which is never written again. -/
def Format.magic : Format → String
  | .ppm => "P6\n#"
  | .pgm => "P5\n#"

/-- The arrays `ppm_dumpname` and `ppm_header`, or those of `dump_pgm`. -/
structure Buffers where
  dumpname : List Byte
  header : List Byte

def Format.initial : Format → Buffers
  | .ppm => ⟨text "frames/test0000.ppm" ++ [0],
      text "P6\n#9999999999 sec 9999999999 msec \n640 480\n255\n" ++ [0]⟩
  | .pgm => ⟨text "frames/test0000.pgm" ++ [0],
      text "P5\n#9999999999 sec 9999999999 msec \n640 480\n255\n" ++ [0]⟩

/-- The tag and the time of a call. -/
structure Call where
  tag : ℕ
  sec : ℕ
  nsec : ℕ
  tag_lt : tag < 2 ^ 31
  sec_lt : sec < 2 ^ 31
  nsec_lt : nsec < 10 ^ 9

def patchName (f : Format) (tag : ℕ) (dumpname : List Byte) : Option (List Byte) := do
  let dumpname ← snprintf dumpname 11 9 (decimal 4 tag)
  strncat dumpname 15 (text f.suffix) 5

def patchHeader (sec nsec : ℕ) (header : List Byte) : Option (List Byte) := do
  let header ← snprintf header 4 11 (decimal 10 sec)
  let header ← strncat header 14 (text " sec ") 5
  let header ← snprintf header 19 11 (decimal 10 (nsec / 1000000))
  strncat header 29 (text " msec \n640 480\n255\n") 19

def patch (f : Format) (c : Call) (s : Buffers) : Option Buffers := do
  let dumpname ← patchName f c.tag s.dumpname
  let header ← patchHeader c.sec c.nsec s.header
  some ⟨dumpname, header⟩

/-- What a call gives to `open` and to the first `write`. -/
structure Request where
  name : List Byte
  header : List Byte

def Buffers.request (s : Buffers) : Request :=
  ⟨cstr s.dumpname, s.header.take (s.header.length - 1)⟩

/-- The requests of one call after another. -/
def dumps (f : Format) : List Call → Buffers → Option (List Request)
  | [], _ => some []
  | c :: cs, s => do
    let s ← patch f c s
    let rest ← dumps f cs s
    some (s.request :: rest)

/-! ### One call -/

def nameOf (f : Format) (tag : ℕ) : List Byte :=
  text "frames/test" ++ decimal 4 tag ++ text f.suffix

def headerOf (f : Format) (sec nsec : ℕ) : List Byte :=
  text f.magic ++ decimal 10 sec ++ text " sec " ++ decimal 10 (nsec / 1000000) ++
    text " msec \n640 480\n255\n"

/-- What all calls keep: the sizes of the arrays and the start of each. -/
structure Ready (f : Format) (s : Buffers) : Prop where
  dumpname : ∃ r, s.dumpname = text "frames/test" ++ r ∧ r.length = 9
  header : ∃ r, s.header = text f.magic ++ r ∧ r.length = 45

lemma length_decimal_ten {x : ℕ} (h : x < 2 ^ 31) : (decimal 10 x).length = 10 := by
  have hdigits := (Nat.digits_length_le_iff (by norm_num : 1 < 10) x (k := 10)).mpr (by omega)
  rw [length_decimal, max_eq_left hdigits]

lemma length_decimal_four {x : ℕ} : (decimal 4 x).length = 4 ↔ x < 10000 := by
  have hdigits := Nat.digits_length_le_iff (by norm_num : 1 < 10) x (k := 4)
  rw [length_decimal, max_eq_left_iff, hdigits]
  norm_num

lemma length_suffix (f : Format) : (text f.suffix).length = 4 := by cases f <;> rfl

lemma length_magic (f : Format) : (text f.magic).length = 4 := by cases f <;> rfl

lemma snprintf_take {buf t : List Byte} {off n : ℕ} :
    snprintf buf off n t = snprintf buf off n (t.take (n - 1)) := by
  unfold snprintf
  rw [List.take_take, min_self]

/-- **The name** is complete exactly where the tag has four digits. -/
lemma patchName_eq (f : Format) (tag : ℕ) {r : List Byte} (hr : r.length = 9) :
    patchName f tag (text "frames/test" ++ r) =
      if tag < 10000 then some (nameOf f tag ++ [0]) else none := by
  -- only eight characters of the tag are printed
  have hfour : 4 ≤ (decimal 4 tag).length := by
    rw [length_decimal]
    exact le_max_left _ _
  have hlen : ((decimal 4 tag).take 8).length = min 8 (decimal 4 tag).length := List.length_take
  have hzero : (0 : Byte) ∉ (decimal 4 tag).take 8 :=
    fun h => zero_notMem_decimal 4 tag (List.mem_of_mem_take h)
  have hprint := snprintf_strncat (text "frames/test") r (text f.suffix) (n := 9) (m := 5)
    (j := 4) hzero (by omega) (by rw [length_suffix]; omega) (by omega) (by omega)
  rw [length_suffix, hr] at hprint
  unfold patchName
  rw [snprintf_take]
  refine hprint.trans ?_
  by_cases h : tag < 10000
  · have h4 := length_decimal_four.mpr h
    have htake : (decimal 4 tag).take 8 = decimal 4 tag := List.take_of_length_le (by omega)
    rw [if_pos h, if_pos (by omega), htake, h4, List.drop_eq_nil_of_le (by omega)]
    rfl
  · have h4 := mt length_decimal_four.mp h
    rw [if_neg h, if_neg (by omega)]

/-- **The header** always fits. -/
lemma patchHeader_eq (f : Format) {sec nsec : ℕ} (hsec : sec < 2 ^ 31) (hnsec : nsec < 10 ^ 9)
    {r : List Byte} (hr : r.length = 45) :
    patchHeader sec nsec (text f.magic ++ r) = some (headerOf f sec nsec ++ [0]) := by
  have hlen := length_decimal_ten hsec
  have hlen' := length_decimal_ten (x := nsec / 1000000) (by omega)
  have hsecLen : (text " sec ").length = 5 := rfl
  have hmsecLen : (text " msec \n640 480\n255\n").length = 19 := rfl
  let a := text f.magic ++ decimal 10 sec ++ text " sec "
  let rest := (0 : Byte) :: r.drop 16
  have ha : a.length = 19 := by simp [a, length_magic, hlen, hsecLen]
  have hrest : rest.length = 30 := by simp [rest, hr]
  have hprint := snprintf_strncat (text f.magic) r (text " sec ") (n := 11) (m := 5) (j := 10)
    (zero_notMem_decimal 10 sec) (by omega) (by omega) (by omega) (by omega)
  have hprint' := snprintf_strncat a rest (text " msec \n640 480\n255\n") (n := 11) (m := 19)
    (j := 10) (zero_notMem_decimal 10 (nsec / 1000000)) (by omega) (by omega) (by omega) (by omega)
  rw [hlen, hsecLen, hr, if_pos (by omega), length_magic] at hprint
  rw [hlen', hmsecLen, hrest, if_pos (by omega), ha, List.drop_eq_nil_of_le (by omega)] at hprint'
  unfold patchHeader
  refine (Option.bind_assoc ..).symm.trans ?_
  rw [hprint, Option.bind_some]
  exact hprint'

lemma ready_initial (f : Format) : Ready f f.initial := by
  cases f
  · exact ⟨⟨text "0000.ppm" ++ [0], by decide +kernel, by decide +kernel⟩,
      ⟨text "9999999999 sec 9999999999 msec \n640 480\n255\n" ++ [0], by decide +kernel,
        by decide +kernel⟩⟩
  · exact ⟨⟨text "0000.pgm" ++ [0], by decide +kernel, by decide +kernel⟩,
      ⟨text "9999999999 sec 9999999999 msec \n640 480\n255\n" ++ [0], by decide +kernel,
        by decide +kernel⟩⟩

/-- The arrays after a call. -/
def Call.buffers (f : Format) (c : Call) : Buffers :=
  ⟨nameOf f c.tag ++ [0], headerOf f c.sec c.nsec ++ [0]⟩

lemma patch_eq {f : Format} {s : Buffers} (h : Ready f s) (c : Call) :
    patch f c s = if c.tag < 10000 then some (c.buffers f) else none := by
  obtain ⟨⟨r, hname, hr⟩, ⟨r', hheader, hr'⟩⟩ := h
  unfold patch
  rw [hname, hheader, patchName_eq f c.tag hr, patchHeader_eq f c.sec_lt c.nsec_lt hr']
  split_ifs with htag
  · rfl
  · rfl

lemma length_headerOf (f : Format) {sec nsec : ℕ} (hsec : sec < 2 ^ 31) (hnsec : nsec < 10 ^ 9) :
    (headerOf f sec nsec).length = 48 := by
  have hmsec := length_decimal_ten (x := nsec / 1000000) (by omega)
  simp only [headerOf, List.length_append, length_magic, length_decimal_ten hsec, hmsec]
  rfl

lemma ready_buffers (f : Format) {c : Call} (h : c.tag < 10000) : Ready f (c.buffers f) := by
  refine ⟨⟨decimal 4 c.tag ++ text f.suffix ++ [0], by simp [Call.buffers, nameOf], ?_⟩,
    ⟨decimal 10 c.sec ++ text " sec " ++ decimal 10 (c.nsec / 1000000) ++
      text " msec \n640 480\n255\n" ++ [0], by simp [Call.buffers, headerOf], ?_⟩⟩
  · simp [length_decimal_four.mpr h, length_suffix]
  · have hmsec := length_decimal_ten (x := c.nsec / 1000000) (by have := c.nsec_lt; omega)
    simp only [List.length_append, length_decimal_ten c.sec_lt, hmsec]
    rfl

def Call.request (f : Format) (c : Call) : Request := ⟨nameOf f c.tag, headerOf f c.sec c.nsec⟩

lemma zero_notMem_nameOf (f : Format) (tag : ℕ) : (0 : Byte) ∉ nameOf f tag := by
  have hstart : (0 : Byte) ∉ text "frames/test" := by decide
  have hsuffix : (0 : Byte) ∉ text f.suffix := by cases f <;> decide
  simp only [nameOf, List.mem_append, not_or]
  exact ⟨⟨hstart, zero_notMem_decimal 4 tag⟩, hsuffix⟩

lemma request_buffers (f : Format) (c : Call) : (c.buffers f).request = c.request f := by
  have hname : cstr (nameOf f c.tag ++ [0]) = nameOf f c.tag :=
    cstr_text (zero_notMem_nameOf f c.tag)
  simp only [Buffers.request, Call.buffers, Call.request, hname, List.length_append,
    List.length_singleton, Nat.add_sub_cancel, List.take_left]

/-! ### A run of calls -/

/-- **A run with short tags** gives each call its name and its header, whatever was printed
before. -/
lemma dumps_of_short {f : Format} {s : Buffers} (hs : Ready f s) {cs : List Call}
    (h : ∀ c ∈ cs, c.tag < 10000) : dumps f cs s = some (cs.map (Call.request f)) := by
  induction cs generalizing s with
  | nil => rfl
  | cons c cs ih =>
    obtain ⟨hc, hcs⟩ := List.forall_mem_cons.mp h
    rw [dumps, patch_eq hs, if_pos hc]
    dsimp only [Option.bind_eq_bind, Option.bind_some]
    rw [ih (ready_buffers f hc) hcs, request_buffers]
    rfl

/-- **A tag of five digits** ends it. -/
lemma dumps_of_long {f : Format} {s : Buffers} (hs : Ready f s) {cs : List Call} {c : Call}
    (hc : c ∈ cs) (h : 10000 ≤ c.tag) : dumps f cs s = none := by
  induction cs generalizing s with
  | nil => cases hc
  | cons c' cs ih =>
    rw [dumps, patch_eq hs]
    by_cases hc' : c'.tag < 10000
    · have hmem : c ∈ cs := (List.mem_cons.mp hc).resolve_left fun he => by subst he; omega
      rw [if_pos hc']
      dsimp only [Option.bind_eq_bind, Option.bind_some]
      rw [ih (ready_buffers f hc') hmem]
      rfl
    · rw [if_neg hc']
      rfl

lemma nameOf_injective (f : Format) : Function.Injective (nameOf f) := by
  intro tag tag' h
  exact decimal_injective 4 (List.append_cancel_left (List.append_cancel_right h))

/-- **A run is safe exactly when its tags have four digits.** Then each call opens the file of
its tag, different tags name different files, and the header is the one of its time, in 48
bytes. -/
theorem dumps_safe_iff (f : Format) (cs : List Call) :
    (dumps f cs f.initial = some (cs.map fun c => ⟨nameOf f c.tag, headerOf f c.sec c.nsec⟩) ∧
      (∀ c ∈ cs, ∀ c' ∈ cs, c.tag ≠ c'.tag → nameOf f c.tag ≠ nameOf f c'.tag) ∧
      ∀ c ∈ cs, (headerOf f c.sec c.nsec).length = 48) ↔
      ∀ c ∈ cs, c.tag < 10000 := by
  constructor
  · rintro ⟨h, -, -⟩ c hc
    by_contra htag
    rw [dumps_of_long (ready_initial f) hc (not_lt.mp htag)] at h
    cases h
  · intro h
    exact ⟨dumps_of_short (ready_initial f) h, fun c _ c' _ => (nameOf_injective f).ne,
      fun c _ => length_headerOf f c.sec_lt c.nsec_lt⟩

/-- The first tag of five digits. -/
def longTag : Call := ⟨10000, 0, 0, by decide, by decide, by decide⟩

/-- The suffix behind `10000` ends one byte past the array. -/
theorem dumps_longTag : ¬ ∃ requests, dumps .ppm [longTag] Format.ppm.initial = some requests := by
  rintro ⟨requests, h⟩
  rw [dumps_of_long (ready_initial .ppm) List.mem_cons_self le_rfl] at h
  cases h

end Rtes.CaptureNames
