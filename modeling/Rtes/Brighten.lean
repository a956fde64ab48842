import Rtes.BrightenModel

/-!
Which images `brighten.c` brightens.

`readppm` takes the second line of the file for the comment and the third for the dimensions.
That is right for files with exactly one comment line. With none, or with more, `row` is not
read, and what happens depends on what was in it. The header is put together by `strcat`, which
stops at a zero byte of the comment; an image without pixels is taken for an error of `fread`.
A run that exits with an error has not brightened its image, whatever it has written.
-/

namespace Rtes.Brighten

open Rtes.Bytes Rtes.Checked Rtes.CString Rtes.Loop Rtes.Stdio Rtes.BrightenModel

/-! ### Pixels -/

lemma brighter_eq (x : Byte) :
    brighter x = BitVec.ofNat 8 (min 255 (⌊(1.25 : ℚ) * x.toNat⌋₊ + 25)) := by
  have hfloor : ⌊(1.25 : ℚ) * x.toNat⌋₊ = 5 * x.toNat / 4 := by
    rw [show (1.25 : ℚ) * x.toNat = ((5 * x.toNat : ℕ) : ℚ) / (4 : ℕ) by push_cast; ring]
    exact Nat.floor_div_eq_div _ _
  unfold brighter
  dsimp only
  rw [hfloor]
  congr 1
  split_ifs <;> omega

/-- The image with its first `n` bytes brightened. -/
def filled (img newimg : Buf) (n : ℕ) : Buf := fun p => if p < n then brighter (img p) else newimg p

lemma update_filled (img newimg : Buf) (n : ℕ) :
    Function.update (filled img newimg n) n (brighter (img n)) = filled img newimg (n + 1) := by
  funext p
  by_cases hp : p = n
  · rw [hp, Function.update_self, filled, if_pos (Nat.lt_succ_self n)]
  · rw [Function.update_of_ne hp, filled, filled]
    by_cases hlt : p < n
    · rw [if_pos hlt, if_pos (by omega)]
    · rw [if_neg hlt, if_neg (by omega)]

/-- A loop whose states are known one after the other. -/
lemma forInt_states {σ : Type*} (body : σ → ℕ → Option σ) (state : ℕ → σ) {n : ℕ}
    (hn : n < 2 ^ 31) (hbody : ∀ i < n, body (state i) i = some (state (i + 1))) :
    forInt n body (state 0) = some (state n) := by
  rw [forInt, if_pos hn]
  clear hn
  induction n with
  | zero => rfl
  | succ n ih =>
    rw [List.range_succ, List.foldlM_append, ih fun i hi => hbody i (by omega)]
    simp [hbody n (Nat.lt_succ_self n)]

lemma pixidx_lt {i j k row col chan : ℕ} (hi : i < row) (hj : j < col) (hk : k < chan) :
    i * col * chan + j * chan + k < row * col * chan := by
  calc i * col * chan + j * chan + k < i * col * chan + j * chan + chan := by omega
    _ = (i * col + (j + 1)) * chan := by ring
    _ ≤ (i * col + col) * chan := by gcongr; omega
    _ = (i + 1) * col * chan := by ring
    _ ≤ row * col * chan := by gcongr; omega

/-- **The three loops go through the image once**, in order. -/
lemma pixels_eq {d : Dims} (hpos : d.row * d.col * d.channels ≠ 0)
    (hsize : d.row * d.col * d.channels ≤ imgSize) (img newimg : Buf) :
    pixels d img newimg = some (filled img newimg (d.row * d.col * d.channels)) := by
  have hbound : imgSize < 2 ^ 31 := by decide
  have hle : ∀ x, x ∣ d.row * d.col * d.channels → x < 2 ^ 31 := fun x hx =>
    ((Nat.le_of_dvd (Nat.pos_of_ne_zero hpos) hx).trans hsize).trans_lt hbound
  -- the pixels of a row, the rows and the channels come one after the other
  have hk : ∀ i < d.row, ∀ j < d.col, forInt d.channels (setPixel d img i j)
      (filled img newimg (i * d.col * d.channels + j * d.channels)) =
        some (filled img newimg (i * d.col * d.channels + (j + 1) * d.channels)) := by
    intro i hi j hj
    rw [Nat.succ_mul, ← Nat.add_assoc]
    refine forInt_states _
      (fun k => filled img newimg (i * d.col * d.channels + j * d.channels + k))
      (hle _ (dvd_mul_left _ _)) fun k hk => ?_
    have hlt := pixidx_lt hi hj hk
    unfold setPixel
    dsimp only
    rw [Nat.mod_eq_of_lt (by omega), if_pos (by omega), update_filled, Nat.add_assoc]
  have hj : ∀ i < d.row,
      forInt d.col (fun newimg j => forInt d.channels (setPixel d img i j) newimg)
        (filled img newimg (i * d.col * d.channels)) =
        some (filled img newimg ((i + 1) * d.col * d.channels)) := by
    intro i hi
    have hrun := forInt_states (fun newimg j => forInt d.channels (setPixel d img i j) newimg)
      (fun j => filled img newimg (i * d.col * d.channels + j * d.channels))
      (hle _ ((dvd_mul_left _ _).mul_right _)) (hk i hi)
    rwa [Nat.zero_mul, Nat.add_zero, ← Nat.add_mul, ← Nat.succ_mul] at hrun
  have hrun := forInt_states
    (fun newimg i =>
      forInt d.col (fun newimg j => forInt d.channels (setPixel d img i j) newimg) newimg)
    (fun i => filled img newimg (i * d.col * d.channels))
    (hle _ ((dvd_mul_right _ _).mul_right _)) hj
  rwa [Nat.zero_mul, Nat.zero_mul] at hrun

/-! ### The loops over the files -/

/-- `towrite` starts at 0, so that a loop writes everything at once or nothing. -/
lemma iter_writeTurn {cap fuel : ℕ} {array : Buf} {len : ℤ} {file out : List Byte} :
    iter (writeTurn cap array len) fuel (0, 0, file) = some (.finished out) ↔
      0 < fuel ∧ 0 < len ∧ len ≤ cap ∧ out = file ++ slice array 0 len.toNat := by
  rcases fuel with _ | fuel
  · simp [iter]
  · by_cases hzero : len = 0
    · have hturn : writeTurn cap array len (0, 0, file) = some (.inr (.exited file)) :=
        if_pos hzero
      rw [iter_inr hturn]
      refine iff_of_false (by simp) fun h => ?_
      omega
    · by_cases hlen : len < 0 ∨ (cap : ℤ) < (0 : ℕ) + len
      · have hturn : writeTurn cap array len (0, 0, file) = none :=
          (if_neg hzero).trans (if_pos hlen)
        simp only [iter, hturn]
        refine iff_of_false (by simp) fun h => ?_
        omega
      · have hturn : writeTurn cap array len (0, 0, file) =
            some (.inr (.finished (file ++ slice array 0 len.toNat))) := by
          refine (if_neg hzero).trans ((if_neg hlen).trans (if_neg ?_))
          omega
        rw [iter_inr hturn, Option.some.injEq, Outcome.finished.injEq, eq_comm]
        refine ⟨fun h => ⟨by omega, by omega, by omega, h⟩, fun h => h.2.2.2⟩

lemma writeppm_eq_some {fuel : ℕ} {buffer : Buf} {bufferlen headerlen : ℤ}
    {header out : List Byte} :
    writeppm fuel buffer bufferlen header headerlen = some (.finished out) ↔
      0 < fuel ∧ (0 < headerlen ∧ headerlen ≤ (512 : ℕ)) ∧
        (0 < bufferlen ∧ bufferlen ≤ imgSize) ∧
        out = slice (fun k => header.getD k 0) 0 headerlen.toNat ++
          slice buffer 0 bufferlen.toNat := by
  unfold writeppm
  simp only [Option.bind_eq_bind, Option.bind_eq_some_iff]
  constructor
  · rintro ⟨file | file, h, hrest⟩
    · obtain ⟨h₁, h₂, h₃, rfl⟩ := iter_writeTurn.mp h
      obtain ⟨-, h₄, h₅, rfl⟩ := iter_writeTurn.mp hrest
      exact ⟨h₁, ⟨h₂, h₃⟩, ⟨h₄, h₅⟩, rfl⟩
    · cases hrest
  · rintro ⟨h₁, ⟨h₂, h₃⟩, ⟨h₄, h₅⟩, rfl⟩
    exact ⟨.finished _, iter_writeTurn.mpr ⟨h₁, h₂, h₃, rfl⟩,
      iter_writeTurn.mpr ⟨h₁, h₄, h₅, rfl⟩⟩

/-- A file that ends with the image is read at once. -/
lemma iter_readTurn {body : List Byte} (hne : body ≠ []) (hsize : body.length ≤ imgSize)
    (img : Buf) (fuel : ℕ) :
    iter (readTurn body.length) (fuel + 1) ⟨0, body.length, img, ⟨body, false⟩⟩ =
      some (blit img 0 body) := by
  have hlen : body.length ≠ 0 := fun h => hne (List.length_eq_zero_iff.mp h)
  apply iter_inr
  unfold readTurn
  rw [fread_all]
  dsimp only
  rw [if_neg hlen, if_neg (by omega), if_neg (by simp)]

/-! ### The header -/

lemma nextLine_line {l rest aline header : List Byte} {eof : Bool} {n : ℤ} (hl : newline ∉ l)
    (hn : 0 ≤ n) :
    Reader.nextLine ⟨⟨l ++ newline :: rest, eof⟩, aline, header, n⟩ =
      some ⟨⟨rest, eof⟩, l ++ [newline], header, n + (l.length + 1)⟩ := by
  unfold Reader.nextLine
  rw [getline_line hl]
  exact if_neg (show ¬ n + (l.length + 1 : ℤ) < 0 by omega)

/-- A line of the file goes into the header up to its first zero byte. -/
lemma line_run (t z l rest aline : List Byte) (n : ℤ) (hl : newline ∉ l) (hn : 0 ≤ n)
    (ht : (0 : Byte) ∉ t) (hfit : (cstr (l ++ [newline])).length ≤ z.length) :
    Reader.nextLine ⟨⟨l ++ newline :: rest, false⟩, aline, t ++ 0 :: z, n⟩ =
        some ⟨⟨rest, false⟩, l ++ [newline], t ++ 0 :: z, n + (l.length + 1)⟩ ∧
      Reader.keepLine ⟨⟨rest, false⟩, l ++ [newline], t ++ 0 :: z, n + (l.length + 1)⟩ =
        some ⟨⟨rest, false⟩, l ++ [newline],
          t ++ cstr (l ++ [newline]) ++ 0 :: z.drop (cstr (l ++ [newline])).length,
          n + (l.length + 1)⟩ := by
  refine ⟨nextLine_line hl hn, ?_⟩
  unfold Reader.keepLine
  rw [strcat_text ht hfit]
  rfl

lemma nextLine_some {r r' : Reader} {l rest : List Byte} {eof : Bool}
    (h : r.nextLine = some r') (hf : r.filep = ⟨l ++ newline :: rest, eof⟩) (hl : newline ∉ l) :
    r'.filep = ⟨rest, eof⟩ ∧ r'.aline = l ++ [newline] := by
  unfold Reader.nextLine at h
  rw [hf, getline_line hl] at h
  dsimp only at h
  split_ifs at h
  obtain rfl := Option.some.inj h
  exact ⟨rfl, rfl⟩

lemma keepLine_some {r r' : Reader} (h : r.keepLine = some r') :
    r'.filep = r.filep ∧ r'.aline = r.aline := by
  obtain ⟨header, -, rfl⟩ := Option.map_eq_some_iff.mp h
  exact ⟨rfl, rfl⟩

section

variable {spare : ℕ} {junk : Junk spare}

/-- **The first line is the magic and the third has the dimensions**, whatever they are. -/
lemma readDims_some {r r' : Reader} {d : Dims} {l₁ l₂ l₃ rest : List Byte} {eof : Bool}
    (h : readDims junk r = some (d, r'))
    (hf : r.filep =
      ⟨l₁ ++ newline :: (l₂ ++ newline :: (l₃ ++ newline :: rest)), eof⟩)
    (hl₁ : newline ∉ l₁) (hl₂ : newline ∉ l₂) (hl₃ : newline ∉ l₃) :
    (∃ magic, scanS (cstr (l₁ ++ [newline])) junk.magic = some magic) ∧
      (d.col, d.row) = scanDims junk (l₃ ++ [newline]) := by
  simp only [readDims, Option.bind_eq_bind, Option.bind_eq_some_iff, Option.pure_def,
    Option.some.injEq, Prod.mk.injEq] at h
  obtain ⟨r₁, h₁, k₁, hk₁, magic, hmagic, r₂, h₂, k₂, hk₂, r₃, h₃, k₃, hk₃, rfl, -⟩ := h
  obtain ⟨hf₁, ha₁⟩ := nextLine_some h₁ hf hl₁
  obtain ⟨hg₁, hb₁⟩ := keepLine_some hk₁
  obtain ⟨hf₂, -⟩ := nextLine_some h₂ (hg₁.trans hf₁) hl₂
  obtain ⟨hg₂, -⟩ := keepLine_some hk₂
  obtain ⟨-, ha₃⟩ := nextLine_some h₃ (hg₂.trans hf₂) hl₃
  rw [hb₁, ha₁] at hmagic
  rw [ha₃]
  exact ⟨⟨magic, hmagic⟩, rfl⟩

/-- The strings in four lines, one behind the other. -/
def strings (l₁ l₂ l₃ l₄ : List Byte) : List Byte :=
  cstr (l₁ ++ [newline]) ++ cstr (l₂ ++ [newline]) ++ cstr (l₃ ++ [newline]) ++
    cstr (l₄ ++ [newline])

/-- **The header of a file of four lines and a body**, if its strings fit. -/
lemma readHeader_lines {l₁ l₂ l₃ l₄ magic : List Byte} (body : List Byte) (hl₁ : newline ∉ l₁)
    (hl₂ : newline ∉ l₂) (hl₃ : newline ∉ l₃) (hl₄ : newline ∉ l₄)
    (hmagic : scanS (cstr (l₁ ++ [newline])) junk.magic = some magic)
    (hfit : (strings l₁ l₂ l₃ l₄).length < 512) :
    readHeader junk
        ⟨⟨l₁ ++ newline :: (l₂ ++ newline :: (l₃ ++ newline :: (l₄ ++ newline :: body))), false⟩,
          [], 0 :: junk.header, 0⟩ =
      some (⟨if magic.take 2 = text "P6" then 3 else 1, (scanDims junk (l₃ ++ [newline])).1,
          (scanDims junk (l₃ ++ [newline])).2⟩,
        ⟨⟨body, false⟩, l₄ ++ [newline],
          strings l₁ l₂ l₃ l₄ ++ 0 :: junk.header.drop (strings l₁ l₂ l₃ l₄).length,
          l₁.length + l₂.length + l₃.length + l₄.length + 4⟩) := by
  have hlen := junk.length_header
  have hzero : ∀ t l, (0 : Byte) ∉ t → (0 : Byte) ∉ t ++ cstr l :=
    fun t l ht h => (List.mem_append.mp h).elim ht (zero_notMem_cstr l)
  have ht₁ := hzero [] (l₁ ++ [newline]) List.not_mem_nil
  have ht₂ := hzero _ (l₂ ++ [newline]) ht₁
  have ht₃ := hzero _ (l₃ ++ [newline]) ht₂
  simp only [strings, List.length_append] at hfit
  obtain ⟨n₁, k₁⟩ := line_run [] junk.header l₁
    (l₂ ++ newline :: (l₃ ++ newline :: (l₄ ++ newline :: body))) [] 0 hl₁ le_rfl
    List.not_mem_nil (by omega)
  obtain ⟨n₂, k₂⟩ := line_run _ (junk.header.drop (cstr (l₁ ++ [newline])).length) l₂
    (l₃ ++ newline :: (l₄ ++ newline :: body)) (l₁ ++ [newline]) (0 + (l₁.length + 1)) hl₂
    (by omega) ht₁ (by rw [List.length_drop]; omega)
  obtain ⟨n₃, k₃⟩ := line_run _
    ((junk.header.drop (cstr (l₁ ++ [newline])).length).drop (cstr (l₂ ++ [newline])).length) l₃
    (l₄ ++ newline :: body) (l₂ ++ [newline]) (0 + (l₁.length + 1) + (l₂.length + 1)) hl₃
    (by omega) ht₂ (by rw [List.length_drop, List.length_drop]; omega)
  obtain ⟨n₄, k₄⟩ := line_run _
    (((junk.header.drop (cstr (l₁ ++ [newline])).length).drop
      (cstr (l₂ ++ [newline])).length).drop (cstr (l₃ ++ [newline])).length) l₄ body
    (l₃ ++ [newline]) (0 + (l₁.length + 1) + (l₂.length + 1) + (l₃.length + 1)) hl₄ (by omega)
    ht₃ (by rw [List.length_drop, List.length_drop, List.length_drop]; omega)
  rw [show 0 :: junk.header = [] ++ 0 :: junk.header from rfl]
  simp only [readHeader, readDims, n₁, k₁, hmagic, n₂, k₂, n₃, k₃, n₄, k₄, Option.bind_eq_bind,
    Option.bind_some, Option.pure_def]
  have hn : (0 + (l₁.length + 1) + (l₂.length + 1) + (l₃.length + 1) + (l₄.length + 1) : ℤ) =
      l₁.length + l₂.length + l₃.length + l₄.length + 4 := by ring
  simp only [strings, List.nil_append, List.drop_drop, List.length_append, hn]

end

/-! ### The lines of an image file -/

lemma isDigit_ne {b : Byte} (h : isDigit b = true) : b ≠ 0 ∧ b ≠ newline := by
  revert b
  decide +kernel

lemma isSpace_ne {b : Byte} (h : isSpace b = true) : b ≠ 0 ∧ isDigit b = false := by
  revert b
  decide +kernel

/-- Bytes that no number and no blank has in it. -/
def Foreign (b : Byte) : Prop := b = 0 ∨ b = newline

lemma number_notMem {ds : List Byte} (h : IsNumber ds) {b : Byte} (hb : Foreign b) : b ∉ ds := by
  intro hmem
  have hne := isDigit_ne (h.2 b hmem)
  exact hb.elim hne.1 hne.2

lemma blank_notMem {t : List Byte} (h : IsBlank t) {b : Byte} (hb : Foreign b) : b ∉ t := by
  intro hmem
  have hne := (isSpace_ne (h b hmem).1).1
  exact hb.elim hne (h b hmem).2

/-- A line is its own string. -/
lemma cstr_line {l : List Byte} (h : (0 : Byte) ∉ l) : cstr (l ++ [newline]) = l ++ [newline] :=
  cstr_eq_self (by simpa [newline] using h)

section

variable (m : Image) {spare : ℕ} (junk : Junk spare)

lemma magic_notMem {b : Byte} (hb : Foreign b) : b ∉ m.magic := by
  unfold Parts.magic
  rcases hb with rfl | rfl <;> cases m.colour <;> decide

lemma dims_notMem {b : Byte} (hb : Foreign b) : b ∉ m.dims := by
  simp only [Parts.dims, List.mem_append, not_or]
  exact ⟨number_notMem m.cols_number hb, blank_notMem m.gap_blank.2 hb,
    number_notMem m.rows_number hb, blank_notMem m.trail_blank hb⟩

/-- What `%u` stores. -/
def stored (ds : List Byte) : ℕ := if 2 ^ 32 ≤ value ds then junk.wide.toNat else value ds

/-- A number ends where white space starts. -/
lemma isDigit_head {t : List Byte} (hne : t ≠ []) (ht : ∀ b ∈ t, isSpace b = true)
    (rest : List Byte) : ∀ b ∈ (t ++ rest).head?, isDigit b = false := by
  obtain ⟨x, t, rfl⟩ := List.exists_cons_of_ne_nil hne
  intro b hb
  obtain rfl : x = b := by simpa using hb
  exact (isSpace_ne (ht x List.mem_cons_self)).2

lemma scanDims_dims :
    scanDims junk (m.dims ++ [newline]) = (stored junk m.cols, stored junk m.rows) := by
  have hgap : ∀ b ∈ m.gap, isSpace b = true := fun b hb => (m.gap_blank.2 b hb).1
  have htrail : ∀ b ∈ m.trail ++ [newline], isSpace b = true := by
    intro b hb
    rcases List.mem_append.mp hb with hb | hb
    · exact (m.trail_blank b hb).1
    · rw [List.mem_singleton.mp hb]
      decide
  have hline : m.dims ++ [newline] =
      [] ++ (m.cols ++ (m.gap ++ (m.rows ++ (m.trail ++ [newline])))) := by
    simp [Parts.dims]
  have hcols : scanU junk.wide.toNat (m.dims ++ [newline]) =
      some (stored junk m.cols, m.gap ++ (m.rows ++ (m.trail ++ [newline]))) := by
    rw [hline]
    exact scanU_digits (by simp) m.cols_number.1 m.cols_number.2
      (isDigit_head m.gap_blank.1 hgap _) _
  have hrows : scanU junk.wide.toNat (m.gap ++ (m.rows ++ (m.trail ++ [newline]))) =
      some (stored junk m.rows, m.trail ++ [newline]) := by
    have hend := isDigit_head (by simp) htrail []
    rw [List.append_nil] at hend
    exact scanU_digits hgap m.rows_number.1 m.rows_number.2 hend _
  unfold scanDims
  rw [cstr_line (dims_notMem m (Or.inl rfl)), hcols]
  dsimp only
  rw [hrows]

/-- A single number leaves `row` as it was. -/
lemma scanDims_number {ds : List Byte} (hds : IsNumber ds) :
    (scanDims junk (ds ++ [newline])).2 = junk.row.toNat := by
  have hline : ds ++ [newline] = [] ++ (ds ++ [newline]) := rfl
  have hscan : scanU junk.wide.toNat (ds ++ [newline]) = some (stored junk ds, [newline]) := by
    rw [hline]
    exact scanU_digits (by simp) hds.1 hds.2 (by decide) _
  have hnone : scanU junk.wide.toNat [newline] = none := rfl
  unfold scanDims
  rw [cstr_line (number_notMem hds (Or.inl rfl)), hscan]
  dsimp only
  rw [hnone]

/-- A comment leaves `row` as it was. -/
lemma scanDims_comment (c : List Byte) :
    (scanDims junk (commentLine c)).2 = junk.row.toNat := by
  have hcstr : cstr (commentLine c) = 35 :: cstr (c ++ [newline]) := by
    have hhash : text "#" = [35] := by decide
    rw [commentLine, hhash, List.append_assoc, List.singleton_append]
    exact List.takeWhile_cons_of_pos (by decide)
  unfold scanDims
  rw [hcstr, scanU_eq_none (by decide) (by decide) (by decide) (by decide)]

/-- **The magic number**: it is stored where there is room for its terminator. -/
lemma scanS_magic {magic : List Byte} :
    scanS (cstr (m.magic ++ [newline])) junk.magic = some magic ↔
      1 ≤ spare ∧ magic = overlay junk.magic 0 (m.magic ++ [0]) := by
  have hword : ((m.magic ++ [newline]).dropWhile isSpace).takeWhile (fun x => !isSpace x) =
      m.magic := by
    unfold Parts.magic
    cases m.colour <;> decide
  have hlen : m.magic.length = 2 := by
    unfold Parts.magic
    cases m.colour <;> rfl
  have hne : m.magic ≠ [] := by
    intro h
    rw [h] at hlen
    cases hlen
  unfold scanS
  rw [cstr_line (magic_notMem m (Or.inl rfl))]
  dsimp only
  rw [hword, if_neg hne, put, junk.length_magic, List.length_append, hlen]
  split_ifs with hfit
  · rw [Option.some.injEq, eq_comm, and_iff_right (by simp at hfit; omega)]
  · refine iff_of_false (by simp) fun h => hfit ?_
    simp only [List.length_singleton]
    omega

lemma channels_eq {magic : List Byte} (h : magic = overlay junk.magic 0 (m.magic ++ [0])) :
    (if magic.take 2 = text "P6" then 3 else 1) = m.channels := by
  have htake : magic.take 2 = m.magic := by
    rw [h, overlay, Parts.magic]
    cases m.colour <;> rfl
  rw [htake, Parts.magic, Parts.channels]
  cases m.colour <;> decide

variable {m} {c : List Byte}

lemma file_one (hc : m.comments = [c]) : m.file =
    m.magic ++ newline :: (text "#" ++ c ++ newline :: (m.dims ++ newline ::
      (m.maxval ++ newline :: m.body))) := by
  simp [Parts.file, Parts.header, hc, commentLine]

lemma header_one (hc : m.comments = [c]) : m.header =
    m.magic ++ [newline] ++ (text "#" ++ c ++ [newline]) ++ (m.dims ++ [newline]) ++
      (m.maxval ++ [newline]) := by
  simp [Parts.header, hc, commentLine]

lemma newline_notMem_comment (hc : c ∈ m.comments) : newline ∉ text "#" ++ c := by
  have hhash : newline ∉ text "#" := by decide
  exact fun h => (List.mem_append.mp h).elim hhash (m.comments_line c hc)

/-- The header that is put together, without the zero bytes of the comment and what follows
them. -/
def kept (m : Image) (c : List Byte) : List Byte := strings m.magic (text "#" ++ c) m.dims m.maxval

lemma kept_eq (m : Image) (c : List Byte) : kept m c =
    m.magic ++ [newline] ++ cstr (text "#" ++ c ++ [newline]) ++ (m.dims ++ [newline]) ++
      (m.maxval ++ [newline]) := by
  rw [kept, strings, cstr_line (magic_notMem m (Or.inl rfl)),
    cstr_line (dims_notMem m (Or.inl rfl)),
    cstr_line (number_notMem m.maxval_number (Or.inl rfl))]

lemma length_kept_le (hc : m.comments = [c]) : (kept m c).length ≤ m.header.length := by
  have hcstr : (cstr (text "#" ++ c ++ [newline])).length ≤ (text "#" ++ c ++ [newline]).length :=
    (List.takeWhile_sublist _).length_le
  rw [kept_eq, header_one hc]
  simp only [List.length_append] at hcstr ⊢
  omega

lemma length_header_le (hc : m.comments = [c]) :
    m.header.length ≤ (kept m c ++ 0 :: junk.header.drop (kept m c).length).length := by
  have hkept := length_kept_le hc
  have hlt := m.header_lt
  rw [List.length_append, List.length_cons, List.length_drop, junk.length_header]
  omega

/-- **A file with one comment line** is read as it is meant, but for zero bytes in the comment. -/
lemma readHeader_one (hc : m.comments = [c]) (hspare : 1 ≤ spare) :
    readHeader junk ⟨⟨m.file, false⟩, [], 0 :: junk.header, 0⟩ =
      some (⟨m.channels, stored junk m.cols, stored junk m.rows⟩,
        ⟨⟨m.body, false⟩, m.maxval ++ [newline],
          kept m c ++ 0 :: junk.header.drop (kept m c).length, m.header.length⟩) := by
  have hlen : (m.header.length : ℤ) =
      m.magic.length + (text "#" ++ c).length + m.dims.length + m.maxval.length + 4 := by
    rw [header_one hc]
    simp only [List.length_append, List.length_singleton]
    push_cast
    ring
  rw [file_one hc, readHeader_lines m.body (magic_notMem m (Or.inr rfl))
    (newline_notMem_comment (m := m) (by simp [hc])) (dims_notMem m (Or.inr rfl))
    (number_notMem m.maxval_number (Or.inr rfl)) ((scanS_magic m junk).mpr ⟨hspare, rfl⟩)
    ((length_kept_le hc).trans_lt m.header_lt), channels_eq m junk rfl, scanDims_dims, hlen]
  rfl

/-- **In every other file** the third line is not the one with the dimensions, and `row` is left
as it was. -/
lemma file_lines (m : Image) : ∃ l₂ l₃ rest,
    m.file = m.magic ++ newline :: (l₂ ++ newline :: (l₃ ++ newline :: rest)) ∧
      newline ∉ l₂ ∧ newline ∉ l₃ ∧
      ((∃ c, m.comments = [c]) ∨
        ∀ {spare : ℕ} (junk : Junk spare),
          (scanDims junk (l₃ ++ [newline])).2 = junk.row.toNat) := by
  rcases hcs : m.comments with _ | ⟨c₁, _ | ⟨c₂, cs⟩⟩
  · refine ⟨m.dims, m.maxval, m.body, ?_, dims_notMem m (Or.inr rfl),
      number_notMem m.maxval_number (Or.inr rfl),
      Or.inr fun junk => scanDims_number junk m.maxval_number⟩
    simp [Parts.file, Parts.header, hcs]
  · refine ⟨text "#" ++ c₁, m.dims, m.maxval ++ newline :: m.body, file_one hcs,
      newline_notMem_comment (m := m) (by simp [hcs]), dims_notMem m (Or.inr rfl),
      Or.inl ⟨c₁, rfl⟩⟩
  · refine ⟨text "#" ++ c₁, text "#" ++ c₂, cs.flatMap commentLine ++ (m.dims ++ [newline]) ++
      (m.maxval ++ [newline]) ++ m.body, ?_, newline_notMem_comment (m := m) (by simp [hcs]),
      newline_notMem_comment (m := m) (by simp [hcs]), Or.inr fun junk => scanDims_comment junk c₂⟩
    simp [Parts.file, Parts.header, hcs, commentLine]

end

/-! ### What is written -/

section

variable {m : Image} {c : List Byte}

lemma kept_eq_header (hc : m.comments = [c]) (hzero : (0 : Byte) ∉ c) : kept m c = m.header := by
  have hhash : (0 : Byte) ∉ text "#" := by decide
  rw [kept_eq, header_one hc,
    cstr_line fun h => (List.mem_append.mp h).elim hhash hzero]

/-- **A zero byte in the comment** has a digit in its place. -/
lemma zero_notMem_of_kept (hc : m.comments = [c]) {z : List Byte}
    (h : (kept m c ++ z).take m.header.length = m.header) : (0 : Byte) ∉ c := by
  intro hmem
  have hline : (0 : Byte) ∈ text "#" ++ c ++ [newline] :=
    List.mem_append_left _ (List.mem_append_right _ hmem)
  obtain ⟨rest, hrest⟩ := exists_cstr_append hline
  obtain ⟨d, ds, hcols⟩ := List.exists_cons_of_ne_nil m.cols_number.1
  -- up to the zero byte both are the same
  obtain ⟨t, ht⟩ : ∃ t, t = m.magic ++ [newline] ++ cstr (text "#" ++ c ++ [newline]) := ⟨_, rfl⟩
  have hheader : m.header =
      t ++ 0 :: (rest ++ (m.dims ++ [newline]) ++ (m.maxval ++ [newline])) := by
    rw [header_one hc, ht]
    nth_rewrite 1 [hrest]
    simp
  have hkept : kept m c ++ z = t ++ d :: (ds ++ (m.gap ++ (m.rows ++ m.trail)) ++ [newline] ++
      (m.maxval ++ [newline]) ++ z) := by
    rw [kept_eq, ht, Parts.dims, hcols]
    simp
  have hlt : t.length < m.header.length := by
    rw [hheader, List.length_append, List.length_cons]
    omega
  have hd : some d = some (0 : Byte) := by
    calc some d = (kept m c ++ z)[t.length]? := by rw [hkept]; simp
      _ = ((kept m c ++ z).take m.header.length)[t.length]? := (List.getElem?_take_of_lt hlt).symm
      _ = some 0 := by rw [h, hheader]; simp
  have hdigit : isDigit d = true := m.cols_number.2 d (by rw [hcols]; exact List.mem_cons_self)
  exact (isDigit_ne hdigit).1 (Option.some.inj hd)

variable {spare : ℕ} {junk : Junk spare}

lemma bufferlen_zero {d : Dims} (h : d.row * d.col * d.channels = 0) : d.bufferlen = 0 := by
  have hcast : (d.row * d.col * d.channels : ℤ) = 0 := by exact_mod_cast h
  rw [Dims.bufferlen, hcast]
  rfl

/-- A run that gets to its end has read a header and the size of an image with pixels. -/
lemma brighten_some {fuel : ℕ} {file out : List Byte}
    (h : brighten fuel junk file = some (.finished out)) :
    ∃ d r newimg, readHeader junk ⟨⟨file, false⟩, [], 0 :: junk.header, 0⟩ = some (d, r) ∧
      d.row * d.col * d.channels ≠ 0 ∧
      out = slice (fun k => r.header.getD k 0) 0 r.headerlen.toNat ++
        slice newimg 0 d.bufferlen.toNat := by
  simp only [brighten, readppm, Option.bind_eq_bind, Option.bind_eq_some_iff, Option.pure_def,
    Option.some.injEq] at h
  obtain ⟨_, ⟨⟨d, r⟩, hread, img, -, rfl⟩, newimg, -, hwrite⟩ := h
  obtain ⟨-, -, ⟨hlen, -⟩, rfl⟩ := writeppm_eq_some.mp hwrite
  refine ⟨d, r, newimg, hread, fun h0 => ?_, rfl⟩
  rw [bufferlen_zero h0] at hlen
  omega

/-- The memory is cleared before the program runs. -/
def cleared (spare : ℕ) : Junk spare where
  magic := List.replicate (2 + spare) 0
  header := List.replicate 511 0
  col := 0
  row := 0
  img := fun _ => 0
  newimg := fun _ => 0
  wide := 0
  length_magic := List.length_replicate
  length_header := List.length_replicate

lemma one_of_cleared {fuel : ℕ} {out : List Byte}
    (h : brighten fuel (cleared spare) m.file = some (.finished out)) :
    1 ≤ spare ∧ ∃ c, m.comments = [c] := by
  obtain ⟨d, r, -, hread, hne, -⟩ := brighten_some h
  obtain ⟨⟨d, r⟩, hdims, hrest⟩ := Option.bind_eq_some_iff.mp hread
  simp only [Option.bind_eq_bind, Option.bind_eq_some_iff, Option.pure_def, Option.some.injEq,
    Prod.mk.injEq] at hrest
  obtain ⟨-, -, -, -, rfl, -⟩ := hrest
  obtain ⟨l₂, l₃, rest, hfile, hl₂, hl₃, hrow⟩ := file_lines m
  obtain ⟨⟨magic, hmagic⟩, hscan⟩ :=
    readDims_some hdims (congrArg (Stream.mk · false) hfile) (magic_notMem m (Or.inr rfl)) hl₂ hl₃
  refine ⟨((scanS_magic m (cleared spare)).mp hmagic).1, hrow.resolve_right fun hrow => hne ?_⟩
  have hzero : d.row = 0 := (congrArg Prod.snd hscan).trans (hrow (cleared spare))
  rw [hzero, Nat.zero_mul, Nat.zero_mul]

lemma ne_zero_of_stored {ds : List Byte} (h : stored junk ds ≠ 0) : value ds ≠ 0 := by
  intro h0
  rw [stored, h0] at h
  exact h (if_neg (by omega))

lemma length_body_ne_zero (hne : value m.rows * value m.cols ≠ 0) : m.body.length ≠ 0 := by
  rw [m.length_body]
  refine Nat.mul_ne_zero hne ?_
  unfold Parts.channels
  split <;> decide

/-- The numbers of an image with pixels are in range. -/
lemma stored_eq {ds : List Byte} (hne : value m.rows * value m.cols ≠ 0)
    (hds : value ds ∣ m.body.length) : stored junk ds = value ds := by
  have hsize : imgSize < 2 ^ 32 := by decide
  have hpos := Nat.pos_of_ne_zero (length_body_ne_zero hne)
  have hle := (Nat.le_of_dvd hpos hds).trans m.body_le
  exact if_neg (by omega)

lemma slice_filled (img newimg : Buf) (body : List Byte) :
    slice (filled (blit img 0 body) newimg body.length) 0 body.length = body.map brighter := by
  apply List.ext_getElem
  · simp
  · intro k hk _
    rw [length_slice] at hk
    have hblit : blit img 0 body k = body.getD k 0 := by
      have hin := blit_in (b := img) (o := 0) hk
      rwa [Nat.zero_add] at hin
    simp only [slice, List.getElem_map, List.getElem_range, Nat.zero_add, filled, if_pos hk, hblit,
      List.getD_eq_getElem _ _ hk]

lemma slice_getD {l : List Byte} {n : ℕ} (hn : n ≤ l.length) :
    slice (fun k => l.getD k 0) 0 n = l.take n := by
  have hslice : slice (fun k => l.getD k 0) 0 n = (l.drop 0).take n :=
    slice_eq_take_drop (by omega) fun _ _ => rfl
  rwa [List.drop_zero] at hslice

/-- The size of an image, as numbers. -/
def shape (m : Image) : Dims := ⟨m.channels, value m.cols, value m.rows⟩

lemma pixels_shape (m : Image) :
    (shape m).row * (shape m).col * (shape m).channels = m.body.length := m.length_body.symm

lemma length_body_lt (m : Image) : m.body.length < 2 ^ 31 :=
  m.body_le.trans_lt (by decide)

lemma bufferlen_shape (m : Image) : (shape m).bufferlen = m.body.length := by
  have hlt := length_body_lt m
  have hcast : ((shape m).row * (shape m).col * (shape m).channels : ℤ) = m.body.length := by
    exact_mod_cast pixels_shape m
  rw [Dims.bufferlen, hcast, int32_eq (by omega) (by omega)]

lemma size_shape (m : Image) : (shape m).size = m.body.length := by
  have hlt := length_body_lt m
  rw [Dims.size, Nat.mul_comm (shape m).col, pixels_shape, Nat.mod_eq_of_lt (by omega)]

/-- **The file is read**: the size, the header and all of the body. -/
lemma readppm_one (junk : Junk spare) (hc : m.comments = [c]) (hspare : 1 ≤ spare)
    (hzero : (0 : Byte) ∉ c) (hne : value m.rows * value m.cols ≠ 0) :
    readppm 1 junk m.file = some ⟨shape m, m.header ++ 0 :: junk.header.drop m.header.length,
      m.header.length, blit junk.img 0 m.body⟩ := by
  have hrows : stored junk m.rows = value m.rows :=
    stored_eq hne (m.length_body ▸ (dvd_mul_right _ _).mul_right _)
  have hcols : stored junk m.cols = value m.cols :=
    stored_eq hne (m.length_body ▸ (dvd_mul_left _ _).mul_right _)
  have hread := readHeader_one junk hc hspare
  rw [hrows, hcols, kept_eq_header hc hzero] at hread
  have hbody : m.body ≠ [] := mt List.length_eq_zero_iff.mpr (length_body_ne_zero hne)
  have hfill := iter_readTurn hbody m.body_le junk.img 0
  rw [readppm, hread, ← shape]
  simp only [Option.bind_eq_bind, Option.bind_some, size_shape, bufferlen_shape]
  rw [hfill]
  rfl

/-- **The run over a file with one comment line.** -/
lemma brighten_one (junk : Junk spare) (hc : m.comments = [c]) (hspare : 1 ≤ spare)
    (hzero : (0 : Byte) ∉ c) (hne : value m.rows * value m.cols ≠ 0) :
    brighten 1 junk m.file = some (.finished m.brightened) := by
  have hle := m.body_le
  have hlt := m.header_lt
  have hbody := length_body_ne_zero hne
  have hheader : 0 < m.header.length := by
    rw [header_one hc]
    simp
  have hpix : pixels (shape m) (blit junk.img 0 m.body) junk.newimg =
      some (filled (blit junk.img 0 m.body) junk.newimg m.body.length) := by
    rw [← pixels_shape]
    exact pixels_eq (by rwa [pixels_shape]) (by rwa [pixels_shape]) _ _
  rw [brighten, readppm_one junk hc hspare hzero hne]
  simp only [Option.bind_eq_bind, Option.bind_some, hpix, bufferlen_shape]
  refine writeppm_eq_some.mpr ⟨by omega, by omega, by omega, ?_⟩
  rw [Int.toNat_natCast, Int.toNat_natCast, slice_filled,
    slice_getD (by rw [List.length_append]; omega), List.take_left, Image.brightened]
  simp only [← brighter_eq]

/-- **Which images are brightened**, whatever was in memory before. -/
theorem brighten_iff (spare : ℕ) (m : Image) :
    (∀ junk : Junk spare, ∃ fuel, brighten fuel junk m.file = some (.finished m.brightened)) ↔
      1 ≤ spare ∧ (∃ c, m.comments = [c] ∧ (0 : Byte) ∉ c) ∧
        value m.rows * value m.cols ≠ 0 := by
  constructor
  · intro h
    obtain ⟨fuel, hrun⟩ := h (cleared spare)
    obtain ⟨hspare, c, hc⟩ := one_of_cleared hrun
    obtain ⟨d, r, newimg, hread, hne, hout⟩ := brighten_some hrun
    rw [readHeader_one _ hc hspare, Option.some.injEq, Prod.mk.injEq] at hread
    obtain ⟨rfl, rfl⟩ := hread
    refine ⟨hspare, ⟨c, hc, ?_⟩, ?_⟩
    · have hheader := (List.append_inj hout (by rw [length_slice, Int.toNat_natCast])).1
      rw [Int.toNat_natCast, slice_getD (length_header_le (cleared spare) hc)] at hheader
      exact zero_notMem_of_kept hc hheader.symm
    · have hpixels := left_ne_zero_of_mul hne
      exact mul_ne_zero (ne_zero_of_stored (left_ne_zero_of_mul hpixels))
        (ne_zero_of_stored (right_ne_zero_of_mul hpixels))
  · rintro ⟨hspare, ⟨c, hc, hzero⟩, hne⟩ junk
    exact ⟨1, brighten_one junk hc hspare hzero hne⟩

end

/-- A grey pixel, in a file without comments. -/
def dot : Image where
  colour := false
  comments := []
  cols := text "1"
  gap := text " "
  rows := text "1"
  trail := []
  maxval := text "255"
  body := [100]
  comments_line := by simp
  cols_number := ⟨by decide, by decide⟩
  gap_blank := ⟨by decide, by unfold IsBlank; decide⟩
  rows_number := ⟨by decide, by decide⟩
  trail_blank := by simp [IsBlank]
  maxval_number := ⟨by decide, by decide⟩
  length_body := by decide
  body_le := by decide
  header_lt := by decide

/-- The pixel is taken for the last line of the header, and the program exits behind it. -/
theorem dot_not_brightened : brighten 1 (cleared 1) dot.file = some (.exited dot.file) ∧
    ¬ ∃ fuel, brighten fuel (cleared 1) dot.file = some (.finished dot.brightened) := by
  refine ⟨by decide +kernel, ?_⟩
  rintro ⟨fuel, h⟩
  obtain ⟨-, c, hc⟩ := one_of_cleared h
  cases hc

end Rtes.Brighten
