import Mathlib.Data.List.DropRight
import CS214.Spell.Dictionary

/-!
# Spell — checking a file

`check_file` reads a file byte by byte and keeps the word begun, the line, the column and the
column of the word.  `Tracks` ties these to what was read so far: what stands before the word, and
the word.

* `normalizeWord_eq`: `normalize_word` drops the opening marks in front and then everything behind
  the last letter or digit.
* `check_file_spec`: however `read` cuts the file, what is printed is one diagnostic for every
  maximal run of bytes that are no white space whose word is misspelled.

Lines and columns are numbers without a bound.
-/

open CString

namespace CS214.Spell

/-- `should_skip_word`: there is no letter in it. -/
def shouldSkipWord (word : Bytes) : Bool := !word.any isAlpha

/-- One of `(`, `[`, `{`, `'` and `"`. -/
def isOpening (b : UInt8) : Bool := b == 40 || b == 91 || b == 123 || b == 39 || b == 34

/-- `start` after the first loop of `normalize_word`. -/
def skipOpening : Bytes → ℕ
  | [] => 0
  | b :: src => if isOpening b then skipOpening src + 1 else 0

/-- `end + 1` after the second loop, which starts with `end + 1` as given. -/
def dropTrailing (src : Bytes) (start : ℕ) : ℕ → ℕ
  | 0 => 0
  | last + 1 =>
    if start ≤ last ∧ isAlnum (src.getD last 0) = false then dropTrailing src start last
    else last + 1

/-- `normalize_word`: the word without what opens it and what trails it. -/
def normalizeWord (src : Bytes) : Bytes :=
  let start := skipOpening src
  (src.take (dropTrailing src start src.length)).drop start

/-- What is printed for a misspelled word. -/
def diagnostic (filename : Bytes) (printFilename : Bool) (line wordCol : ℕ) (normalized : Bytes) :
    Bytes :=
  if printFilename then
    filename ++ ascii ":" ++ decimal line ++ ascii ":" ++ decimal wordCol ++ ascii " " ++
      normalized ++ ascii "\n"
  else decimal line ++ ascii ":" ++ decimal wordCol ++ ascii " " ++ normalized ++ ascii "\n"

/-- The locals of `check_file`, what it has printed, and `error_found`. -/
structure Checking where
  word : Bytes
  line : ℕ
  col : ℕ
  wordCol : ℕ
  stdout : Bytes
  errorFound : Bool

section

variable (d : Dict) (filename : Bytes) (printFilename : Bool)

/-- The check of a word that has ended; the code has it twice, behind a white-space byte and at
the end of the file. -/
def checkWord (st : Checking) : Checking :=
  if st.word.isEmpty then st
  else
    let word := untilNul st.word
    if shouldSkipWord word then st
    else
      let normalized := normalizeWord word
      if normalized.headD 0 ≠ 0 ∧ dictLookup d normalized = false then
        { st with
          stdout := st.stdout ++ diagnostic filename printFilename st.line st.wordCol normalized
          errorFound := true }
      else st

/-- One byte of the file. -/
def checkByte (st : Checking) (c : UInt8) : Checking :=
  if isSpace c then
    let st := { checkWord d filename printFilename st with word := [] }
    if c = 10 then { st with line := st.line + 1, col := 1 } else { st with col := st.col + 1 }
  else
    { st with
      wordCol := if st.word.isEmpty then st.col else st.wordCol
      word := if st.word.length < maxWordLen - 1 then st.word ++ [c] else st.word
      col := st.col + 1 }

/-- What `check_file` prints, and `error_found` after it. -/
structure Checked where
  stdout : Bytes
  stderr : Bytes
  errorFound : Bool

/-- `check_file`. -/
def checkFile (errorFound : Bool) : Except Bytes (Pieces UInt8) → Checked
  | .error _ => ⟨[], ascii "Error: could not open " ++ filename ++ ascii "\n", true⟩
  | .ok file =>
    let st := file.foldReads (checkByte d filename printFilename) ⟨[], 1, 1, 1, [], errorFound⟩
    let st := checkWord d filename printFilename st
    ⟨st.stdout, [], st.errorFound⟩

end

/-! ### Normalization -/

theorem drop_skipOpening (src : Bytes) : src.drop (skipOpening src) = src.dropWhile isOpening := by
  induction src with
  | nil => rfl
  | cons b src ih => cases h : isOpening b <;> simp [skipOpening, h, ih]

theorem dropTrailing_eq (src : Bytes) (start : ℕ) {n : ℕ} (hn : n ≤ src.length) :
    (src.take (dropTrailing src start n)).drop start =
      ((src.take n).drop start).rdropWhile fun b => !isAlnum b := by
  induction n with
  | zero => simp [dropTrailing]
  | succ n ih =>
      have hlt : n < src.length := hn
      have htake : src.take (n + 1) = src.take n ++ [src[n]] := List.take_succ_eq_append_getElem hlt
      have hget : src.getD n 0 = src[n] := by simp [List.getD, hlt]
      rw [dropTrailing, hget]
      by_cases hs : start ≤ n
      · have hdrop : (src.take (n + 1)).drop start = (src.take n).drop start ++ [src[n]] := by
          rw [htake, List.drop_append_of_le_length]
          rw [List.length_take]
          omega
        cases hb : isAlnum src[n] with
        | true =>
            rw [if_neg (by simp), hdrop, List.rdropWhile_concat_neg _ _ _ (by simp [hb])]
        | false =>
            rw [if_pos ⟨hs, rfl⟩, ih (by omega), hdrop,
              List.rdropWhile_concat_pos _ _ _ (by simp [hb])]
      · rw [if_neg fun h => hs h.1, List.drop_eq_nil_of_le, List.rdropWhile_nil]
        rw [List.length_take]
        omega

/-- `normalize_word` drops the opening marks in front, and then everything behind the last letter
or digit. -/
theorem normalizeWord_eq (src : Bytes) :
    normalizeWord src = (src.dropWhile isOpening).rdropWhile fun b => !isAlnum b := by
  rw [normalizeWord, dropTrailing_eq src _ (Nat.le_refl _), List.take_length, drop_skipOpening]

/-- Normalization keeps every letter and digit. -/
theorem mem_normalizeWord {src : Bytes} {b : UInt8} (hb : isAlnum b = true) (h : b ∈ src) :
    b ∈ normalizeWord src := by
  have hopen : isOpening b = false := by
    by_contra ho
    simp only [isOpening, Bool.not_eq_false, Bool.or_eq_true, beq_iff_eq] at ho
    rcases ho with (((rfl | rfl) | rfl) | rfl) | rfl <;> cases hb
  rw [normalizeWord_eq]
  have hmid : b ∈ src.dropWhile isOpening := by
    rw [← List.takeWhile_append_dropWhile (p := isOpening) (l := src), List.mem_append] at h
    refine h.resolve_left fun ht => ?_
    rw [List.mem_takeWhile_imp ht] at hopen
    cases hopen
  rw [List.rdropWhile, List.mem_reverse]
  rw [← List.mem_reverse, ← List.takeWhile_append_dropWhile (p := fun c => !isAlnum c)
    (l := (src.dropWhile isOpening).reverse), List.mem_append] at hmid
  refine hmid.resolve_left fun ht => ?_
  have := List.mem_takeWhile_imp ht
  rw [hb] at this
  cases this

/-- Normalization adds no byte. -/
theorem normalizeWord_subset {src : Bytes} {b : UInt8} (h : b ∈ normalizeWord src) : b ∈ src :=
  List.mem_of_mem_take (List.mem_of_mem_drop h)

/-- A word with a letter has a normal form that is not empty, so the test of its first byte always
passes. -/
theorem normalizeWord_head {buf : Bytes} (h : shouldSkipWord (untilNul buf) = false) :
    (normalizeWord (untilNul buf)).headD 0 ≠ 0 := by
  rw [shouldSkipWord, Bool.not_eq_false', List.any_eq_true] at h
  obtain ⟨b, hb, hl⟩ := h
  have hmem := mem_normalizeWord (by rw [isAlnum, hl, Bool.true_or]) hb
  cases hn : normalizeWord (untilNul buf) with
  | nil => rw [hn] at hmem; cases hmem
  | cons c cs =>
      rw [List.headD_cons]
      rintro rfl
      exact zero_notMem_untilNul buf (normalizeWord_subset (hn ▸ List.mem_cons_self))

/-! ### The reference -/

/-- The word of a run: what its first 255 bytes hold up to a NUL. -/
def fieldWord (f : TextField UInt8) : Bytes := untilNul (f.text.take (maxWordLen - 1))

/-- The word of the run contains a letter, and the dictionary rejects its normal form. -/
def misspelled (d : Dict) (f : TextField UInt8) : Bool :=
  (fieldWord f).any isAlpha && !dictLookup d (normalizeWord (fieldWord f))

/-- The line after some text: one more than its newlines. -/
def lineOf (s : Bytes) : ℕ := 1 + s.count 10

/-- The column after some text: one more than its bytes behind the last newline. -/
def columnOf (s : Bytes) : ℕ := 1 + (s.rtakeWhile fun b => b ≠ 10).length

/-- The diagnostic of a run, if its word is misspelled. -/
def diagnosis (d : Dict) (filename : Bytes) (printFilename : Bool) (f : TextField UInt8) : Bytes :=
  if misspelled d f then
    diagnostic filename printFilename (lineOf f.before) (columnOf f.before)
      (normalizeWord (fieldWord f))
  else []

theorem columnOf_push (s : Bytes) (c : UInt8) :
    columnOf (s ++ [c]) = if c = 10 then 1 else columnOf s + 1 := by
  rw [columnOf, columnOf]
  split
  · next h => rw [List.rtakeWhile_concat_neg _ _ _ (by simp [h])]; rfl
  · next h =>
      rw [List.rtakeWhile_concat_pos _ _ _ (by simp [h]), List.length_append, List.length_singleton]
      omega

theorem lineOf_push (s : Bytes) (c : UInt8) :
    lineOf (s ++ [c]) = if c = 10 then lineOf s + 1 else lineOf s := by
  rw [lineOf, lineOf, List.count_append]
  split
  · next h => simp [h]; omega
  · next h => simp [h]

/-! ### The loop -/

/-- The locals of `check_file` after it has read `before ++ text`. -/
structure Tracks (st : Checking) (before text : Bytes) : Prop where
  isOpen : TextField.Open isSpace before text
  word : st.word = text.take (maxWordLen - 1)
  line : st.line = lineOf before
  col : st.col = columnOf (before ++ text)
  wordCol : text ≠ [] → st.wordCol = columnOf before

variable {st : Checking} {before text : Bytes}

theorem Tracks.isEmpty (h : Tracks st before text) : st.word.isEmpty = text.isEmpty := by
  rw [h.word]
  cases text <;> simp [maxWordLen]

/-- The text of an open run holds no newline. -/
theorem Tracks.line_text (h : Tracks st before text) : lineOf (before ++ text) = lineOf before := by
  have hno : text.count 10 = 0 := List.count_eq_zero.mpr fun hmem => by
    have := h.isOpen.inside 10 hmem
    cases this
  rw [lineOf, lineOf, List.count_append, hno, Nat.add_zero]

variable (d : Dict) (filename : Bytes) (printFilename : Bool)

/-- The check of the word prints the diagnosis of the run. -/
theorem Tracks.checkWord (h : Tracks st before text) :
    checkWord d filename printFilename st =
      { st with
        stdout := st.stdout ++
          (TextField.close before text).flatMap (diagnosis d filename printFilename)
        errorFound := st.errorFound || (TextField.close before text).any (misspelled d) } := by
  rw [Spell.checkWord, h.isEmpty, TextField.close]
  cases he : text.isEmpty with
  | true => simp
  | false =>
      have hne : text ≠ [] := by simpa using he
      have hw : untilNul st.word = fieldWord ⟨before, text⟩ := by rw [h.word, fieldWord]
      simp only [Bool.false_eq_true, if_false, hw, List.flatMap_singleton, List.any_cons,
        List.any_nil, Bool.or_false, diagnosis, misspelled]
      cases hs : shouldSkipWord (fieldWord ⟨before, text⟩) with
      | true =>
          rw [shouldSkipWord, Bool.not_eq_true'] at hs
          simp [hs]
      | false =>
          have hhead := normalizeWord_head hs
          rw [shouldSkipWord, Bool.not_eq_false'] at hs
          rw [← fieldWord] at hhead
          rcases Bool.eq_false_or_eq_true (dictLookup d (normalizeWord (fieldWord ⟨before, text⟩)))
            with hl | hl
          · simp [hs, hl]
          · simp only [hs, hl, hhead, h.line, h.wordCol hne, ne_eq, not_false_eq_true, and_self,
              if_true, if_false, Bool.not_false, Bool.and_true, Bool.or_true, Bool.false_eq_true]

/-- A byte that is no white space. -/
theorem Tracks.grow (h : Tracks st before text) {c : UInt8} (hc : isSpace c = false) :
    Tracks (checkByte d filename printFilename st c) before (text ++ [c]) ∧
      (checkByte d filename printFilename st c).stdout = st.stdout ∧
      (checkByte d filename printFilename st c).errorFound = st.errorFound := by
  have hc₁₀ : c ≠ 10 := by rintro rfl; cases hc
  simp only [checkByte, hc, Bool.false_eq_true, if_false, and_self, and_true]
  refine ⟨h.isOpen.grow hc, ?_, h.line, ?_, fun _ => ?_⟩
  · rw [h.word]
    exact take_push text c
  · rw [← List.append_assoc, columnOf_push, if_neg hc₁₀]
    exact congrArg (· + 1) h.col
  · rw [h.isEmpty]
    cases he : text.isEmpty with
    | true =>
        have hcol := h.col
        rw [List.isEmpty_iff.mp he, List.append_nil] at hcol
        exact hcol
    | false => exact h.wordCol (by simpa using he)

/-- A white-space byte. -/
theorem Tracks.shut (h : Tracks st before text) {c : UInt8} (hc : isSpace c = true) :
    Tracks (checkByte d filename printFilename st c) (before ++ text ++ [c]) [] ∧
      (checkByte d filename printFilename st c).stdout = st.stdout ++
        (TextField.close before text).flatMap (diagnosis d filename printFilename) ∧
      (checkByte d filename printFilename st c).errorFound =
        (st.errorFound || (TextField.close before text).any (misspelled d)) := by
  have hline := h.line.trans h.line_text.symm
  simp only [checkByte, hc, if_true, h.checkWord d filename printFilename]
  by_cases hc₁₀ : c = 10
  · simp only [hc₁₀, if_true, and_self, and_true]
    refine ⟨TextField.Open.shut _ _ rfl, rfl, ?_, ?_, fun hne => absurd rfl hne⟩
    · rw [lineOf_push, if_pos rfl, hline]
    · rw [List.append_nil, columnOf_push, if_pos rfl]
  · simp only [hc₁₀, if_false, and_self, and_true]
    refine ⟨TextField.Open.shut _ _ hc, rfl, ?_, ?_, fun hne => absurd rfl hne⟩
    · rw [lineOf_push, if_neg hc₁₀, hline]
    · rw [List.append_nil, columnOf_push, if_neg hc₁₀, h.col]

/-- The loop over the rest of the file, and the word at its end. -/
theorem Tracks.run (h : Tracks st before text) (s : Bytes) :
    (Spell.checkWord d filename printFilename
        (s.foldl (checkByte d filename printFilename) st)).stdout =
      st.stdout ++ (TextField.fieldsFrom isSpace before text s).flatMap
        (diagnosis d filename printFilename) ∧
    (Spell.checkWord d filename printFilename
        (s.foldl (checkByte d filename printFilename) st)).errorFound =
      (st.errorFound || (TextField.fieldsFrom isSpace before text s).any (misspelled d)) := by
  induction s generalizing st before text with
  | nil =>
      rw [List.foldl_nil, h.checkWord d filename printFilename, TextField.fieldsFrom]
      exact ⟨rfl, rfl⟩
  | cons c s ih =>
      rw [List.foldl_cons, TextField.fieldsFrom]
      cases hc : isSpace c with
      | true =>
          obtain ⟨h₁, h₂, h₃⟩ := h.shut d filename printFilename hc
          obtain ⟨h₄, h₅⟩ := ih h₁
          rw [h₂] at h₄
          rw [h₃] at h₅
          simp only [if_true, List.flatMap_append, List.any_append]
          exact ⟨by rw [h₄, List.append_assoc], by rw [h₅, Bool.or_assoc]⟩
      | false =>
          obtain ⟨h₁, h₂, h₃⟩ := h.grow d filename printFilename hc
          obtain ⟨h₄, h₅⟩ := ih h₁
          rw [h₂] at h₄
          rw [h₃] at h₅
          exact ⟨h₄, h₅⟩

/-- What `check_file` prints of a file that can be opened, and the flag it leaves. -/
theorem checkFile_ok (errorFound : Bool) {file : Pieces UInt8} (hf : Pieces.Whole file) :
    checkFile d filename printFilename errorFound (.ok file) =
      ⟨(TextField.fields isSpace file.flatten).flatMap (diagnosis d filename printFilename), [],
        errorFound || (TextField.fields isSpace file.flatten).any (misspelled d)⟩ := by
  have hstart : Tracks ⟨[], 1, 1, 1, [], errorFound⟩ [] [] :=
    ⟨TextField.Open.start, rfl, rfl, rfl, fun hne => absurd rfl hne⟩
  obtain ⟨h₁, h₂⟩ := hstart.run d filename printFilename file.flatten
  rw [checkFile, Pieces.foldReads_eq hf, h₁, h₂]
  rfl

/-- **The checker is its reference**: however `read` cuts the file, `check_file` prints the
diagnosis of every maximal run of bytes that are no white space, in file order, and sets
`error_found` when one of them is misspelled.  White space at the end changes nothing. -/
theorem check_file_spec (errorFound : Bool)
    {file : Pieces UInt8} (hf : Pieces.Whole file) :
    checkFile d filename printFilename errorFound (.ok file) =
      { stdout :=
          (TextField.fields isSpace file.flatten).flatMap (diagnosis d filename printFilename)
        stderr := []
        errorFound := errorFound || (TextField.fields isSpace file.flatten).any (misspelled d) } ∧
    (∀ f, f ∈ TextField.fields isSpace file.flatten ↔ TextField.IsField isSpace file.flatten f) ∧
    ((TextField.fields isSpace file.flatten).Pairwise fun f g =>
      f.before.length < g.before.length) ∧
    ∀ ws : Bytes, (∀ c ∈ ws, isSpace c = true) →
      TextField.fields isSpace (file.flatten ++ ws) = TextField.fields isSpace file.flatten := by
  refine ⟨?_, fun f => TextField.mem_fields, TextField.fields_ordered,
    fun ws => TextField.fields_append⟩
  have hstart : Tracks ⟨[], 1, 1, 1, [], errorFound⟩ [] [] :=
    ⟨TextField.Open.start, rfl, rfl, rfl, fun hne => absurd rfl hne⟩
  obtain ⟨h₁, h₂⟩ := hstart.run d filename printFilename file.flatten
  rw [checkFile, Pieces.foldReads_eq hf, h₁, h₂]
  rfl

theorem check_file_spec_sample :
    (checkFile dictCreate (ascii "a.txt") true false (.ok [ascii "1 (f", ascii "oo)\n"])).stdout =
      (TextField.fields isSpace (ascii "1 (foo)\n")).flatMap
        (diagnosis dictCreate (ascii "a.txt") true) := by
  have hf : Pieces.Whole [ascii "1 (f", ascii "oo)\n"] := by unfold Pieces.Whole; decide
  have h := (check_file_spec dictCreate (ascii "a.txt") true false hf).1
  exact congrArg Checked.stdout h

example : (TextField.fields isSpace (ascii "1 (foo)\n")).flatMap
    (diagnosis dictCreate (ascii "a.txt") true) = ascii "a.txt:1:3 foo\n" := by decide +kernel

end CS214.Spell
