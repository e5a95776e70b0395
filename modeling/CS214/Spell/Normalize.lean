import CS214.Spell.Checker

/-!
# Spell — what normalization leaves of a word

`normalize_word` runs over a word from both ends.  `Normalization` says what it leaves: the word
without its longest front of opening marks and, of what is behind them, without the longest end
that holds no letter or digit; every letter and digit, in order; and nothing that a second
normalization would take away.

* `normalize_word_spec`: every word of at most 255 bytes has this normal form, and where it has a
  letter the test of `normalized[0]` passes.
* `own_words`: the lines of a dictionary are not normalized, the words of a text are.  So a line is
  accepted as a text when it is its own normal form, and another line is when the dictionary accepts
  its normal form.
-/

open CString

namespace CS214.Spell

variable {src s pre post : Bytes} {p : UInt8 → Bool}

/-! ### Longest fronts and ends -/

/-- `pre` is the longest front of `s` whose bytes all meet `p`. -/
structure LongestFront (p : UInt8 → Bool) (s pre : Bytes) : Prop where
  isPrefix : pre <+: s
  all : ∀ b ∈ pre, p b = true
  longest : ∀ q, q <+: s → (∀ b ∈ q, p b = true) → q.length ≤ pre.length

/-- `post` is the longest end of `s` whose bytes all meet `p`. -/
structure LongestEnd (p : UInt8 → Bool) (s post : Bytes) : Prop where
  isSuffix : post <:+ s
  all : ∀ b ∈ post, p b = true
  longest : ∀ q, q <:+ s → (∀ b ∈ q, p b = true) → q.length ≤ post.length

theorem longestFront_takeWhile (p : UInt8 → Bool) (s : Bytes) :
    LongestFront p s (s.takeWhile p) where
  isPrefix := List.takeWhile_prefix p
  all _ hb := List.mem_takeWhile_imp hb
  longest q := by
    rintro ⟨rest, rfl⟩ hq
    rw [List.takeWhile_append_of_pos hq, List.length_append]
    exact Nat.le_add_right _ _

/-- An end is a front of the reversed string. -/
theorem longestEnd_rtakeWhile (p : UInt8 → Bool) (s : Bytes) :
    LongestEnd p s (s.rtakeWhile p) where
  isSuffix := List.rtakeWhile_suffix p s
  all _ hb := List.mem_rtakeWhile_imp hb
  longest q hq hall := by
    have hfront := (longestFront_takeWhile p s.reverse).longest q.reverse
      (List.reverse_prefix.mpr hq) fun b hb => hall b (List.mem_reverse.mp hb)
    have hrev : (s.rtakeWhile p).length = (s.reverse.takeWhile p).length := List.length_reverse
    rwa [List.length_reverse, ← hrev] at hfront

/-! ### The normal form -/

/-- `dest` is `src` without the longest front of opening marks and, of what is behind them, without
the longest end that holds no letter or digit. -/
def Stripped (src dest : Bytes) : Prop :=
  ∃ marks rest, src = marks ++ (dest ++ rest) ∧ LongestFront isOpening src marks ∧
    LongestEnd (fun b => !isAlnum b) (dest ++ rest) rest

/-- What `normalize_word` makes of a word. -/
structure Normalization (src : Bytes) : Prop where
  stripped : Stripped src (normalizeWord src)
  kept : (normalizeWord src).filter isAlnum = src.filter isAlnum
  /-- A word that is not skipped passes the test of `normalized[0]`. -/
  guard : shouldSkipWord src = false →
    normalizeWord src ≠ [] ∧ (normalizeWord src).headD 0 ≠ 0
  front : ∀ b ∈ (normalizeWord src).head?, isOpening b = false
  back : ∀ b ∈ (normalizeWord src).getLast?, isAlnum b = true
  again : normalizeWord (normalizeWord src) = normalizeWord src

theorem normalizeWord_stripped (src : Bytes) : Stripped src (normalizeWord src) := by
  refine ⟨src.takeWhile isOpening, (src.dropWhile isOpening).rtakeWhile fun b => !isAlnum b, ?_,
    longestFront_takeWhile _ _, ?_⟩
  · rw [normalizeWord_eq, List.rdropWhile_append_rtakeWhile, List.takeWhile_append_dropWhile]
  · rw [normalizeWord_eq, List.rdropWhile_append_rtakeWhile]
    exact longestEnd_rtakeWhile _ _

/-- No opening mark is a letter or a digit. -/
theorem isAlnum_of_isOpening {b : UInt8} (h : isOpening b = true) : isAlnum b = false := by
  simp only [isOpening, Bool.or_eq_true, beq_iff_eq] at h
  rcases h with (((rfl | rfl) | rfl) | rfl) | rfl <;> rfl

theorem filter_isAlnum_eq_nil {t : Bytes} (h : ∀ b ∈ t, isAlnum b = false) :
    t.filter isAlnum = [] :=
  List.filter_eq_nil_iff.mpr fun b hb => ne_true_of_eq_false (h b hb)

/-- What is stripped holds no letter or digit. -/
theorem Stripped.filter {dest : Bytes} (h : Stripped src dest) :
    dest.filter isAlnum = src.filter isAlnum := by
  obtain ⟨marks, rest, rfl, hfront, hend⟩ := h
  have hmarks : marks.filter isAlnum = [] :=
    filter_isAlnum_eq_nil fun b hb => isAlnum_of_isOpening (hfront.all b hb)
  have hrest : rest.filter isAlnum = [] :=
    filter_isAlnum_eq_nil fun b hb => by simpa using hend.all b hb
  rw [List.filter_append, List.filter_append, hmarks, hrest, List.nil_append, List.append_nil]

theorem normalizeWord_front (src : Bytes) :
    ∀ b ∈ (normalizeWord src).head?, isOpening b = false := by
  intro b hb
  rw [normalizeWord_eq] at hb
  -- the front of the word is the front of what is behind the marks
  obtain ⟨rest, hrest⟩ := List.rdropWhile_prefix (fun b => !isAlnum b) (src.dropWhile isOpening)
  have hhead : (src.dropWhile isOpening).head? = some b := by
    rw [← hrest, List.head?_append, hb]
    rfl
  have hnot := List.head?_dropWhile_not isOpening src
  rw [hhead] at hnot
  simpa using hnot

theorem normalizeWord_back (src : Bytes) :
    ∀ b ∈ (normalizeWord src).getLast?, isAlnum b = true := by
  intro b hb
  rw [normalizeWord_eq] at hb
  obtain ⟨hne, hlast⟩ := List.mem_getLast?_eq_getLast hb
  have hnot := List.rdropWhile_last_not (fun b => !isAlnum b) _ hne
  rw [← hlast] at hnot
  simpa using hnot

/-- A word that neither starts with an opening mark nor ends without a letter or digit stays. -/
theorem normalizeWord_eq_self (hfront : ∀ b ∈ src.head?, isOpening b = false)
    (hback : ∀ b ∈ src.getLast?, isAlnum b = true) : normalizeWord src = src := by
  rw [normalizeWord_eq, dropWhile_eq_self_of_head hfront, List.rdropWhile_eq_self_iff]
  intro hne
  simpa using hback _ (List.getLast?_eq_some_getLast hne)

/-- **Normalization**, of every word that fits the buffer. -/
theorem normalize_word_spec (w : Word) : Normalization w.bytes where
  stripped := normalizeWord_stripped w.bytes
  kept := (normalizeWord_stripped w.bytes).filter
  guard h := by
    have hword : untilNul w.bytes = w.bytes := untilNul_eq_self w.noNul
    rw [← hword] at h
    have hhead := normalizeWord_head h
    rw [hword] at hhead
    -- `normalized[0]` of an empty word is the NUL behind it
    refine ⟨fun hnil => ?_, hhead⟩
    rw [hnil] at hhead
    exact hhead rfl
  front := normalizeWord_front w.bytes
  back := normalizeWord_back w.bytes
  again := normalizeWord_eq_self (normalizeWord_front w.bytes) (normalizeWord_back w.bytes)

example : normalizeWord (ascii "([well-known].") = ascii "well-known" := by decide

/-! ### The words of a dictionary as a text -/

/-- The word does not start with an opening mark, and it ends with a letter or digit. -/
def OwnForm (w : Word) : Prop :=
  (∀ b ∈ w.bytes.head?, isOpening b = false) ∧ ∀ b ∈ w.bytes.getLast?, isAlnum b = true

/-- The first 255 bytes of a word, up to a NUL, are the word. -/
theorem lineWord_word (w : Word) : lineWord w.bytes = w.bytes := by
  have htake : w.bytes.take (maxWordLen - 1) = w.bytes := List.take_of_length_le w.short
  rw [lineWord, htake, untilNul_eq_self w.noNul]

/-- A dictionary that reads no other line as the word accepts it. -/
theorem lookup_own {s : Bytes} {w : Word} (hlisted : w.bytes ∈ entries s)
    (hother : ∀ l ∈ entries s, ReadAs l w → l = w.bytes) :
    dictLookup (((entries s).map lineWord).foldl dictAdd dictCreate) w.bytes = true := by
  have hread : ReadAs w.bytes w := by rw [ReadAs, lineWord_word]
  refine lookup_loaded.mpr ⟨⟨_, hlisted, hread⟩, ?_⟩
  -- a word without a capital asks that no line read as it has one, and that line is the word
  cases hup : startsUpper w.bytes with
  | true => exact .inl rfl
  | false => exact .inr fun l hl hr => hother l hl hr ▸ hup

/-- What `check_file` does with a text that is one word with a letter. -/
theorem checkFile_word {w : Word} (hspace : ∀ b ∈ w.bytes, isSpace b = false)
    (hletter : w.bytes.any isAlpha = true) {text : Pieces UInt8} (htext : Pieces.Whole text)
    (hw : text.flatten = w.bytes) (d : Dict) (filename : Bytes) (printFilename : Bool) :
    (checkFile d filename printFilename false (.ok text)).errorFound =
        !dictLookup d (normalizeWord w.bytes) ∧
      (dictLookup d (normalizeWord w.bytes) = true →
        checkFile d filename printFilename false (.ok text) = ⟨[], [], false⟩) := by
  have hne : w.bytes ≠ [] := by
    intro hnil
    rw [hnil] at hletter
    cases hletter
  have hfields : TextField.fields isSpace text.flatten = [⟨[], w.bytes⟩] := by
    rw [hw]
    exact TextField.fields_single hspace hne
  have hmis : misspelled d ⟨[], w.bytes⟩ = !dictLookup d (normalizeWord w.bytes) := by
    have hword : fieldWord ⟨[], w.bytes⟩ = w.bytes := lineWord_word w
    rw [misspelled, hword, hletter, Bool.true_and]
  rw [checkFile_ok d filename printFilename false htext, hfields]
  simp only [List.any_cons, List.any_nil, List.flatMap_singleton, Bool.false_or, Bool.or_false,
    diagnosis, hmis]
  exact ⟨trivial, fun hl => by simp [hl]⟩

/-- **The words of a dictionary**: a line that the dictionary reads no other line as is accepted as
a text when it is its own normal form; another one is reported unless the dictionary accepts the
normal form. -/
theorem own_words {w : Word} (hspace : ∀ b ∈ w.bytes, isSpace b = false)
    (hletter : w.bytes.any isAlpha = true) {file text : Pieces UInt8} (hfile : Pieces.Whole file)
    (htext : Pieces.Whole text) (hw : text.flatten = w.bytes)
    (hlisted : w.bytes ∈ entries file.flatten)
    (hother : ∀ l ∈ entries file.flatten, ReadAs l w → l = w.bytes) (filename : Bytes)
    (printFilename : Bool) :
    ∃ d, loadDictionary (.ok file) = ⟨0, some d, []⟩ ∧
      (OwnForm w → checkFile d filename printFilename false (.ok text) = ⟨[], [], false⟩) ∧
      (checkFile d filename printFilename false (.ok text)).errorFound =
        !dictLookup d (normalizeWord w.bytes) := by
  refine ⟨_, loadDictionary_ok hfile, fun hown => ?_, ?_⟩
  · refine (checkFile_word hspace hletter htext hw _ filename printFilename).2 ?_
    rw [normalizeWord_eq_self hown.1 hown.2]
    exact lookup_own hlisted hother
  · exact (checkFile_word hspace hletter htext hw _ filename printFilename).1

theorem own_words_foo :
    ∃ d, loadDictionary (.ok [ascii "Bar\nfo", ascii "o\n"]) = ⟨0, some d, []⟩ ∧
      checkFile d (ascii "a.txt") true false (.ok [ascii "f", ascii "oo"]) = ⟨[], [], false⟩ := by
  have hfile : Pieces.Whole [ascii "Bar\nfo", ascii "o\n"] := by
    unfold Pieces.Whole
    decide
  have htext : Pieces.Whole [ascii "f", ascii "oo"] := by
    unfold Pieces.Whole
    decide
  obtain ⟨d, hd, haccept, -⟩ := own_words (w := foo) (by decide +kernel) (by decide) hfile htext
    rfl (by decide) (by unfold ReadAs; decide) (ascii "a.txt") true
  exact ⟨d, hd, haccept ⟨by decide +kernel, by decide +kernel⟩⟩

/-- A word of 255 letters. -/
def longWord : Bytes := List.replicate 255 97

/-- A dictionary that lists nothing but `etc.` reports it in a text; and one that lists a word of
255 letters reports it when it lists a longer line whose first 255 bytes are its capitals. -/
theorem own_words_reported :
    (∃ d, loadDictionary (.ok [ascii "etc."]) = ⟨0, some d, []⟩ ∧
      entries (ascii "etc.") = [ascii "etc."] ∧
      (checkFile d (ascii "a.txt") false false (.ok [ascii "etc."])).errorFound = true) ∧
    ∃ d, loadDictionary (.ok [longWord ++ 10 :: List.replicate 256 65]) = ⟨0, some d, []⟩ ∧
      entries (longWord ++ 10 :: List.replicate 256 65) = [longWord, List.replicate 256 65] ∧
      (checkFile d (ascii "a.txt") false false (.ok [longWord])).errorFound = true := by
  refine ⟨⟨_, rfl, by decide, by decide +kernel⟩, _, rfl, by decide +kernel, by decide +kernel⟩

end CS214.Spell
