import CS214.Lib.CString
import CS214.Lib.Fields
import CS214.Lib.Pieces

/-!
# Spell — the dictionary of `spell.c`

A hash table of lower-cased words, each with a flag that says whether some added word of that
spelling started with an upper-case letter.  A word is the string in a buffer of 256 bytes, so what
the functions see of it ends at its first NUL.

* `lookup_foldl`: what `dict_lookup` answers after a list of words was added.
* `loadDictionary_ok`: however `read` cuts the file, `load_dictionary` adds the first 255 bytes of
  every line that is not empty.
* `dict_lookup_rule_iff`: a lower-case line accepts every capitalization of its spelling exactly
  when no capitalized line of the same spelling is listed with it.
-/

open CString

namespace CS214.Spell

/-- `HASH_SIZE`. -/
def hashSize : UInt32 := 50000

/-- `MAX_WORD_LEN`. -/
def maxWordLen : ℕ := 256

/-- `dict_entry_t`, without the link: a chain is a list. -/
structure DictEntry where
  word : Bytes
  hasCapital : Bool
deriving DecidableEq

/-- `dict_t`. -/
structure Dict where
  buckets : UInt32 → List DictEntry

/-- `(int) c`, for a signed `char`, converted to `unsigned int`. -/
def charValue (c : UInt8) : UInt32 := c.toInt8.toInt32.toUInt32

/-- `hash`. -/
def hash (str : Bytes) : UInt32 :=
  str.foldl (fun (h : UInt32) c => ((h <<< 5) + h) + charValue c) 5381 % hashSize

/-- `dict_create`. -/
def dictCreate : Dict := ⟨fun _ => []⟩

/-- `to_lower`. -/
def toLowerWord (src : Bytes) : Bytes := src.map toLower

/-- `isupper(word[0])`. -/
def startsUpper (word : Bytes) : Bool := isUpper (word.headD 0)

/-- The loop of `dict_add`: the chain with the entry of `lower` updated, when there is one. -/
def updateChain (lower : Bytes) (capital : Bool) : List DictEntry → Option (List DictEntry)
  | [] => none
  | curr :: next =>
    if curr.word = lower then
      some ((if capital then { curr with hasCapital := true } else curr) :: next)
    else (updateChain lower capital next).map (curr :: ·)

/-- `dict_add`: the entry of the spelling gets the flag, or there is a new one at the front of its
chain. -/
def dictAdd (d : Dict) (word : Bytes) : Dict :=
  let lower := toLowerWord word
  let h := hash lower
  match updateChain lower (startsUpper word) (d.buckets h) with
  | some chain => ⟨fun k => if k = h then chain else d.buckets k⟩
  | none =>
    let entry : DictEntry := ⟨lower, startsUpper word⟩
    ⟨fun k => if k = h then entry :: d.buckets h else d.buckets k⟩

/-- `dict_lookup`: the spelling has an entry, and the word is capitalized if its flag asks so. -/
def dictLookup (d : Dict) (word : Bytes) : Bool :=
  let lower := toLowerWord word
  match (d.buckets (hash lower)).find? (·.word = lower) with
  | some curr => if curr.hasCapital then startsUpper word else true
  | none => false

/-- The locals of the loop over a file of words: the dictionary and the first `word_len` bytes of
`word`. -/
structure Loading where
  dictionary : Dict
  word : Bytes

/-- `if (word_len > 0) { word[word_len] = '\0'; dict_add(dictionary, word); }` -/
def Loading.finish (st : Loading) : Dict :=
  if st.word.isEmpty then st.dictionary else dictAdd st.dictionary (untilNul st.word)

/-- One byte of the dictionary file. -/
def loadByte (st : Loading) (c : UInt8) : Loading :=
  if c = 10 then ⟨st.finish, []⟩
  else if st.word.length < maxWordLen - 1 then { st with word := st.word ++ [c] }
  else st

/-- What `load_dictionary` leaves: its value, the dictionary, and what it prints on `stderr`. -/
structure Loaded where
  ret : ℤ
  dictionary : Option Dict
  stderr : Bytes

/-- `load_dictionary`; `open` gives the reads to come, or the text of its error. -/
def loadDictionary : Except Bytes (Pieces UInt8) → Loaded
  | .error e => ⟨-1, none, ascii "Error opening dictionary: " ++ e ++ ascii "\n"⟩
  | .ok file => ⟨0, some (file.foldReads loadByte ⟨dictCreate, []⟩).finish, []⟩

variable {d : Dict} {w v : Bytes} {s : Bytes}

/-! ### Adding and looking up -/

/-- The flag of the entry with the spelling of `w`. -/
def entryFlag (d : Dict) (w : Bytes) : Option Bool :=
  ((d.buckets (hash (toLowerWord w))).find? (·.word = toLowerWord w)).map DictEntry.hasCapital

theorem dictLookup_eq :
    dictLookup d w = (entryFlag d w).elim false fun capital => !capital || startsUpper w := by
  rw [dictLookup, entryFlag]
  cases (d.buckets (hash (toLowerWord w))).find? (·.word = toLowerWord w) with
  | none => rfl
  | some e => cases h : e.hasCapital <;> simp [h]

theorem find_updateChain {lower : Bytes} {capital : Bool} {chain chain' : List DictEntry}
    (h : updateChain lower capital chain = some chain') (key : Bytes) :
    (chain'.find? (·.word = key)).map DictEntry.hasCapital =
      if key = lower then
        (chain.find? (·.word = key)).map fun e => e.hasCapital || capital
      else (chain.find? (·.word = key)).map DictEntry.hasCapital := by
  induction chain generalizing chain' with
  | nil => cases h
  | cons e es ih =>
      rw [updateChain] at h
      split at h
      · next he =>
          obtain rfl := Option.some.inj h
          by_cases hk : key = lower
          · subst hk
            cases capital <;> simp [he]
          · have hne : e.word ≠ key := fun e' => hk (e'.symm.trans he)
            cases capital <;> simp [hk, hne]
      · next he =>
          obtain ⟨es', hes, rfl⟩ := Option.map_eq_some_iff.mp h
          have ih := ih hes
          by_cases hek : e.word = key
          · have hk : key ≠ lower := fun e' => he (hek.trans e')
            simp [hek, hk]
          · simp only [List.find?_cons, hek, decide_false]
            exact ih

theorem updateChain_none {lower : Bytes} {capital : Bool} {chain : List DictEntry} :
    updateChain lower capital chain = none ↔ chain.find? (·.word = lower) = none := by
  induction chain with
  | nil => simp [updateChain]
  | cons e es ih =>
      rw [updateChain]
      split
      · next he => simp [he]
      · next he => simp [he, ih]

/-- What one word changes: the entry of its spelling, and no other. -/
theorem entryFlag_add :
    entryFlag (dictAdd d v) w =
      if toLowerWord v = toLowerWord w then
        some ((entryFlag d w).getD false || startsUpper v)
      else entryFlag d w := by
  by_cases hh : hash (toLowerWord w) = hash (toLowerWord v)
  · cases hu : updateChain (toLowerWord v) (startsUpper v) (d.buckets (hash (toLowerWord v))) with
    | none =>
        have hnone := updateChain_none.mp hu
        simp only [entryFlag, dictAdd, hu, hh, if_true, List.find?_cons]
        by_cases he : toLowerWord v = toLowerWord w
        · rw [he] at hnone
          simp [he, hnone]
        · simp [he]
    | some chain =>
        have hf := find_updateChain hu (toLowerWord w)
        simp only [entryFlag, dictAdd, hu, hh, if_true, hf, eq_comm (a := toLowerWord w)]
        split
        · next he =>
            -- the chain was updated, so it has an entry of this spelling
            cases hfind : (d.buckets (hash (toLowerWord v))).find? (·.word = toLowerWord w) with
            | none =>
                rw [← he, ← @updateChain_none _ (startsUpper v), hu] at hfind
                cases hfind
            | some e => rfl
        · rfl
  · have he : toLowerWord v ≠ toLowerWord w := fun e => hh (by rw [e])
    have hb : (dictAdd d v).buckets (hash (toLowerWord w)) = d.buckets (hash (toLowerWord w)) := by
      simp only [dictAdd]
      split <;> simp [hh]
    rw [entryFlag, hb, if_neg he, entryFlag]

/-- The words of `vs` with the spelling of `w`. -/
def sameSpelling (w : Bytes) (vs : List Bytes) : List Bytes :=
  vs.filter fun v => toLowerWord v = toLowerWord w

theorem entryFlag_foldl (vs : List Bytes) :
    entryFlag (vs.foldl dictAdd d) w =
      if sameSpelling w vs = [] then entryFlag d w
      else some ((entryFlag d w).getD false || (sameSpelling w vs).any startsUpper) := by
  induction vs generalizing d with
  | nil => rfl
  | cons v vs ih =>
      rw [List.foldl_cons, ih, entryFlag_add]
      by_cases he : toLowerWord v = toLowerWord w
      · have hs : sameSpelling w (v :: vs) = v :: sameSpelling w vs := by simp [sameSpelling, he]
        rw [hs, if_pos he, if_neg (List.cons_ne_nil _ _), List.any_cons, Option.getD_some,
          Bool.or_assoc]
        split
        · next hnil => rw [hnil, List.any_nil, Bool.or_false]
        · rfl
      · have hs : sameSpelling w (v :: vs) = sameSpelling w vs := by simp [sameSpelling, he]
        rw [hs, if_neg he]

/-- **What `dict_lookup` answers**: some added word has the spelling of `w`, and `w` starts with
an upper-case letter unless none of those words does. -/
theorem lookup_foldl (vs : List Bytes) :
    dictLookup (vs.foldl dictAdd dictCreate) w = true ↔
      sameSpelling w vs ≠ [] ∧
        (startsUpper w = true ∨ ∀ v ∈ sameSpelling w vs, startsUpper v = false) := by
  rw [dictLookup_eq, entryFlag_foldl]
  have hcreate : entryFlag dictCreate w = none := rfl
  by_cases hs : sameSpelling w vs = []
  · simp [hs, hcreate]
  · rw [if_neg hs, hcreate]
    simp [hs, or_comm]

/-! ### Loading a file -/

/-- The word a line adds: the string in the buffer after its first 255 bytes were stored. -/
def lineWord (l : Bytes) : Bytes := untilNul (l.take (maxWordLen - 1))

/-- The lines of a dictionary file that are not empty. -/
def entries (s : Bytes) : List Bytes := (TextField.lines 10 s).filter fun l => !l.isEmpty

/-- Storing a byte in a buffer that keeps the first `n`. -/
theorem take_push {n : ℕ} (cur : Bytes) (c : UInt8) :
    (if (cur.take n).length < n then cur.take n ++ [c] else cur.take n) = (cur ++ [c]).take n := by
  rw [List.length_take]
  split
  · next h =>
      have hlt : cur.length < n := by omega
      rw [List.take_of_length_le (by omega), List.take_of_length_le]
      rw [List.length_append, List.length_singleton]
      omega
  · next h => rw [List.take_append_of_le_length (by omega)]

/-- The loop over the bytes, when `cur` is the line begun. -/
theorem foldl_loadByte (cur : Bytes) :
    (s.foldl loadByte ⟨d, cur.take (maxWordLen - 1)⟩).finish =
      (((TextField.linesFrom 10 cur s).filter fun l => !l.isEmpty).map lineWord).foldl
        dictAdd d := by
  have hempty : (cur.take (maxWordLen - 1)).isEmpty = cur.isEmpty := by
    cases cur <;> simp [maxWordLen]
  induction s generalizing d cur with
  | nil =>
      rw [List.foldl_nil, Loading.finish, hempty, TextField.linesFrom]
      cases cur <;> rfl
  | cons c s ih =>
      rw [List.foldl_cons, loadByte, TextField.linesFrom]
      split
      · next hc =>
          have hrest := ih (d := Loading.finish ⟨d, cur.take (maxWordLen - 1)⟩) [] rfl
          rw [List.take_nil] at hrest
          rw [hrest, Loading.finish, hempty]
          cases cur <;> rfl
      · next hc =>
          have hpush := take_push (n := maxWordLen - 1) cur c
          have hne : ((cur ++ [c]).take (maxWordLen - 1)).isEmpty = (cur ++ [c]).isEmpty := by
            cases cur <;> simp [maxWordLen]
          rw [← ih (cur ++ [c]) hne, ← hpush]
          split <;> rfl

/-- **Loading a dictionary** adds the word of every line that is not empty, however `read` cuts
the file. -/
theorem loadDictionary_ok {file : Pieces UInt8} (hf : Pieces.Whole file) :
    loadDictionary (.ok file) =
      ⟨0, some (((entries file.flatten).map lineWord).foldl dictAdd dictCreate), []⟩ := by
  rw [loadDictionary, Pieces.foldReads_eq hf]
  exact congrArg (fun d => Loaded.mk 0 (some d) []) (foldl_loadByte [])

/-! ### The rule -/

/-- A word that fits a buffer. -/
structure Word where
  bytes : Bytes
  noNul : 0 ∉ bytes
  short : bytes.length ≤ 255

/-- The first 255 bytes of the line are the word, up to case. -/
def Spells (l : Bytes) (w : Word) : Prop :=
  toLowerWord (l.take (maxWordLen - 1)) = toLowerWord w.bytes

/-- The same, of what the line holds before its first NUL. -/
def ReadAs (l : Bytes) (w : Word) : Prop := toLowerWord (lineWord l) = toLowerWord w.bytes

/-- The rule of the README: some line has the spelling of the word, and it does not start with an
upper-case letter or the word does. -/
def Listed (s : Bytes) (w : Word) : Prop :=
  ∃ l ∈ entries s, Spells l w ∧ (startsUpper l = false ∨ startsUpper w.bytes = true)

/-- No line overrides another: a word that does not start with an upper-case letter is not listed
both with and without one; and a line that has the spelling only before a NUL is not the only reason
to accept the word: no line is read as the word, or a capitalized one is and the word is not
capitalized, or some line spells it. -/
structure Unmixed (s : Bytes) (w : Word) : Prop where
  caps : startsUpper w.bytes = true ∨ (∀ l ∈ entries s, ReadAs l w → startsUpper l = false) ∨
    ∀ l ∈ entries s, Spells l w → startsUpper l = true
  nuls : (∀ l ∈ entries s, ¬ ReadAs l w) ∨
    (startsUpper w.bytes = false ∧ ∃ l ∈ entries s, ReadAs l w ∧ startsUpper l = true) ∨
    ∃ l ∈ entries s, Spells l w

theorem toLower_eq_zero {b : UInt8} : toLower b = 0 ↔ b = 0 := by
  rw [toLower]
  split
  · next h =>
      simp only [isUpper, Bool.and_eq_true, decide_eq_true_eq, UInt8.le_iff_toNat_le] at h
      simp only [← UInt8.toNat_inj, UInt8.toNat_add, UInt8.reduceToNat] at h ⊢
      omega
  · exact Iff.rfl

theorem Spells.readAs {l : Bytes} {w : Word} (h : Spells l w) : ReadAs l w := by
  have hno : 0 ∉ l.take (maxWordLen - 1) := by
    intro h₀
    have hmem : (0 : UInt8) ∈ toLowerWord (l.take (maxWordLen - 1)) :=
      List.mem_map.mpr ⟨0, h₀, rfl⟩
    rw [h] at hmem
    obtain ⟨b, hb, hb₀⟩ := List.mem_map.mp hmem
    exact w.noNul (toLower_eq_zero.mp hb₀ ▸ hb)
  rw [ReadAs, lineWord, untilNul_eq_self hno]
  exact h

/-- The word of a line starts as the line does. -/
theorem startsUpper_lineWord (l : Bytes) : startsUpper (lineWord l) = startsUpper l := by
  cases l with
  | nil => rfl
  | cons b l =>
      by_cases hb : b = 0
      · subst hb
        rfl
      · simp [startsUpper, lineWord, maxWordLen, untilNul, hb]

/-- `dict_lookup` accepts the word, in terms of the lines: one is read as it, and none of them asks
for a capital that the word has not. -/
def Accepted (s : Bytes) (w : Word) : Prop :=
  (∃ l ∈ entries s, ReadAs l w) ∧
    (startsUpper w.bytes = true ∨ ∀ l ∈ entries s, ReadAs l w → startsUpper l = false)

/-- What `dict_lookup` answers after a file was loaded. -/
theorem lookup_loaded {w : Word} :
    dictLookup (((entries s).map lineWord).foldl dictAdd dictCreate) w.bytes = true ↔
      Accepted s w := by
  rw [lookup_foldl]
  have hmem : ∀ v, v ∈ sameSpelling w.bytes ((entries s).map lineWord) ↔
      ∃ l ∈ entries s, ReadAs l w ∧ lineWord l = v := by
    intro v
    rw [sameSpelling, List.mem_filter, List.mem_map, decide_eq_true_eq]
    constructor
    · rintro ⟨⟨l, hl, rfl⟩, h⟩
      exact ⟨l, hl, h, rfl⟩
    · rintro ⟨l, hl, h, rfl⟩
      exact ⟨⟨l, hl, rfl⟩, h⟩
  refine and_congr ?_ (or_congr_right ?_)
  · constructor
    · intro hne
      obtain ⟨v, hv⟩ := List.exists_mem_of_ne_nil _ hne
      obtain ⟨l, hl, h, -⟩ := (hmem v).mp hv
      exact ⟨l, hl, h⟩
    · rintro ⟨l, hl, h⟩
      exact List.ne_nil_of_mem ((hmem _).mpr ⟨l, hl, h, rfl⟩)
  · constructor
    · intro h l hl hr
      rw [← startsUpper_lineWord]
      exact h _ ((hmem _).mpr ⟨l, hl, hr, rfl⟩)
    · intro h v hv
      obtain ⟨l, hl, hr, rfl⟩ := (hmem v).mp hv
      rw [startsUpper_lineWord]
      exact h l hl hr

theorem unmixed_of_accepted_iff {w : Word} (h : Accepted s w ↔ Listed s w) :
    Unmixed s w := by
  refine ⟨?_, ?_⟩
  · by_contra hno
    simp only [not_or, not_forall] at hno
    obtain ⟨hw, ⟨l, hl, hr, hup⟩, ⟨l', hl', hs, hlow⟩⟩ := hno
    -- a lower-case line and a capitalized one: listed, and rejected
    have hacc := (h.mpr ⟨l', hl', hs, .inl (by simpa using hlow)⟩).2.resolve_left hw
    exact hup (hacc l hl hr)
  · by_contra hno
    simp only [not_or, not_forall, not_not, not_and, not_exists] at hno
    obtain ⟨⟨l, hl, hr⟩, hover, hnone⟩ := hno
    -- a line is read as the word, and none overrides it: accepted, and so listed
    have hcap : startsUpper w.bytes = true ∨
        ∀ l ∈ entries s, ReadAs l w → startsUpper l = false := by
      refine or_iff_not_imp_left.mpr fun hw l hl hr => ?_
      exact Bool.eq_false_iff.mpr (hover (Bool.eq_false_iff.mpr hw) l hl hr)
    obtain ⟨l', hl', hs, -⟩ := h.mp ⟨⟨l, hl, hr⟩, hcap⟩
    exact hnone l' hl' hs

theorem Unmixed.accepted_iff {w : Word} (h : Unmixed s w) : Accepted s w ↔ Listed s w := by
  constructor
  · rintro ⟨⟨l₀, hl₀, hr₀⟩, hcap⟩
    obtain ⟨l, hl, hs⟩ : ∃ l ∈ entries s, Spells l w := by
      rcases h.nuls with hno | ⟨hw, l, hl, hr, hup⟩ | hs
      · exact absurd hr₀ (hno l₀ hl₀)
      · have hlow := (hcap.resolve_left (by simp [hw])) l hl hr
        exact absurd hup (by simp [hlow])
      · exact hs
    rcases hcap with hw | hlow
    · exact ⟨l, hl, hs, .inr hw⟩
    · exact ⟨l, hl, hs, .inl (hlow l hl hs.readAs)⟩
  · rintro ⟨l, hl, hs, hcap⟩
    refine ⟨⟨l, hl, hs.readAs⟩, ?_⟩
    rcases h.caps with hw | hlow | hup
    · exact .inl hw
    · exact .inr hlow
    · exact .inl (hcap.resolve_left (by simp [hup l hl hs]))

/-- **When the dictionary keeps the rule**: `dict_lookup` accepts exactly the listed words when
no line overrides another, and only then. -/
theorem dict_lookup_rule_iff {file : Pieces UInt8} (hf : Pieces.Whole file) (w : Word) :
    ∃ d, loadDictionary (.ok file) = ⟨0, some d, []⟩ ∧
      ((dictLookup d w.bytes = true ↔ Listed file.flatten w) ↔ Unmixed file.flatten w) := by
  refine ⟨_, loadDictionary_ok hf, ?_⟩
  rw [lookup_loaded]
  exact ⟨unmixed_of_accepted_iff, Unmixed.accepted_iff⟩

/-- The word `foo`. -/
def foo : Word := ⟨ascii "foo", by decide, by decide⟩

theorem dict_lookup_rule_foo :
    ∃ d, loadDictionary (.ok [ascii "fo", ascii "o\nBar"]) = ⟨0, some d, []⟩ ∧
      ((dictLookup d foo.bytes = true ↔ Listed (ascii "foo\nBar") foo) ↔
        Unmixed (ascii "foo\nBar") foo) :=
  dict_lookup_rule_iff
    (show Pieces.Whole [ascii "fo", ascii "o\nBar"] by unfold Pieces.Whole; decide) foo

/-- A dictionary that lists `foo` accepts it, and no longer does when it lists `Foo` as well. -/
theorem dict_lookup_foo_overridden :
    (∃ d, (loadDictionary (.ok [ascii "foo\n"])).dictionary = some d ∧
      dictLookup d foo.bytes = true) ∧
    ∃ d, (loadDictionary (.ok [ascii "foo\nFoo\n"])).dictionary = some d ∧
      ¬ (dictLookup d foo.bytes = true ↔ Listed (ascii "foo\nFoo\n") foo) := by
  refine ⟨⟨_, rfl, by decide +kernel⟩, _, rfl, fun h => ?_⟩
  have hlisted : Listed (ascii "foo\nFoo\n") foo :=
    ⟨ascii "foo", by decide, by unfold Spells; decide, .inl (by decide)⟩
  have hno := h.mpr hlisted
  revert hno
  decide +kernel

end CS214.Spell
