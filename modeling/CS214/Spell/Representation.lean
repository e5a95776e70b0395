import Mathlib.Data.List.Nodup
import CS214.Spell.Dictionary

/-!
# Spell — what the hash table holds

`Represents d vs` says what the chains of a dictionary hold after the words `vs` were added: one
entry for every lower-cased word, in the chain of its hash, with the flag set exactly when some
added word of that lower-casing starts with an upper-case letter.

Adding a word keeps the invariant `Placed` (`placed_dictAdd`); the flags are those of
`entryFlag_foldl`.  So what `dict_lookup` answers depends only on the set of the words
(`dictionary_represents`).
-/

open CString

namespace CS214.Spell

variable {d : Dict} {v w : Bytes} {vs : List Bytes} {k : UInt32}

/-- The words of a chain. -/
def Dict.words (d : Dict) (k : UInt32) : List Bytes := (d.buckets k).map DictEntry.word

/-- The entries of all chains. -/
def Dict.entries (d : Dict) : List DictEntry :=
  (List.range hashSize.toNat).flatMap fun k => d.buckets (UInt32.ofNat k)

/-- Every word of a chain is lower-case and belongs there, and no chain has a word twice. -/
structure Placed (d : Dict) : Prop where
  once : ∀ k, (d.words k).Nodup
  hashed : ∀ k, ∀ u ∈ d.words k, hash u = k
  lowered : ∀ k, ∀ u ∈ d.words k, toLowerWord u = u

/-- The dictionary holds the words `vs`. -/
structure Represents (d : Dict) (vs : List Bytes) : Prop where
  once : (d.entries.map DictEntry.word).Nodup
  hashed : ∀ k, ∀ e ∈ d.buckets k, k = hash e.word
  words : ∀ u, (∃ e ∈ d.entries, e.word = u) ↔ ∃ v ∈ vs, toLowerWord v = u
  capital : ∀ e ∈ d.entries, e.hasCapital = true ↔
    ∃ v ∈ vs, toLowerWord v = e.word ∧ startsUpper v = true

/-! ### Lower-casing and hashing -/

theorem toLower_toLower (c : UInt8) : toLower (toLower c) = toLower c := by
  have hupper : isUpper (toLower c) = false := by
    simp only [toLower]
    split
    · next h =>
        simp only [isUpper, Bool.and_eq_true, decide_eq_true_eq, UInt8.le_iff_toNat_le] at h
        simp only [isUpper, Bool.and_eq_false_iff, decide_eq_false_iff_not, UInt8.le_iff_toNat_le,
          UInt8.toNat_add, UInt8.reduceToNat] at h ⊢
        omega
    · next h => exact eq_false_of_ne_true h
  rw [toLower, if_neg (by simp [hupper])]

theorem toLowerWord_toLowerWord (w : Bytes) : toLowerWord (toLowerWord w) = toLowerWord w := by
  rw [toLowerWord, toLowerWord, List.map_map]
  exact List.map_congr_left fun c _ => toLower_toLower c

theorem hash_lt (w : Bytes) : (hash w).toNat < hashSize.toNat := by
  rw [hash, UInt32.toNat_mod]
  exact Nat.mod_lt _ (by decide)

/-! ### One word -/

theorem words_updateChain {lower : Bytes} {capital : Bool} {chain chain' : List DictEntry}
    (h : updateChain lower capital chain = some chain') :
    lower ∈ chain.map DictEntry.word ∧ chain'.map DictEntry.word = chain.map DictEntry.word := by
  induction chain generalizing chain' with
  | nil => cases h
  | cons e es ih =>
      rw [updateChain] at h
      split at h
      · next he =>
          obtain rfl := Option.some.inj h
          refine ⟨he ▸ List.mem_cons_self, ?_⟩
          cases capital <;> rfl
      · obtain ⟨es', hes, rfl⟩ := Option.map_eq_some_iff.mp h
        obtain ⟨hmem, hwords⟩ := ih hes
        exact ⟨List.mem_cons_of_mem _ hmem, congrArg (e.word :: ·) hwords⟩

/-- Adding a word adds its lower-casing to its chain when the chain does not have it. -/
theorem words_dictAdd (d : Dict) (v : Bytes) (k : UInt32) :
    (dictAdd d v).words k =
      if k = hash (toLowerWord v) ∧ toLowerWord v ∉ d.words k then toLowerWord v :: d.words k
      else d.words k := by
  cases hu : updateChain (toLowerWord v) (startsUpper v) (d.buckets (hash (toLowerWord v))) with
  | none =>
      have hno : toLowerWord v ∉ d.words (hash (toLowerWord v)) := by
        rintro hmem
        obtain ⟨e, he, hword⟩ := List.mem_map.mp hmem
        have hnone := List.find?_eq_none.mp (updateChain_none.mp hu) e he
        simp [hword] at hnone
      by_cases hk : k = hash (toLowerWord v)
      · subst hk
        rw [if_pos ⟨rfl, hno⟩]
        simp only [Dict.words, dictAdd, hu, if_true, List.map_cons]
      · simp [Dict.words, dictAdd, hu, hk]
  | some chain =>
      obtain ⟨hmem, hwords⟩ := words_updateChain hu
      by_cases hk : k = hash (toLowerWord v)
      · subst hk
        have hyes : toLowerWord v ∈ d.words (hash (toLowerWord v)) := hmem
        rw [if_neg fun h => h.2 hyes]
        simp only [Dict.words, dictAdd, hu, if_true]
        exact hwords
      · simp [Dict.words, dictAdd, hu, hk]

theorem placed_dictAdd (h : Placed d) (v : Bytes) : Placed (dictAdd d v) := by
  have hmem : ∀ k u, u ∈ (dictAdd d v).words k →
      u ∈ d.words k ∨ k = hash (toLowerWord v) ∧ u = toLowerWord v := by
    intro k u hu
    rw [words_dictAdd] at hu
    split at hu
    · next hk => exact (List.mem_cons.mp hu).elim (fun e => .inr ⟨hk.1, e⟩) .inl
    · exact .inl hu
  refine ⟨fun k => ?_, fun k u hu => ?_, fun k u hu => ?_⟩
  · rw [words_dictAdd]
    split
    · next hk => exact List.nodup_cons.mpr ⟨hk.2, h.once k⟩
    · exact h.once k
  · rcases hmem k u hu with hu | ⟨rfl, rfl⟩
    · exact h.hashed k u hu
    · rfl
  · rcases hmem k u hu with hu | ⟨rfl, rfl⟩
    · exact h.lowered k u hu
    · exact toLowerWord_toLowerWord v

theorem placed_foldl (h : Placed d) (vs : List Bytes) : Placed (vs.foldl dictAdd d) := by
  induction vs generalizing d with
  | nil => exact h
  | cons v vs ih => exact ih (placed_dictAdd h v)

theorem placed_dictCreate : Placed dictCreate where
  once _ := List.nodup_nil
  hashed _ u hu := by cases hu
  lowered _ u hu := by cases hu

/-! ### The entries -/

theorem mem_entries (h : Placed d) {e : DictEntry} :
    e ∈ d.entries ↔ e ∈ d.buckets (hash e.word) := by
  rw [Dict.entries, List.mem_flatMap]
  constructor
  · rintro ⟨k, -, he⟩
    rwa [h.hashed _ e.word (List.mem_map_of_mem he)]
  · intro he
    exact ⟨(hash e.word).toNat, List.mem_range.mpr (hash_lt _), by rwa [UInt32.ofNat_toNat]⟩

theorem nodup_entries (h : Placed d) : (d.entries.map DictEntry.word).Nodup := by
  rw [Dict.entries, List.map_flatMap, List.nodup_flatMap]
  refine ⟨fun k _ => h.once _, ?_⟩
  refine List.nodup_range.imp_of_mem fun {a b} ha hb hne => ?_
  -- a word of two chains has the hash of both
  intro u hu hu'
  have hab := (h.hashed _ u hu).symm.trans (h.hashed _ u hu')
  have ha := List.mem_range.mp ha
  have hb := List.mem_range.mp hb
  have hsize : hashSize.toNat ≤ UInt32.size := by decide
  refine hne ?_
  have hnat := congrArg UInt32.toNat hab
  rwa [UInt32.toNat_ofNat_of_lt' (by omega), UInt32.toNat_ofNat_of_lt' (by omega)] at hnat

/-- The flag of a spelling is that of the entry in its chain. -/
theorem mem_buckets_iff (h : Placed d) {c : Bool} :
    (⟨toLowerWord w, c⟩ : DictEntry) ∈ d.buckets (hash (toLowerWord w)) ↔
      entryFlag d w = some c := by
  rw [entryFlag]
  constructor
  · intro hmem
    cases hf : (d.buckets (hash (toLowerWord w))).find? (·.word = toLowerWord w) with
    | none =>
        have hno := List.find?_eq_none.mp hf _ hmem
        simp at hno
    | some e =>
        have he := List.mem_of_find?_eq_some hf
        have hword : e.word = toLowerWord w := by simpa using List.find?_some hf
        have heq := List.inj_on_of_nodup_map (h.once _) he hmem hword
        rw [heq]
        rfl
  · intro hf
    obtain ⟨e, he, rfl⟩ := Option.map_eq_some_iff.mp hf
    have hword : e.word = toLowerWord w := by simpa using List.find?_some he
    have heq : (⟨toLowerWord w, e.hasCapital⟩ : DictEntry) = e := by rw [← hword]
    rw [heq]
    exact List.mem_of_find?_eq_some he

/-- Any words added to an empty dictionary are what it holds. -/
theorem represents_foldl (vs : List Bytes) : Represents (vs.foldl dictAdd dictCreate) vs := by
  have hp := placed_foldl placed_dictCreate vs
  -- an entry of the table has the flag that its lower-cased word has
  have hflag : ∀ e ∈ (vs.foldl dictAdd dictCreate).entries, toLowerWord e.word = e.word ∧
      entryFlag (vs.foldl dictAdd dictCreate) e.word = some e.hasCapital := by
    intro e he
    have he := (mem_entries hp).mp he
    have hlow := hp.lowered _ e.word (List.mem_map_of_mem he)
    refine ⟨hlow, (mem_buckets_iff hp).mp ?_⟩
    rwa [hlow]
  have hsame : ∀ u, toLowerWord u = u →
      ∀ v, v ∈ sameSpelling u vs ↔ v ∈ vs ∧ toLowerWord v = u := fun u hu v => by
    rw [sameSpelling, List.mem_filter, decide_eq_true_eq, hu]
  have hcreate : ∀ u, entryFlag dictCreate u = none := fun _ => rfl
  refine ⟨nodup_entries hp, fun k e he => (hp.hashed k _ (List.mem_map_of_mem he)).symm,
    fun u => ?_, fun e he => ?_⟩
  · constructor
    · rintro ⟨e, he, rfl⟩
      obtain ⟨hlow, hf⟩ := hflag e he
      rw [entryFlag_foldl, hcreate] at hf
      split at hf
      · cases hf
      · next hne =>
          obtain ⟨v, hv⟩ := List.exists_mem_of_ne_nil _ hne
          exact ⟨v, (hsame _ hlow v).mp hv⟩
    · rintro ⟨v, hv, rfl⟩
      have hlow := toLowerWord_toLowerWord v
      have hne : sameSpelling (toLowerWord v) vs ≠ [] :=
        List.ne_nil_of_mem ((hsame _ hlow v).mpr ⟨hv, rfl⟩)
      have hf := entryFlag_foldl (d := dictCreate) (w := toLowerWord v) vs
      rw [if_neg hne] at hf
      have hmem := (mem_buckets_iff hp).mpr hf
      rw [hlow] at hmem
      exact ⟨_, (mem_entries hp).mpr hmem, rfl⟩
  · obtain ⟨hlow, hf⟩ := hflag e he
    rw [entryFlag_foldl, hcreate] at hf
    split at hf
    · cases hf
    · rw [← Option.some.inj hf, Option.getD_none, Bool.false_or, List.any_eq_true]
      simp only [hsame _ hlow, and_assoc]

/-! ### Order independence -/

theorem lookup_congr {vs vs' : List Bytes} (h : ∀ v, v ∈ vs ↔ v ∈ vs') (w : Bytes) :
    dictLookup (vs.foldl dictAdd dictCreate) w = dictLookup (vs'.foldl dictAdd dictCreate) w := by
  have hsame : ∀ v, v ∈ sameSpelling w vs ↔ v ∈ sameSpelling w vs' := fun v => by
    rw [sameSpelling, sameSpelling, List.mem_filter, List.mem_filter, h]
  rw [Bool.eq_iff_iff, lookup_foldl, lookup_foldl]
  refine and_congr (not_congr ?_) (or_congr_right ?_)
  · simp only [List.eq_nil_iff_forall_not_mem, hsame]
  · simp only [hsame]

/-- The lines of a file that are not empty, as far as they are stored. -/
def StoredLine (s b : Bytes) : Prop := ∃ l ∈ entries s, l.take (maxWordLen - 1) = b

/-- **The dictionary represents the words added to it**, whatever their order; and two files with
the same non-empty lines, as far as they are stored, give dictionaries that answer alike, however
`read` cuts the files. -/
theorem dictionary_represents (vs : List Bytes) :
    Represents (vs.foldl dictAdd dictCreate) vs ∧
    ∀ file file' : Pieces UInt8, Pieces.Whole file → Pieces.Whole file' →
      (∀ b, StoredLine file.flatten b ↔ StoredLine file'.flatten b) →
      ∃ d d', loadDictionary (.ok file) = ⟨0, some d, []⟩ ∧
        loadDictionary (.ok file') = ⟨0, some d', []⟩ ∧ ∀ w, dictLookup d w = dictLookup d' w := by
  refine ⟨represents_foldl vs, fun file file' hf hf' hlines =>
    ⟨_, _, loadDictionary_ok hf, loadDictionary_ok hf', lookup_congr fun v => ?_⟩⟩
  have hword : ∀ s : Bytes, v ∈ (entries s).map lineWord ↔ ∃ b, StoredLine s b ∧ untilNul b = v :=
    fun s => by
      rw [List.mem_map]
      constructor
      · rintro ⟨l, hl, rfl⟩
        exact ⟨_, ⟨l, hl, rfl⟩, rfl⟩
      · rintro ⟨b, ⟨l, hl, rfl⟩, rfl⟩
        exact ⟨l, hl, rfl⟩
  simp only [hword, hlines]

/-- A dictionary cut differently, in another order, with a blank line and a word repeated. -/
theorem dictionary_represents_sample :
    ∃ d d', loadDictionary (.ok [ascii "Foo\nb", ascii "ar"]) = ⟨0, some d, []⟩ ∧
      loadDictionary (.ok [ascii "bar\n\nFoo\nbar\n"]) = ⟨0, some d', []⟩ ∧
      ∀ w, dictLookup d w = dictLookup d' w := by
  refine (dictionary_represents []).2 [ascii "Foo\nb", ascii "ar"]
    [ascii "bar\n\nFoo\nbar\n"] (by unfold Pieces.Whole; decide)
    (by unfold Pieces.Whole; decide) fun b => ?_
  have hleft : entries ([ascii "Foo\nb", ascii "ar"].flatten) = [ascii "Foo", ascii "bar"] := by
    decide
  have hright : entries ([ascii "bar\n\nFoo\nbar\n"].flatten) =
      [ascii "bar", ascii "Foo", ascii "bar"] := by decide
  rw [StoredLine, StoredLine, hleft, hright]
  constructor
  · rintro ⟨l, hl, rfl⟩
    exact ⟨l, by simp at hl ⊢; tauto, rfl⟩
  · rintro ⟨l, hl, rfl⟩
    exact ⟨l, by simp at hl ⊢; tauto, rfl⟩

end CS214.Spell
