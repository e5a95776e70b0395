import CS214.Shell.Bounds

/-!
# Shell — the tokens of a line

`content line` is the part of a line that `tokenize` splits: what stands behind its leading white
space and before the first `#`.  Its *fields* are the maximal runs of bytes that are none of the
separators of `strtok_r`; white space that is no separator (a carriage return) stays inside a field.

* `words_eq_fields`: the words of a line are the texts of the fields of its content.
* `words_join`: the words of the words, joined by single spaces, are the words again.
* `tokenize_fields`: the array that `tokenize` fills holds the fields in order, each with its type,
  and is filled again from its own values.
-/

open CString

namespace CS214.Shell

/-- The part of the line that is split. -/
def content (line : Bytes) : Bytes := (line.dropWhile isSpace).takeWhile fun b => b ≠ 35

/-- The values of the tokens with a single space between two of them. -/
def joinValues (tokens : List Token) : Bytes := [32].intercalate (tokens.map Token.value)

/-- The type of the token says which of the symbols its value is, if it is one. -/
structure WellTyped (t : Token) : Prop where
  redirectIn : t.type = .redirectIn ↔ t.value = ascii "<"
  redirectOut : t.type = .redirectOut ↔ t.value = ascii ">"
  pipe : t.type = .pipe ↔ t.value = ascii "|"
  and : t.type = .and ↔ t.value = ascii "and"
  or : t.type = .or ↔ t.value = ascii "or"
  word : t.type = .word ↔
    t.value ∉ [ascii "<", ascii ">", ascii "|", ascii "and", ascii "or"]

variable {s line : Bytes}

theorem wellTyped_tokenOf (v : Bytes) : WellTyped (tokenOf v) := by
  by_cases h : v ∈ [ascii "<", ascii ">", ascii "|", ascii "and", ascii "or"]
  · simp only [List.mem_cons, List.not_mem_nil, or_false] at h
    rcases h with rfl | rfl | rfl | rfl | rfl <;>
      exact ⟨by decide, by decide, by decide, by decide, by decide, by decide⟩
  · -- none of the symbols: the type is the last branch's
    have hno : ∀ {w}, w ∈ [ascii "<", ascii ">", ascii "|", ascii "and", ascii "or"] → v ≠ w := by
      intro w hw e
      exact h (e ▸ hw)
    rw [tokenOf_word h]
    refine ⟨?_, ?_, ?_, ?_, ?_, iff_of_true rfl h⟩ <;>
      exact iff_of_false nofun (hno (by decide))

/-! ### The fields of the content -/

theorem pieces_eq_fields (s : Bytes) :
    pieces s = (TextField.fields isDelim s).map TextField.text :=
  (TextField.texts_fields isDelim s).symm

theorem words_eq_fields (line : Bytes) :
    words line = (TextField.fields isDelim (content line)).map TextField.text :=
  pieces_eq_fields (content line)

/-- A piece is not empty, has no separator, and consists of bytes of the string. -/
theorem of_mem_pieces {w : Bytes} (h : w ∈ pieces s) :
    w ≠ [] ∧ (∀ b ∈ w, isDelim b = false) ∧ ∀ b ∈ w, b ∈ s := by
  rw [pieces_eq_fields] at h
  obtain ⟨f, hf, rfl⟩ := List.mem_map.mp h
  have hfield := TextField.mem_fields.mp hf
  obtain ⟨rest, hs, -⟩ := hfield.right
  refine ⟨hfield.nonempty, hfield.inside, fun b hb => ?_⟩
  rw [hs]
  exact List.mem_append_left _ (List.mem_append_right _ hb)

/-! ### Splitting again -/

theorem pieces_join (s : Bytes) : pieces ([32].intercalate (pieces s)) = pieces s := by
  rw [pieces_eq_fields ([32].intercalate _)]
  exact TextField.texts_fields_intercalate rfl (fun w hw => (of_mem_pieces hw).1)
    fun w hw => (of_mem_pieces hw).2.1

/-- What does not start with a separator starts with its first piece. -/
theorem head_join (h : ∀ b ∈ s.head?, isDelim b = false) :
    ([32].intercalate (pieces s)).head? = s.head? := by
  have hdrop : s.dropWhile isDelim = s := dropWhile_eq_self_of_head h
  cases hs : strtok s with
  | none =>
      rw [← hdrop, List.dropWhile_eq_nil_iff.mpr (strtok_eq_none.mp hs)]
      rfl
  | some r =>
      obtain ⟨v, rest⟩ := r
      obtain ⟨after, hsplit, -, hne, hv, hafter⟩ := strtok_eq_some hs
      have hhead : ∀ l : Bytes, (v ++ l).head? = v.head? := fun l => by
        rw [List.head?_append_of_ne_nil _ hne]
      rw [← hdrop, hsplit, pieces_append hv hne hafter, hhead]
      cases pieces after.tail with
      | nil => rw [List.intercalate_singleton]
      | cons w ws => rw [List.intercalate_cons_cons, List.append_assoc, hhead]

theorem content_head : ∀ b ∈ (content line).head?, isSpace b = false := by
  intro b hb
  rw [content] at hb
  cases hl : line.dropWhile isSpace with
  | nil => rw [hl] at hb; cases hb
  | cons c t =>
      have hc := List.head?_dropWhile_not isSpace line
      rw [hl] at hb hc
      rw [List.takeWhile_cons] at hb
      split at hb
      · obtain rfl := Option.some.inj hb
        simpa using hc
      · cases hb

theorem content_noHash : 35 ∉ content line := by
  intro h
  have := List.mem_takeWhile_imp h
  simp at this

theorem content_eq_self (hhead : ∀ b ∈ s.head?, isSpace b = false) (hhash : 35 ∉ s) :
    content s = s := by
  rw [content, dropWhile_eq_self_of_head hhead]
  exact List.takeWhile_eq_self_iff.mpr fun b hb => decide_eq_true fun e => hhash (e ▸ hb)

/-- Neither white space nor a comment is cut off the words joined by spaces. -/
theorem words_join (line : Bytes) : words ([32].intercalate (words line)) = words line := by
  have hdelim : ∀ b ∈ (content line).head?, isDelim b = false := by
    intro b hb
    have hspace := content_head b hb
    by_contra hd
    rw [isSpace_of_isDelim (eq_true_of_ne_false hd)] at hspace
    cases hspace
  have hself : content ([32].intercalate (words line)) = [32].intercalate (words line) := by
    refine content_eq_self ?_ fun h => ?_
    · intro b hb
      exact content_head b (by rwa [← head_join hdelim])
    · obtain h | ⟨w, hw, hmem⟩ := TextField.mem_intercalate h
      · cases h
      · exact content_noHash ((of_mem_pieces hw).2.2 35 hmem)
  rw [words, ← content, hself]
  exact pieces_join (content line)

theorem tokenize_values (line : Bytes) : (tokenize line).map Token.value = words line := by
  rw [tokenize_words, List.map_map]
  exact List.map_id _

/-- **The tokens of a line** are the fields of its content, in order and with their types, and
tokenizing their values with single spaces between them fills the same array. -/
theorem tokenize_fields (line : Bytes) :
    ∃ a, tokenizeArray line = some a ∧
      (∃ fields : List (TextField UInt8),
        (∀ f, f ∈ fields ↔ f.IsField isDelim (content line)) ∧
        fields.Pairwise (fun f g => f.before.length < g.before.length) ∧
        a.items.map Token.value = fields.map TextField.text) ∧
      (∀ t ∈ a.items, WellTyped t) ∧
      tokenizeArray (joinValues a.items) = some a := by
  obtain ⟨a, ha, hitems⟩ := tokenizeArray_eq line
  have hvalues : a.items.map Token.value = words line := by rw [hitems, tokenize_values]
  refine ⟨a, ha, ⟨TextField.fields isDelim (content line), fun f => TextField.mem_fields,
    TextField.fields_ordered, by rw [hvalues, words_eq_fields]⟩, ?_, ?_⟩
  · intro t ht
    rw [hitems, tokenize_words] at ht
    obtain ⟨v, -, rfl⟩ := List.mem_map.mp ht
    exact wellTyped_tokenOf v
  · have hsame : tokenize (joinValues a.items) = tokenize line := by
      rw [joinValues, hvalues, tokenize_words, words_join, ← tokenize_words]
    rw [← ha, tokenizeArray, tokenizeArray, hsame]

end CS214.Shell
