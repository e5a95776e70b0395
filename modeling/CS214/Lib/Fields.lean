import Mathlib.Data.List.Basic

/-!
# The fields and the lines of a text

A *field* of a text is a maximal run of elements that are not separators, with what stands before
it (`IsField`).  `fields` lists them in one pass.

* `mem_fields`: `fields` lists exactly the fields of the text.
* `fields_ordered`: it lists them in the order they stand in.
* `fields_append`: separators behind the text add none.
* `fields_single`: a text without separators is one field.
* `texts_fields`: their texts are the non-empty pieces of the text split at the separators.
* `texts_fields_intercalate`: texts with a separator between them are the fields of what they make.

`lines` cuts a text at a terminator; what follows the last terminator is a line when it is not
empty.
-/

/-- A piece of a text, with what stands before it. -/
structure TextField (α : Type*) where
  before : List α
  text : List α
deriving DecidableEq

namespace TextField

variable {α : Type*} {sep : α → Bool} {s t : List α} {f g : TextField α}

/-! ### Fields -/

/-- `f` is a maximal run of elements of `s` that are not separators. -/
structure IsField (sep : α → Bool) (s : List α) (f : TextField α) : Prop where
  nonempty : f.text ≠ []
  inside : ∀ a ∈ f.text, sep a = false
  left : ∀ a ∈ f.before.getLast?, sep a = true
  right : ∃ rest, s = f.before ++ f.text ++ rest ∧ ∀ a ∈ rest.head?, sep a = true

/-- The position after the field. -/
def stop (f : TextField α) : ℕ := f.before.length + f.text.length

theorem IsField.start_lt_stop (h : IsField sep s f) : f.before.length < f.stop := by
  have := List.length_pos_iff.mpr h.nonempty
  rw [stop]
  omega

/-- A position of the field holds no separator. -/
theorem IsField.at_inside (h : IsField sep s f) {k : ℕ} (h₁ : f.before.length ≤ k)
    (h₂ : k < f.stop) : ∃ a, s[k]? = some a ∧ sep a = false := by
  obtain ⟨rest, rfl, -⟩ := h.right
  rw [stop] at h₂
  have hk : k - f.before.length < f.text.length := by omega
  refine ⟨f.text[k - f.before.length], ?_, h.inside _ (List.getElem_mem hk)⟩
  rw [List.append_assoc, List.getElem?_append_right h₁, List.getElem?_append_left hk,
    List.getElem?_eq_getElem hk]

/-- Before the field comes a separator, if anything. -/
theorem IsField.at_left (h : IsField sep s f) {k : ℕ} (hk : k + 1 = f.before.length) :
    ∃ a, s[k]? = some a ∧ sep a = true := by
  obtain ⟨rest, rfl, -⟩ := h.right
  have hlt : k < f.before.length := by omega
  refine ⟨f.before[k], ?_, h.left _ ?_⟩
  · rw [List.append_assoc, List.getElem?_append_left hlt, List.getElem?_eq_getElem hlt]
  · rw [Option.mem_def, List.getLast?_eq_getElem?, ← hk, Nat.add_sub_cancel,
      List.getElem?_eq_getElem hlt]

/-- After the field comes a separator, if anything. -/
theorem IsField.at_right (h : IsField sep s f) {a : α} (ha : s[f.stop]? = some a) :
    sep a = true := by
  obtain ⟨rest, rfl, hr⟩ := h.right
  refine hr a ?_
  rw [stop, ← List.length_append, List.getElem?_append_right (Nat.le_refl _), Nat.sub_self] at ha
  rwa [Option.mem_def, List.head?_eq_getElem?]

/-- A field that shares a position with another starts no earlier. -/
theorem IsField.start_le (hf : IsField sep s f) (hg : IsField sep s g) {k : ℕ}
    (hk : k < f.stop) (hk' : g.before.length ≤ k) : g.before.length ≤ f.before.length := by
  by_contra hlt
  obtain ⟨a, ha, hsep⟩ := hg.at_left (k := g.before.length - 1) (by omega)
  obtain ⟨b, hb, hno⟩ := hf.at_inside (k := g.before.length - 1) (by omega) (by omega)
  rw [ha] at hb
  cases hb
  rw [hsep] at hno
  cases hno

/-- A field that starts where another does ends no later. -/
theorem IsField.stop_le (hf : IsField sep s f) (hg : IsField sep s g)
    (he : f.before.length = g.before.length) : g.stop ≤ f.stop := by
  by_contra hlt
  have := hf.start_lt_stop
  obtain ⟨a, ha, hno⟩ := hg.at_inside (k := f.stop) (by omega) (by omega)
  rw [hf.at_right ha] at hno
  cases hno

/-- Two fields with a common position are the same. -/
theorem IsField.eq_of_common (hf : IsField sep s f) (hg : IsField sep s g) {k : ℕ}
    (h₁ : f.before.length ≤ k) (h₂ : k < f.stop) (h₃ : g.before.length ≤ k) (h₄ : k < g.stop) :
    f = g := by
  have he : f.before.length = g.before.length :=
    Nat.le_antisymm (hg.start_le hf h₄ h₁) (hf.start_le hg h₂ h₃)
  have hs : f.stop = g.stop :=
    Nat.le_antisymm (hg.stop_le hf he.symm) (hf.stop_le hg he)
  obtain ⟨r, hr, -⟩ := hf.right
  obtain ⟨r', hr', -⟩ := hg.right
  rw [hr, List.append_assoc, List.append_assoc] at hr'
  obtain ⟨hb, ht⟩ := List.append_inj hr' he
  have hl : f.text.length = g.text.length := by
    rw [stop, stop] at hs
    omega
  obtain ⟨ht, -⟩ := List.append_inj ht hl
  obtain ⟨b, t⟩ := f
  obtain ⟨b', t'⟩ := g
  exact congrArg₂ TextField.mk hb ht

/-! ### Listing the fields -/

/-- A field that ends here, if one is open. -/
def close (before text : List α) : List (TextField α) :=
  if text.isEmpty then [] else [⟨before, text⟩]

/-- The fields of `before ++ text ++ s` from `before` on, when `text` is an open field. -/
def fieldsFrom (sep : α → Bool) (before text : List α) : List α → List (TextField α)
  | [] => close before text
  | a :: s =>
    if sep a then close before text ++ fieldsFrom sep (before ++ text ++ [a]) [] s
    else fieldsFrom sep before (text ++ [a]) s

/-- The fields of a text, in order. -/
def fields (sep : α → Bool) (s : List α) : List (TextField α) := fieldsFrom sep [] [] s

/-- What the pass has read: `before` ends with a separator, and `text` has none. -/
structure Open (sep : α → Bool) (before text : List α) : Prop where
  left : ∀ a ∈ before.getLast?, sep a = true
  inside : ∀ a ∈ text, sep a = false

theorem Open.grow {before text : List α} (h : Open sep before text) {a : α} (ha : sep a = false) :
    Open sep before (text ++ [a]) where
  left := h.left
  inside b hb := by
    rcases List.mem_append.mp hb with hb | hb
    · exact h.inside b hb
    · rw [List.mem_singleton.mp hb, ha]

theorem Open.shut (before text : List α) {a : α} (ha : sep a = true) :
    Open sep (before ++ text ++ [a]) [] where
  left b hb := by
    rw [List.getLast?_append, List.getLast?_singleton, Option.some_or, Option.mem_def] at hb
    rw [← Option.some.inj hb, ha]
  inside b hb := by cases hb

theorem mem_close {before text : List α} :
    f ∈ close before text ↔ text ≠ [] ∧ f = ⟨before, text⟩ := by
  cases text with
  | nil => simp [close]
  | cons a t => simp [close]

/-- An open field is a field once a separator, or nothing, follows. -/
theorem Open.isField {before text : List α} (h : Open sep before text) (hne : text ≠ [])
    (hs : ∀ a ∈ s.head?, sep a = true) : IsField sep (before ++ text ++ s) ⟨before, text⟩ :=
  ⟨hne, h.inside, h.left, s, rfl, hs⟩

theorem fieldsFrom_sound {before text : List α} (h : Open sep before text)
    (hf : f ∈ fieldsFrom sep before text s) :
    IsField sep (before ++ text ++ s) f ∧ before.length ≤ f.before.length := by
  induction s generalizing before text with
  | nil =>
      obtain ⟨hne, rfl⟩ := mem_close.mp hf
      exact ⟨h.isField hne (by simp), Nat.le_refl _⟩
  | cons a s ih =>
      rw [fieldsFrom] at hf
      split at hf
      · next ha =>
          rcases List.mem_append.mp hf with hf | hf
          · obtain ⟨hne, rfl⟩ := mem_close.mp hf
            exact ⟨h.isField hne (by simpa using ha), Nat.le_refl _⟩
          · obtain ⟨h₁, h₂⟩ := ih (Open.shut before text ha) hf
            simp only [List.append_nil, List.append_assoc, List.singleton_append,
              List.length_append] at h₁ h₂
            rw [List.append_assoc]
            exact ⟨h₁, by omega⟩
      · next ha =>
          obtain ⟨h₁, h₂⟩ := ih (h.grow (by simpa using ha)) hf
          simp only [List.append_assoc, List.singleton_append] at h₁
          rw [List.append_assoc]
          exact ⟨h₁, h₂⟩

/-- Every position from `before` on without a separator lies in a field of the list. -/
theorem fieldsFrom_cover {before text : List α} (h : Open sep before text) {k : ℕ} {a : α}
    (hk : before.length ≤ k) (ha : (before ++ text ++ s)[k]? = some a) (hno : sep a = false) :
    ∃ f ∈ fieldsFrom sep before text s, f.before.length ≤ k ∧ k < f.stop := by
  induction s generalizing before text with
  | nil =>
      have hlt := (List.getElem?_eq_some_iff.mp ha).1
      simp only [List.append_nil, List.length_append] at hlt
      have hne : text ≠ [] := by
        rintro rfl
        simp only [List.length_nil] at hlt
        omega
      exact ⟨⟨before, text⟩, mem_close.mpr ⟨hne, rfl⟩, hk, by simpa only [stop] using hlt⟩
  | cons b s ih =>
      rw [fieldsFrom]
      split
      · next hb =>
          by_cases hlt : k < before.length + text.length
          · have hne : text ≠ [] := by
              rintro rfl
              simp only [List.length_nil] at hlt
              omega
            exact ⟨⟨before, text⟩, List.mem_append_left _ (mem_close.mpr ⟨hne, rfl⟩), hk, hlt⟩
          · -- the separator itself is not at `k`
            have hne : k ≠ before.length + text.length := by
              rintro rfl
              rw [← List.length_append, List.getElem?_append_right (Nat.le_refl _),
                Nat.sub_self] at ha
              cases ha
              rw [hb] at hno
              cases hno
            obtain ⟨f, hf, h₁⟩ := ih (Open.shut before text hb)
              (by simp only [List.length_append, List.length_singleton]; omega)
              (by simpa using ha)
            exact ⟨f, List.mem_append_right _ hf, h₁⟩
      · next hb =>
          exact ih (h.grow (by simpa using hb)) hk (by simpa using ha)

theorem Open.start : Open sep ([] : List α) [] := ⟨by simp, by simp⟩

/-- **`fields` lists the fields.** -/
theorem mem_fields : f ∈ fields sep s ↔ IsField sep s f := by
  constructor
  · intro hf
    exact (fieldsFrom_sound Open.start hf).1
  · intro hf
    obtain ⟨a, ha, hno⟩ := hf.at_inside (Nat.le_refl _) hf.start_lt_stop
    have hstart : Open sep ([] : List α) [] := Open.start
    obtain ⟨g, hg, h₁, h₂⟩ := fieldsFrom_cover hstart (Nat.zero_le _) ha hno
    have hgf := (fieldsFrom_sound Open.start hg).1
    rw [hf.eq_of_common hgf (Nat.le_refl _) hf.start_lt_stop h₁ h₂]
    exact hg

theorem fieldsFrom_ordered {before text : List α} (h : Open sep before text) :
    (fieldsFrom sep before text s).Pairwise fun f g => f.before.length < g.before.length := by
  induction s generalizing before text with
  | nil =>
      rw [fieldsFrom, close]
      split
      · exact .nil
      · exact List.pairwise_singleton _ _
  | cons a s ih =>
      rw [fieldsFrom]
      split
      · next ha =>
          refine List.pairwise_append.mpr ⟨?_, ih (Open.shut before text ha), ?_⟩
          · rw [close]
            split
            · exact .nil
            · exact List.pairwise_singleton _ _
          · intro f hf g hg
            obtain ⟨-, rfl⟩ := mem_close.mp hf
            have := (fieldsFrom_sound (Open.shut before text ha) hg).2
            simp only [List.length_append, List.length_singleton] at this ⊢
            omega
      · next ha => exact ih (h.grow (by simpa using ha))

/-- **`fields` lists them in order.** -/
theorem fields_ordered :
    (fields sep s).Pairwise fun f g => f.before.length < g.before.length :=
  fieldsFrom_ordered Open.start

/-- Separators behind the text add no field. -/
theorem fieldsFrom_append {before text ws : List α} (hws : ∀ a ∈ ws, sep a = true) :
    fieldsFrom sep before text (s ++ ws) = fieldsFrom sep before text s := by
  induction s generalizing before text with
  | nil =>
      rw [List.nil_append]
      induction ws generalizing before text with
      | nil => rfl
      | cons b ws ih =>
          have hrest : fieldsFrom sep (before ++ text ++ [b]) [] ws = [] :=
            ih fun a ha => hws a (List.mem_cons_of_mem _ ha)
          simp only [fieldsFrom, hws b List.mem_cons_self, if_true, hrest, List.append_nil]
  | cons a s ih =>
      rw [List.cons_append, fieldsFrom, fieldsFrom]
      split
      · rw [ih]
      · exact ih

theorem fields_append {ws : List α} (hws : ∀ a ∈ ws, sep a = true) :
    fields sep (s ++ ws) = fields sep s :=
  fieldsFrom_append hws

/-- A field that is begun goes on as long as there is no separator. -/
theorem fieldsFrom_inside {before text : List α} (hs : ∀ a ∈ s, sep a = false) :
    fieldsFrom sep before text s = close before (text ++ s) := by
  induction s generalizing text with
  | nil => rw [fieldsFrom, List.append_nil]
  | cons a s ih =>
      rw [fieldsFrom, hs a List.mem_cons_self, if_neg Bool.false_ne_true,
        ih fun b hb => hs b (List.mem_cons_of_mem _ hb), List.append_assoc, List.singleton_append]

/-- A text without separators is one field. -/
theorem fields_single (hs : ∀ a ∈ s, sep a = false) (hne : s ≠ []) :
    fields sep s = [⟨[], s⟩] := by
  rw [fields, fieldsFrom_inside hs, close, List.nil_append,
    List.isEmpty_eq_false_iff.mpr hne, if_neg Bool.false_ne_true]

/-! ### The texts of the fields -/

/-- An open field is continued by the first piece of what is left. -/
theorem texts_fieldsFrom (before t : List α) :
    (fieldsFrom sep before t s).map text =
      ((s.splitOnP sep).modifyHead fun w => t ++ w).filter fun w => !w.isEmpty := by
  have hclose : ∀ before t : List α,
      (close before t).map text = [t].filter fun w => !w.isEmpty := by
    intro before t
    cases t with
    | nil => rfl
    | cons a t => rfl
  induction s generalizing before t with
  | nil => rw [fieldsFrom, hclose, List.splitOnP_nil, List.modifyHead_cons, List.append_nil]
  | cons a s ih =>
      rw [fieldsFrom, List.splitOnP_cons_eq_if_modifyHead]
      split
      · -- the separator ends the open field, and none is open behind it
        have hid : (s.splitOnP sep).modifyHead (fun w => [] ++ w) = s.splitOnP sep :=
          congrFun List.modifyHead_id _
        rw [List.map_append, hclose, ih, hid, List.modifyHead_cons, List.append_nil,
          ← List.filter_append, List.singleton_append]
      · have hcons : (fun w => t ++ w) ∘ List.cons a = fun w => t ++ [a] ++ w := by
          funext w
          rw [Function.comp_apply, List.append_assoc, List.singleton_append]
        rw [ih, List.modifyHead_modifyHead, hcons]

/-- **The texts of the fields** are the pieces between separators that are not empty. -/
theorem texts_fields (sep : α → Bool) (s : List α) :
    (fields sep s).map text = (s.splitOnP sep).filter fun w => !w.isEmpty := by
  have hid : (s.splitOnP sep).modifyHead (fun w => [] ++ w) = s.splitOnP sep :=
    congrFun List.modifyHead_id _
  rw [fields, texts_fieldsFrom, hid]

/-- Texts without separators are the fields of the text they make with a separator between two of
them. -/
theorem texts_fields_intercalate {d : α} {ws : List (List α)} (hd : sep d = true)
    (hne : ∀ w ∈ ws, w ≠ []) (hno : ∀ w ∈ ws, ∀ a ∈ w, sep a = false) :
    (fields sep ([d].intercalate ws)).map text = ws := by
  induction ws with
  | nil => rfl
  | cons w ws ih =>
      have hw : [w].filter (fun w => !w.isEmpty) = [w] :=
        List.filter_eq_self.mpr fun v hv => by
          rw [List.mem_singleton.mp hv]
          simpa using hne w List.mem_cons_self
      have hsplit := List.splitOnP_eq_singleton (hno w List.mem_cons_self)
      have ih := ih (fun v hv => hne v (List.mem_cons_of_mem _ hv))
        fun v hv => hno v (List.mem_cons_of_mem _ hv)
      cases ws with
      | nil => rw [List.intercalate_singleton, texts_fields, hsplit, hw]
      | cons v ws =>
          rw [List.intercalate_cons_cons, texts_fields, List.append_assoc, List.singleton_append,
            List.splitOnP_append_cons _ _ hd, List.filter_append, hsplit, hw, ← texts_fields, ih,
            List.singleton_append]

/-- What two texts have between them is the separator. -/
theorem mem_intercalate {a d : α} {ws : List (List α)} (h : a ∈ [d].intercalate ws) :
    a = d ∨ ∃ w ∈ ws, a ∈ w := by
  induction ws with
  | nil => cases h
  | cons w ws ih =>
      cases ws with
      | nil =>
          rw [List.intercalate_singleton] at h
          exact .inr ⟨w, List.mem_cons_self, h⟩
      | cons v ws =>
          rw [List.intercalate_cons_cons, List.mem_append, List.mem_append] at h
          rcases h with (h | h) | h
          · exact .inr ⟨w, List.mem_cons_self, h⟩
          · exact .inl (List.mem_singleton.mp h)
          · obtain hd | ⟨u, hu, ha⟩ := ih h
            · exact .inl hd
            · exact .inr ⟨u, List.mem_cons_of_mem _ hu, ha⟩

/-! ### Lines -/

variable [DecidableEq α] {d : α}

/-- The lines of `cur ++ s`, when `cur` is the line begun. -/
def linesFrom (d : α) (cur : List α) : List α → List (List α)
  | [] => if cur.isEmpty then [] else [cur]
  | a :: s => if a = d then cur :: linesFrom d [] s else linesFrom d (cur ++ [a]) s

/-- The pieces `d` ends, and what follows the last `d` when it is not empty. -/
def lines (d : α) (s : List α) : List (List α) := linesFrom d [] s

theorem linesFrom_append {cur : List α} (h : d ∉ t) :
    linesFrom d cur (t ++ s) = linesFrom d (cur ++ t) s := by
  induction t generalizing cur with
  | nil => simp
  | cons a t ih =>
      rw [List.mem_cons, not_or] at h
      obtain ⟨hne, ht⟩ := h
      rw [List.cons_append, linesFrom, if_neg (Ne.symm hne), ih ht, List.append_assoc,
        List.singleton_append]

@[simp] theorem lines_nil : lines d [] = [] := rfl

theorem lines_cons (h : d ∉ t) (s : List α) : lines d (t ++ d :: s) = t :: lines d s := by
  rw [lines, linesFrom_append h, List.nil_append, linesFrom, if_pos rfl]
  rfl

theorem lines_last (h : d ∉ t) (ht : t ≠ []) : lines d t = [t] := by
  have hall : linesFrom d [] (t ++ []) = linesFrom d ([] ++ t) [] := linesFrom_append h
  rw [List.append_nil, List.nil_append] at hall
  rw [lines, hall, linesFrom, if_neg (by simpa using ht)]

/-- Induction on the lines of a text. -/
theorem lines_induction {motive : List α → Prop} (d : α) (nil : motive [])
    (last : ∀ t, d ∉ t → t ≠ [] → motive t)
    (line : ∀ t s, d ∉ t → motive s → motive (t ++ d :: s)) (s : List α) : motive s := by
  induction hn : s.length using Nat.strongRecOn generalizing s with
  | ind n ih =>
      by_cases hd : d ∈ s
      · obtain ⟨t, r, rfl, ht⟩ := List.eq_append_cons_of_mem hd
        refine line t r ht (ih _ ?_ r rfl)
        rw [← hn, List.length_append, List.length_cons]
        omega
      · cases s with
        | nil => exact nil
        | cons a s => exact last _ hd (List.cons_ne_nil a s)

end TextField
