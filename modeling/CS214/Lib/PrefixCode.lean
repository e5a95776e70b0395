import Mathlib.Data.List.Basic

/-!
# Texts that tell where they end

`SelfDelimiting enc`: from a text that starts with the text of a value, the value and the rest can
be told.  Such texts are made with a terminator, with a count before them, and behind a tag.

* `SelfDelimiting.flatMap_injective`: a text that is made of them, one behind the other, is that of
  one list of values only.
* `selfDelimiting_of_decode`: a decoder shows it.
-/

variable {α σ : Type*} {enc : α → List σ}

/-- No two values have texts that go on into the same text. -/
def SelfDelimiting (enc : α → List σ) : Prop :=
  ∀ a b s t, enc a ++ s = enc b ++ t → a = b ∧ s = t

theorem selfDelimiting_of_decode (decode : List σ → Option (α × List σ))
    (h : ∀ a s, decode (enc a ++ s) = some (a, s)) : SelfDelimiting enc := by
  intro a b s t e
  have hab : some (a, s) = some (b, t) := by rw [← h a s, ← h b t, e]
  exact Prod.mk.inj (Option.some.inj hab)

/-- What stands before the first `d`. -/
theorem append_inj_of_notMem {d : σ} {x y s t : List σ} (hx : d ∉ x) (hy : d ∉ y)
    (e : x ++ d :: s = y ++ d :: t) : x = y ∧ s = t := by
  induction x generalizing y with
  | nil =>
      cases y with
      | nil => exact ⟨rfl, (List.cons.inj e).2⟩
      | cons b y => exact absurd ((List.cons.inj e).1 ▸ List.mem_cons_self) hy
  | cons a x ih =>
      cases y with
      | nil => exact absurd ((List.cons.inj e).1 ▸ List.mem_cons_self) hx
      | cons b y =>
          obtain ⟨rfl, e'⟩ := List.cons.inj e
          have hx' : d ∉ x := mt (List.mem_cons_of_mem a) hx
          have hy' : d ∉ y := mt (List.mem_cons_of_mem a) hy
          obtain ⟨rfl, hst⟩ := ih hx' hy' e'
          exact ⟨rfl, hst⟩

/-- A text that ends in an element that is not in it elsewhere. -/
theorem selfDelimiting_terminated {f : α → List σ} {d : σ} (hf : Function.Injective f)
    (hd : ∀ a, d ∉ f a) : SelfDelimiting fun a => f a ++ [d] := by
  intro a b s t e
  rw [List.append_assoc, List.append_assoc] at e
  obtain ⟨hab, hst⟩ := append_inj_of_notMem (hd a) (hd b) e
  exact ⟨hf hab, hst⟩

namespace SelfDelimiting

/-- With a fixed text behind it. -/
theorem before (h : SelfDelimiting enc) (w : List σ) : SelfDelimiting fun a => enc a ++ w := by
  intro a b s t e
  rw [List.append_assoc, List.append_assoc] at e
  obtain ⟨hab, hst⟩ := h a b _ _ e
  exact ⟨hab, List.append_cancel_left hst⟩

/-- With a fixed text before it. -/
theorem behind (h : SelfDelimiting enc) (w : List σ) : SelfDelimiting fun a => w ++ enc a := by
  intro a b s t e
  rw [List.append_assoc, List.append_assoc] at e
  exact h a b s t (List.append_cancel_left e)

/-- As many values as the other text has. -/
theorem flatMap_of_length (h : SelfDelimiting enc) {l l' : List α} {s t : List σ}
    (hlen : l.length = l'.length) (e : l.flatMap enc ++ s = l'.flatMap enc ++ t) :
    l = l' ∧ s = t := by
  induction l generalizing l' with
  | nil =>
      obtain rfl := List.eq_nil_of_length_eq_zero hlen.symm
      exact ⟨rfl, e⟩
  | cons a l ih =>
      obtain ⟨b, l', rfl⟩ := List.exists_cons_of_length_eq_add_one hlen.symm
      rw [List.flatMap_cons, List.flatMap_cons, List.append_assoc, List.append_assoc] at e
      obtain ⟨rfl, e'⟩ := h a b _ _ e
      obtain ⟨rfl, hst⟩ := ih (Nat.succ.inj hlen) e'
      exact ⟨rfl, hst⟩

/-- As many values as a number before them says. -/
theorem counted {count : ℕ → List σ} (hcount : SelfDelimiting count) (h : SelfDelimiting enc) :
    SelfDelimiting fun l : List α => count l.length ++ l.flatMap enc := by
  intro l l' s t e
  rw [List.append_assoc, List.append_assoc] at e
  obtain ⟨hlen, e'⟩ := hcount _ _ _ _ e
  exact h.flatMap_of_length hlen e'

/-- Tags of one length say what follows them. -/
theorem tagged {tag : α → List σ} (hlen : ∀ a b, (tag a).length = (tag b).length)
    (h : ∀ a b s t, tag a = tag b → enc a ++ s = enc b ++ t → a = b ∧ s = t) :
    SelfDelimiting fun a => tag a ++ enc a := by
  intro a b s t e
  rw [List.append_assoc, List.append_assoc] at e
  obtain ⟨htag, e⟩ := List.append_inj e (hlen a b)
  exact h a b s t htag e

/-- **Unique decoding**: one text is not that of two lists of values. -/
theorem flatMap_injective (h : SelfDelimiting enc) (hne : ∀ a, enc a ≠ []) :
    Function.Injective fun l : List α => l.flatMap enc := by
  intro l l' e
  induction l generalizing l' with
  | nil =>
      cases l' with
      | nil => rfl
      | cons b l' => exact absurd (List.append_eq_nil_iff.mp e.symm).1 (hne b)
  | cons a l ih =>
      cases l' with
      | nil => exact absurd (List.append_eq_nil_iff.mp e).1 (hne a)
      | cons b l' =>
          obtain ⟨rfl, e'⟩ := h a b _ _ e
          rw [ih e']

end SelfDelimiting
