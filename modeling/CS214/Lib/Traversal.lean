import Mathlib.Data.List.Nodup
import Mathlib.Data.List.Infix
import Mathlib.Data.List.Perm.Basic
import Mathlib.Data.Nat.Notation

/-!
# Walks over a tree

A tree is given by the labels below every address; an address is the list of labels from the root
on.  `preorder n a` lists the addresses from `a` on, each before those below it, down to depth `n`,
and `Below` says which they are.

* `mem_preorder`: a walk that goes deep enough meets every address.
* `nodup_preorder`: it meets none twice, when no address has a label twice.
* `preorder_perm`: in whatever order the labels come, the same addresses are met.
-/

namespace Traversal

variable {β : Type*} {labels : List β → List β} {a b : List β} {x : β} {n : ℕ}

/-- `a` and the addresses below it. -/
inductive Below (labels : List β → List β) (a : List β) : List β → Prop where
  | refl : Below labels a a
  | step {b : List β} {x : β} (h : Below labels a b) (hx : x ∈ labels b) :
      Below labels a (b ++ [x])

/-- The walk from `a` on, down to depth `n`. -/
def preorder (labels : List β → List β) : ℕ → List β → List (List β)
  | 0, _ => []
  | n + 1, a => a :: (labels a).flatMap fun x => preorder labels n (a ++ [x])

theorem preorder_head (hn : 0 < n) :
    preorder labels n a = a :: (preorder labels n a).tail := by
  cases n with
  | zero => omega
  | succ n => rfl

theorem preorder_leaf (hn : 0 < n) (h : labels a = []) : preorder labels n a = [a] := by
  cases n with
  | zero => omega
  | succ n => rw [preorder, h, List.flatMap_nil]

namespace Below

theorem trans {c : List β} (h : Below labels a b) (h' : Below labels b c) : Below labels a c := by
  induction h' with
  | refl => exact h
  | step _ hx ih => exact .step ih hx

theorem head (hx : x ∈ labels a) (h : Below labels (a ++ [x]) b) : Below labels a b :=
  (Below.step .refl hx).trans h

theorem cases_head (h : Below labels a b) :
    b = a ∨ ∃ x ∈ labels a, Below labels (a ++ [x]) b := by
  induction h with
  | refl => exact .inl rfl
  | @step b y h hy ih =>
      rcases ih with rfl | ⟨x, hx, hb⟩
      · exact .inr ⟨y, hy, .refl⟩
      · exact .inr ⟨x, hx, .step hb hy⟩

theorem push_iff : Below labels [] (b ++ [x]) ↔ Below labels [] b ∧ x ∈ labels b := by
  refine ⟨fun h => ?_, fun ⟨h, hx⟩ => .step h hx⟩
  generalize hc : b ++ [x] = c at h
  cases h with
  | refl => simp at hc
  | step h hx =>
      obtain ⟨rfl, heq⟩ := List.append_inj' hc rfl
      cases heq
      exact ⟨h, hx⟩

theorem isPrefix (h : Below labels a b) : a <+: b := by
  induction h with
  | refl => exact List.prefix_refl a
  | step _ _ ih => exact ih.trans (List.prefix_append _ _)

/-- A list closed under the labels of its addresses holds everything below one of them. -/
theorem mem_closed {l : List (List β)} (hl : ∀ c ∈ l, ∀ x ∈ labels c, c ++ [x] ∈ l) (ha : a ∈ l)
    (h : Below labels a b) : b ∈ l := by
  induction h with
  | refl => exact ha
  | step _ hx ih => exact hl _ ih _ hx

/-- A tree with fewer labels: those that pass a test. -/
theorem filter_iff {p : β → Bool} :
    Below (fun c => (labels c).filter p) a b ↔
      Below labels a b ∧ ∀ y ∈ b.drop a.length, p y = true := by
  constructor
  · intro h
    induction h with
    | refl => exact ⟨.refl, by simp⟩
    | step h hx ih =>
        obtain ⟨hmem, hp⟩ := List.mem_filter.mp hx
        refine ⟨.step ih.1 hmem, fun y hy => ?_⟩
        rw [List.drop_append_of_le_length h.isPrefix.length_le, List.mem_append,
          List.mem_singleton] at hy
        rcases hy with hy | rfl
        · exact ih.2 y hy
        · exact hp
  · rintro ⟨h, hp⟩
    induction h with
    | refl => exact .refl
    | step h hx ih =>
        rw [List.drop_append_of_le_length h.isPrefix.length_le] at hp
        exact .step (ih fun y hy => hp y (List.mem_append_left _ hy))
          (List.mem_filter.mpr ⟨hx, hp _ (List.mem_append_right _ List.mem_cons_self)⟩)

end Below

theorem below_of_mem (h : b ∈ preorder labels n a) : Below labels a b := by
  induction n generalizing a with
  | zero => cases h
  | succ n ih =>
      rcases List.mem_cons.mp h with rfl | h
      · exact .refl
      · obtain ⟨x, hx, hb⟩ := List.mem_flatMap.mp h
        exact (ih hb).head hx

/-- A walk to the depth of the tree meets every address. -/
theorem mem_preorder {N : ℕ} (hdepth : ∀ b, Below labels a b → b.length < N)
    (hn : N ≤ n + a.length) : b ∈ preorder labels n a ↔ Below labels a b := by
  refine ⟨below_of_mem, fun h => ?_⟩
  induction n generalizing a with
  | zero =>
      have := hdepth a .refl
      omega
  | succ n ih =>
      rcases h.cases_head with rfl | ⟨x, hx, hb⟩
      · exact List.mem_cons_self
      · refine List.mem_cons_of_mem _ (List.mem_flatMap.mpr ⟨x, hx, ?_⟩)
        exact ih (fun c hc => hdepth c (hc.head hx))
          (by rw [List.length_append, List.length_singleton]; omega) hb

/-- Behind the address it starts from, such a walk meets the addresses below it. -/
theorem mem_tail_preorder {N : ℕ} (hdepth : ∀ b, Below labels a b → b.length < N)
    (hn : N ≤ n + a.length) :
    b ∈ (preorder labels n a).tail ↔ b ≠ a ∧ Below labels a b := by
  have hpos : 0 < n := by
    have := hdepth a .refl
    omega
  have hmem := mem_preorder (b := b) hdepth hn
  rw [preorder_head hpos, List.mem_cons] at hmem
  constructor
  · intro h
    refine ⟨?_, hmem.mp (.inr h)⟩
    rintro rfl
    -- what stands behind it is longer
    cases n with
    | zero => cases h
    | succ n =>
        obtain ⟨x, -, hb⟩ := List.mem_flatMap.mp h
        have hlen := (below_of_mem hb).isPrefix.length_le
        rw [List.length_append, List.length_singleton] at hlen
        omega
  · rintro ⟨hne, h⟩
    exact (hmem.mpr h).resolve_left hne

/-- A walk to the depth of the tree meets nothing new when it is allowed to go deeper. -/
theorem preorder_stable {N : ℕ} (hdepth : ∀ b, Below labels a b → b.length < N)
    (hn : N ≤ n + a.length) : preorder labels (n + 1) a = preorder labels n a := by
  induction n generalizing a with
  | zero =>
      have := hdepth a .refl
      omega
  | succ n ih =>
      rw [preorder, preorder]
      refine congrArg (List.cons a) (List.flatMap_congr fun x hx => ?_)
      exact ih (fun c hc => hdepth c (hc.head hx))
        (by rw [List.length_append, List.length_singleton]; omega)

/-- What is below two labels of an address is different. -/
theorem label_unique {y : β} (h : Below labels (a ++ [x]) b) (h' : Below labels (a ++ [y]) b) :
    x = y := by
  have hpre := List.prefix_of_prefix_length_le h.isPrefix h'.isPrefix (by simp)
  have heq := hpre.eq_of_length (by simp)
  exact (List.cons.inj (List.append_cancel_left heq)).1

theorem nodup_preorder (h : ∀ b, (labels b).Nodup) : (preorder labels n a).Nodup := by
  induction n generalizing a with
  | zero => exact List.nodup_nil
  | succ n ih =>
      refine List.nodup_cons.mpr ⟨fun hmem => ?_, List.nodup_flatMap.mpr ⟨fun x _ => ih, ?_⟩⟩
      · obtain ⟨x, -, hb⟩ := List.mem_flatMap.mp hmem
        have hlen := (below_of_mem hb).isPrefix.length_le
        rw [List.length_append, List.length_singleton] at hlen
        omega
      · refine (h a).imp fun {x y} hne b hb hb' => hne ?_
        exact label_unique (below_of_mem hb) (below_of_mem hb')

theorem preorder_perm {labels' : List β → List β} (h : ∀ b, (labels b).Perm (labels' b)) :
    (preorder labels n a).Perm (preorder labels' n a) := by
  induction n generalizing a with
  | zero => exact .nil
  | succ n ih => exact .cons a ((h a).flatMap fun x _ => ih)

end Traversal
