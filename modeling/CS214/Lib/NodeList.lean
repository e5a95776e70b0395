import Mathlib.Data.List.Nodup
import Mathlib.Logic.Function.Basic

/-!
# A singly linked list in memory

A `Store` is a pointer to the first node and the nodes that are allocated.  A `Node **` is where a
pointer is kept: the pointer to the first node, or the `next` of a node; `Store.read` and
`Store.write` go through it.

`Holds S cells extra`: the list consists of these nodes, with these items, and the nodes that are
allocated are those of the list and the extra ones.  For each way to change a list there is one
rule: `Holds.alloc`, `Holds.fill`, `Holds.push`, `Holds.unlink` and `Holds.free`.
-/

namespace NodeList

open Function

variable {κ α : Type*}

/-- A node: its item, and the pointer to the next one. -/
structure Node (κ α : Type*) where
  item : α
  next : Option κ

/-- A list in memory: the pointer to its first node, and the nodes that are allocated. -/
structure Store (κ α : Type*) where
  /-- The pointer to the first node. -/
  first : Option κ
  node : κ → Option (Node κ α)

/-! ### Links -/

/-- The address of the first of these nodes, or what comes after them. -/
def lead : List (κ × α) → Option κ → Option κ
  | [], p => p
  | (n, _) :: _, _ => some n

/-- Each node leads to the next one, and the last one to `p`. -/
def Linked (mem : κ → Option (Node κ α)) : List (κ × α) → Option κ → Prop
  | [], _ => True
  | (n, a) :: cells, p => mem n = some ⟨a, lead cells p⟩ ∧ Linked mem cells p

/-- The addresses. -/
abbrev addrs (cells : List (κ × α)) : List κ := cells.map Prod.fst

/-- The items. -/
abbrev items (cells : List (κ × α)) : List α := cells.map Prod.snd

/-- Where the pointer behind these nodes is kept: the pointer to the first node, or the `next` of
the last one. -/
def cell (cells : List (κ × α)) : Option κ := cells.getLast?.map Prod.fst

variable {mem mem' : κ → Option (Node κ α)} {xs ys cells : List (κ × α)} {extra : List κ}
  {p q : Option κ} {n : κ} {a : α}

@[simp] theorem lead_nil : lead ([] : List (κ × α)) p = p := rfl

@[simp] theorem lead_cons : lead ((n, a) :: cells) p = some n := rfl

theorem lead_append : lead (xs ++ ys) p = lead xs (lead ys p) := by
  cases xs with
  | nil => rfl
  | cons x xs => rfl

theorem linked_append :
    Linked mem (xs ++ ys) p ↔ Linked mem xs (lead ys p) ∧ Linked mem ys p := by
  induction xs with
  | nil => simp [Linked]
  | cons x xs ih => simp only [List.cons_append, Linked, ih, lead_append, and_assoc]

/-- Links depend on the nodes they are in. -/
theorem Linked.frame (h : Linked mem cells p) (hm : ∀ n ∈ addrs cells, mem' n = mem n) :
    Linked mem' cells p := by
  induction cells with
  | nil => trivial
  | cons c cells ih =>
      obtain ⟨hc, h⟩ := h
      exact ⟨(hm _ List.mem_cons_self).trans hc, ih h fun n hn => hm n (List.mem_cons_of_mem _ hn)⟩

@[simp] theorem cell_nil : cell ([] : List (κ × α)) = none := rfl

@[simp] theorem cell_concat : cell (xs ++ [(n, a)]) = some n := by simp [cell]

/-! ### Pointers to pointers -/

namespace Store

/-- `*curr`; none when there is no node at the address. -/
def read (S : Store κ α) : Option κ → Option (Option κ)
  | none => some S.first
  | some n => (S.node n).map Node.next

variable [DecidableEq κ]

/-- A node is allocated, or gets another content. -/
def set (S : Store κ α) (n : κ) (x : Node κ α) : Store κ α :=
  { S with node := update S.node n (some x) }

/-- The node at the address is given back. -/
def free (S : Store κ α) (n : κ) : Store κ α := { S with node := update S.node n none }

/-- `*curr = p`; none when there is no node at the address. -/
def write (S : Store κ α) : Option κ → Option κ → Option (Store κ α)
  | none, p => some { S with first := p }
  | some n, p => (S.node n).map fun x => S.set n { x with next := p }

variable {S : Store κ α} {m n : κ} {x : Node κ α}

@[simp] theorem set_first : (S.set n x).first = S.first := rfl
@[simp] theorem free_first : (S.free n).first = S.first := rfl
@[simp] theorem set_self : (S.set n x).node n = some x := update_self ..
@[simp] theorem free_self : (S.free n).node n = none := update_self ..

theorem set_ne (h : m ≠ n) : (S.set n x).node m = S.node m := update_of_ne h ..

theorem free_ne (h : m ≠ n) : (S.free n).node m = S.node m := update_of_ne h ..

end Store

/-- The list consists of these nodes, and no nodes are allocated but these and the extra ones. -/
structure Holds (S : Store κ α) (cells : List (κ × α)) (extra : List κ) : Prop where
  first : S.first = lead cells none
  linked : Linked S.node cells none
  nodup : (addrs cells ++ extra).Nodup
  allocated : ∀ n, (S.node n).isSome = true ↔ n ∈ addrs cells ++ extra

namespace Holds

variable {S S' : Store κ α}

theorem node (h : Holds S (xs ++ (n, a) :: ys) extra) : S.node n = some ⟨a, lead ys none⟩ :=
  (linked_append.mp h.linked).2.1

/-- What is read behind some of the nodes. -/
theorem read (h : Holds S (xs ++ ys) extra) : S.read (cell xs) = some (lead ys none) := by
  rcases List.eq_nil_or_concat xs with rfl | ⟨xs, ⟨n, a⟩, rfl⟩
  · exact congrArg some h.first
  · rw [List.concat_eq_append, List.append_assoc] at h
    rw [List.concat_eq_append, cell_concat, Store.read, h.node]
    rfl

theorem extra_allocated (h : Holds S cells (n :: extra)) : (S.node n).isSome = true :=
  (h.allocated n).mpr (List.mem_append_right _ List.mem_cons_self)

theorem not_mem_of_extra (h : Holds S cells (n :: extra)) : n ∉ addrs cells ∧ n ∉ extra := by
  have hnodup := h.nodup
  rw [List.nodup_middle, List.nodup_cons, List.mem_append, not_or] at hnodup
  exact hnodup.1

/-- A node that leads to the first one becomes the first one. -/
theorem push (h : Holds S cells (n :: extra)) (hn : S.node n = some ⟨a, S.first⟩) :
    Holds { S with first := some n } ((n, a) :: cells) extra :=
  ⟨rfl, ⟨h.first ▸ hn, h.linked⟩, List.nodup_middle.mp h.nodup,
    fun m => (h.allocated m).trans List.perm_middle.mem_iff⟩

variable [DecidableEq κ]

/-- A new node. -/
theorem alloc (h : Holds S cells extra) (hn : S.node n = none) (x : Node κ α) :
    Holds (S.set n x) cells (n :: extra) := by
  have hnew : n ∉ addrs cells ++ extra := fun hmem => by
    have hsome := (h.allocated n).mpr hmem
    rw [hn] at hsome
    cases hsome
  refine ⟨h.first, h.linked.frame fun m hm => Store.set_ne ?_, ?_, fun m => ?_⟩
  · rintro rfl
    exact hnew (List.mem_append_left _ hm)
  · exact List.nodup_middle.mpr (List.nodup_cons.mpr ⟨hnew, h.nodup⟩)
  · rw [List.perm_middle.mem_iff, List.mem_cons]
    by_cases hm : m = n
    · simp [hm]
    · rw [Store.set_ne hm, h.allocated m, or_iff_right hm]

/-- A node that is not in the list gets another content. -/
theorem fill (h : Holds S cells (n :: extra)) (x : Node κ α) :
    Holds (S.set n x) cells (n :: extra) := by
  refine ⟨h.first, h.linked.frame fun m hm => Store.set_ne ?_, h.nodup, fun m => ?_⟩
  · rintro rfl
    exact h.not_mem_of_extra.1 hm
  · by_cases hm : m = n
    · simp [hm]
    · rw [← h.allocated m, Store.set_ne hm]

/-- A node that is not in the list is freed. -/
theorem free (h : Holds S cells (n :: extra)) : Holds (S.free n) cells extra := by
  have hnot := h.not_mem_of_extra
  have hnodup := List.nodup_middle.mp h.nodup
  refine ⟨h.first, h.linked.frame fun m hm => Store.free_ne ?_, hnodup.of_cons, fun m => ?_⟩
  · rintro rfl
    exact hnot.1 hm
  · by_cases hm : m = n
    · simp [hm, hnot]
    · rw [Store.free_ne hm, h.allocated m, List.perm_middle.mem_iff, List.mem_cons,
        or_iff_right hm]

/-- The node behind some of the nodes leaves the list, and is an extra one then. -/
theorem unlink (h : Holds S (xs ++ (n, a) :: ys) extra) :
    ∃ S', S.write (cell xs) (lead ys none) = some S' ∧ Holds S' (xs ++ ys) (n :: extra) := by
  have hperm : (addrs (xs ++ (n, a) :: ys) ++ extra).Perm (addrs (xs ++ ys) ++ n :: extra) := by
    simp only [addrs, List.map_append, List.map_cons, List.append_assoc, List.cons_append]
    exact List.perm_middle.symm.append_left _
  obtain ⟨hxs, -, hys⟩ := linked_append.mp h.linked
  rcases List.eq_nil_or_concat xs with rfl | ⟨xs, ⟨m, b⟩, rfl⟩
  · exact ⟨_, rfl, rfl, hys, hperm.nodup_iff.mp h.nodup,
      fun k => (h.allocated k).trans hperm.mem_iff⟩
  · simp only [List.concat_eq_append] at h hperm hxs ⊢
    obtain ⟨hxs, hm, -⟩ := linked_append.mp hxs
    -- the address of the last node before the one that leaves is at no other place
    have hnodup := h.nodup
    simp only [addrs, List.map_append, List.map_cons, List.append_assoc,
      List.cons_append, List.nil_append, List.nodup_middle, List.nodup_cons, List.mem_append,
      List.mem_cons, not_or] at hnodup
    obtain ⟨⟨hmx, hmn, hmy, hme⟩, -⟩ := hnodup
    have hmap : S.write (cell (xs ++ [(m, b)])) (lead ys none) =
        some (S.set m ⟨b, lead ys none⟩) := by
      rw [cell_concat, Store.write, hm]
      rfl
    refine ⟨_, hmap, ?_, ?_, hperm.nodup_iff.mp h.nodup, fun k => ?_⟩
    · simp only [Store.set_first, h.first, lead_append]
      rfl
    · rw [List.append_assoc, linked_append]
      refine ⟨hxs.frame fun k hk => Store.set_ne ?_, Store.set_self,
        hys.frame fun k hk => Store.set_ne ?_⟩
      · rintro rfl
        exact hmx hk
      · rintro rfl
        exact hmy hk
    · rw [← hperm.mem_iff, ← h.allocated k]
      by_cases hk : k = m
      · rw [hk, Store.set_self, hm]
        rfl
      · rw [Store.set_ne hk]

end Holds

end NodeList
