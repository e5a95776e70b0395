import CS214.Lib.ByteMemory

/-!
# Linked lists in memory

A node is at an address, and `field` bytes behind that is the address of the next one.
`Path field m p xs q`: from `p` the links lead through the nodes `xs` to `q`.  A path through an
append is two paths (`path_append`), and depends on the links of its nodes only (`Path.frame`), so
storing one link changes where the path to its node goes on, and nothing else (`Path.relink`).
-/

namespace LinkedList

open ByteMemory

variable {field : ℕ} {m m' : ByteMemory} {p q r : UInt64} {xs ys : List UInt64}

/-- The link of a node. -/
def next (field : ℕ) (m : ByteMemory) (p : UInt64) : UInt64 := m.load64 (p.toNat + field)

/-- From `p` the links lead through these nodes, in order, to `q`. -/
def Path (field : ℕ) (m : ByteMemory) : UInt64 → List UInt64 → UInt64 → Prop
  | p, [], q => p = q
  | p, x :: xs, q => p = x ∧ Path field m (next field m x) xs q

@[simp] theorem path_nil : Path field m p [] q ↔ p = q := Iff.rfl

@[simp] theorem path_cons {x : UInt64} :
    Path field m p (x :: xs) q ↔ p = x ∧ Path field m (next field m x) xs q := Iff.rfl

theorem path_append :
    Path field m p (xs ++ ys) q ↔ ∃ r, Path field m p xs r ∧ Path field m r ys q := by
  induction xs generalizing p with
  | nil => simp
  | cons x xs ih => simp only [List.cons_append, path_cons, ih, and_assoc, exists_and_left]

/-- A path is the same in a memory with the same links. -/
theorem Path.frame (h : Path field m p xs q) (hm : ∀ x ∈ xs, next field m' x = next field m x) :
    Path field m' p xs q := by
  induction xs generalizing p with
  | nil => exact h
  | cons x xs ih =>
      obtain ⟨hp, ht⟩ := h
      refine ⟨hp, ih ?_ fun y hy => hm y (List.mem_cons_of_mem _ hy)⟩
      rwa [hm x List.mem_cons_self]

/-- The link of the last node of a path is set to another node. -/
theorem Path.relink {x : UInt64} (h : Path field m p (xs ++ [x]) q) (hx : next field m' x = r)
    (hm : ∀ z ∈ xs, next field m' z = next field m z) : Path field m' p (xs ++ [x]) r := by
  obtain ⟨y, h₁, hy, -⟩ := path_append.mp h
  exact path_append.mpr ⟨y, h₁.frame hm, hy, hx⟩

end LinkedList
