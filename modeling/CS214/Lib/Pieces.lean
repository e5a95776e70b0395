import Mathlib.Data.List.Basic

/-!
# A stream that comes in pieces

`read n` returns at most `n` elements: the next piece, or the front of it.  An empty piece, and the
end of the pieces, is a read that returns nothing.  `readExactly n` reads until it has `n` elements
and fails on a read that returns nothing.

* `readExactly_append`: when no piece is empty, `readExactly` takes exactly the front of the stream,
  however it is cut into pieces.
* `readExactly_some`: whatever the pieces are, what it returns is the front of the stream.
* `foldReads_eq`: a loop that takes a step for every element, until a read returns nothing, sees the
  elements of the stream.
-/

/-- The pieces that are still to be delivered. -/
abbrev Pieces (α : Type*) := List (List α)

namespace Pieces

variable {α : Type*} {c c' : Pieces α} {a b : List α} {n : ℕ}

/-- No read returns nothing before the stream ends. -/
def Whole (c : Pieces α) : Prop := ∀ p ∈ c, p ≠ []

/-- One read of at most `n` elements. -/
def read (n : ℕ) : Pieces α → List α × Pieces α
  | [] => ([], [])
  | p :: ps => if p.length ≤ n then (p, ps) else (p.take n, p.drop n :: ps)

/-- Reads until `n` elements are there; the first argument bounds their number. -/
def readLoop : ℕ → ℕ → Pieces α → Option (List α) × Pieces α
  | _, 0, c => (some [], c)
  | 0, _ + 1, c => (none, c)
  | f + 1, n + 1, c =>
    match (read (n + 1) c).1 with
    | [] => (none, (read (n + 1) c).2)
    | a :: as =>
      ((readLoop f (n - as.length) (read (n + 1) c).2).1.map (a :: as ++ ·),
        (readLoop f (n - as.length) (read (n + 1) c).2).2)

/-- Every read that goes on returns an element, so `n` reads are enough. -/
def readExactly (n : ℕ) (c : Pieces α) : Option (List α) × Pieces α := readLoop n n c

theorem read_length (n : ℕ) (c : Pieces α) : (read n c).1.length ≤ n := by
  cases c with
  | nil => exact Nat.zero_le n
  | cons p ps =>
      rw [read]
      split
      · assumption
      · exact List.length_take_le n p

theorem read_append (n : ℕ) (c : Pieces α) : (read n c).1 ++ (read n c).2.flatten = c.flatten := by
  cases c with
  | nil => rfl
  | cons p ps =>
      rw [read]
      split
      · rfl
      · rw [List.flatten_cons, ← List.append_assoc, List.take_append_drop, List.flatten_cons]

theorem whole_read (h : Whole c) (n : ℕ) : Whole (read n c).2 := by
  cases c with
  | nil => exact h
  | cons p ps =>
      have hps : Whole ps := fun q hq => h q (List.mem_cons_of_mem _ hq)
      rw [read]
      split
      · exact hps
      · next hlt =>
          intro q hq
          rcases List.mem_cons.mp hq with rfl | hq
          · intro he
            have := congrArg List.length he
            rw [List.length_drop, List.length_nil] at this
            omega
          · exact hps q hq

/-- A read of a stream without empty pieces returns something, unless the stream has ended. -/
theorem read_ne_nil (h : Whole c) (hc : c.flatten ≠ []) : (read (n + 1) c).1 ≠ [] := by
  cases c with
  | nil => exact absurd rfl hc
  | cons p ps =>
      have hp := h p List.mem_cons_self
      rw [read]
      split
      · exact hp
      · cases p with
        | nil => exact absurd rfl hp
        | cons a p => exact List.cons_ne_nil _ _

/-- What the loop returns is the front of the stream. -/
theorem readLoop_some {f : ℕ} (h : readLoop f n c = (some b, c')) :
    b.length = n ∧ c.flatten = b ++ c'.flatten := by
  induction f generalizing n c b with
  | zero =>
      cases n with
      | zero =>
          obtain ⟨hb, rfl⟩ := Prod.mk.inj h
          obtain rfl := Option.some.inj hb
          exact ⟨rfl, rfl⟩
      | succ n => cases h
  | succ f ih =>
      cases n with
      | zero =>
          obtain ⟨hb, rfl⟩ := Prod.mk.inj h
          obtain rfl := Option.some.inj hb
          exact ⟨rfl, rfl⟩
      | succ n =>
          have hlen := read_length (n + 1) c
          have happ := read_append (n + 1) c
          rw [readLoop] at h
          cases hr : (read (n + 1) c).1 with
          | nil => rw [hr] at h; cases h
          | cons a as =>
              rw [hr] at h hlen happ
              obtain ⟨h₁, rfl⟩ := Prod.mk.inj h
              obtain ⟨b', hb', rfl⟩ := Option.map_eq_some_iff.mp h₁
              obtain ⟨hl, he⟩ := ih (Prod.ext hb' rfl)
              rw [List.length_cons] at hlen
              refine ⟨?_, ?_⟩
              · rw [List.length_append, List.length_cons, hl]
                omega
              · rw [← happ, he, List.append_assoc]

theorem readExactly_some (h : readExactly n c = (some b, c')) :
    b.length = n ∧ c.flatten = b ++ c'.flatten :=
  readLoop_some h

theorem readLoop_append {f : ℕ} (h : Whole c) (hc : c.flatten = a ++ b) (hf : a.length ≤ f) :
    ∃ c', readLoop f a.length c = (some a, c') ∧ Whole c' ∧ c'.flatten = b := by
  induction f generalizing a c with
  | zero =>
      obtain rfl := List.eq_nil_of_length_eq_zero (Nat.le_zero.mp hf)
      exact ⟨c, rfl, h, hc⟩
  | succ f ih =>
      cases a with
      | nil => exact ⟨c, rfl, h, hc⟩
      | cons x xs =>
          have hne : (read (xs.length + 1) c).1 ≠ [] :=
            read_ne_nil h (hc ▸ List.cons_ne_nil _ _)
          have hlen := read_length (xs.length + 1) c
          have happ := read_append (xs.length + 1) c
          rw [List.length_cons, readLoop]
          cases hr : (read (xs.length + 1) c).1 with
          | nil => exact absurd hr hne
          | cons y ys =>
              rw [hr] at hlen happ
              rw [hc, List.cons_append, List.cons_append] at happ
              obtain ⟨rfl, happ'⟩ := List.cons.inj happ
              rw [List.length_cons] at hlen hf
              -- what was read is the front of what is wanted
              obtain ⟨zs, rfl⟩ : ys <+: xs :=
                List.prefix_of_prefix_length_le ⟨_, happ'⟩ ⟨_, rfl⟩ (by omega)
              rw [List.append_assoc] at happ'
              obtain ⟨c', h₁, h₂, h₃⟩ := ih (whole_read h _) (List.append_cancel_left happ')
                (by rw [List.length_append] at hf; omega)
              refine ⟨c', ?_, h₂, h₃⟩
              have hsub : (ys ++ zs).length - ys.length = zs.length := by
                rw [List.length_append, Nat.add_sub_cancel_left]
              simp only [hsub, h₁, Option.map_some, List.cons_append]

theorem readExactly_append (h : Whole c) (hc : c.flatten = a ++ b) :
    ∃ c', readExactly a.length c = (some a, c') ∧ Whole c' ∧ c'.flatten = b :=
  readLoop_append h hc (Nat.le_refl _)

/-! ### A loop over the reads -/

variable {σ : Type*}

/-- A step for every element, until a read returns nothing. -/
def foldReads (f : σ → α → σ) (s : σ) : Pieces α → σ
  | [] => s
  | p :: ps => if p.isEmpty then s else foldReads f (p.foldl f s) ps

theorem foldReads_eq (h : Whole c) (f : σ → α → σ) (s : σ) :
    foldReads f s c = c.flatten.foldl f s := by
  induction c generalizing s with
  | nil => rfl
  | cons p ps ih =>
      have hp : p.isEmpty = false := List.isEmpty_eq_false_iff.mpr (h p List.mem_cons_self)
      rw [foldReads, hp, if_neg Bool.false_ne_true, List.flatten_cons, List.foldl_append]
      exact ih (fun q hq => h q (List.mem_cons_of_mem _ hq)) _

end Pieces
