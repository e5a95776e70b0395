import Mathlib.Algebra.BigOperators.Ring.Finset
import Mathlib.Data.Fintype.Basic

/-!
# The game of Nim

Two players take stones from piles in turn; a move takes at least one stone, from one pile.  The
turn passes after every move but the one that takes the last stone.

`Plays P ms Q`: the moves `ms` lead from `P` to `Q`, each of them legal where it is made.

* `Plays.piles_le`: piles do not grow.
* `Plays.length_le`: there are no more moves than stones.
* `Plays.last`: when no stone is left, the player on turn made the last move.
-/

/-- The two players. -/
inductive Seat where
  | one
  | two
deriving DecidableEq, Repr

namespace Seat

/-- The opponent. -/
def other : Seat → Seat
  | one => two
  | two => one

@[simp] theorem other_other (p : Seat) : p.other.other = p := by cases p <;> rfl

@[simp] theorem other_ne (p : Seat) : p.other ≠ p := by cases p <;> simp [other]

@[simp] theorem ne_other (p : Seat) : p ≠ p.other := p.other_ne.symm

theorem eq_or_eq_other (p q : Seat) : p = q ∨ p = q.other := by
  cases p <;> cases q <;> simp [other]

end Seat

namespace NimGame

variable {ι : Type*}

/-- How many stones each pile has, and who moves next. -/
@[ext] structure Position (ι : Type*) where
  piles : ι → ℕ
  turn : Seat

/-- So many stones are taken from one pile. -/
structure Move (ι : Type*) where
  pile : ι
  amount : ℕ

/-- The number of stones left. -/
def Position.stones [Fintype ι] (P : Position ι) : ℕ := ∑ i, P.piles i

/-- A legal move in `P`. -/
def Legal (P : Position ι) (m : Move ι) : Prop := 1 ≤ m.amount ∧ m.amount ≤ P.piles m.pile

variable [DecidableEq ι]

/-- The piles after a move. -/
def Position.take (P : Position ι) (m : Move ι) : ι → ℕ :=
  Function.update P.piles m.pile (P.piles m.pile - m.amount)

theorem take_le {P : Position ι} {m : Move ι} (i : ι) : P.take m i ≤ P.piles i := by
  unfold Position.take
  by_cases h : i = m.pile
  · subst h
    rw [Function.update_self]
    exact Nat.sub_le _ _
  · rw [Function.update_of_ne h]

variable [Fintype ι]

/-- The position after a move. -/
def Position.play (P : Position ι) (m : Move ι) : Position ι :=
  if (⟨P.take m, P.turn⟩ : Position ι).stones = 0 then ⟨P.take m, P.turn⟩
  else ⟨P.take m, P.turn.other⟩

/-- A sequence of legal moves. -/
inductive Plays : Position ι → List (Move ι) → Position ι → Prop where
  | nil (P : Position ι) : Plays P [] P
  | cons {P Q : Position ι} {m : Move ι} {ms : List (Move ι)} (legal : Legal P m)
      (t : Plays (P.play m) ms Q) : Plays P (m :: ms) Q

variable {P Q : Position ι} {m : Move ι} {ms : List (Move ι)}

@[simp] theorem play_piles : (P.play m).piles = P.take m := by
  unfold Position.play
  split <;> rfl

theorem play_turn : (P.play m).turn = if (P.play m).stones = 0 then P.turn else P.turn.other := by
  have hs : (P.play m).stones = (⟨P.take m, P.turn⟩ : Position ι).stones := by
    rw [Position.stones, play_piles, Position.stones]
  rw [hs, Position.play]
  split <;> rfl

/-- A legal move takes `amount` stones. -/
theorem stones_play (h : Legal P m) : (P.play m).stones + m.amount = P.stones := by
  obtain ⟨-, hle⟩ := h
  rw [Position.stones, Position.stones, play_piles, Position.take,
    Finset.sum_update_of_mem (Finset.mem_univ _),
    ← Finset.add_sum_erase _ _ (Finset.mem_univ m.pile), Finset.sdiff_singleton_eq_erase]
  omega

/-- Piles do not grow. -/
theorem Plays.piles_le (h : Plays P ms Q) (i : ι) : Q.piles i ≤ P.piles i := by
  induction h with
  | nil => exact Nat.le_refl _
  | cons _ _ ih =>
      refine ih.trans ?_
      rw [play_piles]
      exact take_le i

/-- There are no more moves than stones. -/
theorem Plays.length_le (h : Plays P ms Q) : ms.length + Q.stones ≤ P.stones := by
  induction h with
  | nil => simp
  | cons legal _ ih =>
      have hs := stones_play legal
      have h₁ := legal.1
      rw [List.length_cons]
      omega

theorem Plays.eq_of_nil (h : Plays P [] Q) : Q = P := by
  cases h
  rfl

/-- When no stone is left, the player on turn made the last move. -/
theorem Plays.last (h : Plays P ms Q) (hms : ms ≠ []) (hQ : Q.stones = 0) :
    ∃ ms' m R, ms = ms' ++ [m] ∧ Plays P ms' R ∧ Legal R m ∧ R.turn = Q.turn ∧ Q = R.play m := by
  induction h with
  | nil => exact absurd rfl hms
  | @cons P Q m ms legal t ih =>
      cases t with
      | nil =>
          refine ⟨[], m, P, rfl, .nil P, legal, ?_, rfl⟩
          rw [play_turn, if_pos hQ]
      | cons legal' t' =>
          obtain ⟨ms', m', R, e, hR, hl, ht, rfl⟩ := ih (List.cons_ne_nil _ _) hQ
          exact ⟨m :: ms', m', R, by rw [e]; rfl, .cons legal hR, hl, ht, rfl⟩

end NimGame
