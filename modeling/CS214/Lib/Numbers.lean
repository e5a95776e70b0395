import Mathlib.Data.Nat.Notation
import Mathlib.Logic.Function.Basic

/-!
# Numbers that are given out again

A table says whom each number that is in use belongs to.  `Held tbl num H given`: every `k` of `H`
holds the number `num k` and has not given one up; nobody has given up more than one.  Who does not
hold a number may still remember one, which now belongs to nobody or to another.

* `Held.take`: a number that nobody has is given out.
* `Held.give`: a holder gives its number up.
-/

open Function

/-- The holders `H` have the numbers `num`; `given k` counts the numbers `k` has given up. -/
structure Held {κ ν : Type*} (tbl : ν → Option κ) (num : κ → ν) (H : κ → Prop) (given : κ → ℕ) :
    Prop where
  mine : ∀ k, H k → tbl (num k) = some k
  zero : ∀ k, H k → given k = 0
  once : ∀ k, given k ≤ 1

namespace Held

variable {κ ν : Type*} {tbl : ν → Option κ} {num : κ → ν} {H H' : κ → Prop} {given : κ → ℕ}
  {k : κ} {n : ν}

theorem mono (h : Held tbl num H given) (hH : ∀ j, H' j → H j) : Held tbl num H' given where
  mine j hj := h.mine j (hH j hj)
  zero j hj := h.zero j (hH j hj)
  once := h.once

variable [DecidableEq κ] [DecidableEq ν]

/-- `k` takes the number `n`, which nobody has. -/
theorem take (h : Held tbl num H given) (hn : tbl n = none) (hk : given k = 0)
    (hH : ∀ j, H' j → j = k ∨ H j) :
    Held (update tbl n (some k)) (update num k n) H' given where
  mine j hj := by
    by_cases e : j = k
    · subst e
      rw [update_self, update_self]
    · have hj := h.mine j ((hH j hj).resolve_left e)
      have hne : num j ≠ n := by
        rintro rfl
        rw [hn] at hj
        cases hj
      rw [update_of_ne e, update_of_ne hne, hj]
  zero j hj := (hH j hj).elim (fun e => e ▸ hk) (h.zero j)
  once := h.once

/-- `k` gives up its number. -/
theorem give (h : Held tbl num H given) (hk : H k) {given' : κ → ℕ}
    (hg : ∀ j, given' j = given j + if k = j then 1 else 0) (hH : ∀ j, H' j → j ≠ k ∧ H j) :
    Held (update tbl (num k) none) num H' given' where
  mine j hj := by
    obtain ⟨hne, hj⟩ := hH j hj
    have hj := h.mine j hj
    have hne' : num j ≠ num k := by
      intro e
      rw [e, h.mine k hk] at hj
      exact hne (Option.some.inj hj).symm
    rw [update_of_ne hne', hj]
  zero j hj := by
    obtain ⟨hne, hj⟩ := hH j hj
    rw [hg, h.zero j hj, if_neg (Ne.symm hne)]
  once j := by
    rw [hg]
    by_cases e : k = j
    · subst e
      have hone : given k + (if k = k then 1 else 0) = 1 := by rw [h.zero k hk, if_pos rfl]
      exact Nat.le_of_eq hone
    · rw [if_neg e]
      exact h.once j

end Held
