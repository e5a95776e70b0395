import Mathlib.Data.Nat.Notation
import Mathlib.Order.Lattice
import Mathlib.Algebra.Order.Group.Nat

/-!
# Sequential programs and what they return

An `Action σ α` is a piece of a program over the state `σ`.  It returns, or ends the program with a
status.  It is given a bound that every loop in it is held to, and `loops` when one goes round more
often.

`Returns x s Q`: from the state `s` the action returns, with a value and a state for which `Q`
holds, and these are the same for every bound from some number on: it terminates.  There is one rule
for each way to build an action; the rule of `whileLoop` takes an invariant with a variant that goes
down along a well-founded relation.
-/

namespace Imperative

/-- How an action ends. -/
inductive Ending (σ α : Type) where
  | ret (a : α) (s : σ)
  | exit (status : ℕ) (s : σ)
  | loops

/-- What the program makes of a state, with a bound on the rounds of its loops. -/
def Action (σ α : Type) := ℕ → σ → Ending σ α

variable {σ α β γ : Type}

instance : Monad (Action σ) where
  pure a _ s := .ret a s
  bind x f n s :=
    match x n s with
    | .ret a s' => f a n s'
    | .exit status s' => .exit status s'
    | .loops => .loops

/-- The state. -/
def get : Action σ σ := fun _ s => .ret s s

/-- An assignment to the state. -/
def modify (f : σ → σ) : Action σ Unit := fun _ s => .ret () (f s)

/-- The program ends with this status, and nothing behind it is done. -/
def exit (status : ℕ) : Action σ α := fun _ s => .exit status s

/-- `for (i = first; i < first + count; i++) a = body(i, a)`. -/
def forLoop (body : ℕ → α → Action σ α) : (count first : ℕ) → α → Action σ α
  | 0, _, a => pure a
  | count + 1, first, a => do
    let a ← body first a
    forLoop body count (first + 1) a

/-- At most so many rounds of a `while` loop. -/
def rounds (cond : α → Bool) (body : α → Action σ α) : ℕ → α → Action σ α
  | 0, _ => fun _ _ => .loops
  | k + 1, a => if cond a then do let a ← body a; rounds cond body k a else pure a

/-- `while (cond(a)) a = body(a)`. -/
def whileLoop (cond : α → Bool) (body : α → Action σ α) (a : α) : Action σ α :=
  fun n s => rounds cond body n a n s

/-- From `s` the action returns, with the same value and state for every bound that is large enough,
and `Q` holds of them. -/
def Returns (x : Action σ α) (s : σ) (Q : α → σ → Prop) : Prop :=
  ∃ a s', Q a s' ∧ ∃ N, ∀ n, N ≤ n → x n s = .ret a s'

variable {x : Action σ α} {s : σ} {Q Q' : α → σ → Prop}

theorem bind_of_ret {f : α → Action σ β} {n : ℕ} {a : α} {s' : σ} (h : x n s = .ret a s') :
    (x >>= f) n s = f a n s' := by
  simp only [Bind.bind, h]

/-! ### The rules -/

theorem returns_pure {a : α} (h : Q a s) : Returns (pure a) s Q :=
  ⟨a, s, h, 0, fun _ _ => rfl⟩

theorem returns_get {Q : σ → σ → Prop} (h : Q s s) : Returns get s Q :=
  ⟨s, s, h, 0, fun _ _ => rfl⟩

theorem returns_modify {f : σ → σ} {Q : Unit → σ → Prop} (h : Q () (f s)) :
    Returns (modify f) s Q :=
  ⟨(), f s, h, 0, fun _ _ => rfl⟩

/-- The rule of consequence. -/
theorem Returns.imp (h : Returns x s Q) (himp : ∀ a s', Q a s' → Q' a s') : Returns x s Q' := by
  obtain ⟨a, s', hq, hret⟩ := h
  exact ⟨a, s', himp a s' hq, hret⟩

/-- The rule for a sequence. -/
theorem Returns.bind {f : α → Action σ β} {Q' : β → σ → Prop} (h : Returns x s Q)
    (hf : ∀ a s', Q a s' → Returns (f a) s' Q') : Returns (x >>= f) s Q' := by
  obtain ⟨a, s', hq, N, hx⟩ := h
  obtain ⟨b, s'', hq', N', hret⟩ := hf a s' hq
  refine ⟨b, s'', hq', max N N', fun n hn => ?_⟩
  rw [bind_of_ret (hx n (le_trans (le_max_left _ _) hn))]
  exact hret n (le_trans (le_max_right _ _) hn)

theorem returns_ite {c : Prop} [Decidable c] {y : Action σ α} (h : c → Returns x s Q)
    (h' : ¬ c → Returns y s Q) : Returns (if c then x else y) s Q := by
  split
  · next hc => exact h hc
  · next hc => exact h' hc

/-- A counted loop: an invariant for every value of the counter. -/
theorem returns_forLoop {body : ℕ → α → Action σ α} {I : ℕ → α → σ → Prop} {count first : ℕ} {a : α}
    (h : I first a s) (step : ∀ i a s, first ≤ i → i < first + count → I i a s →
      Returns (body i a) s (I (i + 1))) :
    Returns (forLoop body count first a) s (I (first + count)) := by
  induction count generalizing first a s with
  | zero => exact returns_pure h
  | succ count ih =>
      refine (step first a s le_rfl (by omega) h).bind fun a' s' h' => ?_
      have hrest := ih h' fun i a s hi hlt => step i a s (by omega) (by omega)
      rwa [show first + (count + 1) = first + 1 + count by omega]

/-- A loop: an invariant, and a variant that goes down in every round. -/
theorem returns_whileLoop {cond : α → Bool} {body : α → Action σ α} {I : γ → α → σ → Prop}
    {r : γ → γ → Prop} (wf : WellFounded r) {v : γ} {a : α} (h : I v a s)
    (step : ∀ v a s, I v a s → cond a = true →
      Returns (body a) s fun a' s' => ∃ v', r v' v ∧ I v' a' s') :
    Returns (whileLoop cond body a) s fun a' s' => cond a' = false ∧ ∃ v', I v' a' s' := by
  suffices hrounds : ∃ a' s', (cond a' = false ∧ ∃ v', I v' a' s') ∧ ∃ N, ∀ k n, N ≤ k → N ≤ n →
      rounds cond body k a n s = .ret a' s' by
    obtain ⟨a', s', hq, N, hret⟩ := hrounds
    exact ⟨a', s', hq, N, fun n hn => hret n n hn hn⟩
  induction v using wf.induction generalizing a s with
  | _ v ih =>
      cases hc : cond a with
      | false =>
          refine ⟨a, s, ⟨hc, v, h⟩, 1, fun k n hk _ => ?_⟩
          obtain ⟨k, rfl⟩ := Nat.exists_eq_add_of_le' hk
          rw [rounds, hc]
          rfl
      | true =>
          obtain ⟨a₁, s₁, ⟨v₁, hlt, h₁⟩, N, hbody⟩ := step v a s h hc
          obtain ⟨a', s', hq, N', hret⟩ := ih v₁ hlt h₁
          refine ⟨a', s', hq, max N N' + 1, fun k n hk hn => ?_⟩
          obtain ⟨k, rfl⟩ := Nat.exists_eq_add_of_le' (le_trans (Nat.le_add_left 1 _) hk)
          rw [rounds, if_pos hc, bind_of_ret (hbody n (by omega))]
          exact hret k n (by omega) (by omega)

end Imperative
