import Mathlib.Data.Nat.Notation

/-!
# Runs of a guarded step function

A system takes a step `step s e` on an event `e`, when it can.  `Run step ok s es s'` is a run
from `s` to `s'` on the events `es`, every one of which meets the guard `ok` in the state it is
taken in.  A property that every guarded step keeps holds along every run (`Run.invariant`); where
every guarded step lowers a measure, every run ends, at a goal if no other state is without a step
(`Run.length_le`, `Run.exists_goal`); and a run of a system is one of a coarser system when each
step is one or none of it (`Run.coarsen`).

A `Machine` answers every input, and may stop.  Two machines related by a simulation give the same
answers to every list of inputs (`Machine.outputs_eq`).
-/

/-- A run of guarded steps on a list of events. -/
inductive Run {σ ε : Type*} (step : σ → ε → Option σ) (ok : σ → ε → Prop) :
    σ → List ε → σ → Prop where
  | nil (s : σ) : Run step ok s [] s
  | cons {s s₁ s' : σ} {e : ε} {es : List ε} (guard : ok s e) (h : step s e = some s₁)
      (t : Run step ok s₁ es s') : Run step ok s (e :: es) s'

namespace Run

variable {σ ε : Type*} {step : σ → ε → Option σ} {ok ok' : σ → ε → Prop}

theorem one {s s' : σ} {e : ε} (guard : ok s e) (h : step s e = some s') :
    Run step ok s [e] s' :=
  .cons guard h (.nil _)

theorem append {s s₁ s' : σ} {es es' : List ε} (h : Run step ok s es s₁)
    (h' : Run step ok s₁ es' s') : Run step ok s (es ++ es') s' := by
  induction h with
  | nil => exact h'
  | cons guard h _ ih => exact .cons guard h (ih h')

/-- A property kept by every guarded step holds at the end of every run it holds at the start
of. -/
theorem invariant {I : σ → Prop} (hI : ∀ s e s', I s → ok s e → step s e = some s' → I s')
    {s s' : σ} {es : List ε} (h : Run step ok s es s') (hs : I s) : I s' := by
  induction h with
  | nil => exact hs
  | cons guard h _ ih => exact ih (hI _ _ _ hs guard h)

/-- A run whose events meet a guard meets a weaker one. -/
theorem weaken (hok : ∀ s e, ok s e → ok' s e) {s s' : σ} {es : List ε} (h : Run step ok s es s') :
    Run step ok' s es s' := by
  induction h with
  | nil s => exact .nil s
  | cons guard h _ ih => exact .cons (hok _ _ guard) h ih

/-- A run splits at any of its events. -/
theorem split {s s' : σ} {es : List ε} {e : ε} {es' : List ε}
    (h : Run step ok s (es ++ e :: es') s') :
    ∃ s₁ s₂, Run step ok s es s₁ ∧ ok s₁ e ∧ step s₁ e = some s₂ ∧ Run step ok s₂ es' s' := by
  induction es generalizing s with
  | nil =>
      cases h with
      | cons guard h t => exact ⟨s, _, .nil s, guard, h, t⟩
  | cons d ds ih =>
      cases h with
      | cons guard h t =>
          obtain ⟨s₁, s₂, h₁, h₂, h₃, h₄⟩ := ih t
          exact ⟨s₁, s₂, .cons guard h h₁, h₂, h₃, h₄⟩

/-- A run is empty or ends with a step. -/
theorem last {s s' : σ} {es : List ε} (h : Run step ok s es s') :
    es = [] ∧ s' = s ∨
      ∃ es' e s₁, es = es' ++ [e] ∧ Run step ok s es' s₁ ∧ ok s₁ e ∧ step s₁ e = some s' := by
  induction h with
  | nil => exact .inl ⟨rfl, rfl⟩
  | @cons s s₁ s' e es guard h t ih =>
      refine .inr ?_
      rcases ih with ⟨rfl, rfl⟩ | ⟨es', e', s₂, rfl, h₁, h₂, h₃⟩
      · exact ⟨[], e, s, rfl, .nil s, guard, h⟩
      · exact ⟨e :: es', e', s₂, rfl, .cons guard h h₁, h₂, h₃⟩

/-! ### Runs that end -/

/-- A measure that every guarded step lowers bounds the length of a run. -/
theorem length_le {I : σ → Prop} {size : σ → ℕ}
    (hI : ∀ s e s', I s → ok s e → step s e = some s' → I s')
    (hlt : ∀ s e s', I s → ok s e → step s e = some s' → size s' < size s)
    {s s' : σ} {es : List ε} (h : Run step ok s es s') (hs : I s) :
    es.length + size s' ≤ size s := by
  induction h with
  | nil => exact Nat.le_of_eq (Nat.zero_add _)
  | cons guard hstep _ ih =>
      have hle := ih (hI _ _ _ hs guard hstep)
      have hlow := hlt _ _ _ hs guard hstep
      rw [List.length_cons]
      omega

/-- When every state short of a goal has a guarded step, such steps lead to the goal. -/
theorem exists_goal {I goal : σ → Prop} {size : σ → ℕ}
    (hI : ∀ s e s', I s → ok s e → step s e = some s' → I s')
    (hlt : ∀ s e s', I s → ok s e → step s e = some s' → size s' < size s)
    (hgo : ∀ s, I s → ¬ goal s → ∃ e s', ok s e ∧ step s e = some s') {s : σ} (hs : I s) :
    ∃ es s', Run step ok s es s' ∧ goal s' := by
  induction hn : size s using Nat.strongRecOn generalizing s with
  | ind n ih =>
      by_cases hgoal : goal s
      · exact ⟨[], s, .nil s, hgoal⟩
      · obtain ⟨e, s₁, guard, hstep⟩ := hgo s hs hgoal
        obtain ⟨es, s', hrun, hend⟩ :=
          ih _ (hn ▸ hlt s e s₁ hs guard hstep) (hI s e s₁ hs guard hstep) rfl
        exact ⟨e :: es, s', .cons guard hstep hrun, hend⟩

/-! ### Two levels -/

/-- What the events of a run of one system are for a coarser one: each of them is one event of it or
none. -/
def shown {ε' : Type*} (step : σ → ε → Option σ) (view : σ → ε → Option ε') :
    σ → List ε → List ε'
  | _, [] => []
  | s, e :: es => (view s e).toList ++ ((step s e).map fun s' => shown step view s' es).getD []

/-- A run of a system is one of a coarser system, if each step is what it is shown as. -/
theorem coarsen {τ ε' : Type*} {step' : τ → ε' → Option τ} {view : σ → ε → Option ε'}
    {rel : σ → τ → Prop}
    (hrel : ∀ s t e s', rel s t → ok s e → step s e = some s' →
      (view s e = none → rel s' t) ∧
        ∀ e', view s e = some e' → ∃ t', step' t e' = some t' ∧ rel s' t')
    {s s' : σ} {t : τ} {es : List ε} (h : Run step ok s es s') (ht : rel s t) :
    ∃ t', Run step' (fun _ _ => True) t (shown step view s es) t' ∧ rel s' t' := by
  induction h generalizing t with
  | nil => exact ⟨t, .nil t, ht⟩
  | @cons s s₁ s' e es guard hstep _ ih =>
      obtain ⟨hnone, hsome⟩ := hrel s t e s₁ ht guard hstep
      rw [shown, hstep]
      cases hview : view s e with
      | none => exact ih (hnone hview)
      | some e' =>
          obtain ⟨t₁, h₁, hrel₁⟩ := hsome e' hview
          obtain ⟨t', hrun, ht'⟩ := ih hrel₁
          exact ⟨t', .cons trivial h₁ hrun, ht'⟩

/-! ### Executing a run -/

/-- The state after a list of events, when every one meets the guard and can be taken. -/
def exec (step : σ → ε → Option σ) (ok : σ → ε → Prop) [∀ s e, Decidable (ok s e)] :
    σ → List ε → Option σ
  | s, [] => some s
  | s, e :: es => if ok s e then (step s e).bind fun s' => exec step ok s' es else none

theorem of_exec [∀ s e, Decidable (ok s e)] {s s' : σ} {es : List ε}
    (h : exec step ok s es = some s') : Run step ok s es s' := by
  induction es generalizing s with
  | nil =>
      obtain rfl := Option.some.inj h
      exact .nil s
  | cons e es ih =>
      rw [exec] at h
      split at h
      · next guard =>
          obtain ⟨s₁, h₁, h₂⟩ := Option.bind_eq_some_iff.mp h
          exact .cons guard h₁ (ih h₂)
      · cases h

/-- The run of an execution that does not get stuck. -/
theorem of_isSome [∀ s e, Decidable (ok s e)] {s : σ} {es : List ε}
    (h : (exec step ok s es).isSome = true) : Run step ok s es ((exec step ok s es).get h) :=
  of_exec (Option.some_get h).symm

end Run

/-- A machine that answers its inputs: the answer, and the next state unless it stops. -/
abbrev Machine (σ ι ω : Type*) := σ → ι → ω × Option σ

namespace Machine

variable {σ τ ι ω : Type*}

/-- The answers to a list of inputs, up to the one the machine stops at. -/
def outputs (M : Machine σ ι ω) : σ → List ι → List ω
  | _, [] => []
  | s, i :: is => (M s i).1 :: (M s i).2.elim [] fun s' => outputs M s' is

/-- The state after a list of inputs, unless the machine stopped. -/
def after (M : Machine σ ι ω) : σ → List ι → Option σ
  | s, [] => some s
  | s, i :: is => (M s i).2.bind fun s' => after M s' is

/-- `rel` is a simulation on the inputs that are `ok`: answers agree and `rel` is kept. -/
def Simulates (M : Machine σ ι ω) (N : Machine τ ι ω) (ok : ι → Prop) (rel : σ → τ → Prop) : Prop :=
  ∀ s t i, rel s t → ok i → (M s i).1 = (N t i).1 ∧ Option.Rel rel (M s i).2 (N t i).2

variable {M : Machine σ ι ω} {N : Machine τ ι ω} {ok : ι → Prop} {rel : σ → τ → Prop}

theorem outputs_eq (h : Simulates M N ok rel) {s : σ} {t : τ} (hst : rel s t) {is : List ι}
    (his : ∀ i ∈ is, ok i) : outputs M s is = outputs N t is := by
  induction is generalizing s t with
  | nil => rfl
  | cons i is ih =>
      obtain ⟨h₁, h₂⟩ := h s t i hst (his i List.mem_cons_self)
      rw [outputs, outputs, h₁]
      cases hs : (M s i).2 <;> cases ht : (N t i).2 <;> rw [hs, ht] at h₂ <;> cases h₂
      · rfl
      · next hrel =>
          rw [Option.elim, Option.elim, ih hrel fun j hj => his j (List.mem_cons_of_mem _ hj)]

/-- The answers to a longer list, when the machine has not stopped before. -/
theorem outputs_append {s s' : σ} {is js : List ι} (h : after M s is = some s') :
    outputs M s (is ++ js) = outputs M s is ++ outputs M s' js := by
  induction is generalizing s with
  | nil =>
      obtain rfl := Option.some.inj h
      rfl
  | cons i is ih =>
      obtain ⟨s₁, h₁, h₂⟩ := Option.bind_eq_some_iff.mp h
      rw [List.cons_append, outputs, outputs, h₁, Option.elim, Option.elim, ih h₂, List.cons_append]

end Machine
