import Mathlib.Logic.Relation

/-!
# Programs that make calls, and systems of processes

A `Program` is done, or it makes a call and goes on with the answer.  `env s c x s'` says which
answers `x` a call `c` may get in the state `s` of its process, and the state it leaves.

* `Reach` is what one process can come to.  `Always Φ post`: every call it makes meets `Φ`, and
  where it is done `post` holds (`Always.reach`, `always_bind`).
* `Processes.Step` is one step of any process of a list.  A call may have a twin: a second process
  that starts in the caller's place with an answer of its own, as `fork` does.  Every process of a
  system is one that its start can come to, twins included (`Processes.reach`), so what holds along
  the runs of one process holds in every interleaving; and what a start can come to is a process of
  some system (`Processes.exists_run`).
-/

/-- A program with calls `C`, whose answers have the types `A`. -/
inductive Program (C : Type) (A : C → Type) (α : Type) where
  | ret (a : α)
  | call (c : C) (k : A c → Program C A α)

namespace Program

variable {C : Type} {A : C → Type} {α β γ σ : Type}

/-! ### Sequencing -/

/-- The first program, and then the one its value gives. -/
def bind : Program C A α → (α → Program C A β) → Program C A β
  | .ret a, f => f a
  | .call c k, f => .call c fun x => (k x).bind f

instance : Monad (Program C A) where
  pure := .ret
  bind := bind

/-- One call. -/
def perform (c : C) : Program C A (A c) := .call c .ret

@[simp] theorem pure_eq_ret (a : α) : (Pure.pure a : Program C A α) = .ret a := rfl

@[simp] theorem ret_bind (a : α) (f : α → Program C A β) :
    (ret a : Program C A α) >>= f = f a := rfl

@[simp] theorem call_bind (c : C) (k : A c → Program C A α) (f : α → Program C A β) :
    call c k >>= f = call c fun x => k x >>= f := rfl

@[simp] theorem perform_bind (c : C) (f : A c → Program C A β) :
    (perform c : Program C A (A c)) >>= f = call c f := rfl

theorem bind_assoc (p : Program C A α) (f : α → Program C A β) (g : β → Program C A γ) :
    p >>= f >>= g = p >>= fun a => f a >>= g := by
  induction p with
  | ret a => rfl
  | call c k ih => exact congrArg (call c) (funext ih)

theorem bind_ret (p : Program C A α) : p >>= .ret = p := by
  induction p with
  | ret a => rfl
  | call c k ih => exact congrArg (call c) (funext ih)

/-! ### What a process can come to -/

variable (env : σ → (c : C) → A c → σ → Prop)

/-- The process comes from one program and state to another. -/
inductive Reach : Program C A α → σ → Program C A α → σ → Prop where
  | refl (p : Program C A α) (s : σ) : Reach p s p s
  | head {c : C} {k : A c → Program C A α} {x : A c} {s s₁ s' : σ} {p : Program C A α}
      (h : env s c x s₁) (t : Reach (k x) s₁ p s') : Reach (.call c k) s p s'

/-- Every call meets `Φ`, and where the program is done `post` holds. -/
def Always (Φ : σ → C → Prop) (post : α → σ → Prop) : Program C A α → σ → Prop
  | .ret a, s => post a s
  | .call c k, s => Φ s c ∧ ∀ x s', env s c x s' → (k x).Always Φ post s'

variable {env} {p p' : Program C A α} {s s' : σ} {c : C} {k : A c → Program C A α}
  {Φ Ψ : σ → C → Prop} {post post' : α → σ → Prop}

theorem Reach.trans {q : Program C A α} {s₁ : σ} (h : Reach env p s q s₁)
    (h' : Reach env q s₁ p' s') : Reach env p s p' s' := by
  induction h with
  | refl => exact h'
  | head h _ ih => exact .head h (ih h')

/-- One more call. -/
theorem Reach.tail {x : A c} {s₁ : σ} (h : Reach env p s (.call c k) s₁) (hx : env s₁ c x s') :
    Reach env p s (k x) s' :=
  h.trans (.head hx (.refl _ _))

/-- What is done first is done first in a sequence. -/
theorem Reach.bind (h : Reach env p s p' s') (f : α → Program C A β) :
    Reach env (p >>= f) s (p' >>= f) s' := by
  induction h with
  | refl => exact .refl _ _
  | head h _ ih => exact .head h ih

/-- A sequence: the first program is done, and the second goes on from there. -/
theorem Reach.seq {a : α} {s₁ : σ} {f : α → Program C A β} {q : Program C A β}
    (h : Reach env p s (.ret a) s₁) (h' : Reach env (f a) s₁ q s') :
    Reach env (p >>= f) s q s' :=
  (h.bind f).trans h'

/-- What a sequence comes to is in its first program, or behind it. -/
theorem Reach.bind_cases {f : α → Program C A β} {q : Program C A β}
    (h : Reach env (p >>= f) s q s') :
    (∃ p', q = p' >>= f ∧ Reach env p s p' s') ∨
      ∃ a s₁, Reach env p s (.ret a) s₁ ∧ Reach env (f a) s₁ q s' := by
  induction p generalizing s with
  | ret a => exact .inr ⟨a, s, .refl _ _, h⟩
  | call c k ih =>
      cases h with
      | refl => exact .inl ⟨.call c k, rfl, .refl _ _⟩
      | head hx t =>
          rcases ih _ t with ⟨p', rfl, ht⟩ | ⟨a, s₁, ht, hq⟩
          · exact .inl ⟨p', rfl, .head hx ht⟩
          · exact .inr ⟨a, s₁, .head hx ht, hq⟩

theorem Reach.mono {env' : σ → (c : C) → A c → σ → Prop} (h : Reach env p s p' s')
    (hsub : ∀ s c x s', env s c x s' → env' s c x s') : Reach env' p s p' s' := by
  induction h with
  | refl => exact .refl _ _
  | head hx _ ih => exact .head (hsub _ _ _ _ hx) ih

@[simp] theorem always_ret {a : α} : (ret a : Program C A α).Always env Φ post s ↔ post a s :=
  Iff.rfl

@[simp] theorem always_call :
    (call c k).Always env Φ post s ↔ Φ s c ∧ ∀ x s', env s c x s' → (k x).Always env Φ post s' :=
  Iff.rfl

theorem Always.mono (h : p.Always env Φ post s) (hΦ : ∀ s c, Φ s c → Ψ s c)
    (hpost : ∀ a s, post a s → post' a s) : p.Always env Ψ post' s := by
  induction p generalizing s with
  | ret a => exact hpost a s h
  | call c k ih => exact ⟨hΦ s c h.1, fun x s' hx => ih x (h.2 x s' hx)⟩

/-- The rule for a sequence. -/
theorem always_bind {f : α → Program C A β} {post : β → σ → Prop} :
    (p >>= f).Always env Φ post s ↔ p.Always env Φ (fun a s => (f a).Always env Φ post s) s := by
  induction p generalizing s with
  | ret a => exact Iff.rfl
  | call c k ih =>
      exact and_congr_right fun _ => forall_congr' fun x => forall_congr' fun s' =>
        imp_congr_right fun _ => ih x

/-- The rule of consequence. -/
theorem Always.imp (h : p.Always env Φ post s) (hpost : ∀ a s, post a s → post' a s) :
    p.Always env Φ post' s :=
  h.mono (fun _ _ hc => hc) hpost

/-- What the first program comes to is enough for the second. -/
theorem Always.bind {f : α → Program C A β} {post' : β → σ → Prop} (h : p.Always env Φ post s)
    (hf : ∀ a s', post a s' → (f a).Always env Φ post' s') : (p >>= f).Always env Φ post' s :=
  always_bind.mpr (h.imp hf)

/-- What always holds still does further on. -/
theorem Always.reach (h : p.Always env Φ post s) (hr : Reach env p s p' s') :
    p'.Always env Φ post s' := by
  induction hr with
  | refl => exact h
  | head hx _ ih => exact ih (h.2 _ _ hx)

theorem Always.done {a : α} (h : p.Always env Φ post s) (hr : Reach env p s (.ret a) s') :
    post a s' :=
  h.reach hr

/-- A property of the state that every answer keeps holds wherever the process comes to. -/
theorem Reach.invariant {I : σ → Prop} (hI : ∀ s c x s', I s → env s c x s' → I s')
    (h : Reach env p s p' s') (hs : I s) : I s' := by
  induction h with
  | refl => exact hs
  | head hx _ ih => exact ih (hI _ _ _ _ hs hx)

/-- It is enough that the answers to calls that meet `Φ` keep it. -/
theorem Always.invariant {I : σ → Prop} (h : p.Always env Φ post s)
    (hI : ∀ s c x s', I s → Φ s c → env s c x s' → I s') (hr : Reach env p s p' s') (hs : I s) :
    I s' := by
  induction hr with
  | refl => exact hs
  | head hx _ ih => exact ih (h.2 _ _ hx) (hI _ _ _ _ hs h.1 hx)

/-- Fewer answers. -/
theorem Always.restrict {env' : σ → (c : C) → A c → σ → Prop} (h : p.Always env Φ post s)
    (hsub : ∀ s c x s', env' s c x s' → env s c x s') : p.Always env' Φ post s := by
  induction p generalizing s with
  | ret a => exact h
  | call c k ih => exact ⟨h.1, fun x s' hx => ih x (h.2 x s' (hsub s c x s' hx))⟩

/-! ### Programs that make certain calls only -/

/-- Every call of the program is one of these. -/
def Only (P : C → Prop) : Program C A α → Prop
  | .ret _ => True
  | .call c k => P c ∧ ∀ x, (k x).Only P

variable {P : C → Prop}

theorem only_bind {f : α → Program C A β} (h : p.Only P) (hf : ∀ a, (f a).Only P) :
    (p >>= f).Only P := by
  induction p with
  | ret a => exact hf a
  | call c k ih => exact ⟨h.1, fun x => ih x (h.2 x)⟩

theorem only_perform (h : P c) : (perform c : Program C A (A c)).Only P := ⟨h, fun _ => trivial⟩

theorem Only.imp {Q : C → Prop} (h : p.Only P) (hPQ : ∀ c, P c → Q c) : p.Only Q := by
  induction p with
  | ret a => trivial
  | call c k ih => exact ⟨hPQ c h.1, fun x => ih x (h.2 x)⟩

/-- What such calls keep holds all along. -/
theorem Only.always {I : σ → Prop} (h : p.Only P) (hI : ∀ s c x s', I s → P c → env s c x s' → I s')
    (hs : I s) : p.Always env (fun s c => I s ∧ P c) (fun _ s => I s) s := by
  induction p generalizing s with
  | ret a => exact hs
  | call c k ih => exact ⟨⟨hs, h.1⟩, fun x s' hx => ih x (h.2 x) (hI s c x s' hs h.1 hx)⟩

/-! ### The calls that were made -/

/-- The answers, with a record of them beside the state. -/
def logged (env : σ → (c : C) → A c → σ → Prop) (s : σ × List (Σ c, A c)) (c : C) (x : A c)
    (s' : σ × List (Σ c, A c)) : Prop :=
  env s.1 c x s'.1 ∧ s'.2 = s.2 ++ [⟨c, x⟩]

/-- What a process comes to it comes to with a record of its calls. -/
theorem Reach.logged (h : Reach env p s p' s') (log : List (Σ c, A c)) :
    ∃ log', Reach (logged env) p (s, log) p' (s', log') := by
  induction h generalizing log with
  | refl p s => exact ⟨log, .refl _ _⟩
  | @head c k x s s₁ s' p hx _ ih =>
      obtain ⟨log', ht⟩ := ih (log ++ [⟨c, x⟩])
      have hcall : Program.logged env (s, log) c x (s₁, log ++ [⟨c, x⟩]) := ⟨hx, rfl⟩
      exact ⟨log', .head hcall ht⟩

end Program

/-- How processes come into being: a call with the answer `x` to its caller starts a process that
gets the answer `twin c x`; the answers `born` are given to new processes only. -/
structure Spawning (C : Type) (A : C → Type) where
  twin : (c : C) → A c → Option (A c)
  born : (c : C) → A c → Bool

namespace Processes

open Program

variable {C : Type} {A : C → Type} {α σ : Type}

/-- A process: the program that is left, and the state. -/
abbrev Process (C : Type) (A : C → Type) (α σ : Type) := Program C A α × σ

variable (env : σ → (c : C) → A c → σ → Prop) (S : Spawning C A)

/-- One process gets the answer to its call. -/
inductive Step : List (Process C A α σ) → List (Process C A α σ) → Prop where
  | call {before after : List (Process C A α σ)} {c : C} {k : A c → Program C A α} {x : A c}
      {s s' : σ} (h : env s c x s') (own : S.born c x = false) (single : S.twin c x = none) :
      Step (before ++ (.call c k, s) :: after) (before ++ (k x, s') :: after)
  | spawn {before after : List (Process C A α σ)} {c : C} {k : A c → Program C A α} {x y : A c}
      {s s' s'' : σ} (h : env s c x s') (own : S.born c x = false) (twin : S.twin c x = some y)
      (h' : env s c y s'') :
      Step (before ++ (.call c k, s) :: after) (before ++ (k x, s') :: after ++ [(k y, s'')])

/-- The steps of a system, in any order of its processes. -/
abbrev Run : List (Process C A α σ) → List (Process C A α σ) → Prop :=
  Relation.ReflTransGen (Step env S)

variable {env S} {p : Program C A α} {s : σ} {ps ps' : List (Process C A α σ)}

/-- A property of the list of processes that every step keeps. -/
theorem Run.invariant {I : List (Process C A α σ) → Prop}
    (hI : ∀ ps ps', I ps → Step env S ps ps' → I ps') (h : Run env S ps ps') (hs : I ps) :
    I ps' := by
  induction h with
  | refl => exact hs
  | tail _ hstep ih => exact hI _ _ ih hstep

/-- Fewer answers. -/
theorem Run.mono {env' : σ → (c : C) → A c → σ → Prop} (h : Run env S ps ps')
    (hsub : ∀ s c x s', env s c x s' → env' s c x s') : Run env' S ps ps' := by
  induction h with
  | refl => exact .refl
  | tail _ hstep ih =>
      refine ih.tail ?_
      cases hstep with
      | call h own single => exact .call (hsub _ _ _ _ h) own single
      | spawn h own twin h' => exact .spawn (hsub _ _ _ _ h) own twin (hsub _ _ _ _ h')

/-- **Interleaving**: every process of a system is one the first process can come to. -/
theorem reach (h : Run env S [(p, s)] ps) : ∀ q ∈ ps, Reach env p s q.1 q.2 := by
  refine h.invariant (I := fun ps => ∀ q ∈ ps, Reach env p s q.1 q.2) ?_ ?_
  · intro ps ps' hps hstep q hq
    cases hstep with
    | @call before after c k x s₁ s' h own single =>
        have hcall := hps (.call c k, s₁) (by simp)
        rcases List.mem_append.mp hq with hq | hq
        · exact hps q (List.mem_append_left _ hq)
        · rcases List.mem_cons.mp hq with rfl | hq
          · exact hcall.tail h
          · exact hps q (List.mem_append_right _ (List.mem_cons_of_mem _ hq))
    | @spawn before after c k x y s₁ s' s'' h own twin h' =>
        have hcall := hps (.call c k, s₁) (by simp)
        rcases List.mem_append.mp hq with hq | hq
        · rcases List.mem_append.mp hq with hq | hq
          · exact hps q (List.mem_append_left _ hq)
          · rcases List.mem_cons.mp hq with rfl | hq
            · exact hcall.tail h
            · exact hps q (List.mem_append_right _ (List.mem_cons_of_mem _ hq))
        · rw [List.mem_singleton.mp hq]
          exact hcall.tail h'
  · intro q hq
    rw [List.mem_singleton.mp hq]
    exact .refl _ _

/-- The answers by which no process comes into being. -/
def alone (env : σ → (c : C) → A c → σ → Prop) (S : Spawning C A) (s : σ) (c : C) (x : A c)
    (s' : σ) : Prop :=
  env s c x s' ∧ S.born c x = false ∧ S.twin c x = none

/-- A process goes on by itself. -/
theorem run_alone {p' : Program C A α} {s' : σ} (h : Reach (alone env S) p s p' s')
    (before after : List (Process C A α σ)) :
    Run env S (before ++ (p, s) :: after) (before ++ (p', s') :: after) := by
  induction h with
  | refl => exact .refl
  | head hx _ ih => exact .head (.call hx.1 hx.2.1 hx.2.2) ih

/-- What the spawning answers and the environment agree on: a twin can always start, and a new
process is always the twin of one. -/
structure Fair (env : σ → (c : C) → A c → σ → Prop) (S : Spawning C A) : Prop where
  starts : ∀ s c x y s', env s c x s' → S.twin c x = some y → ∃ s'', env s c y s''
  parent : ∀ s c y s'', env s c y s'' → S.born c y = true →
    ∃ x s', env s c x s' ∧ S.born c x = false ∧ S.twin c x = some y

/-- A system in which a process is at a program can go on to one in which it is further on. -/
theorem run_of_reach (hf : Fair env S) {p' : Program C A α} {s' : σ} (h : Reach env p s p' s') :
    ∀ ps : List (Process C A α σ), (p, s) ∈ ps → ∃ ps', Run env S ps ps' ∧ (p', s') ∈ ps' := by
  induction h with
  | refl p s => exact fun ps hps => ⟨ps, .refl, hps⟩
  | @head c k x s s₁ s' p' hx _ ih =>
      intro ps hps
      obtain ⟨before, after, rfl⟩ := List.append_of_mem hps
      cases hb : S.born c x with
      | true =>
          -- the answer goes to a new process
          obtain ⟨x', s'', hx', hb', ht⟩ := hf.parent s c x s₁ hx hb
          obtain ⟨ps', hrun, hmem⟩ := ih _ (List.mem_append_right (before ++ (k x', s'') :: after)
            (List.mem_singleton_self (k x, s₁)))
          exact ⟨ps', .head (.spawn hx' hb' ht hx) hrun, hmem⟩
      | false =>
          cases ht : S.twin c x with
          | none =>
              obtain ⟨ps', hrun, hmem⟩ := ih (before ++ (k x, s₁) :: after)
                (List.mem_append_right _ List.mem_cons_self)
              exact ⟨ps', .head (.call hx hb ht) hrun, hmem⟩
          | some y =>
              obtain ⟨s'', hy⟩ := hf.starts s c x y s₁ hx ht
              obtain ⟨ps', hrun, hmem⟩ := ih (before ++ (k x, s₁) :: after ++ [(k y, s'')])
                (List.mem_append_left _ (List.mem_append_right _ List.mem_cons_self))
              exact ⟨ps', .head (.spawn hx hb ht hy) hrun, hmem⟩

/-- Every process that a start can come to is one of a system. -/
theorem exists_run (hf : Fair env S) {p' : Program C A α} {s' : σ} (h : Reach env p s p' s') :
    ∃ ps, Run env S [(p, s)] ps ∧ (p', s') ∈ ps :=
  run_of_reach hf h _ (List.mem_singleton_self _)

end Processes
