import CS214.Lib.Program
import Mathlib.Algebra.Order.Group.Multiset
import Mathlib.Data.Multiset.UnionInter

/-!
# Programs on a heap of objects

A heap has an object at every address that is allocated.  A program allocates, frees, reads and
writes objects, and makes calls of its own that leave the heap alone.  An allocation gives any
address that is free, or, where allocations may fail, none.  `Valid` says which calls are in order:
one may only free, read or write what is allocated, and an object is only used as what it is.

`Meets m p Q`: from the objects of `m`, whatever else is allocated, every call of `p` is in order;
where `p` returns, it has left objects for which `Q` holds in the place of those of `m`, and has
kept all others.  So what `m` and `Q` do not name is neither used nor lost, and there is one rule
for each call.

`Gives m p b`: from the objects of `m`, `p` returns `b` and changes nothing.

* `Meets.always`: from an empty heap, every call is in order, and at the end the objects are those
  that `Q` names.
* `meets_foldlM`: a loop over a list, with an invariant on what it has seen.
* `Meets.embed`: a program that makes none but calls of its own.
-/

namespace ObjectHeap

open Function Program

variable {α ω ε : Type} {A : ε → Type} {β γ : Type}

/-- The objects that are allocated. -/
abbrev Heap (α ω : Type) := α → Option ω

/-- A call on objects of type `ω` at addresses of type `α`.  `fault` is a use of an object as
something it is not, and `other` a call that leaves the heap alone. -/
inductive Call (α ω ε : Type) where
  | malloc (o : ω)
  | realloc (a : α) (f : ω → ω)
  | free (a : α)
  | load (a : α)
  | store (a : α) (o : ω)
  | fault
  | other (e : ε)

/-- `none` is `NULL`. -/
def Call.Answer (A : ε → Type) : Call α ω ε → Type
  | .malloc _ | .realloc _ _ => Option α
  | .load _ => ω
  | .free _ | .store _ _ => Unit
  | .fault => Empty
  | .other e => A e

/-- The calls that are in order. -/
def Valid (h : Heap α ω) : Call α ω ε → Prop
  | .realloc a _ | .free a | .load a | .store a _ => ∃ o, h a = some o
  | .fault => False
  | .malloc _ | .other _ => True

/-- The answers to a call; `fails` says whether an allocation may fail. -/
def Step [DecidableEq α] (fails : Prop) (h : Heap α ω) (c : Call α ω ε) (x : c.Answer A)
    (h' : Heap α ω) : Prop :=
  match c, x with
  | .malloc o, some a => h a = none ∧ h' = update h a (some o)
  | .realloc a f, some b =>
    update h a none b = none ∧ h' = update (update h a none) b ((h a).map f)
  | .malloc _, none | .realloc _ _, none => fails ∧ h' = h
  | .free a, _ => h' = update h a none
  | .load a, o => h a = some o ∧ h' = h
  | .store a o, _ => h' = update h a (some o)
  | .other _, _ => h' = h

/-- A program on a heap. -/
abbrev Prog (α ω : Type) {ε : Type} (A : ε → Type) (β : Type) :=
  Program (Call α ω ε) (Call.Answer A) β

/-! ### Calls -/

/-- An object is allocated, with this content. -/
def malloc (o : ω) : Prog α ω A (Option α) := .perform (Call.malloc o)

/-- The block of `a` gets another size; `f` says what this makes of its object. -/
def realloc (a : α) (f : ω → ω) : Prog α ω A (Option α) := .perform (Call.realloc a f)

/-- The object at `a` is given back. -/
def free (a : α) : Prog α ω A Unit := .perform (Call.free a)

/-- The object at `a`. -/
def load (a : α) : Prog α ω A ω := .perform (Call.load a)

/-- The object at `a` gets this content. -/
def store (a : α) (o : ω) : Prog α ω A Unit := .perform (Call.store a o)

/-- Behind a use of an object as what it is not, nothing is said. -/
def fault : Prog α ω A β := .call .fault fun x : Empty => nomatch x

/-- A call that leaves the heap alone. -/
def other (e : ε) : Prog α ω A (A e) := .perform (Call.other e)

/-- The object at `a`, used as a `β`. -/
def view (f : ω → Option β) (a : α) : Prog α ω A β := load a >>= fun o => (f o).elim fault .ret

/-- `*p` -/
def deref (p : Option α) : Prog α ω A α := p.elim fault .ret

/-! ### What is allocated -/

/-- The object `o` at `a`. -/
def obj (a : α) (o : ω) : Multiset (α × ω) := {(a, o)}

theorem mem_obj_add {m : Multiset (α × ω)} {a b : α} {o o' : ω} :
    (a, o) ∈ obj b o' + m ↔ a = b ∧ o = o' ∨ (a, o) ∈ m := by
  rw [obj, Multiset.mem_add, Multiset.mem_singleton, Prod.mk.injEq]

theorem mem_of_obj_le {m R : Multiset (α × ω)} {a : α} {o : ω} (h : obj a o + R ≤ m) :
    (a, o) ∈ m :=
  Multiset.mem_of_le h (mem_obj_add.mpr (.inl ⟨rfl, rfl⟩))

theorem mem_of_le_obj {m R : Multiset (α × ω)} {a : α} {o : ω} (h : R + obj a o ≤ m) :
    (a, o) ∈ m :=
  mem_of_obj_le ((add_comm (obj a o) R).trans_le h)

/-- These are the objects of the heap. -/
structure Exactly (h : Heap α ω) (m : Multiset (α × ω)) : Prop where
  nodup : (m.map Prod.fst).Nodup
  mem : ∀ a o, h a = some o ↔ (a, o) ∈ m

namespace Exactly

variable {h : Heap α ω} {m : Multiset (α × ω)} {a b : α} {o o' : ω}

theorem empty : Exactly (fun _ => none : Heap α ω) 0 where
  nodup := Multiset.nodup_zero
  mem a o := by simp

theorem eq_empty (hm : Exactly h 0) : h = fun _ => none := by
  funext a
  cases ha : h a with
  | none => rfl
  | some o => exact absurd ((hm.mem a o).mp ha) (Multiset.notMem_zero _)

/-- Nothing is allocated twice. -/
theorem not_mem (hm : Exactly h (obj a o + m)) : (a, o') ∉ m := by
  intro hmem
  have hnodup := hm.nodup
  rw [obj, Multiset.singleton_add, Multiset.map_cons, Multiset.nodup_cons] at hnodup
  exact hnodup.1 (Multiset.mem_map.mpr ⟨(a, o'), hmem, rfl⟩)

theorem get (hm : Exactly h (obj a o + m)) : h a = some o :=
  (hm.mem a o).mpr (Multiset.mem_add.mpr (.inl (Multiset.mem_singleton_self _)))

variable [DecidableEq α]

theorem malloc (hm : Exactly h m) (ha : h a = none) :
    Exactly (update h a (some o)) (obj a o + m) where
  nodup := by
    rw [obj, Multiset.singleton_add, Multiset.map_cons, Multiset.nodup_cons]
    refine ⟨fun hmem => ?_, hm.nodup⟩
    obtain ⟨⟨b, p⟩, hb, rfl⟩ := Multiset.mem_map.mp hmem
    rw [(hm.mem b p).mpr hb] at ha
    cases ha
  mem b p := by
    rw [obj, Multiset.singleton_add, Multiset.mem_cons, Prod.mk.injEq, ← hm.mem]
    by_cases hb : b = a
    · subst hb
      rw [update_self, ha]
      simp [eq_comm]
    · rw [update_of_ne hb]
      simp [hb]

theorem free (hm : Exactly h (obj a o + m)) : Exactly (update h a none) m where
  nodup := by
    have hnodup := hm.nodup
    rw [obj, Multiset.singleton_add, Multiset.map_cons, Multiset.nodup_cons] at hnodup
    exact hnodup.2
  mem b p := by
    by_cases hb : b = a
    · subst hb
      rw [update_self]
      exact iff_of_false (fun e => nomatch e) hm.not_mem
    · rw [update_of_ne hb, hm.mem, obj, Multiset.singleton_add, Multiset.mem_cons, Prod.mk.injEq]
      simp [hb]

theorem store (hm : Exactly h (obj a o + m)) :
    Exactly (update h a (some o')) (obj a o' + m) := by
  have hfree := hm.free
  have h' := hfree.malloc (update_self a none h) (o := o')
  rwa [update_idem] at h'

end Exactly

/-! ### What a program does -/

variable [DecidableEq α] {fails : Prop} {m m' R : Multiset (α × ω)} {p : Prog α ω A β}
  {Q Q' : β → Multiset (α × ω) → Prop} {k : β → Prog α ω A γ} {P : γ → Multiset (α × ω) → Prop}
  {a : α} {o o' : ω}

/-- From the objects of `m` the program comes to objects for which `Q` holds. -/
def Meets (fails : Prop) (m : Multiset (α × ω)) (p : Prog α ω A β)
    (Q : β → Multiset (α × ω) → Prop) : Prop :=
  ∀ h F, Exactly h (m + F) →
    p.Always (Step fails) Valid (fun b h' => ∃ m', Q b m' ∧ Exactly h' (m' + F)) h

theorem Meets.always (hp : Meets fails 0 p Q) :
    p.Always (Step fails) Valid (fun b h => ∃ m, Q b m ∧ Exactly h m) fun _ => none := by
  refine (hp _ 0 Exactly.empty).imp fun b h hQ => ?_
  obtain ⟨m, hm, hex⟩ := hQ
  exact ⟨m, hm, by rwa [add_zero] at hex⟩

theorem meets_ret {b : β} (h : Q b m) : Meets fails m (.ret b : Prog α ω A β) Q :=
  fun _ _ hex => ⟨m, h, hex⟩

/-- The rule of consequence. -/
theorem Meets.imp (h : Meets fails m p Q) (hQ : ∀ b m, Q b m → Q' b m) : Meets fails m p Q' :=
  fun s F hex => (h s F hex).imp fun b _ hb => by
    obtain ⟨m', hm', hex'⟩ := hb
    exact ⟨m', hQ b m' hm', hex'⟩

/-- The rule for a sequence. -/
theorem Meets.bind (h : Meets fails m p Q) (hk : ∀ b m, Q b m → Meets fails m (k b) P) :
    Meets fails m (p >>= k) P :=
  fun s F hex => (h s F hex).bind fun b s' hb => by
    obtain ⟨m', hm', hex'⟩ := hb
    exact hk b m' hm' s' F hex'

/-- The frame rule. -/
theorem Meets.frame (h : Meets fails m p Q) :
    Meets fails (m + R) p fun b m' => ∃ m₁, Q b m₁ ∧ m' = m₁ + R := by
  intro s F hex
  refine (h s (R + F) (by rwa [← add_assoc])).imp fun b s' hb => ?_
  obtain ⟨m', hm', hex'⟩ := hb
  exact ⟨m' + R, ⟨m', hm', rfl⟩, by rwa [add_assoc]⟩

/-- A sequence that starts with a program on some of the objects. -/
theorem Meets.bind_frame (h : Meets fails m p Q)
    (hk : ∀ b m, Q b m → Meets fails (m + R) (k b) P) : Meets fails (m + R) (p >>= k) P :=
  h.frame.bind fun b _ hb => by
    obtain ⟨m₁, hm₁, rfl⟩ := hb
    exact hk b m₁ hm₁

/-- A sequence that starts with a program that releases some of the objects. -/
theorem Meets.release (h : Meets fails m p fun _ m => m = 0)
    (hk : ∀ b, Meets fails R (k b) P) : Meets fails (m + R) (p >>= k) P :=
  h.bind_frame fun b _ hm => by
    rw [hm, zero_add]
    exact hk b

theorem Meets.of_eq (e : m = m') (h : Meets fails m' p Q) : Meets fails m p Q := by rwa [e]

/-- The program returns `b`, and the objects are what they were. -/
abbrev Gives (fails : Prop) (m : Multiset (α × ω)) (p : Prog α ω A β) (b : β) : Prop :=
  Meets fails m p fun b' m' => b' = b ∧ m' = m

theorem gives_ret (b : β) : Gives fails m (.ret b : Prog α ω A β) b := meets_ret ⟨rfl, rfl⟩

theorem Gives.bind {b : β} (h : Gives fails m p b) (hk : Meets fails m (k b) P) :
    Meets fails m (p >>= k) P := by
  refine Meets.bind h fun b' m' hb => ?_
  obtain ⟨rfl, rfl⟩ := hb
  exact hk

/-- A loop: `R` holds of what was seen, what is carried and the objects. -/
theorem meets_foldlM {σ τ : Type} {f : σ → τ → Prog α ω A σ} {l : List τ} {s : σ}
    (R : List τ → σ → Multiset (α × ω) → Prop)
    (hstep : ∀ before a after s m, l = before ++ a :: after → R before s m →
      Meets fails m (f s a) (R (before ++ [a])))
    (h : R [] s m) : Meets fails m (l.foldlM f s) (R l) := by
  have hrest : ∀ rest before s m, l = before ++ rest → R before s m →
      Meets fails m (rest.foldlM f s) (R l) := by
    intro rest
    induction rest with
    | nil =>
        intro before s m hl hR
        rw [List.append_nil] at hl
        exact meets_ret (hl ▸ hR)
    | cons a rest ih =>
        intro before s m hl hR
        refine (hstep before a rest s m hl hR).bind fun s' m' hR' => ?_
        exact ih (before ++ [a]) s' m' (by rw [hl, List.append_assoc, List.singleton_append]) hR'
  exact hrest l [] s m rfl h

/-! ### The rules for the calls -/

theorem meets_call {c : Call α ω ε} {k : c.Answer A → Prog α ω A γ}
    (hk : ∀ h F, Exactly h (m + F) → Valid h c ∧ ∀ x h', Step fails h c x h' →
      ∃ m', Exactly h' (m' + F) ∧ Meets fails m' (k x) P) :
    Meets fails m (.call c k) P := by
  intro h F hex
  obtain ⟨hvalid, hstep⟩ := hk h F hex
  refine ⟨hvalid, fun x h' hx => ?_⟩
  obtain ⟨m', hex', hrest⟩ := hstep x h' hx
  exact hrest h' F hex'

theorem meets_malloc {k : Option α → Prog α ω A γ} (hnone : fails → Meets fails m (k none) P)
    (hsome : ∀ a, Meets fails (obj a o + m) (k (some a)) P) :
    Meets fails m (malloc o >>= k) P := by
  refine meets_call (c := .malloc o) fun h F hex => ⟨trivial, fun x h' hx => ?_⟩
  cases x with
  | none =>
      obtain ⟨hf, rfl⟩ := hx
      exact ⟨m, hex, hnone hf⟩
  | some a =>
      obtain ⟨ha, rfl⟩ := hx
      refine ⟨obj a o + m, ?_, hsome a⟩
      rw [add_assoc]
      exact hex.malloc ha

theorem meets_realloc {k : Option α → Prog α ω A γ} {f : ω → ω}
    (hnone : fails → Meets fails (obj a o + m) (k none) P)
    (hsome : ∀ b, Meets fails (obj b (f o) + m) (k (some b)) P) :
    Meets fails (obj a o + m) (realloc a f >>= k) P := by
  refine meets_call (c := .realloc a f) fun h F hex => ?_
  have hex' : Exactly h (obj a o + (m + F)) := by rwa [← add_assoc]
  refine ⟨⟨o, hex'.get⟩, fun x h' hx => ?_⟩
  cases x with
  | none =>
      obtain ⟨hf, rfl⟩ := hx
      exact ⟨_, hex, hnone hf⟩
  | some b =>
      obtain ⟨hb, rfl⟩ := hx
      refine ⟨obj b (f o) + m, ?_, hsome b⟩
      rw [add_assoc, hex'.get]
      exact hex'.free.malloc hb

theorem meets_free {k : Unit → Prog α ω A γ} (hk : Meets fails m (k ()) P) :
    Meets fails (obj a o + m) (free a >>= k) P := by
  refine meets_call (c := .free a) fun h F hex => ?_
  have hex' : Exactly h (obj a o + (m + F)) := by rwa [← add_assoc]
  refine ⟨⟨o, hex'.get⟩, fun x h' hx => ?_⟩
  obtain rfl := hx
  exact ⟨m, hex'.free, hk⟩

theorem meets_store {k : Unit → Prog α ω A γ} (hk : Meets fails (obj a o' + m) (k ()) P) :
    Meets fails (obj a o + m) (store a o' >>= k) P := by
  refine meets_call (c := .store a o') fun h F hex => ?_
  have hex' : Exactly h (obj a o + (m + F)) := by rwa [← add_assoc]
  refine ⟨⟨o, hex'.get⟩, fun x h' hx => ?_⟩
  obtain rfl := hx
  refine ⟨obj a o' + m, ?_, hk⟩
  rw [add_assoc]
  exact hex'.store

/-- A write at the end of a program. -/
theorem meets_store_ret {Q : Unit → Multiset (α × ω) → Prop} (h : Q () (obj a o' + m)) :
    Meets fails (obj a o + m) (store a o' : Prog α ω A Unit) Q := by
  rw [← bind_ret (store a o')]
  exact meets_store (meets_ret h)

theorem meets_load {k : ω → Prog α ω A γ} (ha : (a, o) ∈ m) (hk : Meets fails m (k o) P) :
    Meets fails m (load a >>= k) P := by
  refine meets_call (c := .load a) fun h F hex => ?_
  have hget : h a = some o := (hex.mem a o).mpr (Multiset.mem_add.mpr (.inl ha))
  refine ⟨⟨o, hget⟩, fun x h' hx => ?_⟩
  obtain ⟨hx, rfl⟩ := hx
  obtain rfl := Option.some.inj (hget.symm.trans hx)
  exact ⟨m, hex, hk⟩

theorem meets_other {e : ε} {k : A e → Prog α ω A γ} (hk : ∀ x, Meets fails m (k x) P) :
    Meets fails m (other e >>= k) P := by
  refine meets_call (c := .other e) fun h F hex => ⟨trivial, fun x h' hx => ?_⟩
  obtain rfl := hx
  exact ⟨m, hex, hk x⟩

theorem meets_view {f : ω → Option β} {b : β} (ha : (a, o) ∈ m) (hf : f o = some b)
    (hk : Meets fails m (k b) P) : Meets fails m (view f a >>= k) P := by
  rw [view, Program.bind_assoc]
  refine meets_load ha ?_
  rw [hf]
  exact hk

/-- The object that comes first. -/
theorem meets_view_obj {f : ω → Option β} {b : β} (hf : f o = some b)
    (hk : Meets fails (obj a o + m) (k b) P) :
    Meets fails (obj a o + m) (view f a >>= k) P :=
  meets_view (mem_of_obj_le le_rfl) hf hk

theorem meets_deref {k : α → Prog α ω A γ} (hk : Meets fails m (k a) P) :
    Meets fails m (deref (some a) >>= k) P := hk

/-! ### Calls of its own -/

/-- A program that makes none but calls of its own, which the program on the heap makes as `i`. -/
def embed {ε' : Type} {A' : ε' → Type} (i : ε' → ε) (r : ∀ e, A (i e) → A' e) :
    Program ε' A' β → Prog α ω A β
  | .ret b => .ret b
  | .call e k => .call (.other (i e)) fun x => embed i r (k (r e x))

theorem Meets.embed {ε' : Type} {A' : ε' → Type} {i : ε' → ε} {r : ∀ e, A (i e) → A' e}
    {q : Program ε' A' β} (hk : ∀ b, Meets fails m (k b) P) :
    Meets fails m (ObjectHeap.embed i r q >>= k) P := by
  induction q with
  | ret b => exact hk b
  | call e f ih => exact meets_other fun x => ih (r e x)

end ObjectHeap
