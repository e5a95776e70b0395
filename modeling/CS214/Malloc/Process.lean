import CS214.Lib.Imperative
import CS214.Malloc.Ownership

/-!
# Malloc — programs that use the allocator

A program is a sequence of actions on a `Process`: calls of `malloc` and `free`, which the macros of
`mymalloc.h` make calls of `mymalloc` and `myfree`, loads and stores, `printf`, `exit` and `rand`.
What `rand` returns is a parameter.

`Has A out live p` is all a program has to know about its process: which allocations it owns, what
it has printed, and that nothing went to `stderr`.  There is one rule for each action.
-/

namespace CS214.Malloc

open Imperative

/-- A running program: the allocator's static state and memory, how many numbers `rand` has given,
and what was printed. -/
structure Process where
  heap : Heap
  drawn : ℕ
  stdout : String
  stderr : String

/-- The state in which `main` starts. -/
def Process.start (m : ByteMemory) : Process := ⟨⟨m, false⟩, 0, "", ""⟩

/-- A piece of a program. -/
abbrev C := Action Process

variable (A : Arena) (file : String) (random : ℕ → ℕ)

/-- What a call of the allocator does to the process. -/
def calling {α : Type} (call : Heap → Outcome α) : C α := fun _ p =>
  match call p.heap with
  | .ret a h err => .ret a { p with heap := h, stderr := p.stderr ++ err }
  | .exit status h err => .exit status { p with heap := h, stderr := p.stderr ++ err }
  | .loops => .loops

/-- `malloc(n)` at a line of the file. -/
def malloc (n : UInt64) (line : ℤ) : C UInt64 := calling fun h => mymalloc A h n file line

/-- `free(p)`. -/
def free (ptr : UInt64) (line : ℤ) : C Unit := calling fun h => myfree A h ptr file line

/-- `rand()`: the next number of the sequence. -/
def rand : C ℕ := fun _ p => .ret (random p.drawn) { p with drawn := p.drawn + 1 }

/-- `printf`, of a text. -/
def printf (text : String) : C Unit := modify fun p => { p with stdout := p.stdout ++ text }

/-- A load, with what it gives in a memory. -/
def load {α : Type} (f : ByteMemory → α) : C α := fun _ p => .ret (f p.heap.mem) p

/-- A store, with what it does to a memory. -/
def store (f : ByteMemory → ByteMemory) : C Unit :=
  modify fun p => { p with heap := { p.heap with mem := f p.heap.mem } }

/-- `p = malloc(n); if (p == NULL) { printf(text); exit(1); }`. -/
def mallocOr (n : UInt64) (line : ℤ) (text : String) : C UInt64 := do
  let ptr ← malloc A file n line
  if ptr = 0 then do
    printf text
    exit 1
  else return ptr

/-! ### What a program knows about its process -/

variable {A file random} {out : String} {live rest : List Alloc} {p : Process} {a : Alloc}

/-- The process owns these allocations, has printed this much, and nothing on `stderr`. -/
structure Has (A : Arena) (out : String) (live : List Alloc) (p : Process) : Prop where
  live : Live A p.heap live
  stdout : p.stdout = out
  stderr : p.stderr = ""

theorem has_start {m : ByteMemory} (hm : ZeroHeap A m) : Has A "" [] (Process.start m) :=
  ⟨live_start hm, rfl, rfl⟩

theorem Has.perm {live' : List Alloc} (h : Has A out live p) (hp : live.Perm live') :
    Has A out live' p :=
  ⟨h.live.perm hp, h.stdout, h.stderr⟩

theorem Has.drew (h : Has A out live p) (n : ℕ) : Has A out live { p with drawn := n } :=
  ⟨h.live, h.stdout, h.stderr⟩

/-- `printf`. -/
theorem Has.printf (h : Has A out live p) (text : String) :
    Returns (printf text) p fun _ p' => Has A (out ++ text) live p' ∧ p'.heap = p.heap :=
  returns_modify ⟨⟨h.live, congrArg (· ++ text) h.stdout, h.stderr⟩, rfl⟩

theorem returns_rand {Q : ℕ → Process → Prop}
    (h : Q (random p.drawn) { p with drawn := p.drawn + 1 }) : Returns (rand random) p Q :=
  ⟨_, _, h, 0, fun _ _ => rfl⟩

theorem returns_load {α : Type} {f : ByteMemory → α} {Q : α → Process → Prop}
    (h : Q (f p.heap.mem) p) : Returns (load f) p Q :=
  ⟨_, _, h, 0, fun _ _ => rfl⟩

/-- A store into an allocation. -/
theorem Has.store (h : Has A out live p) (ha : a ∈ live) {f : ByteMemory → ByteMemory}
    (hframe : ∀ x, ¬ a.Owns x → f p.heap.mem x = p.heap.mem x) :
    Returns (store f) p fun _ p' => Has A out live p' ∧ p'.heap.mem = f p.heap.mem :=
  returns_modify ⟨⟨h.live.store ha hframe, h.stdout, h.stderr⟩, rfl⟩

/-- What a call that returns does. -/
theorem Has.calling {α : Type} {call : Heap → Outcome α} {v : α} {h' : Heap}
    {live' : List Alloc} (h : Has A out live p) (hcall : call p.heap = .ret v h' "")
    (hl : Live A h' live') : Returns (calling call) p fun v' p' =>
      v' = v ∧ Has A out live' p' ∧ p'.heap = h' ∧ p'.drawn = p.drawn := by
  refine ⟨v, { p with heap := h', stderr := p.stderr ++ "" }, ⟨rfl, ⟨hl, h.stdout, ?_⟩, rfl, rfl⟩,
    0, fun _ _ => ?_⟩
  · rw [h.stderr]
    rfl
  · simp only [Malloc.calling, hcall]

/-- A `malloc` for which there is room does not fail. -/
theorem Has.mallocOr (h : Has A out live p) {n : UInt64} (hn : n ≠ 0)
    (hroom : worstBytes live + (live.length + 1) * roundUp8 n.toNat < 4096) (line : ℤ)
    (text : String) :
    Returns (mallocOr A file n line text) p fun ptr p' =>
      Has A out (⟨ptr, n⟩ :: live) p' ∧ ptr ≠ 0 ∧ p'.drawn = p.drawn ∧
        ∀ b ∈ live, ∀ x, b.Owns x → p'.heap.mem x = p.heap.mem x := by
  have hs : n.toNat ≤ 2 ^ 64 - 8 := by
    have hle : roundUp8 n.toNat ≤ (live.length + 1) * roundUp8 n.toNat :=
      Nat.le_mul_of_pos_left _ (Nat.succ_pos _)
    rw [roundUp8] at hle hroom
    omega
  obtain ⟨ptr, h', hret, hne, hlive, hkeep⟩ := h.live.malloc hn hs hroom file line
  refine (h.calling hret hlive).bind ?_
  rintro _ p' ⟨rfl, hhas, rfl, hdrawn⟩
  exact returns_ite (fun h₀ => absurd h₀ hne)
    fun _ => returns_pure ⟨hhas, hne, hdrawn, hkeep⟩

/-- A `free` of an allocation. -/
theorem Has.free (h : Has A out (a :: rest) p) (line : ℤ) :
    Returns (free A file a.ptr line) p fun _ p' =>
      Has A out rest p' ∧ p'.drawn = p.drawn ∧
        ∀ b ∈ rest, ∀ x, b.Owns x → p'.heap.mem x = p.heap.mem x := by
  obtain ⟨h', hret, hlive, hkeep⟩ := h.live.free file line
  refine (h.calling hret hlive).imp ?_
  rintro _ p' ⟨-, hhas, rfl, hdrawn⟩
  exact ⟨hhas, hdrawn, hkeep⟩

/-- A `free` of the null pointer. -/
theorem Has.free_null (h : Has A out live p) (line : ℤ) :
    Returns (Malloc.free A file 0 line) p fun _ p' => Has A out live p' ∧ p'.drawn = p.drawn := by
  have hret : myfree A p.heap 0 file line = .ret () p.heap "" := by simp [myfree]
  refine (h.calling hret h.live).imp ?_
  rintro _ p' ⟨-, hhas, -, hdrawn⟩
  exact ⟨hhas, hdrawn⟩

end CS214.Malloc
