import Mathlib.Data.Nat.Find
import CS214.Malloc.Process

/-!
# Malloc — the stress test `memgrind.c`

The five tasks and `main`.  An array of pointers is a list; 120 one-byte objects are never too many,
wherever the frees left their holes (`Has.object`), so the first three tasks return with nothing
allocated: `task1_returns`, `task2_returns`, and `task3_returns` for every sequence of numbers that
does not end in odd ones only.
-/

namespace CS214.Malloc.Memgrind

open Imperative

/-- `ALLOC_COUNT`. -/
def allocCount : ℕ := 120

/-- `NUM_RUNS`. -/
def numRuns : ℕ := 50

variable (A : Arena) (random : ℕ → ℕ)

/-- `malloc(n)` at a line of `memgrind.c`; where it fails, the message is printed and the program
ends. -/
def malloc (n : UInt64) (line : ℤ) (text : String) : C UInt64 :=
  mallocOr A "memgrind.c" n line text

/-- `free(ptr)` at a line of `memgrind.c`. -/
def free (ptr : UInt64) (line : ℤ) : C Unit := Malloc.free A "memgrind.c" ptr line

/-- `ptrs[i]`. -/
def nth (ptrs : List UInt64) (i : ℕ) : UInt64 := ptrs.getD i 0

/-- Task 1: an object of one byte is allocated and freed at once, again and again. -/
def task1 : C Unit :=
  forLoop (fun i _ => do
    let ptr ← malloc A 1 20 s!"Task 1 failed at {i}\n"
    free A ptr 25) allocCount 0 ()

/-- The array is filled before it is read, so what it holds at first does not matter. -/
def task2 : C Unit := do
  let ptrs ← forLoop (fun i ptrs => do
    let ptr ← malloc A 1 35 s!"Task 2 failed at {i}\n"
    return ptrs.set i ptr) allocCount 0 (List.replicate allocCount 0)
  forLoop (fun i _ => free A (nth ptrs i) 44) allocCount 0 ()

/-- The locals of `task3`. -/
structure Slots where
  ptrs : List UInt64
  allocated : ℕ
  total : ℕ

/-- The first `i < ALLOC_COUNT` for which the `if` in a loop that ends in `break` holds. -/
def firstOf (cond : ℕ → Bool) : Option ℕ := (List.range allocCount).find? cond

/-- The allocation in a round of task 3: into the first empty slot, while there is one. -/
def task3Allocate (s : Slots) : C Slots :=
  if s.allocated < allocCount then
    match firstOf fun i => nth s.ptrs i == 0 with
    | none => return s
    | some i => do
      let ptr ← malloc A 1 66 "Task 3 malloc failed\n"
      return { ptrs := s.ptrs.set i ptr, allocated := s.allocated + 1, total := s.total + 1 }
  else return s

/-- The deallocation in a round of task 3: of the first object at or behind a random slot, around
the end of the array. -/
def task3Deallocate (s : Slots) : C Slots :=
  if 0 < s.allocated then do
    let start := (← rand random) % allocCount
    match firstOf fun i => nth s.ptrs ((start + i) % allocCount) != 0 with
    | none => return s
    | some i => do
      let idx := (start + i) % allocCount
      free A (nth s.ptrs idx) 84
      return { s with ptrs := s.ptrs.set idx 0, allocated := s.allocated - 1 }
  else return s

/-- Task 3: at random, an object is allocated or one is freed, until `allocCount` were allocated;
then all are freed. -/
def task3 : C Unit := do
  let s ← whileLoop (fun s : Slots => s.total < allocCount) (fun s => do
    let choice := (← rand random) % 2
    if choice = 0 then task3Allocate A s else task3Deallocate A random s)
    ⟨List.replicate allocCount 0, 0, 0⟩
  forLoop (fun i _ => if nth s.ptrs i ≠ 0 then free A (nth s.ptrs i) 97 else pure ())
    allocCount 0 ()

/-! ### Arrays of pointers -/

/-- The pointers of an array that are not null. -/
def held (ptrs : List UInt64) : List UInt64 := ptrs.filter fun p => p ≠ 0

variable {A random} {out : String} {live : List Alloc} {p : Process} {ptrs : List UInt64}
  {i : ℕ} {q : UInt64}

theorem exists_nth (hi : i < ptrs.length) :
    ∃ xs ys, ptrs = xs ++ nth ptrs i :: ys ∧ xs.length = i := by
  refine ⟨ptrs.take i, ptrs.drop (i + 1), ?_, by rw [List.length_take]; omega⟩
  rw [nth, List.getD_eq_getElem _ _ hi, List.getElem_cons_drop, List.take_append_drop]

theorem held_drop (hi : i < ptrs.length) :
    held (ptrs.drop i) =
      if nth ptrs i = 0 then held (ptrs.drop (i + 1))
      else nth ptrs i :: held (ptrs.drop (i + 1)) := by
  have hdrop : ptrs.drop i = nth ptrs i :: ptrs.drop (i + 1) := by
    rw [nth, List.getD_eq_getElem _ _ hi, List.getElem_cons_drop]
  rw [hdrop, held, List.filter_cons]
  by_cases h₀ : nth ptrs i = 0 <;> simp [h₀, held]

theorem held_set (hi : i < ptrs.length) :
    (nth ptrs i = 0 → q ≠ 0 → (held (ptrs.set i q)).Perm (q :: held ptrs)) ∧
      (nth ptrs i ≠ 0 → (nth ptrs i :: held (ptrs.set i 0)).Perm (held ptrs)) := by
  obtain ⟨xs, ys, hsplit, hlen⟩ := exists_nth hi
  generalize nth ptrs i = x at hsplit ⊢
  subst hsplit hlen
  refine ⟨fun h₀ hq => ?_, fun hne => ?_⟩
  · simp only [held, List.set_append_right _ _ le_rfl, Nat.sub_self, List.set_cons_zero,
      List.filter_append, List.filter_cons, hq, h₀, ne_eq, not_false_eq_true, not_true_eq_false,
      decide_true, decide_false, if_true, Bool.false_eq_true, if_false]
    exact List.perm_middle
  · simp only [held, List.set_append_right _ _ le_rfl, Nat.sub_self, List.set_cons_zero,
      List.filter_append, List.filter_cons, hne, ne_eq, not_false_eq_true, not_true_eq_false,
      decide_true, decide_false, if_true, Bool.false_eq_true, if_false]
    exact List.perm_middle.symm

theorem malloc_returns (h : Has A out live p) {n : UInt64} (hn : n ≠ 0)
    (hroom : worstBytes live + (live.length + 1) * roundUp8 n.toNat < 4096) (line : ℤ)
    (text : String) :
    Returns (malloc A n line text) p fun ptr p' =>
      Has A out (⟨ptr, n⟩ :: live) p' ∧ ptr ≠ 0 ∧ p'.drawn = p.drawn ∧
        ∀ b ∈ live, ∀ x, b.Owns x → p'.heap.mem x = p.heap.mem x :=
  h.mallocOr hn hroom line text

/-! ### One-byte objects -/

/-- The process owns one-byte objects only, and these are their addresses. -/
def Objects (A : Arena) (out : String) (ptrs : List UInt64) (p : Process) : Prop :=
  ∃ live, Has A out live p ∧ ptrs.Perm (live.map Alloc.ptr) ∧ ∀ a ∈ live, a.size = 1

theorem Objects.perm {ptrs' : List UInt64} (h : Objects A out ptrs p) (hp : ptrs'.Perm ptrs) :
    Objects A out ptrs' p := by
  obtain ⟨live, hhas, hperm, hsize⟩ := h
  exact ⟨live, hhas, hp.trans hperm, hsize⟩

theorem Objects.drew (h : Objects A out ptrs p) (n : ℕ) :
    Objects A out ptrs { p with drawn := n } := by
  obtain ⟨live, hhas, hperm, hsize⟩ := h
  exact ⟨live, hhas.drew n, hperm, hsize⟩

/-- There is room for 120 one-byte objects, wherever the others are. -/
theorem Objects.malloc (h : Objects A out ptrs p) (hlen : ptrs.length < allocCount) (line : ℤ)
    (text : String) :
    Returns (malloc A 1 line text) p fun ptr p' =>
      Objects A out (ptr :: ptrs) p' ∧ ptr ≠ 0 ∧ p'.drawn = p.drawn := by
  obtain ⟨live, hhas, hperm, hsize⟩ := h
  have hcount := hperm.length_eq
  rw [List.length_map] at hcount
  have hroom : worstBytes live + (live.length + 1) * roundUp8 (1 : UInt64).toNat < 4096 := by
    rw [worstBytes_same hsize, show roundUp8 (1 : UInt64).toNat = 8 from rfl]
    rw [allocCount] at hlen
    omega
  refine (malloc_returns hhas (by decide) hroom line text).imp ?_
  rintro ptr p' ⟨hhas', hne, hdrawn, -⟩
  exact ⟨⟨_, hhas', hperm.cons ptr, List.forall_mem_cons.mpr ⟨rfl, hsize⟩⟩, hne, hdrawn⟩

/-- One of the objects is freed. -/
theorem Objects.free (h : Objects A out (q :: ptrs) p) (line : ℤ) :
    Returns (free A q line) p fun _ p' => Objects A out ptrs p' ∧ p'.drawn = p.drawn := by
  obtain ⟨live, hhas, hperm, hsize⟩ := h
  obtain ⟨a, ha, rfl⟩ := List.mem_map.mp (hperm.mem_iff.mp List.mem_cons_self)
  have hlive := List.perm_cons_erase ha
  have hrest := List.Perm.cons_inv (hperm.trans (hlive.map Alloc.ptr))
  refine ((hhas.perm hlive).free line).imp ?_
  rintro _ p' ⟨hhas', hdrawn, -⟩
  exact ⟨⟨_, hhas', hrest, fun b hb => hsize b (List.mem_of_mem_erase hb)⟩, hdrawn⟩

theorem Objects.free_null (h : Objects A out ptrs p) (line : ℤ) :
    Returns (Memgrind.free A 0 line) p fun _ p' => Objects A out ptrs p' ∧ p'.drawn = p.drawn := by
  obtain ⟨live, hhas, hperm, hsize⟩ := h
  refine (hhas.free_null line).imp ?_
  rintro _ p' ⟨hhas', hdrawn⟩
  exact ⟨⟨live, hhas', hperm, hsize⟩, hdrawn⟩

theorem objects_nil : Objects A out [] p ↔ Has A out [] p := by
  constructor
  · rintro ⟨live, hhas, hperm, -⟩
    obtain rfl : live = [] := List.map_eq_nil_iff.mp hperm.nil_eq.symm
    exact hhas
  · exact fun h => ⟨[], h, .nil, fun _ ha => absurd ha List.not_mem_nil⟩

/-- A loop that frees the pointers of an array one after another. -/
theorem Objects.freeAll {body : ℕ → Unit → C Unit} {line : ℤ}
    (h : Objects A out (held ptrs) p)
    (hbody : ∀ i, nth ptrs i ≠ 0 → body i () = Memgrind.free A (nth ptrs i) line)
    (hnull : ∀ i, nth ptrs i = 0 → body i () = Memgrind.free A 0 line ∨ body i () = pure ()) :
    Returns (forLoop body ptrs.length 0 ()) p fun _ p' => Has A out [] p' := by
  refine (returns_forLoop (I := fun i _ p => Objects A out (held (ptrs.drop i)) p) ?_ ?_).imp ?_
  · exact h
  · intro i _ p _ hi hobj
    rw [Nat.zero_add] at hi
    rw [held_drop hi] at hobj
    by_cases h₀ : nth ptrs i = 0
    · rw [if_pos h₀] at hobj
      rcases hnull i h₀ with hb | hb
      · rw [hb]
        exact (hobj.free_null line).imp fun _ _ h => h.1
      · rw [hb]
        exact returns_pure hobj
    · rw [if_neg h₀] at hobj
      rw [hbody i h₀]
      exact (hobj.free line).imp fun _ _ h => h.1
  · intro _ p' hobj
    rw [Nat.zero_add, List.drop_length] at hobj
    exact objects_nil.mp hobj

/-! ### The first two tasks -/

theorem task1_returns (h : Has A out [] p) : Returns (task1 A) p fun _ p' => Has A out [] p' := by
  refine returns_forLoop (I := fun _ _ p => Has A out [] p) h fun i _ p _ _ h => ?_
  refine ((objects_nil.mpr h).malloc (by decide) _ _).bind fun ptr p' hm => ?_
  exact (hm.1.free 25).imp fun _ _ hf => objects_nil.mp hf.1

theorem held_replicate (n : ℕ) : held (List.replicate n 0) = [] := by
  simp [held]

theorem task2_returns (h : Has A out [] p) : Returns (task2 A) p fun _ p' => Has A out [] p' := by
  refine Returns.bind (returns_forLoop (I := fun i ptrs p => Objects A out (held ptrs) p ∧
    ptrs.length = allocCount ∧ (held ptrs).length = i ∧ ∀ j, i ≤ j → nth ptrs j = 0) ?_ ?_) ?_
  · refine ⟨?_, List.length_replicate, ?_, fun j _ => ?_⟩
    · rw [held_replicate]
      exact objects_nil.mpr h
    · rw [held_replicate]
      rfl
    · rw [nth, List.getD_eq_getElem?_getD, List.getElem?_replicate]
      split <;> rfl
  · rintro i ptrs p - hi ⟨hobj, hlen, hcount, hrest⟩
    rw [Nat.zero_add] at hi
    refine (hobj.malloc (by omega) 35 _).bind ?_
    rintro ptr p' ⟨hobj', hne, -⟩
    have hset := (held_set (q := ptr) (by omega : i < ptrs.length)).1 (hrest i le_rfl) hne
    refine returns_pure ⟨hobj'.perm hset, by rw [List.length_set, hlen], ?_, fun j hj => ?_⟩
    · rw [hset.length_eq, List.length_cons, hcount]
    · rw [nth, List.getD_eq_getElem?_getD, List.getElem?_set_ne (by omega),
        ← List.getD_eq_getElem?_getD]
      exact hrest j (by omega)
  · rintro ptrs p' ⟨hobj, hlen, -⟩
    rw [← hlen]
    exact hobj.freeAll (fun i _ => rfl) fun i h₀ => .inl (by rw [h₀])

/-! ### The third task -/

theorem firstOf_some {cond : ℕ → Bool} (h : firstOf cond = some i) :
    i < allocCount ∧ cond i = true :=
  ⟨List.mem_range.mp (List.mem_of_find?_eq_some h), List.find?_some h⟩

theorem firstOf_none {cond : ℕ → Bool} (h : firstOf cond = none) (hi : i < allocCount) :
    cond i = false := by
  have := List.find?_eq_none.mp h i (List.mem_range.mpr hi)
  simpa using this

/-- What holds of the locals: the objects are those in the array, and no more of them than were
ever allocated. -/
structure SlotsInv (A : Arena) (out : String) (s : Slots) (p : Process) : Prop where
  objects : Objects A out (held s.ptrs) p
  length : s.ptrs.length = allocCount
  allocated : s.allocated = (held s.ptrs).length
  total : s.allocated ≤ s.total

variable {s : Slots}

/-- An allocation: there is an empty place, and one object more. -/
theorem SlotsInv.allocate (h : SlotsInv A out s p) (hlt : s.total < allocCount) :
    Returns (task3Allocate A s) p fun s' p' => SlotsInv A out s' p' ∧
      s'.allocated = s.allocated + 1 ∧ s'.total = s.total + 1 ∧ p'.drawn = p.drawn := by
  have hroom : s.allocated < allocCount := lt_of_le_of_lt h.total hlt
  rw [task3Allocate, if_pos hroom]
  cases hfirst : firstOf fun i => nth s.ptrs i == 0 with
  | none =>
      -- all places are taken
      have hfull : held s.ptrs = s.ptrs := by
        refine List.filter_eq_self.mpr fun q hq => decide_eq_true ?_
        obtain ⟨i, hi, rfl⟩ := List.getElem_of_mem hq
        have hne := firstOf_none hfirst (h.length ▸ hi)
        rwa [nth, List.getD_eq_getElem _ _ hi, beq_eq_false_iff_ne] at hne
      have hcount := h.allocated
      rw [hfull, h.length] at hcount
      exact absurd hroom (by omega)
  | some i =>
      obtain ⟨hi, h₀⟩ := firstOf_some hfirst
      rw [← h.length] at hi
      refine (h.objects.malloc (by rw [← h.allocated]; exact hroom) 66 _).bind ?_
      rintro ptr p' ⟨hobj, hne, hdrawn⟩
      have hset := (held_set hi).1 (eq_of_beq h₀) hne
      refine returns_pure ⟨⟨hobj.perm hset, by rw [List.length_set, h.length], ?_, ?_⟩, rfl, rfl,
        hdrawn⟩
      · rw [hset.length_eq, List.length_cons, h.allocated]
      · exact Nat.succ_le_succ h.total

theorem SlotsInv.drew (h : SlotsInv A out s p) (n : ℕ) :
    SlotsInv A out s { p with drawn := n } :=
  ⟨h.objects.drew n, h.length, h.allocated, h.total⟩

/-- A deallocation: there is an object, and one object less. -/
theorem SlotsInv.deallocate (h : SlotsInv A out s p) (hpos : 0 < s.allocated) :
    Returns (task3Deallocate A random s) p fun s' p' => SlotsInv A out s' p' ∧
      s'.allocated = s.allocated - 1 ∧ s'.total = s.total := by
  rw [task3Deallocate, if_pos hpos]
  refine Returns.bind (returns_rand (Q := fun k p' => k = random p.drawn ∧ SlotsInv A out s p')
    ⟨rfl, h.drew _⟩) ?_
  rintro k p₁ ⟨-, h₁⟩
  have hstart : k % allocCount < allocCount := Nat.mod_lt _ (by decide)
  generalize k % allocCount = start at hstart ⊢
  cases hfirst : firstOf fun i => nth s.ptrs ((start + i) % allocCount) != 0 with
  | none =>
      -- all places are empty: the loop comes round to every one of them
      have hempty : held s.ptrs = [] := by
        refine List.filter_eq_nil_iff.mpr fun q hq => ?_
        obtain ⟨j, hj, rfl⟩ := List.getElem_of_mem hq
        have hj' : j < allocCount := h.length ▸ hj
        have hround : (start + (j + allocCount - start) % allocCount) % allocCount = j := by
          rw [Nat.add_mod_mod, show start + (j + allocCount - start) = j + allocCount by omega,
            Nat.add_mod_right, Nat.mod_eq_of_lt hj']
        have hnull := firstOf_none hfirst (Nat.mod_lt (j + allocCount - start) (by decide))
        rw [hround, nth, List.getD_eq_getElem _ _ hj, bne_eq_false_iff_eq] at hnull
        simp [hnull]
      have hcount := h.allocated
      rw [hempty] at hcount
      exact absurd hpos (by simp [hcount])
  | some i =>
      obtain ⟨-, hne⟩ := firstOf_some hfirst
      have hidx : (start + i) % allocCount < s.ptrs.length := by
        rw [h.length]
        exact Nat.mod_lt _ (by decide)
      simp only [hfirst]
      generalize (start + i) % allocCount = idx at hne hidx ⊢
      have hset := (held_set (q := 0) hidx).2 (by simpa using hne)
      refine ((h₁.objects.perm hset).free 84).bind ?_
      rintro _ p' ⟨hobj, -⟩
      refine returns_pure ⟨⟨hobj, by rw [List.length_set, h.length], ?_,
        (Nat.sub_le _ _).trans h.total⟩, rfl, rfl⟩
      have hlen := hset.length_eq
      rw [List.length_cons] at hlen
      rw [h.allocated, ← hlen, Nat.add_sub_cancel]

/-- How many numbers are left to draw before an even one. -/
def untilEven (random : ℕ → ℕ) (hr : ∀ n, ∃ k, random (n + k) % 2 = 0) (n : ℕ) : ℕ :=
  Nat.find (hr n)

theorem untilEven_lt {hr : ∀ n, ∃ k, random (n + k) % 2 = 0} {n : ℕ} (h : random n % 2 ≠ 0) :
    untilEven random hr (n + 1) < untilEven random hr n := by
  have hspec : random (n + untilEven random hr n) % 2 = 0 := Nat.find_spec (hr n)
  cases hk : untilEven random hr n with
  | zero =>
      rw [hk] at hspec
      exact absurd hspec h
  | succ k =>
      rw [hk] at hspec
      refine Nat.lt_succ_of_le (Nat.find_min' _ ?_)
      rwa [Nat.add_assoc, Nat.add_comm 1 k]

/-- The loop comes to an end: a round makes the total larger, or frees an object, or draws an odd
number more, and there are not only odd ones ahead. -/
theorem task3_loop (hr : ∀ n, ∃ k, random (n + k) % 2 = 0) (h : SlotsInv A out s p)
    (hle : s.total ≤ allocCount) :
    Returns (whileLoop (fun s : Slots => s.total < allocCount) (fun s => do
      let choice := (← rand random) % 2
      if choice = 0 then task3Allocate A s else task3Deallocate A random s) s) p
      fun s' p' => SlotsInv A out s' p' := by
  refine (returns_whileLoop (r := Prod.Lex (· < ·) (· < ·)) (WellFounded.prod_lex
    Nat.lt_wfRel.wf Nat.lt_wfRel.wf) (I := fun v s p => SlotsInv A out s p ∧ s.total ≤ allocCount ∧
      v = ((allocCount + 1) * (allocCount - s.total) + s.allocated, untilEven random hr p.drawn))
    ⟨h, hle, rfl⟩ ?_).imp fun s' p' h' => h'.2.choose_spec.1
  rintro v s p ⟨h, hle, rfl⟩ hcond
  have hlt : s.total < allocCount := of_decide_eq_true hcond
  refine Returns.bind (returns_rand (Q := fun k p' => k = random p.drawn ∧
    p'.drawn = p.drawn + 1 ∧ SlotsInv A out s p') ⟨rfl, rfl, h.drew _⟩) ?_
  rintro k p₁ ⟨rfl, hdrawn, h₁⟩
  refine returns_ite (fun heven => ?_) fun hodd => ?_
  · refine (h₁.allocate hlt).imp ?_
    rintro s' p' ⟨h', halloc, htotal, -⟩
    refine ⟨_, .left _ _ ?_, h', by omega, rfl⟩
    rw [halloc, htotal]
    have := h.total
    have hsplit : allocCount - s.total = allocCount - (s.total + 1) + 1 := by omega
    rw [hsplit, Nat.mul_add_one]
    omega
  · by_cases hpos : 0 < s.allocated
    · refine (h₁.deallocate hpos).imp ?_
      rintro s' p' ⟨h', halloc, htotal⟩
      refine ⟨_, .left _ _ ?_, h', by omega, rfl⟩
      rw [halloc, htotal]
      omega
    · rw [task3Deallocate, if_neg hpos]
      refine returns_pure ⟨_, .right _ ?_, h₁, hle, rfl⟩
      rw [hdrawn]
      exact untilEven_lt hodd

/-- The third task returns, unless `rand` gives odd numbers only from some point on. -/
theorem task3_returns (hr : ∀ n, ∃ k, random (n + k) % 2 = 0) (h : Has A out [] p) :
    Returns (task3 A random) p fun _ p' => Has A out [] p' := by
  have hstart : SlotsInv A out ⟨List.replicate allocCount 0, 0, 0⟩ p := by
    refine ⟨?_, List.length_replicate, ?_, le_rfl⟩
    · rw [held_replicate]
      exact objects_nil.mpr h
    · rw [held_replicate]
      rfl
  refine (task3_loop hr hstart (Nat.zero_le _)).bind fun s p' h' => ?_
  rw [← h'.length]
  exact h'.objects.freeAll (fun i hne => if_pos hne) fun i h₀ => .inr (if_neg (not_not.mpr h₀))

end CS214.Malloc.Memgrind
