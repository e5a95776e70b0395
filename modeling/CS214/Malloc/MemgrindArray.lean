import CS214.Malloc.MemgrindList

/-!
# Malloc — the array of `memgrind.c`, and its `main`

The fifth task keeps an array of `int`s in the heap and makes it half or twice as long, at random,
by allocating a new one, copying and freeing the old one.  `Counting`: the array is the only
allocation, its length is between 3 and 158, and its entries are 0, 1, 2, …; every resize keeps
this.

`main` runs each task 50 times.  `memgrind_completes`: it always comes to its end, with no failure
printed, no error and no leak.
-/

namespace CS214.Malloc.Memgrind

open Imperative ByteMemory

variable (A : Arena) (random : ℕ → ℕ)

/-- `array[i]`. -/
def entry (array : UInt64) (i : ℕ) : C UInt32 := load fun m => m.load32 (array.toNat + 4 * i)

/-- `array[i] = v`. -/
def setEntry (array : UInt64) (i : ℕ) (v : UInt32) : C Unit :=
  store fun m => m.store32 (array.toNat + 4 * i) v

/-- `malloc(n * sizeof(int))`. -/
def mallocInts (n : ℕ) (line : ℤ) (text : String) : C UInt64 :=
  malloc A (UInt64.ofNat (n * 4)) line text

/-- `for (i = first; i < first + count; i++) array[i] = i`. -/
def fill (array : UInt64) (count first : ℕ) : C Unit :=
  forLoop (fun i _ => setEntry array i (UInt32.ofNat i)) count first ()

/-- `for (i = 0; i < count; i++) new_array[i] = array[i]`. -/
def copy (array newArray : UInt64) (count : ℕ) : C Unit :=
  forLoop (fun i _ => do
    let v ← entry array i
    setEntry newArray i v) count 0 ()

/-- `array` and `curr_size`. -/
structure Ints where
  array : UInt64
  size : ℕ

/-- The array with which task 5 starts: ten entries, each with its index. -/
def task5Start : C Ints := do
  let array ← mallocInts A 10 158 "Task 5 initial malloc failed\n"
  fill array 10 0
  return ⟨array, 10⟩

/-- The first half of the entries are copied to a new block, and the old one is freed. -/
def task5Shrink (s : Ints) : C Ints := do
  let newArray ← mallocInts A (s.size / 2) 178 "Task 5 shrink failed\n"
  copy s.array newArray (s.size / 2)
  free A s.array 188
  return ⟨newArray, s.size / 2⟩

/-- The entries are copied to a block of twice the size, whose second half gets the next numbers. -/
def task5Grow (s : Ints) : C Ints := do
  let newArray ← mallocInts A (s.size * 2) 194 "Task 5 grow failed\n"
  copy s.array newArray s.size
  fill newArray (s.size * 2 - s.size) s.size
  free A s.array 208
  return ⟨newArray, s.size * 2⟩

/-- An operation of task 5: at random, the array shrinks, grows or stays as it is. -/
def task5Resize (s : Ints) : C Ints := do
  let operation := (← rand random) % 3
  if operation = 0 ∧ 5 < s.size then task5Shrink A s
  else if operation = 1 ∧ s.size < 80 then task5Grow A s
  else return s

/-- So many operations. -/
def task5Ops (count : ℕ) (s : Ints) : C Ints :=
  forLoop (fun _ s => task5Resize A random s) count 0 s

/-- Task 5: an array of integers that is resized a hundred times. -/
def task5 : C Unit := do
  let s ← task5Start A
  let s ← task5Ops A random 100 s
  free A s.array 214

/-- `tasks`. -/
def tasks : List (C Unit) := [task1 A, task2 A, task3 A random, task4 A, task5 A random]

/-- `names`. -/
def names : List String :=
  ["Task 1: malloc/free cycles", "Task 2: bulk alloc/free", "Task 3: random ops",
    "Task 4: linked list", "Task 5: dynamic arrays"]

/-- What `main` prints before the runs of a task. -/
def heading (i : ℕ) : String := "\n" ++ names.getD i "" ++ ":\n"

/-- One round of the loop in `main`: the runs of a task. -/
def measure (average : ℕ → String) (i : ℕ) : C Unit := do
  printf (heading i)
  forLoop (fun _ _ => (tasks A random).getD i (pure ())) numRuns 0 ()
  printf s!"Average time: {average i} microseconds\n"

/-- `main`.  The times are parameters: the text of each average, and that of the average of all. -/
def main (average : ℕ → String) (workload : String) : C ℕ := do
  printf s!"Starting stress test with {numRuns} runs\n"
  forLoop (fun i _ => measure A random average i) 5 0 ()
  printf s!"\nAverage workload time per run: {workload} microseconds\n"
  printf "\nMemgrind done!\n"
  return 0

/-! ### The entries of an array -/

variable {A random} {out : String} {live : List Alloc} {p : Process} {m m' : ByteMemory}
  {a b : Alloc} {i k : ℕ} {s : Ints}

/-- The first `k` entries are 0, 1, 2, …. -/
def Entries (m : ByteMemory) (array : UInt64) (k : ℕ) : Prop :=
  ∀ i < k, load32 m (array.toNat + 4 * i) = UInt32.ofNat i

/-- They are bytes of the allocation. -/
theorem Entries.congr (h : Entries m a.ptr k) (hk : 4 * k ≤ a.size.toNat)
    (hm : ∀ x, a.Owns x → m' x = m x) : Entries m' a.ptr k := by
  intro i hi
  rw [load32_congr fun x h₁ h₂ => hm x ⟨by omega, by omega⟩]
  exact h i hi

theorem Entries.set (h : Entries m a.ptr i) :
    Entries (m.store32 (a.ptr.toNat + 4 * i) (UInt32.ofNat i)) a.ptr (i + 1) := by
  intro j hj
  by_cases hji : j = i
  · rw [hji, load32_store32_self]
  · rw [load32_congr fun x h₁ h₂ => store32_apart (by omega)]
    exact h j (by omega)

/-- The next entry is stored. -/
theorem setEntry_returns (h : Has A out live p) (ha : a ∈ live) (hi : 4 * i + 4 ≤ a.size.toNat)
    (he : Entries p.heap.mem a.ptr i) :
    Returns (setEntry a.ptr i (UInt32.ofNat i)) p fun _ p' => Has A out live p' ∧
      Entries p'.heap.mem a.ptr (i + 1) ∧
      ∀ b ∈ live, b.ptr ≠ a.ptr → ∀ x, b.Owns x → p'.heap.mem x = p.heap.mem x := by
  have hframe : ∀ x, ¬ a.Owns x →
      p.heap.mem.store32 (a.ptr.toNat + 4 * i) (UInt32.ofNat i) x = p.heap.mem x := by
    intro x hx
    rw [Alloc.Owns] at hx
    exact store32_apart (by omega)
  refine (h.store ha hframe).imp ?_
  rintro - p' ⟨h', hmem⟩
  rw [hmem]
  exact ⟨h', he.set, fun b hb hne x hx => hframe x (h.live.apart hb ha hne hx)⟩

theorem fill_returns {count first : ℕ} (h : Has A out live p) (ha : a ∈ live)
    (hsize : 4 * (first + count) ≤ a.size.toNat) (he : Entries p.heap.mem a.ptr first) :
    Returns (fill a.ptr count first) p fun _ p' =>
      Has A out live p' ∧ Entries p'.heap.mem a.ptr (first + count) := by
  refine returns_forLoop (I := fun i _ p => Has A out live p ∧ Entries p.heap.mem a.ptr i)
    ⟨h, he⟩ ?_
  rintro i - p - hi ⟨h, he⟩
  exact (setEntry_returns h ha (by omega) he).imp fun _ p' h' => ⟨h'.1, h'.2.1⟩

/-- The entries of an array are copied to another one. -/
theorem copy_returns {count : ℕ} (h : Has A out live p) (ha : a ∈ live) (hb : b ∈ live)
    (hne : b.ptr ≠ a.ptr) (hsa : 4 * count ≤ a.size.toNat) (hsb : 4 * count ≤ b.size.toNat)
    (he : Entries p.heap.mem b.ptr count) :
    Returns (copy b.ptr a.ptr count) p fun _ p' =>
      Has A out live p' ∧ Entries p'.heap.mem a.ptr count := by
  refine (returns_forLoop (I := fun i _ p => Has A out live p ∧ Entries p.heap.mem a.ptr i ∧
    Entries p.heap.mem b.ptr count) ⟨h, fun i hi => absurd hi (Nat.not_lt_zero i), he⟩ ?_).imp ?_
  · rintro i - p - hi ⟨h, hea, heb⟩
    rw [Nat.zero_add] at hi
    refine Returns.bind (returns_load (Q := fun v p' => v = UInt32.ofNat i ∧ p = p')
      ⟨heb i hi, rfl⟩) ?_
    rintro _ _ ⟨rfl, rfl⟩
    refine (setEntry_returns h ha (by omega) hea).imp ?_
    rintro - p' ⟨h', hea', hkeep⟩
    exact ⟨h', hea', heb.congr hsb (hkeep b hb hne)⟩
  · rintro - p' ⟨h', hea, -⟩
    rw [Nat.zero_add] at hea
    exact ⟨h', hea⟩

/-! ### Resizing -/

/-- The allocation of an array. -/
def Ints.alloc (s : Ints) : Alloc := ⟨s.array, UInt64.ofNat (s.size * 4)⟩

/-- The array is the only allocation, and its entries are 0, 1, 2, …. -/
structure Counting (A : Arena) (out : String) (s : Ints) (p : Process) : Prop where
  has : Has A out [s.alloc] p
  entries : Entries p.heap.mem s.array s.size
  low : 3 ≤ s.size
  high : s.size ≤ 158

theorem ints_toNat {n : ℕ} (h : n ≤ 158) : (UInt64.ofNat (n * 4)).toNat = n * 4 :=
  toNat_ofNat_small (by omega)

/-- There is room for a second array next to the first, if one of the two is at most half of the
largest. -/
theorem mallocInts_returns (h : Has A out live p) {n : ℕ} (hpos : 0 < n) (hn : n ≤ 158)
    (hlive : worstBytes live ≤ 656) (hlen : live.length ≤ 1) (line : ℤ) (text : String) :
    Returns (mallocInts A n line text) p fun array p' =>
      Has A out ((⟨array, n⟩ : Ints).alloc :: live) p' ∧
        ∀ b ∈ live, ∀ x, b.Owns x → p'.heap.mem x = p.heap.mem x := by
  have hsize := ints_toNat hn
  have hroom : worstBytes live + (live.length + 1) * roundUp8 (UInt64.ofNat (n * 4)).toNat <
      4096 := by
    have hmul : (live.length + 1) * roundUp8 (n * 4) ≤ 2 * roundUp8 (n * 4) :=
      Nat.mul_le_mul_right _ (by omega)
    rw [hsize]
    simp only [roundUp8] at hmul ⊢
    omega
  refine (malloc_returns h (ne_zero_of_toNat_pos (by omega)) hroom line text).imp ?_
  exact fun array p' h' => ⟨h'.1, h'.2.2.2⟩

theorem Counting.room (h : Counting A out s p) : worstBytes [s.alloc] ≤ 656 := by
  have hsize := ints_toNat h.high
  have hhigh := h.high
  rw [worstBytes_cons, worstBytes_nil, Ints.alloc, hsize, roundUp8]
  omega

/-- The first array is freed, and the second one has its entries. -/
theorem counting_of_free {t : Ints} (h : Has A out [t.alloc, s.alloc] p)
    (he : Entries p.heap.mem t.array t.size) (hlow : 3 ≤ t.size) (hhigh : t.size ≤ 158) (line : ℤ) :
    Returns (do
      free A s.array line
      return t) p fun s' p' => s' = t ∧ Counting A out s' p' := by
  refine ((h.perm (.swap _ _ [])).free line).bind ?_
  rintro - p' ⟨h', -, hkeep⟩
  refine returns_pure ⟨rfl, h', ?_, hlow, hhigh⟩
  refine Entries.congr (a := t.alloc) he ?_ (hkeep _ (List.mem_singleton_self _))
  rw [Ints.alloc, ints_toNat hhigh]
  omega

/-- Two arrays are at different addresses. -/
theorem ints_ne {t : Ints} (h : Has A out [t.alloc, s.alloc] p) : s.alloc.ptr ≠ t.alloc.ptr :=
  fun e => (List.nodup_cons.mp h.live.nodup).1 (e ▸ List.mem_singleton_self _)

theorem Counting.shrink (h : Counting A out s p) (hs : 5 < s.size) :
    Returns (task5Shrink A s) p fun s' p' => s'.size = s.size / 2 ∧ Counting A out s' p' := by
  have hhigh := h.high
  have hsize := ints_toNat h.high
  refine (mallocInts_returns h.has (by omega) (by omega) h.room le_rfl 178 _).bind ?_
  rintro array p₁ ⟨h₁, hkeep₁⟩
  have hnew := ints_toNat (show s.size / 2 ≤ 158 by omega)
  have he₁ : Entries p₁.heap.mem s.array (s.size / 2) := fun i hi =>
    Entries.congr (a := s.alloc) h.entries (by rw [Ints.alloc, hsize]; omega)
      (hkeep₁ _ (List.mem_singleton_self _)) i (by omega)
  refine (copy_returns (a := (⟨array, s.size / 2⟩ : Ints).alloc) (b := s.alloc) h₁
    List.mem_cons_self (List.mem_cons_of_mem _ (List.mem_singleton_self _)) (ints_ne h₁)
    (by rw [Ints.alloc, hnew]; omega) (by rw [Ints.alloc, hsize]; omega) he₁).bind ?_
  rintro - p₂ ⟨h₂, he₂⟩
  refine (counting_of_free h₂ he₂ (by simp only; omega) (by simp only; omega) 188).imp ?_
  rintro _ p' ⟨rfl, h'⟩
  exact ⟨rfl, h'⟩

theorem Counting.grow (h : Counting A out s p) (hs : s.size < 80) :
    Returns (task5Grow A s) p fun s' p' => s'.size = s.size * 2 ∧ Counting A out s' p' := by
  have hlow := h.low
  have hsize := ints_toNat h.high
  refine (mallocInts_returns h.has (by omega) (by omega) h.room le_rfl 194 _).bind ?_
  rintro array p₁ ⟨h₁, hkeep₁⟩
  have hnew := ints_toNat (show s.size * 2 ≤ 158 by omega)
  have he₁ : Entries p₁.heap.mem s.array s.size :=
    Entries.congr (a := s.alloc) h.entries (by rw [Ints.alloc, hsize]; omega)
      (hkeep₁ _ (List.mem_singleton_self _))
  refine (copy_returns (a := (⟨array, s.size * 2⟩ : Ints).alloc) (b := s.alloc) h₁
    List.mem_cons_self (List.mem_cons_of_mem _ (List.mem_singleton_self _)) (ints_ne h₁)
    (by rw [Ints.alloc, hnew]; omega) (by rw [Ints.alloc, hsize]; omega) he₁).bind ?_
  rintro - p₂ ⟨h₂, he₂⟩
  refine (fill_returns (a := (⟨array, s.size * 2⟩ : Ints).alloc) h₂ List.mem_cons_self
    (by rw [Ints.alloc, hnew]; omega) he₂).bind ?_
  rintro - p₃ ⟨h₃, he₃⟩
  rw [show s.size + (s.size * 2 - s.size) = s.size * 2 by omega] at he₃
  refine (counting_of_free h₃ he₃ (by simp only; omega) (by simp only; omega) 208).imp ?_
  rintro _ p' ⟨rfl, h'⟩
  exact ⟨rfl, h'⟩

theorem Counting.resize (h : Counting A out s p) :
    Returns (task5Resize A random s) p fun s' p' => Counting A out s' p' := by
  refine Returns.bind (returns_rand (Q := fun _ p' => Counting A out s p')
    ⟨h.has.drew _, h.entries, h.low, h.high⟩) fun k p₁ h₁ => ?_
  refine returns_ite (fun hc => ?_) fun _ => returns_ite (fun hc => ?_) fun _ => returns_pure h₁
  · exact (h₁.shrink hc.2).imp fun _ _ h' => h'.2
  · exact (h₁.grow hc.2).imp fun _ _ h' => h'.2

theorem task5Start_spec (h : Has A out [] p) :
    Returns (task5Start A) p fun s p' => Counting A out s p' := by
  refine (mallocInts_returns h (by decide) (by decide) (by simp) (by simp) 158 _).bind ?_
  rintro array p₁ ⟨h₁, -⟩
  refine (fill_returns (a := (⟨array, 10⟩ : Ints).alloc) h₁ List.mem_cons_self
    (ints_toNat (n := 10) (by decide)).ge fun i hi => absurd hi (Nat.not_lt_zero i)).bind ?_
  rintro - p₂ ⟨h₂, he₂⟩
  exact returns_pure ⟨h₂, he₂, by simp, by simp⟩

theorem Counting.ops (h : Counting A out s p) (count : ℕ) :
    Returns (task5Ops A random count s) p fun s' p' => Counting A out s' p' :=
  returns_forLoop (I := fun _ s p => Counting A out s p) h fun _ _ _ _ _ h => h.resize

theorem task5_returns (h : Has A out [] p) :
    Returns (task5 A random) p fun _ p' => Has A out [] p' := by
  refine (task5Start_spec h).bind fun s p₁ h₁ => ?_
  refine (h₁.ops 100).bind fun s' p₂ h₂ => ?_
  exact (h₂.has.free 214).imp fun _ _ h' => h'.1

/-- **The array in the heap.**  Whatever `rand` returns and however many operations there are, the
array is the only allocation, has between 3 and 158 entries, and they are 0, 1, 2, …. -/
theorem task5_array (h : Has A out [] p) (count : ℕ) :
    Returns (task5Start A >>= task5Ops A random count) p fun s p' => Counting A out s p' :=
  (task5Start_spec h).bind fun _ _ h₁ => h₁.ops count

theorem task5_array_sample :
    Returns (task5Start .sample >>= task5Ops .sample (fun n => n) 250) (.start fun _ => 0)
      fun s p => Counting .sample "" s p :=
  task5_array (has_start fun _ _ _ => rfl) 250

/-! ### All of it -/

theorem tasks_return (hr : ∀ n, ∃ k, random (n + k) % 2 = 0) (h : Has A out [] p) :
    ∀ t ∈ tasks A random, Returns t p fun _ p' => Has A out [] p' := by
  simp only [tasks, List.forall_mem_cons]
  exact ⟨task1_returns h, task2_returns h, task3_returns hr h, task4_returns h, task5_returns h,
    fun _ ht => absurd ht List.not_mem_nil⟩

/-- What `main` prints about the first so many tasks. -/
def taskReports (average : ℕ → String) : ℕ → String
  | 0 => ""
  | i + 1 => taskReports average i ++ heading i ++ s!"Average time: {average i} microseconds\n"

/-- What `main` prints when nothing fails. -/
def report (average : ℕ → String) (workload : String) : String :=
  s!"Starting stress test with {numRuns} runs\n" ++ taskReports average 5 ++
    s!"\nAverage workload time per run: {workload} microseconds\n" ++ "\nMemgrind done!\n"

theorem measure_returns (hr : ∀ n, ∃ k, random (n + k) % 2 = 0) (average : ℕ → String)
    (hi : i < 5) (h : Has A out [] p) :
    Returns (measure A random average i) p fun _ p' =>
      Has A (out ++ heading i ++ s!"Average time: {average i} microseconds\n") [] p' := by
  refine (h.printf _).bind ?_
  rintro - p₁ ⟨h₁, -⟩
  refine (returns_forLoop (I := fun _ _ p => Has A _ [] p) h₁ fun _ _ p _ _ h => ?_).bind ?_
  · have hlt : i < (tasks A random).length := by simpa [tasks] using hi
    rw [List.getD_eq_getElem _ _ hlt]
    exact tasks_return hr h _ (List.getElem_mem hlt)
  · intro _ p₂ h₂
    exact (h₂.printf _).imp fun _ _ h₃ => h₃.1

/-- **The stress test completes.**  For every place of the heap and every sequence of numbers from
`rand` that does not end in odd ones only, `main` returns 0: it prints its report and nothing else,
nothing goes to `stderr`, and there is no leak to report at the exit. -/
theorem memgrind_completes (hm : ZeroHeap A m) (hr : ∀ n, ∃ k, random (n + k) % 2 = 0)
    (average : ℕ → String) (workload : String) :
    Returns (main A random average workload) (.start m) fun status p => status = 0 ∧
      p.stdout = report average workload ∧ p.stderr = "" ∧ atExit A p.heap = some "" := by
  refine ((has_start hm).printf _).bind ?_
  rintro - p₁ ⟨h₁, -⟩
  rw [String.empty_append] at h₁
  refine (returns_forLoop (I := fun i _ p =>
    Has A (s!"Starting stress test with {numRuns} runs\n" ++ taskReports average i) [] p)
    (by rwa [taskReports, String.append_empty]) fun i _ p _ hi h => ?_).bind fun _ p₂ h₂ => ?_
  · have hround := measure_returns hr average (by omega) h
    simpa only [taskReports, String.append_assoc] using hround
  · refine (h₂.printf _).bind ?_
    rintro - p₃ ⟨h₃, -⟩
    refine (h₃.printf _).bind ?_
    rintro - p₄ ⟨h₄, -⟩
    exact returns_pure ⟨rfl, h₄.stdout, h₄.stderr, h₄.live.atExit⟩

theorem memgrind_completes_sample :
    Returns (main .sample (fun n => n) (fun _ => "1.500") "2") (.start fun _ => 0) fun status p =>
      status = 0 ∧ p.stdout = report (fun _ => "1.500") "2" ∧ p.stderr = "" ∧
        atExit .sample p.heap = some "" :=
  memgrind_completes (fun _ _ _ => rfl) (fun n => ⟨n, by omega⟩) _ _

end CS214.Malloc.Memgrind
