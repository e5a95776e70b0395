import CS214.Malloc.Capacity
import CS214.Malloc.Process

/-!
# Malloc — the memory test `memtest.c`

The program cuts the heap into `OBJECTS` equal parts, fills each object with its number, looks at
every byte, and frees the objects unless it was compiled with `LEAK`.  The number of objects is a
parameter here.  `memtest_completes`: when it divides the heap into parts of a multiple of 8 bytes,
and the numbers are `char`s, nothing is incorrect, and the report at the exit is the leaked objects
with all their bytes, or empty.
-/

namespace CS214.Malloc.Memtest

open Imperative

variable (A : Arena)

/-- `OBJSIZE`, for a number of `OBJECTS`. -/
def objSize (objects : ℕ) : ℕ := 4096 / objects - 8

/-- `obj[i]`. -/
def nth (obj : List UInt64) (i : ℕ) : UInt64 := obj.getD i 0

/-- `memset(p, i, n)`. -/
def memset (p : UInt64) (i n : ℕ) : C Unit :=
  store fun m x => if p.toNat ≤ x ∧ x < p.toNat + n then UInt8.ofNat i else m x

/-- `obj[i][j]`, as a `char`, which has a sign. -/
def char (p : UInt64) (j : ℕ) : C ℤ := load fun m => (m (p.toNat + j)).toInt8.toInt

/-- The array is filled before it is read, so what it holds at first does not matter. -/
def allocate (objects : ℕ) : C (List UInt64) :=
  forLoop (fun i obj => do
    let p ← mallocOr A "memtest.c" (UInt64.ofNat (objSize objects)) 29
      s!"Unable to allocate object {i}\n"
    return obj.set i p) objects 0 (List.replicate objects 0)

/-- Each object is filled with its index. -/
def fillAll (objects : ℕ) (obj : List UInt64) : C Unit :=
  forLoop (fun i _ => memset (nth obj i) i (objSize objects)) objects 0 ()

/-- One object, with `errors` so far. -/
def checkObject (p : UInt64) (i n errors : ℕ) : C ℕ :=
  forLoop (fun j errors => do
    let c ← char p j
    if c ≠ i then do
      printf s!"Object {i} byte {j} incorrect: {c}\n"
      return errors + 1
    else return errors) n 0 errors

/-- How many bytes of the objects are not what was written. -/
def checkAll (objects : ℕ) (obj : List UInt64) : C ℕ :=
  forLoop (fun i errors => checkObject (nth obj i) i (objSize objects) errors) objects 0 0

/-- All objects are freed. -/
def freeAll (objects : ℕ) (obj : List UInt64) : C Unit :=
  forLoop (fun i _ => free A "memtest.c" (nth obj i) 54) objects 0 ()

/-- `main`, for a number of `OBJECTS` and with or without `LEAK`. -/
def main (objects : ℕ) (leak : Bool) : C ℕ := do
  let obj ← allocate A objects
  fillAll objects obj
  let errors ← checkAll objects obj
  if !leak then freeAll A objects obj
  printf s!"{errors} incorrect bytes\n"
  return 0

/-! ### A heap that is filled from the front -/

variable {A} {m : ByteMemory} {h : Heap} {out : String} {live : List Alloc} {p : Process}
  {a : Alloc} {objects : ℕ} {obj : List UInt64}

/-- Nothing was freed yet. -/
def Dense (A : Arena) (h : Heap) (live : List Alloc) : Prop :=
  ∃ R, Inv A (holding h live) R ∧ Tight A (holding h live) R ∧ geometry.Packed (used live) R.blocks

theorem Dense.owned (hd : Dense A h live) : Live A h live :=
  hd.elim fun R h => ⟨R, h.1, h.2.1⟩

theorem dense_start (hm : ZeroHeap A m) : Dense A ⟨m, false⟩ [] :=
  ⟨_, inv_start hm, fun _ ha => absurd ha List.not_mem_nil, Geometry.packed_fresh⟩

theorem Dense.store (hd : Dense A h live) (ha : a ∈ live) {mem : ByteMemory}
    (hframe : ∀ x, ¬ a.Owns x → mem x = h.mem x) : Dense A { h with mem := mem } live := by
  obtain ⟨R, hI, ht, hp⟩ := hd
  exact ⟨R, hI.store ha hframe, ht, hp⟩

/-- A call of `mymalloc` for which the rest of the heap is large enough. -/
theorem Dense.malloc (hd : Dense A h live) {n : UInt64} (hpos : 0 < n.toNat)
    (hs : n.toNat ≤ 2 ^ 64 - 8) (hroom : used live + (8 + roundUp8 n.toNat) ≤ 4096) (file : String)
    (line : ℤ) :
    ∃ p h', mymalloc A h n file line = .ret p h' "" ∧ p ≠ 0 ∧ Dense A h' (⟨p, n⟩ :: live) := by
  obtain ⟨R, hI, ht, hp⟩ := hd
  have hsize : (request n.toNat hpos).size = roundUp8 n.toNat := rfl
  rcases hp.allocate (by decide) (request n.toNat hpos) with ⟨o, R', ha, -, hp'⟩ | ⟨-, hlt⟩
  · rw [hsize, geometry_hdr] at hp'
    obtain ⟨p, h', hret, hne, hI', ht', -⟩ := mymalloc_allocates hI ht hs hpos ha file line
    refine ⟨p, h', hret, hne, R', hI', ht', ?_⟩
    rwa [used, List.map_cons, List.sum_cons, Nat.add_comm]
  · rw [hsize, geometry_hdr, geometry_total] at hlt
    exact absurd hroom (by omega)

/-- The report of a full heap counts every byte that is not a header. -/
theorem Dense.leak (hd : Dense A h live) (hfull : used live = 4096) :
    atExit A h = some (leakReport (UInt64.ofNat (4096 - 8 * live.length)) live.length) := by
  obtain ⟨R, hI, -, hp⟩ := hd
  have hne : live ≠ [] := by
    rintro rfl
    cases hfull
  obtain ⟨a, ha⟩ := List.exists_mem_of_ne_nil live hne
  obtain ⟨o, n, hb, -⟩ := hI.backed a ha
  have hi : h.initialized = true := hI.holds.initialized_of_live hb
  have hwalk := checkLeaks_region (hI.holds.headers hi)
  have hcount := hI.count_live
  have hall : ∀ b ∈ R.blocks, b.live = true := by
    obtain ⟨pre, hpre, ⟨-, hlt⟩ | ⟨e, -⟩⟩ := hp
    · rw [hfull, geometry_hdr, geometry_total] at hlt
      exact absurd hlt (by decide)
    · rw [e]
      exact hpre
  have hsize := Geometry.extent_of_live (G := geometry) hall
  rw [R.covers, geometry_total, geometry_hdr] at hsize
  rw [hcount] at hwalk
  rw [List.countP_eq_length.mpr hall] at hcount
  have hbytes : Geometry.liveSize R.blocks = 4096 - 8 * live.length := by
    have hlen : R.blocks.length = live.length := hcount
    omega
  have hpos : 0 < live.length := List.length_pos_iff.mpr hne
  rw [hbytes] at hwalk
  change checkLeaksLoop A h.mem loopBound A.bytes 0 0 = some (live.length, _) at hwalk
  rw [atExit, hi, if_pos rfl, checkLeaks, hwalk]
  exact congrArg some (if_pos hpos)

/-! ### Objects of one size -/

/-- The allocations of objects, the newest one first. -/
def allocs (n : ℕ) (obj : List UInt64) : List Alloc :=
  obj.reverse.map fun q => ⟨q, UInt64.ofNat n⟩

/-- The process owns the objects at these addresses. -/
structure Holding (A : Arena) (out : String) (n : ℕ) (obj : List UInt64) (p : Process) : Prop where
  dense : Dense A p.heap (allocs n obj)
  stdout : p.stdout = out
  stderr : p.stderr = ""

variable {n i : ℕ}

theorem Holding.has (h : Holding A out n obj p) : Has A out (allocs n obj) p :=
  ⟨h.dense.owned, h.stdout, h.stderr⟩

theorem used_allocs (hn : n ≤ 4096) : used (allocs n obj) = obj.length * (8 + roundUp8 n) := by
  have hsize : ∀ a ∈ allocs n obj, a.size.toNat = n := by
    intro a ha
    obtain ⟨q, -, rfl⟩ := List.mem_map.mp ha
    exact toNat_ofNat_small (by omega)
  rw [used_same hsize, allocs, List.length_map, List.length_reverse]

theorem mem_allocs (hi : i < obj.length) : ⟨nth obj i, UInt64.ofNat n⟩ ∈ allocs n obj := by
  refine List.mem_map_of_mem (List.mem_reverse.mpr ?_)
  rw [nth, List.getD_eq_getElem _ _ hi]
  exact List.getElem_mem hi

theorem Holding.malloc (h : Holding A out n obj p) (hpos : 0 < n) (hn : n ≤ 4096)
    (hroom : (obj.length + 1) * (8 + roundUp8 n) ≤ 4096) (text : String) :
    Returns (mallocOr A "memtest.c" (UInt64.ofNat n) 29 text) p fun q p' =>
      Holding A out n (obj ++ [q]) p' := by
  have hsize : (UInt64.ofNat n).toNat = n := toNat_ofNat_small (by omega)
  rw [Nat.add_one_mul] at hroom
  obtain ⟨q, h', hret, hne, hd⟩ := h.dense.malloc (n := UInt64.ofNat n) (by omega) (by omega)
    (by rwa [used_allocs hn, hsize]) "memtest.c" 29
  refine (h.has.calling hret hd.owned).bind ?_
  rintro _ p' ⟨rfl, hhas, rfl, -⟩
  refine returns_ite (fun h₀ => absurd h₀ hne) fun _ => returns_pure ⟨?_, hhas.stdout, hhas.stderr⟩
  rw [allocs, List.reverse_append]
  exact hd

theorem take_set (hi : i < obj.length) (q : UInt64) :
    (obj.set i q).take (i + 1) = obj.take i ++ [q] := by
  rw [List.take_add_one, List.take_set_of_le le_rfl, List.getElem?_set_self hi]
  rfl

/-- As many objects as there is place for. -/
theorem allocate_returns (h : Holding A out (objSize objects) [] p) (hk : 8 * objects ∣ 4096)
    (hpos : 0 < objSize objects) :
    Returns (allocate A objects) p fun obj p' =>
      obj.length = objects ∧ Holding A out (objSize objects) obj p' := by
  obtain ⟨hobj, htotal⟩ := object_size hk hpos
  have hn : objSize objects ≤ 4096 := (Nat.sub_le _ _).trans (Nat.div_le_self _ _)
  refine (returns_forLoop (I := fun i obj p => obj.length = objects ∧
    Holding A out (objSize objects) (obj.take i) p) ⟨List.length_replicate, h⟩ ?_).imp ?_
  · rintro i obj p - hi ⟨hlen, h⟩
    rw [Nat.zero_add] at hi
    have hroom : ((obj.take i).length + 1) * (8 + roundUp8 (objSize objects)) ≤ 4096 := by
      rw [List.length_take, objSize, hobj]
      exact (Nat.mul_le_mul_right _ (by omega)).trans_eq htotal
    refine (h.malloc hpos hn hroom _).bind fun q p' h' => returns_pure ⟨?_, ?_⟩
    · rw [List.length_set, hlen]
    · rwa [take_set (by omega)]
  · rintro obj p' ⟨hlen, h'⟩
    rw [Nat.zero_add, ← hlen, List.take_length, hlen] at h'
    exact ⟨hlen, h'⟩

/-! ### The bytes of the objects -/

/-- The bytes of the first so many objects are their numbers. -/
def Marked (m : ByteMemory) (n : ℕ) (obj : List UInt64) (count : ℕ) : Prop :=
  ∀ i < count, ∀ j < n, m ((nth obj i).toNat + j) = UInt8.ofNat i

/-- One more object is filled. -/
theorem memset_returns (h : Holding A out n obj p) (hn : n ≤ 4096) (hi : i < obj.length)
    (hm : Marked p.heap.mem n obj i) :
    Returns (memset (nth obj i) i n) p fun _ p' => Holding A out n obj p' ∧
      Marked p'.heap.mem n obj (i + 1) := by
  have hsize : (UInt64.ofNat n).toNat = n := toNat_ofNat_small (by omega)
  have hframe : ∀ x, ¬ (⟨nth obj i, UInt64.ofNat n⟩ : Alloc).Owns x →
      (if (nth obj i).toNat ≤ x ∧ x < (nth obj i).toNat + n then UInt8.ofNat i
        else p.heap.mem x) = p.heap.mem x := by
    intro x hx
    rw [Alloc.Owns, hsize] at hx
    exact if_neg hx
  refine returns_modify ⟨⟨h.dense.store (mem_allocs hi) hframe, h.stdout, h.stderr⟩, ?_⟩
  intro k hk j hj
  by_cases hki : k = i
  · subst hki
    exact if_pos ⟨Nat.le_add_right _ _, by omega⟩
  · -- the other objects are apart from this one
    have hk' : k < obj.length := by omega
    have hne : nth obj k ≠ nth obj i := by
      have hnodup := h.has.live.nodup
      rw [allocs, List.map_map, List.map_reverse, List.nodup_reverse] at hnodup
      intro e
      rw [nth, nth, List.getD_eq_getElem _ _ hk', List.getD_eq_getElem _ _ hi] at e
      exact hki ((List.Nodup.getElem_inj_iff (List.Nodup.of_map _ hnodup)).mp e)
    have hown : (⟨nth obj k, UInt64.ofNat n⟩ : Alloc).Owns ((nth obj k).toNat + j) := by
      rw [Alloc.Owns, hsize]
      exact ⟨Nat.le_add_right _ _, by simp only; omega⟩
    refine (hframe _ ?_).trans (hm k (by omega) j hj)
    exact h.has.live.apart (mem_allocs hk') (mem_allocs hi) hne hown

theorem fillAll_returns (h : Holding A out (objSize objects) obj p)
    (hn : objSize objects ≤ 4096) (hlen : obj.length = objects) :
    Returns (fillAll objects obj) p fun _ p' => Holding A out (objSize objects) obj p' ∧
      Marked p'.heap.mem (objSize objects) obj objects := by
  refine (returns_forLoop (I := fun i _ p => Holding A out (objSize objects) obj p ∧
    Marked p.heap.mem (objSize objects) obj i) ⟨h, fun i hi => absurd hi (Nat.not_lt_zero i)⟩
    ?_).imp fun _ p' h' => by rwa [Nat.zero_add] at h'
  rintro i - p - hi ⟨h, hm⟩
  exact memset_returns h hn (by omega) hm

/-- A number below 128 is the same as a `char`. -/
theorem char_ofNat (hi : i < 128) : (UInt8.ofNat i).toInt8.toInt = i := by
  have hall : ∀ k : Fin 128, (UInt8.ofNat k).toInt8.toInt = k := by decide
  exact hall ⟨i, hi⟩

/-- No byte is incorrect. -/
theorem checkAll_returns (h : Holding A out (objSize objects) obj p)
    (hm : Marked p.heap.mem (objSize objects) obj objects) (hlt : objects ≤ 128) :
    Returns (checkAll objects obj) p fun errors p' => errors = 0 ∧ p' = p := by
  refine returns_forLoop (I := fun _ errors p' => errors = 0 ∧ p' = p) ⟨rfl, rfl⟩ ?_
  rintro i _ _ - hi ⟨rfl, rfl⟩
  rw [Nat.zero_add] at hi
  refine returns_forLoop (I := fun _ errors p' => errors = 0 ∧ p' = _) ⟨rfl, rfl⟩ ?_
  rintro j _ _ - hj ⟨rfl, rfl⟩
  rw [Nat.zero_add] at hj
  refine Returns.bind (returns_load (Q := fun c p' => c = (i : ℤ) ∧ p' = _) ⟨?_, rfl⟩) ?_
  · rw [hm i hi j hj, char_ofNat (by omega)]
  · rintro _ _ ⟨rfl, rfl⟩
    exact returns_ite (fun hne => absurd rfl hne) fun _ => returns_pure ⟨rfl, rfl⟩

theorem freeAll_returns (h : Holding A out n obj p) :
    Returns (freeAll A obj.length obj) p fun _ p' => Has A out [] p' := by
  have hperm : (allocs n obj).Perm (obj.map fun q => ⟨q, UInt64.ofNat n⟩) :=
    (List.reverse_perm obj).map _
  refine (returns_forLoop (I := fun i _ p =>
    Has A out ((obj.drop i).map fun q => ⟨q, UInt64.ofNat n⟩) p) ?_ ?_).imp ?_
  · exact h.has.perm hperm
  · intro i _ p _ hi h
    rw [Nat.zero_add] at hi
    rw [← List.getElem_cons_drop hi, List.map_cons] at h
    rw [nth, List.getD_eq_getElem _ _ hi]
    exact (h.free 54).imp fun _ _ h' => h'.1
  · intro _ p' h'
    rwa [Nat.zero_add, List.drop_length, List.map_nil] at h'

/-! ### The program -/

/-- **The memory test completes.**  For every number of objects that cuts the heap into parts of a
multiple of 8 bytes, up to 128: `main` returns 0, with no incorrect byte and nothing on `stderr`.
At the exit nothing is reported, or with `LEAK` all the objects, with every byte of the heap that is
not a header. -/
theorem memtest_completes (hm : ZeroHeap A m) (hk : 8 * objects ∣ 4096) (hlt : objects ≤ 128)
    (leak : Bool) :
    Returns (main A objects leak) (.start m) fun status p => status = 0 ∧
      p.stdout = "0 incorrect bytes\n" ∧ p.stderr = "" ∧
      atExit A p.heap = some (if leak then
        leakReport (UInt64.ofNat (4096 - 8 * objects)) objects else "") := by
  have hpos : 0 < objSize objects := by
    obtain ⟨c, hc⟩ := hk
    have hobjects : 0 < objects := Nat.pos_of_ne_zero fun e => by simp [e] at hc
    have hle : 4096 / 128 ≤ 4096 / objects := Nat.div_le_div_left hlt hobjects
    rw [objSize]
    omega
  obtain ⟨hobj, htotal⟩ := object_size hk hpos
  have hn : objSize objects ≤ 4096 := (Nat.sub_le _ _).trans (Nat.div_le_self _ _)
  have hstart : Holding A "" (objSize objects) [] (.start m) := ⟨dense_start hm, rfl, rfl⟩
  refine (allocate_returns hstart hk hpos).bind ?_
  rintro obj p₁ ⟨hlen, h₁⟩
  refine (fillAll_returns h₁ hn hlen).bind ?_
  rintro - p₂ ⟨h₂, hmark⟩
  refine (checkAll_returns h₂ hmark hlt).bind ?_
  rintro _ _ ⟨rfl, rfl⟩
  cases leak with
  | false =>
      rw [← hlen]
      refine (freeAll_returns h₂).bind fun _ p₃ h₃ => ?_
      refine (h₃.printf _).bind ?_
      rintro - p₄ ⟨h₄, -⟩
      exact returns_pure ⟨rfl, h₄.stdout, h₄.stderr, h₄.live.atExit⟩
  | true =>
      refine (h₂.has.printf _).bind ?_
      rintro - p₄ ⟨h₄, hheap⟩
      have hused : used (allocs (objSize objects) obj) = 4096 := by
        rw [used_allocs hn, hlen, objSize, hobj, htotal]
      have hexit := h₂.dense.leak hused
      rw [allocs, List.length_map, List.length_reverse, hlen] at hexit
      refine returns_pure ⟨rfl, h₄.stdout, h₄.stderr, ?_⟩
      rw [hheap]
      exact hexit

/-- With the 64 objects of the source, and `LEAK`. -/
theorem memtest_completes_sample :
    Returns (main .sample 64 true) (.start fun _ => 0) fun status p => status = 0 ∧
      p.stdout = "0 incorrect bytes\n" ∧ p.stderr = "" ∧
      atExit .sample p.heap = some (leakReport (UInt64.ofNat (4096 - 8 * 64)) 64) :=
  memtest_completes (fun _ _ _ => rfl) (by decide) (by decide) true

end CS214.Malloc.Memtest
