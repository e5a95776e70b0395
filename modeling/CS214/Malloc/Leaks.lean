import Mathlib.Algebra.Order.BigOperators.Group.List
import CS214.Malloc.Failure

/-!
# Malloc — the leak report

`check_leaks` runs at exit, once `init_heap` has registered it, and walks over the headers.  The
allocated chunks it counts are the live allocations (`Inv.live_perm`), and the chunk of a live
allocation is as large as its request rounded up, or 8 bytes larger (`Tight`).
-/

namespace CS214.Malloc

variable {A : Arena} {m : ByteMemory} {s s' : Client} {R R' : geometry.Region}

/-- The loop of `check_leaks`, with `count` and `bytes` so far. -/
def checkLeaksLoop (A : Arena) (m : ByteMemory) : ℕ → UInt64 → ℕ → UInt64 → Option (ℕ × UInt64)
  | 0, _, _, _ => none
  | n + 1, curr, count, bytes =>
    if curr < A.limit then
      if chunkSize m curr = 0 then some (count, bytes)
      else
        let next := curr + headerSize + chunkSize m curr
        if isFree m curr then checkLeaksLoop A m n next count bytes
        else checkLeaksLoop A m n next (count + 1) (bytes + chunkSize m curr)
    else some (count, bytes)

/-- The text of the report. -/
def leakReport (bytes : UInt64) (count : ℕ) : String :=
  s!"mymalloc: {bytes} bytes leaked in {count} objects.\n"

/-- What `check_leaks` prints. -/
def checkLeaks (A : Arena) (m : ByteMemory) : Option String := do
  let (count, bytes) ← checkLeaksLoop A m loopBound A.bytes 0 0
  return if 0 < count then leakReport bytes count else ""

/-- What is printed when the program exits: `init_heap` is what calls `atexit(check_leaks)`. -/
def atExit (A : Arena) (h : Heap) : Option String :=
  if h.initialized then checkLeaks A h.mem else some ""

/-! ### The walk -/

theorem checkLeaksLoop_eq {n off : ℕ} (count : ℕ) (bytes : UInt64) {bs : List Block}
    (h : Tiled A m off bs) (hn : bs.length < n) :
    checkLeaksLoop A m n (A.at off) count bytes =
      some (count + bs.countP Block.live, bytes + UInt64.ofNat (Geometry.liveSize bs)) := by
  induction bs generalizing n off count bytes with
  | nil =>
      obtain ⟨n, rfl⟩ := Nat.exists_eq_succ_of_ne_zero (by omega : n ≠ 0)
      rw [checkLeaksLoop, h.eq_limit, if_neg (UInt64.lt_irrefl _)]
      simp [Geometry.liveSize]
  | cons b bs ih =>
      obtain ⟨n, rfl⟩ := Nat.exists_eq_succ_of_ne_zero (by omega : n ≠ 0)
      simp only [List.length_cons] at hn
      have hn' : bs.length < n := by omega
      simp only [checkLeaksLoop, h.curr_lt, h.chunkSize_ne_zero, h.isFree_eq, h.next_eq, if_true,
        if_false, ih _ _ h.tail hn', Geometry.liveSize_cons]
      cases hb : b.live with
      | false => simp [hb]
      | true =>
          rw [h.chunkSize_eq, List.countP_cons_of_pos hb, UInt64.ofNat_add]
          simp only [Bool.not_true, Bool.false_eq_true, if_false, if_true, UInt64.add_assoc,
            Nat.add_assoc, Nat.add_comm 1]

theorem checkLeaks_region (hR : Headers A m 0 R.blocks) :
    checkLeaksLoop A m loopBound A.bytes 0 0 =
      some (R.blocks.countP Block.live, UInt64.ofNat (Geometry.liveSize R.blocks)) := by
  have ht := tiled_region hR
  have hlen := ht.length_le
  have heq := checkLeaksLoop_eq 0 0 ht (n := loopBound) (by simp only [loopBound]; omega)
  rwa [Arena.at_zero, Nat.zero_add, UInt64.zero_add] at heq

/-! ### The live chunks and the live allocations -/

/-- The payload addresses of the live blocks. -/
def livePtrs (A : Arena) (R : geometry.Region) : List UInt64 :=
  ((geometry.layout 0 R.blocks).filter fun c => c.2.live).map fun c => A.at (c.1 + 8)

theorem nodup_livePtrs : (livePtrs A R).Nodup := by
  refine List.Nodup.map_on ?_ ((Geometry.nodup_layout 0 R.blocks).filter _)
  rintro ⟨o, b⟩ hb ⟨o', b'⟩ hb' h
  have hb := (List.mem_filter.mp hb).1
  have hb' := (List.mem_filter.mp hb').1
  have hbd := header_bounds hb
  have hbd' := header_bounds hb'
  have ho := Arena.at_inj (by omega) (by omega) h
  rcases Geometry.layout_apart hb hb' with ⟨rfl, rfl⟩ | hlt | hlt
  · rfl
  · omega
  · omega

/-- The live allocations are at the payloads of the live blocks, once each. -/
theorem Inv.live_perm (hI : Inv A s R) : (s.live.map Alloc.ptr).Perm (livePtrs A R) := by
  refine (List.perm_ext_iff_of_nodup hI.distinct nodup_livePtrs).mpr fun p => ?_
  simp only [livePtrs, List.mem_map, List.mem_filter]
  constructor
  · rintro ⟨a, ha, rfl⟩
    obtain ⟨o, n, hl, hp, -⟩ := hI.backed a ha
    exact ⟨(o, ⟨n, true⟩), ⟨hl, rfl⟩, hp.symm⟩
  · rintro ⟨⟨o, ⟨n, l⟩⟩, ⟨hl, hlive⟩, rfl⟩
    obtain rfl : l = true := hlive
    exact hI.owned o n hl

theorem Inv.count_live (hI : Inv A s R) : R.blocks.countP Block.live = s.live.length := by
  have hlen := hI.live_perm.length_eq
  rw [List.length_map, livePtrs, List.length_map] at hlen
  rw [hlen, List.countP_eq_length_filter, ← Geometry.layout_live (G := geometry) 0,
    List.length_map]

/-- The payload bytes of the live blocks are those of the live allocations' chunks. -/
theorem Inv.size_live (hI : Inv A s R) (hi : s.heap.initialized = true) :
    Geometry.liveSize R.blocks =
      (s.live.map fun a => (chunkSize s.heap.mem (a.ptr - headerSize)).toNat).sum := by
  have hR := hI.holds.headers hi
  have hblocks : ((geometry.layout 0 R.blocks).filter fun c => c.2.live).map (fun c => c.2.size) =
      (livePtrs A R).map fun p => (chunkSize s.heap.mem (p - headerSize)).toNat := by
    rw [livePtrs, List.map_map]
    refine List.map_congr_left fun c hc => ?_
    obtain ⟨o, b⟩ := c
    have hb := (List.mem_filter.mp hc).1
    rw [Function.comp, at_sub_header, (chunk_spec hR hb).1]
  have hperm := (hI.live_perm.map fun p => (chunkSize s.heap.mem (p - headerSize)).toNat).sum_nat
  rw [List.map_map] at hperm
  rw [Geometry.liveSize, ← Geometry.layout_live (G := geometry) 0, List.map_map]
  exact (congrArg List.sum hblocks).trans hperm.symm

/-! ### The sizes of live chunks -/

/-- The block of a live allocation is at most 8 bytes larger than the request rounded up. -/
def Tight (A : Arena) (s : Client) (R : geometry.Region) : Prop :=
  ∀ a ∈ s.live, ∀ o n, (o, ⟨n, true⟩) ∈ geometry.layout 0 R.blocks → a.ptr = A.at (o + 8) →
    n ≤ roundUp8 a.size.toNat + 8

theorem Tight.malloc (ht : Tight A s R) (hI : Inv A s R) {h' : Heap} {n : UInt64} {o : ℕ}
    (hpos : 0 < n.toNat) (ha : R.allocate (request n.toNat hpos) = some (o, R')) :
    Tight A (s.allocated h' (A.at (o + 8)) n) R' := by
  obtain ⟨g, hg, hnew, hno, hiff⟩ := allocate_live ha
  have hbd := header_bounds hnew
  have hfresh : ∀ a ∈ s.live, a.ptr ≠ A.at (o + 8) := hI.not_live (by omega) hno
  rw [Client.allocated, if_neg (Arena.at_ne_zero (by omega))]
  intro a hmem o' k hl hp
  rcases List.mem_cons.mp hmem with rfl | hold
  · have hbd' := header_bounds hl
    have hoff := Arena.at_inj (A := A) (by omega) (by omega) hp
    rcases (hiff o' k).mp hl with hl | ⟨-, rfl⟩
    · obtain rfl : o = o' := by omega
      exact absurd hl (hno k)
    · exact hg.2
  · rcases (hiff o' k).mp hl with hl | ⟨rfl, -⟩
    · exact ht a hold o' k hl hp
    · exact absurd hp (hfresh a hold)

theorem tight_step (hI : Inv A s R) (ht : Tight A s R) {op : Op} (hd : Disciplined s op) :
    ∃ s' R', step A s op = some s' ∧ Inv A s' R' ∧ Tight A s' R' := by
  cases op with
  | malloc n file line =>
      rcases mymalloc_cases hI.holds hd file line with
        ⟨err, hret, -⟩ | ⟨hpos, o, R', h', ha, hret, hb⟩
      · refine ⟨_, R, by rw [step, hret], ?_⟩
        rw [Client.allocated, if_pos rfl]
        exact ⟨hI.same_live (ready_spec hI.holds), ht⟩
      · exact ⟨_, R', by rw [step, hret], hI.malloc (by simp only [request]; omega) ha hb,
          ht.malloc hI hpos ha⟩
  | free p file line =>
      rcases hd with rfl | ⟨a, ha, rfl⟩
      · refine ⟨s, R, ?_, hI, ht⟩
        rw [step, myfree, if_pos rfl]
        exact congrArg some hI.freed_null
      · obtain ⟨o, n, hl, hp, -⟩ := hI.backed a ha
        have hbd := header_bounds hl
        obtain ⟨h', R', hret, hr, hb⟩ := myfree_live hI.holds hl file line
        rw [hp]
        refine ⟨_, R', by rw [step, hret], hI.free (by omega) hr hb, fun b hb' o' k hl' hp' => ?_⟩
        exact ht b (List.mem_of_mem_filter hb') o' k ((release_live hr o' k).mp hl').1 hp'
  | write x v =>
      obtain ⟨a, ha, hx⟩ := hd
      exact ⟨_, R, rfl, hI.write ha hx v, ht⟩

theorem run_tight (hm : ZeroHeap A m) {ops : List Op}
    (h : Run (step A) Disciplined (start m) ops s) : ∃ R, Inv A s R ∧ Tight A s R := by
  refine h.invariant (I := fun s => ∃ R, Inv A s R ∧ Tight A s R) ?_
    ⟨_, inv_start hm, fun a ha => by cases ha⟩
  rintro s op s' ⟨R, hI, ht⟩ hd hs
  obtain ⟨s₁, R', h₁, hinv⟩ := tight_step hI ht hd
  rw [h₁] at hs
  exact ⟨R', Option.some.inj hs ▸ hinv⟩

/-- The bytes that live allocations requested, and the most their chunks have. -/
theorem Inv.size_bounds (hI : Inv A s R) (ht : Tight A s R) (hi : s.heap.initialized = true) :
    (s.live.map fun a => a.size.toNat).sum ≤ Geometry.liveSize R.blocks ∧
      Geometry.liveSize R.blocks ≤ (s.live.map fun a => roundUp8 a.size.toNat + 8).sum := by
  have hchunk : ∀ a ∈ s.live, a.size.toNat ≤ (chunkSize s.heap.mem (a.ptr - headerSize)).toNat ∧
      (chunkSize s.heap.mem (a.ptr - headerSize)).toNat ≤ roundUp8 a.size.toNat + 8 := by
    intro a ha
    obtain ⟨o, n, hl, hp, hle⟩ := hI.backed a ha
    have hn := ht a ha o n hl hp
    rw [hp, at_sub_header, (chunk_spec (hI.holds.headers hi) hl).1]
    exact ⟨hle, hn⟩
  rw [hI.size_live hi]
  exact ⟨List.sum_le_sum fun a ha => (hchunk a ha).1, List.sum_le_sum fun a ha => (hchunk a ha).2⟩

/-! ### The report -/

theorem leakReport_ne_empty (bytes : UInt64) (count : ℕ) : leakReport bytes count ≠ "" := by
  intro h
  have hlen := congrArg String.length h
  simp [leakReport] at hlen

theorem Inv.live_eq_nil (hI : Inv A s R) (hi : s.heap.initialized = false) : s.live = [] := by
  refine List.eq_nil_iff_forall_not_mem.mpr fun a ha => ?_
  obtain ⟨o, n, hl, -⟩ := hI.backed a ha
  rw [hI.holds.initialized_of_live hl] at hi
  cases hi

/-- The report of a state: the live allocations, and between the bytes that they requested and
those that their chunks can have. -/
theorem Inv.report (hI : Inv A s R) (ht : Tight A s R) :
    ∃ bytes : UInt64,
      (s.heap.initialized = true →
        checkLeaksLoop A s.heap.mem loopBound A.bytes 0 0 = some (s.live.length, bytes)) ∧
      atExit A s.heap = some (if s.live = [] then "" else leakReport bytes s.live.length) ∧
      (s.live.map fun a => a.size.toNat).sum ≤ bytes.toNat ∧
      bytes.toNat ≤ (s.live.map fun a => roundUp8 a.size.toNat + 8).sum := by
  cases hi : s.heap.initialized with
  | false =>
      have hlive := hI.live_eq_nil hi
      refine ⟨0, nofun, ?_, ?_⟩
      · rw [atExit, hi, hlive]
        rfl
      · simp [hlive]
  | true =>
      have hwalk := checkLeaks_region (hI.holds.headers hi)
      have hcov := R.covers
      have hle := Geometry.liveSize_le_extent geometry R.blocks
      rw [geometry_total] at hcov
      rw [hI.count_live] at hwalk
      refine ⟨_, fun _ => hwalk, ?_, ?_⟩
      · rw [atExit, hi, if_pos rfl, checkLeaks, hwalk]
        by_cases hlive : s.live = []
        · simp [hlive]
        · simp [hlive, List.length_pos_iff.mpr hlive]
      · rw [toNat_ofNat_small (by omega)]
        exact hI.size_bounds ht hi

/-- **The leak report is accurate** in every state of a disciplined run: it counts the allocations
not yet freed, is empty exactly when there are none, and its bytes are between what was requested
and that rounded up with 8 more for each. -/
theorem leak_report (hm : ZeroHeap A m) {ops : List Op}
    (h : Run (step A) Disciplined (start m) ops s) :
    (∃ bytes : UInt64,
      (s.heap.initialized = true →
        checkLeaksLoop A s.heap.mem loopBound A.bytes 0 0 = some (s.live.length, bytes)) ∧
      atExit A s.heap = some (if s.live = [] then "" else leakReport bytes s.live.length) ∧
      (s.live.map fun a => a.size.toNat).sum ≤ bytes.toNat ∧
      bytes.toNat ≤ (s.live.map fun a => roundUp8 a.size.toNat + 8).sum) ∧
    (atExit A s.heap = some "" ↔ s.live = []) := by
  obtain ⟨R, hI, ht⟩ := run_tight hm h
  obtain ⟨bytes, hwalk, hexit, hbounds⟩ := hI.report ht
  refine ⟨⟨bytes, hwalk, hexit, hbounds⟩, ?_⟩
  rw [hexit]
  by_cases hlive : s.live = []
  · simp [hlive]
  · simp [hlive, leakReport_ne_empty]

theorem leak_report_sample :
    atExit .sample ((Run.exec (step .sample) Disciplined (start fun _ => 0) sampleOps).get
      sampleOps_run).heap ≠ some "" := by
  intro h
  have hlive := (leak_report (fun _ _ _ => rfl) (Run.of_isSome sampleOps_run)).2.mp h
  exact absurd hlive (by decide +kernel)

end CS214.Malloc
