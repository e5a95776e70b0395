import CS214.Malloc.Integrity

/-!
# Malloc — `mymalloc` at every size

`(size + 7) & ~7` wraps to zero for the seven largest sizes, and `find_free(0)` finds any free
chunk.  `Serves` says what a call of `mymalloc` is for: it returns a chunk exactly when a free one
is large enough, the chunk is as large as the request, and the headers still tile the heap.

`mymalloc_serves_iff`: in every state of a run of calls that round without wrapping, or that find
no free chunk, a call serves its request exactly when it is such a call itself.
-/

namespace CS214.Malloc

variable {A : Arena} {m : ByteMemory} {h : Heap} {s s' : Client} {R R' : geometry.Region}

/-- The call of `mymalloc` with this size returned `p` and left `h'`, as it should. -/
structure Serves (A : Arena) (h : Heap) (size p : UInt64) (h' : Heap) : Prop where
  succeeds : p ≠ 0 ↔ 0 < size ∧
    ∃ c ∈ chunks A (ready A h).mem, isFree (ready A h).mem c = true ∧
      size ≤ chunkSize (ready A h).mem c
  granted : p ≠ 0 → p - headerSize ∈ chunks A h'.mem ∧ isFree h'.mem (p - headerSize) = false ∧
    size ≤ chunkSize h'.mem (p - headerSize)
  sizes : ∀ c ∈ chunks A h'.mem, chunkSize h'.mem c ≠ 0
  covers : (headerWalk A h'.mem loopBound A.bytes).2 = A.limit

/-- The size rounds without wrapping, or no chunk is free. -/
def InRange (A : Arena) (h : Heap) (size : UInt64) : Prop :=
  size.toNat ≤ 2 ^ 64 - 8 ∨
    ∀ c ∈ chunks A (ready A h).mem, isFree (ready A h).mem c = false

instance (A : Arena) (h : Heap) (size : UInt64) : Decidable (InRange A h size) :=
  inferInstanceAs (Decidable (_ ∨ _))

/-- The contract of an operation, with sizes that are in range. -/
def Ranged (A : Arena) (s : Client) : Op → Prop
  | .malloc n _ _ => InRange A s.heap n
  | op => Disciplined s op

instance (A : Arena) (s : Client) : (op : Op) → Decidable (Ranged A s op)
  | .malloc n _ _ => inferInstanceAs (Decidable (InRange A s.heap n))
  | .free p file line => inferInstanceAs (Decidable (Disciplined s (.free p file line)))
  | .write x v => inferInstanceAs (Decidable (Disciplined s (.write x v)))

/-! ### The walk over a region -/

theorem region_walk (hR : Headers A m 0 R.blocks) :
    (∀ c ∈ chunks A m, chunkSize m c ≠ 0) ∧ (headerWalk A m loopBound A.bytes).2 = A.limit := by
  refine ⟨fun c hc h₀ => ?_, by rw [walk_region hR]⟩
  obtain ⟨o, b, hb, rfl⟩ := (mem_chunks hR).mp hc
  have hsize := (chunk_spec hR hb).1
  rw [h₀] at hsize
  exact absurd (header_bounds hb).2.1 (by rw [← hsize]; exact Nat.lt_irrefl 0)

/-- The walk meets a free chunk of `n` bytes exactly when a block fits. -/
theorem exists_free_chunk (hR : Headers A m 0 R.blocks) {n : UInt64} :
    (∃ c ∈ chunks A m, isFree m c = true ∧ n ≤ chunkSize m c) ↔
      ∃ b ∈ R.blocks, Geometry.fits n.toNat b = true := by
  have hspec : ∀ {o b}, (o, b) ∈ geometry.layout 0 R.blocks →
      (isFree m (A.at o) = true ∧ n ≤ chunkSize m (A.at o) ↔
        Geometry.fits n.toNat b = true) := fun hb => by
    obtain ⟨hsize, hfree⟩ := chunk_spec hR hb
    rw [Geometry.fits_iff, hfree, UInt64.le_iff_toNat_le, hsize, Bool.not_eq_true']
  constructor
  · rintro ⟨c, hc, hfit⟩
    obtain ⟨o, b, hb, rfl⟩ := (mem_chunks hR).mp hc
    exact ⟨b, Geometry.mem_of_mem_layout hb, (hspec hb).mp hfit⟩
  · rintro ⟨b, hb, hfit⟩
    obtain ⟨o, hb⟩ := Geometry.exists_mem_layout (G := geometry) 0 hb
    exact ⟨_, (mem_chunks hR).mpr ⟨o, b, hb, rfl⟩, (hspec hb).mpr hfit⟩

/-- Block sizes are multiples of 8, so a block fits a size exactly when it fits the size rounded
up. -/
theorem fits_request {n : ℕ} (hn : 0 < n) {b : Block} (hb : b ∈ R.blocks) :
    Geometry.fits (request n hn).size b = Geometry.fits n b := by
  obtain ⟨-, k, hk⟩ := R.sized b hb
  rw [geometry_grain] at hk
  have hle : (request n hn).size ≤ b.size ↔ n ≤ b.size := by
    simp only [request]
    omega
  rw [Bool.eq_iff_iff, Geometry.fits_iff, Geometry.fits_iff, hle]

/-! ### Sizes in range -/

/-- A call that returns the null pointer and leaves the heap as the initialisation test does. -/
theorem Serves.null (hR : Holds A h R) {size : UInt64}
    (hno : 0 < size → ∀ b ∈ R.blocks, Geometry.fits size.toNat b = false) :
    Serves A h size 0 (ready A h) := by
  have hready := (ready_spec hR).headers
  refine ⟨iff_of_false (fun hne => hne rfl) ?_, fun hne => absurd rfl hne, (region_walk hready).1,
    (region_walk hready).2⟩
  rintro ⟨hpos, hex⟩
  obtain ⟨b, hb, hfit⟩ := (exists_free_chunk hready).mp hex
  rw [hno hpos b hb] at hfit
  cases hfit

theorem serves_of_le (hR : Holds A h R) {size : UInt64} (hs : size.toNat ≤ 2 ^ 64 - 8)
    (file : String) (line : ℤ) :
    ∃ p h' err, mymalloc A h size file line = .ret p h' err ∧ Serves A h size p h' := by
  rcases mymalloc_cases hR hs file line with
    ⟨err, hret, ha⟩ | ⟨hpos, o, R', h', ha, hret, hb⟩
  · refine ⟨0, _, err, hret, .null hR fun hlt b hb => ?_⟩
    have hpos : 0 < size.toNat := UInt64.lt_iff_toNat_lt.mp hlt
    have hno := Geometry.Region.not_fits_of_allocate (ha hpos)
    rw [← fits_request hpos hb]
    exact hno b hb
  · obtain ⟨g, hg, hnew, -⟩ := allocate_live ha
    have hbd := header_bounds hnew
    have hspec := chunk_spec hb.headers hnew
    have hne : A.at (o + 8) ≠ 0 := Arena.at_ne_zero (by omega)
    obtain ⟨b, hmem, hfit⟩ := Geometry.Region.exists_fits_of_allocate ha
    refine ⟨_, h', "", hret, iff_of_true hne ⟨UInt64.lt_iff_toNat_lt.mpr hpos, ?_⟩, fun _ => ?_,
      (region_walk hb.headers).1, (region_walk hb.headers).2⟩
    · refine (exists_free_chunk (ready_spec hR).headers).mpr ⟨b, hmem, ?_⟩
      rw [← fits_request hpos hmem]
      exact hfit
    · rw [at_sub_header, UInt64.le_iff_toNat_le, hspec.1]
      refine ⟨(mem_chunks hb.headers).mpr ⟨o, _, hnew, rfl⟩, hspec.2, ?_⟩
      have hround : size.toNat ≤ (request size.toNat hpos).size := by
        simp only [request]
        omega
      exact hround.trans hg.1

/-- A heap without a free chunk serves every size: the call fails. -/
theorem fails_of_full (hR : Holds A h R) {size : UInt64} (hne : size ≠ 0)
    (hfull : ∀ c ∈ chunks A (ready A h).mem, isFree (ready A h).mem c = false) (file : String)
    (line : ℤ) :
    mymalloc A h size file line = .ret 0 (ready A h) (unableToAllocate size file line) ∧
      Serves A h size 0 (ready A h) := by
  have hno : ∀ n : UInt64, ∀ b ∈ R.blocks, Geometry.fits n.toNat b = false := by
    intro n b hb
    by_contra hfit
    obtain ⟨c, hc, hfree, -⟩ := (exists_free_chunk (ready_spec hR).headers).mpr
      ⟨b, hb, eq_true_of_ne_false hfit⟩
    rw [hfull c hc] at hfree
    cases hfree
  exact ⟨mymalloc_fails hR hne (hno _) file line, .null hR fun _ => hno size⟩

/-! ### Sizes out of range -/

theorem aligned_wraps {size : UInt64} (hs : 2 ^ 64 - 8 < size.toNat) :
    (size + 7) &&& ~~~7 = 0 := by
  have hlt := size.toNat_lt
  have hseven : (7 : UInt64).toNat = 7 := rfl
  rw [← UInt64.toNat_inj, FlagWord.toNat_clear_seven, UInt64.toNat_add, hseven, UInt64.toNat_zero]
  omega

/-- A size that wraps gets the first free chunk there is, which is too small. -/
theorem not_serves_of_wraps (hR : Holds A h R) {size : UInt64} (hs : 2 ^ 64 - 8 < size.toNat)
    (hfree : ∃ c ∈ chunks A (ready A h).mem, isFree (ready A h).mem c = true) {p : UInt64}
    {h' : Heap} {err file : String} {line : ℤ}
    (hret : mymalloc A h size file line = .ret p h' err) : ¬ Serves A h size p h' := by
  intro hserves
  have hready := (ready_spec hR).headers
  have ht := tiled_region hready
  obtain ⟨c, hc, hcfree⟩ := hfree
  obtain ⟨b, hb, hfit⟩ := (exists_free_chunk (n := 0) hready).mp
    ⟨c, hc, hcfree, UInt64.zero_le⟩
  have hne : size ≠ 0 := by
    rintro rfl
    exact absurd hs (by decide)
  -- the first free chunk is found, whatever its size
  cases ha : geometry.allocate 0 0 R.blocks with
  | none =>
      have hno := Geometry.allocate_eq_none.mp ha b hb
      rw [UInt64.toNat_zero, hno] at hfit
      cases hfit
  | some r =>
      obtain ⟨o, cs⟩ := r
      obtain ⟨pre, d, post, e, hpre, hd, -, -⟩ := Geometry.allocate_some ha
      have hle : geometry.extent pre ≤ 4096 := by
        have hcov := R.covers
        rw [e, Geometry.extent_append, geometry_total] at hcov
        omega
      have hend : geometry.extent pre + 8 ≤ 4096 := by
        have hcov := R.covers
        rw [e, Geometry.extent_append, Geometry.extent_cons, geometry_total, geometry_hdr] at hcov
        omega
      have hfind : findFree A (ready A h).mem 0 = some (A.at (geometry.extent pre)) :=
        findFree_spec (e ▸ ht) hpre hd
      have hchunk : findChunk A (ready A h).mem ((size + 7) &&& ~~~7) =
          some (A.at (geometry.extent pre), (ready A h).mem) := by
        rw [aligned_wraps hs]
        simp [findChunk, hfind, Arena.at_ne_zero hle]
      simp only [mymalloc, hne, if_false, hchunk, Arena.at_ne_zero hle, Arena.at_header] at hret
      cases hret
      obtain ⟨-, hex⟩ := hserves.succeeds.mp (Arena.at_ne_zero hend)
      obtain ⟨b', hb', hfit'⟩ := (exists_free_chunk hready).mp hex
      obtain ⟨o', hb'⟩ := Geometry.exists_mem_layout (G := geometry) 0 hb'
      have hbd := header_bounds hb'
      have hle' := (Geometry.fits_iff.mp hfit').2
      omega

/-! ### Runs -/

/-- A failing call of any size keeps the invariant, and the allocations. -/
theorem Inv.full (hI : Inv A s R) {n : UInt64} (hne : n ≠ 0)
    (hfull : ∀ c ∈ chunks A (ready A s.heap).mem, isFree (ready A s.heap).mem c = false)
    (file : String) (line : ℤ) : ∃ s', step A s (.malloc n file line) = some s' ∧ Inv A s' R := by
  refine ⟨s.allocated (ready A s.heap) 0 n, ?_, ?_⟩
  · rw [step, (fails_of_full hI.holds hne hfull file line).1]
  · rw [Client.allocated, if_pos rfl]
    exact hI.same_live (ready_spec hI.holds)

theorem ranged_inv (hI : Inv A s R) {op : Op} (hd : Ranged A s op) (h : step A s op = some s') :
    ∃ R', Inv A s' R' := by
  by_cases hdisc : Disciplined s op
  · exact step_inv_of ⟨R, hI⟩ hdisc h
  · cases op with
    | malloc n file line =>
        have hlt : 2 ^ 64 - 8 < n.toNat := Nat.lt_of_not_le hdisc
        have hne : n ≠ 0 := by
          rintro rfl
          exact absurd hlt (by decide)
        obtain ⟨s₁, h₁, hI₁⟩ := hI.full hne (hd.resolve_left hdisc) file line
        rw [h₁] at h
        exact ⟨R, Option.some.inj h ▸ hI₁⟩
    | free p file line => exact absurd hd hdisc
    | write x v => exact absurd hd hdisc

/-- **`mymalloc` over the full range of `size_t`**: in every state of a run of calls in range, a
call returns, and serves its request exactly when it is in range too. -/
theorem mymalloc_serves_iff (hm : ZeroHeap A m) {ops : List Op}
    (h : Run (step A) (Ranged A) (start m) ops s) (size : UInt64) (file : String) (line : ℤ) :
    (∃ p h' err, mymalloc A s.heap size file line = .ret p h' err ∧ Serves A s.heap size p h') ↔
      InRange A s.heap size := by
  obtain ⟨R, hI⟩ : ∃ R, Inv A s R :=
    h.invariant (I := fun s => ∃ R, Inv A s R) (fun _ _ _ ⟨_, hI⟩ hd hs => ranged_inv hI hd hs)
      ⟨_, inv_start hm⟩
  constructor
  · rintro ⟨p, h', err, hret, hserves⟩
    by_contra hno
    obtain ⟨hs, hfree⟩ := not_or.mp hno
    refine not_serves_of_wraps hI.holds (Nat.lt_of_not_le hs) ?_ hret hserves
    by_contra hall
    exact hfree fun c hc => eq_false_of_ne_true fun hfree => hall ⟨c, hc, hfree⟩
  · rintro (hs | hfull)
    · exact serves_of_le hI.holds hs file line
    · by_cases h₀ : size = 0
      · subst h₀
        exact serves_of_le hI.holds (by decide) file line
      · obtain ⟨hret, hserves⟩ := fails_of_full hI.holds h₀ hfull file line
        exact ⟨_, _, _, hret, hserves⟩

theorem rangedOps_run :
    (Run.exec (step .sample) (Ranged .sample) (start fun _ => 0) sampleOps).isSome = true := by
  decide +kernel

theorem mymalloc_serves_sample :
    ∃ p h' err, mymalloc .sample ((Run.exec (step .sample) (Ranged .sample) (start fun _ => 0)
        sampleOps).get rangedOps_run).heap 100 "client.c" 7 = .ret p h' err ∧
      Serves .sample ((Run.exec (step .sample) (Ranged .sample) (start fun _ => 0)
        sampleOps).get rangedOps_run).heap 100 p h' :=
  (mymalloc_serves_iff (fun _ _ _ => rfl) (Run.of_isSome rangedOps_run) 100 "client.c" 7).mpr
    (.inl (by decide))

/-- `mymalloc(SIZE_MAX)` on a fresh heap. -/
theorem mymalloc_wraps : ¬ ∃ p h' err,
    mymalloc .sample (start fun _ => 0).heap 18446744073709551615 "client.c" 1 = .ret p h' err ∧
      Serves .sample (start fun _ => 0).heap 18446744073709551615 p h' := by
  rintro ⟨p, h', err, hret, hserves⟩
  have hfree : isFree (ready .sample (start fun _ => 0).heap).mem 65536 = true := by decide +kernel
  have hchunk : 65536 ∈ chunks .sample (ready .sample (start fun _ => 0).heap).mem := by
    decide +kernel
  exact not_serves_of_wraps (.zero fun _ _ _ => rfl) (by decide) ⟨65536, hchunk, hfree⟩ hret
    hserves

end CS214.Malloc
