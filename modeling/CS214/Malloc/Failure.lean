import CS214.Malloc.Integrity

/-!
# Malloc — a `mymalloc` that fails

When the first `find_free` of a call fails, `coalesce` has nothing to merge, because no two free
chunks of a reachable heap are neighbours.  So the second `find_free` fails as the first did, and
the call returns the null pointer with the heap as it was (`mymalloc_leaves_heap`).  It fails
exactly when no run of free bytes, headers included, holds a header and the rounded request.
-/

namespace CS214.Malloc

variable {A : Arena} {m : ByteMemory} {h : Heap} {s : Client} {R : geometry.Region}

/-- `n` rounded up to a multiple of 8. -/
def roundUp8 (n : ℕ) : ℕ := (n + 7) / 8 * 8

/-- `x` is a byte of a free chunk, its header included. -/
def FreeByte (A : Arena) (m : ByteMemory) (x : ℕ) : Prop :=
  ∃ c ∈ chunks A m, isFree m c = true ∧ c.toNat ≤ x ∧ x < c.toNat + 8 + (chunkSize m c).toNat

/-- Some adjacent free bytes hold a header and `n` bytes. -/
def HasRoom (A : Arena) (m : ByteMemory) (n : ℕ) : Prop :=
  ∃ x, ∀ y, x ≤ y → y < x + (8 + n) → FreeByte A m y

/-! ### Free bytes -/

/-- The free bytes of the heap are those of the free blocks. -/
theorem freeByte_iff (hR : Headers A m 0 R.blocks) {x : ℕ} :
    FreeByte A m x ↔ ∃ k, x = A.bytes.toNat + k ∧ geometry.FreeByte 0 R.blocks k := by
  constructor
  · rintro ⟨c, hc, hfree, h₁, h₂⟩
    obtain ⟨o, b, hb, rfl⟩ := (mem_chunks hR).mp hc
    obtain ⟨hsize, hflag⟩ := chunk_spec hR hb
    have hbd := header_bounds hb
    rw [Arena.at_toNat (by omega)] at h₁ h₂
    rw [hsize] at h₂
    rw [hflag, Bool.not_eq_true'] at hfree
    refine ⟨x - A.bytes.toNat, by omega, o, b, hb, hfree, by omega, ?_⟩
    simp only [geometry_hdr]
    omega
  · rintro ⟨k, rfl, o, b, hb, hfree, h₁, h₂⟩
    obtain ⟨hsize, hflag⟩ := chunk_spec hR hb
    have hbd := header_bounds hb
    simp only [geometry_hdr] at h₂
    refine ⟨A.at o, (mem_chunks hR).mpr ⟨o, b, hb, rfl⟩, by rw [hflag, hfree]; rfl, ?_, ?_⟩
    · rw [Arena.at_toNat (by omega)]
      omega
    · rw [Arena.at_toNat (by omega), hsize]
      omega

/-- Adjacent free bytes belong to one free block, so there is room exactly when a block fits. -/
theorem hasRoom_iff (hR : Headers A m 0 R.blocks) {n : ℕ} :
    HasRoom A m n ↔ ∃ b ∈ R.blocks, Geometry.fits n b = true := by
  constructor
  · rintro ⟨x, hx⟩
    obtain ⟨k, rfl, -⟩ := (freeByte_iff hR).mp (hx x le_rfl (by omega))
    have hfree : ∀ y, k ≤ y → y < k + (8 + n) → geometry.FreeByte 0 R.blocks y := by
      intro y h₁ h₂
      obtain ⟨k', e, hy⟩ := (freeByte_iff hR).mp (hx (A.bytes.toNat + y) (by omega) (by omega))
      obtain rfl : y = k' := by omega
      exact hy
    obtain ⟨o, b, hb, hlive, h₁, h₂⟩ := R.separated.free_run (by omega) hfree
    simp only [geometry_hdr] at h₂
    exact ⟨b, Geometry.mem_of_mem_layout hb, Geometry.fits_iff.mpr ⟨hlive, by omega⟩⟩
  · rintro ⟨b, hb, hfit⟩
    obtain ⟨hlive, hle⟩ := Geometry.fits_iff.mp hfit
    obtain ⟨o, hb⟩ := Geometry.exists_mem_layout (G := geometry) 0 hb
    refine ⟨A.bytes.toNat + o, fun y h₁ h₂ => (freeByte_iff hR).mpr
      ⟨y - A.bytes.toNat, by omega, o, b, hb, hlive, by omega, ?_⟩⟩
    simp only [geometry_hdr]
    omega

/-! ### Failing calls -/

theorem not_fits_of_findFree {bs : List Block} (ht : Tiled A m 0 bs) {size : UInt64}
    (hnone : findFree A m size = some 0) : ∀ b ∈ bs, Geometry.fits size.toNat b = false := by
  cases ha : geometry.allocate size.toNat 0 bs with
  | none => exact Geometry.allocate_eq_none.mp ha
  | some r =>
      obtain ⟨o, cs⟩ := r
      obtain ⟨pre, b, post, rfl, hpre, hb, -, -⟩ := Geometry.allocate_some ha
      rw [findFree_spec ht hpre hb] at hnone
      have hends := ht.ends
      rw [Geometry.extent_append] at hends
      exact absurd (Option.some.inj hnone) (Arena.at_ne_zero (by omega))

/-- What a call whose first `find_free` fails does. -/
theorem first_fails (hR : Holds A h R) {size : UInt64} (hne : size ≠ 0)
    (hnone : findFree A (ready A h).mem ((size + 7) &&& ~~~7) = some 0) (file : String) (line : ℤ) :
    coalesce A (ready A h).mem = some (ready A h).mem ∧
      mymalloc A h size file line = .ret 0 (ready A h) (unableToAllocate size file line) := by
  have ht := tiled_region (ready_spec hR).headers
  exact ⟨coalesce_separated ht R.separated,
    mymalloc_fails hR hne (not_fits_of_findFree ht hnone) file line⟩

/-- A call returns the null pointer exactly when there is no room for its request. -/
theorem null_iff (hR : Holds A h R) {size : UInt64} (hne : size ≠ 0)
    (hs : size.toNat ≤ 2 ^ 64 - 8) (file : String) (line : ℤ) :
    (∃ h' err, mymalloc A h size file line = .ret 0 h' err) ↔
      ¬ HasRoom A (ready A h).mem (roundUp8 size.toNat) := by
  have hpos : 0 < size.toNat := Nat.pos_of_ne_zero fun e => hne (UInt64.toNat_inj.mp e)
  rw [hasRoom_iff (ready_spec hR).headers]
  rcases mymalloc_cases hR hs file line with
    ⟨err, hret, ha⟩ | ⟨hpos, o, R', h', ha, hret, -⟩
  · have hno := Geometry.Region.not_fits_of_allocate (ha hpos)
    refine iff_of_true ⟨_, err, hret⟩ ?_
    rintro ⟨b, hb, hfit⟩
    exact Bool.false_ne_true ((hno b hb).symm.trans hfit)
  · obtain ⟨g, -, hnew, -⟩ := allocate_live ha
    have hbd := header_bounds hnew
    refine iff_of_false ?_ (not_not.mpr (Geometry.Region.exists_fits_of_allocate ha))
    rintro ⟨h'', err, hret'⟩
    rw [hret] at hret'
    exact Arena.at_ne_zero (by omega) (Outcome.ret.inj hret').1

/-! ### Runs -/

/-- **A failing `mymalloc` leaves the heap as it was**, in every state of a disciplined run: when
the first `find_free` fails, `coalesce` changes nothing, the second `find_free` fails too and the
call returns the null pointer and the heap it was given; and a call fails only if no adjacent free
bytes hold a header and the rounded request. -/
theorem mymalloc_leaves_heap (hm : ZeroHeap A m) {ops : List Op}
    (hrun : Run (step A) Disciplined (start m) ops s) (size : UInt64) (hne : size ≠ 0)
    (hs : size.toNat ≤ 2 ^ 64 - 8) (file : String) (line : ℤ) :
    (findFree A (ready A s.heap).mem ((size + 7) &&& ~~~7) = some 0 →
      coalesce A (ready A s.heap).mem = some (ready A s.heap).mem ∧
      (∀ m', coalesce A (ready A s.heap).mem = some m' →
        findFree A m' ((size + 7) &&& ~~~7) = some 0) ∧
      mymalloc A s.heap size file line =
        .ret 0 (ready A s.heap) (unableToAllocate size file line)) ∧
    (s.heap.initialized = true → ready A s.heap = s.heap) ∧
    ((∃ h' err, mymalloc A s.heap size file line = .ret 0 h' err) ↔
      ¬ HasRoom A (ready A s.heap).mem (roundUp8 size.toNat)) := by
  obtain ⟨R, hI⟩ := run_inv hm hrun
  refine ⟨fun hnone => ?_, fun hi => if_pos hi, null_iff hI.holds hne hs file line⟩
  obtain ⟨hmerge, hret⟩ := first_fails hI.holds hne hnone file line
  refine ⟨hmerge, fun m' hm' => ?_, hret⟩
  rw [hmerge] at hm'
  obtain rfl := Option.some.inj hm'
  exact hnone

/-- Two allocations that fill the heap. -/
def fillOps : List Op :=
  [.malloc 2040 "client.c" 1, .malloc 2040 "client.c" 2, .write 65544 7]

theorem fillOps_run :
    (Run.exec (step .sample) Disciplined (start fun _ => 0) fillOps).isSome = true := by
  decide +kernel

theorem mymalloc_leaves_heap_sample :
    ¬ HasRoom .sample (ready .sample ((Run.exec (step .sample) Disciplined (start fun _ => 0)
      fillOps).get fillOps_run).heap).mem (roundUp8 (1 : UInt64).toNat) := by
  have h := mymalloc_leaves_heap (fun _ _ _ => rfl) (Run.of_isSome fillOps_run) 1
    (by decide) (by decide) "client.c" 3
  exact h.2.2.mp ⟨_, _, (h.1 (by decide +kernel)).2.2⟩

end CS214.Malloc
