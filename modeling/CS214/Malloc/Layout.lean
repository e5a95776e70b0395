import CS214.Malloc.Integrity

/-!
# Malloc — the layout forgets how it came about

The region a heap represents is determined by its live blocks, so what the walk over the headers
sees is determined by the live pointers and their chunk sizes (`Inv.seen_eq`).

* `Inv.frees`: live allocations can be freed in any order, and the blocks of the others stay.
* `layout_history_independent`: two disciplined runs that end with the same live chunks end with
  the same chunk list; the order of frees does not matter; and a heap without live allocations is
  one free chunk again, which serves every request up to its size.
-/

namespace CS214.Malloc

variable {A : Arena} {m m' : ByteMemory} {s s' : Client} {R R' : geometry.Region}

/-- The chunks the walk over the headers sees: address, size, and whether the chunk is free. -/
def seen (A : Arena) (m : ByteMemory) : List (UInt64 × UInt64 × Bool) :=
  (chunks A m).map fun c => (c, chunkSize m c, isFree m c)

/-- The payload address and the chunk size of every live allocation. -/
def liveChunks (s : Client) : List (UInt64 × UInt64) :=
  s.live.map fun a => (a.ptr, chunkSize s.heap.mem (a.ptr - headerSize))

/-! ### From the region to the chunks and back -/

theorem seen_region (hR : Headers A m 0 R.blocks) :
    seen A m = (geometry.layout 0 R.blocks).map fun c =>
      (A.at c.1, UInt64.ofNat c.2.size, !c.2.live) := by
  rw [seen, chunks, walk_region hR, List.map_map]
  refine List.map_congr_left ?_
  rintro ⟨o, b⟩ hb
  have hbd := header_bounds hb
  simp only [Function.comp, (chunk_spec hR hb).2]
  rw [chunkSize_of_word (hR o b hb) (by omega) hbd.2.2]

/-- The live chunks are the live blocks. -/
theorem Inv.mem_liveChunks (hI : Inv A s R) {o n : ℕ} (ho : o + 8 ≤ 4096) (hn : n ≤ 4096) :
    (A.at (o + 8), UInt64.ofNat n) ∈ liveChunks s ↔
      (o, ⟨n, true⟩) ∈ geometry.layout 0 R.blocks := by
  have size : ∀ {k}, (o, ⟨k, true⟩) ∈ geometry.layout 0 R.blocks →
      chunkSize s.heap.mem (A.at o) = UInt64.ofNat k := by
    intro k hl
    have hbd := header_bounds hl
    have hR := hI.holds.headers (hI.holds.initialized_of_live hl)
    exact chunkSize_of_word (hR o _ hl) (by omega) hbd.2.2
  rw [liveChunks, List.mem_map]
  constructor
  · rintro ⟨a, ha, e⟩
    obtain ⟨hp, hs⟩ := Prod.mk.inj e
    obtain ⟨k, hl⟩ := (hI.live_iff ho).mp ⟨a, ha, hp⟩
    have hbd := header_bounds hl
    simp only at hbd
    rw [hp, at_sub_header, size hl] at hs
    have := congrArg UInt64.toNat hs
    rw [toNat_ofNat_small (by omega), toNat_ofNat_small (by omega)] at this
    exact this ▸ hl
  · intro hl
    obtain ⟨a, ha, hp⟩ := hI.owned o n hl
    exact ⟨a, ha, by rw [hp, at_sub_header, size hl]⟩

/-- The chunk list is determined by the region. -/
theorem Inv.seen_eq (hI : Inv A s R) (hI' : Inv A s' R) :
    seen A (ready A s.heap).mem = seen A (ready A s'.heap).mem := by
  rw [seen_region (ready_spec hI.holds).headers, seen_region (ready_spec hI'.holds).headers]

/-- States with the same live chunks represent the same region. -/
theorem Inv.region_eq (hI : Inv A s R) (hI' : Inv A s' R')
    (hl : ∀ c, c ∈ liveChunks s ↔ c ∈ liveChunks s') : R = R' := by
  refine Geometry.Region.eq_of_live fun o n => ⟨fun h => ?_, fun h => ?_⟩
  · have hbd := header_bounds h
    simp only at hbd
    exact (hI'.mem_liveChunks (by omega) (by omega)).mp
      ((hl _).mp ((hI.mem_liveChunks (by omega) (by omega)).mpr h))
  · have hbd := header_bounds h
    simp only at hbd
    exact (hI.mem_liveChunks (by omega) (by omega)).mp
      ((hl _).mpr ((hI'.mem_liveChunks (by omega) (by omega)).mpr h))

/-- Without a live allocation the region is fresh. -/
theorem Inv.fresh_of_nil (hI : Inv A s R) (hs : s.live = []) :
    R = Geometry.Region.fresh geometry := by
  refine Geometry.Region.eq_fresh fun o n h => ?_
  obtain ⟨a, ha, -⟩ := hI.owned o n h
  rw [hs] at ha
  cases ha

/-! ### Freeing a set of allocations -/

/-- A call of `myfree` for each pointer, with the place it is called from. -/
def frees (ps : List (UInt64 × String × ℤ)) : List Op := ps.map fun c => .free c.1 c.2.1 c.2.2

/-- Live allocations can be freed in any order; the live blocks left are those of the others. -/
theorem Inv.frees (hI : Inv A s R) {ps : List (UInt64 × String × ℤ)}
    (hn : (ps.map Prod.fst).Nodup) (hl : ∀ p ∈ ps.map Prod.fst, ∃ a ∈ s.live, a.ptr = p) :
    ∃ s' R', Run (step A) Disciplined s (Malloc.frees ps) s' ∧ Inv A s' R' ∧
      ∀ o n, (o, ⟨n, true⟩) ∈ geometry.layout 0 R'.blocks ↔
        (o, ⟨n, true⟩) ∈ geometry.layout 0 R.blocks ∧ A.at (o + 8) ∉ ps.map Prod.fst := by
  induction ps generalizing s R with
  | nil => exact ⟨s, R, .nil s, hI, by simp⟩
  | cons c cs ih =>
      obtain ⟨p, file, line⟩ := c
      obtain ⟨hnot, hn⟩ := List.nodup_cons.mp hn
      obtain ⟨a, ha, hap⟩ := hl p List.mem_cons_self
      obtain ⟨o, n, hb, hp, -⟩ := hI.backed a ha
      have hbd := header_bounds hb
      obtain ⟨h', R₁, h₁, h₂, h₃⟩ := myfree_live hI.holds hb file line
      rw [← hp, hap] at h₁
      have hI₁ : Inv A (s.freed h' p) R₁ := by
        rw [← hap, hp]
        exact hI.free (by omega) h₂ h₃
      -- the other pointers of the list are still live
      have hl₁ : ∀ q ∈ cs.map Prod.fst, ∃ b ∈ (s.freed h' p).live, b.ptr = q := by
        intro q hq
        obtain ⟨b, hb, rfl⟩ := hl q (List.mem_cons_of_mem _ hq)
        refine ⟨b, List.mem_filter.mpr ⟨hb, ?_⟩, rfl⟩
        exact decide_eq_true fun e => hnot (e ▸ hq)
      obtain ⟨s', R', hrun, hI', hiff⟩ := ih hI₁ hn hl₁
      have hstep : step A s (.free p file line) = some (s.freed h' p) := by rw [step, h₁]
      refine ⟨s', R', .cons (.inr ⟨a, ha, hap⟩) hstep hrun, hI', fun o' n' => ?_⟩
      rw [hiff, release_live h₂, List.map_cons, List.mem_cons, not_or, and_assoc]
      refine and_congr_right fun hl' => and_congr_left fun _ => not_congr ?_
      have hbd' := header_bounds hl'
      rw [← hap, hp]
      exact ⟨fun e => by rw [e], fun e => by
        have := Arena.at_inj (by omega) (by omega) e
        omega⟩

/-! ### A heap without live allocations -/

theorem seen_fresh (hR : Headers A m 0 (Geometry.Region.fresh geometry).blocks) :
    seen A m = [(A.bytes, 4088, true)] := by
  rw [seen_region hR]
  simp only [Geometry.Region.fresh, geometry_total, geometry_hdr, Geometry.layout_cons,
    Geometry.layout_nil, List.map_cons, List.map_nil, Arena.at_zero, Bool.not_false]
  rfl

/-- The fresh region serves every request that fits into it. -/
theorem Inv.mymalloc_fresh (hI : Inv A s (Geometry.Region.fresh geometry)) {n : UInt64}
    (h₁ : 1 ≤ n.toNat) (h₂ : n.toNat ≤ 4088) (file : String) (line : ℤ) :
    ∃ p h' err, mymalloc A s.heap n file line = .ret p h' err ∧ p ≠ 0 := by
  cases ha : (Geometry.Region.fresh geometry).allocate (request n.toNat h₁) with
  | none =>
      have hno := Geometry.Region.not_fits_of_allocate ha ⟨4088, false⟩ List.mem_cons_self
      have hfit : Geometry.fits (request n.toNat h₁).size ⟨4088, false⟩ = true :=
        Geometry.fits_iff.mpr ⟨rfl, by simp only [request]; omega⟩
      rw [hfit] at hno
      cases hno
  | some r =>
      obtain ⟨o, R'⟩ := r
      obtain ⟨h', hret, -⟩ := mymalloc_some hI.holds (by omega) h₁ ha file line
      obtain ⟨g, -, hnew, -⟩ := allocate_live ha
      have hbd := header_bounds hnew
      exact ⟨_, h', "", hret, Arena.at_ne_zero (by omega)⟩

/-! ### Histories -/

/-- **The layout does not depend on its history.**  Two disciplined runs with the same live chunks
end with the same chunk list.  A set of live allocations can be freed in any order, with the same
chunk list as the result.  When nothing is live after the first `mymalloc`, the heap is one free
chunk of 4088 bytes, and every request of 1 to 4088 bytes succeeds.

The walks of the source run after the initialisation test (`ready`), which does nothing once a
`mymalloc` has been made. -/
theorem layout_history_independent (hm : ZeroHeap A m) {ops : List Op}
    (h : Run (step A) Disciplined (start m) ops s) :
    (∀ m' ops' s', ZeroHeap A m' → Run (step A) Disciplined (start m') ops' s' →
      (∀ c, c ∈ liveChunks s ↔ c ∈ liveChunks s') →
      seen A (ready A s.heap).mem = seen A (ready A s'.heap).mem) ∧
    (∀ ps qs : List (UInt64 × String × ℤ), (ps.map Prod.fst).Perm (qs.map Prod.fst) →
      (ps.map Prod.fst).Nodup → (∀ p ∈ ps.map Prod.fst, ∃ a ∈ s.live, a.ptr = p) →
      ∃ s₁ s₂, Run (step A) Disciplined s (frees ps) s₁ ∧
        Run (step A) Disciplined s (frees qs) s₂ ∧
        seen A (ready A s₁.heap).mem = seen A (ready A s₂.heap).mem) ∧
    ((∃ op ∈ ops, op.isMalloc = true) → s.live = [] →
      seen A s.heap.mem = [(A.bytes, 4088, true)] ∧
      ∀ (n : UInt64) (file : String) (line : ℤ), 1 ≤ n.toNat → n.toNat ≤ 4088 →
        ∃ p h' err, mymalloc A s.heap n file line = .ret p h' err ∧ p ≠ 0) := by
  obtain ⟨R, hI⟩ := run_inv hm h
  refine ⟨?_, ?_, ?_⟩
  · intro m' ops' s' hm' h' hl
    obtain ⟨R', hI'⟩ := run_inv hm' h'
    obtain rfl := hI.region_eq hI' hl
    exact hI.seen_eq hI'
  · intro ps qs hperm hn hl
    obtain ⟨s₁, R₁, hr₁, hI₁, hiff₁⟩ := hI.frees hn hl
    obtain ⟨s₂, R₂, hr₂, hI₂, hiff₂⟩ :=
      hI.frees (hperm.nodup_iff.mp hn) fun p hp => hl p (hperm.mem_iff.mpr hp)
    have hR : R₁ = R₂ := Geometry.Region.eq_of_live fun o n => by
      rw [hiff₁, hiff₂, hperm.mem_iff]
    subst hR
    exact ⟨s₁, s₂, hr₁, hr₂, hI₁.seen_eq hI₂⟩
  · intro hop hs
    obtain rfl := hI.fresh_of_nil hs
    refine ⟨seen_fresh (hI.holds.headers (run_initialized hm h hop)), ?_⟩
    intro n file line h₁ h₂
    exact hI.mymalloc_fresh h₁ h₂ file line

/-- Three allocations, the first two freed in the order they were made. -/
def splitOps : List Op :=
  [.malloc 24 "client.c" 1, .malloc 100 "client.c" 2, .malloc 8 "client.c" 3,
    .free 65544 "client.c" 4, .free 65576 "client.c" 5]

/-- One allocation in the place of the first two. -/
def wholeOps : List Op :=
  [.malloc 132 "client.c" 1, .malloc 8 "client.c" 2, .free 65544 "client.c" 3]

theorem splitOps_run :
    (Run.exec (step .sample) Disciplined (start fun _ => 0) splitOps).isSome = true := by
  decide +kernel

theorem wholeOps_run :
    (Run.exec (step .sample) Disciplined (start fun _ => 0) wholeOps).isSome = true := by
  decide +kernel

theorem layout_history_independent_sample :
    seen .sample (ready .sample ((Run.exec (step .sample) Disciplined (start fun _ => 0)
      splitOps).get splitOps_run).heap).mem =
    seen .sample (ready .sample ((Run.exec (step .sample) Disciplined (start fun _ => 0)
      wholeOps).get wholeOps_run).heap).mem := by
  refine (layout_history_independent (fun _ _ _ => rfl) (Run.of_isSome splitOps_run)).1 _ _ _
    (fun _ _ _ => rfl) (Run.of_isSome wholeOps_run) fun c => ?_
  rw [show liveChunks _ = [((65688 : UInt64), (8 : UInt64))] by decide +kernel,
    show liveChunks _ = [((65688 : UInt64), (8 : UInt64))] by decide +kernel]

end CS214.Malloc
