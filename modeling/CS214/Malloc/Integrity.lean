import CS214.Malloc.Client

/-!
# Malloc — the heap along every run

`heap_well_formed`: in every state a disciplined run reaches after its first `mymalloc`, the walk
over the headers ends at the end of the heap, and the chunks it meets are the ones the client
knows: multiples of 8, covering 4096 bytes, flagged exactly when live, no two free neighbours.

`live_data_intact`: a pointer `mymalloc` returns is aligned, inside the heap, and owns bytes that
no header and no other live allocation has; the calls keep the bytes of live allocations, so each
reads back what was written.
-/

namespace CS214.Malloc

variable {A : Arena} {m : ByteMemory} {s s' : Client} {R R' : geometry.Region}

/-! ### The walk over the headers -/

/-- The chunks met by `curr += HEADER_SIZE + chunk_size` from `curr` on, and where it stops. -/
def headerWalk (A : Arena) (m : ByteMemory) : ℕ → UInt64 → List UInt64 × UInt64
  | 0, curr => ([], curr)
  | n + 1, curr =>
    if curr < A.limit then
      let rest := headerWalk A m n (curr + headerSize + chunkSize m curr)
      (curr :: rest.1, rest.2)
    else ([], curr)

/-- The chunks of the heap. -/
def chunks (A : Arena) (m : ByteMemory) : List UInt64 := (headerWalk A m loopBound A.bytes).1

theorem headerWalk_eq {n off : ℕ} {bs : List Block} (h : Tiled A m off bs) (hn : bs.length < n) :
    headerWalk A m n (A.at off) =
      ((geometry.layout off bs).map fun c => A.at c.1, A.limit) := by
  induction bs generalizing n off with
  | nil =>
      obtain ⟨n, rfl⟩ := Nat.exists_eq_succ_of_ne_zero (by omega : n ≠ 0)
      rw [headerWalk, h.eq_limit, if_neg (UInt64.lt_irrefl _)]
      rfl
  | cons b bs ih =>
      obtain ⟨n, rfl⟩ := Nat.exists_eq_succ_of_ne_zero (by omega : n ≠ 0)
      simp only [List.length_cons] at hn
      rw [headerWalk, if_pos h.curr_lt, h.next_eq, ih h.tail (by omega)]
      rfl

theorem walk_region (hR : Headers A m 0 R.blocks) :
    headerWalk A m loopBound A.bytes =
      ((geometry.layout 0 R.blocks).map fun c => A.at c.1, A.limit) := by
  have ht := tiled_region hR
  have := ht.length_le
  rw [← Arena.at_zero]
  exact headerWalk_eq ht (by simp only [loopBound]; omega)

theorem mem_chunks (hR : Headers A m 0 R.blocks) {c : UInt64} :
    c ∈ chunks A m ↔ ∃ o b, (o, b) ∈ geometry.layout 0 R.blocks ∧ c = A.at o := by
  rw [chunks, walk_region hR, List.mem_map]
  exact ⟨fun ⟨⟨o, b⟩, hb, e⟩ => ⟨o, b, hb, e.symm⟩, fun ⟨o, b, hb, e⟩ => ⟨(o, b), hb, e.symm⟩⟩

/-- The header of a chunk of a region. -/
theorem chunk_spec (hR : Headers A m 0 R.blocks) {o : ℕ} {b : Block}
    (hb : (o, b) ∈ geometry.layout 0 R.blocks) :
    (chunkSize m (A.at o)).toNat = b.size ∧ isFree m (A.at o) = !b.live := by
  have hbd := header_bounds hb
  refine ⟨?_, isFree_of_word (hR o b hb) (by omega) hbd.2.2⟩
  rw [chunkSize_of_word (hR o b hb) (by omega) hbd.2.2, toNat_ofNat_small (by omega)]

/-- What the walk over the headers meets in a well-formed heap. -/
structure WellFormed (A : Arena) (s : Client) : Prop where
  ends : (headerWalk A s.heap.mem loopBound A.bytes).2 = A.limit
  sizes : ∀ c ∈ chunks A s.heap.mem,
    0 < (chunkSize s.heap.mem c).toNat ∧ 8 ∣ (chunkSize s.heap.mem c).toNat
  total : ((chunks A s.heap.mem).map fun c => 8 + (chunkSize s.heap.mem c).toNat).sum = 4096
  flags : ∀ c ∈ chunks A s.heap.mem,
    isFree s.heap.mem c = false ↔ ∃ a ∈ s.live, a.ptr = c + headerSize
  allocs : ∀ a ∈ s.live, a.ptr - headerSize ∈ chunks A s.heap.mem
  coalesced : (chunks A s.heap.mem).IsChain fun c d =>
    isFree s.heap.mem c = false ∨ isFree s.heap.mem d = false

theorem layout_total {m : ByteMemory} :
    ∀ {off : ℕ} {bs : List Block}, Headers A m off bs →
      (∀ o b, (o, b) ∈ geometry.layout off bs → (chunkSize m (A.at o)).toNat = b.size) →
      (((geometry.layout off bs).map fun c => A.at c.1).map fun c =>
        8 + (chunkSize m c).toNat).sum = geometry.extent bs
  | _, [], _, _ => rfl
  | off, b :: bs, h, hs => by
      have ih := layout_total (headers_cons.mp h).2 fun o c hc =>
        hs o c (List.mem_cons_of_mem _ hc)
      have hb := hs off b List.mem_cons_self
      simp only [Geometry.layout_cons, List.map_cons, List.sum_cons, Geometry.extent_cons,
        geometry_hdr, hb, ih]

theorem layout_chain :
    ∀ {off : ℕ} {bs : List Block}, Geometry.Separated bs →
      (∀ o b, (o, b) ∈ geometry.layout off bs → isFree m (A.at o) = !b.live) →
      ((geometry.layout off bs).map fun c => A.at c.1).IsChain fun c d =>
        isFree m c = false ∨ isFree m d = false
  | _, [], _, _ => List.isChain_nil
  | _, [_], _, _ => List.isChain_singleton _
  | off, b :: c :: bs, h, hf => by
      obtain ⟨hbc, hs⟩ := List.isChain_cons_cons.mp h
      have hb := hf off b List.mem_cons_self
      have hc := hf _ c (List.mem_cons_of_mem _ List.mem_cons_self)
      refine List.isChain_cons_cons.mpr ⟨?_, layout_chain hs fun o d hd =>
        hf o d (List.mem_cons_of_mem _ hd)⟩
      rcases hbc with hl | hl
      · exact .inl (by rw [hb, hl]; rfl)
      · exact .inr (hc.trans (by rw [hl]; rfl))

theorem Inv.wellFormed (hI : Inv A s R) (hi : s.heap.initialized = true) : WellFormed A s := by
  have hR := hI.holds.headers hi
  have hw := walk_region hR
  refine ⟨by rw [hw], ?_, ?_, ?_, ?_, ?_⟩
  · intro c hc
    obtain ⟨o, b, hb, rfl⟩ := (mem_chunks hR).mp hc
    rw [(chunk_spec hR hb).1]
    exact (header_bounds hb).2
  · simp only [chunks, hw]
    rw [layout_total hR fun o b hb => (chunk_spec hR hb).1]
    exact R.covers
  · intro c hc
    obtain ⟨o, b, hb, rfl⟩ := (mem_chunks hR).mp hc
    have hbd := header_bounds hb
    rw [(chunk_spec hR hb).2, Arena.at_header, hI.live_iff (by omega)]
    constructor
    · intro hl
      exact ⟨b.size, by rwa [show (⟨b.size, true⟩ : Block) = b by
        obtain ⟨n, l⟩ := b; simpa using hl.symm]⟩
    · rintro ⟨n, hn⟩
      rcases Geometry.layout_apart hb hn with ⟨-, rfl⟩ | h | h
      · rfl
      · simp only [geometry_hdr] at h; omega
      · simp only [geometry_hdr] at h; omega
  · intro a ha
    obtain ⟨o, n, hl, hp, -⟩ := hI.backed a ha
    exact (mem_chunks hR).mpr ⟨o, _, hl, by rw [hp, at_sub_header]⟩
  · simp only [chunks, hw]
    exact layout_chain R.separated fun o b hb => (chunk_spec hR hb).2

/-- **The heap is well formed** in every state a disciplined run reaches after its first
`mymalloc`, and every disciplined operation can be executed there. -/
theorem heap_well_formed (hm : ZeroHeap A m) {ops : List Op}
    (h : Run (step A) Disciplined (start m) ops s) (hop : ∃ op ∈ ops, op.isMalloc = true) :
    WellFormed A s ∧ ∀ op, Disciplined s op → ∃ s', step A s op = some s' := by
  obtain ⟨R, hI⟩ := run_inv hm h
  refine ⟨hI.wellFormed (run_initialized hm h hop), fun op hd => ?_⟩
  obtain ⟨s', R', hs, -⟩ := step_inv hI hd
  exact ⟨s', hs⟩

/-- A run that splits the heap, writes, frees and reuses the freed chunk. -/
def sampleOps : List Op :=
  [.malloc 24 "client.c" 1, .malloc 100 "client.c" 2, .write 65544 7, .free 65576 "client.c" 4,
    .malloc 1 "client.c" 5, .free 0 "client.c" 6]

theorem sampleOps_run :
    (Run.exec (step .sample) Disciplined (start fun _ => 0) sampleOps).isSome = true := by
  decide +kernel

theorem heap_well_formed_sample :
    WellFormed .sample
      ((Run.exec (step .sample) Disciplined (start fun _ => 0) sampleOps).get sampleOps_run) :=
  (heap_well_formed (fun _ _ _ => rfl) (Run.of_isSome sampleOps_run)
    ⟨.malloc 24 "client.c" 1, by simp [sampleOps], rfl⟩).1

/-! ### Where the live allocations lie -/

/-- The allocation is aligned, and each of its bytes is inside the heap, in no header, and in no
other allocation of `others`. -/
structure Placed (A : Arena) (m : ByteMemory) (others : List Alloc) (a : Alloc) : Prop where
  aligned : a.ptr.toNat % 8 = 0
  inside : ∀ x, a.Owns x → A.bytes.toNat ≤ x ∧ x < A.bytes.toNat + 4096
  noHeader : ∀ x, a.Owns x → ∀ c ∈ chunks A m, ¬ (c.toNat ≤ x ∧ x < c.toNat + 8)
  apart : ∀ x, a.Owns x → ∀ b ∈ others, ¬ b.Owns x

/-- In a state of a disciplined run every live allocation is placed apart from the others. -/
theorem Inv.placed (hI : Inv A s R) {a : Alloc} (ha : a ∈ s.live) {others : List Alloc}
    (ho : ∀ b ∈ others, b ∈ s.live ∧ b.ptr ≠ a.ptr) : Placed A s.heap.mem others a := by
  obtain ⟨o, n, hl, hp, hown⟩ := hI.owns_payload ha
  have hbd := header_bounds hl
  have hd := dvd_of_header hl
  simp only at hbd
  have hR := hI.holds.headers (hI.holds.initialized_of_live hl)
  refine ⟨?_, ?_, ?_, ?_⟩
  · have := A.aligned
    rw [hp, Arena.at_toNat (by omega)]
    omega
  · intro x hx
    have := hown x hx
    omega
  · intro x hx c hc hcx
    obtain ⟨o', b, hb, rfl⟩ := (mem_chunks hR).mp hc
    have hbd' := header_bounds hb
    rw [Arena.at_toNat (by omega)] at hcx
    exact hI.owns_not_headerByte ha hx ⟨o', b, hb, by omega, by omega⟩
  · intro x hx b hb
    exact hI.owns_disjoint ha (ho b hb).1 (fun e => (ho b hb).2 e.symm) hx

/-- **Live data is intact** in every state a disciplined run reaches: a pointer `mymalloc` returns
is placed apart from the headers and the other live allocations; a call changes no byte of a live
allocation it does not free; and a live allocation reads back what its owner last wrote. -/
theorem live_data_intact (hm : ZeroHeap A m) {ops : List Op}
    (h : Run (step A) Disciplined (start m) ops s) :
    (∀ n file line p h' err, n.toNat ≤ 2 ^ 64 - 8 → mymalloc A s.heap n file line = .ret p h' err →
      p ≠ 0 → Placed A h'.mem s.live ⟨p, n⟩) ∧
    (∀ op s', Disciplined s op → step A s op = some s' → (∀ x v, op ≠ .write x v) →
      ∀ a ∈ s.live, (∀ file line, op ≠ .free a.ptr file line) →
      ∀ x, a.Owns x → s'.heap.mem x = s.heap.mem x) ∧
    (∀ a ∈ s.live, ∀ x, a.Owns x → ∀ v, s.written x = some v → s.heap.mem x = v) := by
  obtain ⟨R, hI⟩ := run_inv hm h
  refine ⟨fun n file line p h' err hn hmal hp => ?_, fun op s' hd hs hw a ha hf x hx =>
    step_keeps hI hd hs hw ha hf hx, hI.intact⟩
  obtain ⟨p₁, h₁, err₁, R', hmal', -, hI', -, hnew⟩ := hI.mymalloc_ret hn file line
  rw [hmal] at hmal'
  cases hmal'
  rw [Client.allocated, if_neg hp] at hI'
  exact hI'.placed (a := ⟨p, n⟩) List.mem_cons_self fun b hb =>
    ⟨List.mem_cons_of_mem _ hb, hnew b hb hp⟩

theorem live_data_intact_sample :
    ((Run.exec (step .sample) Disciplined (start fun _ => 0) sampleOps).get sampleOps_run).heap.mem
      65544 = 7 := by
  refine (live_data_intact (fun _ _ _ => rfl) (Run.of_isSome sampleOps_run)).2.2
    ⟨65544, 24⟩ ?_ 65544 ?_ 7 ?_ <;> decide +kernel

end CS214.Malloc
