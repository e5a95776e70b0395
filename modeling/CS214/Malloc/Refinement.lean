import CS214.Malloc.Client

/-!
# Malloc — the allocator as a list of blocks

`blockStep` is an allocator that knows nothing of headers: its state is a region, an
address-ordered list of blocks.  `mymalloc` takes the first free block that is large enough,
`myfree` frees the live block that starts at the pointer, and any other pointer ends the program
with status 2.  `callStep` is the code.

`calls_refine_blocks`: when no client writes into the heap, the two give the same answers to every
sequence of calls, whatever pointers are freed.  The simulation is `Clean`: the heap represents the
region and has no stray word, so a word that looks live is a live header.
-/

namespace CS214.Malloc

variable {A : Arena} {m : ByteMemory} {h : Heap} {R R' : geometry.Region}

/-- A call of the allocator, with the place it comes from. -/
inductive Call where
  | malloc (size : UInt64) (file : String) (line : ℤ)
  | free (p : UInt64) (file : String) (line : ℤ)

/-- What a call leads to: it returns, `myfree` without a value; the process ends; or it runs for
ever. -/
inductive Answer where
  | pointer (p : UInt64)
  | done
  | exited (status : ℕ)
  | hangs
deriving DecidableEq

/-- The sizes for which rounding up does not wrap. -/
def Call.SizeOk : Call → Prop
  | .malloc n _ _ => n.toNat ≤ 2 ^ 64 - 8
  | .free _ _ _ => True

/-- A call of the code. -/
def callStep (A : Arena) : Machine Heap Call Answer
  | h, .malloc n file line =>
    match mymalloc A h n file line with
    | .ret p h' _ => (.pointer p, some h')
    | .exit status _ _ => (.exited status, none)
    | .loops => (.hangs, none)
  | h, .free p file line =>
    match myfree A h p file line with
    | .ret _ h' _ => (.done, some h')
    | .exit status _ _ => (.exited status, none)
    | .loops => (.hangs, none)

/-- The block that serves a request of `n` bytes, and the region after it; none for no bytes. -/
def blockMalloc (R : geometry.Region) (n : ℕ) : Option (ℕ × geometry.Region) :=
  if hn : 0 < n then R.allocate (request n hn) else none

/-- The region after the live block whose payload starts at `p` is freed. -/
def blockFree (A : Arena) (R : geometry.Region) (p : UInt64) : Option geometry.Region :=
  if A.bytes.toNat + 8 ≤ p.toNat then R.release (p.toNat - (A.bytes.toNat + 8)) else none

/-- A call of the allocator on lists of blocks. -/
def blockStep (A : Arena) : Machine geometry.Region Call Answer
  | R, .malloc n _ _ =>
    match blockMalloc R n.toNat with
    | some (o, R') => (.pointer (A.at (o + 8)), some R')
    | none => (.pointer 0, some R)
  | R, .free p _ _ =>
    if p = 0 then (.done, some R)
    else
      match blockFree A R p with
      | some R' => (.done, some R')
      | none => (.exited 2, none)

/-- The heap represents the region, and only live headers have their low bit set. -/
structure Clean (A : Arena) (h : Heap) (R : geometry.Region) : Prop where
  holds : Holds A h R
  noStray : ∀ k, ¬ Stray A h.mem R.blocks k

theorem Clean.becomes (hc : Clean A h R) {h' : Heap} (hb : Becomes A h R h' R') :
    Clean A h' R' where
  holds := hb.holds
  noStray k hk := hc.noStray k (hb.stray k hk)

theorem clean_zero (hm : ZeroHeap A m) :
    Clean A ⟨m, false⟩ (Geometry.Region.fresh geometry) where
  holds := .zero hm
  noStray k hk := by
    have hf := hk.flagged
    have hlt := hk.lt
    have hd := hk.dvd
    rw [isFree, sizeAndFlag, Arena.at_toNat (by omega),
      ByteMemory.load64_zero fun x h₁ h₂ => hm x (by omega) (by omega)] at hf
    cases hf

/-- Releasing through a pointer is releasing the block before it. -/
theorem blockFree_at {o : ℕ} (ho : o + 8 ≤ 4096) :
    blockFree A R (A.at (o + 8)) = R.release o := by
  rw [blockFree, Arena.at_toNat ho, if_pos (by omega),
    show A.bytes.toNat + (o + 8) - (A.bytes.toNat + 8) = o by omega]

/-- Only a live block can be released. -/
theorem blockFree_some {p : UInt64} (hr : blockFree A R p = some R') :
    ∃ o n, (o, ⟨n, true⟩) ∈ geometry.layout 0 R.blocks ∧ p = A.at (o + 8) := by
  rw [blockFree] at hr
  split at hr
  · next hp =>
      obtain ⟨pre, ⟨n, l⟩, post, e, hl, ho, -⟩ :=
        Geometry.release_some R.separated (Geometry.Region.release_eq_some.mp hr)
      obtain rfl : l = true := hl
      have hmem : (p.toNat - (A.bytes.toNat + 8), (⟨n, true⟩ : Block)) ∈
          geometry.layout 0 R.blocks := by
        rw [ho, e]
        exact Geometry.mem_layout_mid 0 pre _ post
      have hb := header_bounds hmem
      refine ⟨_, n, hmem, ?_⟩
      rw [← UInt64.toNat_inj, Arena.at_toNat (by omega)]
      omega
  · cases hr

/-- The live blocks of a clean heap are what `myfree` accepts. -/
theorem Clean.accepted_iff (hc : Clean A h R) {p : UInt64} :
    Accepted A h.mem p ↔
      ∃ o n, (o, ⟨n, true⟩) ∈ geometry.layout 0 R.blocks ∧ p = A.at (o + 8) := by
  constructor
  · intro ha
    obtain ⟨k, rfl, -, ⟨n, hl⟩ | hs⟩ := accepted_cases (hc.holds.headers_of_accepted ha) ha
    · exact ⟨k, n, hl, rfl⟩
    · exact absurd hs (hc.noStray k)
  · rintro ⟨o, n, hl, rfl⟩
    exact accepted_live (hc.holds.headers (hc.holds.initialized_of_live hl)) hl

/-- No block is freed through a pointer that is not the payload of a live one. -/
theorem blockFree_none {p : UInt64}
    (hp : ¬ ∃ o n, (o, ⟨n, true⟩) ∈ geometry.layout 0 R.blocks ∧ p = A.at (o + 8)) :
    blockFree A R p = none := by
  cases hr : blockFree A R p with
  | none => rfl
  | some R' => exact absurd (blockFree_some hr) hp

/-! ### The simulation -/

theorem malloc_simulates (hc : Clean A h R) {n : UInt64} (hn : n.toNat ≤ 2 ^ 64 - 8)
    (file : String) (line : ℤ) :
    (callStep A h (.malloc n file line)).1 = (blockStep A R (.malloc n file line)).1 ∧
      Option.Rel (Clean A) (callStep A h (.malloc n file line)).2
        (blockStep A R (.malloc n file line)).2 := by
  by_cases hn₀ : n = 0
  · subst hn₀
    simp only [callStep, blockStep, mymalloc_zero]
    exact ⟨rfl, .some (hc.becomes (ready_spec hc.holds))⟩
  · have hpos : 0 < n.toNat := Nat.pos_of_ne_zero fun e => hn₀ (UInt64.toNat_inj.mp e)
    have hblock : blockMalloc R n.toNat = R.allocate (request n.toNat hpos) := dif_pos hpos
    cases ha : R.allocate (request n.toNat hpos) with
    | none =>
        simp only [callStep, blockStep, hblock, ha, mymalloc_none hc.holds hn hpos ha file line]
        exact ⟨trivial, .some (hc.becomes (ready_spec hc.holds))⟩
    | some r =>
        obtain ⟨o, R'⟩ := r
        obtain ⟨h', h₁, h₂⟩ := mymalloc_some hc.holds hn hpos ha file line
        simp only [callStep, blockStep, hblock, ha, h₁]
        exact ⟨trivial, .some (hc.becomes h₂)⟩

theorem free_simulates (hc : Clean A h R) (p : UInt64) (file : String) (line : ℤ) :
    (callStep A h (.free p file line)).1 = (blockStep A R (.free p file line)).1 ∧
      Option.Rel (Clean A) (callStep A h (.free p file line)).2
        (blockStep A R (.free p file line)).2 := by
  by_cases hp : p = 0
  · subst hp
    simp only [callStep, blockStep, myfree, if_true]
    exact ⟨trivial, .some hc⟩
  · by_cases hl : ∃ o n, (o, ⟨n, true⟩) ∈ geometry.layout 0 R.blocks ∧ p = A.at (o + 8)
    · obtain ⟨o, n, hl, rfl⟩ := hl
      have hb := header_bounds hl
      obtain ⟨h', R', h₁, h₂, h₃⟩ := myfree_live hc.holds hl file line
      simp only [callStep, blockStep, hp, if_false, blockFree_at (by omega : o + 8 ≤ 4096), h₁, h₂]
      exact ⟨trivial, .some (hc.becomes h₃)⟩
    · have hrej := myfree_rejected hp (mt hc.accepted_iff.mp hl) file line
      simp only [callStep, blockStep, hp, if_false, blockFree_none hl, hrej, inappropriate]
      exact ⟨trivial, .none⟩

theorem call_simulates : Machine.Simulates (callStep A) (blockStep A) Call.SizeOk (Clean A) := by
  rintro h R (⟨n, file, line⟩ | ⟨p, file, line⟩) hc hok
  · exact malloc_simulates hc hok file line
  · exact free_simulates hc p file line

/-- **Refinement.**  When the client writes nothing into the heap, every answer of the code is that
of the allocator on lists of blocks.  In particular, whatever calls were made before, a free of a
pointer that is not the payload of a live block ends the program with status 2. -/
theorem calls_refine_blocks (hm : ZeroHeap A m) {calls : List Call}
    (hs : ∀ c ∈ calls, c.SizeOk) :
    Machine.outputs (callStep A) ⟨m, false⟩ calls =
        Machine.outputs (blockStep A) (Geometry.Region.fresh geometry) calls ∧
      ∀ R, Machine.after (blockStep A) (Geometry.Region.fresh geometry) calls = some R →
        ∀ p file line, p ≠ 0 →
          (¬ ∃ o n, (o, ⟨n, true⟩) ∈ geometry.layout 0 R.blocks ∧ p = A.at (o + 8)) →
          Machine.outputs (callStep A) ⟨m, false⟩ (calls ++ [.free p file line]) =
            Machine.outputs (callStep A) ⟨m, false⟩ calls ++ [.exited 2] := by
  have heq : ∀ {cs : List Call}, (∀ c ∈ cs, c.SizeOk) →
      Machine.outputs (callStep A) ⟨m, false⟩ cs =
        Machine.outputs (blockStep A) (Geometry.Region.fresh geometry) cs := fun hcs =>
    Machine.outputs_eq call_simulates (clean_zero hm) hcs
  refine ⟨heq hs, fun R hR p file line hp hno => ?_⟩
  have hs' : ∀ c ∈ calls ++ [Call.free p file line], c.SizeOk := fun c hc => by
    rcases List.mem_append.mp hc with hc | hc
    · exact hs c hc
    · obtain rfl := List.mem_singleton.mp hc
      trivial
  rw [heq hs', heq hs, Machine.outputs_append hR]
  simp only [Machine.outputs, blockStep, if_neg hp, blockFree_none hno, Option.elim]

/-- Two allocations, a free, an allocation that reuses and splits the freed block, and the free of
an interior pointer. -/
def sampleCalls : List Call :=
  [.malloc 100 "client.c" 1, .malloc 8 "client.c" 2, .free 65544 "client.c" 3,
    .malloc 24 "client.c" 4, .free 65560 "client.c" 5]

theorem calls_refine_blocks_sample :
    Machine.outputs (callStep .sample) ⟨fun _ => 0, false⟩ sampleCalls =
      Machine.outputs (blockStep .sample) (Geometry.Region.fresh geometry) sampleCalls :=
  (calls_refine_blocks (fun _ _ _ => rfl) (by
    simp only [sampleCalls, List.forall_mem_cons, List.not_mem_nil, false_imp_iff, implies_true,
      and_true, Call.SizeOk, true_and]
    decide)).1

end CS214.Malloc
