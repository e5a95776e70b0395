import CS214.Malloc.Tiling

/-!
# Malloc — what the two calls do to a region

`Holds A h R`: the static state `h` represents the region `R`; before the first `mymalloc` it is
all zero and stands for the fresh region.  On such a state `mymalloc` is `Region.allocate`
(`mymalloc_none`, `mymalloc_some`) and `myfree` of a live payload is `Region.release`
(`myfree_live`).  Any other pointer is rejected, unless the word before it is a *stray* one: an
aligned word that is no header and has its low bit set (`myfree_rejected`).

`Becomes` says what else a call keeps: the bytes outside headers, and that it leaves no new stray
word.
-/

namespace CS214.Malloc

variable {A : Arena} {h : Heap} {R R' : geometry.Region}

/-- The static state represents the region. -/
inductive Holds (A : Arena) : Heap → geometry.Region → Prop where
  | zero {m : ByteMemory}
      (hz : ∀ x, A.bytes.toNat ≤ x → x < A.bytes.toNat + 4096 → m x = 0) :
      Holds A ⟨m, false⟩ (Geometry.Region.fresh geometry)
  | init {m : ByteMemory} {R : geometry.Region} (headers : Headers A m 0 R.blocks) :
      Holds A ⟨m, true⟩ R

theorem Holds.headers (hR : Holds A h R) (hi : h.initialized = true) :
    Headers A h.mem 0 R.blocks := by
  cases hR with
  | zero _ => cases hi
  | init hm => exact hm

/-- A region with a live block is not the fresh one. -/
theorem Holds.initialized_of_live (hR : Holds A h R) {o n : ℕ}
    (hl : (o, ⟨n, true⟩) ∈ geometry.layout 0 R.blocks) : h.initialized = true := by
  cases hR with
  | zero _ => simp [Geometry.Region.fresh] at hl
  | init _ => rfl

theorem tiled_region {m : ByteMemory} (hR : Headers A m 0 R.blocks) : Tiled A m 0 R.blocks where
  sized := R.sized
  ends := by have := R.covers; simp only [geometry_total] at this; omega
  headers := hR

/-- The word at `k` is aligned, is no header of `bs`, and has its low bit set. -/
structure Stray (A : Arena) (m : ByteMemory) (bs : List Block) (k : ℕ) : Prop where
  dvd : 8 ∣ k
  lt : k < 4096
  noHeader : ∀ b, (k, b) ∉ geometry.layout 0 bs
  flagged : isFree m (A.at k) = false

/-- The state `h'` a call leaves: initialised, representing `R'`, different from `h` in header
bytes only, and without a stray word that `h` does not have. -/
structure Becomes (A : Arena) (h : Heap) (R : geometry.Region) (h' : Heap) (R' : geometry.Region) :
    Prop where
  ready : h'.initialized = true
  headers : Headers A h'.mem 0 R'.blocks
  frame : ∀ x, ¬ HeaderByte A 0 R.blocks x → ¬ HeaderByte A 0 R'.blocks x → h'.mem x = h.mem x
  stray : ∀ k, Stray A h'.mem R'.blocks k → Stray A h.mem R.blocks k

theorem Becomes.holds {h' : Heap} (hb : Becomes A h R h' R') : Holds A h' R' := by
  obtain ⟨m', i⟩ := h'
  obtain rfl : i = true := hb.ready
  exact .init hb.headers

/-! ### Header offsets -/

theorem dvd_of_header {o : ℕ} {b : Block} (hb : (o, b) ∈ geometry.layout 0 R.blocks) : 8 ∣ o :=
  Geometry.dvd_of_mem_layout (G := geometry) (Nat.dvd_zero 8) (fun c hc => (R.sized c hc).2) hb

theorem header_bounds {o : ℕ} {b : Block} (hb : (o, b) ∈ geometry.layout 0 R.blocks) :
    o + 8 + b.size ≤ 4096 ∧ 0 < b.size ∧ 8 ∣ b.size := by
  have h₁ := (Geometry.layout_bounds hb).2
  have h₂ := R.sized b (Geometry.mem_of_mem_layout hb)
  have h₃ := R.covers
  simp only [geometry_hdr, geometry_total, geometry_grain] at h₁ h₂ h₃
  exact ⟨by omega, h₂⟩

/-- An aligned word that is no header of the region has no header byte. -/
theorem not_headerByte_of_word {k x : ℕ} (hk : 8 ∣ k)
    (hno : ∀ b, (k, b) ∉ geometry.layout 0 R.blocks) (h₁ : A.bytes.toNat + k ≤ x)
    (h₂ : x < A.bytes.toNat + k + 8) : ¬ HeaderByte A 0 R.blocks x := by
  rintro ⟨o, b, hb, h₃, h₄⟩
  have ho := dvd_of_header hb
  obtain rfl : o = k := by omega
  exact hno b hb

/-- A word whose bytes are kept is as free as it was. -/
theorem isFree_congr {m m' : ByteMemory} {k : ℕ} (hk : k ≤ 4096)
    (hm : ∀ x, A.bytes.toNat + k ≤ x → x < A.bytes.toNat + k + 8 → m' x = m x) :
    isFree m' (A.at k) = isFree m (A.at k) := by
  rw [isFree, isFree, sizeAndFlag_congr hk hm]

/-- Strays of a memory that changed in the headers of the region only, when the region has all the
headers it had. -/
theorem stray_of_frame {m m' : ByteMemory} {bs : List Block}
    (hm : ∀ x, ¬ HeaderByte A 0 R'.blocks x → m' x = m x)
    (hsub : ∀ o b, (o, b) ∈ geometry.layout 0 bs → ∃ c, (o, c) ∈ geometry.layout 0 R'.blocks)
    {k : ℕ} (hk : Stray A m' R'.blocks k) : Stray A m bs k where
  dvd := hk.dvd
  lt := hk.lt
  noHeader b hb := by
    obtain ⟨c, hc⟩ := hsub k b hb
    exact hk.noHeader c hc
  flagged := by
    have := hk.lt
    rw [← isFree_congr (by omega) fun x h₁ h₂ =>
      hm x (not_headerByte_of_word hk.dvd hk.noHeader h₁ h₂)]
    exact hk.flagged

/-! ### Initialisation -/

theorem initHeap_headers :
    Headers A (initHeap A h).mem 0 (Geometry.Region.fresh geometry).blocks := by
  have e : (memLength - headerSize) &&& ~~~1 = word ⟨4088, false⟩ := by decide
  refine headers_cons.mpr ⟨?_, headers_nil _⟩
  rw [initHeap, e, Arena.at_zero]
  exact sizeAndFlag_set_self

/-- The state after the initialisation test. -/
theorem ready_spec (hR : Holds A h R) : Becomes A h R (ready A h) R := by
  cases hR with
  | @zero m hz =>
      have frame : ∀ x, ¬ HeaderByte A 0 (Geometry.Region.fresh geometry).blocks x →
          (initHeap A ⟨m, false⟩).mem x = m x := fun x hx => by
        rw [initHeap, ← Arena.at_zero]
        refine setSizeAndFlag_apart (Nat.zero_le _) ?_
        by_contra hno
        exact hx (headerByte_cons.mpr (.inl ⟨by omega, by omega⟩))
      exact ⟨rfl, initHeap_headers, fun x hx _ => frame x hx,
        fun k hk => stray_of_frame frame (fun o b hb => ⟨b, hb⟩) hk⟩
  | init hR => exact ⟨rfl, hR, fun _ _ _ => rfl, fun _ hk => hk⟩

/-! ### `mymalloc` -/

/-- `(size + 7) & ~7`, for a size that does not wrap. -/
theorem aligned_toNat {size : UInt64} (hs : size.toNat ≤ 2 ^ 64 - 8) :
    ((size + 7) &&& ~~~7).toNat = (size.toNat + 7) / 8 * 8 := by
  rw [FlagWord.toNat_clear_seven, UInt64.toNat_add]
  have : (7 : UInt64).toNat = 7 := rfl
  omega

/-- The request of a call: its size rounded up to the grain. -/
def request (n : ℕ) (h : 0 < n) : geometry.Request where
  size := (n + 7) / 8 * 8
  pos := by omega
  dvd := Nat.dvd_mul_left 8 _

theorem ne_zero_of_toNat_pos {w : UInt64} (h : 0 < w.toNat) : w ≠ 0 := by
  rintro rfl
  exact Nat.lt_irrefl 0 h

theorem mymalloc_zero (file : String) (line : ℤ) :
    mymalloc A h 0 file line = .ret 0 (ready A h) "" := by
  simp [mymalloc]

/-- No free chunk is large enough: the fallback `coalesce` finds nothing to merge, the second
`find_free` fails as the first did, and the call returns the null pointer. -/
theorem mymalloc_fails {size : UInt64} (hR : Holds A h R) (hne : size ≠ 0)
    (hno : ∀ b ∈ R.blocks, Geometry.fits ((size + 7) &&& ~~~7).toNat b = false) (file : String)
    (line : ℤ) :
    mymalloc A h size file line = .ret 0 (ready A h) (unableToAllocate size file line) := by
  have ht := tiled_region (ready_spec hR).headers
  have hchunk : findChunk A (ready A h).mem ((size + 7) &&& ~~~7) = some (0, (ready A h).mem) := by
    simp [findChunk, findFree_none ht hno, coalesce_separated ht R.separated]
  simp only [mymalloc, hne, if_false, hchunk, if_true]

theorem mymalloc_none {size : UInt64} (hR : Holds A h R) (hs : size.toNat ≤ 2 ^ 64 - 8)
    (hpos : 0 < size.toNat) (hno : R.allocate (request size.toNat hpos) = none) (file : String)
    (line : ℤ) :
    mymalloc A h size file line = .ret 0 (ready A h) (unableToAllocate size file line) := by
  have hreq : (request size.toNat hpos).size = ((size + 7) &&& ~~~7).toNat :=
    (aligned_toNat hs).symm
  have hfit : ∀ b ∈ R.blocks, Geometry.fits ((size + 7) &&& ~~~7).toNat b = false := by
    rw [← hreq]
    exact Geometry.Region.not_fits_of_allocate hno
  exact mymalloc_fails hR (ne_zero_of_toNat_pos hpos) hfit file line

/-- First fit finds a chunk: the call returns its payload, and the chunk is carved. -/
theorem mymalloc_some {size : UInt64} {o : ℕ} (hR : Holds A h R)
    (hs : size.toNat ≤ 2 ^ 64 - 8) (hpos : 0 < size.toNat)
    (hyes : R.allocate (request size.toNat hpos) = some (o, R')) (file : String) (line : ℤ) :
    ∃ h', mymalloc A h size file line = .ret (A.at (o + 8)) h' "" ∧ Becomes A h R h' R' := by
  have hready := ready_spec hR
  have ht := tiled_region hready.headers
  have hreq : (request size.toNat hpos).size = ((size + 7) &&& ~~~7).toNat :=
    (aligned_toNat hs).symm
  have hdvd : 8 ∣ ((size + 7) &&& ~~~7).toNat := by
    rw [← hreq]; exact (request size.toNat hpos).dvd
  have hpos' : 0 < ((size + 7) &&& ~~~7).toNat := by
    rw [← hreq]; exact (request size.toNat hpos).pos
  obtain ⟨pre, b, post, e, hpre, hb, ho, e'⟩ :=
    Geometry.allocate_some (Geometry.Region.allocate_eq_some.mp hyes)
  rw [hreq] at hpre hb e'
  rw [Nat.zero_add] at ho
  subst ho
  rw [e] at ht
  have htake := ht.take hb hpos' hdvd
  rw [← e'] at htake
  have hle : geometry.extent pre ≤ 4096 := by
    have := R.covers
    rw [e, Geometry.extent_append, geometry_total] at this
    omega
  have hchunk : findChunk A (ready A h).mem ((size + 7) &&& ~~~7) =
      some (A.at (geometry.extent pre), (ready A h).mem) := by
    simp [findChunk, findFree_spec ht hpre hb, Arena.at_ne_zero hle]
  refine ⟨⟨take (ready A h).mem (A.at (geometry.extent pre)) ((size + 7) &&& ~~~7),
    (ready A h).initialized⟩, ?_, ⟨hready.ready, htake.1.headers, ?_,
    ?_⟩⟩
  · simp only [mymalloc, ne_zero_of_toNat_pos hpos, if_false, hchunk, Arena.at_ne_zero hle,
      Arena.at_header]
  · intro x hx hx'
    exact (htake.2 x hx').trans (hready.frame x hx hx)
  · intro k hk
    refine hready.stray k (stray_of_frame htake.2 (fun o c hc => ?_) hk)
    rw [e] at hc
    rw [e']
    exact Geometry.header_carve hc

/-- The outcomes of a call whose size does not wrap: the null pointer, with nothing changed but the
initialisation, or the payload of a chunk that is carved. -/
theorem mymalloc_cases {size : UInt64} (hR : Holds A h R) (hs : size.toNat ≤ 2 ^ 64 - 8)
    (file : String) (line : ℤ) :
    (∃ err, mymalloc A h size file line = .ret 0 (ready A h) err ∧
      ∀ hpos, R.allocate (request size.toNat hpos) = none) ∨
    ∃ hpos o R' h', R.allocate (request size.toNat hpos) = some (o, R') ∧
      mymalloc A h size file line = .ret (A.at (o + 8)) h' "" ∧ Becomes A h R h' R' := by
  by_cases h₀ : size = 0
  · subst h₀
    exact .inl ⟨_, mymalloc_zero file line, fun hpos => absurd hpos (Nat.lt_irrefl 0)⟩
  have hpos : 0 < size.toNat := Nat.pos_of_ne_zero fun e => h₀ (UInt64.toNat_inj.mp e)
  cases ha : R.allocate (request size.toNat hpos) with
  | none => exact .inl ⟨_, mymalloc_none hR hs hpos ha file line, fun _ => ha⟩
  | some r =>
      obtain ⟨o, R'⟩ := r
      obtain ⟨h', hret, hb⟩ := mymalloc_some hR hs hpos ha file line
      exact .inr ⟨hpos, o, R', h', ha, hret, hb⟩

/-! ### `myfree` -/

theorem validPtr_iff {p : UInt64} :
    validPtr A p = true ↔ ∃ k, 8 ∣ k ∧ k < 4096 ∧ p = A.at k := by
  have hal := A.aligned
  have hmod : p % 8 ≠ 0 ↔ p.toNat % 8 ≠ 0 := by
    rw [ne_eq, ← UInt64.toNat_inj, UInt64.toNat_mod]; rfl
  have hlim : A.limit.toNat = A.bytes.toNat + 4096 := Arena.at_toNat (le_refl 4096)
  simp only [validPtr, UInt64.lt_iff_toNat_lt, UInt64.le_iff_toNat_le, hlim, hmod]
  constructor
  · intro h
    have h₁ : A.bytes.toNat ≤ p.toNat ∧ p.toNat < A.bytes.toNat + 4096 ∧ p.toNat % 8 = 0 := by
      split at h
      · cases h
      · split at h
        · cases h
        · omega
    refine ⟨p.toNat - A.bytes.toNat, by omega, by omega, ?_⟩
    rw [← UInt64.toNat_inj, Arena.at_toNat (by omega)]
    omega
  · rintro ⟨k, h₁, h₂, rfl⟩
    rw [Arena.at_toNat (by omega), if_neg (by omega), if_neg (by omega)]

theorem at_sub_header {k : ℕ} : A.at (k + 8) - headerSize = A.at k := by
  rw [← Arena.at_header, UInt64.add_sub_cancel]

/-- The word passes the last test of `myfree`: its size part is not zero, and a chunk of that size
does not reach past the end of the heap. -/
def Plausible (A : Arena) (m : ByteMemory) (chunk : UInt64) : Prop :=
  ¬ (chunkSize m chunk = 0 ∨ A.limit < chunk + headerSize + chunkSize m chunk)

instance (m : ByteMemory) (chunk : UInt64) : Decidable (Plausible A m chunk) :=
  inferInstanceAs (Decidable (¬ _))

/-- The pointer passes every test of `myfree`. -/
def Accepted (A : Arena) (m : ByteMemory) (p : UInt64) : Prop :=
  validPtr A p = true ∧ validPtr A (p - headerSize) = true ∧ isFree m (p - headerSize) = false ∧
    Plausible A m (p - headerSize)

instance (m : ByteMemory) (p : UInt64) : Decidable (Accepted A m p) :=
  inferInstanceAs (Decidable (_ ∧ _))

theorem myfree_rejected {p : UInt64} (hp : p ≠ 0) (ha : ¬ Accepted A h.mem p) (file : String)
    (line : ℤ) : myfree A h p file line = inappropriate h file line := by
  unfold myfree
  rw [if_neg hp]
  cases h₁ : validPtr A p with
  | false => rfl
  | true =>
      cases h₂ : validPtr A (p - headerSize) with
      | false => simp [h₂]
      | true =>
          cases h₃ : isFree h.mem (p - headerSize) with
          | true => simp [h₂, h₃]
          | false =>
              have h₄ : ¬ Plausible A h.mem (p - headerSize) := fun h₄ => ha ⟨h₁, h₂, h₃, h₄⟩
              simp only [h₂, h₃, Bool.not_true, Bool.false_eq_true, if_false]
              exact if_pos (not_not.mp h₄)

theorem myfree_accepted {p : UInt64} {file : String} {line : ℤ} (ha : Accepted A h.mem p) :
    myfree A h p file line =
      (coalesce A (markFree h.mem (p - headerSize))).elim .loops
        fun m => .ret () { h with mem := m } "" := by
  obtain ⟨h₁, h₂, h₃, h₄⟩ := ha
  have hp : p ≠ 0 := by
    obtain ⟨k, -, hk, rfl⟩ := validPtr_iff.mp h₁
    exact Arena.at_ne_zero (by omega)
  unfold myfree
  rw [if_neg hp]
  simp only [h₁, h₂, h₃, Bool.not_true, Bool.false_eq_true, if_false]
  exact if_neg h₄

/-- The payload of a live block passes the tests. -/
theorem accepted_live {m : ByteMemory} {o n : ℕ} (hm : Headers A m 0 R.blocks)
    (hl : (o, ⟨n, true⟩) ∈ geometry.layout 0 R.blocks) : Accepted A m (A.at (o + 8)) := by
  have hb := header_bounds hl
  have ho := dvd_of_header hl
  simp only at hb
  have hw : sizeAndFlag m (A.at o) = word ⟨n, true⟩ := hm o _ hl
  have hs : chunkSize m (A.at o) = UInt64.ofNat n :=
    chunkSize_of_word hw (by simp only; omega) hb.2.2
  have hf : isFree m (A.at o) = !true := isFree_of_word hw (by simp only; omega) hb.2.2
  rw [Accepted, at_sub_header]
  refine ⟨validPtr_iff.mpr ⟨o + 8, by omega, by omega, rfl⟩,
    validPtr_iff.mpr ⟨o, ho, by omega, rfl⟩, hf, ?_⟩
  rw [Plausible, hs, Arena.at_header, Arena.at_add, Arena.limit_eq,
    Arena.at_lt (le_refl _) (by omega), ← UInt64.toNat_inj, toNat_ofNat_small (by omega),
    UInt64.toNat_zero]
  omega

/-- A pointer that passes the tests is the payload of a live block, or comes after a stray
word. -/
theorem accepted_cases {m : ByteMemory} {p : UInt64} (hm : Headers A m 0 R.blocks)
    (ha : Accepted A m p) :
    ∃ k, p = A.at (k + 8) ∧ k + 8 < 4096 ∧
      ((∃ n, (k, ⟨n, true⟩) ∈ geometry.layout 0 R.blocks) ∨ Stray A m R.blocks k) := by
  obtain ⟨h₁, h₂, h₃, -⟩ := ha
  obtain ⟨j, -, hj, hp⟩ := validPtr_iff.mp h₁
  obtain ⟨k, hk₈, hk, hp'⟩ := validPtr_iff.mp h₂
  have hpk : p = A.at (k + 8) := by
    rw [← Arena.at_header, ← hp', UInt64.sub_add_cancel]
  have hjk : j = k + 8 := Arena.at_inj (by omega) (by omega) (hp.symm.trans hpk)
  refine ⟨k, hpk, by omega, ?_⟩
  rw [hp'] at h₃
  by_cases hno : ∃ b, (k, b) ∈ geometry.layout 0 R.blocks
  · obtain ⟨⟨n, l⟩, hb⟩ := hno
    have hbd := header_bounds hb
    simp only at hbd
    have hf : isFree m (A.at k) = !l :=
      isFree_of_word (hm k _ hb) (by simp only; omega) hbd.2.2
    obtain rfl : l = true := by simpa [hf] using h₃
    exact .inl ⟨n, hb⟩
  · exact .inr ⟨hk₈, hk, not_exists.mp hno, h₃⟩

/-- A pointer is accepted in an initialised heap only. -/
theorem Holds.headers_of_accepted {h : Heap} {p : UInt64} (hR : Holds A h R)
    (ha : Accepted A h.mem p) : Headers A h.mem 0 R.blocks := by
  cases hR with
  | init hm => exact hm
  | @zero m hz =>
      obtain ⟨k, hk₈, hk, hp⟩ := validPtr_iff.mp ha.2.1
      have hf := ha.2.2.1
      rw [hp, isFree, sizeAndFlag, Arena.at_toNat (by omega),
        ByteMemory.load64_zero fun x h₁ h₂ => hz x (by omega) (by omega)] at hf
      cases hf

/-- The tiling after the flag of a live chunk is cleared. -/
theorem Tiled.markFree {m : ByteMemory} {pre post : List Block} {n : ℕ}
    (h : Tiled A m 0 (pre ++ ⟨n, true⟩ :: post)) :
    Tiled A (markFree m (A.at (geometry.extent pre))) 0 (pre ++ ⟨n, false⟩ :: post) ∧
      ∀ x, (x < A.bytes.toNat + geometry.extent pre ∨ A.bytes.toNat + geometry.extent pre + 8 ≤ x) →
        Malloc.markFree m (A.at (geometry.extent pre)) x = m x := by
  have hn := h.sized ⟨n, true⟩ (by simp)
  have hends := h.ends
  simp only [Geometry.extent_append, Geometry.extent_cons, geometry_hdr, Nat.zero_add] at hends hn
  obtain ⟨hpre, hrest⟩ := headers_append.mp h.headers
  obtain ⟨hw, hpost⟩ := headers_cons.mp hrest
  rw [Nat.zero_add] at hw hpost
  have hkeep : ∀ x, (x < A.bytes.toNat + geometry.extent pre ∨
      A.bytes.toNat + geometry.extent pre + 8 ≤ x) →
      Malloc.markFree m (A.at (geometry.extent pre)) x = m x := fun x hx =>
    setSizeAndFlag_apart (by omega) hx
  refine ⟨⟨?_, ?_, headers_append.mpr ⟨hpre.frame (by omega) fun x hx => hkeep x ?_,
    headers_cons.mpr ⟨?_, ?_⟩⟩⟩, hkeep⟩
  · intro c hc
    rcases List.mem_append.mp hc with hc | hc
    · exact h.sized c (List.mem_append_left _ hc)
    · rcases List.mem_cons.mp hc with rfl | hc
      · exact hn
      · exact h.sized c (List.mem_append_right _ (List.mem_cons_of_mem _ hc))
  · simp only [Geometry.extent_append, Geometry.extent_cons, geometry_hdr]
    omega
  · have := hx.bounds
    omega
  · rw [Nat.zero_add, Malloc.markFree, sizeAndFlag_set_self, hw]
    exact word_clear_flag (by omega) hn.2
  · rw [Nat.zero_add]
    refine hpost.frame (by simp only; omega) fun x hx => hkeep x ?_
    have := hx.bounds
    simp only at this
    omega

/-- A stray word after `coalesce` was one before: the headers it removes are those of free
chunks. -/
theorem stray_of_coalesce {m m' : ByteMemory} {bs : List Block} (ht : Tiled A m 0 bs)
    (e : R'.blocks = geometry.merge bs)
    (hm : ∀ x, ¬ HeaderByte A 0 (geometry.merge bs) x → m' x = m x) {k : ℕ}
    (hk : Stray A m' R'.blocks k) : Stray A m bs k := by
  have hlt := hk.lt
  have hflag : isFree m (A.at k) = false := by
    rw [← hk.flagged]
    refine (isFree_congr (by omega) fun x h₁ h₂ => hm x ?_).symm
    rw [← e]
    exact not_headerByte_of_word hk.dvd hk.noHeader h₁ h₂
  refine ⟨hk.dvd, hlt, fun b hb => ?_, hflag⟩
  have hs := ht.sized b (Geometry.mem_of_mem_layout hb)
  have hends := ht.ends
  have hbd := (Geometry.layout_bounds hb).2
  simp only [geometry_hdr] at hbd
  have hfree : isFree m (A.at k) = !b.live :=
    isFree_of_word (ht.headers k b hb) (by omega) hs.2
  have hl : b.live = true := by simpa [hfree] using hflag
  refine hk.noHeader b ?_
  rw [e]
  exact (Geometry.live_layout_merge hl).mpr hb

/-- `myfree` of the payload of a live block releases the block. -/
theorem myfree_live {o n : ℕ} (hR : Holds A h R)
    (hl : (o, ⟨n, true⟩) ∈ geometry.layout 0 R.blocks) (file : String) (line : ℤ) :
    ∃ h' R', myfree A h (A.at (o + 8)) file line = .ret () h' "" ∧ R.release o = some R' ∧
      Becomes A h R h' R' := by
  cases hR with
  | zero hz => simp [Geometry.Region.fresh] at hl
  | @init m R hm =>
      obtain ⟨pre, post, e, ho⟩ := Geometry.layout_split hl
      rw [Nat.zero_add] at ho
      subst ho
      have hs := R.separated
      rw [e] at hs
      have hrel := Geometry.release_eq_merge (G := geometry) 0 (b := ⟨n, true⟩) rfl hs
      rw [Nat.zero_add, ← e] at hrel
      obtain ⟨R', hR'⟩ : ∃ R', R.release (geometry.extent pre) = some R' := by
        cases hr : R.release (geometry.extent pre) with
        | some R' => exact ⟨R', rfl⟩
        | none => rw [Geometry.Region.release_eq_none.mp hr] at hrel; cases hrel
      have e' : R'.blocks = geometry.merge (pre ++ ⟨n, false⟩ :: post) := by
        rw [Geometry.Region.release_eq_some.mp hR'] at hrel
        exact Option.some.inj hrel
      have ht := tiled_region hm
      rw [e] at ht
      obtain ⟨ht', hkeep⟩ := ht.markFree
      obtain ⟨m', h₁, h₂, h₃⟩ := coalesce_spec ht'
      refine ⟨⟨m', true⟩, R', ?_, hR', ⟨rfl, e' ▸ h₂.headers, ?_, ?_⟩⟩
      · rw [myfree_accepted (h := ⟨m, true⟩) (accepted_live hm hl), at_sub_header, h₁]
        rfl
      · intro x hx hx'
        refine (h₃ x (e' ▸ hx')).trans (hkeep x ?_)
        by_contra hno
        exact hx ⟨_, _, hl, by omega, by omega⟩
      · intro k hk
        have hk' := stray_of_coalesce ht' e' h₃ hk
        have hends := ht'.ends
        simp only [Geometry.extent_append, Geometry.extent_cons, geometry_hdr] at hends
        -- marking a block free moves no header
        have hno : ∀ b, (k, b) ∉ geometry.layout 0 R.blocks := fun b hb => by
          rw [e, Geometry.layout_append] at hb
          rcases List.mem_append.mp hb with hb | hb
          · exact hk'.noHeader b (by rw [Geometry.layout_append]; exact List.mem_append_left _ hb)
          · rcases List.mem_cons.mp hb with hb | hb
            · obtain ⟨rfl, -⟩ := Prod.mk.inj hb
              exact hk'.noHeader _ (Geometry.mem_layout_mid 0 pre ⟨n, false⟩ post)
            · refine hk'.noHeader b ?_
              rw [Geometry.layout_append]
              exact List.mem_append_right _ (List.mem_cons_of_mem _ hb)
        have hlt := hk'.lt
        refine ⟨hk'.dvd, hlt, hno, ?_⟩
        rw [← hk'.flagged]
        refine (isFree_congr (by omega) fun x h₁ h₂ => hkeep x ?_).symm
        by_contra hx
        exact not_headerByte_of_word hk'.dvd hno h₁ h₂ ⟨_, _, hl, by omega, by omega⟩

end CS214.Malloc
