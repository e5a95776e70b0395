import Mathlib.Data.List.Nodup
import CS214.Lib.Runs
import CS214.Malloc.Calls

/-!
# Malloc — runs of a client

A client calls `mymalloc` and `myfree` and writes bytes.  `Client` is the static state of the
allocator with what the client knows: its live allocations, and for every byte what it last wrote
there since the allocation was made.  `Disciplined` is the contract of the calls: sizes that do
not wrap, frees of the null pointer or of a live allocation, writes into requested bytes.

`Inv A s R` ties a client's state to a region: the live allocations are the payloads of the live
blocks.  Every disciplined operation can be executed and keeps it (`step_inv`).
-/

namespace CS214.Malloc

/-- A live allocation: the pointer `mymalloc` returned and the size requested. -/
structure Alloc where
  ptr : UInt64
  size : UInt64
deriving DecidableEq

/-- `x` is the address of a requested byte. -/
def Alloc.Owns (a : Alloc) (x : ℕ) : Prop :=
  a.ptr.toNat ≤ x ∧ x < a.ptr.toNat + a.size.toNat

instance (a : Alloc) (x : ℕ) : Decidable (a.Owns x) := inferInstanceAs (Decidable (_ ∧ _))

/-- A client of the heap: the heap, the allocations it holds, and the bytes it has stored since it
got them. -/
structure Client where
  heap : Heap
  live : List Alloc
  written : ℕ → Option UInt8

/-- What a client does: it calls `mymalloc` or `myfree` at a line of a file, or stores a byte. -/
inductive Op where
  | malloc (size : UInt64) (file : String) (line : ℤ)
  | free (p : UInt64) (file : String) (line : ℤ)
  | write (x : ℕ) (v : UInt8)

/-- The state in which `main` starts: the heap is zero. -/
def start (m : ByteMemory) : Client := ⟨⟨m, false⟩, [], fun _ => none⟩

/-- The heap is in zero-initialised storage. -/
def ZeroHeap (A : Arena) (m : ByteMemory) : Prop :=
  ∀ x, A.bytes.toNat ≤ x → x < A.bytes.toNat + 4096 → m x = 0

/-- The state after `mymalloc(n)` returned `p`. -/
def Client.allocated (s : Client) (h : Heap) (p n : UInt64) : Client :=
  if p = 0 then { s with heap := h }
  else
    { heap := h
      live := ⟨p, n⟩ :: s.live
      written := fun x => if (⟨p, n⟩ : Alloc).Owns x then none else s.written x }

/-- The state after `myfree(p)` returned. -/
def Client.freed (s : Client) (h : Heap) (p : UInt64) : Client :=
  { s with heap := h, live := s.live.filter fun a => a.ptr ≠ p }

/-- The state after the client stored a byte. -/
def Client.wrote (s : Client) (x : ℕ) (v : UInt8) : Client :=
  { s with
    heap := { s.heap with mem := fun y => if y = x then v else s.heap.mem y }
    written := fun y => if y = x then some v else s.written y }

/-- One operation; none when the call ends the program. -/
def step (A : Arena) (s : Client) : Op → Option Client
  | .malloc n file line =>
    match mymalloc A s.heap n file line with
    | .ret p h _ => some (s.allocated h p n)
    | _ => none
  | .free p file line =>
    match myfree A s.heap p file line with
    | .ret _ h _ => some (s.freed h p)
    | _ => none
  | .write x v => some (s.wrote x v)

/-- The contract of an operation. -/
def Disciplined (s : Client) : Op → Prop
  | .malloc n _ _ => n.toNat ≤ 2 ^ 64 - 8
  | .free p _ _ => p = 0 ∨ ∃ a ∈ s.live, a.ptr = p
  | .write x _ => ∃ a ∈ s.live, a.Owns x

instance (s : Client) : (op : Op) → Decidable (Disciplined s op)
  | .malloc _ _ _ => inferInstanceAs (Decidable (_ ≤ _))
  | .free _ _ _ => inferInstanceAs (Decidable (_ ∨ _))
  | .write _ _ => inferInstanceAs (Decidable (∃ _ ∈ _, _))

/-- A place for the heap: any 8-aligned address will do. -/
def Arena.sample : Arena := ⟨65536, by decide, by decide, by decide⟩

/-! ### The invariant -/

/-- The live allocations are the payloads of the live blocks of a region the heap represents, and
the bytes the client wrote are there. -/
structure Inv (A : Arena) (s : Client) (R : geometry.Region) : Prop where
  holds : Holds A s.heap R
  owned : ∀ o n, (o, ⟨n, true⟩) ∈ geometry.layout 0 R.blocks → ∃ a ∈ s.live, a.ptr = A.at (o + 8)
  backed : ∀ a ∈ s.live, ∃ o n, (o, ⟨n, true⟩) ∈ geometry.layout 0 R.blocks ∧
    a.ptr = A.at (o + 8) ∧ a.size.toNat ≤ n
  distinct : (s.live.map Alloc.ptr).Nodup
  intact : ∀ a ∈ s.live, ∀ x, a.Owns x → ∀ v, s.written x = some v → s.heap.mem x = v

variable {A : Arena} {s s' : Client} {R R' : geometry.Region}

theorem inv_start {m : ByteMemory} (hm : ZeroHeap A m) :
    Inv A (start m) (Geometry.Region.fresh geometry) where
  holds := .zero hm
  owned o n h := by simp [Geometry.Region.fresh] at h
  backed a ha := by simp [start] at ha
  distinct := List.nodup_nil
  intact a ha := by simp [start] at ha

/-- The requested bytes of a live allocation lie in the payload of its block. -/
theorem Inv.owns_payload (hI : Inv A s R) {a : Alloc} (ha : a ∈ s.live) :
    ∃ o n, (o, ⟨n, true⟩) ∈ geometry.layout 0 R.blocks ∧ a.ptr = A.at (o + 8) ∧
      ∀ x, a.Owns x → A.bytes.toNat + o + 8 ≤ x ∧ x < A.bytes.toNat + o + 8 + n := by
  obtain ⟨o, n, hl, hp, hn⟩ := hI.backed a ha
  refine ⟨o, n, hl, hp, fun x hx => ?_⟩
  have hb := header_bounds hl
  simp only at hb
  rw [Alloc.Owns, hp, Arena.at_toNat (by omega)] at hx
  omega

/-- A payload byte of a block is no header byte of the region. -/
theorem payload_not_headerByte {o x : ℕ} {b : Block}
    (hb : (o, b) ∈ geometry.layout 0 R.blocks) (h₁ : A.bytes.toNat + o + 8 ≤ x)
    (h₂ : x < A.bytes.toNat + o + 8 + b.size) : ¬ HeaderByte A 0 R.blocks x := by
  rintro ⟨o', b', hb', h₃, h₄⟩
  have := Geometry.layout_apart hb hb'
  simp only [geometry_hdr] at this
  omega

theorem Inv.owns_not_headerByte (hI : Inv A s R) {a : Alloc} (ha : a ∈ s.live) {x : ℕ}
    (hx : a.Owns x) : ¬ HeaderByte A 0 R.blocks x := by
  obtain ⟨o, n, hl, -, hown⟩ := hI.owns_payload ha
  obtain ⟨h₁, h₂⟩ := hown x hx
  exact payload_not_headerByte hl h₁ h₂

/-- Two live allocations own different bytes. -/
theorem Inv.owns_disjoint (hI : Inv A s R) {a b : Alloc} (ha : a ∈ s.live) (hb : b ∈ s.live)
    (hab : a.ptr ≠ b.ptr) {x : ℕ} (hx : a.Owns x) : ¬ b.Owns x := by
  intro hx'
  obtain ⟨o, n, hl, hp, hown⟩ := hI.owns_payload ha
  obtain ⟨o', n', hl', hp', hown'⟩ := hI.owns_payload hb
  have h₁ := hown x hx
  have h₂ := hown' x hx'
  have := Geometry.layout_apart hl hl'
  simp only [geometry_hdr] at this
  have hne : o ≠ o' := fun e => hab (by rw [hp, hp', e])
  omega

/-- The live allocations are exactly at the payloads of the live blocks. -/
theorem Inv.live_iff (hI : Inv A s R) {o : ℕ} (ho : o + 8 ≤ 4096) :
    (∃ a ∈ s.live, a.ptr = A.at (o + 8)) ↔ ∃ n, (o, ⟨n, true⟩) ∈ geometry.layout 0 R.blocks := by
  constructor
  · rintro ⟨a, ha, hp⟩
    obtain ⟨o', n, hl, hp', -⟩ := hI.backed a ha
    have hb := header_bounds hl
    have := Arena.at_inj (A := A) (by omega) (by omega) (hp.symm.trans hp')
    obtain rfl : o = o' := by omega
    exact ⟨n, hl⟩
  · rintro ⟨n, hl⟩
    exact hI.owned o n hl

/-- A live allocation is at no payload but that of a live block. -/
theorem Inv.not_live (hI : Inv A s R) {o : ℕ} (ho : o + 8 ≤ 4096)
    (hno : ∀ n, (o, ⟨n, true⟩) ∉ geometry.layout 0 R.blocks) : ∀ a ∈ s.live, a.ptr ≠ A.at (o + 8) :=
  fun a ha hp => not_exists.mpr hno ((hI.live_iff ho).mp ⟨a, ha, hp⟩)

/-! ### One operation -/

/-- The bytes of live allocations are kept by a call under which their blocks stay. -/
theorem Inv.keeps (hI : Inv A s R) {h' : Heap} (hb : Becomes A s.heap R h' R')
    {a : Alloc} (ha : a ∈ s.live)
    (hstay : ∀ o n, (o, ⟨n, true⟩) ∈ geometry.layout 0 R.blocks → a.ptr = A.at (o + 8) →
      (o, ⟨n, true⟩) ∈ geometry.layout 0 R'.blocks) {x : ℕ} (hx : a.Owns x) :
    h'.mem x = s.heap.mem x := by
  obtain ⟨o, n, hl, hp, hown⟩ := hI.owns_payload ha
  obtain ⟨h₁, h₂⟩ := hown x hx
  exact hb.frame x (payload_not_headerByte hl h₁ h₂)
    (payload_not_headerByte (hstay o n hl hp) h₁ h₂)

/-- A failing `mymalloc`, and one of zero bytes. -/
theorem Inv.same_live (hI : Inv A s R) {h' : Heap} (hb : Becomes A s.heap R h' R) :
    Inv A { s with heap := h' } R where
  holds := hb.holds
  owned := hI.owned
  backed := hI.backed
  distinct := hI.distinct
  intact a ha x hx v hv := by
    rw [hI.keeps hb ha (fun _ _ hl _ => hl) hx]
    exact hI.intact a ha x hx v hv

/-- The live blocks after a successful allocation, and where the new one is. -/
theorem allocate_live {need : geometry.Request} {o : ℕ} (h : R.allocate need = some (o, R')) :
    ∃ g, (need.size ≤ g ∧ g ≤ need.size + 8) ∧ (o, ⟨g, true⟩) ∈ geometry.layout 0 R'.blocks ∧
      (∀ n, (o, ⟨n, true⟩) ∉ geometry.layout 0 R.blocks) ∧
      ∀ o' n, (o', ⟨n, true⟩) ∈ geometry.layout 0 R'.blocks ↔
        (o', ⟨n, true⟩) ∈ geometry.layout 0 R.blocks ∨ o' = o ∧ n = g := by
  obtain ⟨pre, b, post, e, -, hb, ho, e'⟩ :=
    Geometry.allocate_some (Geometry.Region.allocate_eq_some.mp h)
  obtain ⟨hlive, hle⟩ := Geometry.fits_iff.mp hb
  rw [Nat.zero_add] at ho
  subst ho
  have hiff : ∀ o' n, (o', ⟨n, true⟩) ∈ geometry.layout 0 R'.blocks ↔
      (o', ⟨n, true⟩) ∈ geometry.layout 0 R.blocks ∨
        o' = geometry.extent pre ∧ n = geometry.granted need.size b := fun o' n => by
    rw [e, e', Geometry.live_layout_carve hlive rfl]
    simp
  refine ⟨geometry.granted need.size b, ?_, (hiff _ _).mpr (.inr ⟨rfl, rfl⟩), ?_, hiff⟩
  · -- sizes are multiples of 8, so less than 16 bytes left over are at most 8
    have hneed := need.dvd
    have hb := (R.sized b (by simp [e])).2
    rw [geometry_grain] at hneed hb
    unfold Geometry.granted
    rw [geometry_slack]
    split <;> omega
  · intro n hn
    have hmid := Geometry.mem_layout_mid (G := geometry) 0 pre b post
    rw [Nat.zero_add, ← e] at hmid
    have := Geometry.layout_apart hmid hn
    simp only [geometry_hdr] at this
    rcases this with ⟨-, rfl⟩ | this | this
    · cases hlive
    · omega
    · omega

/-- A successful `mymalloc`. -/
theorem Inv.malloc (hI : Inv A s R) {h' : Heap} {n : UInt64} {o : ℕ} {need : geometry.Request}
    (hn : n.toNat ≤ need.size) (ha : R.allocate need = some (o, R'))
    (hb : Becomes A s.heap R h' R') : Inv A (s.allocated h' (A.at (o + 8)) n) R' := by
  obtain ⟨g, hg, hnew, hno, hiff⟩ := allocate_live ha
  have hbd := header_bounds hnew
  simp only at hbd
  have hfresh : ∀ a ∈ s.live, a.ptr ≠ A.at (o + 8) := hI.not_live (by omega) hno
  rw [Client.allocated, if_neg (Arena.at_ne_zero (by omega))]
  refine ⟨hb.holds, ?_, ?_, ?_, ?_⟩
  · intro o' n' hl
    rcases (hiff o' n').mp hl with hl | ⟨rfl, -⟩
    · obtain ⟨a, hmem, hp⟩ := hI.owned o' n' hl
      exact ⟨a, List.mem_cons_of_mem _ hmem, hp⟩
    · exact ⟨_, List.mem_cons_self, rfl⟩
  · intro a hmem
    rcases List.mem_cons.mp hmem with rfl | hmem
    · exact ⟨o, g, hnew, rfl, by simp only; omega⟩
    · obtain ⟨o', n', hl, hp, hle⟩ := hI.backed a hmem
      exact ⟨o', n', (hiff o' n').mpr (.inl hl), hp, hle⟩
  · refine List.nodup_cons.mpr ⟨fun hmem => ?_, hI.distinct⟩
    obtain ⟨a, hmem, hp⟩ := List.mem_map.mp hmem
    exact hfresh a hmem hp
  · intro a hmem x hx v hv
    rcases List.mem_cons.mp hmem with rfl | hmem
    · simp only [hx, if_true] at hv
      cases hv
    · simp only at hv
      split at hv
      · cases hv
      · rw [hI.keeps hb hmem (fun o' n' hl _ => (hiff o' n').mpr (.inl hl)) hx]
        exact hI.intact a hmem x hx v hv

/-- The live blocks after a release. -/
theorem release_live {o : ℕ} (h : R.release o = some R') :
    ∀ o' n, (o', ⟨n, true⟩) ∈ geometry.layout 0 R'.blocks ↔
      (o', ⟨n, true⟩) ∈ geometry.layout 0 R.blocks ∧ o' ≠ o := by
  obtain ⟨pre, b, post, e, hb, ho, e'⟩ :=
    Geometry.release_some R.separated (Geometry.Region.release_eq_some.mp h)
  rw [Nat.zero_add] at ho
  subst ho
  intro o' n
  rw [e, e', Geometry.live_layout_merge rfl, Geometry.layout_append, Geometry.layout_append]
  simp only [List.mem_append, Geometry.layout_cons, List.mem_cons, Prod.mk.injEq, Nat.zero_add,
    Block.mk.injEq, Bool.true_eq_false, and_false, false_or, geometry_hdr]
  constructor
  · rintro (h | h)
    · have := (Geometry.layout_bounds h).2
      simp only [geometry_hdr] at this
      exact ⟨.inl h, by omega⟩
    · have := (Geometry.layout_bounds h).1
      exact ⟨.inr (.inr h), by omega⟩
  · rintro ⟨h | ⟨rfl, -⟩ | h, hne⟩
    · exact .inl h
    · exact absurd rfl hne
    · exact .inr h

/-- `myfree` of a live allocation. -/
theorem Inv.free (hI : Inv A s R) {h' : Heap} {o : ℕ} (ho : o + 8 ≤ 4096)
    (hr : R.release o = some R') (hb : Becomes A s.heap R h' R') :
    Inv A (s.freed h' (A.at (o + 8))) R' := by
  have hiff := release_live hr
  have hmem : ∀ a, a ∈ (s.freed h' (A.at (o + 8))).live ↔ a ∈ s.live ∧ a.ptr ≠ A.at (o + 8) :=
    fun a => by simp [Client.freed]
  -- the blocks of the allocations that stay are not the released one
  have hstay : ∀ a ∈ (s.freed h' (A.at (o + 8))).live, ∀ o' n,
      (o', ⟨n, true⟩) ∈ geometry.layout 0 R.blocks → a.ptr = A.at (o' + 8) →
      (o', ⟨n, true⟩) ∈ geometry.layout 0 R'.blocks := fun a ha o' n hl hp => by
    refine (hiff o' n).mpr ⟨hl, ?_⟩
    rintro rfl
    exact ((hmem a).mp ha).2 hp
  refine ⟨hb.holds, ?_, ?_, ?_, ?_⟩
  · intro o' n hl
    obtain ⟨hl, hne⟩ := (hiff o' n).mp hl
    obtain ⟨a, ha, hp⟩ := hI.owned o' n hl
    have hbd := header_bounds hl
    refine ⟨a, (hmem a).mpr ⟨ha, fun e => hne ?_⟩, hp⟩
    have := Arena.at_inj (A := A) (by omega) (by omega) (hp.symm.trans e)
    omega
  · intro a ha
    obtain ⟨o', n, hl, hp, hle⟩ := hI.backed a ((hmem a).mp ha).1
    exact ⟨o', n, hstay a ha o' n hl hp, hp, hle⟩
  · exact (List.filter_sublist.map _).nodup hI.distinct
  · intro a ha x hx v hv
    change h'.mem x = v
    rw [hI.keeps hb ((hmem a).mp ha).1 (hstay a ha) hx]
    exact hI.intact a ((hmem a).mp ha).1 x hx v hv

/-- A client write. -/
theorem Inv.write (hI : Inv A s R) {a : Alloc} (ha : a ∈ s.live) {x : ℕ} (hx : a.Owns x)
    (v : UInt8) : Inv A (s.wrote x v) R where
  holds := by
    obtain ⟨o, n, hl, -⟩ := hI.backed a ha
    have hi := hI.holds.initialized_of_live hl
    have hcov := R.covers
    simp only [geometry_total] at hcov
    change Holds A ⟨fun y => if y = x then v else s.heap.mem y, s.heap.initialized⟩ R
    rw [hi]
    refine .init ((hI.holds.headers hi).frame (by omega) fun y hy => if_neg ?_)
    rintro rfl
    exact hI.owns_not_headerByte ha hx hy
  owned := hI.owned
  backed := hI.backed
  distinct := hI.distinct
  intact b hb y hy w hw := by
    simp only [Client.wrote] at hw ⊢
    split at hw
    · next hyx => rw [if_pos hyx]; exact Option.some.inj hw
    · next hyx => rw [if_neg hyx]; exact hI.intact b hb y hy w hw

/-! ### Steps and runs -/

/-- What a `mymalloc` of a size that does not wrap does: it returns, the heap is initialised, the
invariant and the bytes of the live allocations are kept, and the pointer is a new one. -/
theorem Inv.mymalloc_ret (hI : Inv A s R) {n : UInt64} (hn : n.toNat ≤ 2 ^ 64 - 8) (file : String)
    (line : ℤ) :
    ∃ p h' err R', mymalloc A s.heap n file line = .ret p h' err ∧ h'.initialized = true ∧
      Inv A (s.allocated h' p n) R' ∧
      (∀ a ∈ s.live, ∀ x, a.Owns x → h'.mem x = s.heap.mem x) ∧
      (∀ a ∈ s.live, p ≠ 0 → a.ptr ≠ p) := by
  have same : ∀ {h'}, Becomes A s.heap R h' R → h'.initialized = true ∧
      Inv A (s.allocated h' 0 n) R ∧
      (∀ a ∈ s.live, ∀ x, a.Owns x → h'.mem x = s.heap.mem x) ∧
      (∀ a ∈ s.live, (0 : UInt64) ≠ 0 → a.ptr ≠ 0) := fun hb => by
    rw [Client.allocated, if_pos rfl]
    exact ⟨hb.ready, hI.same_live hb, fun a ha x hx => hI.keeps hb ha (fun _ _ hl _ => hl) hx,
      fun _ _ h => absurd rfl h⟩
  rcases mymalloc_cases hI.holds hn file line with
    ⟨err, h₁, -⟩ | ⟨hpos, o, R', h', ha, h₁, h₂⟩
  · exact ⟨0, _, err, R, h₁, same (ready_spec hI.holds)⟩
  · obtain ⟨g, -, hnew, hno, hiff⟩ := allocate_live ha
    have hbd := header_bounds hnew
    refine ⟨_, h', "", R', h₁, h₂.ready, hI.malloc (by simp only [request]; omega) ha h₂,
      fun a ha x hx => hI.keeps h₂ ha (fun o' n' hl _ => (hiff o' n').mpr (.inl hl)) hx,
      fun a ha _ => hI.not_live (by omega) hno a ha⟩

/-- What a `myfree` of a live allocation does. -/
theorem Inv.myfree_ret (hI : Inv A s R) {a : Alloc} (ha : a ∈ s.live) (file : String) (line : ℤ) :
    ∃ h' R', myfree A s.heap a.ptr file line = .ret () h' "" ∧ h'.initialized = true ∧
      Inv A (s.freed h' a.ptr) R' ∧
      ∀ b ∈ s.live, b.ptr ≠ a.ptr → ∀ x, b.Owns x → h'.mem x = s.heap.mem x := by
  obtain ⟨o, n, hl, hp, -⟩ := hI.backed a ha
  have hbd := header_bounds hl
  obtain ⟨h', R', h₁, h₂, h₃⟩ := myfree_live hI.holds hl file line
  rw [hp]
  refine ⟨h', R', h₁, h₃.ready, hI.free (by omega) h₂ h₃, fun b hb hne x hx =>
    hI.keeps h₃ hb (fun o' n' hl' hp' => (release_live h₂ o' n').mpr ⟨hl', ?_⟩) hx⟩
  rintro rfl
  exact hne hp'

/-- Freeing the null pointer does nothing. -/
theorem Inv.freed_null (hI : Inv A s R) : s.freed s.heap 0 = s := by
  have : s.live.filter (fun a => a.ptr ≠ 0) = s.live := by
    refine List.filter_eq_self.mpr fun a ha => ?_
    obtain ⟨o, n, hl, hp, -⟩ := hI.backed a ha
    have hbd := header_bounds hl
    simp [hp, Arena.at_ne_zero (A := A) (by omega : o + 8 ≤ 4096)]
  rw [Client.freed, this]

/-- Every disciplined operation can be executed, and keeps the invariant. -/
theorem step_inv (hI : Inv A s R) {op : Op} (hd : Disciplined s op) :
    ∃ s' R', step A s op = some s' ∧ Inv A s' R' := by
  cases op with
  | malloc n file line =>
      obtain ⟨p, h', err, R', h₁, -, h₂, -⟩ := hI.mymalloc_ret hd file line
      exact ⟨_, R', by rw [step, h₁], h₂⟩
  | free p file line =>
      rcases hd with rfl | ⟨a, ha, rfl⟩
      · refine ⟨s, R, ?_, hI⟩
        rw [step, myfree, if_pos rfl]
        exact congrArg some hI.freed_null
      · obtain ⟨h', R', h₁, -, h₂, -⟩ := hI.myfree_ret ha file line
        exact ⟨_, R', by rw [step, h₁], h₂⟩
  | write x v =>
      obtain ⟨a, ha, hx⟩ := hd
      exact ⟨_, R, rfl, hI.write ha hx v⟩

/-- A call that is not a client write keeps the bytes of every live allocation it does not
free. -/
theorem step_keeps (hI : Inv A s R) {op : Op} (hd : Disciplined s op) (h : step A s op = some s')
    (hw : ∀ x v, op ≠ .write x v) {a : Alloc} (ha : a ∈ s.live)
    (hf : ∀ file line, op ≠ .free a.ptr file line) {x : ℕ} (hx : a.Owns x) :
    s'.heap.mem x = s.heap.mem x := by
  cases op with
  | malloc n file line =>
      obtain ⟨p, h', err, R', h₁, -, -, h₃, -⟩ := hI.mymalloc_ret hd file line
      rw [step, h₁] at h
      obtain rfl := Option.some.inj h
      rw [← h₃ a ha x hx, Client.allocated]
      split <;> rfl
  | free p file line =>
      rcases hd with rfl | ⟨b, hb, rfl⟩
      · rw [step, myfree, if_pos rfl] at h
        obtain rfl := Option.some.inj h
        rfl
      · obtain ⟨h', R', h₁, -, -, h₃⟩ := hI.myfree_ret hb file line
        rw [step, h₁] at h
        obtain rfl := Option.some.inj h
        exact h₃ a ha (fun e => hf file line (by rw [e])) x hx
  | write y v => exact absurd rfl (hw y v)

/-- The invariant after a step that was taken. -/
theorem step_inv_of (hI : ∃ R, Inv A s R) {op : Op} (hd : Disciplined s op)
    (h : step A s op = some s') : ∃ R, Inv A s' R := by
  obtain ⟨R, hI⟩ := hI
  obtain ⟨s₁, R', h₁, h₂⟩ := step_inv hI hd
  rw [h₁] at h
  obtain rfl := Option.some.inj h
  exact ⟨R', h₂⟩

/-- The invariant along every disciplined run. -/
theorem run_inv {m : ByteMemory} (hm : ZeroHeap A m) {ops : List Op}
    (h : Run (step A) Disciplined (start m) ops s) : ∃ R, Inv A s R :=
  h.invariant (I := fun s => ∃ R, Inv A s R) (fun _ _ _ hI hd hs => step_inv_of hI hd hs)
    ⟨_, inv_start hm⟩

/-- An operation that is a `mymalloc`. -/
def Op.isMalloc : Op → Bool
  | .malloc _ _ _ => true
  | _ => false

/-- `mymalloc` initialises the heap, and no step undoes it. -/
theorem step_initialized (hI : Inv A s R) {op : Op} (hd : Disciplined s op)
    (h : step A s op = some s') (hi : s.heap.initialized = true ∨ op.isMalloc = true) :
    s'.heap.initialized = true := by
  cases op with
  | malloc n file line =>
      obtain ⟨p, h', err, R', h₁, h₂, -⟩ := hI.mymalloc_ret hd file line
      rw [step, h₁] at h
      obtain rfl := Option.some.inj h
      rw [Client.allocated]
      split <;> exact h₂
  | free p file line =>
      rcases hd with rfl | ⟨a, ha, rfl⟩
      · rw [step, myfree, if_pos rfl] at h
        obtain rfl := Option.some.inj h
        exact hi.resolve_right (by simp [Op.isMalloc])
      · obtain ⟨h', R', h₁, h₂, -⟩ := hI.myfree_ret ha file line
        rw [step, h₁] at h
        obtain rfl := Option.some.inj h
        exact h₂
  | write x v =>
      obtain rfl := Option.some.inj h
      exact hi.resolve_right (by simp [Op.isMalloc])

/-- After the first `mymalloc` of a run the heap is initialised. -/
theorem run_initialized {m : ByteMemory} (hm : ZeroHeap A m) {ops : List Op}
    (h : Run (step A) Disciplined (start m) ops s) (hop : ∃ op ∈ ops, op.isMalloc = true) :
    s.heap.initialized = true := by
  obtain ⟨op, hop, hmal⟩ := hop
  obtain ⟨es, es', rfl⟩ := List.append_of_mem hop
  obtain ⟨s₁, s₂, h₁, hd, hs, h₂⟩ := h.split
  obtain ⟨R, hI⟩ := run_inv hm h₁
  have hi := step_initialized hI hd hs (.inr hmal)
  refine (h₂.invariant (I := fun s => (∃ R, Inv A s R) ∧ s.heap.initialized = true)
    (fun s op s' hI hd hs => ?_) ⟨step_inv_of ⟨R, hI⟩ hd hs, hi⟩).2
  obtain ⟨⟨R, hI⟩, hi⟩ := hI
  exact ⟨step_inv_of ⟨R, hI⟩ hd hs, step_initialized hI hd hs (.inl hi)⟩

end CS214.Malloc
