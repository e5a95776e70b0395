import Mathlib.Data.List.Perm.Lattice
import CS214.Malloc.Room

/-!
# Malloc — what a program owns

`Live A h live`: the heap is in a state of a disciplined run whose live allocations are `live`, in
any order.  The calls and the stores of a program are described by what they do to that list alone:
an allocation for which there is room adds to it, a free takes away, a store into an allocation
keeps it, and none of them touches a byte of the other allocations.
-/

namespace CS214.Malloc

variable {A : Arena} {m : ByteMemory} {h h' : Heap} {live live' rest : List Alloc} {a b : Alloc}
  {R R' : geometry.Region}

/-- The state of a client whose stores are not recorded. -/
def holding (h : Heap) (live : List Alloc) : Client := ⟨h, live, fun _ => none⟩

/-- The heap is well formed, these are its live allocations, and the chunk of each is at most 8
bytes larger than the request rounded up. -/
def Live (A : Arena) (h : Heap) (live : List Alloc) : Prop :=
  ∃ R, Inv A (holding h live) R ∧ Tight A (holding h live) R

theorem live_start (hm : ZeroHeap A m) : Live A ⟨m, false⟩ [] :=
  ⟨_, inv_start hm, fun _ ha => absurd ha List.not_mem_nil⟩

theorem Live.perm (hl : Live A h live) (hp : live.Perm live') : Live A h live' := by
  obtain ⟨R, hI, ht⟩ := hl
  refine ⟨R, ⟨hI.holds, fun o n hb => ?_, fun a ha => hI.backed a (hp.mem_iff.mpr ha), ?_,
    fun _ _ _ _ _ hv => by cases hv⟩, fun a ha => ht a (hp.mem_iff.mpr ha)⟩
  · obtain ⟨a, ha, hptr⟩ := hI.owned o n hb
    exact ⟨a, hp.mem_iff.mp ha, hptr⟩
  · exact (hp.map Alloc.ptr).nodup_iff.mp hI.distinct

/-- The program ends without a leak. -/
theorem Live.atExit (hl : Live A h []) : atExit A h = some "" := by
  obtain ⟨R, hI, ht⟩ := hl
  obtain ⟨bytes, -, hexit, -⟩ := hI.report ht
  exact hexit

/-! ### Where the allocations are -/

theorem Live.bounds (hl : Live A h live) (ha : a ∈ live) :
    A.bytes.toNat + 8 ≤ a.ptr.toNat ∧ a.ptr.toNat + a.size.toNat ≤ A.bytes.toNat + 4096 := by
  obtain ⟨R, hI, -⟩ := hl
  obtain ⟨o, n, hb, hp, hle⟩ := hI.backed a ha
  have hbd := header_bounds hb
  simp only at hbd
  rw [hp, Arena.at_toNat (by omega)]
  omega

theorem Live.ptr_ne_zero (hl : Live A h live) (ha : a ∈ live) : a.ptr ≠ 0 := by
  have hb := (hl.bounds ha).1
  exact ne_zero_of_toNat_pos (by omega)

theorem Live.nodup (hl : Live A h live) : (live.map Alloc.ptr).Nodup :=
  hl.elim fun _ hI => hI.1.distinct

theorem Live.apart (hl : Live A h live) (ha : a ∈ live) (hb : b ∈ live) (hne : a.ptr ≠ b.ptr)
    {x : ℕ} (hx : a.Owns x) : ¬ b.Owns x :=
  hl.elim fun _ hI => hI.1.owns_disjoint ha hb hne hx

/-- The bytes of an allocation are not those of the others. -/
theorem Live.head_apart (hl : Live A h (a :: rest)) (hb : b ∈ rest) {x : ℕ} (hx : b.Owns x) :
    ¬ a.Owns x := by
  have hne : b.ptr ≠ a.ptr := fun e =>
    (List.nodup_cons.mp hl.nodup).1 (e ▸ List.mem_map_of_mem hb)
  exact hl.apart (List.mem_cons_of_mem _ hb) List.mem_cons_self hne hx

/-! ### What the operations do -/

/-- Stores into one allocation. -/
theorem Inv.store (hI : Inv A (holding h live) R) (ha : a ∈ live) {mem : ByteMemory}
    (hframe : ∀ x, ¬ a.Owns x → mem x = h.mem x) :
    Inv A (holding { h with mem := mem } live) R := by
  refine ⟨?_, hI.owned, hI.backed, hI.distinct, fun _ _ _ _ _ hv => by cases hv⟩
  obtain ⟨o, n, hb, -⟩ := hI.backed a ha
  have hi : h.initialized = true := hI.holds.initialized_of_live hb
  have hcov := R.covers
  simp only [geometry_total] at hcov
  change Holds A ⟨mem, h.initialized⟩ R
  rw [hi]
  refine .init ((hI.holds.headers hi).frame (by omega) fun x hx => hframe x fun hown => ?_)
  exact hI.owns_not_headerByte ha hown hx

theorem Live.store (hl : Live A h live) (ha : a ∈ live) {mem : ByteMemory}
    (hframe : ∀ x, ¬ a.Owns x → mem x = h.mem x) : Live A { h with mem := mem } live := by
  obtain ⟨R, hI, ht⟩ := hl
  exact ⟨R, hI.store ha hframe, ht⟩

/-- A call of `mymalloc` that finds a chunk. -/
theorem mymalloc_allocates (hI : Inv A (holding h live) R) (ht : Tight A (holding h live) R)
    {n : UInt64} (hs : n.toNat ≤ 2 ^ 64 - 8) (hpos : 0 < n.toNat) {o : ℕ}
    (ha : R.allocate (request n.toNat hpos) = some (o, R')) (file : String) (line : ℤ) :
    ∃ p h', mymalloc A h n file line = .ret p h' "" ∧ p ≠ 0 ∧
      Inv A (holding h' (⟨p, n⟩ :: live)) R' ∧ Tight A (holding h' (⟨p, n⟩ :: live)) R' ∧
      ∀ a ∈ live, ∀ x, a.Owns x → h'.mem x = h.mem x := by
  obtain ⟨h', hret, hb⟩ := mymalloc_some hI.holds hs hpos ha file line
  obtain ⟨g, -, hnew, -, hiff⟩ := allocate_live ha
  have hbd := header_bounds hnew
  have hne : A.at (o + 8) ≠ 0 := Arena.at_ne_zero (by omega)
  have hstate : (holding h live).allocated h' (A.at (o + 8)) n =
      holding h' (⟨A.at (o + 8), n⟩ :: live) := by
    rw [Client.allocated, if_neg hne, holding, holding]
    simp
  refine ⟨_, h', hret, hne, ?_, ?_, fun a hmem x hx => ?_⟩
  · rw [← hstate]
    exact hI.malloc (by simp only [request]; omega) ha hb
  · rw [← hstate]
    exact ht.malloc hI hpos ha
  · exact hI.keeps hb hmem (fun o' n' hl' _ => (hiff o' n').mpr (.inl hl')) hx

/-- A call of `mymalloc` for which there is room. -/
theorem Live.malloc (hl : Live A h live) {n : UInt64} (hn : n ≠ 0) (hs : n.toNat ≤ 2 ^ 64 - 8)
    (hroom : worstBytes live + (live.length + 1) * roundUp8 n.toNat < 4096) (file : String)
    (line : ℤ) :
    ∃ p h', mymalloc A h n file line = .ret p h' "" ∧ p ≠ 0 ∧ Live A h' (⟨p, n⟩ :: live) ∧
      ∀ a ∈ live, ∀ x, a.Owns x → h'.mem x = h.mem x := by
  obtain ⟨R, hI, ht⟩ := hl
  have hpos : 0 < n.toNat := Nat.pos_of_ne_zero fun e => hn (UInt64.toNat_inj.mp e)
  obtain ⟨o, R', ha⟩ := hI.allocate_of_room hpos
    (Nat.lt_of_le_of_lt (Nat.add_le_add_right (hI.chunkBytes_le ht) _) hroom)
  obtain ⟨p, h', hret, hne, hI', ht', hkeep⟩ := mymalloc_allocates hI ht hs hpos ha file line
  exact ⟨p, h', hret, hne, ⟨R', hI', ht'⟩, hkeep⟩

/-- A call of `myfree` on an allocation. -/
theorem Live.free (hl : Live A h (a :: rest)) (file : String) (line : ℤ) :
    ∃ h', myfree A h a.ptr file line = .ret () h' "" ∧ Live A h' rest ∧
      ∀ b ∈ rest, ∀ x, b.Owns x → h'.mem x = h.mem x := by
  have hnot := (List.nodup_cons.mp hl.nodup).1
  obtain ⟨R, hI, ht⟩ := hl
  obtain ⟨o, n, hb, hp, -⟩ := hI.backed a List.mem_cons_self
  have hbd := header_bounds hb
  obtain ⟨h', R', hret, hrel, hbec⟩ := myfree_live hI.holds hb file line
  have hne : ∀ b ∈ rest, b.ptr ≠ a.ptr := fun b hmem e => hnot (e ▸ List.mem_map_of_mem hmem)
  have hstate : (holding h (a :: rest)).freed h' (A.at (o + 8)) = holding h' rest := by
    have hfilter : rest.filter (fun b => b.ptr ≠ a.ptr) = rest :=
      List.filter_eq_self.mpr fun b hmem => decide_eq_true (hne b hmem)
    rw [← hp]
    simp only [Client.freed, holding, List.filter_cons, ne_eq, not_true_eq_false, decide_false,
      Bool.false_eq_true, if_false]
    rw [hfilter]
  rw [hp]
  refine ⟨h', hret, ⟨R', ?_, fun b hmem o' k hl' hp' => ?_⟩, fun b hmem x hx => ?_⟩
  · rw [← hstate]
    exact hI.free (by omega) hrel hbec
  · exact ht b (List.mem_cons_of_mem _ hmem) o' k ((release_live hrel o' k).mp hl').1 hp'
  · refine hI.keeps hbec (List.mem_cons_of_mem _ hmem) (fun o' k hl' hp' => ?_) hx
    refine (release_live hrel o' k).mpr ⟨hl', ?_⟩
    rintro rfl
    exact hne b hmem (hp'.trans hp.symm)

end CS214.Malloc
