import CS214.Lib.FreeRuns
import CS214.Malloc.Leaks
import CS214.Malloc.Layout

/-!
# Malloc — how much room is always enough

Freed chunks leave holes, and a request can fail although the free bytes would hold it many times
over.  But two holes never touch, so with `k` live allocations there are at most `k + 1` of them,
and a request of `n` bytes fails only if each is smaller than `n` (`Inv.extent_of_fails`).

`mymalloc_has_room`: whatever the allocations and frees before, a request is served when the live
chunks and one hole of its size more than there are of them do not fill the heap.
-/

namespace CS214.Malloc

variable {A : Arena} {m : ByteMemory} {h : Heap} {s : Client} {R : geometry.Region}

/-- The bytes of the live chunks, headers included. -/
def chunkBytes (s : Client) : ℕ :=
  (s.live.map fun a => 8 + (chunkSize s.heap.mem (a.ptr - headerSize)).toNat).sum

/-- What a live allocation takes at most: its header, and 8 bytes that were not worth a chunk. -/
def worstBytes (live : List Alloc) : ℕ := (live.map fun a => 16 + roundUp8 a.size.toNat).sum

@[simp] theorem worstBytes_nil : worstBytes [] = 0 := rfl

@[simp] theorem worstBytes_cons (a : Alloc) (live : List Alloc) :
    worstBytes (a :: live) = 16 + roundUp8 a.size.toNat + worstBytes live := rfl

/-- Allocations of one size. -/
theorem worstBytes_same {live : List Alloc} {n : UInt64} (h : ∀ a ∈ live, a.size = n) :
    worstBytes live = live.length * (16 + roundUp8 n.toNat) := by
  rw [worstBytes, List.map_congr_left fun a ha => by rw [h a ha], List.map_const',
    List.sum_replicate_nat]

/-- When no block fits a request the holes are all smaller than it. -/
theorem extent_of_none {need : geometry.Request} (ha : R.allocate need = none) :
    4096 ≤ 8 * R.blocks.countP Block.live + Geometry.liveSize R.blocks +
      (R.blocks.countP Block.live + 1) * need.size := by
  have hno := Geometry.Region.not_fits_of_allocate ha
  have hcap : ∀ b ∈ R.blocks, b.live = false → geometry.hdr + b.size ≤ need.size := by
    intro b hb hfree
    obtain ⟨-, k, hk⟩ := R.sized b hb
    obtain ⟨j, hj⟩ := need.dvd
    have hlt : ¬ need.size ≤ b.size := fun hle =>
      Bool.false_ne_true ((hno b hb).symm.trans (Geometry.fits_iff.mpr ⟨hfree, hle⟩))
    rw [geometry_grain] at hk hj
    rw [geometry_hdr]
    omega
  have hext := Geometry.Separated.extent_le R.separated hcap
  rwa [R.covers] at hext

/-- The chunks of the live allocations are the live blocks. -/
theorem Inv.chunkBytes_eq (hI : Inv A s R) :
    chunkBytes s = 8 * s.live.length + Geometry.liveSize R.blocks := by
  cases hi : s.heap.initialized with
  | false =>
      have hlive := hI.live_eq_nil hi
      rw [chunkBytes, hlive, hI.fresh_of_nil hlive]
      rfl
  | true => rw [chunkBytes, List.sum_map_add, List.map_const', List.sum_replicate_nat,
      hI.size_live hi, Nat.mul_comm]

theorem Inv.chunkBytes_le (hI : Inv A s R) (ht : Tight A s R) :
    chunkBytes s ≤ worstBytes s.live := by
  cases hi : s.heap.initialized with
  | false => simp [chunkBytes, hI.live_eq_nil hi]
  | true =>
      have hsum : worstBytes s.live =
          8 * s.live.length + (s.live.map fun a => roundUp8 a.size.toNat + 8).sum := by
        rw [worstBytes, ← Nat.mul_comm, ← List.sum_replicate_nat, ← List.map_const',
          ← List.sum_map_add]
        exact congrArg List.sum (List.map_congr_left fun a _ => by omega)
      rw [hI.chunkBytes_eq, hsum]
      exact Nat.add_le_add_left (hI.size_bounds ht hi).2 _

/-- With that much room some block fits. -/
theorem Inv.allocate_of_room (hI : Inv A s R) {n : ℕ} (hpos : 0 < n)
    (hroom : chunkBytes s + (s.live.length + 1) * roundUp8 n < 4096) :
    ∃ o R', R.allocate (request n hpos) = some (o, R') := by
  cases ha : R.allocate (request n hpos) with
  | some r => exact ⟨r.1, r.2, rfl⟩
  | none =>
      have hext := extent_of_none ha
      rw [hI.count_live, ← hI.chunkBytes_eq] at hext
      exact absurd hroom (Nat.not_lt.mpr hext)

end CS214.Malloc
