import CS214.Lib.FreeRuns
import CS214.Malloc.Client

/-!
# Malloc — `coalesce` on any tiled heap

The headers may tile the heap in any way, with free chunks next to each other or without.
`Coalesces A m m' bs bs'` says what `coalesce` makes of such a heap, block by block and byte by
byte: it writes nothing but the header of the first chunk of a run of free ones.

* `header_bytes`: two memories that hold one header at one place agree on its bytes.
* `payload_merge`: no payload byte is a byte of a header of the merged list.
* `coalesce_tiled`: the result, and that a second `coalesce` changes nothing.
-/

namespace CS214.Malloc

variable {A : Arena} {m m' : ByteMemory} {bs bs' : List Block}

/-- The memory `m`, which the headers of `bs` tile, becomes `m'`, which those of `bs'` tile. -/
structure Coalesces (A : Arena) (m m' : ByteMemory) (bs bs' : List Block) : Prop where
  tiled : Tiled A m' 0 bs'
  /-- The allocated chunks stay, and each maximal run of free ones becomes one. -/
  chunks : ∀ o d, (o, d) ∈ geometry.layout 0 bs' ↔
    d.live = true ∧ (o, d) ∈ geometry.layout 0 bs ∨
      ∃ run, geometry.FreeRun 0 bs o run ∧
        d = ⟨(run.map Block.size).sum + 8 * (run.length - 1), false⟩
  separated : Geometry.Separated bs'
  /-- Header and payload of an allocated chunk. -/
  live_bytes : ∀ o b, (o, b) ∈ geometry.layout 0 bs → b.live = true → ∀ x,
    A.bytes.toNat + o ≤ x → x < A.bytes.toNat + o + 8 + b.size → m' x = m x
  free_payload : ∀ o b, (o, b) ∈ geometry.layout 0 bs → b.live = false → ∀ x,
    A.bytes.toNat + o + 8 ≤ x → x < A.bytes.toNat + o + 8 + b.size → m' x = m x
  outside : ∀ x, x < A.bytes.toNat ∨ A.bytes.toNat + 4096 ≤ x → m' x = m x

/-- Two memories with a header at the same place agree on its bytes. -/
theorem header_bytes {o x : ℕ} {b : Block} (ho : o ≤ 4096) (h : sizeAndFlag m (A.at o) = word b)
    (h' : sizeAndFlag m' (A.at o) = word b) (h₁ : A.bytes.toNat + o ≤ x)
    (h₂ : x < A.bytes.toNat + o + 8) : m' x = m x := by
  have heq := h'.trans h.symm
  rw [sizeAndFlag, sizeAndFlag, Arena.at_toNat ho] at heq
  exact ByteMemory.eq_of_load64 heq h₁ h₂

/-- A payload byte is in no header of the merged list: its headers are where headers were. -/
theorem payload_merge {o x : ℕ} {b : Block} (hb : (o, b) ∈ geometry.layout 0 bs)
    (h₁ : A.bytes.toNat + o + 8 ≤ x) (h₂ : x < A.bytes.toNat + o + 8 + b.size) :
    ¬ HeaderByte A 0 (geometry.merge bs) x := by
  rintro ⟨o', c, hc, h₃, h₄⟩
  obtain ⟨d, hd⟩ := Geometry.header_merge hc
  have hapart := Geometry.layout_apart hb hd
  simp only [geometry_hdr] at hapart
  omega

theorem Tiled.coalesces (h : Tiled A m 0 bs) (h' : Tiled A m' 0 (geometry.merge bs))
    (hm : ∀ x, ¬ HeaderByte A 0 (geometry.merge bs) x → m' x = m x) :
    Coalesces A m m' bs (geometry.merge bs) where
  tiled := h'
  chunks _ _ := Geometry.mem_layout_merge
  separated := Geometry.separated_merge bs
  live_bytes o b hb hl x h₁ h₂ := by
    by_cases hx : x < A.bytes.toNat + o + 8
    · have hb' := (Geometry.live_layout_merge hl).mpr hb
      have hle := (Geometry.layout_bounds hb).2
      rw [h.ends] at hle
      exact header_bytes (by omega) (h.headers o b hb) (h'.headers o b hb') h₁ hx
    · exact hm x (payload_merge hb (by omega) h₂)
  free_payload o b hb _ x h₁ h₂ := hm x (payload_merge hb h₁ h₂)
  outside x hx := by
    refine hm x fun hh => ?_
    have hbounds := hh.bounds
    rw [Nat.add_assoc, h'.ends] at hbounds
    omega

/-- **`coalesce` on a tiled heap.**  It ends, joins every maximal run of free chunks, leaves all
other bytes as they are, and changes nothing when it is called again. -/
theorem coalesce_tiled (h : Tiled A m 0 bs) :
    ∃ m' bs', coalesce A m = some m' ∧ Coalesces A m m' bs bs' ∧ coalesce A m' = some m' := by
  obtain ⟨m', hret, htiled, hm⟩ := coalesce_spec h
  exact ⟨m', geometry.merge bs, hret, h.coalesces htiled hm,
    coalesce_separated htiled (Geometry.separated_merge bs)⟩

/-- Two free chunks, an allocated one, and three free ones. -/
def runsSample : List Block :=
  [⟨8, false⟩, ⟨16, false⟩, ⟨24, true⟩, ⟨32, false⟩, ⟨40, false⟩, ⟨3928, false⟩]

/-- A memory with their headers. -/
def runsMemory : ByteMemory :=
  (geometry.layout 0 runsSample).foldl
    (fun m c => setSizeAndFlag m (Arena.sample.at c.1) (word c.2)) fun _ => 7

theorem coalesce_tiled_sample :
    ∃ m' bs', coalesce .sample runsMemory = some m' ∧
      Coalesces .sample runsMemory m' runsSample bs' ∧ coalesce .sample m' = some m' :=
  coalesce_tiled ⟨by decide, by decide, fun o b h => by
    have hall : ∀ c ∈ geometry.layout 0 runsSample,
        sizeAndFlag runsMemory (Arena.sample.at c.1) = word c.2 := by decide +kernel
    exact hall (o, b) h⟩

end CS214.Malloc
