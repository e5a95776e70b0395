import CS214.Lib.BlockList
import CS214.Malloc.Source

/-!
# Malloc — headers that tile the heap

`Headers A m off bs`: the words of `m` at the header offsets of `bs`, laid out from `off` on, are
the headers of `bs`.  When `bs` also ends at the end of the heap, the loops of the source can be
read on the list:

* `find_free` finds the first block that fits (`findFree_spec`, `findFree_none`);
* `split_chunk` and marking the chunk allocated carve it (`take_spec`, `Tiled.take`);
* `coalesce` merges every run of free blocks (`coalesce_spec`).

Each says which bytes may change: those of the headers of the resulting list (`HeaderByte`).
-/

namespace CS214.Malloc

/-- The parameters of `mymalloc.c`, for the library of block lists. -/
def geometry : Geometry where
  hdr := 8
  grain := 8
  slack := 16
  total := 4096
  hdr_pos := by decide
  hdr_lt_slack := by decide
  hdr_lt_total := by decide
  grain_dvd_hdr := by decide
  grain_dvd_total := by decide

@[simp] theorem geometry_hdr : geometry.hdr = 8 := rfl
@[simp] theorem geometry_grain : geometry.grain = 8 := rfl
@[simp] theorem geometry_slack : geometry.slack = 16 := rfl
@[simp] theorem geometry_total : geometry.total = 4096 := rfl

/-! ### Addresses -/

/-- The address `off` bytes into the heap. -/
def Arena.at (A : Arena) (off : ℕ) : UInt64 := A.bytes + UInt64.ofNat off

variable {A : Arena} {m m' : ByteMemory}

theorem toNat_ofNat_small {n : ℕ} (h : n < 2 ^ 64) : (UInt64.ofNat n).toNat = n :=
  UInt64.toNat_ofNat_of_lt' h

theorem Arena.at_toNat {off : ℕ} (h : off ≤ 4096) : (A.at off).toNat = A.bytes.toNat + off := by
  have := A.fits
  rw [Arena.at, UInt64.toNat_add, toNat_ofNat_small (by omega)]
  omega

@[simp] theorem Arena.at_zero : A.at 0 = A.bytes := by simp [Arena.at]

theorem Arena.limit_eq : A.limit = A.at 4096 := rfl

theorem Arena.at_add (off n : ℕ) : A.at off + UInt64.ofNat n = A.at (off + n) := by
  rw [Arena.at, Arena.at, UInt64.ofNat_add, UInt64.add_assoc]

theorem Arena.at_header (off : ℕ) : A.at off + headerSize = A.at (off + 8) :=
  Arena.at_add off 8

theorem Arena.at_lt {a b : ℕ} (ha : a ≤ 4096) (hb : b ≤ 4096) : A.at a < A.at b ↔ a < b := by
  rw [UInt64.lt_iff_toNat_lt, Arena.at_toNat ha, Arena.at_toNat hb]
  omega

theorem Arena.at_inj {a b : ℕ} (ha : a ≤ 4096) (hb : b ≤ 4096) (h : A.at a = A.at b) : a = b := by
  have := congrArg UInt64.toNat h
  rw [Arena.at_toNat ha, Arena.at_toNat hb] at this
  omega

theorem Arena.at_ne_zero {off : ℕ} (h : off ≤ 4096) : A.at off ≠ 0 := by
  intro e
  have h₀ := congrArg UInt64.toNat e
  have := A.nonnull
  rw [Arena.at_toNat h, UInt64.toNat_zero] at h₀
  omega

/-! ### Headers -/

/-- The header of a block. -/
def word (b : Block) : UInt64 := UInt64.ofNat (b.size + if b.live then 1 else 0)

/-- The words of memory at the header offsets of `bs`, from `off` on, are the headers of `bs`. -/
def Headers (A : Arena) (m : ByteMemory) (off : ℕ) (bs : List Block) : Prop :=
  ∀ o b, (o, b) ∈ geometry.layout off bs → sizeAndFlag m (A.at o) = word b

/-- `x` is the address of a byte of a header of `bs`. -/
def HeaderByte (A : Arena) (off : ℕ) (bs : List Block) (x : ℕ) : Prop :=
  ∃ o b, (o, b) ∈ geometry.layout off bs ∧ A.bytes.toNat + o ≤ x ∧ x < A.bytes.toNat + o + 8

/-- `bs` is laid out from `off` to the end of the heap, and its headers are in memory. -/
structure Tiled (A : Arena) (m : ByteMemory) (off : ℕ) (bs : List Block) : Prop where
  sized : ∀ b ∈ bs, 0 < b.size ∧ 8 ∣ b.size
  ends : off + geometry.extent bs = 4096
  headers : Headers A m off bs

theorem headers_nil (off : ℕ) : Headers A m off [] := by
  intro o b h; simp at h

theorem headers_cons {off : ℕ} {b : Block} {bs : List Block} :
    Headers A m off (b :: bs) ↔
      sizeAndFlag m (A.at off) = word b ∧ Headers A m (off + 8 + b.size) bs := by
  constructor
  · exact fun h => ⟨h off b List.mem_cons_self, fun o c hc => h o c (List.mem_cons_of_mem _ hc)⟩
  · rintro ⟨h₀, h⟩ o c hc
    rcases List.mem_cons.mp hc with hc | hc
    · obtain ⟨rfl, rfl⟩ := Prod.mk.inj hc
      exact h₀
    · exact h o c hc

theorem headers_append {off : ℕ} {bs cs : List Block} :
    Headers A m off (bs ++ cs) ↔
      Headers A m off bs ∧ Headers A m (off + geometry.extent bs) cs := by
  simp only [Headers, Geometry.layout_append, List.mem_append]
  exact ⟨fun h => ⟨fun o b hb => h o b (.inl hb), fun o b hb => h o b (.inr hb)⟩,
    fun ⟨h₁, h₂⟩ o b hb => hb.elim (h₁ o b) (h₂ o b)⟩

theorem headerByte_cons {off x : ℕ} {b : Block} {bs : List Block} :
    HeaderByte A off (b :: bs) x ↔
      (A.bytes.toNat + off ≤ x ∧ x < A.bytes.toNat + off + 8) ∨
        HeaderByte A (off + 8 + b.size) bs x := by
  constructor
  · rintro ⟨o, c, hc, hx⟩
    rcases List.mem_cons.mp hc with hc | hc
    · obtain ⟨rfl, rfl⟩ := Prod.mk.inj hc
      exact .inl hx
    · exact .inr ⟨o, c, hc, hx⟩
  · rintro (hx | ⟨o, c, hc, hx⟩)
    · exact ⟨off, b, List.mem_cons_self, hx⟩
    · exact ⟨o, c, List.mem_cons_of_mem _ hc, hx⟩

theorem headerByte_append {off x : ℕ} {bs cs : List Block} :
    HeaderByte A off (bs ++ cs) x ↔
      HeaderByte A off bs x ∨ HeaderByte A (off + geometry.extent bs) cs x := by
  simp only [HeaderByte, Geometry.layout_append, List.mem_append, or_and_right, exists_or]

/-- Header bytes lie between the first header and the end of the last block. -/
theorem HeaderByte.bounds {off x : ℕ} {bs : List Block} (h : HeaderByte A off bs x) :
    A.bytes.toNat + off ≤ x ∧ x < A.bytes.toNat + off + geometry.extent bs := by
  obtain ⟨o, b, hb, h₁, h₂⟩ := h
  have := Geometry.layout_bounds hb
  simp only [geometry_hdr] at this
  omega

/-- The word at an offset, after a write elsewhere. -/
theorem sizeAndFlag_congr {o : ℕ} (ho : o ≤ 4096)
    (h : ∀ x, A.bytes.toNat + o ≤ x → x < A.bytes.toNat + o + 8 → m' x = m x) :
    sizeAndFlag m' (A.at o) = sizeAndFlag m (A.at o) := by
  rw [sizeAndFlag, sizeAndFlag, Arena.at_toNat ho]
  exact ByteMemory.load64_congr h

/-- Headers are kept by a memory that agrees on their bytes. -/
theorem Headers.frame {off : ℕ} {bs : List Block} (h : Headers A m off bs)
    (hend : off + geometry.extent bs ≤ 4096) (hm : ∀ x, HeaderByte A off bs x → m' x = m x) :
    Headers A m' off bs := by
  intro o b hb
  have := Geometry.layout_bounds hb
  simp only [geometry_hdr] at this
  rw [sizeAndFlag_congr (m := m) (by omega) fun x h₁ h₂ => hm x ⟨o, b, hb, h₁, h₂⟩]
  exact h o b hb

theorem setSizeAndFlag_apart {o x : ℕ} {w : UInt64} (ho : o ≤ 4096)
    (hx : x < A.bytes.toNat + o ∨ A.bytes.toNat + o + 8 ≤ x) :
    setSizeAndFlag m (A.at o) w x = m x := by
  rw [setSizeAndFlag, Arena.at_toNat ho]
  exact ByteMemory.store64_apart hx

@[simp] theorem sizeAndFlag_set_self {p w : UInt64} :
    sizeAndFlag (setSizeAndFlag m p w) p = w :=
  ByteMemory.load64_store64_self _ _ _

theorem sizeAndFlag_set_apart {o o' : ℕ} {w : UInt64} (ho : o ≤ 4096) (ho' : o' ≤ 4096)
    (h : o' + 8 ≤ o ∨ o + 8 ≤ o') :
    sizeAndFlag (setSizeAndFlag m (A.at o) w) (A.at o') = sizeAndFlag m (A.at o') := by
  rw [sizeAndFlag, sizeAndFlag, setSizeAndFlag, Arena.at_toNat ho, Arena.at_toNat ho']
  exact ByteMemory.load64_store64_apart (by omega)

namespace Tiled

variable {off : ℕ} {b : Block} {bs : List Block}

theorem tail (h : Tiled A m off (b :: bs)) : Tiled A m (off + 8 + b.size) bs where
  sized c hc := h.sized c (List.mem_cons_of_mem _ hc)
  ends := by
    have := h.ends
    simp only [Geometry.extent_cons, geometry_hdr] at this
    omega
  headers := (headers_cons.mp h.headers).2

theorem head_le (h : Tiled A m off (b :: bs)) : off + 8 + b.size ≤ 4096 := by
  have := h.tail.ends
  omega

theorem word_eq (h : Tiled A m off (b :: bs)) : sizeAndFlag m (A.at off) = word b :=
  (headers_cons.mp h.headers).1

theorem length_le (h : Tiled A m off bs) : 8 * bs.length ≤ 4096 := by
  have hl : ∀ cs : List Block, 8 * cs.length ≤ geometry.extent cs := fun cs => by
    induction cs with
    | nil => simp
    | cons c cs ih =>
        simp only [List.length_cons, Geometry.extent_cons, geometry_hdr]
        omega
  have := hl bs
  have := h.ends
  omega

end Tiled

/-! ### What a header says -/

section Word

variable {o : ℕ} {b : Block}

theorem word_toNat (h : b.size ≤ 4096) : (word b).toNat = b.size + if b.live then 1 else 0 := by
  rw [word, toNat_ofNat_small]
  split <;> omega

theorem chunkSize_of_word (h : sizeAndFlag m (A.at o) = word b) (hs : b.size ≤ 4096)
    (hd : 8 ∣ b.size) : chunkSize m (A.at o) = UInt64.ofNat b.size := by
  rw [chunkSize, h, ← UInt64.toNat_inj, FlagWord.toNat_clear_one, word_toNat hs,
    toNat_ofNat_small (by omega)]
  split <;> omega

theorem isFree_of_word (h : sizeAndFlag m (A.at o) = word b) (hs : b.size ≤ 4096)
    (hd : 8 ∣ b.size) : isFree m (A.at o) = !b.live := by
  have hw : (word b &&& 1 = 0) ↔ b.live = false := by
    rw [FlagWord.and_one_eq_zero, word_toNat hs]
    cases b.live <;> simp <;> omega
  rw [isFree, h]
  cases hb : b.live with
  | true => simpa [hb] using hw
  | false => simpa [hb] using hw

end Word

/-- The word that a free chunk of `n` bytes is given. -/
theorem clear_ofNat {n : ℕ} (h : n ≤ 4096) (hd : 8 ∣ n) :
    UInt64.ofNat n &&& ~~~1 = word ⟨n, false⟩ := by
  rw [← UInt64.toNat_inj, FlagWord.toNat_clear_one, word_toNat h,
    toNat_ofNat_small (by omega)]
  simp only [Bool.false_eq_true, if_false]
  omega

namespace Tiled

variable {off : ℕ} {b : Block} {bs : List Block}

theorem head_sized (h : Tiled A m off (b :: bs)) : 0 < b.size ∧ 8 ∣ b.size ∧ b.size ≤ 4096 :=
  ⟨(h.sized b List.mem_cons_self).1, (h.sized b List.mem_cons_self).2, by
    have := h.head_le; omega⟩

theorem chunkSize_eq (h : Tiled A m off (b :: bs)) :
    chunkSize m (A.at off) = UInt64.ofNat b.size :=
  chunkSize_of_word h.word_eq h.head_sized.2.2 h.head_sized.2.1

theorem chunkSize_toNat (h : Tiled A m off (b :: bs)) :
    (chunkSize m (A.at off)).toNat = b.size := by
  have := h.head_sized
  rw [h.chunkSize_eq, toNat_ofNat_small (by omega)]

theorem chunkSize_ne_zero (h : Tiled A m off (b :: bs)) : chunkSize m (A.at off) ≠ 0 := by
  intro e
  have h₀ := congrArg UInt64.toNat e
  have := h.head_sized
  rw [h.chunkSize_toNat, UInt64.toNat_zero] at h₀
  omega

theorem isFree_eq (h : Tiled A m off (b :: bs)) : isFree m (A.at off) = !b.live :=
  isFree_of_word h.word_eq h.head_sized.2.2 h.head_sized.2.1

/-- `curr + HEADER_SIZE + chunk_size`. -/
theorem next_eq (h : Tiled A m off (b :: bs)) :
    A.at off + headerSize + chunkSize m (A.at off) = A.at (off + 8 + b.size) := by
  rw [h.chunkSize_eq, Arena.at_header, Arena.at_add]

theorem curr_lt (h : Tiled A m off (b :: bs)) : A.at off < A.limit := by
  have := h.head_le
  rw [Arena.limit_eq, Arena.at_lt (by omega) (le_refl _)]
  omega

theorem not_limit_lt (h : Tiled A m off (b :: bs)) :
    ¬ A.limit < A.at (off + 8 + b.size) := by
  have := h.head_le
  rw [Arena.limit_eq, Arena.at_lt (le_refl _) this]
  omega

theorem eq_limit (h : Tiled A m off []) : A.at off = A.limit := by
  have := h.ends
  rw [Arena.limit_eq]
  simp only [Geometry.extent_nil] at this
  rw [show off = 4096 by omega]

end Tiled

/-! ### `find_free` -/

/-- One iteration of `find_free` on a chunk of the tiling. -/
theorem findFreeLoop_cons {size : UInt64} {n off : ℕ} {b : Block} {bs : List Block}
    (h : Tiled A m off (b :: bs)) :
    findFreeLoop A m size (n + 1) (A.at off) =
      if Geometry.fits size.toNat b then some (A.at off)
      else findFreeLoop A m size n (A.at (off + 8 + b.size)) := by
  have hfit : (isFree m (A.at off) = true ∧ size ≤ chunkSize m (A.at off)) ↔
      Geometry.fits size.toNat b = true := by
    rw [Geometry.fits_iff, h.isFree_eq, UInt64.le_iff_toNat_le, h.chunkSize_toNat]
    simp
  rw [findFreeLoop, if_pos h.curr_lt, h.next_eq,
    if_neg (not_or.mpr ⟨h.chunkSize_ne_zero, h.not_limit_lt⟩)]
  simp only [hfit]

theorem findFreeLoop_none {size : UInt64} {n off : ℕ} {bs : List Block} (h : Tiled A m off bs)
    (hn : bs.length < n) (hno : ∀ b ∈ bs, Geometry.fits size.toNat b = false) :
    findFreeLoop A m size n (A.at off) = some 0 := by
  induction bs generalizing off n with
  | nil =>
      obtain ⟨n, rfl⟩ := Nat.exists_eq_succ_of_ne_zero (by omega : n ≠ 0)
      rw [findFreeLoop, h.eq_limit, if_neg (by simp [UInt64.lt_irrefl])]
  | cons b bs ih =>
      obtain ⟨n, rfl⟩ := Nat.exists_eq_succ_of_ne_zero (by omega : n ≠ 0)
      simp only [List.length_cons] at hn
      rw [findFreeLoop_cons h, hno b List.mem_cons_self]
      exact ih h.tail (by omega) fun c hc => hno c (List.mem_cons_of_mem _ hc)

theorem findFreeLoop_some {size : UInt64} {n off : ℕ} {pre : List Block} {b : Block}
    {post : List Block} (h : Tiled A m off (pre ++ b :: post))
    (hn : (pre ++ b :: post).length < n) (hpre : ∀ c ∈ pre, Geometry.fits size.toNat c = false)
    (hb : Geometry.fits size.toNat b = true) :
    findFreeLoop A m size n (A.at off) = some (A.at (off + geometry.extent pre)) := by
  induction pre generalizing off n with
  | nil =>
      obtain ⟨n, rfl⟩ := Nat.exists_eq_succ_of_ne_zero (by omega : n ≠ 0)
      rw [findFreeLoop_cons h, hb]
      rfl
  | cons c cs ih =>
      obtain ⟨n, rfl⟩ := Nat.exists_eq_succ_of_ne_zero (by omega : n ≠ 0)
      simp only [List.cons_append, List.length_cons] at hn h
      rw [findFreeLoop_cons h, hpre c List.mem_cons_self]
      have ih := ih (n := n) h.tail (by omega) fun d hd => hpre d (List.mem_cons_of_mem _ hd)
      simp only [Bool.false_eq_true, if_false, Geometry.extent_cons, geometry_hdr, ih]
      rw [show off + 8 + c.size + geometry.extent cs = off + (8 + c.size + geometry.extent cs) by
        omega]

/-- `find_free` on a tiled heap finds no chunk when none fits. -/
theorem findFree_none {size : UInt64} {bs : List Block} (h : Tiled A m 0 bs)
    (hno : ∀ b ∈ bs, Geometry.fits size.toNat b = false) : findFree A m size = some 0 := by
  have := h.length_le
  rw [findFree, ← Arena.at_zero]
  exact findFreeLoop_none h (by simp only [loopBound]; omega) hno

/-- `find_free` on a tiled heap finds the first chunk that fits. -/
theorem findFree_spec {size : UInt64} {pre : List Block} {b : Block} {post : List Block}
    (h : Tiled A m 0 (pre ++ b :: post)) (hpre : ∀ c ∈ pre, Geometry.fits size.toNat c = false)
    (hb : Geometry.fits size.toNat b = true) :
    findFree A m size = some (A.at (geometry.extent pre)) := by
  have := h.length_le
  rw [findFree, ← Arena.at_zero, ← Nat.zero_add (geometry.extent pre)]
  exact findFreeLoop_some h (by simp only [loopBound]; omega) hpre hb

/-! ### `coalesce` -/

theorem merge_cons_of_live {b c : Block} {bs : List Block} (h : b.live = true ∨ c.live = true) :
    geometry.merge (b :: c :: bs) = b :: geometry.merge (c :: bs) := by
  rcases h with h | h
  · exact Geometry.glue_live h _
  · have hc : geometry.merge (c :: bs) = c :: geometry.merge bs := Geometry.glue_live h _
    rw [Geometry.merge, hc]
    simp [Geometry.glue, h]

/-- The first header of a merged list is where the first header of the list is. -/
theorem merge_headerByte_head {off x : ℕ} {b : Block} {bs : List Block}
    (h : A.bytes.toNat + off ≤ x ∧ x < A.bytes.toNat + off + 8) :
    HeaderByte A off (geometry.merge (b :: bs)) x := by
  rw [Geometry.merge]
  cases geometry.merge bs with
  | nil => exact headerByte_cons.mpr (.inl h)
  | cons c cs =>
      rcases Geometry.glue_cons (G := geometry) b c cs with ⟨-, e⟩ | ⟨-, e⟩ <;>
        rw [e] <;> exact headerByte_cons.mpr (.inl h)

/-- The tiling after the header of two adjacent free chunks is written. -/
theorem Tiled.absorb {off : ℕ} {b c : Block} {bs : List Block}
    (h : Tiled A m off (b :: c :: bs)) :
    Tiled A (setSizeAndFlag m (A.at off) (word (geometry.absorb b c))) off
      (geometry.absorb b c :: bs) := by
  have hb := h.head_sized
  have hc := h.tail.head_sized
  have he := h.ends
  have hle := h.tail.head_le
  refine ⟨?_, ?_, headers_cons.mpr ⟨sizeAndFlag_set_self, ?_⟩⟩
  · intro d hd
    rcases List.mem_cons.mp hd with rfl | hd
    · simp only [Geometry.absorb, geometry_hdr]; omega
    · exact h.sized d (List.mem_cons_of_mem _ (List.mem_cons_of_mem _ hd))
  · simp only [Geometry.extent_cons, Geometry.absorb, geometry_hdr] at he ⊢; omega
  · have ht := h.tail.tail
    have hends := ht.ends
    rw [show off + 8 + (geometry.absorb b c).size = off + 8 + b.size + 8 + c.size by
      simp only [Geometry.absorb, geometry_hdr]; omega]
    refine ht.headers.frame (by omega) fun x hx => setSizeAndFlag_apart (by omega) ?_
    have := hx.bounds
    omega

/-- The size word `coalesce` writes when it merges two chunks. -/
theorem Tiled.merged_word {off : ℕ} {b c : Block} {bs : List Block}
    (h : Tiled A m off (b :: c :: bs)) :
    (chunkSize m (A.at off) + headerSize + chunkSize m (A.at (off + 8 + b.size))) &&& ~~~1 =
      word (geometry.absorb b c) := by
  have hb := h.head_sized
  have hc := h.tail.head_sized
  have hle := h.tail.head_le
  have e : UInt64.ofNat b.size + headerSize + UInt64.ofNat c.size =
      UInt64.ofNat (b.size + 8 + c.size) := by
    rw [UInt64.ofNat_add, UInt64.ofNat_add]; rfl
  rw [h.chunkSize_eq, h.tail.chunkSize_eq, e]
  exact clear_ofNat (by omega) (by omega)

/-- A header kept in front of a tiling of what follows it. -/
theorem Tiled.cons {off : ℕ} {b : Block} {bs cs : List Block} (h : Tiled A m off (b :: bs))
    (ht : Tiled A m' (off + 8 + b.size) cs)
    (hm : ∀ x, A.bytes.toNat + off ≤ x → x < A.bytes.toNat + off + 8 → m' x = m x) :
    Tiled A m' off (b :: cs) where
  sized c hc := by
    rcases List.mem_cons.mp hc with rfl | hc
    · exact h.sized _ List.mem_cons_self
    · exact ht.sized c hc
  ends := by
    have := ht.ends
    simp only [Geometry.extent_cons, geometry_hdr]
    omega
  headers := by
    have := h.head_le
    exact headers_cons.mpr
      ⟨(sizeAndFlag_congr (by omega) hm).trans h.word_eq, ht.headers⟩

/-- One iteration of `coalesce` on two free chunks: the first absorbs the second. -/
theorem coalesceLoop_merge {n off : ℕ} {b c : Block} {bs : List Block}
    (h : Tiled A m off (b :: c :: bs)) (hb : b.live = false) (hc : c.live = false) :
    coalesceLoop A (n + 1) m (A.at off) =
      coalesceLoop A n (setSizeAndFlag m (A.at off) (word (geometry.absorb b c))) (A.at off) := by
  have hpos : 0 < chunkSize m (A.at (off + 8 + b.size)) :=
    UInt64.pos_iff_ne_zero.mpr h.tail.chunkSize_ne_zero
  rw [coalesceLoop, if_pos h.curr_lt, if_neg h.chunkSize_ne_zero]
  simp only [h.next_eq, h.isFree_eq, h.tail.isFree_eq, h.tail.curr_lt, hpos, hb, hc, h.merged_word,
    Bool.not_false, and_self, if_true]

/-- One iteration of `coalesce` on a chunk that is last, in use, or before one in use. -/
theorem coalesceLoop_next {n off : ℕ} {b : Block} {bs : List Block} (h : Tiled A m off (b :: bs))
    (hl : ∀ c ∈ bs.head?, b.live = true ∨ c.live = true) :
    coalesceLoop A (n + 1) m (A.at off) = coalesceLoop A n m (A.at (off + 8 + b.size)) := by
  rw [coalesceLoop, if_pos h.curr_lt, if_neg h.chunkSize_ne_zero]
  simp only [h.next_eq, h.isFree_eq]
  cases bs with
  | nil => simp only [h.tail.eq_limit, UInt64.lt_irrefl, false_and, and_false, if_false]
  | cons c bs =>
      rcases hl c rfl with hl | hl
      · simp [hl]
      · simp [h.tail.isFree_eq, hl]

/-- `coalesce` from a header on: it ends, merges every run of free chunks, and writes nothing but
the headers of the merged list.  Each iteration merges two chunks or moves on, so the list gets
shorter. -/
theorem coalesceLoop_spec {n : ℕ} :
    ∀ {m : ByteMemory} {off : ℕ} {bs : List Block}, Tiled A m off bs → bs.length < n →
      ∃ m', coalesceLoop A n m (A.at off) = some m' ∧ Tiled A m' off (geometry.merge bs) ∧
        ∀ x, ¬ HeaderByte A off (geometry.merge bs) x → m' x = m x := by
  induction n with
  | zero => intro m off bs _ hn; omega
  | succ n ih =>
      intro m off bs h hn
      -- the chunk stays, and the loop goes on at the next one
      have next : ∀ {b : Block} {bs : List Block}, Tiled A m off (b :: bs) → bs.length < n →
          (∀ c ∈ bs.head?, b.live = true ∨ c.live = true) →
          geometry.merge (b :: bs) = b :: geometry.merge bs →
          ∃ m', coalesceLoop A (n + 1) m (A.at off) = some m' ∧
            Tiled A m' off (geometry.merge (b :: bs)) ∧
            ∀ x, ¬ HeaderByte A off (geometry.merge (b :: bs)) x → m' x = m x := by
        intro b bs h hn hl e
        obtain ⟨m', h₁, h₂, h₃⟩ := ih h.tail hn
        rw [coalesceLoop_next h hl, e]
        refine ⟨m', h₁, h.cons h₂ fun x _ hx => h₃ x ?_, fun x hx => h₃ x ?_⟩
        · intro hb
          have := hb.bounds; omega
        · intro hb
          exact hx (headerByte_cons.mpr (.inr hb))
      cases bs with
      | nil =>
          refine ⟨m, ?_, h, fun _ _ => rfl⟩
          rw [coalesceLoop, h.eq_limit, if_neg (UInt64.lt_irrefl _)]
      | cons b bs =>
          simp only [List.length_cons] at hn
          cases bs with
          | nil => exact next h (by simp only [List.length_nil]; omega) (by simp) rfl
          | cons c bs =>
              simp only [List.length_cons] at hn
              by_cases hl : b.live = true ∨ c.live = true
              · exact next h (by simp only [List.length_cons]; omega) (by simpa using hl)
                  (merge_cons_of_live hl)
              · rw [not_or, Bool.not_eq_true, Bool.not_eq_true] at hl
                obtain ⟨m', h₁, h₂, h₃⟩ := ih h.absorb (by simp only [List.length_cons]; omega)
                rw [Geometry.merge_absorb hl.1 hl.2, coalesceLoop_merge h hl.1 hl.2]
                refine ⟨m', h₁, h₂, fun x hx => (h₃ x hx).trans ?_⟩
                have hle := h.head_le
                refine setSizeAndFlag_apart (by omega) ?_
                by_contra hno
                exact hx (merge_headerByte_head (by omega))

theorem coalesce_spec {bs : List Block} (h : Tiled A m 0 bs) :
    ∃ m', coalesce A m = some m' ∧ Tiled A m' 0 (geometry.merge bs) ∧
      ∀ x, ¬ HeaderByte A 0 (geometry.merge bs) x → m' x = m x := by
  have := h.length_le
  rw [coalesce, ← Arena.at_zero]
  exact coalesceLoop_spec h (by simp only [loopBound]; omega)

/-- Without two adjacent free chunks `coalesce` writes nothing at all. -/
theorem coalesceLoop_separated {n off : ℕ} {bs : List Block} (h : Tiled A m off bs)
    (hs : Geometry.Separated bs) (hn : bs.length < n) :
    coalesceLoop A n m (A.at off) = some m := by
  induction bs generalizing n off with
  | nil =>
      obtain ⟨n, rfl⟩ := Nat.exists_eq_succ_of_ne_zero (Nat.ne_of_gt hn)
      rw [coalesceLoop, h.eq_limit, if_neg (UInt64.lt_irrefl _)]
  | cons b bs ih =>
      obtain ⟨n, rfl⟩ := Nat.exists_eq_succ_of_ne_zero (Nat.ne_of_gt (Nat.zero_lt_of_lt hn))
      rw [coalesceLoop_next h ?_]
      · exact ih h.tail hs.of_cons (Nat.lt_of_succ_lt_succ hn)
      · intro c hc
        cases bs with
        | nil => cases hc
        | cons d ds =>
            obtain rfl := Option.some.inj hc
            exact (List.isChain_cons_cons.mp hs).1

theorem coalesce_separated {bs : List Block} (h : Tiled A m 0 bs) (hs : Geometry.Separated bs) :
    coalesce A m = some m := by
  have hlen := h.length_le
  rw [coalesce, ← Arena.at_zero]
  exact coalesceLoop_separated h hs (by simp only [loopBound]; omega)

/-! ### `split_chunk` -/

theorem word_set_flag {n : ℕ} (h : n ≤ 4096) (hd : 8 ∣ n) :
    word ⟨n, false⟩ ||| 1 = word ⟨n, true⟩ := by
  have h₁ : (word ⟨n, false⟩).toNat = n := word_toNat (b := ⟨n, false⟩) h
  have h₂ : (word ⟨n, true⟩).toNat = n + 1 := word_toNat (b := ⟨n, true⟩) h
  rw [← UInt64.toNat_inj, FlagWord.toNat_or_flag (by omega) (by decide), h₁, h₂]
  rfl

theorem word_clear_flag {n : ℕ} (h : n ≤ 4096) (hd : 8 ∣ n) :
    word ⟨n, true⟩ &&& ~~~1 = word ⟨n, false⟩ := by
  have h₁ : (word ⟨n, false⟩).toNat = n := word_toNat (b := ⟨n, false⟩) h
  have h₂ : (word ⟨n, true⟩).toNat = n + 1 := word_toNat (b := ⟨n, true⟩) h
  rw [← UInt64.toNat_inj, FlagWord.toNat_clear_one, h₁, h₂]
  omega

theorem word_flag {n : ℕ} (h : n ≤ 4096) (hd : 8 ∣ n) : word ⟨n, false⟩ &&& 1 = 0 := by
  have h₁ : (word ⟨n, false⟩).toNat = n := word_toNat (b := ⟨n, false⟩) h
  rw [FlagWord.and_one_eq_zero, h₁]
  omega

section Take

variable {o n : ℕ} {size : UInt64} {b : Block} (ho : o + 8 + b.size ≤ 4096) (hd : 8 ∣ b.size)
  (hb : b.live = false) (hw : sizeAndFlag m (A.at o) = word b) (hn : size.toNat = n)
  (hnd : 8 ∣ n) (hle : n ≤ b.size)

include ho hd hb hw hn hnd hle

theorem splitChunk_split (hs : n + 16 ≤ b.size) :
    splitChunk m (A.at o) size =
      setSizeAndFlag (setSizeAndFlag m (A.at (o + 8 + n)) (word ⟨b.size - n - 8, false⟩))
        (A.at o) (word ⟨n, false⟩) := by
  obtain rfl : size = UInt64.ofNat n := by rw [← hn, UInt64.ofNat_toNat]
  have hcs : chunkSize m (A.at o) = UInt64.ofNat b.size := chunkSize_of_word hw (by omega) hd
  have hcond : UInt64.ofNat n + minChunkSize ≤ UInt64.ofNat b.size := by
    rw [UInt64.le_iff_toNat_le, UInt64.toNat_add, toNat_ofNat_small (by omega),
      toNat_ofNat_small (by omega), minChunkSize_toNat]
    omega
  have hrem : (UInt64.ofNat b.size - UInt64.ofNat n - headerSize) &&& ~~~1 =
      word ⟨b.size - n - 8, false⟩ := by
    have e : UInt64.ofNat b.size - UInt64.ofNat n - headerSize = UInt64.ofNat (b.size - n - 8) := by
      rw [UInt64.ofNat_sub (by omega), UInt64.ofNat_sub (by omega)]
      rfl
    rw [e]
    exact clear_ofNat (by omega) (by omega)
  have hflag : word b &&& 1 = 0 := by
    obtain ⟨n', l⟩ := b
    subst hb
    exact word_flag (by simp only at ho ⊢; omega) hd
  rw [splitChunk, hcs, if_pos hcond]
  simp only [Arena.at_header, Arena.at_add, hrem]
  rw [sizeAndFlag_set_apart (by omega) (by omega) (by omega), hw, hflag, UInt64.or_zero,
    clear_ofNat (by omega) hnd]

omit hb in
theorem splitChunk_whole (hs : ¬ n + 16 ≤ b.size) : splitChunk m (A.at o) size = m := by
  have hcs : chunkSize m (A.at o) = UInt64.ofNat b.size := chunkSize_of_word hw (by omega) hd
  rw [splitChunk, hcs, if_neg]
  rw [UInt64.le_iff_toNat_le, UInt64.toNat_add, toNat_ofNat_small (by omega), hn,
    minChunkSize_toNat]
  omega

/-- Splitting and marking a free chunk writes the headers it is carved into. -/
theorem take_spec :
    Headers A (take m (A.at o) size) o (geometry.carve n b) ∧
      ∀ x, ¬ HeaderByte A o (geometry.carve n b) x → take m (A.at o) size x = m x := by
  by_cases hs : n + 16 ≤ b.size
  · have hcarve : geometry.carve n b = [⟨n, true⟩, ⟨b.size - n - 8, false⟩] := by
      simp [Geometry.carve, hs]
    rw [hcarve, take, splitChunk_split ho hd hb hw hn hnd hle hs, sizeAndFlag_set_self,
      word_set_flag (by omega) hnd]
    refine ⟨headers_cons.mpr ⟨sizeAndFlag_set_self, headers_cons.mpr ⟨?_, headers_nil _⟩⟩, ?_⟩
    · rw [sizeAndFlag_set_apart (by omega) (by simp only; omega) (by simp only; omega),
        sizeAndFlag_set_apart (by omega) (by simp only; omega) (by simp only; omega)]
      exact sizeAndFlag_set_self
    · intro x hx
      rw [headerByte_cons, headerByte_cons] at hx
      simp only [not_or, not_and, not_lt] at hx
      rw [setSizeAndFlag_apart (by omega) (by omega), setSizeAndFlag_apart (by omega) (by omega),
        setSizeAndFlag_apart (by omega) (by omega)]
  · have hcarve : geometry.carve n b = [⟨b.size, true⟩] := by simp [Geometry.carve, hs]
    have hwb : word b = word ⟨b.size, false⟩ := by rw [← hb]
    rw [hcarve, take, splitChunk_whole ho hd hw hn hnd hle hs, hw, hwb,
      word_set_flag (by omega) hd]
    refine ⟨headers_cons.mpr ⟨sizeAndFlag_set_self, headers_nil _⟩, fun x hx => ?_⟩
    rw [headerByte_cons] at hx
    simp only [not_or, not_and, not_lt] at hx
    exact setSizeAndFlag_apart (by omega) (by omega)

end Take

/-- Serving a request from a chunk of a tiled heap. -/
theorem Tiled.take {pre : List Block} {b : Block} {post : List Block} {size : UInt64}
    (h : Tiled A m 0 (pre ++ b :: post)) (hfit : Geometry.fits size.toNat b = true)
    (hpos : 0 < size.toNat) (hdvd : 8 ∣ size.toNat) :
    Tiled A (take m (A.at (geometry.extent pre)) size) 0
        (pre ++ (geometry.carve size.toNat b ++ post)) ∧
      ∀ x, ¬ HeaderByte A 0 (pre ++ (geometry.carve size.toNat b ++ post)) x →
        Malloc.take m (A.at (geometry.extent pre)) size x = m x := by
  obtain ⟨hlive, hle⟩ := Geometry.fits_iff.mp hfit
  obtain ⟨hb₀, hb₈⟩ := h.sized b (by simp)
  have hends := h.ends
  rw [Geometry.extent_append, Geometry.extent_cons, geometry_hdr] at hends
  obtain ⟨hpre, hrest⟩ := headers_append.mp h.headers
  obtain ⟨hw, hpost⟩ := headers_cons.mp hrest
  rw [Nat.zero_add] at hw hpost
  obtain ⟨h₁, h₂⟩ := take_spec (by omega) hb₈ hlive hw rfl hdvd hle
  have hext : geometry.extent (geometry.carve size.toNat b) = 8 + b.size := Geometry.extent_carve
  refine ⟨⟨?_, ?_, ?_⟩, fun x hx => h₂ x fun hc => hx ?_⟩
  · intro c hc
    rcases List.mem_append.mp hc with hc | hc
    · exact h.sized c (List.mem_append_left _ hc)
    · rcases List.mem_append.mp hc with hc | hc
      · exact Geometry.sized_carve (G := geometry) ⟨hpos, hdvd⟩ ⟨hb₀, hb₈⟩ c hc
      · exact h.sized c (List.mem_append_right _ (List.mem_cons_of_mem _ hc))
  · rw [Geometry.extent_append, Geometry.extent_append, hext]
    omega
  · -- the headers before and after the chunk are apart from the ones it is carved into
    refine headers_append.mpr ⟨hpre.frame (by omega) fun x hx => h₂ x fun hc => ?_,
      headers_append.mpr ⟨by rwa [Nat.zero_add], ?_⟩⟩
    · have := hx.bounds
      have := hc.bounds
      omega
    · rw [Nat.zero_add, hext, ← Nat.add_assoc]
      refine hpost.frame (by omega) fun x hx => h₂ x fun hc => ?_
      have := hx.bounds
      have := hc.bounds
      omega
  · rw [headerByte_append, headerByte_append, Nat.zero_add]
    exact .inr (.inl hc)

end CS214.Malloc
