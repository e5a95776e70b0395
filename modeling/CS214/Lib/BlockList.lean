import Mathlib.Data.List.Chain
import Mathlib.Algebra.Order.Group.Nat
import Mathlib.Algebra.GroupWithZero.Nat
import Mathlib.Data.Nat.Notation

/-!
# First-fit allocation on an address-ordered list of blocks

A region of `total` bytes is cut into blocks, each a header of `hdr` bytes followed by `size`
payload bytes.  A list of blocks in address order determines where every header is (`layout`).

* `allocate` takes the first free block that is large enough and cuts off what the request does
  not need when at least `slack` bytes are left over.
* `release` frees the live block at an offset and joins it with its free neighbours.
* `merge` joins every run of adjacent free blocks.  On a list without two adjacent free blocks
  `release` is `merge` after marking the block free (`release_eq_merge`).

`Region` bundles a list with its invariant: block sizes are positive multiples of `grain`, the
blocks cover the region exactly, and no two adjacent blocks are free.  `Region.allocate` and
`Region.release` stay inside it, and a region is determined by its live blocks
(`Region.eq_of_live`).
-/

/-- A block: its payload size, and whether it is in use. -/
structure Block where
  size : ℕ
  live : Bool
deriving DecidableEq, Repr

/-- The parameters of an allocator. -/
structure Geometry where
  hdr : ℕ
  grain : ℕ
  slack : ℕ
  total : ℕ
  hdr_pos : 0 < hdr
  hdr_lt_slack : hdr < slack
  hdr_lt_total : hdr < total
  grain_dvd_hdr : grain ∣ hdr
  grain_dvd_total : grain ∣ total

namespace Geometry

variable (G : Geometry)

/-! ### Where the blocks lie -/

/-- The number of bytes the blocks occupy, headers included. -/
def extent : List Block → ℕ
  | [] => 0
  | b :: bs => G.hdr + b.size + extent bs

/-- Every block with the offset of its header, the first one at `off`. -/
def layout : ℕ → List Block → List (ℕ × Block)
  | _, [] => []
  | off, b :: bs => (off, b) :: layout (off + G.hdr + b.size) bs

@[simp] theorem extent_nil : G.extent [] = 0 := rfl

@[simp] theorem extent_cons (b : Block) (bs : List Block) :
    G.extent (b :: bs) = G.hdr + b.size + G.extent bs := rfl

@[simp] theorem layout_nil (off : ℕ) : G.layout off [] = [] := rfl

@[simp] theorem layout_cons (off : ℕ) (b : Block) (bs : List Block) :
    G.layout off (b :: bs) = (off, b) :: G.layout (off + G.hdr + b.size) bs := rfl

theorem extent_append (bs cs : List Block) :
    G.extent (bs ++ cs) = G.extent bs + G.extent cs := by
  induction bs with
  | nil => simp
  | cons b bs ih => simp only [List.cons_append, extent_cons, ih]; omega

theorem layout_append (off : ℕ) (bs cs : List Block) :
    G.layout off (bs ++ cs) = G.layout off bs ++ G.layout (off + G.extent bs) cs := by
  induction bs generalizing off with
  | nil => simp
  | cons b bs ih =>
      simp only [List.cons_append, layout_cons, extent_cons, ih]
      rw [show off + G.hdr + b.size + G.extent bs = off + (G.hdr + b.size + G.extent bs) by omega]

variable {G}

theorem layout_bounds {off o : ℕ} {b : Block} {bs : List Block} (h : (o, b) ∈ G.layout off bs) :
    off ≤ o ∧ o + G.hdr + b.size ≤ off + G.extent bs := by
  induction bs generalizing off with
  | nil => simp at h
  | cons c cs ih =>
      rcases List.mem_cons.mp h with h | h
      · obtain ⟨rfl, rfl⟩ := Prod.mk.inj h
        simp only [extent_cons]; omega
      · have := ih h
        simp only [extent_cons]; omega

/-- Two blocks of a layout are the same one, or one ends before the other starts. -/
theorem layout_apart {off o o' : ℕ} {b b' : Block} {bs : List Block}
    (h : (o, b) ∈ G.layout off bs) (h' : (o', b') ∈ G.layout off bs) :
    (o = o' ∧ b = b') ∨ o + G.hdr + b.size ≤ o' ∨ o' + G.hdr + b'.size ≤ o := by
  induction bs generalizing off with
  | nil => simp at h
  | cons c cs ih =>
      rcases List.mem_cons.mp h with h | h <;> rcases List.mem_cons.mp h' with h' | h'
      · obtain ⟨rfl, rfl⟩ := Prod.mk.inj h
        obtain ⟨rfl, rfl⟩ := Prod.mk.inj h'
        exact .inl ⟨rfl, rfl⟩
      · obtain ⟨rfl, rfl⟩ := Prod.mk.inj h
        exact .inr (.inl (layout_bounds h').1)
      · obtain ⟨rfl, rfl⟩ := Prod.mk.inj h'
        exact .inr (.inr (layout_bounds h).1)
      · exact ih h h'

/-- A block of a layout, with what lies before and after it. -/
theorem layout_split {off o : ℕ} {b : Block} {bs : List Block} (h : (o, b) ∈ G.layout off bs) :
    ∃ pre post, bs = pre ++ b :: post ∧ o = off + G.extent pre := by
  induction bs generalizing off with
  | nil => simp at h
  | cons c cs ih =>
      rcases List.mem_cons.mp h with h | h
      · obtain ⟨rfl, rfl⟩ := Prod.mk.inj h
        exact ⟨[], cs, rfl, rfl⟩
      · obtain ⟨pre, post, rfl, rfl⟩ := ih h
        exact ⟨c :: pre, post, rfl, by simp only [extent_cons]; omega⟩

theorem mem_layout_mid (off : ℕ) (pre : List Block) (b : Block) (post : List Block) :
    (off + G.extent pre, b) ∈ G.layout off (pre ++ b :: post) := by
  simp [layout_append]

theorem mem_of_mem_layout {off o : ℕ} {b : Block} {bs : List Block}
    (h : (o, b) ∈ G.layout off bs) : b ∈ bs := by
  obtain ⟨pre, post, rfl, -⟩ := layout_split h
  simp

theorem exists_mem_layout (off : ℕ) {b : Block} {bs : List Block} (h : b ∈ bs) :
    ∃ o, (o, b) ∈ G.layout off bs := by
  obtain ⟨pre, post, rfl⟩ := List.append_of_mem h
  exact ⟨_, mem_layout_mid off pre b post⟩

theorem dvd_of_mem_layout {off o : ℕ} {b : Block} {bs : List Block} (hoff : G.grain ∣ off)
    (hs : ∀ c ∈ bs, G.grain ∣ c.size) (h : (o, b) ∈ G.layout off bs) : G.grain ∣ o := by
  induction bs generalizing off with
  | nil => simp at h
  | cons c cs ih =>
      rcases List.mem_cons.mp h with h | h
      · obtain ⟨rfl, -⟩ := Prod.mk.inj h
        exact hoff
      · refine ih ?_ (fun d hd => hs d (List.mem_cons_of_mem _ hd)) h
        exact Nat.dvd_add (Nat.dvd_add hoff G.grain_dvd_hdr) (hs c List.mem_cons_self)

/-- Every offset a layout covers lies in one of its blocks. -/
theorem layout_cover {off k : ℕ} (bs : List Block) (h₁ : off ≤ k) (h₂ : k < off + G.extent bs) :
    ∃ o b, (o, b) ∈ G.layout off bs ∧ o ≤ k ∧ k < o + G.hdr + b.size := by
  induction bs generalizing off with
  | nil => simp only [extent_nil] at h₂; omega
  | cons c cs ih =>
      by_cases hk : k < off + G.hdr + c.size
      · exact ⟨off, c, List.mem_cons_self, h₁, hk⟩
      · simp only [extent_cons] at h₂
        obtain ⟨o, b, hb, hk'⟩ := @ih (off + G.hdr + c.size) (by omega) (by omega)
        exact ⟨o, b, List.mem_cons_of_mem _ hb, hk'⟩

theorem nodup_layout (off : ℕ) (bs : List Block) : (G.layout off bs).Nodup := by
  have hhdr := G.hdr_pos
  induction bs generalizing off with
  | nil => exact List.nodup_nil
  | cons b bs ih =>
      refine List.nodup_cons.mpr ⟨fun h => ?_, ih _⟩
      have := (layout_bounds h).1
      omega

/-- The payload bytes of the live blocks. -/
def liveSize (bs : List Block) : ℕ := ((bs.filter Block.live).map Block.size).sum

theorem liveSize_cons (b : Block) (bs : List Block) :
    liveSize (b :: bs) = (if b.live = true then b.size else 0) + liveSize bs := by
  cases hb : b.live <;> simp [liveSize, hb]

variable (G) in
theorem liveSize_le_extent (bs : List Block) : liveSize bs ≤ G.extent bs := by
  induction bs with
  | nil => exact Nat.zero_le _
  | cons b bs ih =>
      rw [liveSize_cons, extent_cons]
      split <;> omega

/-- Without free blocks, everything but the headers is in use. -/
theorem extent_of_live {bs : List Block} (h : ∀ b ∈ bs, b.live = true) :
    G.extent bs = G.hdr * bs.length + liveSize bs := by
  induction bs with
  | nil => rfl
  | cons b bs ih =>
      obtain ⟨hb, hbs⟩ := List.forall_mem_cons.mp h
      rw [extent_cons, liveSize_cons, if_pos hb, ih hbs, List.length_cons, Nat.mul_add_one]
      omega

theorem layout_live (off : ℕ) (bs : List Block) :
    ((G.layout off bs).filter fun c => c.2.live).map Prod.snd = bs.filter Block.live := by
  induction bs generalizing off with
  | nil => rfl
  | cons b bs ih => cases hb : b.live <;> simp [hb, ih]

/-! ### Joining adjacent free blocks -/

variable (G)

/-- The free block two adjacent free blocks become. -/
def absorb (b c : Block) : Block := ⟨b.size + G.hdr + c.size, false⟩

/-- `b` put before a list, joined with its first block when both are free. -/
def glue (b : Block) : List Block → List Block
  | [] => [b]
  | c :: cs => if b.live || c.live then b :: c :: cs else G.absorb b c :: cs

/-- Every run of adjacent free blocks joined. -/
def merge : List Block → List Block
  | [] => []
  | b :: bs => G.glue b (merge bs)

/-- No two adjacent blocks are free. -/
def Separated (bs : List Block) : Prop :=
  bs.IsChain fun b c => b.live = true ∨ c.live = true

variable {G}

/-- Of two blocks next to each other one is in use. -/
theorem Separated.live_of_adjacent {off o : ℕ} {b c : Block} {bs : List Block}
    (hs : Separated bs) (hb : (o, b) ∈ G.layout off bs)
    (hc : (o + G.hdr + b.size, c) ∈ G.layout off bs) : b.live = true ∨ c.live = true := by
  have hhdr := G.hdr_pos
  obtain ⟨pre, post, rfl, rfl⟩ := layout_split hb
  rw [layout_append, List.mem_append, layout_cons, List.mem_cons] at hc
  rcases hc with hc | hc | hc
  · have := (layout_bounds hc).2
    omega
  · have := (Prod.mk.inj hc).1
    omega
  · have hpost := hs.right_of_append
    cases post with
    | nil => cases hc
    | cons d ds =>
        rcases List.mem_cons.mp hc with hc | hc
        · obtain ⟨-, rfl⟩ := Prod.mk.inj hc
          exact (List.isChain_cons_cons.mp hpost).1
        · have := (layout_bounds hc).1
          omega

variable (G) in
/-- A byte of a free block, its header included. -/
def FreeByte (off : ℕ) (bs : List Block) (x : ℕ) : Prop :=
  ∃ o b, (o, b) ∈ G.layout off bs ∧ b.live = false ∧ o ≤ x ∧ x < o + G.hdr + b.size

/-- Free bytes next to each other belong to one block. -/
theorem Separated.free_run {off x n : ℕ} {bs : List Block} (hs : Separated bs) (hn : 0 < n)
    (hx : ∀ y, x ≤ y → y < x + n → G.FreeByte off bs y) :
    ∃ o b, (o, b) ∈ G.layout off bs ∧ b.live = false ∧ o ≤ x ∧ x + n ≤ o + G.hdr + b.size := by
  obtain ⟨o, b, hb, hfree, ho, hlt⟩ := hx x le_rfl (by omega)
  refine ⟨o, b, hb, hfree, ho, ?_⟩
  by_contra hend
  -- the byte after the block is free too, so its header is there
  obtain ⟨o', c, hc, hfree', ho', hlt'⟩ := hx (o + G.hdr + b.size) (by omega) (by omega)
  have hadj : o' = o + G.hdr + b.size := by
    rcases layout_apart hb hc with ⟨rfl, rfl⟩ | h | h <;> omega
  subst hadj
  rcases hs.live_of_adjacent hb hc with h | h
  · rw [hfree] at h
    cases h
  · rw [hfree'] at h
    cases h

theorem glue_cons (b c : Block) (cs : List Block) :
    (b.live = true ∨ c.live = true) ∧ G.glue b (c :: cs) = b :: c :: cs ∨
      (b.live = false ∧ c.live = false) ∧ G.glue b (c :: cs) = G.absorb b c :: cs := by
  cases hb : b.live <;> cases hc : c.live <;> simp [glue, hb, hc]

theorem glue_live {b : Block} (hb : b.live = true) (bs : List Block) : G.glue b bs = b :: bs := by
  cases bs with
  | nil => rfl
  | cons c cs => simp [glue, hb]

/-- Gluing two free blocks one after the other glues the block they become. -/
theorem glue_glue {b c : Block} (hb : b.live = false) (hc : c.live = false) (bs : List Block) :
    G.glue b (G.glue c bs) = G.glue (G.absorb b c) bs := by
  cases bs with
  | nil => simp [glue, hb, hc, absorb]
  | cons d ds => cases hd : d.live <;> simp [glue, hb, hc, hd, absorb]; omega

theorem merge_absorb {b c : Block} (hb : b.live = false) (hc : c.live = false) (bs : List Block) :
    G.merge (b :: c :: bs) = G.merge (G.absorb b c :: bs) :=
  glue_glue hb hc _

theorem extent_glue (b : Block) (bs : List Block) :
    G.extent (G.glue b bs) = G.extent (b :: bs) := by
  cases bs with
  | nil => rfl
  | cons c cs =>
      rcases glue_cons (G := G) b c cs with ⟨-, h⟩ | ⟨-, h⟩ <;> rw [h]
      simp only [absorb, extent_cons]; omega

theorem extent_merge (bs : List Block) : G.extent (G.merge bs) = G.extent bs := by
  induction bs with
  | nil => rfl
  | cons b bs ih => rw [merge, extent_glue, extent_cons, extent_cons, ih]

theorem separated_glue {b : Block} {bs : List Block} (h : Separated bs) :
    Separated (G.glue b bs) := by
  cases bs with
  | nil => exact List.isChain_singleton _
  | cons c cs =>
      rcases glue_cons (G := G) b c cs with ⟨hl, e⟩ | ⟨⟨-, hc⟩, e⟩ <;> rw [e]
      · exact List.isChain_cons_cons.mpr ⟨hl, h⟩
      · -- the joined block is as free as `c` was, so the link after it carries over
        cases cs with
        | nil => exact List.isChain_singleton _
        | cons d ds =>
            obtain ⟨hcd, hds⟩ := List.isChain_cons_cons.mp h
            refine List.isChain_cons_cons.mpr ⟨.inr (hcd.resolve_left ?_), hds⟩
            simp [hc]

theorem separated_merge (bs : List Block) : Separated (G.merge bs) := by
  induction bs with
  | nil => exact List.isChain_nil
  | cons b bs ih => exact separated_glue ih

theorem glue_eq_cons {b : Block} {bs : List Block} (h : Separated (b :: bs)) :
    G.glue b bs = b :: bs := by
  cases bs with
  | nil => rfl
  | cons c cs =>
      rcases glue_cons (G := G) b c cs with ⟨-, e⟩ | ⟨⟨hb, hc⟩, -⟩
      · exact e
      · have := (List.isChain_cons_cons.mp h).1
        simp [hb, hc] at this

theorem merge_eq_self {bs : List Block} (h : Separated bs) : G.merge bs = bs := by
  induction bs with
  | nil => rfl
  | cons b bs ih => rw [merge, ih h.of_cons, glue_eq_cons h]

/-- Gluing keeps the live blocks where they are. -/
theorem live_layout_glue {off o : ℕ} {b c : Block} {bs : List Block} (hc : c.live = true) :
    (o, c) ∈ G.layout off (G.glue b bs) ↔ (o, c) ∈ G.layout off (b :: bs) := by
  cases bs with
  | nil => rfl
  | cons d ds =>
      rcases glue_cons (G := G) b d ds with ⟨-, e⟩ | ⟨⟨hb, hd⟩, e⟩
      · rw [e]
      · have ne : ∀ x : Block, x.live = false → c ≠ x := fun x hx hcx => by simp [← hcx, hc] at hx
        rw [e]
        simp only [layout_cons, List.mem_cons, Prod.mk.injEq, ne b hb, ne d hd,
          ne (G.absorb b d) rfl, and_false, false_or]
        rw [show off + G.hdr + (G.absorb b d).size = off + G.hdr + b.size + G.hdr + d.size by
          simp only [absorb]; omega]

/-- Merging keeps the live blocks where they are. -/
theorem live_layout_merge {off o : ℕ} {c : Block} {bs : List Block} (hc : c.live = true) :
    (o, c) ∈ G.layout off (G.merge bs) ↔ (o, c) ∈ G.layout off bs := by
  induction bs generalizing off with
  | nil => rfl
  | cons b bs ih =>
      rw [merge, live_layout_glue hc, layout_cons, layout_cons, List.mem_cons, List.mem_cons, ih]

theorem sized_glue {b : Block} {bs : List Block}
    (h : ∀ c ∈ b :: bs, 0 < c.size ∧ G.grain ∣ c.size) :
    ∀ c ∈ G.glue b bs, 0 < c.size ∧ G.grain ∣ c.size := by
  cases bs with
  | nil => exact h
  | cons d ds =>
      rcases glue_cons (G := G) b d ds with ⟨-, e⟩ | ⟨-, e⟩ <;> rw [e]
      · exact h
      · intro c hc
        rcases List.mem_cons.mp hc with rfl | hc
        · obtain ⟨hb, hb'⟩ := h b List.mem_cons_self
          obtain ⟨-, hd'⟩ := h d (List.mem_cons_of_mem _ List.mem_cons_self)
          refine ⟨by simp only [absorb]; omega, ?_⟩
          exact Nat.dvd_add (Nat.dvd_add hb' G.grain_dvd_hdr) hd'
        · exact h c (List.mem_cons_of_mem _ (List.mem_cons_of_mem _ hc))

theorem sized_merge {bs : List Block} (h : ∀ c ∈ bs, 0 < c.size ∧ G.grain ∣ c.size) :
    ∀ c ∈ G.merge bs, 0 < c.size ∧ G.grain ∣ c.size := by
  induction bs with
  | nil => exact h
  | cons b bs ih =>
      refine sized_glue fun c hc => ?_
      rcases List.mem_cons.mp hc with rfl | hc
      · exact h _ List.mem_cons_self
      · exact ih (fun d hd => h d (List.mem_cons_of_mem _ hd)) c hc

/-! ### The live blocks determine the list -/

/-- Of two free blocks at one offset, the first of a separated list and the first of a list with
the same live blocks and the same extent, the second is no larger. -/
theorem size_le_of_live {off : ℕ} {b c : Block} {bs cs : List Block} (hb : b.live = false)
    (hc : c.live = false) (hs : Separated (b :: bs))
    (he : G.extent (b :: bs) = G.extent (c :: cs))
    (hl : ∀ o n, (o, ⟨n, true⟩) ∈ G.layout off (b :: bs) →
      (o, ⟨n, true⟩) ∈ G.layout off (c :: cs)) : c.size ≤ b.size := by
  cases bs with
  | nil => simp only [extent_cons, extent_nil] at he; omega
  | cons d ds =>
      -- the block after `b` is live, so it starts no earlier than the block after `c`
      have hd : d.live = true := (List.isChain_cons_cons.mp hs).1.resolve_left (by simp [hb])
      have hmem := hl (off + G.hdr + b.size) d.size (by simp [← hd])
      rcases List.mem_cons.mp hmem with h | h
      · obtain ⟨-, rfl⟩ := Prod.mk.inj h
        cases hc
      · have := (layout_bounds h).1
        omega

/-- Two separated lists of the same extent with the same live blocks are equal. -/
theorem eq_of_live {off : ℕ} {bs cs : List Block} (hbs : Separated bs) (hcs : Separated cs)
    (he : G.extent bs = G.extent cs)
    (hl : ∀ o n, (o, ⟨n, true⟩) ∈ G.layout off bs ↔ (o, ⟨n, true⟩) ∈ G.layout off cs) :
    bs = cs := by
  have hpos := G.hdr_pos
  induction bs generalizing off cs with
  | nil =>
      cases cs with
      | nil => rfl
      | cons c cs => simp only [extent_cons, extent_nil] at he; omega
  | cons b bs ih =>
      cases cs with
      | nil => simp only [extent_cons, extent_nil] at he; omega
      | cons c cs =>
          obtain rfl : b = c := by
            obtain ⟨n, l⟩ := b
            obtain ⟨k, l'⟩ := c
            cases l with
            | true =>
                rcases List.mem_cons.mp ((hl off n).mp List.mem_cons_self) with h | h
                · exact (Prod.mk.inj h).2
                · have := (layout_bounds h).1; omega
            | false =>
                cases l' with
                | true =>
                    rcases List.mem_cons.mp ((hl off k).mpr List.mem_cons_self) with h | h
                    · exact (Prod.mk.inj h).2.symm
                    · have := (layout_bounds h).1; omega
                | false =>
                    have h₁ := size_le_of_live rfl rfl hbs he fun o n => (hl o n).mp
                    have h₂ := size_le_of_live rfl rfl hcs he.symm fun o n => (hl o n).mpr
                    obtain rfl : n = k := Nat.le_antisymm h₂ h₁
                    rfl
          -- the tails start behind the common block, so its own entry is in neither
          have tail : ∀ {ds : List Block} {o n : ℕ},
              (o, (⟨n, true⟩ : Block)) ∈ G.layout (off + G.hdr + b.size) ds ↔
                (o, (⟨n, true⟩ : Block)) ∈ G.layout off (b :: ds) ∧ off < o := by
            intro ds o n
            rw [layout_cons, List.mem_cons, Prod.mk.injEq]
            constructor
            · intro h
              have := (layout_bounds h).1
              exact ⟨.inr h, by omega⟩
            · rintro ⟨⟨rfl, -⟩ | h, hlt⟩
              · exact absurd hlt (Nat.lt_irrefl _)
              · exact h
          rw [ih hbs.of_cons hcs.of_cons (by simpa using he) fun o n => by
            rw [tail, tail, hl]]

/-! ### First fit -/

variable (G)

/-- The block is free and large enough. -/
def fits (need : ℕ) (b : Block) : Bool := !b.live && decide (need ≤ b.size)

/-- The payload size a request for `need` bytes gets from `b`. -/
def granted (need : ℕ) (b : Block) : ℕ := if need + G.slack ≤ b.size then need else b.size

/-- The blocks a free block becomes when it serves a request. -/
def carve (need : ℕ) (b : Block) : List Block :=
  if need + G.slack ≤ b.size then [⟨need, true⟩, ⟨b.size - need - G.hdr, false⟩]
  else [⟨b.size, true⟩]

/-- The offset of the first block that fits, and the list with that block carved. -/
def allocate (need : ℕ) : ℕ → List Block → Option (ℕ × List Block)
  | _, [] => none
  | off, b :: bs =>
    if fits need b then some (off, G.carve need b ++ bs)
    else (allocate need (off + G.hdr + b.size) bs).map fun r => (r.1, b :: r.2)

variable {G}

theorem fits_iff {need : ℕ} {b : Block} : fits need b = true ↔ b.live = false ∧ need ≤ b.size := by
  simp [fits]

theorem allocate_eq_none {need off : ℕ} {bs : List Block} :
    G.allocate need off bs = none ↔ ∀ b ∈ bs, fits need b = false := by
  induction bs generalizing off with
  | nil => simp [allocate]
  | cons b bs ih => cases hb : fits need b <;> simp [allocate, hb, ih]

theorem allocate_some {need off o : ℕ} {bs bs' : List Block}
    (h : G.allocate need off bs = some (o, bs')) :
    ∃ pre b post, bs = pre ++ b :: post ∧ (∀ c ∈ pre, fits need c = false) ∧
      fits need b = true ∧ o = off + G.extent pre ∧ bs' = pre ++ (G.carve need b ++ post) := by
  induction bs generalizing off bs' with
  | nil => simp [allocate] at h
  | cons c cs ih =>
      cases hc : fits need c with
      | true =>
          simp only [allocate, hc, if_true, Option.some.injEq, Prod.mk.injEq] at h
          obtain ⟨rfl, rfl⟩ := h
          exact ⟨[], c, cs, rfl, by simp, hc, rfl, rfl⟩
      | false =>
          simp only [allocate, hc, Bool.false_eq_true, if_false, Option.map_eq_some_iff,
            Prod.mk.injEq, Prod.exists] at h
          obtain ⟨o', bs₁, h, rfl, rfl⟩ := h
          obtain ⟨pre, b, post, rfl, hpre, hb, rfl, rfl⟩ := ih h
          refine ⟨c :: pre, b, post, rfl, ?_, hb, ?_, rfl⟩
          · intro d hd
            rcases List.mem_cons.mp hd with rfl | hd
            · exact hc
            · exact hpre d hd
          · simp only [extent_cons]; omega

theorem extent_carve {need : ℕ} {b : Block} : G.extent (G.carve need b) = G.hdr + b.size := by
  have := G.hdr_lt_slack
  by_cases h : need + G.slack ≤ b.size <;> simp [carve, h]; omega

theorem sized_carve {need : ℕ} {b : Block} (hn : 0 < need ∧ G.grain ∣ need)
    (hb : 0 < b.size ∧ G.grain ∣ b.size) :
    ∀ c ∈ G.carve need b, 0 < c.size ∧ G.grain ∣ c.size := by
  have := G.hdr_lt_slack
  intro c hc
  by_cases h : need + G.slack ≤ b.size
  · simp only [carve, h, if_true, List.mem_cons, List.not_mem_nil, or_false] at hc
    rcases hc with rfl | rfl
    · exact hn
    · exact ⟨by simp only; omega, Nat.dvd_sub (Nat.dvd_sub hb.2 hn.2) G.grain_dvd_hdr⟩
  · simp only [carve, h, if_false, List.mem_singleton] at hc
    subst hc
    exact hb

/-- Carving a free block leaves no two adjacent blocks free. -/
theorem separated_carve {need : ℕ} {b : Block} (hb : b.live = false) {pre post : List Block}
    (h : Separated (pre ++ b :: post)) : Separated (pre ++ (G.carve need b ++ post)) := by
  induction pre with
  | nil =>
      by_cases hn : need + G.slack ≤ b.size
      · simp only [carve, hn, if_true, List.nil_append, List.cons_append] at h ⊢
        refine List.isChain_cons_cons.mpr ⟨.inl rfl, ?_⟩
        -- the block after a free one is live, so the remainder has a live successor too
        cases post with
        | nil => exact List.isChain_singleton _
        | cons d ds =>
            obtain ⟨hbd, hds⟩ := List.isChain_cons_cons.mp h
            exact List.isChain_cons_cons.mpr ⟨.inr (hbd.resolve_left (by simp [hb])), hds⟩
      · simp only [carve, hn, if_false, List.nil_append, List.cons_append] at h ⊢
        cases post with
        | nil => exact List.isChain_singleton _
        | cons d ds => exact List.isChain_cons_cons.mpr ⟨.inl rfl, h.of_cons⟩
  | cons c cs ih =>
      have ih := ih h.of_cons
      cases cs with
      | nil =>
          by_cases hn : need + G.slack ≤ b.size <;>
            simp only [carve, hn, if_true, if_false, List.nil_append, List.cons_append] at ih ⊢ <;>
            exact List.isChain_cons_cons.mpr ⟨.inr rfl, ih⟩
      | cons d ds =>
          exact List.isChain_cons_cons.mpr ⟨(List.isChain_cons_cons.mp h).1, ih⟩

/-- After carving, the live blocks are the old ones and the one that serves the request. -/
theorem live_layout_carve {need off o : ℕ} {b c : Block} (hb : b.live = false)
    (hc : c.live = true) {pre post : List Block} :
    (o, c) ∈ G.layout off (pre ++ (G.carve need b ++ post)) ↔
      (o, c) ∈ G.layout off (pre ++ b :: post) ∨
        o = off + G.extent pre ∧ c = ⟨G.granted need b, true⟩ := by
  have ne : ∀ x : Block, x.live = false → c ≠ x := fun x hx hcx => by simp [← hcx, hc] at hx
  rw [layout_append, layout_append, layout_append, extent_carve]
  simp only [List.mem_append, layout_cons, List.mem_cons, Prod.mk.injEq, ne b hb, and_false,
    false_or, ← Nat.add_assoc]
  by_cases hn : need + G.slack ≤ b.size
  · simp only [carve, granted, hn, if_true, layout_cons, layout_nil, List.mem_cons, Prod.mk.injEq,
      List.not_mem_nil, or_false, ne ⟨b.size - need - G.hdr, false⟩ rfl, and_false]
    tauto
  · simp only [carve, granted, hn, if_false, layout_cons, layout_nil, List.mem_cons,
      Prod.mk.injEq, List.not_mem_nil, or_false]
    tauto

/-- Carving keeps every header where it is. -/
theorem header_carve {need off o : ℕ} {b c : Block} {pre post : List Block}
    (h : (o, c) ∈ G.layout off (pre ++ b :: post)) :
    ∃ d, (o, d) ∈ G.layout off (pre ++ (G.carve need b ++ post)) := by
  rw [layout_append] at h
  rw [layout_append, layout_append, extent_carve]
  simp only [List.mem_append, layout_cons, List.mem_cons] at h ⊢
  rcases h with h | h | h
  · exact ⟨c, .inl h⟩
  · obtain ⟨rfl, rfl⟩ := Prod.mk.inj h
    by_cases hn : need + G.slack ≤ c.size
    · exact ⟨⟨need, true⟩, .inr (.inl (by simp [carve, hn]))⟩
    · exact ⟨⟨c.size, true⟩, .inr (.inl (by simp [carve, hn]))⟩
  · exact ⟨c, .inr (.inr (by rwa [← Nat.add_assoc]))⟩

/-! ### Release -/

variable (G)

/-- The live block whose header is at `p` freed and joined with its free neighbours. -/
def release (p : ℕ) : ℕ → List Block → Option (List Block)
  | _, [] => none
  | off, b :: bs =>
    if p = off then if b.live then some (G.glue ⟨b.size, false⟩ bs) else none
    else (release p (off + G.hdr + b.size) bs).map (G.glue b)

variable {G}

theorem release_eq_merge (off : ℕ) {pre : List Block} {b : Block} {post : List Block}
    (hb : b.live = true) (hs : Separated (pre ++ b :: post)) :
    G.release (off + G.extent pre) off (pre ++ b :: post) =
      some (G.merge (pre ++ ⟨b.size, false⟩ :: post)) := by
  have hpos := G.hdr_pos
  induction pre generalizing off with
  | nil =>
      simp only [extent_nil, Nat.add_zero, List.nil_append, release, hb, if_true, merge]
      rw [merge_eq_self (List.nil_append _ ▸ hs).of_cons]
  | cons c cs ih =>
      have ih := ih (off + G.hdr + c.size) hs.of_cons
      have e : off + (G.hdr + c.size + G.extent cs) = off + G.hdr + c.size + G.extent cs := by
        omega
      simp only [List.cons_append, release, extent_cons, merge]
      rw [if_neg (by omega), e, ih, Option.map_some]

theorem release_eq_none {p off : ℕ} {bs : List Block}
    (h : ∀ n, (p, ⟨n, true⟩) ∉ G.layout off bs) : G.release p off bs = none := by
  induction bs generalizing off with
  | nil => rfl
  | cons b bs ih =>
      simp only [layout_cons, List.mem_cons, not_or, Prod.mk.injEq] at h
      by_cases hp : p = off
      · cases hb : b.live with
        | true => exact absurd ⟨hp, by rw [← hb]⟩ (h b.size).1
        | false => simp [release, hp, hb]
      · simp only [release, hp, if_false, ih fun n => (h n).2, Option.map_none]

theorem release_some {p off : ℕ} {bs bs' : List Block} (hs : Separated bs)
    (h : G.release p off bs = some bs') :
    ∃ pre b post, bs = pre ++ b :: post ∧ b.live = true ∧ p = off + G.extent pre ∧
      bs' = G.merge (pre ++ ⟨b.size, false⟩ :: post) := by
  by_cases hp : ∃ n, (p, ⟨n, true⟩) ∈ G.layout off bs
  · obtain ⟨n, hn⟩ := hp
    obtain ⟨pre, post, rfl, rfl⟩ := layout_split hn
    rw [release_eq_merge off rfl hs] at h
    exact ⟨pre, ⟨n, true⟩, post, rfl, rfl, rfl, (Option.some.inj h).symm⟩
  · rw [release_eq_none (not_exists.mp hp)] at h
    cases h

/-! ### The region -/

variable (G)

/-- The sizes a request may have. -/
structure Request where
  size : ℕ
  pos : 0 < size
  dvd : G.grain ∣ size

/-- A region cut into blocks: sizes are positive multiples of the grain, the blocks cover the
region, and no two adjacent ones are free. -/
@[ext] structure Region where
  blocks : List Block
  sized : ∀ b ∈ blocks, 0 < b.size ∧ G.grain ∣ b.size
  covers : G.extent blocks = G.total
  separated : Separated blocks

namespace Region

/-- One free block. -/
def fresh : G.Region where
  blocks := [⟨G.total - G.hdr, false⟩]
  sized := by
    intro b hb
    obtain rfl := List.mem_singleton.mp hb
    exact ⟨Nat.sub_pos_of_lt G.hdr_lt_total, Nat.dvd_sub G.grain_dvd_total G.grain_dvd_hdr⟩
  covers := by
    have := G.hdr_lt_total
    simp only [extent_cons, extent_nil]; omega
  separated := List.isChain_singleton _

variable {G}

theorem allocate_ok {R : G.Region} {need : G.Request} {o : ℕ} {bs : List Block}
    (h : G.allocate need.size 0 R.blocks = some (o, bs)) :
    (∀ b ∈ bs, 0 < b.size ∧ G.grain ∣ b.size) ∧ G.extent bs = G.total ∧ Separated bs := by
  obtain ⟨pre, b, post, e, -, hb, -, rfl⟩ := allocate_some h
  have sized := e ▸ R.sized
  have covers := e ▸ R.covers
  refine ⟨?_, ?_, separated_carve (fits_iff.mp hb).1 (e ▸ R.separated)⟩
  · intro c hc
    rcases List.mem_append.mp hc with hc | hc
    · exact sized c (List.mem_append_left _ hc)
    · rcases List.mem_append.mp hc with hc | hc
      · exact sized_carve ⟨need.pos, need.dvd⟩ (sized b (by simp)) c hc
      · exact sized c (List.mem_append_right _ (List.mem_cons_of_mem _ hc))
  · rw [extent_append, extent_cons] at covers
    rw [extent_append, extent_append, extent_carve, covers]

/-- First fit in a region. -/
def allocate (R : G.Region) (need : G.Request) : Option (ℕ × G.Region) :=
  match h : G.allocate need.size 0 R.blocks with
  | none => none
  | some (o, bs) => some (o, ⟨bs, (allocate_ok h).1, (allocate_ok h).2.1, (allocate_ok h).2.2⟩)

theorem release_ok {R : G.Region} {p : ℕ} {bs : List Block}
    (h : G.release p 0 R.blocks = some bs) :
    (∀ b ∈ bs, 0 < b.size ∧ G.grain ∣ b.size) ∧ G.extent bs = G.total ∧ Separated bs := by
  obtain ⟨pre, b, post, e, -, -, rfl⟩ := release_some R.separated h
  have sized := e ▸ R.sized
  have covers := e ▸ R.covers
  refine ⟨sized_merge ?_, ?_, separated_merge _⟩
  · intro c hc
    rcases List.mem_append.mp hc with hc | hc
    · exact sized c (List.mem_append_left _ hc)
    · rcases List.mem_cons.mp hc with rfl | hc
      · exact sized b (by simp)
      · exact sized c (List.mem_append_right _ (List.mem_cons_of_mem _ hc))
  · rw [extent_append, extent_cons] at covers
    rw [extent_merge, extent_append, extent_cons, covers]

/-- The live block at `p` released. -/
def release (R : G.Region) (p : ℕ) : Option G.Region :=
  match h : G.release p 0 R.blocks with
  | none => none
  | some bs => some ⟨bs, (release_ok h).1, (release_ok h).2.1, (release_ok h).2.2⟩

theorem allocate_eq_none {R : G.Region} {need : G.Request} :
    R.allocate need = none ↔ G.allocate need.size 0 R.blocks = none := by
  unfold allocate; split <;> simp_all

theorem allocate_eq_some {R R' : G.Region} {need : G.Request} {o : ℕ} :
    R.allocate need = some (o, R') ↔ G.allocate need.size 0 R.blocks = some (o, R'.blocks) := by
  unfold allocate; split
  · simp_all
  · next o' bs h => simp [h, Region.ext_iff]

theorem not_fits_of_allocate {R : G.Region} {need : G.Request} (h : R.allocate need = none) :
    ∀ b ∈ R.blocks, fits need.size b = false :=
  Geometry.allocate_eq_none.mp (allocate_eq_none.mp h)

theorem exists_fits_of_allocate {R R' : G.Region} {need : G.Request} {o : ℕ}
    (h : R.allocate need = some (o, R')) : ∃ b ∈ R.blocks, fits need.size b = true := by
  obtain ⟨pre, b, post, e, -, hfit, -⟩ := allocate_some (allocate_eq_some.mp h)
  exact ⟨b, e ▸ List.mem_append_right _ List.mem_cons_self, hfit⟩

theorem release_eq_none {R : G.Region} {p : ℕ} :
    R.release p = none ↔ G.release p 0 R.blocks = none := by
  unfold release; split <;> simp_all

theorem release_eq_some {R R' : G.Region} {p : ℕ} :
    R.release p = some R' ↔ G.release p 0 R.blocks = some R'.blocks := by
  unfold release; split
  · simp_all
  · next bs h => simp [h, Region.ext_iff]

/-- A region is determined by its live blocks. -/
theorem eq_of_live {R R' : G.Region}
    (hl : ∀ o n, (o, ⟨n, true⟩) ∈ G.layout 0 R.blocks ↔ (o, ⟨n, true⟩) ∈ G.layout 0 R'.blocks) :
    R = R' :=
  Region.ext (Geometry.eq_of_live R.separated R'.separated (R.covers.trans R'.covers.symm) hl)

/-- The fresh region is the one without live blocks. -/
theorem eq_fresh {R : G.Region} (hl : ∀ o n, (o, ⟨n, true⟩) ∉ G.layout 0 R.blocks) :
    R = fresh G :=
  eq_of_live fun o n => ⟨fun h => absurd h (hl o n), fun h => by simp [fresh] at h⟩

end Region

/-! ### Allocating without releasing -/

/-- Every block but a free one at the end is live, and what is left of the region after `used`
bytes is that free block's, or too little for one. -/
def Packed (used : ℕ) (bs : List Block) : Prop :=
  ∃ pre, (∀ b ∈ pre, b.live = true) ∧
    (bs = pre ++ [⟨G.total - used - G.hdr, false⟩] ∧ used + G.hdr < G.total ∨
      bs = pre ∧ used ≤ G.total ∧ G.total < used + G.slack)

variable {G}

theorem packed_fresh : G.Packed 0 (Region.fresh G).blocks :=
  ⟨[], fun _ h => absurd h List.not_mem_nil, .inl ⟨rfl, by
    have := G.hdr_lt_total
    omega⟩⟩

/-- First fit passes over live blocks. -/
theorem allocate_append_live {need off : ℕ} {pre bs : List Block}
    (hpre : ∀ b ∈ pre, b.live = true) :
    G.allocate need off (pre ++ bs) =
      (G.allocate need (off + G.extent pre) bs).map fun r => (r.1, pre ++ r.2) := by
  induction pre generalizing off with
  | nil => simp
  | cons c cs ih =>
      have hc : fits need c = false := by simp [fits, hpre c List.mem_cons_self]
      rw [List.cons_append, allocate, hc, if_neg Bool.false_ne_true,
        ih fun b hb => hpre b (List.mem_cons_of_mem _ hb), Option.map_map, extent_cons,
        Nat.add_assoc off, Nat.add_assoc off]
      rfl

/-- In a packed region a request succeeds exactly when what is left holds it with a header, and
leaves a packed region. -/
theorem Packed.allocate {R : G.Region} {used : ℕ} (hp : G.Packed used R.blocks)
    (hslack : G.slack ≤ G.hdr + G.grain) (need : G.Request) :
    (∃ o R', R.allocate need = some (o, R') ∧ used + (G.hdr + need.size) ≤ G.total ∧
      G.Packed (used + (G.hdr + need.size)) R'.blocks) ∨
    R.allocate need = none ∧ G.total < used + (G.hdr + need.size) := by
  have hhdr := G.hdr_lt_slack
  have hgrain := Nat.le_of_dvd need.pos need.dvd
  obtain ⟨pre, hlive, ⟨e, hused⟩ | ⟨e, hused, hlast⟩⟩ := hp
  · -- one free block, at the end
    have ha : G.allocate need.size 0 R.blocks =
        if need.size ≤ G.total - used - G.hdr then
          some (G.extent pre, pre ++ G.carve need.size ⟨G.total - used - G.hdr, false⟩)
        else none := by
      rw [e, allocate_append_live hlive]
      by_cases hn : need.size ≤ G.total - used - G.hdr <;>
        simp [Geometry.allocate, fits, hn]
    by_cases hn : need.size ≤ G.total - used - G.hdr
    · rw [if_pos hn] at ha
      cases hr : R.allocate need with
      | none =>
          rw [Region.allocate_eq_none.mp hr] at ha
          cases ha
      | some r =>
          obtain ⟨o, R'⟩ := r
          rw [Region.allocate_eq_some.mp hr] at ha
          obtain ⟨-, e'⟩ := Prod.mk.inj (Option.some.inj ha)
          refine .inl ⟨o, R', rfl, by omega, ?_⟩
          rw [e']
          by_cases hcut : need.size + G.slack ≤ G.total - used - G.hdr
          · have hleft : G.total - used - G.hdr - need.size - G.hdr =
                G.total - (used + (G.hdr + need.size)) - G.hdr := by omega
            refine ⟨pre ++ [⟨need.size, true⟩], ?_, .inl ⟨?_, by omega⟩⟩
            · simpa [or_imp, forall_and] using hlive
            · simp [carve, hcut, hleft]
          · refine ⟨pre ++ [⟨G.total - used - G.hdr, true⟩], ?_, .inr ⟨?_, by omega, by omega⟩⟩
            · simpa [or_imp, forall_and] using hlive
            · simp [carve, hcut]
    · rw [if_neg hn] at ha
      exact .inr ⟨Region.allocate_eq_none.mpr ha, by omega⟩
  · refine .inr ⟨Region.allocate_eq_none.mpr (allocate_eq_none.mpr fun b hb => ?_), by omega⟩
    simp [fits, hlive b (e ▸ hb)]

end Geometry
