import CS214.Lib.BlockList

/-!
# The runs of free blocks

`FreeRun off bs o run`: the blocks of `run` stand next to each other in `bs`, laid out from `off`
on, the first with its header at `o`; all of them are free, and the blocks next to them are live.

* `runs_induction`: a list is built from live blocks and runs of free ones.
* `merge_append`, `merge_run`: `merge` splits behind a live block, and makes one block of a run.
* `mem_layout_merge`: the blocks of a merged list are the live blocks, where they were, and one free
  block for each run, where the first of the run was.
* `Separated.extent_le`: where no two free blocks are neighbours there is at most one more of them
  than live blocks, so free blocks that are all small leave little of the region unused.
-/

namespace Geometry

variable {G : Geometry} {off o : ℕ} {b d : Block} {bs pre run post : List Block}

variable (G) in
/-- The free block a run of free blocks becomes. -/
def joined (run : List Block) : Block :=
  ⟨(run.map Block.size).sum + G.hdr * (run.length - 1), false⟩

variable (G) in
/-- A maximal run of free blocks, and where it starts. -/
def FreeRun (off : ℕ) (bs : List Block) (o : ℕ) (run : List Block) : Prop :=
  ∃ pre post, bs = pre ++ (run ++ post) ∧ o = off + G.extent pre ∧ run ≠ [] ∧
    (∀ b ∈ run, b.live = false) ∧ (∀ b ∈ pre.getLast?, b.live = true) ∧
    ∀ b ∈ post.head?, b.live = true

theorem runs_induction {motive : List Block → Prop} (nil : motive [])
    (live : ∀ b bs, b.live = true → motive bs → motive (b :: bs))
    (run : ∀ run post, run ≠ [] → (∀ b ∈ run, b.live = false) →
      (∀ b ∈ post.head?, b.live = true) → motive post → motive (run ++ post))
    (bs : List Block) : motive bs := by
  induction hn : bs.length using Nat.strongRecOn generalizing bs with
  | ind n ih =>
      cases bs with
      | nil => exact nil
      | cons b bs =>
          rw [List.length_cons] at hn
          cases hb : b.live with
          | true => exact live b bs hb (ih bs.length (by omega) bs rfl)
          | false =>
              have hfree : ∀ c ∈ b :: bs.takeWhile fun c => !c.live, c.live = false :=
                List.forall_mem_cons.mpr ⟨hb, fun c hc => by
                  simpa using List.all_eq_true.mp List.all_takeWhile c hc⟩
              have hpost : ∀ c ∈ (bs.dropWhile fun c => !c.live).head?, c.live = true := by
                intro c hc
                have hhead := List.head?_dropWhile_not (fun c : Block => !c.live) bs
                rw [hc] at hhead
                simpa using hhead
              have hle : (bs.dropWhile fun c => !c.live).length ≤ bs.length :=
                (List.dropWhile_suffix _).length_le
              have hrun := run _ _ (List.cons_ne_nil _ _) hfree hpost (ih _ (by omega) _ rfl)
              rwa [List.cons_append, List.takeWhile_append_dropWhile] at hrun

/-! ### Merging the parts of a list -/

theorem glue_append (b : Block) (hne : bs ≠ []) (cs : List Block) :
    G.glue b (bs ++ cs) = G.glue b bs ++ cs := by
  cases bs with
  | nil => exact absurd rfl hne
  | cons c bs =>
      rw [List.cons_append, glue, glue]
      split <;> rfl

theorem merge_ne_nil (h : bs ≠ []) : G.merge bs ≠ [] := by
  cases bs with
  | nil => exact absurd rfl h
  | cons b bs =>
      rw [merge]
      cases G.merge bs with
      | nil => exact List.cons_ne_nil _ _
      | cons c cs =>
          rw [glue]
          split <;> exact List.cons_ne_nil _ _

/-- Nothing is joined across the end of a list whose last block is live. -/
theorem merge_append (h : ∀ b ∈ pre.getLast?, b.live = true) (bs : List Block) :
    G.merge (pre ++ bs) = G.merge pre ++ G.merge bs := by
  induction pre with
  | nil => rfl
  | cons b pre ih =>
      cases pre with
      | nil =>
          have hb : b.live = true := h b rfl
          rw [List.singleton_append, merge, glue_live hb, merge, glue_live hb]
          rfl
      | cons c pre =>
          rw [List.getLast?_cons_cons] at h
          rw [List.cons_append, merge, ih h, glue_append b (merge_ne_nil (List.cons_ne_nil _ _))]
          rfl

theorem absorb_joined (b : Block) (hne : run ≠ []) :
    G.absorb b (G.joined run) = G.joined (b :: run) := by
  have hlen : run.length - 1 + 1 = run.length :=
    Nat.sub_add_cancel (List.length_pos_iff.mpr hne)
  have hmul : G.hdr * run.length = G.hdr * (run.length - 1) + G.hdr := by
    rw [← Nat.mul_add_one, hlen]
  simp only [absorb, joined, List.map_cons, List.sum_cons, List.length_cons, Nat.add_sub_cancel]
  congr 1
  omega

/-- A run of free blocks in front of a live one becomes one block. -/
theorem merge_run (hne : run ≠ []) (hfree : ∀ b ∈ run, b.live = false)
    (hpost : ∀ b ∈ post.head?, b.live = true) :
    G.merge (run ++ post) = G.joined run :: G.merge post := by
  induction run with
  | nil => exact absurd rfl hne
  | cons b run ih =>
      have hb := hfree b List.mem_cons_self
      cases run with
      | nil =>
          have hjoined : G.joined [b] = b := by
            obtain ⟨n, l⟩ := b
            obtain rfl : l = false := hb
            rfl
          rw [List.singleton_append, merge, hjoined]
          cases post with
          | nil => rfl
          | cons c post =>
              have hc : c.live = true := hpost c rfl
              rw [merge, glue_live hc]
              simp [glue, hc]
      | cons c run =>
          have ih := ih (List.cons_ne_nil _ _) fun d hd => hfree d (List.mem_cons_of_mem _ hd)
          have hlive : (b.live || (G.joined (c :: run)).live) = false := by rw [hb]; rfl
          rw [List.cons_append, merge, ih, glue, hlive, if_neg Bool.false_ne_true,
            absorb_joined b (List.cons_ne_nil _ _)]

theorem extent_joined (hne : run ≠ []) : G.hdr + (G.joined run).size = G.extent run := by
  induction run with
  | nil => exact absurd rfl hne
  | cons b run ih =>
      cases run with
      | nil => simp [joined]
      | cons c run =>
          have ih := ih (List.cons_ne_nil _ _)
          rw [← absorb_joined b (List.cons_ne_nil c run), extent_cons, ← ih]
          simp only [absorb]
          omega

/-! ### The blocks of a merged list -/

/-- A run of a list is one of a longer list when no free block is put next to it. -/
theorem FreeRun.append (h : G.FreeRun (off + G.extent pre) bs o run)
    (hlive : (∀ b ∈ pre.getLast?, b.live = true) ∨ ∀ b ∈ bs.head?, b.live = true) :
    G.FreeRun off (pre ++ bs) o run := by
  obtain ⟨pre', post, rfl, rfl, hne, hfree, hleft, hright⟩ := h
  refine ⟨pre ++ pre', post, by rw [List.append_assoc], by rw [extent_append, Nat.add_assoc], hne,
    hfree, ?_, hright⟩
  intro b hb
  cases pre' with
  | nil =>
      rw [List.append_nil] at hb
      rcases hlive with hlive | hlive
      · exact hlive b hb
      · -- the list would start with a live block and with a run of free ones
        cases run with
        | nil => exact absurd rfl hne
        | cons c run =>
            have hc := hfree c List.mem_cons_self
            rw [hlive c rfl] at hc
            cases hc
  | cons c pre' =>
      rw [List.getLast?_append_of_ne_nil _ (List.cons_ne_nil _ _)] at hb
      exact hleft b hb

theorem FreeRun.mem_layout_merge (h : G.FreeRun off bs o run) :
    (o, G.joined run) ∈ G.layout off (G.merge bs) := by
  obtain ⟨pre, post, rfl, rfl, hne, hfree, hleft, hright⟩ := h
  rw [merge_append hleft, merge_run hne hfree hright, ← extent_merge pre]
  exact mem_layout_mid off _ _ _

theorem FreeRun.head (hne : run ≠ []) (hfree : ∀ b ∈ run, b.live = false)
    (hright : ∀ b ∈ post.head?, b.live = true) : G.FreeRun off (run ++ post) off run :=
  ⟨[], post, rfl, rfl, hne, hfree, by simp, hright⟩

/-- **The blocks of a merged list.** -/
theorem mem_layout_merge :
    (o, d) ∈ G.layout off (G.merge bs) ↔
      d.live = true ∧ (o, d) ∈ G.layout off bs ∨
        ∃ run, G.FreeRun off bs o run ∧ d = G.joined run := by
  constructor
  · intro h
    induction bs using runs_induction generalizing off with
    | nil => cases h
    | live b bs hb ih =>
        rw [merge, glue_live hb, layout_cons, List.mem_cons] at h
        rcases h with h | h
        · obtain ⟨rfl, rfl⟩ := Prod.mk.inj h
          exact .inl ⟨hb, List.mem_cons_self⟩
        · rcases ih h with ⟨hd, hmem⟩ | ⟨run, hrun, rfl⟩
          · exact .inl ⟨hd, List.mem_cons_of_mem _ hmem⟩
          · have hpre : off + G.hdr + b.size = off + G.extent [b] := by
              rw [extent_cons, extent_nil]
              omega
            rw [hpre] at hrun
            refine .inr ⟨run, hrun.append (.inl fun c hc => ?_), rfl⟩
            obtain rfl := Option.some.inj hc
            exact hb
    | run run post hne hfree hpost ih =>
        rw [merge_run hne hfree hpost, layout_cons, List.mem_cons] at h
        rcases h with h | h
        · obtain ⟨rfl, rfl⟩ := Prod.mk.inj h
          exact .inr ⟨run, .head hne hfree hpost, rfl⟩
        · rw [Nat.add_assoc, extent_joined hne] at h
          rcases ih h with ⟨hd, hmem⟩ | ⟨run', hrun, rfl⟩
          · refine .inl ⟨hd, ?_⟩
            rw [layout_append]
            exact List.mem_append_right _ hmem
          · exact .inr ⟨run', hrun.append (.inr hpost), rfl⟩
  · rintro (⟨hd, h⟩ | ⟨run, h, rfl⟩)
    · exact (live_layout_merge hd).mpr h
    · exact h.mem_layout_merge

/-- A run starts with the header of a block. -/
theorem FreeRun.exists_mem_layout (h : G.FreeRun off bs o run) : ∃ b, (o, b) ∈ G.layout off bs := by
  obtain ⟨pre, post, rfl, rfl, hne, -⟩ := h
  cases run with
  | nil => exact absurd rfl hne
  | cons c run => exact ⟨c, mem_layout_mid off pre c (run ++ post)⟩

/-- The headers of a merged list are where headers were. -/
theorem header_merge (h : (o, d) ∈ G.layout off (G.merge bs)) : ∃ b, (o, b) ∈ G.layout off bs := by
  rcases mem_layout_merge.mp h with ⟨-, h⟩ | ⟨run, h, -⟩
  · exact ⟨d, h⟩
  · exact h.exists_mem_layout

/-! ### How much separated free blocks can take -/

/-- Between two free blocks there is a live one. -/
theorem Separated.extent_le_aux {cap : ℕ} (hs : Separated bs)
    (hcap : ∀ b ∈ bs, b.live = false → G.hdr + b.size ≤ cap) :
    G.extent bs ≤
        G.hdr * bs.countP Block.live + liveSize bs + (bs.countP Block.live + 1) * cap ∧
      ((∀ b ∈ bs.head?, b.live = true) →
        G.extent bs ≤ G.hdr * bs.countP Block.live + liveSize bs + bs.countP Block.live * cap) := by
  induction bs with
  | nil => simp [liveSize]
  | cons b bs ih =>
      obtain ⟨hany, hlive⟩ := ih hs.of_cons fun c hc => hcap c (List.mem_cons_of_mem _ hc)
      rw [liveSize_cons, extent_cons]
      cases hb : b.live with
      | true =>
          rw [List.countP_cons_of_pos hb, if_pos rfl]
          have hhead : G.hdr + b.size + G.extent bs ≤
              G.hdr * (bs.countP Block.live + 1) + (b.size + liveSize bs) +
                (bs.countP Block.live + 1) * cap := by
            rw [Nat.mul_add_one]
            omega
          refine ⟨hhead.trans ?_, fun _ => hhead⟩
          exact Nat.add_le_add_left (Nat.mul_le_mul_right _ (Nat.le_succ _)) _
      | false =>
          have hneighbour : ∀ c ∈ bs.head?, c.live = true := by
            intro c hc
            obtain ⟨cs, rfl⟩ := List.head?_eq_some_iff.mp hc
            exact ((List.isChain_cons_cons.mp hs).1).resolve_left (by simp [hb])
          have hsmall := hcap b List.mem_cons_self hb
          have hrest := hlive hneighbour
          rw [List.countP_cons_of_neg (by simp [hb]), if_neg (by simp)]
          refine ⟨?_, fun hhead => ?_⟩
          · rw [Nat.add_one_mul]
            omega
          · have := hhead b rfl
            simp [hb] at this

/-- The blocks of a region whose free blocks take at most `cap` bytes each, headers included. -/
theorem Separated.extent_le {cap : ℕ} (hs : Separated bs)
    (hcap : ∀ b ∈ bs, b.live = false → G.hdr + b.size ≤ cap) :
    G.extent bs ≤
      G.hdr * bs.countP Block.live + liveSize bs + (bs.countP Block.live + 1) * cap :=
  (hs.extent_le_aux hcap).1

end Geometry
