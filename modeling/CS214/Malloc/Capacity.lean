import CS214.Malloc.Failure

/-!
# Malloc — how much a heap holds

Without `myfree` the chunks in use are in front and one free chunk, if any, is at the end.  A
request is served exactly when the bytes the earlier ones took, its header and its size rounded up
fit into the 4096 bytes (`heap_capacity`): the 8 bytes that `split_chunk` may leave with the
last chunk could not have held a chunk of their own.
In particular `k` objects of `4096 / k - 8` bytes fill the heap when `8 * k` divides 4096.
-/

namespace CS214.Malloc

variable {A : Arena} {m : ByteMemory} {s s' : Client} {R : geometry.Region}

/-- The bytes that allocations take, each with a header and rounded up. -/
def used (live : List Alloc) : ℕ := (live.map fun a => 8 + roundUp8 a.size.toNat).sum

/-- The operation is not a call of `myfree`. -/
def Op.Keeps : Op → Prop
  | .free _ _ _ => False
  | _ => True

instance : (op : Op) → Decidable op.Keeps
  | .malloc _ _ _ => isTrue trivial
  | .free _ _ _ => isFalse not_false
  | .write _ _ => isTrue trivial

/-- The operations of a client that frees nothing. -/
def Filling (s : Client) (op : Op) : Prop := Disciplined s op ∧ op.Keeps

instance (s : Client) (op : Op) : Decidable (Filling s op) := inferInstanceAs (Decidable (_ ∧ _))

/-- What the client of a run without `myfree` knows of the heap. -/
def Filled (A : Arena) (s : Client) : Prop :=
  ∃ R, Inv A s R ∧ geometry.Packed (used s.live) R.blocks

theorem filled_start (hm : ZeroHeap A m) : Filled A (start m) :=
  ⟨_, inv_start hm, Geometry.packed_fresh⟩

/-- One call of `mymalloc`: it succeeds exactly when the request fits. -/
theorem Filled.mymalloc_ret (hf : Filled A s) {n : UInt64} (hn : n.toNat ≤ 2 ^ 64 - 8)
    (file : String) (line : ℤ) :
    ∃ p h' err, mymalloc A s.heap n file line = .ret p h' err ∧ Filled A (s.allocated h' p n) ∧
      (p ≠ 0 ↔ n ≠ 0 ∧ used s.live + (8 + roundUp8 n.toNat) ≤ 4096) := by
  obtain ⟨R, hI, hp⟩ := hf
  have same : Filled A (s.allocated (ready A s.heap) 0 n) := by
    rw [Client.allocated, if_pos rfl]
    exact ⟨R, hI.same_live (ready_spec hI.holds), hp⟩
  by_cases h₀ : n = 0
  · subst h₀
    exact ⟨0, _, _, mymalloc_zero file line, same, by simp⟩
  have hpos : 0 < n.toNat := Nat.pos_of_ne_zero fun e => h₀ (UInt64.toNat_inj.mp e)
  have hsize : (request n.toNat hpos).size = roundUp8 n.toNat := rfl
  rcases hp.allocate (by decide) (request n.toNat hpos) with ⟨o, R', ha, hle, hp'⟩ | ⟨ha, hlt⟩
  · rw [hsize, geometry_hdr, geometry_total] at hle
    obtain ⟨h', hret, hb⟩ := mymalloc_some hI.holds hn hpos ha file line
    obtain ⟨g, -, hnew, -⟩ := allocate_live ha
    have hbd := header_bounds hnew
    have hne : A.at (o + 8) ≠ 0 := Arena.at_ne_zero (by omega)
    refine ⟨_, h', "", hret, ⟨R', hI.malloc (by simp only [request]; omega) ha hb, ?_⟩,
      iff_of_true hne ⟨h₀, hle⟩⟩
    rw [Client.allocated, if_neg hne, used, List.map_cons, List.sum_cons, Nat.add_comm]
    exact hp'
  · rw [hsize, geometry_hdr, geometry_total] at hlt
    exact ⟨0, _, _, mymalloc_none hI.holds hn hpos ha file line, same,
      iff_of_false (fun h => h rfl) fun h => by omega⟩

theorem Filled.step (hf : Filled A s) {op : Op} (hop : Filling s op)
    (h : step A s op = some s') : Filled A s' := by
  cases op with
  | malloc n file line =>
      obtain ⟨p, h', err, hret, hf', -⟩ := hf.mymalloc_ret hop.1 file line
      rw [Malloc.step, hret] at h
      exact Option.some.inj h ▸ hf'
  | free p file line => exact absurd hop.2 not_false
  | write x v =>
      obtain ⟨R, hI, hp⟩ := hf
      obtain ⟨a, ha, hx⟩ := hop.1
      obtain rfl := Option.some.inj h
      exact ⟨R, hI.write ha hx v, hp⟩

theorem Filled.run (hf : Filled A s) {ops : List Op} (h : Run (Malloc.step A) Filling s ops s') :
    Filled A s' :=
  h.invariant (fun _ _ _ hf hop h => hf.step hop h) hf

/-! ### Objects of one size -/

theorem used_same {live : List Alloc} {n : ℕ} (h : ∀ a ∈ live, a.size.toNat = n) :
    used live = live.length * (8 + roundUp8 n) := by
  rw [used, List.map_congr_left fun a ha => by rw [h a ha], List.map_const',
    List.sum_replicate_nat]

/-- An object of a heap cut into `k` equal parts takes one of them. -/
theorem object_size {k : ℕ} (hk : 8 * k ∣ 4096) (hpos : 0 < 4096 / k - 8) :
    8 + roundUp8 (4096 / k - 8) = 4096 / k ∧ k * (4096 / k) = 4096 := by
  obtain ⟨c, hc⟩ := hk
  have hk₀ : 0 < k := Nat.pos_of_ne_zero fun e => by simp [e] at hc
  have hdiv : 4096 / k = 8 * c := by
    rw [hc, show 8 * k * c = k * (8 * c) by ac_rfl, Nat.mul_div_cancel_left _ hk₀]
  rw [hdiv] at hpos ⊢
  refine ⟨?_, by rw [hc]; ac_rfl⟩
  simp only [roundUp8]
  omega

/-- Calls for objects of that size succeed until there are `k` of them. -/
theorem Filled.objects (hf : Filled A s) {k : ℕ} (hk : 8 * k ∣ 4096) (hpos : 0 < 4096 / k - 8)
    {ops : List Op} (h : Run (Malloc.step A) Filling s ops s')
    (hsize : ∀ n file line, Op.malloc n file line ∈ ops → n.toNat = 4096 / k - 8)
    (hall : ∀ a ∈ s.live, a.size.toNat = 4096 / k - 8) (hle : s.live.length ≤ k) :
    (∀ a ∈ s'.live, a.size.toNat = 4096 / k - 8) ∧
      s'.live.length = min k (s.live.length + ops.countP Op.isMalloc) := by
  induction h with
  | nil s => exact ⟨hall, by simp [hle]⟩
  | @cons s s₁ s' op ops guard h t ih =>
      have htail : ∀ n file line, Op.malloc n file line ∈ ops → n.toNat = 4096 / k - 8 :=
        fun n file line hmem => hsize n file line (List.mem_cons_of_mem _ hmem)
      have hf₁ := hf.step guard h
      cases op with
      | malloc n file line =>
          have hn := hsize n file line List.mem_cons_self
          obtain ⟨p, h', err, hret, -, hiff⟩ := hf.mymalloc_ret guard.1 file line
          obtain ⟨hobj, htotal⟩ := object_size hk hpos
          have hn₀ : n ≠ 0 := ne_zero_of_toNat_pos (hn ▸ hpos)
          have hserved : p ≠ 0 ↔ s.live.length < k := by
            have hparts : s.live.length.succ * (4096 / k) ≤ k * (4096 / k) ↔
                s.live.length.succ ≤ k := Nat.mul_le_mul_right_iff (by omega)
            rw [hiff, used_same hall, hn, hobj, and_iff_right hn₀, ← Nat.succ_mul,
              ← Nat.succ_le_iff, ← hparts, htotal]
          rw [Malloc.step, hret] at h
          obtain rfl := Option.some.inj h
          rw [List.countP_cons_of_pos (by rfl)]
          by_cases hp : p = 0
          · have hfull : ¬ s.live.length < k := fun hlt => hserved.mpr hlt hp
            have hlive : (s.allocated h' p n).live = s.live := by rw [Client.allocated, if_pos hp]
            obtain ⟨h₁, h₂⟩ := ih hf₁ htail (by rwa [hlive]) (by rwa [hlive])
            rw [hlive] at h₂
            exact ⟨h₁, by omega⟩
          · have hlt := hserved.mp hp
            have hlive : (s.allocated h' p n).live = ⟨p, n⟩ :: s.live := by
              rw [Client.allocated, if_neg hp]
            obtain ⟨h₁, h₂⟩ := ih hf₁ htail
              (by rw [hlive]; exact List.forall_mem_cons.mpr ⟨hn, hall⟩)
              (by rw [hlive]; exact hlt)
            rw [hlive, List.length_cons] at h₂
            exact ⟨h₁, by omega⟩
      | free p file line => exact absurd guard.2 not_false
      | write x v =>
          obtain rfl := Option.some.inj h
          rw [List.countP_cons_of_neg Bool.false_ne_true]
          exact ih hf₁ htail hall hle

/-- **Capacity.**  After any calls of `mymalloc`, and writes, on a fresh heap, a request succeeds
exactly when what the earlier requests that succeeded took leaves room for it; and `k` objects of
`4096 / k - 8` bytes fill the heap. -/
theorem heap_capacity (hm : ZeroHeap A m) {ops : List Op}
    (h : Run (step A) Filling (start m) ops s) :
    (∀ n file line, n ≠ 0 → n.toNat ≤ 2 ^ 64 - 8 →
      ∃ p h' err, mymalloc A s.heap n file line = .ret p h' err ∧
        (p ≠ 0 ↔ used s.live + 8 + roundUp8 n.toNat ≤ 4096)) ∧
    ∀ k, 8 * k ∣ 4096 → 0 < 4096 / k - 8 →
      (∀ n file line, Op.malloc n file line ∈ ops → n.toNat = 4096 / k - 8) →
      s.live.length = min k (ops.countP Op.isMalloc) ∧ used s.live = s.live.length * (4096 / k) ∧
        (s.live.length = k → used s.live = 4096) := by
  have hf := filled_start hm
  refine ⟨fun n file line hn hs => ?_, fun k hk hpos hsize => ?_⟩
  · obtain ⟨p, h', err, hret, -, hiff⟩ := (hf.run h).mymalloc_ret hs file line
    exact ⟨p, h', err, hret, by rw [hiff, Nat.add_assoc]; exact and_iff_right hn⟩
  · obtain ⟨hall, hlen⟩ := hf.objects hk hpos h hsize (fun a ha => by cases ha) (Nat.zero_le k)
    obtain ⟨hobj, htotal⟩ := object_size hk hpos
    have hused := used_same hall
    rw [hobj] at hused
    exact ⟨by simpa [start] using hlen, hused, fun hk => by rw [hused, hk, htotal]⟩

/-- Five calls for objects of 1016 bytes, of which four fill the heap. -/
def objectOps : List Op :=
  [.malloc 1016 "memtest.c" 24, .malloc 1016 "memtest.c" 24, .write 65544 1,
    .malloc 1016 "memtest.c" 24, .malloc 1016 "memtest.c" 24, .malloc 1016 "memtest.c" 24]

theorem objectOps_run :
    (Run.exec (step .sample) Filling (start fun _ => 0) objectOps).isSome = true := by
  decide +kernel

theorem heap_capacity_sample :
    ((Run.exec (step .sample) Filling (start fun _ => 0) objectOps).get objectOps_run).live.length
      = 4 :=
  ((heap_capacity (fun _ _ _ => rfl) (Run.of_isSome objectOps_run)).2 4 (by decide) (by decide)
    (by simp +contextual [objectOps])).1

end CS214.Malloc
