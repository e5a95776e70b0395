import CS214.Lib.LinkedList
import CS214.Malloc.Memgrind

/-!
# Malloc — the linked list of `memgrind.c`

The fourth task builds a list of 60 nodes in the heap, takes every other node out and frees it, and
frees the rest.  `Nodes A out head ns p` says that the allocations of the process are the nodes of a
list from `head` on, with their data.  `task4Remove_spec`: what is left after the removal are the
nodes at the even places, in their order, with the data they had.
-/

namespace CS214.Malloc.Memgrind

open Imperative LinkedList ByteMemory

/-- `sizeof(node_t)`: an `int`, four bytes of padding and a pointer. -/
def nodeSize : UInt64 := 16

variable (A : Arena)

/-- `p->next`. -/
def link (p : UInt64) : C UInt64 := load fun m => next 8 m p

/-- `p->next = q`. -/
def setLink (p q : UInt64) : C Unit := store fun m => m.store64 (p.toNat + 8) q

/-- `p->data = i`. -/
def setData (p : UInt64) (i : ℕ) : C Unit := store fun m => m.store32 p.toNat (UInt32.ofNat i)

/-- The list of so many nodes; the newest one is the first. -/
def task4Create (count : ℕ) : C UInt64 :=
  forLoop (fun i head => do
    let newNode ← malloc A nodeSize 113 s!"Task 4 malloc failed at {i}\n"
    setData newNode i
    setLink newNode head
    return newNode) count 0 0

/-- The locals of the loop that removes nodes. -/
structure Cursor where
  head : UInt64
  curr : UInt64
  prev : UInt64
  cnt : ℕ

/-- `if (prev != NULL) prev->next = curr->next; else head = curr->next;`, and the head after it. -/
def task4Unlink (c : Cursor) : C UInt64 := do
  let behind ← link c.curr
  if c.prev ≠ 0 then do
    setLink c.prev behind
    return c.head
  else return behind

/-- `curr` is taken out of the list and freed. -/
def task4TakeOut (c : Cursor) : C Cursor := do
  let head ← task4Unlink c
  let curr ← link c.curr
  free A c.curr 137
  return { c with head := head, curr := curr, cnt := c.cnt + 1 }

/-- `curr` stays in the list. -/
def task4PassBy (c : Cursor) : C Cursor := do
  let curr ← link c.curr
  return { c with prev := c.curr, curr := curr, cnt := c.cnt + 1 }

/-- The loop that takes out every other node. -/
def task4Remove (head : UInt64) : C Cursor :=
  whileLoop (fun c : Cursor => c.curr != 0)
    (fun c => if c.cnt % 2 = 1 then task4TakeOut A c else task4PassBy c) ⟨head, head, 0, 0⟩

/-- The loop that frees what is left. -/
def task4Clear (head : UInt64) : C UInt64 :=
  whileLoop (fun head : UInt64 => head != 0) (fun head => do
    let behind ← link head
    free A head 149
    return behind) head

/-- Task 4: a list of 60 nodes is built, every other one is taken out, and the rest is freed. -/
def task4 : C Unit := do
  let head ← task4Create A 60
  let c ← task4Remove A head
  let _ ← task4Clear A c.head

/-! ### Nodes in the heap -/

/-- A node: its address and its data. -/
abbrev Node := UInt64 × UInt32

/-- The allocation of a node. -/
def Node.alloc (n : Node) : Alloc := ⟨n.1, nodeSize⟩

variable {A} {out : String} {p p' : Process} {m m' : ByteMemory} {head q r : UInt64} {n : Node}
  {ns ms : List Node}

theorem Node.owns_iff {x : ℕ} : n.alloc.Owns x ↔ n.1.toNat ≤ x ∧ x < n.1.toNat + 16 := Iff.rfl

/-- The bytes of these nodes are the same. -/
def Kept (m m' : ByteMemory) (ns : List Node) : Prop :=
  ∀ n ∈ ns, ∀ x, n.alloc.Owns x → m' x = m x

theorem Kept.next (h : Kept m m' ns) {q : UInt64} (hq : q ∈ ns.map Prod.fst) :
    next 8 m' q = next 8 m q := by
  obtain ⟨n, hn, rfl⟩ := List.mem_map.mp hq
  exact load64_congr fun x h₁ h₂ => h n hn x (Node.owns_iff.mpr (by omega))

theorem Kept.data (h : Kept m m' ns) (hn : n ∈ ns) : load32 m' n.1.toNat = load32 m n.1.toNat :=
  load32_congr fun x h₁ h₂ => h n hn x (Node.owns_iff.mpr (by omega))

/-- The process owns the nodes of a list from `head` on, and nothing else. -/
structure Nodes (A : Arena) (out : String) (head : UInt64) (ns : List Node) (p : Process) :
    Prop where
  has : Has A out (ns.map Node.alloc) p
  path : Path 8 p.heap.mem head (ns.map Prod.fst) 0
  data : ∀ n ∈ ns, load32 p.heap.mem n.1.toNat = n.2

/-- A store into one node keeps the others. -/
theorem kept_of_store (hl : Has A out ((n :: ms).map Node.alloc) p)
    (hm : ∀ x, ¬ n.alloc.Owns x → m' x = p.heap.mem x) : Kept p.heap.mem m' ms :=
  fun _ hk x hx => hm x (hl.live.head_apart (List.mem_map_of_mem hk) hx)

theorem setLink_frame {x : ℕ} (hx : ¬ n.alloc.Owns x) : m.store64 (n.1.toNat + 8) q x = m x := by
  rw [Node.owns_iff] at hx
  exact store64_apart (by omega)

theorem setData_frame {x : ℕ} {d : UInt32} (hx : ¬ n.alloc.Owns x) :
    m.store32 n.1.toNat d x = m x := by
  rw [Node.owns_iff] at hx
  exact store32_apart (by omega)

theorem next_setLink : next 8 (m.store64 (q.toNat + 8) r) q = r := load64_store64_self _ _ _

theorem data_setLink {d : UInt32} (h : load32 m q.toNat = d) :
    load32 (m.store64 (q.toNat + 8) r) q.toNat = d := by
  rw [load32_congr fun x h₁ h₂ => store64_apart (by omega), h]

/-! ### Building the list -/

/-- One more node, in front of the others. -/
theorem Nodes.create (h : Nodes A out head ns p) (hlen : ns.length < 60) (i : ℕ) :
    Returns (do
      let newNode ← malloc A nodeSize 113 s!"Task 4 malloc failed at {i}\n"
      setData newNode i
      setLink newNode head
      return newNode) p
      fun q p' => ∃ n : Node, n.1 = q ∧ n.2 = UInt32.ofNat i ∧ Nodes A out q (n :: ns) p' := by
  have hroom : worstBytes (ns.map Node.alloc) +
      ((ns.map Node.alloc).length + 1) * roundUp8 nodeSize.toNat < 4096 := by
    have hsize : ∀ a ∈ ns.map Node.alloc, a.size = nodeSize := fun a ha => by
      obtain ⟨n, -, rfl⟩ := List.mem_map.mp ha
      rfl
    rw [worstBytes_same hsize, show roundUp8 nodeSize.toNat = 16 from rfl, List.length_map]
    omega
  refine (malloc_returns h.has (by decide) hroom 113 _).bind ?_
  rintro q p₁ ⟨hhas, -, -, hkeep⟩
  have hkept₁ : Kept p.heap.mem p₁.heap.mem ns := fun n hn x hx =>
    hkeep _ (List.mem_map_of_mem hn) x hx
  have hhas₁ : Has A out (((q, UInt32.ofNat i) :: ns : List Node).map Node.alloc) p₁ := hhas
  refine (hhas₁.store List.mem_cons_self fun x hx => setData_frame hx).bind ?_
  rintro - p₂ ⟨hhas₂, hmem₂⟩
  have hkept₂ := kept_of_store hhas₁ fun x hx => (congrFun hmem₂ x).trans (setData_frame hx)
  refine (hhas₂.store List.mem_cons_self fun x hx => setLink_frame (q := head) hx).bind ?_
  rintro - p₃ ⟨hhas₃, hmem₃⟩
  have hkept₃ := kept_of_store hhas₂ fun x hx => (congrFun hmem₃ x).trans (setLink_frame hx)
  have hkept : Kept p.heap.mem p₃.heap.mem ns := fun n hn x hx =>
    (hkept₃ n hn x hx).trans ((hkept₂ n hn x hx).trans (hkept₁ n hn x hx))
  refine returns_pure ⟨(q, UInt32.ofNat i), rfl, rfl, hhas₃, ⟨rfl, ?_⟩, ?_⟩
  · rw [hmem₃, next_setLink, ← hmem₃]
    exact h.path.frame fun _ hk => hkept.next hk
  · refine List.forall_mem_cons.mpr ⟨?_, fun n hn => (hkept.data hn).trans (h.data n hn)⟩
    rw [hmem₃]
    refine data_setLink ?_
    rw [hmem₂, load32_store32_self]

theorem task4Create_spec (h : Has A out [] p) {count : ℕ} (hcount : count ≤ 60) :
    Returns (task4Create A count) p fun head p' => ∃ ns, Nodes A out head ns p' ∧
      ns.map Prod.snd = (List.range count).reverse.map UInt32.ofNat := by
  refine (returns_forLoop (I := fun i head p => ∃ ns, Nodes A out head ns p ∧
    ns.map Prod.snd = (List.range i).reverse.map UInt32.ofNat)
    ⟨[], ⟨h, rfl, fun _ hn => absurd hn List.not_mem_nil⟩, rfl⟩ ?_).imp fun head p' hn => ?_
  · rintro i head p - hi ⟨ns, hn, hdata⟩
    have hlen := congrArg List.length hdata
    rw [List.length_map, List.length_map, List.length_reverse, List.length_range] at hlen
    refine (hn.create (by omega) i).imp ?_
    rintro q p' ⟨n, -, hd, hn'⟩
    refine ⟨n :: ns, hn', ?_⟩
    rw [List.map_cons, hd, hdata, List.range_succ, List.reverse_append]
    rfl
  · rwa [Nat.zero_add] at hn

/-! ### Taking every other node out -/

/-- Every other element, the first one or the second one on. -/
def everyOther {α : Type} : Bool → List α → List α
  | _, [] => []
  | true, x :: xs => x :: everyOther false xs
  | false, _ :: xs => everyOther true xs

/-- The loop has kept `ks` and has `rs` ahead. -/
structure Removing (A : Arena) (out : String) (ns ks rs : List Node) (c : Cursor) (p : Process) :
    Prop where
  has : Has A out ((ks ++ rs).map Node.alloc) p
  behind : Path 8 p.heap.mem c.head (ks.map Prod.fst) c.curr
  ahead : Path 8 p.heap.mem c.curr (rs.map Prod.fst) 0
  data : ∀ n ∈ ks ++ rs, load32 p.heap.mem n.1.toNat = n.2
  prev : ∀ n ∈ ks.getLast?, c.prev = n.1
  started : c.cnt ≠ 0 → ks ≠ []
  goal : ks ++ everyOther (c.cnt % 2 == 0) rs = everyOther true ns

variable {ks rs : List Node} {c : Cursor}

theorem Nodes.removing (h : Nodes A out head ns p) :
    Removing A out ns [] ns ⟨head, head, 0, 0⟩ p where
  has := h.has
  behind := rfl
  ahead := h.path
  data := h.data
  prev n hn := by simp at hn
  started h₀ := absurd rfl h₀
  goal := rfl

theorem Removing.curr_eq {r : Node} (h : Removing A out ns ks (r :: rs) c p) : c.curr = r.1 :=
  h.ahead.1

/-- A node at an even place stays. -/
theorem Removing.passBy {r : Node} (h : Removing A out ns ks (r :: rs) c p)
    (heven : c.cnt % 2 = 0) :
    Returns (task4PassBy c) p fun c' p' => Removing A out ns (ks ++ [r]) rs c' p' := by
  have hodd : (c.cnt + 1) % 2 = 1 := by omega
  refine Returns.bind (returns_load (Q := fun q p' => q = next 8 p.heap.mem c.curr ∧ p = p')
    ⟨rfl, rfl⟩) ?_
  rintro _ _ ⟨rfl, rfl⟩
  have hsplit : ks ++ [r] ++ rs = ks ++ r :: rs := by simp
  refine returns_pure ⟨?_, ?_, ?_, ?_, ?_, fun _ => by simp, ?_⟩
  · rw [hsplit]
    exact h.has
  · rw [List.map_append]
    exact path_append.mpr ⟨c.curr, h.behind, h.curr_eq, by rw [h.curr_eq]; rfl⟩
  · rw [h.curr_eq]
    exact h.ahead.2
  · rw [hsplit]
    exact h.data
  · intro n hn
    rw [List.getLast?_concat, Option.mem_some_iff] at hn
    rw [← hn]
    exact h.curr_eq
  · have hgoal := h.goal
    rw [show (c.cnt % 2 == 0) = true by simp [heven], everyOther] at hgoal
    rw [show ((c.cnt + 1) % 2 == 0) = false by simp [hodd], List.append_assoc]
    exact hgoal

/-- A node at an odd place is taken out and freed. -/
theorem Removing.takeOut {r : Node} (h : Removing A out ns ks (r :: rs) c p)
    (hodd : c.cnt % 2 = 1) :
    Returns (task4TakeOut A c) p fun c' p' => Removing A out ns ks rs c' p' := by
  have heven : (c.cnt + 1) % 2 = 0 := by omega
  -- the node before it, which has been kept
  obtain ⟨ks₁, k, rfl⟩ := List.eq_nil_or_concat ks |>.resolve_left (h.started (by omega))
  rw [List.concat_eq_append] at *
  have hk : k ∈ ks₁ ++ [k] ++ r :: rs := by simp
  have hprev : c.prev = k.1 := h.prev k (by simp)
  have hne : k.1 ≠ 0 := h.has.live.ptr_ne_zero (List.mem_map_of_mem hk)
  have hperm : (ks₁ ++ [k] ++ r :: rs).Perm (k :: (ks₁ ++ r :: rs)) := by
    rw [List.append_assoc, List.singleton_append]
    exact List.perm_middle
  have hhas : Has A out ((k :: (ks₁ ++ r :: rs)).map Node.alloc) p := h.has.perm (hperm.map _)
  refine Returns.bind (Q := fun head p₁ => head = c.head ∧
    Has A out ((k :: (ks₁ ++ r :: rs)).map Node.alloc) p₁ ∧
    p₁.heap.mem = p.heap.mem.store64 (k.1.toNat + 8) (next 8 p.heap.mem r.1)) ?_ ?_
  · refine Returns.bind (returns_load (Q := fun q p' => q = next 8 p.heap.mem r.1 ∧ p = p')
      ⟨by rw [h.curr_eq], rfl⟩) ?_
    rintro _ _ ⟨rfl, rfl⟩
    refine returns_ite (fun _ => ?_) fun h₀ => absurd (hprev ▸ hne) h₀
    rw [hprev]
    refine (hhas.store List.mem_cons_self fun x hx => setLink_frame hx).bind ?_
    exact fun _ p₁ h₁ => returns_pure ⟨rfl, h₁⟩
  rintro _ p₁ ⟨rfl, hhas₁, hmem₁⟩
  have hkept₁ := kept_of_store hhas fun x hx => (congrFun hmem₁ x).trans (setLink_frame hx)
  refine Returns.bind (returns_load (Q := fun q p' => q = next 8 p.heap.mem r.1 ∧ p₁ = p')
    ⟨by rw [h.curr_eq]; exact hkept₁.next (by simp), rfl⟩) ?_
  rintro _ _ ⟨rfl, rfl⟩
  have hperm' : (k :: (ks₁ ++ r :: rs)).Perm (r :: (ks₁ ++ [k] ++ rs)) := by
    refine hperm.symm.trans ?_
    exact List.perm_middle
  rw [h.curr_eq]
  refine ((hhas₁.perm (hperm'.map _)).free 137).bind ?_
  rintro - p₂ ⟨hhas₂, -, hkeep₂⟩
  have hkept₂ : Kept p₁.heap.mem p₂.heap.mem (ks₁ ++ [k] ++ rs) := fun n hn x hx =>
    hkeep₂ _ (List.mem_map_of_mem hn) x hx
  have hkept : Kept p.heap.mem p₂.heap.mem (ks₁ ++ rs) := fun n hn x hx =>
    (hkept₂ n (by simp at hn ⊢; tauto) x hx).trans (hkept₁ n (by simp at hn ⊢; tauto) x hx)
  refine returns_pure ⟨hhas₂, ?_, ?_, ?_, h.prev, fun _ => by simp, ?_⟩
  · have hbehind := h.behind
    rw [List.map_append] at hbehind ⊢
    refine hbehind.relink ?_ fun q hq => hkept.next ?_
    · rw [hkept₂.next (by simp), hmem₁, next_setLink]
    · rw [List.map_append]
      exact List.mem_append_left _ hq
  · refine h.ahead.2.frame fun q hq => hkept.next ?_
    rw [List.map_append]
    exact List.mem_append_right _ hq
  · intro n hn
    rw [hkept₂.data hn]
    by_cases hnk : n = k
    · subst hnk
      rw [hmem₁]
      exact data_setLink (h.data n hk)
    · have hmem : n ∈ ks₁ ++ r :: rs := by
        simp at hn ⊢
        tauto
      rw [hkept₁.data hmem]
      exact h.data n (hperm.mem_iff.mpr (List.mem_cons_of_mem _ hmem))
  · have hgoal := h.goal
    rw [show (c.cnt % 2 == 0) = false by simp [hodd], everyOther] at hgoal
    rw [show ((c.cnt + 1) % 2 == 0) = true by simp [heven]]
    exact hgoal

/-- A path that has not come to its end is at a node that is not null. -/
theorem path_zero_iff (hhas : Has A out (ms.map Node.alloc) p) (hsub : ∀ n ∈ ns, n ∈ ms)
    (h : Path 8 m q (ns.map Prod.fst) 0) : q = 0 ↔ ns = [] := by
  cases ns with
  | nil => exact iff_of_true h rfl
  | cons n ns =>
      refine iff_of_false ?_ (List.cons_ne_nil _ _)
      rw [show q = n.1 from h.1]
      exact hhas.live.ptr_ne_zero (List.mem_map_of_mem (hsub n List.mem_cons_self))

/-- The nodes at the even places are left, in their order and with their data. -/
theorem task4Remove_spec (h : Nodes A out head ns p) :
    Returns (task4Remove A head) p fun c p' => Nodes A out c.head (everyOther true ns) p' := by
  refine (returns_whileLoop Nat.lt_wfRel.wf (I := fun v c p => ∃ ks rs, v = rs.length ∧
    Removing A out ns ks rs c p) (v := ns.length) ⟨[], ns, rfl, h.removing⟩ ?_).imp ?_
  · rintro v c p ⟨ks, rs, rfl, hrem⟩ hcond
    have hzero := path_zero_iff hrem.has (fun n hn => List.mem_append_right _ hn) hrem.ahead
    cases rs with
    | nil => exact absurd (hzero.mpr rfl) (by simpa using hcond)
    | cons r rs =>
        refine returns_ite (fun hodd => ?_) fun heven => ?_
        · exact (hrem.takeOut hodd).imp fun c' p' h' =>
            ⟨rs.length, Nat.lt_succ_self _, ks, rs, rfl, h'⟩
        · exact (hrem.passBy (by omega)).imp fun c' p' h' =>
            ⟨rs.length, Nat.lt_succ_self _, ks ++ [r], rs, rfl, h'⟩
  · rintro c p' ⟨hdone, v, ks, rs, -, hrem⟩
    have hcurr : c.curr = 0 := by simpa using hdone
    obtain rfl := (path_zero_iff hrem.has (fun n hn => List.mem_append_right _ hn)
      hrem.ahead).mp hcurr
    have hgoal : ks = everyOther true ns := by
      have hg := hrem.goal
      rwa [everyOther, List.append_nil] at hg
    have hhas := hrem.has
    have hdata := hrem.data
    rw [List.append_nil] at hhas hdata
    rw [← hgoal]
    exact ⟨hhas, hcurr ▸ hrem.behind, hdata⟩

/-- The rest of the list is freed. -/
theorem task4Clear_spec (h : Nodes A out head ns p) :
    Returns (task4Clear A head) p fun _ p' => Has A out [] p' := by
  refine (returns_whileLoop Nat.lt_wfRel.wf (I := fun v head p => ∃ ns, v = ns.length ∧
    Nodes A out head ns p) (v := ns.length) ⟨ns, rfl, h⟩ ?_).imp ?_
  · rintro v head p ⟨ns, rfl, hn⟩ hcond
    have hzero := path_zero_iff hn.has (fun n hn => hn) hn.path
    cases ns with
    | nil => exact absurd (hzero.mpr rfl) (by simpa using hcond)
    | cons n ns =>
        obtain ⟨hhead, hpath⟩ := hn.path
        refine Returns.bind (returns_load (Q := fun q p' => q = next 8 p.heap.mem n.1 ∧ p = p')
          ⟨by rw [hhead], rfl⟩) ?_
        rintro _ _ ⟨rfl, rfl⟩
        rw [hhead]
        refine (hn.has.free 149).bind ?_
        rintro - p' ⟨hhas, -, hkeep⟩
        have hkept : Kept p.heap.mem p'.heap.mem ns := fun k hk x hx =>
          hkeep _ (List.mem_map_of_mem hk) x hx
        exact returns_pure ⟨ns.length, Nat.lt_succ_self _, ns, rfl, hhas,
          hpath.frame fun q hq => hkept.next hq, fun k hk =>
            (hkept.data hk).trans (hn.data k (List.mem_cons_of_mem _ hk))⟩
  · rintro head p' ⟨hdone, v, ns, -, hn⟩
    obtain rfl := (path_zero_iff hn.has (fun n hn => hn) hn.path).mp (by simpa using hdone)
    exact hn.has

theorem everyOther_map {α β : Type} (f : α → β) (b : Bool) (xs : List α) :
    (everyOther b xs).map f = everyOther b (xs.map f) := by
  induction xs generalizing b with
  | nil => rfl
  | cons x xs ih => cases b <;> simp [everyOther, ih]

/-- The fourth task returns. -/
theorem task4_returns (h : Has A out [] p) : Returns (task4 A) p fun _ p' => Has A out [] p' := by
  refine (task4Create_spec h le_rfl).bind ?_
  rintro head p₁ ⟨ns, hn, -⟩
  refine (task4Remove_spec hn).bind fun c p₂ hc => ?_
  exact (task4Clear_spec hc).bind fun _ p₃ h₃ => returns_pure h₃

/-- **The list in the heap.**  However the heap came about, as long as nothing is allocated in it,
and for every length up to 60: when the loop of the removal is done, the allocations are the nodes
of one list, and it holds every other one of the numbers the list was built with, from the last one
on. -/
theorem task4_list (h : Has A out [] p) {count : ℕ} (hcount : count ≤ 60) :
    Returns (task4Create A count >>= task4Remove A) p fun c p' =>
      ∃ ns, Nodes A out c.head ns p' ∧
        ns.map Prod.snd = everyOther true ((List.range count).reverse.map UInt32.ofNat) := by
  refine (task4Create_spec h hcount).bind ?_
  rintro head p₁ ⟨ns, hn, hdata⟩
  refine (task4Remove_spec hn).imp fun c p₂ hc => ⟨_, hc, ?_⟩
  rw [everyOther_map, hdata]

theorem task4_list_sample :
    Returns (task4Create .sample 60 >>= task4Remove .sample) (.start fun _ => 0) fun c p =>
      ∃ ns, Nodes .sample "" c.head ns p ∧
        ns.map Prod.snd = everyOther true ((List.range 60).reverse.map UInt32.ofNat) :=
  task4_list (has_start fun _ _ _ => rfl) le_rfl

end CS214.Malloc.Memgrind
