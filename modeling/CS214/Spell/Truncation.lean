import CS214.Spell.Volume

/-!
# Spell — paths that do not fit the buffer

`process_directory` cuts the path of an entry to the size of its buffer and goes on with what is
left (`cutPath`).  `Harmless` says what the cut paths must not be: a directory with an entry to
go into, or a file that is checked for another entry too.  An entry `x` of a directory whose path
has 1022 bytes has the path of the directory itself, with a `/` behind it.

* `processDirectory_none`: the bound of the recursion is used up by calls that are nested deeper.
* `visible_directory`: a directory reached by uncut paths is where its names say.
* `Harmless.trail_cases`: then a cut path is never gone into.
* `walksOnce_iff`: the walk ends, is no deeper than the tree and checks no file twice exactly when
  the cut paths are harmless.
-/

open CString

namespace CS214.Spell

variable {fs : FileSystem} {d : Dict} {suffix root name name' x : Bytes}
  {c c' comps comps' names : List Bytes} {n : ℕ} {st : Session}

/-! ### Calls that are nested too deep -/

section

variable {path : List Bytes → Bytes} {b : List Bytes}

theorem foldlM_none {α σ : Type*} {f : σ → α → Option σ} {l : List α} {x : α} (hx : x ∈ l)
    (h : ∀ s, f s x = none) (s : σ) : l.foldlM f s = none := by
  induction l generalizing s with
  | nil => cases hx
  | cons y l ih =>
      rw [List.foldlM_cons]
      rcases List.mem_cons.mp hx with rfl | hx
      · rw [h s]
        rfl
      · cases f s y with
        | none => rfl
        | some s' => exact ih hx s'

/-- `process_directory` is called for what shows an entry. -/
theorem FileSystem.called_of_shown (hc : Traversal.Below (fs.shown path) [] c)
    (hx : x ∈ fs.shown path c) : fs.Called path c :=
  ⟨hc, (mem_shown.mp hx).1⟩

/-- `process_directory` is called for every directory on the way to one it is called for. -/
theorem FileSystem.Called.ancestor (hb : fs.Called path b)
    (hc : Traversal.Below (fs.shown path) [] c) (h : Traversal.Below (fs.shown path) c b) :
    fs.Called path c := by
  rcases h.cases_head with rfl | ⟨x, hx, -⟩
  · exact hb
  · exact called_of_shown hc hx

/-- The bound of the recursion is used up when a call is nested deeper. -/
theorem processDirectory_none (hf : fs.Follows path) (hb : fs.Called path b)
    (hc : Traversal.Below (fs.shown path) [] c) (h : Traversal.Below (fs.shown path) c b)
    (hn : n + c.length ≤ b.length) (st : Session) :
    processDirectory fs d suffix n (path c) st = none := by
  induction n generalizing c st with
  | zero => rfl
  | succ n ih =>
      rcases h.cases_head with rfl | ⟨x, hx, hbelow⟩
      · omega
      · obtain ⟨-, ⟨names, ho, hmem⟩, hhid⟩ := FileSystem.mem_shown.mp hx
        have hstep : Traversal.Below (fs.shown path) [] (c ++ [x]) := .step hc hx
        have hstat := ((hb.ancestor hstep hbelow).2).resolve_left (by simp)
        rw [processDirectory, ho]
        refine foldlM_none hmem (fun st => ?_) st
        simp only [hhid, Bool.false_eq_true, if_false, ← hf c x hstep, hstat]
        exact ih hstep hbelow (by rw [List.length_append, List.length_singleton]; omega) st

end

/-! ### Cut paths -/

/-- The path that the calls for the names make: it is cut at every step. -/
def cutPath (root : Bytes) (comps : List Bytes) : Bytes :=
  comps.foldl (fun dirname name => (dirname ++ ascii "/" ++ name).take (pathSize - 1)) root

/-- The path that the names make fits the buffer.  The root itself is not put into it. -/
def Whole (root : Bytes) (comps : List Bytes) : Prop :=
  comps = [] ∨ (pathOf root comps).length ≤ pathSize - 1

/-- What is left of the path of an entry. -/
def cutTo (root : Bytes) (comps : List Bytes) (name : Bytes) : Bytes :=
  (pathOf root (comps ++ [name])).take (pathSize - 1)

/-- An entry that the walk meets, whose path is the first on its way that does not fit. -/
structure FileSystem.Cut (fs : FileSystem) (root : Bytes) (comps : List Bytes) (name : Bytes) :
    Prop where
  visible : fs.Visible root comps
  whole : Whole root comps
  shown : name ∈ fs.visible root comps
  long : pathSize - 1 < (pathOf root (comps ++ [name])).length

/-- What is left of a path that is cut is no directory that shows an entry, and no file that is
checked for two entries. -/
structure FileSystem.Harmless (fs : FileSystem) (suffix root : Bytes) : Prop where
  directory : ∀ comps name, fs.Cut root comps name →
    fs.stat (cutTo root comps name) = some .directory →
    ∀ names, fs.opendir (cutTo root comps name) = some names → ∀ x ∈ names, hidden x = true
  regular : ∀ comps name name', fs.Cut root comps name →
    fs.stat (cutTo root comps name) = some .regular → suffix <:+ name →
    name' ∈ fs.visible root comps → suffix <:+ name' →
    cutTo root comps name' = cutTo root comps name → name' = name

theorem cutPath_push (root : Bytes) (comps : List Bytes) (name : Bytes) :
    cutPath root (comps ++ [name]) =
      (cutPath root comps ++ ascii "/" ++ name).take (pathSize - 1) := by
  rw [cutPath, List.foldl_append]
  rfl

theorem follows_cutPath (fs : FileSystem) (root : Bytes) : fs.Follows (cutPath root) :=
  fun comps name _ => cutPath_push root comps name

theorem Whole.of_push (h : Whole root (comps ++ [name])) : Whole root comps := by
  have hlen := h.resolve_left (by simp)
  rw [pathOf_push, List.length_append, List.length_append] at hlen
  exact .inr (by omega)

theorem cutPath_whole (h : Whole root comps) : cutPath root comps = pathOf root comps := by
  induction comps using List.reverseRecOn with
  | nil => rw [pathOf_nil]; rfl
  | append_singleton comps name ih =>
      rw [cutPath_push, ih h.of_push, ← pathOf_push]
      exact List.take_of_length_le (h.resolve_left (by simp))

theorem cutPath_cut (h : Whole root comps) (name : Bytes) :
    cutPath root (comps ++ [name]) = cutTo root comps name := by
  rw [cutPath_push, cutPath_whole h, ← pathOf_push, cutTo]

theorem shown_whole (h : Whole root comps) :
    fs.shown (cutPath root) comps = fs.visible root comps := by
  rw [FileSystem.shown, cutPath_whole h]
  rfl

/-- As long as the paths fit, the names that are followed are those of the tree. -/
theorem below_whole (h : Whole root comps) :
    Traversal.Below (fs.shown (cutPath root)) [] comps ↔ fs.Visible root comps := by
  rw [FileSystem.Visible]
  induction comps using List.reverseRecOn with
  | nil => exact iff_of_true .refl .refl
  | append_singleton comps name ih =>
      rw [Traversal.Below.push_iff, Traversal.Below.push_iff, ih h.of_push, shown_whole h.of_push]

/-- A name that is shown stands in the directory that its path names, and is not hidden. -/
theorem mem_visible (h : x ∈ fs.visible root comps) :
    (comps = [] ∨ fs.stat (pathOf root comps) = some .directory) ∧
      (∃ names, fs.opendir (pathOf root comps) = some names ∧ x ∈ names) ∧ hidden x = false := by
  have hx : x ∈ fs.shown (pathOf root) comps := h
  exact FileSystem.mem_shown.mp hx

theorem stat_ne_none_of_mem (h : x ∈ fs.visible root comps) :
    comps = [] ∨ fs.stat (pathOf root comps) ≠ none := by
  refine (mem_visible h).1.imp_right fun hs => ?_
  rw [hs]
  exact Option.some_ne_none _

/-! ### Where the paths lead -/

section

variable {T : Volume} {cwd a : List Bytes}
variable (hm : T.Mounted fs cwd) (hroot : T.resolve cwd root = some a)
include hm hroot

/-- The path of an entry leads to where its names say. -/
theorem visible_address (h : fs.Visible root c) (hs : c = [] ∨ fs.stat (pathOf root c) ≠ none) :
    T.resolve cwd (pathOf root c) = some (a ++ c) := by
  rw [FileSystem.Visible] at h
  induction h with
  | refl => rw [pathOf_nil, List.append_nil, hroot]
  | @step c x _ hx ih =>
      have hshown := (mem_visible hx).2.2
      obtain ⟨hne, hslash, -⟩ := FileSystem.listing_mem (List.mem_filter.mp hx).1
      have hc := ih (stat_ne_none_of_mem hx)
      obtain ⟨t, ht⟩ := Option.ne_none_iff_exists'.mp (hs.resolve_left (by simp))
      obtain ⟨b, hb, -⟩ := hm.stat _ _ ht
      rw [pathOf_push] at hb ⊢
      rw [hb, Volume.resolve_entry hc hne hslash hshown hb, List.append_assoc]

/-- A directory whose entries are met is where its names say, and so are its entries. -/
theorem visible_directory (h : fs.Visible root comps) (hx : x ∈ fs.visible root comps) :
    T.resolve cwd (pathOf root comps) = some (a ++ comps) ∧
      T.node (a ++ comps) = some .directory ∧ T.node (a ++ (comps ++ [x])) ≠ none := by
  obtain ⟨-, ⟨names, ho, hmem⟩, hshown⟩ := mem_visible hx
  obtain ⟨hdot, hdots⟩ := Volume.ordinary_of_shown hshown
  have haddr := visible_address hm hroot h (stat_ne_none_of_mem hx)
  obtain ⟨b, hb, hnode, hnames⟩ := hm.opendir _ _ ho
  rw [haddr] at hb
  obtain rfl := Option.some.inj hb
  refine ⟨haddr, hnode, ?_⟩
  rw [← List.append_assoc]
  exact (((hnames x).mp hmem).resolve_left hdot).resolve_left hdots

/-- A file that is found under a path, cut or not, is in the directory. -/
theorem cut_address (hlen : root.length ≤ pathSize - 1) (h : fs.Visible root comps)
    (hw : Whole root comps) (hx : x ∈ fs.visible root comps)
    (hs : fs.stat (cutTo root comps x) = some .regular) :
    ∃ q, cutTo root comps x = pathOf root comps ++ ascii "/" ++ q ∧
      T.resolve cwd (cutTo root comps x) = some (a ++ comps ++ [q]) := by
  obtain ⟨haddr, hdir, -⟩ := visible_directory hm hroot h hx
  obtain ⟨hne, hslash, -⟩ := FileSystem.listing_mem (List.mem_filter.mp hx).1
  have hshown := (mem_visible hx).2.2
  have hD : (pathOf root comps).length ≤ pathSize - 1 := by
    rcases hw with rfl | hw
    · rwa [pathOf_nil]
    · exact hw
  obtain ⟨b, hb, hfile⟩ := hm.stat _ _ hs
  have hslash1 : (ascii "/").length = 1 := by decide
  have hcut : cutTo root comps x = (pathOf root comps ++ ascii "/").take (pathSize - 1) ++
      x.take (pathSize - 1 - ((pathOf root comps).length + 1)) := by
    rw [cutTo, pathOf_push, List.take_append, List.length_append, hslash1]
  by_cases hroom : (pathOf root comps).length + 1 < pathSize - 1
  · -- the directory and the slash fit, and something of the name
    have hq : x.take (pathSize - 1 - ((pathOf root comps).length + 1)) ≠ [] := by
      rw [ne_eq, List.take_eq_nil_iff, not_or]
      exact ⟨by omega, hne⟩
    have hhid : hidden (x.take (pathSize - 1 - ((pathOf root comps).length + 1))) = false := by
      cases x with
      | nil => exact absurd rfl hne
      | cons b x =>
          obtain ⟨k, hk⟩ := Nat.exists_eq_succ_of_ne_zero
            (show pathSize - 1 - ((pathOf root comps).length + 1) ≠ 0 by omega)
          rw [hk]
          exact hshown
    rw [List.take_of_length_le (by rw [List.length_append, hslash1]; omega)] at hcut
    refine ⟨_, hcut, ?_⟩
    rw [hb]
    rw [hcut] at hb
    exact congrArg some (Volume.resolve_entry haddr hq
      (fun hmem => hslash (List.mem_of_mem_take hmem)) hhid hb)
  · -- nothing of the name is left: the path is that of the directory, and no file
    exfalso
    have hnil : pathSize - 1 - ((pathOf root comps).length + 1) = 0 := by omega
    rw [hnil, List.take_zero, List.append_nil] at hcut
    have hb' : b = a ++ comps := by
      by_cases hfull : (pathOf root comps).length = pathSize - 1
      · rw [List.take_left' hfull] at hcut
        rw [hcut, haddr] at hb
        exact (Option.some.inj hb).symm
      · rw [List.take_of_length_le (by rw [List.length_append, hslash1]; omega)] at hcut
        rw [hcut] at hb
        exact (Volume.resolve_slash haddr hb).1
    rw [hb', hdir] at hfile
    cases hfile

end

/-! ### Harmless cuts -/

/-- A cut path is not gone into: whatever is met is an entry of a directory with an uncut path. -/
theorem FileSystem.Harmless.trail_cases (hh : fs.Harmless suffix root)
    (h : Traversal.Below (fs.shown (cutPath root)) [] c) :
    c = [] ∨ ∃ comps name, c = comps ++ [name] ∧ fs.Visible root comps ∧ Whole root comps ∧
      name ∈ fs.visible root comps := by
  induction h with
  | refl => exact .inl rfl
  | @step c x h hx ih =>
      by_cases hw : Whole root c
      · exact .inr ⟨c, x, rfl, (below_whole hw).mp h, hw, by rwa [← shown_whole hw]⟩
      · obtain rfl | ⟨comps, name, rfl, hvis, hwhole, hname⟩ := ih
        · exact absurd (.inl rfl) hw
        · -- the path is cut, and the directory it leads to shows `x`
          have hcut : fs.Cut root comps name :=
            ⟨hvis, hwhole, hname, Nat.lt_of_not_le fun hle => hw (.inr hle)⟩
          obtain ⟨hdir, ⟨names, ho, hmem⟩, hshown⟩ := mem_shown.mp hx
          rw [cutPath_cut hwhole] at hdir ho
          have hhid := hh.directory comps name hcut (hdir.resolve_left (by simp)) names ho x hmem
          rw [hhid] at hshown
          cases hshown

/-- In one directory, no file is checked for two entries. -/
theorem FileSystem.Harmless.same_name (hh : fs.Harmless suffix root) (hv : fs.Visible root comps)
    (hw : Whole root comps) (hx : name ∈ fs.visible root comps)
    (hx' : name' ∈ fs.visible root comps) (hs : suffix <:+ name) (hs' : suffix <:+ name')
    (hstat : fs.stat (cutTo root comps name) = some .regular)
    (heq : cutTo root comps name = cutTo root comps name') : name = name' := by
  by_cases hlong : pathSize - 1 < (pathOf root (comps ++ [name])).length
  · exact (hh.regular comps name name' ⟨hv, hw, hx, hlong⟩ hstat hs hx' hs' heq.symm).symm
  · by_cases hlong' : pathSize - 1 < (pathOf root (comps ++ [name'])).length
    · exact hh.regular comps name' name ⟨hv, hw, hx', hlong'⟩ (heq ▸ hstat) hs' hx hs heq
    · rw [cutTo, cutTo, List.take_of_length_le (Nat.le_of_not_lt hlong),
        List.take_of_length_le (Nat.le_of_not_lt hlong'), pathOf_push, pathOf_push] at heq
      exact List.append_cancel_left heq

/-- Where no path is cut, none is harmful. -/
theorem FileSystem.Short.harmless (hs : fs.Short root) : fs.Harmless suffix root := by
  have hno : ∀ comps name, ¬ fs.Cut root comps name := by
    intro comps name h
    have hle := hs (comps ++ [name]) (by simp) (.step h.visible h.shown)
    exact absurd h.long (Nat.not_lt.mpr hle)
  exact ⟨fun comps name h => absurd h (hno comps name),
    fun comps name _ h => absurd h (hno comps name)⟩

/-! ### The walk -/

/-- The walk from `root`, the path of the directory at `a`, ends with its calls nested no deeper
than the tree below `a`, and calls `check_file` at most once for a file. -/
def WalksOnce (fs : FileSystem) (T : Volume) (cwd : List Bytes) (d : Dict) (suffix root : Bytes)
    (a : List Bytes) (st : Session) : Prop :=
  ∀ depth, (∀ c, T.node (a ++ c) ≠ none → c.length ≤ depth) →
    ∃ st' calls, processDirectory fs d suffix (depth + 1) root st = some st' ∧
      st'.checked = st.checked ++ calls ∧ (calls.map fun call => T.resolve cwd call.1).Nodup

/-- The files that are checked, when no call is too deep. -/
theorem processDirectory_calls (d : Dict) (suffix : Bytes)
    (hdepth : ∀ b, fs.Called (cutPath root) b → b.length < n) (st : Session) :
    ∃ st', processDirectory fs d suffix n root st = some st' ∧
      st'.checked = st.checked ++
        ((Traversal.preorder (fs.shown (cutPath root)) (n + 1) []).tail.filter fun c =>
          fs.Chosen (cutPath root) suffix c).map fun c => (cutPath root c, true) := by
  refine ⟨_, processDirectory_walk (c := []) (follows_cutPath fs root) hdepth ⟨.refl, .inl rfl⟩
    (Nat.le_refl n) st, ?_⟩
  rw [Session.foldl_meet_checked]
  congr 1
  rw [Session.enter]
  split <;> rfl

section

variable {T : Volume} {cwd a : List Bytes} {depth : ℕ}
variable (hm : T.Mounted fs cwd) (hroot : T.resolve cwd root = some a)
  (hdepth : ∀ c, T.node (a ++ c) ≠ none → c.length ≤ depth)

include hm hroot

/-- Two entries whose paths, cut or not, name one file that is checked are the same. -/
theorem FileSystem.Harmless.chosen_inj (hh : fs.Harmless suffix root) (hne : c ≠ [])
    (hc : Traversal.Below (fs.shown (cutPath root)) [] c) (hne' : c' ≠ [])
    (hc' : Traversal.Below (fs.shown (cutPath root)) [] c')
    (h : fs.Chosen (cutPath root) suffix c) (h' : fs.Chosen (cutPath root) suffix c')
    (heq : T.resolve cwd (cutPath root c) = T.resolve cwd (cutPath root c')) : c = c' := by
  obtain ⟨comps, name, rfl, hv, hw, hx⟩ := (hh.trail_cases hc).resolve_left hne
  obtain ⟨comps', name', rfl, hv', hw', hx'⟩ := (hh.trail_cases hc').resolve_left hne'
  obtain ⟨hstat, hs⟩ := h
  obtain ⟨hstat', hs'⟩ := h'
  rw [List.getLastD_concat] at hs hs'
  rw [cutPath_cut hw] at hstat heq
  rw [cutPath_cut hw'] at hstat' heq
  suffices hsame : comps = comps' ∧ cutTo root comps name = cutTo root comps' name' by
    obtain ⟨rfl, hcut⟩ := hsame
    rw [hh.same_name hv hw hx hx' hs hs' hstat hcut]
  by_cases hlen : root.length ≤ pathSize - 1
  · -- the address of the file says which directory it is in, and what is left of its name
    obtain ⟨q, hq, haddr⟩ := cut_address hm hroot hlen hv hw hx hstat
    obtain ⟨q', hq', haddr'⟩ := cut_address hm hroot hlen hv' hw' hx' hstat'
    rw [haddr, haddr'] at heq
    obtain ⟨hdir, hlast⟩ := List.append_inj' (Option.some.inj heq) rfl
    obtain rfl := List.append_cancel_left hdir
    obtain rfl := (List.cons.inj hlast).1
    exact ⟨rfl, hq.trans hq'.symm⟩
  · -- nothing behind the root is left of any path
    have hnil : ∀ {cs : List Bytes}, Whole root cs → cs = [] := by
      intro cs hcs
      refine hcs.resolve_right fun hle => hlen ?_
      rw [pathOf, List.length_append] at hle
      omega
    have hcut : ∀ x, cutTo root [] x = root.take (pathSize - 1) := by
      intro x
      rw [cutTo, pathOf, List.take_append_of_le_length (by omega)]
    obtain rfl := hnil hw
    obtain rfl := hnil hw'
    exact ⟨rfl, (hcut name).trans (hcut name').symm⟩

include hdepth in
/-- Everything that is met is in the tree. -/
theorem FileSystem.Harmless.trail_depth (hh : fs.Harmless suffix root)
    (hc : Traversal.Below (fs.shown (cutPath root)) [] c) : c.length < depth + 1 := by
  obtain rfl | ⟨comps, name, rfl, hv, -, hx⟩ := hh.trail_cases hc
  · exact Nat.succ_pos depth
  · exact Nat.lt_succ_of_le (hdepth _ (visible_directory hm hroot hv hx).2.2)

theorem FileSystem.Harmless.walksOnce (hh : fs.Harmless suffix root) (d : Dict) (st : Session) :
    WalksOnce fs T cwd d suffix root a st := by
  intro depth hdepth
  have htrail : ∀ b, Traversal.Below (fs.shown (cutPath root)) [] b → b.length < depth + 1 :=
    fun _ hb => hh.trail_depth hm hroot hdepth hb
  obtain ⟨st', hrun, hchecked⟩ :=
    processDirectory_calls d suffix (fun b hb => htrail b hb.1) st
  refine ⟨st', _, hrun, hchecked, ?_⟩
  rw [List.map_map]
  refine List.Nodup.map_on (fun c hc c' hc' heq => ?_)
    ((Traversal.nodup_preorder (fs.nodup_shown (cutPath root))).tail.filter _)
  obtain ⟨hmem, hch⟩ := List.mem_filter.mp hc
  obtain ⟨hmem', hch'⟩ := List.mem_filter.mp hc'
  rw [Traversal.mem_tail_preorder htrail (by omega)] at hmem hmem'
  exact hh.chosen_inj hm hroot hmem.1 hmem.2 hmem'.1 hmem'.2 (of_decide_eq_true hch)
    (of_decide_eq_true hch') heq

end

/-- A cut path that is a directory and shows an entry is gone into again and again: the path of the
entry is cut to the same path. -/
theorem FileSystem.Cut.again (h : fs.Cut root comps name)
    (hstat : fs.stat (cutTo root comps name) = some .directory)
    (ho : fs.opendir (cutTo root comps name) = some names) (hx : x ∈ names)
    (hhid : hidden x = false) (k : ℕ) :
    cutPath root (comps ++ [name] ++ List.replicate k x) = cutTo root comps name ∧
      fs.Called (cutPath root) (comps ++ [name] ++ List.replicate k x) := by
  induction k with
  | zero =>
      rw [List.replicate_zero, List.append_nil]
      have hpath := cutPath_cut h.whole name
      refine ⟨hpath, Traversal.Below.push_iff.mpr ⟨(below_whole h.whole).mpr h.visible, ?_⟩, ?_⟩
      · rw [shown_whole h.whole]
        exact h.shown
      · rw [hpath]
        exact .inr hstat
  | succ k ih =>
      obtain ⟨hpath, hcalled⟩ := ih
      have hfull : (cutTo root comps name).length = pathSize - 1 := by
        rw [cutTo, List.length_take_of_le (Nat.le_of_lt h.long)]
      have hsame : cutPath root (comps ++ [name] ++ List.replicate (k + 1) x) =
          cutTo root comps name := by
        rw [List.replicate_succ', ← List.append_assoc, cutPath_push, hpath, List.append_assoc,
          List.take_left' hfull]
      refine ⟨hsame, ?_, by rw [hsame]; exact .inr hstat⟩
      rw [List.replicate_succ', ← List.append_assoc]
      rw [← hpath] at ho
      exact .step hcalled.1 (FileSystem.mem_shown.mpr ⟨hcalled.2, ⟨names, ho, hx⟩, hhid⟩)

/-- Then no bound of the recursion is enough. -/
theorem FileSystem.Cut.never_ends (h : fs.Cut root comps name)
    (hstat : fs.stat (cutTo root comps name) = some .directory)
    (ho : fs.opendir (cutTo root comps name) = some names) (hx : x ∈ names)
    (hhid : hidden x = false) (n : ℕ) (st : Session) :
    processDirectory fs d suffix n root st = none := by
  have hcalled := (h.again hstat ho hx hhid n).2
  refine processDirectory_none (c := []) (follows_cutPath fs root) hcalled .refl hcalled.1 ?_ st
  rw [List.length_append, List.length_replicate, List.length_nil]
  omega

/-- A walk that ends makes no call that is nested too deep. -/
theorem depth_of_processDirectory {st' : Session}
    (h : processDirectory fs d suffix n root st = some st') :
    ∀ b, fs.Called (cutPath root) b → b.length < n := by
  intro b hb
  by_contra hlt
  have hnone : processDirectory fs d suffix n (cutPath root []) st = none :=
    processDirectory_none (follows_cutPath fs root) hb .refl hb.1 (Nat.le_of_not_lt hlt) st
  rw [show cutPath root [] = root from rfl, h] at hnone
  cases hnone

theorem harmless_of_walksOnce {T : Volume} {cwd a : List Bytes}
    (h : WalksOnce fs T cwd d suffix root a st) : fs.Harmless suffix root := by
  obtain ⟨depth, hT⟩ := T.exists_depth
  obtain ⟨st', calls, hrun, hchecked, hnodup⟩ := h depth fun c hc => by
    have hle := hT _ hc
    rw [List.length_append] at hle
    omega
  have hdepth := depth_of_processDirectory hrun
  constructor
  · intro comps name hcut hstat names ho x hx
    by_contra hhid
    rw [hcut.never_ends hstat ho hx (by simpa using hhid)] at hrun
    cases hrun
  · intro comps name name' hcut hstat hs hx' hs' heq
    -- both entries are met, and both calls are for the same path
    obtain ⟨st₁, hrun₁, hchecked₁⟩ := processDirectory_calls d suffix hdepth st
    rw [hrun] at hrun₁
    obtain rfl := Option.some.inj hrun₁
    rw [hchecked] at hchecked₁
    rw [List.append_cancel_left hchecked₁, List.map_map] at hnodup
    have htrail : ∀ b, Traversal.Below (fs.shown (cutPath root)) [] b → b.length < depth + 2 := by
      intro b hb
      rcases List.eq_nil_or_concat b with rfl | ⟨b, y, rfl⟩
      · exact Nat.succ_pos _
      · rw [List.concat_eq_append] at hb ⊢
        obtain ⟨hbelow, hy⟩ := Traversal.Below.push_iff.mp hb
        have hlt := hdepth b (FileSystem.called_of_shown hbelow hy)
        rw [List.length_append, List.length_singleton]
        omega
    have hmem : ∀ y, y ∈ fs.visible root comps → suffix <:+ y →
        cutTo root comps y = cutTo root comps name →
        comps ++ [y] ∈ (Traversal.preorder (fs.shown (cutPath root)) (depth + 1 + 1) []).tail.filter
          fun c => fs.Chosen (cutPath root) suffix c := by
      intro y hy hsuf hcutTo
      refine List.mem_filter.mpr ⟨(Traversal.mem_tail_preorder htrail (by omega)).mpr
        ⟨by simp, Traversal.Below.push_iff.mpr ⟨(below_whole hcut.whole).mpr hcut.visible, ?_⟩⟩,
        decide_eq_true ⟨?_, ?_⟩⟩
      · rwa [shown_whole hcut.whole]
      · rw [cutPath_cut hcut.whole, hcutTo, hstat]
      · rwa [List.getLastD_concat]
    have hsame := List.inj_on_of_nodup_map hnodup (hmem name' hx' hs' heq)
      (hmem name hcut.shown hs rfl) (by
        simp only [Function.comp_apply, cutPath_cut hcut.whole, heq])
    exact (List.cons.inj (List.append_cancel_left hsame)).1

/-- **Termination of the traversal.**  From every path of a directory of a finite tree without
links, `process_directory` ends with its calls nested no deeper than the tree, and calls
`check_file` at most once for a file, exactly when the paths it cuts are harmless. -/
theorem walksOnce_iff {T : Volume} {cwd a : List Bytes} (hm : T.Mounted fs cwd)
    (hroot : T.resolve cwd root = some a) (d : Dict) (suffix : Bytes) (st : Session) :
    WalksOnce fs T cwd d suffix root a st ↔ fs.Harmless suffix root :=
  ⟨harmless_of_walksOnce, fun h => h.walksOnce hm hroot d st⟩

/-- A directory `t` with two files, one of them in a directory. -/
def Volume.small : Volume where
  items := [([], .directory), ([ascii "t"], .directory), ([ascii "t", ascii "sub"], .directory),
    ([ascii "t", ascii "a.txt"], .regular), ([ascii "t", ascii "sub", ascii "b.txt"], .regular)]
  distinct := by decide
  top := by decide
  parents := by decide
  names := by decide

/-- A name of `n` bytes. -/
def deepName (n : ℕ) : Bytes := List.replicate n 97

/-- Four directories, each in the one before, and a file in the last: its path has 1024 bytes. -/
def Volume.deep : Volume where
  items := [([], .directory), ([deepName 255], .directory),
    ([deepName 255, deepName 255], .directory),
    ([deepName 255, deepName 255, deepName 255], .directory),
    ([deepName 255, deepName 255, deepName 255, deepName 254], .directory),
    ([deepName 255, deepName 255, deepName 255, deepName 254, ascii "f"], .regular)]
  distinct := by decide +kernel
  top := by decide +kernel
  parents := by decide +kernel
  names := by decide +kernel

/-- A process at the top of the tree, all files of which are empty. -/
def Volume.sampleSystem (T : Volume) : FileSystem :=
  T.system [] (fun _ => .ok []) fun _ _ h => by
    cases h
    exact fun _ hp => absurd hp List.not_mem_nil

theorem short_small : Volume.small.sampleSystem.Short (ascii "t") := by
  have hlen : ∀ comps ∈ [[], [ascii "sub"], [ascii "a.txt"], [ascii "sub", ascii "b.txt"]],
      (pathOf (ascii "t") comps).length ≤ pathSize - 1 := by decide +kernel
  intro comps _ hv
  exact hlen comps (Traversal.Below.mem_closed (by decide +kernel) (by decide) hv)

theorem walksOnce_small :
    WalksOnce Volume.small.sampleSystem .small [] dictCreate (ascii ".txt") (ascii "t")
      [ascii "t"] ⟨[], [], false, []⟩ :=
  (walksOnce_iff (Volume.mounted_system .small [] _ _) (by decide +kernel) _ _ _).mpr
    short_small.harmless

/-- The path of the file is cut to that of its directory, with a `/` behind it. -/
theorem cut_deep : Volume.deep.sampleSystem.Cut (deepName 255)
    [deepName 255, deepName 255, deepName 254] (ascii "f") where
  visible := .step (b := [deepName 255, deepName 255])
    (.step (b := [deepName 255]) (.step (b := []) .refl (by decide +kernel)) (by decide +kernel))
    (by decide +kernel)
  whole := .inr (by decide +kernel)
  shown := by decide +kernel
  long := by decide +kernel

/-- The walk from the first of them never ends. -/
theorem deep_never_ends :
    Volume.Mounted Volume.deep.sampleSystem .deep [] ∧
      Volume.deep.resolve [] (deepName 255) = some [deepName 255] ∧
      Volume.deep.node [deepName 255] = some .directory ∧
      (pathOf (deepName 255) [deepName 255, deepName 255, deepName 254, ascii "f"]).length = 1024 ∧
      (∀ n, processDirectory Volume.deep.sampleSystem dictCreate [] n (deepName 255)
        ⟨[], [], false, []⟩ = none) ∧
      ¬ WalksOnce Volume.deep.sampleSystem .deep [] dictCreate [] (deepName 255) [deepName 255]
        ⟨[], [], false, []⟩ := by
  have hstat : Volume.deep.sampleSystem.stat (cutTo (deepName 255)
      [deepName 255, deepName 255, deepName 254] (ascii "f")) = some .directory := by
    decide +kernel
  have ho : Volume.deep.sampleSystem.opendir (cutTo (deepName 255)
      [deepName 255, deepName 255, deepName 254] (ascii "f")) =
        some [ascii ".", ascii "..", ascii "f"] := by
    decide +kernel
  refine ⟨Volume.mounted_system .deep [] _ _, by decide +kernel, by decide +kernel,
    by decide +kernel, fun n => ?_, fun h => ?_⟩
  · exact cut_deep.never_ends (x := ascii "f") hstat ho (by decide) (by decide) n _
  · have hhid := (harmless_of_walksOnce h).directory _ _ cut_deep hstat _ ho (ascii "f") (by decide)
    exact absurd hhid (by decide)

end CS214.Spell
