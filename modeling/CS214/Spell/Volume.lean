import CS214.Spell.Directory

/-!
# Spell — a directory tree and the paths into it

A `Volume` is a finite directory tree without links; an address is the list of the names from its
top on.  `resolve cwd path` is the address that a path means to a process in the directory at `cwd`.
`Mounted fs T cwd`: a process there sees `T`; the calls may fail, but what they answer is so.

* `resolve_push`: the name behind the last `/` of a path is looked up where the rest leads.
* `resolve_entry`: an entry of a directory is one level below it.
* `mounted_system`: the system in which no call fails.
-/

open CString

namespace CS214.Spell

/-- A finite directory tree: everything in it, by its address. -/
structure Volume where
  items : List (List Bytes × FileType)
  distinct : (items.map Prod.fst).Nodup
  top : ([], .directory) ∈ items
  parents : ∀ c ∈ items, c.1 ≠ [] → (c.1.dropLast, .directory) ∈ items
  names : ∀ c ∈ items, ∀ name ∈ c.1, name ∉ [[], ascii ".", ascii ".."] ∧ 47 ∉ name ∧ 0 ∉ name

namespace Volume

variable {T : Volume} {cwd a b : List Bytes} {path name : Bytes}

/-- What is at an address. -/
def node (T : Volume) (a : List Bytes) : Option FileType :=
  (T.items.find? fun c => c.1 = a).map Prod.snd

/-- One component of a path, looked up in the directory at `a`. -/
def step (T : Volume) (a : List Bytes) (name : Bytes) : Option (List Bytes) :=
  if T.node a ≠ some .directory then none
  else if name = [] ∨ name = ascii "." then some a
  else if name = ascii ".." then some a.dropLast
  else if T.node (a ++ [name]) = none then none
  else some (a ++ [name])

/-- The address a path leads to; the empty path leads nowhere. -/
def resolve (T : Volume) (cwd : List Bytes) (path : Bytes) : Option (List Bytes) :=
  if path = [] then none
  else (path.splitOn 47).foldlM T.step (if path.head? = some 47 then [] else cwd)

theorem node_ne_none : T.node a ≠ none ↔ a ∈ T.items.map Prod.fst := by
  rw [node, ne_eq, Option.map_eq_none_iff, List.find?_eq_none, List.mem_map]
  simp

/-- A finite tree is not deeper than some bound. -/
theorem exists_depth (T : Volume) : ∃ H, ∀ a, T.node a ≠ none → a.length ≤ H := by
  refine ⟨(((T.items.map Prod.fst).map List.length).max?).getD 0, fun a ha => ?_⟩
  exact List.le_max?_getD_of_mem (List.mem_map_of_mem (node_ne_none.mp ha))

/-! ### Paths -/

theorem ne_nil_of_resolve (h : T.resolve cwd path = some a) : path ≠ [] := by
  rintro rfl
  cases h

theorem resolve_push (hne : path ≠ []) (hname : 47 ∉ name) :
    T.resolve cwd (path ++ ascii "/" ++ name) =
      (T.resolve cwd path).bind fun a => T.step a name := by
  have hslash : path ++ ascii "/" ++ name = path ++ 47 :: name := by
    have hascii : ascii "/" = [47] := by decide
    rw [hascii, List.append_assoc, List.singleton_append]
  have hhead : (path ++ 47 :: name).head? = path.head? := List.head?_append_of_ne_nil _ hne
  have hsplit : (path ++ 47 :: name).splitOn 47 = path.splitOn 47 ++ [name] := by
    rw [List.splitOn_append_cons_self, List.splitOn_eq_singleton hname]
  rw [hslash, resolve, resolve, if_neg (by simp), if_neg hne, hhead, hsplit, List.foldlM_append]
  refine congrArg _ (funext fun a => ?_)
  rw [List.foldlM_cons]
  cases T.step a name <;> rfl

/-- What is not hidden is not one of the two names every directory has. -/
theorem ordinary_of_shown (h : hidden name = false) :
    name ≠ ascii "." ∧ name ≠ ascii ".." := by
  constructor
  · rintro rfl
    cases h
  · rintro rfl
    cases h

/-- An entry of a directory is one level below it. -/
theorem resolve_entry (h : T.resolve cwd path = some a) (hne : name ≠ []) (hslash : 47 ∉ name)
    (hshown : hidden name = false) (h' : T.resolve cwd (path ++ ascii "/" ++ name) = some b) :
    b = a ++ [name] := by
  obtain ⟨hdot, hdots⟩ := ordinary_of_shown hshown
  rw [resolve_push (ne_nil_of_resolve h) hslash, h, Option.bind_some, step] at h'
  simp only [hne, hdot, hdots, or_self, if_false] at h'
  split at h'
  · cases h'
  · split at h'
    · cases h'
    · exact (Option.some.inj h').symm

/-- A directory, with a `/` behind its path. -/
theorem resolve_slash (h : T.resolve cwd path = some a)
    (h' : T.resolve cwd (path ++ ascii "/") = some b) :
    b = a ∧ T.node a = some .directory := by
  have hpush : T.resolve cwd (path ++ ascii "/" ++ []) =
      (T.resolve cwd path).bind fun a => T.step a [] :=
    resolve_push (ne_nil_of_resolve h) List.not_mem_nil
  rw [List.append_nil, h, h', Option.bind_some, step] at hpush
  by_cases hdir : T.node a = some .directory
  · rw [if_neg (not_not.mpr hdir), if_pos (.inl rfl)] at hpush
    exact ⟨Option.some.inj hpush, hdir⟩
  · rw [if_pos hdir] at hpush
    cases hpush

/-! ### What a process sees of it -/

/-- What a process with the current directory `cwd` is told is so.  A call may fail on anything. -/
structure Mounted (fs : FileSystem) (T : Volume) (cwd : List Bytes) : Prop where
  stat : ∀ path t, fs.stat path = some t →
    ∃ a, T.resolve cwd path = some a ∧ T.node a = some t
  opendir : ∀ path names, fs.opendir path = some names →
    ∃ a, T.resolve cwd path = some a ∧ T.node a = some .directory ∧
      ∀ name, name ∈ names ↔
        name = ascii "." ∨ name = ascii ".." ∨ T.node (a ++ [name]) ≠ none

/-- The names in the directory at `a`. -/
def children (T : Volume) (a : List Bytes) : List Bytes :=
  (T.items.map Prod.fst).filterMap fun c => if c.dropLast = a then c.getLast? else none

theorem mem_children : name ∈ T.children a ↔ T.node (a ++ [name]) ≠ none := by
  rw [node_ne_none, children, List.mem_filterMap]
  constructor
  · rintro ⟨c, hc, h⟩
    split at h
    · next hdrop =>
        rw [← hdrop, List.dropLast_append_getLast? name h]
        exact hc
    · cases h
  · intro h
    exact ⟨a ++ [name], h, by simp⟩

theorem nodup_children (T : Volume) (a : List Bytes) : (T.children a).Nodup := by
  refine T.distinct.filterMap fun c c' name h h' => ?_
  rw [Option.mem_def] at h h'
  split at h
  · next hc =>
      split at h'
      · next hc' =>
          rw [← List.dropLast_append_getLast? name h, hc, ← hc',
            List.dropLast_append_getLast? name h']
      · cases h'
  · cases h

theorem name_of_child (h : name ∈ T.children a) :
    name ∉ [[], ascii ".", ascii ".."] ∧ 47 ∉ name ∧ 0 ∉ name := by
  have hmem := node_ne_none.mp (mem_children.mp h)
  obtain ⟨c, hc, hname⟩ := List.mem_map.mp hmem
  exact T.names c hc name (by rw [hname]; exact List.mem_append_right _ List.mem_cons_self)

/-- Every call that can succeed does; `files` are the contents of the files. -/
def system (T : Volume) (cwd : List Bytes) (files : Bytes → Except Bytes (Pieces UInt8))
    (whole : ∀ path file, files path = .ok file → Pieces.Whole file) : FileSystem where
  stat path := (T.resolve cwd path).bind T.node
  opendir path := (T.resolve cwd path).bind fun a =>
    if T.node a = some .directory then some (ascii "." :: ascii ".." :: T.children a) else none
  openFile := files
  names path ns h := by
    obtain ⟨a, -, h⟩ := Option.bind_eq_some_iff.mp h
    split at h
    · obtain rfl := Option.some.inj h
      have hno : ∀ name ∈ T.children a, name ≠ ascii "." ∧ name ≠ ascii ".." := by
        intro name hname
        have hnames := (name_of_child hname).1
        simp only [List.mem_cons, List.not_mem_nil, or_false, not_or] at hnames
        exact hnames.2
      refine ⟨?_, ?_⟩
      · refine List.nodup_cons.mpr ⟨?_, List.nodup_cons.mpr ⟨?_, T.nodup_children a⟩⟩
        · rw [List.mem_cons, not_or]
          exact ⟨by decide, fun hmem => (hno _ hmem).1 rfl⟩
        · exact fun hmem => (hno _ hmem).2 rfl
      · intro name hname
        rcases List.mem_cons.mp hname with rfl | hname
        · decide
        · rcases List.mem_cons.mp hname with rfl | hname
          · decide
          · obtain ⟨hnil, hslash, hnul⟩ := name_of_child hname
            exact ⟨fun e => hnil (e ▸ List.mem_cons_self), hslash, hnul⟩
    · cases h
  reads := whole

/-- **The system sees its tree.** -/
theorem mounted_system (T : Volume) (cwd : List Bytes)
    (files : Bytes → Except Bytes (Pieces UInt8))
    (whole : ∀ path file, files path = .ok file → Pieces.Whole file) :
    Mounted (T.system cwd files whole) T cwd where
  stat _ _ h := Option.bind_eq_some_iff.mp h
  opendir path names h := by
    obtain ⟨a, ha, h⟩ := Option.bind_eq_some_iff.mp h
    split at h
    · next hdir =>
        obtain rfl := Option.some.inj h
        refine ⟨a, ha, hdir, fun name => ?_⟩
        rw [List.mem_cons, List.mem_cons, mem_children]
    · cases h

end Volume

end CS214.Spell
