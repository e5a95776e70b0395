import CS214.Lib.Traversal
import CS214.Spell.Checker

/-!
# Spell — walking through directories

`FileSystem` is what the program asks of the system: `stat`, `opendir` with `readdir`, `open` with
`read`.  `process_directory` calls itself on the directories it meets; the recursion is given a
bound, which is enough when no path is longer than the buffer it is built in.

* `processDirectory_walk`: as long as no call is too deep, the walk is a loop over the entries in
  preorder, whatever gives their paths; `processDirectory_eq` is the case of uncut paths.
* `process_directory_checks`: it calls `check_file` once for every regular file with the suffix
  that no hidden name leads to, and for nothing else.
-/

open CString

namespace CS214.Spell

/-- What `stat` says of a path. -/
inductive FileType where
  | directory
  | regular
  | other
deriving DecidableEq

/-- The answers of the system.  A directory lists every name once, no name holds a `/` or a NUL,
and a file that is read delivers something until it ends. -/
structure FileSystem where
  stat : Bytes → Option FileType
  opendir : Bytes → Option (List Bytes)
  openFile : Bytes → Except Bytes (Pieces UInt8)
  names : ∀ p ns, opendir p = some ns → ns.Nodup ∧ ∀ name ∈ ns, name ≠ [] ∧ 47 ∉ name ∧ 0 ∉ name
  reads : ∀ p file, openFile p = .ok file → Pieces.Whole file

/-- What was printed, `error_found`, and the calls of `check_file`: a history variable. -/
structure Session where
  stdout : Bytes
  stderr : Bytes
  errorFound : Bool
  checked : List (Bytes × Bool)

/-- `fprintf(stderr, ...); error_found = 1;` -/
def Session.fail (st : Session) (text : Bytes) : Session :=
  { st with stderr := st.stderr ++ text, errorFound := true }

/-- How deep `process_directory` may call itself. -/
def recursionBound : ℕ := 1024

/-- `sizeof(path)`. -/
def pathSize : ℕ := 1024

/-- `ends_with`. -/
def endsWith (str suffix : Bytes) : Bool :=
  if suffix.length > str.length then false
  else str.drop (str.length - suffix.length) == suffix

/-- `d_name[0] == '.'`. -/
def hidden (name : Bytes) : Bool := name.headD 0 == 46

section

variable (fs : FileSystem) (d : Dict) (suffix : Bytes)

/-- A call of `check_file`. -/
def Session.checkFile (st : Session) (filename : Bytes) (printFilename : Bool) : Session :=
  let r := Spell.checkFile d filename printFilename st.errorFound (fs.openFile filename)
  { stdout := st.stdout ++ r.stdout
    stderr := st.stderr ++ r.stderr
    errorFound := r.errorFound
    checked := st.checked ++ [(filename, printFilename)] }

/-- `process_directory`, for directories that are nested at most so deep. -/
def processDirectory : ℕ → Bytes → Session → Option Session
  | 0, _, _ => none
  | n + 1, dirname, st =>
    match fs.opendir dirname with
    | none => some (st.fail (ascii "Error: could not open directory " ++ dirname ++ ascii "\n"))
    | some names =>
      names.foldlM (fun st name =>
        if hidden name then some st
        else
          let path := (dirname ++ ascii "/" ++ name).take (pathSize - 1)
          match fs.stat path with
          | none => some st
          | some .directory => processDirectory n path st
          | some .regular => some (if endsWith name suffix then st.checkFile fs d path true else st)
          | some .other => some st) st

end

variable {fs : FileSystem} {d : Dict} {suffix root : Bytes} {c comps : List Bytes} {n : ℕ}

theorem endsWith_iff {str suffix : Bytes} : endsWith str suffix = true ↔ suffix <:+ str := by
  rw [endsWith]
  split
  · next h =>
      refine iff_of_false Bool.false_ne_true fun hs => ?_
      have := hs.length_le
      omega
  · rw [beq_iff_eq, List.suffix_iff_eq_drop, eq_comm]

/-! ### The tree below a directory -/

/-- The path that the names `comps` make below `root`. -/
def pathOf (root : Bytes) (comps : List Bytes) : Bytes := root ++ comps.flatMap (47 :: ·)

theorem pathOf_nil (root : Bytes) : pathOf root [] = root := by simp [pathOf]

theorem pathOf_push (root : Bytes) (comps : List Bytes) (name : Bytes) :
    pathOf root (comps ++ [name]) = pathOf root comps ++ ascii "/" ++ name := by
  have hslash : ascii "/" = [47] := by decide
  simp [pathOf, hslash]

theorem length_le_pathOf (root : Bytes) (comps : List Bytes) :
    comps.length ≤ (pathOf root comps).length := by
  rw [pathOf, List.length_append]
  induction comps with
  | nil => exact Nat.zero_le _
  | cons c comps ih =>
      rw [List.flatMap_cons, List.length_append, List.length_cons, List.length_cons]
      omega

/-- Names without a `/` can be read off their path. -/
theorem flatMap_slash_inj {comps comps' : List Bytes} (h : ∀ c ∈ comps, (47 : UInt8) ∉ c)
    (h' : ∀ c ∈ comps', (47 : UInt8) ∉ c)
    (heq : comps.flatMap (47 :: ·) = comps'.flatMap (47 :: ·)) : comps = comps' := by
  have htake : ∀ {x : Bytes} (rest : List Bytes), (47 : UInt8) ∉ x →
      (x ++ rest.flatMap (47 :: ·)).takeWhile (· ≠ 47) = x := fun {x} rest hx => by
    have hx' : ∀ b ∈ x, decide (b ≠ 47) = true := fun b hb => by
      simpa using fun e : b = 47 => hx (e ▸ hb)
    rw [List.takeWhile_append_of_pos hx']
    cases rest <;> simp
  induction comps generalizing comps' with
  | nil =>
      cases comps' with
      | nil => rfl
      | cons c' comps' => cases heq
  | cons c comps ih =>
      cases comps' with
      | nil => cases heq
      | cons c' comps' =>
          rw [List.flatMap_cons, List.flatMap_cons, List.cons_append, List.cons_append] at heq
          have heq := (List.cons.inj heq).2
          have hc : c = c' := by
            rw [← htake comps (h c List.mem_cons_self), heq,
              htake comps' (h' c' List.mem_cons_self)]
          subst hc
          rw [ih (fun x hx => h x (List.mem_cons_of_mem _ hx))
            (fun x hx => h' x (List.mem_cons_of_mem _ hx)) (List.append_cancel_left heq)]

/-- The names in the directory that `comps` lead to. -/
def FileSystem.listing (fs : FileSystem) (root : Bytes) (comps : List Bytes) : List Bytes :=
  if comps = [] ∨ fs.stat (pathOf root comps) = some .directory then
    (fs.opendir (pathOf root comps)).getD []
  else []

/-- `comps` leads from `root` to an entry below it. -/
def FileSystem.Entry (fs : FileSystem) (root : Bytes) (comps : List Bytes) : Prop :=
  Traversal.Below (fs.listing root) [] comps

/-- The names in a directory that are not hidden. -/
def FileSystem.visible (fs : FileSystem) (root : Bytes) (comps : List Bytes) : List Bytes :=
  (fs.listing root comps).filter fun name => !hidden name

/-- The entries the traversal meets: no component below the root starts with `.`. -/
def FileSystem.Visible (fs : FileSystem) (root : Bytes) (comps : List Bytes) : Prop :=
  Traversal.Below (fs.visible root) [] comps

theorem visible_iff :
    fs.Visible root comps ↔ fs.Entry root comps ∧ ∀ name ∈ comps, hidden name = false := by
  rw [FileSystem.Visible, FileSystem.Entry]
  refine Traversal.Below.filter_iff.trans (and_congr_right fun _ => ?_)
  simp

theorem FileSystem.listing_mem {name : Bytes} (h : name ∈ fs.listing root comps) :
    name ≠ [] ∧ 47 ∉ name ∧ 0 ∉ name := by
  rw [FileSystem.listing] at h
  split at h
  · cases ho : fs.opendir (pathOf root comps) with
    | none =>
        rw [ho] at h
        cases h
    | some ns =>
        rw [ho] at h
        exact (fs.names _ _ ho).2 name h
  · cases h

/-- No component of a path has a `/`. -/
theorem FileSystem.Entry.no_slash (h : fs.Entry root comps) :
    ∀ name ∈ comps, (47 : UInt8) ∉ name := by
  rw [FileSystem.Entry] at h
  induction h with
  | refl => exact fun name hname => absurd hname List.not_mem_nil
  | step _ hx ih =>
      intro name hname
      rcases List.mem_append.mp hname with hname | hname
      · exact ih name hname
      · rw [List.mem_singleton.mp hname]
        exact (FileSystem.listing_mem hx).2.1

/-! ### The walk as a loop -/

/-- What opening a directory does to the session. -/
def Session.enter (fs : FileSystem) (dirname : Bytes) (st : Session) : Session :=
  if fs.opendir dirname = none then
    st.fail (ascii "Error: could not open directory " ++ dirname ++ ascii "\n")
  else st

/-- What the walk does with an entry. -/
def Session.visit (fs : FileSystem) (d : Dict) (suffix root : Bytes) (st : Session)
    (comps : List Bytes) : Session :=
  let path := pathOf root comps
  match fs.stat path with
  | some .directory => st.enter fs path
  | some .regular => if endsWith (comps.getLastD []) suffix then st.checkFile fs d path true else st
  | _ => st

/-- No path of a visible entry is longer than the buffer. -/
def FileSystem.Short (fs : FileSystem) (root : Bytes) : Prop :=
  ∀ comps, comps ≠ [] → fs.Visible root comps → (pathOf root comps).length ≤ pathSize - 1

theorem FileSystem.Short.depth (hs : fs.Short root) (hc : fs.Visible root c) :
    c.length < recursionBound := by
  rcases eq_or_ne c [] with rfl | hne
  · decide
  · have hlen := length_le_pathOf root c
    have hshort := hs c hne hc
    simp only [pathSize, recursionBound] at hshort ⊢
    omega

theorem foldlM_some {α σ : Type*} {f : σ → α → Option σ} {g : σ → α → σ} {l : List α}
    (h : ∀ x ∈ l, ∀ s, f s x = some (g s x)) (s : σ) : l.foldlM f s = some (l.foldl g s) := by
  induction l generalizing s with
  | nil => rfl
  | cons x l ih =>
      rw [List.foldlM_cons, h x List.mem_cons_self, List.foldl_cons]
      exact ih (fun y hy => h y (List.mem_cons_of_mem _ hy)) (g s x)

/-- The names that are not hidden in the directory that `comps` leads to; `path` gives its path. -/
def FileSystem.shown (fs : FileSystem) (path : List Bytes → Bytes) (comps : List Bytes) :
    List Bytes :=
  (if comps = [] ∨ fs.stat (path comps) = some .directory then
    (fs.opendir (path comps)).getD []
  else []).filter fun name => !hidden name

/-- What the walk does with the entry that `comps` leads to; `path` gives its path. -/
def Session.meet (fs : FileSystem) (d : Dict) (suffix : Bytes) (path : List Bytes → Bytes)
    (st : Session) (comps : List Bytes) : Session :=
  match fs.stat (path comps) with
  | some .directory => st.enter fs (path comps)
  | some .regular =>
    if endsWith (comps.getLastD []) suffix then st.checkFile fs d (path comps) true else st
  | _ => st

/-- `process_directory` is called for the names `comps`. -/
def FileSystem.Called (fs : FileSystem) (path : List Bytes → Bytes) (comps : List Bytes) : Prop :=
  Traversal.Below (fs.shown path) [] comps ∧
    (comps = [] ∨ fs.stat (path comps) = some .directory)

section

variable {path : List Bytes → Bytes}

/-- `path` gives the paths that the calls make. -/
def FileSystem.Follows (fs : FileSystem) (path : List Bytes → Bytes) : Prop :=
  ∀ comps name, Traversal.Below (fs.shown path) [] (comps ++ [name]) →
    path (comps ++ [name]) = (path comps ++ ascii "/" ++ name).take (pathSize - 1)

theorem FileSystem.shown_eq {names : List Bytes} (h : fs.Called path c)
    (ho : fs.opendir (path c) = some names) :
    fs.shown path c = names.filter fun name => !hidden name := by
  rw [shown, if_pos h.2, ho, Option.getD_some]

theorem FileSystem.shown_nil_of_opendir (ho : fs.opendir (path c) = none) :
    fs.shown path c = [] := by
  simp [shown, ho]

theorem FileSystem.shown_nil_of_stat (hne : c ≠ []) (hs : fs.stat (path c) ≠ some .directory) :
    fs.shown path c = [] := by
  simp [shown, hne, hs]

theorem FileSystem.mem_shown {name : Bytes} :
    name ∈ fs.shown path c ↔ (c = [] ∨ fs.stat (path c) = some .directory) ∧
      (∃ names, fs.opendir (path c) = some names ∧ name ∈ names) ∧ hidden name = false := by
  rw [shown, List.mem_filter]
  by_cases hdir : c = [] ∨ fs.stat (path c) = some .directory
  · rw [if_pos hdir]
    cases ho : fs.opendir (path c) with
    | none => simp
    | some names => simp [hdir]
  · rw [if_neg hdir]
    simp [hdir]

theorem FileSystem.nodup_shown (fs : FileSystem) (path : List Bytes → Bytes) (c : List Bytes) :
    (fs.shown path c).Nodup := by
  refine List.Nodup.filter _ ?_
  split
  · cases ho : fs.opendir (path c) with
    | none => exact List.nodup_nil
    | some ns => exact (fs.names _ _ ho).1
  · exact List.nodup_nil

theorem FileSystem.nodup_visible (fs : FileSystem) (root : Bytes) (comps : List Bytes) :
    (fs.visible root comps).Nodup :=
  fs.nodup_shown (pathOf root) comps

/-- When no call is as deep as the bound, `process_directory` opens the directory and then meets
the entries below it in preorder. -/
theorem processDirectory_walk (hf : fs.Follows path) {N : ℕ}
    (hdepth : ∀ b, fs.Called path b → b.length < N) (hc : fs.Called path c)
    (hn : N ≤ n + c.length) (st : Session) :
    processDirectory fs d suffix n (path c) st =
      some ((Traversal.preorder (fs.shown path) (n + 1) c).tail.foldl
        (Session.meet fs d suffix path) (st.enter fs (path c))) := by
  induction n generalizing c st with
  | zero =>
      have := hdepth c hc
      omega
  | succ n ih =>
      rw [processDirectory, Traversal.preorder, List.tail_cons]
      cases ho : fs.opendir (path c) with
      | none =>
          rw [FileSystem.shown_nil_of_opendir ho, List.flatMap_nil, List.foldl_nil, Session.enter,
            if_pos ho]
      | some names =>
          rw [Session.enter, if_neg (by simp [ho]), FileSystem.shown_eq hc ho, List.foldl_flatMap,
            List.foldl_filter]
          refine foldlM_some (fun name hname st => ?_) st
          cases hh : hidden name with
          | true => simp
          | false =>
              have hbelow : Traversal.Below (fs.shown path) [] (c ++ [name]) :=
                .step hc.1 (FileSystem.mem_shown.mpr ⟨hc.2, ⟨names, ho, hname⟩, hh⟩)
              have hleaf : fs.stat (path (c ++ [name])) ≠ some .directory →
                  Traversal.preorder (fs.shown path) (n + 1) (c ++ [name]) = [c ++ [name]] :=
                fun hne => Traversal.preorder_leaf (Nat.succ_pos n)
                  (FileSystem.shown_nil_of_stat (by simp) hne)
              simp only [← hf c name hbelow, Bool.not_false, if_true, Bool.false_eq_true, if_false]
              cases hstat : fs.stat (path (c ++ [name])) with
              | none => simp [hleaf (by simp [hstat]), Session.meet, hstat]
              | some t =>
                  cases t with
                  | directory =>
                      rw [Traversal.preorder_head (Nat.succ_pos n), List.foldl_cons, Session.meet,
                        hstat]
                      exact ih ⟨hbelow, .inr hstat⟩
                        (by rw [List.length_append, List.length_singleton]; omega) st
                  | regular => simp [hleaf (by simp [hstat]), Session.meet, hstat]
                  | other => simp [hleaf (by simp [hstat]), Session.meet, hstat]

end

theorem FileSystem.Short.follows (hs : fs.Short root) : fs.Follows (pathOf root) := by
  intro comps name h
  rw [← pathOf_push, List.take_of_length_le (hs _ (by simp) h)]

/-- `process_directory` opens the directory and then visits the entries below it in preorder. -/
theorem processDirectory_eq (hs : fs.Short root) (hc : fs.Visible root c)
    (hdir : c = [] ∨ fs.stat (pathOf root c) = some .directory) (hn : recursionBound ≤ n + c.length)
    (st : Session) :
    processDirectory fs d suffix n (pathOf root c) st =
      some ((Traversal.preorder (fs.visible root) n c).tail.foldl
        (Session.visit fs d suffix root) (st.enter fs (pathOf root c))) := by
  have hbelow : ∀ b, Traversal.Below (fs.visible root) c b → b.length < recursionBound :=
    fun _ hb => hs.depth (hc.trans hb)
  rw [← Traversal.preorder_stable hbelow hn]
  exact processDirectory_walk hs.follows (fun _ hb => hs.depth hb.1) ⟨hc, hdir⟩ hn st

/-! ### The entries that are met -/

/-- The entries below `root` in the order of the walk. -/
def FileSystem.met (fs : FileSystem) (root : Bytes) : List (List Bytes) :=
  (Traversal.preorder (fs.visible root) recursionBound []).tail

theorem FileSystem.met_spec (fs : FileSystem) (root : Bytes) :
    Traversal.preorder (fs.visible root) recursionBound [] = [] :: fs.met root :=
  Traversal.preorder_head (by decide)

theorem mem_met (hs : fs.Short root) : c ∈ fs.met root ↔ c ≠ [] ∧ fs.Visible root c :=
  Traversal.mem_tail_preorder (fun _ hb => hs.depth hb) (Nat.le_add_right _ _)

theorem FileSystem.nodup_met (fs : FileSystem) (root : Bytes) : (fs.met root).Nodup := by
  have hnodup := Traversal.nodup_preorder (n := recursionBound) (a := []) (fs.nodup_visible root)
  rw [fs.met_spec root] at hnodup
  exact (List.nodup_cons.mp hnodup).2

/-- The walk from `root`. -/
theorem processDirectory_root (hs : fs.Short root) (st : Session) :
    processDirectory fs d suffix recursionBound root st =
      some ((fs.met root).foldl (Session.visit fs d suffix root) (st.enter fs root)) := by
  rw [← pathOf_nil root, processDirectory_eq hs .refl (.inl rfl) (Nat.le_add_right _ _), pathOf_nil]
  rfl

/-! ### The calls of `check_file` -/

/-- A regular file whose name ends with the suffix. -/
def FileSystem.Selected (fs : FileSystem) (suffix root : Bytes) (comps : List Bytes) : Prop :=
  fs.stat (pathOf root comps) = some .regular ∧ suffix <:+ comps.getLastD []

instance (comps : List Bytes) : Decidable (fs.Selected suffix root comps) :=
  inferInstanceAs (Decidable (_ ∧ _))

/-- A regular file whose name ends with the suffix; `path` gives its path. -/
def FileSystem.Chosen (fs : FileSystem) (path : List Bytes → Bytes) (suffix : Bytes)
    (comps : List Bytes) : Prop :=
  fs.stat (path comps) = some .regular ∧ suffix <:+ comps.getLastD []

instance (path : List Bytes → Bytes) (comps : List Bytes) :
    Decidable (fs.Chosen path suffix comps) :=
  inferInstanceAs (Decidable (_ ∧ _))

theorem Session.meet_checked (path : List Bytes → Bytes) (st : Session) (comps : List Bytes) :
    (st.meet fs d suffix path comps).checked =
      st.checked ++ if fs.Chosen path suffix comps then [(path comps, true)] else [] := by
  rw [meet]
  cases hstat : fs.stat (path comps) with
  | none => simp [FileSystem.Chosen, hstat]
  | some t =>
      cases t with
      | directory =>
          simp only [enter, FileSystem.Chosen, hstat]
          split <;> simp [fail]
      | regular =>
          simp only [FileSystem.Chosen, hstat, true_and, endsWith_iff]
          split
          · rfl
          · rw [List.append_nil]
      | other => simp [FileSystem.Chosen, hstat]

/-- The calls of `check_file` that meeting the entries of a list makes. -/
theorem Session.foldl_meet_checked (path : List Bytes → Bytes) (st : Session)
    (l : List (List Bytes)) :
    (l.foldl (meet fs d suffix path) st).checked = st.checked ++
      (l.filter fun comps => fs.Chosen path suffix comps).map fun comps => (path comps, true) := by
  induction l generalizing st with
  | nil => simp
  | cons comps l ih =>
      rw [List.foldl_cons, ih, meet_checked, List.append_assoc]
      by_cases h : fs.Chosen path suffix comps <;> simp [h]

theorem Session.foldl_visit_checked (st : Session) (l : List (List Bytes)) :
    (l.foldl (visit fs d suffix root) st).checked = st.checked ++
      (l.filter fun comps => fs.Selected suffix root comps).map fun comps =>
        (pathOf root comps, true) :=
  foldl_meet_checked (pathOf root) st l

/-- **Directory traversal.**  When no path is longer than the buffer, `process_directory` returns,
and calls `check_file`, with the file name printed, once for every regular file below the directory
whose name ends with the suffix and to which no name leads that starts with `.`, and for no other
path; whatever the order in which `readdir` lists the names. -/
theorem process_directory_checks (fs : FileSystem) (d : Dict) (suffix root : Bytes)
    (hs : fs.Short root) (st : Session) :
    ∃ st' calls, processDirectory fs d suffix recursionBound root st = some st' ∧
      st'.checked = st.checked ++ calls ∧ calls.Nodup ∧
      ∀ path printFilename, (path, printFilename) ∈ calls ↔
        printFilename = true ∧ ∃ comps name, fs.Entry root (comps ++ [name]) ∧
          (∀ x ∈ comps ++ [name], hidden x = false) ∧ path = pathOf root (comps ++ [name]) ∧
          fs.stat path = some .regular ∧ suffix <:+ name := by
  have henter : (st.enter fs root).checked = st.checked := by
    rw [Session.enter]
    split <;> rfl
  refine ⟨_, _, processDirectory_root hs st,
    (Session.foldl_visit_checked _ _).trans (by rw [henter]), ?_, fun path printFilename => ?_⟩
  · -- entries without a slash in their names are told apart by their paths
    refine List.Nodup.map_on (fun c hc c' hc' heq => ?_) ((fs.nodup_met root).filter _)
    have hvis := (mem_met hs).mp (List.mem_filter.mp hc).1
    have hvis' := (mem_met hs).mp (List.mem_filter.mp hc').1
    exact flatMap_slash_inj (visible_iff.mp hvis.2).1.no_slash (visible_iff.mp hvis'.2).1.no_slash
      (List.append_cancel_left (Prod.mk.inj heq).1)
  · simp only [List.mem_map, List.mem_filter, mem_met hs, visible_iff, decide_eq_true_eq]
    constructor
    · rintro ⟨c, ⟨⟨hne, hentry, hhid⟩, hstat, hsuf⟩, heq⟩
      obtain ⟨rfl, rfl⟩ := Prod.mk.inj heq
      obtain ⟨comps, name, rfl⟩ := List.eq_nil_or_concat c |>.resolve_left hne
      rw [List.concat_eq_append] at *
      rw [List.getLastD_concat] at hsuf
      exact ⟨rfl, comps, name, hentry, hhid, rfl, hstat, hsuf⟩
    · rintro ⟨rfl, comps, name, hentry, hhid, rfl, hstat, hsuf⟩
      refine ⟨comps ++ [name], ⟨⟨by simp, hentry, hhid⟩, hstat, ?_⟩, rfl⟩
      rwa [List.getLastD_concat]

/-- A directory `t` with a hidden file, a file, a directory with a file, and an entry of which
`stat` says `link`; and a dictionary. -/
def FileSystem.sample (link : Option FileType) : FileSystem where
  stat p :=
    if p = ascii "t" ∨ p = ascii "t/sub" then some .directory
    else if p = ascii "t/a.txt" ∨ p = ascii "t/sub/b.txt" ∨ p = ascii "t/.h.txt" then some .regular
    else if p = ascii "t/link" then link
    else none
  opendir p :=
    if p = ascii "t" then
      some [ascii ".", ascii "..", ascii "sub", ascii ".h.txt", ascii "link", ascii "a.txt"]
    else if p = ascii "t/sub" then some [ascii "b.txt", ascii ".", ascii ".."]
    else none
  openFile p :=
    if p = ascii "dict" ∨ p = ascii "t/a.txt" ∨ p = ascii "t/sub/b.txt" then .ok [ascii "file\n"]
    else .error (ascii "No such file or directory")
  names p ns h := by
    split at h
    · obtain rfl := Option.some.inj h
      decide
    · split at h
      · obtain rfl := Option.some.inj h
        decide
      · cases h
  reads p file h := by
    split at h
    · cases h
      unfold Pieces.Whole
      decide
    · cases h

theorem short_sample (link : Option FileType) (hlink : link ≠ some .directory) :
    (FileSystem.sample link).Short (ascii "t") := by
  have hlen : ∀ comps ∈ [[], [ascii "sub"], [ascii "link"], [ascii "a.txt"],
      [ascii "sub", ascii "b.txt"]], (pathOf (ascii "t") comps).length ≤ pathSize - 1 := by
    decide +kernel
  intro comps _ hv
  have hmem : comps ∈ [[], [ascii "sub"], [ascii "link"], [ascii "a.txt"],
      [ascii "sub", ascii "b.txt"]] := by
    refine Traversal.Below.mem_closed ?_ (by decide) hv
    match link, hlink with
    | none, _ => decide +kernel
    | some .regular, _ => decide +kernel
    | some .other, _ => decide +kernel
  exact hlen comps hmem

theorem process_directory_checks_sample :
    ∃ st' calls, processDirectory (.sample (some .regular)) dictCreate (ascii ".txt") recursionBound
        (ascii "t") ⟨[], [], false, []⟩ = some st' ∧
      st'.checked = [] ++ calls ∧ calls.Nodup ∧ (ascii "t/sub/b.txt", true) ∈ calls := by
  obtain ⟨st', calls, h₁, h₂, h₃, h₄⟩ := process_directory_checks (.sample (some .regular))
    dictCreate (ascii ".txt") (ascii "t") (short_sample _ (by decide)) ⟨[], [], false, []⟩
  refine ⟨st', calls, h₁, h₂, h₃, (h₄ _ _).mpr
    ⟨rfl, [ascii "sub"], ascii "b.txt", ?_, by decide, by decide, by decide, by decide⟩⟩
  exact .step (b := [ascii "sub"]) (.step (b := []) .refl (by decide)) (by decide)

end CS214.Spell
