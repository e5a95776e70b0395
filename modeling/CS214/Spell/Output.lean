import CS214.Spell.ExitStatus

/-!
# Spell — what the program prints

The functions of `spell.c` share one flag and write to two streams as they go.  A `Report` is what
one file, or one thing that could not be opened, contributes; `reports` lists them for a command
line.

* `main_reports`: what the program prints and returns is what the reports say, one after the other;
  nothing that was read before a file changes what is said of it.
* `main_listing_order`: the order in which `readdir` lists the names changes the order of the
  reports, and not the status.
* `main_reads`: how `read` cuts the files changes nothing, and neither does the text of a failure
  to open one, except for the dictionary.
* `main_dictionary`: neither does the order of the lines of the dictionary, nor a line that is
  repeated.

The last two need no bound on the paths: where the walk does not end, neither does the other one.
-/

open CString

namespace CS214.Spell

variable {fs fs' : FileSystem} {d d' : Dict} {suffix root : Bytes} {st st' : Session}

/-! ### Reports -/

/-- What a part of the work prints, and whether it makes the program fail. -/
structure Report where
  stdout : Bytes
  stderr : Bytes
  failed : Bool

/-- Something could not be done. -/
def Report.failure (text : Bytes) : Report := ⟨[], text, true⟩

/-- What the program leaves when these are its reports. -/
def Exited.of (rs : List Report) : Exited :=
  ⟨if rs.any Report.failed then exitFailure else exitSuccess, rs.flatMap Report.stdout,
    rs.flatMap Report.stderr⟩

section

variable (fs : FileSystem) (d : Dict) (suffix : Bytes)

/-- The diagnostics of a file, in file order. -/
def fileReport (path : Bytes) (printFilename : Bool) : Report :=
  match fs.openFile path with
  | .error _ => .failure (ascii "Error: could not open " ++ path ++ ascii "\n")
  | .ok file =>
    ⟨(TextField.fields isSpace file.flatten).flatMap (diagnosis d path printFilename), [],
      (TextField.fields isSpace file.flatten).any (misspelled d)⟩

/-- A directory is reported when it cannot be opened. -/
def openReports (dirname : Bytes) : List Report :=
  if fs.opendir dirname = none then
    [.failure (ascii "Error: could not open directory " ++ dirname ++ ascii "\n")]
  else []

/-- The entry of a directory that `comps` leads to. -/
def entryReports (root : Bytes) (comps : List Bytes) : List Report :=
  match fs.stat (pathOf root comps) with
  | some .directory => openReports fs (pathOf root comps)
  | some .regular =>
    if suffix <:+ comps.getLastD [] then [fileReport fs d (pathOf root comps) true] else []
  | _ => []

/-- An argument of the command line: a file, or a directory with the entries below it. -/
def argumentReports (printFilename : Bool) (arg : Bytes) : List Report :=
  match fs.stat arg with
  | none => [.failure (ascii "Error: could not stat " ++ arg ++ ascii "\n")]
  | some .directory => openReports fs arg ++ (fs.met arg).flatMap (entryReports fs d suffix arg)
  | some _ => [fileReport fs d arg printFilename]

/-- The files and directories of the command line, or the standard input. -/
def reports (files : List Bytes) : List Report :=
  if files.isEmpty then [fileReport fs d (ascii "/dev/stdin") false]
  else files.flatMap (argumentReports fs d suffix (decide (files.length > 1)))

end

/-- The session is `st'` after these reports. -/
structure Session.Adds (st st' : Session) (rs : List Report) : Prop where
  stdout : st'.stdout = st.stdout ++ rs.flatMap Report.stdout
  stderr : st'.stderr = st.stderr ++ rs.flatMap Report.stderr
  errorFound : st'.errorFound = (st.errorFound || rs.any Report.failed)

namespace Session

theorem Adds.refl (st : Session) : Adds st st [] := ⟨by simp, by simp, by simp⟩

theorem Adds.trans {st₁ st₂ : Session} {rs rs' : List Report} (h : Adds st st₁ rs)
    (h' : Adds st₁ st₂ rs') : Adds st st₂ (rs ++ rs') where
  stdout := by rw [h'.stdout, h.stdout, List.flatMap_append, List.append_assoc]
  stderr := by rw [h'.stderr, h.stderr, List.flatMap_append, List.append_assoc]
  errorFound := by rw [h'.errorFound, h.errorFound, List.any_append, Bool.or_assoc]

theorem Adds.fail (st : Session) (text : Bytes) : Adds st (st.fail text) [.failure text] :=
  ⟨by simp [Session.fail, Report.failure], by simp [Session.fail, Report.failure],
    by simp [Session.fail, Report.failure]⟩

/-- A loop whose steps add reports. -/
theorem Adds.foldl {α : Type*} {f : Session → α → Session} {g : α → List Report}
    (h : ∀ st x, Adds st (f st x) (g x)) (l : List α) (st : Session) :
    Adds st (l.foldl f st) (l.flatMap g) := by
  induction l generalizing st with
  | nil => exact .refl st
  | cons x l ih =>
      rw [List.foldl_cons, List.flatMap_cons]
      exact (h st x).trans (ih (f st x))

theorem adds_checkFile (st : Session) (path : Bytes) (printFilename : Bool) :
    Adds st (st.checkFile fs d path printFilename) [fileReport fs d path printFilename] := by
  rw [checkFile, fileReport]
  cases ho : fs.openFile path with
  | error e => exact ⟨by simp [Report.failure, Spell.checkFile],
      by simp [Report.failure, Spell.checkFile], by simp [Report.failure, Spell.checkFile]⟩
  | ok file =>
      rw [checkFile_ok d path printFilename st.errorFound (fs.reads path file ho)]
      exact ⟨by simp, by simp, by simp⟩

theorem adds_enter (st : Session) (dirname : Bytes) :
    Adds st (st.enter fs dirname) (openReports fs dirname) := by
  rw [enter, openReports]
  split
  · exact .fail st _
  · exact .refl st

theorem adds_visit (st : Session) (comps : List Bytes) :
    Adds st (st.visit fs d suffix root comps) (entryReports fs d suffix root comps) := by
  rw [visit, entryReports]
  cases fs.stat (pathOf root comps) with
  | none => exact .refl st
  | some t =>
      cases t with
      | directory => exact adds_enter st _
      | regular =>
          simp only [← endsWith_iff]
          split
          · exact adds_checkFile st _ true
          · exact .refl st
      | other => exact .refl st

end Session

/-! ### What is printed -/

theorem checkArgument_adds {arg : Bytes} (hs : fs.stat arg = some .directory → fs.Short arg)
    (printFilename : Bool) (st : Session) :
    ∃ st', checkArgument fs d suffix printFilename st arg = some st' ∧
      st.Adds st' (argumentReports fs d suffix printFilename arg) := by
  rw [checkArgument, argumentReports]
  cases hstat : fs.stat arg with
  | none => exact ⟨_, rfl, .fail st _⟩
  | some t =>
      cases t with
      | directory =>
          exact ⟨_, processDirectory_root (hs hstat) st,
            (st.adds_enter arg).trans (.foldl Session.adds_visit _ _)⟩
      | regular => exact ⟨_, rfl, st.adds_checkFile arg printFilename⟩
      | other => exact ⟨_, rfl, st.adds_checkFile arg printFilename⟩

theorem foldlM_adds {files : List Bytes}
    (hs : ∀ arg ∈ files, fs.stat arg = some .directory → fs.Short arg) (printFilename : Bool)
    (st : Session) :
    ∃ st', files.foldlM (checkArgument fs d suffix printFilename) st = some st' ∧
      st.Adds st' (files.flatMap (argumentReports fs d suffix printFilename)) := by
  induction files generalizing st with
  | nil => exact ⟨st, rfl, .refl st⟩
  | cons arg files ih =>
      obtain ⟨st₁, h₁, hadds₁⟩ := checkArgument_adds (hs arg List.mem_cons_self) printFilename st
      obtain ⟨st₂, h₂, hadds₂⟩ := ih (fun a ha => hs a (List.mem_cons_of_mem _ ha)) st₁
      refine ⟨st₂, ?_, hadds₁.trans hadds₂⟩
      rw [List.foldlM_cons, h₁]
      exact h₂

theorem checkArguments_adds (d : Dict) (suffix : Bytes) {files : List Bytes}
    (hs : ∀ arg ∈ files, fs.stat arg = some .directory → fs.Short arg) :
    ∃ st, checkArguments fs d suffix files = some st ∧
      Session.Adds ⟨[], [], false, []⟩ st (reports fs d suffix files) := by
  cases files with
  | nil => exact ⟨_, rfl, Session.adds_checkFile _ _ _⟩
  | cons arg files => exact foldlM_adds hs _ _

/-- A dictionary that can be loaded leaves nothing on `stderr`. -/
theorem checkWith_loaded {dictionary text : Bytes} {files : List Bytes}
    (load : loadDictionary (fs.openFile dictionary) = ⟨0, some d, text⟩) :
    checkWith fs suffix (dictionary :: files) =
      (checkArguments fs d suffix files).map fun st =>
        ⟨if st.errorFound then exitFailure else exitSuccess, st.stdout, st.stderr⟩ := by
  have htext : text = [] := by
    cases ho : fs.openFile dictionary with
    | error e =>
        rw [ho, loadDictionary] at load
        cases load
    | ok file =>
        rw [ho, loadDictionary] at load
        cases load
        rfl
  rw [checkWith_eq load, htext]
  rfl

theorem main_loaded {args files : List Bytes} (hargs : Invokes fs args suffix d files)
    (argv₀ : Bytes) :
    main fs argv₀ args = (checkArguments fs d suffix files).map fun st =>
      ⟨if st.errorFound then exitFailure else exitSuccess, st.stdout, st.stderr⟩ := by
  cases hargs with
  | plain hno load => exact (if_neg hno).trans (checkWith_loaded load)
  | withSuffix load =>
      rw [main, if_pos rfl]
      exact checkWith_loaded load

theorem main_of_adds {args files : List Bytes} {rs : List Report}
    (hargs : Invokes fs args suffix d files) (hst : checkArguments fs d suffix files = some st)
    (hadds : Session.Adds ⟨[], [], false, []⟩ st rs) (argv₀ : Bytes) :
    main fs argv₀ args = some (.of rs) := by
  rw [main_loaded hargs, hst, Option.map_some, hadds.stdout, hadds.stderr, hadds.errorFound]
  rfl

/-- **What the program prints.**  With a dictionary that can be loaded, and directories without
paths too long, the program ends; its streams are those of the reports, in the order of the
arguments and, below a directory, of the walk; and it fails when one of the reports does. -/
theorem main_reports {args files : List Bytes} (hargs : Invokes fs args suffix d files)
    (hs : ∀ arg ∈ files, fs.stat arg = some .directory → fs.Short arg) (argv₀ : Bytes) :
    main fs argv₀ args = some (.of (reports fs d suffix files)) := by
  obtain ⟨st, hst, hadds⟩ := checkArguments_adds d suffix hs
  exact main_of_adds hargs hst hadds argv₀

theorem main_reports_sample :
    main (.sample (some .regular)) (ascii "spell") [ascii "dict", ascii "t"] =
      some (.of (reports (.sample (some .regular)) sampleDict (ascii ".txt") [ascii "t"])) :=
  main_reports (invokes_sample _) (by
    simp only [List.forall_mem_singleton]
    exact fun _ => short_sample _ (by decide)) (ascii "spell")

/-! ### The order of a directory -/

/-- The same files and directories, whose names come in another order. -/
structure FileSystem.Reordered (fs fs' : FileSystem) : Prop where
  stat : fs.stat = fs'.stat
  openFile : fs.openFile = fs'.openFile
  opendir : ∀ path, Option.Rel List.Perm (fs.opendir path) (fs'.opendir path)

namespace FileSystem.Reordered

theorem opendir_none (h : fs.Reordered fs') (path : Bytes) :
    fs.opendir path = none ↔ fs'.opendir path = none := by
  have hrel := h.opendir path
  revert hrel
  cases fs.opendir path <;> cases fs'.opendir path <;> simp

theorem visible (h : fs.Reordered fs') (root : Bytes) (comps : List Bytes) :
    (fs.visible root comps).Perm (fs'.visible root comps) := by
  refine List.Perm.filter _ ?_
  rw [listing, listing, h.stat]
  split
  · have hrel := h.opendir (pathOf root comps)
    revert hrel
    cases fs.opendir (pathOf root comps) <;> cases fs'.opendir (pathOf root comps) <;> simp
  · exact .nil

theorem met (h : fs.Reordered fs') (root : Bytes) : (fs.met root).Perm (fs'.met root) := by
  have hwalk := Traversal.preorder_perm (n := recursionBound) (a := []) (h.visible root)
  rw [fs.met_spec, fs'.met_spec] at hwalk
  exact hwalk.cons_inv

theorem short (h : fs.Reordered fs') (hs : fs.Short root) : fs'.Short root := by
  refine fun comps hne hv => hs comps hne ?_
  clear hne
  rw [FileSystem.Visible] at hv ⊢
  induction hv with
  | refl => exact .refl
  | step _ hx ih => exact .step ih ((h.visible root _).mem_iff.mpr hx)

theorem fileReport (h : fs.Reordered fs') : fileReport fs d = fileReport fs' d := by
  funext path printFilename
  rw [Spell.fileReport, Spell.fileReport, h.openFile]

theorem openReports (h : fs.Reordered fs') : openReports fs = openReports fs' := by
  funext dirname
  simp only [Spell.openReports, h.opendir_none]

theorem entryReports (h : fs.Reordered fs') :
    entryReports fs d suffix root = entryReports fs' d suffix root := by
  funext comps
  rw [Spell.entryReports, Spell.entryReports, h.stat, h.openReports, h.fileReport]

theorem argumentReports (h : fs.Reordered fs') (printFilename : Bool) (arg : Bytes) :
    (argumentReports fs d suffix printFilename arg).Perm
      (argumentReports fs' d suffix printFilename arg) := by
  rw [Spell.argumentReports, Spell.argumentReports, h.stat, h.openReports, h.fileReport,
    h.entryReports]
  split
  · exact .refl _
  · exact ((h.met arg).flatMap_right _).append_left _
  · exact .refl _

theorem reports (h : fs.Reordered fs') (d : Dict) (suffix : Bytes) (files : List Bytes) :
    (reports fs d suffix files).Perm (reports fs' d suffix files) := by
  rw [Spell.reports, Spell.reports, h.fileReport]
  split
  · exact .refl _
  · exact .flatMap_left files fun arg _ => h.argumentReports _ arg

theorem invokes {args files : List Bytes} (h : fs.Reordered fs')
    (hargs : Invokes fs args suffix d files) : Invokes fs' args suffix d files := by
  cases hargs with
  | plain hno load => exact .plain hno (h.openFile ▸ load)
  | withSuffix load => exact .withSuffix (h.openFile ▸ load)

end FileSystem.Reordered

/-- **The order of `readdir`** changes the order of the reports: each is printed as a whole, and the
status is the same. -/
theorem main_listing_order {args files : List Bytes} (h : fs.Reordered fs')
    (hargs : Invokes fs args suffix d files)
    (hs : ∀ arg ∈ files, fs.stat arg = some .directory → fs.Short arg) (argv₀ : Bytes) :
    ∃ r r', main fs argv₀ args = some r ∧ main fs' argv₀ args = some r' ∧
      r = .of (reports fs d suffix files) ∧ r' = .of (reports fs' d suffix files) ∧
      (reports fs d suffix files).Perm (reports fs' d suffix files) ∧ r.status = r'.status := by
  have hs' : ∀ arg ∈ files, fs'.stat arg = some .directory → fs'.Short arg := fun arg harg hdir =>
    h.short (hs arg harg (by rw [h.stat]; exact hdir))
  obtain ⟨st, hst, hadds⟩ := checkArguments_adds d suffix hs
  obtain ⟨st', hst', hadds'⟩ := checkArguments_adds d suffix hs'
  have hperm := h.reports d suffix files
  refine ⟨_, _, main_of_adds hargs hst hadds argv₀,
    main_of_adds (h.invokes hargs) hst' hadds' argv₀, rfl, rfl, hperm, ?_⟩
  rw [Exited.of, Exited.of, hperm.any_eq]

/-- The sample file system, whose directories list their names backwards. -/
def FileSystem.backwards (link : Option FileType) : FileSystem where
  stat := (FileSystem.sample link).stat
  opendir p := ((FileSystem.sample link).opendir p).map List.reverse
  openFile := (FileSystem.sample link).openFile
  names p ns h := by
    obtain ⟨ns', h', rfl⟩ := Option.map_eq_some_iff.mp h
    have hnames := (FileSystem.sample link).names p ns' h'
    exact ⟨List.nodup_reverse.mpr hnames.1, fun name hname => hnames.2 name (by simpa using hname)⟩
  reads := (FileSystem.sample link).reads

theorem reordered_sample (link : Option FileType) :
    (FileSystem.sample link).Reordered (.backwards link) where
  stat := rfl
  openFile := rfl
  opendir p := by
    simp only [FileSystem.backwards]
    cases (FileSystem.sample link).opendir p with
    | none => exact .none
    | some ns => exact .some (List.reverse_perm ns).symm

theorem main_listing_order_sample :
    ∃ r r', main (.sample (some .regular)) (ascii "spell") [ascii "dict", ascii "t"] = some r ∧
      main (.backwards (some .regular)) (ascii "spell") [ascii "dict", ascii "t"] = some r' ∧
      r.status = r'.status := by
  obtain ⟨r, r', h, h', -, -, -, hstatus⟩ := main_listing_order (reordered_sample _)
    (invokes_sample (some .regular)) (by
      simp only [List.forall_mem_singleton]
      exact fun _ => short_sample _ (by decide)) (ascii "spell")
  exact ⟨r, r', h, h', hstatus⟩

/-! ### What makes no difference -/

/-- Two systems, with a dictionary each, between which the checks see no difference. -/
structure Alike (fs fs' : FileSystem) (d d' : Dict) : Prop where
  stat : fs.stat = fs'.stat
  opendir : fs.opendir = fs'.opendir
  checkFile : ∀ path printFilename errorFound,
    checkFile d path printFilename errorFound (fs.openFile path) =
      checkFile d' path printFilename errorFound (fs'.openFile path)

namespace Alike

theorem session (h : Alike fs fs' d d') (st : Session) (path : Bytes) (printFilename : Bool) :
    st.checkFile fs d path printFilename = st.checkFile fs' d' path printFilename := by
  rw [Session.checkFile, Session.checkFile, h.checkFile]

/-- The walks are the same at every bound, also where they reach it. -/
theorem processDirectory (h : Alike fs fs' d d') (n : ℕ) (dirname : Bytes) (st : Session) :
    processDirectory fs d suffix n dirname st = processDirectory fs' d' suffix n dirname st := by
  induction n generalizing dirname st with
  | zero => rfl
  | succ n ih =>
      rw [Spell.processDirectory, Spell.processDirectory, h.opendir]
      simp only [h.stat, h.session, ih]

theorem checkArguments (h : Alike fs fs' d d') (files : List Bytes) :
    checkArguments fs d suffix files = checkArguments fs' d' suffix files := by
  have hargument : checkArgument fs d suffix = checkArgument fs' d' suffix := by
    funext printFilename st arg
    rw [checkArgument, checkArgument, h.stat]
    simp only [h.processDirectory, h.session]
  rw [Spell.checkArguments, Spell.checkArguments, hargument, h.session]

end Alike

/-- The files deliver the same, however the reads cut them. -/
structure FileSystem.SameContents (fs fs' : FileSystem) : Prop where
  stat : fs.stat = fs'.stat
  opendir : fs.opendir = fs'.opendir
  files : ∀ path, (fs.openFile path).map List.flatten = (fs'.openFile path).map List.flatten

namespace FileSystem.SameContents

/-- A file is opened in both systems, and then delivers the same bytes, or the error is the same. -/
theorem cases (h : fs.SameContents fs') (path : Bytes) :
    (∃ file file', fs.openFile path = .ok file ∧ fs'.openFile path = .ok file' ∧
      file.flatten = file'.flatten) ∨
    ∃ e, fs.openFile path = .error e ∧ fs'.openFile path = .error e := by
  have hfile := h.files path
  cases ho : fs.openFile path with
  | error e =>
      cases ho' : fs'.openFile path with
      | error e' =>
          rw [ho, ho'] at hfile
          cases hfile
          exact .inr ⟨e, rfl, rfl⟩
      | ok file' =>
          rw [ho, ho'] at hfile
          cases hfile
  | ok file =>
      cases ho' : fs'.openFile path with
      | error e' =>
          rw [ho, ho'] at hfile
          cases hfile
      | ok file' =>
          rw [ho, ho'] at hfile
          exact .inl ⟨file, file', rfl, rfl, Except.ok.inj hfile⟩

theorem alike (h : fs.SameContents fs') (d : Dict) : Alike fs fs' d d where
  stat := h.stat
  opendir := h.opendir
  checkFile path printFilename errorFound := by
    obtain ⟨file, file', ho, ho', heq⟩ | ⟨e, ho, ho'⟩ := h.cases path
    · rw [ho, ho', checkFile_ok d path printFilename errorFound (fs.reads path file ho),
        checkFile_ok d path printFilename errorFound (fs'.reads path file' ho'), heq]
    · rw [ho, ho']

theorem loadDictionary (h : fs.SameContents fs') (path : Bytes) :
    loadDictionary (fs.openFile path) = loadDictionary (fs'.openFile path) := by
  obtain ⟨file, file', ho, ho', heq⟩ | ⟨e, ho, ho'⟩ := h.cases path
  · rw [ho, ho', loadDictionary_ok (fs.reads path file ho),
      loadDictionary_ok (fs'.reads path file' ho'), heq]
  · rw [ho, ho']

theorem checkWith (h : fs.SameContents fs') (suffix : Bytes) (args : List Bytes) :
    checkWith fs suffix args = checkWith fs' suffix args := by
  cases args with
  | nil => rfl
  | cons dictionary files =>
      rw [Spell.checkWith, Spell.checkWith, h.loadDictionary]
      simp only [(h.alike _).checkArguments]

end FileSystem.SameContents

/-- **How `read` cuts the files** changes nothing that the program prints or returns, whatever its
arguments are: the dictionary, the texts, and all files below the directories. -/
theorem main_reads (h : fs.SameContents fs') (argv₀ : Bytes) (args : List Bytes) :
    main fs argv₀ args = main fs' argv₀ args := by
  cases args with
  | nil => rfl
  | cons arg rest => cases rest <;> simp only [main, h.checkWith]

/-- The system whose reads deliver one byte each. -/
def FileSystem.bytewise (fs : FileSystem) : FileSystem where
  stat := fs.stat
  opendir := fs.opendir
  openFile path := (fs.openFile path).map fun file => file.flatten.map fun b => [b]
  names := fs.names
  reads path file h := by
    cases ho : fs.openFile path with
    | error e =>
        rw [ho] at h
        cases h
    | ok file =>
        rw [ho] at h
        cases h
        intro p hp
        obtain ⟨b, -, rfl⟩ := List.mem_map.mp hp
        exact List.cons_ne_nil b []

theorem sameContents_bytewise (fs : FileSystem) : fs.SameContents fs.bytewise where
  stat := rfl
  opendir := rfl
  files path := by
    simp only [FileSystem.bytewise]
    cases fs.openFile path with
    | error e => rfl
    | ok file =>
        have hcut : (file.flatten.map fun b => [b]).flatten = file.flatten := by
          rw [← List.flatMap_def, List.flatMap_singleton']
        exact congrArg Except.ok hcut.symm

theorem main_reads_sample :
    main (.sample none) (ascii "spell") [ascii "dict", ascii "t", ascii "gone"] =
      main (FileSystem.sample none).bytewise (ascii "spell")
        [ascii "dict", ascii "t", ascii "gone"] :=
  main_reads (sameContents_bytewise _) _ _

/-- What `dict_add` keeps of a word. -/
def dictKey (word : Bytes) : Bytes × Bool := (toLowerWord word, startsUpper word)

theorem lookup_keys {w : Bytes} {vs : List Bytes} :
    dictLookup (vs.foldl dictAdd dictCreate) w = true ↔
      (∃ capital, (toLowerWord w, capital) ∈ vs.map dictKey) ∧
        (startsUpper w = true ∨ (toLowerWord w, true) ∉ vs.map dictKey) := by
  have hmem : ∀ v, v ∈ sameSpelling w vs ↔ v ∈ vs ∧ toLowerWord v = toLowerWord w := fun v => by
    rw [sameSpelling, List.mem_filter, decide_eq_true_eq]
  rw [lookup_foldl]
  refine and_congr ?_ (or_congr_right ?_)
  · constructor
    · intro hne
      obtain ⟨v, hv⟩ := List.exists_mem_of_ne_nil _ hne
      obtain ⟨hv, heq⟩ := (hmem v).mp hv
      exact ⟨startsUpper v, List.mem_map.mpr ⟨v, hv, Prod.ext heq rfl⟩⟩
    · rintro ⟨capital, hkey⟩
      obtain ⟨v, hv, heq⟩ := List.mem_map.mp hkey
      exact List.ne_nil_of_mem ((hmem v).mpr ⟨hv, congrArg Prod.fst heq⟩)
  · constructor
    · intro h hkey
      obtain ⟨v, hv, heq⟩ := List.mem_map.mp hkey
      have hfalse := h v ((hmem v).mpr ⟨hv, congrArg Prod.fst heq⟩)
      rw [show startsUpper v = true from congrArg Prod.snd heq] at hfalse
      cases hfalse
    · intro h v hv
      obtain ⟨hv, heq⟩ := (hmem v).mp hv
      by_contra hup
      exact h (List.mem_map.mpr ⟨v, hv, Prod.ext heq (by simpa [dictKey] using hup)⟩)

/-- The words of a dictionary file, as the dictionary keeps them. -/
def fileKeys (file : Pieces UInt8) : List (Bytes × Bool) :=
  (entries file.flatten).map fun l => dictKey (lineWord l)

/-- Files with the same words are loaded as dictionaries that answer the same. -/
theorem lookup_same {file file' : Pieces UInt8}
    (hsame : ∀ k, k ∈ fileKeys file ↔ k ∈ fileKeys file') :
    dictLookup (((entries file.flatten).map lineWord).foldl dictAdd dictCreate) =
      dictLookup (((entries file'.flatten).map lineWord).foldl dictAdd dictCreate) := by
  have hkeys : ∀ file : Pieces UInt8,
      ((entries file.flatten).map lineWord).map dictKey = fileKeys file := fun file =>
    List.map_map
  funext w
  rw [Bool.eq_iff_iff, lookup_keys, lookup_keys, hkeys, hkeys]
  simp only [hsame]

theorem alike_of_lookup (h : dictLookup d = dictLookup d') : Alike fs fs d d' where
  stat := rfl
  opendir := rfl
  checkFile path printFilename errorFound := by
    have hword : checkWord d = checkWord d' := by
      funext filename printFilename st
      simp only [checkWord, h]
    have hbyte : checkByte d = checkByte d' := by
      funext filename printFilename st c
      simp only [checkByte, hword]
    cases fs.openFile path with
    | error e => rfl
    | ok file => simp only [checkFile, hword, hbyte]

/-- **The order of the dictionary**: two dictionary files with the same words, of which only the
case of the first letter counts, make the program do the same, in whatever order and however often
they list them. -/
theorem main_dictionary {dictionary dictionary' : Bytes} {file file' : Pieces UInt8}
    (hopen : fs.openFile dictionary = .ok file) (hopen' : fs.openFile dictionary' = .ok file')
    (hsame : ∀ k, k ∈ fileKeys file ↔ k ∈ fileKeys file') (hno : dictionary ≠ ascii "-s")
    (hno' : dictionary' ≠ ascii "-s") (argv₀ suffix : Bytes) (files : List Bytes) :
    main fs argv₀ (dictionary :: files) = main fs argv₀ (dictionary' :: files) ∧
      main fs argv₀ (ascii "-s" :: suffix :: dictionary :: files) =
        main fs argv₀ (ascii "-s" :: suffix :: dictionary' :: files) := by
  have hwith : ∀ suffix : Bytes,
      checkWith fs suffix (dictionary :: files) = checkWith fs suffix (dictionary' :: files) := by
    intro suffix
    have hload := loadDictionary_ok (fs.reads dictionary file hopen)
    have hload' := loadDictionary_ok (fs.reads dictionary' file' hopen')
    rw [checkWith_eq (hopen ▸ hload), checkWith_eq (hopen' ▸ hload'),
      (alike_of_lookup (lookup_same hsame)).checkArguments]
  constructor
  · exact (if_neg hno).trans ((hwith (ascii ".txt")).trans (if_neg hno').symm)
  · simp only [main, if_true]
    exact hwith suffix

/-- Two dictionaries, and a text that both check. -/
def FileSystem.dictionaries : FileSystem where
  stat p := if p = ascii "text" then some .regular else none
  opendir _ := none
  openFile p :=
    if p = ascii "one" then .ok [ascii "foo\nBar\n"]
    else if p = ascii "two" then .ok [ascii "Bar\nfO", ascii "O\n\nfoo\nBar"]
    else if p = ascii "text" then .ok [ascii "Foo bar\n"]
    else .error (ascii "No such file or directory")
  names p ns h := by cases h
  reads p file h := by
    split at h
    · cases h
      unfold Pieces.Whole
      decide
    · split at h
      · cases h
        unfold Pieces.Whole
        decide
      · split at h
        · cases h
          unfold Pieces.Whole
          decide
        · cases h

theorem main_dictionary_sample :
    main .dictionaries (ascii "spell") [ascii "one", ascii "text"] =
      main .dictionaries (ascii "spell") [ascii "two", ascii "text"] := by
  have hkeys : fileKeys [ascii "foo\nBar\n"] = [(ascii "foo", false), (ascii "bar", true)] ∧
      fileKeys [ascii "Bar\nfO", ascii "O\n\nfoo\nBar"] =
        [(ascii "bar", true), (ascii "foo", false), (ascii "foo", false), (ascii "bar", true)] := by
    decide +kernel
  have hsame : ∀ k, k ∈ fileKeys [ascii "foo\nBar\n"] ↔
      k ∈ fileKeys [ascii "Bar\nfO", ascii "O\n\nfoo\nBar"] := by
    intro k
    rw [hkeys.1, hkeys.2]
    simp only [List.mem_cons, List.not_mem_nil, or_false]
    tauto
  have hone : FileSystem.dictionaries.openFile (ascii "one") = .ok [ascii "foo\nBar\n"] := rfl
  have htwo : FileSystem.dictionaries.openFile (ascii "two") =
      .ok [ascii "Bar\nfO", ascii "O\n\nfoo\nBar"] := rfl
  exact (main_dictionary hone htwo hsame (by decide) (by decide) (ascii "spell") (ascii ".txt")
    [ascii "text"]).1

end CS214.Spell
