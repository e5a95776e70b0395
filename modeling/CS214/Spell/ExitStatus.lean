import CS214.Spell.Directory

/-!
# Spell — the exit status

`main` reads its arguments, loads the dictionary and checks every file and directory.  What it
returns is one flag, `error_found`, that its functions set as they go.

An entry of a directory that `stat` fails on is passed over in silence.  So the program succeeds
exactly when everything else went well (`main_status`), and does what it should exactly when every
entry can be examined or something else goes wrong (`exit_status_iff`).
-/

open CString

namespace CS214.Spell

/-- `EXIT_SUCCESS`. -/
def exitSuccess : ℕ := 0

/-- `EXIT_FAILURE`. -/
def exitFailure : ℕ := 1

/-- What the program leaves. -/
structure Exited where
  status : ℕ
  stdout : Bytes
  stderr : Bytes

section

variable (fs : FileSystem) (d : Dict) (suffix : Bytes)

/-- The loop body of `main`. -/
def checkArgument (printFilename : Bool) (st : Session) (arg : Bytes) : Option Session :=
  match fs.stat arg with
  | none => some (st.fail (ascii "Error: could not stat " ++ arg ++ ascii "\n"))
  | some .directory => processDirectory fs d suffix recursionBound arg st
  | some _ => some (st.checkFile fs d arg printFilename)

/-- The files and directories of the command line, or the standard input. -/
def checkArguments (files : List Bytes) : Option Session :=
  let st : Session := ⟨[], [], false, []⟩
  if files.isEmpty then some (st.checkFile fs d (ascii "/dev/stdin") false)
  else files.foldlM (checkArgument fs d suffix (decide (files.length > 1))) st

/-- `main` from `load_dictionary` on. -/
def checkWith : List Bytes → Option Exited
  | [] => some ⟨exitFailure, [], ascii "Error: dictionary file required\n"⟩
  | dictionary :: files =>
    let l := loadDictionary (fs.openFile dictionary)
    if l.ret < 0 then some ⟨exitFailure, [], l.stderr⟩
    else
      l.dictionary.bind fun d => (checkArguments fs d suffix files).map fun st =>
        ⟨if st.errorFound then exitFailure else exitSuccess, st.stdout, l.stderr ++ st.stderr⟩

end

/-- `main`; the arguments are those behind `argv[0]`. -/
def main (fs : FileSystem) (argv₀ : Bytes) : List Bytes → Option Exited
  | [] => some ⟨exitFailure, [],
      ascii "Usage: " ++ argv₀ ++ ascii " [-s suffix] dictionary [file...]\n"⟩
  | arg :: rest =>
    if arg = ascii "-s" then
      match rest with
      | [] => some ⟨exitFailure, [], ascii "Error: -s requires suffix argument\n"⟩
      | suffix :: rest => checkWith fs suffix rest
    else checkWith fs (ascii ".txt") (arg :: rest)

/-! ### What should make the program fail -/

section

variable (fs : FileSystem) (d : Dict) (suffix : Bytes)

/-- The file can be opened and no word of it is misspelled. -/
def FileSystem.Clean (path : Bytes) : Prop :=
  ∃ file, fs.openFile path = .ok file ∧
    ∀ f ∈ TextField.fields isSpace file.flatten, misspelled d f = false

/-- The directories below `root` can be opened, and the selected files are clean. -/
structure FileSystem.DirectoryFine (root : Bytes) : Prop where
  opens : fs.opendir root ≠ none
  directories : ∀ c, c ≠ [] → fs.Visible root c → fs.stat (pathOf root c) = some .directory →
    fs.opendir (pathOf root c) ≠ none
  files : ∀ c, c ≠ [] → fs.Visible root c → fs.Selected suffix root c → fs.Clean d (pathOf root c)

/-- Every entry that the traversal meets can be examined. -/
def FileSystem.Examined (root : Bytes) : Prop :=
  ∀ c, c ≠ [] → fs.Visible root c → fs.stat (pathOf root c) ≠ none

/-- An argument can be examined, and what it names is fine. -/
structure FileSystem.ArgumentFine (arg : Bytes) : Prop where
  examined : fs.stat arg ≠ none
  directory : fs.stat arg = some .directory → fs.DirectoryFine d suffix arg
  file : fs.stat arg ≠ some .directory → fs.Clean d arg

/-- Everything went well, apart from the examination of directory entries. -/
def FileSystem.AllFine (files : List Bytes) : Prop :=
  (files = [] → fs.Clean d (ascii "/dev/stdin")) ∧ ∀ arg ∈ files, fs.ArgumentFine d suffix arg

/-- Every entry of the directories of the command line can be examined. -/
def FileSystem.AllExamined (files : List Bytes) : Prop :=
  ∀ arg ∈ files, fs.stat arg = some .directory → fs.Examined arg

end

variable {fs : FileSystem} {d : Dict} {suffix root : Bytes} {st : Session}

/-! ### The flag -/

theorem Session.checkFile_clean (st : Session) (path : Bytes) (printFilename : Bool) :
    (st.checkFile fs d path printFilename).errorFound = false ↔
      st.errorFound = false ∧ fs.Clean d path := by
  cases ho : fs.openFile path with
  | error e =>
      refine iff_of_false ?_ ?_
      · simp [Session.checkFile, Spell.checkFile, ho]
      · rintro ⟨-, file, hf, -⟩
        rw [ho] at hf
        cases hf
  | ok file =>
      have hspec := checkFile_ok d path printFilename st.errorFound (fs.reads path file ho)
      have hclean : fs.Clean d path ↔
          ∀ f ∈ TextField.fields isSpace file.flatten, misspelled d f = false := by
        constructor
        · rintro ⟨file', hf, hall⟩
          rw [ho] at hf
          cases hf
          exact hall
        · exact fun hall => ⟨file, ho, hall⟩
      simp only [Session.checkFile, ho, hspec, hclean, Bool.or_eq_false_iff, List.any_eq_false,
        Bool.not_eq_true]

theorem Session.enter_fine (st : Session) (dirname : Bytes) :
    (st.enter fs dirname).errorFound = false ↔
      st.errorFound = false ∧ fs.opendir dirname ≠ none := by
  rw [enter]
  split
  · next h => simp [fail, h]
  · next h => simp [h]

theorem Session.visit_fine (st : Session) (c : List Bytes) :
    (st.visit fs d suffix root c).errorFound = false ↔
      st.errorFound = false ∧
        (fs.stat (pathOf root c) = some .directory → fs.opendir (pathOf root c) ≠ none) ∧
        (fs.Selected suffix root c → fs.Clean d (pathOf root c)) := by
  rw [visit]
  cases hstat : fs.stat (pathOf root c) with
  | none => simp [FileSystem.Selected, hstat]
  | some t =>
      cases t with
      | directory =>
          simp only [enter_fine, FileSystem.Selected, hstat, true_imp_iff, Option.some.injEq,
            reduceCtorEq, false_and, false_imp_iff, and_true]
      | regular =>
          simp only [FileSystem.Selected, hstat, Option.some.injEq, reduceCtorEq, false_imp_iff,
            true_and, endsWith_iff]
          split
          · next h => rw [checkFile_clean, imp_iff_right h]
          · next h => exact (and_iff_left fun hs => absurd hs h).symm
      | other => simp [FileSystem.Selected, hstat]

/-- A flag that every step can only set stays clear exactly when no step sets it. -/
theorem Session.foldl_fine {α : Type*} {f : Session → α → Session} {ok : α → Prop}
    (h : ∀ st x, (f st x).errorFound = false ↔ st.errorFound = false ∧ ok x) (l : List α) :
    (l.foldl f st).errorFound = false ↔ st.errorFound = false ∧ ∀ x ∈ l, ok x := by
  induction l generalizing st with
  | nil => simp
  | cons x l ih => rw [List.foldl_cons, ih, h, List.forall_mem_cons, and_assoc]

theorem processDirectory_fine (hs : fs.Short root) (st : Session) :
    ∃ st', processDirectory fs d suffix recursionBound root st = some st' ∧
      (st'.errorFound = false ↔ st.errorFound = false ∧ fs.DirectoryFine d suffix root) := by
  refine ⟨_, processDirectory_root hs st, ?_⟩
  rw [Session.foldl_fine Session.visit_fine, Session.enter_fine, and_assoc]
  refine and_congr_right fun _ => ?_
  simp only [mem_met hs]
  constructor
  · rintro ⟨hopen, hmet⟩
    exact ⟨hopen, fun c hne hv => (hmet c ⟨hne, hv⟩).1, fun c hne hv => (hmet c ⟨hne, hv⟩).2⟩
  · rintro ⟨hopen, hdirs, hfiles⟩
    exact ⟨hopen, fun c ⟨hne, hv⟩ => ⟨hdirs c hne hv, hfiles c hne hv⟩⟩

theorem checkArgument_fine {arg : Bytes} (hs : fs.stat arg = some .directory → fs.Short arg)
    (printFilename : Bool) (st : Session) :
    ∃ st', checkArgument fs d suffix printFilename st arg = some st' ∧
      (st'.errorFound = false ↔ st.errorFound = false ∧ fs.ArgumentFine d suffix arg) := by
  rw [checkArgument]
  cases hstat : fs.stat arg with
  | none =>
      exact ⟨_, rfl, iff_of_false (by simp [Session.fail]) fun h => h.2.examined hstat⟩
  | some t =>
      have hfile : t ≠ .directory → (fs.ArgumentFine d suffix arg ↔ fs.Clean d arg) := fun hne => by
        have hnd : fs.stat arg ≠ some .directory := by simp [hstat, hne]
        exact ⟨fun h => h.file hnd, fun h => ⟨by simp [hstat], fun he => absurd he hnd, fun _ => h⟩⟩
      cases t with
      | directory =>
          obtain ⟨st', h₁, h₂⟩ := processDirectory_fine (hs hstat) st
          refine ⟨st', h₁, h₂.trans (and_congr_right fun _ => ?_)⟩
          exact ⟨fun h => ⟨by simp [hstat], fun _ => h, fun hne => absurd hstat hne⟩,
            fun h => h.directory hstat⟩
      | regular => exact ⟨_, rfl, by rw [Session.checkFile_clean, hfile (by simp)]⟩
      | other => exact ⟨_, rfl, by rw [Session.checkFile_clean, hfile (by simp)]⟩

theorem foldlM_fine {files : List Bytes}
    (hs : ∀ arg ∈ files, fs.stat arg = some .directory → fs.Short arg) (printFilename : Bool)
    (st : Session) :
    ∃ st', files.foldlM (checkArgument fs d suffix printFilename) st = some st' ∧
      (st'.errorFound = false ↔
        st.errorFound = false ∧ ∀ arg ∈ files, fs.ArgumentFine d suffix arg) := by
  induction files generalizing st with
  | nil => exact ⟨st, rfl, by simp⟩
  | cons arg files ih =>
      obtain ⟨st₁, h₁, h₂⟩ := checkArgument_fine (hs arg List.mem_cons_self) printFilename st
      obtain ⟨st₂, h₃, h₄⟩ := ih (fun a ha => hs a (List.mem_cons_of_mem _ ha)) st₁
      refine ⟨st₂, ?_, by rw [h₄, h₂, List.forall_mem_cons, and_assoc]⟩
      rw [List.foldlM_cons, h₁]
      exact h₃

theorem checkArguments_fine {files : List Bytes}
    (hs : ∀ arg ∈ files, fs.stat arg = some .directory → fs.Short arg) :
    ∃ st, checkArguments fs d suffix files = some st ∧
      (st.errorFound = false ↔ fs.AllFine d suffix files) := by
  cases files with
  | nil =>
      refine ⟨_, rfl, ?_⟩
      rw [Session.checkFile_clean]
      simp [FileSystem.AllFine]
  | cons arg files =>
      obtain ⟨st, h₁, h₂⟩ := foldlM_fine hs
        (decide ((arg :: files).length > 1)) ⟨[], [], false, []⟩
      refine ⟨st, h₁, h₂.trans ?_⟩
      simp [FileSystem.AllFine]

/-! ### The status -/

/-- The command line names a suffix, a dictionary that can be loaded, and files and directories. -/
inductive Invokes (fs : FileSystem) :
    List Bytes → (suffix : Bytes) → Dict → (files : List Bytes) → Prop where
  | plain {dictionary : Bytes} {files : List Bytes} {d : Dict} {text : Bytes}
      (noOption : dictionary ≠ ascii "-s")
      (load : loadDictionary (fs.openFile dictionary) = ⟨0, some d, text⟩) :
      Invokes fs (dictionary :: files) (ascii ".txt") d files
  | withSuffix {suffix dictionary : Bytes} {files : List Bytes} {d : Dict} {text : Bytes}
      (load : loadDictionary (fs.openFile dictionary) = ⟨0, some d, text⟩) :
      Invokes fs (ascii "-s" :: suffix :: dictionary :: files) suffix d files

theorem checkWith_eq {dictionary text : Bytes} {files : List Bytes}
    (load : loadDictionary (fs.openFile dictionary) = ⟨0, some d, text⟩) :
    checkWith fs suffix (dictionary :: files) =
      (checkArguments fs d suffix files).map fun st =>
        ⟨if st.errorFound then exitFailure else exitSuccess, st.stdout, text ++ st.stderr⟩ := by
  rw [checkWith, load]
  rfl

/-- The program succeeds exactly when everything but the examination of entries went well. -/
theorem main_status {args files : List Bytes} (hargs : Invokes fs args suffix d files)
    (hs : ∀ arg ∈ files, fs.stat arg = some .directory → fs.Short arg) (argv₀ : Bytes) :
    ∃ r, main fs argv₀ args = some r ∧
      (r.status = exitSuccess ∧ fs.AllFine d suffix files ∨
        r.status = exitFailure ∧ ¬ fs.AllFine d suffix files) := by
  have hmain : ∃ text, main fs argv₀ args = (checkArguments fs d suffix files).map fun st =>
      ⟨if st.errorFound then exitFailure else exitSuccess, st.stdout, text ++ st.stderr⟩ := by
    cases hargs with
    | plain hno load => exact ⟨_, (if_neg hno).trans (checkWith_eq load)⟩
    | withSuffix load =>
        simp only [main, if_true]
        exact ⟨_, checkWith_eq load⟩
  obtain ⟨text, hmain⟩ := hmain
  obtain ⟨st, h₁, h₂⟩ := checkArguments_fine hs
  rw [hmain, h₁]
  refine ⟨_, rfl, ?_⟩
  cases he : st.errorFound with
  | false => exact .inl ⟨if_neg (by simp [he]), h₂.mp he⟩
  | true =>
      refine .inr ⟨if_pos he, fun hfine => ?_⟩
      rw [h₂.mpr hfine] at he
      cases he

/-- **The exit status.**  The program succeeds exactly when every argument and every entry met can
be examined, every directory and selected file can be opened and no word is misspelled, if and only
if every entry met can be examined or one of the other things goes wrong. -/
theorem exit_status_iff {args files : List Bytes} (hargs : Invokes fs args suffix d files)
    (hs : ∀ arg ∈ files, fs.stat arg = some .directory → fs.Short arg) (argv₀ : Bytes) :
    ∃ r, main fs argv₀ args = some r ∧ (r.status = exitSuccess ∨ r.status = exitFailure) ∧
      ((r.status = exitSuccess ↔ fs.AllExamined files ∧ fs.AllFine d suffix files) ↔
        (fs.AllExamined files ∨ ¬ fs.AllFine d suffix files)) := by
  obtain ⟨r, hr, ⟨hstatus, hfine⟩ | ⟨hstatus, hfine⟩⟩ := main_status hargs hs argv₀
  · exact ⟨r, hr, .inl hstatus, by simp [hstatus, hfine]⟩
  · have hne : exitFailure ≠ exitSuccess := by decide
    exact ⟨r, hr, .inr hstatus, by simp [hstatus, hfine, hne]⟩

/-- The dictionary that the sample file system loads. -/
def sampleDict : Dict := dictAdd dictCreate (ascii "file")

theorem invokes_sample (link : Option FileType) :
    Invokes (.sample link) [ascii "dict", ascii "t"] (ascii ".txt") sampleDict [ascii "t"] :=
  .plain (by decide) rfl

theorem exit_status_sample :
    ∃ r, main (.sample (some .regular)) (ascii "spell") [ascii "dict", ascii "t"] = some r ∧
      (r.status = exitSuccess ∨ r.status = exitFailure) ∧
      ((r.status = exitSuccess ↔ (FileSystem.sample (some .regular)).AllExamined [ascii "t"] ∧
          (FileSystem.sample (some .regular)).AllFine sampleDict (ascii ".txt") [ascii "t"]) ↔
        ((FileSystem.sample (some .regular)).AllExamined [ascii "t"] ∨
          ¬ (FileSystem.sample (some .regular)).AllFine sampleDict (ascii ".txt") [ascii "t"])) :=
  exit_status_iff (invokes_sample _) (by
    simp only [List.forall_mem_singleton]
    exact fun _ => short_sample _ (by decide)) (ascii "spell")

/-- A directory with an entry that cannot be examined, and everything else fine. -/
theorem exit_status_unexamined :
    Invokes (.sample none) [ascii "dict", ascii "t"] (ascii ".txt") sampleDict [ascii "t"] ∧
      (FileSystem.sample none).Short (ascii "t") ∧
      ∃ r, main (.sample none) (ascii "spell") [ascii "dict", ascii "t"] = some r ∧
        ¬ (r.status = exitSuccess ↔ (FileSystem.sample none).AllExamined [ascii "t"] ∧
          (FileSystem.sample none).AllFine sampleDict (ascii ".txt") [ascii "t"]) := by
  have hstatus : ((main (.sample none) (ascii "spell") [ascii "dict", ascii "t"]).map
      Exited.status) = some exitSuccess := by decide +kernel
  obtain ⟨r, hr, hs⟩ := Option.map_eq_some_iff.mp hstatus
  refine ⟨invokes_sample none, short_sample none (by decide), r, hr, fun hiff => ?_⟩
  refine (hiff.mp hs).1 (ascii "t") List.mem_cons_self (by decide) [ascii "link"] (by simp) ?_
    (by decide)
  exact .step (b := []) .refl (by decide)

end CS214.Spell
