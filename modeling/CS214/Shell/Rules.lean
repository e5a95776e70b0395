import CS214.Shell.Process

/-!
# Shell — rules for the functions of `exec.c`

`(p).Always (Step outcome) Φ post` says that every call of the program meets `Φ` and that `post`
holds where it is done.  A rule says what has to be shown of `Φ` and `post` for a function, and
names the states that its calls come in.

* `runSegment_rule`, `openFiles_rule`, `pipelineSetUp_rule`: a child.
* `makePipes_rule`, `forkSegments_rule`, `closePipes_rule`: the loops of the shell.
-/

open CString Program

namespace CS214.Shell

open Proc

variable {outcome : List ℕ → Ending} {s s' : Proc} {α : Type} {Φ : Proc → Call → Prop}
  {post : α → Proc → Prop}

/-! ### Rules for the calls -/

theorem pipe_rule {f : Except Bytes (ℕ × ℕ) → SysM α} (hc : Φ s .pipe)
    (herror : ∀ e, (f (.error e)).Always (Step outcome) Φ post (s.onKernel s.kernel.fail))
    (hok : ∀ r w, r ≠ w → s.kernel.fds.get r = none → s.kernel.fds.get w = none →
      (f (.ok (r, w))).Always (Step outcome) Φ post (s.onKernel (s.kernel.addPipe r w))) :
    (pipe >>= f).Always (Step outcome) Φ post s := by
  refine ⟨hc, fun x s' h => ?_⟩
  cases x with
  | error e =>
      cases h
      exact herror e
  | ok p =>
      obtain ⟨hne, hr, hw, rfl⟩ := h
      exact hok p.1 p.2 hne hr hw

theorem fork_rule {f : Forked → SysM α} (hc : Φ s .fork)
    (hfailed : ∀ e, (f (.failed e)).Always (Step outcome) Φ post (s.onKernel s.kernel.fail))
    (hchild : (f .child).Always (Step outcome) Φ post s.child)
    (hparent : (f (.parent s.kernel.forks)).Always (Step outcome) Φ post
      (s.onKernel (s.kernel.forked 1))) :
    (fork >>= f).Always (Step outcome) Φ post s := by
  refine ⟨hc, fun x s' h => ?_⟩
  cases x with
  | failed e =>
      cases h
      exact hfailed e
  | child =>
      cases h
      exact hchild
  | parent pid =>
      obtain ⟨rfl, rfl⟩ := h
      exact hparent

theorem dup2_rule {old new : ℕ} {f : Unit → SysM α} (hc : Φ s (.dup2 old new))
    (h : (f ()).Always (Step outcome) Φ post (s.onKernel (s.kernel.dup old new))) :
    (dup2 old new >>= f).Always (Step outcome) Φ post s := by
  refine ⟨hc, fun x s' hx => ?_⟩
  cases hx
  exact h

theorem close_rule {fd : ℕ} {f : Unit → SysM α} (hc : Φ s (.close fd))
    (h : (f ()).Always (Step outcome) Φ post (s.onKernel (s.kernel.put fd none))) :
    (close fd >>= f).Always (Step outcome) Φ post s := by
  refine ⟨hc, fun x s' hx => ?_⟩
  cases hx
  exact h

theorem openFile_rule {path : Bytes} {mode : OpenMode} {f : Except Bytes ℕ → SysM α}
    (hc : Φ s (.openFile path mode))
    (herror : ∀ e, (f (.error e)).Always (Step outcome) Φ post (s.onKernel s.kernel.fail))
    (hok : ∀ fd, s.kernel.fds.get fd = none →
      (f (.ok fd)).Always (Step outcome) Φ post
        (s.onKernel (s.kernel.put fd (some (.file path mode))))) :
    (openFile path mode >>= f).Always (Step outcome) Φ post s := by
  refine ⟨hc, fun x s' h => ?_⟩
  cases x with
  | error e =>
      cases h
      exact herror e
  | ok fd =>
      obtain ⟨hfd, rfl⟩ := h
      exact hok fd hfd

theorem waitFor_rule {pid : ℕ} {f : UInt32 → SysM α} (hc : Φ s .uninitialized)
    (hc' : Φ s (.waitpid pid))
    (h : ∀ status, (f ((waitAnswer outcome s pid).getD status)).Always (Step outcome) Φ post s) :
    (waitFor pid >>= f).Always (Step outcome) Φ post s := by
  refine ⟨hc, fun status s' hs => ?_⟩
  cases hs
  refine ⟨hc', fun x s' hx => ?_⟩
  obtain ⟨rfl, rfl⟩ := hx
  exact h status

theorem eprintf_rule {text : Bytes} {f : Unit → SysM α} (hc : Φ s (.eprintf text))
    (h : (f ()).Always (Step outcome) Φ post s) :
    (eprintf text >>= f).Always (Step outcome) Φ post s := by
  refine ⟨hc, fun x s' hx => ?_⟩
  cases hx
  exact h

/-! ### Programs that set up nothing -/

/-- The calls that set up nothing, and return. -/
def Call.talks : Call → Bool
  | .waitpid _ | .uninitialized | .access _ | .chdir _ | .getcwd | .execv _ _ | .printf _ | .fflush
  | .eprintf _ => true
  | _ => false

theorem setsUp_of_talks {c : Call} (h : c.talks = true) : c.setsUp = false := by
  cases c <;> first | rfl | cases h

/-- Every call sets up nothing and returns. -/
abbrev Talks (p : SysM α) : Prop := p.Only fun c => c.talks = true

theorem searchProgram_talks (name : Bytes) (paths : List Bytes) :
    Talks (searchProgram name paths) := by
  induction paths with
  | nil => trivial
  | cons path paths ih =>
      refine only_bind (only_perform rfl) fun found => ?_
      cases found with
      | true => trivial
      | false => exact ih

theorem findProgram_talks (name : Bytes) : Talks (findProgram name) := by
  unfold findProgram
  split
  · refine only_bind (only_perform rfl) fun found => ?_
    cases found <;> trivial
  · exact searchProgram_talks name _

theorem perror_talks (what error : Bytes) : Talks (perror what error) := only_perform rfl

theorem printArgs_talks (argv : List (Option Bytes)) (i n : ℕ) : Talks (printArgs argv i n) := by
  induction n generalizing i with
  | zero => trivial
  | succ n ih =>
      rw [printArgs]
      split
      · exact only_bind (only_perform rfl) fun _ => only_bind (only_perform rfl) fun _ => ih _
      · exact only_bind (only_perform rfl) fun _ => ih _

theorem executeCd_talks (argv : List (Option Bytes)) (argc : ℕ) : Talks (executeCd argv argc) := by
  unfold executeCd
  split
  · exact only_bind (only_perform rfl) fun _ => trivial
  · refine only_bind (only_perform rfl) fun r => ?_
    cases r with
    | error e => exact only_bind (perror_talks _ _) fun _ => trivial
    | ok u => trivial

theorem executePwd_talks (argc : ℕ) : Talks (executePwd argc) := by
  unfold executePwd
  split
  · exact only_bind (only_perform rfl) fun _ => trivial
  · refine only_bind (only_perform rfl) fun r => ?_
    cases r with
    | error e => exact only_bind (perror_talks _ _) fun _ => trivial
    | ok cwd => exact only_bind (only_perform rfl) fun _ => trivial

theorem executeWhich_talks (argv : List (Option Bytes)) (argc : ℕ) :
    Talks (executeWhich argv argc) := by
  unfold executeWhich
  split
  · exact only_bind (only_perform rfl) fun _ => trivial
  · split
    · trivial
    · refine only_bind (findProgram_talks _) fun r => ?_
      cases r with
      | none => trivial
      | some path => exact only_bind (only_perform rfl) fun _ => trivial

theorem executeDie_talks (argv : List (Option Bytes)) (argc : ℕ) :
    Talks (executeDie argv argc) := by
  refine only_bind (printArgs_talks _ _ _) fun _ => ?_
  split
  · exact only_bind (only_perform rfl) fun _ => trivial
  · trivial

theorem executeBuiltin_talks (cmd : Bytes) (argv : List (Option Bytes)) (argc : ℕ) :
    Talks (executeBuiltin cmd argv argc) := by
  unfold executeBuiltin
  split
  · exact executeCd_talks argv argc
  · split
    · exact executePwd_talks argc
    · split
      · exact executeWhich_talks argv argc
      · split
        · trivial
        · split
          · exact executeDie_talks argv argc
          · trivial

theorem waitLoop_talks (count i : ℕ) (v : ℤ) (pids : List ℕ) :
    Talks (waitLoop count i v pids) := by
  induction pids generalizing i v with
  | nil => trivial
  | cons pid pids ih =>
      refine only_bind ?_ fun status => ih _ _
      exact only_bind (only_perform rfl) fun _ => only_bind (only_perform rfl) fun _ => trivial

/-- Such a program leaves what the kernel keeps as it is. -/
theorem talk_rule {p : SysM α} (hp : Talks p)
    (hc : ∀ s' c, s'.kernel = s.kernel → c.talks = true → Φ s' c)
    (hpost : ∀ a s', s'.kernel = s.kernel → post a s') : p.Always (Step outcome) Φ post s := by
  have h : p.Always (Step outcome) (fun s' c => s'.kernel = s.kernel ∧ c.talks = true)
      (fun _ s' => s'.kernel = s.kernel) s :=
    hp.always (fun s' c x s'' hs hc hx => (hx.kernel (setsUp_of_talks hc)).trans hs) rfl
  exact h.mono (fun s' c h => hc s' c h.1 h.2) hpost

/-! ### The end of a child -/

/-- `Φ` lets a process for which the kernel keeps `k` talk and exit. -/
structure Allows (Φ : Proc → Call → Prop) (k : Kernel) : Prop where
  talk : ∀ s c, s.kernel = k → c.talks = true → Φ s c
  exit : ∀ s n, s.kernel = k → s.stdout.pending = [] → Φ s (.exit n)

theorem exit_rule {n : ℕ} (h : Allows Φ s.kernel) :
    (exit n : SysM α).Always (Step outcome) Φ post s := by
  refine ⟨h.talk s _ rfl rfl, fun x s' hx => ?_⟩
  cases hx
  exact ⟨h.exit _ n rfl rfl, fun x => nomatch x⟩

/-- Talk, and then an exit. -/
theorem talk_exit {β : Type} {p : SysM β} {f : β → SysM α} (hp : Talks p) (h : Allows Φ s.kernel)
    (hf : ∀ b s', s'.kernel = s.kernel → (f b).Always (Step outcome) Φ post s') :
    (p >>= f).Always (Step outcome) Φ post s :=
  always_bind.mpr (talk_rule hp (fun s' c hs hc => h.talk s' c hs hc) fun b s' hs => hf b s' hs)

theorem runProgram_rule {seg : JobSegment} (h : Allows Φ s.kernel) :
    (runProgram seg : SysM α).Always (Step outcome) Φ post s := by
  refine talk_exit (findProgram_talks _) h fun r s' hs => ?_
  rw [← hs] at h
  cases r with
  | none =>
      refine talk_exit (only_perform rfl) h fun _ s'' hs' => ?_
      exact exit_rule (hs' ▸ h)
  | some path =>
      refine talk_exit (only_perform rfl) h fun e s'' hs' => ?_
      rw [← hs'] at h
      exact talk_exit (perror_talks _ _) h fun _ s₃ hs₃ => exit_rule (hs₃ ▸ h)

theorem runSegment_rule {seg : JobSegment} (h : Allows Φ s.kernel) :
    (runSegment seg : SysM α).Always (Step outcome) Φ post s := by
  unfold runSegment
  split
  · refine talk_exit (executeBuiltin_talks _ _ _) h fun r s' hs => ?_
    rw [← hs] at h
    split
    · exact exit_rule h
    · split <;> exact exit_rule h
  · exact runProgram_rule h

/-! ### Opening files -/

/-- A file was opened in place of the descriptor. -/
def Redirected (path : Bytes) (mode : OpenMode) (target : ℕ) (k k' : Kernel) : Prop :=
  ∃ fd, k.fds.get fd = none ∧
    k' = ((k.put fd (some (.file path mode))).dup fd target).put fd none

/-- The file to open, if there is one, and what is left then. -/
def redirectOpt (file : Option (Bytes × OpenMode)) (target : ℕ) : SysM Unit :=
  match file with
  | none => return ()
  | some (path, mode) => redirect path mode target

/-- A file was opened in place of the descriptor, if there is one to open. -/
def RedirectedOpt (file : Option (Bytes × OpenMode)) (target : ℕ) (k k' : Kernel) : Prop :=
  match file with
  | none => k' = k
  | some (path, mode) => Redirected path mode target k k'

/-- `/dev/null`, for the first process of a job without an input file, where the shell is not
interactive. -/
def nullOf (first interactive : Bool) (seg : JobSegment) : Option (Bytes × OpenMode) :=
  if first && !interactive && seg.inputFile.isNone then some (ascii "/dev/null", .readOnly)
  else none

/-- The input file that a child opens: only the first one does. -/
def inputOf (first : Bool) (seg : JobSegment) : Option (Bytes × OpenMode) :=
  if first then seg.inputFile.map fun path => (path, .readOnly) else none

/-- The output file that a child opens: only the last one does. -/
def outputOf (last : Bool) (seg : JobSegment) : Option (Bytes × OpenMode) :=
  if last then seg.outputFile.map fun path => (path, .create) else none

theorem redirectNull_eq (first interactive : Bool) (seg : JobSegment) :
    redirectNull first interactive seg = redirectOpt (nullOf first interactive seg) 0 := by
  unfold redirectNull nullOf
  split <;> rfl

theorem redirectInput_eq (first : Bool) (seg : JobSegment) :
    redirectInput first seg = redirectOpt (inputOf first seg) 0 := by
  unfold redirectInput inputOf
  cases first <;> cases seg.inputFile <;> rfl

theorem redirectOutput_eq (last : Bool) (seg : JobSegment) :
    redirectOutput last seg = redirectOpt (outputOf last seg) 1 := by
  unfold redirectOutput outputOf
  cases last <;> cases seg.outputFile <;> rfl

/-- The files of a segment were opened in place of its descriptors. -/
def FilesOpened (first last interactive : Bool) (seg : JobSegment) (k k' : Kernel) : Prop :=
  ∃ k₁ k₂, RedirectedOpt (nullOf first interactive seg) 0 k k₁ ∧
    RedirectedOpt (inputOf first seg) 0 k₁ k₂ ∧ RedirectedOpt (outputOf last seg) 1 k₂ k'

theorem get_dup {k : Kernel} {old new fd : ℕ} (h : k.fds.get old ≠ none) :
    (k.dup old new).fds.get fd = if fd = new then k.fds.get old else k.fds.get fd := by
  obtain ⟨d, hd⟩ := Option.ne_none_iff_exists'.mp h
  rw [Kernel.dup, hd]
  exact Table.get_put

theorem Redirected.onlyFds {path : Bytes} {mode : OpenMode} {target : ℕ} {k k' : Kernel}
    (h : Redirected path mode target k k') : OnlyFds k k' := by
  obtain ⟨fd, -, rfl⟩ := h
  have hput : OnlyFds k (k.put fd (some (.file path mode))) := rfl
  exact hput.trans (dup_onlyFds.trans rfl)

/-- The descriptor stands for the file, and every other one that was open is as it was. -/
theorem Redirected.get {path : Bytes} {mode : OpenMode} {target : ℕ} {k k' : Kernel}
    (h : Redirected path mode target k k') {fd : ℕ} (hfd : k.fds.get fd ≠ none) :
    k'.fds.get fd = if fd = target then some (.file path mode) else k.fds.get fd := by
  obtain ⟨new, hnew, rfl⟩ := h
  have hne : fd ≠ new := fun e => hfd (e ▸ hnew)
  have hput : (k.put new (some (.file path mode))).fds.get new = some (.file path mode) :=
    Table.get_put_self
  rw [Kernel.put, Table.get_put_ne hne, get_dup (by rw [hput]; exact nofun), hput]
  split
  · rfl
  · exact Table.get_put_ne hne

/-- `Φ` allows what a child does to set itself up, unless it is to close its output. -/
def AllowsSetUp (Φ : Proc → Call → Prop) (s : Proc) : Prop :=
  ∀ k c, OnlyFds s.kernel k → c.setsUp = true → c ≠ .close 1 → Φ (s.onKernel k) c

theorem AllowsSetUp.onKernel (h : AllowsSetUp Φ s) {k : Kernel} (hk : OnlyFds s.kernel k) :
    AllowsSetUp Φ (s.onKernel k) :=
  fun k' c hk' => h k' c (hk.trans hk')

/-- `Φ` allows a process to talk and exit once more calls have failed than these. -/
def AllowsFailed (Φ : Proc → Call → Prop) (failures : ℕ) : Prop :=
  ∀ k : Kernel, failures < k.failures → Allows Φ k

theorem redirect_rule {path : Bytes} {mode : OpenMode} {target : ℕ} {post : Unit → Proc → Prop}
    (hset : AllowsSetUp Φ s) (hout : s.kernel.fds.get 1 ≠ none)
    (hfail : AllowsFailed Φ s.kernel.failures)
    (hpost : ∀ k', Redirected path mode target s.kernel k' → post () (s.onKernel k')) :
    (redirect path mode target).Always (Step outcome) Φ post s := by
  refine openFile_rule (hset _ _ (.refl _) rfl nofun) (fun e => ?_) fun fd hfd => ?_
  · have hfail' := hfail s.kernel.fail (Nat.lt_succ_self _)
    exact talk_exit (perror_talks _ _) hfail' fun _ s' hs => exit_rule (hs ▸ hfail')
  · have hput : OnlyFds s.kernel (s.kernel.put fd (some (.file path mode))) := rfl
    refine dup2_rule (hset _ _ hput rfl nofun)
      ⟨hset _ _ (hput.trans dup_onlyFds) rfl ?_, fun x s' hx => ?_⟩
    · rintro ⟨⟩
      exact hout hfd
    · cases hx
      exact hpost _ ⟨fd, hfd, rfl⟩

theorem RedirectedOpt.onlyFds {file : Option (Bytes × OpenMode)} {target : ℕ} {k k' : Kernel}
    (h : RedirectedOpt file target k k') : OnlyFds k k' := by
  cases file with
  | none =>
      cases h
      exact .refl k
  | some f => exact Redirected.onlyFds h

theorem FilesOpened.onlyFds {first last interactive : Bool} {seg : JobSegment} {k k' : Kernel}
    (h : FilesOpened first last interactive seg k k') : OnlyFds k k' := by
  obtain ⟨k₁, k₂, h₁, h₂, h₃⟩ := h
  exact (h₁.onlyFds.trans h₂.onlyFds).trans h₃.onlyFds

/-- What is open stays open. -/
theorem RedirectedOpt.open {file : Option (Bytes × OpenMode)} {target fd : ℕ} {k k' : Kernel}
    (h : RedirectedOpt file target k k') (hfd : k.fds.get fd ≠ none) : k'.fds.get fd ≠ none := by
  cases file with
  | none =>
      cases h
      exact hfd
  | some f =>
      rw [Redirected.get h hfd]
      split
      · exact nofun
      · exact hfd

theorem redirectOpt_rule {file : Option (Bytes × OpenMode)} {target : ℕ}
    {post : Unit → Proc → Prop} (hset : AllowsSetUp Φ s) (hout : s.kernel.fds.get 1 ≠ none)
    (hfail : AllowsFailed Φ s.kernel.failures)
    (hpost : ∀ k', RedirectedOpt file target s.kernel k' → post () (s.onKernel k')) :
    (redirectOpt file target).Always (Step outcome) Φ post s := by
  cases file with
  | none => exact hpost s.kernel rfl
  | some f => exact redirect_rule hset hout hfail hpost

/-- The three files of a segment. -/
def openFiles (first last interactive : Bool) (seg : JobSegment) : SysM Unit := do
  redirectNull first interactive seg
  redirectInput first seg
  redirectOutput last seg

/-- The child of a single command opens the files and goes on with it. -/
theorem singleChild_eq {seg : JobSegment} {interactive : Bool} :
    (singleChild seg interactive : SysM α) =
      openFiles true true interactive seg >>= fun _ => runProgram seg := by
  rw [openFiles]
  simp only [bind_assoc]
  rfl

theorem openFiles_rule {first last interactive : Bool} {seg : JobSegment}
    {post : Unit → Proc → Prop} (hset : AllowsSetUp Φ s) (hout : s.kernel.fds.get 1 ≠ none)
    (hfail : AllowsFailed Φ s.kernel.failures)
    (hpost : ∀ k', FilesOpened first last interactive seg s.kernel k' → post () (s.onKernel k')) :
    (openFiles first last interactive seg).Always (Step outcome) Φ post s := by
  rw [openFiles, redirectNull_eq, redirectInput_eq, redirectOutput_eq]
  refine always_bind.mpr (redirectOpt_rule hset hout hfail fun k₁ h₁ => ?_)
  have hfail₁ : AllowsFailed Φ k₁.failures := h₁.onlyFds.failures ▸ hfail
  refine always_bind.mpr (redirectOpt_rule (hset.onKernel h₁.onlyFds) (h₁.open hout) hfail₁
    fun k₂ h₂ => ?_)
  have hfail₂ : AllowsFailed Φ k₂.failures := h₂.onlyFds.failures ▸ hfail₁
  refine redirectOpt_rule (hset.onKernel (h₁.onlyFds.trans h₂.onlyFds))
    (h₂.open (h₁.open hout)) hfail₂ fun k₃ h₃ => ?_
  exact hpost k₃ ⟨k₁, k₂, h₁, h₂, h₃⟩

theorem singleChild_rule {seg : JobSegment} {interactive : Bool} (hset : AllowsSetUp Φ s)
    (hout : s.kernel.fds.get 1 ≠ none) (hfail : AllowsFailed Φ s.kernel.failures)
    (htail : ∀ k', FilesOpened true true interactive seg s.kernel k' → Allows Φ k') :
    (singleChild seg interactive : SysM α).Always (Step outcome) Φ post s := by
  rw [singleChild_eq]
  exact always_bind.mpr (openFiles_rule hset hout hfail fun k' hk => runProgram_rule (htail k' hk))

/-! ### The pipes of a child -/

/-- What `wireInput` leaves. -/
def wiredInput (pipes : List (ℕ × ℕ)) (i : ℕ) (k : Kernel) : Kernel :=
  if 0 < i then k.dup (pipeAt pipes (i - 1)).1 0 else k

/-- What `wireOutput` leaves. -/
def wiredOutput (pipes : List (ℕ × ℕ)) (count i : ℕ) (k : Kernel) : Kernel :=
  if i < count - 1 then k.dup (pipeAt pipes i).2 1 else k

/-- What the child of segment `i` has when its pipes are set up. -/
def wired (pipes : List (ℕ × ℕ)) (count i : ℕ) (k : Kernel) : Kernel :=
  (wiredOutput pipes count i (wiredInput pipes i k)).closeAll pipes

theorem wireInput_rule {pipes : List (ℕ × ℕ)} {i : ℕ} {post : Unit → Proc → Prop}
    (hset : AllowsSetUp Φ s) (hpost : post () (s.onKernel (wiredInput pipes i s.kernel))) :
    (wireInput pipes i).Always (Step outcome) Φ post s := by
  unfold wireInput
  unfold wiredInput at hpost
  split
  · next h =>
      rw [if_pos h] at hpost
      refine ⟨hset _ _ (.refl _) rfl nofun, fun x s' hx => ?_⟩
      cases hx
      exact hpost
  · next h =>
      rw [if_neg h] at hpost
      exact hpost

theorem wireOutput_rule {pipes : List (ℕ × ℕ)} {count i : ℕ} {post : Unit → Proc → Prop}
    (hset : AllowsSetUp Φ s)
    (hpost : post () (s.onKernel (wiredOutput pipes count i s.kernel))) :
    (wireOutput pipes count i).Always (Step outcome) Φ post s := by
  unfold wireOutput
  unfold wiredOutput at hpost
  split
  · next h =>
      rw [if_pos h] at hpost
      refine ⟨hset _ _ (.refl _) rfl nofun, fun x s' hx => ?_⟩
      cases hx
      exact hpost
  · next h =>
      rw [if_neg h] at hpost
      exact hpost

/-- The loop that closes the pipes. -/
theorem closePipes_rule {pipes : List (ℕ × ℕ)} {post : Unit → Proc → Prop}
    (hclose : ∀ k p, OnlyFds s.kernel k → p ∈ pipes →
      Φ (s.onKernel k) (.close p.1) ∧ Φ (s.onKernel k) (.close p.2))
    (hpost : post () (s.onKernel (s.kernel.closeAll pipes))) :
    (closePipes pipes).Always (Step outcome) Φ post s := by
  induction pipes generalizing s with
  | nil => exact hpost
  | cons p pipes ih =>
      have hput : OnlyFds s.kernel (s.kernel.put p.1 none) := rfl
      have hput' : OnlyFds s.kernel ((s.kernel.put p.1 none).put p.2 none) := rfl
      refine close_rule (hclose _ p (.refl _) List.mem_cons_self).1
        (close_rule (hclose _ p hput List.mem_cons_self).2 (ih ?_ hpost))
      exact fun k q hk hq => hclose k q (hput'.trans hk) (List.mem_cons_of_mem _ hq)

/-- The descriptor is an end of one of the pipes. -/
def IsEnd (pipes : List (ℕ × ℕ)) (fd : ℕ) : Prop := ∃ p ∈ pipes, fd = p.1 ∨ fd = p.2

theorem closeAll_onlyFds {pipes : List (ℕ × ℕ)} {k : Kernel} : OnlyFds k (k.closeAll pipes) := by
  induction pipes generalizing k with
  | nil => exact .refl k
  | cons p pipes ih =>
      have hput : OnlyFds k ((k.put p.1 none).put p.2 none) := rfl
      exact hput.trans ih

theorem closeAll_end {pipes : List (ℕ × ℕ)} {k : Kernel} {fd : ℕ}
    (h : IsEnd pipes fd ∨ k.fds.get fd = none) : (k.closeAll pipes).fds.get fd = none := by
  induction pipes generalizing k with
  | nil => exact h.resolve_left nofun
  | cons p pipes ih =>
      refine ih ?_
      simp only [Kernel.put, Table.get_put]
      rcases h with ⟨q, hq, hfd⟩ | h
      · rcases List.mem_cons.mp hq with rfl | hq
        · exact .inr (by rcases hfd with rfl | rfl <;> simp)
        · exact .inl ⟨q, hq, hfd⟩
      · exact .inr (by rw [h, ite_self, ite_self])

theorem closeAll_other {pipes : List (ℕ × ℕ)} {k : Kernel} {fd : ℕ} (h : ¬ IsEnd pipes fd) :
    (k.closeAll pipes).fds.get fd = k.fds.get fd := by
  induction pipes generalizing k with
  | nil => rfl
  | cons p pipes ih =>
      have hp : fd ≠ p.1 ∧ fd ≠ p.2 :=
        not_or.mp fun hfd => h ⟨p, List.mem_cons_self, hfd⟩
      rw [Kernel.closeAll, ih fun ⟨q, hq, hfd⟩ => h ⟨q, List.mem_cons_of_mem _ hq, hfd⟩]
      exact (Table.get_put_ne hp.2).trans (Table.get_put_ne hp.1)

theorem wiredInput_onlyFds {pipes : List (ℕ × ℕ)} {i : ℕ} {k : Kernel} :
    OnlyFds k (wiredInput pipes i k) := by
  unfold wiredInput
  split
  · exact dup_onlyFds
  · exact .refl k

theorem wiredOutput_onlyFds {pipes : List (ℕ × ℕ)} {count i : ℕ} {k : Kernel} :
    OnlyFds k (wiredOutput pipes count i k) := by
  unfold wiredOutput
  split
  · exact dup_onlyFds
  · exact .refl k

theorem wired_onlyFds {pipes : List (ℕ × ℕ)} {count i : ℕ} {k : Kernel} :
    OnlyFds k (wired pipes count i k) :=
  (wiredInput_onlyFds.trans wiredOutput_onlyFds).trans closeAll_onlyFds

theorem dup_open {k : Kernel} {old new fd : ℕ} (h : k.fds.get fd ≠ none) :
    (k.dup old new).fds.get fd ≠ none := by
  unfold Kernel.dup
  split
  · exact h
  · rw [Kernel.put, Table.get_put]
    split
    · exact nofun
    · exact h

/-- The output stays open. -/
theorem wired_output {pipes : List (ℕ × ℕ)} {count i : ℕ} {k : Kernel} (hpipes : ¬ IsEnd pipes 1)
    (hout : k.fds.get 1 ≠ none) : (wired pipes count i k).fds.get 1 ≠ none := by
  rw [wired, closeAll_other hpipes, wiredOutput, wiredInput]
  split <;> split
  · exact dup_open (dup_open hout)
  · exact dup_open hout
  · exact dup_open hout
  · exact hout

/-- What the child of segment `i` does before it runs the command. -/
def pipelineSetUp (pipes : List (ℕ × ℕ)) (count i : ℕ) (seg : JobSegment) (interactive : Bool) :
    SysM Unit := do
  wireInput pipes i
  wireOutput pipes count i
  closePipes pipes
  openFiles (i = 0) (i = count - 1) interactive seg

theorem pipelineChild_eq {pipes : List (ℕ × ℕ)} {count i : ℕ} {seg : JobSegment}
    {interactive : Bool} : (pipelineChild pipes count i seg interactive : SysM α) =
      pipelineSetUp pipes count i seg interactive >>= fun _ => runSegment seg := by
  rw [pipelineSetUp, openFiles]
  simp only [bind_assoc]
  rfl

theorem pipelineSetUp_rule {pipes : List (ℕ × ℕ)} {count i : ℕ} {seg : JobSegment}
    {interactive : Bool} {post : Unit → Proc → Prop} (hset : AllowsSetUp Φ s)
    (hout : s.kernel.fds.get 1 ≠ none) (hpipes : ¬ IsEnd pipes 1)
    (hfail : AllowsFailed Φ s.kernel.failures)
    (hpost : ∀ k', FilesOpened (i = 0) (i = count - 1) interactive seg
      (wired pipes count i s.kernel) k' → post () (s.onKernel k')) :
    (pipelineSetUp pipes count i seg interactive).Always (Step outcome) Φ post s := by
  have hin : OnlyFds s.kernel (wiredInput pipes i s.kernel) := wiredInput_onlyFds
  have hboth : OnlyFds s.kernel (wiredOutput pipes count i (wiredInput pipes i s.kernel)) :=
    hin.trans wiredOutput_onlyFds
  refine always_bind.mpr (wireInput_rule hset ?_)
  refine always_bind.mpr (wireOutput_rule (hset.onKernel hin) ?_)
  refine always_bind.mpr (closePipes_rule (fun k p hk hp => ?_) ?_)
  · have hset' := hset.onKernel hboth
    exact ⟨hset' k _ hk rfl fun e => hpipes ⟨p, hp, .inl (Call.close.inj e).symm⟩,
      hset' k _ hk rfl fun e => hpipes ⟨p, hp, .inr (Call.close.inj e).symm⟩⟩
  · refine openFiles_rule (hset.onKernel wired_onlyFds) (wired_output hpipes hout) ?_ hpost
    exact fun k hk => hfail k (wired_onlyFds.failures ▸ hk)

theorem pipelineChild_rule {pipes : List (ℕ × ℕ)} {count i : ℕ} {seg : JobSegment}
    {interactive : Bool} (hset : AllowsSetUp Φ s) (hout : s.kernel.fds.get 1 ≠ none)
    (hpipes : ¬ IsEnd pipes 1) (hfail : AllowsFailed Φ s.kernel.failures)
    (htail : ∀ k', FilesOpened (i = 0) (i = count - 1) interactive seg
      (wired pipes count i s.kernel) k' → Allows Φ k') :
    (pipelineChild pipes count i seg interactive : SysM α).Always (Step outcome) Φ post s := by
  rw [pipelineChild_eq]
  exact always_bind.mpr (pipelineSetUp_rule hset hout hpipes hfail fun k' hk =>
    runSegment_rule (htail k' hk))

/-! ### The loops of the shell -/

/-- Pipes that were made one after the other, each of two descriptors that were closed. -/
inductive Piped (k : Kernel) : List (ℕ × ℕ) → Kernel → Prop where
  | nil : Piped k [] k
  | snoc {pipes : List (ℕ × ℕ)} {k' : Kernel} {r w : ℕ} (h : Piped k pipes k') (hne : r ≠ w)
      (hr : k'.fds.get r = none) (hw : k'.fds.get w = none) :
      Piped k (pipes ++ [(r, w)]) (k'.addPipe r w)

namespace Piped

variable {k k' : Kernel} {pipes : List (ℕ × ℕ)} {fd : ℕ}

theorem name (h : Piped k pipes k') : k'.name = k.name := by
  induction h with
  | nil => rfl
  | snoc _ _ _ _ ih => exact ih

theorem forks (h : Piped k pipes k') : k'.forks = k.forks := by
  induction h with
  | nil => rfl
  | snoc _ _ _ _ ih => exact ih

theorem ignored (h : Piped k pipes k') : k'.ignored = k.ignored := by
  induction h with
  | nil => rfl
  | snoc _ _ _ _ ih => exact ih

theorem failures (h : Piped k pipes k') : k'.failures = k.failures := by
  induction h with
  | nil => rfl
  | snoc _ _ _ _ ih => exact ih

theorem pipes_eq (h : Piped k pipes k') : k'.pipes = k.pipes + pipes.length := by
  induction h with
  | nil => rfl
  | snoc _ _ _ _ ih =>
      rw [List.length_append]
      exact congrArg (· + 1) ih

/-- What was open stands for what it did. -/
theorem get_open (h : Piped k pipes k') (hfd : k.fds.get fd ≠ none) :
    k'.fds.get fd = k.fds.get fd := by
  induction h with
  | nil => rfl
  | @snoc _ k'' r w _ _ hr hw ih =>
      have hr' : fd ≠ r := fun e => hfd (by rw [← ih, e, hr])
      have hw' : fd ≠ w := fun e => hfd (by rw [← ih, e, hw])
      exact ((Table.get_put_ne hw').trans (Table.get_put_ne hr')).trans ih

/-- The ends of the pipes were closed. -/
theorem closed (h : Piped k pipes k') (hfd : IsEnd pipes fd) : k.fds.get fd = none := by
  induction h with
  | nil => exact absurd hfd nofun
  | @snoc pipes k'' r w h _ hr hw ih =>
      obtain ⟨p, hp, he⟩ := hfd
      rcases List.mem_append.mp hp with hp | hp
      · exact ih ⟨p, hp, he⟩
      · cases List.mem_singleton.mp hp
        by_contra hopen
        have hget := h.get_open hopen
        rcases he with rfl | rfl
        · exact hopen (hget.symm.trans hr)
        · exact hopen (hget.symm.trans hw)

end Piped

theorem makePipes_loop {n : ℕ} {pipes : List (ℕ × ℕ)} {k : Kernel}
    {post : Option (List (ℕ × ℕ)) → Proc → Prop} (hpiped : Piped k pipes s.kernel)
    (hpipe : ∀ k', Φ (s.onKernel k') .pipe) (hfail : AllowsFailed Φ k.failures)
    (hnone : ∀ pipes' k', Piped k pipes' k' → post none (s.onKernel k'.fail))
    (hsome : ∀ pipes' k', Piped k pipes' k' → pipes'.length = pipes.length + n →
      post (some pipes') (s.onKernel k')) :
    (makePipes pipes n).Always (Step outcome) Φ post s := by
  induction n generalizing pipes s with
  | zero => exact hsome pipes s.kernel hpiped rfl
  | succ n ih =>
      refine pipe_rule (hpipe s.kernel) (fun e => eprintf_rule ?_ ?_) fun r w hne hr hw => ?_
      · have hlt : k.failures < s.kernel.fail.failures := by
          rw [← hpiped.failures]
          exact Nat.lt_succ_self _
        exact (hfail _ hlt).talk _ _ rfl rfl
      · exact hnone pipes s.kernel hpiped
      · refine ih (hpiped.snoc hne hr hw) hpipe hnone fun pipes' k' h hlen => hsome pipes' k' h ?_
        rw [hlen, List.length_append, List.length_singleton]
        omega

/-- The loop over `pipe`. -/
theorem makePipes_rule {n : ℕ} {post : Option (List (ℕ × ℕ)) → Proc → Prop}
    (hpipe : ∀ k', Φ (s.onKernel k') .pipe) (hfail : AllowsFailed Φ s.kernel.failures)
    (hnone : ∀ pipes k', Piped s.kernel pipes k' → post none (s.onKernel k'.fail))
    (hsome : ∀ pipes k', Piped s.kernel pipes k' → pipes.length = n →
      post (some pipes) (s.onKernel k')) :
    (makePipes [] n).Always (Step outcome) Φ post s :=
  makePipes_loop .nil hpipe hfail hnone fun pipes k' h hlen => hsome pipes k' h
    (hlen.trans (Nat.zero_add n))

theorem forked_forked (k : Kernel) (n : ℕ) : (k.forked 1).forked n = k.forked (n + 1) := by
  rw [Nat.add_comm n 1]
  exact congrArg (fun m => { k with forks := m }) (Nat.add_assoc _ 1 n)

/-- The loop over `fork`. -/
theorem forkSegments_rule {pipes : List (ℕ × ℕ)} {count i : ℕ} {interactive : Bool}
    {pids : List ℕ} {segs : List JobSegment} {post : Option (List ℕ) → Proc → Prop}
    (hfork : ∀ n, Φ (s.onKernel (s.kernel.forked n)) .fork)
    (hfail : AllowsFailed Φ s.kernel.failures)
    (hchild : ∀ n seg, segs[n]? = some seg →
      (pipelineChild pipes count (i + n) seg interactive).Always (Step outcome) Φ post
        (s.onKernel (s.kernel.forked n)).child)
    (hnone : ∀ n, n < segs.length → post none (s.onKernel (s.kernel.forked n).fail))
    (hsome : post (some (pids ++ List.range' s.kernel.forks segs.length))
      (s.onKernel (s.kernel.forked segs.length))) :
    (forkSegments pipes count interactive i pids segs).Always (Step outcome) Φ post s := by
  induction segs generalizing i pids s with
  | nil =>
      rw [List.length_nil, List.range'_zero, List.append_nil] at hsome
      exact hsome
  | cons seg segs ih =>
      have hnext := forked_forked s.kernel
      refine fork_rule (hfork 0) (fun e => eprintf_rule ?_ ?_) (hchild 0 seg rfl) ?_
      · exact (hfail _ (Nat.lt_succ_self _)).talk _ _ rfl rfl
      · exact hnone 0 (Nat.succ_pos _)
      · refine ih (fun n => ?_) hfail (fun n seg' hseg => ?_) (fun n hn => ?_) ?_
        · have := hfork (n + 1)
          rwa [← hnext] at this
        · have := hchild (n + 1) seg' hseg
          rw [← hnext] at this
          rwa [Nat.add_assoc, Nat.add_comm 1 n]
        · have := hnone (n + 1) (Nat.succ_lt_succ hn)
          rwa [← hnext] at this
        · rw [List.length_cons, List.range'_succ, ← hnext] at hsome
          rw [List.append_assoc]
          exact hsome

/-! ### Runs in which nothing fails -/

/-- The answers to one process by which no other comes into being, with the lowest descriptors. -/
abbrev Alone (outcome : List ℕ → Ending) : Proc → (c : Call) → c.Answer → Proc → Prop :=
  Processes.alone (LowStep outcome) spawning

/-- The program can be done, and leave the process with this. -/
abbrev Done (outcome : List ℕ → Ending) (p : SysM α) (a : α) (s : Proc) (k : Kernel) : Prop :=
  Reach (Alone outcome) p s (.ret a) (s.onKernel k)

theorem makePipes_done (outcome : List ℕ → Ending) (n : ℕ) (pipes : List (ℕ × ℕ)) (s : Proc) :
    ∃ pipes' k, Done outcome (makePipes pipes n) (some pipes') s k ∧
      k.ignored = s.kernel.ignored ∧ k.failures = s.kernel.failures := by
  induction n generalizing pipes s with
  | zero => exact ⟨pipes, s.kernel, .refl _ _, rfl, rfl⟩
  | succ n ih =>
      obtain ⟨r, w, hne, hw, hr, hlow⟩ := s.kernel.fds.exists_closed
      obtain ⟨pipes', k, hrun, hi, hf⟩ := ih (pipes ++ [(r, w)])
        (s.onKernel (s.kernel.addPipe r w))
      have hpipe : Alone outcome s .pipe (Except.ok (r, w))
          (s.onKernel (s.kernel.addPipe r w)) :=
        ⟨⟨⟨hne, hr.1, hw, rfl⟩, hr, hlow⟩, rfl, rfl⟩
      exact ⟨pipes', k, .head hpipe hrun, hi, hf⟩

theorem closePipes_done (outcome : List ℕ → Ending) (pipes : List (ℕ × ℕ)) (s : Proc) :
    Done outcome (closePipes pipes) () s (s.kernel.closeAll pipes) := by
  induction pipes generalizing s with
  | nil => exact .refl _ _
  | cons p pipes ih =>
      have h₁ : Alone outcome s (.close p.1) (() : Unit) (s.onKernel (s.kernel.put p.1 none)) :=
        ⟨⟨rfl, trivial⟩, rfl, rfl⟩
      have h₂ : Alone outcome (s.onKernel (s.kernel.put p.1 none)) (.close p.2) (() : Unit)
        (s.onKernel ((s.kernel.put p.1 none).put p.2 none)) := ⟨⟨rfl, trivial⟩, rfl, rfl⟩
      exact .head h₁ (.head h₂ (ih _))

theorem wireInput_done (outcome : List ℕ → Ending) (pipes : List (ℕ × ℕ)) (i : ℕ) (s : Proc) :
    Done outcome (wireInput pipes i) () s (wiredInput pipes i s.kernel) := by
  unfold wireInput wiredInput
  split
  · have h : Alone outcome s (.dup2 (pipeAt pipes (i - 1)).1 0) (() : Unit)
        (s.onKernel (s.kernel.dup (pipeAt pipes (i - 1)).1 0)) := ⟨⟨rfl, trivial⟩, rfl, rfl⟩
    exact .head h (.refl _ _)
  · exact .refl _ _

theorem wireOutput_done (outcome : List ℕ → Ending) (pipes : List (ℕ × ℕ)) (count i : ℕ)
    (s : Proc) :
    Done outcome (wireOutput pipes count i) () s (wiredOutput pipes count i s.kernel) := by
  unfold wireOutput wiredOutput
  split
  · have h : Alone outcome s (.dup2 (pipeAt pipes i).2 1) (() : Unit)
        (s.onKernel (s.kernel.dup (pipeAt pipes i).2 1)) := ⟨⟨rfl, trivial⟩, rfl, rfl⟩
    exact .head h (.refl _ _)
  · exact .refl _ _

theorem redirectOpt_done (outcome : List ℕ → Ending) (file : Option (Bytes × OpenMode))
    (target : ℕ) (s : Proc) :
    ∃ k, Done outcome (redirectOpt file target) () s k ∧ OnlyFds s.kernel k := by
  cases file with
  | none => exact ⟨s.kernel, .refl _ _, .refl _⟩
  | some f =>
      obtain ⟨fd, hfd⟩ := s.kernel.fds.exists_lowest
      have h₁ : Alone outcome s (.openFile f.1 f.2) (Except.ok fd)
        (s.onKernel (s.kernel.put fd (some (.file f.1 f.2)))) := ⟨⟨⟨hfd.1, rfl⟩, hfd⟩, rfl, rfl⟩
      have h₂ : Alone outcome (s.onKernel (s.kernel.put fd (some (.file f.1 f.2))))
        (.dup2 fd target) (() : Unit)
        (s.onKernel ((s.kernel.put fd (some (.file f.1 f.2))).dup fd target)) :=
        ⟨⟨rfl, trivial⟩, rfl, rfl⟩
      have h₃ : Alone outcome
        (s.onKernel ((s.kernel.put fd (some (.file f.1 f.2))).dup fd target)) (.close fd)
        (() : Unit)
        (s.onKernel (((s.kernel.put fd (some (.file f.1 f.2))).dup fd target).put fd none)) :=
        ⟨⟨rfl, trivial⟩, rfl, rfl⟩
      have hr : Redirected f.1 f.2 target s.kernel
        (((s.kernel.put fd (some (.file f.1 f.2))).dup fd target).put fd none) :=
        ⟨fd, hfd.1, rfl⟩
      exact ⟨_, .head h₁ (.head h₂ (.head h₃ (.refl _ _))), hr.onlyFds⟩

theorem openFiles_done (outcome : List ℕ → Ending) (first last interactive : Bool)
    (seg : JobSegment) (s : Proc) :
    ∃ k, Done outcome (openFiles first last interactive seg) () s k ∧ OnlyFds s.kernel k := by
  rw [openFiles, redirectNull_eq, redirectInput_eq, redirectOutput_eq]
  obtain ⟨k₁, h₁, hk₁⟩ := redirectOpt_done outcome (nullOf first interactive seg) 0 s
  obtain ⟨k₂, h₂, hk₂⟩ := redirectOpt_done outcome (inputOf first seg) 0 (s.onKernel k₁)
  obtain ⟨k₃, h₃, hk₃⟩ := redirectOpt_done outcome (outputOf last seg) 1 (s.onKernel k₂)
  exact ⟨k₃, h₁.seq (h₂.seq h₃), (hk₁.trans hk₂).trans hk₃⟩

theorem pipelineSetUp_done (outcome : List ℕ → Ending) (pipes : List (ℕ × ℕ)) (count i : ℕ)
    (seg : JobSegment) (interactive : Bool) (s : Proc) :
    ∃ k, Done outcome (pipelineSetUp pipes count i seg interactive) () s k ∧
      OnlyFds s.kernel k := by
  have hin := wireInput_done outcome pipes i s
  have hout := wireOutput_done outcome pipes count i (s.onKernel (wiredInput pipes i s.kernel))
  have hclose := closePipes_done outcome pipes
    (s.onKernel (wiredOutput pipes count i (wiredInput pipes i s.kernel)))
  obtain ⟨k, hfiles, hk⟩ := openFiles_done outcome (i = 0) (i = count - 1) interactive seg
    (s.onKernel (wired pipes count i s.kernel))
  exact ⟨k, hin.seq (hout.seq (hclose.seq hfiles)), wired_onlyFds.trans hk⟩

end CS214.Shell
