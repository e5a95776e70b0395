import CS214.Lib.Program
import CS214.Shell.Parse

/-!
# Shell — the functions of `exec.c`

The functions are programs that make system calls.  The program of `execute_job` is that of the
shell and, from the answer `child` to a `fork` on, that of a child.  An answer carries the text of
its error, which `perror` prints; the value of an uninitialised local is the answer to a call of
its own, as it may be anything.

* `executeJob_die`: `execute_job` returns -1 exactly for a job that is the single command `die`.
-/

open CString

namespace CS214.Shell

/-- The flags of an `open`: `O_RDONLY`, or `O_WRONLY | O_CREAT | O_TRUNC` with mode 0640. -/
inductive OpenMode where
  | readOnly
  | create
deriving DecidableEq

/-- What `fork` returns, in which process. -/
inductive Forked where
  | failed (error : Bytes)
  | child
  | parent (pid : ℕ)

/-- A call of the system or the library, a read of a variable that has no value yet, or a write
behind the end of an array. -/
inductive Call where
  | pipe
  | fork
  | dup2 (old new : ℕ)
  | close (fd : ℕ)
  | openFile (path : Bytes) (mode : OpenMode)
  | waitpid (pid : ℕ)
  | uninitialized
  | access (path : Bytes)
  | chdir (path : Bytes)
  | getcwd
  | execv (path : Bytes) (argv : List (Option Bytes))
  | exit (status : ℕ)
  | printf (text : Bytes)
  | fflush
  | eprintf (text : Bytes)
  | ignoreChildren
  | overflow

/-- The type of an answer.  `waitpid` stores a status or fails and stores nothing; `execv` returns
when it fails; the end of a process does not return, and nothing is said about what follows a write
behind the end of an array. -/
def Call.Answer : Call → Type
  | .pipe => Except Bytes (ℕ × ℕ)
  | .fork => Forked
  | .openFile _ _ => Except Bytes ℕ
  | .waitpid _ => Option UInt32
  | .uninitialized => UInt32
  | .access _ => Bool
  | .chdir _ => Except Bytes Unit
  | .getcwd => Except Bytes Bytes
  | .execv _ _ => Bytes
  | .exit _ | .overflow => Empty
  | .dup2 _ _ | .close _ | .printf _ | .fflush | .eprintf _ | .ignoreChildren => Unit

/-- The calls that set up a process: its children, its pipes and its descriptors. -/
def Call.setsUp : Call → Bool
  | .pipe | .fork | .dup2 _ _ | .close _ | .openFile _ _ | .ignoreChildren => true
  | _ => false

/-- A program that makes these calls. -/
abbrev SysM (α : Type) := Program Call Call.Answer α

/-! ### Calls -/

/-- A call, with its answer as the value. -/
def ask (c : Call) : SysM c.Answer := .perform c

/-- The two ends of a new pipe, or an error. -/
def pipe : SysM (Except Bytes (ℕ × ℕ)) := ask .pipe

/-- `fork`, which returns in both processes. -/
def fork : SysM Forked := ask .fork

/-- `dup2`, whose result nothing looks at. -/
def dup2 (old new : ℕ) : SysM Unit := ask (.dup2 old new)

/-- `close`, whose result nothing looks at. -/
def close (fd : ℕ) : SysM Unit := ask (.close fd)

/-- `open`: a descriptor, or an error. -/
def openFile (path : Bytes) (mode : OpenMode) : SysM (Except Bytes ℕ) :=
  ask (.openFile path mode)

/-- `waitpid` without options: the status it stores, if any. -/
def waitpid (pid : ℕ) : SysM (Option UInt32) := ask (.waitpid pid)

/-- What a variable holds before anything is stored in it. -/
def uninitialized : SysM UInt32 := ask .uninitialized

/-- `access(path, X_OK) == 0`. -/
def access (path : Bytes) : SysM Bool := ask (.access path)

/-- `chdir`. -/
def chdir (path : Bytes) : SysM (Except Bytes Unit) := ask (.chdir path)

/-- `getcwd`: the path, or an error. -/
def getcwd : SysM (Except Bytes Bytes) := ask .getcwd

/-- `execv`, which returns only an error. -/
def execv (path : Bytes) (argv : List (Option Bytes)) : SysM Bytes := ask (.execv path argv)

/-- `printf`, of a text. -/
def printf (text : Bytes) : SysM Unit := ask (.printf text)

/-- `fflush(stdout)`. -/
def fflush : SysM Unit := ask .fflush

/-- `fprintf(stderr, ..)`, of a text. -/
def eprintf (text : Bytes) : SysM Unit := ask (.eprintf text)

/-- `signal(SIGCHLD, SIG_IGN)`. -/
def ignoreChildren : SysM Unit := ask .ignoreChildren

/-- A write behind the end of an array: nothing is said about what follows. -/
def overflow {α : Type} : SysM α := .call .overflow fun x : Empty => nomatch x

/-- `exit` flushes the streams and ends the process. -/
def exit {α : Type} (status : ℕ) : SysM α := do
  fflush
  .call (.exit status) fun x : Empty => nomatch x

/-- `perror(what)`, for this error. -/
def perror (what error : Bytes) : SysM Unit :=
  eprintf (what ++ ascii ": " ++ error ++ ascii "\n")

/-! ### Built-ins -/

/-- `argv[i]`. -/
def arg (argv : List (Option Bytes)) (i : ℕ) : Bytes := (argv.getD i none).getD []

/-- `is_builtin`. -/
def isBuiltin (cmd : Bytes) : Bool :=
  cmd = ascii "cd" || cmd = ascii "pwd" || cmd = ascii "which" || cmd = ascii "exit" ||
    cmd = ascii "die"

/-- The directories `find_program` looks in. -/
def searchPaths : List Bytes := [ascii "/usr/local/bin", ascii "/usr/bin", ascii "/bin"]

/-- The loop over the directories. -/
def searchProgram (name : Bytes) : List Bytes → SysM (Option Bytes)
  | [] => return none
  | path :: paths => do
    if ← access (path ++ ascii "/" ++ name) then return some (path ++ ascii "/" ++ name)
    else searchProgram name paths

/-- `find_program`: a name with a slash is a path, another one is looked up in the directories. -/
def findProgram (name : Bytes) : SysM (Option Bytes) :=
  if 47 ∈ name then do
    if ← access name then return some name else return none
  else searchProgram name searchPaths

/-- The loop of `die` over its arguments. -/
def printArgs (argv : List (Option Bytes)) (i : ℕ) : ℕ → SysM Unit
  | 0 => return ()
  | n + 1 =>
    if 1 < i then do
      printf (ascii " ")
      printf (arg argv i)
      printArgs argv (i + 1) n
    else do
      printf (arg argv i)
      printArgs argv (i + 1) n

/-- `execute_cd`. -/
def executeCd (argv : List (Option Bytes)) (argc : ℕ) : SysM ℤ :=
  if argc ≠ 2 then do
    eprintf (ascii "cd: wrong number of arguments\n")
    return 1
  else do
    match ← chdir (arg argv 1) with
    | .error e =>
      perror (ascii "cd") e
      return 1
    | .ok _ => return 0

/-- `execute_pwd`. -/
def executePwd (argc : ℕ) : SysM ℤ :=
  if argc ≠ 1 then do
    eprintf (ascii "pwd: wrong number of arguments\n")
    return 1
  else do
    match ← getcwd with
    | .error e =>
      perror (ascii "getcwd") e
      return 1
    | .ok cwd =>
      printf (cwd ++ ascii "\n")
      return 0

/-- `execute_which`. -/
def executeWhich (argv : List (Option Bytes)) (argc : ℕ) : SysM ℤ :=
  if argc ≠ 2 then do
    eprintf (ascii "which: wrong number of arguments\n")
    return 1
  else if isBuiltin (arg argv 1) then return 1
  else do
    match ← findProgram (arg argv 1) with
    | none => return 1
    | some path =>
      printf (path ++ ascii "\n")
      return 0

/-- `execute_die`: the arguments are printed, and the loop is told to end. -/
def executeDie (argv : List (Option Bytes)) (argc : ℕ) : SysM ℤ := do
  printArgs argv 1 (argc - 1)
  if 1 < argc then do
    printf (ascii "\n")
    return -1
  else return -1

/-- `execute_builtin`. -/
def executeBuiltin (cmd : Bytes) (argv : List (Option Bytes)) (argc : ℕ) : SysM ℤ :=
  if cmd = ascii "cd" then executeCd argv argc
  else if cmd = ascii "pwd" then executePwd argc
  else if cmd = ascii "which" then executeWhich argv argc
  else if cmd = ascii "exit" then return 0
  else if cmd = ascii "die" then executeDie argv argc
  else return 1

/-! ### A child -/

/-- Opening a file and putting it in the place of a descriptor. -/
def redirect (path : Bytes) (mode : OpenMode) (target : ℕ) : SysM Unit := do
  match ← openFile path mode with
  | .error e =>
    perror path e
    exit 1
  | .ok fd =>
    dup2 fd target
    close fd

/-- `if (first && !is_interactive && seg->input_file == NULL)` and what follows it. -/
def redirectNull (first interactive : Bool) (seg : JobSegment) : SysM Unit :=
  if first && !interactive && seg.inputFile.isNone then redirect (ascii "/dev/null") .readOnly 0
  else return ()

/-- `if (first && seg->input_file != NULL)` and what follows it. -/
def redirectInput (first : Bool) (seg : JobSegment) : SysM Unit :=
  match first, seg.inputFile with
  | true, some path => redirect path .readOnly 0
  | _, _ => return ()

/-- `if (last && seg->output_file != NULL)` and what follows it. -/
def redirectOutput (last : Bool) (seg : JobSegment) : SysM Unit :=
  match last, seg.outputFile with
  | true, some path => redirect path .create 1
  | _, _ => return ()

/-- `find_program` and `execv`, and the exits behind them. -/
def runProgram {α : Type} (seg : JobSegment) : SysM α := do
  match ← findProgram (arg seg.argv 0) with
  | none =>
    eprintf (arg seg.argv 0 ++ ascii ": command not found\n")
    exit 1
  | some path =>
    let e ← execv path seg.argv
    perror (ascii "execv") e
    exit 1

/-- The child of a single command. -/
def singleChild {α : Type} (seg : JobSegment) (interactive : Bool) : SysM α := do
  redirectNull true interactive seg
  redirectInput true seg
  redirectOutput true seg
  runProgram seg

/-- `pipes[i]`. -/
def pipeAt (pipes : List (ℕ × ℕ)) (i : ℕ) : ℕ × ℕ := pipes.getD i (0, 0)

/-- `if (i > 0) dup2(pipes[i-1][0], STDIN_FILENO)`. -/
def wireInput (pipes : List (ℕ × ℕ)) (i : ℕ) : SysM Unit :=
  if 0 < i then dup2 (pipeAt pipes (i - 1)).1 0 else return ()

/-- `if (i < job->segment_count - 1) dup2(pipes[i][1], STDOUT_FILENO)`. -/
def wireOutput (pipes : List (ℕ × ℕ)) (count i : ℕ) : SysM Unit :=
  if i < count - 1 then dup2 (pipeAt pipes i).2 1 else return ()

/-- The loop that closes both ends of every pipe. -/
def closePipes : List (ℕ × ℕ) → SysM Unit
  | [] => return ()
  | p :: pipes => do
    close p.1
    close p.2
    closePipes pipes

/-- What the child of a pipeline does once its descriptors are set up. -/
def runSegment {α : Type} (seg : JobSegment) : SysM α :=
  if isBuiltin (arg seg.argv 0) then do
    let result ← executeBuiltin (arg seg.argv 0) seg.argv seg.argc
    if result = -1 then exit 1
    else if result = 0 then exit 0
    else exit 1
  else runProgram seg

/-- The child of segment `i` of a pipeline. -/
def pipelineChild {α : Type} (pipes : List (ℕ × ℕ)) (count i : ℕ) (seg : JobSegment)
    (interactive : Bool) : SysM α := do
  wireInput pipes i
  wireOutput pipes count i
  closePipes pipes
  redirectNull (i = 0) interactive seg
  redirectInput (i = 0) seg
  redirectOutput (i = count - 1) seg
  runSegment seg

/-! ### `execute_job` -/

/-- What `execute_job` returns, and `*new_exit_status`. -/
structure JobResult where
  ret : ℤ
  status : ℤ
deriving DecidableEq

/-- `WIFEXITED(status)`. -/
def wifexited (status : UInt32) : Bool := status &&& 0x7f == 0

/-- `WEXITSTATUS(status)`. -/
def wexitstatus (status : UInt32) : ℤ := ((status >>> 8) &&& 0xff).toNat

/-- The status a wait status stands for. -/
def exitCode (status : UInt32) : ℤ := if wifexited status then wexitstatus status else 1

/-- `int status; waitpid(pid, &status, 0);` -/
def waitFor (pid : ℕ) : SysM UInt32 := do
  let status ← uninitialized
  return (← waitpid pid).getD status

/-- A job of one segment. -/
def executeSingle (seg : JobSegment) (interactive : Bool) : SysM JobResult :=
  if isBuiltin (arg seg.argv 0) then do
    let result ← executeBuiltin (arg seg.argv 0) seg.argv seg.argc
    if result = -1 then return ⟨-1, 1⟩
    else return ⟨0, if result = 0 then 0 else 1⟩
  else do
    match ← fork with
    | .failed e =>
      perror (ascii "fork") e
      return ⟨0, 1⟩
    | .child => singleChild seg interactive
    | .parent pid =>
      let status ← waitFor pid
      return ⟨0, exitCode status⟩

/-- The loop over `pipe`; `none` when a call fails. -/
def makePipes (pipes : List (ℕ × ℕ)) : ℕ → SysM (Option (List (ℕ × ℕ)))
  | 0 => return some pipes
  | n + 1 => do
    match ← pipe with
    | .error e =>
      perror (ascii "pipe") e
      return none
    | .ok p => makePipes (pipes ++ [p]) n

/-- The loop over `fork`; `none` when a call fails. -/
def forkSegments (pipes : List (ℕ × ℕ)) (count : ℕ) (interactive : Bool) (i : ℕ)
    (pids : List ℕ) : List JobSegment → SysM (Option (List ℕ))
  | [] => return some pids
  | seg :: segs => do
    match ← fork with
    | .failed e =>
      perror (ascii "fork") e
      return none
    | .child => pipelineChild pipes count i seg interactive
    | .parent pid => forkSegments pipes count interactive (i + 1) (pids ++ [pid]) segs

/-- The loop over `waitpid`. -/
def waitLoop (count i : ℕ) (finalStatus : ℤ) : List ℕ → SysM ℤ
  | [] => return finalStatus
  | pid :: pids => do
    let status ← waitFor pid
    waitLoop count (i + 1) (if i = count - 1 then exitCode status else finalStatus) pids

/-- A job of several segments. -/
def executePipeline (segs : List JobSegment) (interactive : Bool) : SysM JobResult := do
  match ← makePipes [] (segs.length - 1) with
  | none => return ⟨0, 1⟩
  | some pipes =>
    match ← forkSegments pipes segs.length interactive 0 [] segs with
    | none => return ⟨0, 1⟩
    | some pids =>
      closePipes pipes
      let finalStatus ← waitLoop segs.length 0 1 pids
      return ⟨0, finalStatus⟩

/-- `execute_job`: nothing, a single command, or a pipeline. -/
def executeJob (job : Job) (interactive : Bool) : SysM JobResult :=
  match job.segments with
  | [] => return ⟨0, 1⟩
  | [seg] => executeSingle seg interactive
  | segs => executePipeline segs interactive

/-! ### The special return code -/

section

variable {σ : Type} {env : σ → (c : Call) → c.Answer → σ → Prop} {s : σ}

/-- A program whatever its calls do. -/
abbrev Yields {α : Type} (env : σ → (c : Call) → c.Answer → σ → Prop) (p : SysM α) (s : σ)
    (post : α → Prop) : Prop :=
  p.Always env (fun _ _ => True) (fun a _ => post a) s

/-- A sequence yields what its second program yields. -/
theorem yields_bind {α β : Type} {p : SysM α} {f : α → SysM β} {post : β → Prop}
    (h : ∀ a s, Yields env (f a) s post) : Yields env (p >>= f) s post := by
  induction p generalizing s with
  | ret a => exact h a s
  | call c k ih => exact ⟨trivial, fun x s' _ => ih x⟩

theorem zero_ne_die : (0 : ℤ) ≠ -1 := by decide

theorem one_ne_die : (1 : ℤ) ≠ -1 := by decide

theorem executeCd_ne {argv : List (Option Bytes)} {argc : ℕ} :
    Yields env (executeCd argv argc) s (· ≠ -1) := by
  unfold executeCd
  split
  · exact yields_bind fun _ _ => one_ne_die
  · refine yields_bind fun r _ => ?_
    cases r with
    | error e => exact yields_bind fun _ _ => one_ne_die
    | ok u => exact zero_ne_die

theorem executePwd_ne {argc : ℕ} : Yields env (executePwd argc) s (· ≠ -1) := by
  unfold executePwd
  split
  · exact yields_bind fun _ _ => one_ne_die
  · refine yields_bind fun r _ => ?_
    cases r with
    | error e => exact yields_bind fun _ _ => one_ne_die
    | ok cwd => exact yields_bind fun _ _ => zero_ne_die

theorem executeWhich_ne {argv : List (Option Bytes)} {argc : ℕ} :
    Yields env (executeWhich argv argc) s (· ≠ -1) := by
  unfold executeWhich
  split
  · exact yields_bind fun _ _ => one_ne_die
  · split
    · exact one_ne_die
    · refine yields_bind fun r _ => ?_
      cases r with
      | none => exact one_ne_die
      | some path => exact yields_bind fun _ _ => zero_ne_die

theorem executeDie_eq {argv : List (Option Bytes)} {argc : ℕ} :
    Yields env (executeDie argv argc) s (· = -1) := by
  unfold executeDie
  refine yields_bind fun _ _ => ?_
  split
  · exact yields_bind fun _ _ => rfl
  · exact rfl

/-- Only `die` has the special return code. -/
theorem executeBuiltin_die {cmd : Bytes} {argv : List (Option Bytes)} {argc : ℕ} :
    Yields env (executeBuiltin cmd argv argc) s fun r => r = -1 ↔ cmd = ascii "die" := by
  have other : ∀ {r : ℤ}, r ≠ -1 → cmd ≠ ascii "die" → (r = -1 ↔ cmd = ascii "die") :=
    fun h₁ h₂ => iff_of_false h₁ h₂
  unfold executeBuiltin
  split
  · next h => exact executeCd_ne.imp fun r _ hr => other hr (h ▸ by decide)
  · split
    · next h => exact executePwd_ne.imp fun r _ hr => other hr (h ▸ by decide)
    · split
      · next h =>
          exact executeWhich_ne.imp fun r _ hr => other hr (h ▸ by decide)
      · split
        · next h => exact other (by decide) (h ▸ by decide)
        · split
          · next h => exact executeDie_eq.imp fun r _ hr => iff_of_true hr h
          · next h => exact other (by decide) h

theorem exit_yields {α : Type} {n : ℕ} {post : α → Prop} : Yields env (exit n) s post :=
  yields_bind fun _ _ => ⟨trivial, fun x => nomatch x⟩

theorem runProgram_yields {α : Type} {seg : JobSegment} {post : α → Prop} :
    Yields env (runProgram seg) s post := by
  refine yields_bind fun r _ => ?_
  cases r with
  | none => exact yields_bind fun _ _ => exit_yields
  | some path => exact yields_bind fun _ _ => yields_bind fun _ _ => exit_yields

/-- A child does not return. -/
theorem singleChild_yields {α : Type} {seg : JobSegment} {interactive : Bool} {post : α → Prop} :
    Yields env (singleChild seg interactive) s post :=
  yields_bind fun _ _ => yields_bind fun _ _ => yields_bind fun _ _ => runProgram_yields

theorem runSegment_yields {α : Type} {seg : JobSegment} {post : α → Prop} :
    Yields env (runSegment seg) s post := by
  unfold runSegment
  split
  · refine yields_bind fun r _ => ?_
    split
    · exact exit_yields
    · split <;> exact exit_yields
  · exact runProgram_yields

theorem pipelineChild_yields {α : Type} {pipes : List (ℕ × ℕ)} {count i : ℕ} {seg : JobSegment}
    {interactive : Bool} {post : α → Prop} :
    Yields env (pipelineChild pipes count i seg interactive) s post :=
  yields_bind fun _ _ => yields_bind fun _ _ => yields_bind fun _ _ => yields_bind fun _ _ =>
    yields_bind fun _ _ => yields_bind fun _ _ => runSegment_yields

/-- The job is the single command `die`. -/
def IsDie (job : Job) : Prop := ∃ seg, job.segments = [seg] ∧ arg seg.argv 0 = ascii "die"

theorem executeSingle_die {seg : JobSegment} {interactive : Bool} :
    Yields env (executeSingle seg interactive) s fun r =>
      r.ret = -1 ↔ arg seg.argv 0 = ascii "die" := by
  unfold executeSingle
  split
  · refine executeBuiltin_die.bind fun r s hr => ?_
    split
    · next h => exact iff_of_true rfl (hr.mp h)
    · next h => exact iff_of_false zero_ne_die fun hd => h (hr.mpr hd)
  · next hb =>
      have hne : arg seg.argv 0 ≠ ascii "die" := fun h => hb (by rw [h]; decide)
      refine yields_bind fun r _ => ?_
      cases r with
      | failed e => exact yields_bind fun _ _ => iff_of_false zero_ne_die hne
      | child => exact singleChild_yields
      | parent pid => exact yields_bind fun _ _ => iff_of_false zero_ne_die hne

theorem executePipeline_ret {segs : List JobSegment} {interactive : Bool} :
    Yields env (executePipeline segs interactive) s (·.ret = 0) := by
  refine yields_bind fun pipes _ => ?_
  cases pipes with
  | none => exact rfl
  | some pipes =>
      refine yields_bind fun pids _ => ?_
      cases pids with
      | none => exact rfl
      | some pids => exact yields_bind fun _ _ => yields_bind fun _ _ => rfl

/-- **The special return code of a job**: -1 exactly for the single command `die`, whatever the
system calls answer. -/
theorem executeJob_die (job : Job) (interactive : Bool) :
    Yields env (executeJob job interactive) s fun r => r.ret = -1 ↔ IsDie job := by
  obtain ⟨segs⟩ := job
  match segs with
  | [] =>
      refine iff_of_false zero_ne_die ?_
      rintro ⟨seg, h, -⟩
      cases h
  | [seg] =>
      refine executeSingle_die.imp fun r _ hr => hr.trans ?_
      refine ⟨fun h => ⟨seg, rfl, h⟩, ?_⟩
      rintro ⟨seg', h, hd⟩
      cases h
      exact hd
  | seg :: seg' :: segs =>
      refine executePipeline_ret.imp fun r _ hr => iff_of_false ?_ ?_
      · rw [hr]
        exact zero_ne_die
      · rintro ⟨seg'', h, -⟩
        cases h

end

end CS214.Shell
