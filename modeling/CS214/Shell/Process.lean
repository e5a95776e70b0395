import Mathlib.Data.Nat.Find
import Mathlib.Logic.Function.Basic
import CS214.Shell.Exec

/-!
# Shell — what the calls do to a process

A process has the part that the kernel keeps for it and the buffer of its standard output.  The
children of a process are numbered as they are forked, and so are the pipes of a shell, which are
made before a job's children are; a name is the path of these numbers.  `Proc.Step outcome` is the
answer to a call, where `outcome` says how each process ends.

* `Proc.Step.kernel`: only the calls that set up a process change what the kernel keeps.
* `Proc.Step.setUp`, `Proc.Step.output`: what a call can make of the kernel's part and of the
  output.
* `Proc.fair`: a `fork` that succeeds starts a child.

`Proc.Step` lets `open` and `pipe` give any closed descriptors; in `Proc.LowStep` they give the
lowest ones.
-/

open CString

namespace CS214.Shell

/-! ### Descriptors -/

/-- What a descriptor stands for: what the shell was started with, a file that was opened, or an
end of a pipe. -/
inductive Desc where
  | inherited (n : ℕ)
  | file (path : Bytes) (mode : OpenMode)
  | readEnd (pipe : ℕ)
  | writeEnd (pipe : ℕ)
deriving DecidableEq

/-- The open descriptors of a process, of which there are only so many. -/
@[ext]
structure Table where
  get : ℕ → Option Desc
  bounded : ∃ n, ∀ fd, n ≤ fd → get fd = none

namespace Table

variable {t : Table} {fd fd' : ℕ} {d : Option Desc}

/-- A descriptor stands for something else, or is closed. -/
def put (t : Table) (fd : ℕ) (d : Option Desc) : Table where
  get := Function.update t.get fd d
  bounded := by
    obtain ⟨n, hn⟩ := t.bounded
    refine ⟨max n (fd + 1), fun fd' h => ?_⟩
    obtain ⟨h₁, h₂⟩ := Nat.max_le.mp h
    rw [Function.update_of_ne (Nat.ne_of_gt h₂)]
    exact hn fd' h₁

theorem get_put : (t.put fd d).get fd' = if fd' = fd then d else t.get fd' :=
  Function.update_apply t.get fd d fd'

@[simp] theorem get_put_self : (t.put fd d).get fd = d := Function.update_self _ _ _

theorem get_put_ne (h : fd' ≠ fd) : (t.put fd d).get fd' = t.get fd' := Function.update_of_ne h _ _

/-- The standard descriptors. -/
def standard : Table where
  get fd := if fd < 3 then some (.inherited fd) else none
  bounded := ⟨3, fun _ h => if_neg (Nat.not_lt.mpr h)⟩

/-- The descriptor is the lowest one that is closed. -/
def IsLowest (t : Table) (fd : ℕ) : Prop := t.get fd = none ∧ ∀ fd' < fd, t.get fd' ≠ none

theorem isLowest_zero : t.IsLowest 0 ↔ t.get 0 = none :=
  and_iff_left fun _ h => absurd h (Nat.not_lt_zero _)

theorem isLowest_one : t.IsLowest 1 ↔ t.get 1 = none ∧ t.get 0 ≠ none := by
  refine and_congr_right fun _ => ⟨fun h => h 0 Nat.one_pos, fun h fd hfd => ?_⟩
  rwa [Nat.lt_one_iff.mp hfd]

/-- There is one lowest descriptor only. -/
theorem IsLowest.eq {t : Table} {fd fd' : ℕ} (h : t.IsLowest fd) (h' : t.IsLowest fd') :
    fd = fd' := by
  rcases Nat.lt_trichotomy fd fd' with hlt | he | hlt
  · exact absurd h.1 (h'.2 fd hlt)
  · exact he
  · exact absurd h'.1 (h.2 fd' hlt)

theorem exists_lowest (t : Table) : ∃ fd, t.IsLowest fd := by
  classical
  have hex : ∃ fd, t.get fd = none := t.bounded.imp fun n hn => hn n (Nat.le_refl n)
  exact ⟨Nat.find hex, Nat.find_spec hex, fun _ => Nat.find_min hex⟩

/-- The two lowest descriptors that are closed. -/
theorem exists_closed (t : Table) : ∃ r w, r ≠ w ∧ t.get w = none ∧ t.IsLowest r ∧
    ∀ fd < w, fd = r ∨ t.get fd ≠ none := by
  obtain ⟨r, hr⟩ := t.exists_lowest
  obtain ⟨w, hw, hlow⟩ := (t.put r (some (.inherited 0))).exists_lowest
  have hne : w ≠ r := by
    rintro rfl
    rw [get_put_self] at hw
    cases hw
  refine ⟨r, w, hne.symm, (get_put_ne hne).symm.trans hw, hr, fun fd hfd => ?_⟩
  by_cases he : fd = r
  · exact .inl he
  · have hopen := hlow fd hfd
    rw [get_put_ne he] at hopen
    exact .inr hopen

end Table

/-! ### Processes -/

/-- How a process ends: with an exit code, or by a signal. -/
inductive Ending where
  | exited (code : Fin 256)
  | signaled (signal : Fin 126) (core : Bool)

/-- The status that `waitpid` stores. -/
def Ending.word : Ending → UInt32
  | .exited code => UInt32.ofNat (code.val * 256)
  | .signaled signal core => UInt32.ofNat (signal.val + 1 + if core then 128 else 0)

/-- What the kernel keeps: which process it is, how many children it forked and pipes it made, its
descriptors, whether `SIGCHLD` is ignored, and how many calls to set it up have failed. -/
structure Kernel where
  name : List ℕ
  forks : ℕ
  pipes : ℕ
  fds : Table
  ignored : Bool
  failures : ℕ

/-- A byte of output, and the process that printed it. -/
structure Printed where
  origin : List ℕ
  byte : UInt8
deriving DecidableEq

/-- The standard output: the buffer as it was when the process was forked and as it is, what the
process printed, and what it wrote, with what descriptor 1 stood for. -/
structure Stdout where
  inherited : List Printed
  pending : List Printed
  printed : Bytes
  wrote : List (Option Desc × Printed)

/-- A process: what the kernel keeps of it, and its standard output. -/
structure Proc where
  kernel : Kernel
  stdout : Stdout

namespace Kernel

/-- A call to set the process up has failed. -/
def fail (k : Kernel) : Kernel := { k with failures := k.failures + 1 }

/-- The descriptor stands for something else, or is closed. -/
def put (k : Kernel) (fd : ℕ) (d : Option Desc) : Kernel := { k with fds := k.fds.put fd d }

/-- `r` and `w` become the ends of a new pipe. -/
def addPipe (k : Kernel) (r w : ℕ) : Kernel :=
  { k with
    pipes := k.pipes + 1
    fds := (k.fds.put r (some (.readEnd k.pipes))).put w (some (.writeEnd k.pipes)) }

/-- A descriptor that is not open leaves the other one as it is. -/
def dup (k : Kernel) (old new : ℕ) : Kernel :=
  match k.fds.get old with
  | none => k
  | some d => k.put new (some d)

/-- What the loop that closes the pipes leaves. -/
def closeAll (k : Kernel) : List (ℕ × ℕ) → Kernel
  | [] => k
  | p :: pipes => ((k.put p.1 none).put p.2 none).closeAll pipes

/-- `SIGCHLD` is ignored. -/
def ignore (k : Kernel) : Kernel := { k with ignored := true }

/-- The shell behind `n` calls of `fork`. -/
def forked (k : Kernel) (n : ℕ) : Kernel := { k with forks := k.forks + n }

/-- The next child: a process of its own with the same descriptors. -/
def child (k : Kernel) : Kernel := { k with name := k.name ++ [k.forks], forks := 0 }

end Kernel

namespace Proc

/-- The kernel keeps something else. -/
def onKernel (s : Proc) (k : Kernel) : Proc := { s with kernel := k }

/-- The child has a copy of the buffer and has printed nothing. -/
def child (s : Proc) : Proc := ⟨s.kernel.child, ⟨s.stdout.pending, s.stdout.pending, [], []⟩⟩

/-- The buffer takes the text, and the first `n` bytes of it are written. -/
def print (s : Proc) (text : Bytes) (n : ℕ) : Proc :=
  let pending := s.stdout.pending ++ text.map fun b => ⟨s.kernel.name, b⟩
  { s with stdout := { s.stdout with
      pending := pending.drop n
      printed := s.stdout.printed ++ text
      wrote := s.stdout.wrote ++ (pending.take n).map fun b => (s.kernel.fds.get 1, b) } }

/-- The whole buffer is written. -/
def flush (s : Proc) : Proc :=
  { s with stdout := { s.stdout with
      pending := []
      wrote := s.stdout.wrote ++ s.stdout.pending.map fun b => (s.kernel.fds.get 1, b) } }

/-- Two closed descriptors, whichever they are, become the ends of a new pipe. -/
def pipeStep (s : Proc) : Except Bytes (ℕ × ℕ) → Proc → Prop
  | .error _, s' => s' = s.onKernel s.kernel.fail
  | .ok (r, w), s' =>
    r ≠ w ∧ s.kernel.fds.get r = none ∧ s.kernel.fds.get w = none ∧
      s' = s.onKernel (s.kernel.addPipe r w)

/-- `fork` fails, or returns in the child or in the parent, which counts its children. -/
def forkStep (s : Proc) : Forked → Proc → Prop
  | .failed _, s' => s' = s.onKernel s.kernel.fail
  | .child, s' => s' = s.child
  | .parent pid, s' => pid = s.kernel.forks ∧ s' = s.onKernel (s.kernel.forked 1)

/-- `open` fails, or any closed descriptor stands for the file. -/
def openStep (s : Proc) (path : Bytes) (mode : OpenMode) : Except Bytes ℕ → Proc → Prop
  | .error _, s' => s' = s.onKernel s.kernel.fail
  | .ok fd, s' =>
    s.kernel.fds.get fd = none ∧ s' = s.onKernel (s.kernel.put fd (some (.file path mode)))

/-- Where `SIGCHLD` is ignored, `waitpid` waits for the children and fails. -/
def waitAnswer (outcome : List ℕ → Ending) (s : Proc) (pid : ℕ) : Option UInt32 :=
  if s.kernel.ignored then none else some (outcome (s.kernel.name ++ [pid])).word

/-- The answers to a call.  The stream is buffered in full: a `printf` may write any front of the
buffer.  What lies outside the process may answer anything. -/
def Step (outcome : List ℕ → Ending) (s : Proc) (c : Call) (x : c.Answer) (s' : Proc) : Prop :=
  match c, x with
  | .pipe, x => s.pipeStep x s'
  | .fork, x => s.forkStep x s'
  | .dup2 old new, _ => s' = s.onKernel (s.kernel.dup old new)
  | .close fd, _ => s' = s.onKernel (s.kernel.put fd none)
  | .openFile path mode, x => s.openStep path mode x s'
  | .waitpid pid, x => x = waitAnswer outcome s pid ∧ s' = s
  | .printf text, _ => ∃ n, s' = s.print text n
  | .fflush, _ => s' = s.flush
  | .ignoreChildren, _ => s' = s.onKernel s.kernel.ignore
  | .uninitialized, _ | .access _, _ | .chdir _, _ | .getcwd, _ | .execv _ _, _ | .eprintf _, _ =>
    s' = s

/-- The descriptors that `open` and `pipe` give are the lowest ones that are closed. -/
def GivesLowest (s : Proc) (c : Call) (x : c.Answer) : Prop :=
  match c, x with
  | .pipe, .ok (r, w) =>
    s.kernel.fds.IsLowest r ∧ ∀ fd < w, fd = r ∨ s.kernel.fds.get fd ≠ none
  | .openFile _ _, .ok fd => s.kernel.fds.IsLowest fd
  | _, _ => True

/-- The answers of a kernel that gives the lowest descriptors. -/
def LowStep (outcome : List ℕ → Ending) (s : Proc) (c : Call) (x : c.Answer) (s' : Proc) : Prop :=
  Step outcome s c x s' ∧ GivesLowest s c x

/-- A process that has the standard descriptors and has not done anything. -/
def start : Proc := ⟨⟨[], 0, 0, .standard, false, 0⟩, ⟨[], [], [], []⟩⟩

/-- A `fork` that succeeds is answered twice. -/
def spawning : Spawning Call Call.Answer where
  twin
    | .fork, .parent _ => some .child
    | _, _ => none
  born
    | .fork, .child => true
    | _, _ => false

end Proc

/-! ### What the calls change -/

/-- Nothing but the descriptors has changed. -/
def OnlyFds (k k' : Kernel) : Prop := k' = { k with fds := k'.fds }

namespace OnlyFds

variable {k k' k'' : Kernel}

theorem refl (k : Kernel) : OnlyFds k k := rfl

theorem trans (h : OnlyFds k k') (h' : OnlyFds k' k'') : OnlyFds k k'' := by
  rw [OnlyFds, h', h]

theorem name (h : OnlyFds k k') : k'.name = k.name := by rw [h]

theorem forks (h : OnlyFds k k') : k'.forks = k.forks := by rw [h]

theorem ignored (h : OnlyFds k k') : k'.ignored = k.ignored := by rw [h]

theorem failures (h : OnlyFds k k') : k'.failures = k.failures := by rw [h]

end OnlyFds

theorem dup_onlyFds {k : Kernel} {old new : ℕ} : OnlyFds k (k.dup old new) := by
  unfold Kernel.dup
  split <;> rfl

namespace Kernel

/-- What a call that sets up a process can make of what the kernel keeps for it. -/
inductive SetUp (k : Kernel) : Call → Kernel → Prop where
  | failed {c : Call} : SetUp k c k.fail
  | pipe {r w : ℕ} (hne : r ≠ w) (hr : k.fds.get r = none) (hw : k.fds.get w = none) :
      SetUp k .pipe (k.addPipe r w)
  | fork : SetUp k .fork (k.forked 1)
  | dup2 {old new : ℕ} : SetUp k (.dup2 old new) (k.dup old new)
  | close {fd : ℕ} : SetUp k (.close fd) (k.put fd none)
  | openFile {path : Bytes} {mode : OpenMode} {fd : ℕ} (hfd : k.fds.get fd = none) :
      SetUp k (.openFile path mode) (k.put fd (some (.file path mode)))
  | ignoreChildren : SetUp k .ignoreChildren k.ignore

variable {k k' : Kernel} {c : Call}

theorem SetUp.name (h : k.SetUp c k') : k'.name = k.name := by
  cases h with
  | dup2 => exact dup_onlyFds.name
  | _ => rfl

theorem SetUp.forks (h : k.SetUp c k') (hc : c ≠ .fork) : k'.forks = k.forks := by
  cases h with
  | dup2 => exact dup_onlyFds.forks
  | fork => exact absurd rfl hc
  | _ => rfl

end Kernel

namespace Proc

section

variable {outcome : List ℕ → Ending} {s s' : Proc} {c : Call} {x : c.Answer}

theorem fair : Processes.Fair (Step outcome) spawning where
  starts s c x y s' _ hy := by
    cases c with
    | fork =>
        cases x with
        | parent pid =>
            cases hy
            exact ⟨s.child, rfl⟩
        | _ => cases hy
    | _ => cases hy
  parent s c y s'' hy hb := by
    cases c with
    | fork =>
        cases y with
        | child =>
            exact ⟨.parent s.kernel.forks, s.onKernel (s.kernel.forked 1), ⟨rfl, rfl⟩, rfl, rfl⟩
        | _ => cases hb
    | _ => cases hb

/-- The other calls leave what the kernel keeps as it is. -/
theorem Step.kernel (h : Step outcome s c x s') (hc : c.setsUp = false) :
    s'.kernel = s.kernel := by
  cases c with
  | waitpid pid => exact congrArg _ h.2
  | printf text =>
      obtain ⟨n, rfl⟩ := h
      rfl
  | fflush =>
      cases h
      rfl
  | uninitialized => exact congrArg _ h
  | access path => exact congrArg _ h
  | chdir path => exact congrArg _ h
  | getcwd => exact congrArg _ h
  | execv path argv => exact congrArg _ h
  | eprintf text => exact congrArg _ h
  | exit n => exact nomatch x
  | overflow => exact nomatch x
  | _ => cases hc

/-- A child that starts. -/
theorem Step.born (h : Step outcome s c x s') (hborn : spawning.born c x = true) :
    s' = s.child := by
  cases c with
  | fork =>
      cases x with
      | child => exact h
      | _ => cases hborn
  | _ => cases hborn

/-- What a call that sets up a process makes of it, unless it is a child that starts. -/
theorem Step.setUp (h : Step outcome s c x s') (hc : c.setsUp = true)
    (hborn : spawning.born c x = false) : ∃ k, s' = s.onKernel k ∧ s.kernel.SetUp c k := by
  cases c with
  | pipe =>
      cases x with
      | error e => exact ⟨_, h, .failed⟩
      | ok p =>
          obtain ⟨hne, hr, hw, rfl⟩ := h
          exact ⟨_, rfl, .pipe hne hr hw⟩
  | fork =>
      cases x with
      | failed e => exact ⟨_, h, .failed⟩
      | child => cases hborn
      | parent pid => exact ⟨_, h.2, .fork⟩
  | dup2 old new => exact ⟨_, h, .dup2⟩
  | close fd => exact ⟨_, h, .close⟩
  | openFile path mode =>
      cases x with
      | error e => exact ⟨_, h, .failed⟩
      | ok fd =>
          obtain ⟨hfd, rfl⟩ := h
          exact ⟨_, rfl, .openFile hfd⟩
  | ignoreChildren => exact ⟨_, h, .ignoreChildren⟩
  | _ => cases hc

/-- The calls that set up a process leave its output as it is. -/
theorem Step.stdout (h : Step outcome s c x s') (hc : c.setsUp = true)
    (hborn : spawning.born c x = false) : s'.stdout = s.stdout := by
  obtain ⟨k, rfl, -⟩ := h.setUp hc hborn
  rfl

/-- A process stays what it is. -/
theorem Step.name (h : Step outcome s c x s') (hborn : spawning.born c x = false) :
    s'.kernel.name = s.kernel.name := by
  cases hc : c.setsUp with
  | false => rw [h.kernel hc]
  | true =>
      obtain ⟨k, rfl, hk⟩ := h.setUp hc hborn
      exact hk.name

/-- A call without a twin forks nothing. -/
theorem Step.family (h : Step outcome s c x s') (hborn : spawning.born c x = false)
    (htwin : spawning.twin c x = none) :
    s'.kernel.name = s.kernel.name ∧ s'.kernel.forks = s.kernel.forks := by
  refine ⟨h.name hborn, ?_⟩
  cases hc : c.setsUp with
  | false => rw [h.kernel hc]
  | true =>
      by_cases hfork : c = .fork
      · subst hfork
        cases x with
        | failed e =>
            cases h
            rfl
        | child => cases hborn
        | parent pid => cases htwin
      · obtain ⟨k, rfl, hk⟩ := h.setUp hc hborn
        exact hk.forks hfork

/-- A call with a twin is a `fork`. -/
theorem Step.twin {y : c.Answer} {s'' : Proc} (h : Step outcome s c x s')
    (htwin : spawning.twin c x = some y) (h' : Step outcome s c y s'') :
    s' = s.onKernel (s.kernel.forked 1) ∧ s'' = s.child := by
  cases c with
  | fork =>
      cases x with
      | parent pid =>
          cases htwin
          exact ⟨h.2, h'⟩
      | _ => cases htwin
  | _ => cases htwin

/-- What a step does to the output. -/
theorem Step.output (h : Step outcome s c x s') :
    s'.kernel.name = s.kernel.name ∧ s'.stdout = s.stdout ∨ s' = s.child ∨
      (∃ text n, c = .printf text ∧ s' = s.print text n) ∨ c = .fflush ∧ s' = s.flush := by
  cases hc : c.setsUp with
  | true =>
      cases hx : spawning.born c x with
      | false => exact .inl ⟨h.name hx, h.stdout hc hx⟩
      | true => exact .inr (.inl (h.born hx))
  | false =>
      cases c with
      | printf text =>
          obtain ⟨n, rfl⟩ := h
          exact .inr (.inr (.inl ⟨text, n, rfl, rfl⟩))
      | fflush => exact .inr (.inr (.inr ⟨rfl, h⟩))
      | waitpid pid =>
          obtain ⟨-, rfl⟩ := h
          exact .inl ⟨rfl, rfl⟩
      | exit n => exact nomatch x
      | overflow => exact nomatch x
      | uninitialized | access _ | chdir _ | getcwd | execv _ _ | eprintf _ =>
          cases h
          exact .inl ⟨rfl, rfl⟩
      | _ => cases hc

end

end Proc

end CS214.Shell
