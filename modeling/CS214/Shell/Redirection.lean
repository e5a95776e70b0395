import CS214.Shell.Failures
import CS214.Shell.Loop
import CS214.Shell.Status

/-!
# Shell — the files of a segment

The parser keeps an input file and an output file for every segment.  The child of a single command
opens both; the children of a pipeline open the input file of the first segment and the output file
of the last one; a function of the shell that is a job of its own is called as it is.  A file that
is opened at the descriptor it is to replace is closed again by what puts it there; as this depends
on the descriptors that `open` and `pipe` give, they are the lowest ones here (`LowStep`).

* `Executes`: the process of a segment and what it does before it runs the command, with
  `Executes.reach` and `executeJob_cases`, that the processes of a job are these and no others.
* `Executes.always`: which files are in their places when the command is run.
* `redirections_iff`: no file is dropped exactly when every segment that has one is one for which
  the code opens it, at another descriptor than the one it is to replace.
-/

open CString Program

namespace CS214.Shell

open Proc

/-! ### The process of a segment -/

/-- The command of a segment: a function of the shell, or a program. -/
inductive Command (seg : JobSegment) : SysM JobResult → Prop where
  | builtin (hb : isBuiltin (arg seg.argv 0) = true) (f : ℤ → SysM JobResult) :
      Command seg (executeBuiltin (arg seg.argv 0) seg.argv seg.argc >>= f)
  | program (hb : isBuiltin (arg seg.argv 0) = false) {α : Type} (f : α → SysM JobResult) :
      Command seg (runProgram seg >>= f)

/-- In the shell at `s`, segment `i` of a job is executed by the process that starts as the last one
says, which does `setUp` before it runs the command. -/
inductive Executes (outcome : List ℕ → Ending) (interactive : Bool) (s : Proc) :
    Job → ℕ → JobSegment → SysM Unit → Proc → Prop where
  | builtin {seg : JobSegment} (hb : isBuiltin (arg seg.argv 0) = true) :
      Executes outcome interactive s ⟨[seg]⟩ 0 seg (.ret ()) s
  | program {seg : JobSegment} (hb : isBuiltin (arg seg.argv 0) = false) :
      Executes outcome interactive s ⟨[seg]⟩ 0 seg (openFiles true true interactive seg) s.child
  | pipeline {segs : List JobSegment} {i : ℕ} {seg : JobSegment} {pipes : List (ℕ × ℕ)}
      {s₁ : Proc} (hcount : 2 ≤ segs.length) (hseg : segs[i]? = some seg)
      (hpipes : Reach (LowStep outcome) (makePipes [] (segs.length - 1)) s (.ret (some pipes)) s₁) :
      Executes outcome interactive s ⟨segs⟩ i seg
        (pipelineSetUp pipes segs.length i seg interactive)
        (s₁.onKernel (s₁.kernel.forked i)).child

/-- The file has been opened. -/
def Opens (path : Bytes) (mode : OpenMode) (log : List Entry) : Prop :=
  ∃ fd, ⟨.openFile path mode, .ok fd⟩ ∈ log

/-- The files of the segment have been opened, and are the input and the output of the process. -/
structure Directed (seg : JobSegment) (t : Proc × List Entry) : Prop where
  input : ∀ path, seg.inputFile = some path →
    Opens path .readOnly t.2 ∧ t.1.kernel.fds.get 0 = some (.file path .readOnly)
  output : ∀ path, seg.outputFile = some path →
    Opens path .create t.2 ∧ t.1.kernel.fds.get 1 = some (.file path .create)

/-- Every process of a segment opens the files of the segment and runs the command with them as its
input and output, or a call of it fails and it exits with 1. -/
def Honoured (outcome : List ℕ → Ending) (job : Job) (interactive : Bool) (s : Proc) : Prop :=
  ∀ i seg setUp s₁, Executes outcome interactive s job i seg setUp s₁ →
    (∀ t, Reach (logged (LowStep outcome)) setUp (s₁, []) (.ret ()) t → Directed seg t) ∧
    ∀ n k t, Reach (logged (LowStep outcome)) setUp (s₁, []) (.call (.exit n) k) t →
      n = 1 ∧ s₁.kernel.failures < t.1.kernel.failures

/-- The code opens the input file of the segment. -/
def TakesInput (job : Job) (i : ℕ) (seg : JobSegment) : Prop :=
  if job.segments.length = 1 then isBuiltin (arg seg.argv 0) = false else i = 0

/-- The code opens the output file of the segment. -/
def TakesOutput (job : Job) (i : ℕ) (seg : JobSegment) : Prop :=
  if job.segments.length = 1 then isBuiltin (arg seg.argv 0) = false
  else i + 1 = job.segments.length

variable {outcome : List ℕ → Ending} {interactive : Bool} {s s' s₁ : Proc} {job : Job} {i : ℕ}
  {seg : JobSegment} {segs : List JobSegment} {setUp : SysM Unit} {α : Type}

/-! ### The processes of a job -/

theorem runSegment_command (f : α → SysM JobResult) :
    Command seg ((runSegment seg : SysM α) >>= f) := by
  unfold runSegment
  cases hb : isBuiltin (arg seg.argv 0) with
  | true =>
      rw [if_pos rfl, bind_assoc]
      exact .builtin hb _
  | false => exact .program hb f

theorem executeSingle_builtin (hb : isBuiltin (arg seg.argv 0) = true) (interactive : Bool) :
    ∃ f, executeSingle seg interactive =
      executeBuiltin (arg seg.argv 0) seg.argv seg.argc >>= f := by
  rw [executeSingle, hb, if_pos rfl]
  exact ⟨_, rfl⟩

theorem executeSingle_program (hb : isBuiltin (arg seg.argv 0) = false) (interactive : Bool) :
    ∃ f, executeSingle seg interactive = fork >>= f ∧ f .child = singleChild seg interactive ∧
      ∀ x, x ≠ .child → (f x).Only (· ≠ .fork) := by
  rw [executeSingle, hb, if_neg Bool.false_ne_true]
  refine ⟨_, rfl, rfl, fun x hx => ?_⟩
  cases x with
  | failed e => exact only_bind (only_perform (by simp)) fun _ => trivial
  | child => exact absurd rfl hx
  | parent pid =>
      refine only_bind ?_ fun _ => trivial
      refine only_bind (only_perform (by simp)) fun _ => ?_
      exact only_bind (only_perform (by simp)) fun _ => trivial

theorem executeJob_pipeline (hcount : 2 ≤ segs.length) :
    executeJob ⟨segs⟩ interactive = executePipeline segs interactive := by
  match segs with
  | [] => cases hcount
  | [seg] => exact absurd hcount (Nat.lt_irrefl 1)
  | seg :: seg' :: segs => rfl

/-- The loop over `fork` comes to every segment. -/
theorem forkSegments_child (outcome : List ℕ → Ending) (pipes : List (ℕ × ℕ)) (count : ℕ)
    (interactive : Bool) (i : ℕ) (pids : List ℕ) (s : Proc) {n : ℕ} (hseg : segs[n]? = some seg) :
    Reach (LowStep outcome) (forkSegments pipes count interactive i pids segs) s
      (pipelineChild pipes count (i + n) seg interactive)
      (s.onKernel (s.kernel.forked n)).child := by
  induction segs generalizing i pids s n with
  | nil => cases hseg
  | cons seg' segs ih =>
      cases n with
      | zero =>
          cases hseg
          -- the call of `fork` returns in the child
          have hfork : LowStep outcome s .fork Forked.child s.child := ⟨rfl, trivial⟩
          exact .head hfork (.refl _ _)
      | succ n =>
          have hfork : LowStep outcome s .fork (Forked.parent s.kernel.forks)
              (s.onKernel (s.kernel.forked 1)) := ⟨⟨rfl, rfl⟩, trivial⟩
          have hnext := ih (i + 1) (pids ++ [s.kernel.forks]) (s.onKernel (s.kernel.forked 1)) hseg
          rw [Nat.add_assoc, Nat.add_comm 1 n] at hnext
          rw [← forked_forked]
          exact .head hfork hnext

/-- The process of a segment is one of the job. -/
theorem Executes.reach (h : Executes outcome interactive s job i seg setUp s₁) :
    ∃ command, Command seg command ∧
      Reach (LowStep outcome) (executeJob job interactive) s (setUp >>= fun _ => command) s₁ := by
  cases h with
  | @builtin seg hb =>
      obtain ⟨f, hf⟩ := executeSingle_builtin hb interactive
      refine ⟨_, .builtin hb f, ?_⟩
      rw [← hf]
      exact .refl _ _
  | @program seg hb =>
      obtain ⟨f, hf, hchild, -⟩ := executeSingle_program hb interactive
      refine ⟨_, .program hb .ret, ?_⟩
      have hfork : LowStep outcome s .fork Forked.child s.child := ⟨rfl, trivial⟩
      show Reach _ (executeSingle seg interactive) _ _ _
      rw [hf, bind_ret, ← singleChild_eq, ← hchild]
      exact .head hfork (.refl _ _)
  | @pipeline segs i seg pipes s₁ hcount hseg hpipes =>
      obtain ⟨f, hf, -, hforks⟩ := executePipeline_eq segs interactive
      obtain ⟨g, hg, -⟩ := hforks pipes
      refine ⟨_, runSegment_command g, ?_⟩
      have hfork := forkSegments_child outcome pipes segs.length interactive 0 [] s₁ hseg
      rw [executeJob_pipeline hcount, hf, ← Program.bind_assoc, ← pipelineChild_eq]
      rw [Nat.zero_add] at hfork
      exact hpipes.seq (hg ▸ hfork.bind g)

/-! ### There is no other process -/

/-- A process that forks nothing stays what it is. -/
theorem reach_name {p q : SysM α} (hp : p.Only (· ≠ .fork))
    (h : Reach (LowStep outcome) p s q s') : s'.kernel.name = s.kernel.name := by
  have hborn : ∀ {c : Call} {x : c.Answer}, c ≠ .fork → spawning.born c x = false := by
    intro c x hc
    cases c <;> first | rfl | exact absurd rfl hc
  have hall : p.Always (LowStep outcome) (fun s₁ c => s₁.kernel.name = s.kernel.name ∧ c ≠ .fork)
      (fun _ s₁ => s₁.kernel.name = s.kernel.name) s :=
    hp.always (fun s₁ c x s₂ hs hc hx => (hx.1.name (hborn hc)).trans hs) rfl
  exact hall.invariant (fun s₁ c x s₂ hs hc hx => (hx.1.name (hborn hc.2)).trans hs) h rfl

theorem ret_forks (a : α) : (.ret a : SysM α).Only (· ≠ .fork) := trivial

theorem talks_forks {p : SysM α} (hp : Talks p) : p.Only (· ≠ .fork) :=
  hp.imp fun c hc => by
    rintro rfl
    cases hc

theorem makePipes_forks (pipes : List (ℕ × ℕ)) (n : ℕ) : (makePipes pipes n).Only (· ≠ .fork) := by
  induction n generalizing pipes with
  | zero => trivial
  | succ n ih =>
      refine only_bind (only_perform nofun) fun r => ?_
      cases r with
      | error e => exact only_bind (only_perform nofun) fun _ => trivial
      | ok p => exact ih _

theorem closePipes_only {P : Call → Prop} (h : ∀ fd, P (.close fd)) (pipes : List (ℕ × ℕ)) :
    (closePipes pipes).Only P := by
  induction pipes with
  | nil => trivial
  | cons p pipes ih =>
      exact only_bind (only_perform (h p.1)) fun _ =>
        only_bind (only_perform (h p.2)) fun _ => ih

/-- A child does not come back from the loop. -/
theorem pipelineChild_returns {pipes : List (ℕ × ℕ)} {count : ℕ} {a : α} :
    ¬ Reach (LowStep outcome) (pipelineChild pipes count i seg interactive : SysM α) s (.ret a)
      s' := by
  intro h
  have hno : (pipelineChild pipes count i seg interactive : SysM α).Always (Step outcome) Any
      (fun _ _ => False) s := never pipelineChild_yields
  exact hno.done (h.mono fun _ _ _ _ hx => hx.1)

/-- The loop over `fork` comes to the shell and to the children. -/
theorem forkSegments_cases {pipes : List (ℕ × ℕ)} {count : ℕ} {pids : List ℕ}
    {q : SysM (Option (List ℕ))}
    (h : Reach (LowStep outcome) (forkSegments pipes count interactive i pids segs) s q s') :
    s'.kernel.name = s.kernel.name ∨ ∃ n seg, segs[n]? = some seg ∧
      Reach (LowStep outcome) (pipelineChild pipes count (i + n) seg interactive)
        (s.onKernel (s.kernel.forked n)).child q s' := by
  induction segs generalizing i pids s with
  | nil =>
      cases h
      exact .inl rfl
  | cons seg segs ih =>
      cases h with
      | refl => exact .inl rfl
      | @head _ _ x _ s₁ _ _ hx t =>
          obtain ⟨hx, -⟩ := hx
          cases x with
          | failed e =>
              cases hx
              have hforks : (perror (ascii "fork") e >>= fun _ => .ret none :
                  SysM (Option (List ℕ))).Only (· ≠ .fork) :=
                only_bind (only_perform nofun) fun _ => trivial
              have hend : s'.kernel.name = (s.onKernel s.kernel.fail).kernel.name :=
                reach_name hforks t
              exact .inl hend
          | child =>
              cases hx
              exact .inr ⟨0, seg, rfl, t⟩
          | parent pid =>
              obtain ⟨rfl, rfl⟩ := hx
              rcases ih t with hname | ⟨n, seg', hseg, hrun⟩
              · exact .inl hname
              · refine .inr ⟨n + 1, seg', hseg, ?_⟩
                rw [← forked_forked, ← Nat.add_assoc, Nat.add_right_comm]
                exact hrun

/-- What a pipeline comes to is the shell, or the process of a segment. -/
theorem executePipeline_cases {q : SysM JobResult}
    (h : Reach (LowStep outcome) (executePipeline segs interactive) s q s') :
    s'.kernel.name = s.kernel.name ∨ ∃ i seg pipes s₁ command, segs[i]? = some seg ∧
      Command seg command ∧
      Reach (LowStep outcome) (makePipes [] (segs.length - 1)) s (.ret (some pipes)) s₁ ∧
      Reach (LowStep outcome)
        (pipelineSetUp pipes segs.length i seg interactive >>= fun _ => command)
        (s₁.onKernel (s₁.kernel.forked i)).child q s' := by
  obtain ⟨f, hf, hnone, hforks⟩ := executePipeline_eq segs interactive
  rw [hf] at h
  rcases h.bind_cases with ⟨p, -, hmake⟩ | ⟨made, s₁, hmake, h⟩
  · exact .inl (reach_name (makePipes_forks _ _) hmake)
  have hname : s₁.kernel.name = s.kernel.name := reach_name (makePipes_forks _ _) hmake
  cases made with
  | none =>
      rw [hnone] at h
      exact .inl ((reach_name (ret_forks _) h).trans hname)
  | some pipes =>
      obtain ⟨g, hg, hnone', hwait⟩ := hforks pipes
      rw [hg] at h
      rcases h.bind_cases with ⟨p, rfl, hfork⟩ | ⟨done, s₂, hfork, h⟩
      · rcases forkSegments_cases hfork with hname' | ⟨n, seg, hseg, hchild⟩
        · exact .inl (hname'.trans hname)
        · rw [Nat.zero_add, pipelineChild_eq] at hchild
          have hrun := hchild.bind g
          rw [Program.bind_assoc] at hrun
          exact .inr ⟨n, seg, pipes, s₁, _, hseg, runSegment_command g, hmake, hrun⟩
      · have hname₂ : s₂.kernel.name = s₁.kernel.name := by
          rcases forkSegments_cases hfork with hname₂ | ⟨n, seg, -, hchild⟩
          · exact hname₂
          · exact absurd hchild pipelineChild_returns
        have hend : s'.kernel.name = s₂.kernel.name := by
          cases done with
          | none =>
              rw [hnone'] at h
              exact reach_name (ret_forks _) h
          | some pids =>
              rw [hwait] at h
              exact reach_name (only_bind (closePipes_only (fun _ => nofun) _) fun _ =>
                only_bind (talks_forks (waitLoop_talks _ _ _ _)) fun _ => ret_forks _) h
        exact .inl ((hend.trans hname₂).trans hname)

/-- **The processes of a job**: the shell, and those that execute a segment. -/
theorem executeJob_cases {q : SysM JobResult}
    (h : Reach (LowStep outcome) (executeJob job interactive) s q s') :
    s'.kernel.name = s.kernel.name ∨ ∃ i seg setUp s₁ command,
      Executes outcome interactive s job i seg setUp s₁ ∧ Command seg command ∧
        Reach (LowStep outcome) (setUp >>= fun _ => command) s₁ q s' := by
  obtain ⟨segs⟩ := job
  match segs with
  | [] => exact .inl (reach_name (ret_forks _) h)
  | [seg] =>
      cases hb : isBuiltin (arg seg.argv 0) with
      | true =>
          obtain ⟨f, hf⟩ := executeSingle_builtin hb interactive
          refine .inr ⟨0, seg, _, s, _, .builtin hb, .builtin hb f, ?_⟩
          rw [Program.ret_bind, ← hf]
          exact h
      | false =>
          obtain ⟨f, hf, hchild, hforks⟩ := executeSingle_program hb interactive
          have h : Reach (LowStep outcome) (executeSingle seg interactive) s q s' := h
          rw [hf] at h
          cases h with
          | refl => exact .inl rfl
          | @head _ _ x _ s₁ _ _ hx t =>
              obtain ⟨hx, -⟩ := hx
              cases x with
              | failed e =>
                  cases hx
                  have hend : s'.kernel.name = (s.onKernel s.kernel.fail).kernel.name :=
                    reach_name (hforks (.failed e) nofun) t
                  exact .inl hend
              | child =>
                  cases hx
                  have t : Reach (LowStep outcome) (f .child) s.child q s' := t
                  rw [hchild, singleChild_eq] at t
                  refine .inr ⟨0, seg, _, _, _, .program hb, .program hb .ret, ?_⟩
                  rw [bind_ret]
                  exact t
              | parent pid =>
                  obtain ⟨rfl, rfl⟩ := hx
                  have hend : s'.kernel.name = (s.onKernel (s.kernel.forked 1)).kernel.name :=
                    reach_name (hforks (.parent s.kernel.forks) nofun) t
                  exact .inl hend
  | seg :: seg' :: segs =>
      have hcount : 2 ≤ (seg :: seg' :: segs).length := Nat.le_add_left 2 segs.length
      rcases executePipeline_cases h with hname | ⟨i, seg, pipes, s₁, command, hseg, hc, hmake, t⟩
      · exact .inl hname
      · exact .inr ⟨i, seg, _, _, command, .pipeline hcount hseg hmake, hc, t⟩

/-! ### Opening a file -/

/-- A process that exits does so with 1, when more calls of it have failed than these. -/
def ExitsFailed (n : ℕ) (t : Proc × List Entry) (c : Call) : Prop :=
  ∀ status, c = .exit status → status = 1 ∧ n < t.1.kernel.failures

/-- The file, if there is one, is in the place of the descriptor, unless that is the lowest one that
is closed: there it is opened, and closed again. -/
structure Replaced (file : Option (Bytes × OpenMode)) (target : ℕ) (t t' : Proc × List Entry) :
    Prop where
  other : ∀ fd, fd ≠ target → t'.1.kernel.fds.get fd = t.1.kernel.fds.get fd
  kept : file = none → t'.1.kernel.fds.get target = t.1.kernel.fds.get target
  placed : ∀ path mode, file = some (path, mode) → ¬ t.1.kernel.fds.IsLowest target →
    t'.1.kernel.fds.get target = some (.file path mode)
  lowest : t.1.kernel.fds.IsLowest target → t'.1.kernel.fds.get target = none
  opens : ∀ path mode, Opens path mode t'.2 ↔ Opens path mode t.2 ∨ file = some (path, mode)
  failures : t'.1.kernel.failures = t.1.kernel.failures

theorem opens_append {path : Bytes} {mode : OpenMode} {log log' : List Entry} :
    Opens path mode (log ++ log') ↔ Opens path mode log ∨ Opens path mode log' := by
  simp only [Opens, List.mem_append, exists_or]

variable {file : Option (Bytes × OpenMode)} {target n : ℕ} {t t' : Proc × List Entry}

theorem opens_singleton {path path' : Bytes} {mode mode' : OpenMode} {fd : ℕ} :
    Opens path' mode' [⟨.openFile path mode, .ok fd⟩] ↔ (path, mode) = (path', mode') := by
  constructor
  · rintro ⟨fd', hmem⟩
    cases List.mem_singleton.mp hmem
    rfl
  · rintro ⟨⟩
    exact ⟨fd, List.mem_singleton_self _⟩

theorem not_opens_singleton {c : Call} {x : c.Answer} (hc : ∀ path mode, c ≠ .openFile path mode)
    (path : Bytes) (mode : OpenMode) : ¬ Opens path mode [⟨c, x⟩] := by
  rintro ⟨fd, h⟩
  exact hc path mode (congrArg Sigma.fst (List.mem_singleton.mp h)).symm

/-- What the descriptors are when a file was opened at `fd` and put in the place of `target`. -/
theorem put_dup_put_get {path : Bytes} {mode : OpenMode} {k : Kernel} {fd : ℕ} (fd' : ℕ) :
    (((k.put fd (some (.file path mode))).dup fd target).put fd none).fds.get fd' =
      if fd' = fd then none else if fd' = target then some (.file path mode)
        else k.fds.get fd' := by
  have hput : (k.put fd (some (.file path mode))).fds.get fd = some (.file path mode) :=
    Table.get_put_self
  rw [Kernel.put, Table.get_put, get_dup (by rw [hput]; exact Option.some_ne_none _), hput,
    Kernel.put, Table.get_put]
  split <;> rfl

theorem replaced_of_lowest {path : Bytes} {mode : OpenMode} {fd : ℕ} {log : List Entry}
    (hfd : s.kernel.fds.IsLowest fd) : Replaced (some (path, mode)) target (s, log)
      (s.onKernel (((s.kernel.put fd (some (.file path mode))).dup fd target).put fd none),
        log ++ [⟨.openFile path mode, .ok fd⟩] ++ [⟨.dup2 fd target, ()⟩] ++
          [⟨.close fd, ()⟩]) := by
  refine ⟨fun fd' hne => ?_, fun h => absurd h (Option.some_ne_none _), fun p m he hlow => ?_,
    fun hlow => ?_, fun p m => ?_, ?_⟩
  · refine (put_dup_put_get fd').trans ?_
    rw [if_neg hne]
    split
    · next he => rw [he, hfd.1]
    · rfl
  · cases he
    have hne : target ≠ fd := fun he => hlow (he ▸ hfd)
    exact (put_dup_put_get target).trans ((if_neg hne).trans (if_pos rfl))
  · exact (put_dup_put_get target).trans (if_pos (hlow.eq hfd))
  · have hdup : ¬ Opens p m [⟨.dup2 fd target, ()⟩] := not_opens_singleton (by simp) p m
    have hclose : ¬ Opens p m [⟨.close fd, ()⟩] := not_opens_singleton (by simp) p m
    rw [opens_append, opens_append, opens_append, or_iff_left hclose, or_iff_left hdup,
      opens_singleton, Option.some.injEq]
  · show ((s.kernel.put fd _).dup fd target).failures = s.kernel.failures
    rw [dup_onlyFds.failures]
    rfl

/-- Opening a file in the place of a descriptor. -/
theorem redirectOpt_replaces (hn : n ≤ t.1.kernel.failures) :
    (redirectOpt file target).Always (logged (LowStep outcome)) (ExitsFailed n)
      (fun _ t' => Replaced file target t t') t := by
  cases file with
  | none => exact ⟨fun _ _ => rfl, fun _ => rfl, nofun, And.left, fun _ _ => by simp, rfl⟩
  | some f =>
      refine ⟨nofun, fun x t₁ h₁ => ?_⟩
      obtain ⟨s, log⟩ := t
      obtain ⟨s₁, log₁⟩ := t₁
      obtain ⟨⟨h₁, hlow⟩, rfl⟩ := h₁
      cases x with
      | error e =>
          cases h₁
          refine ⟨nofun, fun _ t₂ h₂ => ⟨nofun, fun _ t₃ h₃ => ⟨?_, fun x => nomatch x⟩⟩⟩
          rintro status ⟨⟩
          have hk₂ : t₂.1.kernel = s.kernel.fail := h₂.1.1.kernel rfl
          have hk₃ : t₃.1.kernel = s.kernel.fail := (h₃.1.1.kernel rfl).trans hk₂
          rw [hk₃]
          exact ⟨rfl, Nat.lt_succ_of_le hn⟩
      | ok fd =>
          obtain ⟨-, rfl⟩ := h₁
          refine ⟨nofun, fun x t₂ h₂ => ⟨nofun, fun y t₃ h₃ => ?_⟩⟩
          obtain ⟨s₂, log₂⟩ := t₂
          obtain ⟨s₃, log₃⟩ := t₃
          obtain ⟨⟨h₂, -⟩, rfl⟩ := h₂
          obtain ⟨⟨h₃, -⟩, rfl⟩ := h₃
          cases h₂
          cases h₃
          exact replaced_of_lowest hlow

/-- Where the opened files are known, whether this one is in the place of the descriptor. -/
theorem Replaced.placed_iff (h : Replaced file target t t') {path : Bytes} {mode : OpenMode}
    {opened : Prop} (hopens : opened ↔ file = some (path, mode)) :
    (opened ∧ t'.1.kernel.fds.get target = some (.file path mode)) ↔
      file = some (path, mode) ∧ ¬ t.1.kernel.fds.IsLowest target := by
  rw [hopens]
  refine and_congr_right fun hfile => ⟨fun hget hlow => ?_, h.placed path mode hfile⟩
  rw [h.lowest hlow] at hget
  cases hget

/-- Putting a file in the place of descriptor 0 opens and closes none. -/
theorem Replaced.closed (h : Replaced file 0 t t') (fd : ℕ) :
    t'.1.kernel.fds.get fd = none ↔ t.1.kernel.fds.get fd = none := by
  by_cases hfd : fd = 0
  · subst hfd
    by_cases hlow : t.1.kernel.fds.IsLowest 0
    · exact iff_of_true (h.lowest hlow) hlow.1
    · have hopen : t.1.kernel.fds.get 0 ≠ none := mt Table.isLowest_zero.mpr hlow
      cases file with
      | none => rw [h.kept rfl]
      | some f => exact iff_of_false (by rw [h.placed _ _ rfl hlow]; exact nofun) hopen
  · rw [h.other fd hfd]

theorem Replaced.isLowest (h : Replaced file 0 t t') (fd : ℕ) :
    t'.1.kernel.fds.IsLowest fd ↔ t.1.kernel.fds.IsLowest fd := by
  simp only [Table.IsLowest, ne_eq, h.closed]

/-! ### What the set-up leaves -/

/-- The files of the segment are in their places where they are opened, at another descriptor. -/
structure FilesPlaced (first last : Bool) (seg : JobSegment) (k : Kernel) (t : Proc × List Entry) :
    Prop where
  input : ∀ path, seg.inputFile = some path →
    (Opens path .readOnly t.2 ∧ t.1.kernel.fds.get 0 = some (.file path .readOnly) ↔
      first = true ∧ ¬ k.fds.IsLowest 0)
  output : ∀ path, seg.outputFile = some path →
    (Opens path .create t.2 ∧ t.1.kernel.fds.get 1 = some (.file path .create) ↔
      last = true ∧ ¬ k.fds.IsLowest 1)

section

variable {first last : Bool} {path : Bytes} {mode : OpenMode}

theorem nullOf_mode (h : nullOf first interactive seg = some (path, mode)) : mode = .readOnly := by
  unfold nullOf at h
  split at h <;> cases h
  rfl

theorem inputOf_mode (h : inputOf first seg = some (path, mode)) : mode = .readOnly := by
  unfold inputOf at h
  split at h
  · obtain ⟨p, -, he⟩ := Option.map_eq_some_iff.mp h
    exact (Prod.mk.inj he).2.symm
  · cases h

theorem outputOf_mode (h : outputOf last seg = some (path, mode)) : mode = .create := by
  unfold outputOf at h
  split at h
  · obtain ⟨p, -, he⟩ := Option.map_eq_some_iff.mp h
    exact (Prod.mk.inj he).2.symm
  · cases h

theorem inputOf_eq (hpath : seg.inputFile = some path) :
    inputOf first seg = some (path, .readOnly) ↔ first = true := by
  cases first <;> simp [inputOf, hpath]

theorem outputOf_eq (hpath : seg.outputFile = some path) :
    outputOf last seg = some (path, .create) ↔ last = true := by
  cases last <;> simp [outputOf, hpath]

theorem openFiles_places (hlog : ∀ path mode, ¬ Opens path mode t.2)
    (hn : n ≤ t.1.kernel.failures) :
    (openFiles first last interactive seg).Always (logged (LowStep outcome)) (ExitsFailed n)
      (fun _ t' => FilesPlaced first last seg t.1.kernel t') t := by
  rw [openFiles, redirectNull_eq, redirectInput_eq, redirectOutput_eq]
  refine (redirectOpt_replaces hn).bind fun _ t₁ h₁ => ?_
  refine (redirectOpt_replaces (hn.trans h₁.failures.ge)).bind fun _ t₂ h₂ => ?_
  refine (redirectOpt_replaces (hn.trans (h₂.failures.trans h₁.failures).ge)).imp fun _ t₃ h₃ => ?_
  have hopens : ∀ p m, Opens p m t₃.2 ↔ (nullOf first interactive seg = some (p, m) ∨
      inputOf first seg = some (p, m)) ∨ outputOf last seg = some (p, m) := fun p m => by
    rw [h₃.opens, h₂.opens, h₁.opens, or_iff_right (hlog p m)]
  refine ⟨fun path hpath => ?_, fun path hpath => ?_⟩
  · -- there is no null device where there is an input file, and an output file is another
    have hnull : nullOf first interactive seg ≠ some (path, .readOnly) := by
      simp [nullOf, hpath]
    have hout : outputOf last seg ≠ some (path, .readOnly) := fun h =>
      absurd (outputOf_mode h) (by decide)
    rw [h₃.other 0 (by decide), h₂.placed_iff, inputOf_eq hpath, h₁.isLowest 0]
    rw [hopens, or_iff_left hout, or_iff_right hnull]
  · have hin : inputOf first seg ≠ some (path, .create) := fun h =>
      absurd (inputOf_mode h) (by decide)
    have hnull : nullOf first interactive seg ≠ some (path, .create) := fun h =>
      absurd (nullOf_mode h) (by decide)
    rw [h₃.placed_iff, outputOf_eq hpath, h₂.isLowest 1, h₁.isLowest 1]
    rw [hopens, or_iff_right (not_or.mpr ⟨hnull, hin⟩)]

end

/-! ### The pipes of a child -/

/-- What the calls that set up the pipes of a child leave: no file has been opened. -/
structure Piping (k : Kernel) (t t' : Proc × List Entry) : Prop where
  kernel : t'.1.kernel = k
  opens : ∀ path mode, Opens path mode t'.2 ↔ Opens path mode t.2

theorem Piping.trans {k k' : Kernel} {t'' : Proc × List Entry} (h : Piping k t t')
    (h' : Piping k' t' t'') : Piping k' t t'' :=
  ⟨h'.kernel, fun path mode => (h'.opens path mode).trans (h.opens path mode)⟩

theorem piping_dup2 (old new : ℕ) : (dup2 old new).Always (logged (LowStep outcome))
    (ExitsFailed n) (fun _ t' => Piping (t.1.kernel.dup old new) t t') t := by
  refine ⟨nofun, fun x t' h => ⟨congrArg Proc.kernel h.1.1, fun path mode => ?_⟩⟩
  rw [h.2, opens_append, or_iff_left (not_opens_singleton (by simp) path mode)]

theorem piping_close (fd : ℕ) : (close fd).Always (logged (LowStep outcome)) (ExitsFailed n)
    (fun _ t' => Piping (t.1.kernel.put fd none) t t') t := by
  refine ⟨nofun, fun x t' h => ⟨congrArg Proc.kernel h.1.1, fun path mode => ?_⟩⟩
  rw [h.2, opens_append, or_iff_left (not_opens_singleton (by simp) path mode)]

theorem piping_refl (t : Proc × List Entry) : Piping t.1.kernel t t := ⟨rfl, fun _ _ => Iff.rfl⟩

theorem wireInput_pipes (pipes : List (ℕ × ℕ)) (i : ℕ) (t : Proc × List Entry) :
    (wireInput pipes i).Always (logged (LowStep outcome)) (ExitsFailed n)
      (fun _ t' => Piping (wiredInput pipes i t.1.kernel) t t') t := by
  unfold wireInput wiredInput
  split
  · exact piping_dup2 _ _
  · exact piping_refl t

theorem wireOutput_pipes (pipes : List (ℕ × ℕ)) (count i : ℕ) (t : Proc × List Entry) :
    (wireOutput pipes count i).Always (logged (LowStep outcome)) (ExitsFailed n)
      (fun _ t' => Piping (wiredOutput pipes count i t.1.kernel) t t') t := by
  unfold wireOutput wiredOutput
  split
  · exact piping_dup2 _ _
  · exact piping_refl t

theorem closePipes_pipes (pipes : List (ℕ × ℕ)) (t : Proc × List Entry) :
    (closePipes pipes).Always (logged (LowStep outcome)) (ExitsFailed n)
      (fun _ t' => Piping (t.1.kernel.closeAll pipes) t t') t := by
  induction pipes generalizing t with
  | nil => exact piping_refl t
  | cons p pipes ih =>
      refine (piping_close p.1).bind fun _ t₁ h₁ => ?_
      refine (piping_close p.2).bind fun _ t₂ h₂ => (ih t₂).imp fun _ t₃ h₃ => ?_
      have h := h₁.trans (h₂.trans h₃)
      rw [h₂.kernel, h₁.kernel] at h
      exact h

/-- A child of a pipeline has its pipes, and opens its files then. -/
theorem pipelineSetUp_places (pipes : List (ℕ × ℕ)) (count i : ℕ)
    (hlog : ∀ path mode, ¬ Opens path mode t.2) :
    (pipelineSetUp pipes count i seg interactive).Always (logged (LowStep outcome))
      (ExitsFailed t.1.kernel.failures) (fun _ t' =>
        FilesPlaced (i = 0) (i = count - 1) seg (wired pipes count i t.1.kernel) t') t := by
  refine (wireInput_pipes pipes i t).bind fun _ t₁ h₁ => ?_
  refine (wireOutput_pipes pipes count i t₁).bind fun _ t₂ h₂ => ?_
  refine (closePipes_pipes pipes t₂).bind fun _ t₃ h₃ => ?_
  have h := h₁.trans (h₂.trans h₃)
  rw [h₂.kernel, h₁.kernel] at h
  have hk : t₃.1.kernel = wired pipes count i t.1.kernel := h.kernel
  rw [← hk]
  refine openFiles_places (fun path mode => (h.opens path mode).not.mpr (hlog path mode)) ?_
  rw [hk, wired_onlyFds.failures]

/-- The pipes of a pipeline. -/
theorem makePipes_piped {n : ℕ} {pipes : List (ℕ × ℕ)}
    (h : Reach (LowStep outcome) (makePipes [] n) s (.ret (some pipes)) s₁) :
    Piped s.kernel pipes s₁.kernel ∧ pipes.length = n := by
  have hall : (makePipes [] n).Always (Step outcome) Any (fun made s₁ => ∀ pipes,
      made = some pipes → Piped s.kernel pipes s₁.kernel ∧ pipes.length = n) s := by
    refine makePipes_rule (fun _ => trivial) (any_allows _) (fun _ _ _ => nofun) ?_
    rintro pipes k hk hlen _ ⟨⟩
    exact ⟨hk, hlen⟩
  exact hall.done (h.mono fun _ _ _ _ hx => hx.1) pipes rfl

/-- The loop over `pipe` keeps the pipes there are. -/
theorem makePipes_extends (pipes : List (ℕ × ℕ)) (n : ℕ) (s : Proc) :
    Yields (LowStep outcome) (makePipes pipes n) s
      fun made => ∀ pipes', made = some pipes' → pipes <+: pipes' := by
  induction n generalizing pipes s with
  | zero =>
      rintro pipes' ⟨⟩
      exact List.prefix_rfl
  | succ n ih =>
      refine ⟨trivial, fun x s' _ => ?_⟩
      cases x with
      | error e =>
          refine ⟨trivial, fun _ _ _ pipes' hp => ?_⟩
          cases hp
      | ok p =>
          refine (ih (pipes ++ [p]) s').imp fun made _ h pipes' hp => ?_
          exact (List.prefix_append pipes [p]).trans (h pipes' hp)

/-- Where descriptor 0 is closed it is an end of the first pipe. -/
theorem makePipes_zero {pipes : List (ℕ × ℕ)} (hn : 0 < n) (hin : s.kernel.fds.get 0 = none)
    (h : Reach (LowStep outcome) (makePipes [] n) s (.ret (some pipes)) s₁) : IsEnd pipes 0 := by
  obtain ⟨n, rfl⟩ := Nat.exists_eq_succ_of_ne_zero (Nat.ne_of_gt hn)
  have hall : Yields (LowStep outcome) (makePipes [] (n + 1)) s
      fun made => ∀ pipes, made = some pipes → IsEnd pipes 0 := by
    refine ⟨trivial, fun x s' hx => ?_⟩
    cases x with
    | error e =>
        refine ⟨trivial, fun _ _ _ pipes' hp => ?_⟩
        cases hp
    | ok p =>
        refine (makePipes_extends [p] n s').imp fun made _ hpre pipes hp => ?_
        have hr : p.1 = 0 := by
          by_contra hne
          exact hx.2.1.2 0 (Nat.pos_of_ne_zero hne) hin
        exact ⟨p, (hpre pipes hp).subset (List.mem_singleton_self p), .inl hr.symm⟩
  exact hall.done h pipes rfl

theorem dup_other {k : Kernel} {old new fd : ℕ} (h : fd ≠ new) :
    (k.dup old new).fds.get fd = k.fds.get fd := by
  unfold Kernel.dup
  split
  · rfl
  · exact Table.get_put_ne h

section

variable {k₀ k k' : Kernel} {pipes : List (ℕ × ℕ)} {count : ℕ}

/-- The input of the first child is open where that of the shell is. -/
theorem wired_lowest_input (h : Piped k₀ pipes k) (hk : k'.fds = k.fds) :
    (wired pipes count 0 k').fds.IsLowest 0 ↔ k₀.fds.IsLowest 0 := by
  rw [Table.isLowest_zero, Table.isLowest_zero]
  by_cases hend : IsEnd pipes 0
  · exact iff_of_true (closeAll_end (.inl hend)) (h.closed hend)
  · have hin : wiredInput pipes 0 k' = k' := rfl
    rw [wired, closeAll_other hend, hin, ← h.get_other hend, ← hk]
    unfold wiredOutput
    split
    · rw [dup_other (by decide)]
    · rfl

/-- The output of the last child is at the lowest closed descriptor where that of the shell is. -/
theorem wired_lowest_output (h : Piped k₀ pipes k) (hk : k'.fds = k.fds)
    (hzero : k₀.fds.get 0 = none → IsEnd pipes 0) :
    (wired pipes count (count - 1) k').fds.IsLowest 1 ↔ k₀.fds.IsLowest 1 := by
  have hout : ∀ k : Kernel, wiredOutput pipes count (count - 1) k = k := fun k =>
    if_neg (Nat.lt_irrefl _)
  have h1 : (wired pipes count (count - 1) k').fds.get 1 = k₀.fds.get 1 := by
    by_cases hend : IsEnd pipes 1
    · rw [wired, closeAll_end (.inl hend), h.closed hend]
    · rw [wired, closeAll_other hend, hout, ← h.get_other hend, ← hk]
      unfold wiredInput
      split
      · rw [dup_other (by decide)]
      · rfl
  have h0 : (wired pipes count (count - 1) k').fds.get 0 = none ↔ k₀.fds.get 0 = none := by
    constructor
    · intro hnone
      by_contra hopen
      have hend : ¬ IsEnd pipes 0 := fun he => hopen (h.closed he)
      rw [wired, closeAll_other hend, hout] at hnone
      rw [← h.get_other hend, ← hk] at hopen
      unfold wiredInput at hnone
      split at hnone
      · exact dup_open hopen hnone
      · exact hopen hnone
    · exact fun hnone => closeAll_end (.inl (hzero hnone))
  rw [Table.isLowest_one, Table.isLowest_one, h1, Ne, h0]

end

/-! ### The files of a job -/

theorem takesInput_single :
    TakesInput ⟨[seg]⟩ i seg ↔ isBuiltin (arg seg.argv 0) = false :=
  (if_pos (rfl : [seg].length = 1)).to_iff

theorem takesOutput_single :
    TakesOutput ⟨[seg]⟩ i seg ↔ isBuiltin (arg seg.argv 0) = false :=
  (if_pos (rfl : [seg].length = 1)).to_iff

/-- What the set-up of a segment leaves, in the shell at `k`: a file is in its place exactly where
the code opens it, and at another descriptor than the one it is to replace. -/
structure Opened (job : Job) (i : ℕ) (seg : JobSegment) (k : Kernel) (t : Proc × List Entry) :
    Prop where
  input : ∀ path, seg.inputFile = some path →
    (Opens path .readOnly t.2 ∧ t.1.kernel.fds.get 0 = some (.file path .readOnly) ↔
      TakesInput job i seg ∧ ¬ k.fds.IsLowest 0)
  output : ∀ path, seg.outputFile = some path →
    (Opens path .create t.2 ∧ t.1.kernel.fds.get 1 = some (.file path .create) ↔
      TakesOutput job i seg ∧ ¬ k.fds.IsLowest 1)

theorem Executes.always (h : Executes outcome interactive s job i seg setUp s₁) :
    setUp.Always (logged (LowStep outcome)) (ExitsFailed s₁.kernel.failures)
      (fun _ t => Opened job i seg s.kernel t) (s₁, []) := by
  have hlog : ∀ path mode, ¬ Opens path mode [] := fun path mode ⟨_, h⟩ => nomatch h
  cases h with
  | @builtin seg hb =>
      have hno : isBuiltin (arg seg.argv 0) ≠ false := by rw [hb]; exact nofun
      exact ⟨fun path _ => iff_of_false (fun h => hlog path _ h.1)
          fun h => hno (takesInput_single.mp h.1),
        fun path _ => iff_of_false (fun h => hlog path _ h.1)
          fun h => hno (takesOutput_single.mp h.1)⟩
  | @program seg hb =>
      refine (openFiles_places (t := (s.child, [])) hlog (Nat.le_refl _)).imp fun _ t h =>
        ⟨fun path hpath => ?_, fun path hpath => ?_⟩
      · rw [takesInput_single, and_congr_left' (iff_of_true hb rfl)]
        exact h.input path hpath
      · rw [takesOutput_single, and_congr_left' (iff_of_true hb rfl)]
        exact h.output path hpath
  | @pipeline segs i seg pipes s₁ hcount hseg hpipes =>
      obtain ⟨hpiped, hlen⟩ := makePipes_piped hpipes
      obtain ⟨hi, -⟩ := List.getElem?_eq_some_iff.mp hseg
      have hone : segs.length ≠ 1 := Nat.ne_of_gt hcount
      have hzero := fun hin => makePipes_zero (by omega) hin hpipes
      refine (pipelineSetUp_places (t := ((s₁.onKernel (s₁.kernel.forked i)).child, []))
        pipes segs.length i hlog).imp fun _ t h => ⟨fun path hpath => ?_, fun path hpath => ?_⟩
      · rw [h.input path hpath, TakesInput, if_neg hone, decide_eq_true_iff]
        refine and_congr_right ?_
        rintro rfl
        exact not_congr (wired_lowest_input hpiped rfl)
      · have hlast : i = segs.length - 1 ↔ i + 1 = segs.length := by omega
        rw [h.output path hpath, TakesOutput, if_neg hone, decide_eq_true_iff, ← hlast]
        refine and_congr_right ?_
        rintro rfl
        exact not_congr (wired_lowest_output hpiped rfl hzero)

theorem Executes.segment (h : Executes outcome interactive s job i seg setUp s₁) :
    job.segments[i]? = some seg := by
  cases h with
  | builtin hb => rfl
  | program hb => rfl
  | pipeline hcount hseg hpipes => exact hseg

/-- Every segment may come to be executed. -/
theorem exists_executes (outcome : List ℕ → Ending) (interactive : Bool) (s : Proc)
    (hseg : job.segments[i]? = some seg) :
    ∃ setUp s₁ t, Executes outcome interactive s job i seg setUp s₁ ∧
      Reach (logged (LowStep outcome)) setUp (s₁, []) (.ret ()) t := by
  have hstep : ∀ {p : SysM Unit} {s k}, Done outcome p () s k →
      ∃ log, Reach (logged (LowStep outcome)) p (s, []) (.ret ()) (s.onKernel k, log) := fun h =>
    Reach.logged (h.mono fun _ _ _ _ hx => hx.1) []
  obtain ⟨segs⟩ := job
  by_cases hcount : 2 ≤ segs.length
  · obtain ⟨pipes, k, hpipes, -⟩ := makePipes_done outcome (segs.length - 1) [] s
    have hpipes := hpipes.mono fun _ _ _ _ hx => hx.1
    obtain ⟨k', hdone, -⟩ := pipelineSetUp_done outcome pipes segs.length i seg interactive
      ((s.onKernel k).onKernel (k.forked i)).child
    obtain ⟨log, hrun⟩ := hstep hdone
    exact ⟨_, _, _, .pipeline hcount hseg hpipes, hrun⟩
  · obtain ⟨hi, hget⟩ := List.getElem?_eq_some_iff.mp hseg
    match segs with
    | [] => cases hi
    | [seg'] =>
        obtain rfl : i = 0 := Nat.lt_one_iff.mp hi
        cases hget
        cases hb : isBuiltin (arg seg'.argv 0) with
        | true => exact ⟨_, s, _, .builtin hb, .refl _ _⟩
        | false =>
            obtain ⟨k, hdone, -⟩ := openFiles_done outcome true true interactive seg' s.child
            obtain ⟨log, hrun⟩ := hstep hdone
            exact ⟨_, _, _, .program hb, hrun⟩
    | _ :: _ :: segs => exact absurd (Nat.le_add_left 2 segs.length) hcount

/-! ### Which files are dropped -/

/-- A file that the code does not open, or opens at the descriptor it is to replace, is dropped. -/
theorem not_honoured (hseg : job.segments[i]? = some seg)
    (hno : seg.inputFile ≠ none ∧ ¬ (TakesInput job i seg ∧ ¬ s.kernel.fds.IsLowest 0) ∨
      seg.outputFile ≠ none ∧ ¬ (TakesOutput job i seg ∧ ¬ s.kernel.fds.IsLowest 1)) :
    ¬ Honoured outcome job interactive s := by
  intro h
  obtain ⟨setUp, s₁, t, he, hrun⟩ := exists_executes outcome interactive s hseg
  have hdir := (h i seg setUp s₁ he).1 t hrun
  have hopen := he.always.done hrun
  rcases hno with ⟨hfile, hno⟩ | ⟨hfile, hno⟩
  · obtain ⟨path, hpath⟩ := Option.ne_none_iff_exists'.mp hfile
    exact hno ((hopen.input path hpath).mp (hdir.input path hpath))
  · obtain ⟨path, hpath⟩ := Option.ne_none_iff_exists'.mp hfile
    exact hno ((hopen.output path hpath).mp (hdir.output path hpath))

/-- **The files of a job**: in every shell, every segment that comes to run its command has opened
its files and has them as its input and output, or a file could not be opened and its process exits
with 1, exactly when the code opens every file that a segment of the job has, and where there is an
input file descriptor 0 of the shell is not the lowest closed one, which is to say that it is open,
and where there is an output file descriptor 1 is not. -/
theorem redirections_iff (outcome : List ℕ → Ending) (job : Job) (interactive : Bool) (s : Proc) :
    Honoured outcome job interactive s ↔ ∀ i seg, job.segments[i]? = some seg →
      (seg.inputFile ≠ none → TakesInput job i seg ∧ ¬ s.kernel.fds.IsLowest 0) ∧
      (seg.outputFile ≠ none → TakesOutput job i seg ∧ ¬ s.kernel.fds.IsLowest 1) := by
  refine ⟨fun h i seg hseg => ?_, fun h i seg setUp s₁ he => ?_⟩
  · constructor
    · intro hfile
      by_contra hno
      exact not_honoured hseg (.inl ⟨hfile, hno⟩) h
    · intro hfile
      by_contra hno
      exact not_honoured hseg (.inr ⟨hfile, hno⟩) h
  · obtain ⟨hin, hout⟩ := h i seg he.segment
    refine ⟨fun t hrun => ?_, fun n k t hrun => (he.always.reach hrun).1 n rfl⟩
    have hopen := he.always.done hrun
    exact ⟨fun path hpath => (hopen.input path hpath).mpr (hin (by rw [hpath]; exact nofun)),
      fun path hpath => (hopen.output path hpath).mpr (hout (by rw [hpath]; exact nofun))⟩

/-- The job of the line `sort < a | wc > b`. -/
def filesJob : Job :=
  ⟨[⟨[some (ascii "sort"), none], 1, some (ascii "a"), none⟩,
    ⟨[some (ascii "wc"), none], 1, none, some (ascii "b")⟩]⟩

theorem redirections_iff_ends : Honoured (fun _ => .exited 0) filesJob false start := by
  refine (redirections_iff _ filesJob false start).mpr fun i seg hseg => ?_
  match i with
  | 0 =>
      cases hseg
      exact ⟨fun _ => ⟨rfl, fun h => nomatch h.1⟩, fun h => absurd rfl h⟩
  | 1 =>
      cases hseg
      exact ⟨fun h => absurd rfl h, fun _ => ⟨rfl, fun h => nomatch h.1⟩⟩
  | i + 2 => cases hseg

/-- The output file of `pwd > b` is dropped, and so is that of the first command in
`ls > b | wc`. -/
theorem redirections_dropped :
    (∃ job, decideLine 0 (ascii "pwd > b") = .execute job ∧
      ¬ Honoured (fun _ => .exited 0) job false start) ∧
    ∃ job, decideLine 0 (ascii "ls > b | wc") = .execute job ∧
      ¬ Honoured (fun _ => .exited 0) job false start := by
  constructor
  · refine ⟨⟨[⟨[some (ascii "pwd"), none], 1, none, some (ascii "b")⟩]⟩, by decide, ?_⟩
    exact not_honoured (i := 0) rfl
      (.inr ⟨nofun, fun h => absurd (takesOutput_single.mp h.1) (by decide)⟩)
  · refine ⟨⟨[⟨[some (ascii "ls"), none], 1, none, some (ascii "b")⟩,
      ⟨[some (ascii "wc"), none], 1, none, none⟩]⟩, by decide, ?_⟩
    exact not_honoured (i := 0) rfl (.inr ⟨nofun, fun h => nomatch h.1⟩)

end CS214.Shell
