import CS214.Shell.Rules

/-!
# Shell — the status of a job

`execute_job` waits for the children of a job and takes the status of the last one.  Where
`SIGCHLD` is ignored, as `main` leaves it, `waitpid` stores nothing and the status is what the
local variable happened to hold.

* `job_status_iff`: the status of a job is that of its last process, in every run, exactly when
  `SIGCHLD` is not ignored.
-/

open CString Program

namespace CS214.Shell

open Proc

/-- The status a process that ended so stands for: its exit code, or 1. -/
def Ending.status : Ending → ℤ
  | .exited code => code.val
  | .signaled _ _ => 1

/-- `WIFEXITED` and `WEXITSTATUS` read the status that `waitpid` stores. -/
theorem exitCode_word (e : Ending) : exitCode e.word = e.status := by
  cases e with
  | exited code =>
      revert code
      decide +kernel
  | signaled signal core =>
      revert signal core
      decide +kernel

/-- Some garbage stands for another status. -/
theorem exists_garbage (v : ℤ) : ∃ status, exitCode status ≠ v := by
  by_cases h : v = 0
  · refine ⟨256, ?_⟩
    rw [h]
    decide
  · refine ⟨0, ?_⟩
    rw [show exitCode 0 = 0 by decide]
    exact Ne.symm h

/-- A job whose processes the shell waits for: an external command or a pipeline. -/
def Forks (job : Job) : Prop :=
  (∃ seg, job.segments = [seg] ∧ isBuiltin (arg seg.argv 0) = false) ∨ 2 ≤ job.segments.length

/-- In every run of a job in which no call of `pipe` or `fork` fails, the status is that of the
process of the last segment. -/
def JobStatus (outcome : List ℕ → Ending) (job : Job) (interactive : Bool) (s : Proc) : Prop :=
  ∀ r s', Reach (Step outcome) (executeJob job interactive) s (.ret r) s' →
    s'.kernel.failures = s.kernel.failures →
    r.status = (outcome (s.kernel.name ++ [s.kernel.forks + (job.segments.length - 1)])).status

section

variable {outcome : List ℕ → Ending} {s s' : Proc} {α : Type} {seg : JobSegment}
  {segs : List JobSegment} {interactive : Bool} {pids : List ℕ}

/-! ### Where the children are waited for -/

/-- All calls. -/
abbrev Any (_ : Proc) (_ : Call) : Prop := True

theorem any_allows (n : ℕ) : AllowsFailed Any n :=
  fun _ _ => ⟨fun _ _ _ _ => trivial, fun _ _ _ _ => trivial⟩

/-- A program that does not return meets every condition on its results. -/
theorem never {p : SysM α} {post : α → Proc → Prop} (h : Yields (Step outcome) p s fun _ => False) :
    p.Always (Step outcome) Any post s :=
  h.imp fun _ _ h => h.elim

/-- The last process that is waited for decides. -/
theorem waitLoop_status {count i : ℕ} {v : ℤ} (hs : s.kernel.ignored = false)
    (hi : i + pids.length = count) :
    (waitLoop count i v pids).Always (Step outcome) Any
      (fun r _ => ∀ pid ∈ pids.getLast?,
        r = (outcome (s.kernel.name ++ [pid])).status) s := by
  induction pids generalizing i v with
  | nil => exact nofun
  | cons pid pids ih =>
      refine waitFor_rule trivial trivial fun status => ?_
      have hanswer : (waitAnswer outcome s pid).getD status =
          (outcome (s.kernel.name ++ [pid])).word := by
        rw [waitAnswer, hs, if_neg Bool.false_ne_true, Option.getD_some]
      rw [hanswer]
      rw [List.length_cons] at hi
      cases pids with
      | nil =>
          rintro pid' ⟨⟩
          rw [if_pos (by rw [← hi]; rfl), exitCode_word]
          rfl
      | cons pid' pids =>
          refine (ih (by omega)).imp fun r _ h => ?_
          rw [List.getLast?_cons_cons]
          exact h

/-- A job of one external command. -/
theorem executeSingle_status (hb : isBuiltin (arg seg.argv 0) = false)
    (hs : s.kernel.ignored = false) :
    (executeSingle seg interactive).Always (Step outcome) Any
      (fun r s' => s'.kernel.failures = s.kernel.failures →
        r.status = (outcome (s.kernel.name ++ [s.kernel.forks])).status) s := by
  rw [executeSingle, hb, if_neg Bool.false_ne_true]
  refine fork_rule trivial (fun e => eprintf_rule trivial fun hf => ?_)
    (never singleChild_yields) ?_
  · exact absurd hf (Nat.succ_ne_self _)
  refine waitFor_rule trivial trivial fun status hf => ?_
  have hanswer : waitAnswer outcome (s.onKernel (s.kernel.forked 1)) s.kernel.forks =
      some (outcome (s.kernel.name ++ [s.kernel.forks])).word := if_neg (ne_true_of_eq_false hs)
  rw [hanswer, Option.getD_some, exitCode_word]

/-- A pipeline. -/
theorem executePipeline_status (hne : segs ≠ []) (hs : s.kernel.ignored = false) :
    (executePipeline segs interactive).Always (Step outcome) Any
      (fun r s' => s'.kernel.failures = s.kernel.failures → r.status =
        (outcome (s.kernel.name ++ [s.kernel.forks + (segs.length - 1)])).status) s := by
  have hlost : ∀ k : Kernel, k.failures = s.kernel.failures →
      k.fail.failures ≠ s.kernel.failures := fun k hk h => Nat.succ_ne_self _ (h.trans hk.symm)
  refine always_bind.mpr (makePipes_rule (fun _ => trivial) (any_allows _) (fun _ k hk hf => ?_)
    fun pipes k hk hlen => ?_)
  · exact absurd hf (hlost k hk.failures)
  refine always_bind.mpr (forkSegments_rule (fun _ => trivial) (any_allows _)
    (fun n seg _ => never pipelineChild_yields) (fun n _ hf => ?_) ?_)
  · exact absurd hf (hlost (k.forked n) hk.failures)
  refine always_bind.mpr (closePipes_rule (fun _ _ _ _ => ⟨trivial, trivial⟩) ?_)
  have hs' : ((k.forked segs.length).closeAll pipes).ignored = false := by
    rw [closeAll_onlyFds.ignored]
    exact hk.ignored.trans hs
  have hcount : 0 + ([] ++ List.range' k.forks segs.length).length = segs.length := by
    rw [List.nil_append, List.length_range', Nat.zero_add]
  refine (waitLoop_status hs' hcount).bind ?_
  intro v s' hv hf
  have hpos := List.length_pos_iff.mpr hne
  have hlast : ([] ++ List.range' k.forks segs.length).getLast? =
      some (k.forks + (segs.length - 1)) := by
    rw [List.nil_append, List.getLast?_range', if_neg (Nat.ne_of_gt hpos)]
    exact congrArg some (by omega)
  have hname : ((k.forked segs.length).closeAll pipes).name = s.kernel.name := by
    rw [closeAll_onlyFds.name]
    exact hk.name
  refine (hv _ hlast).trans ?_
  show (outcome (((k.forked segs.length).closeAll pipes).name ++ _)).status = _
  rw [hname, hk.forks]

theorem executeJob_status (job : Job) (hjob : Forks job) (hs : s.kernel.ignored = false) :
    JobStatus outcome job interactive s := by
  intro r s' hrun hf
  obtain ⟨segs⟩ := job
  obtain ⟨seg, rfl, hb⟩ | hlen := hjob
  · exact (executeSingle_status hb hs).done hrun hf
  · match segs with
    | [] => cases hlen
    | [seg] => exact absurd hlen (Nat.lt_irrefl 1)
    | seg :: seg' :: segs => exact (executePipeline_status (List.cons_ne_nil _ _) hs).done hrun hf

/-! ### Where `SIGCHLD` is ignored -/

theorem forkSegments_reach (outcome : List ℕ → Ending) (interactive : Bool)
    (segs : List JobSegment) (pipes : List (ℕ × ℕ)) (count i : ℕ) (pids : List ℕ) (s : Proc) :
    ∃ pids' k, Reach (Step outcome) (forkSegments pipes count interactive i pids segs) s
        (.ret (some pids')) (s.onKernel k) ∧ pids'.length = pids.length + segs.length ∧
      k.ignored = s.kernel.ignored ∧ k.failures = s.kernel.failures := by
  induction segs generalizing i pids s with
  | nil => exact ⟨pids, s.kernel, .refl _ _, rfl, rfl, rfl⟩
  | cons seg segs ih =>
      obtain ⟨pids', k, hrun, hlen, hi, hf⟩ := ih (i + 1) (pids ++ [s.kernel.forks])
        (s.onKernel (s.kernel.forked 1))
      have hfork : Step outcome s .fork (Forked.parent s.kernel.forks)
          (s.onKernel (s.kernel.forked 1)) := ⟨rfl, rfl⟩
      refine ⟨pids', k, .head hfork hrun, ?_, hi, hf⟩
      rw [hlen, List.length_append, List.length_singleton, List.length_cons]
      omega

/-- What the local variable held is the status. -/
theorem waitFor_reach (hs : s.kernel.ignored = true) (pid : ℕ) (garbage : UInt32)
    (f : UInt32 → SysM α) {q : SysM α} (h : Reach (Step outcome) (f garbage) s q s') :
    Reach (Step outcome) (waitFor pid >>= f) s q s' := by
  have hvar : Step outcome s .uninitialized garbage s := rfl
  have hwait : Step outcome s (.waitpid pid) (none : Option UInt32) s := ⟨(if_pos hs).symm, rfl⟩
  exact .head hvar (.head hwait h)

theorem waitLoop_reach (outcome : List ℕ → Ending) (hs : s.kernel.ignored = true)
    (garbage : UInt32) {count i : ℕ} (v : ℤ) (hi : i + pids.length = count) (hne : pids ≠ []) :
    Reach (Step outcome) (waitLoop count i v pids) s (.ret (exitCode garbage)) s := by
  induction pids generalizing i v with
  | nil => exact absurd rfl hne
  | cons pid pids ih =>
      refine waitFor_reach hs pid garbage _ ?_
      rw [List.length_cons] at hi
      cases pids with
      | nil =>
          rw [if_pos (by rw [← hi]; rfl)]
          exact .refl _ _
      | cons pid' pids => exact ih _ (by omega) (List.cons_ne_nil _ _)

theorem executeSingle_reach (hb : isBuiltin (arg seg.argv 0) = false)
    (hs : s.kernel.ignored = true) (garbage : UInt32) :
    Reach (Step outcome) (executeSingle seg interactive) s (.ret ⟨0, exitCode garbage⟩)
      (s.onKernel (s.kernel.forked 1)) := by
  rw [executeSingle, hb, if_neg Bool.false_ne_true]
  have hfork : Step outcome s .fork (Forked.parent s.kernel.forks)
      (s.onKernel (s.kernel.forked 1)) := ⟨rfl, rfl⟩
  refine .head hfork ?_
  have hs' : (s.onKernel (s.kernel.forked 1)).kernel.ignored = true := hs
  exact waitFor_reach hs' s.kernel.forks garbage _ (.refl _ _)

theorem executePipeline_reach (outcome : List ℕ → Ending) (interactive : Bool)
    (hne : segs ≠ []) (hs : s.kernel.ignored = true)
    (garbage : UInt32) :
    ∃ s', Reach (Step outcome) (executePipeline segs interactive) s
      (.ret ⟨0, exitCode garbage⟩) s' ∧ s'.kernel.failures = s.kernel.failures := by
  obtain ⟨pipes, k₁, h₁, hi₁, hf₁⟩ := makePipes_done outcome (segs.length - 1) [] s
  have h₁ := h₁.mono fun _ _ _ _ hx => hx.1.1
  obtain ⟨pids, k₂, h₂, hlen, hi₂, hf₂⟩ :=
    forkSegments_reach outcome interactive segs pipes segs.length 0 [] (s.onKernel k₁)
  have h₃ := (closePipes_done outcome pipes (s.onKernel k₂)).mono fun _ _ _ _ hx => hx.1.1
  have hs₃ : (s.onKernel (k₂.closeAll pipes)).kernel.ignored = true := by
    show (k₂.closeAll pipes).ignored = true
    rw [closeAll_onlyFds.ignored]
    exact (hi₂.trans hi₁).trans hs
  rw [List.length_nil, Nat.zero_add] at hlen
  have hpids : pids ≠ [] := by
    rw [← List.length_pos_iff, hlen]
    exact List.length_pos_iff.mpr hne
  have h₄ := waitLoop_reach outcome hs₃ garbage 1 ((Nat.zero_add _).trans hlen) hpids
  refine ⟨_, h₁.seq (h₂.seq (h₃.seq (h₄.seq (.refl _ _)))), ?_⟩
  show (k₂.closeAll pipes).failures = _
  rw [closeAll_onlyFds.failures]
  exact hf₂.trans hf₁

/-- Whatever the processes of a job did, there is a run that gives another status. -/
theorem not_jobStatus (job : Job) (hjob : Forks job) (hs : s.kernel.ignored = true) :
    ¬ JobStatus outcome job interactive s := by
  intro hall
  obtain ⟨segs⟩ := job
  obtain ⟨garbage, hne⟩ := exists_garbage
    (outcome (s.kernel.name ++ [s.kernel.forks + (segs.length - 1)])).status
  obtain ⟨seg, rfl, hb⟩ | hlen := hjob
  · exact hne (hall _ _ (executeSingle_reach hb hs garbage) rfl)
  · match segs with
    | [] => cases hlen
    | [seg] => exact absurd hlen (Nat.lt_irrefl 1)
    | seg :: seg' :: segs =>
        obtain ⟨s', hrun, hf⟩ := executePipeline_reach outcome interactive
          (List.cons_ne_nil seg (seg' :: segs)) hs garbage
        exact hne (hall _ _ hrun hf)

/-- **The status of a job**: for every job that forks and every way its processes end, it is the
status of the last process in every run exactly when `SIGCHLD` is not ignored; so it never is in the
process that `main` sets up. -/
theorem job_status_iff (outcome : List ℕ → Ending) (job : Job) (interactive : Bool) (s : Proc)
    (hjob : Forks job) :
    ¬ JobStatus outcome job interactive (s.onKernel s.kernel.ignore) ∧
      (JobStatus outcome job interactive s ↔ s.kernel.ignored = false) := by
  refine ⟨not_jobStatus job hjob rfl, fun h => ?_, executeJob_status job hjob⟩
  by_contra hs
  exact not_jobStatus job hjob (eq_true_of_ne_false hs) h

/-- The job of the line `ls`. -/
def lsJob : Job := ⟨[⟨[some (ascii "ls"), none], 1, none, none⟩]⟩

theorem job_status_sample : JobStatus (fun _ => .exited 2) lsJob false start :=
  (job_status_iff _ lsJob false start (.inl ⟨_, rfl, by decide⟩)).2.mpr rfl

/-- The process that `main` sets up may take `ls` for failed when it has succeeded. -/
theorem job_status_ignored :
    ¬ JobStatus (fun _ => .exited 0) lsJob false (start.onKernel start.kernel.ignore) :=
  not_jobStatus lsJob (.inl ⟨_, rfl, by decide⟩) rfl

end

end CS214.Shell
