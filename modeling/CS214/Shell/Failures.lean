import CS214.Shell.Wiring

/-!
# Shell — a pipeline that fails

`execute_job` makes the pipes of a pipeline and forks its children before it closes any pipe or
waits for anyone, and it returns at once when one of these calls fails.  `FailStep outcome f` are
the answers by which the call `f` fails and no other call of `pipe` or `fork` does.

* `executePipeline_fails`: what is left then, the pipes that were made and the children that were
  forked.
* `failed_pipeline_iff`: the failure is a clean one exactly when it is the first `pipe` that fails.
-/

open CString Program

namespace CS214.Shell

open Proc

/-! ### Where a pipeline fails -/

/-- A call and its answer. -/
abbrev Entry := Σ c : Call, c.Answer

/-- The pipes that were made. -/
def opened (log : List Entry) : List (ℕ × ℕ) :=
  log.filterMap fun
    | ⟨.pipe, .ok p⟩ => some p
    | _ => none

/-- The children that were forked. -/
def forked (log : List Entry) : List ℕ :=
  log.filterMap fun
    | ⟨.fork, .parent pid⟩ => some pid
    | _ => none

/-- The children that were waited for. -/
def waited (log : List Entry) : List ℕ :=
  log.filterMap fun
    | ⟨.waitpid pid, _⟩ => some pid
    | _ => none

/-- The call that fails: the one behind `i` calls of `pipe`, or behind all of them and `i` calls of
`fork`. -/
inductive Failure where
  | pipe (i : ℕ)
  | fork (i : ℕ)
deriving DecidableEq

namespace Failure

/-- A job of `count` segments makes this call. -/
def Within (count : ℕ) : Failure → Prop
  | .pipe i => i + 1 < count
  | .fork i => i < count

/-- The pipes that are made before. -/
def pipes (count : ℕ) : Failure → ℕ
  | .pipe i => i
  | .fork _ => count - 1

/-- The children that are forked before. -/
def children : Failure → ℕ
  | .pipe _ => 0
  | .fork i => i

/-- Of the calls of `pipe` and `fork`, this one fails and no other. -/
def Strikes (f : Failure) (log : List Entry) : (c : Call) → c.Answer → Prop
  | .pipe, .error _ => f = .pipe (opened log).length
  | .pipe, .ok _ => f ≠ .pipe (opened log).length
  | .fork, .failed _ => f = .fork (forked log).length
  | .fork, _ => f ≠ .fork (forked log).length
  | _, _ => True

end Failure

/-- The answers to a process one of whose calls fails. -/
def FailStep (outcome : List ℕ → Ending) (f : Failure) (s : Proc × List Entry) (c : Call)
    (x : c.Answer) (s' : Proc × List Entry) : Prop :=
  logged (Step outcome) s c x s' ∧ f.Strikes s.2 c x

/-- The status of the job is 1, the pipes that were made are closed, and the children that were
forked have been waited for. -/
structure CleanFailure (r : JobResult) (s : Proc × List Entry) : Prop where
  status : r.status = 1
  closed : ∀ p ∈ opened s.2, s.1.kernel.fds.get p.1 = none ∧ s.1.kernel.fds.get p.2 = none
  waited : ∀ pid ∈ forked s.2, pid ∈ waited s.2

/-- The shell comes from one state to the other by a pipeline of which this call fails. -/
def FailsOnce (outcome : List ℕ → Ending) (f : Failure) (s s' : Proc) : Prop :=
  ∃ (job : Job) (interactive : Bool) (r : JobResult) (log : List Entry),
    2 ≤ job.segments.length ∧ f.Within job.segments.length ∧
      Reach (FailStep outcome f) (executeJob job interactive) (s, []) (.ret r) (s', log)

/-- Pipelines one after the other of which these calls fail. -/
inductive Fails (outcome : List ℕ → Ending) : List Failure → Proc → Proc → Prop where
  | nil (s : Proc) : Fails outcome [] s s
  | cons {f : Failure} {fs : List Failure} {s s₁ s' : Proc} (h : FailsOnce outcome f s s₁)
      (t : Fails outcome fs s₁ s') : Fails outcome (f :: fs) s s'

/-- The same descriptors are open. -/
def SameOpen (k k' : Kernel) : Prop := ∀ fd, k'.fds.get fd = none ↔ k.fds.get fd = none

/-- One of the calls fails before they are all made. -/
theorem Failure.Within.not_passed {f : Failure} {count : ℕ} (h : f.Within count)
    (hpipe : ∀ i, f = .pipe i → i < 0 ∨ count - 1 ≤ i)
    (hfork : ∀ m, f = .fork m → m < 0 ∨ 0 + count ≤ m) : False := by
  cases f with
  | pipe i =>
      have hi : i + 1 < count := h
      have := hpipe i rfl
      omega
  | fork m =>
      have hm : m < count := h
      have := hfork m rfl
      omega

/-! ### What is left -/

/-- These pipes have been made and so many children have been forked, and no pipe was closed and no
child was waited for. -/
structure Underway (s₀ : Proc) (pipes : List (ℕ × ℕ)) (n : ℕ) (s : Proc × List Entry) : Prop where
  piped : ∃ k, Piped s₀.kernel pipes k ∧ s.1.kernel.fds = k.fds
  forks : s.1.kernel.forks = s₀.kernel.forks + n
  opened : opened s.2 = pipes
  forked : forked s.2 = List.range' s₀.kernel.forks n
  waited : waited s.2 = []

variable {outcome : List ℕ → Ending} {f : Failure} {s₀ s s' : Proc} {log log' : List Entry}
  {pipes : List (ℕ × ℕ)} {n count : ℕ} {interactive : Bool} {segs : List JobSegment}

theorem opened_append : opened (log ++ log') = opened log ++ opened log' := List.filterMap_append

theorem forked_append : forked (log ++ log') = forked log ++ forked log' := List.filterMap_append

theorem waited_append : waited (log ++ log') = waited log ++ waited log' := List.filterMap_append

namespace Underway

theorem start : Underway s [] 0 (s, []) := ⟨⟨s.kernel, .nil, rfl⟩, rfl, rfl, rfl, rfl⟩

/-- One more call: the pipe that it made, the child that it forked, no child that it waited for. -/
theorem entry {e : Entry} {pipes' : List (ℕ × ℕ)} {m : ℕ} (h : Underway s₀ pipes n (s, log))
    (hk : ∃ k, Piped s₀.kernel pipes' k ∧ s'.kernel.fds = k.fds)
    (hforks : s'.kernel.forks = s.kernel.forks + m) (ho : pipes ++ Shell.opened [e] = pipes')
    (hf : Shell.forked [e] = List.range' s.kernel.forks m) (hw : Shell.waited [e] = []) :
    Underway s₀ pipes' (n + m) (s', log ++ [e]) := by
  have hsofar : s.kernel.forks = s₀.kernel.forks + n := h.forks
  refine ⟨hk, ?_, ?_, ?_, ?_⟩
  · rw [hforks, hsofar, Nat.add_assoc]
  · rw [opened_append, h.opened, ho]
  · rw [forked_append, h.forked, hf, hsofar, List.range'_append_1]
  · rw [waited_append, h.waited, hw, List.append_nil]

/-- A call that fails, and the `perror` behind it. -/
theorem fail (h : Underway s₀ pipes n (s, log)) (e : Entry) (text : Bytes)
    (ho : Shell.opened [e] = []) (hf : Shell.forked [e] = []) (hw : Shell.waited [e] = []) :
    Underway s₀ pipes n
      (s.onKernel s.kernel.fail, log ++ [e] ++ [⟨.eprintf text, ()⟩]) := by
  have hfailed : Underway s₀ pipes n (s.onKernel s.kernel.fail, log ++ [e]) :=
    h.entry (m := 0) h.piped rfl (by rw [ho, List.append_nil]) hf hw
  exact hfailed.entry (m := 0) h.piped rfl (List.append_nil _) rfl rfl

/-- A child is forked. -/
theorem fork (h : Underway s₀ pipes n (s, log)) :
    Underway s₀ pipes (n + 1)
      (s.onKernel (s.kernel.forked 1), log ++ [⟨.fork, Forked.parent s.kernel.forks⟩]) :=
  h.entry h.piped rfl (List.append_nil _) rfl rfl

/-- A pipe is made. -/
theorem pipe {r w : ℕ} (h : Underway s₀ pipes 0 (s, log)) (hk : Piped s₀.kernel pipes s.kernel)
    (hne : r ≠ w) (hr : s.kernel.fds.get r = none) (hw : s.kernel.fds.get w = none) :
    Underway s₀ (pipes ++ [(r, w)]) 0
      (s.onKernel (s.kernel.addPipe r w), log ++ [⟨.pipe, Except.ok (r, w)⟩]) :=
  h.entry (m := 0) ⟨_, hk.snoc hne hr hw, rfl⟩ rfl rfl rfl rfl

end Underway

/-- The `perror` behind a call that failed. -/
theorem perror_fails {α : Type} {text : Bytes} {g : Unit → SysM α}
    {post : α → Proc × List Entry → Prop}
    (h : (g ()).Always (FailStep outcome f) (fun _ _ => True) post
      (s, log ++ [⟨.eprintf text, ()⟩])) :
    (eprintf text >>= g).Always (FailStep outcome f) (fun _ _ => True) post (s, log) := by
  refine ⟨trivial, fun x s' hx => ?_⟩
  obtain ⟨⟨hs, hlog⟩, -⟩ := hx
  obtain ⟨s', log'⟩ := s'
  cases hs
  cases hlog
  exact h

/-- The loop over `pipe`: the call that fails is one of these, or they are all made. -/
theorem makePipes_fails (h : Underway s₀ pipes 0 (s, log))
    (hk : Piped s₀.kernel pipes s.kernel) :
    (makePipes pipes n).Always (FailStep outcome f) (fun _ _ => True)
      (fun made s' => match made with
        | none => ∃ pipes', f = .pipe pipes'.length ∧ pipes'.length < pipes.length + n ∧
            Underway s₀ pipes' 0 s'
        | some pipes' => (∀ i, f = .pipe i → i < pipes.length ∨ pipes.length + n ≤ i) ∧
            pipes'.length = pipes.length + n ∧ Underway s₀ pipes' 0 s') (s, log) := by
  induction n generalizing pipes s log with
  | zero => exact ⟨fun i _ => Nat.lt_or_ge i pipes.length, rfl, h⟩
  | succ n ih =>
      refine ⟨trivial, fun x s' hx => ?_⟩
      obtain ⟨s', log'⟩ := s'
      obtain ⟨⟨hs, hlog⟩, hf⟩ := hx
      obtain rfl : log' = log ++ [⟨.pipe, x⟩] := hlog
      cases x with
      | error e =>
          cases hs
          have hf : f = .pipe pipes.length := hf.trans (congrArg (Failure.pipe ·.length) h.opened)
          exact perror_fails ⟨pipes, hf, Nat.lt_add_of_pos_right (Nat.succ_pos n),
            h.fail ⟨.pipe, Except.error e⟩ _ rfl rfl rfl⟩
      | ok p =>
          obtain ⟨hne, hr, hw, rfl⟩ := hs
          have hf : f ≠ .pipe pipes.length := fun he =>
            hf (he.trans (congrArg (Failure.pipe ·.length) h.opened.symm))
          have hlen : (pipes ++ [p]).length = pipes.length + 1 := List.length_append
          -- `f` is none of the calls made so far, so what the rest says of it holds of them all
          refine (ih (h.pipe hk hne hr hw) (hk.snoc hne hr hw)).imp fun made s' hm => ?_
          rw [hlen] at hm
          cases made with
          | none =>
              obtain ⟨pipes', hf', hlt, hu⟩ := hm
              exact ⟨pipes', hf', by omega, hu⟩
          | some pipes' =>
              obtain ⟨hno, hlen', hu⟩ := hm
              refine ⟨fun i hi => ?_, by omega, hu⟩
              have hi' : i ≠ pipes.length := fun he => hf (hi.trans (congrArg _ he))
              have := hno i hi
              omega

/-- The loop over `fork`. -/
theorem forkSegments_fails {pids : List ℕ} {i : ℕ} (h : Underway s₀ pipes n (s, log)) :
    (forkSegments pipes count interactive i pids segs).Always (FailStep outcome f)
      (fun _ _ => True)
      (fun done s' => match done with
        | none => ∃ m, f = .fork m ∧ Underway s₀ pipes m s'
        | some _ => ∀ m, f = .fork m → m < n ∨ n + segs.length ≤ m) (s, log) := by
  induction segs generalizing pids i n s log with
  | nil => exact fun m _ => Nat.lt_or_ge m n
  | cons seg segs ih =>
      refine ⟨trivial, fun x s' hx => ?_⟩
      obtain ⟨s', log'⟩ := s'
      obtain ⟨⟨hs, hlog⟩, hf⟩ := hx
      obtain rfl : log' = log ++ [⟨.fork, x⟩] := hlog
      have hlen : (forked log).length = n :=
        (congrArg List.length h.forked).trans List.length_range'
      cases x with
      | failed e =>
          cases hs
          have hf : f = .fork n := hf.trans (congrArg _ hlen)
          exact perror_fails ⟨n, hf, h.fail ⟨.fork, Forked.failed e⟩ _ rfl rfl rfl⟩
      | child =>
          -- a child does not come back to the loop
          have hno : Yields (FailStep outcome f)
              (pipelineChild pipes count i seg interactive : SysM (Option (List ℕ)))
              (s', log ++ [⟨.fork, Forked.child⟩]) fun _ => False := pipelineChild_yields
          exact hno.imp fun _ _ h => h.elim
      | parent pid =>
          obtain ⟨rfl, rfl⟩ := hs
          have hf : f ≠ .fork n := fun he => hf (he.trans (congrArg _ hlen.symm))
          refine (ih h.fork).imp fun done s' hd => ?_
          cases done with
          | none => exact hd
          | some pids' =>
              intro m hm
              have hm' : m ≠ n := fun he => hf (hm.trans (congrArg _ he))
              have := hd m hm
              rw [List.length_cons]
              omega

/-- **What a pipeline leaves that fails**: the status 1, the pipes it had made, open, and the
children it had forked, for whom it did not wait. -/
theorem executePipeline_fails (hf : f.Within segs.length) :
    (executePipeline segs interactive).Always (FailStep outcome f) (fun _ _ => True)
      (fun r s' => r = ⟨0, 1⟩ ∧ ∃ pipes, pipes.length = f.pipes segs.length ∧
        Underway s pipes f.children s') (s, []) := by
  refine (makePipes_fails .start .nil).bind fun made s₁ hmade => ?_
  cases made with
  | none =>
      obtain ⟨pipes, rfl, -, h⟩ := hmade
      exact ⟨rfl, pipes, rfl, h⟩
  | some pipes =>
      obtain ⟨hno, hlen, h⟩ := hmade
      rw [List.length_nil, Nat.zero_add] at hno hlen
      refine (forkSegments_fails h).bind fun done s₂ hdone => ?_
      cases done with
      | none =>
          obtain ⟨m, rfl, h⟩ := hdone
          exact ⟨rfl, pipes, hlen, h⟩
      | some pids =>
          -- all the calls were made, and one of them fails
          exact (hf.not_passed hno hdone).elim

theorem executeJob_fails {job : Job} (hcount : 2 ≤ job.segments.length)
    (hf : f.Within job.segments.length) :
    (executeJob job interactive).Always (FailStep outcome f) (fun _ _ => True)
      (fun r s' => r = ⟨0, 1⟩ ∧ ∃ pipes, pipes.length = f.pipes job.segments.length ∧
        Underway s pipes f.children s') (s, []) := by
  obtain ⟨segs⟩ := job
  match segs with
  | [] => cases hcount
  | [seg] => exact absurd hcount (Nat.lt_irrefl 1)
  | seg :: seg' :: segs => exact executePipeline_fails hf

/-! ### A pipeline that fails returns -/

theorem failStep {c : Call} {x : c.Answer} (h : Step outcome s c x s')
    (hf : f.Strikes log c x) : FailStep outcome f (s, log) c x (s', log ++ [⟨c, x⟩]) :=
  ⟨⟨h, rfl⟩, hf⟩

theorem perror_returns {α : Type} {text : Bytes} {a : α} :
    Reach (FailStep outcome f) (eprintf text >>= fun _ => .ret a) (s, log) (.ret a)
      (s, log ++ [⟨.eprintf text, ()⟩]) := by
  have herror : Step outcome s (.eprintf text) () s := rfl
  exact .head (failStep herror trivial) (.refl _ _)

theorem makePipes_returns (outcome : List ℕ → Ending) (f : Failure) (n : ℕ)
    (pipes : List (ℕ × ℕ)) (s : Proc) (log : List Entry) :
    ∃ made s', Reach (FailStep outcome f) (makePipes pipes n) (s, log) (.ret made) s' := by
  induction n generalizing pipes s log with
  | zero => exact ⟨some pipes, _, .refl _ _⟩
  | succ n ih =>
      by_cases hf : f = .pipe (opened log).length
      · have hpipe : Step outcome s .pipe (Except.error []) (s.onKernel s.kernel.fail) := rfl
        exact ⟨none, _, .head (failStep hpipe hf) perror_returns⟩
      · obtain ⟨r, w, hne, hw, ⟨hr, -⟩, -⟩ := s.kernel.fds.exists_closed
        have hpipe : Step outcome s .pipe (Except.ok (r, w))
            (s.onKernel (s.kernel.addPipe r w)) := ⟨hne, hr, hw, rfl⟩
        obtain ⟨made, s', hrun⟩ := ih (pipes ++ [(r, w)]) _ _
        exact ⟨made, s', .head (failStep hpipe hf) hrun⟩

theorem forkSegments_returns (outcome : List ℕ → Ending) (f : Failure) (pipes : List (ℕ × ℕ))
    (count : ℕ) (interactive : Bool) (segs : List JobSegment) (i : ℕ) (pids : List ℕ) (s : Proc)
    (log : List Entry) :
    ∃ done s', Reach (FailStep outcome f) (forkSegments pipes count interactive i pids segs)
      (s, log) (.ret done) s' := by
  induction segs generalizing i pids s log with
  | nil => exact ⟨some pids, _, .refl _ _⟩
  | cons seg segs ih =>
      by_cases hf : f = .fork (forked log).length
      · have hfork : Step outcome s .fork (Forked.failed []) (s.onKernel s.kernel.fail) := rfl
        exact ⟨none, _, .head (failStep hfork hf) perror_returns⟩
      · have hfork : Step outcome s .fork (Forked.parent s.kernel.forks)
            (s.onKernel (s.kernel.forked 1)) := ⟨rfl, rfl⟩
        obtain ⟨done, s', hrun⟩ := ih (i + 1) (pids ++ [s.kernel.forks]) _ _
        exact ⟨done, s', .head (failStep hfork hf) hrun⟩

/-- There is a run in which this call fails. -/
theorem executePipeline_returns (outcome : List ℕ → Ending) (s : Proc) (interactive : Bool)
    (hf : f.Within segs.length) :
    ∃ r s', Reach (FailStep outcome f) (executePipeline segs interactive) (s, []) (.ret r) s' := by
  obtain ⟨made, ⟨s₁, log⟩, hmake⟩ :=
    makePipes_returns outcome f (segs.length - 1) [] s []
  have hmade := (makePipes_fails .start .nil).done hmake
  cases made with
  | none => exact ⟨_, _, hmake.seq (.refl _ _)⟩
  | some pipes =>
      obtain ⟨hno, hlen, h⟩ := hmade
      rw [List.length_nil, Nat.zero_add] at hno
      obtain ⟨done, s₂, hfork⟩ :=
        forkSegments_returns outcome f pipes segs.length interactive segs 0 [] s₁ log
      have hdone := (forkSegments_fails h).done hfork
      cases done with
      | none => exact ⟨_, _, hmake.seq (hfork.seq (.refl _ _))⟩
      | some pids => exact (hf.not_passed hno hdone).elim

theorem executeJob_returns (outcome : List ℕ → Ending) (s : Proc) (interactive : Bool) {job : Job}
    (hcount : 2 ≤ job.segments.length) (hf : f.Within job.segments.length) :
    ∃ r s', Reach (FailStep outcome f) (executeJob job interactive) (s, []) (.ret r) s' := by
  obtain ⟨segs⟩ := job
  match segs with
  | [] => cases hcount
  | [seg] => exact absurd hcount (Nat.lt_irrefl 1)
  | seg :: seg' :: segs => exact executePipeline_returns outcome s interactive hf

/-! ### Which failures are clean -/

/-- No pipe is made before the first call of `pipe`, and before no other call. -/
theorem Failure.Within.pipes_eq_zero (h : f.Within count) (hcount : 2 ≤ count) :
    f.pipes count = 0 ↔ f = .pipe 0 := by
  cases f with
  | pipe i => exact (Failure.pipe.injEq i 0).to_iff.symm
  | fork i =>
      refine iff_of_false (fun h0 => ?_) nofun
      have : count - 1 = 0 := h0
      omega

namespace Underway

variable {t : Proc × List Entry}

/-- A pipe that was made is open. -/
theorem pipes_open (h : Underway s₀ pipes n t) {p : ℕ × ℕ} (hp : p ∈ pipes) :
    t.1.kernel.fds.get p.1 ≠ none := by
  obtain ⟨k, hk, hfds⟩ := h.piped
  obtain ⟨j, hj⟩ := List.mem_iff_getElem?.mp hp
  rw [hfds, (hk.get_ends hj).1]
  exact nofun

/-- What was open still is. -/
theorem keeps (h : Underway s₀ pipes n t) {fd : ℕ} (hfd : t.1.kernel.fds.get fd = none) :
    s₀.kernel.fds.get fd = none := by
  obtain ⟨k, hk, hfds⟩ := h.piped
  by_contra hopen
  rw [hfds, hk.get_open hopen] at hfd
  exact hopen hfd

theorem clean_iff (h : Underway s₀ pipes n t) : CleanFailure ⟨0, 1⟩ t ↔ pipes = [] ∧ n = 0 := by
  constructor
  · intro hc
    refine ⟨List.eq_nil_iff_forall_not_mem.mpr fun p hp => ?_, ?_⟩
    · exact h.pipes_open hp (hc.closed p (h.opened ▸ hp)).1
    · -- the first child was forked, and nobody was waited for
      by_contra hn
      have hwaited := hc.waited s₀.kernel.forks
      rw [h.forked, h.waited] at hwaited
      exact absurd (hwaited (List.mem_range'_1.mpr ⟨Nat.le_refl _, by omega⟩)) nofun
  · rintro ⟨rfl, rfl⟩
    refine ⟨rfl, fun p hp => ?_, fun pid hpid => ?_⟩
    · rw [h.opened] at hp
      cases hp
    · rw [h.forked] at hpid
      cases hpid

theorem sameOpen_iff (h : Underway s₀ pipes n t) :
    SameOpen s₀.kernel t.1.kernel ↔ pipes = [] := by
  obtain ⟨k, hk, hfds⟩ := h.piped
  constructor
  · intro hsame
    refine List.eq_nil_iff_forall_not_mem.mpr fun p hp => h.pipes_open hp ((hsame p.1).mpr ?_)
    exact hk.closed ⟨p, hp, .inl rfl⟩
  · rintro rfl fd
    rw [hfds, hk.get_other nofun]

end Underway

/-- One failing pipeline. -/
theorem FailsOnce.open (h : FailsOnce outcome f s s') :
    (∀ fd, s'.kernel.fds.get fd = none → s.kernel.fds.get fd = none) ∧
      (SameOpen s.kernel s'.kernel ↔ f = .pipe 0) := by
  obtain ⟨job, interactive, r, log, hcount, hf, hrun⟩ := h
  obtain ⟨-, pipes, hlen, hu⟩ := (executeJob_fails hcount hf).done hrun
  refine ⟨fun fd => hu.keeps, hu.sameOpen_iff.trans ?_⟩
  rw [← hf.pipes_eq_zero hcount, ← hlen, List.length_eq_zero_iff]

/-- Any number of failing pipelines. -/
theorem Fails.open {fs : List Failure} (h : Fails outcome fs s s') :
    (∀ fd, s'.kernel.fds.get fd = none → s.kernel.fds.get fd = none) ∧
      (SameOpen s.kernel s'.kernel ↔ ∀ f ∈ fs, f = .pipe 0) := by
  induction h with
  | nil s => exact ⟨fun _ => id, iff_of_true (fun _ => Iff.rfl) nofun⟩
  | @cons f fs s s₁ s' h _ ih =>
      obtain ⟨hkeep, hfirst⟩ := h.open
      obtain ⟨hkeep', hrest⟩ := ih
      refine ⟨fun fd hfd => hkeep fd (hkeep' fd hfd), ?_⟩
      rw [List.forall_mem_cons, ← hfirst, ← hrest]
      -- no descriptor is closed, so one that is open in between is open at the end
      constructor
      · intro hsame
        exact ⟨fun fd => ⟨hkeep fd, fun hfd => hkeep' fd ((hsame fd).mpr hfd)⟩,
          fun fd => ⟨hkeep' fd, fun hfd => (hsame fd).mpr (hkeep fd hfd)⟩⟩
      · rintro ⟨h₁, h₂⟩ fd
        exact (h₂ fd).trans (h₁ fd)

/-- **Clean failure of a pipeline**: whichever call of `pipe` or `fork` fails, the job returns the
status 1; every pipe it made is closed and every child it forked waited for exactly when that call
is its first.  So any number of failing pipelines leaves the open descriptors as they were exactly
when each of them failed at its first call. -/
theorem failed_pipeline_iff (outcome : List ℕ → Ending) :
    (∀ (job : Job) (interactive : Bool) (f : Failure) (s : Proc), 2 ≤ job.segments.length →
      f.Within job.segments.length →
      (∃ r s', Reach (FailStep outcome f) (executeJob job interactive) (s, []) (.ret r) s') ∧
      ∀ r s', Reach (FailStep outcome f) (executeJob job interactive) (s, []) (.ret r) s' →
        r.status = 1 ∧ (CleanFailure r s' ↔ f = .pipe 0)) ∧
    ∀ fs s s', Fails outcome fs s s' →
      (SameOpen s.kernel s'.kernel ↔ ∀ f ∈ fs, f = .pipe 0) := by
  refine ⟨fun job interactive f s hcount hf => ?_, fun fs s s' h => h.open.2⟩
  refine ⟨executeJob_returns outcome s interactive hcount hf, fun r s' hrun => ?_⟩
  obtain ⟨rfl, pipes, hlen, hu⟩ := (executeJob_fails hcount hf).done hrun
  refine ⟨rfl, hu.clean_iff.trans ⟨fun h => ?_, ?_⟩⟩
  · rw [← hf.pipes_eq_zero hcount, ← hlen, h.1]
    rfl
  · rintro rfl
    exact ⟨List.eq_nil_of_length_eq_zero hlen, rfl⟩

theorem failed_pipeline_iff_first :
    (∃ r s', Reach (FailStep (fun _ => .exited 0) (.pipe 0)) (executeJob pipeJob false)
      (Proc.start, []) (.ret r) s' ∧ CleanFailure r s') ∧
    ∃ s', Fails (fun _ => .exited 0) [.pipe 0, .fork 1] Proc.start s' ∧
      ¬ SameOpen Proc.start.kernel s'.kernel := by
  have hcount : 2 ≤ pipeJob.segments.length := Nat.le_refl 2
  have hpipe : (Failure.pipe 0).Within pipeJob.segments.length := Nat.lt_succ_self 1
  have hfork : (Failure.fork 1).Within pipeJob.segments.length := Nat.lt_succ_self 1
  obtain ⟨hone, hmany⟩ := failed_pipeline_iff fun _ => .exited 0
  obtain ⟨⟨r, s₁, hrun⟩, hall⟩ := hone pipeJob false (.pipe 0) Proc.start hcount hpipe
  obtain ⟨⟨r', s₂, hrun'⟩, -⟩ := hone pipeJob false (.fork 1) s₁.1 hcount hfork
  have hfails : Fails (fun _ => .exited 0) [.pipe 0, .fork 1] Proc.start s₂.1 :=
    .cons ⟨pipeJob, false, r, s₁.2, hcount, hpipe, hrun⟩
      (.cons ⟨pipeJob, false, r', s₂.2, hcount, hfork, hrun'⟩ (.nil _))
  refine ⟨⟨r, s₁, hrun, (hall r s₁ hrun).2.mpr rfl⟩, s₂.1, hfails, fun hsame => ?_⟩
  exact absurd ((hmany _ _ _ hfails).mp hsame (.fork 1) (by decide)) (by decide)

/-- When the second child of `ls | wc` cannot be forked, the pipe stays open and nobody waits for
the first one. -/
theorem failed_pipeline_leaks : ∃ r s', Reach (FailStep (fun _ => .exited 0) (.fork 1))
    (executeJob pipeJob false) (Proc.start, []) (.ret r) s' ∧ ¬ CleanFailure r s' ∧
      ¬ SameOpen Proc.start.kernel s'.1.kernel ∧ 0 ∈ forked s'.2 ∧ 0 ∉ waited s'.2 := by
  have hcount : 2 ≤ pipeJob.segments.length := Nat.le_refl 2
  have hf : (Failure.fork 1).Within pipeJob.segments.length := Nat.lt_succ_self 1
  obtain ⟨r, s', hrun⟩ := executeJob_returns (fun _ => .exited 0) Proc.start false hcount hf
  obtain ⟨rfl, pipes, hlen, hu⟩ := (executeJob_fails hcount hf).done hrun
  have hne : pipes ≠ [] := fun h => by
    rw [h] at hlen
    cases hlen
  refine ⟨_, s', hrun, fun hc => hne (hu.clean_iff.mp hc).1, fun h => hne (hu.sameOpen_iff.mp h),
    ?_, ?_⟩
  · rw [hu.forked]
    exact List.mem_singleton_self 0
  · rw [hu.waited]
    exact nofun

end CS214.Shell
