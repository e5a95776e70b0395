import Mathlib.Data.List.Nodup
import CS214.Shell.Rules

/-!
# Shell — the descriptors of a job

A shell makes all the pipes of a job before it forks the first child, so every process of the job
starts with both ends of every pipe.  The shell may hold ends of older pipes, which a pipeline that
failed has left, and its children have them too.

* `executeJob_wired`: when the calls that set up a process have succeeded, what it holds once it is
  past them is what `Wired` says of it.
* `numbered_reach`: a shell holds ends of pipes that were made before, and of no others.
* `pipeline_wiring`: in a system where every process has come so far, each end of a pipe of the job
  is held once, by the child next to it, and no child reads the input of the shell.
-/

open CString Program

namespace CS214.Shell

open Proc

/-! ### What a process of a job holds -/

/-- A shell before a job: descriptors 0 to 2 are open. -/
def Ready (k : Kernel) : Prop := ∀ fd, fd < 3 → k.fds.get fd ≠ none

/-- Child `i` of a job of `count` segments: the end of the pipe before it is its input, and that of
the pipe behind it its output.  What else it holds are files, and what the shell held before the
job, in the same place.  The first child of a shell that is not interactive reads a file. -/
structure ChildWired (k₀ : Kernel) (count i : ℕ) (interactive : Bool) (k : Kernel) : Prop where
  input : 0 < i → k.fds.get 0 = some (.readEnd (k₀.pipes + (i - 1)))
  output : i + 1 < count → k.fds.get 1 = some (.writeEnd (k₀.pipes + i))
  others : ∀ fd d, k.fds.get fd = some d → fd = 0 ∧ 0 < i ∨ fd = 1 ∧ i + 1 < count ∨
    (∃ path mode, d = .file path mode) ∨ k₀.fds.get fd = some d
  file : interactive = false → i = 0 → ∃ path, k.fds.get 0 = some (.file path .readOnly)

/-- A process of a job: the shell, with the descriptors it had, or one of the children. -/
def Wired (k₀ : Kernel) (count : ℕ) (interactive : Bool) (k : Kernel) : Prop :=
  (k.name = k₀.name ∧ (∀ fd, k.fds.get fd = k₀.fds.get fd) ∧
    (2 ≤ count → k.forks = k₀.forks + count)) ∨
  ∃ i, i < count ∧ k.name = k₀.name ++ [k₀.forks + i] ∧ ChildWired k₀ count i interactive k

variable {outcome : List ℕ → Ending} {k₀ k k' : Kernel} {count i : ℕ} {pipes : List (ℕ × ℕ)}
  {seg : JobSegment} {interactive : Bool}

/-! ### The pipes -/

/-- The ends of a pipe stand for it. -/
theorem Piped.get_ends (h : Piped k₀ pipes k) {j r w : ℕ} (hj : pipes[j]? = some (r, w)) :
    k.fds.get r = some (.readEnd (k₀.pipes + j)) ∧
      k.fds.get w = some (.writeEnd (k₀.pipes + j)) := by
  induction h with
  | nil => cases hj
  | @snoc pipes k' r' w' h hne hr hw ih =>
      have hget : ∀ fd, (k'.addPipe r' w').fds.get fd =
          if fd = w' then some (.writeEnd k'.pipes)
          else if fd = r' then some (.readEnd k'.pipes) else k'.fds.get fd := fun fd => by
        rw [Kernel.addPipe, Table.get_put, Table.get_put]
      rw [List.getElem?_append] at hj
      split at hj
      · -- an older pipe, whose ends are open
        obtain ⟨hr₀, hw₀⟩ := ih hj
        have hclosed : ∀ {fd d}, k'.fds.get fd = some d → fd ≠ r' ∧ fd ≠ w' := by
          intro fd d hd
          constructor
          · rintro rfl
            rw [hr] at hd
            cases hd
          · rintro rfl
            rw [hw] at hd
            cases hd
        rw [hget, hget, if_neg (hclosed hr₀).2, if_neg (hclosed hr₀).1, if_neg (hclosed hw₀).2,
          if_neg (hclosed hw₀).1]
        exact ⟨hr₀, hw₀⟩
      · next hlen =>
          obtain ⟨hj₀, heq⟩ := List.getElem?_eq_some_iff.mp hj
          rw [List.length_singleton] at hj₀
          have hj' : j = pipes.length := by omega
          subst hj'
          cases (List.getElem_singleton hj₀).symm.trans heq
          rw [hget, hget, if_neg hne, if_pos rfl, if_pos rfl, h.pipes_eq]
          exact ⟨rfl, rfl⟩

/-- Only the ends of the pipes are new. -/
theorem Piped.get_other (h : Piped k₀ pipes k) {fd : ℕ} (hfd : ¬ IsEnd pipes fd) :
    k.fds.get fd = k₀.fds.get fd := by
  induction h with
  | nil => rfl
  | @snoc pipes k' r w h hne hr hw ih =>
      have hlast : fd ≠ r ∧ fd ≠ w := not_or.mp fun he =>
        hfd ⟨(r, w), List.mem_append_right _ (List.mem_singleton_self _), he⟩
      have hold : ¬ IsEnd pipes fd := fun ⟨p, hp, he⟩ => hfd ⟨p, List.mem_append_left _ hp, he⟩
      exact ((Table.get_put_ne hlast.2).trans (Table.get_put_ne hlast.1)).trans (ih hold)

/-- Closing the pipes leaves the descriptors from before them. -/
theorem Piped.closeAll (h : Piped k₀ pipes k) (hk : k'.fds = k.fds) (fd : ℕ) :
    (k'.closeAll pipes).fds.get fd = k₀.fds.get fd := by
  by_cases hfd : IsEnd pipes fd
  · rw [closeAll_end (.inl hfd), h.closed hfd]
  · rw [closeAll_other hfd, hk, h.get_other hfd]

/-- The ends of pipe `j` of those that were made. -/
theorem Piped.pipeAt (h : Piped k₀ pipes k) {j : ℕ} (hj : j < pipes.length) :
    pipeAt pipes j ∈ pipes ∧ k.fds.get (pipeAt pipes j).1 = some (.readEnd (k₀.pipes + j)) ∧
      k.fds.get (pipeAt pipes j).2 = some (.writeEnd (k₀.pipes + j)) := by
  have hget : pipes[j]? = some (CS214.Shell.pipeAt pipes j) := by
    rw [CS214.Shell.pipeAt, List.getD_eq_getElem?_getD, List.getElem?_eq_getElem hj]
    rfl
  exact ⟨List.mem_of_getElem? hget, h.get_ends hget⟩

theorem wiredInput_get (h : Piped k₀ pipes k) (hi : i ≤ pipes.length) (hk : k'.fds = k.fds)
    (fd : ℕ) : (wiredInput pipes i k').fds.get fd =
      if fd = 0 ∧ 0 < i then some (.readEnd (k₀.pipes + (i - 1))) else k.fds.get fd := by
  unfold wiredInput
  split
  · next hpos =>
      obtain ⟨-, hr, -⟩ := h.pipeAt (j := i - 1) (by omega)
      rw [← hk] at hr
      rw [get_dup (by rw [hr]; exact nofun), hr, hk]
      simp only [hpos, and_true]
  · next hpos => rw [if_neg fun hc => hpos hc.2, hk]

/-- What child `i` has when its pipes are set up. -/
theorem wired_get (hin₀ : k₀.fds.get 0 ≠ none) (hout₀ : k₀.fds.get 1 ≠ none)
    (h : Piped k₀ pipes k) (hlen : pipes.length = count - 1) (hi : i < count)
    (hk : k'.fds = k.fds) (fd : ℕ) :
    (wired pipes count i k').fds.get fd =
      if fd = 0 ∧ 0 < i then some (.readEnd (k₀.pipes + (i - 1)))
      else if fd = 1 ∧ i < count - 1 then some (.writeEnd (k₀.pipes + i))
      else k₀.fds.get fd := by
  have hin := wiredInput_get h (i := i) (by omega) hk
  have hno₀ : ¬ IsEnd pipes 0 := fun he => hin₀ (h.closed he)
  have hno₁ : ¬ IsEnd pipes 1 := fun he => hout₀ (h.closed he)
  by_cases hend : IsEnd pipes fd
  · -- the ends of the pipes are closed, and were before the job
    have h0 : fd ≠ 0 := fun e => hno₀ (e ▸ hend)
    have h1 : fd ≠ 1 := fun e => hno₁ (e ▸ hend)
    rw [wired, closeAll_end (.inl hend), if_neg fun hc => h0 hc.1, if_neg fun hc => h1 hc.1,
      h.closed hend]
  · rw [wired, closeAll_other hend, ← h.get_other hend]
    unfold wiredOutput
    split
    · next hlast =>
        obtain ⟨hmem, -, hw⟩ := h.pipeAt (j := i) (by omega)
        have hne : (pipeAt pipes i).2 ≠ 0 := fun e => hno₀ ⟨_, hmem, .inr e.symm⟩
        have hold := hin (pipeAt pipes i).2
        rw [if_neg fun hc => hne hc.1, hw] at hold
        rw [get_dup (by rw [hold]; exact Option.some_ne_none _), hold, hin]
        simp only [hlast, and_true]
        split
        · next h1 => rw [if_neg fun hc => by rw [h1] at hc; exact absurd hc.1 (by decide)]
        · rfl
    · next hlast =>
        rw [hin]
        simp only [hlast, and_false, if_false]

/-! ### The files -/

/-- A file of a segment takes the place of a descriptor that is no end of a pipe. -/
theorem Redirected.get_all {path : Bytes} {mode : OpenMode} {target : ℕ}
    (h : Redirected path mode target k k') (ht : k.fds.get target ≠ none) (fd : ℕ) :
    k'.fds.get fd = if fd = target then some (.file path mode) else k.fds.get fd := by
  by_cases hfd : k.fds.get fd = none
  · have hne : fd ≠ target := fun e => ht (e ▸ hfd)
    obtain ⟨new, hnew, rfl⟩ := h
    have hput : (k.put new (some (.file path mode))).fds.get new = some (.file path mode) :=
      Table.get_put_self
    have hopen : (k.put new (some (.file path mode))).fds.get new ≠ none := by
      rw [hput]
      exact Option.some_ne_none _
    rw [if_neg hne, Kernel.put, Table.get_put, get_dup hopen, if_neg hne, Kernel.put,
      Table.get_put, hfd]
    split <;> rfl
  · exact h.get hfd

section

variable {file : Option (Bytes × OpenMode)} {target fd : ℕ}

theorem RedirectedOpt.get_other (h : RedirectedOpt file target k k')
    (ht : k.fds.get target ≠ none) (hfd : fd ≠ target) : k'.fds.get fd = k.fds.get fd := by
  cases file with
  | none =>
      cases h
      rfl
  | some f => exact (Redirected.get_all h ht fd).trans (if_neg hfd)

theorem RedirectedOpt.get_target {path : Bytes} {mode : OpenMode}
    (h : RedirectedOpt (some (path, mode)) target k k') (ht : k.fds.get target ≠ none) :
    k'.fds.get target = some (.file path mode) :=
  (Redirected.get_all h ht target).trans (if_pos rfl)

/-- What child `i` holds, with its input and output open. -/
structure EndsWired (k₀ : Kernel) (count i : ℕ) (k : Kernel) : Prop where
  input : 0 < i → k.fds.get 0 = some (.readEnd (k₀.pipes + (i - 1)))
  output : i + 1 < count → k.fds.get 1 = some (.writeEnd (k₀.pipes + i))
  others : ∀ fd d, k.fds.get fd = some d → fd = 0 ∧ 0 < i ∨ fd = 1 ∧ i + 1 < count ∨
    (∃ path mode, d = .file path mode) ∨ k₀.fds.get fd = some d
  reads : k.fds.get 0 ≠ none
  writes : k.fds.get 1 ≠ none

/-- A file takes the place of an end of a pipe nowhere. -/
theorem EndsWired.redirect (h : EndsWired k₀ count i k) (hr : RedirectedOpt file target k k')
    (hfile : file.isSome = true → target = 0 ∧ i = 0 ∨ target = 1 ∧ ¬ i + 1 < count) :
    EndsWired k₀ count i k' := by
  cases file with
  | none =>
      cases hr
      exact h
  | some f =>
      have htarget := hfile rfl
      have hopen : k.fds.get target ≠ none := by
        rcases htarget with ⟨rfl, -⟩ | ⟨rfl, -⟩
        · exact h.reads
        · exact h.writes
      have hget := Redirected.get_all hr hopen
      refine ⟨fun hi => ?_, fun hi => ?_, fun fd d hd => ?_, hr.open h.reads, hr.open h.writes⟩
      · rw [hget 0, if_neg (by omega)]
        exact h.input hi
      · rw [hget 1, if_neg (by omega)]
        exact h.output hi
      · rw [hget fd] at hd
        split at hd
        · cases hd
          exact .inr (.inr (.inl ⟨_, _, rfl⟩))
        · exact h.others fd d hd

/-- The pipes of child `i` are set up. -/
theorem endsWired_of_get (hk₀ : Ready k₀) (hi : i < count)
    (hget : ∀ fd, k.fds.get fd =
      if fd = 0 ∧ 0 < i then some (.readEnd (k₀.pipes + (i - 1)))
      else if fd = 1 ∧ i < count - 1 then some (.writeEnd (k₀.pipes + i))
      else k₀.fds.get fd) : EndsWired k₀ count i k := by
  refine ⟨fun hpos => ?_, fun hlt => ?_, fun fd d hd => ?_, ?_, ?_⟩
  · rw [hget 0, if_pos ⟨rfl, hpos⟩]
  · rw [hget 1, if_neg fun hc => absurd hc.1 (by decide), if_pos ⟨rfl, by omega⟩]
  · rw [hget fd] at hd
    split at hd
    · next h => exact .inl h
    · split at hd
      · next h => exact .inr (.inl ⟨h.1, by omega⟩)
      · exact .inr (.inr (.inr hd))
  · rw [hget 0]
    split
    · exact nofun
    · exact hk₀ 0 (by decide)
  · rw [hget 1]
    split
    · exact nofun
    · split
      · exact nofun
      · exact hk₀ 1 (by decide)

theorem nullOf_first {first : Bool} (h : (nullOf first interactive seg).isSome = true) :
    first = true := by
  unfold nullOf at h
  split at h
  · next hc => exact (Bool.and_eq_true_iff.mp (Bool.and_eq_true_iff.mp hc).1).1
  · cases h

theorem inputOf_first {first : Bool} (h : (inputOf first seg).isSome = true) : first = true := by
  unfold inputOf at h
  split at h
  · assumption
  · cases h

theorem outputOf_last {last : Bool} (h : (outputOf last seg).isSome = true) : last = true := by
  unfold outputOf at h
  split at h
  · assumption
  · cases h

/-- Child `i` with its files opened. -/
theorem EndsWired.files (h : EndsWired k₀ count i k)
    (hf : FilesOpened (i = 0) (i = count - 1) interactive seg k k') :
    ChildWired k₀ count i interactive k' := by
  obtain ⟨k₁, k₂, h₁, h₂, h₃⟩ := hf
  have e₁ := h.redirect h₁ fun hs => .inl ⟨rfl, of_decide_eq_true (nullOf_first hs)⟩
  have e₂ := e₁.redirect h₂ fun hs => .inl ⟨rfl, of_decide_eq_true (inputOf_first hs)⟩
  have e₃ := e₂.redirect h₃ fun hs =>
    .inr ⟨rfl, by have := of_decide_eq_true (outputOf_last hs); omega⟩
  refine ⟨e₃.input, e₃.output, e₃.others, fun hint hi => ?_⟩
  have hkeep : k'.fds.get 0 = k₂.fds.get 0 := h₃.get_other e₂.writes (by decide)
  subst hi
  -- the first child reads its file or `/dev/null`
  cases hin : seg.inputFile with
  | none =>
      have hnull : nullOf (decide (0 = 0)) interactive seg =
          some (ascii "/dev/null", .readOnly) := by
        rw [nullOf, hint, hin]
        rfl
      have hinput : inputOf (decide (0 = 0)) seg = none := by
        rw [inputOf, hin]
        rfl
      rw [hnull] at h₁
      rw [hinput] at h₂
      cases h₂
      exact ⟨_, hkeep.trans (h₁.get_target h.reads)⟩
  | some path =>
      have hinput : inputOf (decide (0 = 0)) seg = some (path, .readOnly) := by
        rw [inputOf, hin]
        rfl
      rw [hinput] at h₂
      exact ⟨path, hkeep.trans (h₂.get_target e₁.reads)⟩

end

/-! ### A job -/

/-- What a process of the job that is past its set-up holds. -/
def WiredCall (k₀ : Kernel) (count : ℕ) (interactive : Bool) (s : Proc) (c : Call) : Prop :=
  c.setsUp = false → s.kernel.failures = k₀.failures → Wired k₀ count interactive s.kernel

/-- The same of a process that is done. -/
def WiredEnd (k₀ : Kernel) (count : ℕ) (interactive : Bool) (_ : JobResult) (s : Proc) : Prop :=
  s.kernel.failures = k₀.failures → Wired k₀ count interactive s.kernel

theorem wiredCall_setUp (s : Proc) : AllowsSetUp (WiredCall k₀ count interactive) s :=
  fun _ _ _ hc _ hc' => absurd (hc.symm.trans hc') nofun

theorem wiredCall_failed : AllowsFailed (WiredCall k₀ count interactive) k₀.failures :=
  fun _ hlt => ⟨fun _ _ hs _ _ hf => absurd (hs ▸ hf) (Nat.ne_of_gt hlt),
    fun _ _ hs _ _ hf => absurd (hs ▸ hf) (Nat.ne_of_gt hlt)⟩

theorem wiredCall_of_wired (h : Wired k₀ count interactive k) :
    Allows (WiredCall k₀ count interactive) k :=
  ⟨fun _ _ hs _ _ _ => hs ▸ h, fun _ _ hs _ _ _ => hs ▸ h⟩

section

variable {s : Proc} {segs : List JobSegment}

/-- A child with its pipes set up, when its files are opened. -/
theorem wired_child (hi : i < count) (hname : k.name = k₀.name ++ [k₀.forks + i])
    (h : EndsWired k₀ count i k)
    (hf : FilesOpened (i = 0) (i = count - 1) interactive seg k k') :
    Wired k₀ count interactive k' :=
  .inr ⟨i, hi, hf.onlyFds.name.trans hname, h.files hf⟩

theorem executeSingle_wired (hk : Ready s.kernel) :
    (executeSingle seg interactive).Always (Step outcome) (WiredCall s.kernel 1 interactive)
      (WiredEnd s.kernel 1 interactive) s := by
  have hshell : ∀ n, Wired s.kernel 1 interactive (s.kernel.forked n) := fun n =>
    .inl ⟨rfl, fun _ => rfl, fun h => absurd h (by decide)⟩
  unfold executeSingle
  split
  · refine always_bind.mpr (talk_rule (executeBuiltin_talks _ _ _)
      (fun s' c hs hc => (wiredCall_of_wired (hshell 0)).talk s' c hs hc) fun r s' hs => ?_)
    split <;> exact fun _ => hs ▸ hshell 0
  · refine fork_rule nofun (fun e => eprintf_rule ?_ fun hf => ?_) ?_ ?_
    · exact (wiredCall_failed s.kernel.fail (Nat.lt_succ_self _)).talk _ _ rfl rfl
    · exact absurd hf (Nat.succ_ne_self _)
    · refine singleChild_rule (wiredCall_setUp _) (hk 1 (by decide)) wiredCall_failed
        fun k' hf => wiredCall_of_wired (wired_child (i := 0) (by decide) rfl ?_ hf)
      exact endsWired_of_get hk (by decide) fun fd => by
        rw [if_neg fun h => absurd h.2 (by decide), if_neg fun h => absurd h.2 (by decide)]
        rfl
    · have hallow := wiredCall_of_wired (hshell 1)
      exact waitFor_rule (hallow.talk _ _ rfl rfl) (hallow.talk _ _ rfl rfl) fun _ _ => hshell 1

theorem executePipeline_wired (hk : Ready s.kernel) :
    (executePipeline segs interactive).Always (Step outcome)
      (WiredCall s.kernel segs.length interactive) (WiredEnd s.kernel segs.length interactive)
      s := by
  have hlost : ∀ k : Kernel, k.failures = s.kernel.failures →
      k.fail.failures ≠ s.kernel.failures := fun k hk h => Nat.succ_ne_self _ (h.trans hk.symm)
  refine always_bind.mpr (makePipes_rule (fun _ => nofun) wiredCall_failed (fun _ k hp hf => ?_)
    fun pipes k hp hlen => ?_)
  · exact absurd hf (hlost k hp.failures)
  have hfailed : AllowsFailed (WiredCall s.kernel segs.length interactive) k.failures :=
    hp.failures ▸ wiredCall_failed
  refine always_bind.mpr (forkSegments_rule (fun _ => nofun) hfailed (fun n seg hseg => ?_)
    (fun n _ hf => ?_) ?_)
  · -- a child, forked when all pipes are there
    obtain ⟨hn, -⟩ := List.getElem?_eq_some_iff.mp hseg
    rw [Nat.zero_add]
    have hnot : ¬ IsEnd pipes 1 := fun he => hk 1 (by decide) (hp.closed he)
    have hout : k.fds.get 1 ≠ none := by
      rw [hp.get_other hnot]
      exact hk 1 (by decide)
    refine pipelineChild_rule (wiredCall_setUp _) hout hnot hfailed fun k' hf =>
      wiredCall_of_wired (wired_child hn ?_ (endsWired_of_get hk hn ?_) hf)
    · rw [wired_onlyFds.name, ← hp.name, ← hp.forks]
      rfl
    · exact wired_get (hk 0 (by decide)) (hk 1 (by decide)) hp hlen hn rfl
  · exact absurd hf (hlost (k.forked n) hp.failures)
  · have hshell : Wired s.kernel segs.length interactive
        ((k.forked segs.length).closeAll pipes) := by
      refine .inl ⟨closeAll_onlyFds.name.trans hp.name, hp.closeAll rfl, fun _ => ?_⟩
      rw [closeAll_onlyFds.forks, ← hp.forks]
      rfl
    refine always_bind.mpr (closePipes_rule (fun _ _ _ _ => ⟨nofun, nofun⟩) ?_)
    refine always_bind.mpr (talk_rule (waitLoop_talks _ _ _ _)
      (fun s' c hs hc => (wiredCall_of_wired hshell).talk s' c hs hc) fun v s' hs _ => ?_)
    exact hs ▸ hshell

/-- **What the processes of a job hold**: any process that the shell comes to, once it is past its
set-up and unless a call for it has failed. -/
theorem executeJob_wired (job : Job) (hk : Ready s.kernel) :
    (executeJob job interactive).Always (Step outcome)
      (WiredCall s.kernel job.segments.length interactive)
      (WiredEnd s.kernel job.segments.length interactive) s := by
  obtain ⟨segs⟩ := job
  match segs with
  | [] => exact fun _ => .inl ⟨rfl, fun _ => rfl, fun h => absurd h (by decide)⟩
  | [seg] => exact executeSingle_wired hk
  | seg :: seg' :: segs => exact executePipeline_wired hk

end

/-! ### The children there are -/

/-- The processes of a system, with the numbers of children they have forked. -/
def family (ps : List (Processes.Process Call Call.Answer JobResult Proc)) :
    List (List ℕ × ℕ) :=
  ps.map fun q => (q.2.kernel.name, q.2.kernel.forks)

/-- The children that the shell has forked since it was at `first` are there, and no two processes
have the same name. -/
structure Births (name : List ℕ) (first : ℕ) (fam : List (List ℕ × ℕ)) : Prop where
  shell : ∃ n, (name, n) ∈ fam
  nodup : (fam.map Prod.fst).Nodup
  parent : ∀ a j m, (a ++ [j], m) ∈ fam → a ++ [j] = name ∨ ∃ n, (a, n) ∈ fam ∧ j < n
  longer : ∀ p ∈ fam, p.1 = name ∨ name.length < p.1.length
  born : ∀ n, (name, n) ∈ fam → ∀ j, first ≤ j → j < n → ∃ m, (name ++ [j], m) ∈ fam

theorem eq_of_nodup {fam : List (List ℕ × ℕ)} (h : (fam.map Prod.fst).Nodup) {a : List ℕ}
    {m n : ℕ} (hm : (a, m) ∈ fam) (hn : (a, n) ∈ fam) : m = n := by
  have heq := List.inj_on_of_nodup_map h hm hn rfl
  exact congrArg Prod.snd heq

section

variable {name a b : List ℕ} {first n m : ℕ} {before after : List (List ℕ × ℕ)}

/-- What a `fork` by `a` leaves is what there was, but for `a` and its child. -/
theorem mem_of_spawned {p : List ℕ × ℕ}
    (hp : p ∈ before ++ (a, n + 1) :: after ++ [(a ++ [n], 0)]) :
    p ∈ before ++ (a, n) :: after ∨ p = (a, n + 1) ∨ p = (a ++ [n], 0) := by
  rcases List.mem_append.mp hp with hp | hp
  · rcases List.mem_append.mp hp with hp | hp
    · exact .inl (List.mem_append_left _ hp)
    · rcases List.mem_cons.mp hp with rfl | hp
      · exact .inr (.inl rfl)
      · exact .inl (List.mem_append_right _ (List.mem_cons_of_mem _ hp))
  · exact .inr (.inr (List.mem_singleton.mp hp))

/-- Every process is there behind a `fork`, with as many children at least. -/
theorem mem_spawned (hm : (b, m) ∈ before ++ (a, n) :: after) :
    ∃ m', m ≤ m' ∧ (b, m') ∈ before ++ (a, n + 1) :: after ++ [(a ++ [n], 0)] := by
  rcases List.mem_append.mp hm with hm | hm
  · exact ⟨m, Nat.le_refl m, List.mem_append_left _ (List.mem_append_left _ hm)⟩
  · rcases List.mem_cons.mp hm with heq | hm
    · cases heq
      exact ⟨n + 1, Nat.le_succ n,
        List.mem_append_left _ (List.mem_append_right _ List.mem_cons_self)⟩
    · exact ⟨m, Nat.le_refl m,
        List.mem_append_left _ (List.mem_append_right _ (List.mem_cons_of_mem _ hm))⟩

namespace Births

/-- A child has a longer name than the shell. -/
theorem longer_child (h : Births name first (before ++ (a, n) :: after)) (j : ℕ) :
    name.length < (a ++ [j]).length := by
  have ha : a = name ∨ name.length < a.length :=
    h.longer (a, n) (List.mem_append_right _ List.mem_cons_self)
  rw [List.length_append, List.length_singleton]
  rcases ha with rfl | ha <;> omega

/-- The number of the next child has not been given before. -/
theorem fresh (h : Births name first (before ++ (a, n) :: after)) :
    (a ++ [n], m) ∉ before ++ (a, n) :: after := by
  intro hm
  rcases h.parent a n m hm with heq | ⟨n', hn', hlt⟩
  · have hchild := h.longer_child n
    rw [heq] at hchild
    exact Nat.lt_irrefl _ hchild
  · rw [eq_of_nodup h.nodup hn' (List.mem_append_right _ List.mem_cons_self)] at hlt
    exact Nat.lt_irrefl _ hlt

/-- A `fork` of one of the processes. -/
theorem spawn (h : Births name first (before ++ (a, n) :: after)) :
    Births name first (before ++ (a, n + 1) :: after ++ [(a ++ [n], 0)]) := by
  have hself : (a, n) ∈ before ++ (a, n) :: after :=
    List.mem_append_right _ List.mem_cons_self
  have hself' : (a, n + 1) ∈ before ++ (a, n + 1) :: after ++ [(a ++ [n], 0)] :=
    List.mem_append_left _ (List.mem_append_right _ List.mem_cons_self)
  refine ⟨?_, ?_, fun b j m hm => ?_, fun p hp => ?_, fun m hm j hfirst hj => ?_⟩
  · obtain ⟨m, hm⟩ := h.shell
    obtain ⟨m', -, hm'⟩ := mem_spawned hm
    exact ⟨m', hm'⟩
  · have hmap : (before ++ (a, n + 1) :: after ++ [(a ++ [n], 0)]).map Prod.fst =
        (before ++ (a, n) :: after).map Prod.fst ++ [a ++ [n]] := by
      simp only [List.map_append, List.map_cons, List.map_nil]
    rw [hmap, List.nodup_append]
    refine ⟨h.nodup, List.nodup_singleton _, fun b hb c hc => ?_⟩
    rw [List.mem_singleton.mp hc]
    rintro rfl
    obtain ⟨⟨b', m⟩, hm, hb'⟩ := List.mem_map.mp hb
    cases hb'
    exact h.fresh hm
  · rcases mem_of_spawned hm with hm | heq | heq
    · refine (h.parent b j m hm).imp_right ?_
      rintro ⟨n', hn', hlt⟩
      obtain ⟨m', hle, hm'⟩ := mem_spawned hn'
      exact ⟨m', hm', Nat.lt_of_lt_of_le hlt hle⟩
    · obtain ⟨heq, -⟩ := Prod.mk.inj heq
      refine (h.parent b j n (heq ▸ hself)).imp_right ?_
      rintro ⟨n', hn', hlt⟩
      obtain ⟨m', hle, hm'⟩ := mem_spawned hn'
      exact ⟨m', hm', Nat.lt_of_lt_of_le hlt hle⟩
    · obtain ⟨heq, -⟩ := Prod.mk.inj heq
      obtain ⟨rfl, hj⟩ := List.append_inj' heq rfl
      cases hj
      exact .inr ⟨n + 1, hself', Nat.lt_succ_self n⟩
  · rcases mem_of_spawned hp with hp | rfl | rfl
    · exact h.longer p hp
    · exact h.longer (a, n) hself
    · exact .inr (h.longer_child n)
  · rcases mem_of_spawned hm with hm | heq | heq
    · obtain ⟨m', hm'⟩ := h.born m hm j hfirst hj
      obtain ⟨m'', -, hm''⟩ := mem_spawned hm'
      exact ⟨m'', hm''⟩
    · cases heq
      rcases Nat.lt_succ_iff_lt_or_eq.mp hj with hj | rfl
      · obtain ⟨m', hm'⟩ := h.born n hself j hfirst hj
        obtain ⟨m'', -, hm''⟩ := mem_spawned hm'
        exact ⟨m'', hm''⟩
      · exact ⟨0, List.mem_append_right _ (List.mem_singleton_self _)⟩
    · rw [Prod.mk.injEq] at heq
      have hchild := h.longer_child n
      rw [← heq.1] at hchild
      exact absurd hchild (Nat.lt_irrefl _)

end Births

end

section

open Processes

variable {s : Proc} {p : SysM JobResult} {ps : List (Process Call Call.Answer JobResult Proc)}

/-- The births in a run, whatever the processes return. -/
theorem run_births {α : Type} {p : SysM α} {ps : List (Process Call Call.Answer α Proc)}
    (hrun : Run (Step outcome) spawning [(p, s)] ps) :
    Births s.kernel.name s.kernel.forks
      (ps.map fun q => (q.2.kernel.name, q.2.kernel.forks)) := by
  refine hrun.invariant (I := fun ps => Births s.kernel.name s.kernel.forks
    (ps.map fun q => (q.2.kernel.name, q.2.kernel.forks))) ?_ ?_
  · intro ps ps' h hstep
    cases hstep with
    | call hx hborn htwin =>
        obtain ⟨hname, hforks⟩ := hx.family hborn htwin
        simpa only [List.map_append, List.map_cons, hname, hforks] using h
    | spawn hx hborn htwin hy =>
        obtain ⟨rfl, rfl⟩ := hx.twin htwin hy
        simp only [List.map_append, List.map_cons] at h ⊢
        exact h.spawn
  · refine ⟨⟨_, List.mem_singleton_self _⟩, List.nodup_singleton _, fun a j m hm => ?_,
      fun q hq => ?_, fun n hn j hfirst hj => ?_⟩
    · exact .inl (congrArg Prod.fst (List.mem_singleton.mp hm))
    · rw [List.mem_singleton.mp hq]
      exact .inl rfl
    · cases List.mem_singleton.mp hn
      exact absurd hfirst (Nat.not_le_of_gt hj)

theorem births_run (hrun : Run (Step outcome) spawning [(p, s)] ps) :
    Births s.kernel.name s.kernel.forks (family ps) :=
  run_births hrun

/-! ### Settled systems -/

/-- The process is past the calls that set it up. -/
def Settled (q : Process Call Call.Answer JobResult Proc) : Prop :=
  ∀ c k, q.1 = .call c k → c.setsUp = false

/-- The name of child `k` of a job. -/
def childName (k₀ : Kernel) (k : ℕ) : List ℕ := k₀.name ++ [k₀.forks + k]

/-- A shell has made the pipes that it holds an end of. -/
def Numbered (k : Kernel) : Prop :=
  ∀ fd m, k.fds.get fd = some (.readEnd m) ∨ k.fds.get fd = some (.writeEnd m) → m < k.pipes

/-- The write end of pipe `k` of the job is held by child `k`, as its output, and the read end by
child `k + 1`, as its input.  Any other end of a pipe that a process holds is one that the shell
held before the job, in the same place; so that nobody else holds an end of a pipe of the job. -/
structure PipelineWired (k₀ : Kernel) (count : ℕ)
    (ps : List (Process Call Call.Answer JobResult Proc)) : Prop where
  names : (ps.map fun q => q.2.kernel.name).Nodup
  writer : ∀ k, k + 1 < count → ∃ q ∈ ps, q.2.kernel.name = childName k₀ k ∧
    q.2.kernel.fds.get 1 = some (.writeEnd (k₀.pipes + k))
  reader : ∀ k, k + 1 < count → ∃ q ∈ ps, q.2.kernel.name = childName k₀ (k + 1) ∧
    q.2.kernel.fds.get 0 = some (.readEnd (k₀.pipes + k))
  writers : ∀ q ∈ ps, ∀ fd m, q.2.kernel.fds.get fd = some (.writeEnd m) →
    (∃ k, k + 1 < count ∧ m = k₀.pipes + k ∧ q.2.kernel.name = childName k₀ k ∧ fd = 1) ∨
      k₀.fds.get fd = some (.writeEnd m)
  readers : ∀ q ∈ ps, ∀ fd m, q.2.kernel.fds.get fd = some (.readEnd m) →
    (∃ k, k + 1 < count ∧ m = k₀.pipes + k ∧ q.2.kernel.name = childName k₀ (k + 1) ∧ fd = 0) ∨
      k₀.fds.get fd = some (.readEnd m)
  onlyWriter : Numbered k₀ → ∀ q ∈ ps, ∀ fd k,
    q.2.kernel.fds.get fd = some (.writeEnd (k₀.pipes + k)) →
      q.2.kernel.name = childName k₀ k ∧ fd = 1
  onlyReader : Numbered k₀ → ∀ q ∈ ps, ∀ fd k,
    q.2.kernel.fds.get fd = some (.readEnd (k₀.pipes + k)) →
      q.2.kernel.name = childName k₀ (k + 1) ∧ fd = 0

/-- What the process reads is a file, which only a child opens, or an end of a pipe of the job. -/
def OwnInput (k₀ : Kernel) (count : ℕ) (k : Kernel) : Prop :=
  (∃ path, k.fds.get 0 = some (.file path .readOnly)) ∨
    ∃ j, j + 1 < count ∧ k.fds.get 0 = some (.readEnd (k₀.pipes + j))

/-- A call leaves a process with ends of pipes that were made. -/
theorem Numbered.step {c : Call} {x : c.Answer} {s' : Proc} (h : Numbered s.kernel)
    (hx : Step outcome s c x s') : Numbered s'.kernel := by
  have hput : ∀ {k : Kernel} {fd : ℕ} {d : Option Desc}, Numbered k →
      (∀ m, d = some (.readEnd m) ∨ d = some (.writeEnd m) → m < k.pipes) →
      Numbered (k.put fd d) := by
    intro k fd d hk hd fd' m hm
    simp only [Kernel.put, Table.get_put] at hm ⊢
    split at hm
    · exact hd m hm
    · exact hk fd' m hm
  cases hc : c.setsUp with
  | false => exact hx.kernel hc ▸ h
  | true =>
      cases hborn : spawning.born c x with
      | true => exact hx.born hborn ▸ h
      | false =>
          obtain ⟨k, rfl, hk⟩ := hx.setUp hc hborn
          cases hk with
          | failed | fork | ignoreChildren => exact h
          | close => exact hput h (by simp)
          | openFile => exact hput h (by simp)
          | @dup2 old new =>
              show Numbered (s.kernel.dup old new)
              unfold Kernel.dup
              split
              · exact h
              · next d hd => exact hput h fun m hm => h old m (hd ▸ hm)
          | @pipe r w =>
              intro fd m hm
              have hlt : m ≤ s.kernel.pipes := by
                simp only [onKernel, Kernel.addPipe, Table.get_put] at hm
                split at hm
                · simp at hm
                  exact hm.ge
                · split at hm
                  · simp at hm
                    exact hm.ge
                  · exact (h fd m hm).le
              exact Nat.lt_succ_of_le hlt

/-- The same all along a run. -/
theorem numbered_reach {α : Type} {p q : SysM α} {s' : Proc} (h : Numbered s.kernel)
    (hrun : Reach (Step outcome) p s q s') : Numbered s'.kernel :=
  hrun.invariant (I := fun s => Numbered s.kernel) (fun _ _ _ _ hs hx => hs.step hx) h

theorem ChildWired.writeEnd {k₀ k : Kernel} {count i fd m : ℕ}
    (h : ChildWired k₀ count i interactive k) (hd : k.fds.get fd = some (.writeEnd m)) :
    fd = 1 ∧ i + 1 < count ∧ m = k₀.pipes + i ∨ k₀.fds.get fd = some (.writeEnd m) := by
  rcases h.others fd _ hd with ⟨rfl, hpos⟩ | ⟨rfl, hlt⟩ | ⟨_, _, he⟩ | hold
  · cases hd.symm.trans (h.input hpos)
  · cases hd.symm.trans (h.output hlt)
    exact .inl ⟨rfl, hlt, rfl⟩
  · cases he
  · exact .inr hold

theorem ChildWired.readEnd {k₀ k : Kernel} {count i fd m : ℕ}
    (h : ChildWired k₀ count i interactive k) (hd : k.fds.get fd = some (.readEnd m)) :
    fd = 0 ∧ 0 < i ∧ m = k₀.pipes + (i - 1) ∨ k₀.fds.get fd = some (.readEnd m) := by
  rcases h.others fd _ hd with ⟨rfl, hpos⟩ | ⟨rfl, hlt⟩ | ⟨_, _, he⟩ | hold
  · cases hd.symm.trans (h.input hpos)
    exact .inl ⟨rfl, hpos, rfl⟩
  · cases hd.symm.trans (h.output hlt)
  · cases he
  · exact .inr hold

/-- A child of a shell that is not interactive reads nothing of the shell's. -/
theorem ChildWired.ownInput {k₀ k : Kernel} {count i : ℕ} (h : ChildWired k₀ count i false k)
    (hi : i < count) : OwnInput k₀ count k := by
  rcases Nat.eq_zero_or_pos i with rfl | hpos
  · exact .inl (h.file rfl rfl)
  · exact .inr ⟨i - 1, by omega, h.input hpos⟩

theorem OwnInput.ne {k₀ k : Kernel} {count : ℕ} (h : OwnInput k₀ count k) (n : ℕ) :
    k.fds.get 0 ≠ some (.inherited n) := by
  obtain ⟨path, hd⟩ | ⟨j, -, hd⟩ := h <;> rw [hd] <;> exact nofun

/-- A settled process of a job is wired. -/
theorem Settled.wired {job : Job} {q : Process Call Call.Answer JobResult Proc}
    (h : Settled q) (hk : Ready s.kernel)
    (hrun : Run (Step outcome) spawning [(executeJob job interactive, s)] ps) (hq : q ∈ ps)
    (hok : q.2.kernel.failures = s.kernel.failures) :
    Wired s.kernel job.segments.length interactive q.2.kernel := by
  have hall := (executeJob_wired job hk).reach (Processes.reach hrun q hq)
  obtain ⟨p, s'⟩ := q
  cases p with
  | ret r => exact hall hok
  | call c k => exact hall.1 (h c k rfl) hok

theorem ne_append_child (name : List ℕ) (j : ℕ) : name ≠ name ++ [j] := fun h => by
  have hlen := congrArg List.length h
  rw [List.length_append, List.length_singleton] at hlen
  exact absurd hlen (Nat.ne_of_lt (Nat.lt_succ_self _))

/-- All the children of a settled pipeline are there. -/
theorem exists_child {job : Job} {j : ℕ} (hcount : 2 ≤ job.segments.length)
    (hfam : Births s.kernel.name s.kernel.forks (family ps))
    (hwired : ∀ q ∈ ps, Wired s.kernel job.segments.length interactive q.2.kernel)
    (hj : j < job.segments.length) :
    ∃ q ∈ ps, q.2.kernel.name = childName s.kernel j ∧
      ChildWired s.kernel job.segments.length j interactive q.2.kernel := by
  obtain ⟨n, hn⟩ := hfam.shell
  obtain ⟨q, hq, heq⟩ := List.mem_map.mp hn
  obtain ⟨hqname, hqforks⟩ := Prod.mk.inj heq
  obtain ⟨-, -, hforks⟩ | ⟨i, -, hname, -⟩ := hwired q hq
  · -- the shell has forked them all
    have hlt : s.kernel.forks + j < n := by
      rw [← hqforks, hforks hcount]
      exact Nat.add_lt_add_left hj _
    obtain ⟨m, hm⟩ := hfam.born n hn (s.kernel.forks + j) (Nat.le_add_right _ _) hlt
    obtain ⟨q', hq', heq'⟩ := List.mem_map.mp hm
    obtain ⟨hname', -⟩ := Prod.mk.inj heq'
    obtain ⟨hname, -⟩ | ⟨i, -, hname, hw⟩ := hwired q' hq'
    · exact absurd (hname.symm.trans hname') (ne_append_child _ _)
    · obtain rfl : i = j := by
        have hnum := (List.append_inj (hname.symm.trans hname') rfl).2
        exact Nat.add_left_cancel (List.cons.inj hnum).1
      exact ⟨q', hq', hname, hw⟩
  · exact absurd (hqname.symm.trans hname) (ne_append_child _ _)

/-- A write end that a process of a pipeline holds. -/
theorem Wired.writeEnd {k₀ k : Kernel} {count fd m : ℕ} (h : Wired k₀ count interactive k)
    (hd : k.fds.get fd = some (.writeEnd m)) :
    (∃ j, j + 1 < count ∧ m = k₀.pipes + j ∧ k.name = childName k₀ j ∧ fd = 1) ∨
      k₀.fds.get fd = some (.writeEnd m) := by
  obtain ⟨-, hfds, -⟩ | ⟨i, -, hname, hw⟩ := h
  · exact .inr (hfds fd ▸ hd)
  · refine (hw.writeEnd hd).imp_left ?_
    rintro ⟨hfd, hlt, hm⟩
    exact ⟨i, hlt, hm, hname, hfd⟩

/-- A read end that a process of a pipeline holds. -/
theorem Wired.readEnd {k₀ k : Kernel} {count fd m : ℕ} (h : Wired k₀ count interactive k)
    (hd : k.fds.get fd = some (.readEnd m)) :
    (∃ j, j + 1 < count ∧ m = k₀.pipes + j ∧ k.name = childName k₀ (j + 1) ∧ fd = 0) ∨
      k₀.fds.get fd = some (.readEnd m) := by
  obtain ⟨-, hfds, -⟩ | ⟨i, hi, hname, hw⟩ := h
  · exact .inr (hfds fd ▸ hd)
  · refine (hw.readEnd hd).imp_left ?_
    rintro ⟨hfd, hpos, hm⟩
    obtain ⟨j, rfl⟩ := Nat.exists_eq_succ_of_ne_zero (Nat.ne_of_gt hpos)
    exact ⟨j, hi, hm, hname, hfd⟩

/-- **Pipeline wiring**: in any interleaving of a job of a ready shell in which no call to set up a
process failed, once every process is past its set-up, each end of a pipe of the job is held by one
child, as its input or its output, and by no other process; and no child of a shell that is not
interactive has the input of the shell as its own. -/
theorem pipeline_wiring {job : Job} (hk : Ready s.kernel)
    (hrun : Run (Step outcome) spawning [(executeJob job interactive, s)] ps)
    (hok : ∀ q ∈ ps, q.2.kernel.failures = s.kernel.failures) :
    (2 ≤ job.segments.length → (∀ q ∈ ps, Settled q) →
      PipelineWired s.kernel job.segments.length ps) ∧
    (interactive = false → ∀ q ∈ ps, Settled q → q.2.kernel.name ≠ s.kernel.name →
      OwnInput s.kernel job.segments.length q.2.kernel ∧
      ∀ n, q.2.kernel.fds.get 0 ≠ some (.inherited n)) := by
  constructor
  · intro hcount hall
    have hfam := births_run hrun
    have hwired := fun q hq => (hall q hq).wired hk hrun hq (hok q hq)
    have hnew : Numbered s.kernel → ∀ fd k,
        s.kernel.fds.get fd ≠ some (.writeEnd (s.kernel.pipes + k)) ∧
        s.kernel.fds.get fd ≠ some (.readEnd (s.kernel.pipes + k)) := fun hn fd k =>
      ⟨fun hd => absurd (hn fd _ (.inr hd)) (Nat.not_lt.mpr (Nat.le_add_right _ _)),
        fun hd => absurd (hn fd _ (.inl hd)) (Nat.not_lt.mpr (Nat.le_add_right _ _))⟩
    refine ⟨?_, fun k hlt => ?_, fun k hlt => ?_, fun q hq fd m => (hwired q hq).writeEnd,
      fun q hq fd m => (hwired q hq).readEnd, fun hn q hq fd k hd => ?_, fun hn q hq fd k hd => ?_⟩
    · have hnodup := hfam.nodup
      rwa [family, List.map_map] at hnodup
    · obtain ⟨q, hq, hname, hw⟩ := exists_child hcount hfam hwired (Nat.lt_of_succ_lt hlt)
      exact ⟨q, hq, hname, hw.output hlt⟩
    · obtain ⟨q, hq, hname, hw⟩ := exists_child hcount hfam hwired hlt
      exact ⟨q, hq, hname, hw.input (Nat.succ_pos k)⟩
    · obtain ⟨j, -, hm, hname, hfd⟩ :=
        ((hwired q hq).writeEnd hd).resolve_right (hnew hn fd k).1
      exact ⟨Nat.add_left_cancel hm ▸ hname, hfd⟩
    · obtain ⟨j, -, hm, hname, hfd⟩ :=
        ((hwired q hq).readEnd hd).resolve_right (hnew hn fd k).2
      exact ⟨Nat.add_left_cancel hm ▸ hname, hfd⟩
  · rintro rfl q hq hset hne
    obtain ⟨hname, -⟩ | ⟨i, hi, -, hw⟩ := hset.wired hk hrun hq (hok q hq)
    · exact absurd hname hne
    · exact ⟨hw.ownInput hi, (hw.ownInput hi).ne⟩

/-! ### A system comes to be settled -/

/-- By itself and without a failure, the process comes to a call that sets up nothing. -/
def Settles {α : Type} (outcome : List ℕ → Ending) (p : SysM α) (s : Proc) : Prop :=
  ∃ c k s', Reach (Alone outcome) p s (.call c k) s' ∧ c.setsUp = false ∧
    s'.kernel.failures = s.kernel.failures

variable {α β : Type}

/-- A process of a system goes on by itself. -/
theorem run_itself {p p' : SysM α} {s' : Proc} (h : Reach (Alone outcome) p s p' s')
    (before after : List (Process Call Call.Answer α Proc)) :
    Run (Step outcome) spawning (before ++ (p, s) :: after) (before ++ (p', s') :: after) :=
  (run_alone h before after).mono fun _ _ _ _ hx => hx.1

theorem Settles.bind {p : SysM α} (h : Settles outcome p s) (f : α → SysM β) :
    Settles outcome (p >>= f) s := by
  obtain ⟨c, k, s', hr, hc, hf⟩ := h
  exact ⟨c, _, s', hr.bind f, hc, hf⟩

theorem Settles.seq {p : SysM α} {f : α → SysM β} {a : α} {k : Kernel}
    (h : Done outcome p a s k) (hk : k.failures = s.kernel.failures)
    (hf : Settles outcome (f a) (s.onKernel k)) : Settles outcome (p >>= f) s := by
  obtain ⟨c, k', s', hr, hc, hfail⟩ := hf
  exact ⟨c, k', s', h.seq hr, hc, hfail.trans hk⟩

theorem runSegment_settles : Settles outcome (runSegment seg : SysM α) s := by
  have h : (runSegment seg : SysM α).Always (Step outcome) (fun _ c => c.setsUp = false)
      (fun _ _ => False) s :=
    runSegment_rule ⟨fun _ _ _ hc => setsUp_of_talks hc, fun _ _ _ _ => rfl⟩
  cases hp : (runSegment seg : SysM α) with
  | ret a =>
      rw [hp] at h
      exact h.elim
  | call c k =>
      rw [hp] at h
      exact ⟨c, k, s, .refl _ _, h.1, rfl⟩

theorem pipelineChild_settles :
    Settles outcome (pipelineChild pipes count i seg interactive : SysM α) s := by
  obtain ⟨k, h, hk⟩ := pipelineSetUp_done outcome pipes count i seg interactive s
  rw [pipelineChild_eq]
  exact .seq h hk.failures runSegment_settles

/-- The shell forks its children, and each of them settles. -/
theorem forkSegments_run (f : Option (List ℕ) → SysM JobResult) (segs : List JobSegment)
    (i : ℕ) (pids : List ℕ) (s : Proc) (others : List (Process Call Call.Answer JobResult Proc)) :
    ∃ pids' kids, Run (Step outcome) spawning
        ((forkSegments pipes count interactive i pids segs >>= f, s) :: others)
        ((f (some pids'), s.onKernel (s.kernel.forked segs.length)) :: (others ++ kids)) ∧
      pids'.length = pids.length + segs.length ∧
      ∀ q ∈ kids, Settled q ∧ q.2.kernel.failures = s.kernel.failures := by
  induction segs generalizing i pids s others with
  | nil =>
      refine ⟨pids, [], ?_, rfl, nofun⟩
      rw [List.append_nil]
      exact .refl
  | cons seg segs ih =>
      have hchild : Settles outcome
          ((pipelineChild pipes count i seg interactive : SysM (Option (List ℕ))) >>= f) s.child :=
        pipelineChild_settles.bind f
      obtain ⟨c, k, s', hr, hc, hf⟩ := hchild
      obtain ⟨pids', kids, hrun, hlen, hkids⟩ := ih (i + 1) (pids ++ [s.kernel.forks])
        (s.onKernel (s.kernel.forked 1)) (others ++ [(.call c k, s')])
      refine ⟨pids', (.call c k, s') :: kids, ?_, ?_, ?_⟩
      · have hfork : Step outcome s .fork (Forked.parent s.kernel.forks)
            (s.onKernel (s.kernel.forked 1)) := ⟨rfl, rfl⟩
        have hborn : Step outcome s .fork Forked.child s.child := rfl
        have hk : s.kernel.forked (seg :: segs).length = (s.kernel.forked 1).forked segs.length :=
          (forked_forked s.kernel segs.length).symm
        rw [List.append_assoc, List.singleton_append] at hrun
        rw [hk]
        refine .head (@Processes.Step.spawn _ _ _ _ _ _ [] others _ _ _ _ _ _ _ hfork rfl rfl
          hborn) ?_
        exact (run_itself hr (_ :: others) []).trans hrun
      · rw [hlen, List.length_append, List.length_singleton, List.length_cons]
        omega
      · refine List.forall_mem_cons.mpr ⟨⟨?_, hf⟩, hkids⟩
        rintro c' k' ⟨⟩
        exact hc

/-- The three loops of a pipeline, one behind the other. -/
theorem executePipeline_eq (segs : List JobSegment) (interactive : Bool) :
    ∃ f, executePipeline segs interactive = makePipes [] (segs.length - 1) >>= f ∧
      f none = .ret ⟨0, 1⟩ ∧ ∀ pipes, ∃ g,
        f (some pipes) = forkSegments pipes segs.length interactive 0 [] segs >>= g ∧
        g none = .ret ⟨0, 1⟩ ∧ ∀ pids, g (some pids) = closePipes pipes >>= fun _ =>
          waitLoop segs.length 0 1 pids >>= fun v => .ret ⟨0, v⟩ :=
  ⟨_, rfl, rfl, fun _ => ⟨_, rfl, rfl, fun _ => rfl⟩⟩

/-- A pipeline comes to a system that is settled, with no failure. -/
theorem executePipeline_settles (outcome : List ℕ → Ending) (interactive : Bool)
    (segs : List JobSegment) (hne : segs ≠ []) (s : Proc) :
    ∃ ps, Run (Step outcome) spawning [(executePipeline segs interactive, s)] ps ∧
      ∀ q ∈ ps, Settled q ∧ q.2.kernel.failures = s.kernel.failures := by
  obtain ⟨f, hf, -, hforks⟩ := executePipeline_eq segs interactive
  obtain ⟨pipes, k, hpipes, -, hk⟩ := makePipes_done outcome (segs.length - 1) [] s
  obtain ⟨g, hg, -, hwait⟩ := hforks pipes
  obtain ⟨pids, kids, hrun, hlen, hkids⟩ := forkSegments_run g segs 0 [] (s.onKernel k) []
  have hclose := closePipes_done outcome pipes (s.onKernel (k.forked segs.length))
  have hmake := run_itself (hpipes.bind f) [] []
  rw [← hf, Program.ret_bind, hg] at hmake
  rw [hwait] at hrun
  cases pids with
  | nil =>
      rw [List.length_nil, Nat.zero_add] at hlen
      exact absurd (List.length_eq_zero_iff.mp hlen.symm) hne
  | cons pid pids =>
      refine ⟨_, (hmake.trans hrun).trans (run_itself (hclose.bind _) [] _), ?_⟩
      refine List.forall_mem_cons.mpr ⟨⟨?_, ?_⟩, fun q hq => ?_⟩
      · rintro c k' ⟨⟩
        rfl
      · show ((k.forked segs.length).closeAll pipes).failures = _
        rw [closeAll_onlyFds.failures]
        exact hk
      · exact ⟨(hkids q hq).1, (hkids q hq).2.trans hk⟩

/-- The job of the line `ls | wc`. -/
def pipeJob : Job :=
  ⟨[⟨[some (ascii "ls"), none], 1, none, none⟩, ⟨[some (ascii "wc"), none], 1, none, none⟩]⟩

theorem numbered_start : Numbered start.kernel := by
  intro fd m hd
  have hget : start.kernel.fds.get fd = if fd < 3 then some (.inherited fd) else none := rfl
  rw [hget] at hd
  split at hd <;> rcases hd with hd | hd <;> cases hd

/-- The job of the line `ls | wc | wc`. -/
def threeJob : Job :=
  ⟨[⟨[some (ascii "ls"), none], 1, none, none⟩, ⟨[some (ascii "wc"), none], 1, none, none⟩,
    ⟨[some (ascii "wc"), none], 1, none, none⟩]⟩

/-- The shell behind a pipeline whose second pipe could not be made, with the ends of the first. -/
def leaky : Proc := start.onKernel (start.kernel.addPipe 3 4).fail

theorem leaky_reach :
    Reach (Step outcome) (executeJob threeJob false) start (.ret ⟨0, 1⟩) leaky := by
  have hpipe : Step outcome start .pipe (Except.ok (3, 4))
      (start.onKernel (start.kernel.addPipe 3 4)) := ⟨by decide, rfl, rfl, rfl⟩
  have hfails : Step outcome (start.onKernel (start.kernel.addPipe 3 4)) .pipe
      (Except.error (ascii "Too many open files")) leaky := rfl
  have hmessage : Step outcome leaky (.eprintf (ascii "pipe: Too many open files\n")) (() : Unit)
      leaky := rfl
  exact .head hpipe (.head hfails (.head hmessage (.refl _ _)))

theorem ready_leaky : Ready leaky.kernel := by
  intro fd hfd
  have h3 : fd ≠ 3 := Nat.ne_of_lt hfd
  have h4 : fd ≠ 4 := by omega
  have hget : leaky.kernel.fds.get fd = start.kernel.fds.get fd :=
    (Table.get_put_ne h4).trans (Table.get_put_ne h3)
  rw [hget]
  exact (if_pos hfd).trans_ne nofun

/-- `ls | wc` in a shell that holds the ends of an older pipe. -/
theorem pipeline_wiring_sample : ∃ ps, (∀ q ∈ ps, Settled q) ∧
    Run (Step fun _ => .exited 0) spawning [(executeJob pipeJob false, leaky)] ps ∧
    PipelineWired leaky.kernel 2 ps ∧ Numbered leaky.kernel := by
  obtain ⟨ps, hrun, hps⟩ := executePipeline_settles (fun _ => .exited 0) false pipeJob.segments
    (List.cons_ne_nil _ _) leaky
  have hall : ∀ q ∈ ps, Settled q := fun q hq => (hps q hq).1
  have hrun : Run (Step fun _ => .exited 0) spawning [(executeJob pipeJob false, leaky)] ps := hrun
  have hwired := (pipeline_wiring ready_leaky hrun fun q hq => (hps q hq).2).1 (Nat.le_refl 2) hall
  have hleaky : Reach (Step fun _ => .exited 0) (executeJob threeJob false) start _ leaky :=
    leaky_reach
  exact ⟨ps, hall, hrun, hwired, numbered_reach numbered_start hleaky⟩

end

end CS214.Shell
