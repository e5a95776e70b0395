import CS214.Shell.Loop
import CS214.Shell.Wiring

/-!
# Shell — the standard output

The standard output of a shell that runs a script is buffered in full.  A child starts with a copy
of the buffer, and its `exit` writes the copy out.

* `mysh_output`: no process of a run closes its output, and only a child that has not written
  anything puts something else in its place.
* `builtin_output`: in a run in which no process prints or exits that was forked with something in
  the buffer, every process writes what it printed, once and in order, to its own output.
* `builtin_output_copied`: the child of an unknown command behind `pwd` is one that does.
-/

open CString Program

namespace CS214.Shell

open Proc

/-! ### Who puts what in place of the output -/

/-- A process does not close its output; only a child that has not written anything puts something
else in its place; and the buffer is empty where a process ends. -/
structure KeepsOutput (name : List ℕ) (s : Proc) (c : Call) : Prop where
  close : c ≠ .close 1
  dup : ∀ old, c = .dup2 old 1 → s.stdout.wrote = [] ∧ s.kernel.name ≠ name
  exit : ∀ n, c = .exit n → s.stdout.pending = []

/-- The shell is the process it was, and its output is open. -/
structure InShell (name : List ℕ) (s : Proc) : Prop where
  name : s.kernel.name = name
  output : s.kernel.fds.get 1 ≠ none

section

variable {outcome : List ℕ → Ending} {s : Proc} {name : List ℕ} {interactive : Bool}
  {seg : JobSegment} {segs : List JobSegment} {lines : List Bytes} {α : Type}

theorem keepsOutput_talk {c : Call} (hc : c.talks = true) : KeepsOutput name s c := by
  refine ⟨?_, fun old => ?_, fun n => ?_⟩ <;> rintro rfl <;> cases hc

theorem keepsOutput_pipe : KeepsOutput name s .pipe := by
  constructor <;> simp

theorem keepsOutput_fork : KeepsOutput name s .fork := by
  constructor <;> simp

theorem keepsOutput_close {fd : ℕ} (hfd : fd ≠ 1) : KeepsOutput name s (.close fd) := by
  constructor <;> simp [hfd]

theorem keepsOutput_allows (k : Kernel) : Allows (KeepsOutput name) k :=
  ⟨fun _ _ _ => keepsOutput_talk, fun _ _ _ hp => ⟨nofun, nofun, fun _ _ => hp⟩⟩

theorem keepsOutput_failed (n : ℕ) : AllowsFailed (KeepsOutput name) n :=
  fun k _ => keepsOutput_allows k

/-- What a child does to set itself up. -/
theorem keepsOutput_child (hs : s.kernel.name = name) :
    AllowsSetUp (KeepsOutput name) s.child := by
  intro k c hk hc hclose
  refine ⟨hclose, fun old _ => ⟨rfl, fun heq => ?_⟩, fun n hn => ?_⟩
  · have hlen := congrArg List.length (hk.name.symm.trans heq)
    rw [← hs] at hlen
    exact absurd hlen (by simp [Proc.child, Kernel.child])
  · rw [hn] at hc
    cases hc

/-- Talk of the shell. -/
theorem shell_talk {p : SysM α} (hp : Talks p) (h : InShell name s) :
    p.Always (Step outcome) (KeepsOutput name) (fun _ s' => InShell name s') s :=
  talk_rule hp (fun _ _ _ hc => keepsOutput_talk hc) fun _ _ hs => ⟨hs ▸ h.name, hs ▸ h.output⟩

theorem executeSingle_output (h : InShell name s) :
    (executeSingle seg interactive).Always (Step outcome) (KeepsOutput name)
      (fun _ s' => InShell name s') s := by
  unfold executeSingle
  split
  · refine (shell_talk (executeBuiltin_talks _ _ _) h).bind ?_
    intro r s' hs'
    split <;> exact hs'
  · refine fork_rule keepsOutput_fork (fun e => eprintf_rule (keepsOutput_talk rfl) ?_) ?_ ?_
    · exact ⟨h.name, h.output⟩
    · exact singleChild_rule (keepsOutput_child h.name) h.output (keepsOutput_failed _)
        fun k' _ => keepsOutput_allows k'
    · exact waitFor_rule (keepsOutput_talk rfl) (keepsOutput_talk rfl) fun _ =>
        ⟨h.name, h.output⟩

theorem executePipeline_output (h : InShell name s) :
    (executePipeline segs interactive).Always (Step outcome) (KeepsOutput name)
      (fun _ s' => InShell name s') s := by
  have hpiped : ∀ {pipes k}, Piped s.kernel pipes k → InShell name (s.onKernel k) := fun hp =>
    ⟨hp.name.trans h.name, by rw [onKernel, hp.get_open h.output]; exact h.output⟩
  refine always_bind.mpr (makePipes_rule (fun _ => keepsOutput_pipe) (keepsOutput_failed _)
    (fun _ k hp => ⟨(hpiped hp).name, (hpiped hp).output⟩) fun pipes k hp _ => ?_)
  have hk := hpiped hp
  have hnot : ¬ IsEnd pipes 1 := fun he => h.output (hp.closed he)
  refine always_bind.mpr (forkSegments_rule (fun _ => keepsOutput_fork) (keepsOutput_failed _)
    (fun n seg _ => ?_) (fun n _ => ⟨hk.name, hk.output⟩) ?_)
  · have hname : ((s.onKernel k).onKernel (k.forked n)).kernel.name = name := hk.name
    exact pipelineChild_rule (keepsOutput_child hname) hk.output hnot (keepsOutput_failed _)
      fun k' _ => keepsOutput_allows k'
  · refine always_bind.mpr (closePipes_rule (fun k' p _ hmem => ?_) ?_)
    · have hne : p.1 ≠ 1 ∧ p.2 ≠ 1 :=
        not_or.mp fun he => hnot ⟨p, hmem, he.imp Eq.symm Eq.symm⟩
      exact ⟨keepsOutput_close hne.1, keepsOutput_close hne.2⟩
    · have hclosed : InShell name (s.onKernel ((k.forked segs.length).closeAll pipes)) := by
        refine ⟨closeAll_onlyFds.name.trans hk.name, ?_⟩
        rw [onKernel, closeAll_other hnot]
        exact hk.output
      exact (shell_talk (waitLoop_talks _ _ _ _) hclosed).bind fun _ _ h => h

theorem executeJob_output (job : Job) (h : InShell name s) :
    (executeJob job interactive).Always (Step outcome) (KeepsOutput name)
      (fun _ s' => InShell name s') s := by
  obtain ⟨segs⟩ := job
  match segs with
  | [] => exact h
  | [seg] => exact executeSingle_output h
  | seg :: seg' :: segs => exact executePipeline_output h

theorem prompt_talks (interactive : Bool) : Talks (prompt interactive) := by
  unfold prompt
  split
  · exact only_bind (only_perform rfl) fun _ => only_perform rfl
  · trivial

theorem greet_talks (interactive : Bool) (text : Bytes) : Talks (greet interactive text) := by
  unfold greet
  split
  · exact only_perform rfl
  · trivial

/-- What the loop records of a turn does not matter here. -/
theorem shell_turn {p : SysM (List Turn)} {t : Turn}
    (h : p.Always (Step outcome) (KeepsOutput name) (fun _ s' => InShell name s') s) :
    (p >>= fun turns => (return t :: turns : SysM (List Turn))).Always (Step outcome)
      (KeepsOutput name) (fun _ s' => InShell name s') s :=
  always_bind.mpr h

theorem shellProgram_output {status : ℤ} (h : InShell name s) :
    (shellProgram interactive status lines).Always (Step outcome) (KeepsOutput name)
      (fun _ s' => InShell name s') s := by
  induction lines generalizing status s with
  | nil => exact always_bind.mpr (shell_talk (prompt_talks interactive) h)
  | cons line lines ih =>
      refine (shell_talk (prompt_talks interactive) h).bind ?_
      intro _ s₁ h₁
      split
      · exact shell_turn (ih h₁)
      · exact eprintf_rule (keepsOutput_talk rfl) (shell_turn (ih h₁))
      · exact shell_turn (ih h₁)
      · exact ⟨⟨nofun, nofun, nofun⟩, fun x => nomatch x⟩
      · next job _ =>
          refine (executeJob_output job h₁).bind ?_
          intro result s₂ h₂
          split
          · exact h₂
          · exact shell_turn (ih h₂)

theorem runShell_output (h : InShell name s) :
    (runShell interactive lines).Always (Step outcome) (KeepsOutput name)
      (fun _ s' => InShell name s') s := by
  refine ⟨⟨nofun, nofun, nofun⟩, fun x s₁ hx => ?_⟩
  cases hx
  have h₁ : InShell name (s.onKernel s.kernel.ignore) := ⟨h.name, h.output⟩
  show (greet interactive _ >>= fun _ => _).Always _ _ _ _
  refine (shell_talk (greet_talks _ _) h₁).bind ?_
  intro _ s₂ h₂
  refine (shellProgram_output h₂).bind ?_
  intro turns s₃ h₃
  exact always_bind.mpr (shell_talk (greet_talks _ _) h₃)

variable {argv0 : Bytes} {argc : ℕ} {opened : Except Bytes Unit}

theorem main_output (h : InShell name s) :
    (main argv0 argc opened interactive lines).Always (Step outcome) (KeepsOutput name)
      (fun _ s' => InShell name s') s := by
  unfold main
  split
  · exact eprintf_rule (keepsOutput_talk rfl) h
  · split
    · cases opened with
      | error e => exact eprintf_rule (keepsOutput_talk rfl) h
      | ok u => exact runShell_output h
    · exact runShell_output h

/-- Every process of a shell, in every run. -/
theorem mysh_output {post : Empty → Proc → Prop} (h : s.kernel.fds.get 1 ≠ none) :
    (mysh argv0 argc opened interactive lines).Always (Step outcome)
      (KeepsOutput s.kernel.name) post s := by
  have hs : InShell s.kernel.name s := ⟨rfl, h⟩
  refine (main_output hs).bind fun r s' _ => ?_
  exact exit_rule (keepsOutput_allows _)

/-! ### Where the output goes -/

/-- The output is open, what was written went there, and that of the first process is in its
place. -/
structure Here (s₀ s : Proc) : Prop where
  output : s.kernel.fds.get 1 ≠ none
  below : s₀.kernel.name.length ≤ s.kernel.name.length
  here : ∀ w ∈ s.stdout.wrote, w.1 = s.kernel.fds.get 1
  shell : s.kernel.name = s₀.kernel.name → s.kernel.fds.get 1 = s₀.kernel.fds.get 1

/-- What a call that keeps the output does to it. -/
theorem KeepsOutput.desc {c : Call} {x : c.Answer} {s' : Proc} (hk : KeepsOutput name s c)
    (h : Step outcome s c x s') (hopen : s.kernel.fds.get 1 ≠ none) :
    s'.kernel.fds.get 1 = s.kernel.fds.get 1 ∨
      s'.kernel.fds.get 1 ≠ none ∧ s.stdout.wrote = [] ∧ s.kernel.name ≠ name ∧
        s'.kernel.name = s.kernel.name ∧ s'.stdout = s.stdout := by
  have hother : ∀ {fd : ℕ} {d : Option Desc}, fd ≠ 1 →
      (s.kernel.fds.put fd d).get 1 = s.kernel.fds.get 1 := fun hne => Table.get_put_ne hne.symm
  have hclosed : ∀ {fd : ℕ}, s.kernel.fds.get fd = none → fd ≠ 1 := by
    rintro fd hfd rfl
    exact hopen hfd
  cases hc : c.setsUp with
  | false => exact .inl (by rw [h.kernel hc])
  | true =>
      cases hborn : spawning.born c x with
      | true =>
          rw [h.born hborn]
          exact .inl rfl
      | false =>
          obtain ⟨k, rfl, hset⟩ := h.setUp hc hborn
          cases hset with
          | pipe _ hr hw =>
              exact .inl ((Table.get_put_ne (hclosed hw).symm).trans (hother (hclosed hr)))
          | openFile hfd => exact .inl (hother (hclosed hfd))
          | @close fd => exact .inl (hother fun hfd => hk.close (hfd ▸ rfl))
          | @dup2 old new =>
              by_cases hnew : new = 1
              · subst hnew
                obtain ⟨hwrote, hname⟩ := hk.dup old rfl
                exact .inr ⟨dup_open hopen, hwrote, hname, dup_onlyFds.name, rfl⟩
              · refine .inl ?_
                show (s.kernel.dup old new).fds.get 1 = _
                unfold Kernel.dup
                split
                · rfl
                · exact hother hnew
          | _ => exact .inl rfl

theorem Here.step {s₀ s s' : Proc} {c : Call} {x : c.Answer} (h : Here s₀ s)
    (hk : KeepsOutput s₀.kernel.name s c) (hx : Step outcome s c x s') : Here s₀ s' := by
  rcases hk.desc hx h.output with hfd | ⟨hopen, hwrote, hne, hname, hout⟩
  · have hnew : ∀ bs : List Printed, ∀ w ∈ s.stdout.wrote ++ bs.map fun b =>
        (s.kernel.fds.get 1, b), w.1 = s.kernel.fds.get 1 := by
      intro bs w hw
      rcases List.mem_append.mp hw with hw | hw
      · exact h.here w hw
      · obtain ⟨b, -, rfl⟩ := List.mem_map.mp hw
        rfl
    rcases hx.output with ⟨hname, hout⟩ | rfl | ⟨text, n, -, rfl⟩ | ⟨-, rfl⟩
    · refine ⟨hfd ▸ h.output, hname ▸ h.below, ?_, fun hs => ?_⟩
      · rw [hout, hfd]
        exact h.here
      · exact hfd.trans (h.shell (hname.symm.trans hs))
    · have hlen : s.child.kernel.name.length = s.kernel.name.length + 1 := List.length_append
      refine ⟨h.output, ?_, nofun, fun hs => ?_⟩
      · rw [hlen]
        exact Nat.le_succ_of_le h.below
      · rw [hs] at hlen
        exact absurd h.below (by omega)
    · exact ⟨h.output, h.below, hnew _, h.shell⟩
    · exact ⟨h.output, h.below, hnew _, h.shell⟩
  · refine ⟨hopen, hname ▸ h.below, ?_, fun hs => absurd (hname.symm.trans hs) hne⟩
    rw [hout, hwrote]
    exact nofun

/-! ### Whose output it is -/

/-- A process that was forked with something in the buffer neither prints nor flushes. -/
def Careful (s : Proc) (c : Call) : Prop :=
  s.stdout.inherited ≠ [] → c ≠ .fflush ∧ ∀ text, c ≠ .printf text

/-- The answers to calls that are careful. -/
def CarefulStep (outcome : List ℕ → Ending) (s : Proc) (c : Call) (x : c.Answer) (s' : Proc) :
    Prop :=
  Step outcome s c x s' ∧ Careful s c

/-- What was written and what waits is what the process printed. -/
structure Own (s : Proc) : Prop where
  pending : ∀ b ∈ s.stdout.pending, b.origin = s.kernel.name
  wrote : ∀ w ∈ s.stdout.wrote, w.2.origin = s.kernel.name
  once : s.stdout.wrote.map (fun w => w.2.byte) ++ s.stdout.pending.map Printed.byte =
    s.stdout.printed

/-- What waits is a copy of what others printed. -/
structure Copied (s : Proc) : Prop where
  inherited : s.stdout.inherited ≠ []
  pending : s.stdout.pending = s.stdout.inherited
  wrote : s.stdout.wrote = []
  printed : s.stdout.printed = []
  above : ∀ b ∈ s.stdout.inherited, b.origin.length < s.kernel.name.length

/-- The buffer is the process's own, or it is a copy. -/
def Buffered (s : Proc) : Prop := Own s ∧ s.stdout.inherited = [] ∨ Copied s

/-- The bytes that are written go behind those that were. -/
theorem map_wrote (wrote : List (Option Desc × Printed)) (d : Option Desc) (bs : List Printed) :
    (wrote ++ bs.map fun b => (d, b)).map (fun w => w.2.byte) =
      wrote.map (fun w => w.2.byte) ++ bs.map Printed.byte := by
  rw [List.map_append, List.map_map]
  rfl

theorem Own.child (h : Own s) : Buffered s.child := by
  by_cases hp : s.stdout.pending = []
  · refine .inl ⟨⟨?_, nofun, ?_⟩, hp⟩
    · rw [Proc.child, hp]
      exact nofun
    · rw [Proc.child, hp]
      rfl
  · refine .inr ⟨hp, rfl, rfl, rfl, fun b hb => ?_⟩
    rw [h.pending b hb]
    show s.kernel.name.length < (s.kernel.name ++ [_]).length
    rw [List.length_append]
    exact Nat.lt_succ_self _

theorem Copied.child (h : Copied s) : Copied s.child := by
  refine ⟨fun e => h.inherited (h.pending.symm.trans e), rfl, rfl, rfl, fun b hb => ?_⟩
  have hlt := h.above b (h.pending ▸ hb)
  show b.origin.length < (s.kernel.name ++ [_]).length
  rw [List.length_append]
  exact Nat.lt_succ_of_lt hlt

theorem Own.print (h : Own s) (text : Bytes) (n : ℕ) : Own (s.print text n) := by
  let waiting := s.stdout.pending ++ text.map (Printed.mk s.kernel.name)
  have hown : ∀ b ∈ waiting, b.origin = s.kernel.name := by
    intro b hb
    rcases List.mem_append.mp hb with hb | hb
    · exact h.pending b hb
    · obtain ⟨_, -, rfl⟩ := List.mem_map.mp hb
      rfl
  have hbytes : waiting.map Printed.byte = s.stdout.pending.map Printed.byte ++ text := by
    rw [List.map_append, List.map_map]
    exact congrArg _ (List.map_id' text)
  refine ⟨fun b hb => hown b (List.mem_of_mem_drop hb), fun w hw => ?_, ?_⟩
  · rcases List.mem_append.mp hw with hw | hw
    · exact h.wrote w hw
    · obtain ⟨b, hb, rfl⟩ := List.mem_map.mp hw
      exact hown b (List.mem_of_mem_take hb)
  · calc (s.print text n).stdout.wrote.map (fun w => w.2.byte) ++
          (waiting.drop n).map Printed.byte
        = s.stdout.wrote.map (fun w => w.2.byte) ++ (waiting.take n).map Printed.byte ++
            (waiting.drop n).map Printed.byte := congrArg (· ++ _) (map_wrote _ _ _)
      _ = s.stdout.wrote.map (fun w => w.2.byte) ++ waiting.map Printed.byte := by
          rw [List.append_assoc, ← List.map_append, List.take_append_drop]
      _ = s.stdout.printed ++ text := by rw [hbytes, ← List.append_assoc, h.once]

theorem Own.flush (h : Own s) : Own s.flush := by
  refine ⟨nofun, fun w hw => ?_, ?_⟩
  · rcases List.mem_append.mp hw with hw | hw
    · exact h.wrote w hw
    · obtain ⟨b, hb, rfl⟩ := List.mem_map.mp hw
      exact h.pending b hb
  · calc s.flush.stdout.wrote.map (fun w => w.2.byte) ++ []
        = s.stdout.wrote.map (fun w => w.2.byte) ++ s.stdout.pending.map Printed.byte :=
          (List.append_nil _).trans (map_wrote _ _ _)
      _ = s.stdout.printed := h.once

theorem Buffered.step {s s' : Proc} {c : Call} {x : c.Answer} (h : Buffered s)
    (hx : CarefulStep outcome s c x s') : Buffered s' := by
  rcases hx.1.output with ⟨hname, hout⟩ | rfl | ⟨text, n, rfl, rfl⟩ | ⟨rfl, rfl⟩
  · rcases h with ⟨h, hi⟩ | h
    · refine .inl ⟨⟨?_, ?_, ?_⟩, ?_⟩ <;> rw [hout]
      · exact hname ▸ h.pending
      · exact hname ▸ h.wrote
      · exact h.once
      · exact hi
    · refine .inr ⟨?_, ?_, ?_, ?_, ?_⟩ <;> rw [hout]
      · exact h.inherited
      · exact h.pending
      · exact h.wrote
      · exact h.printed
      · exact hname ▸ h.above
  · exact h.elim (fun h => h.1.child) fun h => .inr h.child
  · rcases h with ⟨h, hi⟩ | h
    · exact .inl ⟨h.print text n, hi⟩
    · exact absurd rfl ((hx.2 h.inherited).2 text)
  · rcases h with ⟨h, hi⟩ | h
    · exact .inl ⟨h.flush, hi⟩
    · exact absurd rfl (hx.2 h.inherited).1

/-- A process writes what it printed, once and in order, to its own output, where that of the first
process is the output of its start; and it ends when everything is written. -/
structure OwnOutput (s₀ : Proc) (q : SysM Empty × Proc) : Prop where
  own : ∀ w ∈ q.2.stdout.wrote, w.2.origin = q.2.kernel.name
  once : q.2.stdout.wrote.map (fun w => w.2.byte) ++
    (q.2.stdout.pending.filter fun b => b.origin = q.2.kernel.name).map Printed.byte =
      q.2.stdout.printed
  here : ∀ w ∈ q.2.stdout.wrote, w.1 = q.2.kernel.fds.get 1
  shell : q.2.kernel.name = s₀.kernel.name → q.2.kernel.fds.get 1 = s₀.kernel.fds.get 1
  done : ∀ n k, q.1 = .call (.exit n) k → q.2.stdout.pending = []

/-- No two processes of the system are one, and the output of each is its own. -/
structure OwnOutputs (s₀ : Proc) (ps : List (Processes.Process Call Call.Answer Empty Proc)) :
    Prop where
  names : (ps.map fun q => q.2.kernel.name).Nodup
  each : ∀ q ∈ ps, OwnOutput s₀ q

theorem Buffered.ownOutput {s₀ : Proc} {q : SysM Empty × Proc} (h : Buffered q.2)
    (hhere : Here s₀ q.2) (hdone : ∀ n k, q.1 = .call (.exit n) k → q.2.stdout.pending = []) :
    OwnOutput s₀ q := by
  rcases h with ⟨h, -⟩ | h
  · refine ⟨h.wrote, ?_, hhere.here, hhere.shell, hdone⟩
    rw [List.filter_eq_self.mpr fun b hb => decide_eq_true (h.pending b hb)]
    exact h.once
  · have hnone : ∀ b ∈ q.2.stdout.pending, ¬ decide (b.origin = q.2.kernel.name) = true := by
      intro b hb hd
      have hlt := h.above b (h.pending ▸ hb)
      rw [of_decide_eq_true hd] at hlt
      exact Nat.lt_irrefl _ hlt
    refine ⟨?_, ?_, hhere.here, hhere.shell, hdone⟩
    · rw [h.wrote]
      exact nofun
    · rw [h.wrote, h.printed, List.filter_eq_nil_iff.mpr hnone]
      rfl

/-- **Built-in output**: in every run of a shell, with its output open and nothing in the buffer,
in which no process prints or flushes that was forked with something in the buffer, every process
writes what it printed, once and in order, to its own output.  A run is followed up to a line that
is written out of the arrays of `parse_job`: behind such a write nothing is said. -/
theorem builtin_output {ps : List (Processes.Process Call Call.Answer Empty Proc)}
    (hopen : s.kernel.fds.get 1 ≠ none) (hempty : s.stdout = ⟨[], [], [], []⟩)
    (hrun : Processes.Run (CarefulStep outcome) spawning
      [(mysh argv0 argc opened interactive lines, s)] ps) : OwnOutputs s ps := by
  have hbirths := run_births (hrun.mono fun _ _ _ _ hx => hx.1)
  have hnodup := hbirths.nodup
  rw [List.map_map] at hnodup
  refine ⟨hnodup, fun q hq => ?_⟩
  have hreach := Processes.reach hrun q hq
  have hcalls : (mysh argv0 argc opened interactive lines).Always (CarefulStep outcome)
      (KeepsOutput s.kernel.name) (fun _ _ => True) s :=
    (mysh_output hopen).restrict fun _ _ _ _ hx => hx.1
  have hhere : Here s q.2 := by
    refine hcalls.invariant (I := Here s) (fun _ _ _ _ h hk hx => h.step hk hx.1) hreach ?_
    refine ⟨hopen, Nat.le_refl _, ?_, fun _ => rfl⟩
    rw [hempty]
    exact nofun
  have hbuffered : Buffered q.2 := by
    refine hreach.invariant (I := Buffered) (fun _ _ _ _ h hx => h.step hx) ?_
    refine .inl ⟨⟨?_, ?_, ?_⟩, ?_⟩ <;> rw [hempty]
    · exact nofun
    · exact nofun
    · rfl
  refine hbuffered.ownOutput hhere fun n k hexit => ?_
  obtain ⟨p, s'⟩ := q
  cases hexit
  exact (hcalls.reach hreach).1.exit n rfl

/-- The shell at the line behind `pwd`, with the line of `pwd` in the buffer. -/
def pwdDone : Proc := (start.onKernel start.kernel.ignore).print (ascii "/\n") 0

theorem mysh_batch (lines : List Bytes) : mysh (ascii "mysh") 2 (.ok ()) false lines =
    .call .ignoreChildren fun _ => shellProgram false 0 lines >>= fun _ => exit exitSuccess :=
  congrArg (Program.call Call.ignoreChildren) (funext fun _ =>
    Program.bind_assoc (shellProgram false 0 lines) _ _)

theorem shellProgram_execute {status : ℤ} {line : Bytes} {job : Job}
    (h : decideLine status line = .execute job) : shellProgram false status (line :: lines) =
      executeJob job false >>= fun result =>
        if shouldExit job result then .ret [⟨line, .execute job, result⟩]
        else shellProgram false result.status lines >>= fun turns =>
          .ret (⟨line, .execute job, result⟩ :: turns) := by
  rw [shellProgram, h]
  rfl

/-- A script that begins with `pwd`, once that is done. -/
theorem pwd_reach (outcome : List ℕ → Ending) (lines : List Bytes) :
    Reach (Processes.alone (CarefulStep outcome) spawning)
      (mysh (ascii "mysh") 2 (.ok ()) false (ascii "pwd" :: lines)) start
      ((shellProgram false 0 lines >>= fun turns =>
        .ret (⟨ascii "pwd", .execute (wordJob (ascii "pwd")), ⟨0, 0⟩⟩ :: turns)) >>= fun _ =>
          exit exitSuccess) pwdDone := by
  have hline : decideLine 0 (ascii "pwd") = .execute (wordJob (ascii "pwd")) := by decide
  have hignore : Processes.alone (CarefulStep outcome) spawning start .ignoreChildren
      (() : Unit) (start.onKernel start.kernel.ignore) :=
    ⟨⟨rfl, fun hne => absurd rfl hne⟩, rfl, rfl⟩
  have hpwd : Processes.alone (CarefulStep outcome) spawning
      (start.onKernel start.kernel.ignore) .getcwd (Except.ok (ascii "/"))
      (start.onKernel start.kernel.ignore) :=
    ⟨⟨rfl, fun hne => absurd rfl hne⟩, rfl, rfl⟩
  have hprint : Processes.alone (CarefulStep outcome) spawning
      (start.onKernel start.kernel.ignore) (.printf (ascii "/\n")) (() : Unit) pwdDone :=
    ⟨⟨⟨0, rfl⟩, fun hne => absurd rfl hne⟩, rfl, rfl⟩
  rw [mysh_batch]
  refine .head hignore ?_
  rw [shellProgram_execute hline]
  exact .head hpwd (.head hprint (.refl _ _))

/-- The script `pwd` writes its one line to the output of the shell. -/
theorem builtin_output_sample : ∃ q : SysM Empty × Proc,
    Processes.Run (CarefulStep fun _ => .exited 0) spawning
      [(mysh (ascii "mysh") 2 (.ok ()) false [ascii "pwd"], start)] [q] ∧
    q.2.stdout.wrote.map (fun w => (w.1, w.2.byte)) =
      [(some (.inherited 1), 47), (some (.inherited 1), 10)] ∧ OwnOutputs start [q] := by
  have hflush : Processes.alone (CarefulStep fun _ => .exited 0) spawning pwdDone .fflush
      (() : Unit) pwdDone.flush := ⟨⟨rfl, fun hne => absurd rfl hne⟩, rfl, rfl⟩
  have hreach := (pwd_reach (fun _ => .exited 0) []).trans (.head hflush (.refl _ _))
  have hrun := Processes.run_alone hreach [] []
  exact ⟨_, hrun, by decide, builtin_output nofun rfl hrun⟩

/-- The child of an unknown command, once the command is not found. -/
theorem foo_reach (outcome : List ℕ → Ending) (s : Proc) :
    ∃ k, Reach (Step outcome) (executeJob (wordJob (ascii "foo")) false) s (exit 1)
      (s.child.onKernel k) ∧ k.name = s.child.kernel.name := by
  obtain ⟨k, hnull, hk⟩ := redirectOpt_done outcome (some (ascii "/dev/null", .readOnly)) 0 s.child
  have hfork : Step outcome s .fork Forked.child s.child := rfl
  have hmiss : ∀ path, Step outcome (s.child.onKernel k) (.access path) false
      (s.child.onKernel k) := fun _ => rfl
  have hnotFound : ∀ text, Step outcome (s.child.onKernel k) (.eprintf text) (() : Unit)
      (s.child.onKernel k) := fun _ => rfl
  have hrun : Reach (Step outcome) (runProgram ⟨[some (ascii "foo"), none], 1, none, none⟩)
      (s.child.onKernel k) (exit 1 : SysM JobResult) (s.child.onKernel k) :=
    .head (hmiss _) (.head (hmiss _) (.head (hmiss _) (.head (hnotFound _) (.refl _ _))))
  have hchild := Reach.seq (hnull.mono fun _ _ _ _ hx => hx.1.1) (f := fun _ => runProgram
    ⟨[some (ascii "foo"), none], 1, none, none⟩) hrun
  exact ⟨k, .head hfork hchild, hk.name⟩

/-- The child of an unknown command writes the line of the shell again. -/
theorem builtin_output_copied : ¬ ∀ ps, Processes.Run (Step fun _ => .exited 0) spawning
    [(mysh (ascii "mysh") 2 (.ok ()) false [ascii "pwd", ascii "foo"], start)] ps →
    OwnOutputs start ps := by
  intro h
  have hline : decideLine 0 (ascii "foo") = .execute (wordJob (ascii "foo")) := by decide
  obtain ⟨k, hfoo, hname⟩ := foo_reach (fun _ => .exited 0) pwdDone
  have hpwd := (pwd_reach (fun _ => .exited 0) [ascii "foo"]).mono fun _ _ _ _ hx => hx.1.1
  rw [shellProgram_execute hline] at hpwd
  have hflush : Step (fun _ => .exited 0) (pwdDone.child.onKernel k) .fflush (() : Unit)
      (pwdDone.child.onKernel k).flush := rfl
  have hreach := hpwd.trans (((hfoo.bind _).bind _).bind _)
  obtain ⟨ps, hrun, hq⟩ := Processes.exists_run fair (hreach.tail hflush)
  -- the first byte written by the child is the shell's
  have hown : ([] : List ℕ) = [0] :=
    (((h ps hrun).each _ hq).own _ List.mem_cons_self).trans hname
  cases hown

end

end CS214.Shell
