import CS214.Shell.Failures
import CS214.Shell.Output

/-!
# Shell — what a whole session leaves

The state is that of a process, with the record of its calls; a child runs on from the record of its
parent, and is told from it by its name.  `Restores` is what every piece of the shell's work does to
its descriptors and children, `Tidy` that a program does it, and it is closed under sequencing.

* `executeJob_tidy`: every job is tidy, whichever of its calls fail.
* `session_restores`: so is a whole session.  The shell never loses what it was started with; and
  where no call of `pipe`, `fork` or `open` has failed, it has closed all it opened and waited for
  every child it forked when the loop is done.
-/

open CString Program

namespace CS214.Shell

open Proc

variable {outcome : List ℕ → Ending} {α β : Type} {t t' t'' : Proc × List Entry}
  {pipes : List (ℕ × ℕ)} {pids : List ℕ} {interactive : Bool}

/-- The process is a child of the one that was there, or of a child. -/
def Apart (t t' : Proc × List Entry) : Prop := t.1.kernel.name.length < t'.1.kernel.name.length

/-- What was open still stands for what it did. -/
def Keeps (t t' : Proc × List Entry) : Prop :=
  ∀ fd d, t.1.kernel.fds.get fd = some d → t'.1.kernel.fds.get fd = some d

/-- What a piece of the shell's work does: unless a call failed, the descriptors are as they were,
and the children it forked have been waited for. -/
structure Restores (t t' : Proc × List Entry) : Prop where
  name : t'.1.kernel.name = t.1.kernel.name
  keeps : Keeps t t'
  failures : t.1.kernel.failures ≤ t'.1.kernel.failures
  waits : waited t.2 ⊆ waited t'.2
  fds : t'.1.kernel.failures = t.1.kernel.failures → t'.1.kernel.fds = t.1.kernel.fds
  reaps : t'.1.kernel.failures = t.1.kernel.failures →
    ∀ pid ∈ forked t'.2, pid ∈ forked t.2 ∨ pid ∈ waited t'.2

/-- The process, as long as it is the shell, keeps what was open, and restores the rest when it is
done. -/
abbrev Tidy (outcome : List ℕ → Ending) (p : SysM α) (t : Proc × List Entry) : Prop :=
  p.Always (logged (Step outcome)) (fun t' _ => Apart t t' ∨ Keeps t t')
    (fun _ t' => Apart t t' ∨ Restores t t') t

theorem Keeps.refl (t : Proc × List Entry) : Keeps t t := fun _ _ => id

theorem Keeps.trans (h : Keeps t t') (h' : Keeps t' t'') : Keeps t t'' :=
  fun fd d hd => h' fd d (h fd d hd)

theorem Restores.trans (h : Restores t t') (h' : Restores t' t'') : Restores t t'' where
  name := h'.name.trans h.name
  keeps := h.keeps.trans h'.keeps
  failures := h.failures.trans h'.failures
  waits := fun _ hpid => h'.waits (h.waits hpid)
  fds hf := by
    have h₁ := h.failures
    have h₂ := h'.failures
    exact (h'.fds (by omega)).trans (h.fds (by omega))
  reaps hf pid hpid := by
    have h₁ := h.failures
    have h₂ := h'.failures
    rcases h'.reaps (by omega) pid hpid with hpid | hpid
    · exact (h.reaps (by omega) pid hpid).imp_right fun hw => h'.waits hw
    · exact .inr hpid

/-! ### Children -/

theorem Proc.Step.name_le {s s' : Proc} {c : Call} {x : c.Answer} (h : Step outcome s c x s') :
    s.kernel.name.length ≤ s'.kernel.name.length := by
  cases hborn : spawning.born c x with
  | true =>
      rw [h.born hborn]
      exact List.length_append ▸ Nat.le_add_right _ _
  | false => rw [h.name hborn]

/-- A child does not become the shell again, whatever it runs. -/
theorem apart_always {P : Proc × List Entry → Prop} {post : α → Proc × List Entry → Prop}
    (p : SysM α) (h : Apart t t') :
    p.Always (logged (Step outcome)) (fun t'' _ => Apart t t'' ∨ P t'')
      (fun a t'' => Apart t t'' ∨ post a t'') t' := by
  induction p generalizing t' with
  | ret a => exact .inl h
  | call c k ih =>
      refine ⟨.inl h, fun x t'' hx => ih x ?_⟩
      exact Nat.lt_of_lt_of_le h hx.1.name_le

/-! ### Sequences -/

/-- What is tidy behind a tidy piece. -/
theorem Restores.tidy {p : SysM α} (h : Restores t t') (hp : Tidy outcome p t') :
    p.Always (logged (Step outcome)) (fun t'' _ => Apart t t'' ∨ Keeps t t'')
      (fun _ t'' => Apart t t'' ∨ Restores t t'') t' := by
  have hapart : ∀ t'', Apart t' t'' → Apart t t'' := fun t'' ha => by
    rw [Apart, ← h.name]
    exact ha
  exact hp.mono (fun t'' _ hk => hk.imp (hapart t'') h.keeps.trans)
    fun _ t'' hr => hr.imp (hapart t'') h.trans

theorem Tidy.bind {p : SysM α} {f : α → SysM β} (h : Tidy outcome p t)
    (hf : ∀ a t', Restores t t' → Tidy outcome (f a) t') : Tidy outcome (p >>= f) t :=
  Always.bind h fun a t' ht => by
    rcases ht with ht | ht
    · exact apart_always _ ht
    · exact ht.tidy (hf a t' ht)

/-- What the kernel keeps is the same, and nobody was forked. -/
structure Talked (t t' : Proc × List Entry) : Prop where
  kernel : t'.1.kernel = t.1.kernel
  forked : forked t'.2 = forked t.2
  waits : waited t.2 ⊆ waited t'.2

namespace Talked

theorem refl (t : Proc × List Entry) : Talked t t := ⟨rfl, rfl, List.Subset.refl _⟩

theorem trans (h : Talked t t') (h' : Talked t' t'') : Talked t t'' :=
  ⟨h'.kernel.trans h.kernel, h'.forked.trans h.forked, List.Subset.trans h.waits h'.waits⟩

theorem keeps (h : Talked t t') : Keeps t t' := fun _ _ hd => by rw [h.kernel]; exact hd

theorem restores (h : Talked t t') : Restores t t' where
  name := by rw [h.kernel]
  keeps := h.keeps
  failures := by rw [h.kernel]
  waits := h.waits
  fds _ := by rw [h.kernel]
  reaps _ pid hpid := .inl (h.forked ▸ hpid)

theorem step {c : Call} {x : c.Answer} (hc : c.talks = true)
    (h : logged (Step outcome) t c x t') : Talked t t' where
  kernel := h.1.kernel (setsUp_of_talks hc)
  forked := by
    rw [h.2, forked_append]
    cases c <;> first | exact List.append_nil _ | cases hc
  waits := by
    rw [h.2, waited_append]
    exact List.subset_append_left _ _

end Talked

theorem talks_always {p : SysM α} (hp : Talks p) :
    p.Always (logged (Step outcome)) (fun t' _ => Talked t t') (fun _ t' => Talked t t') t :=
  (hp.always (fun _ _ _ _ ht hc hx => ht.trans (.step hc hx)) (.refl t)).mono
    (fun _ _ h => h.1) fun _ _ h => h

/-- A program that sets up nothing is tidy. -/
theorem talks_tidy {p : SysM α} (hp : Talks p) : Tidy outcome p t :=
  (talks_always hp).mono (fun _ _ h => .inr h.keeps) fun _ _ h => .inr h.restores

/-- `waitFor` has waited. -/
theorem waitFor_always (pid : ℕ) :
    (waitFor pid).Always (logged (Step outcome)) (fun t' _ => Talked t t')
      (fun _ t' => Talked t t' ∧ pid ∈ waited t'.2) t := by
  refine ⟨.refl t, fun status t₁ h₁ => ?_⟩
  have ht₁ : Talked t t₁ := .step rfl h₁
  refine ⟨ht₁, fun x t₂ h₂ => ⟨ht₁.trans (.step rfl h₂), ?_⟩⟩
  rw [h₂.2, waited_append]
  exact List.mem_append_right _ (List.mem_singleton_self pid)

theorem waitLoop_always (count i : ℕ) (v : ℤ) (pids : List ℕ) :
    (waitLoop count i v pids).Always (logged (Step outcome)) (fun t' _ => Talked t t')
      (fun _ t' => Talked t t' ∧ pids ⊆ waited t'.2) t := by
  induction pids generalizing i v t with
  | nil => exact ⟨.refl t, List.nil_subset _⟩
  | cons pid pids ih =>
      refine Always.bind (waitFor_always pid) fun status t₁ h₁ => ?_
      refine (ih _ _).mono (fun _ _ h => h₁.1.trans h) fun _ t₂ h => ?_
      exact ⟨h₁.1.trans h.1, List.cons_subset.mpr ⟨h.1.waits h₁.2, h.2⟩⟩

/-! ### Jobs -/

/-- These pipes are open and these children have been forked, since `t`. -/
structure Busy (t : Proc × List Entry) (pipes : List (ℕ × ℕ)) (pids : List ℕ)
    (t' : Proc × List Entry) : Prop where
  piped : ∃ k, Piped t.1.kernel pipes k ∧ t'.1.kernel.fds = k.fds ∧ t'.1.kernel.pipes = k.pipes
  name : t'.1.kernel.name = t.1.kernel.name
  failures : t'.1.kernel.failures = t.1.kernel.failures
  forked : forked t'.2 = forked t.2 ++ pids
  waits : waited t'.2 = waited t.2

namespace Busy

variable {s : Proc} {log : List Entry}

theorem start (t : Proc × List Entry) : Busy t [] [] t :=
  ⟨⟨_, .nil, rfl, rfl⟩, rfl, rfl, (List.append_nil _).symm, rfl⟩

theorem keeps (h : Busy t pipes pids t') : Keeps t t' := by
  obtain ⟨k, hk, hfds, -⟩ := h.piped
  intro fd d hd
  rw [hfds, hk.get_open (by rw [hd]; simp), hd]

theorem pipe {r w : ℕ} (h : Busy t pipes pids (s, log)) (hne : r ≠ w)
    (hr : s.kernel.fds.get r = none) (hw : s.kernel.fds.get w = none) :
    Busy t (pipes ++ [(r, w)]) pids
      (s.onKernel (s.kernel.addPipe r w), log ++ [⟨.pipe, Except.ok (r, w)⟩]) where
  piped := by
    obtain ⟨k, hk, hfds, hpipes⟩ := h.piped
    have hfds : s.kernel.fds = k.fds := hfds
    have hpipes : s.kernel.pipes = k.pipes := hpipes
    refine ⟨_, hk.snoc hne (hfds ▸ hr) (hfds ▸ hw), ?_, ?_⟩
    · simp only [onKernel, Kernel.addPipe, hfds, hpipes]
    · exact congrArg (· + 1) hpipes
  name := h.name
  failures := h.failures
  forked := by rw [forked_append, ← h.forked]; exact List.append_nil _
  waits := by rw [waited_append, ← h.waits]; exact List.append_nil _

theorem fork (h : Busy t pipes pids (s, log)) (pid : ℕ) :
    Busy t pipes (pids ++ [pid])
      (s.onKernel (s.kernel.forked 1), log ++ [⟨.fork, Forked.parent pid⟩]) where
  piped := h.piped
  name := h.name
  failures := h.failures
  forked := by rw [forked_append, ← List.append_assoc, ← h.forked]; rfl
  waits := by rw [waited_append, ← h.waits]; exact List.append_nil _

/-- A call that fails leaves what it is, and the rest need not be put in order. -/
theorem fail (h : Busy t pipes pids (s, log)) (e : Entry) :
    Restores t (s.onKernel s.kernel.fail, log ++ [e]) where
  name := h.name
  keeps := h.keeps
  failures := (h.failures.symm.le).trans (Nat.le_succ _)
  waits := by
    rw [waited_append, ← h.waits]
    exact List.subset_append_left _ _
  fds hf := by
    have hs : s.kernel.failures = t.1.kernel.failures := h.failures
    have : s.kernel.failures + 1 = t.1.kernel.failures := hf
    omega
  reaps hf := by
    have hs : s.kernel.failures = t.1.kernel.failures := h.failures
    have : s.kernel.failures + 1 = t.1.kernel.failures := hf
    omega

/-- The pipes are closed and the children waited for. -/
theorem restores (h : Busy t pipes pids t') (hk : t''.1.kernel = t'.1.kernel.closeAll pipes)
    (hf : Shell.forked t''.2 = Shell.forked t'.2) (hw : waited t'.2 ⊆ waited t''.2)
    (hall : pids ⊆ waited t''.2) : Restores t t'' := by
  obtain ⟨k, hpiped, hfds, -⟩ := h.piped
  have hback : t''.1.kernel.fds = t.1.kernel.fds := by
    rw [hk]
    exact Table.ext (funext (hpiped.closeAll hfds))
  exact
    { name := by rw [hk, closeAll_onlyFds.name, h.name]
      keeps := fun fd d hd => by rw [hback]; exact hd
      failures := by rw [hk, closeAll_onlyFds.failures, h.failures]
      waits := h.waits ▸ hw
      fds := fun _ => hback
      reaps := fun _ pid hpid => by
        rw [hf, h.forked] at hpid
        exact (List.mem_append.mp hpid).imp_right fun hp => hall hp }

end Busy

/-- The child goes on apart from the shell. -/
theorem apart_child {s : Proc} (h : s.kernel.name = t.1.kernel.name) (log : List Entry) :
    Apart t (s.child, log) := by
  rw [Apart, ← h]
  exact List.length_append ▸ Nat.lt_succ_self _

/-- `perror` behind a call that has failed. -/
theorem perror_restores {p : SysM α} (hp : Talks p) (h : Restores t t') :
    p.Always (logged (Step outcome)) (fun t'' _ => Apart t t'' ∨ Keeps t t'')
      (fun _ t'' => Restores t t'') t' :=
  (talks_always hp).mono (fun _ _ ht => .inr (h.keeps.trans ht.keeps)) fun _ _ ht =>
    h.trans ht.restores

/-- What `fork` answers to the shell; a child goes on apart from it. -/
theorem fork_session {f : Forked → SysM α} {post : α → Proc × List Entry → Prop}
    (h : Busy t pipes pids t')
    (hfailed : ∀ e t'', Restores t t'' → (f (.failed e)).Always (logged (Step outcome))
      (fun t'' _ => Apart t t'' ∨ Keeps t t'') (fun a t'' => Apart t t'' ∨ post a t'') t'')
    (hparent : ∀ pid t'', Busy t pipes (pids ++ [pid]) t'' → t''.1.kernel = t'.1.kernel.forked 1 →
      (f (.parent pid)).Always (logged (Step outcome)) (fun t'' _ => Apart t t'' ∨ Keeps t t'')
        (fun a t'' => Apart t t'' ∨ post a t'') t'') :
    (fork >>= f).Always (logged (Step outcome)) (fun t'' _ => Apart t t'' ∨ Keeps t t'')
      (fun a t'' => Apart t t'' ∨ post a t'') t' := by
  refine ⟨.inr h.keeps, fun x t'' hx => ?_⟩
  obtain ⟨s, log⟩ := t'
  obtain ⟨s', log'⟩ := t''
  obtain ⟨hs, rfl⟩ := hx
  cases x with
  | failed e =>
      cases hs
      exact hfailed e _ (h.fail _)
  | child =>
      cases hs
      exact apart_always _ (apart_child h.name _)
  | parent pid =>
      obtain ⟨rfl, rfl⟩ := hs
      exact hparent _ _ (h.fork _) rfl

theorem executeSingle_tidy (seg : JobSegment) :
    Tidy outcome (executeSingle seg interactive) t := by
  unfold executeSingle
  split
  · refine (talks_tidy (executeBuiltin_talks _ _ _)).bind fun r t' _ => talks_tidy ?_
    split <;> trivial
  · refine fork_session (.start t) (fun e t' h => ?_) fun pid t' h _ => ?_
    · exact h.tidy (talks_tidy (only_bind (perror_talks _ _) fun _ => trivial))
    · refine ((waitFor_always pid).mono (fun _ _ ht => ?_) fun _ _ ht => ht).bind ?_
      · exact .inr (h.keeps.trans ht.keeps)
      · intro status t'' ht
        refine .inr (h.restores ht.1.kernel ht.1.forked ht.1.waits ?_)
        exact List.cons_subset.mpr ⟨ht.2, List.nil_subset _⟩

/-- The loop over `pipe`. -/
theorem makePipes_busy (n : ℕ) (h : Busy t pipes [] t') :
    (makePipes pipes n).Always (logged (Step outcome)) (fun t'' _ => Apart t t'' ∨ Keeps t t'')
      (fun made t'' => made.elim (Restores t t'') fun pipes' => Busy t pipes' [] t'') t' := by
  induction n generalizing pipes t' with
  | zero => exact h
  | succ n ih =>
      refine ⟨.inr h.keeps, fun x t'' hx => ?_⟩
      obtain ⟨s, log⟩ := t'
      obtain ⟨s', log'⟩ := t''
      obtain ⟨hs, rfl⟩ := hx
      cases x with
      | error e =>
          cases hs
          exact (perror_restores (perror_talks _ _) (h.fail _)).bind fun _ _ h₁ => h₁
      | ok p =>
          obtain ⟨hne, hr, hw, rfl⟩ := hs
          exact ih (h.pipe hne hr hw)

/-- The loop over `fork`. -/
theorem forkSegments_busy {count : ℕ} (i : ℕ) (segs : List JobSegment)
    (h : Busy t pipes pids t') :
    (forkSegments pipes count interactive i pids segs).Always (logged (Step outcome))
      (fun t'' _ => Apart t t'' ∨ Keeps t t'')
      (fun done t'' => Apart t t'' ∨
        done.elim (Restores t t'') fun pids' => Busy t pipes pids' t'') t' := by
  induction segs generalizing i pids t' with
  | nil => exact .inr h
  | cons seg segs ih =>
      refine fork_session h (fun e t'' hr => ?_) fun pid t'' hb _ => ih _ hb
      exact (perror_restores (perror_talks _ _) hr).bind fun _ _ h₁ => .inr h₁

/-- The loop that closes the pipes. -/
theorem closePipes_session (ends : List (ℕ × ℕ))
    (hends : ∀ fd, IsEnd ends fd → t.1.kernel.fds.get fd = none) (h : Keeps t t') :
    (closePipes ends).Always (logged (Step outcome)) (fun t'' _ => Keeps t t'')
      (fun _ t'' => t''.1.kernel = t'.1.kernel.closeAll ends ∧ forked t''.2 = forked t'.2 ∧
        waited t''.2 = waited t'.2) t' := by
  have hclose : ∀ (s s' : Proc) (log log' : List Entry) (fd : ℕ) (x : Unit),
      t.1.kernel.fds.get fd = none → Keeps t (s, log) →
      logged (Step outcome) (s, log) (.close fd) x (s', log') →
      Keeps t (s', log') ∧ s' = s.onKernel (s.kernel.put fd none) ∧
        forked log' = forked log ∧ waited log' = waited log := by
    rintro s s' log log' fd x hfd hk ⟨hs, hlog⟩
    obtain rfl : log' = log ++ [⟨.close fd, x⟩] := hlog
    cases hs
    refine ⟨fun fd' d hd => ?_, rfl, ?_, ?_⟩
    · have hne : fd' ≠ fd := by
        rintro rfl
        rw [hfd] at hd
        cases hd
      exact (Table.get_put_ne hne).trans (hk fd' d hd)
    · rw [forked_append]; exact List.append_nil _
    · rw [waited_append]; exact List.append_nil _
  induction ends generalizing t' with
  | nil => exact ⟨rfl, rfl, rfl⟩
  | cons p ends ih =>
      refine ⟨h, fun x t₁ h₁ => ?_⟩
      obtain ⟨hk₁, hs₁, hf₁, hw₁⟩ :=
        hclose _ _ _ _ _ _ (hends _ ⟨p, List.mem_cons_self, .inl rfl⟩) h h₁
      refine ⟨hk₁, fun x t₂ h₂ => ?_⟩
      obtain ⟨hk₂, hs₂, hf₂, hw₂⟩ :=
        hclose _ _ _ _ _ _ (hends _ ⟨p, List.mem_cons_self, .inr rfl⟩) hk₁ h₂
      refine (ih (fun fd hfd => hends fd ?_) hk₂).imp fun _ t₃ h₃ => ?_
      · obtain ⟨q, hq, he⟩ := hfd
        exact ⟨q, List.mem_cons_of_mem _ hq, he⟩
      · rw [h₃.1, h₃.2.1, h₃.2.2, hf₂, hf₁, hw₂, hw₁, hs₂, hs₁]
        exact ⟨rfl, rfl, rfl⟩

theorem executePipeline_tidy (segs : List JobSegment) :
    Tidy outcome (executePipeline segs interactive) t := by
  refine (makePipes_busy _ (.start t)).bind fun made t₁ h₁ => ?_
  cases made with
  | none => exact .inr h₁
  | some pipes =>
      have h₁ : Busy t pipes [] t₁ := h₁
      refine (forkSegments_busy 0 segs h₁).bind fun done t₂ h₂ => ?_
      rcases h₂ with h₂ | h₂
      · exact apart_always _ h₂
      · cases done with
        | none => exact .inr h₂
        | some pids =>
            have h₂ : Busy t pipes pids t₂ := h₂
            obtain ⟨k, hk, hfds, -⟩ := h₂.piped
            refine ((closePipes_session pipes (fun fd => hk.closed) h₂.keeps).mono
              (fun _ _ h => .inr h) fun _ _ h => h).bind fun _ t₃ h₃ => ?_
            have hkeep : Keeps t t₃ := by
              intro fd d hd
              rw [h₃.1, hk.closeAll hfds]
              exact hd
            refine ((waitLoop_always segs.length 0 1 pids).mono (fun _ _ h => ?_)
              fun _ _ h => h).bind fun status t₄ h₄ => ?_
            · exact .inr (hkeep.trans h.keeps)
            · refine .inr (h₂.restores (h₄.1.kernel.trans h₃.1) (h₄.1.forked.trans h₃.2.1) ?_ h₄.2)
              rw [← h₃.2.2]
              exact h₄.1.waits

/-- **Every job is tidy.** -/
theorem executeJob_tidy (job : Job) : Tidy outcome (executeJob job interactive) t := by
  obtain ⟨segs⟩ := job
  match segs with
  | [] => exact .inr (Talked.refl t).restores
  | [seg] => exact executeSingle_tidy seg
  | seg :: seg' :: segs => exact executePipeline_tidy _

/-! ### The session -/

theorem shellProgram_tidy (status : ℤ) (lines : List Bytes) :
    Tidy outcome (shellProgram interactive status lines) t := by
  induction lines generalizing status t with
  | nil => exact talks_tidy (only_bind (prompt_talks _) fun _ => trivial)
  | cons line lines ih =>
      have hret : ∀ (a : List Turn) (t : Proc × List Entry), Tidy outcome (.ret a) t :=
        fun _ t => .inr (Talked.refl t).restores
      refine (talks_tidy (prompt_talks _)).bind fun _ _ _ => ?_
      split
      · exact (ih _).bind fun _ _ _ => hret _ _
      · exact (talks_tidy (only_perform rfl)).bind fun _ _ _ => (ih _).bind fun _ _ _ => hret _ _
      · exact (ih _).bind fun _ _ _ => hret _ _
      · exact ⟨.inr (.refl _), fun x => nomatch x⟩
      · refine (executeJob_tidy _).bind fun result _ _ => ?_
        split
        · exact hret _ _
        · exact (ih _).bind fun _ _ _ => hret _ _

theorem ignoreChildren_tidy : Tidy outcome ignoreChildren t := by
  refine ⟨.inr (.refl t), fun x t' hx => .inr ?_⟩
  obtain ⟨s, log⟩ := t
  obtain ⟨s', log'⟩ := t'
  obtain ⟨hs, rfl⟩ := hx
  cases hs
  have hforked : forked (log ++ [⟨.ignoreChildren, x⟩]) = forked log := by
    rw [forked_append]
    exact List.append_nil _
  exact
    { name := rfl
      keeps := fun _ _ hd => hd
      failures := Nat.le_refl _
      waits := by rw [waited_append]; exact List.subset_append_left _ _
      fds := fun _ => rfl
      reaps := fun _ pid hpid => .inl (hforked ▸ hpid) }

theorem main_tidy (argv0 : Bytes) (argc : ℕ) (opened : Except Bytes Unit) (lines : List Bytes) :
    Tidy outcome (main argv0 argc opened interactive lines) t := by
  have hrun : ∀ t, Tidy outcome (runShell interactive lines) t := fun t =>
    ignoreChildren_tidy.bind fun _ _ _ => (talks_tidy (greet_talks _ _)).bind fun _ _ _ =>
      (shellProgram_tidy 0 lines).bind fun _ _ _ => (talks_tidy (greet_talks _ _)).bind fun _ t _ =>
        .inr (Talked.refl t).restores
  unfold main
  split
  · exact talks_tidy (only_bind (only_perform rfl) fun _ => trivial)
  · split
    · cases opened with
      | error e => exact talks_tidy (only_bind (perror_talks _ _) fun _ => trivial)
      | ok u => exact hrun t
    · exact hrun t

/-- **What a session leaves.**  In every run of every script, between the `fopen` and the `fclose`
of `main`: at every call the shell itself makes and when it is done, what was open at the start
stands for what it did; and when it is done and no call of `pipe`, `fork` or `open` has failed,
exactly the same descriptors are open, and every child it forked has been waited for. -/
theorem session_restores {argv0 : Bytes} {argc : ℕ} {opened : Except Bytes Unit}
    {lines : List Bytes} {p : SysM MainResult} {s s' : Proc} {log : List Entry}
    (h : Reach (logged (Step outcome)) (main argv0 argc opened interactive lines) (s, []) p
      (s', log))
    (hself : s'.kernel.name = s.kernel.name) :
    (∀ fd d, s.kernel.fds.get fd = some d → s'.kernel.fds.get fd = some d) ∧
    ∀ r, p = .ret r → s'.kernel.failures = s.kernel.failures →
      s'.kernel.fds = s.kernel.fds ∧ ∀ pid ∈ forked log, pid ∈ waited log := by
  have htidy := (main_tidy argv0 argc opened lines).reach h
  have hnot : ¬ Apart (s, []) (s', log) := fun ha => by
    have hlt : s.kernel.name.length < s'.kernel.name.length := ha
    rw [hself] at hlt
    exact Nat.lt_irrefl _ hlt
  cases p with
  | ret r =>
      have hr : Restores (s, []) (s', log) := htidy.resolve_left hnot
      refine ⟨hr.keeps, fun _ _ hf => ⟨hr.fds hf, fun pid hpid => ?_⟩⟩
      exact (hr.reaps hf pid hpid).resolve_left List.not_mem_nil
  | call c k => exact ⟨htidy.1.resolve_left hnot, fun r hr => nomatch hr⟩

/-- The job of the line `ls`: the shell forks a child and waits for it. -/
theorem ls_reach {s : Proc} (log : List Entry) (hignored : s.kernel.ignored = true)
    (hforks : s.kernel.forks = 0) :
    Reach (logged (Step outcome)) (executeJob (wordJob (ascii "ls")) false) (s, log)
      (.ret ⟨0, 0⟩) (s.onKernel (s.kernel.forked 1), log ++ [⟨.fork, Forked.parent 0⟩] ++
        [⟨.uninitialized, (0 : UInt32)⟩] ++ [⟨.waitpid 0, (none : Option UInt32)⟩]) := by
  have hfork : logged (Step outcome) (s, log) .fork (Forked.parent 0)
      (s.onKernel (s.kernel.forked 1), log ++ [⟨.fork, Forked.parent 0⟩]) :=
    ⟨⟨hforks.symm, rfl⟩, rfl⟩
  have hlocal : logged (Step outcome) (s.onKernel (s.kernel.forked 1),
      log ++ [⟨.fork, Forked.parent 0⟩]) .uninitialized (0 : UInt32)
      (s.onKernel (s.kernel.forked 1), log ++ [⟨.fork, Forked.parent 0⟩] ++
        [⟨.uninitialized, (0 : UInt32)⟩]) := ⟨rfl, rfl⟩
  have hanswer : none = waitAnswer outcome (s.onKernel (s.kernel.forked 1)) 0 :=
    (if_pos hignored).symm
  have hwait : logged (Step outcome) (s.onKernel (s.kernel.forked 1),
      log ++ [⟨.fork, Forked.parent 0⟩] ++ [⟨.uninitialized, (0 : UInt32)⟩]) (.waitpid 0)
      (none : Option UInt32) (s.onKernel (s.kernel.forked 1),
        log ++ [⟨.fork, Forked.parent 0⟩] ++ [⟨.uninitialized, (0 : UInt32)⟩] ++
          [⟨.waitpid 0, (none : Option UInt32)⟩]) := ⟨⟨hanswer, rfl⟩, rfl⟩
  show Reach _ (executeSingle _ false) _ _ _
  rw [executeSingle, if_neg (by decide)]
  exact .head hfork (.head hlocal (.head hwait (.refl _ _)))

/-- The shell behind the start of `main`. -/
def begun : Proc × List Entry :=
  (Proc.start.onKernel Proc.start.kernel.ignore, [⟨.ignoreChildren, (() : Unit)⟩])

theorem session_restores_sample : ∃ r s' log,
    Reach (logged (Step fun _ => .exited 0)) (main (ascii "mysh") 2 (.ok ()) false [ascii "ls"])
      (Proc.start, []) (.ret r) (s', log) ∧
    s'.kernel.fds = Proc.start.kernel.fds ∧ forked log = [0] ∧
      ∀ pid ∈ forked log, pid ∈ waited log := by
  have hdecide : decideLine 0 (ascii "ls") = .execute (wordJob (ascii "ls")) := by decide
  have hloop : ∃ s' log, Reach (logged (Step fun _ => .exited 0))
      (shellProgram false 0 [ascii "ls"]) begun
      (.ret [⟨ascii "ls", .execute (wordJob (ascii "ls")), ⟨0, 0⟩⟩]) (s', log) ∧
      s'.kernel.name = [] ∧ s'.kernel.failures = 0 ∧ forked log = [0] := by
    rw [shellProgram, hdecide]
    exact ⟨_, _, (ls_reach _ rfl rfl).seq (.refl _ _), rfl, rfl, rfl⟩
  obtain ⟨s', log, hloop, hname, hfailures, hforked⟩ := hloop
  have hignore : logged (Step fun _ => .exited 0) (Proc.start, []) .ignoreChildren (() : Unit)
      begun := ⟨rfl, rfl⟩
  have hrun : Reach (logged (Step fun _ => .exited 0))
      (main (ascii "mysh") 2 (.ok ()) false [ascii "ls"]) (Proc.start, [])
      (.ret ⟨exitSuccess, some [⟨ascii "ls", .execute (wordJob (ascii "ls")), ⟨0, 0⟩⟩]⟩)
      (s', log) :=
    .head hignore (hloop.seq (.refl _ _))
  obtain ⟨hfds, hall⟩ := (session_restores hrun hname).2 _ rfl hfailures
  exact ⟨_, _, _, hrun, hfds, hforked, hall⟩

end CS214.Shell
