import CS214.Shell.Bounds

/-!
# Shell — the lines of a script

What the loop and `read_command` do with the lines of a script is as it should be up to a line that
`parse_job` writes behind its arrays for: nothing is said about what the code does from there on.
`LineFits` says of a line, in terms of the grammar, that it is none of these.

* `shell_loop_conditional_iff`: the lines of a script are executed as they should be exactly when it
  only leads to lines that fit.
* `read_command_lines_iff`: the lines of a stream are all read and handled exactly when the session
  comes to no over-long line with another one behind it and to no line that does not fit.
-/

open CString TextField

namespace CS214.Shell

/-! ### Which lines are executed -/

/-- What the loop is to do with a line when the status before it is this. -/
inductive Treated (status : ℤ) (t : Turn) : Prop where
  | blank (text : ¬ HasText t.line) (action : t.action = .blank)
  | malformed {stderr : Bytes} (fails : Malformed t.line stderr)
      (action : t.action = .syntaxError stderr)
  | skipped (skip : Skipped status t.line) (action : t.action = .skip)
  | executed {job : Job} (due : Due status t.line job) (action : t.action = .execute job)

/-- Conditional execution: the loop takes the lines in order, and executes a line exactly when it is
due under the status of the last earlier line that was executed or did not parse.  Any other line is
blank, malformed or to be skipped, and the loop goes on to the next line unless it has executed a
job that ends it. -/
structure RunsConditionally (script : List (Bytes × JobResult)) : Prop where
  lines : (shellLoop 0 script).map (fun t => (t.line, t.result)) <+: script
  treats : ∀ before t after, shellLoop 0 script = before ++ t :: after →
    Treated (statusAfter before) t
  executes : ∀ before t after, shellLoop 0 script = before ++ t :: after →
    ∀ job, t.action = .execute job ↔ Due (statusAfter before) t.line job
  fails : ∀ before t after, shellLoop 0 script = before ++ t :: after →
    ∀ stderr, t.action = .syntaxError stderr ↔ Malformed t.line stderr
  goesOn : (shellLoop 0 script).length < script.length → ∃ t ∈ (shellLoop 0 script).getLast?,
    ∃ job, t.action = .execute job ∧ (t.result.ret = -1 ∨ firstCmd job = ascii "exit")

/-- The lines, taken as they should be from the first status on, lead to the second one: none of
them has executed a job that ends the loop. -/
inductive Leads : ℤ → List (Bytes × JobResult) → ℤ → Prop where
  | nil {status : ℤ} : Leads status [] status
  | blank {status status' : ℤ} {line : Bytes} {result : JobResult}
      {script : List (Bytes × JobResult)} (text : ¬ HasText line)
      (h : Leads status script status') : Leads status ((line, result) :: script) status'
  | malformed {status status' : ℤ} {line stderr : Bytes} {result : JobResult}
      {script : List (Bytes × JobResult)} (fails : Malformed line stderr)
      (h : Leads 1 script status') : Leads status ((line, result) :: script) status'
  | skipped {status status' : ℤ} {line : Bytes} {result : JobResult}
      {script : List (Bytes × JobResult)} (skip : Skipped status line)
      (h : Leads status script status') : Leads status ((line, result) :: script) status'
  | executed {status status' : ℤ} {line : Bytes} {job : Job} {result : JobResult}
      {script : List (Bytes × JobResult)} (due : Due status line job)
      (goes : ¬ (result.ret = -1 ∨ firstCmd job = ascii "exit"))
      (h : Leads result.status script status') : Leads status ((line, result) :: script) status'

section

variable {status status' : ℤ} {line : Bytes} {result : JobResult} {t : Turn}
  {script rest : List (Bytes × JobResult)} {before after : List Turn}

/-- A line that fits is treated as it should be. -/
theorem treated_of_fits (hact : t.action = decideLine status t.line) (hfits : LineFits t.line) :
    Treated status t := by
  cases h : t.action with
  | blank => exact .blank (decideLine_eq_blank.mp (hact.symm.trans h)) h
  | syntaxError e => exact .malformed (decideLine_syntaxError.mp (hact.symm.trans h)) h
  | skip => exact .skipped (decideLine_skip.mp (hact.symm.trans h)) h
  | execute job => exact .executed (decideLine_execute.mp (hact.symm.trans h)) h
  | overflow =>
      have hover := decideLine_overflow.mp (hact.symm.trans h)
      exact absurd hfits ((parseJob_overflow_line t.line).mp hover)

/-- What is treated as it should be is not written out of the arrays. -/
theorem Treated.inside (h : Treated status t) : t.overruns = false := by
  cases h with
  | blank _ action | malformed _ action | skipped _ action | executed _ action =>
      rw [Turn.overruns, action]
      rfl

/-- A turn behind which the loop goes on. -/
theorem shellLoop_goes (hends : Turn.ends ⟨line, decideLine status line, result⟩ = false)
    (hover : decideLine status line ≠ .overflow) : shellLoop status ((line, result) :: script) =
      ⟨line, decideLine status line, result⟩ ::
        shellLoop ((Turn.status? ⟨line, decideLine status line, result⟩).getD status) script := by
  have hover' : Turn.overruns ⟨line, decideLine status line, result⟩ = false :=
    decide_eq_false hover
  rw [shellLoop_cons]
  dsimp only
  rw [hends, hover', Bool.or_self, if_neg Bool.false_ne_true]

/-- The first turn does not end the loop where none does. -/
theorem goes_head
    (h : ∀ t ∈ shellLoop status ((line, result) :: script), t.ends = false ∧ t.overruns = false) :
    Turn.ends ⟨line, decideLine status line, result⟩ = false ∧
      decideLine status line ≠ .overflow := by
  rw [shellLoop_cons] at h
  obtain ⟨hends, hover⟩ := h _ List.mem_cons_self
  exact ⟨hends, of_decide_eq_false hover⟩

/-- The loop goes on behind lines that did not end it. -/
theorem shellLoop_append
    (h : ∀ t ∈ shellLoop status script, t.ends = false ∧ t.overruns = false) :
    shellLoop status (script ++ rest) =
      shellLoop status script ++ shellLoop (statusFrom status (shellLoop status script)) rest := by
  induction script generalizing status with
  | nil => rfl
  | cons p script ih =>
      obtain ⟨line, result⟩ := p
      obtain ⟨hends, hover⟩ := goes_head h
      rw [shellLoop_goes hends hover] at h ⊢
      rw [List.cons_append, shellLoop_goes hends hover, ih (List.forall_mem_cons.mp h).2,
        statusFrom_cons]
      rfl

/-- The turns before a turn are those on the lines before its line. -/
theorem shellLoop_split (h : shellLoop status script = before ++ t :: after) :
    ∃ first rest, script = first ++ (t.line, t.result) :: rest ∧
      shellLoop status first = before := by
  induction before generalizing status script with
  | nil =>
      cases script with
      | nil => cases h
      | cons p script =>
          rw [shellLoop_cons, List.nil_append, List.cons.injEq] at h
          obtain ⟨rfl, -⟩ := h
          exact ⟨[], script, rfl, rfl⟩
  | cons u before ih =>
      cases script with
      | nil => cases h
      | cons p script =>
          rw [shellLoop_cons, List.cons_append, List.cons.injEq] at h
          obtain ⟨rfl, h⟩ := h
          split at h
          · cases before <;> cases h
          · next hgoes =>
              obtain ⟨first, rest, rfl, hfirst⟩ := ih h
              refine ⟨p :: first, rest, rfl, ?_⟩
              rw [shellLoop_cons]
              dsimp only
              rw [if_neg hgoes, hfirst]

/-- The lines lead to a status where the loop goes on behind every one of them. -/
theorem leads_of_goes
    (h : ∀ t ∈ shellLoop status script, t.ends = false ∧ t.overruns = false) :
    Leads status script (statusFrom status (shellLoop status script)) := by
  induction script generalizing status with
  | nil => exact .nil
  | cons p script ih =>
      obtain ⟨line, result⟩ := p
      obtain ⟨hends, hover⟩ := goes_head h
      rw [shellLoop_goes hends hover] at h ⊢
      have hrest := ih (List.forall_mem_cons.mp h).2
      rw [statusFrom_cons]
      cases hact : decideLine status line with
      | blank =>
          rw [hact] at hrest
          exact .blank (decideLine_eq_blank.mp hact) hrest
      | syntaxError e =>
          rw [hact] at hrest
          exact .malformed (decideLine_syntaxError.mp hact) hrest
      | skip =>
          rw [hact] at hrest
          exact .skipped (decideLine_skip.mp hact) hrest
      | execute job =>
          rw [hact] at hrest hends
          refine .executed (decideLine_execute.mp hact) (fun hstop => ?_) hrest
          exact Bool.false_ne_true (hends.symm.trans (ends_iff.mpr ⟨job, rfl, hstop⟩))
      | overflow => exact absurd hact hover

/-- The loop goes on behind a line and behind those after it. -/
theorem goes_cons {action : Action} (hact : decideLine status line = action)
    (hover : action ≠ .overflow) (hends : Turn.ends ⟨line, action, result⟩ = false)
    (h : ∀ t ∈ shellLoop ((Turn.status? ⟨line, action, result⟩).getD status) script,
      t.ends = false ∧ t.overruns = false) :
    ∀ t ∈ shellLoop status ((line, result) :: script), t.ends = false ∧ t.overruns = false := by
  subst hact
  rw [shellLoop_goes hends hover]
  exact List.forall_mem_cons.mpr ⟨⟨hends, decide_eq_false hover⟩, h⟩

/-- The loop goes on behind every one of lines that lead to a status. -/
theorem Leads.goes (h : Leads status script status') :
    ∀ t ∈ shellLoop status script, t.ends = false ∧ t.overruns = false := by
  induction h with
  | nil => exact fun t ht => absurd ht List.not_mem_nil
  | blank text _ ih => exact goes_cons (decideLine_eq_blank.mpr text) (by simp) rfl ih
  | malformed fails _ ih => exact goes_cons (decideLine_syntaxError.mpr fails) (by simp) rfl ih
  | skipped skip _ ih => exact goes_cons (decideLine_skip.mpr skip) (by simp) rfl ih
  | executed due goes _ ih =>
      refine goes_cons (decideLine_execute.mpr due) (by simp) ?_ ih
      refine Bool.eq_false_iff.mpr fun he => goes ?_
      obtain ⟨job', hjob, hstop⟩ := ends_iff.mp he
      cases hjob
      exact hstop

/-- **Conditional execution**: a script is executed line by line as it should be, whatever the
results of its jobs, exactly when every line to which the lines before it lead fits the arrays of
`parse_job`. -/
theorem shell_loop_conditional_iff (script : List (Bytes × JobResult)) :
    RunsConditionally script ↔ ∀ before line result after status,
      script = before ++ (line, result) :: after → Leads 0 before status → LineFits line := by
  constructor
  · rintro h before line result after status rfl hleads
    by_contra hno
    -- the loop goes on behind the lines before, so it comes to the line
    have hloop : shellLoop 0 (before ++ (line, result) :: after) = _ :=
      shellLoop_append hleads.goes
    rw [shellLoop_cons] at hloop
    have hover := (h.treats _ _ _ hloop).inside
    have haction : decideLine (statusFrom 0 (shellLoop 0 before)) line = .overflow :=
      decideLine_overflow.mpr ((parseJob_overflow_line line).mpr hno)
    exact of_decide_eq_false hover haction
  · intro h
    have hfits : ∀ before t after, shellLoop 0 script = before ++ t :: after →
        t.action = decideLine (statusAfter before) t.line ∧ LineFits t.line := by
      intro before t after heq
      obtain ⟨hact, hgoes⟩ := shellLoop_turn heq
      obtain ⟨first, rest, hscript, rfl⟩ := shellLoop_split heq
      exact ⟨hact, h first t.line t.result rest _ hscript (leads_of_goes hgoes)⟩
    have htreats : ∀ before t after, shellLoop 0 script = before ++ t :: after →
        Treated (statusAfter before) t := fun before t after heq =>
      treated_of_fits (hfits before t after heq).1 (hfits before t after heq).2
    refine ⟨shellLoop_lines 0 script, htreats, fun before t after heq job => ?_,
      fun before t after heq e => ?_, fun hlt => ?_⟩
    · rw [(hfits before t after heq).1]
      exact decideLine_execute
    · rw [(hfits before t after heq).1]
      exact decideLine_syntaxError
    · obtain ⟨t, ht, hstop⟩ := shellLoop_stops hlt
      have heq := List.dropLast_append_getLast? t ht
      have hinside := (htreats _ t [] heq.symm).inside
      rw [hinside] at hstop
      exact ⟨t, ht, ends_iff.mp (hstop.resolve_right Bool.false_ne_true)⟩

/-- A line of 120 words. -/
def crowded : Bytes := (List.replicate 120 [97, 32]).flatten

/-- Behind a line of 120 words `pwd` is due, and is not executed. -/
theorem shell_loop_overruns : ¬ RunsConditionally [(crowded, ⟨0, 0⟩), (ascii "pwd", ⟨0, 0⟩)] := by
  intro h
  have hover : decideLine 0 crowded = .overflow := by decide +kernel
  have hloop : shellLoop 0 [(crowded, ⟨0, 0⟩), (ascii "pwd", ⟨0, 0⟩)] =
      [] ++ ⟨crowded, .overflow, ⟨0, 0⟩⟩ :: [] := by
    rw [shellLoop, hover]
    rfl
  cases (h.treats _ _ _ hloop).inside

end

/-! ### Which lines are lost -/

section

variable {s : Bytes}

/-- **Line reading**: on every stream without NUL bytes, whatever its jobs give, every line is read
and handled and every over-long line is reported, exactly when each line comes after one that ended
the session, or is the last one where it is over-long and fits the arrays where it is not. -/
theorem read_command_lines_iff (results : ℕ → JobResult) (h0 : 0 ∉ s) :
    LosesNothing results s ↔ ∀ before line after, lines 10 s = before ++ line :: after →
      Ended results 0 before ∨ (bufferSize - 1 ≤ line.length → after = []) ∧
        (line.length < bufferSize - 1 → LineFits line) := by
  refine (losesNothing_iff h0).trans ?_
  refine forall_congr' fun before => forall_congr' fun line => forall_congr' fun after =>
    imp_congr_right fun _ => or_congr_right ?_
  have hfits : (parseJob (tokenize line)).job ≠ .overflow ↔ LineFits line := by
    rw [Ne, parseJob_overflow_line, not_not]
  rw [← hfits]
  exact ⟨fun h => ⟨h.long, h.fits⟩, fun h => ⟨h.1, h.2⟩⟩

theorem read_command_lines_sample : LosesNothing (fun _ => ⟨0, 0⟩) (ascii "pwd\nexit") := by
  refine (read_command_lines_iff _ (by decide)).mpr fun before line after heq => .inr ?_
  have hl : line ∈ lines 10 (ascii "pwd\nexit") := by
    rw [heq]
    exact List.mem_append_right _ List.mem_cons_self
  have hall : ∀ l ∈ lines 10 (ascii "pwd\nexit"),
      l.length < 5 ∧ (parseJob (tokenize l)).job ≠ .overflow := by decide
  obtain ⟨hshort, hfits⟩ := hall line hl
  refine ⟨fun hlong => ?_, fun _ => not_not.mp (mt (parseJob_overflow_line line).mpr hfits)⟩
  rw [bufferSize] at hlong
  omega

/-- A line of 4095 bytes and another one behind it. -/
def longThenPwd : Bytes := List.replicate 4095 97 ++ 10 :: ascii "pwd"

/-- The line behind an over-long one is lost. -/
theorem read_command_long_line : ¬ LosesNothing (fun _ => ⟨0, 0⟩) longThenPwd := by
  have hlong : (10 : UInt8) ∉ List.replicate 4095 97 := by
    rw [List.mem_replicate]
    decide
  have h0 : 0 ∉ longThenPwd := by
    rw [longThenPwd, List.mem_append, List.mem_replicate]
    decide
  have hlines : lines 10 longThenPwd = [List.replicate 4095 97, ascii "pwd"] := by
    rw [longThenPwd, lines_cons hlong]
    rfl
  intro h
  have hpass := (losesNothing_iff h0).mp h
  rw [hlines, linesPass_cons] at hpass
  exact List.cons_ne_nil _ _ (hpass.1.long (by rw [List.length_replicate, bufferSize]))

end

end CS214.Shell
