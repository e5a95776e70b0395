import CS214.Shell.Exec

/-!
# Shell — `shell_loop` and `main`

`decideLine` is what the body of the loop does with a line, given the status it has.  `shellLoop`
runs over the results of `read_command` up to the first `NULL`, each with the result `execute_job`
has for it, if it is called; `shellProgram` is the same loop with its calls, and its turns are
those of `shellLoop` (`shellProgram_turns`).

* `decideLine_execute`, `decideLine_syntaxError`, `decideLine_skip`: which lines are executed,
  which fail and which are passed over, under the status before them.
* `main_status_iff`: `main` returns the right status exactly for the runs that no `die` ended.
* `exit_die_stop`: the jobs behind which the loop stops.
-/

open CString

namespace CS214.Shell

/-! ### The body of the loop -/

/-- Where the body of the loop takes a line; `overflow` is a write behind the arrays of `parse_job`,
and nothing is said about what the code does from there on. -/
inductive Action where
  | blank
  | syntaxError (stderr : Bytes)
  | skip
  | execute (job : Job)
  | overflow
deriving DecidableEq

/-- The body of the loop, up to the call of `execute_job`. -/
def decideLine (exitStatus : ℤ) (line : Bytes) : Action :=
  let tokens := tokenize line
  if tokens.isEmpty then .blank
  else
    let parsed := parseJob tokens
    match parsed.job with
    | .error e => .syntaxError e
    | .overflow => .overflow
    | .ok job =>
      if parsed.conditionalType = TokenType.and.code ∧ exitStatus ≠ 0 then .skip
      else if parsed.conditionalType = TokenType.or.code ∧ exitStatus = 0 then .skip
      else .execute job

/-- `job->segments[0].argv[0]`. -/
def firstCmd (job : Job) : Bytes := job.segments.head?.elim [] fun seg => arg seg.argv 0

/-- `should_exit` after a call of `execute_job`. -/
def shouldExit (job : Job) (result : JobResult) : Bool :=
  result.ret = -1 || (0 < job.segments.length && firstCmd job = ascii "exit")

/-- A turn of the loop: the line, what was done with it, and the result if it was executed. -/
structure Turn where
  line : Bytes
  action : Action
  result : JobResult
deriving DecidableEq

/-- The loop on the lines and the results it gets for them. -/
def shellLoop (exitStatus : ℤ) : List (Bytes × JobResult) → List Turn
  | [] => []
  | (line, result) :: script =>
    let action := decideLine exitStatus line
    ⟨line, action, result⟩ ::
      match action with
      | .blank | .skip => shellLoop exitStatus script
      | .syntaxError _ => shellLoop 1 script
      | .overflow => []
      | .execute job => if shouldExit job result then [] else shellLoop result.status script

/-! ### Which lines are executed -/

namespace Turn

/-- The status a turn leaves, if it leaves one. -/
def status? (t : Turn) : Option ℤ :=
  match t.action with
  | .execute _ => some t.result.status
  | .syntaxError _ => some 1
  | _ => none

/-- The turn executed a job behind which the loop ends. -/
def ends (t : Turn) : Bool :=
  match t.action with
  | .execute job => shouldExit job t.result
  | _ => false

/-- The line was written out of the arrays of `parse_job`. -/
def overruns (t : Turn) : Bool := t.action = .overflow

end Turn

/-- The status before a line: that of the last earlier turn that left one, and 0 without any. -/
def statusAfter (turns : List Turn) : ℤ := (turns.filterMap Turn.status?).getLast?.getD 0

/-- A line holds something else than white space before the first `#`. -/
def HasText (line : Bytes) : Prop := ∃ b ∈ line.takeWhile (fun b => b ≠ 35), isSpace b = false

/-- The first token of the line. -/
def leading (line : Bytes) : Option TokenType := (tokenize line).head?.map Token.type

/-- The line is to be executed as this job when the status before it is this. -/
structure Due (status : ℤ) (line : Bytes) (job : Job) : Prop where
  text : HasText line
  parses : (parseJob (tokenize line)).job = .ok job
  and : ¬ (leading line = some .and ∧ status ≠ 0)
  or : ¬ (leading line = some .or ∧ status = 0)

/-- The line is to be passed over when the status before it is this. -/
structure Skipped (status : ℤ) (line : Bytes) : Prop where
  text : HasText line
  parses : ∃ job, (parseJob (tokenize line)).job = .ok job
  conditional : leading line = some .and ∧ status ≠ 0 ∨ leading line = some .or ∧ status = 0

/-- The line is to fail with this message, whatever the status. -/
structure Malformed (line stderr : Bytes) : Prop where
  text : HasText line
  fails : (parseJob (tokenize line)).job = .error stderr

section

variable {status : ℤ} {line : Bytes} {job : Job} {result : JobResult} {t : Turn}
  {script : List (Bytes × JobResult)} {before after turns : List Turn}

theorem isEmpty_tokenize : (tokenize line).isEmpty = false ↔ HasText line := by
  rw [List.isEmpty_eq_false_iff, ne_eq, tokenize_eq_nil, HasText]
  simp only [not_forall, Bool.not_eq_true, exists_prop]

theorem parseJob_conditionalType (tokens : List Token) :
    (parseJob tokens).conditionalType = (leadingConditional tokens).1 := by
  simp only [parseJob]
  split <;> rfl

/-- `*conditional_type` is the code of a leading `and` or `or`, and 0 without one. -/
theorem conditionalType_eq (line : Bytes) (c : TokenType) (hc : c = .and ∨ c = .or) :
    (parseJob (tokenize line)).conditionalType = c.code ↔ leading line = some c := by
  rw [parseJob_conditionalType, leading]
  match tokenize line with
  | [] => rcases hc with rfl | rfl <;> exact iff_of_false (by decide) (by decide)
  | ⟨u, v⟩ :: rest =>
      rw [List.head?_cons, Option.map_some, Option.some.injEq]
      rcases hc with rfl | rfl <;> cases u <;> simp [leadingConditional, TokenType.code]

/-- What the body of the loop does with a line, in terms of its first token. -/
theorem decideLine_of_text (h : HasText line) :
    decideLine status line =
      match (parseJob (tokenize line)).job with
      | .error e => .syntaxError e
      | .overflow => .overflow
      | .ok job =>
        if leading line = some .and ∧ status ≠ 0 then .skip
        else if leading line = some .or ∧ status = 0 then .skip
        else .execute job := by
  have hand := conditionalType_eq line .and (.inl rfl)
  have hor := conditionalType_eq line .or (.inr rfl)
  simp only [decideLine, isEmpty_tokenize.mpr h, hand, hor, Bool.false_eq_true, if_false]

theorem decideLine_blank (h : ¬ HasText line) : decideLine status line = .blank := by
  rw [← isEmpty_tokenize, Bool.not_eq_false] at h
  exact if_pos h

/-- What the body of the loop takes for an empty line. -/
theorem decideLine_eq_blank : decideLine status line = .blank ↔ ¬ HasText line := by
  refine ⟨fun h htext => ?_, decideLine_blank⟩
  rw [decideLine_of_text htext] at h
  split at h
  · cases h
  · cases h
  · split at h
    · cases h
    · split at h <;> cases h

/-- What the body of the loop executes. -/
theorem decideLine_execute : decideLine status line = .execute job ↔ Due status line job := by
  by_cases htext : HasText line
  · rw [decideLine_of_text htext]
    constructor
    · intro h
      split at h
      · cases h
      · cases h
      · next job' hjob =>
          split at h
          · cases h
          · next ha =>
              split at h
              · cases h
              · next ho =>
                  cases h
                  exact ⟨htext, hjob, ha, ho⟩
    · rintro ⟨-, hjob, ha, ho⟩
      rw [hjob]
      exact (if_neg ha).trans (if_neg ho)
  · rw [decideLine_blank htext]
    exact iff_of_false (fun h => nomatch h) fun h => htext h.text

/-- A line that does not parse fails before its conditional is looked at. -/
theorem decideLine_syntaxError {e : Bytes} :
    decideLine status line = .syntaxError e ↔ Malformed line e := by
  by_cases htext : HasText line
  · rw [decideLine_of_text htext]
    constructor
    · intro h
      split at h
      · next e' he =>
          cases h
          exact ⟨htext, he⟩
      · cases h
      · split at h
        · cases h
        · split at h <;> cases h
    · rintro ⟨-, he⟩
      rw [he]
  · rw [decideLine_blank htext]
    exact iff_of_false (fun h => nomatch h) fun h => htext h.text

/-- What the body of the loop passes over. -/
theorem decideLine_skip : decideLine status line = .skip ↔ Skipped status line := by
  by_cases htext : HasText line
  · rw [decideLine_of_text htext]
    constructor
    · intro h
      split at h
      · cases h
      · cases h
      · next job hjob =>
          split at h
          · next ha => exact ⟨htext, ⟨job, hjob⟩, .inl ha⟩
          · split at h
            · next ho => exact ⟨htext, ⟨job, hjob⟩, .inr ho⟩
            · cases h
    · rintro ⟨-, ⟨job, hjob⟩, hskip⟩
      rw [hjob]
      rcases hskip with ha | ho
      · exact if_pos ha
      · have hne : ¬ (leading line = some .and ∧ status ≠ 0) := fun ha => ha.2 ho.2
        exact (if_neg hne).trans (if_pos ho)
  · rw [decideLine_blank htext]
    exact iff_of_false (fun h => nomatch h) fun h => htext h.text

/-- A line is written out of the arrays when its tokens do not fit, whatever the status. -/
theorem decideLine_overflow :
    decideLine status line = .overflow ↔ (parseJob (tokenize line)).job = .overflow := by
  by_cases htext : HasText line
  · rw [decideLine_of_text htext]
    cases (parseJob (tokenize line)).job with
    | error e => exact iff_of_false (fun h => nomatch h) fun h => nomatch h
    | overflow => exact iff_of_true rfl rfl
    | ok job =>
        refine iff_of_false (fun h => ?_) fun h => nomatch h
        simp only at h
        split at h
        · cases h
        · split at h <;> cases h
  · have hempty : (tokenize line).isEmpty = true :=
      eq_true_of_ne_false (mt isEmpty_tokenize.mp htext)
    have hnil : tokenize line = [] := List.isEmpty_iff.mp hempty
    rw [decideLine_blank htext, hnil]
    exact iff_of_false (fun h => nomatch h) (by decide)

/-! ### Runs of the loop -/

/-- One turn: it is decided with the status before it, and leaves a status or keeps it. -/
theorem shellLoop_cons : shellLoop status ((line, result) :: script) =
    let t : Turn := ⟨line, decideLine status line, result⟩
    t :: if t.ends || t.overruns then [] else shellLoop (t.status?.getD status) script := by
  rw [shellLoop]
  cases decideLine status line with
  | execute job =>
      show _ = _ :: if (shouldExit job result || false) = true then [] else _
      rw [Bool.or_false]
      rfl
  | _ => rfl

/-- The status behind some turns, when it was `status` before them. -/
def statusFrom (status : ℤ) (turns : List Turn) : ℤ :=
  (turns.filterMap Turn.status?).getLast?.getD status

theorem statusFrom_cons :
    statusFrom status (t :: turns) = statusFrom (t.status?.getD status) turns := by
  rw [statusFrom, List.filterMap_cons]
  cases t.status? with
  | none => rfl
  | some n =>
      rw [statusFrom, Option.getD_some, List.getLast?_cons]
      rfl

/-- The turns are in the order of the lines. -/
theorem shellLoop_lines (status : ℤ) (script : List (Bytes × JobResult)) :
    (shellLoop status script).map (fun t => (t.line, t.result)) <+: script := by
  induction script generalizing status with
  | nil => exact List.nil_prefix
  | cons p script ih =>
      rw [shellLoop_cons, List.map_cons]
      refine List.cons_prefix_cons.mpr ⟨rfl, ?_⟩
      split
      · exact List.nil_prefix
      · exact ih _

/-- The loop ends before the last line only behind a turn that ends it or is not followed. -/
theorem shellLoop_stops (h : (shellLoop status script).length < script.length) :
    ∃ t ∈ (shellLoop status script).getLast?, t.ends = true ∨ t.overruns = true := by
  induction script generalizing status with
  | nil => cases h
  | cons p script ih =>
      rw [shellLoop_cons] at h ⊢
      dsimp only at h ⊢
      split at h
      · next hends =>
          rw [if_pos hends]
          exact ⟨_, rfl, Bool.or_eq_true_iff.mp hends⟩
      · next hends =>
          rw [if_neg hends]
          obtain ⟨t, ht, hends'⟩ := ih (Nat.lt_of_succ_lt_succ h)
          exact ⟨t, by rw [List.getLast?_cons, ht]; rfl, hends'⟩

/-- Every turn is decided with the status that the turns before it left, none of which ended the
loop or was written out of its arrays. -/
theorem shellLoop_turn (h : shellLoop status script = before ++ t :: after) :
    t.action = decideLine (statusFrom status before) t.line ∧
      ∀ u ∈ before, u.ends = false ∧ u.overruns = false := by
  induction before generalizing status script with
  | nil =>
      cases script with
      | nil => cases h
      | cons p script =>
          rw [shellLoop_cons, List.nil_append, List.cons.injEq] at h
          obtain ⟨rfl, -⟩ := h
          exact ⟨rfl, fun u hu => nomatch hu⟩
  | cons u before ih =>
      cases script with
      | nil => cases h
      | cons p script =>
          rw [shellLoop_cons, List.cons_append, List.cons.injEq] at h
          obtain ⟨rfl, h⟩ := h
          split at h
          · cases before <;> cases h
          · next hends =>
              obtain ⟨hact, hall⟩ := ih h
              rw [statusFrom_cons]
              have hgoes := Bool.or_eq_false_iff.mp (eq_false_of_ne_true hends)
              exact ⟨hact, List.forall_mem_cons.mpr ⟨hgoes, hall⟩⟩

theorem ends_iff : t.ends = true ↔
    ∃ job, t.action = .execute job ∧ (t.result.ret = -1 ∨ firstCmd job = ascii "exit") := by
  have hfirst : ∀ job, firstCmd job = ascii "exit" → 0 < job.segments.length := by
    intro job h
    match hs : job.segments with
    | [] =>
        rw [firstCmd, hs] at h
        cases h
    | seg :: segs => exact Nat.succ_pos _
  have hstop : ∀ job, shouldExit job t.result = true ↔
      t.result.ret = -1 ∨ firstCmd job = ascii "exit" := fun job => by
    simp only [shouldExit, Bool.or_eq_true, Bool.and_eq_true, decide_eq_true_eq]
    exact or_congr_right (and_iff_right_of_imp (hfirst job))
  rw [Turn.ends]
  cases t.action with
  | execute job =>
      refine (hstop job).trans ⟨fun hr => ⟨job, rfl, hr⟩, ?_⟩
      rintro ⟨job', h, hr⟩
      cases h
      exact hr
  | _ => exact iff_of_false Bool.false_ne_true (by rintro ⟨job, h, -⟩; cases h)

end

/-! ### The loop and `main` with their calls -/

/-- `printf("mysh> "); fflush(stdout);` -/
def prompt (interactive : Bool) : SysM Unit :=
  if interactive then do
    printf (ascii "mysh> ")
    fflush
  else return ()

/-- The loop on the lines it reads; what it returns is the record of its turns. -/
def shellProgram (interactive : Bool) (exitStatus : ℤ) : List Bytes → SysM (List Turn)
  | [] => do
    prompt interactive
    return []
  | line :: lines => do
    prompt interactive
    match decideLine exitStatus line with
    | .blank =>
      let turns ← shellProgram interactive exitStatus lines
      return ⟨line, .blank, ⟨0, 0⟩⟩ :: turns
    | .syntaxError e =>
      eprintf e
      let turns ← shellProgram interactive 1 lines
      return ⟨line, .syntaxError e, ⟨0, 0⟩⟩ :: turns
    | .skip =>
      let turns ← shellProgram interactive exitStatus lines
      return ⟨line, .skip, ⟨0, 0⟩⟩ :: turns
    | .overflow => overflow
    | .execute job =>
      let result ← executeJob job interactive
      if shouldExit job result then return [⟨line, .execute job, result⟩]
      else
        let turns ← shellProgram interactive result.status lines
        return ⟨line, .execute job, result⟩ :: turns

/-- `EXIT_SUCCESS`. -/
def exitSuccess : ℕ := 0

/-- `EXIT_FAILURE`. -/
def exitFailure : ℕ := 1

/-- What `main` returns, and the turns of its loop, if it got there. -/
structure MainResult where
  status : ℕ
  turns : Option (List Turn)

/-- `if (is_interactive) printf(...)`. -/
def greet (interactive : Bool) (text : Bytes) : SysM Unit :=
  if interactive then printf text else return ()

/-- `shell_loop` and what surrounds it in `main`. -/
def runShell (interactive : Bool) (lines : List Bytes) : SysM MainResult := do
  ignoreChildren
  greet interactive (ascii "Welcome to my shell!\n")
  let turns ← shellProgram interactive 0 lines
  greet interactive (ascii "Exiting my shell.\n")
  return ⟨exitSuccess, some turns⟩

/-- `main`: `opened` is what `fopen` makes of `argv[1]`, and `lines` are the lines of the input.
`fopen` and `fclose` are no calls here: where there is a script, its descriptor is one of those the
process starts with, and it stays open. -/
def main (argv0 : Bytes) (argc : ℕ) (opened : Except Bytes Unit) (interactive : Bool)
    (lines : List Bytes) : SysM MainResult :=
  if 2 < argc then do
    eprintf (argv0 ++ ascii ": too many arguments\n")
    return ⟨exitFailure, none⟩
  else if argc = 2 then
    match opened with
    | .error e => do
      perror (ascii "fopen") e
      return ⟨exitFailure, none⟩
    | .ok _ => runShell interactive lines
  else runShell interactive lines

/-- The process: `main`, and the exit behind it. -/
def mysh (argv0 : Bytes) (argc : ℕ) (opened : Except Bytes Unit) (interactive : Bool)
    (lines : List Bytes) : SysM Empty := do
  let r ← main argv0 argc opened interactive lines
  exit r.status

/-! ### How a run ends -/

/-- An executed `die` was the last turn. -/
def EndedByDie (turns : List Turn) : Prop :=
  ∃ t ∈ turns.getLast?, ∃ job, t.action = .execute job ∧ IsDie job

/-- An executed job with `exit` as its first command was the last turn. -/
def EndedByExit (turns : List Turn) : Prop :=
  ∃ t ∈ turns.getLast?, ∃ job, t.action = .execute job ∧ firstCmd job = ascii "exit"

/-- All lines had their turn. -/
def EndedByInput (lines : List Bytes) (turns : List Turn) : Prop :=
  turns.map Turn.line = lines ∧ ¬ EndedByDie turns ∧ ¬ EndedByExit turns

/-- The status of the process says how the run of the script ended. -/
def StatusRight (lines : List Bytes) (r : MainResult) : Prop :=
  ∀ turns, r.turns = some turns →
    (EndedByDie turns → r.status = exitFailure) ∧
    (EndedByExit turns ∨ EndedByInput lines turns → r.status = exitSuccess)

section

open Program

variable {σ : Type} {env : σ → (c : Call) → c.Answer → σ → Prop} {s s' : σ}
  {interactive : Bool} {status : ℤ} {lines : List Bytes} {turns : List Turn}

/-- The turns are those of the loop on some results, and only `die` has the special return code. -/
def TurnsOf (status : ℤ) (lines : List Bytes) (turns : List Turn) : Prop :=
  (∃ script, script.map Prod.fst = lines ∧ turns = shellLoop status script) ∧
  ∀ t ∈ turns, t.action ≠ .overflow ∧
    ∀ job, t.action = .execute job → (t.result.ret = -1 ↔ IsDie job)

theorem TurnsOf.cons {status' : ℤ} {t : Turn} (h : TurnsOf status' lines turns)
    (hact : decideLine status t.line = t.action) (hends : t.ends = false)
    (hover : t.action ≠ .overflow) (hstatus : t.status?.getD status = status')
    (hret : ∀ job, t.action = .execute job → (t.result.ret = -1 ↔ IsDie job)) :
    TurnsOf status (t.line :: lines) (t :: turns) := by
  obtain ⟨⟨script, rfl, rfl⟩, hall⟩ := h
  refine ⟨⟨(t.line, t.result) :: script, rfl, ?_⟩, ?_⟩
  · rw [shellLoop_cons, hact]
    show _ = t :: if (t.ends || t.overruns) = true then [] else _
    rw [hends, Turn.overruns, decide_eq_false hover, hstatus]
    rfl
  · exact List.forall_mem_cons.mpr ⟨⟨hover, hret⟩, hall⟩

/-- The loop with its calls is the loop on the results of the calls. -/
theorem shellProgram_turns :
    Yields env (shellProgram interactive status lines) s (TurnsOf status lines) := by
  induction lines generalizing status s with
  | nil => exact yields_bind fun _ _ => ⟨⟨[], rfl, rfl⟩, fun t ht => nomatch ht⟩
  | cons line lines ih =>
      refine yields_bind fun _ _ => ?_
      split
      · next h =>
          refine ih.bind fun turns _ ht => ?_
          exact ht.cons (t := ⟨line, .blank, _⟩) h rfl nofun rfl fun job hj => nomatch hj
      · next e h =>
          refine yields_bind fun _ _ => ?_
          refine ih.bind fun turns _ ht => ?_
          exact ht.cons (t := ⟨line, .syntaxError e, _⟩) h rfl nofun rfl fun job hj => nomatch hj
      · next h =>
          refine ih.bind fun turns _ ht => ?_
          exact ht.cons (t := ⟨line, .skip, _⟩) h rfl nofun rfl fun job hj => nomatch hj
      · exact ⟨trivial, fun x => nomatch x⟩
      · next job h =>
          refine (executeJob_die job interactive).bind ?_
          intro result _ hr
          have hret : ∀ job', Action.execute job = .execute job' →
              (result.ret = -1 ↔ IsDie job') := by
            intro job' hj
            cases hj
            exact hr
          split
          · next hstop =>
              -- the lines behind it are not read, and any results will do for them
              refine ⟨⟨(line, result) :: lines.map fun l => (l, ⟨0, 0⟩), ?_, ?_⟩, ?_⟩
              · rw [List.map_cons, List.map_map]
                exact congrArg _ (List.map_id' _)
              · rw [shellLoop_cons, h]
                exact congrArg _ (if_pos (Bool.or_eq_true_iff.mpr (.inl hstop))).symm
              · exact List.forall_mem_singleton.mpr ⟨nofun, hret⟩
          · next hstop =>
              refine ih.bind fun turns _ ht => ?_
              exact ht.cons (t := ⟨line, .execute job, result⟩) h (eq_false_of_ne_true hstop) nofun
                rfl hret

theorem runShell_yields : Yields env (runShell interactive lines) s fun r =>
    r.status = exitSuccess ∧ ∃ turns, r.turns = some turns ∧ TurnsOf 0 lines turns := by
  refine yields_bind fun _ _ => yields_bind fun _ _ => ?_
  refine shellProgram_turns.bind fun turns _ ht => ?_
  exact yields_bind fun _ _ => ⟨rfl, turns, rfl, ht⟩

/-- `main` fails before it runs the script, or runs it and succeeds. -/
theorem main_yields {argv0 : Bytes} {argc : ℕ} {opened : Except Bytes Unit} :
    Yields env (main argv0 argc opened interactive lines) s fun r =>
      r.turns = none ∨
      r.status = exitSuccess ∧ ∃ turns, r.turns = some turns ∧ TurnsOf 0 lines turns := by
  unfold main
  split
  · exact yields_bind fun _ _ => .inl rfl
  · split
    · cases opened with
      | error e => exact yields_bind fun _ _ => .inl rfl
      | ok u => exact runShell_yields.imp fun r _ h => .inr h
    · exact runShell_yields.imp fun r _ h => .inr h

/-- A run of a script ends by `die`, by `exit` or by the end of the input, and by `die` only where
`execute_job` gave its special return code. -/
theorem TurnsOf.ended (h : TurnsOf 0 lines turns) :
    EndedByDie turns ∨ EndedByExit turns ∨ EndedByInput lines turns := by
  obtain ⟨⟨script, rfl, rfl⟩, hall⟩ := h
  by_cases hdie : EndedByDie (shellLoop 0 script)
  · exact .inl hdie
  by_cases hexit : EndedByExit (shellLoop 0 script)
  · exact .inr (.inl hexit)
  refine .inr (.inr ⟨?_, hdie, hexit⟩)
  have hlines := shellLoop_lines 0 script
  by_cases hlt : (shellLoop 0 script).length < script.length
  · -- a turn before the last line ended the loop, by one of the three
    obtain ⟨t, ht, hends⟩ := shellLoop_stops hlt
    obtain ⟨hover, hret⟩ := hall t (List.mem_of_getLast? ht)
    have hends := hends.resolve_right fun h => hover (of_decide_eq_true h)
    obtain ⟨job, hjob, h | h⟩ := ends_iff.mp hends
    · exact absurd ⟨t, ht, job, hjob, (hret job hjob).mp h⟩ hdie
    · exact absurd ⟨t, ht, job, hjob, h⟩ hexit
  · have hlen := hlines.length_le
    rw [List.length_map] at hlen
    have heq := hlines.eq_of_length (by rw [List.length_map]; omega)
    calc (shellLoop 0 script).map Turn.line
        = ((shellLoop 0 script).map fun t => (t.line, t.result)).map Prod.fst := by
          rw [List.map_map]
          rfl
      _ = script.map Prod.fst := by rw [heq]

/-- **The process status**: every completed run of a script, in every mode and for all answers to
its calls, ends by an executed `die`, by an executed `exit` or by the end of the input, and the
status that `main` returns says so exactly when it was not `die`. -/
theorem main_status_iff {argv0 : Bytes} {argc : ℕ} {opened : Except Bytes Unit} {r : MainResult}
    (h : Reach env (main argv0 argc opened interactive lines) s (.ret r) s') :
    (∀ turns, r.turns = some turns →
      EndedByDie turns ∨ EndedByExit turns ∨ EndedByInput lines turns) ∧
    (StatusRight lines r ↔ ∀ turns, r.turns = some turns → ¬ EndedByDie turns) := by
  obtain hnone | ⟨hstatus, turns', hturns', hof⟩ := main_yields.done h
  · refine ⟨fun turns hturns => ?_, forall_congr' fun turns => imp_congr_right fun hturns => ?_⟩
    all_goals
      rw [hnone] at hturns
      cases hturns
  · refine ⟨fun turns hturns => ?_, forall_congr' fun turns => imp_congr_right fun _ => ?_⟩
    · cases hturns'.symm.trans hturns
      exact hof.ended
    · refine ⟨fun hright hdie => ?_, fun hno => ⟨fun hdie => absurd hdie hno, fun _ => hstatus⟩⟩
      rw [hright.1 hdie] at hstatus
      cases hstatus

/-- Every answer to every call. -/
def anyAnswer (_ : Unit) (c : Call) (_ : c.Answer) (_ : Unit) : Prop := True

/-- A script of one line whose job makes no calls and ends the loop. -/
theorem main_line_reach (line : Bytes) (job : Job) (result : JobResult)
    (h : decideLine 0 line = .execute job) (hjob : executeJob job false = .ret result)
    (hstop : shouldExit job result = true) :
    Reach anyAnswer (main (ascii "mysh") 2 (.ok ()) false [line]) ()
      (.ret ⟨exitSuccess, some [⟨line, .execute job, result⟩]⟩) () := by
  have hloop : shellProgram false 0 [line] = .ret [⟨line, .execute job, result⟩] := by
    rw [shellProgram, h]
    show executeJob job false >>= _ = _
    rw [hjob]
    exact if_pos hstop
  have hignore : anyAnswer () .ignoreChildren (() : Unit) () := trivial
  refine .head hignore ?_
  show Reach anyAnswer (shellProgram false 0 [line] >>= _) () _ ()
  rw [hloop]
  exact .refl _ _

/-- The job of a line that is one word. -/
def wordJob (word : Bytes) : Job := ⟨[⟨[some word, none], 1, none, none⟩]⟩

/-- A script that is the line `exit`. -/
theorem main_status_exit : StatusRight [ascii "exit"]
    ⟨exitSuccess, some [⟨ascii "exit", .execute (wordJob (ascii "exit")), ⟨0, 0⟩⟩]⟩ := by
  have hrun := main_line_reach (ascii "exit") (wordJob (ascii "exit")) ⟨0, 0⟩ (by decide) rfl
    (by decide)
  refine (main_status_iff hrun).2.mpr ?_
  rintro turns hturns ⟨t, ht, job, hjob, seg, hseg, hdie⟩
  cases hturns
  cases ht
  cases hjob
  cases hseg
  exact absurd hdie (by decide)

/-- A script that is the line `die` succeeds. -/
theorem main_status_die : ¬ ∀ r, Reach anyAnswer
    (main (ascii "mysh") 2 (.ok ()) false [ascii "die"]) () (.ret r) () →
    StatusRight [ascii "die"] r := by
  intro h
  have hrun := main_line_reach (ascii "die") (wordJob (ascii "die")) ⟨-1, 1⟩ (by decide) rfl
    (by decide)
  have hright := h _ hrun _ rfl
  have hdie : EndedByDie [⟨ascii "die", .execute (wordJob (ascii "die")), ⟨-1, 1⟩⟩] :=
    ⟨_, rfl, _, rfl, _, rfl, by decide⟩
  exact absurd (hright.1 hdie) (by decide)

end

/-! ### Which jobs stop the loop -/

/-- The loop stops behind the jobs it executes that are of this kind, and behind no other one as
long as there are lines. -/
def StopsBehind (stop : Job → Prop) (lines : List Bytes) (turns : List Turn) : Prop :=
  ∀ before t after job, turns = before ++ t :: after → t.action = .execute job →
    (t.ends = true ↔ stop job) ∧
    (before.length + 1 < lines.length → (after = [] ↔ stop job))

/-- Some segment of the job is an `exit` or a `die`. -/
def NamesExitOrDie (job : Job) : Prop :=
  ∃ seg ∈ job.segments, arg seg.argv 0 = ascii "exit" ∨ arg seg.argv 0 = ascii "die"

section

variable {status : ℤ} {script : List (Bytes × JobResult)} {t : Turn} {before after : List Turn}

/-- As long as there are lines, a turn that is followed is the last one exactly when it ends the
loop. -/
theorem shellLoop_last (h : shellLoop status script = before ++ t :: after)
    (hlen : before.length + 1 < script.length) (hover : t.action ≠ .overflow) :
    after = [] ↔ t.ends = true := by
  constructor
  · rintro rfl
    have hlt : (shellLoop status script).length < script.length := by
      rw [h, List.length_append]
      exact hlen
    obtain ⟨u, hu, hends⟩ := shellLoop_stops hlt
    rw [h, List.getLast?_append, List.getLast?_singleton] at hu
    cases hu
    exact hends.resolve_right fun h => hover (of_decide_eq_true h)
  · intro hends
    cases after with
    | nil => rfl
    | cons u after =>
        have hsplit : shellLoop status script = (before ++ [t]) ++ u :: after := by
          rw [h, List.append_assoc]
          rfl
        have hmem : t ∈ before ++ [t] := List.mem_append_right _ (List.mem_singleton_self t)
        have hno := ((shellLoop_turn hsplit).2 t hmem).1
        rw [hends] at hno
        cases hno

end

section

open Program

variable {σ : Type} {env : σ → (c : Call) → c.Answer → σ → Prop} {s s' : σ}
  {interactive : Bool} {status : ℤ} {lines : List Bytes} {turns : List Turn}

/-- **Which jobs stop the loop**: in every completed run, those whose first command is `exit`, and
the single command `die`.  The other segments of a pipeline run in children, whose end the shell
does not take for its own. -/
theorem exit_die_stop
    (h : Reach env (shellProgram interactive status lines) s (.ret turns) s') :
    StopsBehind (fun job => firstCmd job = ascii "exit" ∨ IsDie job) lines turns := by
  obtain ⟨⟨script, hlines, rfl⟩, hall⟩ := shellProgram_turns.done h
  intro before t after job hturns hjob
  obtain ⟨hover, hret⟩ := hall t (hturns ▸ List.mem_append_right _ List.mem_cons_self)
  have hends : t.ends = true ↔ firstCmd job = ascii "exit" ∨ IsDie job := by
    refine ends_iff.trans ⟨?_, fun hstop => ⟨job, hjob, ?_⟩⟩
    · rintro ⟨job', hjob', hr⟩
      cases hjob.symm.trans hjob'
      exact hr.symm.imp_right (hret job hjob).mp
    · exact hstop.symm.imp_left (hret job hjob).mpr
  refine ⟨hends, fun hlen => (shellLoop_last hturns ?_ hover).trans hends⟩
  rwa [← hlines, List.length_map] at hlen

/-- A script whose first line is `exit`. -/
theorem shellProgram_exit (lines : List Bytes) :
    Reach env (shellProgram false 0 (ascii "exit" :: lines)) s
      (.ret [⟨ascii "exit", .execute (wordJob (ascii "exit")), ⟨0, 0⟩⟩]) s := by
  have hdecide : decideLine 0 (ascii "exit") = .execute (wordJob (ascii "exit")) := by decide
  rw [shellProgram, hdecide]
  exact .refl _ _

/-- A script that is the lines `exit` and `pwd`. -/
theorem exit_die_stop_exit : StopsBehind (fun job => firstCmd job = ascii "exit" ∨ IsDie job)
    [ascii "exit", ascii "pwd"] [⟨ascii "exit", .execute (wordJob (ascii "exit")), ⟨0, 0⟩⟩] := by
  have hrun : Reach anyAnswer (shellProgram false 0 [ascii "exit", ascii "pwd"]) () _ () :=
    shellProgram_exit [ascii "pwd"]
  exact exit_die_stop hrun

/-- The job of the line `pwd | die`. -/
def pwdDieJob : Job :=
  ⟨[⟨[some (ascii "pwd"), none], 1, none, none⟩, ⟨[some (ascii "die"), none], 1, none, none⟩]⟩

/-- The shell goes on behind a pipeline that ends in a `die`. -/
theorem exit_die_goes_on : ¬ ∀ lines turns,
    Reach anyAnswer (shellProgram false 0 lines) () (.ret turns) () →
      StopsBehind NamesExitOrDie lines turns := by
  intro hclaim
  have answer : ∀ (c : Call) (x : c.Answer), anyAnswer () c x () := fun _ _ => trivial
  -- the shell makes a pipe, forks two children, closes the pipe and waits for both
  have hjob : Reach anyAnswer (executeJob pwdDieJob false) () (.ret ⟨0, 0⟩) () :=
    .head (answer .pipe (.ok (3, 4))) <| .head (answer .fork (.parent 0)) <|
    .head (answer .fork (.parent 1)) <| .head (answer (.close 3) ()) <|
    .head (answer (.close 4) ()) <| .head (answer .uninitialized (0 : UInt32)) <|
    .head (answer (.waitpid 0) (some 0)) <| .head (answer .uninitialized (0 : UInt32)) <|
    .head (answer (.waitpid 1) (some 0)) <| .refl _ _
  have hdecide : decideLine 0 (ascii "pwd | die") = .execute pwdDieJob := by decide
  have hrun : Reach anyAnswer (shellProgram false 0 [ascii "pwd | die", ascii "exit"]) ()
      (.ret [⟨ascii "pwd | die", .execute pwdDieJob, ⟨0, 0⟩⟩,
        ⟨ascii "exit", .execute (wordJob (ascii "exit")), ⟨0, 0⟩⟩]) () := by
    rw [shellProgram, hdecide]
    refine hjob.seq ?_
    exact (shellProgram_exit []).seq (.refl _ _)
  have hstops := hclaim _ _ hrun [] _ [_] pwdDieJob rfl rfl
  have hdie : NamesExitOrDie pwdDieJob := ⟨_, List.mem_cons_of_mem _ List.mem_cons_self, .inr rfl⟩
  cases (hstops.2 (by decide)).mpr hdie

end

end CS214.Shell
