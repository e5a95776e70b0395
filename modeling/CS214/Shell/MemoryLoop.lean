import CS214.Shell.MemoryJobs

/-!
# Shell — the memory of `shell_loop`

* `shell_loop_memory`: whichever allocations fail, the loop frees nothing twice and uses nothing
  that is not allocated, or not as what it is, up to a line that is written out of the arrays of
  `parse_job`; its turns are those of `Shell.shellLoop`, but for the lines that an allocation failed
  on; and behind every turn everything is released, but for the strings that `tokenize` loses where
  the array of more than 100 tokens cannot grow.
* `shellLoop_of_turns`: where no allocation fails, the turns are those of `Shell.shellLoop`.
-/

open CString ObjectHeap

namespace CS214.Shell.Memory

/-- A line that `read_command` can return. -/
def IsLine (line : Bytes) : Prop := ∃ input, (Shell.readCommand input).line = some line

/-- A turn on a line with this status is the one `decideLine` has for it, or an allocation has
failed; there is no turn of a line that is written out of the arrays of `parse_job`. -/
structure Handled (fails : Prop) (status : ℤ) (t : Turn) : Prop where
  read : IsLine t.line
  inside : t.overruns = false
  action : t.action = decideLine status t.line ∨
    fails ∧ (t.action = .blank ∨ t.action = .syntaxError outOfMemory)

/-- The turns of the loop, from a status on. -/
inductive Turns (fails : Prop) : ℤ → List Turn → Prop where
  | nil {status : ℤ} : Turns fails status []
  | last {status : ℤ} {t : Turn} (handled : Handled fails status t) (ends : t.ends = true) :
      Turns fails status [t]
  | cons {status : ℤ} {t : Turn} {turns : List Turn} (handled : Handled fails status t)
      (goes : t.ends = false) (rest : Turns fails (t.status?.getD status) turns) :
      Turns fails status (t :: turns)

/-- The line has more tokens than there is room for at first. -/
def long (t : Turn) : Bool := 100 < (Shell.tokenize t.line).length

/-- What is left behind some turns: lost strings, at most one for each line with many tokens. -/
structure Ended (fails : Prop) (status : ℤ) (turns : List Turn) (m : Objects) : Prop where
  follows : Turns fails status turns
  lost : ∃ vs : List Val, m = strings vs ∧ vs.length ≤ turns.countP long ∧ (¬ fails → vs = [])

variable {fails : Prop} {β : Type} {m T J : Objects} {P : β → Objects → Prop}
  {t items job segments line buffer : Addr} {n : ℕ} {status : ℤ} {turns : List Turn} {u : Turn}
  {vs : List Val} {s text : Bytes} {tokens jobs : Option Addr} {interactive : Bool}
  {capacity room : ℕ} {next : ℤ → MemM (List Turn)}

/-- Where no allocation fails, the turns are those of the loop on the lines and the results. -/
theorem shellLoop_of_turns (h : Turns fails status turns) (hf : ¬ fails) :
    turns = Shell.shellLoop status (turns.map fun u => (u.line, u.result)) := by
  have hturn : ∀ {status : ℤ} {u : Turn}, Handled fails status u →
      u = ⟨u.line, decideLine status u.line, u.result⟩ := by
    intro status u hu
    rw [← hu.action.resolve_right fun h => hf h.1]
  induction h with
  | nil => rfl
  | last handled ends =>
      rw [List.map_singleton, shellLoop_cons, ← hturn handled]
      dsimp only
      rw [ends, Bool.true_or, if_pos rfl]
  | cons handled goes rest ih =>
      rw [List.map_cons, shellLoop_cons, ← hturn handled]
      dsimp only
      rw [goes, handled.inside, Bool.or_self, if_neg Bool.false_ne_true, ← ih]

/-! ### `read_command` -/

/-- A line, or nothing. -/
inductive LineRead : Option Addr → Objects → Prop where
  | none : LineRead none 0
  | line {a : Addr} {text : Bytes} (h : IsLine text) : LineRead (some a) (obj a (.chars text))

/-- The bytes in the buffer are those of a reading. -/
theorem readLoop_meets
    (hs : ∀ input, ∃ input', Shell.readCommand input' = Shell.readLoop s n input) :
    Meets fails (obj buffer (.chars s)) (readLoop buffer n) LineRead := by
  induction n generalizing s with
  | zero =>
      rw [← add_zero (obj buffer _)]
      exact meets_sys fun _ => meets_free (meets_ret .none)
  | succ n ih =>
      rw [← add_zero (obj buffer _), readLoop]
      refine meets_other fun x => ?_
      rcases x with e | (- | b)
      · exact meets_sys fun _ => meets_free (meets_ret .none)
      · refine meets_view_obj rfl ?_
        by_cases hzero : s.length = 0
        · rw [if_pos hzero]
          exact meets_free (meets_ret .none)
        · obtain ⟨input, hin⟩ := hs []
          have hline : IsLine (untilNul s) := ⟨input, by rw [hin, Shell.readLoop, if_neg hzero]⟩
          rw [if_neg hzero]
          refine meets_store (meets_ret ?_)
          rw [add_zero]
          exact .line hline
      · refine meets_view_obj rfl ?_
        by_cases hb : b = 10
        · obtain ⟨input, hin⟩ := hs [.ok b]
          have hline : IsLine (untilNul s) := ⟨input, by rw [hin, Shell.readLoop, if_pos hb]⟩
          rw [if_pos hb]
          refine meets_store (meets_ret ?_)
          rw [add_zero]
          exact .line hline
        · rw [if_neg hb]
          refine meets_store ?_
          rw [add_zero]
          refine ih fun input => ?_
          obtain ⟨input', hin⟩ := hs (.ok b :: input)
          exact ⟨input', by rw [hin, Shell.readLoop, if_neg hb]⟩

theorem readCommand_meets : Meets fails 0 readCommand LineRead := by
  rw [readCommand]
  refine meets_malloc (fun _ => meets_noMemory (meets_ret .none)) fun buffer => ?_
  rw [add_zero]
  exact readLoop_meets fun input => ⟨input, rfl⟩

/-! ### A turn -/

theorem freeTokens_none : Meets fails 0 (freeTokens none) fun _ m => m = 0 := meets_ret rfl

theorem freeJob_none : Meets fails 0 (freeJob none) fun _ m => m = 0 := meets_ret rfl

theorem release_meets (ht : Meets fails T (freeTokens tokens) fun _ m => m = 0)
    (hj : Meets fails J (freeJob jobs) fun _ m => m = 0) :
    Meets fails (obj line (.chars text) + (T + J)) (release line tokens jobs) fun _ m => m = 0 :=
  meets_free (ht.release fun _ => hj)

/-- The end of a turn: everything but lost strings is released, and the loop goes on. -/
theorem goOn_meets (ih : ∀ status, Meets fails 0 (next status) (Ended fails status))
    (ht : Meets fails T (freeTokens tokens) fun _ m => m = 0)
    (hj : Meets fails J (freeJob jobs) fun _ m => m = 0)
    (hu : Handled fails status u) (hgo : u.ends = false)
    (hlost : vs.length ≤ if long u then 1 else 0) (hf : ¬ fails → vs = []) :
    Meets fails (obj line (.chars text) + (T + J) + strings vs)
      (do release line tokens jobs
          let turns ← next (u.status?.getD status)
          return u :: turns)
      (Ended fails status) := by
  refine (release_meets ht hj).release fun _ => ?_
  rw [← zero_add (strings vs)]
  refine (ih _).bind_frame fun turns m hm => meets_ret ⟨.cons hu hgo hm.follows, ?_⟩
  obtain ⟨ws, rfl, hlen, hws⟩ := hm.lost
  refine ⟨ws ++ vs, strings_append.symm, ?_, fun h => by rw [hws h, hf h]; rfl⟩
  rw [List.length_append, List.countP_cons]
  omega

theorem ended_nil : Ended fails status [] 0 :=
  ⟨.nil, [], rfl, Nat.le_refl 0, fun _ => rfl⟩

theorem meets_isBlank {k : Bool → MemM β}
    (h : arrayAt t items capacity room vs ≤ m)
    (hk : Meets fails m (k (decide (vs.length = 0))) P) :
    Meets fails m (isBlank (some t) >>= k) P := by
  change Meets fails m ((view Obj.tokenArray? t >>= fun a => .ret (decide (a.count = 0))) >>= k) P
  rw [Program.bind_assoc]
  exact meets_array h hk

/-! ### What the body of the loop does with a line -/

theorem decideLine_nil (h : Shell.tokenize text = []) : decideLine status text = .blank := by
  rw [decideLine, h]
  rfl

theorem decideLine_error {e : Bytes} (hne : Shell.tokenize text ≠ [])
    (h : (Shell.parseJob (Shell.tokenize text)).job = .error e) :
    decideLine status text = .syntaxError e := by
  rw [decideLine]
  simp only [h, List.isEmpty_iff, hne, if_false]

theorem decideLine_ok (status : ℤ) {job : Shell.Job} (hne : Shell.tokenize text ≠ [])
    (h : (Shell.parseJob (Shell.tokenize text)).job = .ok job) :
    decideLine status text =
      if skips (Shell.parseJob (Shell.tokenize text)).conditionalType status then .skip
      else .execute job := by
  rw [decideLine]
  simp only [h, List.isEmpty_iff, hne, if_false, skips, Bool.or_eq_true, Bool.and_eq_true,
    decide_eq_true_eq]
  by_cases ha : (Shell.parseJob (Shell.tokenize text)).conditionalType = TokenType.and.code ∧
      status ≠ 0
  · rw [if_pos ha, if_pos (Or.inl ha)]
  · simp only [ha, if_false, false_or]

theorem jobTurn_meets (ih : ∀ status, Meets fails 0 (next status) (Ended fails status))
    (hline : IsLine text) (htokens : vs.map Prod.snd = Shell.tokenize text)
    (hne : Shell.tokenize text ≠ []) :
    Meets fails (tokensAt t items capacity room vs + obj line (.chars text))
      (jobTurn interactive status line text t next) (Ended fails status) := by
  refine parseJob_meets.bind_frame fun r m hm => ?_
  obtain ⟨r, c⟩ := r
  obtain ⟨hjob, hcond⟩ := hm
  rw [htokens] at hjob hcond
  cases hjob with
  | @error e h =>
      have hu : Handled fails status ⟨text, .syntaxError e, ⟨0, 0⟩⟩ := by
        refine ⟨hline, rfl, ?_⟩
        rcases h with h | ⟨hf, rfl⟩
        · exact .inl (decideLine_error hne h).symm
        · exact .inr ⟨hf, .inr rfl⟩
      have hm : tokensAt t items capacity room vs + obj line (.chars text) =
          obj line (.chars text) + (tokensAt t items capacity room vs + 0) + strings [] := by
        rw [strings_nil, add_zero, add_zero, add_comm]
      rw [hm]
      exact goOn_meets ih freeTokens_meets freeJob_none hu rfl (Nat.zero_le _) fun _ => rfl
  | @ok job segments es nonempty done h =>
      have hdecide := decideLine_ok status hne h
      rw [← hcond rfl] at hdecide
      have hm : jobAt job segments es + tokensAt t items capacity room vs +
          obj line (.chars text) = obj line (.chars text) +
            (tokensAt t items capacity room vs + jobAt job segments es) + strings [] := by
        rw [strings_nil, add_zero]
        ac_rfl
      dsimp only
      by_cases hskip : skips c status = true
      · have hu : Handled fails status ⟨text, .skip, ⟨0, 0⟩⟩ :=
          ⟨hline, rfl, .inl (by rw [hdecide, if_pos hskip])⟩
        rw [if_pos hskip, hm]
        exact goOn_meets ih freeTokens_meets freeJob_meets hu rfl (Nat.zero_le _) fun _ => rfl
      · rw [if_neg hskip] at hdecide ⊢
        refine meets_readJob (holds_job done) (meets_sys fun result => ?_)
        have hu : Handled fails status ⟨text, .execute ⟨es.map Entry.stored⟩, result⟩ :=
          ⟨hline, rfl, .inl hdecide.symm⟩
        refine meets_namesExit (holds_job done) nonempty ?_
        have hends : shouldExit ⟨es.map Entry.stored⟩ result = true ↔
            result.ret = -1 ∨ decide (firstCmd ⟨es.map Entry.stored⟩ = ascii "exit") = true := by
          have hpos : 0 < es.length := List.length_pos_iff.mpr nonempty
          simp [shouldExit, hpos]
        by_cases hstop : shouldExit ⟨es.map Entry.stored⟩ result = true
        · rw [hm, strings_nil, add_zero]
          refine (release_meets freeTokens_meets freeJob_meets).bind fun _ m hm => ?_
          subst hm
          rw [if_pos (hends.mp hstop)]
          exact meets_ret ⟨.last hu hstop, [], rfl, Nat.zero_le _, fun _ => rfl⟩
        · simp only [if_neg (mt hends.mpr hstop)]
          rw [hm]
          exact goOn_meets ih freeTokens_meets freeJob_meets hu (Bool.eq_false_iff.mpr hstop)
            (Nat.zero_le _) fun _ => rfl

/-- The loop, from a status on. -/
theorem shellLoop_meets : Meets fails 0 (shellLoop interactive n status) (Ended fails status) := by
  induction n generalizing status with
  | zero => exact meets_ret ended_nil
  | succ n ih =>
      rw [shellLoop]
      refine meets_sys fun _ => readCommand_meets.bind fun r m hm => ?_
      cases hm with
      | none => exact meets_ret ended_nil
      | @line a text hline =>
          rw [← add_zero (obj a _)]
          refine meets_view_obj rfl ?_
          rw [add_zero]
          refine tokenize_meets.bind fun r m hm => ?_
          obtain ⟨m', htok, rfl⟩ := hm
          cases htok with
          | @filled t items capacity room vs hvs =>
              refine meets_isBlank ((Multiset.le_add_left _ (strings vs)).trans
                (Multiset.le_add_right _ _)) ?_
              by_cases hnil : vs = []
              · have hu : Handled fails status ⟨text, .blank, ⟨0, 0⟩⟩ :=
                  ⟨hline, rfl, .inl (decideLine_nil (by rw [← hvs, hnil]; rfl)).symm⟩
                have hm : tokensAt t items capacity room vs + obj a (.chars text) =
                    obj a (.chars text) + (tokensAt t items capacity room vs + 0) + strings [] := by
                  rw [strings_nil, add_zero, add_zero, add_comm]
                have hblank : decide (vs.length = 0) = true := by rw [hnil]; rfl
                rw [if_pos hblank, hm]
                exact goOn_meets (fun _ => ih) freeTokens_meets freeJob_none hu rfl (Nat.zero_le _)
                  fun _ => rfl
              · have hne : Shell.tokenize text ≠ [] := by
                  rw [← hvs]
                  exact mt List.map_eq_nil_iff.mp hnil
                rw [if_neg (by simpa using hnil)]
                exact jobTurn_meets (fun _ => ih) hline hvs hne
          | failed hf =>
              have hu : Handled fails status ⟨text, .blank, ⟨0, 0⟩⟩ :=
                ⟨hline, rfl, .inr ⟨hf, .inl rfl⟩⟩
              have hm : 0 + obj a (Obj.chars text) =
                  obj a (.chars text) + (0 + 0) + strings [] := by
                rw [strings_nil, add_zero, add_zero, add_zero, zero_add]
              rw [hm]
              exact goOn_meets (fun _ => ih) freeTokens_none freeJob_none hu rfl (Nat.zero_le _)
                fun _ => rfl
          | @lost v hf hlong =>
              have hu : Handled fails status ⟨text, .blank, ⟨0, 0⟩⟩ :=
                ⟨hline, rfl, .inr ⟨hf, .inl rfl⟩⟩
              have hm : strings [v] + obj a (.chars text) =
                  obj a (.chars text) + (0 + 0) + strings [v] := by
                rw [add_zero, add_zero, add_comm]
              have hl : long ⟨text, .blank, ⟨0, 0⟩⟩ = true := decide_eq_true hlong
              have hone : [v].length ≤ if long ⟨text, .blank, ⟨0, 0⟩⟩ then 1 else 0 := by
                rw [if_pos hl]
                exact le_rfl
              rw [hm]
              exact goOn_meets (fun _ => ih) freeTokens_none freeJob_none hu rfl hone
                fun h => absurd hf h

/-- **The memory of `shell_loop`**: whichever allocations fail and whatever the calls outside the
heap answer, every call on the heap is in order, up to a line that is written out of `argv` or the
segments; the turns are those of `Shell.shellLoop` but for failed allocations; and what is left
behind the loop are strings lost on lines of more than 100 tokens, or nothing where no allocation
fails. -/
theorem shell_loop_memory (fails : Prop) (interactive : Bool) (n : ℕ) :
    (shellLoop interactive n 0).Always (Step fails) Valid (fun turns h =>
      Turns fails 0 turns ∧
      (∃ vs, Exactly h (strings vs) ∧ vs.length ≤ turns.countP long) ∧
      (¬ fails → (h = fun _ => none) ∧
        turns = Shell.shellLoop 0 (turns.map fun t => (t.line, t.result)))) fun _ => none := by
  refine shellLoop_meets.always.imp fun turns h hm => ?_
  obtain ⟨m, ⟨hturns, vs, rfl, hlen, hclean⟩, hex⟩ := hm
  refine ⟨hturns, ⟨vs, hex, hlen⟩, fun hf => ⟨?_, shellLoop_of_turns hturns hf⟩⟩
  rw [hclean hf, strings_nil] at hex
  exact hex.eq_empty

end CS214.Shell.Memory
