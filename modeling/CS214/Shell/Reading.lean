import CS214.Lib.Fields
import CS214.Shell.Loop

/-!
# Shell — the input of `shell_loop`

`readCommand` reads a line byte by byte.  A `NULL` from it is the end of the input, a failed `read`
or a line of 4095 bytes or more, and `session`, the loop on an input, takes each for the end.  A
line that is written out of the arrays of `parse_job` is not followed either, and ends what the
model says of a session.

* `readLines_eq`, `sessionLoop_eq`: the lines of a stream and the session on them.
* `losesNothing_iff`: the lines of a stream are all read and handled exactly when the session comes
  to no over-long line with another one behind it, and to no line that is written out of the arrays.
-/

open CString TextField

namespace CS214.Shell

/-! ### `read_command` -/

/-- What successive reads of one byte give; at the end of the list it is the end of the file. -/
abbrev Input := List (Except Bytes UInt8)

/-- What a call of `read_command` leaves: the line or `NULL`, its message, and the input. -/
structure Reading where
  line : Option Bytes
  stderr : Bytes
  rest : Input

/-- `BUFFER_SIZE`. -/
def bufferSize : ℕ := 4096

/-- The message for an over-long line. -/
def tooLong : Bytes := ascii "Command line too long\n"

/-- The loop, with what is in the buffer and the number of bytes there is room for. -/
def readLoop (buffer : Bytes) : ℕ → Input → Reading
  | 0, input => ⟨none, tooLong, input⟩
  | _ + 1, [] => if buffer.length = 0 then ⟨none, [], []⟩ else ⟨some (untilNul buffer), [], []⟩
  | _ + 1, .error e :: input => ⟨none, ascii "read: " ++ e ++ ascii "\n", input⟩
  | n + 1, .ok b :: input =>
    if b = 10 then ⟨some (untilNul buffer), [], input⟩ else readLoop (buffer ++ [b]) n input

/-- `read_command`. -/
def readCommand (input : Input) : Reading := readLoop [] (bufferSize - 1) input

/-- The results of successive calls, up to the first `NULL`; a call that returns a line takes
something from the input, so its length bounds their number. -/
def readLines : ℕ → Input → List Bytes
  | 0, _ => []
  | n + 1, input =>
    match (readCommand input).line with
    | none => []
    | some line => line :: readLines n (readCommand input).rest

/-- The lines that successive calls return on an input. -/
def readCommands (input : Input) : List Bytes := readLines (input.length + 1) input

/-! ### The loop on an input -/

/-- What happens in a session. -/
inductive Event where
  | turn (t : Turn)
  | report (stderr : Bytes)

/-- The message of a call, if it has one. -/
def reported (stderr : Bytes) : List Event := if stderr = [] then [] else [.report stderr]

/-- The turn of the loop on a line, with the first of the results. -/
def turnOn (results : ℕ → JobResult) (exitStatus : ℤ) (line : Bytes) : Turn :=
  ⟨line, decideLine exitStatus line, results 0⟩

/-- The loop, with the results it gets for its lines. -/
def sessionLoop (results : ℕ → JobResult) (exitStatus : ℤ) : ℕ → Input → List Event
  | 0, _ => []
  | n + 1, input =>
    let r := readCommand input
    match r.line with
    | none => reported r.stderr
    | some line =>
      let t := turnOn results exitStatus line
      reported r.stderr ++ .turn t :: if t.ends || t.overruns then []
        else sessionLoop (fun k => results (k + 1)) (t.status?.getD exitStatus) n r.rest

/-- What happens when the loop runs on an input. -/
def session (results : ℕ → JobResult) (input : Input) : List Event :=
  sessionLoop results 0 (input.length + 1) input

/-- A session on the lines of a text.  At what stops the code, an over-long line, which is reported,
or a line that is written out of the arrays, the session ends or goes on; behind a job that ends the
loop it always ends. -/
def lineSession (goOn : Bool) (results : ℕ → JobResult) (exitStatus : ℤ) : List Bytes → List Event
  | [] => []
  | line :: lines =>
    if bufferSize - 1 ≤ line.length then
      .report tooLong :: if goOn then
        lineSession goOn (fun k => results (k + 1)) exitStatus lines else []
    else
      let t := turnOn results exitStatus line
      .turn t :: if t.ends || (!goOn && t.overruns) then []
        else lineSession goOn (fun k => results (k + 1)) (t.status?.getD exitStatus) lines

section

variable {s t : Bytes} {n : ℕ} {buffer : Bytes} {results : ℕ → JobResult} {status : ℤ}
  {line : Bytes} {ls before after : List Bytes}

/-- The bytes of a stream. -/
def bytes (s : Bytes) : Input := s.map .ok

theorem readLoop_append (ht : 10 ∉ t) (hn : t.length ≤ n) (input : Input) :
    readLoop buffer n (bytes t ++ input) = readLoop (buffer ++ t) (n - t.length) input := by
  induction t generalizing buffer n with
  | nil => rw [List.append_nil, List.length_nil, Nat.sub_zero]; rfl
  | cons b t ih =>
      obtain ⟨hb, ht⟩ := not_or.mp (List.mem_cons.not.mp ht)
      cases n with
      | zero => cases hn
      | succ n =>
          show readLoop buffer (n + 1) (.ok b :: (bytes t ++ input)) = _
          rw [readLoop, if_neg (Ne.symm hb), ih ht (Nat.le_of_succ_le_succ hn), List.append_assoc,
            List.length_cons, Nat.succ_sub_succ]
          rfl

theorem bytes_append : bytes (s ++ t) = bytes s ++ bytes t := List.map_append

theorem bytes_cons {b : UInt8} : bytes (b :: s) = .ok b :: bytes s := rfl

/-- A line with its newline. -/
theorem readCommand_line (ht : 10 ∉ t) (h0 : 0 ∉ t) (hlen : t.length < bufferSize - 1) :
    readCommand (bytes (t ++ 10 :: s)) = ⟨some t, [], bytes s⟩ := by
  obtain ⟨m, hm⟩ := Nat.exists_eq_succ_of_ne_zero (Nat.sub_ne_zero_of_lt hlen)
  rw [readCommand, bytes_append, readLoop_append ht hlen.le, hm, bytes_cons, readLoop, if_pos rfl,
    List.nil_append, untilNul_eq_self h0]

/-- An unterminated line. -/
theorem readCommand_last (ht : 10 ∉ t) (h0 : 0 ∉ t) (hne : t ≠ [])
    (hlen : t.length < bufferSize - 1) : readCommand (bytes t) = ⟨some t, [], []⟩ := by
  obtain ⟨m, hm⟩ := Nat.exists_eq_succ_of_ne_zero (Nat.sub_ne_zero_of_lt hlen)
  rw [readCommand, ← List.append_nil (bytes t), readLoop_append ht hlen.le, hm, readLoop,
    List.nil_append, if_neg (mt List.length_eq_zero_iff.mp hne), untilNul_eq_self h0]

/-- The first bytes of an over-long line. -/
theorem readCommand_long (ht : 10 ∉ t) (hlen : bufferSize - 1 ≤ t.length) (input : Input) :
    ∃ rest, readCommand (bytes t ++ input) = ⟨none, tooLong, rest⟩ := by
  have hcut : bytes t ++ input = bytes (t.take (bufferSize - 1)) ++
      (bytes (t.drop (bufferSize - 1)) ++ input) := by
    rw [← List.append_assoc, ← bytes_append, List.take_append_drop]
  have hlen' : (t.take (bufferSize - 1)).length = bufferSize - 1 := List.length_take_of_le hlen
  refine ⟨bytes (t.drop (bufferSize - 1)) ++ input, ?_⟩
  rw [readCommand, hcut, readLoop_append (fun h => ht (List.mem_of_mem_take h)) hlen'.le, hlen',
    Nat.sub_self, readLoop]

theorem readLines_nil : readLines n [] = [] := by
  cases n <;> rfl

theorem sessionLoop_nil : sessionLoop results status n [] = [] := by
  cases n <;> rfl

/-- On a stream without an over-long line the calls give its lines. -/
theorem readLines_eq (s : Bytes) (h0 : 0 ∉ s) (hs : ∀ l ∈ lines 10 s, l.length < bufferSize - 1)
    (hn : s.length < n) : readLines n (bytes s) = lines 10 s := by
  induction s using lines_induction (10 : UInt8) generalizing n with
  | nil => exact readLines_nil
  | last t ht hne =>
      rw [lines_last ht hne] at hs ⊢
      cases n with
      | zero => cases hn
      | succ n =>
          simp only [readLines, readCommand_last ht h0 hne (hs t (List.mem_singleton_self t)),
            readLines_nil]
  | line t s ht ih =>
      rw [lines_cons ht, List.forall_mem_cons] at hs
      rw [List.mem_append, List.mem_cons, not_or, not_or] at h0
      rw [List.length_append, List.length_cons] at hn
      cases n with
      | zero => cases hn
      | succ n =>
          have hrest := ih h0.2.2 hs.2 (n := n) (by omega)
          simp only [readLines, readCommand_line ht h0.1 hs.1, hrest, lines_cons ht]

/-- The session on a stream is that on its lines, up to the first over-long one. -/
theorem sessionLoop_eq (s : Bytes) (h0 : 0 ∉ s) (hn : s.length < n) :
    sessionLoop results status n (bytes s) = lineSession false results status (lines 10 s) := by
  induction s using lines_induction (10 : UInt8) generalizing n results status with
  | nil => exact sessionLoop_nil
  | last t ht hne =>
      rw [lines_last ht hne]
      cases n with
      | zero => cases hn
      | succ n =>
          by_cases hlen : bufferSize - 1 ≤ t.length
          · obtain ⟨rest, hr⟩ := readCommand_long ht hlen []
            rw [List.append_nil] at hr
            simp only [sessionLoop, hr, lineSession, if_pos hlen]
            rfl
          · have hr := readCommand_last ht h0 hne (Nat.lt_of_not_le hlen)
            simp only [sessionLoop, hr, lineSession, if_neg hlen, sessionLoop_nil]
            rfl
  | line t s ht ih =>
      rw [lines_cons ht]
      rw [List.mem_append, List.mem_cons, not_or, not_or] at h0
      rw [List.length_append, List.length_cons] at hn
      cases n with
      | zero => cases hn
      | succ n =>
          by_cases hlen : bufferSize - 1 ≤ t.length
          · obtain ⟨rest, hr⟩ := readCommand_long ht hlen (bytes (10 :: s))
            rw [← bytes_append] at hr
            simp only [sessionLoop, hr, lineSession, if_pos hlen]
            rfl
          · have hr := readCommand_line (s := s) ht h0.1 (Nat.lt_of_not_le hlen)
            have hlt : s.length < n := by omega
            have hrest := fun results status => @ih n results status h0.2.2 hlt
            simp only [sessionLoop, hr, lineSession, if_neg hlen, hrest]
            rfl

/-- The turn of an event. -/
def Event.turn? : Event → Option Turn
  | .turn t => some t
  | .report _ => none

/-- The lines with the results for them. -/
def withResults (results : ℕ → JobResult) : List Bytes → List (Bytes × JobResult)
  | [] => []
  | line :: lines => (line, results 0) :: withResults (fun k => results (k + 1)) lines

theorem filterMap_reported (stderr : Bytes) : (reported stderr).filterMap Event.turn? = [] := by
  unfold reported
  split <;> rfl

/-- The turns of a session are those of the loop on the lines that were read. -/
theorem sessionLoop_turns {input : Input} :
    (sessionLoop results status n input).filterMap Event.turn? =
      shellLoop status (withResults results (readLines n input)) := by
  induction n generalizing results status input with
  | zero => rfl
  | succ n ih =>
      rw [sessionLoop, readLines]
      cases h : (readCommand input).line with
      | none => simp only [filterMap_reported, withResults, shellLoop]
      | some line =>
          simp only [List.filterMap_append, filterMap_reported, List.nil_append,
            List.filterMap_cons, Event.turn?, withResults, shellLoop_cons]
          refine congrArg _ ?_
          rw [turnOn]
          split
          · rfl
          · exact ih

/-! ### Where nothing is lost -/

/-- A turn that ends the loop has happened in a session that nothing else ends. -/
def Ended (results : ℕ → JobResult) (status : ℤ) (before : List Bytes) : Prop :=
  ∃ t, .turn t ∈ lineSession true results status before ∧ t.ends = true

/-- The session gets past the line: there is nothing behind an over-long one, and any other one is
inside the arrays of `parse_job`. -/
structure Passes (line : Bytes) (after : List Bytes) : Prop where
  long : bufferSize - 1 ≤ line.length → after = []
  fits : line.length < bufferSize - 1 → (parseJob (tokenize line)).job ≠ .overflow

/-- The session gets past every line, or it has ended before it. -/
def LinesPass (results : ℕ → JobResult) (status : ℤ) (ls : List Bytes) : Prop :=
  ∀ before line after, ls = before ++ line :: after →
    Ended results status before ∨ Passes line after

/-- No turn is written out of the arrays. -/
def Inside (events : List Event) : Prop := ∀ t, .turn t ∈ events → t.action ≠ .overflow

/-- Every line of the stream is read, and handled inside the arrays or reported, as in a session
that only a job ends. -/
structure LosesNothing (results : ℕ → JobResult) (s : Bytes) : Prop where
  reads : (∀ l ∈ lines 10 s, l.length < bufferSize - 1) → readCommands (bytes s) = lines 10 s
  handles : session results (bytes s) = lineSession true results 0 (lines 10 s)
  inside : Inside (session results (bytes s))

theorem lineSession_ne_nil {goOn : Bool} :
    lineSession goOn results status (line :: ls) ≠ [] := by
  rw [lineSession]
  split <;> exact List.cons_ne_nil _ _

theorem lineSession_long {goOn : Bool} (h : bufferSize - 1 ≤ line.length) :
    lineSession goOn results status (line :: ls) = .report tooLong ::
      if goOn then lineSession goOn (fun k => results (k + 1)) status ls else [] :=
  if_pos h

theorem lineSession_short {goOn : Bool} (h : ¬ bufferSize - 1 ≤ line.length) :
    lineSession goOn results status (line :: ls) =
      let t := turnOn results status line
      .turn t :: if t.ends || (!goOn && t.overruns) then []
        else lineSession goOn (fun k => results (k + 1)) (t.status?.getD status) ls :=
  if_neg h

/-- A turn that ends the loop ends the session. -/
theorem lineSession_ends {goOn : Bool} (h : ¬ bufferSize - 1 ≤ line.length)
    (hends : (turnOn results status line).ends = true) :
    lineSession goOn results status (line :: ls) = [.turn (turnOn results status line)] := by
  rw [lineSession_short h]
  simp only [hends, Bool.true_or, if_true]

/-- The session goes on behind any other turn inside the arrays. -/
theorem lineSession_goes {goOn : Bool} (h : ¬ bufferSize - 1 ≤ line.length)
    (hends : (turnOn results status line).ends = false)
    (hover : (turnOn results status line).overruns = false) :
    lineSession goOn results status (line :: ls) = .turn (turnOn results status line) ::
      lineSession goOn (fun k => results (k + 1))
        ((turnOn results status line).status?.getD status) ls := by
  rw [lineSession_short h]
  simp only [hends, hover, Bool.and_false, Bool.or_false, Bool.false_eq_true, if_false]

theorem linesPass_cons : LinesPass results status (line :: ls) ↔ Passes line ls ∧
    ∀ before line' after, ls = before ++ line' :: after →
      Ended results status (line :: before) ∨ Passes line' after := by
  constructor
  · intro h
    refine ⟨(h [] line ls rfl).resolve_left ?_, fun before line' after heq => ?_⟩
    · rintro ⟨t, ht, -⟩
      cases ht
    · exact h (line :: before) line' after (congrArg (line :: ·) heq)
  · rintro ⟨hline, hrest⟩ before line' after heq
    cases before with
    | nil =>
        cases heq
        exact .inr hline
    | cons b before =>
        cases heq
        exact hrest before line' after rfl

/-- The session has ended behind a line when it had before, or does with it. -/
theorem ended_goes (h : ¬ bufferSize - 1 ≤ line.length)
    (hends : (turnOn results status line).ends = false)
    (hover : (turnOn results status line).overruns = false) :
    Ended results status (line :: ls) ↔ Ended (fun k => results (k + 1))
      ((turnOn results status line).status?.getD status) ls := by
  rw [Ended, lineSession_goes h hends hover]
  constructor
  · rintro ⟨t, ht, hstop⟩
    rcases List.mem_cons.mp ht with heq | ht
    · cases heq
      rw [hends] at hstop
      cases hstop
    · exact ⟨t, ht, hstop⟩
  · rintro ⟨t, ht, hstop⟩
    exact ⟨t, List.mem_cons_of_mem _ ht, hstop⟩

theorem inside_nil : Inside [] := fun _ ht => absurd ht List.not_mem_nil

theorem inside_report {stderr : Bytes} {events : List Event} :
    Inside (.report stderr :: events) ↔ Inside events := by
  refine ⟨fun hin t ht => hin t (List.mem_cons_of_mem _ ht), fun hin t ht => ?_⟩
  rcases List.mem_cons.mp ht with heq | ht
  · cases heq
  · exact hin t ht

theorem inside_turn {t : Turn} {events : List Event} :
    Inside (.turn t :: events) ↔ t.action ≠ .overflow ∧ Inside events := by
  constructor
  · intro hin
    exact ⟨hin t List.mem_cons_self, fun u hu => hin u (List.mem_cons_of_mem _ hu)⟩
  · rintro ⟨hno, hin⟩ u hu
    rcases List.mem_cons.mp hu with heq | hu
    · cases heq
      exact hno
    · exact hin u hu

/-- The session gets past a short line when its turn is inside the arrays. -/
theorem passes_short (results : ℕ → JobResult) (status : ℤ) (h : ¬ bufferSize - 1 ≤ line.length) :
    Passes line ls ↔ (turnOn results status line).action ≠ .overflow := by
  rw [turnOn, Ne, decideLine_overflow]
  exact ⟨fun hp => hp.fits (Nat.lt_of_not_le h),
    fun hno => ⟨fun hlong => absurd hlong h, fun _ => hno⟩⟩

/-- Nothing may come behind an over-long line. -/
theorem passes_long (h : bufferSize - 1 ≤ line.length) : Passes line ls ↔ ls = [] :=
  ⟨fun hp => hp.long h, fun hnil => ⟨fun _ => hnil, fun hlt => absurd h (Nat.not_le_of_gt hlt)⟩⟩

theorem linesPass_nil : LinesPass results status [] := by
  intro before line after heq
  cases before <;> cases heq

/-- The session that ends where the code is stopped is the one that goes on, and is inside the
arrays, exactly when it gets past every line. -/
theorem lineSession_eq_iff :
    (lineSession false results status ls = lineSession true results status ls ∧
      Inside (lineSession false results status ls)) ↔ LinesPass results status ls := by
  induction ls generalizing results status with
  | nil => exact iff_of_true ⟨rfl, inside_nil⟩ linesPass_nil
  | cons line ls ih =>
      rw [linesPass_cons]
      by_cases h : bufferSize - 1 ≤ line.length
      · rw [lineSession_long h, lineSession_long h, List.cons.injEq, and_iff_right rfl,
          if_neg Bool.false_ne_true, if_pos rfl, passes_long h, inside_report]
        cases ls with
        | nil => exact iff_of_true ⟨rfl, inside_nil⟩ ⟨rfl, fun _ _ _ heq => .inr (by simp at heq)⟩
        | cons l ls =>
            exact iff_of_false (fun heq => lineSession_ne_nil heq.1.symm)
              fun hpass => List.cons_ne_nil _ _ hpass.1
      · rw [passes_short results status h]
        cases hends : (turnOn results status line).ends with
        | true =>
            -- anything may come behind a turn that ends the session
            rw [lineSession_ends h hends, lineSession_ends h hends, and_iff_right rfl, inside_turn,
              and_iff_left inside_nil, and_iff_left]
            refine fun before line' after _ => .inl ⟨_, ?_, hends⟩
            rw [lineSession_ends h hends]
            exact List.mem_singleton_self _
        | false =>
            cases hover : (turnOn results status line).overruns with
            | true =>
                have ho := of_decide_eq_true hover
                refine iff_of_false (fun hin => ?_) fun hpass => hpass.1 ho
                rw [lineSession_short h] at hin
                exact (inside_turn.mp hin.2).1 ho
            | false =>
                have hno : (turnOn results status line).action ≠ .overflow :=
                  of_decide_eq_false hover
                rw [lineSession_goes h hends hover, lineSession_goes h hends hover, List.cons.injEq,
                  and_iff_right rfl, inside_turn, and_iff_right hno, ih, and_iff_right hno]
                simp only [ended_goes h hends hover]
                exact Iff.rfl

/-- **Line reading**, of a stream without NUL bytes. -/
theorem losesNothing_iff (h0 : 0 ∉ s) :
    LosesNothing results s ↔ LinesPass results 0 (lines 10 s) := by
  have hlen : (bytes s).length = s.length := List.length_map _
  have hsession : session results (bytes s) = lineSession false results 0 (lines 10 s) :=
    sessionLoop_eq s h0 (by rw [hlen]; exact Nat.lt_succ_self _)
  rw [← lineSession_eq_iff, ← hsession]
  refine ⟨fun h => ⟨h.handles, h.inside⟩, fun h => ⟨fun hs => ?_, h.1, h.2⟩⟩
  exact readLines_eq s h0 hs (by rw [hlen]; exact Nat.lt_succ_self _)

end

end CS214.Shell
