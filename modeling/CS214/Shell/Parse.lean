import CS214.Lib.CString

/-!
# Shell — the functions of `parse.c`

A line is the string without its terminator.  `tokenize` cuts it into tokens, and `parse_job` reads
a job from them; the index into the token array is the list of the tokens that are left.

`parse_job` stores the arguments of a segment in an array of 100 pointers and the segments in an
array of 50, and does not look at the bounds: `overflow` says that a write past the end of one of
them was reached.  Allocation does not fail.

* `tokenize_eq_nil`: there are no tokens exactly when everything before the first `#` is white
  space.
-/

open CString

namespace CS214.Shell

/-- `TokenType`. -/
inductive TokenType where
  | word
  | pipe
  | redirectIn
  | redirectOut
  | and
  | or
  | eof
deriving DecidableEq

/-- The value of the enumerator. -/
def TokenType.code : TokenType → ℕ
  | .word => 0
  | .pipe => 1
  | .redirectIn => 2
  | .redirectOut => 3
  | .and => 4
  | .or => 5
  | .eof => 6

/-- `Token`. -/
structure Token where
  type : TokenType
  value : Bytes
deriving DecidableEq

/-! ### `tokenize` -/

/-- One of the separators `" \t\n"`. -/
def isDelim (b : UInt8) : Bool := b == 32 || b == 9 || b == 10

/-- `strtok_r` with these separators: the token, and where the next call goes on. -/
def strtok (s : Bytes) : Option (Bytes × Bytes) :=
  match s.dropWhile isDelim with
  | [] => none
  | b :: t => some (b :: t.takeWhile (fun c => !isDelim c), (t.dropWhile fun c => !isDelim c).tail)

/-- The type of a piece of a line. -/
def tokenType (s : Bytes) : TokenType :=
  if s = ascii "<" then .redirectIn
  else if s = ascii ">" then .redirectOut
  else if s = ascii "|" then .pipe
  else if s = ascii "and" then .and
  else if s = ascii "or" then .or
  else .word

/-- The loop over the tokens; every turn uses up a byte, so the number of bytes bounds it. -/
def tokenLoop : ℕ → Bytes → List Token
  | 0, _ => []
  | n + 1, s =>
    match strtok s with
    | none => []
    | some (v, rest) => ⟨tokenType v, v⟩ :: tokenLoop n rest

/-- What stands before the first `#`. -/
def cleanLine (line : Bytes) : Bytes := (cut 35 line).elim line Prod.fst

/-- `tokenize`: the pieces of the line up to a comment, each with its type. -/
def tokenize (line : Bytes) : List Token :=
  let line := line.dropWhile isSpace
  if line.head? = some 35 then []
  else tokenLoop ((cleanLine line).length + 1) (cleanLine line)

/-! ### `parse_job` -/

/-- `JobSegment`. -/
structure JobSegment where
  argv : List (Option Bytes)
  argc : ℕ
  inputFile : Option Bytes
  outputFile : Option Bytes
deriving DecidableEq

/-- A job; `segment_count` is the length of the list. -/
structure Job where
  segments : List JobSegment
deriving DecidableEq

/-- What a call gives: a value, an error with its message, or a write behind the end of an
array. -/
inductive Parsed (α : Type) where
  | ok (value : α)
  | error (stderr : Bytes)
  | overflow
deriving DecidableEq

/-- The number of pointers `argv` has room for. -/
def argvCapacity : ℕ := 100

/-- The number of segments a job has room for. -/
def segmentCapacity : ℕ := 50

/-- `segment.argv[segment.argc++] = value`. -/
def JobSegment.pushArg (seg : JobSegment) (value : Bytes) : JobSegment :=
  { seg with argv := seg.argv ++ [some value], argc := seg.argc + 1 }

/-- `segment.argv[segment.argc] = NULL`. -/
def JobSegment.terminate (seg : JobSegment) : JobSegment := { seg with argv := seg.argv ++ [none] }

/-- A segment before its tokens are read. -/
def JobSegment.empty : JobSegment := ⟨[], 0, none, none⟩

/-- The inner loop: the tokens up to the next pipe. -/
def parseSegment (seg : JobSegment) : List Token → Parsed (JobSegment × List Token)
  | [] => .ok (seg, [])
  | t :: rest =>
    match t.type with
    | .pipe => .ok (seg, t :: rest)
    | .redirectIn =>
      match rest with
      | ⟨.word, value⟩ :: rest => parseSegment { seg with inputFile := some value } rest
      | _ => .error (ascii "Syntax error: < requires filename\n")
    | .redirectOut =>
      match rest with
      | ⟨.word, value⟩ :: rest => parseSegment { seg with outputFile := some value } rest
      | _ => .error (ascii "Syntax error: > requires filename\n")
    | .word =>
      if seg.argc < argvCapacity then parseSegment (seg.pushArg t.value) rest else .overflow
    | _ => .error (ascii "Syntax error in pipeline\n")

/-- The optional step over a pipe at the end of a segment. -/
def skipPipe : List Token → List Token
  | ⟨.pipe, _⟩ :: rest => rest
  | rest => rest

/-- The outer loop; every turn uses up a token, so the number of tokens bounds it. -/
def parseLoop : ℕ → List JobSegment → List Token → Parsed (List JobSegment)
  | 0, segments, _ => .ok segments
  | n + 1, segments, tokens =>
    if tokens.isEmpty then .ok segments
    else
      match parseSegment .empty tokens with
      | .error e => .error e
      | .overflow => .overflow
      | .ok (seg, rest) =>
        if seg.argc = 0 then .error (ascii "Syntax error: empty command\n")
        else if seg.argc < argvCapacity ∧ segments.length < segmentCapacity then
          parseLoop n (segments ++ [seg.terminate]) (skipPipe rest)
        else .overflow

/-- What `parse_job` leaves: the job, and `*conditional_type`. -/
structure ParseResult where
  job : Parsed Job
  conditionalType : ℕ
deriving DecidableEq

/-- The leading conditional: its code, and the tokens behind it. -/
def leadingConditional : List Token → ℕ × List Token
  | ⟨.and, _⟩ :: rest => (TokenType.and.code, rest)
  | ⟨.or, _⟩ :: rest => (TokenType.or.code, rest)
  | tokens => (0, tokens)

/-- `parse_job`: a leading conditional, and the segments of a pipeline or an error. -/
def parseJob (tokens : List Token) : ParseResult :=
  let (conditionalType, rest) := leadingConditional tokens
  match parseLoop rest.length [] rest with
  | .ok [] => ⟨.error (ascii "Syntax error: no command\n"), conditionalType⟩
  | .ok segments => ⟨.ok ⟨segments⟩, conditionalType⟩
  | .error e => ⟨.error e, conditionalType⟩
  | .overflow => ⟨.overflow, conditionalType⟩

/-! ### Lines without tokens -/

theorem strtok_eq_none {s : Bytes} : strtok s = none ↔ ∀ b ∈ s, isDelim b = true := by
  rw [strtok]
  cases h : s.dropWhile isDelim with
  | nil => simpa using List.dropWhile_eq_nil_iff.mp h
  | cons b t =>
      simp only [reduceCtorEq, false_iff]
      intro hall
      rw [List.dropWhile_eq_nil_iff.mpr hall] at h
      cases h

theorem isSpace_of_isDelim {b : UInt8} (h : isDelim b = true) : isSpace b = true := by
  simp only [isDelim, Bool.or_eq_true, beq_iff_eq] at h
  rcases h with (rfl | rfl) | rfl <;> rfl

theorem tokenLoop_eq_nil {n : ℕ} {s : Bytes} :
    tokenLoop (n + 1) s = [] ↔ ∀ b ∈ s, isDelim b = true := by
  rw [← strtok_eq_none, tokenLoop]
  split
  · next h => simp [h]
  · next h => simp [h]

theorem cleanLine_eq (line : Bytes) : cleanLine line = line.takeWhile fun b => b ≠ 35 := by
  rw [cleanLine]
  cases h : cut 35 line with
  | none =>
      have hno := cut_eq_none.mp h
      refine (List.takeWhile_eq_self_iff.mpr fun b hb => ?_).symm
      exact decide_eq_true fun e => hno (e ▸ hb)
  | some r =>
      obtain ⟨x, y⟩ := r
      obtain ⟨rfl, hx⟩ := cut_eq_some.mp h
      have hall : ∀ b ∈ x, decide (b ≠ 35) = true := fun b hb =>
        decide_eq_true fun e => hx (e ▸ hb)
      rw [List.takeWhile_append_of_pos hall]
      simp

/-- There are no tokens exactly when everything before the first `#` is white space. -/
theorem tokenize_eq_nil {line : Bytes} :
    tokenize line = [] ↔ ∀ b ∈ line.takeWhile (fun b => b ≠ 35), isSpace b = true := by
  induction line with
  | nil => simp [tokenize, cleanLine, cut, tokenLoop, strtok]
  | cons b line ih =>
      cases hb : isSpace b with
      | true =>
          have hne : b ≠ 35 := by rintro rfl; cases hb
          have hdrop : tokenize (b :: line) = tokenize line := by
            rw [tokenize, tokenize, List.dropWhile_cons, if_pos hb]
          rw [hdrop, ih, List.takeWhile_cons, if_pos (decide_eq_true hne), List.forall_mem_cons,
            and_iff_right hb]
      | false =>
          have hdrop : (b :: line).dropWhile isSpace = b :: line := by
            rw [List.dropWhile_cons, hb, if_neg Bool.false_ne_true]
          simp only [tokenize, hdrop, List.head?_cons, Option.some.injEq]
          by_cases h₃₅ : b = 35
          · subst h₃₅
            simp
          · -- the first byte is no white space, so there is a token
            have htake : (b :: line).takeWhile (fun b => b ≠ 35) =
                b :: line.takeWhile (fun b => b ≠ 35) := by
              rw [List.takeWhile_cons, if_pos (decide_eq_true h₃₅)]
            rw [if_neg h₃₅, tokenLoop_eq_nil, cleanLine_eq, htake, List.forall_mem_cons,
              List.forall_mem_cons]
            refine iff_of_false (fun h => ?_) (fun h => ?_)
            · rw [isSpace_of_isDelim h.1] at hb
              cases hb
            · rw [h.1] at hb
              cases hb

end CS214.Shell
