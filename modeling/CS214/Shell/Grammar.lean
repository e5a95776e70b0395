import Mathlib.Data.List.Basic
import CS214.Shell.Parse

/-!
# Shell — the grammar of a command line

The grammar is `line := [AND | OR] seg (PIPE seg)*` with
`seg := (WORD | '<' WORD | '>' WORD)+`, where a segment has at least one argument word.  `Derives`
is this grammar on tokens, and `Line.job` the job a derivation stands for.

* `parseLoop_sound`, `parseLoop_complete`: within the capacities of the arrays the parser accepts
  the derivable token lists, and those followed by one more pipe.
* `parse_job_grammar_iff`: a token list is treated as the grammar says exactly when it is not a
  derivable list followed by a pipe.
-/

open CString

namespace CS214.Shell

/-- An element of a segment. -/
inductive Part where
  | arg (value : Bytes)
  | input (value : Bytes)
  | output (value : Bytes)
deriving DecidableEq

/-- A leading conditional. -/
inductive Conditional where
  | and
  | or
deriving DecidableEq

/-- The token type of the keyword. -/
def Conditional.type : Conditional → TokenType
  | .and => .and
  | .or => .or

/-- The syntax tree of a line. -/
structure Line where
  conditional : Option Conditional
  segments : List (List Part)

/-! ### Derivations -/

/-- `WORD | '<' WORD | '>' WORD`. -/
inductive DerivesPart : List Token → Part → Prop where
  | arg (v : Bytes) : DerivesPart [⟨.word, v⟩] (.arg v)
  | input (u v : Bytes) : DerivesPart [⟨.redirectIn, u⟩, ⟨.word, v⟩] (.input v)
  | output (u v : Bytes) : DerivesPart [⟨.redirectOut, u⟩, ⟨.word, v⟩] (.output v)

/-- A sequence of parts. -/
inductive DerivesParts : List Token → List Part → Prop where
  | nil : DerivesParts [] []
  | cons {ts ts' : List Token} {p : Part} {ps : List Part} (part : DerivesPart ts p)
      (parts : DerivesParts ts' ps) : DerivesParts (ts ++ ts') (p :: ps)

/-- The argument words of a segment. -/
def args (ps : List Part) : List Bytes := ps.filterMap fun
  | .arg v => some v
  | _ => none

/-- `seg`: some parts, one of them an argument. -/
structure DerivesSeg (ts : List Token) (ps : List Part) : Prop where
  parts : DerivesParts ts ps
  hasArg : args ps ≠ []

/-- `seg (PIPE seg)*`. -/
inductive DerivesPipeline : List Token → List (List Part) → Prop where
  | one {ts : List Token} {ps : List Part} (seg : DerivesSeg ts ps) : DerivesPipeline ts [ps]
  | cons {ts ts' : List Token} {u : Bytes} {ps : List Part} {pss : List (List Part)}
      (seg : DerivesSeg ts ps) (rest : DerivesPipeline ts' pss) :
      DerivesPipeline (ts ++ ⟨.pipe, u⟩ :: ts') (ps :: pss)

/-- `[AND | OR] seg (PIPE seg)*`. -/
inductive Derives : List Token → Line → Prop where
  | plain {ts : List Token} {pss : List (List Part)} (pipeline : DerivesPipeline ts pss) :
      Derives ts ⟨none, pss⟩
  | conditional {ts : List Token} {u : Bytes} {pss : List (List Part)} (c : Conditional)
      (pipeline : DerivesPipeline ts pss) : Derives (⟨c.type, u⟩ :: ts) ⟨some c, pss⟩

/-! ### What a line stands for -/

/-- The last target of a kind of redirection. -/
def lastTarget (target : Part → Option Bytes) (ps : List Part) : Option Bytes :=
  (ps.filterMap target).getLast?

/-- The target, if the part is `< file`. -/
def Part.inputTarget : Part → Option Bytes
  | .input v => some v
  | _ => none

/-- The target, if the part is `> file`. -/
def Part.outputTarget : Part → Option Bytes
  | .output v => some v
  | _ => none

/-- The segment of a job: the argument words followed by `NULL`, and the last target of each
redirection. -/
def segmentOf (ps : List Part) : JobSegment where
  argv := (args ps).map some ++ [none]
  argc := (args ps).length
  inputFile := lastTarget Part.inputTarget ps
  outputFile := lastTarget Part.outputTarget ps

/-- The job of a line. -/
def Line.job (l : Line) : Job := ⟨l.segments.map segmentOf⟩

/-- The `conditional_type` of a line: 0, or that of its keyword. -/
def Line.conditionalType (l : Line) : ℕ := l.conditional.elim 0 fun c => c.type.code

/-- `parse_job` treats the tokens as the grammar says: it returns a job exactly when they are a
line, and then that of the line. -/
def MeetsGrammar (tokens : List Token) : Prop :=
  ∀ job conditionalType, parseJob tokens = ⟨.ok job, conditionalType⟩ ↔
    ∃ l, Derives tokens l ∧ l.job = job ∧ l.conditionalType = conditionalType

/-- The tokens fit the arrays: at most 99 words between two pipes, and at most 50 segments. -/
structure WithinCapacity (tokens : List Token) : Prop where
  words : ∀ piece ∈ tokens.splitOnP (·.type = .pipe), piece.countP (·.type = .word) ≤ 99
  segments : ((tokens.splitOnP (·.type = .pipe)).filter fun piece => !piece.isEmpty).length ≤ 50

/-- A line followed by one more pipe. -/
def TrailingPipe (tokens : List Token) : Prop :=
  ∃ ts u l, tokens = ts ++ [⟨.pipe, u⟩] ∧ Derives ts l

/-! ### The inner loop -/

/-- A segment with the parts read into it. -/
def JobSegment.addPart (seg : JobSegment) : Part → JobSegment
  | .arg v => seg.pushArg v
  | .input v => { seg with inputFile := some v }
  | .output v => { seg with outputFile := some v }

variable {ts ts' rest : List Token} {ps : List Part} {pss : List (List Part)}
  {seg seg' : JobSegment} {segments segments' : List JobSegment} {n : ℕ}

theorem foldl_addPart (ps : List Part) :
    ps.foldl JobSegment.addPart seg =
      { argv := seg.argv ++ (args ps).map some
        argc := seg.argc + (args ps).length
        inputFile := (lastTarget Part.inputTarget ps).or seg.inputFile
        outputFile := (lastTarget Part.outputTarget ps).or seg.outputFile } := by
  induction ps generalizing seg with
  | nil => simp [args, lastTarget]
  | cons p ps ih =>
      rw [List.foldl_cons, ih]
      have last : ∀ (v : Bytes) (l : List Bytes) (o : Option Bytes),
          (v :: l).getLast?.or o = l.getLast?.or (some v) := by
        intro v l o
        cases l with
        | nil => rfl
        | cons w l => simp [List.getLast?_cons]
      cases p with
      | arg v =>
          simp only [JobSegment.addPart, JobSegment.pushArg, args, lastTarget, List.filterMap_cons,
            Part.inputTarget, Part.outputTarget, List.map_cons, List.length_cons,
            List.append_assoc, List.singleton_append]
          rw [Nat.add_right_comm, Nat.add_assoc]
      | input v =>
          simp only [JobSegment.addPart, args, lastTarget, List.filterMap_cons,
            Part.inputTarget, Part.outputTarget, last]
      | output v =>
          simp only [JobSegment.addPart, args, lastTarget, List.filterMap_cons,
            Part.inputTarget, Part.outputTarget, last]

/-- The segment a turn of the outer loop stores. -/
theorem segmentOf_eq (ps : List Part) :
    (ps.foldl JobSegment.addPart .empty).terminate = segmentOf ps := by
  rw [foldl_addPart]
  simp [JobSegment.empty, JobSegment.terminate, segmentOf]

/-- Nothing is left, or a pipe and what follows it. -/
def AtPipe (rest : List Token) : Prop := rest = [] ∨ ∃ u rest', rest = ⟨.pipe, u⟩ :: rest'

theorem parseSegment_word (v : Bytes) :
    parseSegment seg (⟨.word, v⟩ :: rest) =
      if seg.argc < argvCapacity then parseSegment (seg.pushArg v) rest else .overflow := rfl

/-- What the inner loop has read when it stops: it succeeds in front of a pipe or at the end, fails,
or has met more arguments than there is room for. -/
theorem parseSegment_reads (seg : JobSegment) (ts : List Token) :
    ∃ ts' ps rest, ts = ts' ++ rest ∧ DerivesParts ts' ps ∧
      (parseSegment seg ts = .ok (ps.foldl JobSegment.addPart seg, rest) ∧ AtPipe rest ∨
        (∃ e, parseSegment seg ts = .error e) ∨
        parseSegment seg ts = .overflow ∧ argvCapacity < seg.argc + (args ps).length) := by
  induction seg, ts using parseSegment.induct with
  | case1 seg => exact ⟨[], [], [], rfl, .nil, .inl ⟨rfl, .inl rfl⟩⟩
  | case2 seg t rest' ht =>
      obtain ⟨type, u⟩ := t
      subst ht
      exact ⟨[], [], _, rfl, .nil, .inl ⟨rfl, .inr ⟨u, rest', rfl⟩⟩⟩
  | case3 seg t ht value rest' ih =>
      obtain ⟨type, u⟩ := t
      subst ht
      obtain ⟨ts', ps, rest, rfl, hps, h⟩ := ih
      exact ⟨_, _, rest, rfl, .cons (.input u value) hps, h⟩
  | case4 seg t rest' ht hno =>
      refine ⟨[], [], _, rfl, .nil, .inr (.inl ?_)⟩
      rw [parseSegment]
      · simp only [ht]
        exact ⟨_, rfl⟩
      · exact hno
  | case5 seg t ht value rest' ih =>
      obtain ⟨type, u⟩ := t
      subst ht
      obtain ⟨ts', ps, rest, rfl, hps, h⟩ := ih
      exact ⟨_, _, rest, rfl, .cons (.output u value) hps, h⟩
  | case6 seg t rest' ht hno =>
      refine ⟨[], [], _, rfl, .nil, .inr (.inl ?_)⟩
      rw [parseSegment]
      · simp only [ht]
        exact ⟨_, rfl⟩
      · exact hno
  | case7 seg t rest' ht hlt ih =>
      obtain ⟨type, u⟩ := t
      subst ht
      obtain ⟨ts', ps, rest, rfl, hps, h⟩ := ih
      have hargs : args (.arg u :: ps) = u :: args ps := rfl
      refine ⟨_, _, rest, rfl, .cons (.arg u) hps, ?_⟩
      simp only [JobSegment.pushArg] at h
      rw [parseSegment_word, if_pos hlt, hargs, List.length_cons, Nat.add_comm _ 1, ← Nat.add_assoc]
      exact h
  | case8 seg t rest' ht hlt =>
      obtain ⟨type, u⟩ := t
      subst ht
      have hargs : args [.arg u] = [u] := rfl
      refine ⟨[⟨.word, u⟩], [.arg u], rest', rfl, .cons (.arg u) .nil, .inr (.inr ⟨?_, ?_⟩)⟩
      · rw [parseSegment_word, if_neg hlt]
      · rw [hargs, List.length_singleton]
        omega
  | case9 seg t rest' h₁ h₂ h₃ h₄ =>
      obtain ⟨type, u⟩ := t
      refine ⟨[], [], _, rfl, .nil, .inr (.inl ?_)⟩
      cases type with
      | and => exact ⟨_, rfl⟩
      | or => exact ⟨_, rfl⟩
      | eof => exact ⟨_, rfl⟩
      | word => contradiction
      | pipe => contradiction
      | redirectIn => contradiction
      | redirectOut => contradiction

/-- What the inner loop has read when it succeeds. -/
theorem parseSegment_sound (h : parseSegment seg ts = .ok (seg', rest)) :
    ∃ ts' ps, ts = ts' ++ rest ∧ DerivesParts ts' ps ∧ seg' = ps.foldl JobSegment.addPart seg ∧
      AtPipe rest := by
  obtain ⟨ts', ps, rest', e, hps, ⟨hok, hat⟩ | ⟨_, herr⟩ | ⟨hover, -⟩⟩ := parseSegment_reads seg ts
  · rw [hok] at h
    cases h
    exact ⟨ts', ps, e, hps, rfl, hat⟩
  · rw [herr] at h
    cases h
  · rw [hover] at h
    cases h

/-- The inner loop reads the parts up to a pipe, when they fit. -/
theorem parseSegment_complete (hp : DerivesParts ts ps) (hrest : AtPipe rest)
    (hn : seg.argc + (args ps).length ≤ argvCapacity) :
    parseSegment seg (ts ++ rest) = .ok (ps.foldl JobSegment.addPart seg, rest) := by
  induction hp generalizing seg with
  | nil =>
      rcases hrest with rfl | ⟨u, rest', rfl⟩ <;> rfl
  | @cons ts ts' p ps part _ ih =>
      cases part with
      | arg v =>
          have hargs : args (.arg v :: ps) = v :: args ps := rfl
          rw [hargs, List.length_cons] at hn
          have hlt : seg.argc < argvCapacity := by omega
          rw [List.append_assoc, List.singleton_append, parseSegment_word, if_pos hlt]
          exact ih (by simp only [JobSegment.pushArg]; omega)
      | input u v => exact @ih { seg with inputFile := some v } hn
      | output u v => exact @ih { seg with outputFile := some v } hn

/-! ### The outer loop -/

/-- Nothing, or one more pipe. -/
def Ends (tail : List Token) : Prop := tail = [] ∨ ∃ u, tail = [⟨.pipe, u⟩]

@[simp] theorem skipPipe_nil : skipPipe [] = [] := rfl

@[simp] theorem skipPipe_pipe (u : Bytes) : skipPipe (⟨.pipe, u⟩ :: rest) = rest := rfl

theorem DerivesSeg.ne_nil (h : DerivesSeg ts ps) : ts ≠ [] := by
  intro hts
  cases h.parts with
  | nil => exact h.hasArg rfl
  | cons part _ => cases part <;> cases hts

theorem parseLoop_nil : parseLoop n segments [] = .ok segments := by cases n <;> rfl

/-- One turn of the outer loop. -/
theorem parseLoop_turn (hp : DerivesSeg ts ps) (hrest : AtPipe rest)
    (hargs : (args ps).length < argvCapacity) (hsegs : segments.length < segmentCapacity) :
    parseLoop (n + 1) segments (ts ++ rest) =
      parseLoop n (segments ++ [segmentOf ps]) (skipPipe rest) := by
  have hne : (ts ++ rest).isEmpty = false := by simp [hp.ne_nil]
  have hargc : (ps.foldl JobSegment.addPart .empty).argc = (args ps).length := by
    rw [foldl_addPart]
    exact Nat.zero_add _
  have hpos : (args ps).length ≠ 0 := fun h => hp.hasArg (List.eq_nil_of_length_eq_zero h)
  have hseg : parseSegment .empty (ts ++ rest) =
      .ok (ps.foldl JobSegment.addPart .empty, rest) :=
    parseSegment_complete hp.parts hrest (by simp only [JobSegment.empty]; omega)
  rw [parseLoop, hne, if_neg Bool.false_ne_true, hseg]
  simp only [hargc, hpos, if_false, hargs, hsegs, and_self, if_true, segmentOf_eq]

theorem parseLoop_sound (hn : ts.length ≤ n) (h : parseLoop n segments ts = .ok segments') :
    ts = [] ∧ segments' = segments ∨
      ∃ ts₀ tail pss, ts = ts₀ ++ tail ∧ Ends tail ∧ DerivesPipeline ts₀ pss ∧
        segments' = segments ++ pss.map segmentOf := by
  induction n generalizing segments ts with
  | zero =>
      obtain rfl := List.eq_nil_of_length_eq_zero (Nat.le_zero.mp hn)
      cases h
      exact .inl ⟨rfl, rfl⟩
  | succ n ih =>
      rw [parseLoop] at h
      split at h
      · next hnil =>
          cases h
          exact .inl ⟨List.isEmpty_iff.mp hnil, rfl⟩
      · split at h
        · cases h
        · cases h
        · next seg rest hseg =>
            obtain ⟨ts', ps, rfl, hps, rfl, hrest⟩ := parseSegment_sound hseg
            split at h
            · cases h
            · next hargc =>
                have hp : DerivesSeg ts' ps := ⟨hps, fun hnil => hargc (by
                  rw [foldl_addPart, hnil]; rfl)⟩
                split at h
                · rw [segmentOf_eq] at h
                  refine .inr ?_
                  rcases hrest with rfl | ⟨u, rest', rfl⟩
                  · rw [skipPipe_nil, parseLoop_nil] at h
                    cases h
                    exact ⟨ts', [], [ps], rfl, .inl rfl, .one hp, rfl⟩
                  · rw [skipPipe_pipe] at h
                    rw [List.length_append, List.length_cons] at hn
                    rcases ih (by omega) h with ⟨rfl, rfl⟩ | ⟨ts₀, tail, pss, rfl, htail, hpss, rfl⟩
                    · exact ⟨ts', _, [ps], rfl, .inr ⟨u, rfl⟩, .one hp, rfl⟩
                    · refine ⟨ts' ++ ⟨.pipe, u⟩ :: ts₀, tail, ps :: pss, ?_, htail,
                        .cons hp hpss, ?_⟩
                      · rw [List.append_assoc, List.cons_append]
                      · rw [List.append_assoc, List.map_cons, List.singleton_append]
                · cases h

theorem parseLoop_complete (hp : DerivesPipeline ts pss) {tail : List Token} (htail : Ends tail)
    (hargs : ∀ ps ∈ pss, (args ps).length < argvCapacity)
    (hsegs : segments.length + pss.length ≤ segmentCapacity) (hn : (ts ++ tail).length ≤ n) :
    parseLoop n segments (ts ++ tail) = .ok (segments ++ pss.map segmentOf) := by
  induction hp generalizing segments n with
  | @one ts ps seg =>
      have hlt := hargs ps List.mem_cons_self
      rw [List.length_singleton] at hsegs
      cases n with
      | zero =>
          have hnil := List.eq_nil_of_length_eq_zero (Nat.le_zero.mp hn)
          exact absurd (List.append_eq_nil_iff.mp hnil).1 seg.ne_nil
      | succ n =>
          have hat : AtPipe tail := htail.imp_right fun ⟨u, h⟩ => ⟨u, [], h⟩
          rw [parseLoop_turn seg hat hlt (by omega)]
          rcases htail with rfl | ⟨u, rfl⟩ <;> exact parseLoop_nil
  | @cons ts ts' u ps pss seg _ ih =>
      have hlt := hargs ps List.mem_cons_self
      rw [List.length_cons] at hsegs
      rw [List.append_assoc, List.length_append, List.cons_append, List.length_cons] at hn
      cases n with
      | zero => omega
      | succ n =>
          rw [List.append_assoc, List.cons_append,
            parseLoop_turn seg (.inr ⟨u, _, rfl⟩) hlt (by omega), skipPipe_pipe,
            ih (fun ps hps => hargs ps (List.mem_cons_of_mem _ hps))
              (by rw [List.length_append, List.length_singleton]; omega) (by omega),
            List.append_assoc, List.map_cons, List.singleton_append]

/-! ### What the capacities say about a derivation -/

theorem DerivesParts.no_pipe (h : DerivesParts ts ps) :
    ∀ t ∈ ts, decide (t.type = .pipe) = false := by
  induction h with
  | nil => intro t ht; cases ht
  | cons part _ ih =>
      intro t ht
      rcases List.mem_append.mp ht with ht | ht
      · cases part <;> simp at ht <;> rcases ht with rfl | rfl <;> rfl
      · exact ih t ht

theorem DerivesParts.args_le (h : DerivesParts ts ps) :
    (args ps).length ≤ ts.countP (·.type = .word) := by
  induction h with
  | nil => exact Nat.le_refl 0
  | cons part _ ih =>
      rw [List.countP_append]
      cases part with
      | arg v =>
          have hargs : ∀ qs, args (.arg v :: qs) = v :: args qs := fun _ => rfl
          rw [hargs, List.length_cons, Nat.add_comm]
          exact Nat.add_le_add_left ih 1
      | input u v => exact Nat.le_trans ih (Nat.le_add_left _ _)
      | output u v => exact Nat.le_trans ih (Nat.le_add_left _ _)

/-- The pieces between the pipes are the segments. -/
theorem DerivesPipeline.pieces (h : DerivesPipeline ts pss) :
    (∀ ps ∈ pss, ∃ piece ∈ ts.splitOnP (·.type = .pipe), DerivesSeg piece ps) ∧
    (∀ piece ∈ ts.splitOnP (·.type = .pipe), piece ≠ []) ∧
    (ts.splitOnP (·.type = .pipe)).length = pss.length := by
  induction h with
  | one seg =>
      rw [List.splitOnP_eq_singleton seg.parts.no_pipe]
      refine ⟨fun ps hps => ?_, fun piece hp => ?_, rfl⟩
      · rw [List.mem_singleton.mp hps]
        exact ⟨_, List.mem_cons_self, seg⟩
      · rw [List.mem_singleton.mp hp]
        exact seg.ne_nil
  | cons seg _ ih =>
      obtain ⟨h₁, h₂, h₃⟩ := ih
      rw [List.splitOnP_append_cons_of_forall_mem seg.parts.no_pipe _ rfl]
      refine ⟨fun ps hps => ?_, fun piece hp => ?_, congrArg (· + 1) h₃⟩
      · rcases List.mem_cons.mp hps with rfl | hps
        · exact ⟨_, List.mem_cons_self, seg⟩
        · obtain ⟨piece, hmem, hseg⟩ := h₁ ps hps
          exact ⟨piece, List.mem_cons_of_mem _ hmem, hseg⟩
      · rcases List.mem_cons.mp hp with rfl | hp
        · exact seg.ne_nil
        · exact h₂ piece hp

theorem WithinCapacity.pipeline (hw : WithinCapacity ts) (h : DerivesPipeline ts pss) :
    (∀ ps ∈ pss, (args ps).length < argvCapacity) ∧ pss.length ≤ segmentCapacity := by
  obtain ⟨h₁, h₂, h₃⟩ := h.pieces
  constructor
  · intro ps hps
    obtain ⟨piece, hmem, hseg⟩ := h₁ ps hps
    exact Nat.lt_succ_of_le (Nat.le_trans hseg.parts.args_le (hw.words piece hmem))
  · have hall : (ts.splitOnP (·.type = .pipe)).filter (fun piece => !piece.isEmpty) =
        ts.splitOnP (·.type = .pipe) :=
      List.filter_eq_self.mpr fun piece hmem => by simpa using h₂ piece hmem
    have hlen := hw.segments
    rw [hall, h₃] at hlen
    exact hlen

/-- The capacities suffice without a leading token that is no pipe. -/
theorem WithinCapacity.tail {t : Token} (ht : t.type ≠ .pipe) (h : WithinCapacity (t :: ts)) :
    WithinCapacity ts := by
  have hsplit : (t :: ts).splitOnP (·.type = .pipe) =
      (ts.splitOnP (·.type = .pipe)).modifyHead (t :: ·) := by
    rw [List.splitOnP_cons_eq_if_modifyHead, if_neg (by simpa using ht)]
  obtain ⟨hwords, hsegs⟩ := h
  rw [hsplit] at hwords hsegs
  obtain ⟨p, ps, e⟩ := List.exists_cons_of_ne_nil
    (List.splitOnP_ne_nil (fun t : Token => decide (t.type = .pipe)) ts)
  rw [e, List.modifyHead_cons] at hwords hsegs
  constructor
  · rw [e]
    intro piece hmem
    rcases List.mem_cons.mp hmem with rfl | hmem
    · refine Nat.le_trans ?_ (hwords _ List.mem_cons_self)
      rw [List.countP_cons]
      exact Nat.le_add_right _ _
    · exact hwords piece (List.mem_cons_of_mem _ hmem)
  · rw [e]
    refine Nat.le_trans ?_ hsegs
    cases p <;> simp

/-- The capacities suffice without a trailing pipe. -/
theorem WithinCapacity.init {tail : List Token} (htail : Ends tail)
    (h : WithinCapacity (ts ++ tail)) : WithinCapacity ts := by
  rcases htail with rfl | ⟨u, rfl⟩
  · rwa [List.append_nil] at h
  · have hsplit : (ts ++ [Token.mk .pipe u]).splitOnP (·.type = .pipe) =
        ts.splitOnP (·.type = .pipe) ++ [[]] :=
      List.splitOnP_append_cons ts [] rfl
    obtain ⟨hwords, hsegs⟩ := h
    rw [hsplit] at hwords hsegs
    exact ⟨fun piece hmem => hwords piece (List.mem_append_left _ hmem), by simpa using hsegs⟩

/-! ### The whole parser -/

theorem DerivesPipeline.leading (h : DerivesPipeline ts pss) (rest : List Token) :
    leadingConditional (ts ++ rest) = (0, ts ++ rest) := by
  have hseg : ∀ {ts : List Token} {ps : List Part}, DerivesSeg ts ps → ∀ rest,
      leadingConditional (ts ++ rest) = (0, ts ++ rest) := by
    intro ts ps hseg rest
    cases hseg.parts with
    | nil => exact absurd rfl hseg.hasArg
    | cons part _ => cases part <;> rfl
  cases h with
  | one seg => exact hseg seg rest
  | cons seg _ =>
      rw [List.append_assoc]
      exact hseg seg _

/-- A derivation ends with a word. -/
theorem Derives.last {l : Line} (h : Derives ts l) : ∃ v, ts.getLast? = some ⟨.word, v⟩ := by
  have hparts : ∀ {ts : List Token} {ps : List Part}, DerivesParts ts ps →
      ts ≠ [] → ∃ v, ts.getLast? = some ⟨.word, v⟩ := by
    intro ts ps hps
    induction hps with
    | nil => intro hne; exact absurd rfl hne
    | @cons ts ts' p ps part _ ih =>
        intro _
        by_cases hts : ts' = []
        · subst hts
          cases part <;> exact ⟨_, rfl⟩
        · obtain ⟨v, hv⟩ := ih hts
          exact ⟨v, by rw [List.getLast?_append, hv, Option.some_or]⟩
  have hpipe : ∀ {ts : List Token} {pss : List (List Part)}, DerivesPipeline ts pss →
      ∃ v, ts.getLast? = some ⟨.word, v⟩ := by
    intro ts pss hpss
    induction hpss with
    | one seg => exact hparts seg.parts seg.ne_nil
    | cons seg _ ih =>
        obtain ⟨v, hv⟩ := ih
        exact ⟨v, by rw [List.getLast?_append, List.getLast?_cons, hv]; rfl⟩
  cases h with
  | plain pipeline => exact hpipe pipeline
  | conditional c pipeline =>
      obtain ⟨v, hv⟩ := hpipe pipeline
      exact ⟨v, by rw [List.getLast?_cons, hv]; rfl⟩

theorem parseJob_of_loop {tokens : List Token} {conditionalType : ℕ}
    (hlead : leadingConditional tokens = (conditionalType, rest))
    (hloop : parseLoop rest.length [] rest = .ok segments) (hne : segments ≠ []) :
    parseJob tokens = ⟨.ok ⟨segments⟩, conditionalType⟩ := by
  cases segments with
  | nil => exact absurd rfl hne
  | cons s ss => simp only [parseJob, hlead, hloop]

/-- A line, with or without one more pipe, is accepted when its segments fit. -/
theorem parseJob_fits {l : Line} {tail : List Token} (h : Derives ts l) (htail : Ends tail)
    (hargs : ∀ ps ∈ l.segments, (args ps).length < argvCapacity)
    (hsegs : l.segments.length ≤ segmentCapacity) :
    parseJob (ts ++ tail) = ⟨.ok l.job, l.conditionalType⟩ := by
  have hloop : ∀ {ts : List Token} {pss : List (List Part)}, DerivesPipeline ts pss →
      (∀ ps ∈ pss, (args ps).length < argvCapacity) → pss.length ≤ segmentCapacity →
      parseLoop (ts ++ tail).length [] (ts ++ tail) = .ok (pss.map segmentOf) ∧
        pss.map segmentOf ≠ [] := by
    intro ts pss hp hargs hsegs
    refine ⟨parseLoop_complete hp htail hargs ?_ (Nat.le_refl _), ?_⟩
    · rwa [List.length_nil, Nat.zero_add]
    · cases hp <;> exact List.cons_ne_nil _ _
  cases h with
  | plain pipeline =>
      obtain ⟨h₁, h₂⟩ := hloop pipeline hargs hsegs
      exact parseJob_of_loop (pipeline.leading tail) h₁ h₂
  | conditional c pipeline =>
      obtain ⟨h₁, h₂⟩ := hloop pipeline hargs hsegs
      refine parseJob_of_loop ?_ h₁ h₂
      cases c <;> rfl

theorem parseJob_complete {l : Line} {tail : List Token} (h : Derives ts l) (htail : Ends tail)
    (hw : WithinCapacity (ts ++ tail)) :
    parseJob (ts ++ tail) = ⟨.ok l.job, l.conditionalType⟩ := by
  cases h with
  | plain pipeline =>
      obtain ⟨hargs, hsegs⟩ := (hw.init htail).pipeline pipeline
      exact parseJob_fits (.plain pipeline) htail hargs hsegs
  | conditional c pipeline =>
      have hc : c.type ≠ .pipe := by cases c <;> nofun
      obtain ⟨hargs, hsegs⟩ := (WithinCapacity.init htail (hw.tail hc)).pipeline pipeline
      exact parseJob_fits (.conditional c pipeline) htail hargs hsegs

/-- What is accepted is a line, or a line followed by one more pipe. -/
theorem parseJob_sound {tokens : List Token} {job : Job} {conditionalType : ℕ}
    (h : parseJob tokens = ⟨.ok job, conditionalType⟩) :
    ∃ ts tail l, tokens = ts ++ tail ∧ Ends tail ∧ Derives ts l ∧ l.job = job ∧
      l.conditionalType = conditionalType := by
  have hloop : ∀ {c : ℕ} {rest : List Token}, leadingConditional tokens = (c, rest) →
      c = conditionalType ∧ ∃ ts tail pss, rest = ts ++ tail ∧ Ends tail ∧
        DerivesPipeline ts pss ∧ pss.map segmentOf = job.segments := by
    intro c rest hlead
    rw [parseJob, hlead] at h
    simp only at h
    split at h
    · cases h
    · next segments hne hok =>
        obtain ⟨hjob, rfl⟩ := ParseResult.mk.inj h
        refine ⟨rfl, ?_⟩
        cases hjob
        rcases parseLoop_sound (Nat.le_refl _) hok with ⟨-, rfl⟩ | ⟨ts, tail, pss, h₁, h₂, h₃, rfl⟩
        · exact absurd rfl (hne ·)
        · exact ⟨ts, tail, pss, h₁, h₂, h₃, rfl⟩
    · cases h
    · cases h
  have hjob : ∀ {l : Line}, l.segments.map segmentOf = job.segments → l.job = job := by
    intro l hl
    rw [Line.job, hl]
  cases hlead : leadingConditional tokens with
  | mk c rest =>
      obtain ⟨rfl, ts, tail, pss, rfl, htail, hp, hsegs⟩ := hloop hlead
      -- the leading token is a conditional, or nothing was taken
      rw [leadingConditional.eq_def] at hlead
      split at hlead
      · next u rest' =>
          obtain ⟨rfl, rfl⟩ := Prod.mk.inj hlead
          exact ⟨_, tail, ⟨some .and, pss⟩, rfl, htail, .conditional .and hp, hjob hsegs, rfl⟩
      · next u rest' =>
          obtain ⟨rfl, rfl⟩ := Prod.mk.inj hlead
          exact ⟨_, tail, ⟨some .or, pss⟩, rfl, htail, .conditional .or hp, hjob hsegs, rfl⟩
      · obtain ⟨rfl, rfl⟩ := Prod.mk.inj hlead
        exact ⟨ts, tail, ⟨none, pss⟩, rfl, htail, .plain hp, hjob hsegs, rfl⟩

/-- **When `parse_job` keeps the grammar**: within the capacities of the arrays, it treats the
tokens as the grammar says exactly when they are not a line followed by a pipe. -/
theorem parse_job_grammar_iff {tokens : List Token} (hw : WithinCapacity tokens) :
    MeetsGrammar tokens ↔ ¬ TrailingPipe tokens := by
  constructor
  · rintro hm ⟨ts, u, l, rfl, hd⟩
    obtain ⟨l', hd', -⟩ := (hm _ _).mp (parseJob_complete hd (.inr ⟨u, rfl⟩) hw)
    obtain ⟨v, hv⟩ := hd'.last
    rw [List.getLast?_append, List.getLast?_singleton, Option.some_or] at hv
    cases hv
  · intro hno job c
    constructor
    · intro h
      obtain ⟨ts, tail, l, rfl, htail, hd, hj, hc⟩ := parseJob_sound h
      rcases htail with rfl | ⟨u, rfl⟩
      · exact ⟨l, by rwa [List.append_nil], hj, hc⟩
      · exact absurd ⟨ts, u, l, rfl, hd⟩ hno
    · rintro ⟨l, hd, rfl, rfl⟩
      rw [← List.append_nil tokens] at hw ⊢
      exact parseJob_complete hd (.inl rfl) hw

theorem parse_job_grammar_sample :
    MeetsGrammar (tokenize (ascii "or sort < in -r | wc > out # count")) ↔
      ¬ TrailingPipe (tokenize (ascii "or sort < in -r | wc > out # count")) :=
  parse_job_grammar_iff ⟨by decide +kernel, by decide +kernel⟩

/-- `ls |` is accepted, as `ls` is. -/
theorem parse_job_trailing_pipe : ¬ MeetsGrammar (tokenize (ascii "ls |")) := by
  intro hm
  obtain ⟨l, hd, -⟩ := (hm ⟨[⟨[some (ascii "ls"), none], 1, none, none⟩]⟩ 0).mp (by decide +kernel)
  obtain ⟨v, hv⟩ := hd.last
  rw [show (tokenize (ascii "ls |")).getLast? = some (Token.mk .pipe (ascii "|")) by
    decide +kernel] at hv
  cases hv

end CS214.Shell
