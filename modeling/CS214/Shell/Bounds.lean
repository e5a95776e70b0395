import CS214.Shell.RoundTrip
import CS214.Shell.Reading

/-!
# Shell — the arrays of the parser

The array of the tokens grows when it is full; the arrays of arguments and of segments do not.
`FitsArrays` says of the tokens, in terms of the grammar, that none of the segments that are read
has more than 99 arguments and that there are at most 50 of them; `words` are the words of a line.

* `tokenize_words`: the tokens of a line are those of its words.
* `tokenizeArray_eq`: the array of the tokens is never written outside.
* `parseSegment_overflow_iff`, `parseLoop_overflow_iff`: when the two loops of `parse_job` write
  behind the end of an array.
* `array_bounds_iff`: every write is inside its array exactly when the tokens fit.
-/

open CString

namespace CS214.Shell

/-- `TokenArray`; `count` is the length of the list. -/
structure TokenArray where
  items : List Token
  capacity : ℕ

/-- `tokens->items[tokens->count++] = token`, after the array has grown; none when the write is
outside. -/
def TokenArray.append (a : TokenArray) (token : Token) : Option TokenArray :=
  let capacity := if a.items.length ≥ a.capacity then a.capacity * 2 else a.capacity
  if a.items.length < capacity then some ⟨a.items ++ [token], capacity⟩ else none

/-- The array that `tokenize` fills, token after token. -/
def tokenizeArray (line : Bytes) : Option TokenArray :=
  (tokenize line).foldlM TokenArray.append ⟨[], 100⟩

/-- Every write of `tokenize` and `parse_job` is inside its array. -/
def InBounds (line : Bytes) : Prop :=
  (tokenizeArray line).isSome = true ∧ (parseJob (tokenize line)).job ≠ .overflow

instance (line : Bytes) : Decidable (InBounds line) := inferInstanceAs (Decidable (_ ∧ _))

/-- Some segments, each with a pipe behind it. -/
inductive DerivesStages : List Token → ℕ → Prop where
  | nil : DerivesStages [] 0
  | cons {ts ts' : List Token} {u : Bytes} {ps : List Part} {k : ℕ} (seg : DerivesSeg ts ps)
      (rest : DerivesStages ts' k) : DerivesStages (ts ++ ⟨.pipe, u⟩ :: ts') (k + 1)

/-- The parts read of a segment, of which `k` are before it in the job, and what follows them, fit:
at most 100 arguments, and 99 in a segment that ends there and is stored. -/
def SegmentFits (k : ℕ) (ps : List Part) (rest : List Token) : Prop :=
  (args ps).length ≤ argvCapacity ∧
    (AtPipe rest → args ps ≠ [] → (args ps).length < argvCapacity ∧ k < segmentCapacity)

/-- What the separators leave of a string. -/
def pieces (s : Bytes) : List Bytes := (s.splitOnP isDelim).filter fun w => !w.isEmpty

/-- The words of a line, up to a comment. -/
def words (line : Bytes) : List Bytes :=
  pieces ((line.dropWhile isSpace).takeWhile fun b => b ≠ 35)

/-- The words behind a leading `and` or `or`. -/
def behindConditional : List Bytes → List Bytes
  | [] => []
  | w :: ws => if w = ascii "and" ∨ w = ascii "or" then ws else w :: ws

/-- Whatever segments are read, what is read of the next one fits. -/
def FitsArrays (tokens : List Token) : Prop :=
  ∀ before ts ps rest k, tokens = before ++ (ts ++ rest) → DerivesStages before k →
    DerivesParts ts ps → SegmentFits k ps rest

/-- The words of the line fit, without a leading conditional. -/
def LineFits (line : Bytes) : Prop := FitsArrays ((behindConditional (words line)).map tokenOf)

variable {ts ts' rest tokens : List Token} {ps : List Part} {seg : JobSegment}
  {segments : List JobSegment} {n : ℕ}

/-! ### The words of a line -/

theorem pieces_cons {b : UInt8} (hb : isDelim b = true) (s : Bytes) :
    pieces (b :: s) = pieces s := by
  rw [pieces, List.splitOnP_cons_eq_if_modifyHead, if_pos hb]
  rfl

theorem pieces_dropWhile (s : Bytes) : pieces (s.dropWhile isDelim) = pieces s := by
  induction s with
  | nil => rfl
  | cons b s ih =>
      rw [List.dropWhile_cons]
      split
      · next hb => rw [ih, pieces_cons hb]
      · rfl

theorem pieces_eq_nil {s : Bytes} (h : ∀ b ∈ s, isDelim b = true) : pieces s = [] := by
  rw [← pieces_dropWhile, List.dropWhile_eq_nil_iff.mpr h]
  rfl

/-- The first piece, and those behind the separator that ends it. -/
theorem pieces_append {w rest : Bytes} (hw : ∀ b ∈ w, isDelim b = false) (hne : w ≠ [])
    (hrest : AtDelim rest) : pieces (w ++ rest) = w :: pieces rest.tail := by
  have hkeep : ∀ l : List Bytes, (w :: l).filter (fun w => !w.isEmpty) =
      w :: l.filter fun w => !w.isEmpty := fun l => List.filter_cons_of_pos (by simp [hne])
  cases rest with
  | nil =>
      rw [List.append_nil, pieces, List.splitOnP_eq_singleton hw, hkeep]
      rfl
  | cons d rest =>
      rw [pieces, List.splitOnP_append_cons_of_forall_mem hw d (hrest d rfl), hkeep]
      rfl

/-- The string is separators, the token, and at a separator what the next call goes on with. -/
theorem strtok_eq_some {s v rest : Bytes} (h : strtok s = some (v, rest)) :
    ∃ after, s.dropWhile isDelim = v ++ after ∧ rest = after.tail ∧ v ≠ [] ∧
      (∀ b ∈ v, isDelim b = false) ∧ AtDelim after := by
  rw [strtok] at h
  cases hs : s.dropWhile isDelim with
  | nil =>
      rw [hs] at h
      cases h
  | cons b t =>
      rw [hs] at h
      obtain ⟨rfl, rfl⟩ := Prod.ext_iff.mp (Option.some.inj h)
      have hb : isDelim b = false := by
        have hhead := List.head?_dropWhile_not isDelim s
        rw [hs] at hhead
        simpa using hhead
      refine ⟨t.dropWhile fun c => !isDelim c, ?_, rfl, List.cons_ne_nil _ _,
        List.forall_mem_cons.mpr ⟨hb, fun c hc => ?_⟩, fun c hc => ?_⟩
      · rw [List.cons_append, List.takeWhile_append_dropWhile]
      · simpa using List.mem_takeWhile_imp hc
      · have hhead := List.head?_dropWhile_not (fun c => !isDelim c) t
        rw [hc] at hhead
        simpa using hhead

theorem tokenLoop_pieces {n : ℕ} {s : Bytes} (h : s.length < n) :
    tokenLoop n s = (pieces s).map tokenOf := by
  induction n generalizing s with
  | zero => cases h
  | succ n ih =>
      rw [tokenLoop]
      split
      · next hs =>
          rw [pieces_eq_nil (strtok_eq_none.mp hs)]
          rfl
      · next v rest hs =>
          obtain ⟨after, hdrop, rfl, hne, hv, hafter⟩ := strtok_eq_some hs
          have hlen : (v ++ after).length ≤ s.length := by
            rw [← hdrop]
            exact (List.dropWhile_suffix _).length_le
          have hpos : 0 < v.length := List.length_pos_of_ne_nil hne
          have htail : after.tail.length < n := by
            rw [List.length_append] at hlen
            rw [List.length_tail]
            omega
          rw [ih htail, ← pieces_dropWhile s, hdrop, pieces_append hv hne hafter]
          rfl

theorem tokenize_words (line : Bytes) : tokenize line = (words line).map tokenOf := by
  rw [words, ← cleanLine_eq]
  simp only [tokenize]
  split
  · next h =>
      rw [cleanLine_eq]
      cases hl : line.dropWhile isSpace with
      | nil => rw [hl] at h; cases h
      | cons b t =>
          rw [hl] at h
          obtain rfl := Option.some.inj h
          rfl
  · exact tokenLoop_pieces (Nat.lt_succ_self _)

theorem leadingConditional_words (ws : List Bytes) :
    (leadingConditional (ws.map tokenOf)).2 = (behindConditional ws).map tokenOf := by
  cases ws with
  | nil => rfl
  | cons w ws =>
      rw [behindConditional]
      split
      · next h => rcases h with rfl | rfl <;> rfl
      · next h =>
          obtain ⟨hand, hor⟩ := not_or.mp h
          rw [List.map_cons, tokenOf, tokenType]
          simp only [hand, hor, if_false]
          split
          · rfl
          · split
            · rfl
            · split <;> rfl

/-! ### The array of the tokens -/

theorem append_some {a : TokenArray} (h : 0 < a.capacity) (hle : a.items.length ≤ a.capacity)
    (t : Token) : ∃ a', a.append t = some a' ∧ a'.items = a.items ++ [t] ∧ 0 < a'.capacity ∧
      a'.items.length ≤ a'.capacity := by
  rw [TokenArray.append]
  split
  · next hfull =>
      have hlt : a.items.length < a.capacity * 2 := by omega
      simp only [hlt, if_true]
      exact ⟨_, rfl, rfl, by simp only; omega, by simp only [List.length_append]; simp; omega⟩
  · next hroom =>
      have hlt : a.items.length < a.capacity := by omega
      simp only [hlt, if_true]
      exact ⟨_, rfl, rfl, h, by simp only [List.length_append]; simp; omega⟩

theorem foldlM_append {a : TokenArray} (h : 0 < a.capacity) (hle : a.items.length ≤ a.capacity)
    (ts : List Token) :
    ∃ a', ts.foldlM TokenArray.append a = some a' ∧ a'.items = a.items ++ ts := by
  induction ts generalizing a with
  | nil => exact ⟨a, rfl, by rw [List.append_nil]⟩
  | cons t ts ih =>
      obtain ⟨a₁, h₁, hitems, hpos, hle₁⟩ := append_some h hle t
      obtain ⟨a', h', hitems'⟩ := ih hpos hle₁
      refine ⟨a', ?_, by rw [hitems', hitems, List.append_assoc, List.singleton_append]⟩
      rw [List.foldlM_cons, h₁]
      exact h'

/-- The array of the tokens has room for each of them. -/
theorem tokenizeArray_eq (line : Bytes) :
    ∃ a, tokenizeArray line = some a ∧ a.items = tokenize line :=
  foldlM_append (a := ⟨[], 100⟩) (by decide) (by decide) (tokenize line)

/-! ### The inner loop -/

/-- More arguments than the array has room for are written behind its end. -/
theorem parseSegment_overflow (hp : DerivesParts ts ps) (hle : seg.argc ≤ argvCapacity)
    (hn : argvCapacity < seg.argc + (args ps).length) (rest : List Token) :
    parseSegment seg (ts ++ rest) = .overflow := by
  induction hp generalizing seg with
  | nil => exact absurd hn (Nat.not_lt.mpr hle)
  | @cons ts ts' p ps part _ ih =>
      cases part with
      | arg v =>
          have hargs : args (.arg v :: ps) = v :: args ps := rfl
          rw [hargs, List.length_cons] at hn
          rw [List.append_assoc, List.singleton_append, parseSegment_word]
          split
          · next hlt =>
              exact ih (by simp only [JobSegment.pushArg]; omega)
                (by simp only [JobSegment.pushArg]; omega)
          · rfl
      | input u v => exact @ih { seg with inputFile := some v } hle hn
      | output u v => exact @ih { seg with outputFile := some v } hle hn

theorem parseSegment_overflow_iff (hle : seg.argc ≤ argvCapacity) :
    parseSegment seg tokens = .overflow ↔
      ∃ ts ps rest, tokens = ts ++ rest ∧ DerivesParts ts ps ∧
        argvCapacity < seg.argc + (args ps).length := by
  refine ⟨fun h => ?_, fun ⟨ts, ps, rest, e, hp, hn⟩ => e ▸ parseSegment_overflow hp hle hn rest⟩
  obtain ⟨ts, ps, rest, e, hps, ⟨hok, -⟩ | ⟨_, herr⟩ | ⟨-, hn⟩⟩ := parseSegment_reads seg tokens
  · rw [hok] at h
    cases h
  · rw [herr] at h
    cases h
  · exact ⟨ts, ps, rest, e, hps, hn⟩

/-! ### The outer loop -/

theorem argc_foldl_empty (ps : List Part) :
    (ps.foldl JobSegment.addPart .empty).argc = (args ps).length := by
  rw [foldl_addPart]
  exact Nat.zero_add _

/-- A segment that does not fit is the last one that is read. -/
theorem parseLoop_overflow (hp : DerivesParts ts ps) (hno : ¬ SegmentFits segments.length ps rest)
    (hn : (ts ++ rest).length ≤ n) : parseLoop n segments (ts ++ rest) = .overflow := by
  have hargs : args ps ≠ [] := fun hnil =>
    hno ⟨by rw [hnil]; exact Nat.zero_le _, fun _ h => absurd hnil h⟩
  have hseg : DerivesSeg ts ps := ⟨hp, hargs⟩
  have hne : (ts ++ rest).isEmpty = false := by simp [hseg.ne_nil]
  cases n with
  | zero =>
      have hnil := List.eq_nil_of_length_eq_zero (Nat.le_zero.mp hn)
      rw [hnil] at hne
      cases hne
  | succ n =>
      rw [parseLoop, hne, if_neg Bool.false_ne_true]
      by_cases hle : (args ps).length ≤ argvCapacity
      · -- the segment is read, and there is no room for its end or in the job
        have hstored : AtPipe rest ∧
            ¬((args ps).length < argvCapacity ∧ segments.length < segmentCapacity) := by
          by_contra h
          exact hno ⟨hle, fun hat _ => by_contra fun hlt => h ⟨hat, hlt⟩⟩
        have hzero : (args ps).length ≠ 0 := fun h => hargs (List.eq_nil_of_length_eq_zero h)
        rw [parseSegment_complete hp hstored.1 (by simp only [JobSegment.empty]; omega)]
        simp only [argc_foldl_empty, hzero, if_false, hstored.2]
      · rw [parseSegment_overflow hp (Nat.zero_le _) (by simp only [JobSegment.empty]; omega)]

/-- The segments in front of one that does not fit are stored, unless one of them does not fit
either. -/
theorem parseLoop_overflow_of_stages {before : List Token} {k : ℕ} (hb : DerivesStages before k)
    (hp : DerivesParts ts ps) (hno : ¬ SegmentFits (segments.length + k) ps rest)
    (hn : (before ++ (ts ++ rest)).length ≤ n) :
    parseLoop n segments (before ++ (ts ++ rest)) = .overflow := by
  induction hb generalizing segments n with
  | nil =>
      rw [List.nil_append] at hn ⊢
      exact parseLoop_overflow hp hno hn
  | @cons ts₁ ts' u ps₁ k seg _ ih =>
      rw [List.append_assoc, List.cons_append] at hn ⊢
      have hat : AtPipe (⟨.pipe, u⟩ :: (ts' ++ (ts ++ rest))) := .inr ⟨u, _, rfl⟩
      by_cases hfit : (args ps₁).length < argvCapacity ∧ segments.length < segmentCapacity
      · cases n with
        | zero => simp at hn
        | succ n =>
            rw [parseLoop_turn seg hat hfit.1 hfit.2, skipPipe_pipe]
            rw [List.length_append, List.length_cons] at hn
            refine ih ?_ (by omega)
            rw [List.length_append, List.length_singleton, Nat.add_assoc, Nat.add_comm 1]
            exact hno
      · exact parseLoop_overflow seg.parts (fun h => hfit (h.2 hat seg.hasArg)) hn

theorem exists_of_parseLoop_overflow (hn : tokens.length ≤ n)
    (h : parseLoop n segments tokens = .overflow) :
    ∃ before ts ps rest k, tokens = before ++ (ts ++ rest) ∧ DerivesStages before k ∧
      DerivesParts ts ps ∧ ¬ SegmentFits (segments.length + k) ps rest := by
  induction n generalizing segments tokens with
  | zero => cases h
  | succ n ih =>
      rw [parseLoop] at h
      split at h
      · cases h
      · split at h
        · cases h
        · next hover =>
            obtain ⟨ts, ps, rest, e, hps, hlt⟩ :=
              (parseSegment_overflow_iff (Nat.zero_le _)).mp hover
            rw [show JobSegment.empty.argc = 0 from rfl, Nat.zero_add] at hlt
            exact ⟨[], ts, ps, rest, 0, e, .nil, hps, fun hfit =>
              absurd hfit.1 (Nat.not_le.mpr hlt)⟩
        · next seg rest hseg =>
            obtain ⟨ts, ps, rfl, hps, rfl, hrest⟩ := parseSegment_sound hseg
            rw [argc_foldl_empty] at h
            split at h
            · cases h
            · next hzero =>
                have hargs : args ps ≠ [] := fun hnil => hzero (by rw [hnil]; rfl)
                split at h
                · rcases hrest with rfl | ⟨u, rest', rfl⟩
                  · rw [skipPipe_nil, parseLoop_nil] at h
                    cases h
                  · rw [skipPipe_pipe] at h
                    rw [List.length_append, List.length_cons] at hn
                    obtain ⟨before, ts₂, ps₂, rest₂, k, rfl, hb, hp, hno⟩ := ih (by omega) h
                    rw [List.length_append, List.length_singleton, Nat.add_assoc,
                      Nat.add_comm 1] at hno
                    exact ⟨_, ts₂, ps₂, rest₂, k + 1,
                      by rw [List.append_assoc, List.cons_append], .cons ⟨hps, hargs⟩ hb, hp, hno⟩
                · next hroom =>
                    exact ⟨[], ts, ps, rest, 0, rfl, .nil, hps, fun hfit =>
                      hroom (hfit.2 hrest hargs)⟩

/-- The outer loop writes behind the end of an array exactly when the tokens do not fit. -/
theorem parseLoop_overflow_iff (tokens : List Token) :
    parseLoop tokens.length [] tokens = .overflow ↔ ¬ FitsArrays tokens := by
  constructor
  · intro h hfit
    obtain ⟨before, ts, ps, rest, k, e, hb, hp, hno⟩ :=
      exists_of_parseLoop_overflow (Nat.le_refl _) h
    rw [List.length_nil, Nat.zero_add] at hno
    exact hno (hfit before ts ps rest k e hb hp)
  · intro hno
    by_contra hover
    refine hno fun before ts ps rest k e hb hp => ?_
    by_contra hfit
    subst e
    exact hover (parseLoop_overflow_of_stages hb hp
      (by rwa [List.length_nil, Nat.zero_add]) (Nat.le_refl _))

/-! ### Both arrays -/

theorem parseJob_overflow_iff (tokens : List Token) :
    (parseJob tokens).job = .overflow ↔
      parseLoop (leadingConditional tokens).2.length [] (leadingConditional tokens).2 =
        .overflow := by
  rw [parseJob]
  simp only
  split <;> next h => simp [h]

/-- `parse_job` writes behind the end of an array exactly when the words of the line do not fit. -/
theorem parseJob_overflow_line (line : Bytes) :
    (parseJob (tokenize line)).job = .overflow ↔ ¬ LineFits line := by
  rw [parseJob_overflow_iff, parseLoop_overflow_iff, tokenize_words, leadingConditional_words,
    LineFits]

/-- Every write of `tokenize` and `parse_job` is inside its array exactly when, among the words of
the line, no segment that is read has more than 99 arguments, or 100 when a syntax error breaks it
off, and the segments that are stored are at most 50. -/
theorem array_bounds_iff (line : Bytes) :
    InBounds line ↔ FitsArrays ((behindConditional (words line)).map tokenOf) := by
  obtain ⟨a, ha, -⟩ := tokenizeArray_eq line
  have hsome : (tokenizeArray line).isSome = true := by rw [ha]; rfl
  rw [InBounds, and_iff_right hsome, Ne, parseJob_overflow_line, not_not, LineFits]

/-- A line of a hundred words: the NULL behind them is written behind the end of the array. -/
theorem array_bounds_exceeded :
    ∃ line, (readCommand (bytes (List.replicate 100 [97, 32]).flatten)).line = some line ∧
      ¬ InBounds line := by
  have hread := readCommand_last (t := (List.replicate 100 [97, 32]).flatten)
    (by decide +kernel) (by decide +kernel) (by decide +kernel) (by decide +kernel)
  exact ⟨_, by rw [hread], by decide +kernel⟩

end CS214.Shell
