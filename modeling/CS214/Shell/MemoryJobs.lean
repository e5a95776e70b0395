import CS214.Shell.Grammar
import CS214.Shell.MemoryTokens

/-!
# Shell — the memory of a job

An `Entry` is a segment of a job with the tokens its pointers lead to: `pointers` is the segment in
memory, and `value` the segment as `Shell.parseJob` has it.  `jobAt` are the objects of a job.

* `freeJob_meets`: `free_job` releases exactly these objects.
* `parseJob_meets`: beside the tokens, which it keeps, `parse_job` leaves the job that
  `Shell.parseJob` has for them, with pointers to their values, or nothing.
* `readJob_meets`: what the pointers of the job lead to is this job.
-/

open CString ObjectHeap

namespace CS214.Shell.Memory

/-- A segment: where its `argv` is, and the tokens of its arguments and files. -/
structure Entry where
  argv : Addr
  args : List Val
  input : Option Val
  output : Option Val

namespace Entry

/-- The segment in memory. -/
def pointers (e : Entry) : JobSegment :=
  ⟨e.argv, e.args.length, e.input.map Prod.fst, e.output.map Prod.fst⟩

/-- The pointers of `argv`, before the terminating `NULL`. -/
def ptrs (e : Entry) : List (Option Addr) := e.args.map fun v => some v.1

/-- The segment of the model. -/
def value (e : Entry) : Shell.JobSegment :=
  ⟨e.args.map fun v => some v.2.value, e.args.length, e.input.map fun v => v.2.value,
    e.output.map fun v => v.2.value⟩

/-- All pointers lead to tokens of `vs`. -/
structure From (vs : List Val) (e : Entry) : Prop where
  args : ∀ v ∈ e.args, v ∈ vs
  input : ∀ v ∈ e.input, v ∈ vs
  output : ∀ v ∈ e.output, v ∈ vs

/-- A finished segment of a job. -/
structure Done (vs : List Val) (e : Entry) : Prop extends From vs e where
  nonempty : e.args ≠ []

end Entry

/-- What the inner loop leaves: a segment, or, behind a message, nothing but `T`. -/
inductive SegmentParsed (vs : List Val) (J T : Objects) (argv : Addr)
    (r : Parsed (Shell.JobSegment × List Token)) :
    Except Bytes (JobSegment × ℕ) → Objects → Prop where
  | error {text : Bytes} (h : r = .error text) : SegmentParsed vs J T argv r (.error text) T
  | ok {e : Entry} {i : ℕ} (hargv : e.argv = argv) (points : e.From vs)
      (h : r = .ok (e.value, (vs.map Prod.snd).drop i)) :
      SegmentParsed vs J T argv r (.ok (e.pointers, i)) (obj argv (.argv e.ptrs) + (J + T))

/-- `segment` as it is stored. -/
def Entry.stored (e : Entry) : Shell.JobSegment := e.value.terminate

/-- What `parse_job` makes of the segments its loop has read. -/
def finished : Parsed (List Shell.JobSegment) → Parsed Shell.Job
  | .ok [] => .error (ascii "Syntax error: no command\n")
  | .ok segs => .ok ⟨segs⟩
  | .error e => .error e
  | .overflow => .overflow

/-- The `argv` of finished segments. -/
def argvs (es : List Entry) : Objects :=
  (es.map fun e => (e.argv, Obj.argv (e.ptrs ++ [none])) : List _)

/-- The job and its array of segments. -/
def segmentsAt (job segments : Addr) (es : List Entry) : Objects :=
  obj job (.job ⟨some segments, es.length⟩) + obj segments (.segments (es.map Entry.pointers))

/-- All objects of a job. -/
def jobAt (job segments : Addr) (es : List Entry) : Objects :=
  argvs es + segmentsAt job segments es

/-- The message of a failed allocation. -/
def outOfMemory : Bytes := ascii "malloc" ++ ascii ": Cannot allocate memory\n"

/-- What `parse_job` leaves beside the tokens `T`, when `Shell.parseJob` gives `r`. -/
inductive JobParsed (fails : Prop) (vs : List Val) (T : Objects) (r : Parsed Shell.Job) :
    Except Bytes Addr → Objects → Prop where
  | error {text : Bytes} (h : r = .error text ∨ fails ∧ text = outOfMemory) :
      JobParsed fails vs T r (.error text) T
  | ok {job segments : Addr} {es : List Entry} (nonempty : es ≠ []) (done : ∀ e ∈ es, e.Done vs)
      (h : r = .ok ⟨es.map Entry.stored⟩) :
      JobParsed fails vs T r (.ok job) (jobAt job segments es + T)

variable {fails : Prop} {β : Type} {m T : Objects} {P : β → Objects → Prop}
  {t items job segments argv : Addr} {capacity room i n : ℕ} {v : Val} {vs : List Val}
  {e e' : Entry} {es es' : List Entry} {text : Bytes}

theorem argvs_cons : argvs (e :: es) = obj e.argv (.argv (e.ptrs ++ [none])) + argvs es := rfl

theorem mem_argvs (h : e ∈ es) : (e.argv, Obj.argv (e.ptrs ++ [none])) ∈ argvs es :=
  List.mem_map_of_mem (f := fun e : Entry => (e.argv, Obj.argv (e.ptrs ++ [none]))) h

theorem argvs_concat : argvs (es ++ [e]) = obj e.argv (.argv (e.ptrs ++ [none])) + argvs es := by
  rw [argvs, List.map_append, ← Multiset.coe_add, add_comm]
  rfl

/-! ### `free_job` -/

theorem segmentsAt_get (h : segmentsAt job segments es ≤ m) :
    (job, Obj.job ⟨some segments, es.length⟩) ∈ m :=
  mem_of_obj_le h

theorem segmentsAt_segments (h : segmentsAt job segments es ≤ m) :
    (segments, Obj.segments (es.map Entry.pointers)) ∈ m :=
  mem_of_le_obj h

theorem meets_job {k : Job → MemM β} (h : segmentsAt job segments es ≤ m)
    (hk : Meets fails m (k ⟨some segments, es.length⟩) P) :
    Meets fails m (view Obj.job? job >>= k) P :=
  meets_view (segmentsAt_get h) rfl hk

theorem meets_segmentAt {k : JobSegment → MemM β} (h : segmentsAt job segments es ≤ m)
    (he : es[i]? = some e) (hk : Meets fails m (k e.pointers) P) :
    Meets fails m (segmentAt ⟨some segments, n⟩ i >>= k) P := by
  rw [segmentAt, Program.bind_assoc]
  refine meets_deref ?_
  rw [Program.bind_assoc]
  refine meets_view (segmentsAt_segments h) rfl ?_
  rw [List.getElem?_map, he]
  exact hk

/-- The first of the arrays are already released. -/
theorem freeArgvs_meets (before rest : List Entry) :
    Meets fails (argvs rest + segmentsAt job segments (before ++ rest))
      (freeArgvs job before.length rest.length) fun _ m =>
        m = segmentsAt job segments (before ++ rest) := by
  induction rest generalizing before with
  | nil => exact meets_ret (zero_add _)
  | cons e rest ih =>
      have hle := Multiset.le_add_left (segmentsAt job segments (before ++ e :: rest))
        (argvs (e :: rest))
      have hget : (before ++ e :: rest)[before.length]? = some e := by simp
      rw [List.length_cons, freeArgvs]
      refine meets_job hle (meets_segmentAt hle hget ?_)
      rw [argvs_cons, add_assoc]
      refine meets_free ?_
      have hrest := ih (before ++ [e])
      rwa [List.append_assoc, List.singleton_append, List.length_append] at hrest

theorem freeJob_meets : Meets fails (jobAt job segments es) (freeJob (some job))
    fun _ m => m = 0 := by
  rw [freeJob]
  refine meets_job (Multiset.le_add_left _ _) ?_
  refine (freeArgvs_meets [] es).bind fun _ m hm => ?_
  obtain rfl := hm
  rw [List.nil_append, segmentsAt, add_comm]
  refine meets_free ?_
  rw [← add_zero (obj job _), ← Program.bind_ret (free job)]
  exact meets_free (meets_ret rfl)

theorem giveUp_meets {ptrs : List (Option Addr)} {Q : Except Bytes β → Objects → Prop}
    (h : Q (.error text) T) :
    Meets fails (obj argv (.argv ptrs) + (jobAt job segments es + T)) (giveUp text argv job) Q := by
  rw [giveUp]
  exact meets_sys fun _ => meets_free (freeJob_meets.release fun _ => meets_ret h)

/-! ### The segments -/

theorem drop_tokens {k : ℕ} (h : vs[k]? = some v) :
    (vs.map Prod.snd).drop k = v.2 :: (vs.map Prod.snd).drop (k + 1) := by
  obtain ⟨hk, rfl⟩ := List.getElem?_eq_some_iff.mp h
  rw [List.drop_eq_getElem_cons (by rwa [List.length_map]), List.getElem_map]

theorem drop_tokens_nil {k : ℕ} (h : vs[k]? = none) : (vs.map Prod.snd).drop k = [] :=
  List.drop_eq_nil_of_le (by rw [List.length_map]; exact List.getElem?_eq_none_iff.mp h)

namespace Entry

/-- Behind an argument. -/
def pushArg (e : Entry) (v : Val) : Entry := { e with args := e.args ++ [v] }

theorem pushArg_ptrs (e : Entry) (v : Val) : (e.pushArg v).ptrs = e.ptrs ++ [some v.1] :=
  List.map_append

theorem pushArg_pointers (e : Entry) (v : Val) :
    (e.pushArg v).pointers = { e.pointers with argc := e.pointers.argc + 1 } := by
  rw [pointers, pushArg, List.length_append]
  rfl

theorem pushArg_value (e : Entry) (v : Val) :
    (e.pushArg v).value = e.value.pushArg v.2.value := by
  rw [value, pushArg, List.length_append, List.map_append]
  rfl

end Entry

theorem Entry.From.arg (h : e.From vs) (hv : v ∈ vs) : (e.pushArg v).From vs where
  args w hw := (List.mem_append.mp hw).elim (h.args w) fun hw => by
    rwa [List.mem_singleton.mp hw]
  input := h.input
  output := h.output

theorem Entry.From.setInput (h : e.From vs) (hv : v ∈ vs) :
    Entry.From vs { e with input := some v } where
  args := h.args
  input _ hw := Option.mem_some_iff.mp hw ▸ hv
  output := h.output

theorem Entry.From.setOutput (h : e.From vs) (hv : v ∈ vs) :
    Entry.From vs { e with output := some v } where
  args := h.args
  input := h.input
  output _ hw := Option.mem_some_iff.mp hw ▸ hv

/-- The word that the tokens start with. -/
def leadingWord : List Token → Option (Bytes × List Token)
  | ⟨.word, w⟩ :: rest => some (w, rest)
  | _ => none

theorem parseSegment_redirectIn {seg : Shell.JobSegment} {u : Bytes} (rest : List Token) :
    Shell.parseSegment seg (⟨.redirectIn, u⟩ :: rest) =
      match leadingWord rest with
      | some (w, rest) => Shell.parseSegment { seg with inputFile := some w } rest
      | none => .error (ascii "Syntax error: < requires filename\n") := by
  rcases rest with - | ⟨⟨ty, w⟩, rest⟩
  · rfl
  · cases ty <;> rfl

theorem parseSegment_redirectOut {seg : Shell.JobSegment} {u : Bytes} (rest : List Token) :
    Shell.parseSegment seg (⟨.redirectOut, u⟩ :: rest) =
      match leadingWord rest with
      | some (w, rest) => Shell.parseSegment { seg with outputFile := some w } rest
      | none => .error (ascii "Syntax error: > requires filename\n") := by
  rcases rest with - | ⟨⟨ty, w⟩, rest⟩
  · rfl
  · cases ty <;> rfl

theorem meets_wordAt {k : Option Addr → MemM β} (h : arrayAt t items capacity room vs ≤ m)
    (hword : ∀ v ∈ vs, leadingWord ((vs.map Prod.snd).drop i) =
      some (v.2.value, (vs.map Prod.snd).drop (i + 1)) → Meets fails m (k (some v.1)) P)
    (hnone : leadingWord ((vs.map Prod.snd).drop i) = none → Meets fails m (k none) P) :
    Meets fails m (wordAt t i >>= k) P := by
  rw [wordAt, Program.bind_assoc]
  refine meets_tokenAt h ?_
  cases hv : vs[i]? with
  | none => exact hnone (by rw [drop_tokens_nil hv]; rfl)
  | some v =>
      have hmem := List.mem_of_getElem? hv
      rw [drop_tokens hv] at hword hnone
      obtain ⟨a, ty, w⟩ := v
      cases ty with
      | word => exact hword _ hmem rfl
      | _ => exact hnone rfl

theorem parseSegment_meets (he : e.From vs) (hn : vs.length ≤ i + n) :
    Meets fails
      (obj e.argv (.argv e.ptrs) + (jobAt job segments es + tokensAt t items capacity room vs))
      (parseSegment t job n e.pointers i)
      (SegmentParsed vs (jobAt job segments es) (tokensAt t items capacity room vs) e.argv
        (Shell.parseSegment e.value ((vs.map Prod.snd).drop i))) := by
  have hle : ∀ {o : Objects}, arrayAt t items capacity room vs ≤
      o + (jobAt job segments es + tokensAt t items capacity room vs) := fun {o} =>
    (Multiset.le_add_left _ (strings vs)).trans
      ((Multiset.le_add_left _ _).trans (Multiset.le_add_left _ _))
  induction n generalizing e i with
  | zero =>
      refine meets_ret (.ok rfl he ?_)
      rw [List.drop_eq_nil_of_le (by rwa [List.length_map]), Shell.parseSegment]
  | succ n ih =>
      rw [parseSegment]
      refine meets_tokenAt hle ?_
      cases hv : vs[i]? with
      | none =>
          refine meets_ret (.ok rfl he ?_)
          rw [drop_tokens_nil hv, Shell.parseSegment]
      | some v =>
          have hmem := List.mem_of_getElem? hv
          have hdrop := drop_tokens hv
          obtain ⟨a, ty, w⟩ := v
          rw [hdrop]
          cases ty with
          | pipe =>
              refine meets_ret (.ok rfl he ?_)
              rw [hdrop]
              rfl
          | word =>
              rw [parseSegment_word]
              change Meets fails _ (if e.args.length < argvCapacity then _ else _) _
              by_cases hroom : e.args.length < argvCapacity
              · have hrest := ih (i := i + 1) (he.arg hmem) (by omega)
                rw [e.pushArg_ptrs, e.pushArg_pointers, e.pushArg_value] at hrest
                rw [if_pos hroom]
                refine meets_view_obj rfl (meets_store ?_)
                rwa [if_pos (show e.value.argc < argvCapacity from hroom)]
              · rw [if_neg hroom]
                exact meets_overflow
          | redirectIn =>
              rw [parseSegment_redirectIn]
              refine meets_wordAt hle (fun v hv' hlead => ?_) fun hlead => ?_
              · rw [hlead]
                exact ih (he.setInput hv') (by omega)
              · rw [hlead]
                exact giveUp_meets (.error rfl)
          | redirectOut =>
              rw [parseSegment_redirectOut]
              refine meets_wordAt hle (fun v hv' hlead => ?_) fun hlead => ?_
              · rw [hlead]
                exact ih (he.setOutput hv') (by omega)
              · rw [hlead]
                exact giveUp_meets (.error rfl)
          | and | or | eof => exact giveUp_meets (.error rfl)

/-- A segment with an argument uses up a token. -/
theorem parseSegment_shorter {toks rest : List Token} {seg : Shell.JobSegment}
    (h : Shell.parseSegment .empty toks = .ok (seg, rest)) (hargc : seg.argc ≠ 0) :
    rest.length < toks.length := by
  obtain ⟨ts, ps, rfl, hps, rfl, -⟩ := parseSegment_sound h
  have hargs : args ps ≠ [] := by
    intro hnil
    rw [foldl_addPart, hnil] at hargc
    exact hargc rfl
  have hpos := List.length_pos_iff.mpr (DerivesSeg.ne_nil ⟨hps, hargs⟩)
  rw [List.length_append]
  omega

/-! ### The loop over the segments -/

theorem finishJob_meets (hdone : ∀ e ∈ es, e.Done vs) :
    Meets fails (jobAt job segments es + T) (finishJob job)
      (JobParsed fails vs T (finished (.ok (es.map Entry.stored)))) := by
  rw [finishJob]
  refine meets_job ((Multiset.le_add_left _ (argvs es)).trans (Multiset.le_add_right _ _)) ?_
  cases es with
  | nil =>
      refine meets_sys fun _ => ?_
      rw [jobAt, segmentsAt, show argvs [] = 0 from rfl, zero_add, add_assoc, add_left_comm]
      exact meets_free (meets_free (meets_ret (.error (.inl rfl))))
  | cons e es => exact meets_ret (.ok (List.cons_ne_nil _ _) hdone rfl)

/-- The segment is stored, unless an array is full. -/
theorem pushSegment_meets : Meets fails (obj e.argv (.argv e.ptrs) + jobAt job segments es)
    (pushSegment job e.pointers) fun _ m => m = jobAt job segments (es ++ [e]) ∧
      e.args.length < argvCapacity ∧ es.length < segmentCapacity := by
  rw [pushSegment]
  change Meets fails _ (if e.args.length < argvCapacity then _ else _) _
  by_cases hargs : e.args.length < argvCapacity
  · rw [if_pos hargs]
    refine meets_view_obj rfl (meets_store ?_)
    have hle : segmentsAt job segments es ≤
        obj e.argv (.argv (e.ptrs ++ [none])) + jobAt job segments es :=
      (Multiset.le_add_left _ (argvs es)).trans (Multiset.le_add_left _ _)
    refine meets_job hle ?_
    change Meets fails _ (if es.length < segmentCapacity then _ else _) _
    by_cases hsegs : es.length < segmentCapacity
    · have hin : obj e.argv (.argv (e.ptrs ++ [none])) + jobAt job segments es =
          obj segments (.segments (es.map Entry.pointers)) +
            (obj job (.job ⟨some segments, es.length⟩) + argvs (es ++ [e])) := by
        rw [argvs_concat, jobAt, segmentsAt]
        ac_rfl
      have hout : obj job (.job ⟨some segments, es.length + 1⟩) +
          (obj segments (.segments (es.map Entry.pointers ++ [e.pointers])) + argvs (es ++ [e])) =
          jobAt job segments (es ++ [e]) := by
        rw [jobAt, segmentsAt, List.length_append, List.map_append]
        simp only [List.length_singleton, List.map_singleton]
        ac_rfl
      rw [if_pos hsegs, hin]
      refine meets_deref (meets_view_obj rfl (meets_store ?_))
      rw [add_left_comm]
      exact meets_store_ret ⟨hout, hargs, hsegs⟩
    · rw [if_neg hsegs]
      exact meets_overflow
  · rw [if_neg hargs]
    exact meets_overflow

theorem meets_skipPipe {k : ℕ → MemM β} (h : arrayAt t items capacity room vs ≤ m)
    (hk : ∀ j, i ≤ j → (vs.map Prod.snd).drop j = Shell.skipPipe ((vs.map Prod.snd).drop i) →
      Meets fails m (k j) P) : Meets fails m (skipPipe t i >>= k) P := by
  rw [skipPipe, Program.bind_assoc]
  refine meets_tokenAt h ?_
  cases hv : vs[i]? with
  | none =>
      refine hk i le_rfl ?_
      rw [drop_tokens_nil hv]
      rfl
  | some v =>
      have hdrop := drop_tokens hv
      obtain ⟨a, ty, w⟩ := v
      cases ty with
      | pipe =>
          refine hk (i + 1) (Nat.le_succ i) ?_
          rw [hdrop]
          rfl
      | _ =>
          refine hk i le_rfl ?_
          rw [hdrop]
          rfl

theorem parseLoop_meets (hdone : ∀ e ∈ es, e.Done vs) (hn : vs.length ≤ i + n) :
    Meets fails (jobAt job segments es + tokensAt t items capacity room vs) (parseLoop t job n i)
      (JobParsed fails vs (tokensAt t items capacity room vs)
        (finished (Shell.parseLoop n (es.map Entry.stored) ((vs.map Prod.snd).drop i)))) := by
  have hle : ∀ {o : Objects}, arrayAt t items capacity room vs ≤
      o + tokensAt t items capacity room vs := fun {o} =>
    (Multiset.le_add_left _ (strings vs)).trans (Multiset.le_add_left _ _)
  induction n generalizing es i with
  | zero => exact finishJob_meets hdone
  | succ n ih =>
      rw [parseLoop]
      refine meets_tokenAt hle ?_
      cases hv : vs[i]? with
      | none =>
          rw [drop_tokens_nil hv, parseLoop_nil]
          exact finishJob_meets hdone
      | some v =>
          have hne : ((vs.map Prod.snd).drop i).isEmpty = false := by rw [drop_tokens hv]; rfl
          rw [Shell.parseLoop, if_neg (by rw [hne]; exact Bool.false_ne_true)]
          refine meets_malloc (fun hf => ?_) fun a => ?_
          · exact meets_noMemory (freeJob_meets.release fun _ =>
              meets_ret (.error (.inr ⟨hf, rfl⟩)))
          refine meets_array (hle.trans (Multiset.le_add_left _ _)) ?_
          refine (parseSegment_meets (e := ⟨a, [], none, none⟩) ⟨by simp, by simp, by simp⟩
            (Nat.le_add_left _ _)).bind fun r m hm => ?_
          cases hm with
          | error h =>
              refine meets_ret (.error (.inl ?_))
              rw [show Shell.parseSegment .empty _ = _ from h]
              rfl
          | @ok e j hargv points h =>
              rw [show Shell.parseSegment .empty _ = _ from h]
              obtain rfl : e.argv = a := hargv
              change Meets fails _ (if e.args.length = 0 then _ else _) _
              dsimp only
              by_cases hzero : e.args.length = 0
              · rw [if_pos hzero, if_pos (show e.value.argc = 0 from hzero)]
                exact giveUp_meets (.error (.inl rfl))
              · have hshort := parseSegment_shorter h hzero
                rw [List.length_drop, List.length_drop, List.length_map] at hshort
                rw [if_neg hzero, if_neg (show ¬ e.value.argc = 0 from hzero), ← add_assoc]
                refine pushSegment_meets.bind_frame fun _ m hm => ?_
                obtain ⟨rfl, hargs, hsegs⟩ := hm
                refine meets_skipPipe hle fun k hk hskip => ?_
                have hroom : e.value.argc < argvCapacity ∧
                    (es.map Entry.stored).length < segmentCapacity :=
                  ⟨hargs, by rwa [List.length_map]⟩
                have hall : ∀ f ∈ es ++ [e], f.Done vs := fun f hf =>
                  (List.mem_append.mp hf).elim (hdone f) fun hf => by
                    rw [List.mem_singleton.mp hf]
                    exact ⟨points, mt (fun h => by rw [h]; rfl) hzero⟩
                have hrest := ih (i := k) hall (by omega)
                rw [hskip, List.map_append] at hrest
                rwa [if_pos hroom]

/-! ### `parse_job` -/

theorem parseJob_job (toks : List Token) :
    (Shell.parseJob toks).job = finished (Shell.parseLoop (leadingConditional toks).2.length []
      (leadingConditional toks).2) := by
  simp only [Shell.parseJob]
  split <;> next h => simp only [h, finished]

/-- The loop, from the first token behind the conditional on. -/
theorem parseTokens_meets {c : ℕ} (hlead : leadingConditional (vs.map Prod.snd) =
      (c, (vs.map Prod.snd).drop i)) :
    Meets fails (jobAt job segments [] + tokensAt t items capacity room vs)
      (parseLoop t job (vs.length - i) i >>= fun r => return (r, c)) fun r m =>
        JobParsed fails vs (tokensAt t items capacity room vs)
          (Shell.parseJob (vs.map Prod.snd)).job r.1 m ∧
        (r.1.isOk = true → r.2 = (Shell.parseJob (vs.map Prod.snd)).conditionalType) := by
  refine (parseLoop_meets (by simp) (by omega)).bind fun r m hm => meets_ret ⟨?_, fun _ => ?_⟩
  · rw [parseJob_job, hlead, List.length_drop, List.length_map]
    exact hm
  · rw [parseJob_conditionalType, hlead]

/-- **`parse_job`** keeps the tokens, and returns the job they stand for or `NULL`. -/
theorem parseJob_meets : Meets fails (tokensAt t items capacity room vs) (parseJob t) fun r m =>
    JobParsed fails vs (tokensAt t items capacity room vs)
      (Shell.parseJob (vs.map Prod.snd)).job r.1 m ∧
    (r.1.isOk = true → r.2 = (Shell.parseJob (vs.map Prod.snd)).conditionalType) := by
  rw [parseJob]
  refine meets_malloc (fun hf => ?_) fun job => ?_
  · exact meets_noMemory (meets_ret ⟨.error (.inr ⟨hf, rfl⟩), fun h => nomatch h⟩)
  refine meets_malloc (fun hf => ?_) fun segments => ?_
  · refine meets_store (meets_noMemory (meets_free ?_))
    exact meets_ret ⟨.error (.inr ⟨hf, rfl⟩), fun h => nomatch h⟩
  rw [add_left_comm]
  refine meets_store ?_
  have hjob : obj job (.job ⟨some segments, 0⟩) +
      (obj segments (.segments []) + tokensAt t items capacity room vs) =
      jobAt job segments [] + tokensAt t items capacity room vs := by
    rw [jobAt, segmentsAt, show argvs [] = 0 from rfl, zero_add, add_assoc]
    rfl
  rw [hjob]
  have hle : arrayAt t items capacity room vs ≤
      jobAt job segments [] + tokensAt t items capacity room vs :=
    (Multiset.le_add_left _ (strings vs)).trans (Multiset.le_add_left _ _)
  refine meets_array hle (meets_tokenAt hle ?_)
  rcases vs with - | ⟨⟨a, ty, w⟩, vs⟩
  · exact parseTokens_meets (i := 0) rfl
  · cases ty with
    | and | or => exact parseTokens_meets (i := 1) rfl
    | _ => exact parseTokens_meets (i := 0) rfl

/-! ### What the pointers lead to -/

theorem meets_readString {p : Option Val} {k : Option Bytes → MemM β} (hle : strings vs ≤ m)
    (hp : ∀ v ∈ p, v ∈ vs) (hk : Meets fails m (k (p.map fun v => v.2.value)) P) :
    Meets fails m (readString (p.map Prod.fst) >>= k) P := by
  cases p with
  | none => exact hk
  | some v =>
      have hmem := Multiset.mem_of_le hle (mem_strings (hp v rfl))
      exact meets_view hmem rfl hk

theorem meets_readArgs {ps : List (Option Val)} {k : List (Option Bytes) → MemM β}
    (hle : strings vs ≤ m) (hp : ∀ p ∈ ps, ∀ v ∈ p, v ∈ vs)
    (hk : Meets fails m (k (ps.map (Option.map fun v => v.2.value))) P) :
    Meets fails m (readArgs (ps.map (Option.map Prod.fst)) >>= k) P := by
  induction ps generalizing k with
  | nil => exact hk
  | cons p ps ih =>
      rw [List.map_cons, readArgs, Program.bind_assoc]
      refine meets_readString hle (hp p List.mem_cons_self) ?_
      rw [Program.bind_assoc]
      exact ih (fun q hq => hp q (List.mem_cons_of_mem _ hq)) hk

/-- The arguments with the `NULL` behind them. -/
def Entry.slots (e : Entry) : List (Option Val) := e.args.map some ++ [none]

theorem Entry.slots_ptrs (e : Entry) : e.slots.map (Option.map Prod.fst) = e.ptrs ++ [none] := by
  simp [slots, ptrs]

theorem Entry.slots_stored (e : Entry) :
    e.slots.map (Option.map fun v => v.2.value) = e.stored.argv := by
  simp [slots, stored, value, JobSegment.terminate]

theorem meets_readSegments {k : List Shell.JobSegment → MemM β} (hle : strings vs ≤ m)
    (hargvs : argvs es ≤ m) (hdone : ∀ e ∈ es, e.Done vs)
    (hk : Meets fails m (k (es.map Entry.stored)) P) :
    Meets fails m (readSegments (es.map Entry.pointers) >>= k) P := by
  induction es generalizing k with
  | nil => exact hk
  | cons e es ih =>
      have he := hdone e List.mem_cons_self
      have hargv : (e.argv, Obj.argv (e.ptrs ++ [none])) ∈ m :=
        Multiset.mem_of_le hargvs (mem_argvs List.mem_cons_self)
      rw [argvs_cons] at hargvs
      rw [List.map_cons, readSegments, Program.bind_assoc]
      refine meets_view hargv rfl ?_
      rw [Program.bind_assoc, ← e.slots_ptrs]
      refine meets_readArgs hle (fun p hp v hv => ?_) ?_
      · rcases List.mem_append.mp hp with hp | hp
        · obtain ⟨w, hw, rfl⟩ := List.mem_map.mp hp
          obtain rfl := Option.mem_some_iff.mp hv
          exact he.args w hw
        · rw [List.mem_singleton.mp hp] at hv
          cases hv
      rw [Program.bind_assoc, e.slots_stored]
      refine meets_readString hle he.input ?_
      rw [Program.bind_assoc]
      refine meets_readString hle he.output ?_
      rw [Program.bind_assoc]
      exact ih ((Multiset.le_add_left _ _).trans hargvs)
        (fun f hf => hdone f (List.mem_cons_of_mem _ hf)) hk

/-- The job and the tokens are allocated. -/
structure Holds (vs : List Val) (job segments : Addr) (es : List Entry) (m : Objects) : Prop where
  strings : strings vs ≤ m
  argvs : argvs es ≤ m
  segments : segmentsAt job segments es ≤ m
  done : ∀ e ∈ es, e.Done vs

theorem holds_job (hdone : ∀ e ∈ es, e.Done vs) :
    Holds vs job segments es (jobAt job segments es + tokensAt t items capacity room vs + T) where
  strings := (Multiset.le_add_right _ _).trans
    ((Multiset.le_add_left _ _).trans (Multiset.le_add_right _ _))
  argvs := (Multiset.le_add_right _ _).trans
    ((Multiset.le_add_right _ _).trans (Multiset.le_add_right _ _))
  segments := (Multiset.le_add_left _ _).trans
    ((Multiset.le_add_right _ _).trans (Multiset.le_add_right _ _))
  done := hdone

/-- What the pointers of the job lead to is the job that was parsed. -/
theorem meets_readJob {k : Shell.Job → MemM β} (h : Holds vs job segments es m)
    (hk : Meets fails m (k ⟨es.map Entry.stored⟩) P) : Meets fails m (readJob job >>= k) P := by
  rw [readJob, Program.bind_assoc]
  refine meets_job h.segments ?_
  rw [Program.bind_assoc]
  refine meets_deref ?_
  rw [Program.bind_assoc]
  refine meets_view (segmentsAt_segments h.segments) rfl ?_
  rw [List.take_of_length_le (by rw [List.length_map]), Program.bind_assoc]
  exact meets_readSegments h.strings h.argvs h.done hk

theorem meets_namesExit {k : Bool → MemM β} (h : Holds vs job segments es m) (hne : es ≠ [])
    (hk : Meets fails m (k (decide (firstCmd ⟨es.map Entry.stored⟩ = ascii "exit"))) P) :
    Meets fails m (namesExit job >>= k) P := by
  cases es with
  | nil => exact absurd rfl hne
  | cons e es =>
      have he := h.done e List.mem_cons_self
      obtain ⟨v, args, hargs⟩ := List.exists_cons_of_ne_nil he.nonempty
      have hargv : (e.argv, Obj.argv (e.ptrs ++ [none])) ∈ m :=
        Multiset.mem_of_le h.argvs (mem_argvs List.mem_cons_self)
      have hmem := Multiset.mem_of_le h.strings
        (mem_strings (he.args v (by rw [hargs]; exact List.mem_cons_self)))
      have hfirst : (e.ptrs ++ [none]).getD 0 none = some v.1 := by simp [Entry.ptrs, hargs]
      have hcmd : firstCmd ⟨(e :: es).map Entry.stored⟩ = v.2.value := by
        simp [firstCmd, Entry.stored, Entry.value, JobSegment.terminate, arg, hargs]
      rw [hcmd] at hk
      rw [namesExit, Program.bind_assoc]
      refine meets_job h.segments ?_
      rw [if_pos (show 0 < (e :: es).length from Nat.succ_pos _), Program.bind_assoc]
      refine meets_segmentAt h.segments rfl ?_
      rw [Program.bind_assoc]
      refine meets_view hargv rfl ?_
      rw [Program.bind_assoc, hfirst]
      refine meets_deref ?_
      rw [Program.bind_assoc]
      exact meets_view hmem rfl hk

end CS214.Shell.Memory
