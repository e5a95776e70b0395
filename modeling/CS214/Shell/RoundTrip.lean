import Mathlib.Data.List.Forall2
import CS214.Shell.Grammar

/-!
# Shell — printing a job and reading it back

`Shows line texts` says that a line consists of some texts with blanks around them and, possibly, a
comment.  A line that shows a job, with the redirections of every segment anywhere among its
arguments, is read back as that job (`print_parse`).

* `tokenize_shows`: the tokens of a line are the texts it shows.
* `derives_texts`: the tokens of the texts of a syntax tree derive it.
-/

open CString

namespace CS214.Shell

/-- A segment of a pipeline: its words, and the files it is redirected from and to. -/
structure Stage where
  words : List Bytes
  input : Option Bytes
  output : Option Bytes

/-- A word that is read as it is written. -/
structure Plain (w : Bytes) : Prop where
  ne_nil : w ≠ []
  noNul : 0 ∉ w
  noHash : 35 ∉ w
  noSpace : ∀ b ∈ w, isSpace b = false
  ordinary : w ∉ [ascii "<", ascii ">", ascii "|", ascii "and", ascii "or"]

/-- A segment that fits the arrays of the parser. -/
structure Stage.Fits (st : Stage) : Prop where
  some_word : 1 ≤ st.words.length
  capacity : st.words.length ≤ 99
  words : ∀ w ∈ st.words, Plain w
  input : ∀ w ∈ st.input, Plain w
  output : ∀ w ∈ st.output, Plain w

/-- The segment of a job. -/
def Stage.segment (st : Stage) : JobSegment :=
  ⟨st.words.map some ++ [none], st.words.length, st.input, st.output⟩

/-- The parts are the words of the segment in order, with its redirections at any places. -/
structure Arranges (ps : List Part) (st : Stage) : Prop where
  words : args ps = st.words
  input : ps.filterMap Part.inputTarget = st.input.toList
  output : ps.filterMap Part.outputTarget = st.output.toList

/-! ### Texts and lines -/

/-- Spaces and tabs. -/
def Blank (s : Bytes) : Prop := ∀ b ∈ s, b = 32 ∨ b = 9

/-- The texts with blanks between them, and perhaps behind the last. -/
inductive Spaced : List Bytes → Bytes → Prop where
  | one {t trail : Bytes} (blank : Blank trail) : Spaced [t] (t ++ trail)
  | cons {t sep rest : Bytes} {ts : List Bytes} (blank : Blank sep) (sep_ne : sep ≠ [])
      (h : Spaced ts rest) : Spaced (t :: ts) (t ++ (sep ++ rest))

/-- The line shows the texts: blanks may stand in front, and a comment at the end. -/
def Shows (line : Bytes) (texts : List Bytes) : Prop :=
  ∃ lead body comment, line = lead ++ (body ++ comment) ∧ Blank lead ∧ Spaced texts body ∧
    (comment = [] ∨ ∃ text, comment = 35 :: text)

/-- The texts a part is written with. -/
def Part.texts : Part → List Bytes
  | .arg v => [v]
  | .input v => [ascii "<", v]
  | .output v => [ascii ">", v]

/-- The keyword. -/
def Conditional.text : Conditional → Bytes
  | .and => ascii "and"
  | .or => ascii "or"

/-- The texts of a pipeline. -/
def pipelineTexts : List (List Part) → List Bytes
  | [] => []
  | [ps] => ps.flatMap Part.texts
  | ps :: pss => ps.flatMap Part.texts ++ ascii "|" :: pipelineTexts pss

/-- The texts of a whole line. -/
def Line.texts (l : Line) : List Bytes :=
  (l.conditional.elim [] fun c => [c.text]) ++ pipelineTexts l.segments

/-- The token of a text. -/
def tokenOf (t : Bytes) : Token := ⟨tokenType t, t⟩

/-! ### The tokens of a line -/

/-- A text that stays one token. -/
structure Solid (t : Bytes) : Prop where
  ne_nil : t ≠ []
  noHash : 35 ∉ t
  noSpace : ∀ b ∈ t, isSpace b = false

theorem Solid.noDelim {t : Bytes} (h : Solid t) : ∀ b ∈ t, isDelim b = false := by
  intro b hb
  by_contra hd
  have hs := h.noSpace b hb
  rw [isSpace_of_isDelim (eq_true_of_ne_false hd)] at hs
  cases hs

theorem Plain.solid {w : Bytes} (h : Plain w) : Solid w := ⟨h.ne_nil, h.noHash, h.noSpace⟩

theorem Blank.isDelim {s : Bytes} (h : Blank s) : ∀ b ∈ s, isDelim b = true := by
  intro b hb
  rcases h b hb with rfl | rfl <;> rfl

theorem Blank.isSpace {s : Bytes} (h : Blank s) : ∀ b ∈ s, isSpace b = true :=
  fun b hb => isSpace_of_isDelim (h.isDelim b hb)

/-- Nothing follows, or a separator. -/
def AtDelim (after : Bytes) : Prop := ∀ b ∈ after.head?, isDelim b = true

theorem strtok_solid {lead t after : Bytes} (hl : Blank lead) (ht : Solid t)
    (hafter : AtDelim after) : strtok (lead ++ (t ++ after)) = some (t, after.tail) := by
  have hdrop : (lead ++ (t ++ after)).dropWhile Shell.isDelim = t ++ after := by
    rw [List.dropWhile_append_of_pos hl.isDelim]
    cases t with
    | nil => exact absurd rfl ht.ne_nil
    | cons b t =>
        rw [List.cons_append, List.dropWhile_cons, ht.noDelim b List.mem_cons_self,
          if_neg Bool.false_ne_true]
  have hword : ∀ b ∈ t, (!Shell.isDelim b) = true := fun b hb => by rw [ht.noDelim b hb]; rfl
  have hstop : after.takeWhile (fun c => !Shell.isDelim c) = [] ∧
      after.dropWhile (fun c => !Shell.isDelim c) = after := by
    cases after with
    | nil => exact ⟨rfl, rfl⟩
    | cons b after =>
        have hb : Shell.isDelim b = true := hafter b rfl
        simp [hb]
  cases t with
  | nil => exact absurd rfl ht.ne_nil
  | cons b t =>
      have ht' : ∀ c ∈ t, (!Shell.isDelim c) = true := fun c hc =>
        hword c (List.mem_cons_of_mem _ hc)
      rw [strtok, hdrop, List.cons_append]
      simp only [List.takeWhile_append_of_pos ht', List.dropWhile_append_of_pos ht', hstop.1,
        hstop.2, List.append_nil]

theorem Blank.tail {s : Bytes} (h : Blank s) : Blank s.tail := fun b hb =>
  h b (List.mem_of_mem_tail hb)

theorem Blank.atDelim {s rest : Bytes} (h : Blank s) (hs : s ≠ [] ∨ rest = []) :
    AtDelim (s ++ rest) := by
  cases s with
  | nil =>
      obtain rfl := hs.resolve_left (fun h => h rfl)
      intro b hb
      cases hb
  | cons c s =>
      intro b hb
      obtain rfl := Option.some.inj hb
      exact h.isDelim _ List.mem_cons_self

/-- The loop over the tokens of texts between blanks. -/
theorem tokenLoop_spaced {texts : List Bytes} {body lead : Bytes} {n : ℕ} (h : Spaced texts body)
    (ht : ∀ t ∈ texts, Solid t) (hl : Blank lead) (hn : texts.length < n) :
    tokenLoop n (lead ++ body) = texts.map tokenOf := by
  induction h generalizing lead n with
  | @one t trail blank =>
      rw [List.length_singleton] at hn
      obtain ⟨n, rfl⟩ : ∃ k, n = k + 1 + 1 := ⟨n - 2, by omega⟩
      have hafter : AtDelim trail := by
        have hat : AtDelim (trail ++ []) := blank.atDelim (.inr rfl)
        rwa [List.append_nil] at hat
      rw [tokenLoop, strtok_solid hl (ht t List.mem_cons_self) hafter]
      simp only [tokenLoop_eq_nil.mpr blank.tail.isDelim]
      rfl
  | @cons t sep rest ts blank sep_ne _ ih =>
      obtain ⟨n, rfl⟩ := Nat.exists_eq_succ_of_ne_zero (by omega : n ≠ 0)
      rw [List.length_cons] at hn
      have hrest := ih (fun t ht' => ht t (List.mem_cons_of_mem _ ht')) blank.tail
        (by omega : ts.length < n)
      rw [tokenLoop, strtok_solid hl (ht t List.mem_cons_self) (blank.atDelim (.inl sep_ne))]
      simp only [List.tail_append_of_ne_nil sep_ne, hrest, List.map_cons, tokenOf]

theorem Spaced.length_le {texts : List Bytes} {body : Bytes} (h : Spaced texts body)
    (ht : ∀ t ∈ texts, Solid t) : texts.length ≤ body.length := by
  induction h with
  | @one t trail _ =>
      have hpos := List.length_pos_iff.mpr (ht t List.mem_cons_self).ne_nil
      rw [List.length_singleton, List.length_append]
      omega
  | @cons t sep rest ts _ _ _ ih =>
      have hpos := List.length_pos_iff.mpr (ht t List.mem_cons_self).ne_nil
      have hrest := ih fun t ht' => ht t (List.mem_cons_of_mem _ ht')
      rw [List.length_cons, List.length_append, List.length_append]
      omega

theorem Spaced.noHash {texts : List Bytes} {body : Bytes} (h : Spaced texts body)
    (ht : ∀ t ∈ texts, Solid t) : 35 ∉ body := by
  have hblank : ∀ {s : Bytes}, Blank s → 35 ∉ s := fun hs hmem => by
    rcases hs 35 hmem with h | h <;> cases h
  induction h with
  | @one t trail blank =>
      rw [List.mem_append]
      rintro (hmem | hmem)
      · exact (ht t List.mem_cons_self).noHash hmem
      · exact hblank blank hmem
  | @cons t sep rest ts blank _ _ ih =>
      rw [List.mem_append, List.mem_append]
      rintro (hmem | hmem | hmem)
      · exact (ht t List.mem_cons_self).noHash hmem
      · exact hblank blank hmem
      · exact ih (fun t ht' => ht t (List.mem_cons_of_mem _ ht')) hmem

/-- The first byte of the texts is no white space. -/
theorem Spaced.head {texts : List Bytes} {body : Bytes} (h : Spaced texts body)
    (ht : ∀ t ∈ texts, Solid t) : ∃ b rest, body = b :: rest ∧ isSpace b = false := by
  have htext : ∀ {t rest : Bytes}, Solid t →
      ∃ b rest', t ++ rest = b :: rest' ∧ isSpace b = false := by
    intro t rest ht
    cases t with
    | nil => exact absurd rfl ht.ne_nil
    | cons b t => exact ⟨b, t ++ rest, rfl, ht.noSpace b List.mem_cons_self⟩
  cases h with
  | one _ => exact htext (ht _ List.mem_cons_self)
  | cons _ _ _ => exact htext (ht _ List.mem_cons_self)

/-- The tokens of a line are the texts it shows. -/
theorem tokenize_shows {texts : List Bytes} {line : Bytes} (h : Shows line texts)
    (ht : ∀ t ∈ texts, Solid t) : tokenize line = texts.map tokenOf := by
  obtain ⟨lead, body, comment, rfl, hlead, hbody, hcomment⟩ := h
  have hhash := hbody.noHash ht
  obtain ⟨b, rest, rfl, hb⟩ := hbody.head ht
  have hdrop : (lead ++ (b :: rest ++ comment)).dropWhile isSpace = b :: rest ++ comment := by
    rw [List.dropWhile_append_of_pos hlead.isSpace, List.cons_append, List.dropWhile_cons, hb,
      if_neg Bool.false_ne_true]
  have hne : ∀ c ∈ b :: rest, decide (c ≠ 35) = true := fun c hc =>
    decide_eq_true fun e => hhash (e ▸ hc)
  have hclean : cleanLine (b :: rest ++ comment) = b :: rest := by
    rw [cleanLine_eq, List.takeWhile_append_of_pos hne]
    rcases hcomment with rfl | ⟨text, rfl⟩ <;> simp
  have hhead : (b :: rest ++ comment).head? ≠ some 35 := by
    rw [List.cons_append, List.head?_cons]
    intro e
    exact hhash (Option.some.inj e ▸ List.mem_cons_self)
  have hlen := hbody.length_le ht
  simp only [tokenize, hdrop, if_neg hhead, hclean]
  have hnil : Blank [] := fun c hc => by cases hc
  have htokens := tokenLoop_spaced hbody ht hnil (Nat.lt_succ_of_le hlen)
  rwa [List.nil_append] at htokens

/-! ### The tokens of a job -/

/-- The word of a part. -/
def Part.value : Part → Bytes
  | .arg v => v
  | .input v => v
  | .output v => v

/-- What is none of the symbols is a word. -/
theorem tokenOf_word {w : Bytes}
    (h : w ∉ [ascii "<", ascii ">", ascii "|", ascii "and", ascii "or"]) :
    tokenOf w = ⟨.word, w⟩ := by
  simp only [List.mem_cons, List.not_mem_nil, or_false, not_or] at h
  obtain ⟨h₁, h₂, h₃, h₄, h₅⟩ := h
  simp [Shell.tokenOf, tokenType, h₁, h₂, h₃, h₄, h₅]

theorem Plain.tokenOf {w : Bytes} (h : Plain w) : tokenOf w = ⟨.word, w⟩ :=
  tokenOf_word h.ordinary

theorem derivesPart_texts {p : Part} (h : Plain p.value) :
    DerivesPart (p.texts.map tokenOf) p := by
  cases p with
  | arg v =>
      have hv : Shell.tokenOf v = ⟨.word, v⟩ := h.tokenOf
      simpa only [Part.texts, List.map_cons, List.map_nil, hv] using DerivesPart.arg v
  | input v =>
      have hv : Shell.tokenOf v = ⟨.word, v⟩ := h.tokenOf
      have hlt : Shell.tokenOf (ascii "<") = ⟨.redirectIn, ascii "<"⟩ := by decide
      simpa only [Part.texts, List.map_cons, List.map_nil, hv, hlt] using DerivesPart.input _ v
  | output v =>
      have hv : Shell.tokenOf v = ⟨.word, v⟩ := h.tokenOf
      have hgt : Shell.tokenOf (ascii ">") = ⟨.redirectOut, ascii ">"⟩ := by decide
      simpa only [Part.texts, List.map_cons, List.map_nil, hv, hgt] using DerivesPart.output _ v

theorem derivesSeg_texts {ps : List Part} (h : ∀ p ∈ ps, Plain p.value) (hargs : args ps ≠ []) :
    DerivesSeg ((ps.flatMap Part.texts).map tokenOf) ps := by
  refine ⟨?_, hargs⟩
  clear hargs
  induction ps with
  | nil => exact .nil
  | cons p ps ih =>
      rw [List.flatMap_cons, List.map_append]
      exact .cons (derivesPart_texts (h p List.mem_cons_self))
        (ih fun q hq => h q (List.mem_cons_of_mem _ hq))

theorem derivesPipeline_texts {pss : List (List Part)} (hne : pss ≠ [])
    (h : ∀ ps ∈ pss, args ps ≠ [] ∧ ∀ p ∈ ps, Plain p.value) :
    DerivesPipeline ((pipelineTexts pss).map tokenOf) pss := by
  induction pss with
  | nil => exact absurd rfl hne
  | cons ps pss ih =>
      obtain ⟨hargs, hplain⟩ := h ps List.mem_cons_self
      have hseg := derivesSeg_texts hplain hargs
      cases pss with
      | nil => exact .one hseg
      | cons qs pss =>
          have hpipe : Shell.tokenOf (ascii "|") = ⟨.pipe, ascii "|"⟩ := by decide
          rw [pipelineTexts, List.map_append, List.map_cons, hpipe]
          · exact .cons hseg (ih (List.cons_ne_nil _ _) fun rs hrs =>
              h rs (List.mem_cons_of_mem _ hrs))
          · exact List.cons_ne_nil _ _

/-- The tokens of the texts of a syntax tree derive it. -/
theorem derives_texts {l : Line} (hne : l.segments ≠ [])
    (h : ∀ ps ∈ l.segments, args ps ≠ [] ∧ ∀ p ∈ ps, Plain p.value) :
    Derives (l.texts.map tokenOf) l := by
  obtain ⟨c, pss⟩ := l
  have hp := derivesPipeline_texts hne h
  cases c with
  | none => exact .plain hp
  | some c =>
      have hc : Shell.tokenOf c.text = ⟨c.type, c.text⟩ := by cases c <;> decide
      rw [Line.texts, List.map_append]
      simp only [Option.elim, List.map_cons, List.map_nil, hc, List.singleton_append]
      exact .conditional c hp

theorem solid_texts {l : Line} (h : ∀ ps ∈ l.segments, ∀ p ∈ ps, Plain p.value) :
    ∀ t ∈ l.texts, Solid t := by
  have hsymbol : ∀ t ∈ [ascii "<", ascii ">", ascii "|", ascii "and", ascii "or"], Solid t := by
    intro t ht
    simp only [List.mem_cons, List.not_mem_nil, or_false] at ht
    rcases ht with rfl | rfl | rfl | rfl | rfl <;>
      exact ⟨by decide, by decide, by decide +kernel⟩
  have hparts : ∀ ps ∈ l.segments, ∀ t ∈ ps.flatMap Part.texts, Solid t := by
    intro ps hps t ht
    obtain ⟨p, hp, ht⟩ := List.mem_flatMap.mp ht
    have hv := (h ps hps p hp).solid
    cases p with
    | arg v =>
        obtain rfl := List.mem_singleton.mp ht
        exact hv
    | input v =>
        rcases List.mem_cons.mp ht with rfl | ht
        · exact hsymbol _ (by simp)
        · obtain rfl := List.mem_singleton.mp ht
          exact hv
    | output v =>
        rcases List.mem_cons.mp ht with rfl | ht
        · exact hsymbol _ (by simp)
        · obtain rfl := List.mem_singleton.mp ht
          exact hv
  have hpipeline : ∀ pss : List (List Part), (∀ ps ∈ pss, ps ∈ l.segments) →
      ∀ t ∈ pipelineTexts pss, Solid t := by
    intro pss
    induction pss with
    | nil => exact fun _ t ht => by cases ht
    | cons ps pss ih =>
        intro hmem t ht
        have hps := hparts ps (hmem ps List.mem_cons_self)
        cases pss with
        | nil => exact hps t ht
        | cons qs pss =>
            rw [pipelineTexts, List.mem_append, List.mem_cons] at ht
            · rcases ht with ht | rfl | ht
              · exact hps t ht
              · exact hsymbol _ (by simp)
              · exact ih (fun rs hrs => hmem rs (List.mem_cons_of_mem _ hrs)) t ht
            · exact List.cons_ne_nil _ _
  intro t ht
  rcases List.mem_append.mp ht with ht | ht
  · cases hc : l.conditional with
    | none =>
        rw [hc] at ht
        cases ht
    | some c =>
        rw [hc] at ht
        obtain rfl := List.mem_singleton.mp ht
        cases c <;> exact hsymbol _ (by simp [Conditional.text])
  · exact hpipeline l.segments (fun _ h => h) t ht

/-! ### The round trip -/

theorem Arranges.segmentOf {ps : List Part} {st : Stage} (h : Arranges ps st) :
    segmentOf ps = st.segment := by
  have hlast : ∀ o : Option Bytes, o.toList.getLast? = o := fun o => by cases o <;> rfl
  rw [Shell.segmentOf, Stage.segment, lastTarget, lastTarget, h.words, h.input, h.output, hlast,
    hlast]

theorem Arranges.plain {ps : List Part} {st : Stage} (h : Arranges ps st) (hs : st.Fits) :
    ∀ p ∈ ps, Plain p.value := by
  intro p hp
  cases p with
  | arg v =>
      refine hs.words v (h.words ▸ ?_)
      exact List.mem_filterMap.mpr ⟨_, hp, rfl⟩
  | input v =>
      have hmem : v ∈ ps.filterMap Part.inputTarget := List.mem_filterMap.mpr ⟨_, hp, rfl⟩
      rw [h.input, Option.mem_toList] at hmem
      exact hs.input v hmem
  | output v =>
      have hmem : v ∈ ps.filterMap Part.outputTarget := List.mem_filterMap.mpr ⟨_, hp, rfl⟩
      rw [h.output, Option.mem_toList] at hmem
      exact hs.output v hmem

theorem arranges_all {pss : List (List Part)} {stages : List Stage}
    (hp : List.Forall₂ Arranges pss stages) (hfits : ∀ st ∈ stages, st.Fits) :
    pss.map Shell.segmentOf = stages.map Stage.segment ∧
      ∀ ps ∈ pss, args ps ≠ [] ∧ (args ps).length < argvCapacity ∧ ∀ p ∈ ps, Plain p.value := by
  induction hp with
  | nil => exact ⟨rfl, fun ps hps => by cases hps⟩
  | @cons ps st pss stages h _ ih =>
      obtain ⟨hmap, hall⟩ := ih fun st hst => hfits st (List.mem_cons_of_mem _ hst)
      have hst := hfits st List.mem_cons_self
      have hlow := hst.some_word
      have hhigh := hst.capacity
      rw [← h.words] at hlow hhigh
      refine ⟨by rw [List.map_cons, List.map_cons, hmap, h.segmentOf],
        List.forall_mem_cons.mpr ⟨⟨?_, ?_, h.plain hst⟩, hall⟩⟩
      · exact List.length_pos_iff.mp hlow
      · simp only [argvCapacity]
        omega

/-- **Print and parse.**  A line that shows a conditional and 1 to 50 segments, the redirections of
each anywhere among its words, with any blanks between the words and perhaps a comment behind them,
is read back as that conditional and those segments. -/
theorem print_parse (c : Option Conditional) {stages : List Stage} (hcount : 1 ≤ stages.length)
    (hcapacity : stages.length ≤ 50) (hfits : ∀ st ∈ stages, st.Fits) {pss : List (List Part)}
    (hp : List.Forall₂ Arranges pss stages) {line : Bytes}
    (hline : Shows line (Line.texts ⟨c, pss⟩)) :
    parseJob (tokenize line) =
      ⟨.ok ⟨stages.map Stage.segment⟩, c.elim 0 fun c => c.type.code⟩ := by
  obtain ⟨hmap, hall⟩ := arranges_all hp hfits
  have hlen : pss.length = stages.length := hp.length_eq
  have hne : pss ≠ [] := List.length_pos_iff.mp (by omega)
  have hderives : Derives ((Line.texts ⟨c, pss⟩).map tokenOf) ⟨c, pss⟩ :=
    derives_texts hne fun ps hps => ⟨(hall ps hps).1, (hall ps hps).2.2⟩
  have hparse := parseJob_fits hderives (.inl rfl) (fun ps hps => (hall ps hps).2.1)
    (by simp only [segmentCapacity]; omega)
  rw [List.append_nil, Line.job, hmap] at hparse
  rw [tokenize_shows hline (solid_texts fun ps hps => (hall ps hps).2.2)]
  exact hparse

/-- `sort -r < in | wc > out`. -/
def sampleStages : List Stage :=
  [⟨[ascii "sort", ascii "-r"], some (ascii "in"), none⟩, ⟨[ascii "wc"], none, some (ascii "out")⟩]

/-- The same, with the first redirection between the words. -/
def sampleParts : List (List Part) :=
  [[.arg (ascii "sort"), .input (ascii "in"), .arg (ascii "-r")],
    [.arg (ascii "wc"), .output (ascii "out")]]

theorem print_parse_sample :
    parseJob (tokenize (ascii " and sort <\tin -r | wc > out# count")) =
      ⟨.ok ⟨sampleStages.map Stage.segment⟩, 4⟩ := by
  have hplain : ∀ w ∈ [ascii "sort", ascii "-r", ascii "in", ascii "wc", ascii "out"],
      Plain w := by
    intro w hw
    simp only [List.mem_cons, List.not_mem_nil, or_false] at hw
    rcases hw with rfl | rfl | rfl | rfl | rfl <;>
      exact ⟨by decide, by decide, by decide, by decide +kernel, by decide⟩
  have hfits : ∀ st ∈ sampleStages, st.Fits := by
    intro st hst
    simp only [sampleStages, List.mem_cons, List.not_mem_nil, or_false] at hst
    rcases hst with rfl | rfl
    · exact ⟨by decide, by decide, fun w hw => hplain w (by simp at hw ⊢; tauto),
        fun w hw => hplain w (by simp at hw ⊢; tauto), fun w hw => by cases hw⟩
    · exact ⟨by decide, by decide, fun w hw => hplain w (by simp at hw ⊢; tauto),
        fun w hw => (by cases hw), fun w hw => hplain w (by simp at hw ⊢; tauto)⟩
  have harranges : List.Forall₂ Arranges sampleParts sampleStages :=
    .cons ⟨rfl, rfl, rfl⟩ (.cons ⟨rfl, rfl, rfl⟩ .nil)
  have hblank : Blank (ascii " ") ∧ Blank (ascii "\t") := by
    constructor <;> unfold Blank <;> decide +kernel
  have hnil : Blank [] := fun b hb => by cases hb
  have hspaced : Spaced (Line.texts ⟨some .and, sampleParts⟩)
      (ascii "and sort <\tin -r | wc > out") :=
    .cons (t := ascii "and") hblank.1 (by decide) <|
    .cons (t := ascii "sort") hblank.1 (by decide) <|
    .cons (t := ascii "<") hblank.2 (by decide) <|
    .cons (t := ascii "in") hblank.1 (by decide) <|
    .cons (t := ascii "-r") hblank.1 (by decide) <|
    .cons (t := ascii "|") hblank.1 (by decide) <|
    .cons (t := ascii "wc") hblank.1 (by decide) <|
    .cons (t := ascii ">") hblank.1 (by decide) <|
    .one (t := ascii "out") hnil
  exact print_parse (some .and) (by decide) (by decide) hfits harranges
    ⟨ascii " ", _, ascii "# count", by decide, hblank.1, hspaced, .inr ⟨ascii " count", by decide⟩⟩

end CS214.Shell
