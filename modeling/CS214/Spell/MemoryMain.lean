import CS214.Spell.MemoryTable

/-!
# Spell — the memory of `main`

* `loadDictionary_meets`: what `load_dictionary` allocates is the table of the dictionary.
* `checkFile_gives`, `processDirectory_gives`: checking changes no object, and does on the objects
  what it does on the dictionary.
* `spell_memory`: the program does what `Spell.main` does; it follows no pointer that leads nowhere,
  writes behind no array, and leaves the table of its dictionary.
-/

open CString ObjectHeap

namespace CS214.Spell.Memory

variable {fails : Prop} {m : Objects} {d b : Addr} {chains : Chains} {n : ℕ} {word : Bytes}
  {file : Pieces UInt8} {fs : FileSystem} {filename suffix : Bytes} {printFilename : Bool}

theorem length_untilNul (s : Bytes) : (untilNul s).length ≤ s.length :=
  (List.takeWhile_prefix _).length_le

/-! ### Reading a file -/

theorem foldlM_append {σ : Type} (f : σ → UInt8 → MemM σ) (s : σ) (l l' : Bytes) :
    (l ++ l').foldlM f s = l.foldlM f s >>= fun s => l'.foldlM f s := by
  induction l generalizing s with
  | nil => rfl
  | cons a l ih =>
      rw [List.cons_append, List.foldlM_cons, List.foldlM_cons, Program.bind_assoc]
      exact congrArg (f s a >>= ·) (funext ih)

/-- The loop sees the bytes of the file, however `read` cuts it. -/
theorem readFile_eq {σ : Type} (hf : Pieces.Whole file) (f : σ → UInt8 → MemM σ) (s : σ) :
    readFile f s file = file.flatten.foldlM f s := by
  induction file generalizing s with
  | nil => rfl
  | cons p ps ih =>
      have hp : p.isEmpty = false := List.isEmpty_eq_false_iff.mpr (hf p List.mem_cons_self)
      rw [readFile, hp, if_neg Bool.false_ne_true, List.flatten_cons, foldlM_append]
      exact congrArg (p.foldlM f s >>= ·)
        (funext fun s => ih (fun q hq => hf q (List.mem_cons_of_mem _ hq)) s)

/-! ### Loading -/

theorem addWord_meets (hword : word.length < maxWordLen) (hn : ∀ k, (chains k).length ≤ n) :
    Meets False (tableAt d b chains) (addWord n d word) fun _ m =>
      ∃ chains', m = tableAt d b chains' ∧
        dictOf chains' = Loading.finish ⟨dictOf chains, word⟩ ∧
        ∀ k, (chains' k).length ≤ (chains k).length + 1 := by
  rw [addWord, Loading.finish]
  dsimp only
  cases he : word.isEmpty with
  | true => exact meets_ret ⟨chains, rfl, rfl, fun k => Nat.le_succ _⟩
  | false =>
      have hshort := (length_untilNul word).trans_lt hword
      exact (buffered_gives hword).bind (dictAdd_meets hshort (hn _))

/-- What the loop over the dictionary file has loaded. -/
structure Loads (d b : Addr) (before word : Bytes) (m : Objects) : Prop where
  table : ∃ chains, m = tableAt d b chains ∧
    (⟨dictOf chains, word⟩ : Loading) = before.foldl Spell.loadByte ⟨Spell.dictCreate, []⟩ ∧
    ∀ k, (chains k).length ≤ before.length
  short : word.length < maxWordLen

theorem Loads.step {before : Bytes} (h : Loads d b before word m) (hn : before.length ≤ n)
    (c : UInt8) : Meets False m (loadByte n d word c) fun word m =>
      Loads d b (before ++ [c]) word m := by
  obtain ⟨⟨chains, rfl, hload, hlen⟩, hshort⟩ := h
  have hnext : (before ++ [c]).foldl Spell.loadByte ⟨Spell.dictCreate, []⟩ =
      Spell.loadByte ⟨dictOf chains, word⟩ c := by
    rw [List.foldl_append, ← hload]
    rfl
  have hlength : (before ++ [c]).length = before.length + 1 := List.length_append
  rw [loadByte]
  by_cases hc : c = 10
  · rw [if_pos hc]
    refine (addWord_meets hshort fun k => (hlen k).trans hn).bind fun _ m hm => ?_
    obtain ⟨chains', rfl, hfinish, hlen'⟩ := hm
    refine meets_ret ⟨⟨chains', rfl, ?_, fun k => ?_⟩, by decide⟩
    · rw [hnext, Spell.loadByte, if_pos hc, hfinish]
    · have := hlen k
      have := hlen' k
      omega
  · rw [if_neg hc]
    refine meets_ret ⟨⟨chains, rfl, ?_, fun k => ?_⟩, ?_⟩
    · rw [hnext, Spell.loadByte, if_neg hc]
      dsimp only
      split <;> rfl
    · have := hlen k
      omega
    · split
      · rw [List.length_append, List.length_singleton]
        omega
      · exact hshort

/-- `load_dictionary` on the objects. -/
theorem loadDictionary_meets (hf : Pieces.Whole file) (hn : file.flatten.length + 1 ≤ n) :
    Meets False 0 (loadDictionary n (.ok file)) fun l m => ∃ d b chains,
      l = ⟨0, some d, []⟩ ∧ m = tableAt d b chains ∧
      Spell.loadDictionary (.ok file) = ⟨0, some (dictOf chains), []⟩ ∧
      ∀ k, (chains k).length ≤ n := by
  rw [loadDictionary]
  refine dictCreate_meets.bind fun d m hm => ?_
  obtain ⟨b, rfl⟩ := hm
  rw [readFile_eq hf]
  have hstart : Loads d b [] [] (tableAt d b fun _ => []) :=
    ⟨⟨_, rfl, rfl, fun _ => le_rfl⟩, by decide⟩
  refine (meets_foldlM (R := Loads d b) (fun before c after word m hl h => ?_) hstart).bind ?_
  · have hlen := congrArg List.length hl
    rw [List.length_append, List.length_cons] at hlen
    exact h.step (by omega) c
  · rintro word m ⟨⟨chains, rfl, hload, hlen⟩, hshort⟩
    refine (addWord_meets hshort fun k => (hlen k).trans (by omega)).bind fun _ m hm => ?_
    obtain ⟨chains', rfl, hfinish, hlen'⟩ := hm
    refine meets_ret ⟨d, b, chains', rfl, rfl, ?_, fun k => ?_⟩
    · rw [hload, ← Pieces.foldReads_eq hf] at hfinish
      rw [Spell.loadDictionary, hfinish]
    · have := hlen k
      have := hlen' k
      omega

/-! ### Checking -/

theorem length_normalizeWord (s : Bytes) : (normalizeWord s).length ≤ s.length := by
  rw [normalizeWord, List.length_drop, List.length_take]
  omega

theorem checkWord_gives {st : Checking} (hst : st.word.length < maxWordLen)
    (hn : ∀ k, (chains k).length ≤ n) :
    Gives fails (tableAt d b chains) (checkWord n d filename printFilename st)
      (Spell.checkWord (dictOf chains) filename printFilename st) := by
  have huntil := (length_untilNul st.word).trans_lt hst
  have hnormal := (length_normalizeWord (untilNul st.word)).trans_lt huntil
  rw [checkWord, Spell.checkWord]
  dsimp only
  cases he : st.word.isEmpty with
  | true => exact gives_ret st
  | false =>
      refine (buffered_gives hst).bind ?_
      cases hs : shouldSkipWord (untilNul st.word) with
      | true => exact gives_ret st
      | false =>
          refine (buffered_gives hnormal).bind ?_
          by_cases hz : (normalizeWord (untilNul st.word)).headD 0 ≠ 0
          · rw [if_pos hz]
            refine (dictLookup_gives hnormal (hn _)).bind ?_
            cases hlook : Spell.dictLookup (dictOf chains) (normalizeWord (untilNul st.word)) with
            | true =>
                rw [if_neg Bool.false_ne_true, if_neg Bool.false_ne_true, if_pos rfl,
                  if_neg (by simp)]
                exact gives_ret st
            | false =>
                rw [if_neg Bool.false_ne_true, if_neg Bool.false_ne_true,
                  if_neg Bool.false_ne_true, if_pos ⟨hz, rfl⟩]
                exact gives_ret _
          · rw [if_neg hz, if_neg Bool.false_ne_true, if_neg Bool.false_ne_true,
              if_neg fun h => hz h.1]
            exact gives_ret st

theorem checkByte_gives {st : Checking} (hst : st.word.length < maxWordLen)
    (hn : ∀ k, (chains k).length ≤ n) (c : UInt8) :
    Gives fails (tableAt d b chains) (checkByte n d filename printFilename st c)
      (Spell.checkByte (dictOf chains) filename printFilename st c) := by
  rw [checkByte, Spell.checkByte]
  cases hs : isSpace c with
  | true =>
      refine (checkWord_gives hst hn).bind ?_
      by_cases hc : c = 10
      · rw [if_pos hc]
        exact gives_ret _
      · rw [if_neg hc]
        exact gives_ret _
  | false => exact gives_ret _

theorem short_checkByte {dict : Spell.Dict} {st : Checking} (hst : st.word.length < maxWordLen)
    (c : UInt8) : (Spell.checkByte dict filename printFilename st c).word.length < maxWordLen := by
  rw [Spell.checkByte]
  split
  · split <;> exact Nat.zero_lt_succ _
  · dsimp only
    split
    · rw [List.length_append, List.length_singleton]
      omega
    · exact hst

/-- `check_file` on the objects. -/
theorem checkFile_gives (hn : ∀ k, (chains k).length ≤ n) (errorFound : Bool)
    {r : Except Bytes (Pieces UInt8)} (hf : ∀ file, r = .ok file → Pieces.Whole file) :
    Gives fails (tableAt d b chains) (checkFile n d filename printFilename errorFound r)
      (Spell.checkFile (dictOf chains) filename printFilename errorFound r) := by
  cases r with
  | error e => exact gives_ret _
  | ok file =>
      have hstart : ([] : Bytes).length < maxWordLen := by decide
      rw [checkFile, Spell.checkFile, Pieces.foldReads_eq (hf file rfl), readFile_eq (hf file rfl)]
      refine (meets_foldlM (R := fun before st m => st = before.foldl
        (Spell.checkByte (dictOf chains) filename printFilename) ⟨[], 1, 1, 1, [], errorFound⟩ ∧
        st.word.length < maxWordLen ∧ m = tableAt d b chains) ?_ ⟨rfl, hstart, rfl⟩).bind ?_
      · rintro before c after st m - ⟨hst, hshort, rfl⟩
        refine (checkByte_gives hshort hn c).imp fun st' m hm => ?_
        obtain ⟨rfl, rfl⟩ := hm
        rw [List.foldl_append, ← hst]
        exact ⟨rfl, short_checkByte hshort c, rfl⟩
      · rintro st m ⟨rfl, hshort, rfl⟩
        exact (checkWord_gives hshort hn).bind (gives_ret _)

/-! ### Directories -/

theorem gives_some {α : Type} {q : MemM α} {a : α} (h : Gives fails m q a) :
    Gives fails m (some <$> q) (some a) :=
  h.bind (gives_ret (some a))

theorem sessionCheck_gives (hn : ∀ k, (chains k).length ≤ n) (st : Session) :
    Gives fails (tableAt d b chains) (sessionCheck fs n d st filename printFilename)
      (st.checkFile fs (dictOf chains) filename printFilename) :=
  (checkFile_gives hn _ (fs.reads filename)).bind (gives_ret _)

theorem forEach_gives {σ α : Type} {f : σ → α → MemM (Option σ)} {g : σ → α → Option σ}
    (h : ∀ s a, Gives fails m (f s a) (g s a)) (s : σ) (l : List α) :
    Gives fails m (forEach f s l) (l.foldlM g s) := by
  induction l generalizing s with
  | nil => exact gives_ret (some s)
  | cons a l ih =>
      rw [forEach, List.foldlM_cons]
      refine (h s a).bind ?_
      cases g s a with
      | none => exact gives_ret none
      | some s => exact ih s

/-- `process_directory` on the objects. -/
theorem processDirectory_gives (hn : ∀ k, (chains k).length ≤ n) (depth : ℕ) (dirname : Bytes)
    (st : Session) : Gives fails (tableAt d b chains)
      (processDirectory fs n d suffix depth dirname st)
      (Spell.processDirectory fs (dictOf chains) suffix depth dirname st) := by
  induction depth generalizing dirname st with
  | zero => exact gives_ret none
  | succ depth ih =>
      rw [processDirectory, Spell.processDirectory]
      cases fs.opendir dirname with
      | none => exact gives_ret _
      | some names =>
          refine forEach_gives (fun st name => ?_) st names
          cases hidden name with
          | true => exact gives_ret _
          | false =>
              dsimp only
              cases fs.stat ((dirname ++ ascii "/" ++ name).take (pathSize - 1)) with
              | none => exact gives_ret _
              | some t =>
                  cases t with
                  | directory => exact ih _ st
                  | regular =>
                      dsimp only
                      cases endsWith name suffix with
                      | true => exact gives_some (sessionCheck_gives hn st)
                      | false => exact gives_ret _
                  | other => exact gives_ret _

theorem checkArgument_gives (hn : ∀ k, (chains k).length ≤ n) (st : Session) (arg : Bytes) :
    Gives fails (tableAt d b chains) (checkArgument fs n d suffix printFilename st arg)
      (Spell.checkArgument fs (dictOf chains) suffix printFilename st arg) := by
  rw [checkArgument, Spell.checkArgument]
  cases fs.stat arg with
  | none => exact gives_ret _
  | some t =>
      cases t with
      | directory => exact processDirectory_gives hn _ arg st
      | regular => exact gives_some (sessionCheck_gives hn st)
      | other => exact gives_some (sessionCheck_gives hn st)

theorem checkArguments_gives (hn : ∀ k, (chains k).length ≤ n) (files : List Bytes) :
    Gives fails (tableAt d b chains) (checkArguments fs n d suffix files)
      (Spell.checkArguments fs (dictOf chains) suffix files) := by
  rw [checkArguments, Spell.checkArguments]
  cases files with
  | nil => exact gives_some (sessionCheck_gives hn _)
  | cons arg files => exact forEach_gives (checkArgument_gives hn) _ _

/-! ### `main` -/

/-- What the program leaves: nothing, or the table of the dictionary in one of these files. -/
inductive Leaves (fs : FileSystem) (args : List Bytes) : Objects → Prop where
  | nothing : Leaves fs args 0
  | table {path : Bytes} {d b : Addr} {chains : Chains} (arg : path ∈ args)
      (loaded : Spell.loadDictionary (fs.openFile path) = ⟨0, some (dictOf chains), []⟩) :
      Leaves fs args (tableAt d b chains)

/-- How many cells of a chain the loops may have to look at. -/
def fuel (fs : FileSystem) : List Bytes → ℕ
  | [] => 0
  | path :: args =>
    max (match fs.openFile path with
      | .error _ => 0
      | .ok file => file.flatten.length + 1) (fuel fs args)

theorem length_le_fuel {args : List Bytes} {path : Bytes} (h : path ∈ args)
    (ho : fs.openFile path = .ok file) : file.flatten.length + 1 ≤ fuel fs args := by
  induction args with
  | nil => cases h
  | cons arg args ih =>
      rw [fuel]
      rcases List.mem_cons.mp h with rfl | h
      · rw [ho]
        exact Nat.le_max_left _ _
      · exact (ih h).trans (Nat.le_max_right _ _)

theorem checkWith_meets {args args' : List Bytes} (hsub : ∀ a ∈ args', a ∈ args)
    (hn : fuel fs args ≤ n) : Meets False 0 (checkWith fs n suffix args') fun r m =>
      r = Spell.checkWith fs suffix args' ∧ Leaves fs args m := by
  cases args' with
  | nil => exact meets_ret ⟨rfl, .nothing⟩
  | cons dictionary files =>
      have harg := hsub dictionary List.mem_cons_self
      rw [checkWith, Spell.checkWith]
      cases ho : fs.openFile dictionary with
      | error e => exact meets_ret ⟨rfl, .nothing⟩
      | ok file =>
          have hlen := (length_le_fuel harg ho).trans hn
          refine (loadDictionary_meets (fs.reads _ _ ho) hlen).bind fun l m hm => ?_
          obtain ⟨d, b, chains, rfl, rfl, hload, hchains⟩ := hm
          refine meets_deref ((checkArguments_gives hchains files).bind (meets_ret ⟨?_, ?_⟩))
          · rw [hload]
            rfl
          · exact .table harg (by rw [ho, hload])

theorem main_meets {argv₀ : Bytes} {args : List Bytes} (hn : fuel fs args ≤ n) :
    Meets False 0 (main fs n argv₀ args) fun r m =>
      r = Spell.main fs argv₀ args ∧ Leaves fs args m := by
  cases args with
  | nil => exact meets_ret ⟨rfl, .nothing⟩
  | cons arg rest =>
      unfold main Spell.main
      dsimp only
      by_cases hs : arg = ascii "-s"
      · rw [if_pos hs, if_pos hs]
        cases rest with
        | nil => exact meets_ret ⟨rfl, .nothing⟩
        | cons suffix rest =>
            exact checkWith_meets (fun a ha =>
              List.mem_cons_of_mem _ (List.mem_cons_of_mem _ ha)) hn
      · rw [if_neg hs, if_neg hs]
        exact checkWith_meets (fun a ha => ha) hn

/-- **The memory of `spell`**, where no allocation fails: every access is to an allocated object of
its kind and within its array, and every loop over a chain comes to its end; the program prints and
returns what `Spell.main` does; and at the end the objects are those of its dictionary, two for
every entry and two more, or there are none. -/
theorem spell_memory (fs : FileSystem) (argv₀ : Bytes) (args : List Bytes) :
    ∃ N, ∀ n ≥ N, (main fs n argv₀ args).Always (Step False) Valid (fun r h =>
      r = Spell.main fs argv₀ args ∧ ∃ m, Exactly h m ∧ (m = 0 ∨
        ∃ path ∈ args, ∃ dict, Spell.loadDictionary (fs.openFile path) = ⟨0, some dict, []⟩ ∧
          m.card = 2 + 2 * dict.entries.length)) fun _ => none := by
  refine ⟨fuel fs args, fun n hn => (main_meets hn).always.imp fun r h hm => ?_⟩
  obtain ⟨m, ⟨hr, hleaves⟩, hex⟩ := hm
  refine ⟨hr, m, hex, ?_⟩
  cases hleaves with
  | nothing => exact .inl rfl
  | table arg loaded => exact .inr ⟨_, arg, _, loaded, card_tableAt⟩

end CS214.Spell.Memory
