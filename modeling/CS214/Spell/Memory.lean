import CS214.Lib.ObjectHeap
import CS214.Spell.ExitStatus

/-!
# Spell — the memory of `spell.c`

The program with the objects it allocates: the dictionary, its array of 50000 buckets, and for every
entry the entry and the copy of its word.  The loop over a chain follows its pointers, at most so
many; a string that is written to an array of `MAX_WORD_LEN` bytes has to fit it.

`malloc`, `calloc` and `strdup` are not checked in the source, and what they return is used at once.
-/

open CString ObjectHeap

namespace CS214.Spell.Memory

/-! ### Objects -/

/-- The address of a block. -/
abbrev Addr := ℕ

/-- `dict_entry_t`. -/
structure DictEntry where
  word : Option Addr
  hasCapital : Bool
  next : Option Addr

/-- `dict_t`. -/
structure Dict where
  buckets : Option Addr
  size : ℕ

/-- What a block holds. -/
inductive Obj where
  | raw
  | dict (d : Dict)
  | buckets (heads : List (Option Addr))
  | entry (e : DictEntry)
  | chars (s : Bytes)

namespace Obj

/-- The dictionary, if the block holds one. -/
def dict? : Obj → Option Dict
  | .dict d => some d
  | _ => none

/-- The heads of the chains, if the block is the array of a dictionary. -/
def buckets? : Obj → Option (List (Option Addr))
  | .buckets heads => some heads
  | _ => none

/-- The entry, if the block holds one. -/
def entry? : Obj → Option DictEntry
  | .entry e => some e
  | _ => none

/-- The string, if the block holds one. -/
def chars? : Obj → Option Bytes
  | .chars s => some s
  | _ => none

end Obj

/-- There are no other calls. -/
abbrev MemM (β : Type) := Prog Addr Obj (fun _ : Empty => Unit) β

/-- A string that is written to an array of `MAX_WORD_LEN` bytes, with its terminator. -/
def buffered (s : Bytes) : MemM Bytes := if s.length < maxWordLen then return s else fault

/-! ### The dictionary -/

/-- `dict_create`. -/
def dictCreate : MemM Addr := do
  let d ← malloc .raw
  let d ← deref d
  store d (.dict ⟨none, hashSize.toNat⟩)
  let buckets ← malloc (.buckets (List.replicate hashSize.toNat none))
  store d (.dict ⟨buckets, hashSize.toNat⟩)
  return d

/-- `d->buckets`: the array and what it holds. -/
def bucketArray (d : Addr) : MemM (Addr × List (Option Addr)) := do
  let dict ← view Obj.dict? d
  let buckets ← deref dict.buckets
  let heads ← view Obj.buckets? buckets
  return (buckets, heads)

/-- `d->buckets[h]` -/
def bucketAt (d : Addr) (h : UInt32) : MemM (Option Addr) := do
  let array ← bucketArray d
  array.2[h.toNat]?.elim fault .ret

/-- `d->buckets[h] = entry` -/
def setBucket (d : Addr) (h : UInt32) (entry : Addr) : MemM Unit := do
  let array ← bucketArray d
  if h.toNat < array.2.length then store array.1 (.buckets (array.2.set h.toNat (some entry)))
  else fault

/-- The loop of `dict_add` and of `dict_lookup`, to the entry it stops at. -/
def findEntry (lower : Bytes) : ℕ → Option Addr → MemM (Option Addr)
  | _, none => return none
  | 0, some _ => fault
  | n + 1, some curr => do
    let e ← view Obj.entry? curr
    let word ← deref e.word
    let s ← view Obj.chars? word
    if s = lower then return some curr else findEntry lower n e.next

/-- `dict_add`; `n` bounds the walk along the chain. -/
def dictAdd (n : ℕ) (d : Addr) (word : Bytes) : MemM Unit := do
  let lower ← buffered (toLowerWord word)
  let head ← bucketAt d (hash lower)
  match ← findEntry lower n head with
  | some curr =>
    if startsUpper word then do
      let e ← view Obj.entry? curr
      store curr (.entry { e with hasCapital := true })
    else return ()
  | none => do
    let entry ← malloc .raw
    let copy ← malloc (.chars lower)
    let entry ← deref entry
    let head ← bucketAt d (hash lower)
    store entry (.entry ⟨copy, startsUpper word, head⟩)
    setBucket d (hash lower) entry

/-- `dict_lookup`. -/
def dictLookup (n : ℕ) (d : Addr) (word : Bytes) : MemM Bool := do
  let lower ← buffered (toLowerWord word)
  let head ← bucketAt d (hash lower)
  match ← findEntry lower n head with
  | some curr => do
    let e ← view Obj.entry? curr
    return if e.hasCapital then startsUpper word else true
  | none => return false

/-! ### Reading a file -/

/-- A loop over the bytes, until a `read` returns nothing. -/
def readFile {σ : Type} (f : σ → UInt8 → MemM σ) (s : σ) : Pieces UInt8 → MemM σ
  | [] => return s
  | p :: ps => if p.isEmpty then return s else p.foldlM f s >>= fun s => readFile f s ps

/-- `if (word_len > 0) { word[word_len] = '\0'; dict_add(dictionary, word); }` -/
def addWord (n : ℕ) (d : Addr) (word : Bytes) : MemM Unit :=
  if word.isEmpty then return () else do
    let word ← buffered word
    dictAdd n d (untilNul word)

/-- One byte of the dictionary file, with the first `word_len` bytes of `word`. -/
def loadByte (n : ℕ) (d : Addr) (word : Bytes) (c : UInt8) : MemM Bytes :=
  if c = 10 then do
    addWord n d word
    return []
  else return if word.length < maxWordLen - 1 then word ++ [c] else word

/-- What `load_dictionary` leaves: its value, the dictionary, and what it prints on `stderr`. -/
structure Loaded where
  ret : ℤ
  dictionary : Option Addr
  stderr : Bytes

/-- `load_dictionary`. -/
def loadDictionary (n : ℕ) : Except Bytes (Pieces UInt8) → MemM Loaded
  | .error e => return ⟨-1, none, ascii "Error opening dictionary: " ++ e ++ ascii "\n"⟩
  | .ok file => do
    let d ← dictCreate
    let word ← readFile (loadByte n d) [] file
    addWord n d word
    return ⟨0, some d, []⟩

/-! ### Checking -/

section

variable (n : ℕ) (d : Addr) (filename : Bytes) (printFilename : Bool)

/-- What `check_file` does at the end of a word. -/
def checkWord (st : Checking) : MemM Checking :=
  if st.word.isEmpty then return st else do
    let buffer ← buffered st.word
    let word := untilNul buffer
    if shouldSkipWord word then return st else do
      let normalized ← buffered (normalizeWord word)
      if normalized.headD 0 ≠ 0 then do
        let found ← dictLookup n d normalized
        return if found then st else
          { st with
            stdout := st.stdout ++ diagnostic filename printFilename st.line st.wordCol normalized
            errorFound := true }
      else return st

/-- What `check_file` does with a byte. -/
def checkByte (st : Checking) (c : UInt8) : MemM Checking :=
  if isSpace c then do
    let st ← checkWord n d filename printFilename st
    return if c = 10 then { st with word := [], line := st.line + 1, col := 1 }
      else { st with word := [], col := st.col + 1 }
  else return { st with
    wordCol := if st.word.isEmpty then st.col else st.wordCol
    word := if st.word.length < maxWordLen - 1 then st.word ++ [c] else st.word
    col := st.col + 1 }

/-- `check_file`. -/
def checkFile (errorFound : Bool) : Except Bytes (Pieces UInt8) → MemM Checked
  | .error _ => return ⟨[], ascii "Error: could not open " ++ filename ++ ascii "\n", true⟩
  | .ok file => do
    let st ← readFile (checkByte n d filename printFilename) ⟨[], 1, 1, 1, [], errorFound⟩ file
    let st ← checkWord n d filename printFilename st
    return ⟨st.stdout, [], st.errorFound⟩

end

/-! ### Directories, and `main` -/

section

variable (fs : FileSystem) (n : ℕ) (d : Addr) (suffix : Bytes)

/-- A call of `check_file`. -/
def sessionCheck (st : Session) (filename : Bytes) (printFilename : Bool) : MemM Session := do
  let r ← checkFile n d filename printFilename st.errorFound (fs.openFile filename)
  return {
    stdout := st.stdout ++ r.stdout
    stderr := st.stderr ++ r.stderr
    errorFound := r.errorFound
    checked := st.checked ++ [(filename, printFilename)] }

/-- A loop that can come to an end early. -/
def forEach {σ α : Type} (f : σ → α → MemM (Option σ)) : σ → List α → MemM (Option σ)
  | s, [] => return some s
  | s, a :: l => do
    match ← f s a with
    | none => return none
    | some s => forEach f s l

/-- `process_directory`, for directories that are nested at most so deep. -/
def processDirectory : ℕ → Bytes → Session → MemM (Option Session)
  | 0, _, _ => return none
  | depth + 1, dirname, st =>
    match fs.opendir dirname with
    | none =>
      return some (st.fail (ascii "Error: could not open directory " ++ dirname ++ ascii "\n"))
    | some names =>
      forEach (fun st name =>
        if hidden name then return some st
        else
          let path := (dirname ++ ascii "/" ++ name).take (pathSize - 1)
          match fs.stat path with
          | none => return some st
          | some .directory => processDirectory depth path st
          | some .regular =>
            if endsWith name suffix then some <$> sessionCheck fs n d st path true
            else return some st
          | some .other => return some st) st names

/-- What `main` does with an argument behind the dictionary. -/
def checkArgument (printFilename : Bool) (st : Session) (arg : Bytes) : MemM (Option Session) :=
  match fs.stat arg with
  | none => return some (st.fail (ascii "Error: could not stat " ++ arg ++ ascii "\n"))
  | some .directory => processDirectory fs n d suffix recursionBound arg st
  | some _ => some <$> sessionCheck fs n d st arg printFilename

/-- The loop of `main` over the arguments, or standard input where there are none. -/
def checkArguments (files : List Bytes) : MemM (Option Session) :=
  let st : Session := ⟨[], [], false, []⟩
  if files.isEmpty then some <$> sessionCheck fs n d st (ascii "/dev/stdin") false
  else forEach (checkArgument fs n d suffix (decide (files.length > 1))) st files

end

variable (fs : FileSystem) (n : ℕ) (suffix : Bytes)

/-- `main` from `load_dictionary` on. -/
def checkWith : List Bytes → MemM (Option Exited)
  | [] => return some ⟨exitFailure, [], ascii "Error: dictionary file required\n"⟩
  | dictionary :: files => do
    let l ← loadDictionary n (fs.openFile dictionary)
    if l.ret < 0 then return some ⟨exitFailure, [], l.stderr⟩
    else do
      let d ← deref l.dictionary
      let r ← checkArguments fs n d suffix files
      return r.map fun st =>
        ⟨if st.errorFound then exitFailure else exitSuccess, st.stdout, l.stderr ++ st.stderr⟩

/-- `main`; the arguments are those behind `argv[0]`. -/
def main (argv₀ : Bytes) : List Bytes → MemM (Option Exited)
  | [] => return some ⟨exitFailure, [],
      ascii "Usage: " ++ argv₀ ++ ascii " [-s suffix] dictionary [file...]\n"⟩
  | arg :: rest =>
    if arg = ascii "-s" then
      match rest with
      | [] => return some ⟨exitFailure, [], ascii "Error: -s requires suffix argument\n"⟩
      | suffix :: rest => checkWith fs n suffix rest
    else checkWith fs n (ascii ".txt") (arg :: rest)

end CS214.Spell.Memory
