import CS214.Lib.ObjectHeap
import CS214.Shell.Reading

/-!
# Shell — the memory of `parse.c` and `shell.c`

The functions with the objects they allocate: `tokenize`, `free_tokens`, `parse_job`, `free_job`,
`read_command` and `shell_loop` as they work on the heap, with every pointer they follow and every
branch for an allocation that fails.  An address is a pointer that is not `NULL`.

* The object of a string is what stands before its terminator; the buffer of `read_command` holds
  the bytes that were read.
* Of what `strtok_r` does to `line_copy`, the place where it goes on is kept as the rest of the
  string.
* `execute_job` gets the job its pointers lead to, and its calls are those of its program.
* A write behind the end of `argv` or of `job->segments` is the call `overflow`, with no answer.
-/

open CString ObjectHeap

namespace CS214.Shell.Memory

/-! ### Objects -/

/-- The address of a block. -/
abbrev Addr := ℕ

/-- `TokenArray`. -/
structure TokenArray where
  items : Option Addr
  count : ℕ
  capacity : ℕ

/-- `JobSegment`, with pointers. -/
structure JobSegment where
  argv : Addr
  argc : ℕ
  inputFile : Option Addr
  outputFile : Option Addr

/-- `Job`, with pointers. -/
structure Job where
  segments : Option Addr
  count : ℕ

/-- What a block holds.  `items` has room for `capacity` tokens, each with its type and value. -/
inductive Obj where
  | raw
  | chars (s : Bytes)
  | tokenArray (tokens : TokenArray)
  | items (capacity : ℕ) (ts : List (TokenType × Addr))
  | job (job : Job)
  | segments (segs : List JobSegment)
  | argv (ptrs : List (Option Addr))

namespace Obj

/-- The string, if the block holds one. -/
def chars? : Obj → Option Bytes
  | .chars s => some s
  | _ => none

/-- The token array, if the block holds one. -/
def tokenArray? : Obj → Option TokenArray
  | .tokenArray tokens => some tokens
  | _ => none

/-- The tokens and the room for them, if the block is the `items` of an array. -/
def items? : Obj → Option (ℕ × List (TokenType × Addr))
  | .items capacity ts => some (capacity, ts)
  | _ => none

/-- The job, if the block holds one. -/
def job? : Obj → Option Job
  | .job j => some j
  | _ => none

/-- The segments, if the block is the array of a job. -/
def segments? : Obj → Option (List JobSegment)
  | .segments segs => some segs
  | _ => none

/-- The pointers, if the block is the `argv` of a segment. -/
def argv? : Obj → Option (List (Option Addr))
  | .argv ptrs => some ptrs
  | _ => none

/-- `realloc(tokens->items, capacity * sizeof(Token))` -/
def resize (capacity : ℕ) : Obj → Obj
  | .items _ ts => .items capacity ts
  | o => o

end Obj

/-! ### Calls that leave the heap alone -/

/-- A call of the program of `execute_job`, or a `read` of one byte. -/
inductive Outside where
  | sys (c : Call)
  | read

/-- `read` fails, comes to the end of the file, or gives a byte. -/
def Outside.Answer : Outside → Type
  | .sys c => c.Answer
  | .read => Except Bytes (Option UInt8)

/-- A program on the blocks that also makes the calls outside. -/
abbrev MemM (β : Type) := Prog Addr Obj Outside.Answer β

/-- A program that only makes calls outside the heap. -/
def sys {β : Type} (p : SysM β) : MemM β := embed Outside.sys (fun _ x => x) p

/-- `read` of one byte from the input. -/
def read : MemM (Except Bytes (Option UInt8)) := other Outside.read

/-- `perror` behind an allocation that failed. -/
def noMemory (what : Bytes) : MemM Bytes := do
  let text := what ++ ascii ": Cannot allocate memory\n"
  sys (eprintf text)
  return text

/-- `free`, which takes `NULL` too. -/
def freePtr (p : Option Addr) : MemM Unit := p.elim (.ret ()) free

/-! ### `free_tokens` and `tokenize` -/

/-- `tokens->items[i]` -/
def itemAt (tokens : TokenArray) (i : ℕ) : MemM (TokenType × Addr) := do
  let items ← deref tokens.items
  let ts ← view Obj.items? items
  ts.2[i]?.elim fault .ret

/-- The loop of `free_tokens`, with the number of tokens that are left. -/
def freeValues (tokens : Addr) (i : ℕ) : ℕ → MemM Unit
  | 0 => return ()
  | n + 1 => do
    let t ← view Obj.tokenArray? tokens
    let item ← itemAt t i
    free item.2
    freeValues tokens (i + 1) n

/-- `free_tokens`: the values, the items and the array itself. -/
def freeTokens : Option Addr → MemM Unit
  | none => return ()
  | some tokens => do
    let t ← view Obj.tokenArray? tokens
    freeValues tokens 0 t.count
    freePtr t.items
    free tokens

/-- The `realloc` of a full array; whether there is room now. -/
def growItems (tokens : Addr) : MemM Bool := do
  let t ← view Obj.tokenArray? tokens
  if t.count ≥ t.capacity then do
    store tokens (.tokenArray { t with capacity := t.capacity * 2 })
    let items ← deref t.items
    match ← realloc items (Obj.resize (t.capacity * 2)) with
    | none => return false
    | some items => do
      store tokens (.tokenArray { t with items := some items, capacity := t.capacity * 2 })
      return true
  else return true

/-- `tokens->items[tokens->count++] = token` -/
def pushToken (tokens : Addr) (token : TokenType × Addr) : MemM Unit := do
  let t ← view Obj.tokenArray? tokens
  let items ← deref t.items
  let ts ← view Obj.items? items
  if t.count = ts.2.length ∧ t.count < ts.1 then do
    store items (.items ts.1 (ts.2 ++ [token]))
    store tokens (.tokenArray { t with count := t.count + 1 })
  else fault

/-- The loop over the tokens of the copy; the last argument is where `strtok_r` goes on. -/
def tokenLoop (tokens copy : Addr) : ℕ → Bytes → MemM (Option Addr)
  | 0, _ => do
    free copy
    return some tokens
  | n + 1, s => do
    let _ ← view Obj.chars? copy
    match strtok s with
    | none => do
      free copy
      return some tokens
    | some (v, rest) => do
      match ← malloc (.chars v) with
      | none => do
        let _ ← noMemory (ascii "strdup")
        free copy
        freeTokens (some tokens)
        return none
      | some value => do
        let room ← growItems tokens
        if room then do
          pushToken tokens (tokenType v, value)
          tokenLoop tokens copy n rest
        else do
          let _ ← noMemory (ascii "realloc")
          free copy
          freeTokens (some tokens)
          return none

/-- `tokenize`: a token array in blocks of its own, or `NULL` where an allocation fails. -/
def tokenize (line : Addr) : MemM (Option Addr) := do
  match ← malloc .raw with
  | none => do
    let _ ← noMemory (ascii "malloc")
    return none
  | some tokens => do
    let items ← malloc (.items 100 [])
    store tokens (.tokenArray ⟨items, 0, 100⟩)
    match items with
    | none => do
      let _ ← noMemory (ascii "malloc")
      free tokens
      return none
    | some _ => do
      let text ← view Obj.chars? line
      let s := text.dropWhile isSpace
      if s.head? = some 35 then return some tokens
      else do
        match ← malloc (.chars (cleanLine s)) with
        | none => do
          let _ ← noMemory (ascii "malloc")
          freeTokens (some tokens)
          return none
        | some copy => tokenLoop tokens copy ((cleanLine s).length + 1) (cleanLine s)

/-! ### `free_job` and `parse_job` -/

/-- `job->segments[i]` -/
def segmentAt (job : Job) (i : ℕ) : MemM JobSegment := do
  let segments ← deref job.segments
  let segs ← view Obj.segments? segments
  segs[i]?.elim fault .ret

/-- The loop of `free_job`, with the number of segments that are left. -/
def freeArgvs (job : Addr) (i : ℕ) : ℕ → MemM Unit
  | 0 => return ()
  | n + 1 => do
    let j ← view Obj.job? job
    let seg ← segmentAt j i
    free seg.argv
    freeArgvs job (i + 1) n

/-- `free_job`: the `argv` of the segments, the segments and the job, but none of the strings. -/
def freeJob : Option Addr → MemM Unit
  | none => return ()
  | some job => do
    let j ← view Obj.job? job
    freeArgvs job 0 j.count
    freePtr j.segments
    free job

/-- `tokens->items[token_idx]`, if `token_idx < tokens->count`. -/
def tokenAt (tokens : Addr) (i : ℕ) : MemM (Option (TokenType × Addr)) := do
  let t ← view Obj.tokenArray? tokens
  if i < t.count then do
    let item ← itemAt t i
    return some item
  else return none

/-- The value of that token, if it is a word. -/
def wordAt (tokens : Addr) (i : ℕ) : MemM (Option Addr) := do
  match ← tokenAt tokens i with
  | some (.word, value) => return some value
  | _ => return none

/-- A message, and the release of the segment and of the job; the message stands for the `NULL`
that is returned. -/
def giveUp {β : Type} (stderr : Bytes) (argv job : Addr) : MemM (Except Bytes β) := do
  sys (eprintf stderr)
  free argv
  freeJob (some job)
  return .error stderr

/-- The inner loop, from the token at `token_idx` on; every turn uses up a token. -/
def parseSegment (tokens job : Addr) :
    ℕ → JobSegment → ℕ → MemM (Except Bytes (JobSegment × ℕ))
  | 0, seg, i => return .ok (seg, i)
  | n + 1, seg, i => do
    match ← tokenAt tokens i with
    | none => return .ok (seg, i)
    | some (.pipe, _) => return .ok (seg, i)
    | some (.redirectIn, _) => do
      match ← wordAt tokens (i + 1) with
      | some value => parseSegment tokens job n { seg with inputFile := some value } (i + 2)
      | none => giveUp (ascii "Syntax error: < requires filename\n") seg.argv job
    | some (.redirectOut, _) => do
      match ← wordAt tokens (i + 1) with
      | some value => parseSegment tokens job n { seg with outputFile := some value } (i + 2)
      | none => giveUp (ascii "Syntax error: > requires filename\n") seg.argv job
    | some (.word, value) =>
      if seg.argc < argvCapacity then do
        let ptrs ← view Obj.argv? seg.argv
        store seg.argv (.argv (ptrs ++ [some value]))
        parseSegment tokens job n { seg with argc := seg.argc + 1 } (i + 1)
      else sys overflow
    | some _ => giveUp (ascii "Syntax error in pipeline\n") seg.argv job

/-- `segment.argv[segment.argc] = NULL; job->segments[job->segment_count++] = segment` -/
def pushSegment (job : Addr) (seg : JobSegment) : MemM Unit := do
  if seg.argc < argvCapacity then do
    let ptrs ← view Obj.argv? seg.argv
    store seg.argv (.argv (ptrs ++ [none]))
    let j ← view Obj.job? job
    if j.count < segmentCapacity then do
      let segments ← deref j.segments
      let segs ← view Obj.segments? segments
      store segments (.segments (segs ++ [seg]))
      store job (.job { j with count := j.count + 1 })
    else sys overflow
  else sys overflow

/-- The step over a pipe behind a segment: where the next one starts. -/
def skipPipe (tokens : Addr) (i : ℕ) : MemM ℕ := do
  match ← tokenAt tokens i with
  | some (.pipe, _) => return i + 1
  | _ => return i

/-- What is behind the outer loop. -/
def finishJob (job : Addr) : MemM (Except Bytes Addr) := do
  let j ← view Obj.job? job
  if j.count = 0 then do
    sys (eprintf (ascii "Syntax error: no command\n"))
    freePtr j.segments
    free job
    return .error (ascii "Syntax error: no command\n")
  else return .ok job

/-- The outer loop, from the token at `token_idx` on; every turn uses up a token. -/
def parseLoop (tokens job : Addr) : ℕ → ℕ → MemM (Except Bytes Addr)
  | 0, _ => finishJob job
  | n + 1, i => do
    match ← tokenAt tokens i with
    | none => finishJob job
    | some _ => do
      match ← malloc (.argv []) with
      | none => do
        let e ← noMemory (ascii "malloc")
        freeJob (some job)
        return .error e
      | some argv => do
        let t ← view Obj.tokenArray? tokens
        match ← parseSegment tokens job t.count ⟨argv, 0, none, none⟩ i with
        | .error e => return .error e
        | .ok (seg, i) =>
          if seg.argc = 0 then giveUp (ascii "Syntax error: empty command\n") seg.argv job
          else do
            pushSegment job seg
            let i ← skipPipe tokens i
            parseLoop tokens job n i

/-- The job, or the message behind which `NULL` is returned; and `*conditional_type`. -/
def parseJob (tokens : Addr) : MemM (Except Bytes Addr × ℕ) := do
  match ← malloc .raw with
  | none => do
    let e ← noMemory (ascii "malloc")
    return (.error e, 0)
  | some job => do
    let segments ← malloc (.segments [])
    store job (.job ⟨segments, 0⟩)
    match segments with
    | none => do
      let e ← noMemory (ascii "malloc")
      free job
      return (.error e, 0)
    | some _ => do
      let t ← view Obj.tokenArray? tokens
      let first ← tokenAt tokens 0
      match first.map Prod.fst with
      | some .and => do
        let r ← parseLoop tokens job (t.count - 1) 1
        return (r, TokenType.and.code)
      | some .or => do
        let r ← parseLoop tokens job (t.count - 1) 1
        return (r, TokenType.or.code)
      | _ => do
        let r ← parseLoop tokens job t.count 0
        return (r, 0)

/-! ### `read_command` -/

/-- The loop, with the number of bytes there is room for. -/
def readLoop (buffer : Addr) : ℕ → MemM (Option Addr)
  | 0 => do
    sys (eprintf tooLong)
    free buffer
    return none
  | n + 1 => do
    match ← read with
    | .error e => do
      sys (perror (ascii "read") e)
      free buffer
      return none
    | .ok none => do
      let s ← view Obj.chars? buffer
      if s.length = 0 then do
        free buffer
        return none
      else do
        store buffer (.chars (untilNul s))
        return some buffer
    | .ok (some b) => do
      let s ← view Obj.chars? buffer
      if b = 10 then do
        store buffer (.chars (untilNul s))
        return some buffer
      else do
        store buffer (.chars (s ++ [b]))
        readLoop buffer n

/-- `read_command`: a block with the line, or `NULL`. -/
def readCommand : MemM (Option Addr) := do
  match ← malloc (.chars []) with
  | none => do
    let _ ← noMemory (ascii "malloc")
    return none
  | some buffer => readLoop buffer (bufferSize - 1)

/-! ### `shell_loop` -/

/-- The string a pointer leads to. -/
def readString (p : Option Addr) : MemM (Option Bytes) :=
  p.elim (.ret none) fun a => do
    let s ← view Obj.chars? a
    return some s

/-- The strings that the pointers of an `argv` lead to. -/
def readArgs : List (Option Addr) → MemM (List (Option Bytes))
  | [] => return []
  | p :: ps => do
    let s ← readString p
    let args ← readArgs ps
    return s :: args

/-- The segments with the strings that their pointers lead to. -/
def readSegments : List JobSegment → MemM (List Shell.JobSegment)
  | [] => return []
  | seg :: segs => do
    let ptrs ← view Obj.argv? seg.argv
    let args ← readArgs ptrs
    let inputFile ← readString seg.inputFile
    let outputFile ← readString seg.outputFile
    let rest ← readSegments segs
    return ⟨args, seg.argc, inputFile, outputFile⟩ :: rest

/-- What the pointers of a job lead to. -/
def readJob (job : Addr) : MemM Shell.Job := do
  let j ← view Obj.job? job
  let segments ← deref j.segments
  let segs ← view Obj.segments? segments
  let js ← readSegments (segs.take j.count)
  return ⟨js⟩

/-- `job->segment_count > 0 && strcmp(job->segments[0].argv[0], "exit") == 0` -/
def namesExit (job : Addr) : MemM Bool := do
  let j ← view Obj.job? job
  if 0 < j.count then do
    let seg ← segmentAt j 0
    let ptrs ← view Obj.argv? seg.argv
    let p ← deref (ptrs.getD 0 none)
    let s ← view Obj.chars? p
    return s = ascii "exit"
  else return false

/-- `tokens == NULL || tokens->count == 0` -/
def isBlank (tokens : Option Addr) : MemM Bool :=
  tokens.elim (.ret true) fun t => do
    let a ← view Obj.tokenArray? t
    return a.count = 0

/-- What is released at the end of a turn. -/
def release (line : Addr) (tokens job : Option Addr) : MemM Unit := do
  free line
  freeTokens tokens
  freeJob job

/-- A leading `and` behind a failure, or a leading `or` behind a success. -/
def skips (conditionalType : ℕ) (exitStatus : ℤ) : Bool :=
  (conditionalType = TokenType.and.code && exitStatus ≠ 0) ||
    (conditionalType = TokenType.or.code && exitStatus = 0)

/-- The rest of a turn on a line with tokens; `next` is the loop from a status on. -/
def jobTurn (interactive : Bool) (exitStatus : ℤ) (line : Addr) (text : Bytes) (tokens : Addr)
    (next : ℤ → MemM (List Turn)) : MemM (List Turn) := do
  let (job, conditionalType) ← parseJob tokens
  match job with
  | .error e => do
    release line (some tokens) none
    let turns ← next 1
    return ⟨text, .syntaxError e, ⟨0, 0⟩⟩ :: turns
  | .ok job =>
    if skips conditionalType exitStatus then do
      release line (some tokens) (some job)
      let turns ← next exitStatus
      return ⟨text, .skip, ⟨0, 0⟩⟩ :: turns
    else do
      let j ← readJob job
      let result ← sys (executeJob j interactive)
      let named ← namesExit job
      release line (some tokens) (some job)
      if result.ret = -1 ∨ named = true then return [⟨text, .execute j, result⟩]
      else do
        let turns ← next result.status
        return ⟨text, .execute j, result⟩ :: turns

/-- At most so many turns of the loop; what it returns is the record of them. -/
def shellLoop (interactive : Bool) : ℕ → ℤ → MemM (List Turn)
  | 0, _ => return []
  | n + 1, exitStatus => do
    sys (prompt interactive)
    match ← readCommand with
    | none => return []
    | some line => do
      let text ← view Obj.chars? line
      let tokens ← tokenize line
      let blank ← isBlank tokens
      if blank then do
        release line tokens none
        let turns ← shellLoop interactive n exitStatus
        return ⟨text, .blank, ⟨0, 0⟩⟩ :: turns
      else do
        let tokens ← deref tokens
        jobTurn interactive exitStatus line text tokens (shellLoop interactive n)

end CS214.Shell.Memory
