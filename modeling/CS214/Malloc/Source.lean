import CS214.Lib.ByteMemory
import CS214.Lib.FlagWord

/-!
# Malloc — the functions of `mymalloc.c`

Pointers and `size_t` are 64-bit words and their arithmetic wraps; memory is a byte for every
address, words in it little-endian.  `Arena` is where the linker put the union `heap`.

The `while` loops of `find_free` and `coalesce` are recursions on a bound on the number of
iterations; `none` says that the bound was used up.  `loopBound` iterations are enough on every
heap the headers tile (`findFree_spec`, `coalesce_spec`).
-/

namespace CS214.Malloc

/-- `MEMLENGTH`. -/
def memLength : UInt64 := 4096

/-- `HEADER_SIZE`. -/
def headerSize : UInt64 := 8

/-- `MIN_CHUNK_SIZE`. -/
def minChunkSize : UInt64 := 16

@[simp] theorem minChunkSize_toNat : minChunkSize.toNat = 16 := rfl

/-- The address of `heap.bytes`.  The union has a `double` member, so it is 8-aligned; a static
object is not at the null address, and one past its end is still an address. -/
structure Arena where
  bytes : UInt64
  aligned : bytes.toNat % 8 = 0
  nonnull : 0 < bytes.toNat
  fits : bytes.toNat + 4096 < 2 ^ 64

/-- `heap.bytes + MEMLENGTH`. -/
def Arena.limit (A : Arena) : UInt64 := A.bytes + memLength

/-- The static state: memory, which holds `heap`, and `initialized`. -/
structure Heap where
  mem : ByteMemory
  initialized : Bool

/-- `chunk->size_and_flag`. -/
def sizeAndFlag (m : ByteMemory) (chunk : UInt64) : UInt64 := m.load64 chunk.toNat

/-- `chunk->size_and_flag = w`. -/
def setSizeAndFlag (m : ByteMemory) (chunk w : UInt64) : ByteMemory := m.store64 chunk.toNat w

/-- `chunk->size_and_flag & ~1`. -/
def chunkSize (m : ByteMemory) (chunk : UInt64) : UInt64 := sizeAndFlag m chunk &&& ~~~1

/-- `!(chunk->size_and_flag & 1)`. -/
def isFree (m : ByteMemory) (chunk : UInt64) : Bool := sizeAndFlag m chunk &&& 1 == 0

/-- How many iterations a loop over the chunks is given. -/
def loopBound : ℕ := 1024

/-- `init_heap`: one free chunk that takes up the whole array. -/
def initHeap (A : Arena) (h : Heap) : Heap :=
  { mem := setSizeAndFlag h.mem A.bytes ((memLength - headerSize) &&& ~~~1), initialized := true }

/-- The loop of `find_free`; `some 0` is `NULL`, and it may run out of rounds. -/
def findFreeLoop (A : Arena) (m : ByteMemory) (size : UInt64) : ℕ → UInt64 → Option UInt64
  | 0, _ => none
  | n + 1, curr =>
    if curr < A.limit then
      if chunkSize m curr = 0 ∨ A.limit < curr + headerSize + chunkSize m curr then some 0
      else if isFree m curr ∧ size ≤ chunkSize m curr then some curr
      else findFreeLoop A m size n (curr + headerSize + chunkSize m curr)
    else some 0

/-- `find_free`: the chunk, or the null pointer. -/
def findFree (A : Arena) (m : ByteMemory) (size : UInt64) : Option UInt64 :=
  findFreeLoop A m size loopBound A.bytes

/-- `split_chunk`: what the request does not need becomes a free chunk, if there is room for one. -/
def splitChunk (m : ByteMemory) (chunk size : UInt64) : ByteMemory :=
  if size + minChunkSize ≤ chunkSize m chunk then
    let newChunk := chunk + headerSize + size
    let remaining := chunkSize m chunk - size - headerSize
    let m := setSizeAndFlag m newChunk (remaining &&& ~~~1)
    setSizeAndFlag m chunk ((size &&& ~~~1) ||| (sizeAndFlag m chunk &&& 1))
  else m

/-- The loop of `coalesce`: a free chunk takes in the free one behind it, and is looked at again. -/
def coalesceLoop (A : Arena) : ℕ → ByteMemory → UInt64 → Option ByteMemory
  | 0, _, _ => none
  | n + 1, m, curr =>
    if curr < A.limit then
      if chunkSize m curr = 0 then some m
      else
        let next := curr + headerSize + chunkSize m curr
        if isFree m curr ∧ next < A.limit ∧ 0 < chunkSize m next ∧ isFree m next then
          let merged := chunkSize m curr + headerSize + chunkSize m next
          -- `continue`: the loop looks at the same chunk again
          coalesceLoop A n (setSizeAndFlag m curr (merged &&& ~~~1)) curr
        else coalesceLoop A n m next
    else some m

/-- `coalesce`, from the first chunk on. -/
def coalesce (A : Arena) (m : ByteMemory) : Option ByteMemory :=
  coalesceLoop A loopBound m A.bytes

/-- `valid_ptr`: the pointer is into the array and is a multiple of 8. -/
def validPtr (A : Arena) (p : UInt64) : Bool :=
  if p < A.bytes ∨ A.limit ≤ p then false
  else if p % 8 ≠ 0 then false
  else true

/-- What a call does: it returns, it ends the program, or a loop used up its bound.  The text is
what the call prints on `stderr`. -/
inductive Outcome (α : Type) where
  | ret (value : α) (heap : Heap) (stderr : String)
  | exit (status : ℕ) (heap : Heap) (stderr : String)
  | loops

/-- `find_free`, and when it fails `coalesce` and `find_free` again. -/
def findChunk (A : Arena) (m : ByteMemory) (aligned : UInt64) : Option (UInt64 × ByteMemory) := do
  let chunk ← findFree A m aligned
  if chunk ≠ 0 then return (chunk, m)
  let m ← coalesce A m
  let chunk ← findFree A m aligned
  return (chunk, m)

/-- `split_chunk(chunk, size); chunk->size_and_flag |= 1;` -/
def take (m : ByteMemory) (chunk size : UInt64) : ByteMemory :=
  let m := splitChunk m chunk size
  setSizeAndFlag m chunk (sizeAndFlag m chunk ||| 1)

/-- `if (!initialized) init_heap();` -/
def ready (A : Arena) (h : Heap) : Heap := if h.initialized then h else initHeap A h

/-- The message of a `mymalloc` that fails. -/
def unableToAllocate (size : UInt64) (file : String) (line : ℤ) : String :=
  s!"malloc: Unable to allocate {size} bytes ({file}:{line})\n"

/-- `mymalloc`: the first free chunk that is large enough, looked for a second time behind
`coalesce`; where there is none, a message and `NULL`, and for no bytes just `NULL`. -/
def mymalloc (A : Arena) (h : Heap) (size : UInt64) (file : String) (line : ℤ) : Outcome UInt64 :=
  let h := ready A h
  if size = 0 then .ret 0 h ""
  else
    let aligned := (size + 7) &&& ~~~7
    match findChunk A h.mem aligned with
    | none => .loops
    | some (chunk, m) =>
      if chunk = 0 then
        .ret 0 { h with mem := m } (unableToAllocate size file line)
      else
        let m := take m chunk aligned
        .ret (chunk + headerSize) { h with mem := m } ""

/-- `chunk->size_and_flag &= ~1;` -/
def markFree (m : ByteMemory) (chunk : UInt64) : ByteMemory :=
  setSizeAndFlag m chunk (sizeAndFlag m chunk &&& ~~~1)

/-- The message of `myfree` and the exit after it. -/
def inappropriate (h : Heap) (file : String) (line : ℤ) : Outcome Unit :=
  .exit 2 h s!"free: Inappropriate pointer ({file}:{line})\n"

/-- `myfree`: the chunk before `ptr` becomes free, after the checks that can end the process. -/
def myfree (A : Arena) (h : Heap) (ptr : UInt64) (file : String) (line : ℤ) : Outcome Unit :=
  if ptr = 0 then .ret () h ""
  else if !validPtr A ptr then inappropriate h file line
  else
    let chunk := ptr - headerSize
    if !validPtr A chunk then inappropriate h file line
    else if isFree h.mem chunk then inappropriate h file line
    else if chunkSize h.mem chunk = 0 ∨
        A.limit < chunk + headerSize + chunkSize h.mem chunk then inappropriate h file line
    else
      (coalesce A (markFree h.mem chunk)).elim .loops fun m => .ret () { h with mem := m } ""

end CS214.Malloc
