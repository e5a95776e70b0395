import CS214.Lib.ByteMemory
import CS214.Lib.LinkedList
import CS214.Lib.NodeList
import CS214.Lib.ObjectHeap
import CS214.Lib.FlagWord
import CS214.Lib.BlockList
import CS214.Lib.FreeRuns
import CS214.Lib.Runs
import CS214.Lib.Imperative
import CS214.Lib.Program
import CS214.Lib.CString
import CS214.Lib.Pieces
import CS214.Lib.PrefixCode
import CS214.Lib.Fields
import CS214.Lib.NimGame
import CS214.Lib.NimSum
import CS214.Lib.Roster
import CS214.Lib.Numbers
import CS214.Lib.Traversal
import CS214.Malloc.Source
import CS214.Malloc.Tiling
import CS214.Malloc.Calls
import CS214.Malloc.Client
import CS214.Malloc.Integrity
import CS214.Malloc.InvalidFree
import CS214.Malloc.Refinement
import CS214.Malloc.Layout
import CS214.Malloc.Range
import CS214.Malloc.Failure
import CS214.Malloc.Capacity
import CS214.Malloc.Leaks
import CS214.Malloc.Coalesce
import CS214.Malloc.Room
import CS214.Malloc.Ownership
import CS214.Malloc.Process
import CS214.Malloc.Memgrind
import CS214.Malloc.MemgrindList
import CS214.Malloc.MemgrindArray
import CS214.Malloc.Memtest
import CS214.Spell.Dictionary
import CS214.Spell.Representation
import CS214.Spell.Checker
import CS214.Spell.Normalize
import CS214.Spell.Directory
import CS214.Spell.ExitStatus
import CS214.Spell.Output
import CS214.Spell.Volume
import CS214.Spell.Truncation
import CS214.Spell.Memory
import CS214.Spell.MemoryTable
import CS214.Spell.MemoryMain
import CS214.Shell.Parse
import CS214.Shell.Exec
import CS214.Shell.Loop
import CS214.Shell.Reading
import CS214.Shell.Process
import CS214.Shell.Rules
import CS214.Shell.Status
import CS214.Shell.Wiring
import CS214.Shell.Output
import CS214.Shell.Failures
import CS214.Shell.Session
import CS214.Shell.Redirection
import CS214.Shell.Grammar
import CS214.Shell.RoundTrip
import CS214.Shell.Bounds
import CS214.Shell.Script
import CS214.Shell.Tokens
import CS214.Shell.Memory
import CS214.Shell.MemoryTokens
import CS214.Shell.MemoryJobs
import CS214.Shell.MemoryLoop
import CS214.Nim.Frame
import CS214.Nim.Codec
import CS214.Nim.Game
import CS214.Nim.Iteration
import CS214.Nim.Play
import CS214.Nim.Blocking
import CS214.Nim.Outcome
import CS214.Nim.Server
import CS214.Nim.Places
import CS214.Nim.Network
import CS214.Nim.Rawc
import CS214.Nim.Matchmaking
import CS214.Nim.Starts
import CS214.Nim.Descriptors
import CS214.Nim.Drain
import CS214.Nim.Leaving
import CS214.Nim.Lock
import CS214.Nim.Atomicity
import CS214.Nim.Transcript
import CS214.Nim.Boards
import CS214.Nim.Fields
import CS214.Nim.Strategy
import CS214.Nim.Conversation
