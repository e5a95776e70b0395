import Mathlib.Logic.Function.Basic
import CS214.Nim.Game

/-!
# Nim — the threads of the server

The state of the process while `main` accepts connections, a `handle_client` thread serves each of
them, and a `game_thread` runs each game.  `step` is one step of one thread, in any order: a whole
critical section, or one call between them (`send_msg`, `close`, `malloc`, `free`, a `poll` with
what it makes the thread do).

* A connection is numbered by its `accept`; the number of its descriptor is whatever `accept`
  returned, any number that is closed at that moment.  `malloc` returns any address that is not
  allocated.
* Threads work with descriptor numbers and addresses.  Connections, and who allocated an object,
  are known only to the history variables at the end of `Server`: `owner`, `registered`, `removed`
  and `ops`.  No step but those that record history looks at them.
* A freed `Player` keeps its content until its address is allocated again.
-/

namespace CS214.Nim

open CString

/-- A connection, in the order of `accept`; also the thread that handles it. -/
abbrev Cid := ℕ

/-- A descriptor number. -/
abbrev Fd := ℕ

/-- The address of a `Player`. -/
abbrev Addr := ℕ

/-- A game, by the order of creation. -/
abbrev Gid := ℕ

/-- `NAME_LIMIT`. -/
def nameLimit : ℕ := 72

/-- What `char name[NAME_LIMIT + 1]` holds. -/
structure Name where
  bytes : Bytes
  le : bytes.length ≤ nameLimit
deriving DecidableEq

/-- `Player`, without the `id` that nothing reads or writes. -/
structure Player where
  fd : Fd
  name : Name

/-! ### `active_names` -/

/-- `register_name`; none when it returns -1. -/
def registerName (names : List Name) (name : Name) : Option (List Name) :=
  if name ∈ names then none else some (name :: names)

/-- `remove_name`. -/
def removeName (names : List Name) (name : Name) : List Name := names.erase name

/-! ### `handle_client` -/

/-- What a handler still does, one call each. -/
inductive Act where
  | send (text : Bytes)
  | close
  | free (me : Addr)
deriving DecidableEq

/-- Where a handler is. -/
inductive Handler where
  /-- The connection has not been accepted. -/
  | absent
  /-- `main` is about to create the thread. -/
  | accepted
  /-- Before the first `receive_msg`. -/
  | receiving
  /-- Before `register_name(name)`. -/
  | opened (name : Name)
  /-- Before `me = malloc(sizeof(Player))`. -/
  | registered (name : Name)
  /-- Before `send_msg(fd, "WAIT")`. -/
  | greeting (me : Addr)
  /-- Before the matching step. -/
  | matching (me : Addr)
  /-- In the wait loop, without the lock. -/
  | waiting (me : Addr)
  /-- It has left the waiting slot, and reads the client's message. -/
  | withdrawn (me : Addr)
  /-- These calls are left before it returns. -/
  | finishing (todo : List Act)
deriving DecidableEq

/-- After the first message: the calls that refuse the client, or the name it opens with. -/
def openReply : Received → Handler
  | .gone => .finishing [.close]
  | .invalid => .finishing [.send (errorText Received.invalid.rc "Invalid"), .close]
  | .message type body =>
    if type ≠ ascii "OPEN" then .finishing [.send (errorText 10 "Expected OPEN"), .close]
    else if h : body.length ≤ nameLimit then .opened ⟨body, h⟩
    else .finishing [.send (errorText 21 "Long Name"), .close]

/-- The answer to a client that sends something while it waits. -/
def withdrawReply : Received → List Act
  | .gone => []
  | .invalid => [.send (errorText Received.invalid.rc "Invalid")]
  | .message type _ =>
    if type = ascii "OPEN" then [.send (errorText 23 "Already Open")]
    else [.send (errorText 24 "Not Playing")]

/-! ### `game_thread` -/

/-- Where a game is. -/
inductive Game where
  | absent
  /-- `pthread_create` failed: nobody runs the game. -/
  | unstarted (p₁ p₂ : Addr)
  /-- The calls left before the next `poll`, or after the loop before the names are removed. -/
  | running (p₁ p₂ : Addr) (todo : List Effect) (t : Thread)
  /-- The names are removed, and these objects are left to free. -/
  | freeing (todo : List Addr)

/-- The player objects of a game. -/
def Game.seat : Game → Seat → Option Addr
  | .running p₁ _ _ _, .one => some p₁
  | .running _ p₂ _ _, .two => some p₂
  | .unstarted p₁ _, .one => some p₁
  | .unstarted _ p₂, .two => some p₂
  | _, _ => none

/-- What an iteration leaves to be done; after the last one, all that comes after the loop too. -/
def gameTodo (r : List Effect × Thread) : List Effect :=
  if r.2.ended then r.1 ++ epilogue r.2 else r.1

/-! ### The process -/

/-- An operation on a descriptor: for which connection the thread made it, which connection the
number belonged to, and the bytes written, or none for `close`. -/
structure Op where
  conn : Option Cid
  found : Option Cid
  bytes : Option Bytes
deriving DecidableEq

/-- The process: its connections and descriptors, the handlers and games, what `lock` protects, the
objects, and a history that no step reads. -/
structure Server where
  /-- The number of connections accepted. -/
  conns : ℕ
  /-- The connection an open descriptor number belongs to. -/
  fds : Fd → Option Cid
  /-- The local variable `fd` of a handler. -/
  fd : Cid → Fd
  handlers : Cid → Handler
  /-- `active_names`. -/
  names : List Name
  /-- `waiting_player`. -/
  waiting : Option Addr
  players : Addr → Player
  allocated : Addr → Bool
  /-- The number of games created. -/
  created : ℕ
  games : Gid → Game
  /-- History: the connection whose handler allocated the object. -/
  owner : Addr → Option Cid
  /-- History: the name a connection registered. -/
  registered : Cid → Option Name
  /-- History: how often the name of the connection's player was removed. -/
  removed : Cid → ℕ
  /-- History: the operations on descriptors, the last one first. -/
  ops : List Op

/-- The process before the first `accept`. -/
def initial : Server where
  conns := 0
  fds _ := none
  fd _ := 0
  handlers _ := .absent
  names := []
  waiting := none
  players _ := ⟨0, ⟨[], Nat.zero_le _⟩⟩
  allocated _ := false
  created := 0
  games _ := .absent
  owner _ := none
  registered _ := none
  removed _ := 0
  ops := []

namespace Server

/-- The handler of `c` goes on at `h`. -/
def setHandler (s : Server) (c : Cid) (h : Handler) : Server :=
  { s with handlers := Function.update s.handlers c h }

/-- The game `g` goes on at `G`. -/
def setGame (s : Server) (g : Gid) (G : Game) : Server :=
  { s with games := Function.update s.games g G }

/-- `send_msg(fd, …)` for a connection. -/
def send (s : Server) (conn : Option Cid) (fd : Fd) (text : Bytes) : Server :=
  match frame text with
  | none => s
  | some msg => { s with ops := ⟨conn, s.fds fd, some msg⟩ :: s.ops }

/-- `close(fd)` for a connection. -/
def close (s : Server) (conn : Option Cid) (fd : Fd) : Server :=
  { s with fds := Function.update s.fds fd none, ops := ⟨conn, s.fds fd, none⟩ :: s.ops }

/-- `free(a)`. -/
def free (s : Server) (a : Addr) : Server :=
  { s with allocated := Function.update s.allocated a false }

/-- `remove_name(p->name)`. -/
def remove (s : Server) (p : Addr) : Server :=
  { s with
    names := removeName s.names (s.players p).name
    removed := fun c => s.removed c + if s.owner p = some c then 1 else 0 }

/-- One call of a handler. -/
def act (s : Server) (c : Cid) : Act → Server
  | .send text => s.send (some c) (s.fd c) text
  | .close => s.close (some c) (s.fd c)
  | .free me => s.free me

/-- One call of a game thread; `p` is the player it is for. -/
def effect (s : Server) (p : Addr) : Effect → Server
  | .send _ text => s.send (s.owner p) (s.players p).fd text
  | .close _ => s.close (s.owner p) (s.players p).fd

end Server

/-- The player an effect is for. -/
def Effect.who : Effect → Seat
  | .send p _ => p
  | .close p => p

/-- Which thread takes a step, and what the outside gives it. -/
inductive Event where
  /-- `accept` returns this number. -/
  | accept (fd : Fd)
  /-- `pthread_create` for a handler. -/
  | spawn (c : Cid) (ok : Bool)
  | receive (c : Cid) (r : Received)
  | register (c : Cid)
  /-- `malloc` returns this address. -/
  | alloc (c : Cid) (a : Addr)
  | greet (c : Cid)
  /-- The matching step; `ok` is whether `pthread_create` succeeds if it is called. -/
  | enter (c : Cid) (ok : Bool)
  /-- `poll` in the wait loop returned, and the handler takes the lock. -/
  | recheck (c : Cid) (ret : ℤ)
  | reply (c : Cid) (r : Received)
  | act (c : Cid)
  | effect (g : Gid)
  | poll (g : Gid) (w : Wake)
  | unregister (g : Gid)
  | release (g : Gid)

open Function in
/-- One step; none when the thread is not at that point. -/
def step (s : Server) : Event → Option Server
  | .accept fd =>
    if s.fds fd = none then
      some { s.setHandler s.conns .accepted with
        conns := s.conns + 1, fds := update s.fds fd (some s.conns), fd := update s.fd s.conns fd }
    else none
  | .spawn c ok =>
    match s.handlers c with
    | .accepted => some (s.setHandler c (if ok then .receiving else .finishing [.close]))
    | _ => none
  | .receive c r =>
    match s.handlers c with
    | .receiving => some (s.setHandler c (openReply r))
    | _ => none
  | .register c =>
    match s.handlers c with
    | .opened name =>
      match registerName s.names name with
      | none => some (s.setHandler c (.finishing [.send (errorText 22 "Already Playing"), .close]))
      | some names =>
        some { s.setHandler c (.registered name) with
          names := names, registered := update s.registered c (some name) }
    | _ => none
  | .alloc c a =>
    match s.handlers c with
    | .registered name =>
      if s.allocated a then none
      else some { s.setHandler c (.greeting a) with
        players := update s.players a ⟨s.fd c, name⟩
        allocated := update s.allocated a true
        owner := update s.owner a (some c) }
    | _ => none
  | .greet c =>
    match s.handlers c with
    | .greeting me => some ((s.send (some c) (s.fd c) (ascii "WAIT")).setHandler c (.matching me))
    | _ => none
  | .enter c ok =>
    match s.handlers c with
    | .matching me =>
      match s.waiting with
      -- the handler stays in the critical section up to its first `poll`
      | none => some { s.setHandler c (.waiting me) with waiting := some me }
      | some opponent =>
        let game := if ok then
            .running opponent me
              (prologue (s.players opponent).name.bytes (s.players me).name.bytes) begin
          else .unstarted opponent me
        some { (s.setHandler c (.finishing [])).setGame s.created game with
          waiting := none, created := s.created + 1 }
    | _ => none
  | .recheck c ret =>
    match s.handlers c with
    | .waiting me =>
      -- `if (waiting_player != me) break;`, a comparison of addresses
      if s.waiting ≠ some me then some (s.setHandler c (.finishing []))
      else if 0 < ret then
        some { (s.remove me).setHandler c (.withdrawn me) with waiting := none }
      -- no data yet: the test of the `while` is true again, and the lock is released
      else some s
    | _ => none
  | .reply c r =>
    match s.handlers c with
    | .withdrawn me =>
      some (s.setHandler c (.finishing (withdrawReply r ++ [.close, .free me])))
    | _ => none
  | .act c =>
    match s.handlers c with
    | .finishing (a :: todo) => some ((s.act c a).setHandler c (.finishing todo))
    | _ => none
  | .effect g =>
    match s.games g with
    | .running p₁ p₂ (e :: todo) t =>
      some ((s.effect (match e.who with | .one => p₁ | .two => p₂) e).setGame g
        (.running p₁ p₂ todo t))
    | _ => none
  | .poll g w =>
    match s.games g with
    | .running p₁ p₂ [] t =>
      if t.ended then none
      else some (s.setGame g (.running p₁ p₂ (gameTodo (iterate t w)) (iterate t w).2))
    | _ => none
  | .unregister g =>
    match s.games g with
    | .running p₁ p₂ [] t =>
      -- both names in one critical section
      if t.ended then some (((s.remove p₁).remove p₂).setGame g (.freeing [p₁, p₂])) else none
    | _ => none
  | .release g =>
    match s.games g with
    | .freeing (a :: todo) => some ((s.free a).setGame g (.freeing todo))
    | _ => none

/-! ### What a message leads to -/

/-- The first message: the client is refused, or opens with a name. -/
theorem openReply_cases (r : Received) :
    openReply r = .finishing [.close] ∨
      (∃ text, openReply r = .finishing [.send text, .close]) ∨
      ∃ name, openReply r = .opened name := by
  cases r with
  | gone => exact .inl rfl
  | invalid => exact .inr (.inl ⟨_, rfl⟩)
  | message type body =>
      rw [openReply]
      split
      · exact .inr (.inl ⟨_, rfl⟩)
      · split
        · exact .inr (.inr ⟨_, rfl⟩)
        · exact .inr (.inl ⟨_, rfl⟩)

/-- A message of a client that waits: it gets one error, or it is gone. -/
theorem withdrawReply_cases (r : Received) :
    withdrawReply r = [] ∨ ∃ text, withdrawReply r = [.send text] := by
  cases r with
  | gone => exact .inl rfl
  | invalid => exact .inr ⟨_, rfl⟩
  | message type body =>
      rw [withdrawReply]
      split <;> exact .inr ⟨_, rfl⟩

/-! ### The steps, one by one -/

open Function in
/-- What a step can be: one constructor for each branch of each thread. -/
inductive Step (s : Server) : Event → Server → Prop where
  | accept {fd : Fd} (closed : s.fds fd = none) :
      Step s (.accept fd) { s.setHandler s.conns .accepted with
        conns := s.conns + 1, fds := update s.fds fd (some s.conns), fd := update s.fd s.conns fd }
  | spawn {c : Cid} {ok : Bool} (pc : s.handlers c = .accepted) :
      Step s (.spawn c ok) (s.setHandler c (if ok then .receiving else .finishing [.close]))
  | receive {c : Cid} {r : Received} (pc : s.handlers c = .receiving) :
      Step s (.receive c r) (s.setHandler c (openReply r))
  | refuse {c : Cid} {name : Name} (pc : s.handlers c = .opened name) (taken : name ∈ s.names) :
      Step s (.register c)
        (s.setHandler c (.finishing [.send (errorText 22 "Already Playing"), .close]))
  | register {c : Cid} {name : Name} (pc : s.handlers c = .opened name)
      (unused : name ∉ s.names) :
      Step s (.register c) { s.setHandler c (.registered name) with
        names := name :: s.names, registered := update s.registered c (some name) }
  | alloc {c : Cid} {a : Addr} {name : Name} (pc : s.handlers c = .registered name)
      (unused : s.allocated a = false) :
      Step s (.alloc c a) { s.setHandler c (.greeting a) with
        players := update s.players a ⟨s.fd c, name⟩
        allocated := update s.allocated a true
        owner := update s.owner a (some c) }
  | greet {c : Cid} {me : Addr} (pc : s.handlers c = .greeting me) :
      Step s (.greet c) ((s.send (some c) (s.fd c) (ascii "WAIT")).setHandler c (.matching me))
  | take {c : Cid} {me : Addr} {ok : Bool} (pc : s.handlers c = .matching me)
      (empty : s.waiting = none) :
      Step s (.enter c ok) { s.setHandler c (.waiting me) with waiting := some me }
  | pair {c : Cid} {me opponent : Addr} {ok : Bool} (pc : s.handlers c = .matching me)
      (waits : s.waiting = some opponent) {game : Game}
      (start : game = if ok then
          .running opponent me
            (prologue (s.players opponent).name.bytes (s.players me).name.bytes) begin
        else .unstarted opponent me) :
      Step s (.enter c ok) { (s.setHandler c (.finishing [])).setGame s.created game with
        waiting := none, created := s.created + 1 }
  | matched {c : Cid} {me : Addr} {ret : ℤ} (pc : s.handlers c = .waiting me)
      (away : s.waiting ≠ some me) : Step s (.recheck c ret) (s.setHandler c (.finishing []))
  | withdraw {c : Cid} {me : Addr} {ret : ℤ} (pc : s.handlers c = .waiting me)
      (here : s.waiting = some me) (ready : 0 < ret) :
      Step s (.recheck c ret)
        { (s.remove me).setHandler c (.withdrawn me) with waiting := none }
  | again {c : Cid} {me : Addr} {ret : ℤ} (pc : s.handlers c = .waiting me)
      (here : s.waiting = some me) (idle : ¬ 0 < ret) : Step s (.recheck c ret) s
  | reply {c : Cid} {me : Addr} {r : Received} (pc : s.handlers c = .withdrawn me) :
      Step s (.reply c r)
        (s.setHandler c (.finishing (withdrawReply r ++ [.close, .free me])))
  | act {c : Cid} {a : Act} {todo : List Act} (pc : s.handlers c = .finishing (a :: todo)) :
      Step s (.act c) ((s.act c a).setHandler c (.finishing todo))
  | effect {g : Gid} {p₁ p₂ p : Addr} {e : Effect} {todo : List Effect} {t : Thread}
      (pc : s.games g = .running p₁ p₂ (e :: todo) t) (seat : (s.games g).seat e.who = some p) :
      Step s (.effect g) ((s.effect p e).setGame g (.running p₁ p₂ todo t))
  | poll {g : Gid} {p₁ p₂ : Addr} {t : Thread} {w : Wake} (pc : s.games g = .running p₁ p₂ [] t)
      (going : t.ended = false) :
      Step s (.poll g w) (s.setGame g (.running p₁ p₂ (gameTodo (iterate t w)) (iterate t w).2))
  | unregister {g : Gid} {p₁ p₂ : Addr} {t : Thread} (pc : s.games g = .running p₁ p₂ [] t)
      (ended : t.ended = true) :
      Step s (.unregister g) (((s.remove p₁).remove p₂).setGame g (.freeing [p₁, p₂]))
  | release {g : Gid} {a : Addr} {todo : List Addr} (pc : s.games g = .freeing (a :: todo)) :
      Step s (.release g) ((s.free a).setGame g (.freeing todo))

/-- **Every step is one of them.** -/
theorem step_cases {s s' : Server} {e : Event} (h : step s e = some s') : Step s e s' := by
  cases e with
  | accept fd =>
      simp only [step] at h
      split at h
      · next hc =>
          obtain rfl := Option.some.inj h
          exact .accept hc
      · cases h
  | spawn c ok =>
      simp only [step] at h
      split at h
      · next pc =>
          obtain rfl := Option.some.inj h
          exact .spawn pc
      · cases h
  | receive c r =>
      simp only [step] at h
      split at h
      · next pc =>
          obtain rfl := Option.some.inj h
          exact .receive pc
      · cases h
  | register c =>
      simp only [step, registerName] at h
      split at h
      · next pc =>
          by_cases hn : ‹Name› ∈ s.names
          · rw [if_pos hn] at h
            obtain rfl := Option.some.inj h
            exact .refuse pc hn
          · rw [if_neg hn] at h
            obtain rfl := Option.some.inj h
            exact .register pc hn
      · cases h
  | alloc c a =>
      simp only [step] at h
      split at h
      · next pc =>
          split at h
          · cases h
          · next ha =>
              obtain rfl := Option.some.inj h
              exact .alloc pc (Bool.eq_false_iff.mpr ha)
      · cases h
  | greet c =>
      simp only [step] at h
      split at h
      · next pc =>
          obtain rfl := Option.some.inj h
          exact .greet pc
      · cases h
  | enter c ok =>
      simp only [step] at h
      split at h
      · next pc =>
          split at h
          · next hw =>
              obtain rfl := Option.some.inj h
              exact .take pc hw
          · next hw =>
              obtain rfl := Option.some.inj h
              exact .pair pc hw rfl
      · cases h
  | recheck c ret =>
      simp only [step] at h
      split at h
      · next pc =>
          split at h
          · next hw =>
              obtain rfl := Option.some.inj h
              exact .matched pc hw
          · next hw =>
              split at h
              · next hr =>
                  obtain rfl := Option.some.inj h
                  exact .withdraw pc (not_not.mp hw) hr
              · next hr =>
                  obtain rfl := Option.some.inj h
                  exact .again pc (not_not.mp hw) hr
      · cases h
  | reply c r =>
      simp only [step] at h
      split at h
      · next pc =>
          obtain rfl := Option.some.inj h
          exact .reply pc
      · cases h
  | act c =>
      simp only [step] at h
      split at h
      · next pc =>
          obtain rfl := Option.some.inj h
          exact .act pc
      · cases h
  | effect g =>
      simp only [step] at h
      split at h
      · next p₁ p₂ e todo t pc =>
          obtain rfl := Option.some.inj h
          have hseat : ∀ q, (Game.running p₁ p₂ (e :: todo) t).seat q =
              some (match q with | .one => p₁ | .two => p₂) := by
            intro q
            cases q <;> rfl
          exact .effect pc ((congrArg (Game.seat · e.who) pc).trans (hseat e.who))
      · cases h
  | poll g w =>
      simp only [step] at h
      split at h
      · next pc =>
          split at h
          · cases h
          · next ht =>
              obtain rfl := Option.some.inj h
              exact .poll pc (Bool.eq_false_iff.mpr ht)
      · cases h
  | unregister g =>
      simp only [step] at h
      split at h
      · next pc =>
          split at h
          · next ht =>
              obtain rfl := Option.some.inj h
              exact .unregister pc ht
          · cases h
      · cases h
  | release g =>
      simp only [step] at h
      split at h
      · next pc =>
          obtain rfl := Option.some.inj h
          exact .release pc
      · cases h

end CS214.Nim
