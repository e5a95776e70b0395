import CS214.Lib.NodeList
import CS214.Nim.Server

/-!
# Nim — one statement at a time

`Server` takes a critical section as one step.  Here the thread that holds `lock` runs it statement
by statement, and the steps of the other threads come in between.  `active_names` is a list of
`NameNode`s in memory, which `register_name` and `remove_name` go through node by node, and which
they allocate and free; the thread goes wrong (`Locked.run` is none) where it follows a pointer to a
node that is not allocated.

`Locked.server` is the rest of the process, `waiting_player` included.  Its field `names` is not
used.
-/

namespace CS214.Nim

open NodeList Function

/-- The address of a `NameNode`. -/
abbrev NodeAddr := ℕ

/-- A `NameNode`; its `item` is `name`. -/
abbrev NameNode := Node NodeAddr Name

/-- A thread: `main`, the handler of a client, or the thread of a game. -/
inductive Task where
  | main
  | client (c : Cid)
  | game (g : Gid)
deriving DecidableEq

/-- The thread that takes a step. -/
def Event.task : Event → Task
  | .accept _ | .spawn _ _ => .main
  | .receive c _ | .register c | .alloc c _ | .greet c | .enter c _ | .recheck c _ | .reply c _
  | .act c => .client c
  | .effect g | .poll g _ | .unregister g | .release g => .game g

/-- The step is not a critical section. -/
def Event.outside : Event → Bool
  | .register _ | .enter _ _ | .recheck _ _ | .unregister _ => false
  | _ => true

/-- A call of `remove_name`, by what comes after it. -/
inductive Caller where
  /-- A handler that has left the waiting slot because `poll` returned `ret`. -/
  | withdraw (c : Cid) (ret : ℤ)
  /-- A game, which removes the name of `p₂` next. -/
  | first (g : Gid) (p₂ : Addr)
  /-- A game that has removed the name of `p₁`. -/
  | second (g : Gid) (p₁ : Addr)

/-- The statement that the thread inside comes to next, with its local variables.  A pass of a loop
over the list counts as one statement, with its condition.  No statements of their own are
`new_node->name[NAME_LIMIT] = '\0'` (with `strncpy`), `return 0` (with `active_names = new_node`),
`waiting_player_matched = 0` (with `waiting_player = me`), the `malloc` of the `GameState`, its `p1`
and `p2`, and `pthread_detach` (with `pthread_create`). -/
inductive Inside where
  /-- `NameNode *curr = active_names;` -/
  | find (c : Cid) (name : Name)
  /-- `while (curr)` of `register_name`, with its body. -/
  | look (c : Cid) (name : Name) (curr : Option NodeAddr)
  /-- `NameNode *new_node = malloc(sizeof(NameNode));` -/
  | make (c : Cid) (name : Name)
  /-- `strncpy(new_node->name, name, NAME_LIMIT);` -/
  | fill (c : Cid) (name : Name) (new : NodeAddr)
  /-- `new_node->next = active_names;` -/
  | chain (c : Cid) (name : Name) (new : NodeAddr)
  /-- `active_names = new_node;` -/
  | link (c : Cid) (name : Name) (new : NodeAddr)
  /-- `if (waiting_player == NULL)` -/
  | meet (c : Cid) (me : Addr)
  /-- `waiting_player = me;` -/
  | occupy (c : Cid) (me : Addr)
  /-- `while (waiting_player == me)` -/
  | hold (c : Cid) (me : Addr)
  /-- `Player *opponent = waiting_player;` -/
  | claim (c : Cid) (me : Addr)
  /-- `waiting_player = NULL;` of the handler that has found an opponent. -/
  | clear (c : Cid) (me opponent : Addr)
  /-- `pthread_create(&tid, NULL, game_thread, game);` -/
  | start (c : Cid) (me opponent : Addr)
  /-- `if (waiting_player != me) break;` and `if (ret > 0)` -/
  | recheck (c : Cid) (me : Addr) (ret : ℤ)
  /-- `waiting_player = NULL;` of the handler that withdraws. -/
  | vacate (c : Cid) (me : Addr) (ret : ℤ)
  /-- `while (*curr)` of `remove_name(p->name)`, with its body up to the unlinking; `curr` is
  `&active_names` or the `next` of a node. -/
  | scan (p : Addr) (curr : Option NodeAddr) (k : Caller)
  /-- `free(temp); return;` -/
  | drop (p : Addr) (temp : NodeAddr) (k : Caller)
  /-- `pthread_mutex_unlock(&lock);` -/
  | unlock (T : Task)

/-- The thread that calls `remove_name`. -/
def Caller.task : Caller → Task
  | .withdraw c _ => .client c
  | .first g _ | .second g _ => .game g

/-- The step of `Server` that is complete when the call returns. -/
def Caller.event : Caller → Option Event
  | .withdraw c ret => some (.recheck c ret)
  | .first _ _ => none
  | .second g _ => some (.unregister g)

/-- The thread inside. -/
def Inside.task : Inside → Task
  | .find c _ | .look c _ _ | .make c _ | .fill c _ _ | .chain c _ _ | .link c _ _ | .meet c _
  | .occupy c _ | .hold c _ | .claim c _ | .clear c _ _ | .start c _ _ | .recheck c _ _
  | .vacate c _ _ => .client c
  | .scan _ _ k | .drop _ _ k => k.task
  | .unlock T => T

/-- The process, with the thread that holds `lock`. -/
structure Locked where
  server : Server
  /-- `active_names` and the nodes. -/
  list : Store NodeAddr Name
  holder : Option Inside

/-- A thread that needs the lock gets it and is at the first statement behind it; `ret` is what
`poll` returned in the wait loop. -/
def Server.lock (s : Server) (ret : ℤ) : Task → Option Inside
  | .main => none
  | .client c =>
    match s.handlers c with
    | .opened name => some (.find c name)
    | .matching me => some (.meet c me)
    | .waiting me => some (.recheck c me ret)
    | _ => none
  | .game g =>
    match s.games g with
    | .running p₁ p₂ [] t => if t.ended then some (.scan p₁ none (.first g p₂)) else none
    | _ => none

/-- The removal of the name of `p` is recorded. -/
def Server.forget (s : Server) (p : Addr) : Server :=
  { s with removed := fun c => s.removed c + if s.owner p = some c then 1 else 0 }

/-- What the thread that calls `pthread_create` makes of the game. -/
def Server.game (s : Server) (opponent me : Addr) (ok : Bool) : Game :=
  if ok then
    .running opponent me
      (prologue (s.players opponent).name.bytes (s.players me).name.bytes) begin
  else .unstarted opponent me

namespace Locked

/-- The thread inside goes on at this statement. -/
def goto (f : Locked) (k : Inside) : Locked := { f with holder := some k }

/-- Nothing is left but to unlock; the handler goes on at `h`. -/
def leave (f : Locked) (c : Cid) (h : Handler) : Locked :=
  { f with server := f.server.setHandler c h, holder := some (.unlock (.client c)) }

/-- `remove_name(p->name)` returns. -/
def finish (f : Locked) (p : Addr) : Caller → Locked
  | .withdraw c _ => { f with server := f.server.forget p }.leave c (.withdrawn p)
  | .first g p₂ => f.goto (.scan p₂ none (.second g p))
  | .second g p₁ =>
    { f with
      server := ((f.server.forget p₁).forget p).setGame g (.freeing [p₁, p])
      holder := some (.unlock (.game g)) }

/-- The next statement of the thread inside, as `Inside` counts them.  `malloc` returns a node `n`
that is not allocated, with any content, and `ok` is whether `pthread_create` succeeds. -/
def run (f : Locked) (n : NodeAddr) (junk : NameNode) (ok : Bool) : Inside → Option Locked
  | .find c name => some (f.goto (.look c name f.list.first))
  | .look c name none => some (f.goto (.make c name))
  | .look c name (some m) =>
    (f.list.node m).map fun x =>
      if x.item = name then
        f.leave c (.finishing [.send (errorText 22 "Already Playing"), .close])
      else f.goto (.look c name x.next)
  | .make c name =>
    if (f.list.node n).isSome then none
    else some { f with list := f.list.set n junk, holder := some (.fill c name n) }
  | .fill c name m =>
    (f.list.node m).map fun x =>
      { f with list := f.list.set m { x with item := name }, holder := some (.chain c name m) }
  | .chain c name m =>
    (f.list.node m).map fun x =>
      { f with
        list := f.list.set m { x with next := f.list.first }, holder := some (.link c name m) }
  | .link c name m =>
    some <| { f with
      list := { f.list with first := some m }
      server := { f.server with registered := update f.server.registered c (some name) } }.leave
        c (.registered name)
  | .meet c me => some (f.goto (if f.server.waiting = none then .occupy c me else .claim c me))
  | .occupy c me =>
    some { f with
      server := { f.server.setHandler c (.waiting me) with waiting := some me }
      holder := some (.hold c me) }
  | .hold c me =>
    if f.server.waiting = some me then some (f.goto (.unlock (.client c)))
    else some (f.leave c (.finishing []))
  | .claim c me => f.server.waiting.map fun opponent => f.goto (.clear c me opponent)
  | .clear c me opponent =>
    some { f with
      server := { f.server with waiting := none }, holder := some (.start c me opponent) }
  | .start c me opponent =>
    some <| { f with
      server := { f.server.setGame f.server.created (f.server.game opponent me ok) with
        created := f.server.created + 1 } }.leave c (.finishing [])
  | .recheck c me ret =>
    if f.server.waiting ≠ some me then some (f.leave c (.finishing []))
    else some (f.goto (if 0 < ret then .vacate c me ret else .hold c me))
  | .vacate c me ret =>
    some { f with
      server := { f.server with waiting := none }
      holder := some (.scan me none (.withdraw c ret)) }
  | .scan p curr k =>
    match f.list.read curr with
    | none => none
    | some none => some (f.finish p k)
    | some (some m) =>
      (f.list.node m).bind fun x =>
        if x.item = (f.server.players p).name then
          -- `*curr = (*curr)->next;`
          (f.list.write curr x.next).map fun list =>
            { f with list := list, holder := some (.drop p m k) }
        else some (f.goto (.scan p (some m) k))
  | .drop p temp k =>
    (f.list.node temp).map fun _ => { f with list := f.list.free temp }.finish p k
  | .unlock _ => some { f with holder := none }

/-- The process before the first `accept`. -/
def initial : Locked := ⟨Nim.initial, ⟨none, fun _ => none⟩, none⟩

end Locked

/-- What happens next: a step of a thread outside, or one that gets the lock, or the next statement
of the thread inside. -/
inductive Turn where
  | outside (e : Event)
  | lock (T : Task) (ret : ℤ)
  | inside (n : NodeAddr) (junk : NameNode) (ok : Bool)

/-- The turn is a statement of the thread inside. -/
def Turn.isInside : Turn → Bool
  | .inside _ _ _ => true
  | _ => false

namespace Locked

/-- A turn, when it can be taken: a thread outside does not enter a critical section, and the lock
is given to one thread at a time. -/
def step (f : Locked) : Turn → Option Locked
  | .outside e =>
    if e.outside = true ∧ f.holder.map Inside.task ≠ some e.task then
      (Nim.step f.server e).map fun s => { f with server := s }
    else none
  | .lock T ret =>
    if f.holder.isNone then (f.server.lock ret T).map fun k => { f with holder := some k } else none
  | .inside n junk ok => f.holder.bind (f.run n junk ok)

/-- The step of `Server` that is complete with this turn. -/
def commit (f : Locked) : Turn → Option Event
  | .outside e => some e
  | .lock _ _ => none
  | .inside _ _ ok =>
    match f.holder with
    | some (.look c name (some m)) =>
      if (f.list.node m).map Node.item = some name then some (.register c) else none
    | some (.link c _ _) => some (.register c)
    | some (.occupy c _) | some (.start c _ _) => some (.enter c ok)
    | some (.recheck c me ret) =>
      if f.server.waiting = some me ∧ 0 < ret then none else some (.recheck c ret)
    | some (.scan _ curr k) => if f.list.read curr = some none then k.event else none
    | some (.drop _ _ k) => k.event
    | _ => none

end Locked

end CS214.Nim
