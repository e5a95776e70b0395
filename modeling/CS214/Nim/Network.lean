import Mathlib.Logic.Function.Basic
import CS214.Lib.CString
import CS214.Lib.Program

/-!
# Nim — the sockets of `network.c`

`connect_inet` and `open_listener` are programs that make system calls; both try the addresses that
were looked up, one after the other.  A machine has the descriptors that are open, each with what
was made of it, the address lists that are not yet released, and what was printed.

* `tryEach_opens`: the loop over the addresses leaves one new descriptor or none.
* `connect_inet_opens`, `open_listener_opens`: whatever the calls answer, the address list is
  released and every socket but the one returned is closed; that one is connected to an address, or
  bound to one and listening.
-/

open CString

namespace CS214.Nim.Network

open Program Function

/-- A descriptor number. -/
abbrev Fd := ℕ

/-- An entry of a list that `getaddrinfo` returned. -/
abbrev Address := ℕ

/-- A call of the library or of the system. -/
inductive Call where
  | getaddrinfo (host : Option Bytes) (service : Bytes)
  | freeaddrinfo
  | socket (info : Address)
  | connect (sock : Fd) (info : Address)
  | bind (sock : Fd) (info : Address)
  | listen (sock : Fd) (queueSize : ℕ)
  | close (fd : Fd)
  | poll (fds : List Fd)
  | read (fd : Fd) (limit : ℕ)
  | write (fd : Fd) (bytes : Bytes)
  | printf (text : Bytes)
  | eprintf (text : Bytes)

/-- A call fails with an error text, or is done; `poll` says which descriptors have events, and a
`read` that fails returns none. -/
def Call.Answer : Call → Type
  | .getaddrinfo _ _ => Except Bytes (List Address)
  | .socket _ => Option Fd
  | .connect _ _ | .bind _ _ | .listen _ _ => Bool
  | .poll _ => Except Bytes (List Bool)
  | .read _ _ => Option Bytes
  | .freeaddrinfo | .close _ | .write _ _ | .printf _ | .eprintf _ => Unit

/-- A program that makes these calls. -/
abbrev NetM (α : Type) := Program Call Call.Answer α

/-- A call, with its answer as the value. -/
def ask (c : Call) : NetM c.Answer := .perform c

/-! ### `network.c` -/

/-- The loop over `info_list`; `attempt` is what is done with a socket, and whether it worked. -/
def tryEach (attempt : Fd → Address → NetM Bool) : List Address → NetM (Option Fd)
  | [] => return none
  | info :: rest => do
    match ← ask (.socket info) with
    | none => tryEach attempt rest
    | some sock => do
      let ok ← attempt sock info
      if ok then return some sock
      else do
        ask (.close sock)
        tryEach attempt rest

/-- `connect`, as an attempt. -/
def connectTo (sock : Fd) (info : Address) : NetM Bool := ask (.connect sock info)

/-- `bind` and `listen`, as an attempt. -/
def listenOn (queueSize : ℕ) (sock : Fd) (info : Address) : NetM Bool := do
  let bound : Bool ← ask (.bind sock info)
  if bound then ask (.listen sock queueSize) else return false

/-- `connect_inet`: a socket that is connected to one of the addresses of the host, or none and a
message. -/
def connectInet (host service : Bytes) : NetM (Option Fd) := do
  match ← ask (.getaddrinfo (some host) service) with
  | .error e => do
    ask (.eprintf (ascii "error looking up " ++ host ++ ascii ":" ++ service ++ ascii ": " ++ e ++
      ascii "\n"))
    return none
  | .ok infos => do
    let sock ← tryEach connectTo infos
    ask .freeaddrinfo
    match sock with
    | none => do
      ask (.eprintf (ascii "Unable to connect to " ++ host ++ ascii ":" ++ service ++ ascii "\n"))
      return none
    | some sock => return some sock

/-- `open_listener`: a socket that is bound to an address of this host and listens, or none and a
message. -/
def openListener (service : Bytes) (queueSize : ℕ) : NetM (Option Fd) := do
  match ← ask (.getaddrinfo none service) with
  | .error e => do
    ask (.eprintf (ascii "getaddrinfo: " ++ e ++ ascii "\n"))
    return none
  | .ok infos => do
    let sock ← tryEach (listenOn queueSize) infos
    ask .freeaddrinfo
    match sock with
    | none => do
      ask (.eprintf (ascii "Could not bind\n"))
      return none
    | some sock => return some sock

/-! ### The machine -/

/-- What was made of a descriptor. -/
structure Desc where
  connected : Option Address
  bound : Option Address
  listening : Option ℕ

/-- A new socket. -/
def Desc.fresh : Desc := ⟨none, none, none⟩

/-- `lists` counts the address lists that are not released.  `reads` and `sent` are what was read
and written so far, a `read` that failed like one at the end of the file. -/
structure Machine where
  fds : Fd → Option Desc
  lists : ℕ
  out : Bytes
  reads : List (Fd × Bytes)
  sent : List (Fd × Bytes)

namespace Machine

/-- A call that succeeds on a socket. -/
def onSocket (s : Machine) (sock : Fd) (f : Desc → Desc) (ok : Bool) : Machine :=
  if ok then { s with fds := update s.fds sock ((s.fds sock).map f) } else s

/-- The answers to a call. -/
def Step (s : Machine) (c : Call) (x : c.Answer) (s' : Machine) : Prop :=
  match c, x with
  | .getaddrinfo _ _, .error _ => s' = s
  | .getaddrinfo _ _, .ok _ => s' = { s with lists := s.lists + 1 }
  | .freeaddrinfo, _ => s' = { s with lists := s.lists - 1 }
  | .socket _, none => s' = s
  | .socket _, some fd => s.fds fd = none ∧ s' = { s with fds := update s.fds fd (some .fresh) }
  | .connect sock info, ok => s' = s.onSocket sock (fun d => { d with connected := some info }) ok
  | .bind sock info, ok => s' = s.onSocket sock (fun d => { d with bound := some info }) ok
  | .listen sock q, ok => s' = s.onSocket sock (fun d => { d with listening := some q }) ok
  | .close fd, _ => s' = { s with fds := update s.fds fd none }
  | .poll fds, x => (∀ ready, x = .ok ready → ready.length = fds.length) ∧ s' = s
  | .read fd limit, x =>
    (∀ b, x = some b → b.length ≤ limit) ∧ s' = { s with reads := s.reads ++ [(fd, x.getD [])] }
  | .write fd bytes, _ => s' = { s with sent := s.sent ++ [(fd, bytes)] }
  | .printf text, _ => s' = { s with out := s.out ++ text }
  | .eprintf _, _ => s' = s

/-- The calls that are in order: a descriptor is open, and a list is there to be released. -/
def Valid (s : Machine) : Call → Prop
  | .connect sock _ | .bind sock _ | .listen sock _ | .close sock => ∃ d, s.fds sock = some d
  | .read fd _ | .write fd _ => ∃ d, s.fds fd = some d
  | .poll fds => ∀ fd ∈ fds, ∃ d, s.fds fd = some d
  | .freeaddrinfo => 0 < s.lists
  | .getaddrinfo _ _ | .socket _ | .printf _ | .eprintf _ => True

end Machine

/-- Nothing is new but at most one descriptor, which is as `P` says. -/
def Opens (P : Desc → Prop) (s : Machine) (r : Option Fd) (s' : Machine) : Prop :=
  match r with
  | none => s' = s
  | some fd => s.fds fd = none ∧ ∃ d, P d ∧ s' = { s with fds := update s.fds fd (some d) }

open CS214.Nim.Network.Machine

variable {s s₀ : Machine} {infos : List Address} {attempt : Fd → Address → NetM Bool}
  {P : Desc → Prop} {α β : Type} {post : α → Machine → Prop}

/-! ### The loop over the addresses -/

/-- What an attempt on a new socket leaves: the socket is as `P` says, or is to be closed. -/
def Attempts (attempt : Fd → Address → NetM Bool) (P : Desc → Prop) : Prop :=
  ∀ s fd info, s.fds fd = some .fresh →
    (attempt fd info).Always Step Valid
      (fun ok s' => ∃ d, (ok = true → P d) ∧ s' = { s with fds := update s.fds fd (some d) }) s

theorem tryEach_opens (h : Attempts attempt P) (infos : List Address) (s : Machine) :
    (tryEach attempt infos).Always Step Valid (Opens P s) s := by
  induction infos with
  | nil => exact rfl
  | cons info rest ih =>
      refine ⟨trivial, fun x s' hx => ?_⟩
      cases x with
      | none =>
          obtain rfl := hx
          exact ih
      | some fd =>
          obtain ⟨hfd, rfl⟩ := hx
          refine (h _ fd info (update_self fd _ _)).bind fun ok s' hs => ?_
          obtain ⟨d, hok, rfl⟩ := hs
          rw [update_idem]
          cases ok with
          | true => exact ⟨hfd, d, hok rfl, rfl⟩
          | false =>
              refine ⟨⟨d, update_self fd _ _⟩, fun _ s' hs => ?_⟩
              obtain rfl := hs
              dsimp only
              rw [update_idem, ← hfd, update_eq_self]
              exact ih

theorem attempts_connect : Attempts connectTo fun d => ∃ info, d = ⟨some info, none, none⟩ := by
  intro s fd info hfd
  refine ⟨⟨_, hfd⟩, fun ok s' hs => ?_⟩
  obtain rfl := hs
  cases ok with
  | false =>
      refine ⟨.fresh, fun h => absurd h Bool.false_ne_true, ?_⟩
      rw [← hfd, update_eq_self]
      rfl
  | true =>
      refine ⟨_, fun _ => ⟨info, rfl⟩, ?_⟩
      rw [onSocket, if_pos rfl, hfd]
      rfl

theorem attempts_listen (q : ℕ) :
    Attempts (listenOn q) fun d => ∃ info, d = ⟨none, some info, some q⟩ := by
  intro s fd info hfd
  refine ⟨⟨_, hfd⟩, fun bound s' hs => ?_⟩
  obtain rfl := hs
  cases bound with
  | false =>
      refine ⟨.fresh, fun h => absurd h Bool.false_ne_true, ?_⟩
      rw [← hfd, update_eq_self]
      rfl
  | true =>
      rw [onSocket, if_pos rfl, hfd]
      refine ⟨⟨_, update_self fd _ _⟩, fun listening s' hs => ?_⟩
      obtain rfl := hs
      cases listening with
      | false => exact ⟨_, fun h => absurd h Bool.false_ne_true, rfl⟩
      | true =>
          refine ⟨_, fun _ => ⟨info, rfl⟩, ?_⟩
          rw [onSocket, if_pos rfl]
          dsimp only
          rw [update_self, update_idem]
          rfl

/-! ### The two functions -/

/-- The search with an address list that is there, and its release. -/
theorem tryList_opens (h : Attempts attempt P) (s : Machine) {k : Option Fd → NetM α}
    (hk : ∀ r s', Opens P s r s' → (k r).Always Step Valid post s') :
    (do let sock ← tryEach attempt infos
        ask .freeaddrinfo
        k sock).Always Step Valid post { s with lists := s.lists + 1 } := by
  refine (tryEach_opens h infos _).bind fun r s' hr => ?_
  cases r with
  | none =>
      obtain rfl := hr
      refine ⟨Nat.succ_pos _, fun _ s' hs => ?_⟩
      obtain rfl := hs
      exact hk none _ rfl
  | some fd =>
      obtain ⟨hfd, d, hd, rfl⟩ := hr
      refine ⟨Nat.succ_pos _, fun _ s' hs => ?_⟩
      obtain rfl := hs
      exact hk (some fd) _ ⟨hfd, d, hd, rfl⟩

theorem connect_inet_opens (host service : Bytes) (s : Machine) :
    (connectInet host service).Always Step Valid
      (Opens (fun d => ∃ info, d = ⟨some info, none, none⟩) s) s := by
  refine ⟨trivial, fun x s' hx => ?_⟩
  cases x with
  | error e =>
      obtain rfl := hx
      exact ⟨trivial, fun _ s' hs => hs⟩
  | ok infos =>
      obtain rfl := hx
      refine tryList_opens attempts_connect s fun r s' hr => ?_
      cases r with
      | none =>
          obtain rfl := hr
          exact ⟨trivial, fun _ s' hs => hs⟩
      | some fd => exact hr

theorem open_listener_opens (service : Bytes) (q : ℕ) (s : Machine) :
    (openListener service q).Always Step Valid
      (Opens (fun d => ∃ info, d = ⟨none, some info, some q⟩) s) s := by
  refine ⟨trivial, fun x s' hx => ?_⟩
  cases x with
  | error e =>
      obtain rfl := hx
      exact ⟨trivial, fun _ s' hs => hs⟩
  | ok infos =>
      obtain rfl := hx
      refine tryList_opens (attempts_listen q) s fun r s' hr => ?_
      cases r with
      | none =>
          obtain rfl := hr
          exact ⟨trivial, fun _ s' hs => hs⟩
      | some fd => exact hr

end CS214.Nim.Network
