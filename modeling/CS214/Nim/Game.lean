import CS214.Lib.NimGame
import CS214.Lib.Runs
import CS214.Nim.Frame

/-!
# Nim — `game_thread`

The thread alternates between `poll` and reading at most one message of each player, first the one
who is not on turn.  `Thread` is its state between two calls of `poll`, `Wake` is what one
iteration of the loop learns from the outside: the result of `poll` and, for each connection, what
the reads of this iteration return.  `iterate` is the body of the loop; it gives what the thread
sends and closes, in order, and the state after it.

`prologue` and `epilogue` are what the thread does before and after the loop, and `pollStep` is the
loop as a step function, with the record of everything that was done.
-/

namespace CS214.Nim

open CString

/-- `1` or `2`. -/
def number : Seat → ℤ
  | .one => 1
  | .two => 2

/-! ### What the thread sends -/

/-- The `i`th of the five piles. -/
def pileAt (i : ℤ) : Fin 5 := Fin.ofNat 5 i.toNat

/-- `1, 3, 5, 7, 9`. -/
def initialPiles (i : Fin 5) : ℤ := 2 * i.val + 1

/-- `"%d %d %d %d %d"` in a buffer of 64 bytes. -/
def boardStr (piles : Fin 5 → ℤ) : Bytes :=
  ((ascii " ").intercalate [decimal (piles 0), decimal (piles 1), decimal (piles 2),
    decimal (piles 3), decimal (piles 4)]).take 63

/-- `send_name`. -/
def nameText (n : ℤ) (name : Bytes) : Bytes := ascii "NAME|" ++ decimal n ++ pipe :: name

/-- `send_play`. -/
def playText (turn : Seat) (board : Bytes) : Bytes :=
  ascii "PLAY|" ++ decimal (number turn) ++ pipe :: board

/-- `send_over`. -/
def overText (winner : Seat) (board reason : Bytes) : Bytes :=
  ascii "OVER|" ++ decimal (number winner) ++ pipe :: board ++ pipe :: reason

/-- What the thread does to a connection: `send_msg` with this text, or `close`. -/
inductive Effect where
  | send (who : Seat) (text : Bytes)
  | close (who : Seat)
deriving DecidableEq

/-! ### The loop -/

/-- The thread between two calls of `poll`: `game`, `board_str`, `winner` and `reason`, and whether
it has left the loop. -/
structure Thread where
  piles : Fin 5 → ℤ
  turn : Seat
  board : Bytes
  winner : Option Seat
  reason : Bytes
  ended : Bool

/-- One return of `poll`, the players with `POLLIN` or `POLLHUP` set, and what `read` returns on
each connection until the next call. -/
structure Wake where
  ret : ℤ
  ready : Seat → Bool
  input : Seat → Conn

/-- The message the iteration reads from a player. -/
def Wake.received (w : Wake) (p : Seat) : Received := (receiveMsg (w.input p)).1

/-- `reason` of a player who lost the connection. -/
def forfeit : Bytes := ascii "Forfeit"

/-- `send_error(p, 10, "Invalid"); close(p); break;` -/
def dropInvalid (t : Thread) (p : Seat) : List Effect × Thread :=
  ([.send p (errorText Received.invalid.rc "Invalid"), .close p], { t with ended := true })

/-- The end of the loop because `p` is gone. -/
def forfeited (t : Thread) (p : Seat) : List Effect × Thread :=
  ([], { t with winner := some p.other, reason := forfeit, ended := true })

/-- `// 1. Check Idle Player` -/
def checkIdle (t : Thread) (w : Wake) : List Effect × Thread :=
  let idle := t.turn.other
  if w.ready idle then
    match w.received idle with
    | .gone => forfeited t idle
    | .invalid => dropInvalid t idle
    | .message type _ =>
      if type = ascii "MOVE" then
        ([.send idle (errorText 31 "Impatient"), .send idle (playText t.turn t.board)], t)
      else ([], t)
  else ([], t)

/-- `game->piles[pile_idx] -= amount` -/
def takeFrom (piles : Fin 5 → ℤ) (pileIdx amount : ℤ) : Fin 5 → ℤ :=
  Function.update piles (pileAt pileIdx) (piles (pileAt pileIdx) - amount)

/-- How many stones are left on the board. -/
def stones (piles : Fin 5 → ℤ) : ℤ := piles 0 + piles 1 + piles 2 + piles 3 + piles 4

/-- A `MOVE` of the player on turn with two fields. -/
def move (t : Thread) (pileIdx amount : ℤ) : List Effect × Thread :=
  if pileIdx < 0 ∨ pileIdx > 4 then
    ([.send t.turn (errorText 32 "Pile Index"), .send t.turn (playText t.turn t.board)], t)
  else if amount < 1 ∨ amount > t.piles (pileAt pileIdx) then
    ([.send t.turn (errorText 33 "Quantity"), .send t.turn (playText t.turn t.board)], t)
  else
    let piles := takeFrom t.piles pileIdx amount
    if stones piles = 0 then
      ([], { t with piles := piles, winner := some t.turn, reason := [], ended := true })
    else
      let turn := t.turn.other
      let board := boardStr piles
      ([.send .one (playText turn board), .send .two (playText turn board)],
        { t with piles := piles, turn := turn, board := board })

/-- `// 2. Check Active Player` -/
def checkActive (t : Thread) (w : Wake) : List Effect × Thread :=
  let active := t.turn
  if w.ready active then
    match w.received active with
    | .gone => forfeited t active
    | .invalid => dropInvalid t active
    | .message type body =>
      if type ≠ ascii "MOVE" then ([], t)
      else
        match cut pipe body with
        | none => dropInvalid t active
        | some (arg₁, arg₂) => move t (atoi arg₁) (atoi arg₂)
  else ([], t)

/-- The body of the loop. -/
def iterate (t : Thread) (w : Wake) : List Effect × Thread :=
  if w.ret < 0 then ([], { t with ended := true })
  else
    let r := checkIdle t w
    if r.2.ended then r
    else
      let r' := checkActive r.2 w
      (r.1 ++ r'.1, r'.2)

/-! ### The whole thread -/

/-- The state at the first `poll`. -/
def begin : Thread where
  piles := initialPiles
  turn := .one
  board := boardStr initialPiles
  winner := none
  reason := []
  ended := false

/-- What is sent before the loop; `name₁` and `name₂` are the players' names. -/
def prologue (name₁ name₂ : Bytes) : List Effect :=
  [.send .one (nameText 1 name₂), .send .two (nameText 2 name₁),
    .send .one (playText begin.turn begin.board), .send .two (playText begin.turn begin.board)]

/-- `OVER` to both players, with or without a reason. -/
def announce (t : Thread) : List Effect :=
  match t.winner with
  | none => []
  | some winner =>
    let board := boardStr t.piles
    if t.reason.length > 0 then
      [.send .one (overText winner board t.reason), .send .two (overText winner board t.reason)]
    else [.send .one (overText winner board []), .send .two (overText winner board [])]

/-- What is done after the loop, up to the removal of the names. -/
def epilogue (t : Thread) : List Effect := announce t ++ [.close .one, .close .two]

/-- A thread with everything it has sent and closed. -/
structure Play where
  log : List Effect
  thread : Thread

/-- One iteration of the loop, until it is left. -/
def pollStep (s : Play) (w : Wake) : Option Play :=
  if s.thread.ended then none
  else some ⟨s.log ++ (iterate s.thread w).1, (iterate s.thread w).2⟩

/-- The thread at its first `poll`. -/
def opening (name₁ name₂ : Bytes) : Play := ⟨prologue name₁ name₂, begin⟩

/-- The thread after the loop and the two calls of `close`. -/
def finish (s : Play) : Play := ⟨s.log ++ epilogue s.thread, s.thread⟩

end CS214.Nim
