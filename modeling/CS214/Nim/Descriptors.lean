import CS214.Lib.Numbers
import CS214.Nim.Matchmaking
import CS214.Nim.Outcome

/-!
# Nim — descriptors

A connection is closed by its handler, or, when its player was matched, by the game thread.
`Holds s c`: the connection is still to be closed, by one of them.  While it is, its number is its
own; afterwards the number may belong to another connection.

* `descriptor_safe`: in every run in which no malformed message ends a game, and no handler
  withdraws the player of another, each connection is closed at most once, and no thread closes or
  writes to the number of a connection that is not its client's.
* `reused_number`: a malformed message ends a game, the loop closes the offender's number, `accept`
  gives it to a new client, and the `close` after the loop closes the new client's connection.
-/

namespace CS214.Nim

open CString Function

variable {s s' : Server} {P : Cid → Place} {c d : Cid} {g : Gid} {a me : Addr} {e : Event}
  {t t' : Thread} {w : Wake} {p q : Seat} {es : List Effect}

/-! ### The property -/

/-- How often a thread closed the number of connection `c` for it. -/
def closes (ops : List Op) (c : Cid) : ℕ :=
  ops.countP fun op => op.conn = some c ∧ op.bytes = none

/-- Each connection is closed at most once, and a number that is closed or written to does not
belong to the connection of a different client. -/
structure DescriptorSafe (s : Server) : Prop where
  once : ∀ c, closes s.ops c ≤ 1
  own : ∀ op ∈ s.ops, ∀ c, op.found = some c → op.conn = some c

/-- The loop of a game, between two calls of `poll`. -/
def Game.polls : Game → Option Thread
  | .running _ _ [] t => some t
  | _ => none

/-- No game is ended by a malformed message, and a handler withdraws its own player. -/
def Clean (s : Server) : Event → Prop
  | .poll g w => ∀ t ∈ (s.games g).polls, ¬ Malformed t w .one ∧ ¬ Malformed t w .two
  | e => OwnWithdraw s e

/-! ### Who closes a connection -/

/-- The handler has its `close` before it. -/
def Handler.holds : Handler → Bool
  | .absent => false
  | .waiting _ => false
  | .finishing todo => .close ∈ todo
  | _ => true

/-- The thread has the `close` of a player before it. -/
def Game.holds (p : Seat) : Game → Bool
  | .running _ _ todo t => !t.ended || .close p ∈ todo
  | .unstarted _ _ => true
  | _ => false

/-- The connection is still to be closed: by its handler, by the handler of the waiting player, or
by the thread of its game. -/
inductive Holds (s : Server) (c : Cid) : Prop where
  | handler (h : (s.handlers c).holds = true)
  | slot {a : Addr} (waits : s.waiting = some a) (own : s.owner a = some c)
  | game {g : Gid} {p : Seat} {a : Addr} (seat : (s.games g).seat p = some a)
      (own : s.owner a = some c) (h : (s.games g).holds p = true)

/-- The call sends a message. -/
def IsSend (e : Effect) : Prop := ∃ p text, e = .send p text

/-- The calls that a game thread has before it: it sends, and after the loop it closes both. -/
inductive GameCalls : List Effect → Thread → Prop where
  | going {todo : List Effect} {t : Thread} (h : t.ended = false) (sends : ∀ e ∈ todo, IsSend e) :
      GameCalls todo t
  | ended {sends : List Effect} {t : Thread} (h : t.ended = true) (hs : ∀ e ∈ sends, IsSend e) :
      GameCalls (sends ++ [.close .one, .close .two]) t
  | closing {t : Thread} (h : t.ended = true) : GameCalls [.close .two] t
  | done {t : Thread} (h : t.ended = true) : GameCalls [] t

/-- Every descriptor is in order. -/
structure Fds (s : Server) : Prop where
  held : Held s.fds s.fd (Holds s) (closes s.ops)
  ops : ∀ op ∈ s.ops, ∃ c < s.conns, op.conn = some c ∧ op.found = some c
  calls : ∀ g p₁ p₂ todo t, s.games g = .running p₁ p₂ todo t → GameCalls todo t

/-! ### The calls of a game thread -/

theorem Reply.isSend {b : Effect} (h : Reply t b) : IsSend b := by
  cases h with
  | fail | board => exact ⟨_, _, rfl⟩

theorem isSend_pair {p q : Seat} {text text' : Bytes} :
    ∀ e ∈ [Effect.send p text, .send q text'], IsSend e := by
  intro e he
  rcases List.mem_cons.mp he with rfl | he
  · exact ⟨_, _, rfl⟩
  · obtain rfl := List.mem_singleton.mp he
    exact ⟨_, _, rfl⟩

theorem isSend_append {es es' : List Effect} (h : ∀ e ∈ es, IsSend e) (h' : ∀ e ∈ es', IsSend e) :
    ∀ e ∈ es ++ es', IsSend e :=
  fun e he => (List.mem_append.mp he).elim (h e) (h' e)

/-- Only a malformed message makes the loop close a connection. -/
theorem Iteration.isSend (h : Iteration t w es t') (hok : ∀ p, ¬ Malformed t w p) :
    ∀ e ∈ es, IsSend e := by
  cases h with
  | failed => exact fun e he => absurd he List.not_mem_nil
  | same replies | won replies | gone replies => exact fun e he => (replies e he).isSend
  | moved replies => exact isSend_append (fun e he => (replies e he).isSend) isSend_pair
  | dropped _ bad => exact absurd bad (hok _)

theorem isSend_announce (t : Thread) : ∀ e ∈ announce t, IsSend e := by
  cases hv : t.winner with
  | none =>
      rw [announce_none hv]
      exact fun e he => absurd he List.not_mem_nil
  | some v =>
      rw [announce_some hv]
      exact isSend_pair

namespace GameCalls

theorem prologue (name₁ name₂ : Bytes) : GameCalls (prologue name₁ name₂) begin := by
  refine .going rfl ?_
  change ∀ e ∈ [Effect.send _ _, .send _ _] ++ [Effect.send _ _, .send _ _], IsSend e
  exact isSend_append isSend_pair isSend_pair

theorem poll (he : t.ended = false) (hok : ∀ p, ¬ Malformed t w p) :
    GameCalls (gameTodo (iterate t w)) (iterate t w).2 := by
  have hsend := (iteration he w).isSend hok
  rw [gameTodo]
  split
  · next h =>
      rw [epilogue, ← List.append_assoc]
      exact .ended h (isSend_append hsend (isSend_announce _))
  · next h => exact .going (Bool.eq_false_iff.mpr h) hsend

variable {text : Bytes} {todo : List Effect}

/-- Both connections are open when the thread sends. -/
theorem send (h : GameCalls (.send q text :: todo) t) :
    GameCalls todo t ∧ ∀ p, t.ended = false ∨ .close p ∈ todo := by
  generalize hl : Effect.send q text :: todo = l at h
  cases h with
  | going h sends =>
      subst hl
      exact ⟨.going h fun e he => sends e (List.mem_cons_of_mem _ he), fun _ => .inl h⟩
  | @ended sends _ h hs =>
      cases sends with
      | nil => cases hl
      | cons b sends =>
          obtain ⟨-, rfl⟩ := List.cons.inj hl
          refine ⟨.ended h fun e he => hs e (List.mem_cons_of_mem _ he), fun p => .inr ?_⟩
          cases p <;> simp
  | closing => cases hl
  | done => cases hl

/-- The thread closes a connection once. -/
theorem close (h : GameCalls (.close q :: todo) t) :
    GameCalls todo t ∧ t.ended = true ∧ .close q ∉ todo := by
  generalize hl : Effect.close q :: todo = l at h
  cases h with
  | going h sends =>
      subst hl
      obtain ⟨p, text, e⟩ := sends _ List.mem_cons_self
      cases e
  | @ended sends _ h hs =>
      cases sends with
      | nil =>
          obtain ⟨e, rfl⟩ := List.cons.inj hl
          obtain rfl := Effect.close.inj e
          exact ⟨.closing h, h, by decide⟩
      | cons b sends =>
          obtain ⟨rfl, -⟩ := List.cons.inj hl
          obtain ⟨p, text, e⟩ := hs _ List.mem_cons_self
          cases e
  | closing h =>
      obtain ⟨e, rfl⟩ := List.cons.inj hl
      exact ⟨.done h, h, List.not_mem_nil⟩
  | done => cases hl

theorem tail {b : Effect} (h : GameCalls (b :: todo) t) : GameCalls todo t := by
  cases b with
  | send q text => exact h.send.1
  | close q => exact h.close.1

end GameCalls

/-! ### Operations on descriptors -/

theorem closes_cons (op : Op) (ops : List Op) (c : Cid) :
    closes (op :: ops) c = closes ops c + if op.conn = some c ∧ op.bytes = none then 1 else 0 := by
  simp [closes, List.countP_cons]

/-- A thread writes to a connection that is still to be closed. -/
theorem Fds.send (hF : Fds s) (hc : Holds s c) (hlt : c < s.conns) (text : Bytes) {H : Cid → Prop}
    (hH : ∀ d, H d → Holds s d) :
    let r := s.send (some c) (s.fd c) text
    Held r.fds r.fd H (closes r.ops) ∧
      ∀ op ∈ r.ops, ∃ c < r.conns, op.conn = some c ∧ op.found = some c := by
  simp only [Server.send]
  split
  · exact ⟨hF.held.mono hH, hF.ops⟩
  · constructor
    · -- a message that is written is not a `close`
      have hcount : closes (⟨some c, s.fds (s.fd c), some ‹_›⟩ :: s.ops) = closes s.ops := by
        funext d
        rw [closes_cons, if_neg (fun h => Option.some_ne_none _ h.2), Nat.add_zero]
      rw [hcount]
      exact hF.held.mono hH
    · intro op hop
      rcases List.mem_cons.mp hop with rfl | hop
      · exact ⟨c, hlt, rfl, hF.held.mine c hc⟩
      · exact hF.ops op hop

/-- A thread closes a connection that is still to be closed. -/
theorem Fds.close (hF : Fds s) (hc : Holds s c) (hlt : c < s.conns) {H : Cid → Prop}
    (hH : ∀ d, H d → d ≠ c ∧ Holds s d) :
    let r := s.close (some c) (s.fd c)
    Held r.fds r.fd H (closes r.ops) ∧
      ∀ op ∈ r.ops, ∃ c < r.conns, op.conn = some c ∧ op.found = some c := by
  refine ⟨hF.held.give hc ?_ hH, ?_⟩
  · intro d
    simp only [Server.close, closes_cons, Option.some.injEq, and_true]
  · intro op hop
    rcases List.mem_cons.mp hop with rfl | hop
    · exact ⟨c, hlt, rfl, hF.held.mine c hc⟩
    · exact hF.ops op hop

/-! ### Who holds a connection after a step -/

theorem Holds.of_setHandler {H : Handler} (hh : s'.handlers = update s.handlers c H)
    (hw : s'.waiting = s.waiting) (ho : s'.owner = s.owner) (hg : s'.games = s.games)
    (hH : H.holds = true → (s.handlers c).holds = true) (h : Holds s' d) : Holds s d := by
  cases h with
  | handler h =>
      rw [hh, update_apply] at h
      split at h
      · next e => exact .handler (e ▸ hH h)
      · exact .handler h
  | slot waits own => exact .slot (hw ▸ waits) (ho ▸ own)
  | game seat own h => exact .game (hg ▸ seat) (ho ▸ own) (hg ▸ h)

theorem Holds.of_setGame {G : Game} (hh : s'.handlers = s.handlers) (hw : s'.waiting = s.waiting)
    (ho : s'.owner = s.owner) (hg : s'.games = update s.games g G)
    (hG : ∀ p a, G.seat p = some a → (s.games g).seat p = some a ∧
      (G.holds p = true → (s.games g).holds p = true)) (h : Holds s' d) : Holds s d := by
  cases h with
  | handler h => exact .handler (hh ▸ h)
  | slot waits own => exact .slot (hw ▸ waits) (ho ▸ own)
  | game seat own h =>
      rw [hg, update_apply] at seat h
      split at seat
      · next e =>
          rw [if_pos e] at h
          exact .game (hG _ _ seat).1 (ho ▸ own) ((hG _ _ seat).2 h)
      · next e =>
          rw [if_neg e] at h
          exact .game seat (ho ▸ own) h

namespace Fds

/-- A step that opens, closes and writes nothing. -/
theorem mono (hF : Fds s) (h₁ : s'.fds = s.fds) (h₂ : s'.fd = s.fd) (h₃ : s'.ops = s.ops)
    (h₄ : s'.conns = s.conns) (hH : ∀ d, Holds s' d → Holds s d)
    (hcalls : ∀ g p₁ p₂ todo t, s'.games g = .running p₁ p₂ todo t → GameCalls todo t) :
    Fds s' where
  held := by
    rw [h₁, h₂, h₃]
    exact hF.held.mono hH
  ops := by
    rw [h₃, h₄]
    exact hF.ops
  calls := hcalls

theorem calls_setGame (hF : Fds s) {G : Game}
    (hG : ∀ p₁ p₂ todo t, G = .running p₁ p₂ todo t → GameCalls todo t) :
    ∀ h p₁ p₂ todo t, update s.games g G h = .running p₁ p₂ todo t → GameCalls todo t := by
  intro h p₁ p₂ todo t hh
  rw [update_apply] at hh
  split at hh
  · exact hG p₁ p₂ todo t hh
  · exact hF.calls h p₁ p₂ todo t hh

/-- A handler gets to another point, and has its `close` before it only if it had. -/
theorem setHandler (hF : Fds s) {H : Handler}
    (hH : H.holds = true → (s.handlers c).holds = true) : Fds (s.setHandler c H) :=
  hF.mono rfl rfl rfl rfl (fun _ => Holds.of_setHandler rfl rfl rfl rfl hH) hF.calls

/-- A connection that has not been accepted was not closed. -/
theorem closes_eq_zero (hF : Fds s) (hc : s.conns ≤ c) : closes s.ops c = 0 := by
  refine List.countP_eq_zero.mpr fun op hop => ?_
  obtain ⟨d, hlt, hconn, -⟩ := hF.ops op hop
  have hne : d ≠ c := (Nat.lt_of_lt_of_le hlt hc).ne
  simp [hconn, hne]

end Fds

/-- A player at a place of its own is held by its handler only. -/
theorem Inv.not_holds_private (hI : Inv s P) (hP : (P c).shared = false)
    (hw : s'.waiting = s.waiting) (ho : s'.owner = s.owner) (hg : s'.games = s.games)
    (hh : (s'.handlers c).holds = false) : ¬ Holds s' c := by
  intro h
  cases h with
  | handler h =>
      rw [hh] at h
      cases h
  | slot waits own =>
      rw [hI.slot_iff.mpr ⟨hw ▸ waits, ho ▸ own⟩] at hP
      cases hP
  | game seat own _ =>
      rw [hI.game_iff.mpr ⟨hg ▸ seat, ho ▸ own⟩] at hP
      cases hP

/-- The handler of a matched player does not close. -/
theorem At.not_holds {pc : Handler} {z : Place} {r : Option Name} (h : At pc z r)
    (hz : z.handed = true) : pc.holds = false := by
  cases h with
  | stale | returned => rfl
  | absent | accepted | receiving | opened | refusing | registered | greeting | matching | waiting
  | withdrawn | leaving => cases hz

/-- A player in a game is held by its thread only. -/
theorem Inv.not_holds_game (hI : Inv s P) (hP : P c = .game g p a) {G : Game}
    (hh : s'.handlers = s.handlers) (hw : s'.waiting = s.waiting) (ho : s'.owner = s.owner)
    (hg : s'.games = update s.games g G) (hG : ∀ q, G.seat q = (s.games g).seat q)
    (hn : G.holds p = false) : ¬ Holds s' c := by
  intro h
  cases h with
  | handler h =>
      have hat := hI.handler c
      rw [hP] at hat
      rw [hh, hat.not_holds rfl] at h
      cases h
  | slot waits own =>
      rw [hI.slot_iff.mpr ⟨hw ▸ waits, ho ▸ own⟩] at hP
      cases hP
  | @game g' q b seat own h =>
      have hseat : (s.games g').seat q = some b := by
        rw [hg, update_apply] at seat
        split at seat
        · next e => rw [e, ← hG, seat]
        · exact seat
      rw [hI.game_iff.mpr ⟨hseat, ho ▸ own⟩] at hP
      obtain ⟨rfl, rfl, -⟩ := Place.game.inj hP
      rw [hg, update_self, hn] at h
      cases h

namespace Fds

theorem accept (hF : Fds s) {fd : Fd} (closed : s.fds fd = none) :
    Fds { s.setHandler s.conns .accepted with
      conns := s.conns + 1, fds := update s.fds fd (some s.conns),
      fd := update s.fd s.conns fd } := by
  refine ⟨hF.held.take closed (hF.closes_eq_zero (Nat.le_refl _)) ?_, ?_, hF.calls⟩
  · intro d hd
    by_cases e : d = s.conns
    · exact .inl e
    · refine .inr ?_
      cases hd with
      | handler h =>
          simp only [Server.setHandler, update_of_ne e] at h
          exact .handler h
      | slot waits own => exact .slot waits own
      | game seat own h => exact .game seat own h
  · intro op hop
    obtain ⟨d, hlt, h⟩ := hF.ops op hop
    exact ⟨d, Nat.lt_succ_of_lt hlt, h⟩

theorem alloc (hF : Fds s) (hI : Inv s P) {name : Name} (pc : s.handlers c = .registered name)
    (unused : s.allocated a = false) :
    Fds { s.setHandler c (.greeting a) with
      players := update s.players a ⟨s.fd c, name⟩
      allocated := update s.allocated a true
      owner := update s.owner a (some c) } := by
  refine hF.mono rfl rfl rfl rfl (fun d hd => ?_) hF.calls
  cases hd with
  | handler h =>
      simp only [Server.setHandler, update_apply] at h
      split at h
      · next e => exact .handler (by rw [e, pc]; rfl)
      · exact .handler h
  | @slot b waits own =>
      simp only [update_of_ne (hI.slot_ne waits unused)] at own
      exact .slot waits own
  | @game g p b seat own h =>
      simp only [update_of_ne (hI.seat_ne seat unused)] at own
      exact .game seat own h

theorem take (hF : Fds s) (hI : Inv s P) (pc : s.handlers c = .matching me) :
    Fds { s.setHandler c (.waiting me) with waiting := some me } := by
  have hown := hI.owner_matching pc
  refine hF.mono rfl rfl rfl rfl (fun d hd => ?_) hF.calls
  cases hd with
  | handler h =>
      simp only [Server.setHandler, update_apply] at h
      split at h
      · cases h
      · exact .handler h
  | slot waits own =>
      obtain rfl := Option.some.inj waits
      obtain rfl := Option.some.inj (hown.symm.trans own)
      exact .handler (by rw [pc]; rfl)
  | game seat own h => exact .game seat own h

theorem pair (hF : Fds s) (hI : Inv s P) {o : Addr} {G : Game} (pc : s.handlers c = .matching me)
    (waits : s.waiting = some o)
    (hseat : ∀ p, G.seat p = some (match p with | .one => o | .two => me))
    (hcalls : ∀ p₁ p₂ todo t, G = .running p₁ p₂ todo t → GameCalls todo t) :
    Fds { (s.setHandler c (.finishing [])).setGame s.created G with
      waiting := none, created := s.created + 1 } := by
  have hown := hI.owner_matching pc
  refine hF.mono rfl rfl rfl rfl (fun d hd => ?_) (hF.calls_setGame hcalls)
  cases hd with
  | handler h =>
      simp only [Server.setGame, Server.setHandler, update_apply] at h
      split at h
      · cases h
      · exact .handler h
  | slot waits => cases waits
  | @game g p b seat own h =>
      by_cases e : g = s.created
      · subst e
        simp only [Server.setGame, Server.setHandler, update_self, hseat] at seat
        cases p with
        | one =>
            obtain rfl := Option.some.inj seat
            exact .slot waits own
        | two =>
            obtain rfl := Option.some.inj seat
            obtain rfl := Option.some.inj (hown.symm.trans own)
            exact .handler (by rw [pc]; rfl)
      · simp only [Server.setGame, Server.setHandler, update_of_ne e] at seat h
        exact .game seat own h

theorem withdraw (hF : Fds s) (here : s.waiting = some me) (own : s.owner me = some c) :
    Fds { (s.remove me).setHandler c (.withdrawn me) with waiting := none } := by
  refine hF.mono rfl rfl rfl rfl (fun d hd => ?_) hF.calls
  cases hd with
  | handler h =>
      simp only [Server.setHandler, Server.remove, update_apply] at h
      split at h
      · next e => exact e ▸ .slot here own
      · exact .handler h
  | slot waits => cases waits
  | game seat own h => exact .game seat own h

/-- A call of a handler that returns. -/
theorem act (hF : Fds s) (hI : Inv s P) {b : Act} {todo : List Act}
    (pc : s.handlers c = .finishing (b :: todo)) :
    Fds ((s.act c b).setHandler c (.finishing todo)) := by
  have hat := hI.at_pc pc
  have hlt : c < s.conns := hI.lt (pc ▸ nofun)
  -- the player is at a place of its own, and there is a close left after every send only
  have hpriv : (P c).shared = false ∧ (.close ∈ todo ↔ ∃ text, b = .send text) := by
    rcases hat.of_finishing with ⟨h, -, -, -, hclose⟩ | ⟨a, name, h, -, hclose, -⟩
    · exact ⟨h ▸ rfl, hclose⟩
    · exact ⟨h ▸ rfl, hclose⟩
  obtain ⟨hpriv, hclose⟩ := hpriv
  obtain ⟨ho, hw, -, hg, hh⟩ := act_frame (s := s) c b
  have hhandlers : ((s.act c b).setHandler c (.finishing todo)).handlers =
      update s.handlers c (.finishing todo) := by
    simp only [Server.setHandler, hh]
  have hmono : ∀ d, Holds ((s.act c b).setHandler c (.finishing todo)) d → Holds s d := by
    refine fun d => Holds.of_setHandler hhandlers hw ho hg fun h => ?_
    rw [pc]
    simp only [Handler.holds, decide_eq_true_eq] at h ⊢
    exact List.mem_cons_of_mem _ h
  cases b with
  | send text =>
      have hc : Holds s c := by
        refine .handler ?_
        rw [pc]
        simp [Handler.holds, hclose.mpr ⟨text, rfl⟩]
      obtain ⟨h₁, h₂⟩ := hF.send hc hlt text hmono
      refine ⟨h₁, h₂, ?_⟩
      simp only [Server.setHandler, hg]
      exact hF.calls
  | close =>
      have hc : Holds s c := by
        refine .handler ?_
        rw [pc]
        simp [Handler.holds]
      have hnot : ¬ Holds ((s.act c .close).setHandler c (.finishing todo)) c := by
        refine hI.not_holds_private hpriv hw ho hg ?_
        rw [hhandlers, update_self]
        simp [Handler.holds, hclose]
      obtain ⟨h₁, h₂⟩ := hF.close (H := Holds ((s.act c .close).setHandler c (.finishing todo)))
        hc hlt fun d hd => ⟨fun (e : d = c) => hnot (e ▸ hd), hmono d hd⟩
      exact ⟨h₁, h₂, hF.calls⟩
  | free a => exact hF.mono rfl rfl rfl rfl hmono hF.calls

/-- A call of a game thread. -/
theorem effect (hF : Fds s) (hI : Inv s P) {p₁ p₂ : Addr} {b : Effect} {todo : List Effect}
    (pc : s.games g = .running p₁ p₂ (b :: todo) t) (seat : (s.games g).seat b.who = some a) :
    Fds ((s.effect a b).setGame g (.running p₁ p₂ todo t)) := by
  obtain ⟨c, hc⟩ := hI.in_game seat
  have hlt : c < s.conns := hI.lt_of_place (hc ▸ nofun)
  obtain ⟨-, hown, name, -, hobj⟩ := hI.object c a (hc ▸ rfl)
  obtain ⟨ho, hw, -, hg, hh⟩ := effect_frame (s := s) a b
  have hgames : ((s.effect a b).setGame g (.running p₁ p₂ todo t)).games =
      update s.games g (.running p₁ p₂ todo t) := by
    simp only [Server.setGame, hg]
  have hseat : ∀ q, (Game.running p₁ p₂ todo t).seat q = (s.games g).seat q := by
    intro q
    rw [pc]
    cases q <;> rfl
  have hmono : ∀ d, Holds ((s.effect a b).setGame g (.running p₁ p₂ todo t)) d → Holds s d := by
    refine fun d => Holds.of_setGame hh hw ho hgames fun q x hx => ⟨hseat q ▸ hx, fun h => ?_⟩
    rw [pc]
    simp only [Game.holds, Bool.or_eq_true, decide_eq_true_eq] at h ⊢
    exact h.imp_right (List.mem_cons_of_mem _)
  have hcalls : GameCalls (b :: todo) t := hF.calls g p₁ p₂ (b :: todo) t pc
  have hcalls' : ∀ h q₁ q₂ todo' t',
      ((s.effect a b).setGame g (.running p₁ p₂ todo t)).games h = .running q₁ q₂ todo' t' →
        GameCalls todo' t' := by
    rw [hgames]
    refine hF.calls_setGame fun q₁ q₂ todo' t' e => ?_
    obtain ⟨-, -, rfl, rfl⟩ := Game.running.inj e
    exact hcalls.tail
  cases b with
  | send q text =>
      obtain ⟨-, hopen⟩ := hcalls.send
      have hc : Holds s c := by
        refine .game seat hown ?_
        rw [pc]
        simp only [Game.holds, Bool.or_eq_true, Bool.not_eq_true', decide_eq_true_eq]
        exact (hopen q).imp_right (List.mem_cons_of_mem _)
      obtain ⟨h₁, h₂⟩ := hF.send hc hlt text hmono
      refine ⟨?_, ?_, hcalls'⟩
      · simpa only [Server.effect, Server.setGame, hown, hobj] using h₁
      · simpa only [Server.effect, Server.setGame, hown, hobj] using h₂
  | close q =>
      obtain ⟨-, hended, hno⟩ := hcalls.close
      have hold : Holds s c := by
        refine .game seat hown ?_
        rw [pc]
        simp [Game.holds, Effect.who]
      -- the thread was the last to hold the connection
      have hnot : ¬ Holds ((s.effect a (.close q)).setGame g (.running p₁ p₂ todo t)) c := by
        refine hI.not_holds_game hc hh hw ho hgames hseat ?_
        simp [Game.holds, hended, Effect.who, hno]
      obtain ⟨h₁, h₂⟩ := hF.close hold hlt fun d hd =>
        ⟨fun (e : d = c) => hnot (e ▸ hd), hmono d hd⟩
      refine ⟨?_, ?_, hcalls'⟩
      · simpa only [Server.effect, Server.setGame, hown, hobj] using h₁
      · simpa only [Server.effect, Server.setGame, hown, hobj] using h₂

theorem greet (hF : Fds s) (hI : Inv s P) (pc : s.handlers c = .greeting me) :
    Fds ((s.send (some c) (s.fd c) (ascii "WAIT")).setHandler c (.matching me)) := by
  have hholds : (s.handlers c).holds = true := by
    rw [pc]
    rfl
  have hgames : (s.send (some c) (s.fd c) (ascii "WAIT")).games = s.games := send_games ..
  obtain ⟨h₁, h₂⟩ := hF.send (.handler hholds) (hI.lt (pc ▸ nofun)) (ascii "WAIT")
    (H := Holds ((s.send (some c) (s.fd c) (ascii "WAIT")).setHandler c (.matching me)))
    fun d => Holds.of_setHandler (c := c) (H := .matching me)
      (by simp only [Server.setHandler, send_handlers]) (send_waiting ..) (send_owner ..) hgames
      fun _ => hholds
  refine ⟨h₁, h₂, ?_⟩
  simp only [Server.setHandler, hgames]
  exact hF.calls

theorem poll (hF : Fds s) {p₁ p₂ : Addr} (pc : s.games g = .running p₁ p₂ [] t)
    (going : t.ended = false) (hok : ∀ p, ¬ Malformed t w p) :
    Fds (s.setGame g (.running p₁ p₂ (gameTodo (iterate t w)) (iterate t w).2)) := by
  refine hF.mono rfl rfl rfl rfl (fun d => Holds.of_setGame rfl rfl rfl rfl ?_)
    (hF.calls_setGame ?_)
  · intro q a hq
    rw [pc]
    refine ⟨?_, fun _ => ?_⟩
    · cases q <;> exact hq
    · simp [Game.holds, going]
  · intro q₁ q₂ todo t' e
    obtain ⟨-, -, rfl, rfl⟩ := Game.running.inj e
    exact .poll going hok

/-- A game thread that is done with both connections. -/
theorem freeing (hF : Fds s) {todo : List Addr} (h₁ : s'.fds = s.fds) (h₂ : s'.fd = s.fd)
    (h₃ : s'.ops = s.ops) (h₄ : s'.conns = s.conns) (hh : s'.handlers = s.handlers)
    (hw : s'.waiting = s.waiting) (ho : s'.owner = s.owner)
    (hg : s'.games = update s.games g (.freeing todo)) : Fds s' := by
  refine hF.mono h₁ h₂ h₃ h₄ (fun d => Holds.of_setGame hh hw ho hg ?_) ?_
  · intro q a hq
    cases hq
  · rw [hg]
    exact hF.calls_setGame fun _ _ _ _ e => by cases e

/-- **Every step keeps the descriptors in order**, when it is clean. -/
theorem step (hF : Fds s) (hI : Inv s P) (hok : Clean s e) (h : Step s e s') : Fds s' := by
  cases h with
  | accept closed => exact hF.accept closed
  | spawn pc | receive pc | refuse pc | reply pc => exact hF.setHandler fun _ => by rw [pc]; rfl
  | register pc unused =>
      refine hF.mono rfl rfl rfl rfl (fun d => ?_) hF.calls
      exact Holds.of_setHandler rfl rfl rfl rfl fun _ => by rw [pc]; rfl
  | alloc pc unused => exact hF.alloc hI pc unused
  | greet pc => exact hF.greet hI pc
  | take pc empty => exact hF.take hI pc
  | @pair c me o ok pc waits G start =>
      refine hF.pair hI pc waits ?_ ?_
      · intro p
        subst start
        cases ok <;> cases p <;> rfl
      · intro p₁ p₂ todo t hG
        cases ok with
        | false =>
            rw [start] at hG
            cases hG
        | true =>
            obtain ⟨-, -, rfl, rfl⟩ := Game.running.inj (start.symm.trans hG)
            exact .prologue _ _
  | matched pc away => exact hF.setHandler nofun
  | @withdraw c me ret pc here ready =>
      exact hF.withdraw here (hok me (waits_eq_some.mpr pc) here ready)
  | again => exact hF
  | act pc => exact hF.act hI pc
  | effect pc seat => exact hF.effect hI pc seat
  | @poll g p₁ p₂ t w pc going =>
      refine hF.poll pc going fun p => ?_
      obtain ⟨h₁, h₂⟩ := hok t (by rw [pc]; rfl)
      cases p with
      | one => exact h₁
      | two => exact h₂
  | unregister pc ended => exact hF.freeing rfl rfl rfl rfl rfl rfl rfl rfl
  | release pc => exact hF.freeing rfl rfl rfl rfl rfl rfl rfl rfl

theorem safe (hF : Fds s) : DescriptorSafe s where
  once := hF.held.once
  own op hop c hc := by
    obtain ⟨d, -, hconn, hfound⟩ := hF.ops op hop
    rw [hconn, ← hfound, hc]

end Fds

theorem fds_initial : Fds initial where
  held := by
    refine ⟨fun c h => ?_, fun _ _ => rfl, fun _ => Nat.zero_le 1⟩
    cases h with
    | handler h => cases h
    | slot waits => cases waits
    | game seat => cases seat
  ops op hop := absurd hop List.not_mem_nil
  calls g p₁ p₂ todo t h := by cases h

theorem Clean.ownWithdraw (h : Clean s e) : OwnWithdraw s e := by
  cases e with
  | poll => trivial
  | accept | spawn | receive | register | alloc | greet | enter | recheck | reply | act | effect
  | unregister | release => exact h

/-- **Descriptors.**  In every run in which no malformed message ends a game and every handler that
withdraws a player withdraws its own, each connection is closed at most once, and no thread closes
or writes to a number that belongs to the connection of a different client. -/
theorem descriptor_safe {es : List Event} (h : Run step Clean initial es s) : DescriptorSafe s := by
  have hinv : (∃ P, Inv s P) ∧ Fds s := by
    refine h.invariant (I := fun s => (∃ P, Inv s P) ∧ Fds s) ?_ ⟨⟨_, inv_initial⟩, fds_initial⟩
    rintro s e s' ⟨⟨P, hI⟩, hF⟩ hok hstep
    exact ⟨hI.step hok.ownWithdraw (step_cases hstep), hF.step hI hok (step_cases hstep)⟩
  exact hinv.2.safe

/-! ### Two runs -/

/-- A `MOVE` without a second field. -/
def Received.lacksField : Received → Bool
  | .message type body => type = ascii "MOVE" && !body.contains pipe
  | _ => false

theorem Received.lacksField_iff (r : Received) :
    r.lacksField = true ↔ ∃ body, r = .message (ascii "MOVE") body ∧ pipe ∉ body := by
  cases r with
  | gone | invalid => exact ⟨nofun, nofun⟩
  | message type body => simp [lacksField]

theorem Received.rc_eq_zero (r : Received) : r.rc = 0 ↔ ∃ type body, r = .message type body := by
  cases r with
  | gone | invalid => exact ⟨nofun, nofun⟩
  | message type body => exact ⟨fun _ => ⟨type, body, rfl⟩, fun _ => rfl⟩

instance (t : Thread) (w : Wake) : Decidable (IdleStays t w) :=
  decidable_of_iff (w.ready t.turn.other = true → (w.received t.turn.other).rc = 0) (by
    rw [Received.rc_eq_zero, IdleStays])

instance (t : Thread) (w : Wake) (p : Seat) : Decidable (Malformed t w p) :=
  decidable_of_iff ((0 ≤ w.ret ∧ w.ready p = true ∧ (p = t.turn → IdleStays t w)) ∧
      (w.received p = .invalid ∨ p = t.turn ∧ (w.received p).lacksField = true)) (by
    rw [Received.lacksField_iff, Malformed]
    exact and_congr_left fun _ => ⟨fun h => ⟨h.1, h.2.1, h.2.2⟩, fun h => ⟨h.1, h.2, h.3⟩⟩)

instance (s : Server) : (e : Event) → Decidable (Clean s e)
  | .poll g w => inferInstanceAs (Decidable (∀ t ∈ (s.games g).polls,
      ¬ Malformed t w .one ∧ ¬ Malformed t w .two))
  | .recheck c ret => inferInstanceAs (Decidable (OwnWithdraw s (.recheck c ret)))
  | .accept _ | .spawn .. | .receive .. | .register _ | .alloc .. | .greet _ | .enter ..
  | .reply .. | .act _ | .effect _ | .unregister _ | .release _ => .isTrue trivial

/-- Ann and Bob play, Bob hangs up; Cat gets Ann's number, waits and withdraws. -/
def cleanEvents : List Event :=
  returnedEvents ++ [.recheck 2 1, .reply 2 .gone, .act 2, .act 2]

theorem cleanEvents_run : (Run.exec step Clean initial cleanEvents).isSome = true := by
  decide +kernel

theorem descriptor_safe_clean :
    DescriptorSafe ((Run.exec step Clean initial cleanEvents).get cleanEvents_run) :=
  descriptor_safe (Run.of_isSome cleanEvents_run)

/-- Ann sends bytes that are no frame, and the loop closes her connection; `accept` returns its
number for the next client; then the thread closes both players. -/
def closedTwice : List Event :=
  comes 0 4 100 "Ann" ++ comes 1 5 200 "Bob" ++ .recheck 0 0 :: List.replicate 4 (.effect 0) ++
    [.poll 0 malformedWake, .effect 0, .effect 0, .accept 4, .effect 0]

theorem closedTwice_run :
    (Run.exec step (fun _ _ => True) initial closedTwice).isSome = true := by
  decide +kernel

/-- The last operation is a `close` for Ann's connection that hits the one of the new client. -/
theorem reused_number :
    ∃ s, Run step (fun _ _ => True) initial closedTwice s ∧ closes s.ops 0 = 2 ∧
      s.ops.head? = some ⟨some 0, some 2, none⟩ ∧ s.fds 4 = none ∧ ¬ DescriptorSafe s := by
  refine ⟨_, Run.of_isSome closedTwice_run, by decide +kernel, by decide +kernel,
    by decide +kernel, fun hS => ?_⟩
  exact absurd (hS.once 0) (by decide +kernel)

end CS214.Nim
