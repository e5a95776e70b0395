import CS214.Lib.Roster
import CS214.Nim.Server

/-!
# Nim — where every player is

The server hands a player from its handler to the waiting slot and from there to a game, in
critical sections of different threads.  `Place` is where a player is, and a map `P : Cid → Place`
puts every connection in one place.  `Inv s P` says that the state of the process agrees with the
map: program counters, the slot, the games, `active_names` and the heap of `Player`s.

Every step moves at most two players and keeps the invariant (`Inv.step`), provided that a handler
withdraws its own player only (`OwnWithdraw`).  That a waiting handler may find another player at
its address is the subject of `Matchmaking`.
-/

namespace CS214.Nim

open Function

/-- Where the player of a connection is. -/
inductive Place where
  /-- No name is registered. -/
  | out
  | named
  /-- The object is allocated, and the matching step is still to come. -/
  | lobby (a : Addr)
  | slot (a : Addr)
  | game (g : Gid) (p : Seat) (a : Addr)
  /-- The player has withdrawn, and its handler still has to free the object. -/
  | withdrew (a : Addr)
  /-- The game is over, and its thread still has to free the object. -/
  | ended (g : Gid) (a : Addr)
  | gone
deriving DecidableEq

namespace Place

/-- The player object, while it is allocated. -/
def addr : Place → Option Addr
  | lobby a | slot a | game _ _ a | withdrew a | ended _ a => some a
  | out | named | gone => none

/-- The name is in `active_names`. -/
def active : Place → Bool
  | named | lobby _ | slot _ | game _ _ _ => true
  | _ => false

/-- The name has been in `active_names`. -/
def left : Place → Bool
  | withdrew _ | ended _ _ | gone => true
  | _ => false

/-- The handler has handed the player to a game. -/
def handed : Place → Bool
  | game _ _ _ | ended _ _ | gone => true
  | _ => false

/-- The place is one that threads share: the slot or a game. -/
def shared : Place → Bool
  | slot _ | game _ _ _ | ended _ _ => true
  | _ => false

end Place

/-- The objects a game has to free. -/
def Game.frees : Game → List Addr
  | .freeing todo => todo
  | _ => []

section
variable (p : Seat) (p₁ p₂ : Addr) (todo : List Effect) (t : Thread) (as : List Addr)

@[simp] theorem seat_absent : Game.absent.seat p = none := rfl
@[simp] theorem seat_freeing : (Game.freeing as).seat p = none := rfl
@[simp] theorem seat_running_one : (Game.running p₁ p₂ todo t).seat .one = some p₁ := rfl
@[simp] theorem seat_running_two : (Game.running p₁ p₂ todo t).seat .two = some p₂ := rfl
@[simp] theorem frees_absent : Game.absent.frees = [] := rfl
@[simp] theorem frees_freeing : (Game.freeing as).frees = as := rfl
@[simp] theorem frees_running : (Game.running p₁ p₂ todo t).frees = [] := rfl

end

/-- The slot, or a game, holds the object. -/
def Located (s : Server) : Place → Prop
  | .slot a => s.waiting = some a
  | .game g p a => (s.games g).seat p = some a
  | .ended g a => a ∈ (s.games g).frees
  | _ => False

/-- The calls of a handler that has refused its client. -/
def Refusing (todo : List Act) : Prop :=
  todo = [] ∨ ∃ texts : List Bytes, todo = texts.map .send ++ [.close]

/-- The calls of a handler whose player has withdrawn. -/
def Leaving (todo : List Act) (a : Addr) : Prop :=
  todo = [.free a] ∨ ∃ texts : List Bytes, todo = texts.map .send ++ [.close, .free a]

/-- A handler is at a point that goes with the place of its player and the name it registered. -/
inductive At : Handler → Place → Option Name → Prop where
  | absent : At .absent .out none
  | accepted : At .accepted .out none
  | receiving : At .receiving .out none
  | opened (name : Name) : At (.opened name) .out none
  | refusing {todo : List Act} (h : Refusing todo) : At (.finishing todo) .out none
  | registered (name : Name) : At (.registered name) .named (some name)
  | greeting (a : Addr) (name : Name) : At (.greeting a) (.lobby a) (some name)
  | matching (a : Addr) (name : Name) : At (.matching a) (.lobby a) (some name)
  | waiting (a : Addr) (name : Name) : At (.waiting a) (.slot a) (some name)
  | stale (a : Addr) {z : Place} (h : z.handed = true) (name : Name) : At (.waiting a) z (some name)
  | returned {z : Place} (h : z.handed = true) (name : Name) : At (.finishing []) z (some name)
  | withdrawn (a : Addr) (name : Name) : At (.withdrawn a) (.withdrew a) (some name)
  | leaving {todo : List Act} {a : Addr} (h : Leaving todo a) (name : Name) :
      At (.finishing todo) (.withdrew a) (some name)

/-- The process agrees with the map of places. -/
structure Inv (s : Server) (P : Cid → Place) : Prop where
  object : ∀ c a, (P c).addr = some a → s.allocated a = true ∧ s.owner a = some c ∧
    ∃ name, s.registered c = some name ∧ s.players a = ⟨s.fd c, name⟩
  handler : ∀ c, At (s.handlers c) (P c) (s.registered c)
  located : ∀ z, z.shared = true → (Located s z ↔ ∃ c, P c = z)
  nodup : ∀ g, (s.games g).frees.Nodup
  roster : Roster s.names fun c name => (P c).active = true ∧ s.registered c = some name
  removed : ∀ c, s.removed c = if (P c).left then 1 else 0
  conns : ∀ c, s.conns ≤ c → s.handlers c = .absent
  created : ∀ g, s.created ≤ g → s.games g = .absent

variable {s s' : Server} {P : Cid → Place} {c d : Cid} {g : Gid} {a me : Addr} {name : Name}

theorem inv_initial : Inv initial fun _ => .out where
  object c a h := by cases h
  handler _ := .absent
  located z hz := by cases z <;> simp_all [Place.shared, Located, initial, Game.seat, Game.frees]
  nodup _ := List.nodup_nil
  roster := .empty fun c n h => by simp [Place.active] at h
  removed _ := rfl
  conns _ _ := rfl
  created _ _ := rfl

/-- The `me` of a handler in its wait loop. -/
def Handler.waits : Handler → Option Addr
  | .waiting me => some me
  | _ => none

/-- A handler that withdraws the player in the slot has allocated it. -/
def OwnWithdraw (s : Server) : Event → Prop
  | .recheck c ret => ∀ me ∈ (s.handlers c).waits, s.waiting = some me → 0 < ret →
      s.owner me = some c
  | _ => True

instance (s : Server) : (e : Event) → Decidable (OwnWithdraw s e)
  | .recheck c ret => inferInstanceAs (Decidable (∀ me ∈ (s.handlers c).waits, s.waiting = some me →
      0 < ret → s.owner me = some c))
  | .accept _ | .spawn .. | .receive .. | .register _ | .alloc .. | .greet _ | .enter ..
  | .reply .. | .act _ | .effect _ | .poll .. | .unregister _ | .release _ => .isTrue trivial

/-! ### Program counters -/

namespace At

variable {z : Place} {r : Option Name} {todo : List Act} {b : Act}

theorem of_accepted (h : At .accepted z r) : z = .out ∧ r = none := by
  cases h; exact ⟨rfl, rfl⟩

theorem of_absent (h : At .absent z r) : z = .out ∧ r = none := by
  cases h; exact ⟨rfl, rfl⟩

theorem of_receiving (h : At .receiving z r) : z = .out ∧ r = none := by
  cases h; exact ⟨rfl, rfl⟩

theorem of_opened (h : At (.opened name) z r) : z = .out ∧ r = none := by
  cases h; exact ⟨rfl, rfl⟩

theorem of_registered (h : At (.registered name) z r) : z = .named ∧ r = some name := by
  cases h; exact ⟨rfl, rfl⟩

theorem of_greeting (h : At (.greeting a) z r) : z = .lobby a ∧ ∃ name, r = some name := by
  cases h; exact ⟨rfl, _, rfl⟩

theorem of_matching (h : At (.matching a) z r) : z = .lobby a ∧ ∃ name, r = some name := by
  cases h; exact ⟨rfl, _, rfl⟩

theorem of_waiting (h : At (.waiting a) z r) :
    (z = .slot a ∨ z.handed = true) ∧ ∃ name, r = some name := by
  cases h with
  | waiting => exact ⟨.inl rfl, _, rfl⟩
  | stale _ h => exact ⟨.inr h, _, rfl⟩

theorem of_withdrawn (h : At (.withdrawn a) z r) : z = .withdrew a ∧ ∃ name, r = some name := by
  cases h; exact ⟨rfl, _, rfl⟩

/-- The next call of a handler that returns, and what is left after it. -/
theorem of_finishing (h : At (.finishing (b :: todo)) z r) :
    (z = .out ∧ r = none ∧ (∀ a, b ≠ .free a) ∧ Refusing todo ∧
      (.close ∈ todo ↔ ∃ text, b = .send text)) ∨
    ∃ a name, z = .withdrew a ∧ r = some name ∧ (.close ∈ todo ↔ ∃ text, b = .send text) ∧
      (b = .free a ∧ todo = [] ∨ (∀ a, b ≠ .free a) ∧ Leaving todo a) := by
  cases h with
  | refusing h =>
      refine .inl ⟨rfl, rfl, ?_⟩
      rcases h with h | ⟨texts, h⟩
      · cases h
      · cases texts with
        | nil =>
            obtain ⟨rfl, rfl⟩ := List.cons.inj h
            exact ⟨by simp, .inl rfl, by simp⟩
        | cons text texts =>
            obtain ⟨rfl, rfl⟩ := List.cons.inj h
            exact ⟨by simp, .inr ⟨texts, rfl⟩, by simp⟩
  | leaving h name =>
      refine .inr ⟨_, name, rfl, rfl, ?_⟩
      rcases h with h | ⟨texts, h⟩
      · obtain ⟨rfl, rfl⟩ := List.cons.inj h
        exact ⟨by simp, .inl ⟨rfl, rfl⟩⟩
      · cases texts with
        | nil =>
            obtain ⟨rfl, rfl⟩ := List.cons.inj h
            exact ⟨by simp, .inr ⟨by simp, .inl rfl⟩⟩
        | cons text texts =>
            obtain ⟨rfl, rfl⟩ := List.cons.inj h
            exact ⟨by simp, .inr ⟨by simp, .inr ⟨texts, rfl⟩⟩⟩

/-- A waiting player that is matched leaves its handler in the wait loop. -/
theorem matched {pc : Handler} {z' : Place} (h : At pc (.slot a) r) (hz : z'.handed = true) :
    At pc z' r := by
  cases h with
  | waiting => exact .stale _ hz _
  | stale _ hs => cases hs
  | returned hs => cases hs

theorem handed {pc : Handler} {z' : Place} (h : At pc z r) (hz : z.handed = true)
    (hz' : z'.handed = true) : At pc z' r := by
  cases h with
  | stale => exact .stale _ hz' _
  | returned => exact .returned hz' _
  | absent | accepted | receiving | opened | refusing | registered | greeting | matching | waiting
  | withdrawn | leaving => cases hz

end At

/-- What a first message leads to, as long as nothing is registered. -/
theorem at_openReply (r : Received) : At (openReply r) .out none := by
  rcases openReply_cases r with h | ⟨text, h⟩ | ⟨name, h⟩ <;> rw [h]
  · exact .refusing (.inr ⟨[], rfl⟩)
  · exact .refusing (.inr ⟨[text], rfl⟩)
  · exact .opened name

theorem leaving_withdrawReply (r : Received) (a : Addr) :
    Leaving (withdrawReply r ++ [.close, .free a]) a := by
  rcases withdrawReply_cases r with h | ⟨text, h⟩ <;> rw [h]
  · exact .inr ⟨[], rfl⟩
  · exact .inr ⟨[text], rfl⟩

/-! ### What `send_msg` leaves alone -/

section
variable (k : Option Cid) (fd : Fd) (text : Bytes)

@[simp] theorem send_handlers : (s.send k fd text).handlers = s.handlers := by
  unfold Server.send; split <;> rfl

@[simp] theorem send_registered : (s.send k fd text).registered = s.registered := by
  unfold Server.send; split <;> rfl

@[simp] theorem send_games : (s.send k fd text).games = s.games := by
  unfold Server.send; split <;> rfl

end

/-! ### Moving a player -/

/-- A player moved between private places is seen by nobody. -/
theorem exists_update_private {x y z : Place} (hx : P c = x) (hx' : x.shared = false)
    (hy : y.shared = false) (hz : z.shared = true) : (∃ d, update P c y d = z) ↔ ∃ d, P d = z := by
  constructor
  · rintro ⟨d, hd⟩
    by_cases h : d = c
    · subst h
      rw [update_self] at hd
      rw [hd, hz] at hy
      cases hy
    · exact ⟨d, by rwa [update_of_ne h] at hd⟩
  · rintro ⟨d, hd⟩
    have h : d ≠ c := by
      rintro rfl
      rw [← hx, hd, hz] at hx'
      cases hx'
    exact ⟨d, by rwa [update_of_ne h]⟩

/-- A player moved to `y`: the places that are taken are `y`, and those that were taken before
except the one it left. -/
theorem exists_update {owner : Addr → Option Cid}
    (hown : ∀ c a, (P c).addr = some a → owner a = some c) {y z : Place} (hz : z.shared = true) :
    (∃ d, update P c y d = z) ↔ z = y ∨ z ≠ P c ∧ ∃ d, P d = z := by
  obtain ⟨a, ha⟩ : ∃ a, z.addr = some a := by
    cases z <;> first | exact ⟨_, rfl⟩ | cases hz
  constructor
  · rintro ⟨d, hd⟩
    by_cases h : d = c
    · subst h
      rw [update_self] at hd
      exact .inl hd.symm
    · rw [update_of_ne h] at hd
      refine .inr ⟨fun e => h ?_, d, hd⟩
      have h₁ := hown d a (hd ▸ ha)
      have h₂ := hown c a (e ▸ ha)
      exact Option.some.inj (h₁.symm.trans h₂)
  · rintro (rfl | ⟨hne, d, hd⟩)
    · exact ⟨c, update_self ..⟩
    · have h : d ≠ c := by
        rintro rfl
        exact hne hd.symm
      exact ⟨d, by rwa [update_of_ne h]⟩

/-- What two places have in common is not changed by moving a player from one to the other. -/
theorem place_update {β : Type*} (f : Place → β) {y : Place} (hy : f y = f (P c)) (d : Cid) :
    f (update P c y d) = f (P d) := by
  by_cases h : d = c
  · subst h
    rw [update_self, hy]
  · rw [update_of_ne h]

/-- One handler gets to another point, and its player to another place. -/
theorem at_update (hat : ∀ d, At (s.handlers d) (P d) (s.registered d)) {H : Handler} {y : Place}
    (h : At H y (s.registered c)) (d : Cid) :
    At (update s.handlers c H d) (update P c y d) (s.registered d) := by
  by_cases e : d = c
  · subst e
    rw [update_self, update_self]
    exact h
  · rw [update_of_ne e, update_of_ne e]
    exact hat d

/-- A player gets to another place that goes with the point of its handler. -/
theorem at_move (hat : ∀ d, At (s.handlers d) (P d) (s.registered d)) {y : Place}
    (h : At (s.handlers c) y (s.registered c)) (d : Cid) :
    At (s.handlers d) (update P c y d) (s.registered d) := by
  have h' := at_update hat h d
  rwa [update_eq_self] at h'

/-- A player that keeps its name on the list, or off it. -/
theorem roster_update
    (hR : Roster s.names fun c name => (P c).active = true ∧ s.registered c = some name)
    {y : Place} (hy : y.active = (P c).active) :
    Roster s.names fun d name => (update P c y d).active = true ∧ s.registered d = some name := by
  refine hR.congr fun d n => ?_
  rw [place_update Place.active hy]

theorem removed_update (hrem : ∀ c, s.removed c = if (P c).left then 1 else 0) {y : Place}
    (hy : y.left = (P c).left) (d : Cid) :
    s.removed d = if (update P c y d).left then 1 else 0 := by
  rw [place_update Place.left hy]
  exact hrem d

namespace Inv

theorem owner (hI : Inv s P) (h : (P c).addr = some a) : s.owner a = some c := (hI.object c a h).2.1

/-- A handler at a known point. -/
theorem at_pc (hI : Inv s P) {pc : Handler} (h : s.handlers c = pc) :
    At pc (P c) (s.registered c) := h ▸ hI.handler c

/-- A handler before the matching step has allocated the player it comes with. -/
theorem owner_matching (hI : Inv s P) (pc : s.handlers c = .matching me) : s.owner me = some c :=
  hI.owner ((hI.at_pc pc).of_matching.1 ▸ rfl : (P c).addr = some me)

/-- An object is that of one player. -/
theorem addr_inj (hI : Inv s P) (hc : (P c).addr = some a) (hd : (P d).addr = some a) : c = d :=
  Option.some.inj ((hI.owner hc).symm.trans (hI.owner hd))

theorem lt (hI : Inv s P) (h : s.handlers c ≠ .absent) : c < s.conns :=
  Nat.lt_of_not_le fun hle => h (hI.conns c hle)

/-- A player that is somewhere has been accepted. -/
theorem lt_of_place (hI : Inv s P) (h : P c ≠ .out) : c < s.conns :=
  hI.lt fun habsent => h (hI.at_pc habsent).of_absent.1

theorem lt_created (hI : Inv s P) (h : s.games g ≠ .absent) : g < s.created :=
  Nat.lt_of_not_le fun hle => h (hI.created g hle)

theorem conns_update (hI : Inv s P) {H : Handler} (hc : s.handlers c ≠ .absent) (d : Cid)
    (hd : s.conns ≤ d) : update s.handlers c H d = .absent := by
  have e : d ≠ c := (Nat.lt_of_lt_of_le (hI.lt hc) hd).ne'
  rw [update_of_ne e, hI.conns d hd]

theorem created_update (hI : Inv s P) {G : Game} (hg : s.games g ≠ .absent) (h : Gid)
    (hh : s.created ≤ h) : update s.games g G h = .absent := by
  have e : h ≠ g := (Nat.lt_of_lt_of_le (hI.lt_created hg) hh).ne'
  rw [update_of_ne e, hI.created h hh]

theorem nodup_update (hI : Inv s P) {G : Game} (hG : G.frees.Nodup) (h : Gid) :
    (update s.games g G h).frees.Nodup := by
  rw [update_apply]
  split
  · exact hG
  · exact hI.nodup h

/-! ### Steps that move nobody -/

theorem send (hI : Inv s P) (k : Option Cid) (fd : Fd) (text : Bytes) :
    Inv (s.send k fd text) P := by
  unfold Server.send
  split
  · exact hI
  · exact ⟨hI.object, hI.handler, hI.located, hI.nodup, hI.roster, hI.removed, hI.conns,
      hI.created⟩

theorem close (hI : Inv s P) (k : Option Cid) (fd : Fd) : Inv (s.close k fd) P :=
  ⟨hI.object, hI.handler, hI.located, hI.nodup, hI.roster, hI.removed, hI.conns, hI.created⟩

theorem setHandler (hI : Inv s P) {h : Handler} (hc : s.handlers c ≠ .absent)
    (hat : At h (P c) (s.registered c)) : Inv (s.setHandler c h) P where
  object := hI.object
  handler d := by
    have h := at_update hI.handler hat d
    rwa [update_eq_self] at h
  located := hI.located
  nodup := hI.nodup
  roster := hI.roster
  removed := hI.removed
  conns := hI.conns_update hc
  created := hI.created

theorem setGame (hI : Inv s P) {G : Game} (hg : s.games g ≠ .absent)
    (hs : ∀ p, G.seat p = (s.games g).seat p) (hf : G.frees = (s.games g).frees) :
    Inv (s.setGame g G) P where
  object := hI.object
  handler := hI.handler
  located z hz := by
    rw [← hI.located z hz]
    cases z <;> simp only [Located, Server.setGame, update_apply] <;> split <;> simp_all
  nodup := hI.nodup_update (hf ▸ hI.nodup g)
  roster := hI.roster
  removed := hI.removed
  conns := hI.conns
  created := hI.created_update hg

/-! ### Steps that move a player -/

/-- A new connection. -/
theorem accept (hI : Inv s P) (fd : Fd) :
    Inv { s.setHandler s.conns .accepted with
      conns := s.conns + 1, fds := update s.fds fd (some s.conns),
      fd := update s.fd s.conns fd } P := by
  have hat := hI.handler s.conns
  rw [hI.conns s.conns (Nat.le_refl _)] at hat
  obtain ⟨hout, hreg⟩ := hat.of_absent
  refine ⟨?_, ?_, hI.located, hI.nodup, hI.roster, hI.removed, ?_, hI.created⟩
  · intro d b hb
    obtain ⟨h₁, h₂, name, h₃, h₄⟩ := hI.object d b hb
    have e : d ≠ s.conns := by
      rintro rfl
      rw [hout] at hb
      cases hb
    refine ⟨h₁, h₂, name, h₃, ?_⟩
    simpa only [Server.setHandler, update_of_ne e] using h₄
  · intro d
    by_cases e : d = s.conns
    · subst e
      simpa only [Server.setHandler, update_self, hout, hreg] using At.accepted
    · simpa only [Server.setHandler, update_of_ne e] using hI.handler d
  · intro d hd
    have hd : s.conns + 1 ≤ d := hd
    have e : d ≠ s.conns := (Nat.lt_of_succ_le hd).ne'
    simpa only [Server.setHandler, update_of_ne e] using hI.conns d (Nat.le_of_succ_le hd)

theorem register (hI : Inv s P) (pc : s.handlers c = .opened name) (unused : name ∉ s.names) :
    Inv { s.setHandler c (.registered name) with
      names := name :: s.names, registered := update s.registered c (some name) }
      (update P c .named) := by
  have hat := hI.at_pc pc
  obtain ⟨hout, hreg⟩ := hat.of_opened
  refine ⟨?_, ?_, ?_, hI.nodup, ?_, removed_update hI.removed (hout ▸ rfl),
    hI.conns_update (pc ▸ nofun), hI.created⟩
  · intro d b hb
    have e : d ≠ c := by
      rintro rfl
      rw [update_self] at hb
      cases hb
    rw [update_of_ne e] at hb
    simpa only [Server.setHandler, update_of_ne e] using hI.object d b hb
  · intro d
    by_cases e : d = c
    · subst e
      simpa only [Server.setHandler, update_self] using At.registered name
    · simpa only [Server.setHandler, update_of_ne e] using hI.handler d
  · intro z hz
    rw [exists_update_private hout rfl rfl hz]
    exact hI.located z hz
  · refine hI.roster.add unused (k := c) fun d n => ?_
    by_cases e : d = c
    · subst e
      simp [hout, Place.active, eq_comm]
    · simp [e]

theorem alloc (hI : Inv s P) (pc : s.handlers c = .registered name)
    (unused : s.allocated a = false) :
    Inv { s.setHandler c (.greeting a) with
      players := update s.players a ⟨s.fd c, name⟩
      allocated := update s.allocated a true
      owner := update s.owner a (some c) } (update P c (.lobby a)) := by
  have hat := hI.at_pc pc
  obtain ⟨hnamed, hreg⟩ := hat.of_registered
  refine ⟨?_, at_update hI.handler ?_, ?_, hI.nodup, roster_update hI.roster (hnamed ▸ rfl),
    removed_update hI.removed (hnamed ▸ rfl), hI.conns_update (pc ▸ nofun), hI.created⟩
  · intro d b hb
    by_cases e : d = c
    · subst e
      rw [update_self] at hb
      obtain rfl := Option.some.inj hb
      simp only [Server.setHandler, update_self]
      exact ⟨trivial, trivial, name, hreg, rfl⟩
    · rw [update_of_ne e] at hb
      have hobj := hI.object d b hb
      -- the new object is not one that is in use
      have hab : b ≠ a := by
        rintro rfl
        rw [hobj.1] at unused
        cases unused
      simpa only [Server.setHandler, update_of_ne hab] using hobj
  · rw [hreg]
    exact .greeting a name
  · intro z hz
    rw [exists_update_private hnamed rfl rfl hz]
    exact hI.located z hz

/-- A player enters the waiting slot. -/
theorem take (hI : Inv s P) (pc : s.handlers c = .matching me) (empty : s.waiting = none) :
    Inv { s.setHandler c (.waiting me) with waiting := some me } (update P c (.slot me)) := by
  have hat := hI.at_pc pc
  obtain ⟨hlobby, name, hreg⟩ := hat.of_matching
  refine ⟨?_, at_update hI.handler ?_, ?_, hI.nodup, roster_update hI.roster (hlobby ▸ rfl),
    removed_update hI.removed (hlobby ▸ rfl), hI.conns_update (pc ▸ nofun), hI.created⟩
  · intro d b hb
    rw [place_update Place.addr (by rw [hlobby]; rfl)] at hb
    exact hI.object d b hb
  · rw [hreg]
    exact .waiting me name
  · intro z hz
    rw [exists_update (fun _ _ => hI.owner) hz, hlobby, ← hI.located z hz]
    cases z with
    | slot a =>
        simp only [Located, empty, Place.slot.injEq, Option.some.injEq, reduceCtorEq, and_false,
          or_false]
        exact eq_comm
    | game | ended => simp [Located, Server.setHandler]
    | out | named | lobby | withdrew | gone => cases hz

/-- Who is in the slot. -/
theorem in_slot (hI : Inv s P) (h : s.waiting = some a) : ∃ c, P c = .slot a :=
  (hI.located (.slot a) rfl).mp h

theorem in_game (hI : Inv s P) {p : Seat} (h : (s.games g).seat p = some a) :
    ∃ c, P c = .game g p a :=
  (hI.located (.game g p a) rfl).mp h

/-- A free address is not that of the player in the slot. -/
theorem slot_ne {b : Addr} (hI : Inv s P) (h : s.waiting = some b)
    (unused : s.allocated a = false) : b ≠ a := by
  rintro rfl
  obtain ⟨c, hc⟩ := hI.in_slot h
  rw [(hI.object c b (hc ▸ rfl)).1] at unused
  cases unused

/-- A free address is not that of a player in a game. -/
theorem seat_ne {b : Addr} (hI : Inv s P) {p : Seat} (h : (s.games g).seat p = some b)
    (unused : s.allocated a = false) : b ≠ a := by
  rintro rfl
  obtain ⟨c, hc⟩ := hI.in_game h
  rw [(hI.object c b (hc ▸ rfl)).1] at unused
  cases unused

/-- `remove_name` of a player that is registered takes the player's own name off the list. -/
theorem remove_roster
    (hR : Roster s.names fun c name => (P c).active = true ∧ s.registered c = some name)
    (hrem : ∀ c, s.removed c = if (P c).left then 1 else 0) {p : Addr}
    (hp : s.owner p = some c) (hreg : s.registered c = some (s.players p).name)
    (hact : (P c).active = true) {y : Place} (hy : y.left = true) :
    (Roster (s.remove p).names fun d name =>
      (update P c y d).active = true ∧ (s.remove p).registered d = some name) ∧
      ∀ d, (s.remove p).removed d = if (update P c y d).left then 1 else 0 := by
  have hy' : y.active = false := by cases y <;> first | rfl | cases hy
  have hl : (P c).left = false := by revert hact; cases P c <;> simp [Place.active, Place.left]
  refine ⟨hR.remove ⟨hact, hreg⟩ ?_ ?_, ?_⟩
  · intro d n
    by_cases e : d = c
    · subst e
      simp [hy']
    · simp [e, Server.remove]
  · intro n hn
    exact Option.some.inj (hn.2.symm.trans hreg)
  · intro d
    by_cases e : d = c
    · subst e
      simp [Server.remove, hrem, hp, hl, hy]
    · simp [Server.remove, hrem, hp, e, Ne.symm e]

/-- A waiting player withdraws. -/
theorem withdraw (hI : Inv s P) (pc : s.handlers c = .waiting me) (here : s.waiting = some me)
    (own : s.owner me = some c) :
    P c = .slot me ∧ Inv { (s.remove me).setHandler c (.withdrawn me) with waiting := none }
      (update P c (.withdrew me)) := by
  obtain ⟨d, hslot⟩ := hI.in_slot here
  obtain ⟨-, hown, name, hreg, hobj⟩ := hI.object d me (hslot ▸ rfl)
  obtain rfl : c = d := Option.some.inj (own.symm.trans hown)
  have hname : s.registered c = some (s.players me).name := by rw [hobj, hreg]
  obtain ⟨hroster, hrem⟩ := remove_roster hI.roster hI.removed own hname (hslot ▸ rfl)
    (y := .withdrew me) rfl
  refine ⟨hslot, ?_, at_update hI.handler ?_, ?_, hI.nodup, hroster, hrem,
    hI.conns_update (pc ▸ nofun), hI.created⟩
  · intro d b hb
    rw [place_update Place.addr (by rw [hslot]; rfl)] at hb
    exact hI.object d b hb
  · rw [hreg]
    exact .withdrawn me name
  · intro z hz
    rw [exists_update (fun _ _ => hI.owner) hz, hslot, ← hI.located z hz]
    cases z with
    | slot a =>
        simp only [Located, here, Place.slot.injEq, Option.some.injEq, reduceCtorEq, false_or,
          ne_eq, false_iff, not_and]
        exact fun hne e => hne e.symm
    | game | ended => simp [Located, Server.setHandler, Server.remove]
    | out | named | lobby | withdrew | gone => cases hz

/-- Freeing the object of a player that has left keeps the objects of the others. -/
theorem object_free (hI : Inv s P) (ha : (P c).addr = some a) (d : Cid) (b : Addr)
    (hb : (update P c .gone d).addr = some b) :
    (s.free a).allocated b = true ∧ (s.free a).owner b = some d ∧
      ∃ name, (s.free a).registered d = some name ∧
        (s.free a).players b = ⟨(s.free a).fd d, name⟩ := by
  have e : d ≠ c := by
    rintro rfl
    rw [update_self] at hb
    cases hb
  rw [update_of_ne e] at hb
  have hab : b ≠ a := by
    rintro rfl
    exact e (hI.addr_inj hb ha)
  simpa only [Server.free, update_of_ne hab] using hI.object d b hb

/-- A handler frees the object of its player, which has withdrawn. -/
theorem freeOwn (hI : Inv s P) (pc : s.handlers c = .finishing [.free a])
    (hw : P c = .withdrew a) :
    Inv ((s.free a).setHandler c (.finishing [])) (update P c .gone) := by
  obtain ⟨-, -, name, hreg, -⟩ := hI.object c a (hw ▸ rfl)
  refine ⟨hI.object_free (hw ▸ rfl), at_update hI.handler ?_, ?_, hI.nodup,
    roster_update hI.roster (hw ▸ rfl), removed_update hI.removed (hw ▸ rfl),
    hI.conns_update (pc ▸ nofun), hI.created⟩
  · rw [hreg]
    exact .returned rfl name
  · intro z hz
    rw [exists_update_private hw rfl rfl hz]
    exact hI.located z hz

/-- A game thread frees the object of a player. -/
theorem release (hI : Inv s P) {todo : List Addr} (pc : s.games g = .freeing (a :: todo)) :
    ∃ c, P c = .ended g a ∧ Inv ((s.free a).setGame g (.freeing todo)) (update P c .gone) := by
  have hfrees : (s.games g).frees = a :: todo := by rw [pc]; rfl
  obtain ⟨c, hc⟩ := (hI.located (.ended g a) rfl).mp (by
    rw [Located, hfrees]
    exact List.mem_cons_self)
  have hnodup := hI.nodup g
  rw [hfrees] at hnodup
  refine ⟨c, hc, hI.object_free (hc ▸ rfl), at_move hI.handler ?_, ?_,
    hI.nodup_update (List.nodup_cons.mp hnodup).2, roster_update hI.roster (hc ▸ rfl),
    removed_update hI.removed (hc ▸ rfl), hI.conns, hI.created_update (pc ▸ nofun)⟩
  · exact (hI.handler c).handed (hc ▸ rfl) rfl
  · intro z hz
    rw [exists_update (fun _ _ => hI.owner) hz, hc, ← hI.located z hz]
    cases z with
    | slot b => simp [Located, Server.setGame, Server.free]
    | game g' p b =>
        by_cases e : g' = g
        · subst e
          simp [Located, Server.setGame, pc]
        · simp [Located, Server.setGame, Server.free, e]
    | ended g' b =>
        by_cases e : g' = g
        · subst e
          simp only [Located, Server.setGame, update_self, hfrees, frees_freeing]
          have hne : b ∈ todo → b ≠ a := by
            rintro hb rfl
            exact (List.nodup_cons.mp hnodup).1 hb
          simp only [reduceCtorEq, Place.ended.injEq, true_and, ne_eq, List.mem_cons, false_or]
          constructor
          · exact fun hb => ⟨hne hb, .inr hb⟩
          · rintro ⟨hba, rfl | hb⟩
            · exact absurd rfl hba
            · exact hb
        · simp [Located, Server.setGame, Server.free, e]
    | out | named | lobby | withdrew | gone => cases hz

/-- The waiting player and a handler's own player start a game. -/
theorem pair (hI : Inv s P) {o : Addr} {G : Game} (pc : s.handlers c = .matching me)
    (waits : s.waiting = some o)
    (hseat : ∀ p, G.seat p = some (match p with | .one => o | .two => me))
    (hfrees : G.frees = []) :
    ∃ d, P d = .slot o ∧ P c = .lobby me ∧
      Inv { (s.setHandler c (.finishing [])).setGame s.created G with
        waiting := none, created := s.created + 1 }
        (update (update P d (.game s.created .one o)) c (.game s.created .two me)) := by
  have hat := hI.at_pc pc
  obtain ⟨hlobby, name, hreg⟩ := hat.of_matching
  obtain ⟨d, hslot⟩ := hI.in_slot waits
  -- the waiting player is not the one who comes
  have hdc : c ≠ d := by
    rintro rfl
    rw [hlobby] at hslot
    cases hslot
  have hlobby' : update P d (.game s.created .one o) c = .lobby me := by
    rw [update_of_ne hdc, hlobby]
  have haddr₁ := place_update (P := P) (c := d) Place.addr (y := .game s.created .one o)
    (by rw [hslot]; rfl)
  have haddr₂ := place_update (P := update P d (.game s.created .one o)) (c := c) Place.addr
    (y := .game s.created .two me) (by rw [hlobby']; rfl)
  refine ⟨d, hslot, hlobby, ?_, at_update (at_move hI.handler ?_) ?_, ?_, hI.nodup_update ?_,
    roster_update (roster_update hI.roster (hslot ▸ rfl)) (hlobby' ▸ rfl),
    removed_update (removed_update hI.removed (hslot ▸ rfl)) (hlobby' ▸ rfl),
    hI.conns_update (pc ▸ nofun), ?_⟩
  · intro i b hb
    rw [haddr₂, haddr₁] at hb
    exact hI.object i b hb
  · have hatd := hI.handler d
    rw [hslot] at hatd
    exact hatd.matched rfl
  · rw [hreg]
    exact .returned rfl name
  · intro z hz
    have hown₁ : ∀ i b, (update P d (.game s.created .one o) i).addr = some b →
        s.owner b = some i := fun i b hb => hI.owner (by rwa [haddr₁] at hb)
    rw [exists_update hown₁ hz, hlobby', exists_update (fun _ _ => hI.owner) hz, hslot,
      ← hI.located z hz]
    have hnew : s.games s.created = .absent := hI.created _ (Nat.le_refl _)
    cases z with
    | slot b =>
        simp only [Located, waits, reduceCtorEq, Option.some.injEq, Place.slot.injEq, false_or,
          ne_eq, not_false_eq_true, true_and, false_iff, not_and]
        exact fun hne e => hne e.symm
    | game g p b =>
        by_cases e : g = s.created
        · subst e
          cases p <;> simp [Located, Server.setGame, hseat, hnew, eq_comm]
        · simp [Located, Server.setGame, Server.setHandler, e]
    | ended g b =>
        by_cases e : g = s.created
        · subst e
          simp [Located, Server.setGame, hfrees, hnew]
        · simp [Located, Server.setGame, Server.setHandler, e]
    | out | named | lobby | withdrew | gone => cases hz
  · rw [hfrees]
    exact List.nodup_nil
  · intro g hg
    have hg : s.created + 1 ≤ g := hg
    have e : g ≠ s.created := (Nat.lt_of_succ_le hg).ne'
    simpa only [Server.setGame, Server.setHandler, update_of_ne e] using
      hI.created g (Nat.le_of_succ_le hg)

/-- A game is over: both names are removed. -/
theorem unregister (hI : Inv s P) {p₁ p₂ : Addr} {todo : List Effect} {t : Thread}
    (pc : s.games g = .running p₁ p₂ todo t) :
    ∃ c d, P c = .game g .one p₁ ∧ P d = .game g .two p₂ ∧ c ≠ d ∧
      Inv (((s.remove p₁).remove p₂).setGame g (.freeing [p₁, p₂]))
        (update (update P c (.ended g p₁)) d (.ended g p₂)) := by
  obtain ⟨c, hc⟩ := hI.in_game (g := g) (p := .one) (a := p₁) (by rw [pc]; rfl)
  obtain ⟨d, hd⟩ := hI.in_game (g := g) (p := .two) (a := p₂) (by rw [pc]; rfl)
  have hdc : d ≠ c := by
    rintro rfl
    rw [hc] at hd
    cases hd
  have hd' : update P c (.ended g p₁) d = .game g .two p₂ := by rw [update_of_ne hdc, hd]
  have haddr₁ := place_update (P := P) (c := c) Place.addr (y := .ended g p₁) (by rw [hc]; rfl)
  have haddr₂ := place_update (P := update P c (.ended g p₁)) (c := d) Place.addr
    (y := .ended g p₂) (by rw [hd']; rfl)
  -- the two objects are freed one after the other
  have hne : p₁ ≠ p₂ := by
    rintro rfl
    exact hdc (hI.addr_inj (a := p₁) (by rw [hd]; rfl) (by rw [hc]; rfl))
  obtain ⟨-, hown₁, n₁, hreg₁, hobj₁⟩ := hI.object c p₁ (hc ▸ rfl)
  obtain ⟨-, hown₂, n₂, hreg₂, hobj₂⟩ := hI.object d p₂ (hd ▸ rfl)
  obtain ⟨hroster₁, hrem₁⟩ := remove_roster hI.roster hI.removed hown₁
    (by rw [hobj₁, hreg₁]) (hc ▸ rfl) (y := .ended g p₁) rfl
  obtain ⟨hroster₂, hrem₂⟩ := remove_roster (s := s.remove p₁) hroster₁ hrem₁ (c := d) hown₂
    (by simp only [Server.remove]; rw [hobj₂, hreg₂]) (hd' ▸ rfl) (y := .ended g p₂) rfl
  refine ⟨c, d, hc, hd, hdc.symm, ?_, at_move (at_move hI.handler ?_) ?_, ?_, hI.nodup_update ?_,
    hroster₂, hrem₂, hI.conns, hI.created_update (pc ▸ nofun)⟩
  · intro i b hb
    rw [haddr₂, haddr₁] at hb
    exact hI.object i b hb
  · exact (hI.handler c).handed (hc ▸ rfl) rfl
  · exact (hI.handler d).handed (hd ▸ rfl) rfl
  · intro z hz
    have hown : ∀ i b, (update P c (.ended g p₁) i).addr = some b → s.owner b = some i :=
      fun i b hb => hI.owner (by rwa [haddr₁] at hb)
    rw [exists_update hown hz, hd', exists_update (fun _ _ => hI.owner) hz, hc,
      ← hI.located z hz]
    cases z with
    | slot b => simp [Located, Server.setGame, Server.remove]
    | game h p b =>
        by_cases e : h = g
        · subst e
          cases p <;> simp [Located, Server.setGame, pc, eq_comm]
        · simp [Located, Server.setGame, Server.remove, e]
    | ended h b =>
        by_cases e : h = g
        · subst e
          simp [Located, Server.setGame, pc, or_comm]
        · simp [Located, Server.setGame, Server.remove, e]
    | out | named | lobby | withdrew | gone => cases hz
  · simpa using hne

/-! ### Every step -/

theorem act (hI : Inv s P) {b : Act} {todo : List Act}
    (pc : s.handlers c = .finishing (b :: todo)) :
    ∃ P', Inv ((s.act c b).setHandler c (.finishing todo)) P' := by
  have hat := hI.at_pc pc
  -- a handler that frees is at its last call
  have hfree : ∀ a, b = .free a → todo = [] ∧ P c = .withdrew a := by
    rintro a rfl
    rcases hat.of_finishing with ⟨-, -, hno, -⟩ | ⟨a', name, hw, -, -, ⟨hb, htodo⟩ | ⟨hno, -⟩⟩
    · exact absurd rfl (hno a)
    · obtain rfl := Act.free.inj hb
      exact ⟨htodo, hw⟩
    · exact absurd rfl (hno a)
  have hrest : (∀ a, b ≠ .free a) → At (.finishing todo) (P c) (s.registered c) := by
    intro hno
    rcases hat.of_finishing with ⟨hout, hreg, -, hr, -⟩ | ⟨a, name, hw, hreg, -, ⟨hb, -⟩ | ⟨-, hl⟩⟩
    · rw [hout, hreg]
      exact .refusing hr
    · exact absurd hb (hno a)
    · rw [hw, hreg]
      exact .leaving hl name
  cases b with
  | send text =>
      refine ⟨P, (hI.send _ _ _).setHandler (c := c) ?_ ?_⟩
      · rw [send_handlers, pc]
        nofun
      · rw [send_registered]
        exact hrest nofun
  | close => exact ⟨P, (hI.close _ _).setHandler (pc ▸ nofun) (hrest nofun)⟩
  | free a =>
      obtain ⟨rfl, hw⟩ := hfree a rfl
      exact ⟨_, hI.freeOwn pc hw⟩

/-- **Every step keeps the agreement**, when a handler withdraws its own player only. -/
theorem step {e : Event} (hI : Inv s P) (hown : OwnWithdraw s e) (h : Step s e s') :
    ∃ P', Inv s' P' := by
  cases h with
  | accept _ => exact ⟨P, hI.accept _⟩
  | @spawn c ok pc =>
      have hat := hI.at_pc pc
      obtain ⟨hout, hreg⟩ := hat.of_accepted
      refine ⟨P, hI.setHandler (pc ▸ nofun) ?_⟩
      rw [hout, hreg]
      cases ok with
      | true => exact .receiving
      | false => exact .refusing (.inr ⟨[], rfl⟩)
  | @receive c r pc =>
      have hat := hI.at_pc pc
      obtain ⟨hout, hreg⟩ := hat.of_receiving
      refine ⟨P, hI.setHandler (pc ▸ nofun) ?_⟩
      rw [hout, hreg]
      exact at_openReply r
  | @refuse c name pc _ =>
      have hat := hI.at_pc pc
      obtain ⟨hout, hreg⟩ := hat.of_opened
      refine ⟨P, hI.setHandler (pc ▸ nofun) ?_⟩
      rw [hout, hreg]
      exact .refusing (.inr ⟨[_], rfl⟩)
  | register pc unused => exact ⟨_, hI.register pc unused⟩
  | alloc pc unused => exact ⟨_, hI.alloc pc unused⟩
  | @greet c me pc =>
      have hat := hI.at_pc pc
      obtain ⟨hlobby, name, hreg⟩ := hat.of_greeting
      refine ⟨P, (hI.send _ _ _).setHandler (c := c) ?_ ?_⟩
      · rw [send_handlers, pc]
        nofun
      · rw [send_registered, hlobby, hreg]
        exact .matching me name
  | take pc empty => exact ⟨_, hI.take pc empty⟩
  | @pair c me o ok pc waits G start =>
      obtain ⟨d, -, -, hI'⟩ := hI.pair (G := G) pc waits
        (fun p => by subst start; cases ok <;> cases p <;> rfl)
        (by subst start; cases ok <;> rfl)
      exact ⟨_, hI'⟩
  | @matched c me ret pc away =>
      have hat := hI.at_pc pc
      obtain ⟨hz, name, hreg⟩ := hat.of_waiting
      refine ⟨P, hI.setHandler (pc ▸ nofun) ?_⟩
      rw [hreg]
      rcases hz with hz | hz
      · exact absurd ((hI.located (.slot me) rfl).mpr ⟨c, hz⟩) away
      · exact .returned hz name
  | @withdraw c me ret pc here ready =>
      exact ⟨_, (hI.withdraw pc here (hown me (by rw [pc]; rfl) here ready)).2⟩
  | again => exact ⟨P, hI⟩
  | @reply c me r pc =>
      have hat := hI.at_pc pc
      obtain ⟨hw, name, hreg⟩ := hat.of_withdrawn
      refine ⟨P, hI.setHandler (pc ▸ nofun) ?_⟩
      rw [hw, hreg]
      exact .leaving (leaving_withdrawReply r me) name
  | act pc => exact hI.act pc
  | @effect g p₁ p₂ p e todo t pc seat =>
      have hgames : (s.effect p e).games = s.games := by
        cases e with
        | send => exact send_games ..
        | close => rfl
      have hI' : Inv (s.effect p e) P := by
        cases e with
        | send => exact hI.send _ _ _
        | close => exact hI.close _ _
      refine ⟨P, hI'.setGame ?_ (fun q => ?_) ?_⟩ <;> rw [hgames, pc]
      · nofun
      · cases q <;> rfl
      · rfl
  | @poll g p₁ p₂ t w pc going =>
      refine ⟨P, hI.setGame ?_ (fun q => ?_) ?_⟩ <;> rw [pc]
      · nofun
      · cases q <;> rfl
      · rfl
  | unregister pc ended =>
      obtain ⟨c, d, -, -, -, hI'⟩ := hI.unregister pc
      exact ⟨_, hI'⟩
  | release pc =>
      obtain ⟨c, -, hI'⟩ := hI.release pc
      exact ⟨_, hI'⟩

end Inv

end CS214.Nim
