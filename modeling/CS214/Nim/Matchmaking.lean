import CS214.Nim.Places
import CS214.Nim.Play

/-!
# Nim — matchmaking

A player is live from the registration of its name to its removal.  A live player is in one
`Situation`: before the matching step, in the waiting slot, or in a seat of a running game.

* `matchmaking_safe`: when no address is used for two `Player`s and game threads can be created,
  `active_names` lists the names of the live players, each is the name of one of them, and every
  live player is in one situation.  A name is removed once, by the step in which the player
  withdraws from the slot or its game ends.
* `waiter_owns_slot`: when addresses are reused, `waiting_player == me` means what the handler
  takes it for up to the first step in which a player enters the slot at the address that another
  handler's `me` still holds, and no longer.  `reused_address` is a run with such a step.
-/

namespace CS214.Nim

open CString Function

variable {s s' : Server} {P : Cid → Place} {c d : Cid} {g : Gid} {a me : Addr} {e : Event}
  {name : Name}

/-! ### What a step can change -/

section
variable (k : Option Cid) (fd : Fd) (text : Bytes)

@[simp] theorem send_owner : (s.send k fd text).owner = s.owner := by
  unfold Server.send; split <;> rfl

@[simp] theorem send_waiting : (s.send k fd text).waiting = s.waiting := by
  unfold Server.send; split <;> rfl

@[simp] theorem send_removed : (s.send k fd text).removed = s.removed := by
  unfold Server.send; split <;> rfl

end

/-- A call of a handler, or of a game thread, is of no account for matchmaking. -/
theorem act_frame (c : Cid) (b : Act) :
    (s.act c b).owner = s.owner ∧ (s.act c b).waiting = s.waiting ∧
      (s.act c b).removed = s.removed ∧ (s.act c b).games = s.games ∧
      (s.act c b).handlers = s.handlers := by
  cases b with
  | send text => exact ⟨send_owner .., send_waiting .., send_removed .., send_games ..,
      send_handlers ..⟩
  | close | free => exact ⟨rfl, rfl, rfl, rfl, rfl⟩

theorem effect_frame (p : Addr) (b : Effect) :
    (s.effect p b).owner = s.owner ∧ (s.effect p b).waiting = s.waiting ∧
      (s.effect p b).removed = s.removed ∧ (s.effect p b).games = s.games ∧
      (s.effect p b).handlers = s.handlers := by
  cases b with
  | send q text => exact ⟨send_owner .., send_waiting .., send_removed .., send_games ..,
      send_handlers ..⟩
  | close => exact ⟨rfl, rfl, rfl, rfl, rfl⟩

theorem waits_openReply (r : Received) : (openReply r).waits = none := by
  rcases openReply_cases r with h | ⟨text, h⟩ | ⟨name, h⟩ <;> rw [h] <;> rfl

/-- A handler that gets to another point than the wait loop. -/
theorem waits_update {f : Cid → Handler} {H : Handler} (hH : H.waits = none)
    (h : update f d H c = .waiting me) : f c = .waiting me := by
  rw [update_apply] at h
  split at h
  · rw [h] at hH
    cases hH
  · exact h

/-- A handler gets into the wait loop when its player takes the slot. -/
theorem Step.waits (h : Step s e s') (hw : s'.handlers c = .waiting me) :
    s.handlers c = .waiting me ∨
      s.handlers c = .matching me ∧ s.waiting = none ∧ s'.waiting = some me ∧
        ∃ ok, e = .enter c ok := by
  cases h with
  | @take d a ok pc empty =>
      simp only [Server.setHandler, update_apply] at hw
      split at hw
      · next hcd =>
          subst hcd
          obtain rfl := Handler.waiting.inj hw
          exact .inr ⟨pc, empty, rfl, ok, rfl⟩
      · exact .inl hw
  | @spawn d ok pc =>
      refine .inl (waits_update ?_ hw)
      cases ok <;> rfl
  | receive => exact .inl (waits_update (waits_openReply _) hw)
  | @greet d b pc =>
      refine .inl (waits_update (d := d) (H := .matching b) rfl ?_)
      simpa only [Server.setHandler, send_handlers] using hw
  | @act d b todo pc =>
      refine .inl (waits_update (d := d) (H := .finishing todo) rfl ?_)
      simpa only [Server.setHandler, (act_frame _ _).2.2.2.2] using hw
  | accept | refuse | register | alloc | pair | matched | withdraw | reply =>
      exact .inl (waits_update rfl hw)
  | again => exact .inl hw
  | effect =>
      refine .inl ?_
      simpa only [Server.setGame, (effect_frame _ _).2.2.2.2] using hw
  | poll | unregister | release => exact .inl hw

/-- The slot is filled by the matching step. -/
theorem Step.fills (h : Step s e s') (hw : s'.waiting = some me) :
    s.waiting = some me ∨ ∃ c ok, e = .enter c ok ∧ s.handlers c = .matching me ∧
      s.waiting = none := by
  cases h with
  | @take d a ok pc empty =>
      obtain rfl := Option.some.inj hw
      exact .inr ⟨d, ok, rfl, pc, empty⟩
  | pair | withdraw => cases hw
  | greet =>
      refine .inl ?_
      simpa only [Server.setHandler, send_waiting] using hw
  | act =>
      refine .inl ?_
      simpa only [Server.setHandler, (act_frame _ _).2.1] using hw
  | effect =>
      refine .inl ?_
      simpa only [Server.setGame, (effect_frame _ _).2.1] using hw
  | accept | spawn | receive | refuse | register | alloc | matched | again | reply | poll
  | unregister | release => exact .inl hw

/-- An object gets another owner only while it is free. -/
theorem Step.owner (h : Step s e s') (a : Addr) :
    s'.owner a = s.owner a ∨ s.allocated a = false ∧ ∃ c, e = .alloc c a := by
  cases h with
  | @alloc c b name pc unused =>
      by_cases hab : a = b
      · subst hab
        exact .inr ⟨unused, c, rfl⟩
      · exact .inl (update_of_ne hab ..)
  | greet => exact .inl (by simp only [Server.setHandler, send_owner])
  | act => exact .inl (by simp only [Server.setHandler, (act_frame _ _).1])
  | effect => exact .inl (by simp only [Server.setGame, (effect_frame _ _).1])
  | accept | spawn | receive | refuse | register | take | pair | matched | withdraw | again
  | reply | poll | unregister | release => exact .inl rfl

theorem removed_own (h : s.owner a = some c) : (s.remove a).removed c = s.removed c + 1 := by
  simp only [Server.remove, if_pos h]

theorem removed_other (h : s.owner a ≠ some c) : (s.remove a).removed c = s.removed c := by
  simp only [Server.remove, if_neg h, Nat.add_zero]

/-- Every game has been started. -/
def Started (s : Server) : Prop := ∀ g p₁ p₂, s.games g ≠ .unstarted p₁ p₂

theorem Started.setGame (hs : Started s) {G : Game} (hG : ∀ p₁ p₂, G ≠ .unstarted p₁ p₂) :
    ∀ h p₁ p₂, update s.games g G h ≠ .unstarted p₁ p₂ := by
  intro h p₁ p₂
  rw [update_apply]
  split
  · exact hG p₁ p₂
  · exact hs h p₁ p₂

theorem Step.started (h : Step s e s')
    (he : ∀ c ok, e = .enter c ok → s.waiting ≠ none → ok = true) (hs : Started s) :
    Started s' := by
  cases h with
  | @pair c me o ok pc waits G start =>
      refine hs.setGame fun p₁ p₂ => ?_
      rw [start, if_pos (he c ok rfl (by rw [waits]; nofun))]
      nofun
  | greet =>
      intro g p₁ p₂
      simpa only [Server.setHandler, send_games] using hs g p₁ p₂
  | act =>
      intro g p₁ p₂
      simpa only [Server.setHandler, (act_frame _ _).2.2.2.1] using hs g p₁ p₂
  | effect =>
      intro g p₁ p₂
      simp only [Server.setGame, (effect_frame _ _).2.2.2.1]
      exact hs.setGame (fun _ _ => Game.noConfusion) g p₁ p₂
  | poll | unregister | release => exact hs.setGame fun _ _ => Game.noConfusion
  | accept | spawn | receive | refuse | register | alloc | take | matched | withdraw | again
  | reply => exact hs

/-! ### Situations -/

/-- The situations of a live player. -/
inductive Situation where
  | lobby
  | slot
  | game (g : Gid) (p : Seat)
deriving DecidableEq

/-- The name is registered, and the matching step is still to come. -/
def Handler.lobby : Handler → Bool
  | .registered _ | .greeting _ | .matching _ => true
  | _ => false

/-- The player of connection `c` is in the situation. -/
def Situated (s : Server) (c : Cid) : Situation → Prop
  | .lobby => (s.handlers c).lobby = true
  | .slot => ∃ a, s.waiting = some a ∧ s.owner a = some c
  | .game g p => ∃ p₁ p₂ todo t, s.games g = .running p₁ p₂ todo t ∧
      s.owner (match p with | .one => p₁ | .two => p₂) = some c

/-- The player of connection `c` has registered its name, which has not been removed. -/
def Live (s : Server) (c : Cid) (name : Name) : Prop :=
  s.registered c = some name ∧ s.removed c = 0

/-- The player of connection `c` withdraws from the slot, or its game ends. -/
def Leaves (s : Server) (c : Cid) : Event → Prop
  | .recheck d ret => d = c ∧ 0 < ret ∧ Situated s c .slot
  | .unregister g => ∃ p, Situated s c (.game g p)
  | _ => False

/-- What matchmaking promises of a state. -/
structure Matchmaking (s : Server) : Prop where
  distinct : s.names.Nodup
  listed : ∀ c name, Live s c name → name ∈ s.names
  belongs : ∀ name, name ∈ s.names → ∃! c, Live s c name
  situation : ∀ c name, Live s c name → ∃! z, Situated s c z
  live : ∀ c z, Situated s c z → ∃ name, Live s c name
  /-- No player is in both seats of a game, nor in two games. -/
  one_seat : ∀ c g h p q, Situated s c (.game g p) → Situated s c (.game h q) → g = h ∧ p = q
  once : ∀ c, s.removed c ≤ 1

/-- The situation that goes with a place. -/
def Place.situation : Place → Option Situation
  | named | lobby _ => some .lobby
  | slot _ => some .slot
  | game g p _ => some (.game g p)
  | _ => none

theorem Place.situation_eq_game {z : Place} {p : Seat} :
    z.situation = some (.game g p) ↔ ∃ a, z = .game g p a := by
  cases z <;> simp [situation]

theorem Place.situation_eq_slot {z : Place} : z.situation = some .slot ↔ ∃ a, z = .slot a := by
  cases z <;> simp [situation]

theorem Place.isSome_situation (z : Place) : z.situation.isSome = z.active := by cases z <;> rfl

theorem Place.situation_handed {z : Place} (h : z.handed = true) :
    z.situation ≠ some .lobby := by
  revert h
  cases z <;> simp [handed, situation]

theorem At.lobby_iff {pc : Handler} {z : Place} {r : Option Name} (h : At pc z r) :
    pc.lobby = true ↔ z.situation = some .lobby := by
  cases h with
  | registered | greeting | matching => exact ⟨fun _ => rfl, fun _ => rfl⟩
  | absent | accepted | receiving | opened | refusing | waiting | withdrawn | leaving =>
      exact ⟨nofun, nofun⟩
  | stale _ hz => exact ⟨nofun, fun e => absurd e (Place.situation_handed hz)⟩
  | returned hz => exact ⟨nofun, fun e => absurd e (Place.situation_handed hz)⟩

/-- A name is registered once the handler is past `register_name`. -/
theorem At.registered_iff {pc : Handler} {z : Place} {r : Option Name} (h : At pc z r) :
    (∃ name, r = some name) ↔ z ≠ .out := by
  cases h with
  | absent | accepted | receiving | opened | refusing => exact ⟨nofun, fun e => absurd rfl e⟩
  | registered | greeting | matching | waiting | withdrawn | leaving =>
      exact ⟨fun _ => nofun, fun _ => ⟨_, rfl⟩⟩
  | stale _ hz =>
      refine ⟨fun _ => ?_, fun _ => ⟨_, rfl⟩⟩
      rintro rfl
      cases hz
  | returned hz =>
      refine ⟨fun _ => ?_, fun _ => ⟨_, rfl⟩⟩
      rintro rfl
      cases hz

namespace Inv

/-- The player in the slot is at the place for it. -/
theorem slot_iff (hI : Inv s P) : P c = .slot a ↔ s.waiting = some a ∧ s.owner a = some c := by
  constructor
  · intro h
    exact ⟨(hI.located (.slot a) rfl).mpr ⟨c, h⟩, hI.owner (h ▸ rfl)⟩
  · rintro ⟨hw, ho⟩
    obtain ⟨d, hd⟩ := hI.in_slot hw
    obtain rfl : d = c := Option.some.inj ((hI.owner (hd ▸ rfl)).symm.trans ho)
    exact hd

theorem game_iff (hI : Inv s P) {p : Seat} :
    P c = .game g p a ↔ (s.games g).seat p = some a ∧ s.owner a = some c := by
  constructor
  · intro h
    exact ⟨(hI.located (.game g p a) rfl).mpr ⟨c, h⟩, hI.owner (h ▸ rfl)⟩
  · rintro ⟨hw, ho⟩
    obtain ⟨d, hd⟩ := hI.in_game hw
    obtain rfl : d = c := Option.some.inj ((hI.owner (hd ▸ rfl)).symm.trans ho)
    exact hd

/-- Situations are read off the places. -/
theorem situated_iff (hI : Inv s P) (hs : Started s) {z : Situation} :
    Situated s c z ↔ (P c).situation = some z := by
  cases z with
  | lobby => exact (hI.handler c).lobby_iff
  | slot =>
      rw [Place.situation_eq_slot, Situated]
      exact exists_congr fun a => hI.slot_iff.symm
  | game g p =>
      rw [Place.situation_eq_game]
      simp only [hI.game_iff]
      constructor
      · rintro ⟨p₁, p₂, todo, t, hg, ho⟩
        refine ⟨_, ?_, ho⟩
        rw [hg]
        cases p <;> rfl
      · rintro ⟨a, hseat, ho⟩
        cases hg : s.games g with
        | absent | freeing => rw [hg] at hseat; cases p <;> cases hseat
        | unstarted p₁ p₂ => exact absurd hg (hs g p₁ p₂)
        | running p₁ p₂ todo t =>
            refine ⟨p₁, p₂, todo, t, hg, ?_⟩
            rw [hg] at hseat
            cases p <;> cases hseat <;> exact ho

theorem live_iff (hI : Inv s P) :
    Live s c name ↔ (P c).active = true ∧ s.registered c = some name := by
  have hreg := (hI.handler c).registered_iff
  rw [Live, hI.removed c, and_comm]
  refine and_congr_left fun hname => ?_
  have hout : P c ≠ .out := hreg.mp ⟨name, hname⟩
  revert hout
  cases P c <;> simp [Place.active, Place.left]

theorem matchmaking (hI : Inv s P) (hs : Started s) : Matchmaking s where
  distinct := hI.roster.nodup
  listed c name h := (hI.roster.mem_iff name).mpr ⟨c, hI.live_iff.mp h⟩
  belongs name h := by
    obtain ⟨c, hc⟩ := (hI.roster.mem_iff name).mp h
    exact ⟨c, hI.live_iff.mpr hc, fun d hd => hI.roster.unique d c name (hI.live_iff.mp hd) hc⟩
  situation c name h := by
    have hactive := (hI.live_iff.mp h).1
    rw [← Place.isSome_situation] at hactive
    obtain ⟨z, hz⟩ := Option.isSome_iff_exists.mp hactive
    refine ⟨z, (hI.situated_iff hs).mpr hz, fun z' hz' => ?_⟩
    exact Option.some.inj (((hI.situated_iff hs).mp hz').symm.trans hz)
  live c z h := by
    have hz := (hI.situated_iff hs).mp h
    have hactive : (P c).active = true := by
      rw [← Place.isSome_situation, hz]
      rfl
    have hout : P c ≠ .out := by
      intro e
      rw [e] at hactive
      cases hactive
    obtain ⟨name, hname⟩ := (hI.handler c).registered_iff.mpr hout
    exact ⟨name, hI.live_iff.mpr ⟨hactive, hname⟩⟩
  one_seat c g h p q hp hq := by
    have hpq := ((hI.situated_iff hs).mp hp).symm.trans ((hI.situated_iff hs).mp hq)
    obtain ⟨rfl, rfl⟩ := Situation.game.inj (Option.some.inj hpq)
    exact ⟨rfl, rfl⟩
  once c := by
    rw [hI.removed c]
    split
    · exact Nat.le_refl 1
    · exact Nat.zero_le 1

end Inv

/-! ### Without reuse of addresses -/

/-- No address is used for two `Player`s, and `pthread_create` succeeds for a game. -/
def NoReuse (s : Server) : Event → Prop
  | .alloc _ a => s.owner a = none
  | .enter _ ok => ok = true
  | _ => True

instance (s : Server) : (e : Event) → Decidable (NoReuse s e)
  | .alloc _ a => inferInstanceAs (Decidable (s.owner a = none))
  | .enter _ ok => inferInstanceAs (Decidable (ok = true))
  | .accept _ | .spawn .. | .receive .. | .register _ | .greet _ | .recheck .. | .reply ..
  | .act _ | .effect _ | .poll .. | .unregister _ | .release _ => .isTrue trivial

/-- The states that runs without reuse reach. -/
structure Apart (s : Server) : Prop where
  places : ∃ P, Inv s P
  own : ∀ c me, s.handlers c = .waiting me → s.owner me = some c
  started : Started s

theorem apart_initial : Apart initial where
  places := ⟨_, inv_initial⟩
  own _ _ h := by cases h
  started _ _ _ h := by cases h

namespace Apart

theorem ownWithdraw (hA : Apart s) (e : Event) : OwnWithdraw s e := by
  cases e with
  | recheck c ret =>
      intro me hme _ _
      cases hc : s.handlers c with
      | waiting a =>
          rw [hc] at hme
          obtain rfl := Option.some.inj hme
          exact hA.own c a hc
      | absent | accepted | receiving | opened | registered | greeting | matching | withdrawn
      | finishing =>
          rw [hc] at hme
          cases hme
  | accept | spawn | receive | register | alloc | greet | enter | reply | act | effect | poll
  | unregister | release => trivial

theorem step (hA : Apart s) (hok : NoReuse s e) (h : Step s e s') : Apart s' := by
  obtain ⟨P, hI⟩ := hA.places
  refine ⟨hI.step (hA.ownWithdraw e) h, ?_, h.started ?_ hA.started⟩
  · intro c me hw
    have hown : s.owner me = some c := by
      rcases h.waits hw with hw | ⟨hm, -⟩
      · exact hA.own c me hw
      · exact hI.owner_matching hm
    rcases h.owner me with e | ⟨-, d, rfl⟩
    · rw [e, hown]
    · rw [NoReuse, hown] at hok
      cases hok
  · rintro c ok rfl
    exact fun _ => hok

/-- A name is removed by the steps in which its player leaves, and by no others. -/
theorem removed (hA : Apart s) (h : Step s e s') (c : Cid) :
    (Leaves s c e → s'.removed c = s.removed c + 1) ∧
      (¬ Leaves s c e → s'.removed c = s.removed c) := by
  obtain ⟨P, hI⟩ := hA.places
  cases h with
  | @withdraw d me ret pc here ready =>
      have hown : s.owner me = some d := hA.own d me pc
      have hleaves : Leaves s c (.recheck d ret) ↔ d = c := by
        refine ⟨And.left, ?_⟩
        rintro rfl
        exact ⟨rfl, ready, me, here, hown⟩
      rw [hleaves]
      constructor
      · rintro rfl
        exact removed_own hown
      · intro hdc
        exact removed_other fun h => hdc (Option.some.inj (hown.symm.trans h))
  | @matched d me ret pc away =>
      refine ⟨?_, fun _ => rfl⟩
      rintro ⟨rfl, -, a, hw, ho⟩
      -- the handler's own player is in the slot, so `me` is there
      have hat := hI.handler d
      rw [pc, hI.slot_iff.mpr ⟨hw, ho⟩] at hat
      rcases hat.of_waiting.1 with e | hz
      · obtain rfl := Place.slot.inj e
        exact absurd hw away
      · cases hz
  | again pc here idle => exact ⟨fun hl => absurd hl.2.1 idle, fun _ => rfl⟩
  | @unregister g p₁ p₂ t pc ended =>
      have hleaves : Leaves s c (.unregister g) ↔ s.owner p₁ = some c ∨ s.owner p₂ = some c := by
        constructor
        · rintro ⟨p, q₁, q₂, todo, t', hg, ho⟩
          obtain ⟨rfl, rfl, -⟩ := Game.running.inj (pc.symm.trans hg)
          cases p with
          | one => exact .inl ho
          | two => exact .inr ho
        · rintro (ho | ho)
          · exact ⟨.one, p₁, p₂, _, _, pc, ho⟩
          · exact ⟨.two, p₁, p₂, _, _, pc, ho⟩
      have hdiff : s.owner p₁ = some c → s.owner p₂ ≠ some c := by
        intro h₁ h₂
        have hone := hI.game_iff.mpr ⟨(by rw [pc]; rfl : (s.games g).seat .one = some p₁), h₁⟩
        have htwo := hI.game_iff.mpr ⟨(by rw [pc]; rfl : (s.games g).seat .two = some p₂), h₂⟩
        rw [hone] at htwo
        cases htwo
      rw [hleaves]
      constructor
      · rintro (h₁ | h₂)
        · exact (removed_other (s := s.remove p₁) (hdiff h₁)).trans (removed_own h₁)
        · exact (removed_own (s := s.remove p₁) h₂).trans
            (congrArg (· + 1) (removed_other fun h₁ => hdiff h₁ h₂))
      · intro hno
        exact (removed_other (s := s.remove p₁) fun h₂ => hno (.inr h₂)).trans
          (removed_other fun h₁ => hno (.inl h₁))
  | greet => exact ⟨False.elim, fun _ => by simp only [Server.setHandler, send_removed]⟩
  | act => exact ⟨False.elim, fun _ => by simp only [Server.setHandler, (act_frame _ _).2.2.1]⟩
  | effect => exact ⟨False.elim, fun _ => by simp only [Server.setGame, (effect_frame _ _).2.2.1]⟩
  | accept | spawn | receive | refuse | register | alloc | take | pair | reply | poll
  | release => exact ⟨False.elim, fun _ => rfl⟩

end Apart

/-- **Matchmaking.**  For every number of clients and every interleaving of the threads, when no
address is used for two `Player`s and game threads can be created: the state is as `Matchmaking`
says, and in every next step the names that are removed are those of the players who withdraw from
the slot in this step or whose game ends with it. -/
theorem matchmaking_safe {es : List Event} (h : Run step NoReuse initial es s) :
    Matchmaking s ∧ ∀ e s', step s e = some s' → ∀ c,
      (Leaves s c e → s.removed c = 0 ∧ s'.removed c = 1) ∧
        (¬ Leaves s c e → s'.removed c = s.removed c) := by
  have hA : Apart s := h.invariant (fun s e s' hA hok hstep => hA.step hok (step_cases hstep))
    apart_initial
  obtain ⟨P, hI⟩ := hA.places
  have hM := hI.matchmaking hA.started
  refine ⟨hM, fun e s' hstep c => ⟨fun hl => ?_, (hA.removed (step_cases hstep) c).2⟩⟩
  have hz : s.removed c = 0 := by
    cases e with
    | recheck d ret =>
        obtain ⟨name, hlive⟩ := hM.live c _ hl.2.2
        exact hlive.2
    | unregister g =>
        obtain ⟨p, hp⟩ := hl
        obtain ⟨name, hlive⟩ := hM.live c _ hp
        exact hlive.2
    | accept | spawn | receive | register | alloc | greet | enter | reply | act | effect | poll
    | release => cases hl
  refine ⟨hz, ?_⟩
  rw [(hA.removed (step_cases hstep) c).1 hl, hz]

/-- A client that connects, opens with a name and comes to the matching step. -/
def comes (c : Cid) (fd : Fd) (a : Addr) (name : String) : List Event :=
  [.accept fd, .spawn c true, .receive c (.message (ascii "OPEN") (ascii name)), .register c,
    .alloc c a, .greet c, .enter c true]

/-- A game whose second player hangs up. -/
def abandoned (g : Gid) : List Event :=
  List.replicate 4 (.effect g) ++ .poll g (.from .two "") :: List.replicate 4 (.effect g)

/-- Ann and Bob play, Cat waits and withdraws, and Bob hangs up. -/
def sampleEvents : List Event :=
  comes 0 4 100 "Ann" ++ comes 1 5 200 "Bob" ++ comes 2 6 300 "Cat" ++ .recheck 0 0 ::
    .recheck 2 1 :: abandoned 0

theorem sampleEvents_run : (Run.exec step NoReuse initial sampleEvents).isSome = true := by
  decide +kernel

theorem matchmaking_safe_sample :
    Matchmaking ((Run.exec step NoReuse initial sampleEvents).get sampleEvents_run) :=
  (matchmaking_safe (Run.of_isSome sampleEvents_run)).1

/-! ### With reuse of addresses -/

/-- The `me` of a handler at the matching step. -/
def Handler.enters : Handler → Option Addr
  | .matching me => some me
  | _ => none

/-- The objects that a handler has left to free. -/
def Handler.frees : Handler → List Act
  | .withdrawn me => [.free me]
  | .finishing todo => todo
  | _ => []

/-- `me` is the object that the handler of `c` allocated, and it has not been matched. -/
structure OwnUnmatched (s : Server) (c : Cid) (me : Addr) : Prop where
  allocated : s.allocated me = true
  owner : s.owner me = some c
  content : ∃ name, s.registered c = some name ∧ s.players me = ⟨s.fd c, name⟩
  unseated : ∀ g p, (s.games g).seat p ≠ some me
  unfreed : ∀ g, me ∉ (s.games g).frees

/-- The test `waiting_player == me` is true for the handler's own unmatched player only, and so is
what a handler does after it has cleared the slot. -/
structure SlotSafe (s : Server) : Prop where
  test : ∀ c me, s.handlers c = .waiting me → s.waiting = some me → OwnUnmatched s c me
  left : ∀ c me, .free me ∈ (s.handlers c).frees → OwnUnmatched s c me

/-- A player that takes the slot has an address that no other handler waits with. -/
def FreshSlot (s : Server) : Event → Prop
  | .enter c _ => ∀ me ∈ (s.handlers c).enters, s.waiting = none →
      ∀ d < s.conns, (s.handlers d).waits ≠ some me
  | _ => True

instance (s : Server) : (e : Event) → Decidable (FreshSlot s e)
  | .enter c _ => inferInstanceAs (Decidable (∀ me ∈ (s.handlers c).enters, s.waiting = none →
      ∀ d < s.conns, (s.handlers d).waits ≠ some me))
  | .accept _ | .spawn .. | .receive .. | .register _ | .alloc .. | .greet _ | .recheck ..
  | .reply .. | .act _ | .effect _ | .poll .. | .unregister _ | .release _ => .isTrue trivial

/-- The states that runs with fresh slots reach. -/
structure OwnSlot (s : Server) : Prop where
  places : ∃ P, Inv s P
  own : ∀ c me, s.handlers c = .waiting me → s.waiting = some me → s.owner me = some c

theorem waits_eq_some {pc : Handler} : pc.waits = some me ↔ pc = .waiting me := by
  cases pc <;> simp [Handler.waits]

theorem enters_eq_some {pc : Handler} : pc.enters = some me ↔ pc = .matching me := by
  cases pc <;> simp [Handler.enters]

/-- A player that is not in a game is unmatched. -/
theorem Inv.ownUnmatched (hI : Inv s P) (ha : (P c).addr = some me)
    (hgame : ∀ g p, P c ≠ .game g p me) (hended : ∀ g, P c ≠ .ended g me) :
    OwnUnmatched s c me := by
  obtain ⟨halloc, hown, hcontent⟩ := hI.object c me ha
  refine ⟨halloc, hown, hcontent, ?_, ?_⟩
  · intro g p hseat
    exact hgame g p (hI.game_iff.mpr ⟨hseat, hown⟩)
  · intro g hmem
    obtain ⟨d, hd⟩ := (hI.located (.ended g me) rfl).mp hmem
    obtain rfl : d = c := hI.addr_inj (hd ▸ rfl) ha
    exact hended g hd

/-- A handler that has a player to free has withdrawn it. -/
theorem At.frees {pc : Handler} {z : Place} {r : Option Name} (h : At pc z r)
    (hf : .free a ∈ pc.frees) : z = .withdrew a := by
  cases h with
  | withdrawn b name =>
      obtain rfl := Act.free.inj (List.mem_singleton.mp hf)
      rfl
  | refusing h =>
      rcases h with rfl | ⟨texts, rfl⟩
      · cases hf
      · simp [Handler.frees] at hf
  | leaving h name =>
      rcases h with rfl | ⟨texts, rfl⟩
      · obtain rfl := Act.free.inj (List.mem_singleton.mp hf)
        rfl
      · obtain rfl : a = _ := by simpa [Handler.frees] using hf
        rfl
  | absent | accepted | receiving | opened | registered | greeting | matching | waiting | stale
  | returned => cases hf

namespace OwnSlot

theorem ownWithdraw (hO : OwnSlot s) (e : Event) : OwnWithdraw s e := by
  cases e with
  | recheck c ret => exact fun me hme hw _ => hO.own c me (waits_eq_some.mp hme) hw
  | accept | spawn | receive | register | alloc | greet | enter | reply | act | effect | poll
  | unregister | release => trivial

theorem slotSafe (hO : OwnSlot s) : SlotSafe s := by
  obtain ⟨P, hI⟩ := hO.places
  constructor
  · intro c me hc hw
    have hslot := hI.slot_iff.mpr ⟨hw, hO.own c me hc hw⟩
    refine hI.ownUnmatched ?_ ?_ ?_ <;> rw [hslot]
    · rfl
    · nofun
    · nofun
  · intro c me hf
    have hleft := (hI.handler c).frees hf
    refine hI.ownUnmatched ?_ ?_ ?_ <;> rw [hleft]
    · rfl
    · nofun
    · nofun

theorem step (hO : OwnSlot s) (hok : FreshSlot s e) (h : Step s e s') : OwnSlot s' := by
  obtain ⟨P, hI⟩ := hO.places
  refine ⟨hI.step (hO.ownWithdraw e) h, fun c me hc hw => ?_⟩
  rcases h.waits hc with hc₀ | ⟨hc₀, -, -, ok, rfl⟩
  · rcases h.fills hw with hw₀ | ⟨d, ok, rfl, hd, hnone⟩
    · have hown := hO.own c me hc₀ hw₀
      rcases h.owner me with e | ⟨hfree, -⟩
      · rw [e, hown]
      · exact absurd rfl (hI.slot_ne hw₀ hfree)
    · have hlt : c < s.conns := hI.lt (hc₀ ▸ nofun)
      exact absurd (waits_eq_some.mpr hc₀) (hok me (enters_eq_some.mpr hd) hnone c hlt)
  · rcases h.owner me with e | ⟨-, d, e⟩
    · rw [e]
      exact hI.owner_matching hc₀
    · cases e

/-- A step that takes the slot at an address another handler waits with breaks the promise. -/
theorem freshSlot_of_slotSafe (hO : OwnSlot s) (h : CS214.Nim.step s e = some s')
    (hs : SlotSafe s') : FreshSlot s e := by
  obtain ⟨P, hI⟩ := hO.places
  cases e with
  | enter c ok =>
      intro me hme hnone d _ hd
      have hc := enters_eq_some.mp hme
      have hd := waits_eq_some.mp hd
      have hne : d ≠ c := by
        rintro rfl
        rw [hc] at hd
        cases hd
      simp only [CS214.Nim.step, hc, hnone] at h
      obtain rfl := Option.some.inj h
      have hown : s.owner me = some d :=
        (hs.test d me (by simpa only [Server.setHandler, update_of_ne hne] using hd) rfl).owner
      have hown' := hI.owner_matching hc
      exact hne (Option.some.inj (hown.symm.trans hown'))
  | accept | spawn | receive | register | alloc | greet | recheck | reply | act | effect | poll
  | unregister | release => trivial

end OwnSlot

/-- **The test of a waiter.**  In every run in which no player takes the slot at an address that
another handler still waits with, the test is true for the handler's own unmatched player only, and
a handler that has cleared the slot closes and frees its own player.  This lasts as long as the
condition: the next step keeps it if and only if it meets the condition. -/
theorem waiter_owns_slot {es : List Event} (h : Run step FreshSlot initial es s) :
    SlotSafe s ∧ ∀ e s', step s e = some s' → (SlotSafe s' ↔ FreshSlot s e) := by
  have hO : OwnSlot s := h.invariant (fun s e s' hO hok hstep => hO.step hok (step_cases hstep))
    ⟨⟨_, inv_initial⟩, fun _ _ h => by cases h⟩
  refine ⟨hO.slotSafe, fun e s' hstep => ⟨hO.freshSlot_of_slotSafe hstep, fun hok => ?_⟩⟩
  exact (hO.step hok (step_cases hstep)).slotSafe

/-- Ann and Bob play, Bob hangs up, and the game thread frees both. -/
def playedEvents : List Event :=
  comes 0 4 100 "Ann" ++ comes 1 5 200 "Bob" ++ abandoned 0 ++
    [.unregister 0, .release 0, .release 0]

/-- Cat comes after Ann's handler has returned, and gets Ann's address and descriptor number. -/
def returnedEvents : List Event :=
  comes 0 4 100 "Ann" ++ comes 1 5 200 "Bob" ++ .recheck 0 0 :: abandoned 0 ++
    [.unregister 0, .release 0, .release 0] ++ comes 2 4 100 "Cat"

theorem returnedEvents_run : (Run.exec step FreshSlot initial returnedEvents).isSome = true := by
  decide +kernel

theorem waiter_owns_slot_returned :
    SlotSafe ((Run.exec step FreshSlot initial returnedEvents).get returnedEvents_run) :=
  (waiter_owns_slot (Run.of_isSome returnedEvents_run)).1

/-- Cat comes while Ann's handler is still in its call of `poll`. -/
def reusedEvents : List Event := playedEvents ++ comes 2 4 100 "Cat"

theorem reusedEvents_run :
    (Run.exec step (fun _ _ => True) initial reusedEvents).isSome = true := by
  decide +kernel

theorem reusedEvents_names :
    (((Run.exec step (fun _ _ => True) initial reusedEvents).get reusedEvents_run).names).map
      Name.bytes = [ascii "Cat"] := by
  decide +kernel

/-- Ann's handler finds its `me` in the slot, though the object is Cat's, and its next step takes
Cat's name off the list. -/
theorem reused_address :
    ∃ s, Run step (fun _ _ => True) initial reusedEvents s ∧ s.handlers 0 = .waiting 100 ∧
      s.waiting = some 100 ∧ s.owner 100 = some 2 ∧ ¬ SlotSafe s ∧
      s.names.map Name.bytes = [ascii "Cat"] ∧
      (step s (.recheck 0 1)).map Server.names = some [] := by
  refine ⟨_, Run.of_isSome reusedEvents_run, by decide +kernel, by decide +kernel,
    by decide +kernel, fun hS => ?_, reusedEvents_names, by decide +kernel⟩
  have hown := (hS.test 0 100 (by decide +kernel) (by decide +kernel)).owner
  exact absurd hown (by decide +kernel)

end CS214.Nim
