import CS214.Nim.Transcript

/-!
# Nim — what every client is told

The frames of one client come from its handler and, once it is matched, from the thread of its
game.  `Stories live heard s`: what a client has heard goes on with what the thread that has its
player still sends, to a `Word` of the grammar, and its connection is `live` until then.

* `Stories.step`: every step keeps the stories.
* `output_protocol`: in every run without reuse of addresses and of descriptor numbers, what every
  client hears is the beginning of a `Word`, no two threads have something to send to one client,
  and no frame is held back for its length.
-/

namespace CS214.Nim

open CString Function

/-! ### The property -/

/-- The frames written to a connection. -/
def framesOn (ops : List Op) (c : Cid) : List Bytes :=
  ops.reverse.filterMap fun op => if op.found = some c then op.bytes else none

/-- What a client hears. -/
def heard (ops : List Op) (c : Cid) : List Kind := (framesOn ops c).map frameKind

/-- The threads that send. -/
inductive Sender where
  | handler (c : Cid)
  | game (g : Gid)
deriving DecidableEq

/-- The text of a message, if the call sends one. -/
def Act.text : Act → Option Bytes
  | .send text => some text
  | .close | .free _ => none

/-- The texts that a handler sends next, whatever the outside does. -/
def Handler.texts : Handler → List Bytes
  | .greeting _ => [ascii "WAIT"]
  | .finishing todo => todo.filterMap Act.text
  | _ => []

/-- The texts that a game sends next to a player, whatever the outside does. -/
def Game.texts (p : Seat) : Game → List Bytes
  | .running _ _ todo _ => textsTo p todo
  | _ => []

/-- A thread has a text to send to the number of a connection. -/
inductive Pending (s : Server) (c : Cid) : Sender → Prop where
  | handler {d : Cid} (h : (s.handlers d).texts ≠ []) (belongs : s.fds (s.fd d) = some c) :
      Pending s c (.handler d)
  | game {g : Gid} {p : Seat} {a : Addr} (seat : (s.games g).seat p = some a)
      (h : (s.games g).texts p ≠ []) (belongs : s.fds (s.players a).fd = some c) :
      Pending s c (.game g)

/-- What the server promises of its output. -/
structure OutputProtocol (s : Server) : Prop where
  word : ∀ c, ∃ w, Word w ∧ heard s.ops c <+: w
  /-- What a thread sends reaches the client it is for. -/
  reaches : ∀ op ∈ s.ops, ∀ msg, op.bytes = some msg → op.found = op.conn
  one_sender : ∀ c k k', Pending s c k → Pending s c k' → k = k'
  handler_sends : ∀ d, ∀ text ∈ (s.handlers d).texts, ∃ msg, frame text = some msg
  game_sends : ∀ g p, ∀ text ∈ (s.games g).texts p, ∃ msg, frame text = some msg

/-- `accept` returns a number that it has not returned before. -/
def NewNumber (s : Server) : Event → Prop
  | .accept fd => ∀ c < s.conns, s.fd c ≠ fd
  | _ => True

/-- Objects and connections are never taken for others, and game threads can be created. -/
def Unique (s : Server) (e : Event) : Prop := NoReuse s e ∧ NewNumber s e

/-! ### The stories -/

/-- Texts that are left continue what was told, and the connection is open. -/
def Owes (live : Prop) (ks : List Kind) (texts : List Bytes) : Prop :=
  texts ≠ [] → live ∧ ∃ more, List.Forall₂ Says texts more ∧ Word (ks ++ more)

/-- What goes with the point of a handler, as long as it has the player. -/
def Handler.Story (live : Prop) (ks : List Kind) : Handler → Prop
  | .absent => ks = []
  | .waiting _ => True
  | .matching _ | .withdrawn _ => live ∧ ks = [.wait]
  | .finishing todo => Owes live ks (todo.filterMap Act.text)
  | .accepted | .receiving | .opened _ | .registered _ | .greeting _ => live ∧ ks = []

/-- What goes with a game, for one of its players. -/
def Game.Story (live : Prop) (ks : List Kind) (p : Seat) : Game → Prop
  | .running _ _ todo t =>
      Continues p todo t ks ∧ (t.ended = false ∨ (∃ e ∈ todo, IsSend e) → live)
  | _ => True

/-- The calls before the thread are those that an iteration can leave. -/
def Game.Calls : Game → Prop
  | .running _ _ todo t => Nim.Calls todo t
  | _ => True

/-- What the clients have heard, and which connections are open, goes with the state. -/
structure Stories (live : Cid → Prop) (heard : Cid → List Kind) (s : Server) : Prop where
  word : ∀ c, ∃ w, Word w ∧ heard c <+: w
  handler : ∀ c, (s.handlers c).Story (live c) (heard c)
  slot : ∀ a c, s.waiting = some a → s.owner a = some c → live c ∧ heard c = [.wait]
  calls : ∀ g, (s.games g).Calls
  player : ∀ g p a c, (s.games g).seat p = some a → s.owner a = some c →
    (s.games g).Story (live c) (heard c) p

variable {s s' : Server} {P : Cid → Place} {c d : Cid} {g : Gid} {a me : Addr} {e : Event}
  {live live' : Cid → Prop} {hs hs' : Cid → List Kind} {q : Seat} {G : Game} {H : Handler}

/-- The handler of a matched player has nothing to say. -/
theorem At.story {pc : Handler} {z : Place} {r : Option Name} (h : At pc z r)
    (hz : z.handed = true) (l : Prop) (ks : List Kind) : pc.Story l ks := by
  cases h with
  | stale => exact trivial
  | returned => exact fun hno => absurd rfl hno
  | absent | accepted | receiving | opened | refusing | registered | greeting | matching | waiting
  | withdrawn | leaving => cases hz

/-- The list of calls starts with a `close`, which is the last one but for what is freed. -/
theorem texts_close_cons {todo tail : List Act} {texts : List Bytes}
    (htail : tail.filterMap Act.text = [])
    (h : .close :: todo = texts.map .send ++ .close :: tail) : todo.filterMap Act.text = [] := by
  cases texts with
  | nil =>
      obtain ⟨-, rfl⟩ := List.cons.inj h
      exact htail
  | cons text texts => cases h

/-- A handler sends nothing after its `close`. -/
theorem At.texts_close {todo : List Act} {z : Place} {r : Option Name}
    (h : At (.finishing (.close :: todo)) z r) : todo.filterMap Act.text = [] := by
  cases h with
  | refusing h =>
      rcases h with h | ⟨texts, h⟩
      · cases h
      · exact texts_close_cons rfl h
  | leaving h name =>
      rcases h with h | ⟨texts, h⟩
      · cases h
      · exact texts_close_cons rfl h

theorem Handler.Story.mono {l l' : Prop} {ks : List Kind} {pc : Handler} (h : pc.Story l ks)
    (hl : l → l') : pc.Story l' ks := by
  cases pc with
  | absent | waiting => exact h
  | finishing todo => exact fun hne => (h hne).imp_left hl
  | accepted | receiving | opened | registered | greeting | matching | withdrawn =>
      exact And.imp_left hl h

theorem Game.Story.mono {l l' : Prop} {ks : List Kind} {p : Seat} (h : G.Story l ks p)
    (hl : l → l') : G.Story l' ks p := by
  cases G with
  | running p₁ p₂ todo t => exact ⟨h.1, fun hn => hl (h.2 hn)⟩
  | absent | unstarted | freeing => exact trivial

namespace Stories

theorem at_pc (hS : Stories live hs s) {pc : Handler} (h : s.handlers c = pc) :
    pc.Story (live c) (hs c) := h ▸ hS.handler c

/-- A step of a handler that tells nothing. -/
theorem of_handler (hS : Stories live hs s) (hh : s'.handlers = update s.handlers c H)
    (hw : s'.waiting = s.waiting) (ho : s'.owner = s.owner) (hg : s'.games = s.games)
    (hH : H.Story (live c) (hs c)) : Stories live hs s' where
  word := hS.word
  handler d := by
    rw [hh, update_apply]
    split
    · next e => exact e ▸ hH
    · exact hS.handler d
  slot a c h h' := hS.slot a c (hw ▸ h) (ho ▸ h')
  calls := by
    rw [hg]
    exact hS.calls
  player := by
    rw [hg, ho]
    exact hS.player

theorem setHandler (hS : Stories live hs s) (hH : H.Story (live c) (hs c)) :
    Stories live hs (s.setHandler c H) :=
  hS.of_handler rfl rfl rfl rfl hH

/-- A step of a game thread that tells nothing and closes nothing. -/
theorem of_game (hS : Stories live hs s) (hh : s'.handlers = s.handlers)
    (hw : s'.waiting = s.waiting) (ho : s'.owner = s.owner) (hg : s'.games = update s.games g G)
    (hcalls : G.Calls)
    (hG : ∀ p a c, G.seat p = some a → s.owner a = some c → G.Story (live c) (hs c) p) :
    Stories live hs s' where
  word := hS.word
  handler := by
    rw [hh]
    exact hS.handler
  slot a c h h' := hS.slot a c (hw ▸ h) (ho ▸ h')
  calls h := by
    rw [hg, update_apply]
    split
    · exact hcalls
    · exact hS.calls h
  player h p a c hseat hown := by
    rw [hg, update_apply] at hseat ⊢
    rw [ho] at hown
    split at hseat
    · next e =>
        rw [if_pos e]
        exact hG p a c hseat hown
    · next e =>
        rw [if_neg e]
        exact hS.player h p a c hseat hown

/-- One client, who is not in the slot, is told something or is closed. -/
theorem of_client (hS : Stories live hs s) (hI : Inv s P) (hP : ∀ a, P c ≠ .slot a)
    (hl : ∀ d, d ≠ c → live d → live' d) (hk : ∀ d, d ≠ c → hs' d = hs d)
    (hword : ∃ w, Word w ∧ hs' c <+: w) (hw : s'.waiting = s.waiting) (ho : s'.owner = s.owner)
    (hH : ∀ d, (s'.handlers d).Story (live' d) (hs' d)) (hcalls : ∀ g, (s'.games g).Calls)
    (hG : ∀ g p a d, (s'.games g).seat p = some a → s.owner a = some d →
      (s'.games g).Story (live' d) (hs' d) p) : Stories live' hs' s' where
  word d := by
    by_cases e : d = c
    · exact e ▸ hword
    · rw [hk d e]
      exact hS.word d
  handler := hH
  slot a d h h' := by
    rw [hw] at h
    rw [ho] at h'
    have e : d ≠ c := by
      rintro rfl
      exact hP a (hI.slot_iff.mpr ⟨h, h'⟩)
    rw [hk d e]
    exact (hS.slot a d h h').imp_left (hl d e)
  calls := hcalls
  player := by
    rw [ho]
    exact hG

/-- A step of a handler that has the player, which tells something or closes. -/
theorem of_private (hS : Stories live hs s) (hI : Inv s P) (hP : (P c).shared = false)
    (hl : ∀ d, d ≠ c → live d → live' d) (hk : ∀ d, d ≠ c → hs' d = hs d)
    (hword : ∃ w, Word w ∧ hs' c <+: w) (hh : s'.handlers = update s.handlers c H)
    (hw : s'.waiting = s.waiting) (ho : s'.owner = s.owner) (hg : s'.games = s.games)
    (hH : H.Story (live' c) (hs' c)) : Stories live' hs' s' := by
  refine hS.of_client hI (fun a h => ?_) hl hk hword hw ho (fun d => ?_) (hg ▸ hS.calls) ?_
  · rw [h] at hP
    cases hP
  · rw [hh, update_apply]
    split
    · next e => exact e ▸ hH
    · next e =>
        rw [hk d e]
        exact (hS.handler d).mono (hl d e)
  · intro g p a d h h'
    rw [hg] at h ⊢
    have e : d ≠ c := by
      rintro rfl
      rw [hI.game_iff.mpr ⟨h, h'⟩] at hP
      cases hP
    rw [hk d e]
    exact (hS.player g p a d h h').mono (hl d e)

/-- A call of a game thread for one of its players. -/
theorem of_player (hS : Stories live hs s) (hI : Inv s P) (hP : P c = .game g q a)
    (hl : ∀ d, d ≠ c → live d → live' d) (hk : ∀ d, d ≠ c → hs' d = hs d)
    (hword : ∃ w, Word w ∧ hs' c <+: w) (hh : s'.handlers = s.handlers)
    (hw : s'.waiting = s.waiting) (ho : s'.owner = s.owner) (hg : s'.games = update s.games g G)
    (hcalls : G.Calls)
    (hG : ∀ p b d, G.seat p = some b → s.owner b = some d → G.Story (live' d) (hs' d) p) :
    Stories live' hs' s' := by
  refine hS.of_client hI (fun b h => ?_) hl hk hword hw ho (fun d => ?_) (fun h => ?_) ?_
  · rw [hP] at h
    cases h
  · rw [hh]
    by_cases e : d = c
    · subst e
      exact (hI.handler d).story (hP ▸ rfl) _ _
    · rw [hk d e]
      exact (hS.handler d).mono (hl d e)
  · rw [hg, update_apply]
    split
    · exact hcalls
    · exact hS.calls h
  · intro h p b d hseat hown
    rw [hg, update_apply] at hseat ⊢
    split at hseat
    · next e =>
        rw [if_pos e]
        exact hG p b d hseat hown
    · next hne =>
        have e : d ≠ c := by
          rintro rfl
          rw [hI.game_iff.mpr ⟨hseat, hown⟩] at hP
          exact hne (Place.game.inj hP).1
        rw [if_neg hne, hk d e]
        exact (hS.player h p b d hseat hown).mono (hl d e)

theorem alloc (hS : Stories live hs s) (hI : Inv s P) {name : Name}
    (pc : s.handlers c = .registered name) (unused : s.allocated a = false) :
    Stories live hs { s.setHandler c (.greeting a) with
      players := update s.players a ⟨s.fd c, name⟩
      allocated := update s.allocated a true
      owner := update s.owner a (some c) } := by
  have hH : (Handler.greeting a).Story (live c) (hs c) := by
    have h := hS.handler c
    rw [pc] at h
    exact h
  refine ⟨hS.word, ?_, ?_, hS.calls, ?_⟩
  · exact (hS.setHandler hH).handler
  · intro b d waits own
    simp only [update_of_ne (hI.slot_ne waits unused)] at own
    exact hS.slot b d waits own
  · intro g p b d seat own
    simp only [update_of_ne (hI.seat_ne seat unused)] at own
    exact hS.player g p b d seat own

theorem take (hS : Stories live hs s) (hI : Inv s P) (pc : s.handlers c = .matching me) :
    Stories live hs { s.setHandler c (.waiting me) with waiting := some me } := by
  have hstory := hS.at_pc pc
  have hown := hI.owner_matching pc
  refine ⟨hS.word, ?_, ?_, hS.calls, hS.player⟩
  · exact (hS.setHandler (H := .waiting me) trivial).handler
  · intro b d waits own
    obtain rfl := Option.some.inj waits
    obtain rfl := Option.some.inj (hown.symm.trans own)
    exact hstory

theorem withdraw (hS : Stories live hs s) (here : s.waiting = some me)
    (own : s.owner me = some c) :
    Stories live hs { (s.remove me).setHandler c (.withdrawn me) with waiting := none } := by
  have hH := hS.slot me c here own
  refine ⟨hS.word, ?_, nofun, hS.calls, hS.player⟩
  exact (hS.setHandler (H := .withdrawn me) hH).handler

/-- Two players who have heard `WAIT`. -/
theorem pair (hS : Stories live hs s) (hI : Inv s P) {o : Addr} (pc : s.handlers c = .matching me)
    (waits : s.waiting = some o)
    (hseat : ∀ p, G.seat p = some (match p with | .one => o | .two => me))
    (hcalls : G.Calls)
    (hG : ∀ p (l : Prop), l → G.Story l [.wait] p) :
    Stories live hs { (s.setHandler c (.finishing [])).setGame s.created G with
      waiting := none, created := s.created + 1 } := by
  have hstory := hS.at_pc pc
  have hown := hI.owner_matching pc
  have hH : (Handler.finishing []).Story (live c) (hs c) := fun hno => absurd rfl hno
  have hgames : Stories live hs ((s.setHandler c (.finishing [])).setGame s.created G) := by
    refine (hS.setHandler hH).of_game
      rfl rfl rfl rfl hcalls fun p b d seat own => ?_
    have hwait : live d ∧ hs d = [.wait] := by
      rw [hseat] at seat
      cases p with
      | one =>
          obtain rfl := Option.some.inj seat
          exact hS.slot o d waits own
      | two =>
          obtain rfl := Option.some.inj seat
          obtain rfl := Option.some.inj (hown.symm.trans own)
          exact hstory
    rw [hwait.2]
    exact hG p _ hwait.1
  exact ⟨hgames.word, hgames.handler, nofun, hgames.calls, hgames.player⟩

end Stories

/-! ### Connections -/

/-- The connection is open. -/
def Server.isOpen (s : Server) (c : Cid) : Prop := s.fds (s.fd c) = some c

/-- No two connections have one number, and what was sent for a client reached it. -/
structure Channel (conns : ℕ) (fds : Fd → Option Cid) (fd : Cid → Fd) (ops : List Op) : Prop where
  inj : ∀ c < conns, ∀ d < conns, fd c = fd d → c = d
  back : ∀ x c, fds x = some c → c < conns ∧ fd c = x
  reaches : ∀ op ∈ ops, ∀ msg, op.bytes = some msg → op.found = op.conn

theorem heard_sent (k : Option Cid) (c : Cid) (msg : Bytes) (ops : List Op) :
    heard (⟨k, some c, some msg⟩ :: ops) =
      update (heard ops) c (heard ops c ++ [frameKind msg]) := by
  funext d
  by_cases e : d = c
  · subst e
    simp [heard, framesOn]
  · simp [heard, framesOn, e, Ne.symm e]

theorem heard_closed (k f : Option Cid) (ops : List Op) :
    heard (⟨k, f, none⟩ :: ops) = heard ops := by
  funext d
  simp [heard, framesOn]

namespace Channel

variable {text : Bytes} {k : Kind} {conns : ℕ} {fds : Fd → Option Cid} {fd : Cid → Fd}
  {ops : List Op}

/-- A text is sent to an open connection. -/
theorem send (hC : Channel s.conns s.fds s.fd s.ops) (hl : s.isOpen c) (hk : Says text k) :
    ∃ ops, s.send (some c) (s.fd c) text = { s with ops := ops } ∧
      Channel s.conns s.fds s.fd ops ∧
        heard ops = update (heard s.ops) c (heard s.ops c ++ [k]) := by
  obtain ⟨msg, hf, rfl⟩ := hk
  refine ⟨⟨some c, some c, some msg⟩ :: s.ops, ?_, ⟨hC.inj, hC.back, ?_⟩, heard_sent ..⟩
  · rw [Server.send, hf]
    simp only
    rw [show s.fds (s.fd c) = some c from hl]
  · exact List.forall_mem_cons.mpr ⟨fun _ _ => rfl, hC.reaches⟩

theorem close (hC : Channel conns fds fd ops) (hc : c < conns) (f : Option Cid) :
    Channel conns (update fds (fd c) none) fd (⟨some c, f, none⟩ :: ops) ∧
      ∀ d, d ≠ c → fds (fd d) = some d → update fds (fd c) none (fd d) = some d := by
  refine ⟨⟨hC.inj, ?_, ?_⟩, ?_⟩
  · intro x d hx
    rw [update_apply] at hx
    split at hx
    · cases hx
    · exact hC.back x d hx
  · exact List.forall_mem_cons.mpr ⟨nofun, hC.reaches⟩
  · intro d hd hl
    have hne : fd d ≠ fd c := fun e => hd (hC.inj d (hC.back _ d hl).1 c hc e)
    rw [update_of_ne hne, hl]

theorem accept (hC : Channel conns fds fd ops) {n : Fd} (new : ∀ c < conns, fd c ≠ n) :
    Channel (conns + 1) (update fds n (some conns)) (update fd conns n) ops ∧
      ∀ d, d ≠ conns → fds (fd d) = some d →
        update fds n (some conns) (update fd conns n d) = some d := by
  have hold : ∀ {d}, d ≠ conns → d < conns + 1 → d < conns := by omega
  refine ⟨⟨?_, ?_, hC.reaches⟩, ?_⟩
  · intro c hc d hd h
    by_cases ec : c = conns <;> by_cases ed : d = conns
    · rw [ec, ed]
    · subst ec
      rw [update_self, update_of_ne ed] at h
      exact absurd h.symm (new d (hold ed hd))
    · subst ed
      rw [update_self, update_of_ne ec] at h
      exact absurd h (new c (hold ec hc))
    · rw [update_of_ne ec, update_of_ne ed] at h
      exact hC.inj c (hold ec hc) d (hold ed hd) h
  · intro x d hx
    by_cases ex : x = n
    · subst ex
      rw [update_self] at hx
      obtain rfl := Option.some.inj hx
      exact ⟨Nat.lt_succ_self _, update_self ..⟩
    · rw [update_of_ne ex] at hx
      obtain ⟨hlt, hfd⟩ := hC.back x d hx
      exact ⟨Nat.lt_succ_of_lt hlt, by rw [update_of_ne hlt.ne, hfd]⟩
  · intro d hd hl
    have hlt := (hC.back _ d hl).1
    rw [update_of_ne hd, update_of_ne (new d hlt), hl]

end Channel

/-! ### The answers of a handler -/

/-- One error, and nothing else. -/
theorem owes_fail {l : Prop} {ks : List Kind} {code : ℤ} {msg : String} {texts : List Bytes}
    (htexts : texts = [errorText code msg]) (hl : l) (hk : Says (errorText code msg) (.fail code))
    (hword : Word (ks ++ [.fail code])) : Owes l ks texts := by
  subst htexts
  exact fun _ => ⟨hl, [.fail code], .cons hk .nil, hword⟩

theorem story_openReply {l : Prop} (hl : l) (r : Received) : (openReply r).Story l [] := by
  cases r with
  | gone => exact fun hno => absurd rfl hno
  | invalid => exact owes_fail rfl hl says_invalid (.refused (.inl rfl))
  | message type body =>
      rw [openReply]
      split
      · exact owes_fail rfl hl (says_fail (by simp)) (.refused (.inl rfl))
      · split
        · exact ⟨hl, rfl⟩
        · exact owes_fail rfl hl (says_fail (by simp)) (.refused (.inr (.inl rfl)))

theorem story_withdrawReply {l : Prop} (hl : l) (r : Received) (a : Addr) :
    (Handler.finishing (withdrawReply r ++ [.close, .free a])).Story l [.wait] := by
  cases r with
  | gone => exact fun hno => absurd rfl hno
  | invalid => exact owes_fail rfl hl says_invalid (.withdrew (.inl rfl))
  | message type body =>
      rw [withdrawReply]
      split
      · exact owes_fail rfl hl (says_fail (by simp)) (.withdrew (.inr (.inl rfl)))
      · exact owes_fail rfl hl (says_fail (by simp)) (.withdrew (.inr (.inr rfl)))

/-! ### Every step -/

/-- The connections are in order, and so is what their clients hear. -/
structure Told (s : Server) : Prop where
  channel : Channel s.conns s.fds s.fd s.ops
  stories : Stories s.isOpen (heard s.ops) s

namespace Told

theorem accept (hT : Told s) (hI : Inv s P) {fd : Fd} (new : ∀ c < s.conns, s.fd c ≠ fd) :
    Told { s.setHandler s.conns .accepted with
      conns := s.conns + 1, fds := update s.fds fd (some s.conns),
      fd := update s.fd s.conns fd } := by
  obtain ⟨hC, hopen⟩ := hT.channel.accept new
  refine ⟨hC, ?_⟩
  have habsent := hI.conns s.conns (Nat.le_refl _)
  have hat := hI.at_pc habsent
  have hnil := hT.stories.handler s.conns
  rw [habsent] at hnil
  have hnil : heard s.ops s.conns = [] := hnil
  refine hT.stories.of_private hI (c := s.conns) (hat.of_absent.1 ▸ rfl) hopen (fun _ _ => rfl)
    ⟨_, .waited, hnil ▸ List.nil_prefix⟩ rfl rfl rfl rfl ⟨?_, hnil⟩
  simp only [Server.isOpen, update_self]

/-- A handler gets to another point. -/
theorem setHandler (hT : Told s) (hH : H.Story (s.isOpen c) (heard s.ops c)) :
    Told (s.setHandler c H) :=
  ⟨hT.channel, hT.stories.setHandler hH⟩

theorem greet (hT : Told s) (hI : Inv s P) (pc : s.handlers c = .greeting me) :
    Told ((s.send (some c) (s.fd c) (ascii "WAIT")).setHandler c (.matching me)) := by
  obtain ⟨hl, hnil⟩ : s.isOpen c ∧ heard s.ops c = [] :=
    hT.stories.at_pc pc
  have hat := hI.at_pc pc
  obtain ⟨ops, hsend, hC, hheard⟩ := hT.channel.send hl says_wait
  rw [hnil, List.nil_append] at hheard
  rw [hsend]
  have hself : heard ops c = [.wait] := by rw [hheard, update_self]
  refine ⟨hC, hT.stories.of_private hI (c := c) (hat.of_greeting.1 ▸ rfl) (fun _ _ h => h) ?_ ?_
    rfl rfl rfl rfl ⟨hl, hself⟩⟩
  · intro d hd
    simp only [Server.setHandler, hheard, update_of_ne hd]
  · exact ⟨_, .waited, hself ▸ List.prefix_rfl⟩

/-- A call of a handler that returns. -/
theorem act (hT : Told s) (hI : Inv s P) {b : Act} {todo : List Act}
    (pc : s.handlers c = .finishing (b :: todo)) :
    Told ((s.act c b).setHandler c (.finishing todo)) := by
  have hstory : Owes (s.isOpen c) (heard s.ops c) ((b :: todo).filterMap Act.text) :=
    hT.stories.at_pc pc
  have hat := hI.at_pc pc
  have hlt : c < s.conns := hI.lt (pc ▸ nofun)
  have hpriv : (P c).shared = false := by
    rcases hat.of_finishing with ⟨h, -⟩ | ⟨a, name, h, -⟩ <;> rw [h] <;> rfl
  cases b with
  | send text =>
      obtain ⟨hl, more, hmore, hword⟩ := hstory (List.cons_ne_nil _ _)
      have htexts : (Act.send text :: todo).filterMap Act.text = text :: todo.filterMap Act.text :=
        rfl
      rw [htexts] at hmore
      cases hmore with
      | @cons _ k _ more hk hmore =>
          obtain ⟨ops, hsend, hC, hheard⟩ := hT.channel.send hl hk
          have hself : heard ops c = heard s.ops c ++ [k] := by rw [hheard, update_self]
          rw [List.append_cons, ← hself] at hword
          rw [Server.act, hsend]
          refine ⟨hC, hT.stories.of_private hI hpriv (fun _ _ h => h) ?_ ?_ rfl rfl rfl rfl ?_⟩
          · intro d hd
            simp only [Server.setHandler, hheard, update_of_ne hd]
          · exact ⟨_, hword, List.prefix_append _ _⟩
          · exact fun _ => ⟨hl, more, hmore, hword⟩
  | close =>
      obtain ⟨hC, hopen⟩ := hT.channel.close hlt (s.fds (s.fd c))
      refine ⟨hC, hT.stories.of_private hI hpriv hopen (fun d _ => ?_) ?_ rfl rfl rfl rfl ?_⟩
      · exact congrFun (heard_closed ..) d
      · exact (congrFun (heard_closed ..) c).symm ▸ hT.stories.word c
      · exact fun hno => absurd hat.texts_close hno
  | free a => exact ⟨hT.channel, hT.stories.of_handler rfl rfl rfl rfl hstory⟩

/-- A call of a game thread. -/
theorem effect (hT : Told s) (hI : Inv s P) {p₁ p₂ : Addr} {b : Effect} {todo : List Effect}
    {t : Thread} (pc : s.games g = .running p₁ p₂ (b :: todo) t)
    (seat : (s.games g).seat b.who = some a) :
    Told ((s.effect a b).setGame g (.running p₁ p₂ todo t)) := by
  obtain ⟨c, hc⟩ := hI.in_game seat
  obtain ⟨-, hown, name, -, hobj⟩ := hI.object c a (hc ▸ rfl)
  have hcalls : Calls (b :: todo) t := by
    have h := hT.stories.calls g
    rw [pc] at h
    exact h
  have hseats : ∀ {p x}, (Game.running p₁ p₂ todo t).seat p = some x →
      (s.games g).seat p = some x := by
    intro p x hx
    rw [pc]
    cases p <;> exact hx
  have hstory : ∀ {p x d}, (Game.running p₁ p₂ todo t).seat p = some x → s.owner x = some d →
      Continues p (b :: todo) t (heard s.ops d) ∧
        (t.ended = false ∨ (∃ e ∈ b :: todo, IsSend e) → s.isOpen d) := by
    intro p x d hx ho
    have h := hT.stories.player g p x d (hseats hx) ho
    rw [pc] at h
    exact h
  -- a player in another seat is another client
  have hother : ∀ {p x d}, (Game.running p₁ p₂ todo t).seat p = some x → s.owner x = some d →
      p ≠ b.who → d ≠ c := by
    rintro p x d hx ho hp rfl
    have hd := hI.game_iff.mpr ⟨hseats hx, ho⟩
    rw [hc] at hd
    exact hp (Place.game.inj hd).2.1.symm
  have hself : (Game.running p₁ p₂ todo t).seat b.who = some a := by
    rw [pc] at seat
    cases h : b.who <;> rw [h] at seat <;> exact seat
  cases b with
  | send q text =>
      obtain ⟨hcont, hopen⟩ := hstory hself hown
      obtain ⟨k, hk, hnext⟩ := hcont.send
      have hl := hopen (.inr ⟨_, List.mem_cons_self, q, text, rfl⟩)
      obtain ⟨ops, hsend, hC, hheard⟩ := hT.channel.send hl hk
      have htold : heard ops c = heard s.ops c ++ [k] := by rw [hheard, update_self]
      rw [Server.effect, hown, hobj, hsend]
      refine ⟨hC, hT.stories.of_player hI hc (fun _ _ h => h) ?_ (htold ▸ hnext.word) rfl rfl rfl
        rfl hcalls.tail ?_⟩
      · intro d hd
        simp only [Server.setGame, hheard, update_of_ne hd]
      · intro p x d hx ho
        obtain ⟨hcont, hopen⟩ := hstory hx ho
        have hlater : t.ended = false ∨ (∃ e ∈ todo, IsSend e) → s.isOpen d := fun h =>
          hopen (h.imp_right (Exists.imp fun e h => h.imp_left (List.mem_cons_of_mem _)))
        by_cases e : p = q
        · subst e
          obtain rfl := Option.some.inj (hself.symm.trans hx)
          obtain rfl := Option.some.inj (hown.symm.trans ho)
          refine ⟨?_, hlater⟩
          simp only [Server.setGame, htold]
          exact hnext
        · have hd := hother hx ho e
          refine ⟨?_, hlater⟩
          simp only [Server.setGame, hheard, update_of_ne hd]
          exact hcont.skip (if_neg (Ne.symm e))
  | close q =>
      have hlt : c < s.conns := hI.lt_of_place (by simp [hc])
      obtain ⟨hC, hopen⟩ := hT.channel.close hlt (s.fds (s.fd c))
      have hheard := heard_closed (some c) (s.fds (s.fd c)) s.ops
      rw [Server.effect, hown, hobj]
      refine ⟨hC, hT.stories.of_player hI hc hopen (fun d _ => congrFun hheard d)
        ((congrFun hheard c).symm ▸ hT.stories.word c) rfl rfl rfl rfl hcalls.tail ?_⟩
      intro p x d hx ho
      have hcont := (hstory hx ho).1.skip (show Effect.textTo p (.close q) = none from rfl)
      refine ⟨(congrFun hheard d).symm ▸ hcont, fun h => ?_⟩
      -- the loop is over, and nothing is sent any more
      exfalso
      rcases h with h | ⟨e, he, hsend⟩
      · exact not_isSend_close q ((hcalls.going h).2 _ List.mem_cons_self)
      · exact not_isSend_close q ((List.pairwise_cons.mp hcalls.order).1 e he hsend)

/-- An iteration of the loop. -/
theorem poll (hT : Told s) {p₁ p₂ : Addr} {t : Thread} {w : Wake}
    (pc : s.games g = .running p₁ p₂ [] t) (going : t.ended = false) :
    Told (s.setGame g (.running p₁ p₂ (gameTodo (iterate t w)) (iterate t w).2)) := by
  have hcalls : Calls [] t := by
    have h := hT.stories.calls g
    rw [pc] at h
    exact h
  have hsends := sends_iterate (hcalls.going going).1 w
  refine ⟨hT.channel, hT.stories.of_game rfl rfl rfl rfl hsends.calls ?_⟩
  intro p a c hseat hown
  have hold : (s.games g).seat p = some a := by
    rw [pc]
    cases p <;> exact hseat
  have hstory := hT.stories.player g p a c hold hown
  rw [pc] at hstory
  obtain ⟨⟨more, hmore, hplay, -⟩, hopen⟩ := hstory
  cases hmore
  have hplay := hplay going
  rw [List.append_nil] at hplay
  exact ⟨hsends.continues hplay p, fun _ => hopen (.inl going)⟩

/-- **Every step keeps what the clients hear in order.** -/
theorem step (hT : Told s) (hI : Inv s P) (hown : OwnWithdraw s e) (hnew : NewNumber s e)
    (h : Step s e s') : Told s' := by
  cases h with
  | accept closed => exact hT.accept hI hnew
  | @spawn c ok pc =>
      have hstory := hT.stories.at_pc pc
      refine hT.setHandler ?_
      cases ok with
      | true => exact hstory
      | false => exact fun hno => absurd rfl hno
  | @receive c r pc =>
      obtain ⟨hl, hnil⟩ : s.isOpen c ∧ heard s.ops c = [] :=
        hT.stories.at_pc pc
      refine hT.setHandler ?_
      rw [hnil]
      exact story_openReply hl r
  | @refuse c name pc taken =>
      obtain ⟨hl, hnil⟩ : s.isOpen c ∧ heard s.ops c = [] :=
        hT.stories.at_pc pc
      refine hT.setHandler ?_
      rw [hnil]
      exact owes_fail rfl hl (says_fail (by simp)) (.refused (.inr (.inr rfl)))
  | @register c name pc unused =>
      have hstory := hT.stories.at_pc pc
      exact ⟨hT.channel, hT.stories.of_handler rfl rfl rfl rfl hstory⟩
  | alloc pc unused => exact ⟨hT.channel, hT.stories.alloc hI pc unused⟩
  | greet pc => exact hT.greet hI pc
  | take pc empty => exact ⟨hT.channel, hT.stories.take hI pc⟩
  | @pair c me o ok pc waits G start =>
      refine ⟨hT.channel, hT.stories.pair hI pc waits ?_ ?_ ?_⟩
      · intro p
        subst start
        cases ok <;> cases p <;> rfl
      · subst start
        cases ok with
        | true => exact calls_prologue _ _
        | false => trivial
      · intro p l hl
        subst start
        cases ok with
        | true => exact ⟨continues_prologue _ _ p, fun _ => hl⟩
        | false => trivial
  | matched pc away => exact hT.setHandler fun hno => absurd rfl hno
  | @withdraw c me ret pc here ready =>
      exact ⟨hT.channel, hT.stories.withdraw here (hown me (waits_eq_some.mpr pc) here ready)⟩
  | again => exact hT
  | @reply c me r pc =>
      obtain ⟨hl, hwait⟩ : s.isOpen c ∧ heard s.ops c = [.wait] :=
        hT.stories.at_pc pc
      refine hT.setHandler ?_
      rw [hwait]
      exact story_withdrawReply hl r me
  | act pc => exact hT.act hI pc
  | effect pc seat => exact hT.effect hI pc seat
  | poll pc going => exact hT.poll pc going
  | unregister | release =>
      exact ⟨hT.channel, hT.stories.of_game rfl rfl rfl rfl trivial nofun⟩

end Told

theorem told_initial : Told initial where
  channel := ⟨nofun, nofun, nofun⟩
  stories :=
    ⟨fun _ => ⟨_, .waited, List.nil_prefix⟩, fun _ => rfl, nofun, fun _ => trivial, nofun⟩

/-! ### The protocol -/

/-- A player in a game has nothing to wait for from its handler. -/
theorem At.texts_handed {pc : Handler} {z : Place} {r : Option Name} (h : At pc z r)
    (hz : z.handed = true) : pc.texts = [] := by
  cases h with
  | stale | returned => rfl
  | absent | accepted | receiving | opened | refusing | registered | greeting | matching | waiting
  | withdrawn | leaving => cases hz

/-- Texts of known kinds are not too long. -/
theorem frame_of_says {texts : List Bytes} {ks : List Kind} (h : List.Forall₂ Says texts ks) :
    ∀ text ∈ texts, ∃ msg, frame text = some msg := by
  induction h with
  | nil => exact fun text ht => absurd ht List.not_mem_nil
  | cons hk _ ih =>
      obtain ⟨msg, hf, -⟩ := hk
      exact List.forall_mem_cons.mpr ⟨⟨msg, hf⟩, ih⟩

namespace Told

/-- Who sends to a client: its handler, or the thread of its game. -/
theorem sender (hT : Told s) (hI : Inv s P) {k : Sender} (h : Pending s c k) :
    k = .handler c ∧ (s.handlers c).texts ≠ [] ∨ ∃ g p a, k = .game g ∧ P c = .game g p a := by
  cases h with
  | @handler d h belongs =>
      obtain ⟨hlt, hfd⟩ := hT.channel.back _ _ belongs
      have hd : d < s.conns := by
        refine hI.lt fun habsent => h ?_
        rw [habsent]
        rfl
      obtain rfl := hT.channel.inj c hlt d hd hfd
      exact .inl ⟨rfl, h⟩
  | @game g p a seat h belongs =>
      obtain ⟨d, hP⟩ := hI.in_game seat
      obtain ⟨-, -, name, -, hobj⟩ := hI.object d a (hP ▸ rfl)
      rw [hobj] at belongs
      obtain ⟨hlt, hfd⟩ := hT.channel.back _ _ belongs
      have hd : d < s.conns := hI.lt_of_place (hP ▸ nofun)
      obtain rfl := hT.channel.inj c hlt d hd hfd
      exact .inr ⟨g, p, a, rfl, hP⟩

theorem one_sender (hT : Told s) (hI : Inv s P) {k k' : Sender} (h : Pending s c k)
    (h' : Pending s c k') : k = k' := by
  have hno : ∀ {g p a}, P c = .game g p a → (s.handlers c).texts = [] := fun hP =>
    (hI.handler c).texts_handed (hP ▸ rfl)
  rcases hT.sender hI h with ⟨rfl, ht⟩ | ⟨g, p, a, rfl, hP⟩ <;>
    rcases hT.sender hI h' with ⟨rfl, ht'⟩ | ⟨g', p', a', rfl, hP'⟩
  · rfl
  · exact absurd (hno hP') ht
  · exact absurd (hno hP) ht'
  · rw [hP] at hP'
    rw [(Place.game.inj hP').1]

theorem handler_sends (hT : Told s) (d : Cid) :
    ∀ text ∈ (s.handlers d).texts, ∃ msg, frame text = some msg := by
  have hstory := hT.stories.handler d
  cases hH : s.handlers d with
  | greeting me =>
      intro text ht
      obtain rfl := List.mem_singleton.mp ht
      obtain ⟨msg, hf, -⟩ := says_wait
      exact ⟨msg, hf⟩
  | finishing todo =>
      intro text ht
      rw [hH] at hstory
      obtain ⟨-, more, hmore, -⟩ := hstory (List.ne_nil_of_mem ht)
      exact frame_of_says hmore text ht
  | absent | accepted | receiving | opened | registered | matching | waiting | withdrawn =>
      exact fun text ht => absurd ht List.not_mem_nil

theorem game_sends (hT : Told s) (hI : Inv s P) (g : Gid) (p : Seat) :
    ∀ text ∈ (s.games g).texts p, ∃ msg, frame text = some msg := by
  cases hG : s.games g with
  | running p₁ p₂ todo t =>
      obtain ⟨a, hseat⟩ : ∃ a, (s.games g).seat p = some a := by
        rw [hG]
        cases p <;> exact ⟨_, rfl⟩
      obtain ⟨c, hc⟩ := hI.in_game hseat
      have hstory := hT.stories.player g p a c hseat (hI.owner (hc ▸ rfl))
      rw [hG] at hstory
      obtain ⟨⟨more, hmore, -⟩, -⟩ := hstory
      exact frame_of_says hmore
  | absent | unstarted | freeing => exact fun text ht => absurd ht List.not_mem_nil

theorem outputProtocol (hT : Told s) (hI : Inv s P) : OutputProtocol s where
  word := hT.stories.word
  reaches := hT.channel.reaches
  one_sender _ _ _ h h' := hT.one_sender hI h h'
  handler_sends := hT.handler_sends
  game_sends := hT.game_sends hI

end Told

/-- **The output of the server.**  For every number of clients and every interleaving of the
threads, when no address and no descriptor number is used twice: what every client hears is the
beginning of a word of the grammar, and reaches it; no two threads have something to send to one
client; and every text that a thread has to send fits a frame. -/
theorem output_protocol {es : List Event} (h : Run step Unique initial es s) :
    OutputProtocol s := by
  have hinv : Apart s ∧ Told s := by
    refine h.invariant (I := fun s => Apart s ∧ Told s) ?_ ⟨apart_initial, told_initial⟩
    rintro s e s' ⟨hA, hT⟩ ⟨hok, hnew⟩ hstep
    obtain ⟨P, hI⟩ := hA.places
    exact ⟨hA.step hok (step_cases hstep),
      hT.step hI (hA.ownWithdraw e) hnew (step_cases hstep)⟩
  obtain ⟨P, hI⟩ := hinv.1.places
  exact hinv.2.outputProtocol hI

instance (s : Server) : (e : Event) → Decidable (NewNumber s e)
  | .accept fd => inferInstanceAs (Decidable (∀ c < s.conns, s.fd c ≠ fd))
  | .spawn .. | .receive .. | .register _ | .alloc .. | .greet _ | .enter .. | .recheck ..
  | .reply .. | .act _ | .effect _ | .poll .. | .unregister _ | .release _ => .isTrue trivial

instance (s : Server) (e : Event) : Decidable (Unique s e) :=
  inferInstanceAs (Decidable (NoReuse s e ∧ NewNumber s e))

theorem sampleEvents_unique : (Run.exec step Unique initial sampleEvents).isSome = true := by
  decide +kernel

theorem output_protocol_sample :
    OutputProtocol ((Run.exec step Unique initial sampleEvents).get sampleEvents_unique) :=
  output_protocol (Run.of_isSome sampleEvents_unique)

end CS214.Nim
