import CS214.Nim.Matchmaking

/-!
# Nim — whether every player is served

Here addresses are used any number of times, and the `pthread_create` of a game may fail.  An
object is in use in one way at a time (`Objects`): whichever handler takes the object out of the
slot, the slot is empty then, and the name that is removed is the one in the object.

* `names_served`: as long as every game is started, every name on the list is that of a player who
  is being served.
* `names_not_served`: a game that is not started keeps two names on the list.
-/

namespace CS214.Nim

open CString Function

variable {s s' : Server} {c d : Cid} {g : Gid} {a me : Addr} {e : Event} {name : Name}

/-! ### Objects in use -/

/-- How an object is in use: before the matching step, in the slot, in a seat, or on its way to be
freed. -/
inductive Use where
  | lobby (c : Cid)
  | slot
  | seat (g : Gid) (p : Seat)
  | leaving (c : Cid)
  | freeing (g : Gid)
deriving DecidableEq

/-- The player is being served. -/
def Use.serves : Use → Bool
  | .lobby _ | .slot | .seat _ _ => true
  | .leaving _ | .freeing _ => false

/-- The object of a handler before the matching step. -/
def Handler.object : Handler → Option Addr
  | .greeting me | .matching me => some me
  | _ => none

/-- The object at `a` is in use this way.  A seat is one of a game whether its thread runs or could
not be created. -/
def InUse (s : Server) (a : Addr) : Use → Prop
  | .lobby c => (s.handlers c).object = some a
  | .slot => s.waiting = some a
  | .seat g p => (s.games g).seat p = some a
  | .leaving c => .free a ∈ (s.handlers c).frees
  | .freeing g => a ∈ (s.games g).frees

variable {u v : Use}

/-- A handler gets to another point. -/
theorem InUse.of_handler {H : Handler} (hh : s'.handlers = update s.handlers c H)
    (hw : s'.waiting = s.waiting) (hg : s'.games = s.games)
    (ho : ∀ b, H.object = some b → (s.handlers c).object = some b)
    (hf : ∀ b, .free b ∈ H.frees → .free b ∈ (s.handlers c).frees) (h : InUse s' a u) :
    InUse s a u := by
  cases u with
  | lobby d =>
      simp only [InUse, hh, update_apply] at h ⊢
      split at h
      · next e => exact e ▸ ho a h
      · exact h
  | leaving d =>
      simp only [InUse, hh, update_apply] at h ⊢
      split at h
      · next e => exact e ▸ hf a h
      · exact h
  | slot => simpa only [InUse, hw] using h
  | seat g p => simpa only [InUse, hg] using h
  | freeing g => simpa only [InUse, hg] using h

/-- A game gets to another point. -/
theorem InUse.of_game {G : Game} (hh : s'.handlers = s.handlers) (hw : s'.waiting = s.waiting)
    (hg : s'.games = update s.games g G)
    (hs : ∀ p b, G.seat p = some b → (s.games g).seat p = some b)
    (hf : ∀ b ∈ G.frees, b ∈ (s.games g).frees) (h : InUse s' a u) : InUse s a u := by
  cases u with
  | lobby d => simpa only [InUse, hh] using h
  | leaving d => simpa only [InUse, hh] using h
  | slot => simpa only [InUse, hw] using h
  | seat g' p =>
      simp only [InUse, hg, update_apply] at h ⊢
      split at h
      · next e => exact e ▸ hs p a h
      · exact h
  | freeing g' =>
      simp only [InUse, hg, update_apply] at h ⊢
      split at h
      · next e => exact e ▸ hf a h
      · exact h

/-- Every use is what a use before has become, of the same object. -/
def Traced (s s' : Server) : Prop :=
  ∃ f : Use → Use, (∀ u c, f u = .lobby c → u = .lobby c) ∧
    ∀ a u, InUse s' a u → ∃ v, InUse s a v ∧ f v = u

theorem Traced.of_sub (h : ∀ a u, InUse s' a u → InUse s a u) : Traced s s' :=
  ⟨id, fun _ _ e => e, fun a u hu => ⟨u, h a u hu, rfl⟩⟩

/-- What the calls of a handler and of a game thread change. -/
theorem act_shape (s : Server) (c : Cid) (b : Act) :
    ∃ ops fds alloc, s.act c b = { s with ops := ops, fds := fds, allocated := alloc } ∧
      (alloc = s.allocated ∨ ∃ a, b = .free a ∧ alloc = update s.allocated a false) := by
  cases b with
  | send text =>
      rw [Server.act, Server.send]
      split
      · exact ⟨_, _, _, rfl, .inl rfl⟩
      · exact ⟨_, _, _, rfl, .inl rfl⟩
  | close => exact ⟨_, _, _, rfl, .inl rfl⟩
  | free a => exact ⟨_, _, _, rfl, .inr ⟨a, rfl, rfl⟩⟩

theorem send_shape (s : Server) (k : Option Cid) (fd : Fd) (text : Bytes) :
    ∃ ops, s.send k fd text = { s with ops := ops } := by
  rw [Server.send]
  split
  · exact ⟨_, rfl⟩
  · exact ⟨_, rfl⟩

theorem effect_shape (s : Server) (p : Addr) (b : Effect) :
    ∃ ops fds, s.effect p b = { s with ops := ops, fds := fds } := by
  cases b with
  | send q text =>
      obtain ⟨ops, h⟩ := send_shape s (s.owner p) (s.players p).fd text
      exact ⟨ops, s.fds, h⟩
  | close q => exact ⟨_, _, rfl⟩

theorem free_not_mem_openReply (r : Received) (a : Addr) : .free a ∉ (openReply r).frees := by
  rcases openReply_cases r with h | ⟨text, h⟩ | ⟨name, h⟩ <;> rw [h] <;> simp [Handler.frees]

theorem object_openReply (r : Received) : (openReply r).object = none := by
  rcases openReply_cases r with h | ⟨text, h⟩ | ⟨name, h⟩ <;> rw [h] <;> rfl

theorem free_mem_withdrawReply (r : Received) (a b : Addr) :
    .free b ∈ withdrawReply r ++ [.close, .free a] ↔ b = a := by
  rcases withdrawReply_cases r with h | ⟨text, h⟩ <;> rw [h] <;> simp

/-- A handler that gets to a point without an object. -/
theorem traced_quiet {H : Handler} (hh : s'.handlers = update s.handlers c H)
    (hw : s'.waiting = s.waiting) (hg : s'.games = s.games) (ho : H.object = none)
    (hf : ∀ b, .free b ∉ H.frees) : Traced s s' := by
  refine .of_sub fun a u => .of_handler hh hw hg (fun b hb => ?_) fun b hb => absurd hb (hf b)
  rw [ho] at hb
  cases hb

/-- A use that becomes one of the lobby was that one. -/
theorem of_ite_lobby {q : Prop} [Decidable q] (h : (if q then v else u) = .lobby c)
    (hv : ∀ d, v ≠ .lobby d) : u = .lobby c := by
  split at h
  · exact absurd h (hv c)
  · exact h

/-- The waiting slot is taken. -/
theorem traced_take (pc : s.handlers c = .matching me) :
    Traced s { s.setHandler c (.waiting me) with waiting := some me } := by
  refine ⟨fun u => if u = .lobby c then .slot else u, fun u d h => of_ite_lobby h (by simp),
    fun a u h => ?_⟩
  cases u with
  | slot => exact ⟨.lobby c, by rw [InUse, pc]; exact h, if_pos rfl⟩
  | lobby d =>
      simp only [InUse, Server.setHandler, update_apply] at h
      split at h
      · cases h
      · next hne => exact ⟨.lobby d, h, if_neg fun e => hne (Use.lobby.inj e)⟩
  | leaving d =>
      simp only [InUse, Server.setHandler, update_apply] at h
      split at h
      · cases h
      · exact ⟨.leaving d, h, if_neg (by simp)⟩
  | seat g p => exact ⟨.seat g p, h, if_neg (by simp)⟩
  | freeing g => exact ⟨.freeing g, h, if_neg (by simp)⟩

/-- The waiting player and the one who comes get their seats. -/
theorem traced_pair {opponent : Addr} {G : Game} (pc : s.handlers c = .matching me)
    (waits : s.waiting = some opponent)
    (hseat : ∀ p, G.seat p = some (match p with | .one => opponent | .two => me))
    (hfrees : G.frees = []) :
    Traced s { (s.setHandler c (.finishing [])).setGame s.created G with
      waiting := none, created := s.created + 1 } := by
  refine ⟨fun u => if u = .slot then .seat s.created .one else
      if u = .lobby c then .seat s.created .two else u,
    fun u d h => of_ite_lobby (of_ite_lobby h (by simp)) (by simp), fun a u h => ?_⟩
  have same : ∀ {u : Use}, u ≠ .slot → u ≠ .lobby c → (if u = .slot then
      .seat s.created .one else if u = .lobby c then .seat s.created .two else u) = u :=
    fun h₁ h₂ => (if_neg h₁).trans (if_neg h₂)
  cases u with
  | slot => cases h
  | lobby d =>
      simp only [InUse, Server.setGame, Server.setHandler, update_apply] at h
      split at h
      · cases h
      · next hne => exact ⟨.lobby d, h, same (by simp) fun e => hne (Use.lobby.inj e)⟩
  | leaving d =>
      simp only [InUse, Server.setGame, Server.setHandler, update_apply] at h
      split at h
      · cases h
      · exact ⟨.leaving d, h, same (by simp) (by simp)⟩
  | seat g p =>
      simp only [InUse, Server.setGame, update_apply] at h
      split at h
      · next e =>
          -- the seats of the new game are those of the player in the slot and of the one who comes
          subst e
          rw [hseat] at h
          cases p with
          | one =>
              obtain rfl := Option.some.inj h
              exact ⟨.slot, waits, if_pos rfl⟩
          | two =>
              obtain rfl := Option.some.inj h
              exact ⟨.lobby c, by rw [InUse, pc]; rfl, (if_neg (by simp)).trans (if_pos rfl)⟩
      · exact ⟨.seat g p, h, same (by simp) (by simp)⟩
  | freeing g =>
      simp only [InUse, Server.setGame, update_apply] at h
      split at h
      · rw [hfrees] at h
        cases h
      · exact ⟨.freeing g, h, same (by simp) (by simp)⟩

/-- A handler takes the object in the slot for its own. -/
theorem traced_withdraw (here : s.waiting = some me) :
    Traced s { (s.remove me).setHandler c (.withdrawn me) with waiting := none } := by
  refine ⟨fun u => if u = .slot then .leaving c else u, fun u d h => of_ite_lobby h (by simp),
    fun a u h => ?_⟩
  cases u with
  | slot => cases h
  | lobby d =>
      simp only [InUse, Server.setHandler, update_apply] at h
      split at h
      · cases h
      · exact ⟨.lobby d, h, if_neg (by simp)⟩
  | leaving d =>
      simp only [InUse, Server.setHandler, update_apply] at h
      split at h
      · next e =>
          obtain rfl := Act.free.inj (List.mem_singleton.mp h)
          exact ⟨.slot, here, (if_pos rfl).trans (congrArg _ e.symm)⟩
      · exact ⟨.leaving d, h, if_neg (by simp)⟩
  | seat g p => exact ⟨.seat g p, h, if_neg (by simp)⟩
  | freeing g => exact ⟨.freeing g, h, if_neg (by simp)⟩

/-- The objects of a game that is over are left to be freed. -/
theorem traced_unregister {p₁ p₂ : Addr} {todo : List Effect} {t : Thread}
    (pc : s.games g = .running p₁ p₂ todo t) :
    Traced s (((s.remove p₁).remove p₂).setGame g (.freeing [p₁, p₂])) := by
  have ends : ∀ p, (Use.seat g p = .seat g .one ∨ Use.seat g p = .seat g .two) := by
    intro p
    cases p
    · exact .inl rfl
    · exact .inr rfl
  refine ⟨fun u => if u = .seat g .one ∨ u = .seat g .two then .freeing g else u,
    fun u d h => of_ite_lobby h nofun, fun a u h => ?_⟩
  cases u with
  | slot => exact ⟨.slot, h, if_neg (by simp)⟩
  | lobby d => exact ⟨.lobby d, h, if_neg (by simp)⟩
  | leaving d => exact ⟨.leaving d, h, if_neg (by simp)⟩
  | seat g' p =>
      simp only [InUse, Server.setGame, update_apply] at h
      split at h
      · cases h
      · next hne =>
          refine ⟨.seat g' p, h, if_neg ?_⟩
          rintro (e | e) <;> exact hne (Use.seat.inj e).1
  | freeing g' =>
      simp only [InUse, Server.setGame, update_apply] at h
      split at h
      · next e =>
          subst e
          simp only [frees_freeing, List.mem_cons, List.not_mem_nil, or_false] at h
          rcases h with rfl | rfl
          · exact ⟨.seat g' .one, by rw [InUse, pc]; rfl, if_pos (ends _)⟩
          · exact ⟨.seat g' .two, by rw [InUse, pc]; rfl, if_pos (ends _)⟩
      · exact ⟨.freeing g', h, if_neg (by simp)⟩

/-- A handler that makes a call. -/
theorem InUse.of_act {b : Act} {todo : List Act} (pc : s.handlers c = .finishing (b :: todo)) :
    InUse ((s.act c b).setHandler c (.finishing todo)) a u → InUse s a u := by
  obtain ⟨ops, fds, alloc, hact, -⟩ := act_shape s c b
  rw [hact]
  refine .of_handler (c := c) (H := .finishing todo) rfl rfl rfl nofun fun a ha => ?_
  rw [pc]
  exact List.mem_cons_of_mem _ ha

/-- A game thread that frees an object. -/
theorem InUse.of_release {todo : List Addr} (pc : s.games g = .freeing (me :: todo)) :
    InUse ((s.free me).setGame g (.freeing todo)) a u → InUse s a u := by
  refine .of_game rfl rfl rfl nofun fun b hb => ?_
  rw [pc]
  exact List.mem_cons_of_mem _ hb

/-- No step but an allocation brings an object into use. -/
theorem Step.traced (h : Step s e s') (he : ∀ c a, e ≠ .alloc c a) : Traced s s' := by
  cases h with
  | accept => exact traced_quiet rfl rfl rfl rfl (by simp [Handler.frees])
  | @spawn c ok pc =>
      cases ok with
      | true => exact traced_quiet rfl rfl rfl rfl (by simp [Handler.frees])
      | false => exact traced_quiet rfl rfl rfl rfl (by simp [Handler.frees])
  | @receive c r pc =>
      exact traced_quiet rfl rfl rfl (object_openReply r) (free_not_mem_openReply r)
  | refuse => exact traced_quiet rfl rfl rfl rfl (by simp [Handler.frees])
  | register => exact traced_quiet rfl rfl rfl rfl (by simp [Handler.frees])
  | @alloc c a => exact absurd rfl (he c a)
  | @greet c me pc =>
      obtain ⟨ops, hsend⟩ := send_shape s (some c) (s.fd c) (ascii "WAIT")
      rw [hsend]
      refine .of_sub fun a u => .of_handler (c := c) (H := .matching me) rfl rfl rfl ?_ ?_
      · rw [pc]
        exact fun b hb => hb
      · intro b hb
        cases hb
  | take pc => exact traced_take pc
  | @pair c me o ok pc waits G start =>
      refine traced_pair pc waits (fun p => ?_) ?_
      · subst start
        cases ok <;> cases p <;> rfl
      · subst start
        cases ok <;> rfl
  | matched => exact traced_quiet rfl rfl rfl rfl (by simp [Handler.frees])
  | withdraw pc here => exact traced_withdraw here
  | again => exact .of_sub fun _ _ h => h
  | @reply c me r pc =>
      refine .of_sub fun a u => .of_handler rfl rfl rfl (fun b hb => ?_) fun b hb => ?_
      · cases hb
      · obtain rfl := (free_mem_withdrawReply r me b).mp hb
        rw [pc]
        exact List.mem_singleton_self _
  | act pc => exact .of_sub fun a u => .of_act pc
  | @effect g p₁ p₂ p b todo t pc seat =>
      obtain ⟨ops, fds, heff⟩ := effect_shape s p b
      rw [heff]
      refine .of_sub fun a u => .of_game (g := g) (G := .running p₁ p₂ todo t) rfl rfl rfl ?_ ?_
      · rw [pc]
        intro q b hb
        cases q <;> exact hb
      · intro b hb
        cases hb
  | @poll g p₁ p₂ t w pc going =>
      refine .of_sub fun a u => .of_game rfl rfl rfl (fun q b hb => ?_) fun b hb => ?_
      · rw [pc]
        cases q <;> exact hb
      · cases hb
  | unregister pc => exact traced_unregister pc
  | release pc => exact .of_sub fun a u => .of_release pc

/-! ### What the server knows of the objects -/

/-- An object in use is allocated, in use in one way, and that of the player whose name is in
it. -/
structure Objects (s : Server) : Prop where
  single : ∀ a u v, InUse s a u → InUse s a v → u = v
  allocated : ∀ a u, InUse s a u → s.allocated a = true
  known : ∀ a u, InUse s a u → ∃ c, s.owner a = some c ∧
    s.registered c = some (s.players a).name ∧ ∀ d, u = .lobby d → d = c

/-- Before the registration of a name. -/
def Handler.early : Handler → Bool
  | .absent | .accepted | .receiving | .opened _ => true
  | _ => false

/-- Not before the allocation of the player, or never to get there. -/
def Handler.late : Handler → Bool
  | .registered _ => false
  | H => !H.early

/-- The points of the threads. -/
structure Points (s : Server) : Prop where
  early : ∀ c, (s.handlers c).early = true → s.registered c = none
  named : ∀ c name, s.handlers c = .registered name → s.registered c = some name
  acts : ∀ c, (s.handlers c).frees.Nodup
  frees : ∀ g, (s.games g).frees.Nodup
  conns : ∀ c, s.conns ≤ c → s.handlers c = .absent
  created : ∀ g, s.created ≤ g → s.games g = .absent

theorem objects_initial : Objects initial where
  single a u v h := by cases u <;> cases h
  allocated a u h := by cases u <;> cases h
  known a u h := by cases u <;> cases h

theorem points_initial : Points initial where
  early _ _ := rfl
  named _ _ h := by cases h
  acts _ := List.nodup_nil
  frees _ := List.nodup_nil
  conns _ _ := rfl
  created _ _ := rfl

namespace Points

/-- A handler that goes on. -/
theorem update_handler (hP : Points s) {H : Handler} {r : Option Name}
    (hc : s.handlers c ≠ .absent) (h₁ : s'.handlers = update s.handlers c H)
    (h₂ : s'.registered = update s.registered c r) (h₃ : s'.games = s.games)
    (h₄ : s'.conns = s.conns) (h₅ : s'.created = s.created) (he : H.early = true → r = none)
    (hn : ∀ name, H = .registered name → r = some name) (hH : H.frees.Nodup) : Points s' where
  early d hd := by
    rw [h₁, update_apply] at hd
    rw [h₂, update_apply]
    split at hd
    · next e => rw [if_pos e, he hd]
    · next e => rw [if_neg e, hP.early d hd]
  named d name hd := by
    rw [h₁, update_apply] at hd
    rw [h₂, update_apply]
    split at hd
    · next e => rw [if_pos e, hn name hd]
    · next e => rw [if_neg e, hP.named d name hd]
  acts d := by
    rw [h₁, update_apply]
    split
    · exact hH
    · exact hP.acts d
  frees := by
    rw [h₃]
    exact hP.frees
  conns d hd := by
    rw [h₄] at hd
    have hne : d ≠ c := by
      rintro rfl
      exact hc (hP.conns d hd)
    rw [h₁, update_of_ne hne, hP.conns d hd]
  created := by
    rw [h₃, h₅]
    exact hP.created

/-- A handler goes on, and its name stays. -/
theorem setHandler (hP : Points s) {H : Handler} (hc : s.handlers c ≠ .absent)
    (h₁ : s'.handlers = update s.handlers c H) (h₂ : s'.registered = s.registered)
    (h₃ : s'.games = s.games) (h₄ : s'.conns = s.conns) (h₅ : s'.created = s.created)
    (he : H.early = true → s.registered c = none)
    (hn : ∀ name, H = .registered name → s.registered c = some name) (hH : H.frees.Nodup) :
    Points s' := by
  refine hP.update_handler hc h₁ ?_ h₃ h₄ h₅ he hn hH
  rw [h₂, update_eq_self]

/-- A game goes on. -/
theorem setGame (hP : Points s) {G : Game} (hg : s.games g ≠ .absent)
    (h₁ : s'.handlers = s.handlers) (h₂ : s'.registered = s.registered)
    (h₃ : s'.games = update s.games g G) (h₄ : s'.conns = s.conns)
    (h₅ : s'.created = s.created) (hG : G.frees.Nodup) : Points s' where
  early := by
    rw [h₁, h₂]
    exact hP.early
  named := by
    rw [h₁, h₂]
    exact hP.named
  acts := by
    rw [h₁]
    exact hP.acts
  frees h := by
    rw [h₃, update_apply]
    split
    · exact hG
    · exact hP.frees h
  conns := by
    rw [h₁, h₄]
    exact hP.conns
  created h hh := by
    rw [h₅] at hh
    have hne : h ≠ g := by
      rintro rfl
      exact hg (hP.created h hh)
    rw [h₃, update_of_ne hne, hP.created h hh]

/-- A handler gets to a point behind the allocation of its player. -/
theorem late (hP : Points s) {H : Handler} (hc : s.handlers c ≠ .absent)
    (h₁ : s'.handlers = update s.handlers c H) (h₂ : s'.registered = s.registered)
    (h₃ : s'.games = s.games) (h₄ : s'.conns = s.conns) (h₅ : s'.created = s.created)
    (hl : H.late = true) (hH : H.frees.Nodup) : Points s' := by
  have hno : H.early = false := by cases H <;> first | rfl | cases hl
  refine hP.setHandler hc h₁ h₂ h₃ h₄ h₅ (fun he => ?_) (fun name hn => ?_) hH
  · rw [hno] at he
    cases he
  · rw [hn] at hl
    cases hl

/-- Who has registered a name is not before its registration. -/
theorem ne_of_early (hP : Points s) (hc : (s.handlers c).early = true)
    (hd : s.registered d = some name) : d ≠ c := by
  rintro rfl
  rw [hP.early d hc] at hd
  cases hd

theorem accept (hP : Points s) (fd : Fd) : Points { s.setHandler s.conns .accepted with
    conns := s.conns + 1
    fds := update s.fds fd (some s.conns)
    fd := update s.fd s.conns fd } where
  early d hd := by
    simp only [Server.setHandler, update_apply] at hd ⊢
    split at hd
    · next e =>
        subst e
        refine hP.early _ ?_
        rw [hP.conns _ (Nat.le_refl _)]
        rfl
    · exact hP.early d hd
  named d name hd := by
    simp only [Server.setHandler, update_apply] at hd ⊢
    split at hd
    · cases hd
    · exact hP.named d name hd
  acts d := by
    simp only [Server.setHandler, update_apply]
    split
    · exact List.nodup_nil
    · exact hP.acts d
  frees := hP.frees
  conns d hd := by
    have hlt : s.conns < d := hd
    simp only [Server.setHandler, update_of_ne hlt.ne', hP.conns d hlt.le]
  created := hP.created

theorem pair (hP : Points s) {G : Game} (pc : s.handlers c = .matching me) (hG : G.frees = []) :
    Points { (s.setHandler c (.finishing [])).setGame s.created G with
      waiting := none, created := s.created + 1 } where
  early d hd := by
    simp only [Server.setGame, Server.setHandler, update_apply] at hd ⊢
    split at hd
    · cases hd
    · exact hP.early d hd
  named d name hd := by
    simp only [Server.setGame, Server.setHandler, update_apply] at hd ⊢
    split at hd
    · cases hd
    · exact hP.named d name hd
  acts d := by
    simp only [Server.setGame, Server.setHandler, update_apply]
    split
    · exact List.nodup_nil
    · exact hP.acts d
  frees h := by
    simp only [Server.setGame, update_apply]
    split
    · rw [hG]
      exact List.nodup_nil
    · exact hP.frees h
  conns d hd := by
    have hne : d ≠ c := by
      rintro rfl
      rw [hP.conns d hd] at pc
      cases pc
    simp only [Server.setGame, Server.setHandler, update_of_ne hne, hP.conns d hd]
  created h hh := by
    have hlt : s.created < h := hh
    simp only [Server.setGame, Server.setHandler, update_of_ne hlt.ne', hP.created h hlt.le]

end Points

theorem nodup_openReply (r : Received) : (openReply r).frees.Nodup := by
  rcases openReply_cases r with h | ⟨text, h⟩ | ⟨name, h⟩ <;> rw [h] <;> simp [Handler.frees]

theorem nodup_withdrawReply (r : Received) (a : Addr) :
    (withdrawReply r ++ [Act.close, Act.free a]).Nodup := by
  rcases withdrawReply_cases r with h | ⟨text, h⟩ <;> rw [h] <;> simp

theorem openReply_ne_registered (r : Received) (name : Name) : openReply r ≠ .registered name := by
  rcases openReply_cases r with h | ⟨text, h⟩ | ⟨name, h⟩ <;> rw [h] <;> nofun

theorem Step.points (h : Step s e s') (hO : Objects s) (hP : Points s) : Points s' := by
  cases h with
  | accept => exact hP.accept _
  | @spawn c ok pc =>
      have hearly : (s.handlers c).early = true := by
        rw [pc]
        rfl
      refine hP.setHandler (by simp [pc]) rfl rfl rfl rfl rfl (fun _ => hP.early c hearly)
        (fun name h => ?_) ?_
      · cases ok <;> cases h
      · cases ok <;> simp [Handler.frees]
  | @receive c r pc =>
      have hearly : (s.handlers c).early = true := by
        rw [pc]
        rfl
      exact hP.setHandler (by simp [pc]) rfl rfl rfl rfl rfl (fun _ => hP.early c hearly)
        (fun name h => absurd h (openReply_ne_registered r name)) (nodup_openReply r)
  | refuse pc =>
      exact hP.late (by simp [pc]) rfl rfl rfl rfl rfl rfl (by simp [Handler.frees])
  | @register c name pc unused =>
      refine hP.update_handler (by simp [pc]) rfl rfl rfl rfl rfl (fun h => ?_) (fun n h => ?_)
        List.nodup_nil
      · cases h
      · exact congrArg some (Handler.registered.inj h)
  | alloc pc => exact hP.late (by simp [pc]) rfl rfl rfl rfl rfl rfl List.nodup_nil
  | @greet c me pc =>
      obtain ⟨ops, hsend⟩ := send_shape s (some c) (s.fd c) (ascii "WAIT")
      rw [hsend]
      exact hP.late (by simp [pc]) rfl rfl rfl rfl rfl rfl List.nodup_nil
  | take pc => exact hP.late (by simp [pc]) rfl rfl rfl rfl rfl rfl List.nodup_nil
  | @pair c me o ok pc waits G start =>
      refine hP.pair pc ?_
      subst start
      cases ok <;> rfl
  | matched pc => exact hP.late (by simp [pc]) rfl rfl rfl rfl rfl rfl List.nodup_nil
  | withdraw pc =>
      exact hP.late (by simp [pc]) rfl rfl rfl rfl rfl rfl (List.nodup_singleton _)
  | again => exact hP
  | @reply c me r pc =>
      exact hP.late (by simp [pc]) rfl rfl rfl rfl rfl rfl (nodup_withdrawReply r me)
  | @act c b todo pc =>
      obtain ⟨ops, fds, alloc, hact, -⟩ := act_shape s c b
      have hnodup := hP.acts c
      rw [pc] at hnodup
      rw [hact]
      exact hP.late (by simp [pc]) rfl rfl rfl rfl rfl rfl (List.nodup_cons.mp hnodup).2
  | @effect g p₁ p₂ p b todo t pc seat =>
      obtain ⟨ops, fds, heff⟩ := effect_shape s p b
      rw [heff]
      exact hP.setGame (by simp [pc]) rfl rfl rfl rfl rfl List.nodup_nil
  | poll pc => exact hP.setGame (by simp [pc]) rfl rfl rfl rfl rfl List.nodup_nil
  | @unregister g p₁ p₂ t pc ended =>
      refine hP.setGame (by simp [pc]) rfl rfl rfl rfl rfl ?_
      -- an object is in one seat
      have hne : p₁ ≠ p₂ := by
        rintro rfl
        have hone : InUse s p₁ (.seat g .one) := by rw [InUse, pc]; rfl
        have htwo : InUse s p₁ (.seat g .two) := by rw [InUse, pc]; rfl
        cases hO.single p₁ _ _ hone htwo
      simpa [Game.frees] using hne
  | @release g a todo pc =>
      have hnodup := hP.frees g
      rw [pc] at hnodup
      exact hP.setGame (by simp [pc]) rfl rfl rfl rfl rfl (List.nodup_cons.mp hnodup).2

namespace Objects

/-- The name that a player has registered is the one in the object. -/
theorem name_of (hO : Objects s) (hu : InUse s a u) (hown : s.owner a = some c)
    (hreg : s.registered c = some name) : name = (s.players a).name := by
  obtain ⟨d, hown', hreg', -⟩ := hO.known a u hu
  obtain rfl := Option.some.inj (hown.symm.trans hown')
  exact Option.some.inj (hreg.symm.trans hreg')

/-- A step that allocates nothing and frees nothing that is still in use. -/
theorem of_traced (hO : Objects s) (ht : Traced s s') (hp : s'.players = s.players)
    (ho : s'.owner = s.owner)
    (hr : ∀ c name, s.registered c = some name → s'.registered c = some name)
    (ha : ∀ a u, InUse s' a u → s'.allocated a = s.allocated a) : Objects s' := by
  obtain ⟨f, hf, hfrom⟩ := ht
  refine ⟨fun a u v hu hv => ?_, fun a u hu => ?_, fun a u hu => ?_⟩
  · -- two uses of an object came of two uses of it
    obtain ⟨u₀, hu₀, rfl⟩ := hfrom a u hu
    obtain ⟨v₀, hv₀, rfl⟩ := hfrom a v hv
    rw [hO.single a u₀ v₀ hu₀ hv₀]
  · obtain ⟨u₀, hu₀, -⟩ := hfrom a u hu
    rw [ha a u hu, hO.allocated a u₀ hu₀]
  · obtain ⟨u₀, hu₀, rfl⟩ := hfrom a u hu
    obtain ⟨c, hown, hreg, hlobby⟩ := hO.known a u₀ hu₀
    exact ⟨c, by rw [ho, hown], by rw [hp, hr c _ hreg], fun d hd => hlobby d (hf _ _ hd)⟩

/-- An address that is not allocated is that of a new object. -/
theorem alloc (hO : Objects s) (hP : Points s) (pc : s.handlers c = .registered name)
    (unused : s.allocated a = false) :
    Objects { s.setHandler c (.greeting a) with
      players := update s.players a ⟨s.fd c, name⟩
      allocated := update s.allocated a true
      owner := update s.owner a (some c) } := by
  -- no other use of the address
  have hnew : ∀ {b u}, InUse { s.setHandler c (.greeting a) with
      players := update s.players a ⟨s.fd c, name⟩
      allocated := update s.allocated a true
      owner := update s.owner a (some c) } b u → u = .lobby c ∧ b = a ∨ InUse s b u ∧ b ≠ a := by
    intro b u hu
    have hold : InUse s b u → b ≠ a := by
      rintro hb rfl
      rw [hO.allocated b u hb] at unused
      cases unused
    cases u with
    | lobby d =>
        simp only [InUse, Server.setHandler, update_apply] at hu
        split at hu
        · next e =>
            obtain rfl := Option.some.inj hu
            exact .inl ⟨by rw [e], rfl⟩
        · exact .inr ⟨hu, hold hu⟩
    | leaving d =>
        simp only [InUse, Server.setHandler, update_apply] at hu
        split at hu
        · cases hu
        · exact .inr ⟨hu, hold hu⟩
    | slot => exact .inr ⟨hu, hold hu⟩
    | seat g p => exact .inr ⟨hu, hold hu⟩
    | freeing g => exact .inr ⟨hu, hold hu⟩
  refine ⟨fun b u v hu hv => ?_, fun b u hu => ?_, fun b u hu => ?_⟩
  · rcases hnew hu with ⟨rfl, rfl⟩ | ⟨hu, hne⟩
    · rcases hnew hv with ⟨rfl, -⟩ | ⟨-, hne⟩
      · rfl
      · exact absurd rfl hne
    · rcases hnew hv with ⟨-, rfl⟩ | ⟨hv, -⟩
      · exact absurd rfl hne
      · exact hO.single b u v hu hv
  · rcases hnew hu with ⟨-, rfl⟩ | ⟨hu, hne⟩
    · exact update_self ..
    · simpa only [update_of_ne hne] using hO.allocated b u hu
  · rcases hnew hu with ⟨rfl, rfl⟩ | ⟨hu, hne⟩
    · refine ⟨c, update_self .., ?_, fun d hd => (Use.lobby.inj hd).symm⟩
      simp only [update_self]
      exact hP.named c name pc
    · simpa only [update_of_ne hne, Server.setHandler] using hO.known b u hu

end Objects

theorem Step.objects (h : Step s e s') (hO : Objects s) (hP : Points s) : Objects s' := by
  by_cases halloc : ∃ c a, e = .alloc c a
  · obtain ⟨c, a, rfl⟩ := halloc
    cases h with
    | alloc pc unused => exact hO.alloc hP pc unused
  have ht := h.traced fun c a he => halloc ⟨c, a, he⟩
  have same : ∀ c name, s.registered c = some name → s.registered c = some name := fun _ _ h => h
  cases h with
  | accept | spawn | receive | refuse | take | pair | matched | withdraw | reply | poll
  | unregister => exact hO.of_traced ht rfl rfl same fun _ _ _ => rfl
  | again => exact hO
  | alloc => exact absurd ⟨_, _, rfl⟩ halloc
  | @register c name pc unused =>
      refine hO.of_traced ht rfl rfl (fun d n hd => ?_) fun _ _ _ => rfl
      have hne : d ≠ c := hP.ne_of_early (by rw [pc]; rfl) hd
      simpa only [update_of_ne hne] using hd
  | @greet c me pc =>
      obtain ⟨ops, hsend⟩ := send_shape s (some c) (s.fd c) (ascii "WAIT")
      rw [hsend] at ht ⊢
      exact hO.of_traced ht rfl rfl same fun _ _ _ => rfl
  | @effect g p₁ p₂ p b todo t pc seat =>
      obtain ⟨ops, fds, heff⟩ := effect_shape s p b
      rw [heff] at ht ⊢
      exact hO.of_traced ht rfl rfl same fun _ _ _ => rfl
  | @act c b todo pc =>
      have hsub : ∀ a u, InUse ((s.act c b).setHandler c (.finishing todo)) a u → InUse s a u :=
        fun a u => .of_act pc
      obtain ⟨ops, fds, alloc, hact, hfree⟩ := act_shape s c b
      rw [hact] at ht hsub ⊢
      refine hO.of_traced ht rfl rfl same fun a u hu => ?_
      rcases hfree with rfl | ⟨b', rfl, rfl⟩
      · rfl
      · -- what is freed is not in use any more
        have hne : a ≠ b' := by
          rintro rfl
          have hleaving : InUse s a (.leaving c) := by
            rw [InUse, pc]
            exact List.mem_cons_self
          obtain rfl := hO.single a _ _ hleaving (hsub a u hu)
          have hnodup := hP.acts c
          rw [pc] at hnodup
          simp only [InUse, Server.setHandler, update_self] at hu
          exact (List.nodup_cons.mp hnodup).1 hu
        exact update_of_ne hne ..
  | @release g b todo pc =>
      refine hO.of_traced ht rfl rfl same fun a u hu => ?_
      have hne : a ≠ b := by
        rintro rfl
        have hfreeing : InUse s a (.freeing g) := by
          rw [InUse, pc]
          exact List.mem_cons_self
        obtain rfl := hO.single a _ _ hfreeing (hu.of_release pc)
        have hnodup := hP.frees g
        rw [pc] at hnodup
        simp only [InUse, Server.setGame, update_self] at hu
        exact (List.nodup_cons.mp hnodup).1 hu
      exact update_of_ne hne ..

/-! ### Who is served -/

/-- The player of connection `c` is before the matching step, in the slot, or in a game. -/
def Served (s : Server) (c : Cid) : Prop :=
  (∃ name, s.handlers c = .registered name) ∨
    ∃ a u, u.serves = true ∧ InUse s a u ∧ s.owner a = some c

/-- The names on the list are those of players who are served. -/
structure Listed (s : Server) : Prop where
  nodup : s.names.Nodup
  served : ∀ name ∈ s.names, ∃ c, s.registered c = some name ∧ Served s c

theorem Served.mono (h : Served s d)
    (hreg : ∀ name, s.handlers d = .registered name → Served s' d)
    (huse : ∀ a u, u.serves = true → InUse s a u → s.owner a = some d →
      ∃ v, v.serves = true ∧ InUse s' a v ∧ s'.owner a = some d) : Served s' d := by
  rcases h with ⟨name, h⟩ | ⟨a, u, hu, h, hown⟩
  · exact hreg name h
  · obtain ⟨v, hv, h', hown'⟩ := huse a u hu h hown
    exact .inr ⟨a, v, hv, h', hown'⟩

/-- A handler that has registered its name and not allocated its player stays there while another
one goes on. -/
theorem registered_update {H : Handler} (hn : ∀ name, s.handlers c ≠ .registered name)
    (h : s.handlers d = .registered name) : update s.handlers c H d = .registered name := by
  have hne : d ≠ c := by
    rintro rfl
    exact hn name h
  rw [update_of_ne hne, h]

/-- A handler gets to another point, with the object it had. -/
theorem Served.of_handler (h : Served s d) {H : Handler}
    (hh : s'.handlers = update s.handlers c H) (hw : s'.waiting = s.waiting)
    (hg : s'.games = s.games) (ho : s'.owner = s.owner)
    (hn : ∀ name, s.handlers c ≠ .registered name)
    (hb : ∀ b, (s.handlers c).object = some b → H.object = some b) : Served s' d := by
  refine h.mono (fun name hname => .inl ⟨name, ?_⟩) fun a u hu huse hown => ⟨u, hu, ?_, ho ▸ hown⟩
  · rw [hh]
    exact registered_update hn hname
  · cases u with
    | lobby k =>
        simp only [InUse, hh, update_apply] at huse ⊢
        split
        · next e => exact hb a (e ▸ huse)
        · exact huse
    | slot => simpa only [InUse, hw] using huse
    | seat g p => simpa only [InUse, hg] using huse
    | leaving k => cases hu
    | freeing g => cases hu

/-- A game gets to another point, with the players it had. -/
theorem Served.of_game (h : Served s d) {G : Game} (hh : s'.handlers = s.handlers)
    (hw : s'.waiting = s.waiting) (hg : s'.games = update s.games g G)
    (ho : s'.owner = s.owner) (hs : ∀ p b, (s.games g).seat p = some b → G.seat p = some b) :
    Served s' d := by
  refine h.mono (fun name hname => .inl ⟨name, hh ▸ hname⟩) fun a u hu huse hown =>
    ⟨u, hu, ?_, ho ▸ hown⟩
  cases u with
  | lobby k => simpa only [InUse, hh] using huse
  | slot => simpa only [InUse, hw] using huse
  | seat g' p =>
      simp only [InUse, hg, update_apply] at huse ⊢
      split
      · next e => exact hs p a (e ▸ huse)
      · exact huse
  | leaving k => cases hu
  | freeing g' => cases hu

theorem Served.alloc (hO : Objects s) (pc : s.handlers c = .registered name)
    (unused : s.allocated a = false) (h : Served s d) :
    Served { s.setHandler c (.greeting a) with
      players := update s.players a ⟨s.fd c, name⟩
      allocated := update s.allocated a true
      owner := update s.owner a (some c) } d := by
  by_cases e : d = c
  · subst e
    refine .inr ⟨a, .lobby d, rfl, ?_, update_self ..⟩
    simp only [InUse, Server.setHandler, update_self, Handler.object]
  · refine h.mono (fun n hn => .inl ⟨n, ?_⟩) fun b u hu huse hown => ⟨u, hu, ?_, ?_⟩
    · simpa only [Server.setHandler, update_of_ne e] using hn
    · cases u with
      | lobby k =>
          have hne : k ≠ c := by
            rintro rfl
            rw [InUse, pc] at huse
            cases huse
          simpa only [InUse, Server.setHandler, update_of_ne hne] using huse
      | slot => exact huse
      | seat g p => exact huse
      | leaving k => cases hu
      | freeing g => cases hu
    · have hne : b ≠ a := by
        rintro rfl
        rw [hO.allocated b u huse] at unused
        cases unused
      simpa only [update_of_ne hne] using hown

/-- The player of a handler gets into the slot. -/
theorem Served.take (pc : s.handlers c = .matching me) (empty : s.waiting = none)
    (h : Served s d) : Served { s.setHandler c (.waiting me) with waiting := some me } d := by
  refine h.mono (fun n hn => .inl ⟨n, registered_update (pc ▸ nofun) hn⟩)
    fun b u hu huse hown => ?_
  cases u with
  | lobby k =>
      by_cases e : k = c
      · subst e
        rw [InUse, pc] at huse
        obtain rfl := Option.some.inj huse
        exact ⟨.slot, rfl, rfl, hown⟩
      · refine ⟨.lobby k, rfl, ?_, hown⟩
        simpa only [InUse, Server.setHandler, update_of_ne e] using huse
  | slot =>
      rw [InUse, empty] at huse
      cases huse
  | seat g p => exact ⟨.seat g p, rfl, huse, hown⟩
  | leaving k => cases hu
  | freeing g => cases hu

/-- Two players get into a game. -/
theorem Served.pair (hP : Points s) {opponent : Addr} {G : Game} (pc : s.handlers c = .matching me)
    (waits : s.waiting = some opponent)
    (hseat : ∀ p, G.seat p = some (match p with | .one => opponent | .two => me))
    (h : Served s d) :
    Served { (s.setHandler c (.finishing [])).setGame s.created G with
      waiting := none, created := s.created + 1 } d := by
  refine h.mono (fun n hn => .inl ⟨n, registered_update (pc ▸ nofun) hn⟩)
    fun b u hu huse hown => ?_
  cases u with
  | lobby k =>
      by_cases e : k = c
      · subst e
        rw [InUse, pc] at huse
        obtain rfl := Option.some.inj huse
        refine ⟨.seat s.created .two, rfl, ?_, hown⟩
        simp only [InUse, Server.setGame, update_self, hseat]
      · refine ⟨.lobby k, rfl, ?_, hown⟩
        simpa only [InUse, Server.setGame, Server.setHandler, update_of_ne e] using huse
  | slot =>
      rw [InUse, waits] at huse
      obtain rfl := Option.some.inj huse
      refine ⟨.seat s.created .one, rfl, ?_, hown⟩
      simp only [InUse, Server.setGame, update_self, hseat]
  | seat g p =>
      refine ⟨.seat g p, rfl, ?_, hown⟩
      -- the number of the new game is not that of another one
      have hne : g ≠ s.created := by
        rintro rfl
        rw [InUse, hP.created _ (Nat.le_refl _)] at huse
        cases p <;> cases huse
      simpa only [InUse, Server.setGame, Server.setHandler, update_of_ne hne] using huse
  | leaving k => cases hu
  | freeing g => cases hu

/-- The player in the slot is not served any more, and its name is taken off the list. -/
theorem Served.withdraw (hO : Objects s) (pc : s.handlers c = .waiting me)
    (here : s.waiting = some me) (hreg : s.registered d = some name)
    (hne : name ≠ (s.players me).name) (h : Served s d) :
    Served { (s.remove me).setHandler c (.withdrawn me) with waiting := none } d := by
  refine h.mono (fun n hn => .inl ⟨n, registered_update (pc ▸ nofun) hn⟩)
    fun b u hu huse hown => ?_
  cases u with
  | lobby k =>
      have hkc : k ≠ c := by
        rintro rfl
        rw [InUse, pc] at huse
        cases huse
      refine ⟨.lobby k, rfl, ?_, hown⟩
      simpa only [InUse, Server.remove, Server.setHandler, update_of_ne hkc] using huse
  | slot =>
      -- the object is that of the player whose name is removed
      have hname := hO.name_of huse hown hreg
      rw [InUse, here] at huse
      obtain rfl := Option.some.inj huse
      exact absurd hname hne
  | seat g p => exact ⟨.seat g p, rfl, huse, hown⟩
  | leaving k => cases hu
  | freeing g => cases hu

/-- The players of a game that is over are not served any more, and their names are taken off the
list. -/
theorem Served.unregister (hO : Objects s) {p₁ p₂ : Addr} {todo : List Effect} {t : Thread}
    (pc : s.games g = .running p₁ p₂ todo t) (hreg : s.registered d = some name)
    (hne₁ : name ≠ (s.players p₁).name) (hne₂ : name ≠ (s.players p₂).name) (h : Served s d) :
    Served (((s.remove p₁).remove p₂).setGame g (.freeing [p₁, p₂])) d := by
  refine h.mono (fun n hn => .inl ⟨n, hn⟩) fun b u hu huse hown => ?_
  cases u with
  | lobby k => exact ⟨.lobby k, rfl, huse, hown⟩
  | slot => exact ⟨.slot, rfl, huse, hown⟩
  | seat g' p =>
      have hgg : g' ≠ g := by
        rintro rfl
        have hname := hO.name_of huse hown hreg
        rw [InUse, pc] at huse
        cases p with
        | one =>
            obtain rfl := Option.some.inj huse
            exact hne₁ hname
        | two =>
            obtain rfl := Option.some.inj huse
            exact hne₂ hname
      refine ⟨.seat g' p, rfl, ?_, hown⟩
      simpa only [InUse, Server.remove, Server.setGame, update_of_ne hgg] using huse
  | leaving k => cases hu
  | freeing g' => cases hu

namespace Listed

/-- The list stays, and who is served stays so. -/
theorem mono (hL : Listed s) (hn : s'.names = s.names)
    (hr : ∀ c name, s.registered c = some name → s'.registered c = some name)
    (hs : ∀ d, Served s d → Served s' d) : Listed s' where
  nodup := by
    rw [hn]
    exact hL.nodup
  served name h := by
    rw [hn] at h
    obtain ⟨c, hreg, hserved⟩ := hL.served name h
    exact ⟨c, hr c name hreg, hs c hserved⟩

/-- A name is taken off the list, and who is served under another one stays so. -/
theorem erase (hL : Listed s) {n : Name} (hn : s'.names = s.names.erase n)
    (hr : s'.registered = s.registered)
    (hs : ∀ d name, s.registered d = some name → name ≠ n → Served s d → Served s' d) :
    Listed s' where
  nodup := by
    rw [hn]
    exact hL.nodup.erase n
  served name h := by
    rw [hn] at h
    obtain ⟨hne, h⟩ := hL.nodup.mem_erase_iff.mp h
    obtain ⟨c, hreg, hserved⟩ := hL.served name h
    exact ⟨c, hr ▸ hreg, hs c name hreg hne hserved⟩

theorem register (hL : Listed s) (hP : Points s) (pc : s.handlers c = .opened name)
    (unused : name ∉ s.names) : Listed { s.setHandler c (.registered name) with
      names := name :: s.names, registered := update s.registered c (some name) } where
  nodup := List.nodup_cons.mpr ⟨unused, hL.nodup⟩
  served n h := by
    rcases List.mem_cons.mp h with rfl | h
    · exact ⟨c, update_self .., .inl ⟨n, update_self ..⟩⟩
    · obtain ⟨d, hreg, hserved⟩ := hL.served n h
      have hne : d ≠ c := hP.ne_of_early (by rw [pc]; rfl) hreg
      refine ⟨d, ?_, hserved.of_handler (c := c) rfl rfl rfl rfl (pc ▸ nofun) (pc ▸ nofun)⟩
      simpa only [update_of_ne hne] using hreg

end Listed

theorem Step.listed (h : Step s e s') (hO : Objects s) (hP : Points s) (hL : Listed s) :
    Listed s' := by
  have same : ∀ c name, s.registered c = some name → s.registered c = some name := fun _ _ h => h
  cases h with
  | accept =>
      have habsent := hP.conns _ (Nat.le_refl _)
      exact hL.mono rfl same fun d hd =>
        hd.of_handler (c := s.conns) rfl rfl rfl rfl (habsent ▸ nofun) (habsent ▸ nofun)
  | spawn pc | receive pc | refuse pc | matched pc | reply pc =>
      exact hL.mono rfl same fun d hd => hd.of_handler rfl rfl rfl rfl (pc ▸ nofun) (pc ▸ nofun)
  | register pc unused => exact hL.register hP pc unused
  | alloc pc unused => exact hL.mono rfl same fun d hd => hd.alloc hO pc unused
  | @greet c me pc =>
      obtain ⟨ops, hsend⟩ := send_shape s (some c) (s.fd c) (ascii "WAIT")
      rw [hsend]
      refine hL.mono rfl same fun d hd =>
        hd.of_handler (c := c) (H := .matching me) rfl rfl rfl rfl (pc ▸ nofun) fun b hb => ?_
      rw [pc] at hb
      exact hb
  | take pc empty => exact hL.mono rfl same fun d hd => hd.take pc empty
  | @pair c me o ok pc waits G start =>
      refine hL.mono rfl same fun d hd => hd.pair hP pc waits fun p => ?_
      subst start
      cases ok <;> cases p <;> rfl
  | withdraw pc here =>
      exact hL.erase rfl rfl fun d name hreg hne hd => hd.withdraw hO pc here hreg hne
  | again => exact hL
  | @act c b todo pc =>
      obtain ⟨ops, fds, alloc, hact, -⟩ := act_shape s c b
      rw [hact]
      exact hL.mono rfl same fun d hd =>
        hd.of_handler (c := c) rfl rfl rfl rfl (pc ▸ nofun) (pc ▸ nofun)
  | @effect g p₁ p₂ p b todo t pc seat =>
      obtain ⟨ops, fds, heff⟩ := effect_shape s p b
      rw [heff]
      refine hL.mono rfl same fun d hd =>
        hd.of_game (g := g) (G := .running p₁ p₂ todo t) rfl rfl rfl rfl fun q b hb => ?_
      rw [pc] at hb
      cases q <;> exact hb
  | @poll g p₁ p₂ t w pc going =>
      refine hL.mono rfl same fun d hd => hd.of_game rfl rfl rfl rfl fun q b hb => ?_
      rw [pc] at hb
      cases q <;> exact hb
  | @unregister g p₁ p₂ t pc ended =>
      -- one name is removed behind the other
      have hnames : (s.names.erase (s.players p₁).name).Nodup := hL.nodup.erase _
      refine ⟨hnames.erase _, fun name h => ?_⟩
      obtain ⟨hne₂, h⟩ := hnames.mem_erase_iff.mp h
      obtain ⟨hne₁, h⟩ := hL.nodup.mem_erase_iff.mp h
      obtain ⟨c, hreg, hserved⟩ := hL.served name h
      exact ⟨c, hreg, hserved.unregister hO pc hreg hne₁ hne₂⟩
  | @release g a todo pc =>
      refine hL.mono rfl same fun d hd => hd.of_game rfl rfl rfl rfl fun q b hb => ?_
      rw [pc] at hb
      cases hb

/-! ### Every run -/

/-- A game that is created is started. -/
def StartsGames (s : Server) : Event → Prop
  | .enter _ ok => s.waiting ≠ none → ok = true
  | _ => True

instance (s : Server) : (e : Event) → Decidable (StartsGames s e)
  | .enter _ ok => inferInstanceAs (Decidable (s.waiting ≠ none → ok = true))
  | .accept _ | .spawn .. | .receive .. | .register _ | .alloc .. | .greet _ | .recheck ..
  | .reply .. | .act _ | .effect _ | .poll .. | .unregister _ | .release _ => .isTrue trivial

/-- The states that any run reaches. -/
structure Orderly (s : Server) : Prop where
  objects : Objects s
  points : Points s
  listed : Listed s

theorem orderly_initial : Orderly initial where
  objects := objects_initial
  points := points_initial
  listed := ⟨List.nodup_nil, fun _ h => nomatch h⟩

theorem Orderly.step (hs : Orderly s) (h : Step s e s') : Orderly s' where
  objects := h.objects hs.objects hs.points
  points := h.points hs.objects hs.points
  listed := h.listed hs.objects hs.points hs.listed

theorem run_orderly {ok : Server → Event → Prop} {es : List Event} (h : Run step ok initial es s) :
    Orderly s :=
  h.invariant (fun _ _ _ hs _ hstep => hs.step (step_cases hstep)) orderly_initial

/-- Where the games are started, a player who is served is in a situation. -/
theorem Served.situated (hO : Objects s) (hs : Started s) (h : Served s c) :
    ∃ z, Situated s c z := by
  rcases h with ⟨name, h⟩ | ⟨a, u, hu, huse, hown⟩
  · exact ⟨.lobby, by rw [Situated, h]; rfl⟩
  · cases u with
    | lobby d =>
        obtain ⟨k, hown', -, hd⟩ := hO.known a _ huse
        obtain rfl := Option.some.inj (hown.symm.trans hown')
        obtain rfl := hd d rfl
        refine ⟨.lobby, ?_⟩
        rw [InUse] at huse
        rw [Situated]
        cases hpc : s.handlers d with
        | greeting | matching => rfl
        | _ =>
            rw [hpc] at huse
            cases huse
    | slot => exact ⟨.slot, a, huse, hown⟩
    | seat g p =>
        rw [InUse] at huse
        refine ⟨.game g p, ?_⟩
        cases hg : s.games g with
        | absent | freeing =>
            rw [hg] at huse
            cases p <;> cases huse
        | unstarted p₁ p₂ =>
            -- the players would be served by nobody
            exact absurd hg (hs g p₁ p₂)
        | running p₁ p₂ todo t =>
            refine ⟨p₁, p₂, todo, t, hg, ?_⟩
            rw [hg] at huse
            cases p <;> cases huse <;> exact hown
    | leaving d => cases hu
    | freeing g => cases hu

/-- **Who is on the list is served.**  For every number of clients, every interleaving of the
threads and every reuse of addresses and descriptor numbers, as long as every game that is created
is started: each name on the list is that of a player whose handler is before the matching step, or
who waits in the slot, or who is in a game that is running. -/
theorem names_served {es : List Event} (h : Run step StartsGames initial es s) :
    ∀ name ∈ s.names, ∃ c z, s.registered c = some name ∧ Situated s c z := by
  have hO := run_orderly h
  have hstarted : Started s := by
    refine h.invariant (I := Started) (fun s e s' hs hok hstep => ?_) fun _ _ _ h => nomatch h
    refine (step_cases hstep).started (fun c ok he hw => ?_) hs
    subst he
    exact hok hw
  intro name hname
  obtain ⟨c, hreg, hserved⟩ := hO.listed.served name hname
  obtain ⟨z, hz⟩ := hserved.situated hO.objects hstarted
  exact ⟨c, z, hreg, hz⟩

theorem sampleEvents_starts : (Run.exec step StartsGames initial sampleEvents).isSome = true := by
  decide +kernel

theorem names_served_sample : ∃ c z,
    ((Run.exec step StartsGames initial sampleEvents).get sampleEvents_starts).registered c =
      some ⟨ascii "Ann", by decide⟩ ∧
    Situated ((Run.exec step StartsGames initial sampleEvents).get sampleEvents_starts) c z :=
  names_served (Run.of_isSome sampleEvents_starts) ⟨ascii "Ann", by decide⟩ (by decide +kernel)

/-- The thread of the game is running. -/
def Game.runs : Game → Bool
  | .running _ _ _ _ => true
  | _ => false

/-- Ann waits, Bob comes, and `pthread_create` fails for their game. -/
def unstartedEvents : List Event :=
  comes 0 4 100 "Ann" ++ (comes 1 5 200 "Bob").dropLast ++ [.enter 1 false]

theorem unstartedEvents_run :
    (Run.exec step (fun _ _ => True) initial unstartedEvents).isSome = true := by
  decide +kernel

/-- Ann and Bob stay on the list, and nobody is served. -/
theorem names_not_served : ∃ s, Run step (fun _ _ => True) initial unstartedEvents s ∧
    s.names.map Name.bytes = [ascii "Bob", ascii "Ann"] ∧ ∀ c z, ¬ Situated s c z := by
  have hrun := Run.of_isSome unstartedEvents_run
  refine ⟨_, hrun, by decide +kernel, fun c z hz => ?_⟩
  have hP := (run_orderly hrun).points
  cases z with
  | lobby =>
      have hpc : ∀ d < 2, (((Run.exec step (fun _ _ => True) initial unstartedEvents).get
          unstartedEvents_run).handlers d).lobby = false := by decide +kernel
      by_cases hc : c < 2
      · rw [Situated, hpc c hc] at hz
        cases hz
      · rw [Situated, hP.conns c (Nat.le_of_not_lt hc)] at hz
        cases hz
  | slot =>
      obtain ⟨a, ha, -⟩ := hz
      have hempty : ((Run.exec step (fun _ _ => True) initial unstartedEvents).get
          unstartedEvents_run).waiting = none := by decide +kernel
      rw [hempty] at ha
      cases ha
  | game g p =>
      obtain ⟨p₁, p₂, todo, t, hg, -⟩ := hz
      by_cases hlt : g < 1
      · obtain rfl : g = 0 := Nat.lt_one_iff.mp hlt
        have hstart : (((Run.exec step (fun _ _ => True) initial unstartedEvents).get
            unstartedEvents_run).games 0).runs = false := by decide +kernel
        rw [hg] at hstart
        cases hstart
      · rw [hP.created g (Nat.le_of_not_lt hlt)] at hg
        cases hg

end CS214.Nim
