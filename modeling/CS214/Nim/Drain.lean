import CS214.Nim.Descriptors
import CS214.Nim.Starts

/-!
# Nim — what is left when everybody is served

An object that is allocated is in use (`Accounted`), in every run: some thread has it (`Attended`),
or it is one of the two players of a game whose thread could not be created, and nobody frees it any
more (`Stranded`).  So what is left when every thread has returned are the players of such games
(`drained`); and where every game was started, nothing: no name, no waiting player, no object.  In a
run in which no malformed message ends a game, no connection is left open either
(`drained_descriptors`).
-/

namespace CS214.Nim

open CString Function

variable {s s' : Server} {P : Cid → Place} {c d : Cid} {g : Gid} {a b me : Addr} {e : Event}
  {name : Name} {u : Use}

/-- The handler has returned, or there is none. -/
def Handler.returned : Handler → Bool
  | .absent | .finishing [] => true
  | _ => false

/-- The game was started and its thread has returned, or there is no such game.  A game whose thread
could not be created never returns. -/
def Game.returned : Game → Bool
  | .absent | .freeing [] => true
  | _ => false

/-- Every object is in use, and who is in the slot waits. -/
structure Accounted (s : Server) : Prop where
  used : ∀ a, s.allocated a = true → ∃ u, InUse s a u
  waits : ∀ a, s.waiting = some a → ∃ c, s.handlers c = .waiting a

theorem accounted_initial : Accounted initial where
  used a h := by cases h
  waits a h := by cases h

/-- A handler gets to another point, with the objects it had. -/
theorem InUse.to_handler {H : Handler} (hh : s'.handlers = update s.handlers c H)
    (hw : s'.waiting = s.waiting) (hg : s'.games = s.games)
    (ho : ∀ b, (s.handlers c).object = some b → H.object = some b)
    (hf : ∀ b, .free b ∈ (s.handlers c).frees → .free b ∈ H.frees) (h : InUse s a u) :
    InUse s' a u := by
  have hback : s.handlers = update s'.handlers c (s.handlers c) := by
    rw [hh, update_idem, update_eq_self]
  refine h.of_handler hback hw.symm hg.symm (fun b hb => ?_) fun b hb => ?_
  · rw [hh, update_self]
    exact ho b hb
  · rw [hh, update_self]
    exact hf b hb

/-- A game gets to another point, with the objects it had. -/
theorem InUse.to_game {G : Game} (hh : s'.handlers = s.handlers) (hw : s'.waiting = s.waiting)
    (hg : s'.games = update s.games g G)
    (hs : ∀ p b, (s.games g).seat p = some b → G.seat p = some b)
    (hf : ∀ b ∈ (s.games g).frees, b ∈ G.frees) (h : InUse s a u) : InUse s' a u := by
  have hback : s.games = update s'.games g (s.games g) := by
    rw [hg, update_idem, update_eq_self]
  refine h.of_game hh.symm hw.symm hback (fun p b hb => ?_) fun b hb => ?_
  · rw [hg, update_self]
    exact hs p b hb
  · rw [hg, update_self]
    exact hf b hb

namespace Accounted

/-- The handler of the waiting player stays where it is while another one goes on. -/
theorem waits_update (hA : Accounted s) {H : Handler} (hc : (s.handlers c).waits = none)
    (a : Addr) (h : s.waiting = some a) : ∃ d, update s.handlers c H d = .waiting a := by
  obtain ⟨d, hd⟩ := hA.waits a h
  refine ⟨d, (update_of_ne ?_ _ _).trans hd⟩
  rintro rfl
  rw [hd] at hc
  cases hc

/-- A handler gets to another point, with the objects it had. -/
theorem handler (hA : Accounted s) {H : Handler} (hh : s'.handlers = update s.handlers c H)
    (hw : s'.waiting = s.waiting) (hg : s'.games = s.games) (ha : s'.allocated = s.allocated)
    (hc : (s.handlers c).waits = none)
    (ho : ∀ b, (s.handlers c).object = some b → H.object = some b)
    (hf : ∀ b, .free b ∈ (s.handlers c).frees → .free b ∈ H.frees) : Accounted s' where
  used a h := by
    rw [ha] at h
    obtain ⟨u, hu⟩ := hA.used a h
    exact ⟨u, hu.to_handler hh hw hg ho hf⟩
  waits a h := by
    rw [hw] at h
    rw [hh]
    exact hA.waits_update hc a h

/-- A game gets to another point, with the objects it had. -/
theorem game (hA : Accounted s) {G : Game} (hh : s'.handlers = s.handlers)
    (hw : s'.waiting = s.waiting) (hg : s'.games = update s.games g G)
    (ha : s'.allocated = s.allocated)
    (hs : ∀ p b, (s.games g).seat p = some b → G.seat p = some b)
    (hf : ∀ b ∈ (s.games g).frees, b ∈ G.frees) : Accounted s' where
  used a h := by
    rw [ha] at h
    obtain ⟨u, hu⟩ := hA.used a h
    exact ⟨u, hu.to_game hh hw hg hs hf⟩
  waits a h := by
    rw [hh]
    exact hA.waits a (hw ▸ h)

theorem alloc (hA : Accounted s) (pc : s.handlers c = .registered name) (a : Addr) :
    Accounted { s.setHandler c (.greeting a) with
      players := update s.players a ⟨s.fd c, name⟩
      allocated := update s.allocated a true
      owner := update s.owner a (some c) } where
  used b hb := by
    by_cases hab : b = a
    · subst hab
      exact ⟨.lobby c, by simp [InUse, Server.setHandler, Handler.object]⟩
    · simp only [update_of_ne hab] at hb
      obtain ⟨u, hu⟩ := hA.used b hb
      refine ⟨u, hu.to_handler (c := c) (H := .greeting a) rfl rfl rfl ?_ ?_⟩
      · rw [pc]
        exact fun b h => by cases h
      · rw [pc]
        exact fun b h => absurd h List.not_mem_nil
  waits b hb := hA.waits_update (by rw [pc]; rfl) b hb

theorem take (hA : Accounted s) (pc : s.handlers c = .matching me) (empty : s.waiting = none) :
    Accounted { s.setHandler c (.waiting me) with waiting := some me } where
  used a h := by
    obtain ⟨u, hu⟩ := hA.used a h
    cases u with
    | lobby d =>
        by_cases hd : d = c
        · subst hd
          simp only [InUse, pc] at hu
          exact ⟨.slot, hu⟩
        · exact ⟨.lobby d, (congrArg Handler.object (update_of_ne hd _ _)).trans hu⟩
    | slot =>
        rw [InUse, empty] at hu
        cases hu
    | seat g p => exact ⟨.seat g p, hu⟩
    | leaving d =>
        have hd : d ≠ c := by
          rintro rfl
          rw [InUse, pc] at hu
          exact absurd hu List.not_mem_nil
        exact ⟨.leaving d, by simpa only [InUse, Server.setHandler, update_of_ne hd] using hu⟩
    | freeing g => exact ⟨.freeing g, hu⟩
  waits a h := by
    obtain rfl := Option.some.inj h
    exact ⟨c, update_self ..⟩

theorem pair (hA : Accounted s) (hP : Points s) {o : Addr} {G : Game}
    (pc : s.handlers c = .matching me) (waits : s.waiting = some o)
    (hseat : ∀ p, G.seat p = some (match p with | .one => o | .two => me)) :
    Accounted { (s.setHandler c (.finishing [])).setGame s.created G with
      waiting := none, created := s.created + 1 } where
  used a h := by
    obtain ⟨u, hu⟩ := hA.used a h
    have hnew := hP.created s.created (Nat.le_refl _)
    have hgame : ∀ g G', s.games g = G' → G' ≠ .absent → g ≠ s.created := by
      rintro g G' rfl hne rfl
      exact hne hnew
    cases u with
    | lobby d =>
        by_cases hd : d = c
        · -- the player who comes gets the second seat
          subst hd
          simp only [InUse, pc] at hu
          exact ⟨.seat s.created .two, by
            simp only [InUse, Server.setGame, update_self, hseat]
            exact hu⟩
        · exact ⟨.lobby d, (congrArg Handler.object (update_of_ne hd _ _)).trans hu⟩
    | slot =>
        rw [InUse, waits] at hu
        exact ⟨.seat s.created .one, by
          simp only [InUse, Server.setGame, update_self, hseat]
          exact hu⟩
    | seat g p =>
        have hg : g ≠ s.created := by
          rintro rfl
          rw [InUse, hnew] at hu
          cases hu
        exact ⟨.seat g p, (congrArg (Game.seat · p) (update_of_ne hg _ _)).trans hu⟩
    | leaving d =>
        have hd : d ≠ c := by
          rintro rfl
          rw [InUse, pc] at hu
          exact absurd hu List.not_mem_nil
        refine ⟨.leaving d, ?_⟩
        simpa only [InUse, Server.setGame, Server.setHandler, update_of_ne hd] using hu
    | freeing g =>
        have hg : g ≠ s.created := by
          rintro rfl
          rw [InUse, hnew] at hu
          exact absurd hu List.not_mem_nil
        exact ⟨.freeing g, (congrArg (a ∈ Game.frees ·) (update_of_ne hg _ _)).mpr hu⟩
  waits a h := by cases h

theorem withdraw (hA : Accounted s) (pc : s.handlers c = .waiting me)
    (here : s.waiting = some me) :
    Accounted { (s.remove me).setHandler c (.withdrawn me) with waiting := none } where
  used a h := by
    obtain ⟨u, hu⟩ := hA.used a h
    cases u with
    | lobby d =>
        have hd : d ≠ c := by
          rintro rfl
          rw [InUse, pc] at hu
          cases hu
        exact ⟨.lobby d, (congrArg Handler.object (update_of_ne hd _ _)).trans hu⟩
    | slot =>
        obtain rfl := Option.some.inj (here.symm.trans hu)
        exact ⟨.leaving c, by simp [InUse, Server.setHandler, Handler.frees]⟩
    | seat g p => exact ⟨.seat g p, hu⟩
    | leaving d =>
        have hd : d ≠ c := by
          rintro rfl
          rw [InUse, pc] at hu
          exact absurd hu List.not_mem_nil
        refine ⟨.leaving d, ?_⟩
        simpa only [InUse, Server.setHandler, Server.remove, update_of_ne hd] using hu
    | freeing g => exact ⟨.freeing g, hu⟩
  waits a h := by cases h

theorem unregister (hA : Accounted s) {p₁ p₂ : Addr} {t : Thread}
    (pc : s.games g = .running p₁ p₂ [] t) :
    Accounted (((s.remove p₁).remove p₂).setGame g (.freeing [p₁, p₂])) where
  used a h := by
    obtain ⟨u, hu⟩ := hA.used a h
    cases u with
    | lobby d => exact ⟨.lobby d, hu⟩
    | slot => exact ⟨.slot, hu⟩
    | leaving d => exact ⟨.leaving d, hu⟩
    | seat g' p =>
        by_cases hg : g' = g
        · subst hg
          refine ⟨.freeing g', ?_⟩
          simp only [InUse, pc] at hu
          simp only [InUse, Server.setGame, update_self, frees_freeing]
          cases p with
          | one =>
              obtain rfl := Option.some.inj hu
              exact List.mem_cons_self
          | two =>
              obtain rfl := Option.some.inj hu
              exact List.mem_cons_of_mem _ List.mem_cons_self
        · exact ⟨.seat g' p, (congrArg (Game.seat · p) (update_of_ne hg _ _)).trans hu⟩
    | freeing g' =>
        have hg : g' ≠ g := by
          rintro rfl
          rw [InUse, pc] at hu
          exact absurd hu List.not_mem_nil
        exact ⟨.freeing g', (congrArg (a ∈ Game.frees ·) (update_of_ne hg _ _)).mpr hu⟩
  waits := hA.waits

/-- A call of a handler that returns. -/
theorem act (hA : Accounted s) {b : Act} {todo : List Act}
    (pc : s.handlers c = .finishing (b :: todo)) :
    Accounted ((s.act c b).setHandler c (.finishing todo)) := by
  obtain ⟨ops, fds, alloc, hs, halloc⟩ := act_shape s c b
  rw [hs]
  refine ⟨fun a h => ?_, hA.waits_update (by rw [pc]; rfl)⟩
  -- an object that is allocated after the call is not the one it frees
  obtain ⟨ha, hne⟩ : s.allocated a = true ∧ b ≠ .free a := by
    change alloc a = true at h
    rcases halloc with rfl | ⟨a', rfl, rfl⟩
    · refine ⟨h, ?_⟩
      rintro rfl
      have hfree := congrFun (congrArg Server.allocated hs) a
      simp only [Server.act, Server.free, update_self] at hfree
      rw [← hfree] at h
      cases h
    · by_cases haa : a = a'
      · rw [haa, update_self] at h
        cases h
      · rw [update_of_ne haa] at h
        exact ⟨h, fun e => haa (Act.free.inj e).symm⟩
  obtain ⟨u, hu⟩ := hA.used a ha
  cases u with
  | lobby d =>
      have hd : d ≠ c := by
        rintro rfl
        rw [InUse, pc] at hu
        cases hu
      exact ⟨.lobby d, (congrArg Handler.object (update_of_ne hd _ _)).trans hu⟩
  | slot => exact ⟨.slot, hu⟩
  | seat g p => exact ⟨.seat g p, hu⟩
  | leaving d =>
      refine ⟨.leaving d, ?_⟩
      by_cases hd : d = c
      · subst hd
        rw [InUse, pc] at hu
        simp only [InUse, Server.setHandler, update_self]
        exact (List.mem_cons.mp hu).resolve_left hne.symm
      · simpa only [InUse, Server.setHandler, update_of_ne hd] using hu
  | freeing g => exact ⟨.freeing g, hu⟩

/-- A game thread frees an object. -/
theorem release (hA : Accounted s) {todo : List Addr} (pc : s.games g = .freeing (b :: todo)) :
    Accounted ((s.free b).setGame g (.freeing todo)) where
  used a h := by
    have hab : a ≠ b := by
      rintro rfl
      simp [Server.free, Server.setGame] at h
    have ha : s.allocated a = true := by
      simpa only [Server.free, Server.setGame, update_of_ne hab] using h
    obtain ⟨u, hu⟩ := hA.used a ha
    cases u with
    | lobby d => exact ⟨.lobby d, hu⟩
    | slot => exact ⟨.slot, hu⟩
    | leaving d => exact ⟨.leaving d, hu⟩
    | seat g' p =>
        have hg : g' ≠ g := by
          rintro rfl
          rw [InUse, pc] at hu
          cases hu
        exact ⟨.seat g' p, (congrArg (Game.seat · p) (update_of_ne hg _ _)).trans hu⟩
    | freeing g' =>
        refine ⟨.freeing g', ?_⟩
        by_cases hg : g' = g
        · subst hg
          rw [InUse, pc] at hu
          simp only [InUse, Server.setGame, update_self, frees_freeing]
          exact (List.mem_cons.mp hu).resolve_left hab
        · exact (congrArg (a ∈ Game.frees ·) (update_of_ne hg _ _)).mpr hu
  waits := hA.waits

/-- A handler finds that its player was matched. -/
theorem matched (hA : Accounted s) (pc : s.handlers c = .waiting me)
    (away : s.waiting ≠ some me) : Accounted (s.setHandler c (.finishing [])) where
  used a h := by
    obtain ⟨u, hu⟩ := hA.used a h
    refine ⟨u, hu.to_handler (c := c) (H := .finishing []) rfl rfl rfl ?_ ?_⟩
    · rw [pc]
      exact fun b hb => by cases hb
    · rw [pc]
      exact fun b hb => absurd hb List.not_mem_nil
  waits a h := by
    obtain ⟨d, hd⟩ := hA.waits a h
    refine ⟨d, (update_of_ne ?_ _ _).trans hd⟩
    rintro rfl
    obtain rfl := Handler.waiting.inj (pc.symm.trans hd)
    exact away h

/-- A game goes on with the same players. -/
theorem running (hA : Accounted s) {p₁ p₂ : Addr} {todo todo' : List Effect} {t t' : Thread}
    (pc : s.games g = .running p₁ p₂ todo t) (hh : s'.handlers = s.handlers)
    (hw : s'.waiting = s.waiting) (hg : s'.games = update s.games g (.running p₁ p₂ todo' t'))
    (ha : s'.allocated = s.allocated) : Accounted s' := by
  refine hA.game hh hw hg ha (fun p b hb => ?_) fun b hb => ?_
  · rw [pc] at hb
    cases p <;> exact hb
  · rw [pc] at hb
    exact absurd hb List.not_mem_nil

/-- Every step accounts for every object. -/
theorem step (hA : Accounted s) (hP : Points s) (h : Step s e s') : Accounted s' := by
  have hquiet : ∀ {c : Cid} {H K : Handler} {s' : Server}, s.handlers c = K → K.waits = none →
      K.object = none → (∀ b, .free b ∉ K.frees) → s'.handlers = update s.handlers c H →
      s'.waiting = s.waiting → s'.games = s.games → s'.allocated = s.allocated →
      Accounted s' := by
    rintro c H K s' rfl hw ho hf hh hw' hg ha
    refine hA.handler hh hw' hg ha hw (fun b hb => ?_) fun b hb => absurd hb (hf b)
    rw [ho] at hb
    cases hb
  cases h with
  | accept closed =>
      exact hquiet (hP.conns _ (Nat.le_refl _)) rfl rfl (fun _ => List.not_mem_nil) rfl rfl rfl rfl
  | spawn pc | receive pc | refuse pc | register pc =>
      exact hquiet pc rfl rfl (fun _ => List.not_mem_nil) rfl rfl rfl rfl
  | alloc pc unused => exact hA.alloc pc _
  | @greet c me pc =>
      obtain ⟨ops, hs⟩ := send_shape s (some c) (s.fd c) (ascii "WAIT")
      rw [hs]
      refine hA.handler (c := c) (H := .matching me) rfl rfl rfl rfl (by rw [pc]; rfl) ?_ ?_
      · rw [pc]
        exact fun b hb => hb
      · rw [pc]
        exact fun b hb => absurd hb List.not_mem_nil
  | take pc empty => exact hA.take pc empty
  | pair pc waits start =>
      refine hA.pair hP pc waits fun p => ?_
      rw [start]
      split <;> cases p <;> rfl
  | matched pc away => exact hA.matched pc away
  | withdraw pc here ready => exact hA.withdraw pc here
  | again => exact hA
  | @reply c me r pc =>
      refine hA.handler (c := c) rfl rfl rfl rfl (by rw [pc]; rfl) ?_ ?_
      · rw [pc]
        exact fun b hb => by cases hb
      · rw [pc]
        intro b hb
        rw [List.mem_singleton.mp hb]
        exact List.mem_append_right _ (List.mem_cons_of_mem _ List.mem_cons_self)
  | act pc => exact hA.act pc
  | @effect g p₁ p₂ p b todo t pc seat =>
      obtain ⟨ops, fds, hs⟩ := effect_shape s p b
      rw [hs]
      exact hA.running pc rfl rfl rfl rfl
  | poll pc going => exact hA.running pc rfl rfl rfl rfl
  | unregister pc ended => exact hA.unregister pc
  | release pc => exact hA.release pc

end Accounted

theorem run_accounted {ok : Server → Event → Prop} {es : List Event}
    (h : Run step ok initial es s) : Accounted s := by
  have hinv : Orderly s ∧ Accounted s := by
    refine h.invariant (I := fun s => Orderly s ∧ Accounted s) ?_
      ⟨orderly_initial, accounted_initial⟩
    rintro s e s' ⟨hs, hA⟩ - hstep
    exact ⟨hs.step (step_cases hstep), hA.step hs.points (step_cases hstep)⟩
  exact hinv.2

theorem Handler.eq_of_returned {H : Handler} (h : H.returned = true) :
    H = .absent ∨ H = .finishing [] := by
  cases H with
  | absent => exact .inl rfl
  | finishing todo =>
      cases todo with
      | nil => exact .inr rfl
      | cons => cases h
  | accepted | receiving | opened | registered | greeting | matching | waiting
  | withdrawn => cases h

theorem Game.eq_of_returned {G : Game} (h : G.returned = true) : G = .absent ∨ G = .freeing [] := by
  cases G with
  | absent => exact .inl rfl
  | freeing todo =>
      cases todo with
      | nil => exact .inr rfl
      | cons => cases h
  | unstarted | running => cases h

/-- All handlers have returned when those of the accepted connections have. -/
theorem Points.handlers_of_returned (hP : Points s)
    (h : ∀ c < s.conns, (s.handlers c).returned = true) (c : Cid) :
    s.handlers c = .absent ∨ s.handlers c = .finishing [] := by
  rcases Nat.lt_or_ge c s.conns with hc | hc
  · exact Handler.eq_of_returned (h c hc)
  · exact .inl (hP.conns c hc)

theorem Points.games_of_returned (hP : Points s)
    (h : ∀ g < s.created, (s.games g).returned = true) (g : Gid) :
    s.games g = .absent ∨ s.games g = .freeing [] := by
  rcases Nat.lt_or_ge g s.created with hg | hg
  · exact Game.eq_of_returned (h g hg)
  · exact .inl (hP.created g hg)

/-- Every handler has returned, and every game that was created was started and is over. -/
structure Returned (s : Server) : Prop where
  handlers : ∀ c < s.conns, (s.handlers c).returned = true
  games : ∀ g < s.created, (s.games g).returned = true

/-- No thread of the game goes on: it has returned, or it could not be created. -/
def Game.over : Game → Bool
  | .absent | .unstarted _ _ | .freeing [] => true
  | _ => false

/-- Every thread there is has returned, those of the handlers and those of the started games. -/
structure Resting (s : Server) : Prop where
  handlers : ∀ c < s.conns, (s.handlers c).returned = true
  games : ∀ g < s.created, (s.games g).over = true

/-- A thread has the object: a handler before the matching step, that of the waiting player or one
that is to free it, or the thread of a game, which serves it or is to free it. -/
inductive Attended (s : Server) (a : Addr) : Prop where
  | lobby {c : Cid} (pc : (s.handlers c).object = some a)
  | waiting {c : Cid} (pc : s.handlers c = .waiting a) (slot : s.waiting = some a)
  | playing {g : Gid} {p₁ p₂ : Addr} {todo : List Effect} {t : Thread}
      (pc : s.games g = .running p₁ p₂ todo t) (seat : a = p₁ ∨ a = p₂)
  | leaving {c : Cid} (left : .free a ∈ (s.handlers c).frees)
  | freeing {g : Gid} (left : a ∈ (s.games g).frees)

/-- The object is that of a player of a game whose thread could not be created. -/
def Stranded (s : Server) (a : Addr) : Prop :=
  ∃ g p₁ p₂, s.games g = .unstarted p₁ p₂ ∧ (a = p₁ ∨ a = p₂)

theorem Game.seat_of_or {G : Game} {p₁ p₂ : Addr} (h₁ : G.seat .one = some p₁)
    (h₂ : G.seat .two = some p₂) (h : a = p₁ ∨ a = p₂) : ∃ p, G.seat p = some a := by
  rcases h with rfl | rfl
  · exact ⟨.one, h₁⟩
  · exact ⟨.two, h₂⟩

theorem Attended.inUse (h : Attended s a) : ∃ u, InUse s a u := by
  cases h with
  | @lobby c pc => exact ⟨.lobby c, pc⟩
  | waiting _ slot => exact ⟨.slot, slot⟩
  | @playing g p₁ p₂ todo t pc seat =>
      obtain ⟨p, hp⟩ := Game.seat_of_or (G := s.games g) (by rw [pc]; rfl) (by rw [pc]; rfl) seat
      exact ⟨.seat g p, hp⟩
  | @leaving c left => exact ⟨.leaving c, left⟩
  | @freeing g left => exact ⟨.freeing g, left⟩

theorem Stranded.inUse (h : Stranded s a) : ∃ u, InUse s a u := by
  obtain ⟨g, p₁, p₂, pc, seat⟩ := h
  obtain ⟨p, hp⟩ := Game.seat_of_or (G := s.games g) (by rw [pc]; rfl) (by rw [pc]; rfl) seat
  exact ⟨.seat g p, hp⟩

/-- Who is in use is with a thread, or in a seat of a game that has none. -/
theorem Accounted.attended_or_stranded (hA : Accounted s) (h : InUse s a u) :
    Attended s a ∨ Stranded s a := by
  cases u with
  | lobby c => exact .inl (.lobby h)
  | slot =>
      obtain ⟨c, pc⟩ := hA.waits a h
      exact .inl (.waiting pc h)
  | seat g p =>
      rw [InUse] at h
      cases pc : s.games g with
      | absent | freeing =>
          rw [pc] at h
          cases p <;> cases h
      | unstarted p₁ p₂ =>
          refine .inr ⟨g, p₁, p₂, pc, ?_⟩
          rw [pc] at h
          cases p with
          | one => exact .inl (Option.some.inj h).symm
          | two => exact .inr (Option.some.inj h).symm
      | running p₁ p₂ todo t =>
          refine .inl (.playing pc ?_)
          rw [pc] at h
          cases p with
          | one => exact .inl (Option.some.inj h).symm
          | two => exact .inr (Option.some.inj h).symm
  | leaving c => exact .inl (.leaving h)
  | freeing g => exact .inl (.freeing h)

/-- A stranded player is with no thread: an object is in use in one way only. -/
theorem Stranded.not_attended (h : Stranded s a) (hO : Objects s) : ¬ Attended s a := by
  obtain ⟨g, p₁, p₂, pc, seat⟩ := h
  obtain ⟨p, hp⟩ := Game.seat_of_or (G := s.games g) (by rw [pc]; rfl) (by rw [pc]; rfl) seat
  have honly : ∀ u, InUse s a u → u = .seat g p := fun u hu => hO.single a u _ hu hp
  intro ha
  cases ha with
  | @lobby c pc => cases honly (.lobby c) pc
  | waiting _ slot => cases honly .slot slot
  | @playing g' q₁ q₂ todo t pc' seat' =>
      obtain ⟨q, hq⟩ :=
        Game.seat_of_or (G := s.games g') (by rw [pc']; rfl) (by rw [pc']; rfl) seat'
      obtain ⟨rfl, -⟩ := Use.seat.inj (honly (.seat g' q) hq)
      cases pc.symm.trans pc'
  | @leaving c left => cases honly (.leaving c) left
  | @freeing g' left => cases honly (.freeing g') left

theorem Resting.game (h : Resting s) (hP : Points s) (g : Gid) : (s.games g).over = true := by
  rcases Nat.lt_or_ge g s.created with hg | hg
  · exact h.games g hg
  · rw [hP.created g hg]
    rfl

/-- Where every thread has returned, no thread has an object. -/
theorem Resting.not_attended (h : Resting s) (hP : Points s) : ¬ Attended s a := by
  have hhandler := hP.handlers_of_returned h.handlers
  intro ha
  cases ha with
  | @lobby c pc => rcases hhandler c with e | e <;> rw [e] at pc <;> cases pc
  | @waiting c pc => rcases hhandler c with e | e <;> rw [e] at pc <;> cases pc
  | @playing g p₁ p₂ todo t pc =>
      have hg := h.game hP g
      rw [pc] at hg
      cases hg
  | @leaving c left => rcases hhandler c with e | e <;> rw [e] at left <;> cases left
  | @freeing g left =>
      have hg := h.game hP g
      cases pc : s.games g with
      | freeing todo =>
          rw [pc] at hg left
          cases todo with
          | nil => cases left
          | cons => cases hg
      | absent | unstarted | running =>
          rw [pc] at left
          cases left

theorem Resting.empty (h : Resting s) (hP : Points s) (hA : Accounted s) : s.waiting = none := by
  refine Option.eq_none_iff_forall_ne_some.mpr fun a ha => ?_
  obtain ⟨c, pc⟩ := hA.waits a ha
  exact h.not_attended hP (.waiting pc ha)

/-- Where every thread has returned, a name on the list is that of a player of a game that was not
started. -/
theorem Resting.listed (h : Resting s) (hO : Orderly s) (hA : Accounted s) (hn : name ∈ s.names) :
    ∃ a, Stranded s a ∧ (s.players a).name = name := by
  obtain ⟨c, hreg, ⟨name', pc⟩ | ⟨a, u, -, hu, hown⟩⟩ := hO.listed.served name hn
  · rcases hO.points.handlers_of_returned h.handlers c with e | e <;> rw [pc] at e <;> cases e
  · have hs := (hA.attended_or_stranded hu).resolve_left (h.not_attended hO.points)
    obtain ⟨d, hd, hname, -⟩ := hO.objects.known a u hu
    obtain rfl := Option.some.inj (hown.symm.trans hd)
    exact ⟨a, hs, Option.some.inj (hname.symm.trans hreg)⟩

theorem Game.over_of_returned {G : Game} (h : G.returned = true) : G.over = true := by
  rcases Game.eq_of_returned h with rfl | rfl <;> rfl

theorem Returned.resting (h : Returned s) : Resting s :=
  ⟨h.handlers, fun g hg => Game.over_of_returned (h.games g hg)⟩

/-- Where every game was started, no player is stranded. -/
theorem Returned.not_stranded (h : Returned s) (hP : Points s) : ¬ Stranded s a := by
  rintro ⟨g, p₁, p₂, pc, -⟩
  rcases hP.games_of_returned h.games g with e | e <;> rw [pc] at e <;> cases e

/-- Where everybody has returned and every game was started, nothing is left. -/
theorem Returned.empty (h : Returned s) (hO : Orderly s) (hA : Accounted s) :
    s.names = [] ∧ s.waiting = none ∧ ∀ a, s.allocated a = false := by
  refine ⟨List.eq_nil_iff_forall_not_mem.mpr fun name hname => ?_,
    h.resting.empty hO.points hA, fun a => Bool.eq_false_iff.mpr fun ha => ?_⟩
  · obtain ⟨a, hs, -⟩ := h.resting.listed hO hA hname
    exact h.not_stranded hO.points hs
  · obtain ⟨u, hu⟩ := hA.used a ha
    rcases hA.attended_or_stranded hu with hs | hs
    · exact h.resting.not_attended hO.points hs
    · exact h.not_stranded hO.points hs

/-- **What is leaked, and what is left.**  In every run, whatever fails and however addresses and
descriptor numbers are used again, the objects that are allocated are those some thread has, and the
players of the games whose thread could not be created, which no thread has.  Where every thread has
returned, nobody waits, and what is left are these players and their names; where every game was
started too, nothing. -/
theorem drained {ok : Server → Event → Prop} {es : List Event} (h : Run step ok initial es s) :
    (∀ a, s.allocated a = true ↔ Attended s a ∨ Stranded s a) ∧
    (∀ a, Stranded s a → ¬ Attended s a) ∧
    (Resting s → s.waiting = none ∧ (∀ a, s.allocated a = true ↔ Stranded s a) ∧
      ∀ name ∈ s.names, ∃ a, Stranded s a ∧ (s.players a).name = name) ∧
    (Returned s → s.names = [] ∧ s.waiting = none ∧ ∀ a, s.allocated a = false) := by
  have hO := run_orderly h
  have hA := run_accounted h
  have hiff : ∀ a, s.allocated a = true ↔ Attended s a ∨ Stranded s a := by
    refine fun a => ⟨fun ha => ?_, fun ha => ?_⟩
    · obtain ⟨u, hu⟩ := hA.used a ha
      exact hA.attended_or_stranded hu
    · obtain ⟨u, hu⟩ := ha.elim Attended.inUse Stranded.inUse
      exact hO.objects.allocated a u hu
  refine ⟨hiff, fun a ha => ha.not_attended hO.objects, fun hr => ?_, fun hr => hr.empty hO hA⟩
  refine ⟨hr.empty hO.points hA, fun a => ?_, fun name => hr.listed hO hA⟩
  exact (hiff a).trans (or_iff_right (hr.not_attended hO.points))

/-- The game of Ann and Bob could not be started, and their handlers have returned. -/
def strandedEvents : List Event := unstartedEvents ++ [.recheck 0 0]

theorem strandedEvents_run :
    (Run.exec step (fun _ _ => True) initial strandedEvents).isSome = true := by
  decide +kernel

/-- Three clients have come and gone, one of them with the address and the number of another; and
the players of a game that was not started are left. -/
theorem drained_clean :
    ((Run.exec step Clean initial cleanEvents).get cleanEvents_run).names = [] ∧
    Stranded ((Run.exec step (fun _ _ => True) initial strandedEvents).get strandedEvents_run)
      100 :=
  ⟨((drained (Run.of_isSome cleanEvents_run)).2.2.2 ⟨by decide +kernel, by decide +kernel⟩).1,
    (((drained (Run.of_isSome strandedEvents_run)).2.2.1
      ⟨by decide +kernel, by decide +kernel⟩).2.1 100).mp (by decide +kernel)⟩

/-! ### Connections -/

/-- An open number belongs to a connection that remembers it and has not been closed, and a
connection that nobody is to close any more has been closed. -/
structure Closed (s : Server) : Prop where
  mine : ∀ n c, s.fds n = some c → c < s.conns ∧ s.fd c = n ∧ closes s.ops c = 0
  done : ∀ c < s.conns, Holds s c ∨ closes s.ops c = 1

theorem closed_initial : Closed initial where
  mine n c h := by cases h
  done c h := absurd h (Nat.not_lt_zero c)

/-- A handler that gets to another point has its `close` before it if it had. -/
theorem Holds.to_setHandler {H : Handler} (hh : s'.handlers = update s.handlers c H)
    (hw : s'.waiting = s.waiting) (ho : s'.owner = s.owner) (hg : s'.games = s.games)
    (hH : d = c → (s.handlers c).holds = true → H.holds = true) (h : Holds s d) : Holds s' d := by
  cases h with
  | handler h =>
      refine .handler ?_
      rw [hh, update_apply]
      split
      · next e => exact hH e (e ▸ h)
      · exact h
  | slot waits own => exact .slot (hw.trans waits) (ho ▸ own)
  | game seat own h => exact .game (hg ▸ seat) (ho ▸ own) (hg ▸ h)

theorem Holds.to_setGame {G : Game} (hh : s'.handlers = s.handlers) (hw : s'.waiting = s.waiting)
    (ho : s'.owner = s.owner) (hg : s'.games = update s.games g G)
    (hG : ∀ p a, (s.games g).seat p = some a → s.owner a = some d →
      (s.games g).holds p = true → G.seat p = some a ∧ G.holds p = true)
    (h : Holds s d) : Holds s' d := by
  cases h with
  | handler h => exact .handler (hh ▸ h)
  | slot waits own => exact .slot (hw.trans waits) (ho ▸ own)
  | @game g' p a seat own h =>
      by_cases e : g' = g
      · subst e
        obtain ⟨h₁, h₂⟩ := hG p a seat own h
        refine .game (g := g') (p := p) (a := a) ?_ (ho ▸ own) ?_
        · rw [hg, update_self, h₁]
        · rw [hg, update_self, h₂]
      · refine .game (g := g') (p := p) (a := a) ?_ (ho ▸ own) ?_
        · rw [hg, update_of_ne e, seat]
        · rw [hg, update_of_ne e, h]

/-- A message that is sent opens and closes nothing. -/
theorem send_connections (k : Option Cid) (fd : Fd) (text : Bytes) :
    (s.send k fd text).fds = s.fds ∧ (s.send k fd text).fd = s.fd ∧
      closes (s.send k fd text).ops = closes s.ops ∧ (s.send k fd text).conns = s.conns := by
  unfold Server.send
  split
  · exact ⟨rfl, rfl, rfl, rfl⟩
  · refine ⟨rfl, rfl, funext fun d => ?_, rfl⟩
    rw [closes_cons, if_neg (fun h => Option.some_ne_none _ h.2), Nat.add_zero]

namespace Closed

/-- A step that opens and closes nothing. -/
theorem quiet (hC : Closed s) (h₁ : s'.fds = s.fds) (h₂ : s'.fd = s.fd)
    (h₃ : closes s'.ops = closes s.ops) (h₄ : s'.conns = s.conns)
    (hH : ∀ d, Holds s d → Holds s' d) : Closed s' where
  mine n c h := by
    rw [h₁] at h
    rw [h₂, h₃, h₄]
    exact hC.mine n c h
  done c hc := by
    rw [h₃]
    exact (hC.done c (h₄ ▸ hc)).imp_left (hH c)

/-- A thread closes a connection for its client. -/
theorem close (hC : Closed s) (hF : Fds s) (hc : Holds s c)
    (h₁ : s'.fds = (s.close (some c) (s.fd c)).fds) (h₂ : s'.fd = s.fd)
    (h₃ : s'.ops = (s.close (some c) (s.fd c)).ops) (h₄ : s'.conns = s.conns)
    (hH : ∀ d, d ≠ c → Holds s d → Holds s' d) : Closed s' where
  mine n d h := by
    simp only [h₁, Server.close, update_apply] at h
    split at h
    · cases h
    · next hn =>
        obtain ⟨hlt, hfd, hzero⟩ := hC.mine n d h
        have hne : c ≠ d := by
          rintro rfl
          exact hn hfd.symm
        refine ⟨h₄ ▸ hlt, h₂ ▸ hfd, ?_⟩
        simp only [h₃, Server.close, closes_cons, Option.some.injEq, hne, false_and, if_false,
          hzero]
  done d hd := by
    by_cases e : d = c
    · subst e
      refine .inr ?_
      simp only [h₃, Server.close, closes_cons, and_self, if_true, hF.held.zero d hc]
    · have hne : c ≠ d := Ne.symm e
      rcases hC.done d (h₄ ▸ hd) with h | h
      · exact .inl (hH d e h)
      · refine .inr ?_
        simp only [h₃, Server.close, closes_cons, Option.some.injEq, hne, false_and, if_false, h]

theorem accept (hC : Closed s) (hF : Fds s) (fd : Fd) :
    Closed { s.setHandler s.conns .accepted with
      conns := s.conns + 1, fds := update s.fds fd (some s.conns),
      fd := update s.fd s.conns fd } where
  mine n c h := by
    simp only [update_apply] at h
    split at h
    · next e =>
        obtain rfl := Option.some.inj h
        exact ⟨Nat.lt_succ_self _, (update_self ..).trans e.symm,
          hF.closes_eq_zero (Nat.le_refl _)⟩
    · obtain ⟨hlt, hfd, hzero⟩ := hC.mine n c h
      exact ⟨Nat.lt_succ_of_lt hlt, (update_of_ne hlt.ne _ _).trans hfd, hzero⟩
  done c hc := by
    rcases Nat.lt_succ_iff_lt_or_eq.mp hc with hlt | rfl
    · refine (hC.done c hlt).imp_left fun h => ?_
      exact h.to_setHandler (c := s.conns) (H := .accepted) rfl rfl rfl rfl fun e => absurd e hlt.ne
    · exact .inl (.handler (by simp [Server.setHandler, Handler.holds]))

theorem alloc (hC : Closed s) (hI : Inv s P) (unused : s.allocated a = false) (c : Cid)
    (name : Name) :
    Closed { s.setHandler c (.greeting a) with
      players := update s.players a ⟨s.fd c, name⟩
      allocated := update s.allocated a true
      owner := update s.owner a (some c) } := by
  refine hC.quiet rfl rfl rfl rfl fun d hd => ?_
  cases hd with
  | handler h =>
      refine .handler ?_
      simp only [Server.setHandler, update_apply]
      split
      · rfl
      · exact h
  | slot waits own => exact .slot waits ((update_of_ne (hI.slot_ne waits unused) _ _).trans own)
  | game seat own h =>
      exact .game seat ((update_of_ne (hI.seat_ne seat unused) _ _).trans own) h

theorem take (hC : Closed s) (hI : Inv s P) (pc : s.handlers c = .matching me)
    (empty : s.waiting = none) :
    Closed { s.setHandler c (.waiting me) with waiting := some me } := by
  have hown := hI.owner_matching pc
  refine hC.quiet rfl rfl rfl rfl fun d hd => ?_
  cases hd with
  | handler h =>
      by_cases e : d = c
      · exact .slot rfl (e ▸ hown)
      · exact .handler ((congrArg Handler.holds (update_of_ne e _ _)).trans h)
  | slot waits own =>
      rw [empty] at waits
      cases waits
  | game seat own h => exact .game seat own h

theorem pair (hC : Closed s) (hI : Inv s P) {o : Addr} {G : Game}
    (pc : s.handlers c = .matching me) (waits : s.waiting = some o)
    (hseat : ∀ p, G.seat p = some (match p with | .one => o | .two => me))
    (hholds : ∀ p, G.holds p = true) :
    Closed { (s.setHandler c (.finishing [])).setGame s.created G with
      waiting := none, created := s.created + 1 } := by
  have hown := hI.owner_matching pc
  refine hC.quiet rfl rfl rfl rfl fun d hd => ?_
  have hgame : (update s.games s.created G) s.created = G := update_self ..
  cases hd with
  | handler h =>
      by_cases e : d = c
      · exact .game ((congrArg (Game.seat · .two) hgame).trans (hseat .two)) (e ▸ hown)
          ((congrArg (Game.holds .two) hgame).trans (hholds .two))
      · exact .handler ((congrArg Handler.holds (update_of_ne e _ _)).trans h)
  | slot waits' own =>
      obtain rfl := Option.some.inj (waits.symm.trans waits')
      exact .game ((congrArg (Game.seat · .one) hgame).trans (hseat .one)) own
        ((congrArg (Game.holds .one) hgame).trans (hholds .one))
  | @game g p b seat own h =>
      have hne : g ≠ s.created := by
        rintro rfl
        rw [hI.created _ (Nat.le_refl _)] at seat
        cases seat
      exact .game ((congrArg (Game.seat · p) (update_of_ne hne _ _)).trans seat) own
        ((congrArg (Game.holds p) (update_of_ne hne _ _)).trans h)

theorem withdraw (hC : Closed s) (here : s.waiting = some me) (own : s.owner me = some c) :
    Closed { (s.remove me).setHandler c (.withdrawn me) with waiting := none } := by
  refine hC.quiet rfl rfl rfl rfl fun d hd => ?_
  cases hd with
  | handler h =>
      refine .handler ?_
      simp only [Server.setHandler, Server.remove, update_apply]
      split
      · rfl
      · exact h
  | slot waits own' =>
      obtain rfl := Option.some.inj (here.symm.trans waits)
      obtain rfl := Option.some.inj (own.symm.trans own')
      exact .handler (by simp [Server.setHandler, Handler.holds])
  | game seat own h => exact .game seat own h

/-- A call of a handler that returns. -/
theorem act (hC : Closed s) (hF : Fds s) {b : Act} {todo : List Act}
    (pc : s.handlers c = .finishing (b :: todo)) :
    Closed ((s.act c b).setHandler c (.finishing todo)) := by
  obtain ⟨ho, hw, -, hg, hh⟩ := act_frame (s := s) c b
  have hhandlers : ((s.act c b).setHandler c (.finishing todo)).handlers =
      update s.handlers c (.finishing todo) := by
    simp only [Server.setHandler, hh]
  have hkeep : ∀ d, (d = c → b ≠ .close) → Holds s d →
      Holds ((s.act c b).setHandler c (.finishing todo)) d := by
    refine fun d hd h => h.to_setHandler hhandlers hw ho hg fun e hc => ?_
    rw [pc] at hc
    simp only [Handler.holds, decide_eq_true_eq] at hc ⊢
    exact (List.mem_cons.mp hc).resolve_left (hd e).symm
  cases b with
  | send text =>
      obtain ⟨h₁, h₂, h₃, h₄⟩ := send_connections (s := s) (some c) (s.fd c) text
      exact hC.quiet h₁ h₂ h₃ h₄ fun d => hkeep d fun _ => by simp
  | close =>
      have hc : Holds s c := .handler (by rw [pc]; simp [Handler.holds])
      exact hC.close hF hc rfl rfl rfl rfl fun d hd => hkeep d fun e => absurd e hd
  | free a => exact hC.quiet rfl rfl rfl rfl fun d => hkeep d fun _ => by simp

/-- A call of a game thread. -/
theorem effect (hC : Closed s) (hF : Fds s) (hI : Inv s P) {p₁ p₂ : Addr} {b : Effect}
    {todo : List Effect} {t : Thread} (pc : s.games g = .running p₁ p₂ (b :: todo) t)
    (seat : (s.games g).seat b.who = some a) :
    Closed ((s.effect a b).setGame g (.running p₁ p₂ todo t)) := by
  obtain ⟨k, hk⟩ := hI.in_game seat
  obtain ⟨-, hown, name, -, hobj⟩ := hI.object k a (hk ▸ rfl)
  obtain ⟨ho, hw, -, hg, hh⟩ := effect_frame (s := s) a b
  have hgames : ((s.effect a b).setGame g (.running p₁ p₂ todo t)).games =
      update s.games g (.running p₁ p₂ todo t) := by
    simp only [Server.setGame, hg]
  have hkeep : ∀ d, (d = k → ∀ q, b ≠ .close q) → Holds s d →
      Holds ((s.effect a b).setGame g (.running p₁ p₂ todo t)) d := by
    refine fun d hd h => h.to_setGame hh hw ho hgames fun p x hx hxd hp => ?_
    rw [pc] at hx hp
    refine ⟨by cases p <;> exact hx, ?_⟩
    simp only [Game.holds, Bool.or_eq_true, decide_eq_true_eq] at hp ⊢
    refine hp.imp_right fun hmem => (List.mem_cons.mp hmem).resolve_left fun e => ?_
    -- the call closes the connection of this player, who is the one it is for
    subst e
    rw [pc] at seat
    have hax : a = x := Option.some.inj (seat.symm.trans hx)
    subst hax
    exact hd (Option.some.inj (hxd.symm.trans hown)) p rfl
  cases b with
  | send q text =>
      obtain ⟨h₁, h₂, h₃, h₄⟩ := send_connections (s := s) (s.owner a) (s.players a).fd text
      exact hC.quiet h₁ h₂ h₃ h₄ fun d => hkeep d fun _ _ => by simp
  | close q =>
      have hc : Holds s k := .game seat hown (by rw [pc]; simp [Game.holds, Effect.who])
      have hclose : s.effect a (.close q) = s.close (some k) (s.fd k) := by
        simp only [Server.effect, hown, hobj]
      have hfds : (s.effect a (.close q)).fds = _ := congrArg Server.fds hclose
      have hops : (s.effect a (.close q)).ops = _ := congrArg Server.ops hclose
      exact hC.close hF hc hfds rfl hops rfl fun d hd => hkeep d fun e => absurd e hd

theorem poll (hC : Closed s) {p₁ p₂ : Addr} {t : Thread} {w : Wake}
    (pc : s.games g = .running p₁ p₂ [] t) :
    Closed (s.setGame g (.running p₁ p₂ (gameTodo (iterate t w)) (iterate t w).2)) := by
  refine hC.quiet rfl rfl rfl rfl fun d h =>
    Holds.to_setGame (s := s) rfl rfl rfl rfl (fun p x hx _ _ => ?_) h
  rw [pc] at hx
  refine ⟨by cases p <;> exact hx, ?_⟩
  -- the loop goes on, or both connections are closed after it
  cases he : (iterate t w).2.ended with
  | false => simp [Game.holds, he]
  | true => cases p <;> simp [Game.holds, he, gameTodo, epilogue]

/-- A game thread that is done with both connections. -/
theorem ofDone (hC : Closed s) {G : Game} (hg : ∀ p, (s.games g).holds p = false)
    (h₁ : s'.fds = s.fds) (h₂ : s'.fd = s.fd) (h₃ : s'.ops = s.ops) (h₄ : s'.conns = s.conns)
    (hh : s'.handlers = s.handlers) (hw : s'.waiting = s.waiting) (ho : s'.owner = s.owner)
    (hgames : s'.games = update s.games g G) : Closed s' := by
  refine hC.quiet h₁ h₂ (congrArg closes h₃) h₄ fun d h => ?_
  refine h.to_setGame hh hw ho hgames fun p x _ _ hp => ?_
  rw [hg] at hp
  cases hp

/-- A handler gets to another point, and has its `close` before it if it had. -/
theorem setHandler (hC : Closed s) {H : Handler}
    (hH : (s.handlers c).holds = true → H.holds = true) : Closed (s.setHandler c H) :=
  hC.quiet rfl rfl rfl rfl fun _ h => h.to_setHandler rfl rfl rfl rfl fun _ => hH

/-- **Every step keeps it**, when it is clean. -/
theorem step (hC : Closed s) (hF : Fds s) (hI : Inv s P) (hok : Clean s e) (h : Step s e s') :
    Closed s' := by
  cases h with
  | accept => exact hC.accept hF _
  | @spawn c ok pc => exact hC.setHandler fun _ => by cases ok <;> simp [Handler.holds]
  | @receive c r pc =>
      refine hC.setHandler fun _ => ?_
      rcases openReply_cases r with h | ⟨text, h⟩ | ⟨name, h⟩ <;> rw [h] <;> simp [Handler.holds]
  | refuse => exact hC.setHandler fun _ => by simp [Handler.holds]
  | register pc unused =>
      exact hC.quiet rfl rfl rfl rfl fun _ h => h.to_setHandler rfl rfl rfl rfl fun _ _ => rfl
  | alloc pc unused => exact hC.alloc hI unused _ _
  | @greet c me pc =>
      obtain ⟨h₁, h₂, h₃, h₄⟩ := send_connections (s := s) (some c) (s.fd c) (ascii "WAIT")
      refine hC.quiet h₁ h₂ h₃ h₄ fun d h => ?_
      exact h.to_setHandler (c := c) (H := .matching me)
        (by simp only [Server.setHandler, send_handlers]) (send_waiting ..) (send_owner ..)
        (send_games ..) fun _ _ => rfl
  | take pc empty => exact hC.take hI pc empty
  | @pair c me o ok pc waits G start =>
      refine hC.pair hI pc waits (fun p => ?_) fun p => ?_
      · subst start
        cases ok <;> cases p <;> rfl
      · subst start
        cases ok <;> simp [Game.holds, begin]
  | matched pc away =>
      refine hC.setHandler fun h => ?_
      rw [pc] at h
      cases h
  | @withdraw c me ret pc here ready =>
      exact hC.withdraw here (hok me (waits_eq_some.mpr pc) here ready)
  | again => exact hC
  | reply => exact hC.setHandler fun _ => by simp [Handler.holds]
  | act pc => exact hC.act hF pc
  | effect pc seat => exact hC.effect hF hI pc seat
  | poll pc going => exact hC.poll pc
  | unregister pc ended =>
      refine hC.ofDone (fun p => ?_) rfl rfl rfl rfl rfl rfl rfl rfl
      rw [pc]
      simp [Game.holds, ended]
  | release pc =>
      refine hC.ofDone (fun p => ?_) rfl rfl rfl rfl rfl rfl rfl rfl
      rw [pc]
      rfl

end Closed

/-- Where every thread has returned, a connection that was not closed is that of a stranded
player. -/
theorem Closed.resting (hC : Closed s) (hr : Resting s) (hO : Orderly s) (hA : Accounted s)
    (hc : c < s.conns) : closes s.ops c = 1 ∨ ∃ a, Stranded s a ∧ s.owner a = some c := by
  refine (hC.done c hc).symm.imp_right fun hold => ?_
  cases hold with
  | handler h =>
      rcases hO.points.handlers_of_returned hr.handlers c with e | e <;> rw [e] at h <;> cases h
  | slot waits =>
      rw [hr.empty hO.points hA] at waits
      cases waits
  | @game g p a seat own =>
      have hu : InUse s a (.seat g p) := seat
      exact ⟨a, (hA.attended_or_stranded hu).resolve_left (hr.not_attended hO.points), own⟩

/-- **Every connection is closed once.**  In a run in which no malformed message ends a game and a
handler that withdraws a player withdraws its own: a number that is open belongs to a connection
that has not been closed, no two numbers to the same.  Where every thread has returned, each
connection was closed exactly once, but for those of the players whose game could not be started;
and where every game was started too, no number is open. -/
theorem drained_descriptors {es : List Event} (h : Run step Clean initial es s) :
    (∀ n c, s.fds n = some c → s.fd c = n ∧ closes s.ops c = 0) ∧
    (Resting s → ∀ c < s.conns,
      closes s.ops c = 1 ∨ ∃ a, Stranded s a ∧ s.owner a = some c) ∧
    (Returned s → (∀ n, s.fds n = none) ∧ ∀ c < s.conns, closes s.ops c = 1) := by
  have hinv : (∃ P, Inv s P) ∧ Fds s ∧ Closed s := by
    refine h.invariant (I := fun s => (∃ P, Inv s P) ∧ Fds s ∧ Closed s) ?_
      ⟨⟨_, inv_initial⟩, fds_initial, closed_initial⟩
    rintro s e s' ⟨⟨P, hI⟩, hF, hC⟩ hok hstep
    have hst := step_cases hstep
    exact ⟨hI.step hok.ownWithdraw hst, hF.step hI hok hst, hC.step hF hI hok hst⟩
  obtain ⟨-, -, hC⟩ := hinv
  have hO := run_orderly h
  have hA := run_accounted h
  refine ⟨fun n c hn => (hC.mine n c hn).2, fun hr c hc => hC.resting hr hO hA hc, fun hr => ?_⟩
  have hone : ∀ c < s.conns, closes s.ops c = 1 := by
    refine fun c hc => (hC.resting hr.resting hO hA hc).resolve_right ?_
    rintro ⟨a, hs, -⟩
    exact hr.not_stranded hO.points hs
  refine ⟨fun n => Option.eq_none_iff_forall_ne_some.mpr fun c hn => ?_, hone⟩
  obtain ⟨hlt, -, hzero⟩ := hC.mine n c hn
  have hc₁ := hone c hlt
  omega

theorem drained_descriptors_clean :
    closes ((Run.exec step Clean initial cleanEvents).get cleanEvents_run).ops 2 = 1 :=
  ((drained_descriptors (Run.of_isSome cleanEvents_run)).2.2
    ⟨by decide +kernel, by decide +kernel⟩).2 2 (by decide +kernel)

end CS214.Nim
