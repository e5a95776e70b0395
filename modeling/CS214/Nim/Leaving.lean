import Mathlib.Algebra.BigOperators.Group.Finset.Basic
import Mathlib.Algebra.BigOperators.Intervals
import CS214.Nim.Drain

/-!
# Nim — when everybody leaves

No thread of `nimd.c` waits for another one, but for the lock: a handler waits for its client, and a
game for its players.  `Departs` are the steps that are left when nobody comes any more, a client
that waits hangs up, and every iteration of a game is its last one; whatever else the clients still
send.

* `work_lt`: each of these steps lowers what is left to do (`Server.work`).
* `can_leave`: there is one as long as a handler or a game has not returned.
* `everybody_leaves`: in every order of the threads the server comes to rest, in so many steps, and
  nothing is left.
-/

namespace CS214.Nim

open CString Function

variable {s s' : Server} {c : Cid} {g : Gid} {a : Addr} {e : Event}

/-! ### What is left to do -/

/-- The steps a handler takes at most, with those of the game it may start. -/
def Handler.work : Handler → ℕ
  | .absent => 0
  | .accepted => 22
  | .receiving => 21
  | .opened _ => 20
  | .registered _ => 19
  | .greeting _ => 18
  | .matching _ => 17
  | .waiting _ => 5
  | .withdrawn _ => 4
  | .finishing todo => todo.length

/-- The steps a game takes at most, when the next iteration is the last one. -/
def Game.work : Game → ℕ
  | .absent | .unstarted _ _ => 0
  | .running _ _ todo t => todo.length + if t.ended then 3 else 12
  | .freeing todo => todo.length

/-- The steps that are left at most, of all handlers and games. -/
def Server.work (s : Server) : ℕ :=
  ∑ c ∈ Finset.range s.conns, (s.handlers c).work +
    ∑ g ∈ Finset.range s.created, (s.games g).work

/-- Nobody comes, who waits hangs up, and every iteration of a game ends it.  The thread of a game
can be created. -/
def Departs (s : Server) : Event → Prop
  | .accept _ => False
  | .enter _ ok => ok = true
  | .recheck _ ret => 0 < ret
  | .poll g w => ∀ p₁ p₂ todo t, s.games g = .running p₁ p₂ todo t → (iterate t w).2.ended = true
  | _ => True

theorem sum_update {β : Type*} (size : β → ℕ) (f : ℕ → β) {n i : ℕ} (hi : i < n) (x : β) :
    ∑ j ∈ Finset.range n, size (update f i x j) + size (f i) =
      ∑ j ∈ Finset.range n, size (f j) + size x := by
  have hmem := Finset.mem_range.mpr hi
  rw [← Finset.add_sum_erase _ _ hmem, ← Finset.add_sum_erase _ (fun j => size (f j)) hmem,
    update_self]
  have hrest : ∑ j ∈ (Finset.range n).erase i, size (update f i x j) =
      ∑ j ∈ (Finset.range n).erase i, size (f j) :=
    Finset.sum_congr rfl fun j hj => by rw [update_of_ne (Finset.ne_of_mem_erase hj)]
  omega

/-- A handler that has not returned is one of a connection. -/
theorem Points.conn_lt (hP : Points s) (hc : s.handlers c ≠ .absent) : c < s.conns :=
  Nat.lt_of_not_le fun h => hc (hP.conns c h)

theorem Points.game_lt (hP : Points s) (hg : s.games g ≠ .absent) : g < s.created :=
  Nat.lt_of_not_le fun h => hg (hP.created g h)

/-- A handler that gets to a point with less to do. -/
theorem work_handler (hP : Points s) {H K : Handler} (pc : s.handlers c = K) (hK : K ≠ .absent)
    (hlt : H.work < K.work) (hh : s'.handlers = update s.handlers c H) (hn : s'.conns = s.conns)
    (hg : s'.games = s.games) (hm : s'.created = s.created) : s'.work < s.work := by
  subst pc
  have hsum := sum_update Handler.work s.handlers (hP.conn_lt hK) H
  rw [Server.work, Server.work, hh, hn, hg, hm]
  omega

/-- A game that gets to a point with less to do. -/
theorem work_game (hP : Points s) {G K : Game} (pc : s.games g = K) (hK : K ≠ .absent)
    (hlt : G.work < K.work) (hg : s'.games = update s.games g G) (hm : s'.created = s.created)
    (hh : s'.handlers = s.handlers) (hn : s'.conns = s.conns) : s'.work < s.work := by
  subst pc
  have hsum := sum_update Game.work s.games (hP.game_lt hK) G
  rw [Server.work, Server.work, hh, hn, hg, hm]
  omega

theorem checkIdle_length (t : Thread) (w : Wake) : (checkIdle t w).1.length ≤ 2 := by
  simp only [checkIdle]
  repeat' split
  all_goals simp [forfeited, dropInvalid]

theorem move_length (t : Thread) (i n : ℤ) : (move t i n).1.length ≤ 2 := by
  simp only [move]
  repeat' split
  all_goals simp

theorem checkActive_length (t : Thread) (w : Wake) : (checkActive t w).1.length ≤ 2 := by
  simp only [checkActive]
  repeat' split
  all_goals first | exact move_length .. | simp [forfeited, dropInvalid]

theorem iterate_length (t : Thread) (w : Wake) : (iterate t w).1.length ≤ 4 := by
  have hidle := checkIdle_length t w
  have hactive := checkActive_length (checkIdle t w).2 w
  simp only [iterate]
  split
  · simp
  · split
    · omega
    · rw [List.length_append]
      omega

theorem epilogue_length (t : Thread) : (epilogue t).length ≤ 4 := by
  rw [epilogue, announce]
  repeat' split
  all_goals simp

/-- **Every such step lowers what is left to do.** -/
theorem work_lt (hP : Points s) (hl : Departs s e) (h : Step s e s') : s'.work < s.work := by
  cases h with
  | accept => exact hl.elim
  | @spawn c ok pc =>
      refine work_handler hP pc (by simp) ?_ rfl rfl rfl rfl
      cases ok <;> simp [Handler.work]
  | @receive c r pc =>
      refine work_handler hP pc (by simp) ?_ rfl rfl rfl rfl
      rcases openReply_cases r with h | ⟨text, h⟩ | ⟨name, h⟩ <;> rw [h] <;> simp [Handler.work]
  | refuse pc => exact work_handler hP pc (by simp) (by simp [Handler.work]) rfl rfl rfl rfl
  | register pc => exact work_handler hP pc (by simp) (by simp [Handler.work]) rfl rfl rfl rfl
  | alloc pc => exact work_handler hP pc (by simp) (by simp [Handler.work]) rfl rfl rfl rfl
  | @greet c me pc =>
      obtain ⟨ops, hs⟩ := send_shape s (some c) (s.fd c) (ascii "WAIT")
      rw [hs]
      exact work_handler (H := .matching me) hP pc (by simp) (by simp [Handler.work]) rfl rfl rfl
        rfl
  | take pc empty => exact work_handler hP pc (by simp) (by simp [Handler.work]) rfl rfl rfl rfl
  | @pair c me o ok pc waits G start =>
      obtain rfl : ok = true := hl
      have hsum := sum_update Handler.work s.handlers
        (hP.conn_lt (c := c) (by rw [pc]; simp)) (.finishing [])
      have hgames : ∑ g ∈ Finset.range s.created, (update s.games s.created G g).work =
          ∑ g ∈ Finset.range s.created, (s.games g).work :=
        Finset.sum_congr rfl fun g hg => by
          rw [update_of_ne (Nat.ne_of_lt (Finset.mem_range.mp hg))]
      have hgame : G.work = 16 := by rw [start]; rfl
      rw [pc] at hsum
      simp only [Server.work, Server.setGame, Server.setHandler, Finset.sum_range_succ, hgames,
        update_self, hgame]
      have hmatching : (Handler.matching me).work = 17 := rfl
      have hdone : (Handler.finishing []).work = 0 := rfl
      omega
  | matched pc away => exact work_handler hP pc (by simp) (by simp [Handler.work]) rfl rfl rfl rfl
  | withdraw pc => exact work_handler hP pc (by simp) (by simp [Handler.work]) rfl rfl rfl rfl
  | again pc here idle => exact absurd hl idle
  | @reply c me r pc =>
      refine work_handler hP pc (by simp) ?_ rfl rfl rfl rfl
      rcases withdrawReply_cases r with h | ⟨text, h⟩ <;> rw [h] <;> simp [Handler.work]
  | @act c b todo pc =>
      obtain ⟨ops, fds, alloc, hs, -⟩ := act_shape s c b
      rw [hs]
      exact work_handler (H := .finishing todo) hP pc (by simp) (by simp [Handler.work]) rfl rfl rfl
        rfl
  | @effect g p₁ p₂ p b todo t pc seat =>
      obtain ⟨ops, fds, hs⟩ := effect_shape s p b
      rw [hs]
      exact work_game (G := .running p₁ p₂ todo t) hP pc (by simp) (by simp [Game.work]) rfl rfl rfl
        rfl
  | @poll g p₁ p₂ t w pc going =>
      have hended := hl p₁ p₂ [] t pc
      refine work_game hP pc (by simp) ?_ rfl rfl rfl rfl
      have h₁ := iterate_length t w
      have h₂ := epilogue_length (iterate t w).2
      simp only [Game.work, gameTodo, hended, going, if_true, List.length_append, List.length_nil,
        Bool.false_eq_true, if_false]
      omega
  | unregister pc ended =>
      exact work_game hP pc (by simp) (by simp [Game.work, ended]) rfl rfl rfl rfl
  | release pc => exact work_game hP pc (by simp) (by simp [Game.work]) rfl rfl rfl rfl

/-! ### Some thread can go on -/

/-- There is an address that is not allocated. -/
def Roomy (s : Server) : Prop := ∃ n, ∀ a, n ≤ a → s.allocated a = false

theorem Roomy.free (h : Roomy s) (a : Addr) (ha : s'.allocated = update s.allocated a false) :
    Roomy s' := by
  obtain ⟨n, hn⟩ := h
  refine ⟨n, fun b hb => ?_⟩
  rw [ha, update_apply]
  split
  · rfl
  · exact hn b hb

theorem Roomy.step (hR : Roomy s) (h : Step s e s') : Roomy s' := by
  have hsame : s'.allocated = s.allocated → Roomy s' := by
    intro ha
    obtain ⟨n, hn⟩ := hR
    exact ⟨n, fun a h => ha ▸ hn a h⟩
  cases h with
  | @alloc c a name pc unused =>
      obtain ⟨n, hn⟩ := hR
      refine ⟨max n (a + 1), fun b hb => ?_⟩
      obtain ⟨h₁, h₂⟩ := Nat.max_le.mp hb
      exact (update_of_ne (Nat.ne_of_gt h₂) _ _).trans (hn b h₁)
  | @greet c me pc =>
      obtain ⟨ops, hs⟩ := send_shape s (some c) (s.fd c) (ascii "WAIT")
      exact hsame (by rw [hs]; rfl)
  | @act c b todo pc =>
      obtain ⟨ops, fds, alloc, hs, halloc⟩ := act_shape s c b
      rcases halloc with rfl | ⟨a, -, rfl⟩
      · exact hsame (by rw [hs]; rfl)
      · exact hR.free a (by rw [hs]; rfl)
  | @effect g p₁ p₂ p b todo t pc seat =>
      obtain ⟨ops, fds, hs⟩ := effect_shape s p b
      exact hsame (by rw [hs]; rfl)
  | release => exact hR.free _ rfl
  | accept | spawn | receive | refuse | register | take | pair | matched | withdraw | again | reply
  | poll | unregister => exact hsame rfl

/-- Both players have hung up. -/
def hangUp : Wake := ⟨2, fun _ => true, fun _ => []⟩

theorem iterate_hangUp (t : Thread) : (iterate t hangUp).2.ended = true := by
  simp only [iterate, checkIdle]
  rfl

theorem can_depart (hl : Departs s e) (he : step s e ≠ none) :
    ∃ e s', Departs s e ∧ step s e = some s' := by
  obtain ⟨s', hs'⟩ := Option.ne_none_iff_exists'.mp he
  exact ⟨e, s', hl, hs'⟩

/-- A handler that has not returned can go on. -/
theorem handler_can_leave (hR : Roomy s) (hc : (s.handlers c).returned = false) :
    ∃ e s', Departs s e ∧ step s e = some s' := by
  cases pc : s.handlers c with
  | absent =>
      rw [pc] at hc
      cases hc
  | accepted => exact can_depart (e := .spawn c true) trivial (by simp [step, pc])
  | receiving => exact can_depart (e := .receive c .gone) trivial (by simp [step, pc])
  | opened name =>
      refine can_depart (e := .register c) trivial ?_
      simp only [step, pc]
      split <;> simp
  | registered name =>
      obtain ⟨n, hn⟩ := hR
      exact can_depart (e := .alloc c n) trivial (by simp [step, pc, hn n (Nat.le_refl n)])
  | greeting me => exact can_depart (e := .greet c) trivial (by simp [step, pc])
  | matching me =>
      refine can_depart (e := .enter c true) rfl ?_
      simp only [step, pc]
      split <;> simp
  | waiting me =>
      refine can_depart (e := .recheck c 1) (by simp [Departs]) ?_
      simp only [step, pc]
      repeat' split
      all_goals simp
  | withdrawn me => exact can_depart (e := .reply c .gone) trivial (by simp [step, pc])
  | finishing todo =>
      cases todo with
      | nil =>
          rw [pc] at hc
          cases hc
      | cons a todo => exact can_depart (e := .act c) trivial (by simp [step, pc])

/-- A game that is not over can go on. -/
theorem game_can_leave (hS : Started s) (hg : (s.games g).returned = false) :
    ∃ e s', Departs s e ∧ step s e = some s' := by
  cases pc : s.games g with
  | absent =>
      rw [pc] at hg
      cases hg
  | unstarted p₁ p₂ => exact absurd pc (hS g p₁ p₂)
  | running p₁ p₂ todo t =>
      cases todo with
      | cons b todo => exact can_depart (e := .effect g) trivial (by simp [step, pc])
      | nil =>
          cases ht : t.ended with
          | true => exact can_depart (e := .unregister g) trivial (by simp [step, pc, ht])
          | false =>
              have hl : Departs s (.poll g hangUp) := fun _ _ _ t' _ => iterate_hangUp t'
              exact can_depart hl (by simp [step, pc, ht])
  | freeing todo =>
      cases todo with
      | nil =>
          rw [pc] at hg
          cases hg
      | cons a todo => exact can_depart (e := .release g) trivial (by simp [step, pc])

theorem can_leave (hR : Roomy s) (hS : Started s) (h : ¬ Returned s) :
    ∃ e s', Departs s e ∧ step s e = some s' := by
  by_contra hno
  refine h ⟨fun c _ => ?_, fun g _ => ?_⟩
  · by_contra hc
    exact hno (handler_can_leave hR (Bool.eq_false_iff.mpr hc))
  · by_contra hg
    exact hno (game_can_leave hS (Bool.eq_false_iff.mpr hg))

/-! ### Everybody leaves -/

/-- The thread of every game can be created. -/
def GamesStart (s : Server) (e : Event) : Prop :=
  ∀ c ok, e = .enter c ok → s.waiting ≠ none → ok = true

theorem gamesStart_iff : GamesStart s e ↔ StartsGames s e := by
  constructor
  · intro h
    cases e with
    | enter c ok => exact h c ok rfl
    | _ => exact trivial
  · rintro h c ok rfl
    exact h

instance : Decidable (GamesStart s e) := decidable_of_iff _ gamesStart_iff.symm

theorem Departs.gamesStart (h : Departs s e) : GamesStart s e := by
  rintro c ok rfl -
  exact h

/-- What the server is in, in every run in which the games are started. -/
structure Settled (s : Server) : Prop where
  orderly : Orderly s
  accounted : Accounted s
  started : Started s
  roomy : Roomy s

theorem settled_initial : Settled initial where
  orderly := orderly_initial
  accounted := accounted_initial
  started g p₁ p₂ h := by cases h
  roomy := ⟨0, fun _ _ => rfl⟩

theorem Settled.step (hs : Settled s) (hok : GamesStart s e) (h : step s e = some s') :
    Settled s' where
  orderly := hs.orderly.step (step_cases h)
  accounted := hs.accounted.step hs.orderly.points (step_cases h)
  started := (step_cases h).started hok hs.started
  roomy := hs.roomy.step (step_cases h)

/-- **Everybody leaves.**  From every state the server can get to, if the threads of the games were
created: once nobody comes any more, those who wait hang up and the games end, no order of the
threads takes more steps than `work` says; where none of them can go on, every handler has returned
and every game is over, and no name, no waiting player and no object is left; and it comes to
that. -/
theorem everybody_leaves {es : List Event} (h : Run step GamesStart initial es s) :
    (∀ es' s', Run step Departs s es' s' → es'.length ≤ s.work) ∧
    (∀ es' s', Run step Departs s es' s' → (∀ e s'', Departs s' e → step s' e ≠ some s'') →
      Returned s' ∧ s'.names = [] ∧ s'.waiting = none ∧ ∀ a, s'.allocated a = false) ∧
    ∃ es' s', Run step Departs s es' s' ∧ Returned s' := by
  have hs : Settled s := h.invariant (fun _ _ _ hs hok hstep => hs.step hok hstep) settled_initial
  have hI : ∀ s e s', Settled s → Departs s e → step s e = some s' → Settled s' :=
    fun _ _ _ hs hl hstep => hs.step hl.gamesStart hstep
  have hlt : ∀ s e s', Settled s → Departs s e → step s e = some s' → s'.work < s.work :=
    fun _ _ _ hs hl hstep => work_lt hs.orderly.points hl (step_cases hstep)
  refine ⟨fun es' s' hrun => ?_, fun es' s' hrun hstop => ?_, ?_⟩
  · have := hrun.length_le hI hlt hs
    omega
  · have hs' : Settled s' := hrun.invariant hI hs
    have hr : Returned s' := by
      by_contra hr
      obtain ⟨e, s'', hl, hstep⟩ := can_leave hs'.roomy hs'.started hr
      exact hstop e s'' hl hstep
    exact ⟨hr, hr.empty hs'.orderly hs'.accounted⟩
  · exact Run.exists_goal hI hlt (fun s hs hr => can_leave hs.roomy hs.started hr) hs

/-- Ann and Bob play, Ann has moved and the thread is to answer; Cat waits for a player, Dan has
connected, and the handler of Ann has not returned. -/
def busyEvents : List Event :=
  comes 0 4 100 "Ann" ++ comes 1 5 200 "Bob" ++ comes 2 6 300 "Cat" ++ [.accept 7, .spawn 3 true] ++
    List.replicate 4 (.effect 0) ++ [.poll 0 (.from .one "0|09|MOVE|4|9|")]

theorem busyEvents_run : (Run.exec step GamesStart initial busyEvents).isSome = true := by
  decide +kernel

/-- A client waits and a game is running, and within 45 steps all of them leave. -/
theorem everybody_leaves_sample :
    ∃ s, Run step GamesStart initial busyEvents s ∧
      s.waiting = some 300 ∧ (s.games 0).runs = true ∧
      (∀ es' s', Run step Departs s es' s' → es'.length ≤ 45) ∧
      ∃ es' s', Run step Departs s es' s' ∧ Returned s' := by
  have hrun := Run.of_isSome busyEvents_run
  obtain ⟨hlength, -, hend⟩ := everybody_leaves hrun
  refine ⟨_, hrun, by decide +kernel, by decide +kernel, fun es' s' h => ?_, hend⟩
  exact (hlength es' s' h).trans (by decide +kernel)

end CS214.Nim
