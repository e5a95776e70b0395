import Mathlib.Algebra.BigOperators.Fin
import CS214.Nim.Iteration

/-!
# Nim — the thread plays Nim

`Thread.position` forgets everything but the piles and the turn.  An iteration that accepts a move
plays it, and every other iteration leaves piles and turn as they were
(`Iteration.moved_of_accepts`, `Iteration.same_of_not_accepts`).  So the moves accepted along a run
of the loop are a play of Nim from 1, 3, 5, 7, 9 (`run_plays`), and `nim_safety` collects what
follows for the piles, the number of moves and the winner.
-/

namespace CS214.Nim

open CString NimGame

variable {t t' : Thread} {w : Wake} {p : Seat} {m : Move (Fin 5)} {es : List Effect}

/-- The position of the abstract game. -/
def Thread.position (t : Thread) : Position (Fin 5) := ⟨fun i => (t.piles i).toNat, t.turn⟩

/-- The position in which a game starts. -/
def start : Position (Fin 5) := ⟨fun i => 2 * i.val + 1, .one⟩

/-- The moves accepted in a list of iterations. -/
inductive Accepted : Thread → List Wake → List (Move (Fin 5)) → Prop where
  | nil (t : Thread) : Accepted t [] []
  | move {t : Thread} {w : Wake} {ws : List Wake} {m : Move (Fin 5)} {ms : List (Move (Fin 5))}
      (acc : Accepts t w m) (h : Accepted (iterate t w).2 ws ms) : Accepted t (w :: ws) (m :: ms)
  | other {t : Thread} {w : Wake} {ws : List Wake} {ms : List (Move (Fin 5))}
      (no : ∀ m, ¬ Accepts t w m) (h : Accepted (iterate t w).2 ws ms) : Accepted t (w :: ws) ms

/-! ### One iteration -/

/-- An accepted move takes its stones from its pile, and the turn passes unless it takes the last
stone. -/
theorem Iteration.moved_of_accepts (h : Iteration t w es t') (ha : Accepts t w m) :
    t'.piles = Function.update t.piles m.pile (t.piles m.pile - m.amount) ∧
      t'.turn = if stones t'.piles = 0 then t.turn else t.turn.other := by
  have htake : takeFrom t.piles m.pile.val m.amount =
      Function.update t.piles m.pile (t.piles m.pile - m.amount) := by
    have : pileAt (m.pile.val : ℤ) = m.pile := by simp [pileAt]
    rw [takeFrom, this]
  cases h with
  | failed ret => exact absurd ha.reads.polled (by omega)
  | same _ no => exact absurd ha (no m)
  | moved _ acc left =>
      obtain rfl := ha.unique acc
      exact ⟨htake, (if_neg left).symm⟩
  | won _ acc none_left =>
      obtain rfl := ha.unique acc
      exact ⟨htake, (if_pos none_left).symm⟩
  | gone _ left => exact absurd ha (Stops.not_accepts (.inl left) m)
  | dropped _ bad => exact absurd ha (Stops.not_accepts (.inr bad) m)

/-- Without an accepted move piles and turn stay. -/
theorem Iteration.same_of_not_accepts (h : Iteration t w es t') (hno : ∀ m, ¬ Accepts t w m) :
    t'.piles = t.piles ∧ t'.turn = t.turn := by
  cases h with
  | moved _ acc _ => exact absurd acc (hno _)
  | won _ acc _ => exact absurd acc (hno _)
  | failed | same | gone | dropped => exact ⟨rfl, rfl⟩

/-! ### Positions -/

theorem stones_position (h : ∀ i, 0 ≤ t.piles i) : (t.position.stones : ℤ) = stones t.piles := by
  have h₀ := h 0
  have h₁ := h 1
  have h₂ := h 2
  have h₃ := h 3
  have h₄ := h 4
  simp only [Position.stones, Thread.position, Fin.sum_univ_five, stones]
  omega

theorem Accepts.legal (ha : Accepts t w m) : Legal t.position m :=
  ⟨ha.pos, by have := ha.le; simp only [Thread.position]; omega⟩

/-- An accepted move keeps piles from going below zero, and plays the move. -/
theorem Iteration.position_of_accepts (h : Iteration t w es t') (ha : Accepts t w m)
    (hs : ∀ i, 0 ≤ t.piles i) : (∀ i, 0 ≤ t'.piles i) ∧ t'.position = t.position.play m := by
  obtain ⟨hp, ht⟩ := h.moved_of_accepts ha
  have hle := ha.le
  have hs' : ∀ i, 0 ≤ t'.piles i := by
    intro i
    rw [hp]
    by_cases hi : i = m.pile
    · subst hi
      rw [Function.update_self]
      omega
    · rw [Function.update_of_ne hi]
      exact hs i
  have hpiles : t'.position.piles = t.position.take m := by
    funext i
    simp only [Thread.position, Position.take, hp]
    by_cases hi : i = m.pile
    · subst hi
      rw [Function.update_self, Function.update_self]
      omega
    · rw [Function.update_of_ne hi, Function.update_of_ne hi]
  have hstones : (t.position.play m).stones = t'.position.stones := by
    rw [Position.stones, play_piles, ← hpiles, Position.stones]
  refine ⟨hs', Position.ext (by rw [play_piles, hpiles]) ?_⟩
  rw [play_turn, hstones]
  have hiff : t'.position.stones = 0 ↔ stones t'.piles = 0 := by
    rw [← stones_position hs']
    omega
  simp only [hiff]
  exact ht

/-! ### Runs -/

theorem pollStep_some {s s' : Play} (h : pollStep s w = some s') :
    s.thread.ended = false ∧ s' = ⟨s.log ++ (iterate s.thread w).1, (iterate s.thread w).2⟩ := by
  unfold pollStep at h
  split at h
  · cases h
  · next he => exact ⟨Bool.eq_false_iff.mpr he, (Option.some.inj h).symm⟩

/-- The moves accepted along a run are a play. -/
theorem run_plays {s s' : Play} {ws : List Wake} (h : Run pollStep (fun _ _ => True) s ws s')
    (hs : ∀ i, 0 ≤ s.thread.piles i) :
    (∀ i, 0 ≤ s'.thread.piles i) ∧
      ∃ ms, Accepted s.thread ws ms ∧ Plays s.thread.position ms s'.thread.position := by
  induction h with
  | nil s => exact ⟨hs, [], .nil _, .nil _⟩
  | @cons s s₁ s' w ws _ hstep _ ih =>
      obtain ⟨he, rfl⟩ := pollStep_some hstep
      have hit := iteration he w
      by_cases hacc : ∃ m, Accepts s.thread w m
      · obtain ⟨m, ha⟩ := hacc
        obtain ⟨hs₁, hpos⟩ := hit.position_of_accepts ha hs
        obtain ⟨hs', ms, h₁, h₂⟩ := ih hs₁
        simp only [hpos] at h₂
        exact ⟨hs', m :: ms, .move ha h₁, .cons ha.legal h₂⟩
      · have hno := not_exists.mp hacc
        obtain ⟨hp, ht⟩ := hit.same_of_not_accepts hno
        obtain ⟨hs', ms, h₁, h₂⟩ := ih (by simp only [hp]; exact hs)
        have hpos : (iterate s.thread w).2.position = s.thread.position := by
          rw [Thread.position, hp, ht, Thread.position]
        simp only [hpos] at h₂
        exact ⟨hs', ms, .other hno h₁, h₂⟩

/-- There is no winner before the loop is left, and a winner without a reason is on turn and left no
stones. -/
structure Undecided (t : Thread) : Prop where
  running : t.ended = false → t.winner = none
  won : ∀ v, t.winner = some v → t.reason = [] → stones t.piles = 0 ∧ t.turn = v

theorem Iteration.undecided (h : Iteration t w es t') (hu : Undecided t) (he : t.ended = false) :
    Undecided t' := by
  have hw := hu.running he
  cases h with
  | failed | dropped =>
      refine ⟨fun e => absurd e (by simp [dropInvalid]), fun v hv => ?_⟩
      exact absurd (hw.symm.trans hv) (by simp)
  | same => exact hu
  | moved => exact ⟨fun _ => hw, fun v hv => absurd (hw.symm.trans hv) (by simp)⟩
  | won _ _ none_left =>
      exact ⟨fun e => absurd e (by simp [Thread.won]),
        fun v hv _ => ⟨none_left, Option.some.inj hv⟩⟩
  | gone =>
      refine ⟨fun e => absurd e (by simp [forfeited]), fun v _ hr => ?_⟩
      exact absurd hr (by simp [forfeited, forfeit, ascii])

theorem run_undecided {s : Play} {ws : List Wake} {name₁ name₂ : Bytes}
    (h : Run pollStep (fun _ _ => True) (opening name₁ name₂) ws s) : Undecided s.thread := by
  refine h.invariant (I := fun s => Undecided s.thread) (fun s w s' hu _ hstep => ?_)
    ⟨fun _ => rfl, fun v hv => absurd hv (by simp [opening, begin])⟩
  obtain ⟨he, rfl⟩ := pollStep_some hstep
  exact (iteration he w).undecided hu he

/-- Only the end of the other player's connection makes a winner by forfeit. -/
theorem Iteration.gone_of_forfeit (h : Iteration t w es t') (hw : t.winner = none) {v : Seat}
    (hv : t'.winner = some v) (hr : t'.reason = forfeit) : Gone t w v.other := by
  cases h with
  | failed | same | moved | dropped => exact absurd (hw.symm.trans hv) (by simp)
  | won => exact absurd hr (by simp [Thread.won, forfeit, ascii])
  | gone _ left =>
      obtain rfl := Option.some.inj hv
      rwa [Seat.other_other]

theorem run_forfeit {s : Play} {ws : List Wake} {name₁ name₂ : Bytes}
    (h : Run pollStep (fun _ _ => True) (opening name₁ name₂) ws s) {v : Seat}
    (hv : s.thread.winner = some v) (hr : s.thread.reason = forfeit) :
    ∃ ws' w r, ws = ws' ++ [w] ∧ Run pollStep (fun _ _ => True) (opening name₁ name₂) ws' r ∧
      Gone r.thread w v.other := by
  rcases h.last with ⟨-, rfl⟩ | ⟨ws', w, r, e, h₁, -, hstep⟩
  · cases hv
  · obtain ⟨he, rfl⟩ := pollStep_some hstep
    exact ⟨ws', w, r, e, h₁,
      (iteration he w).gone_of_forfeit ((run_undecided h₁).running he) hv hr⟩

theorem begin_position : begin.position = start := by
  simp only [begin, Thread.position, start, initialPiles]
  congr

/-- The moves accepted since the start are a play. -/
theorem run_from_start {s : Play} {ws : List Wake} {name₁ name₂ : Bytes}
    (h : Run pollStep (fun _ _ => True) (opening name₁ name₂) ws s) :
    (∀ i, 0 ≤ s.thread.piles i) ∧
      ∃ moves, Accepted begin ws moves ∧ Plays start moves s.thread.position := by
  obtain ⟨hs, moves, hacc, hplays⟩ := run_plays h fun i => by
    simp only [opening, begin, initialPiles]
    omega
  rw [opening, begin_position] at hplays
  exact ⟨hs, moves, hacc, hplays⟩

/-- Piles do not grow. -/
theorem run_piles_le {s : Play} {ws : List Wake} {name₁ name₂ : Bytes}
    (h : Run pollStep (fun _ _ => True) (opening name₁ name₂) ws s) (i : Fin 5) :
    s.thread.piles i ≤ initialPiles i := by
  obtain ⟨hs, moves, -, hplays⟩ := run_from_start h
  have hle := hplays.piles_le i
  have hi := hs i
  simp only [Thread.position, start] at hle
  simp only [initialPiles]
  omega

/-- **Safety of the game.**  Whatever the players send, in whatever order, and whenever they
disconnect: the moves accepted so far are a play of Nim that leads to the current piles and turn;
there are at most 25; a winner without a reason made the last of them; a winner by forfeit is there
because the other connection ended in the last iteration; and the next iteration plays the move it
accepts, or leaves piles and turn alone. -/
theorem nim_safety {name₁ name₂ : Bytes} {wakes : List Wake} {s : Play}
    (h : Run pollStep (fun _ _ => True) (opening name₁ name₂) wakes s) :
    (∃ moves, Accepted begin wakes moves ∧ Plays start moves s.thread.position ∧
      moves.length ≤ 25 ∧
      ∀ v, s.thread.winner = some v → s.thread.reason = [] →
        ∃ ms m Q, moves = ms ++ [m] ∧ Plays start ms Q ∧ Legal Q m ∧ Q.turn = v ∧
          (Q.play m).stones = 0) ∧
    (∀ i, 0 ≤ s.thread.piles i ∧ s.thread.piles i ≤ initialPiles i) ∧
    (∀ v, s.thread.winner = some v → s.thread.reason = forfeit →
      ∃ ws w r, wakes = ws ++ [w] ∧
        Run pollStep (fun _ _ => True) (opening name₁ name₂) ws r ∧ Gone r.thread w v.other) ∧
    (∀ w, s.thread.ended = false →
      (∀ m, Accepts s.thread w m →
        (iterate s.thread w).2.piles =
            Function.update s.thread.piles m.pile (s.thread.piles m.pile - m.amount) ∧
          (iterate s.thread w).2.turn =
            if stones (iterate s.thread w).2.piles = 0 then s.thread.turn
            else s.thread.turn.other) ∧
      ((∀ m, ¬ Accepts s.thread w m) →
        (iterate s.thread w).2.piles = s.thread.piles ∧
          (iterate s.thread w).2.turn = s.thread.turn)) := by
  obtain ⟨hs, moves, hacc, hplays⟩ := run_from_start h
  have h25 : start.stones = 25 := by decide
  have hlen := hplays.length_le
  refine ⟨⟨moves, hacc, hplays, by omega, fun v hv hr => ?_⟩,
    fun i => ⟨hs i, run_piles_le h i⟩,
    fun v hv hr => run_forfeit h hv hr,
    fun w he => ⟨fun m ha => (iteration he w).moved_of_accepts ha,
      fun hno => (iteration he w).same_of_not_accepts hno⟩⟩
  · obtain ⟨hz, rfl⟩ := (run_undecided h).won v hv hr
    have hz' : s.thread.position.stones = 0 := by
      have := stones_position hs
      omega
    have hne : moves ≠ [] := by
      rintro rfl
      rw [hplays.eq_of_nil, h25] at hz'
      omega
    obtain ⟨ms, m, Q, e, h₁, h₂, h₃, h₄⟩ := hplays.last hne hz'
    exact ⟨ms, m, Q, e, h₁, h₂, h₃, h₄ ▸ hz'⟩

/-- One player is readable and sends the bytes. -/
def Wake.from (p : Seat) (text : String) : Wake where
  ret := 1
  ready q := q == p
  input q := if q = p then [ascii text] else []

/-- A game of five moves with an impatient one; player 1 takes the last stone. -/
def sampleWakes : List Wake :=
  [.from .one "0|09|MOVE|4|9|", .from .one "0|09|MOVE|3|1|", .from .two "0|09|MOVE|3|7|",
    .from .one "0|09|MOVE|2|5|", .from .two "0|09|MOVE|1|3|", .from .one "0|09|MOVE|0|1|"]

theorem sampleWakes_run :
    (Run.exec pollStep (fun _ _ => True) (opening (ascii "Ann") (ascii "Bob")) sampleWakes).isSome =
      true := by
  decide +kernel

theorem nim_safety_sample :
    ∃ moves : List (Move (Fin 5)), Accepted begin sampleWakes moves ∧ moves.length ≤ 25 := by
  obtain ⟨⟨moves, h₁, -, h₂, -⟩, -⟩ := nim_safety (Run.of_isSome sampleWakes_run)
  exact ⟨moves, h₁, h₂⟩

end CS214.Nim
