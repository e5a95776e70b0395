import CS214.Lib.NimSum
import CS214.Nim.Fields

/-!
# Nim — the first player can win

The nim-sum of 1, 3, 5, 7 and 9 is not zero, so player 1 is ahead from the start.  Here that is a
fact about the thread: whatever player 2 sends and whenever the messages come, a player 1 who
answers with `bestMove` is told a legal move on every turn, and the frame that says it is accepted
(`accepts_of_frame`); and a game that ends with the last stone is won by player 1
(`first_player_wins`).
-/

namespace CS214.Nim

open CString NimGame

variable {t t' : Thread} {w : Wake} {p : Seat} {m : Move (Fin 5)} {rest : Bytes}

/-- The move that leaves the nim-sum zero, if there is one. -/
def bestMove (t : Thread) : Option (Move (Fin 5)) := reply (List.finRange 5) t.position

/-- The body of the `MOVE` that says a move. -/
def moveBody (m : Move (Fin 5)) : Bytes := decimal m.pile.val ++ pipe :: decimal m.amount

/-! ### A move that is sent is accepted -/

/-- A digit is its own numeral. -/
theorem exactNumeral_digit {k : ℕ} (h : k < 10) : exactNumeral (decimal k) = some (k : ℤ) := by
  have hall : ∀ k : Fin 10, exactNumeral (decimal (k.val : ℤ)) = some (k.val : ℤ) := by decide
  exact hall ⟨k, h⟩

theorem decimal_digit_length {k : ℕ} (h : k < 10) : (decimal k).length = 1 := by
  have hall : ∀ k : Fin 10, (decimal (k.val : ℤ)).length = 1 := by decide
  exact hall ⟨k, h⟩

/-- The frame of a legal move, from the player on turn, is accepted as that move. -/
theorem accepts_of_frame (hr : Reads t w t.turn) (hw : (w.input t.turn).Whole)
    (hbytes : (w.input t.turn).flatten = message (ascii "MOVE") (moveBody m) ++ rest)
    (hm : Legal t.position m) (hp : ∀ i, t.piles i ≤ 9) : Accepts t w m := by
  obtain ⟨hpos, hle⟩ := hm
  have hpile := m.pile.isLt
  have hnine := hp m.pile
  simp only [Thread.position] at hle
  have hamount : m.amount < 10 := by omega
  have hlen : (moveBody m).length ≤ 93 := by
    rw [moveBody, List.length_append, List.length_cons, decimal_digit_length (by omega),
      decimal_digit_length hamount]
    decide
  have ha := exactNumeral_digit (show m.pile.val < 10 by omega)
  have hb := exactNumeral_digit hamount
  have hrec := receiveMsg_message_any (by decide) (by decide) (message_fits rfl hlen) hw hbytes
  have hnul : untilNul (moveBody m) = moveBody m := by
    rw [moveBody, untilNul_fields (exactNumeral_noNul ha), untilNul_eq_self (exactNumeral_noNul hb)]
  rw [hnul] at hrec
  refine ⟨hr, ⟨_, _, hrec, exactNumeral_noPipe ha, ?_, ?_⟩, hpos, by omega⟩
  · exact atoi_exact ha (by omega) (by omega)
  · exact atoi_exact hb (by omega) (by omega)

/-! ### A player 1 who answers with `bestMove` -/

/-- What is accepted from player 1 is `bestMove`. -/
def PlaysBest (s : Play) (w : Wake) : Prop :=
  s.thread.turn = .one → ∀ m, Accepts s.thread w m → bestMove s.thread = some m

/-- Piles are not negative, player 1 is ahead, and while the loop runs there are stones. -/
structure OneAhead (t : Thread) : Prop where
  nonneg : ∀ i, 0 ≤ t.piles i
  ahead : Ahead .one t.position
  left : t.ended = false → stones t.piles ≠ 0

theorem OneAhead.stones_position (h : OneAhead t) (he : t.ended = false) :
    t.position.stones ≠ 0 := by
  have hs := Nim.stones_position h.nonneg
  have hne := h.left he
  omega

/-- The move exists, is legal and leaves the sum zero. -/
theorem OneAhead.bestMove (h : OneAhead t) (he : t.ended = false) (ht : t.turn = .one) :
    ∃ m, Nim.bestMove t = some m ∧ Legal t.position m ∧ nimSum (t.position.take m) = 0 :=
  h.ahead.reply (h.stones_position he) ht List.mem_finRange

theorem oneAhead_begin : OneAhead begin where
  nonneg i := by
    simp only [begin, initialPiles]
    omega
  ahead := by
    have hsum : nimSum start.piles ≠ 0 := by decide
    have hstones : start.stones ≠ 0 := by decide
    rw [begin_position, Ahead, if_neg hstones]
    exact iff_of_true rfl hsum
  left _ := by decide

/-- One iteration keeps player 1 ahead. -/
theorem Iteration.oneAhead {es : List Effect} (h : Iteration t w es t') (hp : OneAhead t)
    (he : t.ended = false)
    (hbest : t.turn = .one → ∀ m, Accepts t w m → Nim.bestMove t = some m) : OneAhead t' := by
  by_cases hacc : ∃ m, Accepts t w m
  · obtain ⟨m, ha⟩ := hacc
    obtain ⟨hs, hpos⟩ := h.position_of_accepts ha hp.nonneg
    refine ⟨hs, ?_, ?_⟩
    · rw [hpos]
      refine hp.ahead.play ha.legal fun ht => ?_
      obtain ⟨m', hm', -, hzero⟩ := hp.bestMove he ht
      rw [hbest ht m ha] at hm'
      exact Option.some.inj hm' ▸ hzero
    · cases h with
      | failed | gone | dropped | won =>
          exact fun e => absurd e (by simp [forfeited, dropInvalid, Thread.won])
      | same _ no _ => exact absurd ha (no m)
      | moved _ _ left => exact fun _ => left
  · obtain ⟨hpiles, hturn⟩ := h.same_of_not_accepts (not_exists.mp hacc)
    have hpos : t'.position = t.position := by
      rw [Thread.position, hpiles, hturn, Thread.position]
    exact ⟨fun i => hpiles ▸ hp.nonneg i, hpos ▸ hp.ahead, fun _ => hpiles ▸ hp.left he⟩

theorem run_oneAhead {s : Play} {ws : List Wake} {name₁ name₂ : Bytes}
    (h : Run pollStep PlaysBest (opening name₁ name₂) ws s) : OneAhead s.thread := by
  refine h.invariant (I := fun s => OneAhead s.thread) (fun s w s' hs hbest hstep => ?_)
    oneAhead_begin
  obtain ⟨he, rfl⟩ := pollStep_some hstep
  exact (iteration he w).oneAhead hs he hbest

/-- A winner has taken the last stone, or the other player is gone. -/
theorem Iteration.winner_cases {es : List Effect} (h : Iteration t w es t')
    (hw : t.winner = none) {v : Seat} (hv : t'.winner = some v) :
    t'.reason = [] ∨ Gone t w v.other := by
  cases h with
  | failed | same | moved | dropped => exact absurd (hw.symm.trans hv) (by simp)
  | won => exact .inl rfl
  | gone _ left =>
      obtain rfl := Option.some.inj hv
      rw [Seat.other_other]
      exact .inr left

/-- **The first player wins.**  In every run in which what is accepted from player 1 is `bestMove`,
whatever player 2 sends and whenever: player 2 wins only when player 1 is gone; and on every turn of
player 1 `bestMove` is a legal move, and the iteration that reads its frame accepts it. -/
theorem first_player_wins {name₁ name₂ : Bytes} {wakes : List Wake} {s : Play}
    (h : Run pollStep PlaysBest (opening name₁ name₂) wakes s) :
    (s.thread.winner = some .two → ∃ ws w r, wakes = ws ++ [w] ∧
      Run pollStep PlaysBest (opening name₁ name₂) ws r ∧ Gone r.thread w .one) ∧
    (s.thread.ended = false → s.thread.turn = .one →
      ∃ m, bestMove s.thread = some m ∧ Legal s.thread.position m ∧
        ∀ w rest, Reads s.thread w .one → (w.input .one).Whole →
          (w.input .one).flatten = message (ascii "MOVE") (moveBody m) ++ rest →
          Accepts s.thread w m) := by
  have hall : Run pollStep (fun _ _ => True) (opening name₁ name₂) wakes s :=
    h.weaken fun _ _ _ => trivial
  constructor
  · intro hv
    rcases h.last with ⟨-, rfl⟩ | ⟨ws, w, r, e, h₁, hbest, hstep⟩
    · cases hv
    · obtain ⟨he, rfl⟩ := pollStep_some hstep
      have hrun := run_undecided (h₁.weaken fun _ _ _ => trivial)
      refine ⟨ws, w, r, e, h₁, ?_⟩
      rcases (iteration he w).winner_cases (hrun.running he) hv with hr | hgone
      · -- the last stone is taken by the player who is ahead
        obtain ⟨hz, ht⟩ := (run_undecided hall).won .two hv hr
        have hahead := run_oneAhead h
        have hstones := stones_position hahead.nonneg
        have hone := hahead.ahead
        rw [Ahead, if_pos (by omega)] at hone
        exact absurd (hone.symm.trans ht) (by decide)
      · exact hgone
  · intro he ht
    obtain ⟨m, hm, hlegal, -⟩ := (run_oneAhead h).bestMove he ht
    refine ⟨m, hm, hlegal, fun w rest hr hw hbytes => ?_⟩
    have hnine : ∀ i, s.thread.piles i ≤ 9 := fun i =>
      (run_piles_le hall i).trans (by simp only [initialPiles]; omega)
    exact accepts_of_frame (ht ▸ hr) (ht ▸ hw) (ht ▸ hbytes) hlegal hnine

theorem playsBest_of_accepts {s : Play} (ha : Accepts s.thread w m)
    (hm : bestMove s.thread = some m) : PlaysBest s w := fun _ _ h => ha.unique h ▸ hm

/-- The first three iterations of a game: player 1 clears the pile of nine and is impatient, and
player 2 clears the pile of seven. -/
theorem first_player_wins_sample :
    ∃ s m, Run pollStep PlaysBest (opening (ascii "Ann") (ascii "Bob")) (sampleWakes.take 3) s ∧
      bestMove s.thread = some m ∧ Legal s.thread.position m := by
  have hfirst : Accepts begin (.from .one "0|09|MOVE|4|9|") ⟨4, 9⟩ :=
    ⟨⟨by decide, rfl, fun _ h => absurd h (by decide)⟩,
      ⟨ascii "4", ascii "9", by decide, by decide, by decide, by decide⟩, by decide, by decide⟩
  have hrun : Run pollStep PlaysBest (opening (ascii "Ann") (ascii "Bob")) (sampleWakes.take 3) _ :=
    .cons (playsBest_of_accepts hfirst rfl) rfl <|
      .cons (fun h => absurd h (by decide)) rfl <|
        .cons (fun h => absurd h (by decide)) rfl (.nil _)
  obtain ⟨m, hm, hlegal, -⟩ := (first_player_wins hrun).2 (by decide) (by decide)
  exact ⟨_, m, hrun, hm, hlegal⟩

end CS214.Nim
