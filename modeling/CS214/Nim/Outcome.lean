import CS214.Nim.Play

/-!
# Nim — the outcome is announced, or it is not

A game ends because the last stone is taken, because a connection ends, or because a player sends a
malformed message.  `Ends t w c` is that the iteration ends the loop for cause `c`, a condition on
what the players did.

`Announced c s`: there is a winner, who is not the player at fault, and every connection that the
loop did not close gets one `OVER` frame, the same one, with the final board.

`announced_iff`: the outcome is announced exactly when the cause is no malformed message.  The two
exits for malformed messages leave `winner` at 0, unlike the exit for a connection that ends.
-/

namespace CS214.Nim

open CString NimGame

variable {t t' : Thread} {w : Wake} {p : Seat} {es : List Effect}

/-- What ends a game: the last stone is taken, a player is gone, or a message is malformed. -/
inductive Cause where
  | lastStone
  | disconnected (p : Seat)
  | malformed (p : Seat)
deriving DecidableEq

/-- The player at fault. -/
def Cause.offender : Cause → Option Seat
  | .lastStone => none
  | .disconnected p => some p
  | .malformed p => some p

/-- The iteration ends the game for this cause. -/
inductive Ends (t : Thread) (w : Wake) : Cause → Prop where
  | lastStone {m : Move (Fin 5)} (acc : Accepts t w m)
      (none_left : stones (takeFrom t.piles m.pile.val m.amount) = 0) : Ends t w .lastStone
  | disconnected {p : Seat} (left : Gone t w p) : Ends t w (.disconnected p)
  | malformed {p : Seat} (bad : Malformed t w p) : Ends t w (.malformed p)

/-- The `OVER` messages to a player. -/
def overs (p : Seat) (log : List Effect) : List Effect :=
  log.filter fun e =>
    match e with
    | .send q text => q == p && (ascii "OVER|").isPrefixOf text
    | .close _ => false

/-- The outcome of a game that ended for cause `c` is announced; `s` is the thread when it has left
the loop. -/
def Announced (c : Cause) (s : Play) : Prop :=
  ∃ v, s.thread.winner = some v ∧ (∀ p, c.offender = some p → v = p.other) ∧
    ∃ reason msg, frame (overText v (boardStr s.thread.piles) reason) = some msg ∧
      ∀ p, .close p ∉ s.log →
        overs p (finish s).log = [.send p (overText v (boardStr s.thread.piles) reason)]

/-! ### What is sent before the end -/

@[simp] theorem overs_append (p : Seat) (es es' : List Effect) :
    overs p (es ++ es') = overs p es ++ overs p es' :=
  List.filter_append _ _

theorem overs_replies (h : ∀ e ∈ es, Reply t e) (p : Seat) : overs p es = [] := by
  refine List.filter_eq_nil_iff.mpr fun e he => ?_
  cases h e he with
  | fail q code msg hm => simp [errorText, ascii]
  | board q => simp [playText, ascii]

theorem overs_plays (p : Seat) (turn : Seat) (board : Bytes) :
    overs p [.send .one (playText turn board), .send .two (playText turn board)] = [] := by
  simp [overs, playText, ascii]

/-- While the game goes on nothing is announced. -/
theorem Iteration.overs_eq_nil (h : Iteration t w es t') (p : Seat) : overs p es = [] := by
  cases h with
  | failed => rfl
  | same replies | won replies | gone replies => exact overs_replies replies p
  | moved replies =>
      rw [overs_append, overs_replies replies, overs_plays]
      rfl
  | dropped replies =>
      rw [overs_append, overs_replies replies]
      simp [overs, dropInvalid, errorText, ascii]

theorem run_overs {name₁ name₂ : Bytes} {ws : List Wake} {s : Play}
    (h : Run pollStep (fun _ _ => True) (opening name₁ name₂) ws s) (p : Seat) :
    overs p s.log = [] := by
  refine h.invariant (I := fun s => overs p s.log = []) ?_ ?_
  · intro s w s' hs _ hstep
    obtain ⟨he, rfl⟩ := pollStep_some hstep
    rw [overs_append, hs, (iteration he w).overs_eq_nil]
    rfl
  · simp [opening, prologue, overs, nameText, playText, ascii]

/-! ### The announcement -/

theorem zero_not_mem_boardStr (piles : Fin 5 → ℤ) : 0 ∉ boardStr piles := by
  intro h
  have h := List.mem_of_mem_take h
  have hd : ∀ n, (0 : UInt8) ∉ decimal n := not_mem_decimal rfl (by decide)
  simp [List.intercalate, ascii, hd] at h

theorem boardStr_length (piles : Fin 5 → ℤ) : (boardStr piles).length ≤ 63 := by
  rw [boardStr, List.length_take]
  exact Nat.min_le_left _ _

theorem overText_frame (v : Seat) (piles : Fin 5 → ℤ) {reason : Bytes} (hr : 0 ∉ reason)
    (hlen : reason.length ≤ 7) : ∃ msg, frame (overText v (boardStr piles) reason) = some msg := by
  have hb := zero_not_mem_boardStr piles
  have hl := boardStr_length piles
  have hv : (decimal (number v)).length = 1 := by cases v <;> rfl
  have hd : (0 : UInt8) ∉ decimal (number v) := not_mem_decimal rfl (by decide) _
  refine ⟨_, frame_eq ?_ ?_⟩
  · simp [overText, ascii, pipe, hb, hr, hd]
  · simp only [overText, ascii, List.length_append, List.length_cons, hv]
    simp
    omega

theorem announce_none (h : t.winner = none) : announce t = [] := by rw [announce, h]

/-- What is announced, with or without a reason. -/
theorem announce_some {v : Seat} (h : t.winner = some v) :
    announce t = [.send .one (overText v (boardStr t.piles) t.reason),
      .send .two (overText v (boardStr t.piles) t.reason)] := by
  simp only [announce, h]
  split
  · rfl
  · next hr => rw [List.eq_nil_of_length_eq_zero (Nat.eq_zero_of_not_pos hr)]

/-- With a winner, `OVER` goes to both players. -/
theorem overs_epilogue {v : Seat} (hw : t.winner = some v) (p : Seat) :
    overs p (epilogue t) = [.send p (overText v (boardStr t.piles) t.reason)] := by
  have hover : (ascii "OVER|").isPrefixOf (overText v (boardStr t.piles) t.reason) := by
    simp [overText, ascii]
  rw [epilogue, announce_some hw]
  cases p <;> simp [overs, hover]

/-! ### The causes -/

theorem Gone.not_malformed (h : Gone t w p) : ¬ Malformed t w p := by
  rintro ⟨-, hb | ⟨-, body, hb, -⟩⟩ <;> rw [h.2] at hb <;> cases hb

/-- The game ends for one cause. -/
theorem Ends.unique {c c' : Cause} (h : Ends t w c) (h' : Ends t w c') : c = c' := by
  cases h with
  | lastStone acc _ =>
      cases h' with
      | lastStone => rfl
      | disconnected left => exact absurd acc (Stops.not_accepts (.inl left) _)
      | malformed bad => exact absurd acc (Stops.not_accepts (.inr bad) _)
  | @disconnected p left =>
      cases h' with
      | lastStone acc _ => exact absurd acc (Stops.not_accepts (.inl left) _)
      | disconnected left' => rw [Stops.unique (.inl left) (.inl left')]
      | malformed bad =>
          obtain rfl := Stops.unique (.inl left) (.inr bad)
          exact absurd bad left.not_malformed
  | @malformed p bad =>
      cases h' with
      | lastStone acc _ => exact absurd acc (Stops.not_accepts (.inr bad) _)
      | disconnected left =>
          obtain rfl := Stops.unique (.inl left) (.inr bad)
          exact absurd bad left.not_malformed
      | malformed bad' => rw [Stops.unique (.inr bad) (.inr bad')]

/-- What the loop leaves for each cause. -/
theorem Iteration.of_ends {c : Cause} (h : Iteration t w es t') (hc : Ends t w c) :
    match c with
    | .lastStone => t'.winner = some t.turn ∧ t'.reason = []
    | .disconnected p => t'.winner = some p.other ∧ t'.reason = forfeit
    | .malformed _ => t'.winner = t.winner := by
  cases h with
  | failed ret =>
      cases hc with
      | lastStone acc _ => exact absurd acc.reads.polled (by omega)
      | disconnected left => exact absurd left.1.polled (by omega)
      | malformed bad => exact absurd bad.1.polled (by omega)
  | same _ no stays =>
      cases hc with
      | lastStone acc _ => exact absurd acc (no _)
      | disconnected left => exact absurd (.inl left) (stays _)
      | malformed bad => exact absurd (.inr bad) (stays _)
  | moved _ acc left =>
      cases hc with
      | lastStone acc' none_left =>
          obtain rfl := acc.unique acc'
          exact absurd none_left left
      | disconnected gone => exact absurd acc (Stops.not_accepts (.inl gone) _)
      | malformed bad => exact absurd acc (Stops.not_accepts (.inr bad) _)
  | won _ acc none_left =>
      obtain rfl := hc.unique (.lastStone acc none_left)
      exact ⟨rfl, rfl⟩
  | gone _ left =>
      obtain rfl := hc.unique (.disconnected left)
      exact ⟨rfl, rfl⟩
  | dropped _ bad =>
      obtain rfl := hc.unique (.malformed bad)
      rfl

/-- A winner, and nothing announced before: the outcome is announced to both players. -/
theorem announced_of_winner {c : Cause} {s : Play} (hlog : ∀ p, overs p s.log = []) {v : Seat}
    (hw : s.thread.winner = some v) (hc : ∀ p, c.offender = some p → v = p.other)
    (hr : 0 ∉ s.thread.reason) (hlen : s.thread.reason.length ≤ 7) : Announced c s := by
  obtain ⟨msg, hmsg⟩ := overText_frame v s.thread.piles hr hlen
  refine ⟨v, hw, hc, s.thread.reason, msg, hmsg, fun p _ => ?_⟩
  rw [finish, overs_append, hlog, overs_epilogue hw]
  rfl

/-- **Announcement.**  In every run of the thread that ends because the last stone was taken, a
connection ended or a player sent a malformed message, the outcome is announced if and only if no
malformed message was the cause. -/
theorem announced_iff {name₁ name₂ : Bytes} {wakes : List Wake} {s s' : Play} {c : Cause}
    (h : Run pollStep (fun _ _ => True) (opening name₁ name₂) wakes s) (hs : pollStep s w = some s')
    (hc : Ends s.thread w c) : Announced c s' ↔ ∀ p, c ≠ .malformed p := by
  obtain ⟨he, rfl⟩ := pollStep_some hs
  have hlog := run_overs (h.append (.one trivial hs))
  have hof := (iteration he w).of_ends hc
  constructor
  · rintro ⟨v, hv, -⟩ p rfl
    rw [hof.trans ((run_undecided h).running he)] at hv
    cases hv
  · intro hno
    cases c with
    | lastStone =>
        refine announced_of_winner hlog hof.1 ?_ ?_ ?_
        · intro p hp
          cases hp
        · rw [hof.2]
          exact List.not_mem_nil
        · rw [hof.2]
          exact Nat.zero_le _
    | disconnected p =>
        refine announced_of_winner hlog hof.1 ?_ ?_ ?_
        · intro q hq
          obtain rfl := Option.some.inj hq
          rfl
        · rw [hof.2]
          decide
        · rw [hof.2]
          decide
    | malformed p => exact absurd rfl (hno p)

/-- The first iteration of a game whose player 1 sends bytes that are no frame. -/
def malformedWake : Wake := .from .one "9|05|X|"

theorem malformedWake_ends : Ends begin malformedWake (.malformed .one) :=
  .malformed ⟨⟨by decide, rfl, fun _ h => absurd h (by decide)⟩, .inl (by decide)⟩

/-- The player who did not offend is not told the outcome, and there is no winner. -/
theorem malformed_not_announced :
    ∃ s', pollStep (opening (ascii "Ann") (ascii "Bob")) malformedWake = some s' ∧
      Ends begin malformedWake (.malformed .one) ∧ ¬ Announced (.malformed .one) s' ∧
      s'.thread.winner = none ∧ overs .two (finish s').log = [] := by
  refine ⟨_, rfl, malformedWake_ends, ?_, rfl, by decide⟩
  rintro ⟨v, hv, -⟩
  cases hv

/-- The first iteration of a game whose player 2 is gone. -/
def goneWake : Wake := .from .two ""

theorem announced_iff_gone :
    ∃ s', pollStep (opening (ascii "Ann") (ascii "Bob")) goneWake = some s' ∧
      Announced (.disconnected .two) s' :=
  ⟨_, rfl, (announced_iff (.nil (opening (ascii "Ann") (ascii "Bob"))) rfl
    (.disconnected ⟨⟨by decide, rfl, fun e => absurd e (by decide)⟩, by decide⟩)).mpr
      fun p h => by cases h⟩

end CS214.Nim
