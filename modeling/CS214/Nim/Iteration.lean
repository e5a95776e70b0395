import CS214.Nim.Game

/-!
# Nim — what one iteration can do

`Iteration t w es t'` lists the outcomes of an iteration from `t` that learns `w`: with which
effects and to which state, and what the players did.  `iteration` says that there is no other
outcome; everything about the loop is derived from it.

The players' doings are conditions on `t` and `w` alone: `Accepts` a move, `Gone` and `Malformed`.
-/

namespace CS214.Nim

open CString NimGame

variable {t t' : Thread} {w : Wake} {p : Seat} {m : Move (Fin 5)}

/-! ### What the players did -/

/-- The player who is not on turn sends a message or nothing. -/
def IdleStays (t : Thread) (w : Wake) : Prop :=
  w.ready t.turn.other = true → ∃ type body, w.received t.turn.other = .message type body

/-- The iteration reads from `p`: the idle player first, the player on turn if the loop goes on. -/
structure Reads (t : Thread) (w : Wake) (p : Seat) : Prop where
  polled : 0 ≤ w.ret
  ready : w.ready p = true
  idle : p = t.turn → IdleStays t w

/-- The player on turn sends a `MOVE` whose fields have the values of `m`, and `m` takes at least
one stone and no more than there are. -/
structure Accepts (t : Thread) (w : Wake) (m : Move (Fin 5)) : Prop where
  reads : Reads t w t.turn
  sends : ∃ arg₁ arg₂, w.received t.turn = .message (ascii "MOVE") (arg₁ ++ pipe :: arg₂) ∧
    pipe ∉ arg₁ ∧ atoi arg₁ = (m.pile.val : ℤ) ∧ atoi arg₂ = (m.amount : ℤ)
  pos : 1 ≤ m.amount
  le : (m.amount : ℤ) ≤ t.piles m.pile

/-- The connection of `p` has ended. -/
def Gone (t : Thread) (w : Wake) (p : Seat) : Prop := Reads t w p ∧ w.received p = .gone

/-- `p` sends a malformed message: a bad frame, or on turn a `MOVE` without a second field. -/
def Malformed (t : Thread) (w : Wake) (p : Seat) : Prop :=
  Reads t w p ∧ (w.received p = .invalid ∨
    p = t.turn ∧ ∃ body, w.received p = .message (ascii "MOVE") body ∧ pipe ∉ body)

/-- The message of `p`, or its absence, ends the loop. -/
def Stops (t : Thread) (w : Wake) (p : Seat) : Prop := Gone t w p ∨ Malformed t w p

/-- A reply to one player: an error the player may correct, or the board again. -/
inductive Reply (t : Thread) : Effect → Prop where
  | fail (p : Seat) (code : ℤ) (msg : String)
      (h : (code, msg) ∈ [(31, "Impatient"), (32, "Pile Index"), (33, "Quantity")]) :
      Reply t (.send p (errorText code msg))
  | board (p : Seat) : Reply t (.send p (playText t.turn t.board))

/-- The state after an accepted move that leaves stones. -/
def Thread.moved (t : Thread) (m : Move (Fin 5)) : Thread :=
  let piles := takeFrom t.piles m.pile.val m.amount
  { t with piles := piles, turn := t.turn.other, board := boardStr piles }

/-- The state after the last stone was taken. -/
def Thread.won (t : Thread) (m : Move (Fin 5)) : Thread :=
  { t with
    piles := takeFrom t.piles m.pile.val m.amount
    winner := some t.turn
    reason := []
    ended := true }

/-- The outcomes of an iteration. -/
inductive Iteration (t : Thread) (w : Wake) : List Effect → Thread → Prop where
  | failed (ret : w.ret < 0) : Iteration t w [] { t with ended := true }
  | same {es : List Effect} (replies : ∀ e ∈ es, Reply t e) (no : ∀ m, ¬ Accepts t w m)
      (stays : ∀ p, ¬ Stops t w p) : Iteration t w es t
  | moved {es : List Effect} {m : Move (Fin 5)} (replies : ∀ e ∈ es, Reply t e)
      (acc : Accepts t w m) (left : stones (takeFrom t.piles m.pile.val m.amount) ≠ 0) :
      Iteration t w
        (es ++ [.send .one (playText (t.moved m).turn (t.moved m).board),
          .send .two (playText (t.moved m).turn (t.moved m).board)]) (t.moved m)
  | won {es : List Effect} {m : Move (Fin 5)} (replies : ∀ e ∈ es, Reply t e)
      (acc : Accepts t w m) (none_left : stones (takeFrom t.piles m.pile.val m.amount) = 0) :
      Iteration t w es (t.won m)
  | gone {es : List Effect} {p : Seat} (replies : ∀ e ∈ es, Reply t e) (left : Gone t w p) :
      Iteration t w es (forfeited t p).2
  | dropped {es : List Effect} {p : Seat} (replies : ∀ e ∈ es, Reply t e)
      (bad : Malformed t w p) : Iteration t w (es ++ (dropInvalid t p).1) (dropInvalid t p).2

/-! ### The two halves of an iteration -/

/-- The idle player's half ends the loop, or answers and leaves the state as it was. -/
theorem checkIdle_cases (t : Thread) (w : Wake) (hw : 0 ≤ w.ret) :
    (Gone t w t.turn.other ∧ checkIdle t w = forfeited t t.turn.other) ∨
      (Malformed t w t.turn.other ∧ checkIdle t w = dropInvalid t t.turn.other) ∨
      (IdleStays t w ∧ (checkIdle t w).2 = t ∧ ∀ e ∈ (checkIdle t w).1, Reply t e) := by
  have hidle : w.ready t.turn.other = true → Reads t w t.turn.other := fun h =>
    ⟨hw, h, fun e => absurd e t.turn.other_ne⟩
  by_cases hr : w.ready t.turn.other = true
  · cases hm : w.received t.turn.other with
    | gone => exact .inl ⟨⟨hidle hr, hm⟩, by simp [checkIdle, hr, hm]⟩
    | invalid => exact .inr (.inl ⟨⟨hidle hr, .inl hm⟩, by simp [checkIdle, hr, hm]⟩)
    | message type body =>
        refine .inr (.inr ⟨fun _ => ⟨type, body, hm⟩, ?_⟩)
        by_cases ht : type = ascii "MOVE"
        · have e : checkIdle t w = ([.send t.turn.other (errorText 31 "Impatient"),
              .send t.turn.other (playText t.turn t.board)], t) := by
            simp [checkIdle, hr, hm, ht]
          rw [e]
          refine ⟨rfl, fun e he => ?_⟩
          rcases List.mem_cons.mp he with rfl | he
          · exact .fail _ _ _ (by simp)
          · obtain rfl := List.mem_singleton.mp he
            exact .board _
        · have e : checkIdle t w = ([], t) := by simp [checkIdle, hr, hm, ht]
          rw [e]
          exact ⟨rfl, fun e he => absurd he List.not_mem_nil⟩
  · have e : checkIdle t w = ([], t) := by simp [checkIdle, hr]
    rw [e]
    exact .inr (.inr ⟨fun h => absurd h hr, rfl, fun e he => absurd he List.not_mem_nil⟩)

/-- What a `MOVE` with two fields does: it is refused with two replies, or applied. -/
theorem move_cases (t : Thread) (i n : ℤ) :
    (¬ (∃ m : Move (Fin 5), i = m.pile.val ∧ n = m.amount ∧ 1 ≤ m.amount ∧
        (m.amount : ℤ) ≤ t.piles m.pile) ∧
      (move t i n).2 = t ∧ ∀ e ∈ (move t i n).1, Reply t e) ∨
    ∃ m : Move (Fin 5), i = m.pile.val ∧ n = m.amount ∧ 1 ≤ m.amount ∧
      (m.amount : ℤ) ≤ t.piles m.pile ∧
      if stones (takeFrom t.piles m.pile.val m.amount) = 0 then move t i n = ([], t.won m)
      else move t i n = ([.send .one (playText (t.moved m).turn (t.moved m).board),
        .send .two (playText (t.moved m).turn (t.moved m).board)], t.moved m) := by
  have hreply : ∀ {code msg}, (code, msg) ∈ [(31, "Impatient"), (32, "Pile Index"),
      ((33 : ℤ), "Quantity")] → ∀ e ∈ [Effect.send t.turn (errorText code msg),
        .send t.turn (playText t.turn t.board)], Reply t e := by
    intro code msg h e he
    rcases List.mem_cons.mp he with rfl | he
    · exact .fail _ _ _ h
    · obtain rfl := List.mem_singleton.mp he
      exact .board _
  by_cases hi : i < 0 ∨ i > 4
  · refine .inl ⟨?_, ?_⟩
    · rintro ⟨m, rfl, -⟩
      have := m.pile.isLt
      omega
    · rw [move, if_pos hi]
      exact ⟨rfl, hreply (by simp)⟩
  have hpile : (pileAt i : Fin 5).val = i.toNat := by
    simp only [pileAt, Fin.ofNat]
    omega
  have hpos : i = ((pileAt i).val : ℤ) := by rw [hpile]; omega
  by_cases hn : n < 1 ∨ n > t.piles (pileAt i)
  · refine .inl ⟨?_, ?_⟩
    · rintro ⟨⟨j, k⟩, h₁, rfl, h₂, h₃⟩
      obtain rfl : j = pileAt i := Fin.ext (by simp only at h₁; omega)
      simp only at h₂ h₃ hn
      omega
    · rw [move, if_neg hi, if_pos hn]
      exact ⟨rfl, hreply (by simp)⟩
  · refine .inr ⟨⟨pileAt i, n.toNat⟩, hpos, by simp only; omega, by simp only; omega,
      by simp only; omega, ?_⟩
    have hn' : ((n.toNat : ℕ) : ℤ) = n := by omega
    simp only [Thread.moved, Thread.won, ← hpos, hn']
    rw [move, if_neg hi, if_neg hn]
    by_cases hs : stones (takeFrom t.piles i n) = 0
    · simp only [hs, if_true]
    · simp only [hs, if_false]

/-- The values of a received `MOVE` are those of the move that is accepted. -/
theorem Accepts.values (ha : Accepts t w m) {arg₁ arg₂ : Bytes}
    (hm : w.received t.turn = .message (ascii "MOVE") (arg₁ ++ pipe :: arg₂))
    (hp : pipe ∉ arg₁) : atoi arg₁ = m.pile.val ∧ atoi arg₂ = m.amount := by
  obtain ⟨x, y, hm', hp', hx, hy⟩ := ha.sends
  obtain ⟨-, hb⟩ := Received.message.inj (hm.symm.trans hm')
  -- both are the split at the first `'|'`
  have h₁ := cut_append hp arg₂
  rw [hb, cut_append hp'] at h₁
  obtain ⟨rfl, rfl⟩ := Prod.mk.inj (Option.some.inj h₁)
  exact ⟨hx, hy⟩

/-- At most one move is accepted. -/
theorem Accepts.unique {m' : Move (Fin 5)} (ha : Accepts t w m) (ha' : Accepts t w m') :
    m = m' := by
  obtain ⟨x, y, hm, hp, hx, hy⟩ := ha.sends
  obtain ⟨h₁, h₂⟩ := ha'.values hm hp
  obtain ⟨i, n⟩ := m
  obtain ⟨j, k⟩ := m'
  simp only at hx hy h₁ h₂
  obtain rfl : i = j := Fin.ext (by omega)
  obtain rfl : n = k := by omega
  rfl

theorem Stops.reads (h : Stops t w p) : Reads t w p := h.elim And.left And.left

/-- A player of whom a message was received ends the loop only on turn, by a `MOVE` of one
field. -/
theorem Stops.of_message {type body : Bytes} (h : Stops t w p)
    (hm : w.received p = .message type body) :
    p = t.turn ∧ type = ascii "MOVE" ∧ pipe ∉ body := by
  rcases h with ⟨-, hg⟩ | ⟨-, hg | ⟨e, body', hb, hno⟩⟩
  · rw [hm] at hg
    cases hg
  · rw [hm] at hg
    cases hg
  · obtain ⟨rfl, rfl⟩ := Received.message.inj (hb.symm.trans hm)
    exact ⟨e, rfl, hno⟩

theorem IdleStays.not_stops (h : IdleStays t w) : ¬ Stops t w t.turn.other := by
  intro hs
  obtain ⟨type, body, hm⟩ := h hs.reads.ready
  exact t.turn.other_ne (hs.of_message hm).1

/-- Only one player ends the loop. -/
theorem Stops.unique {q : Seat} (hp : Stops t w p) (hq : Stops t w q) : p = q := by
  rcases p.eq_or_eq_other q with e | e
  · exact e
  subst e
  rcases t.turn.eq_or_eq_other q with e | e
  · subst e
    exact absurd hp (hq.reads.idle rfl).not_stops
  · obtain rfl : t.turn.other = q := by rw [e, Seat.other_other]
    rw [Seat.other_other] at hp
    exact absurd hq (hp.reads.idle rfl).not_stops

/-- A player who ends the loop keeps any move from being accepted. -/
theorem Stops.not_accepts (hp : Stops t w p) (m : Move (Fin 5)) : ¬ Accepts t w m := by
  intro ha
  obtain ⟨x, y, hm, -⟩ := ha.sends
  rcases t.turn.eq_or_eq_other p with rfl | e
  · exact (hp.of_message hm).2.2 (by simp)
  · obtain rfl : t.turn.other = p := by rw [e, Seat.other_other]
    exact (ha.reads.idle rfl).not_stops hp

/-- The half of the player on turn. -/
theorem checkActive_cases (hw : 0 ≤ w.ret) (hidle : IdleStays t w) :
    (Gone t w t.turn ∧ checkActive t w = forfeited t t.turn) ∨
      (Malformed t w t.turn ∧ checkActive t w = dropInvalid t t.turn) ∨
      ((∀ m, ¬ Accepts t w m) ∧ ¬ Stops t w t.turn ∧ (checkActive t w).2 = t ∧
        ∀ e ∈ (checkActive t w).1, Reply t e) ∨
      ∃ m, Accepts t w m ∧
        if stones (takeFrom t.piles m.pile.val m.amount) = 0 then checkActive t w = ([], t.won m)
        else checkActive t w = ([.send .one (playText (t.moved m).turn (t.moved m).board),
          .send .two (playText (t.moved m).turn (t.moved m).board)], t.moved m) := by
  by_cases hr : w.ready t.turn = true
  · have hreads : Reads t w t.turn := ⟨hw, hr, fun _ => hidle⟩
    cases hm : w.received t.turn with
    | gone => exact .inl ⟨⟨hreads, hm⟩, by simp [checkActive, hr, hm]⟩
    | invalid => exact .inr (.inl ⟨⟨hreads, .inl hm⟩, by simp [checkActive, hr, hm]⟩)
    | message type body =>
        by_cases ht : type = ascii "MOVE"
        · subst ht
          cases hc : cut pipe body with
          | none =>
              exact .inr (.inl ⟨⟨hreads, .inr ⟨rfl, body, hm, cut_eq_none.mp hc⟩⟩,
                by simp [checkActive, hr, hm, hc]⟩)
          | some r =>
              obtain ⟨arg₁, arg₂⟩ := r
              obtain ⟨rfl, hp⟩ := cut_eq_some.mp hc
              have e : checkActive t w = move t (atoi arg₁) (atoi arg₂) := by
                simp [checkActive, hr, hm, hc]
              rw [e]
              rcases move_cases t (atoi arg₁) (atoi arg₂) with
                ⟨hno, h₁, h₂⟩ | ⟨m, hi, hn, h₁, h₂, h₃⟩
              · refine .inr (.inr (.inl ⟨fun m ha => hno ⟨m, ?_⟩, ?_, h₁, h₂⟩))
                · obtain ⟨hi, hn⟩ := ha.values hm hp
                  exact ⟨hi, hn, ha.pos, ha.le⟩
                · intro hs
                  exact (hs.of_message hm).2.2 (by simp)
              · exact .inr (.inr (.inr ⟨m, ⟨hreads, ⟨arg₁, arg₂, hm, hp, hi, hn⟩, h₁, h₂⟩, h₃⟩))
        · have e : checkActive t w = ([], t) := by simp [checkActive, hr, hm, ht]
          rw [e]
          refine .inr (.inr (.inl ⟨?_, ?_, rfl,
            fun e he => absurd he List.not_mem_nil⟩))
          · intro m ha
            obtain ⟨x, y, hm', -⟩ := ha.sends
            exact ht (Received.message.inj (hm.symm.trans hm')).1
          · intro hs
            exact ht (hs.of_message hm).2.1
  · have e : checkActive t w = ([], t) := by simp [checkActive, hr]
    rw [e]
    exact .inr (.inr (.inl ⟨fun m ha => hr ha.reads.ready, fun hs => hr hs.reads.ready, rfl,
      fun e he => absurd he List.not_mem_nil⟩))

/-- **Every iteration has one of the outcomes.** -/
theorem iteration (ht : t.ended = false) (w : Wake) :
    Iteration t w (iterate t w).1 (iterate t w).2 := by
  by_cases hw : w.ret < 0
  · rw [iterate, if_pos hw]
    exact .failed hw
  have hw' : 0 ≤ w.ret := by omega
  rw [iterate, if_neg hw]
  rcases checkIdle_cases t w hw' with ⟨hg, e⟩ | ⟨hb, e⟩ | ⟨hidle, e, hrep⟩
  · simp only [e, forfeited, if_true]
    exact .gone (fun e he => absurd he List.not_mem_nil) hg
  · simp only [e, dropInvalid, if_true]
    exact .dropped (fun e (he : e ∈ []) => absurd he List.not_mem_nil) hb
  simp only [e, ht, Bool.false_eq_true, if_false]
  rcases checkActive_cases hw' hidle with
    ⟨hg, e⟩ | ⟨hb, e⟩ | ⟨hno, hns, e, hrep'⟩ | ⟨m, ha, e⟩
  · simp only [e, forfeited, List.append_nil]
    exact .gone hrep hg
  · simp only [e]
    exact .dropped hrep hb
  · simp only [e]
    refine .same ?_ hno ?_
    · intro e he
      rcases List.mem_append.mp he with he | he
      · exact hrep e he
      · exact hrep' e he
    · intro p hs
      rcases t.turn.eq_or_eq_other p with rfl | ep
      · exact hns hs
      · obtain rfl : t.turn.other = p := by rw [ep, Seat.other_other]
        exact hidle.not_stops hs
  · split at e
    · next hs =>
        simp only [e, List.append_nil]
        exact .won hrep ha hs
    · next hs =>
        simp only [e]
        exact .moved hrep ha hs

end CS214.Nim
