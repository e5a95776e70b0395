import Mathlib.Data.List.Forall2
import CS214.Nim.Descriptors

/-!
# Nim — what a client is told

Every frame has a `Kind`, read off its bytes.  `Word` is the grammar of the frames of one client:

* a refusal, `FAIL 10`, `21` or `22`;
* `WAIT`, and one of `FAIL 10`, `23` and `24` or nothing;
* `WAIT NAME PLAY`, any number of boards and of errors with the board behind them, and one of
  `FAIL 10` and `OVER` or nothing.

The second half of the module is about one game: `sends_iterate` says what an iteration sends, for
each player on its own, and `Sends.calls` what the calls are that it leaves to be done.
-/

namespace CS214.Nim

open CString Function

/-! ### Frames -/

/-- The kinds of frames, a FAIL with its code. -/
inductive Kind where
  | wait
  | name
  | play
  | over
  | fail (code : ℤ)
  | other
deriving DecidableEq

/-- The kind of a payload with these fields. -/
def fieldsKind (type rest : Bytes) : Kind :=
  if type = ascii "NAME" then .name
  else if type = ascii "PLAY" then .play
  else if type = ascii "OVER" then .over
  else if type = ascii "FAIL" then .fail (atoi rest)
  else .other

/-- The kind of a payload. -/
def payloadKind (payload : Bytes) : Kind :=
  match cut pipe payload with
  | none => if payload = ascii "WAIT" then .wait else .other
  | some (type, rest) => fieldsKind type rest

/-- The kind of a frame: its payload is between a header of five bytes and the last `'|'`. -/
def frameKind (msg : Bytes) : Kind := payloadKind (msg.drop 5).dropLast

/-- The text is sent, as a frame of this kind. -/
def Says (text : Bytes) (k : Kind) : Prop := ∃ msg, frame text = some msg ∧ frameKind msg = k

/-! ### The grammar -/

/-- `(PLAY | FAIL 31 PLAY | FAIL 32 PLAY | FAIL 33 PLAY)*` -/
inductive Turns : List Kind → Prop where
  | nil : Turns []
  | play {ks : List Kind} (h : Turns ks) : Turns (.play :: ks)
  | again {code : ℤ} {ks : List Kind} (hc : code = 31 ∨ code = 32 ∨ code = 33) (h : Turns ks) :
      Turns (.fail code :: .play :: ks)

/-- What a player is told while the game goes on. -/
def Playing (ks : List Kind) : Prop := ∃ ts, Turns ts ∧ ks = .wait :: .name :: .play :: ts

/-- All that a client is told. -/
inductive Word : List Kind → Prop where
  | refused {code : ℤ} (hc : code = 10 ∨ code = 21 ∨ code = 22) : Word [.fail code]
  | waited : Word [.wait]
  | withdrew {code : ℤ} (hc : code = 10 ∨ code = 23 ∨ code = 24) : Word [.wait, .fail code]
  | played {ks last : List Kind} (h : Playing ks)
      (hl : last = [] ∨ last = [.fail 10] ∨ last = [.over]) : Word (ks ++ last)

variable {text : Bytes} {t t' : Thread} {w : Wake} {p q : Seat} {es es' : List Effect}
  {ks ks' : List Kind}

theorem Turns.append (h : Turns ks) (h' : Turns ks') : Turns (ks ++ ks') := by
  induction h with
  | nil => exact h'
  | play _ ih => exact .play ih
  | again hc _ ih => exact .again hc ih

theorem Playing.append (h : Playing ks) (h' : Turns ks') : Playing (ks ++ ks') := by
  obtain ⟨ts, hts, rfl⟩ := h
  exact ⟨ts ++ ks', hts.append h', rfl⟩

/-! ### The kinds of the texts -/

/-- The payload in a frame. -/
theorem payload_of_frame {msg : Bytes} (h : frame text = some msg) :
    (msg.drop 5).dropLast = untilNul (text.take (maxMsgLen - 1)) := by
  simp only [frame] at h
  split at h
  · cases h
  · next hlen =>
      obtain rfl := Option.some.inj h
      obtain ⟨x, y, hdec, -⟩ := atoi_decimal2 (Nat.lt_succ_of_le (Nat.le_of_not_lt hlen))
      rw [hdec]
      exact List.dropLast_concat ..

theorem frameKind_of_frame {msg : Bytes} (h : frame text = some msg) :
    frameKind msg = payloadKind (untilNul (text.take (maxMsgLen - 1))) :=
  congrArg payloadKind (payload_of_frame h)

/-- A text that is not too long is sent. -/
theorem says_of_length (h : text.length ≤ 98) : Says text (payloadKind (untilNul text)) := by
  have htake : text.take (maxMsgLen - 1) = text :=
    List.take_of_length_le (by unfold maxMsgLen; omega)
  have hle : (untilNul text).length ≤ text.length := (List.takeWhile_prefix _).length_le
  have hframe : frame text = some (ascii "0|" ++ decimal2 ((untilNul text).length + 1) ++
      pipe :: untilNul text ++ [pipe]) := by
    simp only [frame, htake]
    exact if_neg (by omega)
  exact ⟨_, hframe, by rw [frameKind_of_frame hframe, htake]⟩

/-- The first field decides, whatever is behind it. -/
theorem payloadKind_fields {type : Bytes} (h₀ : 0 ∉ type) (hp : pipe ∉ type) (rest : Bytes) :
    payloadKind (untilNul (type ++ pipe :: rest)) = fieldsKind type (untilNul rest) := by
  rw [untilNul_fields h₀, payloadKind, cut_append hp]

theorem says_fields {type rest : Bytes} (h₀ : 0 ∉ type) (hp : pipe ∉ type)
    (hlen : (type ++ pipe :: rest).length ≤ 98) :
    Says (type ++ pipe :: rest) (fieldsKind type (untilNul rest)) := by
  rw [← payloadKind_fields h₀ hp]
  exact says_of_length hlen

theorem number_length (n : Seat) : (decimal (number n)).length = 1 := by cases n <;> rfl

theorem says_wait : Says (ascii "WAIT") .wait := says_of_length (by decide)

/-- `NAME`, for every name that can be registered. -/
theorem says_name (n : Seat) (name : Name) : Says (nameText (number n) name.bytes) .name := by
  have hle : name.bytes.length ≤ 72 := name.le
  have hn := number_length n
  have htext : nameText (number n) name.bytes =
      ascii "NAME" ++ pipe :: (decimal (number n) ++ pipe :: name.bytes) := rfl
  have htype : (ascii "NAME").length = 4 := rfl
  rw [htext]
  refine says_fields (by decide) (by decide) ?_
  simp only [List.length_append, List.length_cons, hn, htype]
  omega

theorem says_play (n : Seat) {board : Bytes} (h : board.length ≤ 63) :
    Says (playText n board) .play := by
  have hn := number_length n
  have htext : playText n board = ascii "PLAY" ++ pipe :: (decimal (number n) ++ pipe :: board) :=
    rfl
  have htype : (ascii "PLAY").length = 4 := rfl
  rw [htext]
  refine says_fields (by decide) (by decide) ?_
  simp only [List.length_append, List.length_cons, hn, htype]
  omega

theorem says_over (v : Seat) {board reason : Bytes} (h : board.length ≤ 63)
    (hr : reason.length ≤ 7) : Says (overText v board reason) .over := by
  have hn := number_length v
  have htext : overText v board reason =
      ascii "OVER" ++ pipe :: (decimal (number v) ++ pipe :: board ++ pipe :: reason) := rfl
  have htype : (ascii "OVER").length = 4 := rfl
  rw [htext]
  refine says_fields (by decide) (by decide) ?_
  simp only [List.length_append, List.length_cons, hn, htype]
  omega

/-- The errors. -/
theorem says_fail {code : ℤ} {msg : String} (h : (code, msg) ∈
    [((10 : ℤ), "Invalid"), (10, "Expected OPEN"), (21, "Long Name"), (22, "Already Playing"),
      (23, "Already Open"), (24, "Not Playing"), (31, "Impatient"), (32, "Pile Index"),
      (33, "Quantity")]) : Says (errorText code msg) (.fail code) := by
  have hkind : payloadKind (untilNul (errorText code msg)) = .fail code ∧
      (errorText code msg).length ≤ 98 := by
    simp only [List.mem_cons, Prod.mk.injEq, List.not_mem_nil, or_false] at h
    rcases h with ⟨rfl, rfl⟩ | ⟨rfl, rfl⟩ | ⟨rfl, rfl⟩ | ⟨rfl, rfl⟩ | ⟨rfl, rfl⟩ | ⟨rfl, rfl⟩ |
      ⟨rfl, rfl⟩ | ⟨rfl, rfl⟩ | ⟨rfl, rfl⟩ <;> decide +kernel
  rw [← hkind.1]
  exact says_of_length hkind.2

/-- The error for a malformed message. -/
theorem says_invalid : Says (errorText Received.invalid.rc "Invalid") (.fail 10) :=
  says_fail (by decide)

/-- The errors behind which the board is sent again. -/
theorem says_reply {code : ℤ} {msg : String}
    (h : (code, msg) ∈ [((31 : ℤ), "Impatient"), (32, "Pile Index"), (33, "Quantity")]) :
    Says (errorText code msg) (.fail code) := by
  refine says_fail ?_
  simp only [List.mem_cons] at h ⊢
  tauto

/-! ### What an iteration sends -/

/-- The text that a call sends to a player. -/
def Effect.textTo (p : Seat) : Effect → Option Bytes
  | .send q text => if q = p then some text else none
  | .close _ => none

/-- The texts that these calls send to a player. -/
def textsTo (p : Seat) (es : List Effect) : List Bytes := es.filterMap (Effect.textTo p)

@[simp] theorem textsTo_append (p : Seat) (es es' : List Effect) :
    textsTo p (es ++ es') = textsTo p es ++ textsTo p es' := List.filterMap_append

/-- Nothing is sent but boards, and errors with the board behind them. -/
structure Exchanges (es : List Effect) : Prop where
  sends : ∀ e ∈ es, IsSend e
  turns : ∀ p, ∃ ks, List.Forall₂ Says (textsTo p es) ks ∧ Turns ks

/-- The loop goes on, and nobody has won. -/
structure Going (t : Thread) : Prop where
  ended : t.ended = false
  winner : t.winner = none
  board : t.board.length ≤ 63
  reason : t.reason.length ≤ 7

/-- What an iteration, or a half of it, sends and closes, and the state after it. -/
inductive Sends : List Effect → Thread → Prop where
  | going {es : List Effect} {t : Thread} (ex : Exchanges es) (goes : Going t) : Sends es t
  | ended {es : List Effect} {t : Thread} (ex : Exchanges es) (off : t.ended = true)
      (reason : t.reason.length ≤ 7) : Sends es t
  | dropped {es : List Effect} {t : Thread} (p : Seat) (ex : Exchanges es) (off : t.ended = true)
      (winner : t.winner = none) :
      Sends (es ++ [.send p (errorText Received.invalid.rc "Invalid"), .close p]) t

namespace Exchanges

theorem nil : Exchanges [] where
  sends _ he := absurd he List.not_mem_nil
  turns _ := ⟨[], .nil, .nil⟩

theorem append (h : Exchanges es) (h' : Exchanges es') : Exchanges (es ++ es') where
  sends := isSend_append h.sends h'.sends
  turns p := by
    obtain ⟨ks, h₁, h₂⟩ := h.turns p
    obtain ⟨ks', h₁', h₂'⟩ := h'.turns p
    rw [textsTo_append]
    exact ⟨ks ++ ks', List.rel_append h₁ h₁', h₂.append h₂'⟩

/-- An error, and the board behind it. -/
theorem again (q turn : Seat) {code : ℤ} {msg : String} {board : Bytes}
    (h : (code, msg) ∈ [((31 : ℤ), "Impatient"), (32, "Pile Index"), (33, "Quantity")])
    (hb : board.length ≤ 63) :
    Exchanges [.send q (errorText code msg), .send q (playText turn board)] where
  sends := isSend_pair
  turns p := by
    by_cases e : q = p
    · subst e
      have hfail : Says (errorText code msg) (.fail code) := says_reply h
      have hc : code = 31 ∨ code = 32 ∨ code = 33 := by
        simp only [List.mem_cons, Prod.mk.injEq, List.not_mem_nil, or_false] at h
        exact h.imp And.left (Or.imp And.left And.left)
      refine ⟨[.fail code, .play], ?_, .again hc .nil⟩
      simpa [textsTo, Effect.textTo] using ⟨hfail, says_play turn hb⟩
    · exact ⟨[], by simp [textsTo, Effect.textTo, e], .nil⟩

/-- The board to both. -/
theorem boards (turn : Seat) {board : Bytes} (hb : board.length ≤ 63) :
    Exchanges [.send .one (playText turn board), .send .two (playText turn board)] where
  sends := isSend_pair
  turns p := by
    refine ⟨[.play], ?_, .play .nil⟩
    cases p <;> simpa [textsTo, Effect.textTo] using says_play turn hb

end Exchanges

theorem Sends.prepend (h : Exchanges es) (h' : Sends es' t) : Sends (es ++ es') t := by
  cases h' with
  | going ex goes => exact .going (h.append ex) goes
  | ended ex off reason => exact .ended (h.append ex) off reason
  | dropped p ex off winner =>
      rw [← List.append_assoc]
      exact .dropped p (h.append ex) off winner

theorem sends_forfeited (t : Thread) (p : Seat) : Sends (forfeited t p).1 (forfeited t p).2 :=
  .ended .nil rfl (by change forfeit.length ≤ 7; decide)

theorem sends_dropInvalid (ht : Going t) (p : Seat) :
    Sends (dropInvalid t p).1 (dropInvalid t p).2 :=
  .dropped p .nil rfl ht.winner

theorem sends_checkIdle (ht : Going t) (w : Wake) :
    Sends (checkIdle t w).1 (checkIdle t w).2 := by
  rw [checkIdle]
  split
  · split
    · exact sends_forfeited t _
    · exact sends_dropInvalid ht _
    · split
      · exact .going (.again _ _ (by simp) ht.board) ht
      · exact .going .nil ht
  · exact .going .nil ht

theorem sends_move (ht : Going t) (i n : ℤ) : Sends (move t i n).1 (move t i n).2 := by
  rw [move]
  split
  · exact .going (.again _ _ (by simp) ht.board) ht
  · split
    · exact .going (.again _ _ (by simp) ht.board) ht
    · simp only
      split
      · exact .ended .nil rfl (Nat.zero_le _)
      · have hb := boardStr_length (takeFrom t.piles i n)
        exact .going (.boards _ hb) ⟨ht.ended, ht.winner, hb, ht.reason⟩

theorem sends_checkActive (ht : Going t) (w : Wake) :
    Sends (checkActive t w).1 (checkActive t w).2 := by
  rw [checkActive]
  split
  · split
    · exact sends_forfeited t _
    · exact sends_dropInvalid ht _
    · split
      · exact .going .nil ht
      · split
        · exact sends_dropInvalid ht _
        · exact sends_move ht _ _
  · exact .going .nil ht

/-- **What an iteration sends.** -/
theorem sends_iterate (ht : Going t) (w : Wake) : Sends (iterate t w).1 (iterate t w).2 := by
  rw [iterate]
  split
  · exact .ended .nil rfl ht.reason
  · have hidle := sends_checkIdle ht w
    revert hidle
    generalize checkIdle t w = r
    obtain ⟨es, t'⟩ := r
    intro hidle
    simp only
    split
    · exact hidle
    · next hend =>
        cases hidle with
        | going ex goes => exact (sends_checkActive goes w).prepend ex
        | ended _ off => exact absurd off hend
        | dropped _ _ off => exact absurd off hend

/-! ### The calls that are left -/

/-- The calls a game thread has before it: nothing is sent behind a `close`, and nothing is closed
while the loop goes on. -/
structure Calls (todo : List Effect) (t : Thread) : Prop where
  order : todo.Pairwise fun e e' => IsSend e' → IsSend e
  going : t.ended = false → Going t ∧ ∀ e ∈ todo, IsSend e

/-- What a player was told, `ks`, goes on with the texts that are left for it. -/
def Continues (p : Seat) (todo : List Effect) (t : Thread) (ks : List Kind) : Prop :=
  ∃ more, List.Forall₂ Says (textsTo p todo) more ∧
    (t.ended = false → Playing (ks ++ more)) ∧ (t.ended = true → Word (ks ++ more))

theorem not_isSend_close (p : Seat) : ¬ IsSend (.close p) := by
  rintro ⟨q, text, h⟩
  cases h

theorem not_isSend_closes {p : Seat} : ∀ e ∈ [Effect.close p, .close q], ¬ IsSend e := by
  intro e he
  rcases List.mem_cons.mp he with rfl | he
  · exact not_isSend_close _
  · exact List.mem_singleton.mp he ▸ not_isSend_close _

/-- Sends, and then closes. -/
theorem pairwise_calls (hs : ∀ e ∈ es, IsSend e) (hc : ∀ e ∈ es', ¬ IsSend e) :
    (es ++ es').Pairwise fun e e' => IsSend e' → IsSend e := by
  refine List.pairwise_append.mpr ⟨?_, ?_, fun e he _ _ _ => hs e he⟩
  · exact List.pairwise_of_forall_mem_list fun e he _ _ _ => hs e he
  · exact List.pairwise_of_forall_mem_list fun _ _ e' he' h => absurd h (hc e' he')

theorem Calls.tail {b : Effect} {todo : List Effect} (h : Calls (b :: todo) t) : Calls todo t where
  order := (List.pairwise_cons.mp h.order).2
  going ht := ⟨(h.going ht).1, fun e he => (h.going ht).2 e (List.mem_cons_of_mem _ he)⟩

/-- The announcement, to each of the players. -/
theorem announce_says (hr : t.reason.length ≤ 7) (p : Seat) :
    ∃ last, List.Forall₂ Says (textsTo p (announce t)) last ∧ (last = [] ∨ last = [.over]) := by
  cases hv : t.winner with
  | none =>
      rw [announce_none hv]
      exact ⟨[], .nil, .inl rfl⟩
  | some v =>
      have hover : Says (overText v (boardStr t.piles) t.reason) .over :=
        says_over v (boardStr_length _) hr
      refine ⟨[.over], ?_, .inr rfl⟩
      rw [announce_some hv]
      cases p <;> simpa [textsTo, Effect.textTo]

theorem gameTodo_going (h : t.ended = false) : gameTodo (es, t) = es := by
  rw [gameTodo, h, if_neg Bool.false_ne_true]

theorem gameTodo_ended (h : t.ended = true) :
    gameTodo (es, t) = (es ++ announce t) ++ [.close .one, .close .two] := by
  rw [gameTodo, if_pos h, epilogue, List.append_assoc]

/-- A malformed message: nothing is announced. -/
theorem gameTodo_dropped {text : Bytes} (h : t.ended = true) (hw : t.winner = none) (p : Seat) :
    gameTodo (es ++ [.send p text, .close p], t) =
      (es ++ [.send p text]) ++ (.close p :: [.close .one, .close .two]) := by
  rw [gameTodo_ended h, announce_none hw]
  simp

theorem Sends.calls (h : Sends es t) : Calls (gameTodo (es, t)) t := by
  cases h with
  | going ex goes =>
      rw [gameTodo_going goes.ended]
      exact ⟨List.pairwise_of_forall_mem_list fun e he _ _ _ => ex.sends e he,
        fun _ => ⟨goes, ex.sends⟩⟩
  | ended ex off _ =>
      rw [gameTodo_ended off]
      refine ⟨pairwise_calls (isSend_append ex.sends (isSend_announce t)) not_isSend_closes, ?_⟩
      rw [off]
      nofun
  | dropped p ex off winner =>
      rw [gameTodo_dropped off winner]
      refine ⟨pairwise_calls (isSend_append ex.sends ?_) ?_, by rw [off]; nofun⟩
      · intro e he
        exact ⟨p, _, List.mem_singleton.mp he⟩
      · exact List.forall_mem_cons.mpr ⟨not_isSend_close p, not_isSend_closes⟩

theorem Sends.continues (h : Sends es t) (hk : Playing ks) (p : Seat) :
    Continues p (gameTodo (es, t)) t ks := by
  cases h with
  | going ex goes =>
      obtain ⟨more, hmore, hturns⟩ := ex.turns p
      rw [gameTodo_going goes.ended]
      exact ⟨more, hmore, fun _ => hk.append hturns, by rw [goes.ended]; nofun⟩
  | ended ex off reason =>
      obtain ⟨more, hmore, hturns⟩ := ex.turns p
      obtain ⟨last, hlast, hl⟩ := announce_says reason p
      have hword : Word (ks ++ more ++ last) :=
        .played (hk.append hturns) (hl.imp_right .inr)
      rw [List.append_assoc] at hword
      refine ⟨more ++ last, ?_, by rw [off]; nofun, fun _ => hword⟩
      rw [gameTodo_ended off, textsTo_append, textsTo_append]
      have hcloses : textsTo p [.close .one, .close .two] = [] := rfl
      rw [hcloses, List.append_nil]
      exact List.rel_append hmore hlast
  | dropped q ex off winner =>
      obtain ⟨more, hmore, hturns⟩ := ex.turns p
      have hcloses : textsTo p (.close q :: [.close .one, .close .two]) = [] := rfl
      by_cases e : q = p
      · subst e
        have hword : Word (ks ++ more ++ [.fail 10]) :=
          .played (hk.append hturns) (.inr (.inl rfl))
        rw [List.append_assoc] at hword
        refine ⟨more ++ [.fail 10], ?_, by rw [off]; nofun, fun _ => hword⟩
        rw [gameTodo_dropped off winner, textsTo_append, textsTo_append, hcloses, List.append_nil]
        refine List.rel_append hmore ?_
        simpa [textsTo, Effect.textTo] using says_invalid
      · have hword : Word (ks ++ more ++ []) := .played (hk.append hturns) (.inl rfl)
        rw [List.append_nil] at hword
        refine ⟨more, ?_, by rw [off]; nofun, fun _ => hword⟩
        rw [gameTodo_dropped off winner, textsTo_append, textsTo_append, hcloses, List.append_nil]
        simpa [textsTo, Effect.textTo, e] using hmore

/-- The names and the first board. -/
theorem calls_prologue (name₁ name₂ : Bytes) : Calls (prologue name₁ name₂) begin := by
  have hsend : ∀ e ∈ prologue name₁ name₂, IsSend e := by
    change ∀ e ∈ [Effect.send _ _, .send _ _] ++ [Effect.send _ _, .send _ _], IsSend e
    exact isSend_append isSend_pair isSend_pair
  refine ⟨List.pairwise_of_forall_mem_list fun e he _ _ _ => hsend e he, fun _ => ⟨?_, hsend⟩⟩
  exact ⟨rfl, rfl, boardStr_length _, Nat.zero_le _⟩

theorem continues_prologue (name₁ name₂ : Name) (p : Seat) :
    Continues p (prologue name₁.bytes name₂.bytes) begin [.wait] := by
  have hplay := says_play begin.turn (boardStr_length initialPiles)
  refine ⟨[.name, .play], ?_, fun _ => ⟨[], .nil, rfl⟩, nofun⟩
  cases p with
  | one => exact .cons (says_name .one name₂) (.cons hplay .nil)
  | two => exact .cons (says_name .two name₁) (.cons hplay .nil)

namespace Continues

variable {b : Effect} {todo : List Effect}

/-- A text is sent to the player. -/
theorem send (h : Continues p (.send p text :: todo) t ks) :
    ∃ k, Says text k ∧ Continues p todo t (ks ++ [k]) := by
  obtain ⟨more, hmore, hplay, hword⟩ := h
  have htexts : textsTo p (.send p text :: todo) = text :: textsTo p todo := by
    simp [textsTo, Effect.textTo]
  rw [htexts] at hmore
  cases hmore with
  | @cons _ k _ more hk hmore =>
      rw [List.append_cons] at hplay hword
      exact ⟨k, hk, more, hmore, hplay, hword⟩

/-- A call that is not for the player. -/
theorem skip (h : Continues p (b :: todo) t ks) (hb : b.textTo p = none) :
    Continues p todo t ks := by
  rwa [Continues, textsTo, List.filterMap_cons_none hb] at h

theorem word (h : Continues p todo t ks) : ∃ w, Word w ∧ ks <+: w := by
  obtain ⟨more, -, hplay, hword⟩ := h
  cases ht : t.ended with
  | false =>
      have hw := Word.played (hplay ht) (.inl rfl)
      rw [List.append_nil] at hw
      exact ⟨_, hw, List.prefix_append _ _⟩
  | true => exact ⟨_, hword ht, List.prefix_append _ _⟩

end Continues

end CS214.Nim
