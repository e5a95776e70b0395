import CS214.Nim.Boards
import CS214.Nim.Codec

/-!
# Nim — the fields a client sends

`receive_msg` splits a frame at its first `'|'` and leaves what is behind it as it is; and it stops
at the first NUL.  What is made of the rest is here.

* `move_validated_iff`: `game_thread` takes the fields of a `MOVE` for numbers with `atoi`, which
  gives every text a value, and only 32 bits of it.
* `open_fields_iff`: `handle_client` takes a name with a `'|'` in it, which goes into the `NAME`
  frame as it is.
-/

namespace CS214.Nim

open CString NimGame

variable {c : Conn} {type body rest : Bytes} {t t' : Thread} {w : Wake} {p q : Seat}

/-! ### A frame with any body -/

/-- The bytes of a message. -/
def message (type body : Bytes) : Bytes := rawFrame (type ++ pipe :: body)

/-- A body of 93 bytes fits behind a type of four. -/
theorem message_fits (htype : type.length = 4) (hbody : body.length ≤ 93) :
    (type ++ pipe :: body).length ≤ 98 := by
  rw [List.length_append, List.length_cons, htype]
  omega

/-- The type is received as it is, and the body up to its first NUL. -/
theorem receiveMsg_message_any (h₀ : 0 ∉ type) (hp : pipe ∉ type)
    (hlen : (type ++ pipe :: body).length ≤ 98) (hw : c.Whole)
    (hc : c.flatten = message type body ++ rest) :
    (receiveMsg c).1 = .message type (untilNul body) := by
  obtain ⟨c', hr, -⟩ := receiveMsg_raw hlen hw hc
  rw [hr, splitMsg, List.getLast?_append, List.dropLast_concat, untilNul_fields h₀,
    cut_append hp]
  rfl

/-! ### The fields of a `MOVE` -/

/-- The body is the two numerals of these integers. -/
def TwoNumerals (body : Bytes) (i n : ℤ) : Prop :=
  ∃ a b, body = a ++ pipe :: b ∧ exactNumeral a = some i ∧ exactNumeral b = some n

/-- The index of a pile, and an amount that may be taken from it. -/
def InRange (piles : Fin 5 → ℤ) (i n : ℤ) : Prop :=
  0 ≤ i ∧ i ≤ 4 ∧ 1 ≤ n ∧ n ≤ piles (pileAt i)

/-- The code of a FAIL. -/
def failCode : Kind → Option ℤ
  | .fail code => some code
  | _ => none

/-- The codes of the `FAIL` frames sent to a player. -/
def failCodes (p : Seat) (es : List Effect) : List ℤ :=
  ((textsTo p es).filterMap frame).filterMap fun msg => failCode (frameKind msg)

/-- Piles and turn stay. -/
def Untouched (t t' : Thread) : Prop := t'.piles = t.piles ∧ t'.turn = t.turn

/-- What an iteration makes of a `MOVE` with this body: it takes stones only as two numerals in
range say, and answers any other body with an error, without touching the game. -/
structure MoveValidated (t : Thread) (body : Bytes) (r : List Effect × Thread) : Prop where
  applied : ∀ i n, 0 ≤ i → i ≤ 4 → n ≠ 0 → r.2.piles = takeFrom t.piles i n →
    TwoNumerals body i n ∧ InRange t.piles i n
  notNumerals : (∀ i n, ¬ TwoNumerals body i n) → Untouched t r.2 ∧ failCodes t.turn r.1 = [10]
  outOfRange : ∀ i n, TwoNumerals body i n → ¬ InRange t.piles i n →
    Untouched t r.2 ∧ (failCodes t.turn r.1 = [32] ∨ failCodes t.turn r.1 = [33])

/-- The values that `atoi` gives the fields are in range only if those they are the numerals of
are. -/
def SameRange (piles : Fin 5 → ℤ) (body : Bytes) : Prop :=
  ∃ a b i n, body = a ++ pipe :: b ∧ exactNumeral a = some i ∧ exactNumeral b = some n ∧
    (InRange piles (atoi a) (atoi b) → InRange piles i n)

section

variable {i n i' n' : ℤ} {a b : Bytes} {es es' : List Effect} {piles : Fin 5 → ℤ}

theorem exactNumeral_noPipe (h : exactNumeral a = some i) : pipe ∉ a :=
  exactNumeral_not_mem h (by decide) (by decide) (by decide)

theorem exactNumeral_noNul (h : exactNumeral a = some i) : 0 ∉ a :=
  exactNumeral_not_mem h (by decide) (by decide) (by decide)

/-- Two numerals are seen whole, and split between them. -/
theorem cut_numerals (ha : exactNumeral a = some i) (hb : exactNumeral b = some n) :
    cut pipe (untilNul (a ++ pipe :: b)) = some (a, b) := by
  rw [untilNul_fields (exactNumeral_noNul ha), untilNul_eq_self (exactNumeral_noNul hb),
    cut_append (exactNumeral_noPipe ha)]

theorem TwoNumerals.cut (h : TwoNumerals body i n) :
    ∃ a b, body = a ++ pipe :: b ∧ exactNumeral a = some i ∧ exactNumeral b = some n ∧
      cut pipe (untilNul body) = some (a, b) := by
  obtain ⟨a, b, rfl, ha, hb⟩ := h
  exact ⟨a, b, rfl, ha, hb, cut_numerals ha hb⟩

/-- Two numerals have their values. -/
theorem TwoNumerals.unique (h : TwoNumerals body i n) (h' : TwoNumerals body i' n') :
    i = i' ∧ n = n' := by
  obtain ⟨a, b, -, ha, hb, hcut⟩ := h.cut
  obtain ⟨a', b', -, ha', hb', hcut'⟩ := h'.cut
  obtain ⟨rfl, rfl⟩ := Prod.mk.inj (Option.some.inj (hcut.symm.trans hcut'))
  exact ⟨Option.some.inj (ha.symm.trans ha'), Option.some.inj (hb.symm.trans hb')⟩

/-- Stones taken from a pile say which pile and how many. -/
theorem takeFrom_inj (hi : 0 ≤ i) (hi₄ : i ≤ 4) (hi' : 0 ≤ i') (hi₄' : i' ≤ 4) (hn : n ≠ 0)
    (h : takeFrom piles i n = takeFrom piles i' n') : i = i' ∧ n = n' := by
  have hpile := congrFun h (pileAt i)
  have hval : ∀ {j : ℤ}, 0 ≤ j → j ≤ 4 → ((pileAt j).val : ℤ) = j := by
    intro j h₀ h₄
    simp only [pileAt, Fin.ofNat]
    omega
  simp only [takeFrom, Function.update_self] at hpile
  by_cases e : pileAt i = pileAt i'
  · rw [e, Function.update_self] at hpile
    have hv := hval hi hi₄
    rw [e, hval hi' hi₄'] at hv
    exact ⟨hv.symm, by omega⟩
  · -- the pile of `i` would be as it was
    rw [Function.update_of_ne e] at hpile
    omega

theorem takeFrom_ne (hn : n ≠ 0) : takeFrom piles i n ≠ piles := by
  intro h
  have hpile := congrFun h (pileAt i)
  rw [takeFrom, Function.update_self] at hpile
  omega

/-! ### What the player on turn is told -/

@[simp] theorem failCodes_append :
    failCodes p (es ++ es') = failCodes p es ++ failCodes p es' := by
  rw [failCodes, textsTo_append, List.filterMap_append, List.filterMap_append, failCodes,
    failCodes]

theorem failCodes_cons {e : Effect} :
    failCodes p (e :: es) = failCodes p [e] ++ failCodes p es := by
  rw [← failCodes_append, List.singleton_append]

theorem failCodes_send {text : Bytes} {k : Kind} (h : Says text k) :
    failCodes p [.send p text] = (failCode k).toList := by
  obtain ⟨msg, hmsg, rfl⟩ := h
  have htexts : textsTo p [.send p text] = [text] := by simp [textsTo, Effect.textTo]
  rw [failCodes, htexts, List.filterMap_cons_some hmsg]
  cases h : failCode (frameKind msg) with
  | none => exact List.filterMap_cons_none h
  | some code => exact List.filterMap_cons_some h

theorem failCodes_both {text : Bytes} {k : Kind} (h : Says text k) (hk : failCode k = none) :
    failCodes p [.send .one text, .send .two text] = [] := by
  obtain ⟨msg, hmsg, rfl⟩ := h
  cases p <;> simp [failCodes, textsTo, Effect.textTo, hmsg, hk]

/-- The half of the idle player sends the other one nothing. -/
theorem checkIdle_quiet (t : Thread) (w : Wake) : failCodes t.turn (checkIdle t w).1 = [] := by
  have hne : t.turn.other ≠ t.turn := t.turn.other_ne
  have htexts : textsTo t.turn (checkIdle t w).1 = [] := by
    rw [checkIdle]
    split
    · split
      · rfl
      · simp [dropInvalid, textsTo, Effect.textTo, hne]
      · split
        · simp [textsTo, Effect.textTo, hne]
        · rfl
    · rfl
  rw [failCodes, htexts]
  rfl

theorem failCodes_refused {code : ℤ} {msg : String}
    (h : (code, msg) ∈ [((32 : ℤ), "Pile Index"), (33, "Quantity")])
    (hboard : t.board.length ≤ 63) :
    failCodes t.turn [.send t.turn (errorText code msg),
      .send t.turn (playText t.turn t.board)] = [code] := by
  rw [failCodes_cons, failCodes_send (says_reply (List.mem_cons_of_mem _ h)),
    failCodes_send (says_play _ hboard)]
  rfl

/-- A `MOVE` with two fields is applied with the values that `atoi` gives them, if they are in
range, and refused otherwise. -/
theorem move_spec (hboard : t.board.length ≤ 63) :
    (InRange t.piles i n → (move t i n).2.piles = takeFrom t.piles i n ∧
      failCodes t.turn (move t i n).1 = []) ∧
    (¬ InRange t.piles i n → (move t i n).2 = t ∧
      (failCodes t.turn (move t i n).1 = [32] ∨ failCodes t.turn (move t i n).1 = [33])) := by
  by_cases hi : i < 0 ∨ i > 4
  · rw [move, if_pos hi]
    refine ⟨fun h => ?_, fun _ => ⟨rfl, .inl ?_⟩⟩
    · obtain ⟨h₀, h₄, -⟩ := h
      omega
    · exact failCodes_refused List.mem_cons_self hboard
  rw [move, if_neg hi]
  by_cases hn : n < 1 ∨ n > t.piles (pileAt i)
  · rw [if_pos hn]
    refine ⟨fun h => ?_, fun _ => ⟨rfl, .inr ?_⟩⟩
    · obtain ⟨-, -, h₁, hle⟩ := h
      omega
    · exact failCodes_refused (List.mem_cons_of_mem _ List.mem_cons_self) hboard
  rw [if_neg hn]
  refine ⟨fun _ => ?_, fun h => absurd ⟨by omega, by omega, by omega, by omega⟩ h⟩
  simp only
  split
  · exact ⟨rfl, rfl⟩
  · have hplay := says_play t.turn.other (boardStr_length (takeFrom t.piles i n))
    exact ⟨rfl, failCodes_both hplay rfl⟩

end

/-! ### Whether a `MOVE` is validated -/

section

variable {i n : ℤ} {a b : Bytes}

/-- The player on turn sends this `MOVE`, and the iteration reads it. -/
structure SendsMove (t : Thread) (w : Wake) (body rest : Bytes) : Prop where
  reads : Reads t w t.turn
  whole : (w.input t.turn).Whole
  bytes : (w.input t.turn).flatten = message (ascii "MOVE") body ++ rest
  fits : body.length ≤ 93

theorem SendsMove.received (h : SendsMove t w body rest) :
    w.received t.turn = .message (ascii "MOVE") (untilNul body) := by
  exact receiveMsg_message_any (by decide) (by decide) (message_fits rfl h.fits) h.whole h.bytes

/-- An iteration that reads a `MOVE`: nothing for the player on turn, and then the move. -/
theorem SendsMove.iterate (h : SendsMove t w body rest) (ht : t.ended = false) :
    (Nim.iterate t w).2 = (checkActive t w).2 ∧
      failCodes t.turn (Nim.iterate t w).1 = failCodes t.turn (checkActive t w).1 := by
  have hret : ¬ w.ret < 0 := Int.not_lt.mpr h.reads.polled
  have hidle : (checkIdle t w).2 = t := by
    rcases checkIdle_cases t w h.reads.polled with ⟨hg, -⟩ | ⟨hb, -⟩ | ⟨-, e, -⟩
    · exact absurd (.inl hg) (h.reads.idle rfl).not_stops
    · exact absurd (.inr hb) (h.reads.idle rfl).not_stops
    · exact e
  rw [Nim.iterate, if_neg hret]
  simp only [hidle, ht, Bool.false_eq_true, if_false, failCodes_append, checkIdle_quiet,
    List.nil_append, and_self]

theorem SendsMove.checkActive (h : SendsMove t w body rest) :
    Nim.checkActive t w = match cut pipe (untilNul body) with
      | none => dropInvalid t t.turn
      | some (arg₁, arg₂) => move t (atoi arg₁) (atoi arg₂) := by
  unfold Nim.checkActive
  simp only
  rw [if_pos h.reads.ready, h.received]
  exact if_neg (not_not.mpr rfl)

/-- The values of numerals that are in range are those that `atoi` gives. -/
theorem InRange.atoi (h : InRange t.piles i n) (hp : ∀ i, t.piles i ≤ 9)
    (ha : exactNumeral a = some i) (hb : exactNumeral b = some n) :
    CString.atoi a = i ∧ CString.atoi b = n := by
  obtain ⟨h₀, h₄, h₁, hle⟩ := h
  have hle₉ := hp (pileAt i)
  exact ⟨atoi_exact ha (by omega) (by omega), atoi_exact hb (by omega) (by omega)⟩

theorem Untouched.not_applied (h : Untouched t t') (hn : n ≠ 0)
    (hpiles : t'.piles = takeFrom t.piles i n) : False :=
  takeFrom_ne hn (hpiles.symm.trans h.1)

/-- A body without a `'|'` is refused. -/
theorem moveValidated_noPipe (h : SendsMove t w body rest) (ht : t.ended = false)
    (hno : pipe ∉ untilNul body) : MoveValidated t body (Nim.iterate t w) := by
  obtain ⟨hthread, hfails⟩ := h.iterate ht
  have hcut : cut pipe (untilNul body) = none := cut_eq_none.mpr hno
  have hactive : Nim.checkActive t w = dropInvalid t t.turn := by rw [h.checkActive, hcut]
  rw [hactive] at hthread hfails
  have hsame : Untouched t (Nim.iterate t w).2 := by
    rw [hthread]
    exact ⟨rfl, rfl⟩
  refine ⟨fun i n _ _ hn hpiles => (hsame.not_applied hn hpiles).elim, fun _ => ⟨hsame, ?_⟩,
    fun i n htwo => ?_⟩
  · rw [hfails, dropInvalid, failCodes_cons, failCodes_send says_invalid]
    rfl
  · obtain ⟨a, b, -, -, -, hcut'⟩ := htwo.cut
    rw [hcut] at hcut'
    cases hcut'

/-- Two numerals are validated exactly if `atoi` does not bring them into range. -/
theorem moveValidated_numerals (h : SendsMove t w body rest) (ht : t.ended = false)
    (hboard : t.board.length ≤ 63) (hp : ∀ i, t.piles i ≤ 9) (ha : exactNumeral a = some i)
    (hb : exactNumeral b = some n) (hbody : body = a ++ pipe :: b) :
    MoveValidated t body (Nim.iterate t w) ↔
      (InRange t.piles (CString.atoi a) (CString.atoi b) → InRange t.piles i n) := by
  obtain ⟨hthread, hfails⟩ := h.iterate ht
  have htwo : TwoNumerals body i n := ⟨a, b, hbody, ha, hb⟩
  have hactive : Nim.checkActive t w = move t (CString.atoi a) (CString.atoi b) := by
    rw [h.checkActive, hbody, cut_numerals ha hb]
  rw [hactive] at hthread hfails
  obtain ⟨happ, href⟩ := move_spec (i := CString.atoi a) (n := CString.atoi b) hboard
  constructor
  · intro hval hin
    obtain ⟨hpiles, -⟩ := happ hin
    have hne : CString.atoi b ≠ 0 := by have := hin.2.2.1; omega
    rw [← hthread] at hpiles
    obtain ⟨htwo', hin'⟩ := hval.applied _ _ hin.1 hin.2.1 hne hpiles
    obtain ⟨rfl, rfl⟩ := htwo.unique htwo'
    exact hin'
  · intro hsame
    by_cases hin : InRange t.piles (CString.atoi a) (CString.atoi b)
    · -- no pile has more than nine stones, so the numerals are small and `atoi` reads them
      have hexact := hsame hin
      obtain ⟨hi, hn⟩ := hexact.atoi hp ha hb
      obtain ⟨hpiles, -⟩ := happ hin
      have hne : CString.atoi b ≠ 0 := by have := hin.2.2.1; omega
      refine ⟨fun i' n' h₀ h₄ hn' hpiles' => ?_, fun hno => absurd htwo (hno i n), ?_⟩
      · rw [hthread, hpiles] at hpiles'
        obtain ⟨rfl, rfl⟩ := takeFrom_inj hin.1 hin.2.1 h₀ h₄ hne hpiles'
        rw [hi, hn]
        exact ⟨htwo, hexact⟩
      · intro i' n' htwo' hout
        obtain ⟨rfl, rfl⟩ := htwo.unique htwo'
        exact absurd hexact hout
    · obtain ⟨hstay, hcode⟩ := href hin
      have hunt : Untouched t (Nim.iterate t w).2 := by
        rw [hthread, hstay]
        exact ⟨rfl, rfl⟩
      refine ⟨fun i' n' _ _ hn' hpiles' => (hunt.not_applied hn' hpiles').elim,
        fun hno => absurd htwo (hno i n), fun i' n' _ _ => ⟨hunt, ?_⟩⟩
      rw [hfails]
      exact hcode

/-- Any other body with a `'|'` is not. -/
theorem not_moveValidated (h : SendsMove t w body rest) (ht : t.ended = false)
    (hboard : t.board.length ≤ 63) (hpipe : pipe ∈ untilNul body)
    (hno : ∀ i n, ¬ TwoNumerals body i n) : ¬ MoveValidated t body (Nim.iterate t w) := by
  intro hval
  obtain ⟨-, hfails⟩ := h.iterate ht
  have hten := (hval.notNumerals hno).2
  cases hcut : cut pipe (untilNul body) with
  | none => exact cut_eq_none.mp hcut hpipe
  | some r =>
      -- the loop takes the fields for numbers, and sends no error 10
      have hactive : Nim.checkActive t w = move t (CString.atoi r.1) (CString.atoi r.2) := by
        rw [h.checkActive, hcut]
      rw [hactive] at hfails
      rw [hten] at hfails
      obtain ⟨happ, href⟩ := move_spec (i := CString.atoi r.1) (n := CString.atoi r.2) hboard
      by_cases hin : InRange t.piles (CString.atoi r.1) (CString.atoi r.2)
      · rw [(happ hin).2] at hfails
        cases hfails
      · rcases (href hin).2 with e | e <;> rw [e] at hfails <;> cases hfails

end

/-- **Whether the fields of a `MOVE` are validated.**  In every state of a game, and for every body
that the player on turn may send: exactly if the body has no `'|'` before its first NUL, or is two
numerals that are in range if the 32-bit values are that `atoi` gives them. -/
theorem move_validated_iff {name₁ name₂ : Name} {wakes : List Wake} {s : Play}
    (h : Run pollStep (fun _ _ => True) (opening name₁.bytes name₂.bytes) wakes s)
    (he : s.thread.ended = false) (hsend : SendsMove s.thread w body rest) :
    MoveValidated s.thread body (iterate s.thread w) ↔
      pipe ∉ untilNul body ∨ SameRange s.thread.piles body := by
  have hboard : s.thread.board.length ≤ 63 := by
    rw [((run_inStep h).synced he).board]
    exact boardStr_length _
  have hpiles : ∀ i, s.thread.piles i ≤ 9 := by
    intro i
    have hle := run_piles_le h i
    simp only [initialPiles] at hle
    omega
  by_cases hpipe : pipe ∈ untilNul body
  · rw [or_iff_right (not_not.mpr hpipe)]
    constructor
    · intro hval
      by_cases htwo : ∃ i n, TwoNumerals body i n
      · obtain ⟨i, n, a, b, hbody, ha, hb⟩ := htwo
        refine ⟨a, b, i, n, hbody, ha, hb, ?_⟩
        exact (moveValidated_numerals hsend he hboard hpiles ha hb hbody).mp hval
      · refine absurd hval (not_moveValidated hsend he hboard hpipe fun i n hn => ?_)
        exact htwo ⟨i, n, hn⟩
    · rintro ⟨a, b, i, n, hbody, ha, hb, hsame⟩
      exact (moveValidated_numerals hsend he hboard hpiles ha hb hbody).mpr hsame
  · exact iff_of_true (moveValidated_noPipe hsend he hpipe) (.inl hpipe)

/-- Player 1 sends a frame in the first state of a game. -/
theorem begin_sendsMove {text : String} (hbytes : ascii text = message (ascii "MOVE") body)
    (hlen : body.length ≤ 93) (hne : ascii text ≠ []) :
    SendsMove begin (.from .one text) body [] where
  reads := ⟨Int.one_nonneg, rfl, fun _ (h : false = true) => nomatch h⟩
  whole p hp := by
    obtain rfl : p = ascii text := List.mem_singleton.mp hp
    exact hne
  bytes := by
    rw [← hbytes]
    rfl
  fits := hlen

/-- The first move of a game takes the last pile. -/
theorem move_validated_iff_last :
    MoveValidated begin (ascii "4|9") (iterate begin (.from .one "0|09|MOVE|4|9|")) := by
  have hsend : SendsMove begin (.from .one "0|09|MOVE|4|9|") (ascii "4|9") [] :=
    begin_sendsMove (by decide) (by decide) (by decide)
  let ann : Name := ⟨ascii "Ann", by decide⟩
  have hrun : Run pollStep (fun _ _ => True) (opening ann.bytes ann.bytes) [] _ := .nil _
  refine (move_validated_iff hrun rfl hsend).mpr (.inr ⟨ascii "4", ascii "9", 4, 9, ?_⟩)
  exact ⟨by decide, by decide, by decide, fun _ => ⟨by decide, by decide, by decide, by decide⟩⟩

/-- Three letters are taken for the first pile. -/
theorem move_not_validated : ¬ ∀ w body rest, SendsMove begin w body rest →
    MoveValidated begin body (iterate begin w) := by
  intro hclaim
  have hsend : SendsMove begin (.from .one "0|11|MOVE|abc|1|") (ascii "abc|1") [] :=
    begin_sendsMove (by decide) (by decide) (by decide)
  refine not_moveValidated hsend rfl (boardStr_length _) (by decide) ?_ (hclaim _ _ _ hsend)
  intro i n htwo
  obtain ⟨a, b, -, ha, -, hcut⟩ := htwo.cut
  have hfields : cut pipe (untilNul (ascii "abc|1")) = some (ascii "abc", ascii "1") := by decide
  have hletters : exactNumeral (ascii "abc") = none := by decide
  rw [hfields] at hcut
  cases hcut
  rw [hletters] at ha
  cases ha

/-! ### The name of an `OPEN` -/

/-- The fields of a frame. -/
def fieldsOf (msg : Bytes) : List Bytes := (msg.drop 5).dropLast.splitOn pipe

/-- The one `NAME` frame that a player gets has these fields. -/
def Introduced (p : Seat) (es : List Effect) (fields : List Bytes) : Prop :=
  ∃ msg, framesTo p .name es = [msg] ∧ fieldsOf msg = fields

/-- What becomes of an `OPEN` with this body: a name that is registered is a field of the `NAME`
frame, whichever player bears it and whoever the opponent is; and a body of several fields is
refused. -/
structure OpenSafe (body : Bytes) (h : Handler) : Prop where
  fields : ∀ name, h = .opened name → ∀ opponent : Name,
    Introduced .two (prologue name.bytes opponent.bytes) [ascii "NAME", decimal 2, name.bytes] ∧
      Introduced .one (prologue opponent.bytes name.bytes) [ascii "NAME", decimal 1, name.bytes]
  refused : pipe ∈ body → ∃ text, h = .finishing [.send text, .close] ∧ Says text (.fail 10)

section

variable {name : Name}

/-- Each player gets one `NAME`, which bears the name of the other one. -/
theorem prologue_names (name₁ name₂ : Name) :
    (∃ msg, frame (nameText 1 name₂.bytes) = some msg ∧
      framesTo .one .name (prologue name₁.bytes name₂.bytes) = [msg]) ∧
    ∃ msg, frame (nameText 2 name₁.bytes) = some msg ∧
      framesTo .two .name (prologue name₁.bytes name₂.bytes) = [msg] := by
  obtain ⟨msg₁, h₁, hk₁⟩ : Says (nameText 1 name₂.bytes) .name := says_name .one name₂
  obtain ⟨msg₂, h₂, hk₂⟩ : Says (nameText 2 name₁.bytes) .name := says_name .two name₁
  have hplay : Says (playText begin.turn begin.board) .play := says_play _ (boardStr_length _)
  have hboards : ∀ p, framesTo p .name [.send .one (playText begin.turn begin.board),
      .send .two (playText begin.turn begin.board)] = [] := fun p => by
    rw [framesTo_cons, hplay.framesTo (k := .name) (by decide),
      hplay.framesTo (k := .name) (by decide)]
    rfl
  refine ⟨⟨msg₁, h₁, ?_⟩, ⟨msg₂, h₂, ?_⟩⟩
  · rw [prologue, framesTo_cons, framesTo_cons (e := .send .two _), framesTo_send h₁ hk₁,
      framesTo_send_ne (p := .one) (q := .two) (by decide), hboards]
    rfl
  · rw [prologue, framesTo_cons, framesTo_cons (e := .send .two _), framesTo_send h₂ hk₂,
      framesTo_send_ne (p := .two) (q := .one) (by decide), hboards]
    rfl

/-- The fields of the `NAME` frame, for a name that is one field itself. -/
theorem fieldsOf_name {msg : Bytes} (n : Seat) (h₀ : 0 ∉ name.bytes) (hp : pipe ∉ name.bytes)
    (h : frame (nameText (number n) name.bytes) = some msg) :
    fieldsOf msg = [ascii "NAME", decimal (number n), name.bytes] := by
  have hdigit : ∀ b, isDigit b = false → b ≠ 45 → b ∉ decimal (number n) :=
    fun b hb hm => not_mem_decimal hb hm _
  have hlen : (nameText (number n) name.bytes).length ≤ maxMsgLen - 1 := by
    have hle := name.le
    have hn := number_length n
    have htype : (ascii "NAME|").length = 5 := rfl
    simp only [nameText, List.length_append, List.length_cons, hn, htype, maxMsgLen]
    unfold nameLimit at hle
    omega
  have hnul : 0 ∉ nameText (number n) name.bytes := by
    simp only [nameText, List.mem_append, List.mem_cons, not_or]
    exact ⟨⟨by decide, hdigit 0 rfl (by decide)⟩, by decide, h₀⟩
  rw [fieldsOf, payload_of_frame h, List.take_of_length_le hlen, untilNul_eq_self hnul]
  have htext : nameText (number n) name.bytes =
      [pipe].intercalate [ascii "NAME", decimal (number n), name.bytes] := by
    simp [nameText, List.intercalate, ascii, pipe]
  rw [htext]
  refine List.splitOn_intercalate pipe ?_ (List.cons_ne_nil _ _)
  intro l hl
  simp only [List.mem_cons, List.not_mem_nil, or_false] at hl
  rcases hl with rfl | rfl | rfl
  · decide
  · exact hdigit pipe rfl (by decide)
  · exact hp

/-- **Whether names can inject fields.**  For every body of an `OPEN`: exactly if it has no `'|'`,
the name that is registered for it is one field of the `NAME` frame, and what is no single field is
refused. -/
theorem open_fields_iff (hlen : body.length ≤ 93) (hw : c.Whole)
    (hc : c.flatten = message (ascii "OPEN") body ++ rest) :
    OpenSafe body (openReply (receiveMsg c).1) ↔ pipe ∉ body := by
  rw [receiveMsg_message_any (by decide) (by decide) (message_fits rfl hlen) hw hc]
  simp only [openReply, ne_eq, not_true_eq_false, if_false]
  constructor
  · intro hsafe hpipe
    obtain ⟨text, hrefused, hfail⟩ := hsafe.refused hpipe
    split at hrefused
    · cases hrefused
    · -- a name that is too long is refused with 21
      cases hrefused
      have hlong : Says (errorText 21 "Long Name") (.fail 21) := says_fail (by decide)
      obtain ⟨msg, hmsg, hk⟩ := hfail
      obtain ⟨msg', hmsg', hk'⟩ := hlong
      obtain rfl := Option.some.inj (hmsg.symm.trans hmsg')
      rw [hk] at hk'
      cases hk'
  · intro hno
    refine ⟨fun name hname opponent => ?_, fun hpipe => absurd hpipe hno⟩
    have hbytes : name.bytes = untilNul body := by
      split at hname
      · cases hname
        rfl
      · cases hname
    have h₀ : 0 ∉ name.bytes := hbytes ▸ zero_notMem_untilNul body
    have hp : pipe ∉ name.bytes := fun hm =>
      hno ((List.takeWhile_prefix _).subset (hbytes ▸ hm))
    obtain ⟨-, msg₂, h₂, hframes₂⟩ := prologue_names name opponent
    obtain ⟨⟨msg₁, h₁, hframes₁⟩, -⟩ := prologue_names opponent name
    exact ⟨⟨msg₂, hframes₂, fieldsOf_name .two h₀ hp h₂⟩,
      ⟨msg₁, hframes₁, fieldsOf_name .one h₀ hp h₁⟩⟩

/-- `Ann` is one field. -/
theorem open_fields_iff_ann :
    OpenSafe (ascii "Ann") (openReply (receiveMsg [ascii "0|09|OPEN|Ann|"]).1) := by
  have hwhole : Pieces.Whole [ascii "0|09|OPEN|Ann|"] := fun p hp =>
    List.mem_singleton.mp hp ▸ by decide
  have hbytes : [ascii "0|09|OPEN|Ann|"].flatten = message (ascii "OPEN") (ascii "Ann") ++ [] := by
    decide
  exact (open_fields_iff (by decide) hwhole hbytes).mpr (by decide)

/-- A name of two fields is registered. -/
theorem open_not_safe : ¬ ∀ (c : Conn) (body rest : Bytes), body.length ≤ 93 → c.Whole →
    c.flatten = message (ascii "OPEN") body ++ rest →
    OpenSafe body (openReply (receiveMsg c).1) := by
  intro hclaim
  have hsafe := hclaim [ascii "0|09|OPEN|a|b|"] (ascii "a|b") [] (by decide)
    (fun p hp => List.mem_singleton.mp hp ▸ by decide) (by decide)
  obtain ⟨text, hrefused, -⟩ := hsafe.refused (by decide)
  have hopened : openReply (receiveMsg [ascii "0|09|OPEN|a|b|"]).1 =
      .opened ⟨ascii "a|b", by decide⟩ := by decide
  rw [hopened] at hrefused
  cases hrefused

end

end CS214.Nim
