import CS214.Nim.Play

/-!
# Nim — a thread that waits for one player

Between two calls of `poll` the thread calls `receive_msg` on the players that `poll` reported, and
`receive_msg` reads a whole frame: it waits in `read` for as long as the frame is not there.  `Net`
has the thread at such a call, with the bytes that have arrived from each player and have not been
read, and `Net.step` takes it one event further: bytes arrive or a connection ends, `poll` returns,
`receive_msg` is called, a `read` returns.

* `receiveMsg_gone_iff`: the reads of a frame are over when `want` says so.
* `run_refines`: between two calls of `poll` the thread is where a run of `pollStep` leaves it.
* `no_freeze`: the thread waits for the rest of a frame of one player while the other one's frame or
  end is there, only behind a call of `receive_msg` on a frame that had not arrived; and such a call
  can always be followed by it.
-/

namespace CS214.Nim

open CString Function

/-! ### The bytes of a connection -/

/-- What has arrived from a player and has not been read, and whether the connection has ended. -/
structure Line where
  unread : Bytes
  closed : Bool
deriving DecidableEq

/-- The bytes that `receive_msg`, having read these, asks for in the call of `read_n` it is in. -/
def want (got : Bytes) : ℕ :=
  if got.length < 5 then 5 - got.length
  else match headerLen (got.take 5) with
    | none => 0
    | some len => 5 + len - got.length

/-- `receive_msg` does not have to wait: a frame, or a header that is refused, or the end of the
connection is there. -/
def Line.Answers (l : Line) : Prop := l.closed = true ∨ want l.unread = 0

/-! ### The thread and its connections -/

/-- Where the thread is: in `poll`, about to call `receive_msg` on a player, or in a `read` of it.
The pieces that were read in this iteration are the input of the `Wake`. -/
inductive Point where
  | polling
  | due (w : Wake) (p : Seat)
  | reading (w : Wake) (p : Seat)

/-- The thread of a game, byte by byte: its variables, its calls and its connections. -/
structure Net where
  play : Play
  point : Point
  lines : Seat → Line

/-- What has been read from the player in this iteration. -/
def Wake.got (w : Wake) (p : Seat) : Bytes := (w.input p).flatten

/-- A `read` has returned a piece. -/
def Wake.add (w : Wake) (p : Seat) (piece : Bytes) : Wake :=
  { w with input := update w.input p (w.input p ++ [piece]) }

/-- `poll` returns, with what has arrived. -/
def wake (lines : Seat → Line) : Wake :=
  let ready p := !(lines p).unread.isEmpty || (lines p).closed
  { ret := (if ready .one then 1 else 0) + (if ready .two then 1 else 0)
    ready := ready
    input := fun _ => [] }

/-- `poll` fails. -/
def failedWake : Wake := ⟨-1, fun _ => false, fun _ => []⟩

/-- `receive_msg` has returned, and the thread goes on to the player on turn or to `poll`. -/
def Net.answered (s : Net) (w : Wake) (p : Seat) : Net :=
  let t := s.play.thread
  if p = t.turn then
    { s with
      play := ⟨s.play.log ++ (checkActive t w).1, (checkActive t w).2⟩
      point := .polling }
  else
    { s with
      play := ⟨s.play.log ++ (checkIdle t w).1, (checkIdle t w).2⟩
      point := if !(checkIdle t w).2.ended && w.ready t.turn then .due w t.turn else .polling }

/-- A `read` has returned the first `k` bytes that had arrived. -/
def Net.took (s : Net) (w : Wake) (p : Seat) (k : ℕ) : Net :=
  let l := s.lines p
  let s' := { s with lines := update s.lines p { l with unread := l.unread.drop k } }
  let w' := w.add p (l.unread.take k)
  if want (w'.got p) = 0 then s'.answered w' p else { s' with point := .reading w' p }

/-- What can happen: bytes arrive or a player hangs up; `poll` fails or returns; `receive_msg` is
called; and a `read` of it returns `k` bytes or the end of the connection. -/
inductive NetEvent where
  | arrives (p : Seat) (bytes : Bytes)
  | hangsUp (p : Seat)
  | interrupted
  | poll
  | receive
  | read (k : ℕ)
  | eof

/-- An event, when it can happen.  A `read` returns at most as many bytes as it asks for, and
nothing when there are none and the connection has ended. -/
def Net.step (s : Net) : NetEvent → Option Net
  | .arrives p bytes =>
    let l := s.lines p
    if l.closed then none
    else some { s with lines := update s.lines p { l with unread := l.unread ++ bytes } }
  | .hangsUp p => some { s with lines := update s.lines p { s.lines p with closed := true } }
  | .interrupted =>
    match s.point with
    | .polling => (pollStep s.play failedWake).map fun play => { s with play := play }
    | _ => none
  | .poll =>
    match s.point with
    | .polling =>
      let t := s.play.thread
      let w := wake s.lines
      if t.ended then none
      else if w.ready t.turn.other then some { s with point := .due w t.turn.other }
      else if w.ready t.turn then some { s with point := .due w t.turn }
      else none
    | _ => none
  | .receive =>
    match s.point with
    | .due w p => some { s with point := .reading w p }
    | _ => none
  | .read k =>
    match s.point with
    | .reading w p =>
      if 1 ≤ k ∧ k ≤ want (w.got p) ∧ k ≤ (s.lines p).unread.length then some (s.took w p k)
      else none
    | _ => none
  | .eof =>
    match s.point with
    | .reading w p =>
      if (s.lines p).unread = [] ∧ (s.lines p).closed = true then some (s.answered (w.add p []) p)
      else none
    | _ => none

/-- The thread at its first `poll`, with what has arrived before. -/
def Net.opening (name₁ name₂ : Bytes) (lines : Seat → Line) : Net :=
  ⟨Nim.opening name₁ name₂, .polling, lines⟩

/-- The thread is in a `read` on one player, of whom nothing has arrived but a part of a frame, and
does not get to the other one, of whom a frame or the end is there. -/
def Frozen (s : Net) : Prop :=
  ∃ w p, s.point = .reading w p ∧ (s.lines p).unread = [] ∧ (s.lines p).closed = false ∧
    want (w.got p) ≠ 0 ∧ (s.lines p.other).Answers

/-- `receive_msg` is called on a player only when it does not have to wait. -/
def Prompt (s : Net) : NetEvent → Prop
  | .receive => ∀ w p, s.point = .due w p → (s.lines p).Answers
  | _ => True

/-! ### Frames that are there -/

variable {got rest : Bytes} {c : Conn} {s s' : Net} {p q : Seat} {w w' : Wake} {e : NetEvent}

theorem want_short (h : got.length < 5) : want got = 5 - got.length := if_pos h

theorem want_header (h : 5 ≤ got.length) :
    want got = (headerLen (got.take 5)).elim 0 fun len => 5 + len - got.length := by
  rw [want, if_neg (Nat.not_lt.mpr h)]
  cases headerLen (got.take 5) <;> rfl

/-- What follows a frame does not change that it is there. -/
theorem want_append (h : want got = 0) : want (got ++ rest) = 0 := by
  rcases Nat.lt_or_ge got.length 5 with hlen | hlen
  · rw [want_short hlen] at h
    omega
  have hlen' : 5 ≤ (got ++ rest).length := by
    rw [List.length_append]
    omega
  rw [want_header hlen] at h
  rw [want_header hlen', List.take_append_of_le_length hlen]
  cases hh : headerLen (got.take 5) with
  | none => rfl
  | some len =>
      rw [hh] at h
      have hlong : 5 + len - got.length = 0 := h
      show 5 + len - (got ++ rest).length = 0
      rw [List.length_append]
      omega

theorem splitMsg_ne_gone (buf : Bytes) : splitMsg buf ≠ .gone := by
  unfold splitMsg
  split
  · exact nofun
  · split <;> exact nofun

/-- Reads that return something lead to a message exactly when there is nothing left to ask for. -/
theorem receiveMsg_gone_iff (hw : c.Whole) : (receiveMsg c).1 = .gone ↔ want c.flatten ≠ 0 := by
  rcases Nat.lt_or_ge c.flatten.length 5 with hlen | hlen
  · refine iff_of_true ?_ (by rw [want_short hlen]; omega)
    rw [receiveMsg]
    cases hr : c.readExactly 5 with
    | mk header c₁ =>
        cases header with
        | none => rfl
        | some header =>
            obtain ⟨h₅, happ⟩ := Pieces.readExactly_some hr
            rw [happ, List.length_append] at hlen
            omega
  obtain ⟨c₁, hr, hw₁, hc₁⟩ := Pieces.readExactly_append hw (List.take_append_drop 5 c.flatten).symm
  rw [List.length_take_of_le hlen] at hr
  rw [want_header hlen, receiveMsg, hr]
  simp only
  cases hh : headerLen (c.flatten.take 5) with
  | none => exact iff_of_false nofun (fun h => h rfl)
  | some len =>
      have hdrop : c₁.flatten.length = c.flatten.length - 5 := by rw [hc₁, List.length_drop]
      show _ ↔ 5 + len - c.flatten.length ≠ 0
      rcases Nat.lt_or_ge c₁.flatten.length len with hlt | hge
      · refine iff_of_true ?_ (by omega)
        simp only
        cases hr₂ : c₁.readExactly len with
        | mk buf c₂ =>
            cases buf with
            | none => rfl
            | some buf =>
                obtain ⟨hl, happ⟩ := Pieces.readExactly_some hr₂
                rw [happ, List.length_append] at hlt
                omega
      · obtain ⟨c₂, hr₂, -, -⟩ := Pieces.readExactly_append hw₁
          (List.take_append_drop len c₁.flatten).symm
        rw [List.length_take_of_le hge] at hr₂
        refine iff_of_false ?_ (by omega)
        simp only [hr₂]
        exact splitMsg_ne_gone _

/-! ### What an event does -/

/-- An event and what it makes of the state. -/
inductive Moves (s : Net) : NetEvent → Net → Prop where
  | arrives (p : Seat) (bytes : Bytes) (hopen : (s.lines p).closed = false) :
      Moves s (.arrives p bytes)
        { s with lines := update s.lines p ⟨(s.lines p).unread ++ bytes, (s.lines p).closed⟩ }
  | hangsUp (p : Seat) :
      Moves s (.hangsUp p) { s with lines := update s.lines p { s.lines p with closed := true } }
  | interrupted {play : Play} (hpoint : s.point = .polling)
      (hplay : pollStep s.play failedWake = some play) :
      Moves s .interrupted { s with play := play }
  | poll {p : Seat} (hpoint : s.point = .polling) (hgoing : s.play.thread.ended = false)
      (hready : (wake s.lines).ready p = true)
      (hp : p = s.play.thread.turn.other ∨ p = s.play.thread.turn ∧
        (wake s.lines).ready s.play.thread.turn.other = false) :
      Moves s .poll { s with point := .due (wake s.lines) p }
  | receive {w : Wake} {p : Seat} (hpoint : s.point = .due w p) :
      Moves s .receive { s with point := .reading w p }
  | read {w : Wake} {p : Seat} {k : ℕ} (hpoint : s.point = .reading w p) (hpos : 1 ≤ k)
      (hasked : k ≤ want (w.got p)) (hthere : k ≤ (s.lines p).unread.length) :
      Moves s (.read k) (s.took w p k)
  | eof {w : Wake} {p : Seat} (hpoint : s.point = .reading w p)
      (hunread : (s.lines p).unread = []) (hclosed : (s.lines p).closed = true) :
      Moves s .eof (s.answered (w.add p []) p)

/-- No event does anything else. -/
theorem Net.step_cases (h : s.step e = some s') : Moves s e s' := by
  obtain ⟨play, point, lines⟩ := s
  cases e with
  | arrives p bytes =>
      obtain ⟨hopen, heq⟩ := Option.ite_none_left_eq_some.mp h
      cases heq
      exact .arrives p bytes (Bool.eq_false_iff.mpr hopen)
  | hangsUp p =>
      cases h
      exact .hangsUp p
  | interrupted =>
      cases point with
      | polling =>
          obtain ⟨play', hplay, rfl⟩ := Option.map_eq_some_iff.mp h
          exact .interrupted rfl hplay
      | due w p => cases h
      | reading w p => cases h
  | poll =>
      cases point with
      | polling =>
          obtain ⟨hgoing, h⟩ := Option.ite_none_left_eq_some.mp h
          have hgoing := Bool.eq_false_iff.mpr hgoing
          -- the player who is not on turn comes first
          split at h
          · next hother =>
              cases h
              exact .poll rfl hgoing hother (.inl rfl)
          · next hother =>
              obtain ⟨hready, heq⟩ := Option.ite_none_right_eq_some.mp h
              cases heq
              exact .poll rfl hgoing hready (.inr ⟨rfl, Bool.eq_false_iff.mpr hother⟩)
      | due w p => cases h
      | reading w p => cases h
  | receive =>
      cases point with
      | polling => cases h
      | due w p =>
          cases h
          exact .receive rfl
      | reading w p => cases h
  | read k =>
      cases point with
      | polling => cases h
      | due w p => cases h
      | reading w p =>
          obtain ⟨⟨hpos, hasked, hthere⟩, heq⟩ := Option.ite_none_right_eq_some.mp h
          cases heq
          exact .read rfl hpos hasked hthere
  | eof =>
      cases point with
      | polling => cases h
      | due w p => cases h
      | reading w p =>
          obtain ⟨⟨hunread, hclosed⟩, heq⟩ := Option.ite_none_right_eq_some.mp h
          cases heq
          exact .eof rfl hunread hclosed

/-! ### The iterations -/

/-- What the thread has done in an iteration that began at `s₀`, when it gets to `p`: nothing, or
the half of the player who is not on turn, who has not ended the loop. -/
structure Within (s₀ : Play) (w : Wake) (p : Seat) (s : Play) : Prop where
  running : s₀.thread.ended = false
  polled : 0 ≤ w.ret
  half : p = s₀.thread.turn.other ∧ s = s₀ ∧ w.input s₀.thread.turn = [] ∨
    p = s₀.thread.turn ∧ s = ⟨s₀.log ++ (checkIdle s₀.thread w).1, s₀.thread⟩ ∧
      (checkIdle s₀.thread w).2 = s₀.thread

/-- The thread is where a run of `pollStep` leaves it, or within the next iteration. -/
def Tracked (name₁ name₂ : Bytes) (s : Net) : Prop :=
  match s.point with
  | .polling => ∃ ws, Run pollStep (fun _ _ => True) (Nim.opening name₁ name₂) ws s.play
  | .due w p => w.input p = [] ∧ ∃ ws s₀,
      Run pollStep (fun _ _ => True) (Nim.opening name₁ name₂) ws s₀ ∧ Within s₀ w p s.play
  | .reading w p => ∃ ws s₀,
      Run pollStep (fun _ _ => True) (Nim.opening name₁ name₂) ws s₀ ∧ Within s₀ w p s.play

theorem checkIdle_congr {t : Thread} (hready : w'.ready t.turn.other = w.ready t.turn.other)
    (hinput : w'.input t.turn.other = w.input t.turn.other) : checkIdle t w' = checkIdle t w := by
  simp only [checkIdle, Wake.received, hready, hinput]

/-- The half of the other player leaves the state as it was, unless it ends the loop. -/
theorem checkIdle_state {t : Thread} (hw : 0 ≤ w.ret) (h : (checkIdle t w).2.ended = false) :
    (checkIdle t w).2 = t := by
  rcases checkIdle_cases t w hw with ⟨-, he⟩ | ⟨-, he⟩ | ⟨-, he, -⟩
  · rw [he] at h
    cases h
  · rw [he] at h
    cases h
  · exact he

theorem add_input_ne {piece : Bytes} (h : q ≠ p) : (w.add p piece).input q = w.input q :=
  update_of_ne h _ _

section

variable {name₁ name₂ : Bytes} {ws : List Wake} {s₀ : Play} {piece : Bytes}

/-- The end of the iteration is a step of `pollStep`. -/
theorem Tracked.iterated (hrun : Run pollStep (fun _ _ => True) (Nim.opening name₁ name₂) ws s₀)
    (he : s₀.thread.ended = false) {play : Play} {lines : Seat → Line}
    (hplay : play = ⟨s₀.log ++ (iterate s₀.thread w).1, (iterate s₀.thread w).2⟩) :
    Tracked name₁ name₂ ⟨play, .polling, lines⟩ := by
  have hstep : pollStep s₀ w = some play := by
    rw [pollStep, if_neg (ne_true_of_eq_false he), hplay]
  exact ⟨ws ++ [w], hrun.append (.one trivial hstep)⟩

/-- `receive_msg` on one of the players has returned. -/
theorem Within.answered (hrun : Run pollStep (fun _ _ => True) (Nim.opening name₁ name₂) ws s₀)
    (h : Within s₀ w p s.play) : Tracked name₁ name₂ (s.answered (w.add p piece) p) := by
  have hw : ¬ (w.add p piece).ret < 0 := Int.not_lt.mpr h.polled
  rcases h.half with ⟨rfl, hs, hfirst⟩ | ⟨rfl, hs, hidle⟩
  · -- the player who is not on turn
    have hne : s₀.thread.turn.other ≠ s.play.thread.turn := by
      rw [hs]
      exact s₀.thread.turn.other_ne
    rw [Net.answered, if_neg hne, hs]
    cases hended : (checkIdle s₀.thread (w.add s₀.thread.turn.other piece)).2.ended with
    | true =>
        refine Tracked.iterated hrun h.running (w := w.add s₀.thread.turn.other piece) ?_
        rw [iterate, if_neg hw]
        simp only [hended, if_true]
    | false =>
        have hstate := checkIdle_state (Int.not_lt.mp hw) hended
        cases hready : w.ready s₀.thread.turn with
        | true =>
            have hready' : (w.add s₀.thread.turn.other piece).ready s₀.thread.turn = true := hready
            rw [hready']
            refine ⟨?_, ws, s₀, hrun, h.running, h.polled, .inr ⟨rfl, ?_, hstate⟩⟩
            · rw [add_input_ne s₀.thread.turn.other_ne.symm]
              exact hfirst
            · rw [hstate]
        | false =>
            have hready' : (w.add s₀.thread.turn.other piece).ready s₀.thread.turn = false := hready
            rw [hready']
            refine Tracked.iterated hrun h.running (w := w.add s₀.thread.turn.other piece) ?_
            have hactive : checkActive s₀.thread (w.add s₀.thread.turn.other piece) =
                ([], s₀.thread) := by
              simp only [checkActive, hready', Bool.false_eq_true, if_false]
            rw [iterate, if_neg hw]
            simp only [hstate, h.running, Bool.false_eq_true, if_false, hactive, List.append_nil]
  · -- the player on turn
    have hturn : s.play.thread = s₀.thread := by rw [hs]
    have hsame : checkIdle s₀.thread (w.add s₀.thread.turn piece) = checkIdle s₀.thread w :=
      checkIdle_congr rfl (add_input_ne s₀.thread.turn.other_ne)
    rw [Net.answered, hturn, if_pos rfl]
    refine Tracked.iterated hrun h.running (w := w.add s₀.thread.turn piece) ?_
    rw [iterate, if_neg hw, hsame]
    simp only [hidle, h.running, Bool.false_eq_true, if_false, hs, List.append_assoc]

/-- The iteration has got to the player on turn without reading from the other one. -/
theorem Within.skip (he : s₀.thread.ended = false) (hw : 0 ≤ w.ret)
    (hready : w.ready s₀.thread.turn.other = false) : Within s₀ w s₀.thread.turn s₀ := by
  have hidle : checkIdle s₀.thread w = ([], s₀.thread) := by
    simp only [checkIdle, hready, Bool.false_eq_true, if_false]
  refine ⟨he, hw, .inr ⟨rfl, ?_, by rw [hidle]⟩⟩
  rw [hidle, List.append_nil]

/-- A `read` on a player changes nothing of what the thread has done before. -/
theorem Within.add (h : Within s₀ w p s.play) : Within s₀ (w.add p piece) p s.play := by
  refine ⟨h.running, h.polled, ?_⟩
  rcases h.half with ⟨rfl, hs, hfirst⟩ | ⟨rfl, hs, hidle⟩
  · exact .inl ⟨rfl, hs, (add_input_ne s₀.thread.turn.ne_other).trans hfirst⟩
  · have hsame : checkIdle s₀.thread (w.add s₀.thread.turn piece) = checkIdle s₀.thread w :=
      checkIdle_congr rfl (add_input_ne s₀.thread.turn.other_ne)
    exact .inr ⟨rfl, by rw [hsame]; exact hs, by rw [hsame]; exact hidle⟩

theorem wake_ret (lines : Seat → Line) : 0 ≤ (wake lines).ret := by
  unfold wake
  simp only
  split <;> split <;> decide

/-- Every event keeps the thread where a run of `pollStep` leaves it, or within an iteration. -/
theorem Tracked.step (h : Tracked name₁ name₂ s) (hstep : s.step e = some s') :
    Tracked name₁ name₂ s' := by
  cases Net.step_cases hstep with
  | arrives p bytes => exact h
  | hangsUp p => exact h
  | interrupted hpoint hplay =>
      rw [Tracked, hpoint] at h
      obtain ⟨ws, hrun⟩ := h
      rw [Tracked, hpoint]
      exact ⟨ws ++ [failedWake], hrun.append (.one trivial hplay)⟩
  | poll hpoint hgoing hready hp =>
      rw [Tracked, hpoint] at h
      obtain ⟨ws, hrun⟩ := h
      refine ⟨rfl, ws, s.play, hrun, ?_⟩
      rcases hp with rfl | ⟨rfl, hother⟩
      · exact ⟨hgoing, wake_ret _, .inl ⟨rfl, rfl, rfl⟩⟩
      · exact .skip hgoing (wake_ret _) hother
  | receive hpoint =>
      rw [Tracked, hpoint] at h
      exact h.2
  | @read w p k hpoint =>
      rw [Tracked, hpoint] at h
      obtain ⟨ws, s₀, hrun, hwithin⟩ := h
      unfold Net.took
      simp only
      split
      · exact Within.answered (s := { s with lines := update s.lines p _ }) hrun hwithin
      · exact ⟨ws, s₀, hrun, hwithin.add⟩
  | eof hpoint =>
      rw [Tracked, hpoint] at h
      obtain ⟨ws, s₀, hrun, hwithin⟩ := h
      exact hwithin.answered hrun

end

/-- **Refinement**: whatever arrives when, the thread is in `poll` where a run of `pollStep` leaves
it. -/
theorem run_refines {name₁ name₂ : Bytes} {lines : Seat → Line} {es : List NetEvent}
    (h : Run Net.step (fun _ _ => True) (Net.opening name₁ name₂ lines) es s)
    (hpoint : s.point = .polling) :
    ∃ ws, Run pollStep (fun _ _ => True) (Nim.opening name₁ name₂) ws s.play := by
  have htraced : Tracked name₁ name₂ s :=
    h.invariant (fun _ _ _ hs _ hstep => hs.step hstep) ⟨[], .nil _⟩
  rw [Tracked, hpoint] at htraced
  exact htraced

/-! ### Whether the thread waits -/

/-- The frame that is being read is there, or its connection has ended. -/
def Arrived (s : Net) : Prop :=
  ∀ w p, s.point = .reading w p →
    (s.lines p).closed = true ∨ want (w.got p ++ (s.lines p).unread) = 0

theorem got_add {piece : Bytes} : (w.add p piece).got p = w.got p ++ piece := by
  show ((update w.input p (w.input p ++ [piece])) p).flatten = _
  rw [update_self, List.flatten_append, List.flatten_singleton]
  rfl

/-- Behind a call of `receive_msg` the thread is in `poll` or about to call it again. -/
theorem answered_point : ∀ w' q, (s.answered w p).point ≠ .reading w' q := by
  intro w' q
  unfold Net.answered
  simp only
  split
  · exact nofun
  · simp only
    split <;> exact nofun

/-- One of the connections changes, and what was there still is. -/
theorem Arrived.line {l : Line} (h : Arrived s)
    (hl : ∀ got, (s.lines p).closed = true ∨ want (got ++ (s.lines p).unread) = 0 →
      l.closed = true ∨ want (got ++ l.unread) = 0) :
    Arrived { s with lines := update s.lines p l } := by
  intro w q hq
  show (update s.lines p l q).closed = true ∨ want (w.got q ++ (update s.lines p l q).unread) = 0
  by_cases hqp : q = p
  · subst hqp
    rw [update_self]
    exact hl _ (h w q hq)
  · rw [update_of_ne hqp]
    exact h w q hq

/-- When `receive_msg` is called only on frames that are there, they stay there. -/
theorem Arrived.step {name₁ name₂ : Bytes} (h : Arrived s) (ht : Tracked name₁ name₂ s)
    (hprompt : Prompt s e) (hstep : s.step e = some s') : Arrived s' := by
  cases Net.step_cases hstep with
  | arrives p bytes =>
      -- a frame that is there is so with more behind it
      refine h.line fun got hgot => ?_
      rw [← List.append_assoc]
      exact hgot.imp_right want_append
  | hangsUp p => exact h.line fun _ _ => .inl rfl
  | interrupted hpoint => exact fun w p hp => nomatch hpoint.symm.trans hp
  | poll => exact nofun
  | @receive w p hpoint =>
      rintro _ _ ⟨⟩
      rw [Tracked, hpoint] at ht
      have hgot : w.got p = [] := congrArg List.flatten ht.1
      rw [hgot, List.nil_append]
      exact hprompt w p hpoint
  | @read w p k hpoint =>
      intro w' q hq
      unfold Net.took at hq ⊢
      simp only at hq ⊢
      split at hq
      · exact absurd hq (answered_point _ _)
      · next hwant =>
          rw [if_neg hwant]
          cases hq
          -- what was read and what is unread are the bytes they were
          show (update s.lines p _ p).closed = true ∨
            want (_ ++ (update s.lines p _ p).unread) = 0
          rw [update_self, got_add, List.append_assoc, List.take_append_drop]
          exact h w p hpoint
  | eof => exact fun w' q hq => absurd hq (answered_point w' q)

/-- No thread waits for a frame that is there. -/
theorem Arrived.not_frozen (h : Arrived s) : ¬ Frozen s := by
  rintro ⟨w, p, hpoint, hunread, hopen, hwant, -⟩
  have harrived := h w p hpoint
  rw [hunread, List.append_nil, hopen] at harrived
  exact hwant (harrived.resolve_left nofun)

/-! ### Every other call may wait -/

/-- The thread reads what has arrived, byte by byte, and waits for the rest. -/
theorem read_all (n : ℕ) (hpoint : s.point = .reading w p) (hlen : (s.lines p).unread.length = n)
    (hopen : (s.lines p).closed = false) (hwant : want (w.got p ++ (s.lines p).unread) ≠ 0) :
    ∃ es w' s', Run Net.step (fun _ _ => True) s es s' ∧ s'.point = .reading w' p ∧
      (s'.lines p).unread = [] ∧ (s'.lines p).closed = false ∧ want (w'.got p) ≠ 0 := by
  induction n generalizing s w with
  | zero =>
      have hunread := List.eq_nil_of_length_eq_zero hlen
      rw [hunread, List.append_nil] at hwant
      exact ⟨[], w, s, .nil s, hpoint, hunread, hopen, hwant⟩
  | succ n ih =>
      let l := s.lines p
      let w₁ := w.add p (l.unread.take 1)
      let s₁ : Net :=
        { s with lines := update s.lines p { l with unread := l.unread.drop 1 }
                 point := .reading w₁ p }
      have hsplit : w₁.got p ++ l.unread.drop 1 = w.got p ++ l.unread := by
        rw [got_add, List.append_assoc, List.take_append_drop]
      have hwant₁ : want (w₁.got p) ≠ 0 := fun h0 => hwant (hsplit ▸ want_append h0)
      have hwant₀ : want (w.got p) ≠ 0 := fun h0 => hwant (want_append h0)
      -- the frame is not complete with one byte more either, so the thread stays in `read`
      have hread : s.step (.read 1) = some s₁ := by
        simp only [Net.step, hpoint]
        rw [if_pos ⟨Nat.le_refl 1, Nat.pos_of_ne_zero hwant₀, by omega⟩]
        exact congrArg some (if_neg hwant₁)
      have hline : s₁.lines p = { l with unread := l.unread.drop 1 } := update_self _ _ _
      obtain ⟨es, w', s', hrun, hend⟩ := ih (s := s₁) (w := w₁) rfl
        (by rw [hline, List.length_drop, hlen, Nat.add_sub_cancel]) (by rw [hline]; exact hopen)
        (by rw [hline, hsplit]; exact hwant)
      exact ⟨.read 1 :: es, w', s', .cons trivial hread hrun, hend⟩

/-- A call of `receive_msg` on a frame that has not arrived may be followed by a wait while the
other player has something to say. -/
theorem frozen_after (hpoint : s.point = .reading w p) (hgot : w.got p = [])
    (hline : ¬ (s.lines p).Answers) :
    ∃ es s', Run Net.step (fun _ _ => True) s es s' ∧ Frozen s' := by
  obtain ⟨hopen, hwant⟩ := not_or.mp hline
  obtain ⟨es, w', s₁, hrun, hpoint₁, hunread, hopen₁, hwant₁⟩ := read_all _ hpoint rfl
    (Bool.eq_false_iff.mpr hopen) (by rw [hgot, List.nil_append]; exact hwant)
  -- the other player hangs up
  let s₂ : Net :=
    { s₁ with lines := update s₁.lines p.other { s₁.lines p.other with closed := true } }
  have hstep : s₁.step (.hangsUp p.other) = some s₂ := rfl
  refine ⟨es ++ [.hangsUp p.other], s₂, hrun.append (.one trivial hstep), w', p, hpoint₁, ?_, ?_,
    hwant₁, ?_⟩
  · rw [show s₂.lines p = s₁.lines p from update_of_ne p.ne_other _ _]
    exact hunread
  · rw [show s₂.lines p = s₁.lines p from update_of_ne p.ne_other _ _]
    exact hopen₁
  · rw [show s₂.lines p.other = _ from update_self _ _ _]
    exact .inl rfl

/-- **Who can freeze the game**: in every interleaving of the bytes and the ends of the two
connections in which `receive_msg` is called on a player only when a frame or the end is there, the
thread never waits for the rest of a frame of one player while a frame or the end of the other one
is there; and any other call of `receive_msg` may be followed by that. -/
theorem no_freeze (name₁ name₂ : Bytes) (lines : Seat → Line) :
    (∀ es s, Run Net.step Prompt (Net.opening name₁ name₂ lines) es s → ¬ Frozen s) ∧
    ∀ es s e s₁, Run Net.step (fun _ _ => True) (Net.opening name₁ name₂ lines) es s →
      ¬ Prompt s e → s.step e = some s₁ →
      ∃ es' s', Run Net.step (fun _ _ => True) s₁ es' s' ∧ Frozen s' := by
  constructor
  · intro es s hrun
    have hboth : Arrived s ∧ Tracked name₁ name₂ s := by
      refine hrun.invariant (I := fun s => Arrived s ∧ Tracked name₁ name₂ s) ?_ ?_
      · intro s e s' hs hprompt hstep
        exact ⟨hs.1.step hs.2 hprompt hstep, hs.2.step hstep⟩
      · exact ⟨nofun, [], .nil _⟩
    exact hboth.1.not_frozen
  · intro es s e s₁ hrun hprompt hstep
    have htracked : Tracked name₁ name₂ s :=
      hrun.invariant (fun _ _ _ hs _ hstep => hs.step hstep) ⟨[], .nil _⟩
    cases e with
    | receive =>
        obtain ⟨w, hprompt⟩ := not_forall.mp hprompt
        obtain ⟨p, hprompt⟩ := not_forall.mp hprompt
        obtain ⟨hpoint, hline⟩ := Classical.not_imp.mp hprompt
        rw [Tracked, hpoint] at htracked
        simp only [Net.step, hpoint] at hstep
        cases hstep
        exact frozen_after rfl (congrArg List.flatten htracked.1) hline
    | _ => exact absurd trivial hprompt

/-- Nothing has arrived. -/
def silent : Seat → Line := fun _ => ⟨[], false⟩

theorem no_freeze_sample :
    (∃ s, Run Net.step Prompt (Net.opening (ascii "Ann") (ascii "Bob") silent)
      [.arrives .one (ascii "0|09|MOVE|4|9|"), .poll, .receive, .read 5] s ∧ ¬ Frozen s) ∧
    ∃ es s, Run Net.step (fun _ _ => True) (Net.opening (ascii "Ann") (ascii "Bob") silent) es s ∧
      Frozen s := by
  obtain ⟨hgood, hbad⟩ := no_freeze (ascii "Ann") (ascii "Bob") silent
  constructor
  · have hrun : ∃ s, Run Net.step Prompt (Net.opening (ascii "Ann") (ascii "Bob") silent)
        [.arrives .one (ascii "0|09|MOVE|4|9|"), .poll, .receive, .read 5] s := by
      refine ⟨_, .cons trivial rfl (.cons trivial rfl (.cons ?_ rfl (.cons trivial rfl (.nil _))))⟩
      rintro _ _ ⟨⟩
      exact .inr (by decide)
    obtain ⟨s, hrun⟩ := hrun
    exact ⟨s, hrun, hgood _ s hrun⟩
  · have hrun : ∃ s, Run Net.step (fun _ _ => True)
        (Net.opening (ascii "Ann") (ascii "Bob") silent) [.arrives .two (ascii "0"), .poll] s ∧
        ¬ Prompt s .receive ∧ ∃ s₁, s.step .receive = some s₁ := by
      refine ⟨_, .cons trivial rfl (.cons trivial rfl (.nil _)), fun hprompt => ?_, _, rfl⟩
      exact absurd (hprompt _ _ rfl) (not_or.mpr ⟨by decide, by decide⟩)
    obtain ⟨s, hrun, hprompt, s₁, hstep⟩ := hrun
    obtain ⟨es, s', hafter, hfrozen⟩ := hbad _ s .receive s₁ hrun hprompt hstep
    exact ⟨_, s', hrun.append (.cons trivial hstep hafter), hfrozen⟩

/-- One byte of the player who is not on turn, and the whole move of the other one is not read. -/
theorem freezes : ∃ s, Run Net.step (fun _ _ => True)
    (Net.opening (ascii "Ann") (ascii "Bob") silent)
    [.arrives .two (ascii "0"), .arrives .one (ascii "0|09|MOVE|4|9|"), .poll, .receive,
      .read 1] s ∧ Frozen s := by
  refine ⟨_, .cons trivial rfl (.cons trivial rfl (.cons trivial rfl (.cons trivial rfl
    (.cons trivial rfl (.nil _))))), _, .two, rfl, rfl, rfl, ?_, .inr ?_⟩
  · decide
  · decide

end CS214.Nim
