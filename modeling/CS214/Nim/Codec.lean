import CS214.Nim.Frame

/-!
# Nim — the frame codec

* `receiveMsg_frame`: the frame of a payload is received as the payload, split at its first `'|'`,
  however the stream is cut into pieces, and nothing after it is read.
* `receiveMsg_message`: on a stream without NUL, what `receive_msg` consumes for a message is the
  frame of that message.
* `frame_codec` assembles the two with the length limit, over lists of payloads.
-/

namespace CS214.Nim

open CString

/-- A payload `send_msg` can send and `receive_msg` can split. -/
structure Payload (p : Bytes) : Prop where
  pos : 1 ≤ p.length
  le : p.length ≤ 98
  noNul : 0 ∉ p
  hasPipe : pipe ∈ p

/-- The message a payload is received as. -/
def split (p : Bytes) : Received :=
  match cut pipe p with
  | none => .invalid
  | some (type, body) => .message type body

/-- What a list of calls of `send_msg` writes. -/
def wire (ps : List Bytes) : Bytes := (ps.filterMap frame).flatten

variable {p : Bytes} {c c' : Conn}

theorem Payload.split_eq (h : Payload p) :
    ∃ x y, cut pipe p = some (x, y) ∧ split p = .message x y := by
  cases hc : cut pipe p with
  | none => exact absurd h.hasPipe (cut_eq_none.mp hc)
  | some r => exact ⟨r.1, r.2, rfl, by simp [split, hc]⟩

theorem Payload.frame_eq (h : Payload p) :
    frame p = some ((ascii "0|" ++ decimal2 (p.length + 1) ++ [pipe]) ++ (p ++ [pipe])) := by
  rw [Nim.frame_eq h.noNul h.le]
  simp

theorem wire_cons {ps : List Bytes} {msg : Bytes} (hf : frame p = some msg) :
    wire (p :: ps) = msg ++ wire ps := by
  rw [wire, List.filterMap_cons_some hf, List.flatten_cons, wire]

/-- The bytes of a frame around any payload. -/
def rawFrame (p : Bytes) : Bytes :=
  (ascii "0|" ++ decimal2 (p.length + 1) ++ [pipe]) ++ (p ++ [pipe])

/-- The frame of any payload is read whole, and split. -/
theorem receiveMsg_raw (hle : p.length ≤ 98) (hw : c.Whole) {rest : Bytes}
    (hc : c.flatten = rawFrame p ++ rest) :
    ∃ c', receiveMsg c = (splitMsg (p ++ [pipe]), c') ∧ c'.Whole ∧ c'.flatten = rest := by
  have hlt : p.length + 1 < 100 := Nat.lt_of_le_of_lt (Nat.succ_le_succ hle) (by decide)
  have hlen := headerLen_decimal2 (Nat.le_add_left 1 p.length) hlt
  obtain ⟨a, b, hdec, -⟩ := atoi_decimal2 hlt
  have h₅ : (ascii "0|" ++ decimal2 (p.length + 1) ++ [pipe]).length = 5 := by rw [hdec]; rfl
  rw [rawFrame, List.append_assoc] at hc
  obtain ⟨c₁, hr₁, hw₁, hc₁⟩ := Pieces.readExactly_append hw hc
  obtain ⟨c₂, hr₂, hw₂, hc₂⟩ := Pieces.readExactly_append hw₁ hc₁
  rw [h₅] at hr₁
  rw [List.length_append, List.length_singleton] at hr₂
  refine ⟨c₂, ?_, hw₂, hc₂⟩
  simp only [receiveMsg, hr₁, hlen, hr₂]

/-- One frame received. -/
theorem receiveMsg_frame (h : Payload p) (hw : c.Whole) {msg rest : Bytes}
    (hf : frame p = some msg) (hc : c.flatten = msg ++ rest) :
    ∃ c', receiveMsg c = (split p, c') ∧ c'.Whole ∧ c'.flatten = rest := by
  obtain ⟨x, y, hcut, hs⟩ := h.split_eq
  obtain rfl := Option.some.inj (h.frame_eq.symm.trans hf)
  obtain ⟨c', hr, hw', hc'⟩ := receiveMsg_raw h.le hw hc
  exact ⟨c', by rw [hr, splitMsg_append h.noNul hcut, hs], hw', hc'⟩

/-- A list of frames received. -/
theorem receiveMsgs_wire {ps : List Bytes} (hps : ∀ p ∈ ps, Payload p) (hw : c.Whole)
    {rest : Bytes} (hc : c.flatten = wire ps ++ rest) :
    ∃ c', receiveMsgs ps.length c = (ps.map split, c') ∧ c'.Whole ∧ c'.flatten = rest := by
  induction ps generalizing c with
  | nil => exact ⟨c, rfl, hw, hc⟩
  | cons p ps ih =>
      have hp := hps p List.mem_cons_self
      rw [wire_cons hp.frame_eq, List.append_assoc] at hc
      obtain ⟨c₁, h₁, hw₁, hc₁⟩ := receiveMsg_frame hp hw hp.frame_eq hc
      obtain ⟨c₂, h₂, hw₂, hc₂⟩ := ih (fun q hq => hps q (List.mem_cons_of_mem _ hq)) hw₁ hc₁
      exact ⟨c₂, by simp only [List.length_cons, receiveMsgs, h₁, h₂, List.map_cons], hw₂, hc₂⟩

/-- What `receive_msg` consumes for a message is the frame of the message. -/
theorem receiveMsg_message (hn : 0 ∉ c.flatten) {x y : Bytes}
    (h : receiveMsg c = (.message x y, c')) :
    ∃ msg, c.flatten = msg ++ c'.flatten ∧ frame (x ++ pipe :: y) = some msg := by
  unfold receiveMsg at h
  split at h
  · cases h
  next header c₁ h₁ =>
    split at h
    · cases h
    next len hlen =>
      split at h
      · cases h
      next buf c₂ h₂ =>
        obtain ⟨hs, rfl⟩ := Prod.mk.inj h
        obtain ⟨-, e₁⟩ := Pieces.readExactly_some h₁
        obtain ⟨hl, e₂⟩ := Pieces.readExactly_some h₂
        obtain ⟨a, b, rfl, -, hlt, hdec⟩ := headerLen_some hlen
        obtain ⟨p, rfl, hcut⟩ := splitMsg_message hs
        rw [e₁, e₂] at hn
        have hp : 0 ∉ p := fun hm => hn (by simp [hm])
        rw [untilNul_eq_self hp] at hcut
        obtain ⟨rfl, -⟩ := cut_eq_some.mp hcut
        rw [List.length_append, List.length_singleton] at hl
        refine ⟨[48, pipe, a, b, pipe] ++ ((x ++ pipe :: y) ++ [pipe]), ?_, ?_⟩
        · rw [e₁, e₂, ← List.append_assoc]
        · rw [Nim.frame_eq hp (by omega), hl, hdec]
          rfl

/-- **Frame codec.**  Frames written for a list of payloads are received as exactly these payloads,
whatever the pieces in which the stream arrives, and what follows them is left; a message received
from a stream without NUL was consumed as the frame `send_msg` writes for it; and a payload that is
too long is not written. -/
theorem frame_codec (write : Bytes → ℤ) :
    (∀ (ps : List Bytes) (c : Conn) (rest : Bytes), (∀ p ∈ ps, Payload p) → c.Whole →
      c.flatten = ((ps.filterMap fun p => (sendMsg p write).2).flatten) ++ rest →
      ∃ c', receiveMsgs ps.length c = (ps.map split, c') ∧ c'.flatten = rest) ∧
    (∀ (c c' : Conn) (type body : Bytes), 0 ∉ c.flatten →
      receiveMsg c = (.message type body, c') →
      ∃ msg, c.flatten = msg ++ c'.flatten ∧
        (sendMsg (type ++ pipe :: body) write).2 = some msg) ∧
    (∀ p : Bytes, 0 ∉ p → 98 < p.length → sendMsg p write = (-1, none)) := by
  have hsend : ∀ p, (sendMsg p write).2 = frame p := fun p => by
    unfold sendMsg
    cases frame p <;> rfl
  simp only [hsend]
  refine ⟨fun ps c rest hps hw hc => ?_, fun c c' type body hn h => receiveMsg_message hn h,
    fun p hp hl => by rw [sendMsg, frame_long hp hl]⟩
  obtain ⟨c', h₁, -, h₂⟩ := receiveMsgs_wire hps hw hc
  exact ⟨c', h₁, h₂⟩

/-- Two payloads whose frames arrive in five pieces, and the first bytes of a third frame. -/
theorem frame_codec_sample : ∃ c' : Conn,
    receiveMsgs 2
        [ascii "0|", ascii "10|OPE", ascii "N|Dave|0|0", ascii "9|MOVE|4|9", ascii "|0|"] =
      ([.message (ascii "OPEN") (ascii "Dave"), .message (ascii "MOVE") (ascii "4|9")], c') ∧
    c'.flatten = ascii "0|" := by
  have hpayload : ∀ p ∈ [ascii "OPEN|Dave", ascii "MOVE|4|9"], Payload p := by
    intro p hp
    rcases List.mem_pair.mp hp with rfl | rfl <;>
      exact ⟨by decide, by decide, by decide, by decide⟩
  have hwhole : Pieces.Whole
      [ascii "0|", ascii "10|OPE", ascii "N|Dave|0|0", ascii "9|MOVE|4|9", ascii "|0|"] := by
    rw [Pieces.Whole]
    decide
  exact (frame_codec fun _ => 0).1 _ _ (ascii "0|") hpayload hwhole (by decide)

/-- Two frames in five pieces. -/
example : receiveMsgs 2 [ascii "0|", ascii "07|MOV", ascii "E|1|0|05", ascii "|WAI", ascii "T|"] =
    ([.message (ascii "MOVE") (ascii "1"), .invalid], []) := by
  decide

end CS214.Nim
