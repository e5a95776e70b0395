import CS214.Lib.CString
import CS214.Lib.Pieces

/-!
# Nim — messages on the wire

`send_msg` and `receive_msg` of `nimd.c`.  A message `type|body` travels as
`0|NN|type|body|`, where `NN` counts the bytes after the second `|`.

A connection, as its reader sees it, is what the calls of `read` will return: `Pieces` of the
stream, an empty one for a call that returns 0 or -1.
-/

namespace CS214.Nim

open CString

/-- `'|'`. -/
def pipe : UInt8 := 124

/-- `MAX_MSG_LEN`. -/
def maxMsgLen : ℕ := 104

/-- What the reads of a connection return. -/
abbrev Conn := Pieces UInt8

/-! ### `send_msg` -/

/-- What `send_msg` writes for a formatted text: `vsnprintf` keeps the first 103 bytes, and a
payload of more than 98 bytes is not sent. -/
def frame (text : Bytes) : Option Bytes :=
  let payload := untilNul (text.take (maxMsgLen - 1))
  let len := payload.length
  if len + 1 > 99 then none
  else some (ascii "0|" ++ decimal2 (len + 1) ++ pipe :: payload ++ [pipe])

/-- The value `send_msg` returns, and what it passed to `write`. -/
def sendMsg (text : Bytes) (write : Bytes → ℤ) : ℤ × Option Bytes :=
  match frame text with
  | none => (-1, none)
  | some msg => (if write msg < 0 then -1 else 0, some msg)

/-- The text of `send_error`. -/
def errorText (code : ℤ) (msg : String) : Bytes :=
  ascii "FAIL|" ++ decimal code ++ ascii " " ++ ascii msg

/-! ### `receive_msg` -/

/-- The outcomes of `receive_msg`: it returns -1, it returns 10, or it returns 0 with a message. -/
inductive Received where
  | gone
  | invalid
  | message (type body : Bytes)
deriving DecidableEq

/-- What `receive_msg` returns. -/
def Received.rc : Received → ℤ
  | .gone => -1
  | .invalid => 10
  | .message _ _ => 0

/-- The length in a header of five bytes, when the header is well formed. -/
def headerLen : Bytes → Option ℕ
  | [h₀, h₁, h₂, h₃, h₄] =>
    if h₀ ≠ 48 ∨ h₁ ≠ pipe ∨ h₄ ≠ pipe then none
    else if !isDigit h₂ || !isDigit h₃ then none
    else if atoi [h₂, h₃] < 1 ∨ atoi [h₂, h₃] > maxMsgLen then none
    else some (atoi [h₂, h₃]).toNat
  | _ => none

/-- The two fields of a buffer that ends in `'|'`. -/
def splitMsg (buf : Bytes) : Received :=
  if buf.getLast? ≠ some pipe then .invalid
  else
    -- the last byte is overwritten by a NUL, and the string functions stop at the first one
    match cut pipe (untilNul buf.dropLast) with
    | none => .invalid
    | some (type, body) => .message type body

/-- `receive_msg`: five bytes of a header, as many bytes as it says, and the two fields of these;
with what is left of the connection. -/
def receiveMsg (c : Conn) : Received × Conn :=
  match c.readExactly 5 with
  | (none, c) => (.gone, c)
  | (some header, c) =>
    match headerLen header with
    | none => (.invalid, c)
    | some len =>
      match c.readExactly len with
      | (none, c) => (.gone, c)
      | (some buf, c) => (splitMsg buf, c)

/-- `n` calls of `receive_msg`. -/
def receiveMsgs : ℕ → Conn → List Received × Conn
  | 0, c => ([], c)
  | n + 1, c =>
    ((receiveMsg c).1 :: (receiveMsgs n (receiveMsg c).2).1, (receiveMsgs n (receiveMsg c).2).2)

/-! ### What the two functions do -/

variable {p : Bytes}

/-- The first field of a payload without NUL in it is seen whole. -/
theorem untilNul_fields {type : Bytes} (h₀ : 0 ∉ type) (rest : Bytes) :
    untilNul (type ++ pipe :: rest) = type ++ pipe :: untilNul rest := by
  have hall : ∀ b ∈ type, decide (b ≠ 0) = true := fun b hb =>
    decide_eq_true fun e => h₀ (e ▸ hb)
  rw [untilNul, List.takeWhile_append_of_pos hall, List.takeWhile_cons, if_pos (by decide),
    untilNul]

/-- The frame of a payload that fits. -/
theorem frame_eq (hp : 0 ∉ p) (hlen : p.length ≤ 98) :
    frame p = some (ascii "0|" ++ decimal2 (p.length + 1) ++ pipe :: p ++ [pipe]) := by
  have ht : p.take (maxMsgLen - 1) = p := List.take_of_length_le (by unfold maxMsgLen; omega)
  simp only [frame, ht, untilNul_eq_self hp]
  rw [if_neg (by omega)]

/-- Longer payloads are not sent. -/
theorem frame_long (hp : 0 ∉ p) (hlen : 98 < p.length) : frame p = none := by
  have hz : 0 ∉ p.take (maxMsgLen - 1) := fun h => hp (List.mem_of_mem_take h)
  simp only [frame, untilNul_eq_self hz, List.length_take]
  exact if_pos (by unfold maxMsgLen; omega)

theorem headerLen_some {header : Bytes} {len : ℕ} (h : headerLen header = some len) :
    ∃ h₂ h₃, header = [48, pipe, h₂, h₃, pipe] ∧ 1 ≤ len ∧ len < 100 ∧
      decimal2 len = [h₂, h₃] := by
  unfold headerLen at h
  split at h
  · next h₀ h₁ h₂ h₃ h₄ =>
      split at h
      · cases h
      next hs =>
        split at h
        · cases h
        next hd =>
          split at h
          · cases h
          next hl =>
            obtain rfl := Option.some.inj h
            simp only [not_or, ne_eq, not_not] at hs
            obtain ⟨rfl, rfl, rfl⟩ := hs
            simp only [Bool.or_eq_true, Bool.not_eq_true', not_or, Bool.not_eq_false] at hd
            obtain ⟨n, hn, hv, hdec⟩ := decimal2_atoi hd.1 hd.2
            rw [hv] at hl ⊢
            exact ⟨h₂, h₃, rfl, by omega, by omega, hdec⟩
  · cases h

theorem headerLen_decimal2 {len : ℕ} (h₁ : 1 ≤ len) (h₂ : len < 100) :
    headerLen (ascii "0|" ++ decimal2 len ++ [pipe]) = some len := by
  obtain ⟨x, y, hdec, hx, hy, hv⟩ := atoi_decimal2 h₂
  have hl : ¬ ((len : ℤ) < 1 ∨ (len : ℤ) > maxMsgLen) := by unfold maxMsgLen; omega
  rw [hdec]
  change headerLen [48, pipe, x, y, pipe] = some len
  simp only [headerLen, ne_eq, not_true_eq_false, or_self, if_false, hx, hy, Bool.not_true,
    Bool.or_self, Bool.false_eq_true, hv, hl, Int.toNat_natCast]

theorem splitMsg_append (hp : 0 ∉ p) {x y : Bytes} (hc : cut pipe p = some (x, y)) :
    splitMsg (p ++ [pipe]) = .message x y := by
  simp [splitMsg, untilNul_eq_self hp, hc]

theorem splitMsg_message {buf x y : Bytes} (h : splitMsg buf = .message x y) :
    ∃ p, buf = p ++ [pipe] ∧ cut pipe (untilNul p) = some (x, y) := by
  unfold splitMsg at h
  split at h
  · cases h
  next hl =>
    have hb : buf.dropLast ++ [pipe] = buf :=
      List.dropLast_append_getLast? pipe (by simpa using hl)
    split at h
    · cases h
    · next hc =>
        obtain ⟨rfl, rfl⟩ := Received.message.inj h
        exact ⟨_, hb.symm, hc⟩

end CS214.Nim
