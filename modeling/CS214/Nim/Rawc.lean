import CS214.Lib.PrefixCode
import CS214.Nim.Network

/-!
# Nim — the client `rawc`

`printBuffer` shows bytes as `print_buffer` does, with the escape sequences of the colours or
without.  `rawc` sends what it reads from its input, without a trailing newline, and shows what it
receives.  `Seen` is what its output tells of a `read`.

* `seenText_selfDelimiting`: with colours, the text for a `read` tells where it ends.
* `rawc_transcript`: with colours, the output tells exactly which bytes every `read` from the server
  gave, and in which order with the lines that were sent.
* `rawc_releases`: however it ends, every socket is closed and every address list released.
-/

open CString

namespace CS214.Nim.Network

open Program Function CS214.Nim.Network.Machine

/-! ### `pbuf.c` -/

/-- `NORMAL`, `CYAN` and `RED`, which are empty with `NOCOLOR`. -/
def normal (colour : Bool) : Bytes := if colour then 27 :: ascii "[0m" else []

/-- `CYAN`. -/
def cyan (colour : Bool) : Bytes := if colour then 27 :: ascii "[1;36m" else []

/-- `RED`. -/
def red (colour : Bool) : Bytes := if colour then 27 :: ascii "[1;31m" else []

/-- A digit of `%X`. -/
def hexDigit (d : UInt8) : UInt8 := if d < 10 then 48 + d else 55 + d

/-- What is printed for a byte. -/
def shown (colour : Bool) (c : UInt8) : Bytes :=
  if c < 32 then cyan colour ++ [94, c + 64] ++ normal colour
  else if c = 128 then cyan colour ++ ascii "^?" ++ normal colour
  else if c > 128 then
    red colour ++ [60, hexDigit (c / 16), hexDigit (c % 16), 62] ++ normal colour
  else [c]

/-- `print_buffer`. -/
def printBuffer (colour : Bool) : Bytes → NetM Unit
  | [] => return ()
  | c :: buf => do
    ask (.printf (shown colour c))
    printBuffer colour buf

/-! ### `rawc.c` -/

/-- `BUFLEN`. -/
def bufLen : ℕ := 256

/-- `%3d` -/
def padded (n : ℕ) : Bytes := List.replicate (3 - (decimalNat n).length) 32 ++ decimalNat n

/-- A line without its newline. -/
def stripNewline (b : Bytes) : Bytes := if b.getLast? = some 10 then b.dropLast else b

/-- What is done with the input; whether the loop goes on. -/
def sendInput (sock : Fd) : NetM Bool := do
  match ← ask (.read 0 bufLen) with
  | none | some [] => do
    ask (.printf (ascii "Exiting\n"))
    return false
  | some b => do
    let line := stripNewline b
    ask (.printf (ascii "Sending " ++ decimal line.length ++ ascii " bytes\n"))
    ask (.write sock line)
    return true

/-- What is done with the socket; whether the loop goes on. -/
def showReceived (colour : Bool) (sock : Fd) : NetM Bool := do
  match ← ask (.read sock bufLen) with
  | none | some [] => do
    ask (.printf (ascii "Socket EOF or error\n"))
    return false
  | some b => do
    ask (.printf (ascii "Recv " ++ padded b.length ++ ascii " ["))
    printBuffer colour b
    ask (.printf (ascii "]\n"))
    return true

/-- What is done with a descriptor whose `revents` are not zero. -/
def whenReady (revents : Bool) (p : NetM Bool) : NetM Bool := if revents then p else return true

/-- At most so many rounds of the loop; whether it has ended. -/
def rawcLoop (colour : Bool) (sock : Fd) : ℕ → NetM Bool
  | 0 => return false
  | n + 1 => do
    match ← ask (.poll [0, sock]) with
    | .error e => do
      ask (.eprintf (ascii "poll: " ++ e ++ ascii "\n"))
      return true
    | .ok ready => do
      let more ← whenReady (ready.getD 0 false) (sendInput sock)
      if more then do
        let more ← whenReady (ready.getD 1 false) (showReceived colour sock)
        if more then rawcLoop colour sock n else return true
      else return true

/-- `main`, with at most so many rounds of its loop; none while it goes on. -/
def rawc (colour : Bool) (argv : List Bytes) (n : ℕ) : NetM (Option ℕ) :=
  match argv with
  | _ :: host :: service :: _ => do
    match ← connectInet host service with
    | none => return some 1
    | some sock => do
      let ended ← rawcLoop colour sock n
      if ended then do
        ask (.close sock)
        return some 0
      else return none
  | _ => do
    ask (.printf (ascii "Usage: " ++ argv.headD [] ++ ascii " host port\n"))
    return some 1

/-! ### The texts -/

/-- What is to be seen of a `read`. -/
inductive Seen where
  | exiting
  | socketEnd
  | sending (n : ℕ)
  | received (b : Bytes)
deriving DecidableEq

/-- A `read` from a descriptor: standard input, or the socket. -/
def seen : Fd × Bytes → Seen
  | (0, []) => .exiting
  | (0, b) => .sending (stripNewline b).length
  | (_, []) => .socketEnd
  | (_, b) => .received b

/-- The first two bytes, and the rest of the text. -/
def Seen.tag : Seen → Bytes
  | .exiting => ascii "Ex"
  | .socketEnd => ascii "So"
  | .sending _ => ascii "Se"
  | .received _ => ascii "Re"

/-- The text behind the first two bytes. -/
def Seen.rest (colour : Bool) : Seen → Bytes
  | .exiting => ascii "iting\n"
  | .socketEnd => ascii "cket EOF or error\n"
  | .sending n => ascii "nding " ++ decimal n ++ ascii " bytes\n"
  | .received b => ascii "cv " ++ padded b.length ++ ascii " [" ++ b.flatMap (shown colour) ++
    ascii "]\n"

/-- The text that is printed for what was read. -/
def seenText (colour : Bool) (e : Seen) : Bytes := e.tag ++ e.rest colour

/-- The value of a digit. -/
def digitValue (d : UInt8) : UInt8 := if d < 65 then d - 48 else d - 55

/-- The byte that is shown, and what follows it. -/
def readShown : Bytes → Option (UInt8 × Bytes)
  | 27 :: 91 :: 49 :: 59 :: 51 :: 54 :: 109 :: 94 :: x :: 27 :: 91 :: 48 :: 109 :: rest =>
    some (if x = 63 then 128 else x - 64, rest)
  | 27 :: 91 :: 49 :: 59 :: 51 :: 49 :: 109 :: 60 :: h :: l :: 62 :: 27 :: 91 :: 48 :: 109 ::
      rest =>
    some (16 * digitValue h + digitValue l, rest)
  | c :: rest => some (c, rest)
  | [] => none

theorem digitValue_hexDigit {d : UInt8} (h : d < 16) : digitValue (hexDigit d) = d := by
  have hall : ∀ k : Fin 16, digitValue (hexDigit (UInt8.ofNat k)) = UInt8.ofNat k := by decide
  have hd := hall ⟨d.toNat, UInt8.lt_iff_toNat_lt.mp h⟩
  rwa [UInt8.ofNat_toNat] at hd

theorem hexDigits_value (c : UInt8) :
    16 * digitValue (hexDigit (c / 16)) + digitValue (hexDigit (c % 16)) = c := by
  have hlt := c.toNat_lt
  have hdiv : c / 16 < 16 := by
    rw [UInt8.lt_iff_toNat_lt, UInt8.toNat_div]
    change c.toNat / 16 < 16
    omega
  have hmod : c % 16 < 16 := by
    rw [UInt8.lt_iff_toNat_lt, UInt8.toNat_mod]
    exact Nat.mod_lt _ (by decide)
  rw [digitValue_hexDigit hdiv, digitValue_hexDigit hmod]
  refine UInt8.toNat_inj.mp ?_
  rw [UInt8.toNat_add, UInt8.toNat_mul, UInt8.toNat_div, UInt8.toNat_mod]
  change (16 * (c.toNat / 16) % 256 + c.toNat % 16) % 256 = c.toNat
  omega

theorem readShown_shown (c : UInt8) (rest : Bytes) :
    readShown (shown true c ++ rest) = some (c, rest) := by
  by_cases hlow : c < 32
  · have hne : c + 64 ≠ 63 := by grind
    rw [shown, if_pos hlow]
    change some (if c + 64 = 63 then 128 else c + 64 - 64, rest) = _
    rw [if_neg hne, UInt8.add_sub_cancel]
  rw [shown, if_neg hlow]
  by_cases hdel : c = 128
  · rw [if_pos hdel, hdel]
    rfl
  rw [if_neg hdel]
  by_cases hhigh : c > 128
  · rw [if_pos hhigh]
    change some (16 * digitValue (hexDigit (c / 16)) + digitValue (hexDigit (c % 16)), rest) = _
    rw [hexDigits_value]
  · rw [if_neg hhigh]
    change readShown (c :: rest) = _
    have hesc : c ≠ 27 := fun h => hlow (h ▸ by decide)
    unfold readShown
    split
    · next h => exact absurd (List.cons.inj h).1 hesc
    · next h => exact absurd (List.cons.inj h).1 hesc
    · next h =>
        obtain ⟨rfl, rfl⟩ := List.cons.inj h
        rfl
    · next h => cases h

theorem shown_selfDelimiting : SelfDelimiting (shown true) :=
  selfDelimiting_of_decode readShown readShown_shown

theorem decimalNat_injective : Function.Injective decimalNat := fun n n' h => by
  rw [← digitsValue_decimalNat n, h, digitsValue_decimalNat]

theorem not_mem_decimalNat {b : UInt8} (h : isDigit b = false) (n : ℕ) : b ∉ decimalNat n := by
  intro hb
  rw [isDigit_of_mem_decimalNat hb] at h
  cases h

theorem decimal_selfDelimiting : SelfDelimiting fun n : ℕ => decimal n ++ [32] :=
  selfDelimiting_terminated decimalNat_injective (not_mem_decimalNat (by decide))

/-- The spaces in front of a number do not hide it. -/
theorem padded_injective : Function.Injective padded := by
  intro n n' h
  have hdrop : ∀ n, (padded n).dropWhile (· == 32) = decimalNat n := by
    intro n
    rw [padded, List.dropWhile_append_of_pos (by simp)]
    cases hd : decimalNat n with
    | nil => rfl
    | cons b l =>
        have hb : b ≠ 32 := fun e => not_mem_decimalNat (b := 32) (by decide) n
          (by rw [hd, e]; exact List.mem_cons_self)
        rw [List.dropWhile_cons, if_neg (by simpa using hb)]
  exact decimalNat_injective (by rw [← hdrop, h, hdrop])

theorem padded_selfDelimiting : SelfDelimiting fun n => (padded n ++ [32]) ++ [91] := by
  have hinj : Function.Injective fun n => padded n ++ [32] := fun n n' h =>
    padded_injective (List.append_cancel_right h)
  refine selfDelimiting_terminated hinj fun n h => ?_
  rcases List.mem_append.mp h with h | h
  · rcases List.mem_append.mp h with h | h
    · exact absurd (List.eq_of_mem_replicate h) (by decide)
    · exact not_mem_decimalNat (by decide) n h
  · exact absurd (List.mem_singleton.mp h) (by decide)

/-- **The text for a `read`** tells where it ends, and which bytes were received. -/
theorem seenText_selfDelimiting : SelfDelimiting (seenText true) := by
  have hsending := (decimal_selfDelimiting.before (ascii "bytes\n")).behind (ascii "nding ")
  have hreceived := ((padded_selfDelimiting.counted shown_selfDelimiting).before
    (ascii "]\n")).behind (ascii "cv ")
  refine SelfDelimiting.tagged (fun a b => ?_) fun a b s t htag e => ?_
  · cases a <;> cases b <;> rfl
  · cases a with
    | exiting =>
        cases b with
        | exiting => exact ⟨rfl, List.append_cancel_left e⟩
        | _ => cases htag
    | socketEnd =>
        cases b with
        | socketEnd => exact ⟨rfl, List.append_cancel_left e⟩
        | _ => cases htag
    | sending n =>
        cases b with
        | sending n' =>
            obtain ⟨rfl, hst⟩ := hsending n n' s t (by simpa [Seen.rest, ascii] using e)
            exact ⟨rfl, hst⟩
        | _ => cases htag
    | received l =>
        cases b with
        | received l' =>
            obtain ⟨rfl, hst⟩ := hreceived l l' s t (by simpa [Seen.rest, ascii] using e)
            exact ⟨rfl, hst⟩
        | _ => cases htag

/-! ### What the client does -/

/-- What `rawc` prints for what it reads. -/
def transcript (colour : Bool) (reads : List (Fd × Bytes)) : Bytes :=
  (reads.map seen).flatMap (seenText colour)

/-- What it sends for what it reads. -/
def sends (sock : Fd) (reads : List (Fd × Bytes)) : List (Fd × Bytes) :=
  reads.filterMap fun r => if r.1 = 0 ∧ r.2 ≠ [] then some (sock, stripNewline r.2) else none

/-- A process with its standard descriptors. -/
def start : Machine := ⟨fun fd => if fd < 3 then some .fresh else none, 0, [], [], []⟩

/-- What was printed and sent so far is what was read. -/
structure Transcribed (colour : Bool) (sock : Fd) (fds : Fd → Option Desc) (s : Machine) :
    Prop where
  fds : s.fds = fds
  lists : s.lists = 0
  out : s.out = transcript colour s.reads
  sent : s.sent = sends sock s.reads

variable {colour : Bool} {sock : Fd} {fds : Fd → Option Desc} {s : Machine} {d : Desc}

theorem transcript_concat (reads : List (Fd × Bytes)) (r : Fd × Bytes) :
    transcript colour (reads ++ [r]) = transcript colour reads ++ seenText colour (seen r) := by
  rw [transcript, List.map_append, List.flatMap_append, List.map_singleton, List.flatMap_singleton]
  rfl

theorem printBuffer_prints (buf : Bytes) (s : Machine) :
    (printBuffer colour buf).Always Step Valid
      (fun _ s' => s' = { s with out := s.out ++ buf.flatMap (shown colour) }) s := by
  induction buf generalizing s with
  | nil =>
      change s = _
      rw [List.flatMap_nil, List.append_nil]
  | cons c buf ih =>
      refine ⟨trivial, fun _ s' hs => ?_⟩
      obtain rfl := hs
      refine (ih _).imp fun _ s' hs => ?_
      rw [hs, List.flatMap_cons, List.append_assoc]

/-- One more `read`, which prints this and sends that. -/
theorem Transcribed.read (h : Transcribed colour sock fds s) {fd : Fd} {b text : Bytes}
    {sent : List (Fd × Bytes)} (htext : seenText colour (seen (fd, b)) = text)
    (hsent : sends sock [(fd, b)] = sent) :
    Transcribed colour sock fds
      { s with reads := s.reads ++ [(fd, b)], out := s.out ++ text, sent := s.sent ++ sent } where
  fds := h.fds
  lists := h.lists
  out := by rw [transcript_concat, h.out, htext]
  sent := by rw [sends, List.filterMap_append, ← sends, ← sends, h.sent, hsent]

/-- The `read` ends the loop. -/
theorem Transcribed.stop (h : Transcribed colour sock fds s) (fd : Fd) {text : Bytes}
    (htext : seenText colour (seen (fd, [])) = text) :
    Transcribed colour sock fds
      { s with reads := s.reads ++ [(fd, [])], out := s.out ++ text } := by
  have hsent : sends sock [(fd, [])] = [] := by simp [sends]
  have h' := h.read htext hsent
  rwa [List.append_nil] at h'

theorem sendInput_transcribes (h : Transcribed colour sock fds s) (h₀ : fds 0 = some .fresh)
    (hsock : fds sock = some d) : (sendInput sock).Always Step Valid
      (fun _ => Transcribed colour sock fds) s := by
  refine ⟨⟨_, h.fds ▸ h₀⟩, fun x s' hs => ?_⟩
  obtain ⟨-, rfl⟩ := hs
  rcases x with - | (- | ⟨c, b⟩)
  · exact ⟨trivial, fun _ s' hs => hs ▸ h.stop 0 rfl⟩
  · exact ⟨trivial, fun _ s' hs => hs ▸ h.stop 0 rfl⟩
  · refine ⟨trivial, fun _ s' hs => ?_⟩
    obtain rfl := hs
    refine ⟨⟨_, h.fds ▸ hsock⟩, fun _ s' hs => ?_⟩
    obtain rfl := hs
    exact h.read rfl (by simp [sends])

theorem showReceived_transcribes (h : Transcribed colour sock fds s) (hne : sock ≠ 0)
    (hsock : fds sock = some d) : (showReceived colour sock).Always Step Valid
      (fun _ => Transcribed colour sock fds) s := by
  obtain ⟨k, rfl⟩ := Nat.exists_eq_succ_of_ne_zero hne
  refine ⟨⟨_, h.fds ▸ hsock⟩, fun x s' hs => ?_⟩
  obtain ⟨-, rfl⟩ := hs
  rcases x with - | (- | ⟨c, b⟩)
  · exact ⟨trivial, fun _ s' hs => hs ▸ h.stop (k + 1) rfl⟩
  · exact ⟨trivial, fun _ s' hs => hs ▸ h.stop (k + 1) rfl⟩
  · refine ⟨trivial, fun _ s' hs => ?_⟩
    obtain rfl := hs
    refine (printBuffer_prints (c :: b) _).bind fun _ s' hs => ?_
    obtain rfl := hs
    refine ⟨trivial, fun _ s' hs => ?_⟩
    obtain rfl := hs
    have htext : seenText colour (seen (k + 1, c :: b)) = ascii "Recv " ++
        padded (c :: b).length ++ ascii " [" ++ (c :: b).flatMap (shown colour) ++
        ascii "]\n" := rfl
    have hsent : sends (k + 1) [(k + 1, c :: b)] = [] := by simp [sends]
    have h' := h.read htext hsent
    rw [List.append_nil] at h'
    change Transcribed colour (k + 1) fds _
    simp only [List.append_assoc] at h' ⊢
    exact h'

theorem whenReady_transcribes {p : NetM Bool} (h : Transcribed colour sock fds s) (revents : Bool)
    (hp : p.Always Step Valid (fun _ => Transcribed colour sock fds) s) :
    (whenReady revents p).Always Step Valid (fun _ => Transcribed colour sock fds) s := by
  cases revents with
  | false => exact h
  | true => exact hp

/-- The loop keeps its descriptors and transcribes what it reads. -/
theorem rawcLoop_transcribes (h : Transcribed colour sock fds s) (h₀ : fds 0 = some .fresh)
    (hne : sock ≠ 0) (hsock : fds sock = some d) (n : ℕ) :
    (rawcLoop colour sock n).Always Step Valid (fun _ => Transcribed colour sock fds) s := by
  induction n generalizing s with
  | zero => exact h
  | succ n ih =>
      have hpoll : ∀ fd ∈ [0, sock], ∃ d, s.fds fd = some d := by
        rw [h.fds]
        simp [h₀, hsock]
      refine ⟨hpoll, fun x s' hs => ?_⟩
      obtain ⟨-, rfl⟩ := hs
      cases x with
      | error e => exact ⟨trivial, fun _ s' hs => hs ▸ h⟩
      | ok ready =>
          refine (whenReady_transcribes h _ (sendInput_transcribes h h₀ hsock)).bind
            fun more s h => ?_
          cases more with
          | false => exact h
          | true =>
              refine (whenReady_transcribes h _ (showReceived_transcribes h hne hsock)).bind
                fun more s h => ?_
              cases more with
              | false => exact h
              | true => exact ih h

/-- What `main` leaves. -/
theorem rawc_leaves (colour : Bool) (argv : List Bytes) (n : ℕ) :
    (rawc colour argv n).Always Step Valid
      (fun r s => s.lists = 0 ∧ (r ≠ none → s.fds = start.fds) ∧
        (r = none → ∃ sock d, start.fds sock = none ∧ (∃ info, d = ⟨some info, none, none⟩) ∧
          s.fds = update start.fds sock (some d)) ∧
        (r = some 1 ∧ s.reads = [] ∧ s.sent = [] ∨
          ∃ sock, s.out = transcript colour s.reads ∧ s.sent = sends sock s.reads)) start := by
  unfold rawc
  split
  · next host service rest =>
    refine (connect_inet_opens host service start).bind fun r s hr => ?_
    cases r with
    | none =>
        obtain rfl := hr
        exact ⟨rfl, fun _ => rfl, fun h => absurd h (by simp), .inl ⟨rfl, rfl, rfl⟩⟩
    | some sock =>
        obtain ⟨hsock, d, hd, rfl⟩ := hr
        have hne : sock ≠ 0 := by
          rintro rfl
          simp [start] at hsock
        have h : Transcribed colour sock (update start.fds sock (some d))
            { start with fds := update start.fds sock (some d) } := ⟨rfl, rfl, rfl, rfl⟩
        have h₀ : update start.fds sock (some d) 0 = some .fresh := by
          rw [update_of_ne hne.symm]
          rfl
        refine (rawcLoop_transcribes h h₀ hne (update_self _ _ _) n).bind fun ended s h => ?_
        cases ended with
        | false =>
            exact ⟨h.lists, fun e => absurd rfl e, fun _ => ⟨sock, d, hsock, hd, h.fds⟩,
              .inr ⟨sock, h.out, h.sent⟩⟩
        | true =>
            refine ⟨⟨d, h.fds ▸ update_self _ _ _⟩, fun _ s' hs => ?_⟩
            obtain rfl := hs
            refine ⟨h.lists, fun _ => ?_, fun e => absurd e (by simp),
              .inr ⟨sock, h.out, h.sent⟩⟩
            change update s.fds sock none = start.fds
            rw [h.fds, update_idem, ← hsock, update_eq_self]
  · refine ⟨trivial, fun _ s' hs => ?_⟩
    obtain rfl := hs
    exact ⟨rfl, fun _ => rfl, fun h => absurd h (by simp), .inl ⟨rfl, rfl, rfl⟩⟩

/-- **The transcript**: what is printed is the text of the `read`s, in their order, and what is sent
are the lines among them.  With colours one text is that of one sequence of `read`s only: it tells
every byte that was received, and how many were sent. -/
theorem rawc_transcript :
    (∀ colour argv n, (rawc colour argv n).Always Step Valid
      (fun r s => r = some 1 ∧ s.reads = [] ∧ s.sent = [] ∨
        ∃ sock, s.out = transcript colour s.reads ∧ s.sent = sends sock s.reads) start) ∧
      ∀ reads reads', transcript true reads = transcript true reads' →
        reads.map seen = reads'.map seen := by
  refine ⟨fun colour argv n => (rawc_leaves colour argv n).imp fun r s h => h.2.2.2, ?_⟩
  intro reads reads' h
  refine seenText_selfDelimiting.flatMap_injective (fun e => ?_) h
  cases e <;> exact List.cons_ne_nil _ _

/-- Without colours a control character looks like two others. -/
example : shown false 1 = [94, 65].flatMap (shown false) := by decide

/-- **The descriptors**: every call is in order, and the address lists are released.  Where the
client ends it leaves the descriptors it was started with; while it goes on there is one more, a
socket that is connected. -/
theorem rawc_releases (colour : Bool) (argv : List Bytes) (n : ℕ) :
    (rawc colour argv n).Always Step Valid
      (fun r s => s.lists = 0 ∧ (r ≠ none → s.fds = start.fds) ∧
        (r = none → ∃ sock d, start.fds sock = none ∧ (∃ info, d = ⟨some info, none, none⟩) ∧
          s.fds = update start.fds sock (some d))) start :=
  (rawc_leaves colour argv n).imp fun _ _ h => ⟨h.1, h.2.1, h.2.2.1⟩

end CS214.Nim.Network
