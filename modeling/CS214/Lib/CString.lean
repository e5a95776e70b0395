import Mathlib.Algebra.Group.Int.Defs
import Mathlib.Algebra.Group.Nat.Defs
import Mathlib.Data.List.Basic
import Mathlib.Data.List.TakeWhile
import Mathlib.Data.Int.Notation

/-!
# Byte strings of C

A string is the list of its bytes without the terminator.

* `untilNul` is what a string function sees of a buffer.
* `isSpace` and the other classes are those of the C locale: a byte from 128 on is in none.
* `cut` looks for a byte, as `strchr` does, and gives what is before and after it.
* `decimal` is `%d`, `decimal2` is `%02d`, `atoi` is glibc's: white space, a sign, the longest
  prefix of digits, saturated to 64 bits and reduced to 32.
* `exactNumeral` is the value of a text that is nothing but a numeral.
* `atoi_decimal2`: a number below a hundred is read back from its two digits.
* `atoi_exact`: `atoi` gives a numeral its value, if that fits in 32 bits.
-/

/-- A sequence of `char`. -/
abbrev Bytes := List UInt8

namespace CString

/-- The bytes of an ASCII text. -/
def ascii (s : String) : Bytes := s.toList.map fun c => c.toNat.toUInt8

/-- What a buffer holds up to its first NUL. -/
def untilNul (buf : Bytes) : Bytes := buf.takeWhile (· ≠ 0)

theorem untilNul_eq_self {s : Bytes} (h : 0 ∉ s) : untilNul s = s :=
  List.takeWhile_eq_self_iff.mpr fun b hb => by
    simpa using fun e : b = 0 => h (e ▸ hb)

theorem zero_notMem_untilNul (s : Bytes) : 0 ∉ untilNul s := fun h => by
  have := List.mem_takeWhile_imp h
  simp at this

/-! ### Character classes of the C locale -/

/-- `isspace`: a blank, or one of `\t`, `\n`, `\v`, `\f` and `\r`. -/
def isSpace (b : UInt8) : Bool := b == 32 || (9 ≤ b && b ≤ 13)

/-- `isdigit`. -/
def isDigit (b : UInt8) : Bool := 48 ≤ b && b ≤ 57

/-- `isupper`, of the C locale. -/
def isUpper (b : UInt8) : Bool := 65 ≤ b && b ≤ 90

/-- `islower`. -/
def isLower (b : UInt8) : Bool := 97 ≤ b && b ≤ 122

/-- `isalpha`. -/
def isAlpha (b : UInt8) : Bool := isUpper b || isLower b

/-- `isalnum`. -/
def isAlnum (b : UInt8) : Bool := isAlpha b || isDigit b

/-- `tolower`. -/
def toLower (b : UInt8) : UInt8 := if isUpper b then b + 32 else b

/-- Nothing is dropped when the first byte is none of those that are dropped. -/
theorem dropWhile_eq_self_of_head {p : UInt8 → Bool} {s : Bytes}
    (h : ∀ b ∈ s.head?, p b = false) : s.dropWhile p = s := by
  cases s with
  | nil => rfl
  | cons b t => rw [List.dropWhile_cons, h b rfl, if_neg Bool.false_ne_true]

/-! ### Looking for a byte -/

/-- What is before and after the first `d`. -/
def cut (d : UInt8) : Bytes → Option (Bytes × Bytes)
  | [] => none
  | b :: s => if b = d then some ([], s) else (cut d s).map fun r => (b :: r.1, r.2)

variable {d : UInt8} {s x y : Bytes}

theorem cut_eq_none : cut d s = none ↔ d ∉ s := by
  induction s with
  | nil => simp [cut]
  | cons b s ih =>
      rw [cut]
      split
      · next h => simp [h]
      · next h => simp [ih, Ne.symm h]

theorem cut_eq_some : cut d s = some (x, y) ↔ s = x ++ d :: y ∧ d ∉ x := by
  induction s generalizing x with
  | nil => simp [cut]
  | cons b s ih =>
      rw [cut]
      split
      · next h =>
          subst h
          constructor
          · rintro ⟨⟩
            exact ⟨rfl, List.not_mem_nil⟩
          · rintro ⟨h, hx⟩
            cases x with
            | nil => obtain ⟨-, rfl⟩ := List.cons.inj h; rfl
            | cons c x => exact absurd (List.cons.inj h).1 fun e => hx (e ▸ List.mem_cons_self)
      · next h =>
          constructor
          · intro hr
            obtain ⟨⟨x', y'⟩, hc, he⟩ := Option.map_eq_some_iff.mp hr
            obtain ⟨rfl, rfl⟩ := Prod.mk.inj he
            obtain ⟨rfl, hx'⟩ := ih.mp hc
            exact ⟨rfl, fun hd => (List.mem_cons.mp hd).elim (Ne.symm h) hx'⟩
          · rintro ⟨hs, hx⟩
            cases x with
            | nil => exact absurd (List.cons.inj hs).1 h
            | cons c x =>
                obtain ⟨rfl, rfl⟩ := List.cons.inj hs
                rw [ih.mpr ⟨rfl, fun hd => hx (List.mem_cons_of_mem _ hd)⟩]
                rfl

theorem cut_append (h : d ∉ x) (y : Bytes) : cut d (x ++ d :: y) = some (x, y) :=
  cut_eq_some.mpr ⟨rfl, h⟩

/-! ### Numbers -/

/-- The number a list of digits denotes. -/
def digitsValue (s : Bytes) : ℕ := s.foldl (fun v b => 10 * v + (b.toNat - 48)) 0

/-- The sign of `strtol`, and what follows it. -/
def signed : Bytes → Bool × Bytes
  | 45 :: s => (true, s)
  | 43 :: s => (false, s)
  | s => (false, s)

/-- The value of the longest numeric prefix. -/
def numeral (s : Bytes) : ℤ :=
  let r := signed (s.dropWhile isSpace)
  let v : ℤ := digitsValue (r.2.takeWhile isDigit)
  if r.1 then -v else v

/-- `(int) strtol(s, NULL, 10)`. -/
def atoi (s : Bytes) : ℤ := (max (-2 ^ 63) (min (2 ^ 63 - 1) (numeral s))).bmod (2 ^ 32)

/-- The value of a sign or none, and one or more digits. -/
def exactNumeral (s : Bytes) : Option ℤ :=
  let r := signed s
  if r.2 ≠ [] ∧ r.2.all isDigit = true then
    some (if r.1 then -digitsValue r.2 else digitsValue r.2)
  else none

/-- The decimal digits of a number. -/
def decimalNat (n : ℕ) : Bytes := (Nat.toDigits 10 n).map fun c => c.toNat.toUInt8

/-- `%d`. -/
def decimal : ℤ → Bytes
  | .ofNat n => decimalNat n
  | .negSucc n => 45 :: decimalNat (n + 1)

/-- `%02d`, for a number that is not negative. -/
def decimal2 (n : ℕ) : Bytes := if n < 10 then 48 :: decimalNat n else decimalNat n

/-- The digits of a number are digits. -/
theorem isDigit_of_mem_decimalNat {n : ℕ} {b : UInt8} (h : b ∈ decimalNat n) :
    isDigit b = true := by
  obtain ⟨c, hc, rfl⟩ := List.mem_map.mp h
  have hd := Nat.isDigit_of_mem_toDigits (by omega) (by omega) hc
  simp only [Char.isDigit, Bool.and_eq_true, decide_eq_true_eq, UInt32.le_iff_toNat_le] at hd
  obtain ⟨h₁, h₂⟩ := hd
  change 48 ≤ c.toNat at h₁
  change c.toNat ≤ 57 at h₂
  have he : c.toNat.toUInt8.toNat = c.toNat := Nat.mod_eq_of_lt (by omega)
  simp only [isDigit, Bool.and_eq_true, decide_eq_true_eq, UInt8.le_iff_toNat_le, he]
  exact ⟨h₁, h₂⟩

/-- A number is read back from its digits. -/
theorem digitsValue_decimalNat (n : ℕ) : digitsValue (decimalNat n) = n := by
  have hdigit : ∀ v : ℕ, ∀ c ∈ Nat.toDigits 10 n,
      10 * v + (c.toNat.toUInt8.toNat - 48) = 10 * v + (c.toNat - 48) := by
    intro v c hc
    have hd := Nat.isDigit_of_mem_toDigits (by omega) (by omega) hc
    simp only [Char.isDigit, Bool.and_eq_true, decide_eq_true_eq, UInt32.le_iff_toNat_le] at hd
    have hle : c.toNat ≤ 57 := hd.2
    rw [show c.toNat.toUInt8.toNat = c.toNat from Nat.mod_eq_of_lt (by omega)]
  rw [digitsValue, decimalNat, List.foldl_map, List.foldl_ext _ _ _ hdigit]
  exact Nat.ofDigitChars_toDigits (by omega) (by omega)

/-- A numeral holds digits and at most a sign. -/
theorem not_mem_decimal {b : UInt8} (hd : isDigit b = false) (hm : b ≠ 45) (n : ℤ) :
    b ∉ decimal n := by
  intro h
  have hno : ∀ k, b ∉ decimalNat k := fun k hk => by
    rw [isDigit_of_mem_decimalNat hk] at hd
    cases hd
  cases n with
  | ofNat k => exact hno k h
  | negSucc k => exact (List.mem_cons.mp h).elim hm (hno _)

theorem decimal2_eq {a b : ℕ} (ha : a < 10) (hb : b < 10) :
    decimal2 (10 * a + b) = [UInt8.ofNat (48 + a), UInt8.ofNat (48 + b)] := by
  have : ∀ a < 10, ∀ b < 10,
      decimal2 (10 * a + b) = [UInt8.ofNat (48 + a), UInt8.ofNat (48 + b)] := by decide
  exact this a ha b hb

theorem isDigit_ofNat {a : ℕ} (ha : a < 10) : isDigit (UInt8.ofNat (48 + a)) = true := by
  have : ∀ a < 10, isDigit (UInt8.ofNat (48 + a)) = true := by decide
  exact this a ha

theorem atoi_pair {a b : ℕ} (ha : a < 10) (hb : b < 10) :
    atoi [UInt8.ofNat (48 + a), UInt8.ofNat (48 + b)] = (10 * a + b : ℕ) := by
  have : ∀ a < 10, ∀ b < 10,
      atoi [UInt8.ofNat (48 + a), UInt8.ofNat (48 + b)] = (10 * a + b : ℕ) := by decide
  exact this a ha b hb

/-- A digit is the character of a number below ten. -/
theorem eq_ofNat_of_isDigit {b : UInt8} (h : isDigit b = true) :
    ∃ a, a < 10 ∧ b = UInt8.ofNat (48 + a) := by
  simp only [isDigit, Bool.and_eq_true, decide_eq_true_eq, UInt8.le_iff_toNat_le] at h
  obtain ⟨h₁, h₂⟩ := h
  have e₁ : (48 : UInt8).toNat = 48 := rfl
  have e₂ : (57 : UInt8).toNat = 57 := rfl
  refine ⟨b.toNat - 48, by omega, ?_⟩
  rw [show 48 + (b.toNat - 48) = b.toNat by omega, UInt8.ofNat_toNat]

/-- A number below a hundred is read back from its two digits. -/
theorem atoi_decimal2 {n : ℕ} (hn : n < 100) :
    ∃ x y, decimal2 n = [x, y] ∧ isDigit x = true ∧ isDigit y = true ∧ atoi [x, y] = n := by
  have ha : n / 10 < 10 := by omega
  have hb : n % 10 < 10 := by omega
  have e : 10 * (n / 10) + n % 10 = n := Nat.div_add_mod n 10
  refine ⟨_, _, ?_, isDigit_ofNat ha, isDigit_ofNat hb, ?_⟩
  · rw [← decimal2_eq ha hb, e]
  · rw [atoi_pair ha hb, e]

/-- Two digits are the two digits of the number they denote. -/
theorem decimal2_atoi {x y : UInt8} (hx : isDigit x = true) (hy : isDigit y = true) :
    ∃ n < 100, atoi [x, y] = (n : ℕ) ∧ decimal2 n = [x, y] := by
  obtain ⟨a, ha, rfl⟩ := eq_ofNat_of_isDigit hx
  obtain ⟨b, hb, rfl⟩ := eq_ofNat_of_isDigit hy
  exact ⟨10 * a + b, by omega, atoi_pair ha hb, decimal2_eq ha hb⟩

/-! ### Numerals -/

variable {v : ℤ}

/-- A numeral holds digits and at most a sign. -/
theorem exactNumeral_mem (h : exactNumeral s = some v) {b : UInt8} (hb : b ∈ s) :
    isDigit b = true ∨ b = 45 ∨ b = 43 := by
  simp only [exactNumeral] at h
  split at h
  · next hd =>
      have hall := List.all_eq_true.mp hd.2
      unfold signed at hall
      split at hall
      · exact (List.mem_cons.mp hb).elim (fun e => .inr (.inl e)) fun hb => .inl (hall b hb)
      · exact (List.mem_cons.mp hb).elim (fun e => .inr (.inr e)) fun hb => .inl (hall b hb)
      · exact .inl (hall b hb)
  · cases h

theorem exactNumeral_not_mem (h : exactNumeral s = some v) {b : UInt8} (hd : isDigit b = false)
    (hm : b ≠ 45) (hp : b ≠ 43) : b ∉ s := by
  intro hb
  rcases exactNumeral_mem h hb with hb | rfl | rfl
  · rw [hd] at hb
    cases hb
  · exact hm rfl
  · exact hp rfl

/-- The longest numeric prefix of a numeral is the numeral. -/
theorem numeral_exact (h : exactNumeral s = some v) : numeral s = v := by
  have hspace : s.dropWhile isSpace = s := by
    refine dropWhile_eq_self_of_head fun b hb => ?_
    rcases exactNumeral_mem h (List.mem_of_mem_head? hb) with hb | rfl | rfl
    · obtain ⟨a, ha, rfl⟩ := eq_ofNat_of_isDigit hb
      have hall : ∀ a < 10, isSpace (UInt8.ofNat (48 + a)) = false := by decide
      exact hall a ha
    · rfl
    · rfl
  simp only [exactNumeral] at h
  split at h
  · next hd =>
      have hall : (signed s).2.takeWhile isDigit = (signed s).2 :=
        List.takeWhile_eq_self_iff.mpr (List.all_eq_true.mp hd.2)
      simp only [numeral, hspace, hall]
      exact Option.some.inj h
  · cases h

theorem atoi_exact (h : exactNumeral s = some v) (h₁ : -2 ^ 31 ≤ v) (h₂ : v < 2 ^ 31) :
    atoi s = v := by
  have hsat : max (-2 ^ 63) (min (2 ^ 63 - 1) v) = v := by omega
  rw [atoi, numeral_exact h, hsat]
  exact Int.bmod_eq_of_le (by omega) (by omega)

end CString
