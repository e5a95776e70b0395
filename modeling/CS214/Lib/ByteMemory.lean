import Mathlib.Data.Nat.Notation
import Mathlib.Algebra.Order.Group.Nat

/-!
# Byte memories and little-endian words

A memory gives every address a byte.  `readLE m a n` is the number the `n` bytes from `a` on
spell in little-endian order, and `writeLE m a n v` stores the `n` low bytes of `v` there.
A read gives back what was written (`readLE_writeLE_self`), a read of bytes that a write leaves
alone is unchanged (`readLE_writeLE_apart`), a write changes no byte outside its range
(`writeLE_apart`), and the number determines the bytes (`eq_of_readLE`).  `load64` and `store64`
are the same at 64-bit machine words, `load32` and `store32` at 32-bit ones.
-/

/-- A byte for every address. -/
abbrev ByteMemory := ℕ → UInt8

namespace ByteMemory

/-! ### Little-endian numbers -/

/-- The number the `n` bytes from `a` on spell. -/
def readLE (m : ByteMemory) (a : ℕ) : ℕ → ℕ
  | 0 => 0
  | n + 1 => (m a).toNat + 256 * readLE m (a + 1) n

/-- The `n` low bytes of `v`, stored from `a` on. -/
def writeLE (m : ByteMemory) (a n v : ℕ) : ByteMemory := fun x =>
  if a ≤ x ∧ x < a + n then UInt8.ofNat (v / 256 ^ (x - a)) else m x

theorem readLE_congr {m m' : ByteMemory} :
    ∀ {a n : ℕ}, (∀ x, a ≤ x → x < a + n → m' x = m x) → readLE m' a n = readLE m a n
  | _, 0, _ => rfl
  | a, n + 1, h => by
      have ih : readLE m' (a + 1) n = readLE m (a + 1) n :=
        readLE_congr fun x h₁ h₂ => h x (by omega) (by omega)
      simp only [readLE, h a (le_refl a) (by omega), ih]

/-- The number spelt by the low bytes of `v` is `v` modulo the word. -/
theorem readLE_of_bytes {m : ByteMemory} :
    ∀ {a n v : ℕ}, (∀ i, i < n → m (a + i) = UInt8.ofNat (v / 256 ^ i)) →
      readLE m a n = v % 256 ^ n
  | _, 0, v, _ => by simp [readLE, Nat.mod_one]
  | a, n + 1, v, h => by
      have h₀ : m a = UInt8.ofNat v := by simpa using h 0 (by omega)
      have ih : readLE m (a + 1) n = v / 256 % 256 ^ n := by
        refine readLE_of_bytes fun i hi => ?_
        have := h (i + 1) (by omega)
        rwa [Nat.pow_succ', ← Nat.div_div_eq_div_mul, show a + (i + 1) = a + 1 + i by omega] at this
      have hm : v % 256 ^ (n + 1) = v % 256 + 256 * (v / 256 % 256 ^ n) := by
        rw [Nat.pow_succ', Nat.mod_mul]
      rw [readLE, h₀, ih, UInt8.toNat_ofNat', hm]

theorem readLE_writeLE_self (m : ByteMemory) (a n v : ℕ) :
    readLE (writeLE m a n v) a n = v % 256 ^ n :=
  readLE_of_bytes fun i hi => by
    simp only [writeLE]
    rw [if_pos (by omega), Nat.add_sub_cancel_left]

/-- A write leaves the bytes outside its range alone. -/
theorem writeLE_apart {m : ByteMemory} {a n v x : ℕ} (h : x < a ∨ a + n ≤ x) :
    writeLE m a n v x = m x := by
  simp only [writeLE]
  exact if_neg (by omega)

theorem readLE_writeLE_apart {m : ByteMemory} {a n v b k : ℕ} (h : b + k ≤ a ∨ a + n ≤ b) :
    readLE (writeLE m a n v) b k = readLE m b k :=
  readLE_congr fun x _ _ => writeLE_apart (by omega)

/-- Memories that spell one number there agree on its bytes. -/
theorem eq_of_readLE {m m' : ByteMemory} {a n x : ℕ} (h : readLE m' a n = readLE m a n)
    (h₁ : a ≤ x) (h₂ : x < a + n) : m' x = m x := by
  induction n generalizing a with
  | zero => omega
  | succ n ih =>
      have hm := (m a).toNat_lt
      have hm' := (m' a).toNat_lt
      rw [readLE, readLE] at h
      by_cases hx : x = a
      · subst hx
        exact UInt8.toNat_inj.mp (by omega)
      · have hrest : readLE m' (a + 1) n = readLE m (a + 1) n := by omega
        exact ih hrest (by omega) (by omega)

theorem readLE_lt (m : ByteMemory) (a n : ℕ) : readLE m a n < 256 ^ n := by
  induction n generalizing a with
  | zero => exact Nat.one_pos
  | succ n ih =>
      have hm := (m a).toNat_lt
      have hrest := ih (a + 1)
      rw [readLE, Nat.pow_succ]
      omega

/-! ### 64-bit words -/

/-- The 64-bit word at `a`. -/
def load64 (m : ByteMemory) (a : ℕ) : UInt64 := UInt64.ofNat (readLE m a 8)

/-- The memory with the 64-bit word `w` at `a`. -/
def store64 (m : ByteMemory) (a : ℕ) (w : UInt64) : ByteMemory := writeLE m a 8 w.toNat

@[simp] theorem load64_store64_self (m : ByteMemory) (a : ℕ) (w : UInt64) :
    load64 (store64 m a w) a = w := by
  have h : w.toNat % 256 ^ 8 = w.toNat := Nat.mod_eq_of_lt w.toNat_lt
  rw [load64, store64, readLE_writeLE_self, h, UInt64.ofNat_toNat]

theorem load64_store64_apart {m : ByteMemory} {a b : ℕ} {w : UInt64}
    (h : b + 8 ≤ a ∨ a + 8 ≤ b) : load64 (store64 m a w) b = load64 m b := by
  rw [load64, store64, readLE_writeLE_apart h, load64]

theorem store64_apart {m : ByteMemory} {a x : ℕ} {w : UInt64} (h : x < a ∨ a + 8 ≤ x) :
    store64 m a w x = m x :=
  writeLE_apart h

theorem load64_congr {m m' : ByteMemory} {a : ℕ} (h : ∀ x, a ≤ x → x < a + 8 → m' x = m x) :
    load64 m' a = load64 m a := by
  rw [load64, load64, readLE_congr h]

/-- Memories with one word there agree on its bytes. -/
theorem eq_of_load64 {m m' : ByteMemory} {a x : ℕ} (h : load64 m' a = load64 m a) (h₁ : a ≤ x)
    (h₂ : x < a + 8) : m' x = m x := by
  have hlt := readLE_lt m a 8
  have hlt' := readLE_lt m' a 8
  have hnat := congrArg UInt64.toNat h
  rw [load64, load64, UInt64.toNat_ofNat_of_lt' hlt, UInt64.toNat_ofNat_of_lt' hlt'] at hnat
  exact eq_of_readLE hnat h₁ h₂

/-- A word of zero bytes is zero. -/
theorem load64_zero {m : ByteMemory} {a : ℕ} (h : ∀ x, a ≤ x → x < a + 8 → m x = 0) :
    load64 m a = 0 := by
  have h₀ : readLE m a 8 = readLE (fun _ => 0) a 8 := readLE_congr h
  rw [load64, h₀]
  simp [readLE]

/-! ### 32-bit words -/

/-- The 32-bit word at `a`. -/
def load32 (m : ByteMemory) (a : ℕ) : UInt32 := UInt32.ofNat (readLE m a 4)

/-- The memory with the 32-bit word `w` at `a`. -/
def store32 (m : ByteMemory) (a : ℕ) (w : UInt32) : ByteMemory := writeLE m a 4 w.toNat

@[simp] theorem load32_store32_self (m : ByteMemory) (a : ℕ) (w : UInt32) :
    load32 (store32 m a w) a = w := by
  have h : w.toNat % 256 ^ 4 = w.toNat := Nat.mod_eq_of_lt w.toNat_lt
  rw [load32, store32, readLE_writeLE_self, h, UInt32.ofNat_toNat]

theorem store32_apart {m : ByteMemory} {a x : ℕ} {w : UInt32} (h : x < a ∨ a + 4 ≤ x) :
    store32 m a w x = m x :=
  writeLE_apart h

theorem load32_congr {m m' : ByteMemory} {a : ℕ} (h : ∀ x, a ≤ x → x < a + 4 → m' x = m x) :
    load32 m' a = load32 m a := by
  rw [load32, load32, readLE_congr h]

end ByteMemory
