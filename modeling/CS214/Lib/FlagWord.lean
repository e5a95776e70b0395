import Mathlib.Data.Nat.Bitwise
import Mathlib.Data.Nat.Notation

/-!
# 64-bit words with a flag in their low bits

A word whose value is a multiple of a power of two leaves its low bits free for flags.  These are
the numbers that clearing, reading and setting them compute.
-/

namespace FlagWord

/-- Clearing the low `k` of `n` bits rounds down to a multiple of `2 ^ k`. -/
theorem and_high_mask {x k n : ℕ} (hk : k ≤ n) (hx : x < 2 ^ n) :
    x &&& (2 ^ n - 1 - (2 ^ k - 1)) = x / 2 ^ k * 2 ^ k := by
  have hkn : 2 ^ k ≤ 2 ^ n := Nat.pow_le_pow_right (by decide) hk
  have hpos := Nat.two_pow_pos k
  refine Nat.eq_of_testBit_eq fun i => ?_
  rw [Nat.testBit_and, show 2 ^ n - 1 - (2 ^ k - 1) = 2 ^ n - (2 ^ k - 1 + 1) by omega,
    Nat.testBit_two_pow_sub_succ (by omega), Nat.testBit_two_pow_sub_one, Nat.testBit_mul_two_pow,
    Nat.testBit_div_two_pow]
  by_cases hi : k ≤ i
  · by_cases hin : i < n
    · simp [hi, hin, Nat.not_lt.mpr hi]
    · have hni : 2 ^ n ≤ 2 ^ i := Nat.pow_le_pow_right (by decide) (Nat.not_lt.mp hin)
      simp [hi, hin, Nat.testBit_lt_two_pow (Nat.lt_of_lt_of_le hx hni)]
  · simp [hi, Nat.not_le.mp hi]

@[simp] theorem toNat_clear_one (w : UInt64) : (w &&& ~~~1).toNat = w.toNat / 2 * 2 := by
  have := and_high_mask (k := 1) (by decide) w.toNat_lt
  simpa [UInt64.toNat_and, UInt64.toNat_not] using this

@[simp] theorem toNat_clear_seven (w : UInt64) : (w &&& ~~~7).toNat = w.toNat / 8 * 8 := by
  have := and_high_mask (k := 3) (by decide) w.toNat_lt
  simpa [UInt64.toNat_and, UInt64.toNat_not] using this

@[simp] theorem toNat_and_one (w : UInt64) : (w &&& 1).toNat = w.toNat % 2 := by
  simp [UInt64.toNat_and, Nat.and_one_is_mod]

theorem and_one_eq_zero {w : UInt64} : w &&& 1 = 0 ↔ w.toNat % 2 = 0 := by
  rw [← UInt64.toNat_inj, toNat_and_one, UInt64.toNat_zero]

/-- Setting a flag in an even word adds it. -/
theorem toNat_or_flag {w f : UInt64} (hw : w.toNat % 2 = 0) (hf : f.toNat < 2) :
    (w ||| f).toNat = w.toNat + f.toNat := by
  have h := Nat.two_pow_add_eq_or_of_lt (i := 1) hf (w.toNat / 2)
  rw [UInt64.toNat_or]
  rw [show 2 ^ 1 * (w.toNat / 2) = w.toNat by omega] at h
  exact h.symm

end FlagWord
