import Mathlib.Data.Nat.Bitwise

/-!
# Bit fields

Masks of consecutive bits as division and remainder, so that `omega` can work with them.
-/

namespace Bits

theorem and_field (x k n : ℕ) : x &&& (2 ^ n - 1) * 2 ^ k = x / 2 ^ k % 2 ^ n * 2 ^ k := by
  apply Nat.eq_of_testBit_eq
  intro i
  rw [Nat.testBit_and, Nat.testBit_mul_two_pow, Nat.testBit_mul_two_pow, Nat.testBit_mod_two_pow,
    Nat.testBit_two_pow_sub_one, Nat.testBit_div_two_pow]
  by_cases hk : k ≤ i
  · rw [show i - k + k = i by omega]
    cases x.testBit i <;> simp [hk]
  · simp [hk]

theorem mul_or {x k n : ℕ} (h : x < 2 ^ k) : n * 2 ^ k ||| x = n * 2 ^ k + x := by
  rw [Nat.mul_comm, Nat.two_pow_add_eq_or_of_lt h]

end Bits
