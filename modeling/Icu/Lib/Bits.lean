import Mathlib.Data.Nat.Bitwise

/-! # Masks and shifts as arithmetic

Bit-field code splits a number with shifts and masks and puts it together again with
`|`. These are the equations that turn such code into division, remainder and addition.
-/

namespace Icu.Lib.Bits

theorem and_low (x k m : Nat) (hm : m = 2 ^ k - 1) : x &&& m = x % 2 ^ k := by
  rw [hm, Nat.and_two_pow_sub_one_eq_mod]

theorem and_high {x k n m : Nat} (hx : x < 2 ^ n) (hk : k ≤ n) (hm : m = 2 ^ n - 2 ^ k) :
    x &&& m = x / 2 ^ k * 2 ^ k := by
  have hmask : m = (2 ^ (n - k) - 1) <<< k := by
    rw [hm, Nat.shiftLeft_eq, Nat.sub_mul, one_mul, ← pow_add, Nat.sub_add_cancel hk]
  apply Nat.eq_of_testBit_eq
  intro i
  rw [hmask, Nat.testBit_and, Nat.testBit_shiftLeft, ← Nat.shiftLeft_eq, Nat.testBit_shiftLeft,
    Nat.testBit_two_pow_sub_one, ← Nat.shiftRight_eq_div_pow, Nat.testBit_shiftRight]
  by_cases hik : k ≤ i
  · have hki : k + (i - k) = i := by omega
    rw [hki]
    by_cases hin : i < n
    · simp [hik, show i - k < n - k by omega]
    have hz : x.testBit i = false :=
      Nat.testBit_lt_two_pow (lt_of_lt_of_le hx (Nat.pow_le_pow_right (by decide) (by omega)))
    simp [hz]
  · simp [hik]

theorem and_middle {x k n m : Nat} (hk : k ≤ n) (hm : m = 2 ^ n - 2 ^ k) :
    x &&& m = x % 2 ^ n / 2 ^ k * 2 ^ k := by
  have hlow : m &&& (2 ^ n - 1) = m := by
    rw [and_low m n _ rfl, Nat.mod_eq_of_lt
      (by have := Nat.two_pow_pos n; have := Nat.two_pow_pos k; omega)]
  rw [← hlow, Nat.and_comm m, ← Nat.and_assoc, and_low x n _ rfl,
    and_high (Nat.mod_lt _ (Nat.two_pow_pos n)) hk hm]

theorem or_low {x y k : Nat} (hy : y < 2 ^ k) : x <<< k ||| y = x * 2 ^ k + y := by
  rw [← Nat.shiftLeft_add_eq_or_of_lt hy, Nat.shiftLeft_eq]

theorem or_mul {x y k : Nat} (hy : y < 2 ^ k) : x * 2 ^ k ||| y = x * 2 ^ k + y := by
  rw [← Nat.shiftLeft_eq, or_low hy, Nat.shiftLeft_eq]

theorem or_one (n : Nat) : n ||| 1 = n / 2 * 2 + 1 := by
  have hsplit : n = n / 2 * 2 ^ 1 ||| n % 2 := by
    rw [or_mul (by omega)]
    omega
  have hbit : n % 2 ||| 1 = 1 := by
    rcases Nat.mod_two_eq_zero_or_one n with h | h <;> rw [h] <;> decide
  calc n ||| 1 = n / 2 * 2 ^ 1 ||| (n % 2 ||| 1) := by rw [← Nat.or_assoc, ← hsplit]
    _ = n / 2 * 2 ^ 1 + 1 := by rw [hbit, or_mul (by decide)]

end Icu.Lib.Bits
