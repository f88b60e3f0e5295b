import Mathlib.Data.Int.Order.Basic

/-! # 32-bit integers

A value that is no `int32_t` wraps around, or there is no result.
-/

namespace Icu.Lib

/-- The `int32_t` that a value wraps around to. -/
def int32 (x : Int) : Int := x.bmod 0x100000000

/-- An `int32_t` expression, which is `none` if it overflows. -/
def checked32 (x : Int) : Option Int :=
  if -0x80000000 ≤ x ∧ x ≤ 0x7fffffff then some x else none

variable {x : Int}

theorem checked32_eq (hlow : -0x80000000 ≤ x) (hhigh : x ≤ 0x7fffffff) : checked32 x = some x := by
  rw [checked32, if_pos ⟨hlow, hhigh⟩]

theorem int32_eq (hlow : -0x80000000 ≤ x) (hhigh : x ≤ 0x7fffffff) : int32 x = x := by
  rw [int32, Int.bmod_eq_of_le] <;> omega

theorem int32_bounds (x : Int) : -0x80000000 ≤ int32 x ∧ int32 x ≤ 0x7fffffff := by
  rw [int32, Int.bmod_def]
  split <;> omega

theorem int32_add_left (x y : Int) : int32 (int32 x + y) = int32 (x + y) := Int.bmod_add_bmod

/-- Only the values from the smallest to the largest `int32_t` stay as they are. -/
theorem int32_eq_iff : int32 x = x ↔ -0x80000000 ≤ x ∧ x ≤ 0x7fffffff := by
  refine ⟨fun h => ?_, fun ⟨hlow, hhigh⟩ => int32_eq hlow hhigh⟩
  have := int32_bounds x
  omega

theorem int32_zero : int32 0 = 0 := rfl

theorem int32_of_lt {n : Nat} (h : n < 0x80000000) : int32 n = n := int32_eq (by omega) (by omega)

theorem int32_of_ge {n : Nat} (h : 0x80000000 ≤ n) (h' : n < 0x100000000) : int32 n < 0 := by
  rw [int32, Int.bmod_def]
  omega

theorem lt_of_int32_eq {n : Nat} (h : int32 x = n) : n < 0x80000000 := by
  have := int32_bounds x
  omega

/-- A value is no multiple of 2³² away from the next one. -/
theorem int32_succ_ne (x : Int) : int32 (x + 1) ≠ x := by
  rw [int32, Int.bmod_def]
  omega

end Icu.Lib
