import Mathlib.Data.Nat.Bitwise
import Mathlib.Data.Nat.Notation
import Mathlib.Tactic.Linarith

/-!
# Bit fields of numbers

A mask of neighbouring bits takes a remainder of a quotient, and two numbers without
a common bit are joined by adding them.
-/
namespace LzmaTurbo.BitFields

variable {x y a b n : ℕ}

theorem and_field (x n k : ℕ) : x &&& ((2 ^ k - 1) * 2 ^ n) = x / 2 ^ n % 2 ^ k * 2 ^ n := by
  apply Nat.eq_of_testBit_eq
  intro i
  rw [Nat.testBit_and, Nat.testBit_mul_two_pow, Nat.testBit_mul_two_pow,
    Nat.testBit_two_pow_sub_one, Nat.testBit_mod_two_pow, Nat.testBit_div_two_pow]
  by_cases h : n ≤ i
  · rw [Nat.sub_add_cancel h]
    simp [h, Bool.and_comm]
  · simp [h]

theorem or_add (h : y < 2 ^ n) (a : ℕ) : y ||| a * 2 ^ n = a * 2 ^ n + y := by
  rw [Nat.or_comm, Nat.mul_comm]
  exact (Nat.two_pow_add_eq_or_of_lt h a).symm

theorem add_or (h : y < 2 ^ n) (a : ℕ) : a * 2 ^ n ||| y = a * 2 ^ n + y := by
  rw [Nat.or_comm, or_add h]

theorem or_low {x n : ℕ} (h : x < 2 ^ n) : x ||| (2 ^ n - 1) = 2 ^ n - 1 := by
  apply Nat.eq_of_testBit_eq
  intro i
  rw [Nat.testBit_or, Nat.testBit_two_pow_sub_one]
  by_cases hi : i < n
  · simp [hi]
  · rw [Nat.testBit_lt_two_pow (Nat.lt_of_lt_of_le h (Nat.pow_le_pow_right two_pos (by omega)))]
    rfl

theorem or_mul_two_pow (x y n : ℕ) : x * 2 ^ n ||| y * 2 ^ n = (x ||| y) * 2 ^ n := by
  rw [← Nat.shiftLeft_eq, ← Nat.shiftLeft_eq, ← Nat.shiftLeft_eq, Nat.shiftLeft_or_distrib]

/-- A test of two masks is a test of either. -/
theorem and_or_eq_zero : x &&& (a ||| b) = 0 ↔ x &&& a = 0 ∧ x &&& b = 0 := by
  rw [Nat.and_or_distrib_left, Nat.or_eq_zero_iff]

theorem and_field_eq_zero (x n k : ℕ) : x &&& ((2 ^ k - 1) * 2 ^ n) = 0 ↔ x / 2 ^ n % 2 ^ k = 0 := by
  rw [and_field]
  have h2 : 0 < 2 ^ n := Nat.two_pow_pos n
  constructor
  · intro h
    exact (Nat.mul_eq_zero.mp h).resolve_right h2.ne'
  · intro h
    rw [h, Nat.zero_mul]

/-- The low bits turned around. -/
theorem xor_low (x n : ℕ) :
    x ^^^ (2 ^ n - 1) = x / 2 ^ n * 2 ^ n + (2 ^ n - 1 - x % 2 ^ n) := by
  have hlt : x % 2 ^ n < 2 ^ n := Nat.mod_lt _ (Nat.two_pow_pos n)
  have hsub : 2 ^ n - 1 - x % 2 ^ n < 2 ^ n := by omega
  apply Nat.eq_of_testBit_eq
  intro i
  rw [Nat.mul_comm, Nat.testBit_two_pow_mul_add _ hsub, Nat.testBit_xor,
    Nat.testBit_two_pow_sub_one]
  by_cases hi : i < n
  · rw [if_pos hi]
    have h1 : 2 ^ n - 1 - x % 2 ^ n = 2 ^ n - (x % 2 ^ n + 1) := by omega
    rw [h1, Nat.testBit_two_pow_sub_succ hlt, Nat.testBit_mod_two_pow]
    simp [hi]
  · rw [if_neg hi, Nat.testBit_div_two_pow, Nat.sub_add_cancel (Nat.le_of_not_lt hi)]
    simp [hi]

end LzmaTurbo.BitFields
