import Mathlib.Algebra.Group.Int.Defs
import Mathlib.Data.Int.Notation
import Mathlib.Tactic.Common

/-!
The type `int`: integers of 32 bits, two's complement.

* `wrap n` is the value that remains of `n` in an `int`; `wrap_eq` and `wrap_of_gt` evaluate it.
* `max` is `INT_MAX`.
-/

namespace Ocoms.CInt

/-- What remains of an integer in an `int`. -/
def wrap (n : ℤ) : ℤ := (BitVec.ofInt 32 n).toInt

/-- `INT_MAX`. -/
def max : ℤ := 2 ^ 31 - 1

lemma wrap_eq {n : ℤ} (h₀ : -2 ^ 31 ≤ n) (h₁ : n ≤ max) : wrap n = n := by
  rw [max] at h₁
  rw [wrap, BitVec.toInt_ofInt, Int.bmod_eq_of_le (by omega) (by omega)]

/-- Just above `INT_MAX` the value is negative. -/
lemma wrap_of_gt {n : ℤ} (h₀ : max < n) (h₁ : n < 2 ^ 32) : wrap n = n - 2 ^ 32 := by
  rw [max] at h₀
  have hsub : n = (n - 2 ^ 32) + ((2 ^ 32 : ℕ) : ℤ) := by omega
  rw [wrap, BitVec.toInt_ofInt]
  conv_lhs => rw [hsub]
  rw [Int.add_bmod_right, Int.bmod_eq_of_le (by omega) (by omega)]

end Ocoms.CInt
