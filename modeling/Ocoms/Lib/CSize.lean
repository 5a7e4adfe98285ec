import Mathlib.Algebra.Group.Nat.Defs
import Mathlib.Data.Nat.Notation
import Mathlib.Tactic.Common

/-!
The type `size_t`: natural numbers modulo `sizeT`.

* `subSizeT` is the difference; `subSizeT_eq` evaluates it where it does not wrap around.
-/

namespace Ocoms

/-- The number of values of a `size_t`. -/
abbrev sizeT : ℕ := 2 ^ 64

/-- The difference of two values of type `size_t`. -/
def subSizeT (a b : ℕ) : ℕ := (a + (sizeT - b % sizeT)) % sizeT

lemma subSizeT_eq {a b : ℕ} (hb : b ≤ a) (ha : a < sizeT) : subSizeT a b = a - b := by
  have hmod : b % sizeT = b := Nat.mod_eq_of_lt (by omega)
  have hsum : a + (sizeT - b) = (a - b) + sizeT := by omega
  rw [subSizeT, hmod, hsum, Nat.add_mod_right]
  exact Nat.mod_eq_of_lt (by omega)

end Ocoms
