import Mathlib.Algebra.CharP.Two
import Mathlib.Algebra.Field.ZMod
import Mathlib.Algebra.Polynomial.Div
import Mathlib.Data.BitVec
import Mathlib.RingTheory.Polynomial.DegreeLT
import Mathlib.Tactic.LinearCombination

/-!
Cyclic redundancy checks, most significant bit first.

* `shiftBit`, `shiftBits`: a register of `w` bits that divides by `X ^ w + poly`, a bit at a time.
* `shiftBits_bitsOf`: bits that are shifted in are bits that were in the register, because the
  register is linear in both.
* `shiftBits_eq_table`: `k` bits at a time, with a table of `2 ^ k` entries.
* `regPoly_shiftBits`: what is left in the register is a remainder of polynomials over `ZMod 2`.
-/

namespace Ocoms.Crc

open Polynomial

variable {w : ℕ} {poly r s : BitVec w}

/-! ### The register -/

/-- The bit `b` is shifted into the register. -/
def shiftBit (poly r : BitVec w) (b : Bool) : BitVec w :=
  if r.msb ^^ b then (r <<< 1) ^^^ poly else r <<< 1

/-- The bits are shifted into the register, the first one first. -/
def shiftBits (poly r : BitVec w) (bits : List Bool) : BitVec w :=
  bits.foldl (shiftBit poly) r

/-- The bits of a word, the most significant one first. -/
def bitsOf : {k : ℕ} → BitVec k → List Bool
  | 0, _ => []
  | k + 1, x => x.msb :: bitsOf (x.setWidth k)

@[simp] lemma length_bitsOf {k : ℕ} (x : BitVec k) : (bitsOf x).length = k := by
  induction k with
  | zero => rfl
  | succ k ih => rw [bitsOf, List.length_cons, ih]

lemma shiftBits_append (bits bits' : List Bool) :
    shiftBits poly r (bits ++ bits') = shiftBits poly (shiftBits poly r bits) bits' :=
  List.foldl_append

/-! ### The register is linear -/

/-- A bit at a time, the register is linear. -/
lemma shiftBit_xor (poly r s : BitVec w) (a b : Bool) :
    shiftBit poly (r ^^^ s) (a ^^ b) = shiftBit poly r a ^^^ shiftBit poly s b := by
  unfold shiftBit
  rw [BitVec.msb_xor, BitVec.shiftLeft_xor_distrib]
  cases r.msb <;> cases s.msb <;> cases a <;> cases b <;> ext i hi <;> simp <;> grind

/-- `n` zero bits are shifted in. -/
def shiftZeros (poly : BitVec w) : ℕ → BitVec w → BitVec w
  | 0, r => r
  | n + 1, r => shiftZeros poly n (shiftBit poly r false)

lemma shiftZeros_xor (n : ℕ) :
    shiftZeros poly n (r ^^^ s) = shiftZeros poly n r ^^^ shiftZeros poly n s := by
  induction n generalizing r s with
  | zero => rfl
  | succ n ih =>
      have hbit := shiftBit_xor poly r s false false
      rw [Bool.xor_false] at hbit
      rw [shiftZeros, hbit, ih]
      rfl

/-- A register whose first `n` bits are clear only moves to the left. -/
lemma shiftZeros_of_clear {n : ℕ} (h : ∀ i, w - n ≤ i → r.getLsbD i = false) :
    shiftZeros poly n r = r <<< n := by
  induction n generalizing r with
  | zero => rw [shiftZeros, BitVec.shiftLeft_zero]
  | succ n ih =>
      have hmsb : r.msb = false := by
        rw [BitVec.msb_eq_getLsbD_last]
        exact h _ (by omega)
      have hbit : shiftBit poly r false = r <<< 1 := by simp [shiftBit, hmsb]
      rw [shiftZeros, hbit, ih, ← BitVec.shiftLeft_add, Nat.add_comm]
      intro i hi
      simp
      grind

/-! ### Bits at the top of the register -/

/-- The word `x` at the top of the register. -/
def top {k : ℕ} (w : ℕ) (x : BitVec k) : BitVec w := x.setWidth w <<< (w - k)

lemma msb_top {k : ℕ} (hk : k < w) (x : BitVec (k + 1)) : (top w x).msb = x.msb := by
  rw [BitVec.msb_eq_getLsbD_last, BitVec.msb_eq_getLsbD_last, top]
  simp
  grind

lemma top_shiftLeft_one {k : ℕ} (hk : k < w) (x : BitVec (k + 1)) :
    top w x <<< 1 = top w (x.setWidth k) := by
  have hroom := Nat.sub_pos_of_lt hk
  ext i hi
  simp [top]
  grind

lemma top_shiftLeft {k : ℕ} (x : BitVec k) : top w x <<< k = 0#w := by
  ext i hi
  simp [top]
  grind

lemma top_split {k : ℕ} (hk : k ≤ w) (x : BitVec w) :
    x = top w ((x >>> (w - k)).setWidth k) ^^^ ((x <<< k) >>> k) := by
  ext i hi
  simp [top]
  grind

lemma shiftBit_top {k : ℕ} (hk : k < w) (x : BitVec (k + 1)) :
    shiftBit poly r x.msb ^^^ top w (x.setWidth k) = shiftBit poly (r ^^^ top w x) false := by
  unfold shiftBit
  rw [BitVec.msb_xor, msb_top hk, BitVec.shiftLeft_xor_distrib, top_shiftLeft_one hk,
    Bool.xor_false]
  split_ifs
  · rw [BitVec.xor_assoc, BitVec.xor_assoc, BitVec.xor_comm poly]
  · rfl

/-- Shifting the word `x` in is shifting zeros into a register that has `x` at its top. -/
lemma shiftBits_bitsOf {k : ℕ} (hk : k ≤ w) (x : BitVec k) :
    shiftBits poly r (bitsOf x) = shiftZeros poly k (r ^^^ top w x) := by
  induction k generalizing r with
  | zero =>
      have htop : top w x = 0#w := by
        ext i hi
        simp [top]
      rw [htop, BitVec.xor_zero]
      rfl
  | succ k ih =>
      rw [shiftZeros, ← shiftBit_top hk, ← ih (by omega)]
      rfl

/-- What `k` shifts do to a register: its first `k` bits decide what is added. -/
lemma shiftZeros_eq {k : ℕ} (hk : k ≤ w) (x : BitVec w) :
    shiftZeros poly k x
      = (x <<< k) ^^^ shiftZeros poly k (top w ((x >>> (w - k)).setWidth k)) := by
  have hlow : shiftZeros poly k ((x <<< k) >>> k) = x <<< k := by
    rw [shiftZeros_of_clear]
    · ext i hi
      simp
      grind
    · intro i hi
      simp
      grind
  conv_lhs => rw [top_split hk x]
  rw [shiftZeros_xor, hlow, BitVec.xor_comm]

/-- **The table for `k` bits at a time**: its entry for the word at the top of the register. -/
theorem shiftBits_eq_table {k : ℕ} (hk : k ≤ w) (x : BitVec k) :
    shiftBits poly r (bitsOf x)
      = (r <<< k) ^^^ shiftZeros poly k (top w ((r >>> (w - k)).setWidth k ^^^ x)) := by
  have htop : ((r ^^^ top w x) >>> (w - k)).setWidth k = (r >>> (w - k)).setWidth k ^^^ x := by
    ext i hi
    simp [top]
    grind
  rw [shiftBits_bitsOf hk, shiftZeros_eq hk, BitVec.shiftLeft_xor_distrib, top_shiftLeft,
    BitVec.xor_zero, htop]

/-! ### Remainders of polynomials -/

/-- The coefficient a bit stands for. -/
def coeffOf (b : Bool) : ZMod 2 := if b then 1 else 0

lemma coeffOf_xor (a b : Bool) : coeffOf (a ^^ b) = coeffOf a + coeffOf b := by
  cases a <;> cases b <;> decide

/-- The polynomial whose coefficients are the bits of a register. -/
noncomputable def regPoly (r : BitVec w) : (ZMod 2)[X] :=
  ∑ i ∈ Finset.range w, C (coeffOf (r.getLsbD i)) * X ^ i

/-- The polynomial of a message, whose first bit is the coefficient of the highest power. -/
noncomputable def bitsPoly (bits : List Bool) : (ZMod 2)[X] :=
  bits.foldl (fun p b => p * X + C (coeffOf b)) 0

/-- What the register divides by: `poly` is given without its leading term. -/
noncomputable def modulus (poly : BitVec w) : (ZMod 2)[X] := X ^ w + regPoly poly

lemma degree_regPoly_lt (r : BitVec w) : (regPoly r).degree < w := by
  rw [regPoly, ← mem_degreeLT]
  apply Submodule.sum_mem
  intro i hi
  rw [mem_degreeLT]
  exact (degree_C_mul_X_pow_le _ _).trans_lt (by exact_mod_cast Finset.mem_range.mp hi)

lemma monic_modulus (poly : BitVec w) : (modulus poly).Monic :=
  monic_X_pow_add (degree_regPoly_lt poly)

lemma degree_modulus (poly : BitVec w) : (modulus poly).degree = w := by
  have hlt : (regPoly poly).degree < (X ^ w : (ZMod 2)[X]).degree :=
    (degree_regPoly_lt poly).trans_eq (degree_X_pow w).symm
  rw [modulus, degree_add_eq_left_of_degree_lt hlt, degree_X_pow]

lemma regPoly_xor (r s : BitVec w) : regPoly (r ^^^ s) = regPoly r + regPoly s := by
  rw [regPoly, regPoly, regPoly, ← Finset.sum_add_distrib]
  refine Finset.sum_congr rfl fun i _ => ?_
  rw [BitVec.getLsbD_xor, coeffOf_xor, C_add, add_mul]

/-- A shift multiplies by `X`; the bit that is lost stood for `X ^ w`. -/
lemma regPoly_shiftLeft (r : BitVec w) :
    regPoly (r <<< 1) + C (coeffOf r.msb) * X ^ w = regPoly r * X := by
  cases w with
  | zero => simp [regPoly, coeffOf, BitVec.msb_eq_getLsbD_last]
  | succ w =>
      have hlow : coeffOf ((r <<< 1).getLsbD 0) = 0 := by simp [coeffOf]
      rw [regPoly, Finset.sum_range_succ', regPoly, Finset.sum_range_succ _ w, add_mul,
        Finset.sum_mul, BitVec.msb_eq_getLsbD_last, hlow, C_0, zero_mul, add_zero,
        Nat.add_sub_cancel, mul_assoc _ (X ^ w) X, ← pow_succ]
      refine congrArg₂ (· + ·) (Finset.sum_congr rfl fun i hi => ?_) rfl
      have hi : i + 1 < w + 1 := by simpa using hi
      have hbit : (r <<< 1).getLsbD (i + 1) = r.getLsbD i := by
        simp [hi, BitVec.getLsbD_eq_getElem (show i < w + 1 by omega)]
      rw [hbit, mul_assoc, ← pow_succ]

lemma regPoly_shiftBit (r : BitVec w) (b : Bool) :
    regPoly (shiftBit poly r b)
      = regPoly r * X + C (coeffOf b) * X ^ w + C (coeffOf (r.msb ^^ b)) * modulus poly := by
  have hreduced : (regPoly (r <<< 1) + C (coeffOf r.msb) * X ^ w + C (coeffOf b) * X ^ w
      + (C (coeffOf r.msb) + C (coeffOf b)) * modulus poly : (ZMod 2)[X])
      = regPoly (r <<< 1) + (C (coeffOf r.msb) + C (coeffOf b)) * regPoly poly := by
    have htwice : ∀ p : (ZMod 2)[X], p + p = 0 := CharTwo.add_self_eq_zero
    rw [modulus]
    linear_combination htwice ((C (coeffOf r.msb) + C (coeffOf b)) * X ^ w)
  rw [← regPoly_shiftLeft, coeffOf_xor, C_add, hreduced, ← C_add, ← coeffOf_xor, shiftBit]
  split_ifs with h
  · rw [h, regPoly_xor, coeffOf, if_pos rfl, C_1, one_mul]
  · rw [Bool.not_eq_true] at h
    simp [h, coeffOf]

/-- After every bit the register differs from what has been shifted in by a multiple. -/
lemma dvd_shiftBits (r : BitVec w) (bits : List Bool) :
    modulus poly ∣ regPoly (shiftBits poly r bits)
      - (regPoly r * X ^ bits.length + bitsPoly bits * X ^ w) := by
  induction bits using List.reverseRecOn with
  | nil => simp [shiftBits, bitsPoly]
  | append_singleton bits b ih =>
      obtain ⟨q, hq⟩ := ih
      rw [shiftBits, List.foldl_append, bitsPoly, List.foldl_append]
      show modulus poly ∣ regPoly (shiftBit poly (shiftBits poly r bits) b)
        - (regPoly r * X ^ (bits ++ [b]).length + (bitsPoly bits * X + C (coeffOf b)) * X ^ w)
      rw [regPoly_shiftBit, List.length_append, List.length_singleton]
      refine ⟨q * X + C (coeffOf ((shiftBits poly r bits).msb ^^ b)), ?_⟩
      linear_combination X * hq

/-- **What is left in the register is a remainder**: of the message behind the first register,
times `X ^ w`. -/
theorem regPoly_shiftBits (r : BitVec w) (bits : List Bool) :
    regPoly (shiftBits poly r bits)
      = (regPoly r * X ^ bits.length + bitsPoly bits * X ^ w) %ₘ modulus poly := by
  have hself : regPoly (shiftBits poly r bits) %ₘ modulus poly = regPoly (shiftBits poly r bits) :=
    (modByMonic_eq_self_iff (monic_modulus poly)).mpr
      ((degree_regPoly_lt _).trans_eq (degree_modulus poly).symm)
  rw [← hself]
  exact modByMonic_eq_of_dvd_sub (monic_modulus poly) (dvd_shiftBits r bits)

end Ocoms.Crc
