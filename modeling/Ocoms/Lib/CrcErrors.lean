import Mathlib.Algebra.Polynomial.FieldDivision
import Mathlib.GroupTheory.OrderOfElement
import Mathlib.RingTheory.Ideal.Quotient.Operations
import Mathlib.RingTheory.PrincipalIdealDomain
import Ocoms.Lib.Crc

/-!
What a cyclic redundancy check notices, for two messages of one length.

* `shiftBits_eq_iff`: the registers are equal if and only if the polynomial divides the difference of
  the messages.
* `eq_of_shiftBits_burst`: a register of `w` bits notices every change within `w` bits.
* `shiftBits_self`: a register behind the message that it was computed from gives 0.
* `prodMod` and `residue_squares` compute powers of `X`, to find its order;
  `orderOf_dvd_of_shiftBits_two` says that two changed bits are noticed up to this distance.
-/

namespace Ocoms.Crc

open Polynomial

variable {w : ℕ} {poly r : BitVec w}

/-! ### The polynomial of a message -/

lemma bitsPoly_append_singleton (xs : List Bool) (b : Bool) :
    bitsPoly (xs ++ [b]) = bitsPoly xs * X + C (coeffOf b) := by
  rw [bitsPoly, List.foldl_append]
  rfl

lemma bitsPoly_append (xs ys : List Bool) :
    bitsPoly (xs ++ ys) = bitsPoly xs * X ^ ys.length + bitsPoly ys := by
  induction ys using List.reverseRecOn with
  | nil => simp [bitsPoly]
  | append_singleton ys b ih =>
      rw [← List.append_assoc, bitsPoly_append_singleton, bitsPoly_append_singleton, ih,
        List.length_append, List.length_singleton]
      ring

lemma degree_bitsPoly_lt (xs : List Bool) : (bitsPoly xs).degree < xs.length := by
  induction xs using List.reverseRecOn with
  | nil => simp [bitsPoly]
  | append_singleton xs b ih =>
      rw [bitsPoly_append_singleton, List.length_append, List.length_singleton]
      refine (degree_add_le _ _).trans_lt (max_lt ?_ ?_)
      · rw [degree_mul, degree_X]
        exact_mod_cast WithBot.add_lt_add_right (by decide) ih
      · exact degree_C_le.trans_lt (by exact_mod_cast Nat.succ_pos _)

lemma bitsPoly_injective {xs ys : List Bool} (hlen : xs.length = ys.length)
    (h : bitsPoly xs = bitsPoly ys) : xs = ys := by
  induction xs using List.reverseRecOn generalizing ys with
  | nil => exact (List.length_eq_zero_iff.mp hlen.symm).symm
  | append_singleton xs a ih =>
      rcases List.eq_nil_or_concat ys with rfl | ⟨ys, b, rfl⟩
      · simp at hlen
      · rw [List.concat_eq_append] at *
        rw [List.length_append, List.length_append, List.length_singleton, List.length_singleton,
          Nat.add_right_cancel_iff] at hlen
        rw [bitsPoly_append_singleton, bitsPoly_append_singleton] at h
        -- the last bit is the constant coefficient
        have hcoeff : coeffOf a = coeffOf b := by
          have hzero := congrArg (fun p => coeff p 0) h
          simpa using hzero
        have hbit : a = b := by
          revert hcoeff
          cases a <;> cases b <;> decide
        rw [hcoeff] at h
        rw [ih hlen (mul_right_cancel₀ X_ne_zero (add_right_cancel h)), hbit]

lemma bitsPoly_cons (b : Bool) (xs : List Bool) :
    bitsPoly (b :: xs) = C (coeffOf b) * X ^ xs.length + bitsPoly xs := by
  have hone : bitsPoly [b] = C (coeffOf b) := by simp [bitsPoly]
  rw [← List.singleton_append, bitsPoly_append, hone]

/-- The bits of a register are its polynomial. -/
lemma bitsPoly_bitsOf {k : ℕ} (x : BitVec k) : bitsPoly (bitsOf x) = regPoly x := by
  induction k with
  | zero => simp [bitsOf, bitsPoly, regPoly]
  | succ k ih =>
      rw [bitsOf, bitsPoly_cons, length_bitsOf, ih, regPoly, regPoly, Finset.sum_range_succ, add_comm,
        BitVec.msb_eq_getLsbD_last, Nat.add_sub_cancel]
      congr 1
      refine Finset.sum_congr rfl fun i hi => ?_
      rw [BitVec.getLsbD_setWidth, decide_eq_true (Finset.mem_range.mp hi), Bool.true_and]

/-! ### Equal registers -/

lemma bitsOf_injective {k : ℕ} {x y : BitVec k} (h : bitsOf x = bitsOf y) : x = y := by
  induction k with
  | zero => exact Subsingleton.elim x y
  | succ k ih =>
      obtain ⟨hmsb, hrest⟩ := List.cons.inj h
      have hlow := ih hrest
      ext i hi
      rcases Nat.lt_or_ge i k with hik | hik
      · have hbit := congrArg (fun z : BitVec k => z.getLsbD i) hlow
        simpa [hik, hi] using hbit
      · obtain rfl : i = k := by omega
        simpa [BitVec.msb_eq_getLsbD_last] using hmsb

/-- Two registers that the polynomial does not tell apart. -/
lemma eq_of_dvd_regPoly (poly : BitVec w) {a b : BitVec w} (h : modulus poly ∣ regPoly a - regPoly b) : a = b := by
  have hdegree : (regPoly a - regPoly b).degree < (modulus poly).degree := by
    rw [degree_modulus]
    exact (degree_sub_le _ _).trans_lt (max_lt (degree_regPoly_lt a) (degree_regPoly_lt b))
  have heq := sub_eq_zero.mp (eq_zero_of_dvd_of_degree_lt h hdegree)
  rw [← bitsPoly_bitsOf, ← bitsPoly_bitsOf] at heq
  exact bitsOf_injective (bitsPoly_injective (by simp) heq)

/-- The polynomial has a constant term. -/
lemma isCoprime_X_pow (hw : 0 < w) (hpoly : poly.getLsbD 0 = true) (n : ℕ) :
    IsCoprime (modulus poly) (X ^ n) := by
  have hcoeff : (modulus poly).coeff 0 = 1 := by
    rw [modulus, coeff_add, coeff_X_pow, if_neg hw.ne, zero_add, regPoly, finsetSum_coeff,
      Finset.sum_eq_single_of_mem 0 (Finset.mem_range.mpr hw) fun i _ hi => by
        rw [coeff_C_mul_X_pow, if_neg hi.symm],
      pow_zero, mul_one, coeff_C_zero, hpoly]
    rfl
  refine (((irreducible_X (R := ZMod 2)).coprime_iff_not_dvd.mpr fun hdvd => ?_).pow_left).symm
  rw [X_dvd_iff, hcoeff] at hdvd
  exact one_ne_zero hdvd

/-- **Equal registers.** Two messages of one length have them if the polynomial divides the
difference. -/
lemma shiftBits_eq_iff (hw : 0 < w) (hpoly : poly.getLsbD 0 = true) {xs ys : List Bool}
    (hlen : xs.length = ys.length) :
    shiftBits poly r xs = shiftBits poly r ys ↔ modulus poly ∣ bitsPoly xs - bitsPoly ys := by
  obtain ⟨p, hp⟩ := @dvd_shiftBits w poly r xs
  obtain ⟨q, hq⟩ := @dvd_shiftBits w poly r ys
  rw [← hlen] at hq
  have hdiff : regPoly (shiftBits poly r xs) - regPoly (shiftBits poly r ys)
      = (bitsPoly xs - bitsPoly ys) * X ^ w + modulus poly * (p - q) := by
    linear_combination hp - hq
  constructor
  · intro h
    rw [h, sub_self] at hdiff
    refine (isCoprime_X_pow hw hpoly w).dvd_of_dvd_mul_right ⟨q - p, ?_⟩
    linear_combination -hdiff
  · intro h
    refine eq_of_dvd_regPoly poly ?_
    rw [hdiff]
    exact dvd_add (h.mul_right _) (dvd_mul_right _ _)

/-- **A change within `w` bits is noticed.** -/
lemma eq_of_shiftBits_burst (hw : 0 < w) (hpoly : poly.getLsbD 0 = true) {pre xs ys post : List Bool}
    (hlen : xs.length = ys.length) (hroom : xs.length ≤ w)
    (h : shiftBits poly r (pre ++ xs ++ post) = shiftBits poly r (pre ++ ys ++ post)) : xs = ys := by
  have hlen' : (pre ++ xs ++ post).length = (pre ++ ys ++ post).length := by
    simp only [List.length_append, hlen]
  have hdvd := (shiftBits_eq_iff hw hpoly hlen').mp h
  have hdiff : bitsPoly (pre ++ xs ++ post) - bitsPoly (pre ++ ys ++ post)
      = (bitsPoly xs - bitsPoly ys) * X ^ post.length := by
    rw [bitsPoly_append, bitsPoly_append pre, bitsPoly_append (pre ++ ys), bitsPoly_append pre, hlen]
    ring
  rw [hdiff] at hdvd
  -- what is left has a smaller degree than the polynomial
  have hsmall : (bitsPoly xs - bitsPoly ys).degree < (modulus poly).degree := by
    rw [degree_modulus]
    have hroom' : ((xs.length : ℕ) : WithBot ℕ) ≤ w := by exact_mod_cast hroom
    refine (degree_sub_le _ _).trans_lt (max_lt ?_ ?_)
    · exact (degree_bitsPoly_lt xs).trans_le hroom'
    · exact (degree_bitsPoly_lt ys).trans_le (hlen ▸ hroom')
  have hzero := eq_zero_of_dvd_of_degree_lt
    ((isCoprime_X_pow hw hpoly _).dvd_of_dvd_mul_right hdvd) hsmall
  exact bitsPoly_injective hlen (sub_eq_zero.mp hzero)

/-- **A register behind its own message** gives 0. -/
lemma shiftBits_self (s : BitVec w) : shiftBits poly s (bitsOf s) = 0 := by
  refine eq_of_dvd_regPoly poly ?_
  have hdvd := @dvd_shiftBits w poly s (bitsOf s)
  have hzero : regPoly (0 : BitVec w) = 0 := by simp [regPoly, coeffOf]
  rw [length_bitsOf, bitsPoly_bitsOf, CharTwo.add_self_eq_zero] at hdvd
  rwa [hzero]

/-! ### Two bits -/

/-- `X` modulo the polynomial. -/
noncomputable def root (poly : BitVec w) : (ZMod 2)[X] ⧸ Ideal.span {modulus poly} :=
  Ideal.Quotient.mk _ X

/-- The register modulo the polynomial. -/
noncomputable def residue (poly r : BitVec w) : (ZMod 2)[X] ⧸ Ideal.span {modulus poly} :=
  Ideal.Quotient.mk _ (regPoly r)

lemma residue_injective {a b : BitVec w} (h : residue poly a = residue poly b) : a = b :=
  eq_of_dvd_regPoly poly (Ideal.mem_span_singleton.mp (Ideal.Quotient.eq.mp h))

lemma residue_shiftBit (a : BitVec w) : residue poly (shiftBit poly a false) = residue poly a * root poly := by
  rw [residue, residue, root, ← map_mul, Ideal.Quotient.eq, Ideal.mem_span_singleton, regPoly_shiftBit]
  refine ⟨C (coeffOf (a.msb ^^ false)), ?_⟩
  rw [show coeffOf false = 0 from rfl, C_0]
  ring

lemma residue_xor (a b : BitVec w) : residue poly (a ^^^ b) = residue poly a + residue poly b := by
  rw [residue, regPoly_xor, map_add]
  rfl

lemma residue_zero : residue poly 0 = 0 := by
  have hzero : regPoly (0 : BitVec w) = 0 := by simp [regPoly, coeffOf]
  rw [residue, hzero, map_zero]

/-- The product of a register and the bits of another one. -/
def mulMod (poly a : BitVec w) (bits : List Bool) : BitVec w :=
  bits.foldl (fun acc b => shiftBit poly acc false ^^^ if b then a else 0) 0

lemma residue_mulMod (a : BitVec w) (bits : List Bool) :
    residue poly (mulMod poly a bits) = residue poly a * Ideal.Quotient.mk _ (bitsPoly bits) := by
  induction bits using List.reverseRecOn with
  | nil => rw [mulMod, List.foldl_nil, residue_zero, bitsPoly, List.foldl_nil, map_zero, mul_zero]
  | append_singleton bits b ih =>
      have hbit : residue poly (if b then a else 0) = residue poly a * Ideal.Quotient.mk _ (C (coeffOf b)) := by
        cases b with
        | false => rw [if_neg Bool.false_ne_true, residue_zero, coeffOf, if_neg Bool.false_ne_true, C_0,
            map_zero, mul_zero]
        | true => rw [if_pos rfl, coeffOf, if_pos rfl, C_1, map_one, mul_one]
      rw [mulMod, List.foldl_append, List.foldl_cons, List.foldl_nil, ← mulMod, residue_xor,
        residue_shiftBit, ih, hbit, bitsPoly_append_singleton, map_add, map_mul, root]
      ring

lemma residue_mul (a b : BitVec w) :
    residue poly (mulMod poly a (bitsOf b)) = residue poly a * residue poly b := by
  rw [residue_mulMod, bitsPoly_bitsOf]
  rfl

lemma residue_one (hw : 0 < w) : residue poly 1 = 1 := by
  have hone : regPoly (1 : BitVec w) = 1 := by
    rw [regPoly, Finset.sum_eq_single_of_mem 0 (Finset.mem_range.mpr hw)]
    · simp [coeffOf, hw]
    · intro i _ hi
      simp [coeffOf, hi]
  rw [residue, hone, map_one]

/-- The product of registers. -/
def prodMod (poly : BitVec w) (rs : List (BitVec w)) : BitVec w :=
  rs.foldl (fun acc r => mulMod poly r (bitsOf acc)) 1

lemma residue_prodMod (hw : 0 < w) (rs : List (BitVec w)) :
    residue poly (prodMod poly rs) = (rs.map (residue poly)).prod := by
  induction rs using List.reverseRecOn with
  | nil => rw [prodMod, List.foldl_nil, residue_one hw, List.map_nil, List.prod_nil]
  | append_singleton rs r ih =>
      rw [prodMod, List.foldl_append, List.foldl_cons, List.foldl_nil, ← prodMod, residue_mul, ih,
        List.map_append, List.prod_append, List.map_singleton, List.prod_singleton, mul_comm]

/-- A table of repeated squares. -/
lemma residue_squares {squares : ℕ → BitVec w} {n : ℕ} (hfirst : residue poly (squares 0) = root poly)
    (hsquare : ∀ i < n, mulMod poly (squares i) (bitsOf (squares i)) = squares (i + 1)) {i : ℕ} (hi : i ≤ n) :
    residue poly (squares i) = root poly ^ 2 ^ i := by
  induction i with
  | zero => rw [hfirst, pow_zero, pow_one]
  | succ i ih => rw [← hsquare i hi, residue_mul, ih (Nat.le_of_lt hi), ← pow_add, ← two_mul, ← pow_succ']

/-- Products of these squares. -/
lemma residue_prodMod_squares (hw : 0 < w) {squares : ℕ → BitVec w} {n : ℕ}
    (h : ∀ i ≤ n, residue poly (squares i) = root poly ^ 2 ^ i) {is : List ℕ} (his : ∀ i ∈ is, i ≤ n) :
    residue poly (prodMod poly (is.map squares)) = root poly ^ (is.map (2 ^ ·)).sum := by
  rw [residue_prodMod hw]
  induction is with
  | nil => rfl
  | cons i is ih =>
      rw [List.forall_mem_cons] at his
      rw [List.map_cons, List.map_cons, List.prod_cons, ih his.2, h i his.1, List.map_cons, List.sum_cons,
        pow_add]

/-- `X` can be cancelled. -/
lemma isUnit_root (hw : 0 < w) (hpoly : poly.getLsbD 0 = true) : IsUnit (root poly) := by
  obtain ⟨u, v, huv⟩ := isCoprime_X_pow hw hpoly 1
  refine IsUnit.of_mul_eq_one (Ideal.Quotient.mk _ v) ?_
  rw [root, ← map_mul, ← map_one (Ideal.Quotient.mk (Ideal.span {modulus poly})), Ideal.Quotient.eq,
    Ideal.mem_span_singleton]
  exact ⟨-u, by linear_combination huv⟩

lemma coeffOf_not (b : Bool) : coeffOf b - coeffOf (!b) = 1 := by
  cases b <;> decide

/-- **Two changed bits are noticed**, unless the order of `X` divides their distance. -/
lemma orderOf_dvd_of_shiftBits_two (hw : 0 < w) (hpoly : poly.getLsbD 0 = true)
    {pre mid post : List Bool} {a b : Bool}
    (h : shiftBits poly r (pre ++ a :: (mid ++ b :: post))
      = shiftBits poly r (pre ++ (!a) :: (mid ++ (!b) :: post))) :
    orderOf (root poly) ∣ mid.length + 1 := by
  have hdvd := (shiftBits_eq_iff hw hpoly (by simp)).mp h
  have hdiff : bitsPoly (pre ++ a :: (mid ++ b :: post)) - bitsPoly (pre ++ (!a) :: (mid ++ (!b) :: post))
      = (X ^ (mid.length + 1) - 1) * X ^ post.length := by
    have hb : C (coeffOf b) = C (coeffOf (!b)) + 1 := by
      rw [← C_1, ← C_add, ← coeffOf_not b, add_sub_cancel]
    have ha : C (coeffOf a) = C (coeffOf (!a)) + 1 := by
      rw [← C_1, ← C_add, ← coeffOf_not a, add_sub_cancel]
    have htwo : (X ^ post.length + X ^ post.length : (ZMod 2)[X]) = 0 := CharTwo.add_self_eq_zero _
    simp only [bitsPoly_append, bitsPoly_cons, List.length_append, List.length_cons, ha, hb]
    linear_combination htwo
  rw [hdiff] at hdvd
  have hone := (isCoprime_X_pow hw hpoly _).dvd_of_dvd_mul_right hdvd
  refine orderOf_dvd_of_pow_eq_one ?_
  rw [root, ← map_pow, ← map_one (Ideal.Quotient.mk (Ideal.span {modulus poly})), Ideal.Quotient.eq,
    Ideal.mem_span_singleton]
  exact hone

end Ocoms.Crc
