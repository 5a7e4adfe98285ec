import Mathlib.Tactic.NormNum.Prime
import Ocoms.Lib.CrcErrors
import Ocoms.Util.Crc

/-!
The errors that the check of `crc.c` notices.

* `crcSquares` are the registers of `X`, `X ^ 2`, `X ^ 4` and so on; with them the order of `X` modulo
  `CRC_POLYNOMIAL` is computed. It is the largest one that there is.
* `uicrc_detects` is about two buffers of one length, one as it was sent and one as it was received.
-/

namespace Ocoms

open Layout Crc Polynomial

/-! ### The order of X -/

/-- Repeated squares of `X`. -/
def crcSquares : List (BitVec 32) :=
  [0x00000002, 0x00000004, 0x00000010, 0x00000100, 0x00010000, 0x04c11db7, 0x490d678d, 0xe8a45605,
    0x75be46b7, 0xe6228b11, 0x567fddeb, 0x88fe2237, 0x0e857e71, 0x7001e426, 0x075de2b2, 0xf12a7f90,
    0xf0b4a1c1, 0x58f46c0c, 0xc3395ade, 0x96837f8c, 0x544037f9, 0x23b7b136, 0xb2e16ba8, 0x725e7bfa,
    0xec709b5d, 0xf77a7274, 0x2845d572, 0x034e2515, 0x79695942, 0x540cb128, 0x0b65d023, 0x3c344723,
    0x00000002]

/-- The register of `X ^ 2 ^ i`. -/
def crcSquare (i : ℕ) : BitVec 32 := crcSquares.getD i 0

lemma mulMod_crcSquare : ∀ i < 32,
    mulMod crcPolynomial (crcSquare i) (bitsOf (crcSquare i)) = crcSquare (i + 1) := by
  decide +kernel

lemma residue_crcSquare_zero : residue crcPolynomial (crcSquare 0) = root crcPolynomial := by
  have hX : regPoly (2 : BitVec 32) = X := by
    rw [regPoly, Finset.sum_eq_single_of_mem 1 (by decide)]
    · simp [coeffOf]
    · intro i hi hne
      have hbit : ∀ i < 32, i ≠ 1 → (2 : BitVec 32).getLsbD i = false := by decide
      rw [hbit i (Finset.mem_range.mp hi) hne, coeffOf, if_neg Bool.false_ne_true, C_0, zero_mul]
  rw [residue, root, ← hX]
  rfl

lemma residue_crcSquare : ∀ i ≤ 32,
    residue crcPolynomial (crcSquare i) = root crcPolynomial ^ 2 ^ i :=
  fun _ hi => residue_squares residue_crcSquare_zero mulMod_crcSquare hi

/-- A power whose exponent is given by its binary digits. -/
lemma root_pow_eq {digits : List ℕ} (h : ∀ i ∈ digits, i ≤ 32) {r : BitVec 32}
    (hr : prodMod crcPolynomial (digits.map crcSquare) = r) :
    root crcPolynomial ^ (digits.map (2 ^ ·)).sum = residue crcPolynomial r := by
  rw [← hr, residue_prodMod_squares (by decide) residue_crcSquare h]

/-- The difference of two numbers at which the powers of `X` differ. -/
lemma root_pow_ne_one (digits digits' : List ℕ) {n : ℕ} (h : ∀ i ∈ digits, i ≤ 32)
    (h' : ∀ i ∈ digits', i ≤ 32)
    (hne : prodMod crcPolynomial (digits.map crcSquare) ≠ prodMod crcPolynomial (digits'.map crcSquare))
    (hn : (digits.map (2 ^ ·)).sum = n + (digits'.map (2 ^ ·)).sum) : root crcPolynomial ^ n ≠ 1 := by
  intro hone
  have heq := root_pow_eq h rfl
  rw [hn, pow_add, hone, one_mul, root_pow_eq h' rfl] at heq
  exact hne (residue_injective heq).symm

lemma root_pow_max : root crcPolynomial ^ (2 ^ 32 - 1) = 1 := by
  have hcycle : root crcPolynomial ^ 2 ^ 32 = root crcPolynomial := by
    rw [← residue_crcSquare 32 (Nat.le_refl 32), ← residue_crcSquare_zero]
    rfl
  have hunit : IsUnit (root crcPolynomial) := isUnit_root (by decide) (by decide)
  refine hunit.mul_left_cancel ?_
  rw [mul_one, ← pow_succ']
  exact hcycle

/-- **The order of `X`** is as large as it can be. -/
lemma orderOf_root : orderOf (root crcPolynomial) = 2 ^ 32 - 1 := by
  refine orderOf_eq_of_pow_and_pow_div_prime (by decide) root_pow_max fun p hp hdvd => ?_
  have hfactor : 2 ^ 32 - 1 = 3 * 5 * 17 * 257 * 65537 := by norm_num
  rw [hfactor, hp.dvd_mul, hp.dvd_mul, hp.dvd_mul, hp.dvd_mul, Nat.prime_dvd_prime_iff_eq hp (by norm_num),
    Nat.prime_dvd_prime_iff_eq hp (by norm_num), Nat.prime_dvd_prime_iff_eq hp (by norm_num),
    Nat.prime_dvd_prime_iff_eq hp (by norm_num), Nat.prime_dvd_prime_iff_eq hp (by norm_num)] at hdvd
  rcases hdvd with (((rfl | rfl) | rfl) | rfl) | rfl
  · -- the exponent has sixteen digits, which are taken in two halves
    have hlow := root_pow_eq (r := 0x526405d7) (show ∀ i ∈ [0, 2, 4, 6, 8, 10, 12, 14], i ≤ 32 by decide)
      (by decide +kernel)
    have hhigh := root_pow_eq (r := 0x7d334777)
      (show ∀ i ∈ [16, 18, 20, 22, 24, 26, 28, 30], i ≤ 32 by decide) (by decide +kernel)
    have hexp : (2 ^ 32 - 1) / 3 = ([0, 2, 4, 6, 8, 10, 12, 14].map (2 ^ ·)).sum
        + ([16, 18, 20, 22, 24, 26, 28, 30].map (2 ^ ·)).sum := by norm_num
    rw [hexp, pow_add, hlow, hhigh, ← residue_mul, ← residue_one (by decide)]
    intro heq
    exact absurd (residue_injective heq) (by decide +kernel)
  · exact root_pow_ne_one [30, 26, 22, 18, 14, 10, 6, 2] [28, 24, 20, 16, 12, 8, 4, 0] (by decide)
      (by decide) (by decide +kernel) (by norm_num)
  · exact root_pow_ne_one [28, 20, 12, 4] [24, 16, 8, 0] (by decide) (by decide) (by decide +kernel)
      (by norm_num)
  · exact root_pow_ne_one [24, 8] [16, 0] (by decide) (by decide) (by decide +kernel) (by norm_num)
  · exact root_pow_ne_one [16] [0] (by decide) (by decide) (by decide +kernel) (by norm_num)

/-! ### The buffers -/

/-- The bits of a buffer, the first byte first and of each byte the most significant bit. -/
def bufferBits (mem : ℤ → Byte) (source : ℤ) (n : ℕ) : List Bool :=
  (gather mem (run source n)).flatMap bitsOf

variable (t t' : CrcTable) (s : BitVec 32) (mem mem' : ℤ → Byte) (source source' : ℤ) (n : ℕ)

lemma length_bufferBits : (bufferBits mem source n).length = 8 * n := by
  rw [bufferBits, length_flatMap_bitsOf, length_gather, length_run]

lemma uicrcPartial_eq_shiftBits :
    (uicrcPartial t mem source n s).1 = shiftBits crcPolynomial s (bufferBits mem source n) :=
  uicrcPartial_eq t mem s source n

lemma bufferBits_add (m : ℕ) :
    bufferBits mem source (n + m) = bufferBits mem source n ++ bufferBits mem (source + n) m := by
  rw [bufferBits, run_add, gather_append, List.flatMap_append]
  rfl

/-- **What the check notices**, for two buffers of one length: they have one check if and only if the
polynomial divides their difference. So every change within 32 bits is noticed, and every change of two
bits that are less than `2 ^ 32 - 1` bits apart. A buffer that has its check behind it, the most
significant bit first, has the check 0. -/
theorem uicrc_detects :
    ((uicrcPartial t mem source n s).1 = (uicrcPartial t' mem' source' n s).1 ↔
      modulus crcPolynomial ∣ bitsPoly (bufferBits mem source n) - bitsPoly (bufferBits mem' source' n)) ∧
    (∀ pre xs ys post, bufferBits mem source n = pre ++ xs ++ post →
      bufferBits mem' source' n = pre ++ ys ++ post → xs.length ≤ 32 → xs ≠ ys →
      (uicrcPartial t mem source n s).1 ≠ (uicrcPartial t' mem' source' n s).1) ∧
    (∀ pre mid post a b, bufferBits mem source n = pre ++ a :: (mid ++ b :: post) →
      bufferBits mem' source' n = pre ++ (!a) :: (mid ++ (!b) :: post) → mid.length + 1 < 2 ^ 32 - 1 →
      (uicrcPartial t mem source n s).1 ≠ (uicrcPartial t' mem' source' n s).1) ∧
    (bufferBits mem (source + n) 4 = bitsOf (uicrcPartial t mem source n s).1 →
      (uicrcPartial t' mem source (n + 4) s).1 = 0) := by
  have hlen : (bufferBits mem source n).length = (bufferBits mem' source' n).length := by
    rw [length_bufferBits, length_bufferBits]
  simp only [uicrcPartial_eq_shiftBits]
  refine ⟨shiftBits_eq_iff (by decide) (by decide) hlen, fun pre xs ys post hxs hys hroom hne heq => ?_,
    fun pre mid post a b ha hb hroom heq => ?_, fun hcheck => ?_⟩
  · rw [hxs, hys] at heq hlen
    refine hne (eq_of_shiftBits_burst (by decide) (by decide) ?_ hroom heq)
    simp only [List.length_append] at hlen
    omega
  · rw [ha, hb] at heq
    have hdvd := orderOf_dvd_of_shiftBits_two (by decide) (by decide) heq
    rw [orderOf_root] at hdvd
    exact absurd (Nat.le_of_dvd (Nat.succ_pos _) hdvd) (Nat.not_le_of_lt hroom)
  · rw [bufferBits_add, shiftBits_append, hcheck]
    exact shiftBits_self _

/-- One byte with a bit changed, with two bits changed, and with its check behind it. -/
theorem uicrc_detects_byte :
    (uicrcPartial CrcTable.start (fun _ => 0x41) 0 1 7).1
        ≠ (uicrcPartial CrcTable.start (fun _ => 0x43) 0 1 7).1 ∧
      (uicrcPartial CrcTable.start (fun _ => 0x41) 0 1 7).1
        ≠ (uicrcPartial CrcTable.start (fun _ => 0xc0) 0 1 7).1 ∧
      (uicrcPartial CrcTable.start
        (fun x => if x = 0 then 0x41 else if x = 1 then 0x7e else if x = 2 then 0x4f else
          if x = 3 then 0xd2 else 0x74) 0 5 crcInitialRegister).1 = 0 :=
  ⟨(uicrc_detects CrcTable.start CrcTable.start 7 _ _ 0 0 1).2.1 [] _ _ [] rfl rfl (by decide)
      (by decide),
    (uicrc_detects CrcTable.start CrcTable.start 7 _ _ 0 0 1).2.2.1 []
      [true, false, false, false, false, false] [] false true rfl rfl (by decide),
    (uicrc_detects CrcTable.start CrcTable.start crcInitialRegister _ (fun _ => 0) 0 0 1).2.2.2
      (by decide +kernel)⟩

end Ocoms
