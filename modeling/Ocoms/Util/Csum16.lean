import Mathlib.Data.BitVec
import Ocoms.Lib.EndAroundCarry
import Ocoms.Lib.Layout

/-!
The 16-bit checksum of `crc.h`.

* `csum16` is `ocoms_csum16` on a little-endian machine: `csum16Add` is the loop over the words
  with the leftover byte, `csum16Fold` the loop that folds.
* `wordSum16` is the exact sum of the words. `csum16_toNat` says that the function folds what is
  left of it in 32 bits.
* `csum16_eq_fold_iff`: when that is the sum with end-around carry.
  `csum16_ff_fails` is a string of 131076 bytes for which it is not.
-/

namespace Ocoms

open EndAroundCarry

/-! ### The function -/

/-- The first two loops: 16-bit words as long as there are two bytes, and the leftover byte. -/
def csum16Add : List Byte → BitVec 32 → BitVec 32
  | lo :: hi :: source, csum => csum16Add source (csum + (hi ++ lo).setWidth 32)
  | [b], csum => csum + b.setWidth 32
  | [], csum => csum

lemma toNat_fold_step (csum : BitVec 32) :
    ((csum &&& (0xFFFF : BitVec 32)) + (csum >>> 16)).toNat = csum.toNat % 2 ^ 16 + csum.toNat / 2 ^ 16 := by
  have hlow : (csum &&& (0xFFFF : BitVec 32)).toNat = csum.toNat % 2 ^ 16 := by
    rw [BitVec.toNat_and]
    exact Nat.and_two_pow_sub_one_eq_mod csum.toNat 16
  have hhigh : (csum >>> 16).toNat = csum.toNat / 2 ^ 16 := by
    rw [BitVec.toNat_ushiftRight, Nat.shiftRight_eq_div_pow]
  rw [BitVec.toNat_add, hlow, hhigh]
  have hlt := csum.isLt
  omega

lemma shift_ne_zero_iff (csum : BitVec 32) : csum >>> 16 ≠ 0 ↔ 2 ^ 16 ≤ csum.toNat := by
  rw [ne_eq, BitVec.toNat_eq, BitVec.toNat_ushiftRight, Nat.shiftRight_eq_div_pow]
  have hlt := csum.isLt
  have hzero : (0 : BitVec 32).toNat = 0 := rfl
  omega

/-- The last loop. It ends because the sum gets smaller. -/
def csum16Fold (csum : BitVec 32) : BitVec 32 :=
  if csum >>> 16 ≠ 0 then csum16Fold ((csum &&& (0xFFFF : BitVec 32)) + (csum >>> 16)) else csum
  termination_by csum.toNat
  decreasing_by
    rw [toNat_fold_step]
    exact mod_add_div_lt (by decide) ((shift_ne_zero_iff csum).mp ‹_›)

/-- `ocoms_csum16`. -/
def csum16 (source : List Byte) : BitVec 16 := (csum16Fold (csum16Add source 0)).setWidth 16

/-! ### The sum -/

/-- The exact sum of the 16-bit words of a string, an odd last byte with a zero behind it. -/
def wordSum16 : List Byte → ℕ
  | lo :: hi :: source => lo.toNat + 2 ^ 8 * hi.toNat + wordSum16 source
  | [b] => b.toNat
  | [] => 0

lemma csum16Add_toNat (source : List Byte) (csum : BitVec 32) :
    (csum16Add source csum).toNat = (csum.toNat + wordSum16 source) % 2 ^ 32 := by
  induction source, csum using csum16Add.induct with
  | case1 lo hi source csum ih =>
      have hword : ((hi ++ lo).setWidth 32).toNat = lo.toNat + 2 ^ 8 * hi.toNat := by
        have hlo := lo.isLt
        have hhi := hi.isLt
        rw [BitVec.toNat_setWidth, BitVec.toNat_append, Nat.shiftLeft_eq, Nat.mul_comm,
          ← Nat.two_pow_add_eq_or_of_lt hlo]
        omega
      rw [csum16Add, ih, BitVec.toNat_add, hword, wordSum16, Nat.mod_add_mod, Nat.add_assoc]
  | case2 b csum =>
      have hb := b.isLt
      rw [csum16Add, wordSum16, BitVec.toNat_add, BitVec.toNat_setWidth]
      omega
  | case3 csum =>
      rw [csum16Add, wordSum16, Nat.add_zero, Nat.mod_eq_of_lt csum.isLt]

lemma csum16Fold_toNat (csum : BitVec 32) :
    (csum16Fold csum).toNat = fold (2 ^ 16) csum.toNat := by
  induction csum using csum16Fold.induct with
  | case1 csum h ih =>
      have hle := (shift_ne_zero_iff csum).mp h
      rw [csum16Fold, if_pos h, ih, toNat_fold_step, fold_of_le (by decide) hle]
  | case2 csum h =>
      have hlt : ¬ 2 ^ 16 ≤ csum.toNat := fun hle => h ((shift_ne_zero_iff csum).mpr hle)
      rw [csum16Fold, if_neg h, fold_of_lt (not_le.mp hlt)]

/-- **The function folds the sum modulo `2 ^ 32`.** -/
theorem csum16_toNat (source : List Byte) :
    (csum16 source).toNat = fold (2 ^ 16) (wordSum16 source % 2 ^ 32) := by
  have hsum : (csum16Add source 0).toNat = wordSum16 source % 2 ^ 32 := by
    rw [csum16Add_toNat]
    exact congrArg (· % 2 ^ 32) (Nat.zero_add _)
  rw [csum16, BitVec.toNat_setWidth, csum16Fold_toNat, hsum,
    Nat.mod_eq_of_lt (fold_lt (by decide) _)]

/-- The carries out of the 32 bits are lost. The checksum is the sum with end-around carry if and
only if their number is a multiple of `2 ^ 16 - 1`, and not everything else is zero. -/
theorem csum16_eq_fold_iff (source : List Byte) :
    (csum16 source).toNat = fold (2 ^ 16) (wordSum16 source) ↔
      wordSum16 source / 2 ^ 32 % (2 ^ 16 - 1) = 0 ∧
        (wordSum16 source % 2 ^ 32 = 0 → wordSum16 source = 0) := by
  rw [csum16_toNat]
  exact fold_mod_eq_iff (by decide) (k := 2) _

lemma wordSum16_le (source : List Byte) :
    wordSum16 source ≤ (2 ^ 16 - 1) * ((source.length + 1) / 2) := by
  induction source using wordSum16.induct with
  | case1 lo hi source ih =>
      have hlo := lo.isLt
      have hhi := hi.isLt
      rw [wordSum16, List.length_cons, List.length_cons]
      omega
  | case2 b =>
      have hb := b.isLt
      rw [wordSum16, List.length_singleton]
      omega
  | case3 => exact Nat.zero_le _

/-- **No carry is lost in 131074 bytes.** -/
theorem csum16_of_length_le {source : List Byte} (h : source.length ≤ 131074) :
    (csum16 source).toNat = fold (2 ^ 16) (wordSum16 source) := by
  have hle := wordSum16_le source
  rw [csum16_toNat, Nat.mod_eq_of_lt (by omega)]

lemma wordSum16_replicate (b : Byte) (n : ℕ) :
    wordSum16 (List.replicate (2 * n) b) = n * (257 * b.toNat) := by
  induction n with
  | zero => rw [Nat.mul_zero, List.replicate_zero, wordSum16, Nat.zero_mul]
  | succ n ih =>
      rw [Nat.mul_succ, List.replicate_succ, List.replicate_succ, wordSum16, ih]
      ring

/-- One word more: 65538 words of ones. -/
theorem csum16_ff_fails :
    (csum16 (List.replicate (2 * 65538) 0xFF)).toNat = 0xFFFE ∧
      fold (2 ^ 16) (wordSum16 (List.replicate (2 * 65538) 0xFF)) = 0xFFFF := by
  have hsum : wordSum16 (List.replicate (2 * 65538) 0xFF) = 65538 * 65535 :=
    wordSum16_replicate 0xFF 65538
  refine ⟨?_, ?_⟩
  · rw [csum16_toNat, hsum, fold_of_lt (by norm_num)]
    norm_num
  · rw [hsum, fold_eq (by decide)]
    norm_num

end Ocoms
