import Mathlib.Data.Nat.Basic
import Mathlib.Order.Fin.Basic
import Mathlib.Tactic.Common

/-!
Strings of bytes as strings of bits, the least significant bit of each byte first.

* `bit bs k` is bit `k`; behind the end of the string all bits are clear.
* `bit_set`, `bit_clear` and `bit_append_replicate` say what writing one bit, and growing with
  zeros, does to all bits.
* `or_add_one`: adding one to a byte and joining it with itself sets its lowest clear bit.
-/

namespace Ocoms.ByteBits

/-- A byte. -/
abbrev Octet := BitVec 8

/-- Bit `k` of a string. -/
def bit (bs : List Octet) (k : ℕ) : Bool := (bs[k / 8]?.getD 0#8).getLsbD (k % 8)

lemma bit_of_length_le {bs : List Octet} {k : ℕ} (h : 8 * bs.length ≤ k) : bit bs k = false := by
  rw [bit, List.getElem?_eq_none (by omega), Option.getD_none, BitVec.getLsbD_zero]

lemma lt_of_bit {bs : List Octet} {k : ℕ} (h : bit bs k = true) : k < 8 * bs.length := by
  by_contra hle
  rw [bit_of_length_le (not_lt.mp hle)] at h
  cases h

lemma bit_replicate_zero (n k : ℕ) : bit (List.replicate n 0#8) k = false := by
  rw [bit, List.getElem?_replicate]
  split
  · rw [Option.getD_some, BitVec.getLsbD_zero]
  · rw [Option.getD_none, BitVec.getLsbD_zero]

/-- Zeros behind a string. -/
lemma bit_append_replicate (bs : List Octet) (n k : ℕ) :
    bit (bs ++ List.replicate n 0#8) k = bit bs k := by
  rcases Nat.lt_or_ge (k / 8) bs.length with hlt | hge
  · rw [bit, bit, List.getElem?_append_left hlt]
  · have hzero := bit_replicate_zero n (8 * (k / 8 - bs.length) + k % 8)
    rw [bit, Nat.mul_add_div (by decide), Nat.mul_add_mod, Nat.div_eq_of_lt (Nat.mod_lt k (by decide)),
      Nat.add_zero, Nat.mod_mod] at hzero
    rw [bit, List.getElem?_append_right hge, hzero, bit_of_length_le (by omega)]

/-- One byte is replaced. -/
lemma bit_setByte {bs : List Octet} {i : ℕ} (hi : i < bs.length) (b : Octet) (k : ℕ) :
    bit (bs.set i b) k = if k / 8 = i then b.getLsbD (k % 8) else bit bs k := by
  rw [bit, List.getElem?_set, bit]
  by_cases h : i = k / 8
  · rw [if_pos h, if_pos hi, if_pos h.symm]
    rfl
  · rw [if_neg h, if_neg (Ne.symm h)]

lemma getLsbD_mask {o j : ℕ} (hj : j < 8) :
    (1#8 <<< o).getLsbD j = decide (j = o) := by
  rw [BitVec.getLsbD_shiftLeft, BitVec.getLsbD_one, decide_eq_true hj, Bool.true_and]
  by_cases h : j < o
  · rw [decide_eq_true h, decide_eq_false h.ne]
    rfl
  · rw [decide_eq_false h, Bool.not_false, Bool.true_and, decide_eq_true (by decide : 0 < 8),
      Bool.true_and]
    exact decide_eq_decide.mpr (by omega)

/-- Setting bit `k`. -/
lemma bit_set {bs : List Octet} {k : ℕ} (hk : k < 8 * bs.length) (j : ℕ) :
    bit (bs.set (k / 8) (bs[k / 8]?.getD 0#8 ||| 1#8 <<< (k % 8))) j
      = (bit bs j || decide (j = k)) := by
  rw [bit_setByte (by omega)]
  by_cases h : j / 8 = k / 8
  · rw [if_pos h, BitVec.getLsbD_or, getLsbD_mask (by omega), bit, h]
    congr 1
    exact decide_eq_decide.mpr (by omega)
  · have hne : j ≠ k := fun hjk => h (by rw [hjk])
    rw [if_neg h, decide_eq_false hne, Bool.or_false]

/-- Clearing bit `k`. -/
lemma bit_clear {bs : List Octet} {k : ℕ} (hk : k < 8 * bs.length) (j : ℕ) :
    bit (bs.set (k / 8) (bs[k / 8]?.getD 0#8 &&& ~~~(1#8 <<< (k % 8)))) j
      = (bit bs j && !decide (j = k)) := by
  rw [bit_setByte (by omega)]
  by_cases h : j / 8 = k / 8
  · have hmask : (~~~(1#8 <<< (k % 8))).getLsbD (j % 8) = !decide (j = k) := by
      rw [BitVec.getLsbD_not, getLsbD_mask (by omega),
        decide_eq_true (by omega : j % 8 < 8), Bool.true_and]
      congr 1
      exact decide_eq_decide.mpr (by omega)
    rw [if_pos h, BitVec.getLsbD_and, hmask, bit, h]
  · have hne : j ≠ k := fun hjk => h (by rw [hjk])
    rw [if_neg h, decide_eq_false hne, Bool.not_false, Bool.and_true]

/-! ### The lowest clear bit -/

lemma or_add_one_aux : ∀ b : Octet, ∀ p : Fin 8, b.getLsbD p = false →
    (∀ i : Fin 8, i < p → b.getLsbD i = true) →
      ∀ j : Fin 8, (b ||| (b + 1#8)).getLsbD j = (b.getLsbD j || decide (j = p)) := by
  decide +kernel

/-- **The lowest clear bit of a byte** is the one that `b ||| (b + 1#8)` sets. -/
lemma or_add_one {b : Octet} {p : ℕ} (hp : p < 8) (hclear : b.getLsbD p = false)
    (hlow : ∀ i < p, b.getLsbD i = true) {j : ℕ} (hj : j < 8) :
    (b ||| (b + 1#8)).getLsbD j = (b.getLsbD j || decide (j = p)) := by
  have h := or_add_one_aux b ⟨p, hp⟩ hclear (fun i hi => hlow i hi) ⟨j, hj⟩
  rw [h]
  congr 1
  exact decide_eq_decide.mpr Fin.mk_eq_mk

end Ocoms.ByteBits
