import Mathlib.Data.Finset.Card
import Mathlib.Data.List.Range
import Mathlib.Data.List.Pairwise
import Mathlib.Order.Interval.Finset.Nat

/-!
Slabs: alignment, and slots of one size in a block of memory.

* `roundUp x a` is the least multiple of `a` that is not below `x`. With a power of two it can be
  computed with a mask, `and_mask`.
* `Slab.Apart n a b`: the `n` bytes at `a` and the `n` bytes at `b` do not overlap.
* `Slab.slot base stride i` is the address of a slot. Its lemmas say that slots are aligned, do not
  overlap, and lie in a block with room for all of them.
* `length_lt_of_dvd` bounds the number of aligned addresses.
-/

namespace Ocoms

/-! ### Rounding up -/

/-- The least multiple of `a` that is at least `x`. -/
def roundUp (x a : ℕ) : ℕ := (x + (a - 1)) / a * a

lemma dvd_roundUp (x a : ℕ) : a ∣ roundUp x a := Dvd.intro_left _ rfl

lemma le_roundUp {a : ℕ} (ha : 0 < a) (x : ℕ) : x ≤ roundUp x a := by
  have hdiv := Nat.div_add_mod (x + (a - 1)) a
  have hmod := Nat.mod_lt (x + (a - 1)) ha
  rw [Nat.mul_comm] at hdiv
  rw [roundUp]
  omega

lemma roundUp_le (x a : ℕ) : roundUp x a ≤ x + (a - 1) := Nat.div_mul_le_self _ _

/-- A mask of the upper bits rounds down. -/
lemma and_mask {w k m : ℕ} (hk : k ≤ w) (hm : m < 2 ^ w) :
    m &&& (2 ^ w - 1 - (2 ^ k - 1)) = m / 2 ^ k * 2 ^ k := by
  have hpos := Nat.two_pow_pos k
  have hle := Nat.pow_le_pow_right Nat.two_pos hk
  have hmask : 2 ^ w - 1 - (2 ^ k - 1) = 2 ^ w - ((2 ^ k - 1) + 1) := by omega
  refine Nat.eq_of_testBit_eq fun i => ?_
  rw [hmask, Nat.testBit_and, Nat.testBit_two_pow_sub_succ (by omega), Nat.testBit_two_pow_sub_one,
    Nat.testBit_mul_two_pow, Nat.testBit_div_two_pow]
  by_cases hik : k ≤ i
  · rw [Nat.sub_add_cancel hik]
    by_cases hiw : i < w
    · simp [hik, hiw]
    · have hzero : m.testBit i = false := Nat.testBit_lt_two_pow
        (hm.trans_le (Nat.pow_le_pow_right Nat.two_pos (Nat.le_of_not_lt hiw)))
      simp [hzero]
  · simp [hik, Nat.lt_of_not_le hik]

/-- A number has no bit in common with its complement. -/
lemma and_complement {w m : ℕ} (hm : m < 2 ^ w) : m &&& (2 ^ w - 1 - m) = 0 := by
  have hcomplement : 2 ^ w - 1 - m = 2 ^ w - (m + 1) := by omega
  refine Nat.eq_of_testBit_eq fun i => ?_
  rw [hcomplement, Nat.testBit_and, Nat.testBit_two_pow_sub_succ hm, Nat.zero_testBit]
  cases m.testBit i <;> simp

/-! ### Slots -/

namespace Slab

/-- The `n` bytes at `a` and the `n` bytes at `b` do not overlap. -/
def Apart (n a b : ℕ) : Prop := a + n ≤ b ∨ b + n ≤ a

instance (n a b : ℕ) : Decidable (Apart n a b) := inferInstanceAs (Decidable (_ ∨ _))

lemma Apart.symm {n a b : ℕ} (h : Apart n a b) : Apart n b a := Or.symm h

lemma Apart.ne {n a b : ℕ} (hn : 0 < n) (h : Apart n a b) : a ≠ b := by
  rcases h with h | h <;> omega

/-- The address of the slot `i`. -/
def slot (base stride i : ℕ) : ℕ := base + i * stride

section Slot

variable {base stride i j n : ℕ}

@[simp]
lemma slot_zero : slot base stride 0 = base := by rw [slot, Nat.zero_mul, Nat.add_zero]

lemma slot_succ : slot base stride (i + 1) = slot (base + stride) stride i := by
  rw [slot, slot, Nat.succ_mul]
  omega

lemma le_slot (base stride i : ℕ) : base ≤ slot base stride i := Nat.le_add_right _ _

lemma dvd_slot {a : ℕ} (hbase : a ∣ base) (hstride : a ∣ stride) : a ∣ slot base stride i :=
  Nat.dvd_add hbase (Dvd.dvd.mul_left hstride i)

/-- A slot ends in front of the next ones. -/
lemma slot_add_le (base stride : ℕ) (h : i < j) : slot base stride i + stride ≤ slot base stride j := by
  have hmul : (i + 1) * stride ≤ j * stride := Nat.mul_le_mul_right _ h
  rw [Nat.succ_mul] at hmul
  rw [slot, slot]
  omega

lemma slot_add_le_end (base stride : ℕ) (h : i < n) :
    slot base stride i + stride ≤ base + n * stride := slot_add_le base stride h

end Slot

end Slab

/-- Aligned addresses below a bound, all different and none of them null. -/
lemma length_lt_of_dvd {l : List ℕ} {d n : ℕ} (hn : 0 < n) (hnodup : l.Nodup)
    (h : ∀ x ∈ l, d ∣ x ∧ 0 < x ∧ x < n * d) : l.length < n := by
  have hd (x : ℕ) (hx : x ∈ l) : 0 < d := Nat.pos_of_dvd_of_pos (h x hx).1 (h x hx).2.1
  have hinj : Set.InjOn (· / d) (l.toFinset : Set ℕ) := by
    intro x hx y hy hxy
    rw [Finset.mem_coe, List.mem_toFinset] at hx hy
    rw [← Nat.div_mul_cancel (h x hx).1, ← Nat.div_mul_cancel (h y hy).1]
    exact congrArg (· * d) hxy
  have hsub : l.toFinset.image (· / d) ⊆ Finset.Ico 1 n := by
    intro q hq
    obtain ⟨x, hx, rfl⟩ := Finset.mem_image.mp hq
    rw [List.mem_toFinset] at hx
    obtain ⟨hdvd, hpos, hlt⟩ := h x hx
    rw [Finset.mem_Ico]
    exact ⟨Nat.div_pos (Nat.le_of_dvd hpos hdvd) (hd x hx), Nat.div_lt_of_lt_mul (by
      rwa [Nat.mul_comm])⟩
  have hcard := Finset.card_le_card hsub
  rw [Finset.card_image_of_injOn hinj, List.toFinset_card_of_nodup hnodup, Nat.card_Ico] at hcard
  omega

end Ocoms
