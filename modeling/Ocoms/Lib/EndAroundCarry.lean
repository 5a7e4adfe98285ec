import Mathlib.Data.Nat.ModEq
import Mathlib.Tactic.Common

/-!
End-around carry: digits that do not fit are added at the low end.

* `fold B n` adds the carry of `n` over the base `B` to its low digit, until there is no carry.
* `fold_eq`: nothing but the residue of `n` modulo `B - 1` is kept, with zero kept apart from
  the other multiples of `B - 1`.
* `fold_mod_eq_iff`: what is lost when the sum is taken modulo `M` first.
-/

namespace Ocoms.EndAroundCarry

/-- Folding over a base makes a number smaller. -/
lemma mod_add_div_lt {B n : ℕ} (hB : 2 ≤ B) (hn : B ≤ n) : n % B + n / B < n := by
  have hdiv : 0 < n / B := Nat.div_pos hn (by omega)
  have hsplit : n % B + B * (n / B) = n := Nat.mod_add_div n B
  have hmul : 2 * (n / B) ≤ B * (n / B) := Nat.mul_le_mul_right _ hB
  omega

/-- The carry of `n` over `B` is added to its low digit until there is none. -/
def fold (B n : ℕ) : ℕ :=
  if 2 ≤ B ∧ B ≤ n then fold B (n % B + n / B) else n
  termination_by n
  decreasing_by exact mod_add_div_lt (And.left ‹_›) (And.right ‹_›)

lemma fold_of_lt {B n : ℕ} (h : n < B) : fold B n = n := by
  rw [fold, if_neg (by omega)]

lemma fold_of_le {B n : ℕ} (hB : 2 ≤ B) (h : B ≤ n) : fold B n = fold B (n % B + n / B) := by
  rw [fold, if_pos ⟨hB, h⟩]

lemma base_modEq_one {B : ℕ} (hB : 2 ≤ B) : B ≡ 1 [MOD B - 1] := by
  have hmod : 1 + (B - 1) ≡ 1 [MOD B - 1] := Nat.add_modEq_right
  rwa [Nat.add_sub_cancel' (by omega : 1 ≤ B)] at hmod

/-- Adding the carry keeps the residue modulo `B - 1`. -/
lemma mod_add_div_modEq {B : ℕ} (hB : 2 ≤ B) (n : ℕ) : n % B + n / B ≡ n [MOD B - 1] := by
  calc n % B + n / B = n % B + 1 * (n / B) := by rw [Nat.one_mul]
    _ ≡ n % B + B * (n / B) [MOD B - 1] := ((base_modEq_one hB).symm.mul_right _).add_left _
    _ = n := Nat.mod_add_div n B

/-- **What folding keeps**: zero, and otherwise the residue in `1, …, B - 1`. -/
theorem fold_eq {B : ℕ} (hB : 2 ≤ B) (n : ℕ) :
    fold B n = if n = 0 then 0 else (n - 1) % (B - 1) + 1 := by
  induction n using Nat.strong_induction_on with
  | _ n ih =>
      rcases Nat.lt_or_ge n B with hlt | hge
      · rw [fold_of_lt hlt]
        split_ifs with hzero
        · exact hzero
        · rw [Nat.mod_eq_of_lt (by omega)]
          omega
      · have hdiv : 0 < n / B := Nat.div_pos hge (by omega)
        have hmod := mod_add_div_modEq hB n
        rw [fold_of_le hB hge, ih _ (mod_add_div_lt hB hge), if_neg (by omega), if_neg (by omega)]
        have hpred : n % B + n / B - 1 ≡ n - 1 [MOD B - 1] := by
          refine Nat.ModEq.add_right_cancel' 1 ?_
          rwa [Nat.sub_add_cancel (by omega), Nat.sub_add_cancel (by omega)]
        exact congrArg (· + 1) hpred

lemma fold_lt {B : ℕ} (hB : 2 ≤ B) (n : ℕ) : fold B n < B := by
  rw [fold_eq hB]
  split_ifs with hzero
  · omega
  · have hmod := Nat.mod_lt (n - 1) (show B - 1 > 0 by omega)
    omega

/-- Folding makes the same of two numbers if they have the same residue, and are both zero or
both not. -/
lemma fold_eq_fold_iff {B : ℕ} (hB : 2 ≤ B) {m n : ℕ} :
    fold B m = fold B n ↔ m ≡ n [MOD B - 1] ∧ (m = 0 ↔ n = 0) := by
  rw [fold_eq hB, fold_eq hB]
  rcases Nat.eq_zero_or_pos m with rfl | hm <;> rcases Nat.eq_zero_or_pos n with rfl | hn
  · simp [Nat.ModEq]
  · simp [hn.ne']
  · simp [hm.ne']
  · rw [if_neg hm.ne', if_neg hn.ne', Nat.add_right_cancel_iff]
    have hshift : m - 1 ≡ n - 1 [MOD B - 1] ↔ m ≡ n [MOD B - 1] := by
      conv_rhs => rw [← Nat.sub_add_cancel hm, ← Nat.sub_add_cancel hn]
      exact ⟨fun h => h.add_right 1, fun h => Nat.ModEq.add_right_cancel' 1 h⟩
    simp only [hm.ne', hn.ne', iff_self, and_true]
    exact hshift

/-- **What is lost modulo `M`**, when `M` is a power of the base: nothing, if the number of lost
carries is a multiple of `B - 1` and not everything is lost. -/
theorem fold_mod_eq_iff {B k : ℕ} (hB : 2 ≤ B) (n : ℕ) :
    fold B (n % B ^ k) = fold B n ↔
      n / B ^ k % (B - 1) = 0 ∧ (n % B ^ k = 0 → n = 0) := by
  have hpow : B ^ k ≡ 1 [MOD B - 1] := by
    have h := (base_modEq_one hB).pow k
    rwa [Nat.one_pow] at h
  have hsum : n ≡ n % B ^ k + n / B ^ k [MOD B - 1] := by
    calc n = n % B ^ k + B ^ k * (n / B ^ k) := (Nat.mod_add_div n _).symm
      _ ≡ n % B ^ k + 1 * (n / B ^ k) [MOD B - 1] := (hpow.mul_right _).add_left _
      _ = n % B ^ k + n / B ^ k := by rw [Nat.one_mul]
  have hlost : n % B ^ k ≡ n [MOD B - 1] ↔ n / B ^ k % (B - 1) = 0 := by
    constructor
    · intro h
      have hcancel : n % B ^ k + 0 ≡ n % B ^ k + n / B ^ k [MOD B - 1] := h.trans hsum
      have hzero := Nat.ModEq.add_left_cancel' _ hcancel
      rw [Nat.ModEq, Nat.zero_mod] at hzero
      exact hzero.symm
    · intro h
      have hzero : n / B ^ k ≡ 0 [MOD B - 1] := by rw [Nat.ModEq, h, Nat.zero_mod]
      exact (hsum.trans (hzero.add_left _)).symm
  rw [fold_eq_fold_iff hB, hlost]
  refine and_congr_right fun _ => ⟨fun h => h.mp, fun h => ⟨h, ?_⟩⟩
  rintro rfl
  exact Nat.zero_mod _

end Ocoms.EndAroundCarry
