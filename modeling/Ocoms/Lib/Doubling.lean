import Mathlib.Algebra.Group.Nat.Defs
import Mathlib.Data.Nat.Find
import Mathlib.Order.Basic
import Ocoms.Lib.Loop

/-!
Capacities that grow by doubling, in machine words.

* `body M n`: a capacity below `n` is doubled modulo `M`.
* `FirstFit M n a k`: the loop from `a` ends after `k` rounds, and `loop_eq_some` says that it ends
  in no other way.
* `Fits M s n a`: a multiple of the capacity holds `n` items of `s` bytes, and its number of bytes
  is a machine word. `fits_iff` compares it with the capacity that the loop finds.
-/

namespace Ocoms.Doubling

variable {M n a k s : ℕ}

/-- A round of `while (capacity < n) capacity <<= 1`. -/
def body (M n a : ℕ) : ℕ ⊕ ℕ := if a < n then .inl (a * 2 % M) else .inr a

/-- The first `k` capacities are below `n`, the next one is not. -/
structure FirstFit (M n a k : ℕ) : Prop where
  below : ∀ j < k, a * 2 ^ j % M < n
  fits : n ≤ a * 2 ^ k % M

/-- The capacity after one more round. -/
lemma double_mod (M a k : ℕ) : a * 2 % M * 2 ^ k % M = a * 2 ^ (k + 1) % M := by
  rw [Nat.mod_mul_mod, Nat.mul_assoc, ← Nat.pow_succ']

lemma firstFit_zero (ha : a < M) : FirstFit M n a 0 ↔ n ≤ a := by
  constructor
  · intro h
    simpa [Nat.mod_eq_of_lt ha] using h.fits
  · intro h
    exact ⟨by omega, by simpa [Nat.mod_eq_of_lt ha] using h⟩

lemma firstFit_succ (ha : a < M) (han : a < n) :
    FirstFit M n a (k + 1) ↔ FirstFit M n (a * 2 % M) k := by
  constructor
  · intro h
    refine ⟨fun j hj => ?_, ?_⟩
    · rw [double_mod]
      exact h.below (j + 1) (by omega)
    · rw [double_mod]
      exact h.fits
  · intro h
    refine ⟨fun j hj => ?_, ?_⟩
    · cases j with
      | zero => simpa [Nat.mod_eq_of_lt ha] using han
      | succ j =>
          rw [← double_mod]
          exact h.below j (by omega)
    · rw [← double_mod]
      exact h.fits

/-- **The doubling loop**, with the capacity that it leaves. -/
theorem loop_eq_some {fuel b : ℕ} (ha : a < M) :
    loop (body M n) fuel a = some b ↔ ∃ k < fuel, FirstFit M n a k ∧ b = a * 2 ^ k % M := by
  induction fuel generalizing a with
  | zero => simp [loop]
  | succ fuel ih =>
      have hbody : body M n a = if a < n then .inl (a * 2 % M) else .inr a := rfl
      unfold loop
      by_cases han : a < n
      · rw [hbody, if_pos han, Sum.elim_inl, ih (Nat.mod_lt _ (by omega))]
        constructor
        · rintro ⟨k, hk, hfit, rfl⟩
          exact ⟨k + 1, by omega, (firstFit_succ ha han).2 hfit, double_mod M a k⟩
        · rintro ⟨k, hk, hfit, rfl⟩
          cases k with
          | zero =>
              have := (firstFit_zero ha).1 hfit
              omega
          | succ k =>
              exact ⟨k, by omega, (firstFit_succ ha han).1 hfit, (double_mod M a k).symm⟩
      · rw [hbody, if_neg han, Sum.elim_inr]
        constructor
        · intro h
          obtain rfl := Option.some.inj h
          exact ⟨0, by omega, (firstFit_zero ha).2 (by omega), by simp [Nat.mod_eq_of_lt ha]⟩
        · rintro ⟨k, hk, hfit, rfl⟩
          have hzero : k = 0 := by
            by_contra hne
            have := hfit.below 0 (by omega)
            rw [Nat.pow_zero, Nat.mul_one, Nat.mod_eq_of_lt ha] at this
            omega
          subst hzero
          simp [Nat.mod_eq_of_lt ha]

/-- From capacity 0 the loop does not end. -/
lemma not_firstFit_zero (hn : 0 < n) : ¬ FirstFit M n 0 k := by
  intro h
  have := h.fits
  simp at this
  omega

/-- A capacity that fits at all has a first one. -/
lemma exists_firstFit (h : n ≤ a * 2 ^ k % M) : ∃ j, FirstFit M n a j := by
  classical
  have hex : ∃ j, n ≤ a * 2 ^ j % M := ⟨k, h⟩
  refine ⟨Nat.find hex, fun j hj => ?_, Nat.find_spec hex⟩
  have := Nat.find_min hex hj
  omega

/-- Some multiple of the capacity is enough for `n` items, and its size is a machine word. For items
of one byte the capacity itself may have wrapped around. -/
def Fits (M s n a : ℕ) : Prop :=
  (∃ k, n ≤ a * 2 ^ k ∧ a * 2 ^ k * s < M) ∨ (s = 1 ∧ ∃ k, n ≤ a * 2 ^ k % M)

/-- Below half of the range, the capacities before the first one that fits have not wrapped. -/
lemma FirstFit.lt (h : FirstFit M n a k) (han : a < n) (hM : 2 * n ≤ M) {j : ℕ} (hj : j < k) :
    a * 2 ^ j < n := by
  induction j with
  | zero => simpa using han
  | succ j ih =>
      have hlt : a * 2 ^ (j + 1) < M := by
        have := ih (by omega)
        rw [Nat.pow_succ, ← Nat.mul_assoc]
        omega
      have := h.below (j + 1) hj
      rwa [Nat.mod_eq_of_lt hlt] at this

/-- The number of bytes of the first capacity that fits, where it has not wrapped around, is less
than twice what was asked for: after a wrap it is not enough. -/
lemma mul_lt_of_le_mod {p b : ℕ} (hb : b < M) (hp : p < 2 * b) (hle : b ≤ p % M) : p < M := by
  by_contra hge
  have hmod : p % M = p - M := by
    rw [Nat.mod_eq_sub_mod (by omega), Nat.mod_eq_of_lt (by omega)]
  omega

/-- The capacity that the loop leaves is a machine word, and so is its number of bytes. -/
lemma Fits.mul_lt (h : Fits M s n a) (hs : 0 < s) (ha : a < M) (hfit : FirstFit M n a k) :
    a * 2 ^ k % M * s < M := by
  obtain ⟨j, hle, hbytes⟩ | ⟨rfl, j, hle⟩ := h
  · have hlt : ∀ i, a * 2 ^ i ≤ a * 2 ^ j → a * 2 ^ i % M = a * 2 ^ i := fun i hi =>
      Nat.mod_eq_of_lt ((hi.trans (Nat.le_mul_of_pos_right _ hs)).trans_lt hbytes)
    have hkj : k ≤ j := by
      by_contra hgt
      have := hfit.below j (by omega)
      rw [hlt j le_rfl] at this
      omega
    have hmono : a * 2 ^ k ≤ a * 2 ^ j :=
      Nat.mul_le_mul_left a (Nat.pow_le_pow_right (by omega) hkj)
    rw [hlt k hmono]
    exact (Nat.mul_le_mul_right s hmono).trans_lt hbytes
  · rw [Nat.mul_one]
    exact Nat.mod_lt _ (by omega)

/-- Where some multiple fits, the loop ends. -/
lemma Fits.exists_firstFit (h : Fits M s n a) (hs : 0 < s) : ∃ k, FirstFit M n a k := by
  obtain ⟨k, hle, hbytes⟩ | ⟨-, k, hle⟩ := h
  · refine Doubling.exists_firstFit (k := k) ?_
    rwa [Nat.mod_eq_of_lt ((Nat.le_mul_of_pos_right _ hs).trans_lt hbytes)]
  · exact Doubling.exists_firstFit hle

/-- **The loop and the allocation behind it** succeed exactly when some multiple of the capacity
fits. -/
theorem fits_iff (hs : 0 < s) (ha : a < M) (han : a < n) (hn : n * s < M) :
    (∃ k, FirstFit M n a k ∧ n * s ≤ a * 2 ^ k % M * s % M) ↔ Fits M s n a := by
  constructor
  · rintro ⟨k, hfit, hle⟩
    by_cases hone : s = 1
    · exact .inr ⟨hone, k, hfit.fits⟩
    · have hM : 2 * n ≤ M := by
        have : n * 2 ≤ n * s := Nat.mul_le_mul_left n (by omega)
        omega
      obtain ⟨k, rfl⟩ : ∃ j, k = j + 1 := by
        refine ⟨k - 1, ?_⟩
        by_contra hne
        obtain rfl : k = 0 := by omega
        have := (firstFit_zero ha).1 hfit
        omega
      have hlt : a * 2 ^ (k + 1) < 2 * n := by
        have := hfit.lt han hM (Nat.lt_succ_self k)
        rw [Nat.pow_succ, ← Nat.mul_assoc]
        omega
      have hmod : a * 2 ^ (k + 1) % M = a * 2 ^ (k + 1) := Nat.mod_eq_of_lt (by omega)
      rw [hmod] at hle
      have hfits := hfit.fits
      rw [hmod] at hfits
      have hbytes : a * 2 ^ (k + 1) * s < 2 * (n * s) := by
        rw [← Nat.mul_assoc]
        exact Nat.mul_lt_mul_of_pos_right hlt hs
      exact .inl ⟨k + 1, hfits, mul_lt_of_le_mod hn hbytes hle⟩
  · intro h
    obtain ⟨k, hfit⟩ := h.exists_firstFit hs
    refine ⟨k, hfit, ?_⟩
    rw [Nat.mod_eq_of_lt (h.mul_lt hs ha hfit)]
    exact Nat.mul_le_mul_right s hfit.fits

end Ocoms.Doubling
