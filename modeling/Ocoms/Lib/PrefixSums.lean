import Mathlib.Tactic

/-!
Sums of the first entries of a list.

* `CountsTo xs n r` says that `r` is the number of first entries of `xs` with the sum `n`, or `-1`
  if there is none. Of positive entries there is at most one such number (`CountsTo.unique`).
* A list and a longer one that starts with it count alike up to the sum of the shorter one
  (`CountsTo.of_prefix`); lists with the same sums start alike (`prefix_of_sums`).
-/

namespace Ocoms.PrefixSums

/-- `r` first entries have the sum `n`, or `r` is `-1` and no number of first entries has. -/
def CountsTo (xs : List ℕ) (n : ℕ) (r : ℤ) : Prop :=
  (∃ k ≤ xs.length, (xs.take k).sum = n ∧ r = k) ∨ (∀ k ≤ xs.length, (xs.take k).sum ≠ n) ∧ r = -1

variable {xs ys : List ℕ}

lemma sum_take_mono (xs : List ℕ) {i j : ℕ} (h : i ≤ j) : (xs.take i).sum ≤ (xs.take j).sum := by
  obtain ⟨k, rfl⟩ := Nat.exists_eq_add_of_le h
  rw [List.take_add, List.sum_append]
  exact Nat.le_add_right _ _

lemma sum_take_lt (hpos : ∀ x ∈ xs, 0 < x) {i j : ℕ} (h : i < j) (hj : j ≤ xs.length) :
    (xs.take i).sum < (xs.take j).sum := by
  have hi : i < xs.length := by omega
  calc (xs.take i).sum < (xs.take i).sum + xs[i] :=
        Nat.lt_add_of_pos_right (hpos _ (List.getElem_mem hi))
    _ = (xs.take (i + 1)).sum := (List.sum_take_succ xs i hi).symm
    _ ≤ (xs.take j).sum := sum_take_mono xs h

lemma sum_take_inj (hpos : ∀ x ∈ xs, 0 < x) {i j : ℕ} (hi : i ≤ xs.length) (hj : j ≤ xs.length)
    (h : (xs.take i).sum = (xs.take j).sum) : i = j := by
  rcases lt_trichotomy i j with hlt | heq | hlt
  · have := sum_take_lt hpos hlt hj
    omega
  · exact heq
  · have := sum_take_lt hpos hlt hi
    omega

lemma sum_take_replicate {k m : ℕ} (c : ℕ) (h : k ≤ m) (xs : List ℕ) :
    ((List.replicate m c ++ xs).take k).sum = k * c := by
  rw [List.take_append_of_le_length (by simpa using h), List.take_replicate, min_eq_left h]
  simp

lemma sum_take_replicate_add (m c k : ℕ) (xs : List ℕ) :
    ((List.replicate m c ++ xs).take (m + k)).sum = m * c + (xs.take k).sum := by
  have htake : (List.replicate m c ++ xs).take (m + k) = List.replicate m c ++ xs.take k := by
    simp [List.take_append, List.take_replicate]
  rw [htake, List.sum_append]
  simp

/-- The first entries of a list that is repeated. -/
lemma sum_take_cycle (xs : List ℕ) (q r : ℕ) :
    ((List.replicate (q + 1) xs).flatten.take (q * xs.length + r)).sum
      = q * xs.sum + (xs.take r).sum := by
  induction q with
  | zero => simp
  | succ q ih =>
      have hlen : (q + 1) * xs.length + r = xs.length + (q * xs.length + r) := by ring
      rw [List.replicate_succ, List.flatten_cons, hlen, List.take_length_add_append,
        List.sum_append, ih]
      ring

/-- There is at most one such number. -/
lemma CountsTo.unique (hpos : ∀ x ∈ xs, 0 < x) {n : ℕ} {r r' : ℤ} (h : CountsTo xs n r)
    (h' : CountsTo xs n r') : r = r' := by
  rcases h with ⟨k, hk, hsum, rfl⟩ | ⟨hnone, rfl⟩
  · rcases h' with ⟨k', hk', hsum', rfl⟩ | ⟨hnone', -⟩
    · rw [sum_take_inj hpos hk hk' (hsum.trans hsum'.symm)]
    · exact absurd hsum (hnone' k hk)
  · rcases h' with ⟨k', hk', hsum', -⟩ | ⟨-, rfl⟩
    · exact absurd hsum' (hnone k' hk')
    · rfl

/-- Up to its sum, the start of a list counts as the list. -/
lemma CountsTo.of_prefix (hpos : ∀ y ∈ ys, 0 < y) (h : xs <+: ys) {n : ℕ} (hn : n ≤ xs.sum)
    {r : ℤ} (hr : CountsTo ys n r) : CountsTo xs n r := by
  obtain ⟨zs, rfl⟩ := h
  have htake : ∀ k ≤ xs.length, (xs ++ zs).take k = xs.take k := fun k hk =>
    List.take_append_of_le_length hk
  rcases hr with ⟨k, hk, hsum, rfl⟩ | ⟨hnone, rfl⟩
  · rcases Nat.lt_or_ge xs.length k with hlt | hle
    · -- more entries have a larger sum
      have hmore := sum_take_lt hpos hlt hk
      rw [List.take_left] at hmore
      omega
    · exact Or.inl ⟨k, hle, by rw [← htake k hle, hsum], rfl⟩
  · refine Or.inr ⟨fun k hk => ?_, rfl⟩
    rw [← htake k hk]
    exact hnone k (by rw [List.length_append]; omega)

/-- A list with the sums of positive entries starts with them. -/
lemma prefix_of_sums (hpos : ∀ x ∈ xs, 0 < x)
    (h : ∀ k ≤ xs.length, (ys.take k).sum = (xs.take k).sum) : xs <+: ys := by
  induction xs generalizing ys with
  | nil => exact List.nil_prefix
  | cons x xs ih =>
      have hx := hpos x List.mem_cons_self
      have hone := h 1 (by simp)
      cases ys with
      | nil => simp at hone; omega
      | cons y ys =>
          obtain rfl : y = x := by simpa using hone
          refine List.cons_prefix_cons.mpr ⟨rfl, ih (fun z hz => hpos z (List.mem_cons_of_mem _ hz))
            fun k hk => ?_⟩
          have hk' := h (k + 1) (by simpa using hk)
          simpa using hk'

end Ocoms.PrefixSums
