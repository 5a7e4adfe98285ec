import Mathlib.Data.Nat.ModEq
import Mathlib.Data.Nat.Find
import Mathlib.Logic.Function.Basic
import Ocoms.Lib.Loop

/-!
Open addressing with linear probing, in a table of `n` cells.

* A position is a natural number that counts on past the end of the table; its cell is the remainder
  by `n`. `probe` is the loop that looks at the cells one after the other from a first one, and
  `First n stop start j` says that it stops at position `j`.
* `Chained n home cell` is the invariant: no empty cell lies between the first cell of an entry and
  the cell that holds it. `Chained.insert` and `Chained.not_mem` are the rules for an insertion and
  for an unsuccessful search.
* `Hole n home cell g p` is the state in the middle of a deletion: the cell of position `g` is the
  only one that breaks a chain, and the entries between `g` and `p` do not need it. It begins with
  `Hole.start`, goes on with `Hole.stay` or `Hole.move`, and `Hole.chained` ends it.
-/

namespace Ocoms.LinearProbing

open Function

variable {α : Type*} {n : ℕ}

/-! ### Positions -/

/-- Equal remainders are at least `n` apart. -/
lemma add_le_of_mod_eq {a b : ℕ} (h : a % n = b % n) (hlt : a < b) : a + n ≤ b := by
  have ha := Nat.div_add_mod a n
  have hb := Nat.div_add_mod b n
  have hdiv : a / n < b / n := by
    by_contra hge
    have := Nat.mul_le_mul_left n (Nat.le_of_not_lt hge)
    omega
  have hmul := Nat.mul_le_mul_left n hdiv
  rw [Nat.mul_succ] at hmul
  omega

/-- Less than `n` apart, equal remainders are those of equal positions. -/
lemma eq_of_mod_eq {a b : ℕ} (h : a % n = b % n) (hab : a < b + n) (hba : b < a + n) : a = b := by
  rcases Nat.lt_trichotomy a b with hlt | heq | hgt
  · have := add_le_of_mod_eq h hlt
    omega
  · exact heq
  · have := add_le_of_mod_eq h.symm hgt
    omega

/-- Each cell has a position among any `n` in a row. -/
lemma exists_position {i : ℕ} (hi : i < n) (start : ℕ) :
    ∃ j, start ≤ j ∧ j < start + n ∧ j % n = i := by
  have hdiv := Nat.div_add_mod start n
  have hmod : start % n < n := Nat.mod_lt _ (by omega)
  by_cases hle : start % n ≤ i
  · refine ⟨n * (start / n) + i, by omega, by omega, ?_⟩
    rw [Nat.mul_add_mod, Nat.mod_eq_of_lt hi]
  · refine ⟨n * (start / n + 1) + i, ?_, ?_, ?_⟩
    · rw [Nat.mul_succ]
      omega
    · rw [Nat.mul_succ]
      omega
    · rw [Nat.mul_add_mod, Nat.mod_eq_of_lt hi]

/-! ### The probe loop -/

/-- `if (i == capacity) { i = 0; }`. -/
def wrap (n i : ℕ) : ℕ := if i = n then 0 else i

lemma wrap_eq {i : ℕ} (hi : i ≤ n) : wrap n i = i % n := by
  unfold wrap
  split
  case isTrue h => rw [h, Nat.mod_self]
  case isFalse h => rw [Nat.mod_eq_of_lt (by omega)]

/-- A round of a loop over the cells. -/
def round (n : ℕ) (stop : ℕ → Bool) (i : ℕ) : ℕ ⊕ ℕ :=
  if stop (wrap n i) then .inr (wrap n i) else .inl (wrap n i + 1)

/-- `for (i = start; ; i += 1)`: the cell where the loop stops. -/
def probe (n : ℕ) (stop : ℕ → Bool) (fuel start : ℕ) : Option ℕ := loop (round n stop) fuel start

/-- From `start` on, the loop stops first at position `j`. -/
structure First (n : ℕ) (stop : ℕ → Bool) (start j : ℕ) : Prop where
  le : start ≤ j
  stops : stop (j % n) = true
  before : ∀ k, start ≤ k → k < j → stop (k % n) = false

variable {stop : ℕ → Bool}

lemma first_self {start j : ℕ} (h : stop (start % n) = true) : First n stop start j ↔ j = start := by
  constructor
  · intro hfirst
    by_contra hne
    have hle := hfirst.le
    have := hfirst.before start le_rfl (by omega)
    rw [h] at this
    cases this
  · rintro rfl
    exact ⟨le_rfl, h, fun k hk hlt => by omega⟩

lemma first_succ {start j : ℕ} (h : stop (start % n) = false) :
    First n stop start j ↔ First n stop (start + 1) j := by
  constructor
  · intro hfirst
    have hne : start ≠ j := by
      rintro rfl
      rw [hfirst.stops] at h
      cases h
    have hle := hfirst.le
    exact ⟨by omega, hfirst.stops, fun k hk hlt => hfirst.before k (by omega) hlt⟩
  · intro hfirst
    have hle := hfirst.le
    refine ⟨by omega, hfirst.stops, fun k hk hlt => ?_⟩
    rcases Nat.eq_or_lt_of_le hk with rfl | hgt
    · exact h
    · exact hfirst.before k hgt hlt

/-- **The probe loop** stops at the first position with the property. -/
theorem probe_eq_some {fuel s start r : ℕ} (hn : 0 < n) (hs : s ≤ n) (hmod : s % n = start % n) :
    probe n stop fuel s = some r ↔ ∃ j, First n stop start j ∧ j < start + fuel ∧ r = j % n := by
  induction fuel generalizing s start with
  | zero =>
      constructor
      · intro h
        cases h
      · rintro ⟨j, hfirst, hlt, -⟩
        have := hfirst.le
        omega
  | succ fuel ih =>
      have hround : round n stop s =
          if stop (start % n) then .inr (start % n) else .inl (start % n + 1) := by
        rw [round, wrap_eq hs, hmod]
      unfold probe loop
      rw [hround]
      cases hstop : stop (start % n) with
      | true =>
          simp only [if_true, Sum.elim_inr, Option.some.injEq]
          constructor
          · rintro rfl
            exact ⟨start, (first_self hstop).2 rfl, by omega, rfl⟩
          · rintro ⟨j, hfirst, -, rfl⟩
            rw [(first_self hstop).1 hfirst]
      | false =>
          have hlt : start % n < n := Nat.mod_lt _ hn
          have hnext : (start % n + 1) % n = (start + 1) % n := Nat.mod_add_mod start n 1
          simp only [Bool.false_eq_true, if_false, Sum.elim_inl]
          rw [← probe, ih (by omega) hnext]
          constructor
          · rintro ⟨j, hfirst, hj, rfl⟩
            exact ⟨j, (first_succ hstop).2 hfirst, by omega, rfl⟩
          · rintro ⟨j, hfirst, hj, rfl⟩
            exact ⟨j, (first_succ hstop).1 hfirst, by omega, rfl⟩

/-- Where the loop can stop at all it stops within `n` rounds. -/
lemma exists_first {i : ℕ} (hi : i < n) (hstop : stop i = true) (start : ℕ) :
    ∃ j, First n stop start j ∧ j < start + n := by
  classical
  obtain ⟨j, hle, hlt, hmod⟩ := exists_position hi start
  have hex : ∃ j, start ≤ j ∧ stop (j % n) = true := ⟨j, hle, hmod ▸ hstop⟩
  obtain ⟨hfind, hfound⟩ := Nat.find_spec hex
  refine ⟨Nat.find hex, ⟨hfind, hfound, fun k hk hlt => ?_⟩, ?_⟩
  · have := Nat.find_min hex hlt
    rw [← Bool.not_eq_true]
    exact fun h => this ⟨hk, h⟩
  · have := Nat.find_min' hex ⟨hle, hmod ▸ hstop⟩
    omega

/-! ### Chains -/

/-- From `start` one comes to the cell `i` without an empty cell on the way. -/
def Reaches (n : ℕ) (cell : ℕ → Option α) (start i : ℕ) : Prop :=
  ∃ j, start ≤ j ∧ j % n = i ∧ ∀ k, start ≤ k → k < j → cell (k % n) ≠ none

/-- Each entry is reached from its first cell. -/
def Chained (n : ℕ) (home : α → ℕ) (cell : ℕ → Option α) : Prop :=
  ∀ i x, i < n → cell i = some x → Reaches n cell (home x) i

variable {home : α → ℕ} {cell : ℕ → Option α}

lemma update_ne_none {i k : ℕ} {x : α} (h : cell k ≠ none) : update cell i (some x) k ≠ none := by
  by_cases hk : k = i
  · rw [hk, update_self]
    exact Option.some_ne_none x
  · rwa [update_of_ne hk]

lemma Chained.empty : Chained n home fun _ => none := by
  intro i x _ h
  cases h

/-- **Insertion** of an entry where the loop from its first cell stops, on an empty cell or on an
entry that is replaced. -/
theorem Chained.insert {x : α} {j : ℕ} (h : Chained n home cell)
    (hfirst : First n stop (home x) j) (hstop : ∀ i, stop i = false → cell i ≠ none) :
    Chained n home (update cell (j % n) (some x)) := by
  intro i y hi hy
  by_cases hij : i = j % n
  · subst hij
    rw [update_self, Option.some.injEq] at hy
    subst hy
    exact ⟨j, hfirst.le, rfl, fun k hk hlt => update_ne_none (hstop _ (hfirst.before k hk hlt))⟩
  · rw [update_of_ne hij] at hy
    obtain ⟨m, hle, hmod, hfull⟩ := h i y hi hy
    exact ⟨m, hle, hmod, fun k hk hlt => update_ne_none (hfull k hk hlt)⟩

/-- **An unsuccessful search**: behind the empty cell there is no entry that the loop looks for. -/
theorem Chained.not_mem {start j : ℕ} (h : Chained n home cell) (hfirst : First n stop start j)
    (hnone : cell (j % n) = none) {i : ℕ} {x : α} (hi : i < n) (hx : cell i = some x)
    (hhome : home x = start) : stop i = false := by
  subst hhome
  obtain ⟨m, hle, rfl, hfull⟩ := h i x hi hx
  have hfirst_le := hfirst.le
  rcases Nat.lt_trichotomy m j with hlt | rfl | hgt
  · exact hfirst.before m hle hlt
  · rw [hnone] at hx
    cases hx
  · exact absurd hnone (hfull j hfirst_le hgt)

/-! ### Deletion -/

/-- In the middle of a deletion. -/
structure Hole (n : ℕ) (home : α → ℕ) (cell : ℕ → Option α) (g p : ℕ) : Prop where
  lt : g < p
  le : p ≤ g + n
  free : cell (g % n) = none
  full : ∀ k, g < k → k < p → cell (k % n) ≠ none
  chained : ∀ i x, i < n → cell i = some x →
    ∃ j, home x ≤ j ∧ j % n = i ∧
      ∀ k, home x ≤ k → k < j → cell (k % n) ≠ none ∨ k % n = g % n
  settled : ∀ m x, g < m → m < p → cell (m % n) = some x → ∃ h, g < h ∧ h ≤ m ∧ h % n = home x % n

variable {g p : ℕ}

/-- The deletion begins. -/
lemma Hole.start (h : Chained n home cell) (hn : 0 < n) :
    Hole n home (update cell (g % n) none) g (g + 1) where
  lt := Nat.lt_succ_self g
  le := by omega
  free := update_self ..
  full k hk hlt := by omega
  chained i y hi hy := by
    have hne : i ≠ g % n := by
      rintro rfl
      rw [update_self] at hy
      cases hy
    rw [update_of_ne hne] at hy
    obtain ⟨j, hle, hmod, hfull⟩ := h i y hi hy
    refine ⟨j, hle, hmod, fun k hk hlt => ?_⟩
    by_cases hk' : k % n = g % n
    · exact .inr hk'
    · rw [update_of_ne hk']
      exact .inl (hfull k hk hlt)
  settled m x hm hlt := by omega

/-- The entry of position `p` stays: from its first cell the loop comes back to it. -/
lemma Hole.stay {x : α} {j : ℕ} (h : Hole n home cell g p) (hx : cell (p % n) = some x)
    (hfirst : First n stop (home x) j) (hstop : ∀ i, stop i = false → cell i ≠ none)
    (hj : j % n = p % n) : Hole n home cell g (p + 1) := by
  have hlt := h.lt
  have hle := h.le
  have hgp : p ≠ g + n := by
    rintro rfl
    rw [Nat.add_mod_right, h.free] at hx
    cases hx
  have hj_le := hfirst.le
  -- Otherwise the loop would have come past the hole.
  have hshort : j - home x < p - g := by
    by_contra hge
    have hback : (j - (p - g)) % n = g % n := by
      have hsum : (j - (p - g) + (p - g)) % n = (g + (p - g)) % n := by
        rw [Nat.sub_add_cancel (by omega), Nat.add_sub_cancel' (by omega)]
        exact hj
      exact Nat.ModEq.add_right_cancel' _ hsum
    have := hstop _ (hfirst.before (j - (p - g)) (by omega) (by omega))
    rw [hback] at this
    exact this h.free
  refine ⟨by omega, by omega, h.free, fun k hk hkp => ?_, h.chained, fun m y hm hmp hy => ?_⟩
  · rcases Nat.lt_succ_iff_lt_or_eq.1 hkp with hlt' | rfl
    · exact h.full k hk hlt'
    · rw [hx]
      exact Option.some_ne_none x
  · rcases Nat.lt_succ_iff_lt_or_eq.1 hmp with hlt' | rfl
    · exact h.settled m y hm hlt' hy
    · rw [hx, Option.some.injEq] at hy
      subst hy
      refine ⟨m - (j - home x), by omega, by omega, ?_⟩
      have hsum : (m - (j - home x) + (j - home x)) % n = (home x + (j - home x)) % n := by
        rw [Nat.sub_add_cancel (by omega), Nat.add_sub_cancel' hj_le]
        exact hj.symm
      exact Nat.ModEq.add_right_cancel' _ hsum

/-- Where the loop stops before it comes back, it stops at the hole. -/
lemma Hole.mod_eq {x : α} {j : ℕ} (h : Hole n home cell g p) (hn : 0 < n)
    (hx : cell (p % n) = some x) (hfirst : First n stop (home x) j)
    (hstop : stop (p % n) = true) (hnone : cell (j % n) = none) : j % n = g % n := by
  obtain ⟨m, hle, hmod, hfull⟩ := h.chained _ x (Nat.mod_lt _ hn) hx
  have hjm : j < m := by
    by_contra hge
    rcases Nat.eq_or_lt_of_le (Nat.le_of_not_lt hge) with rfl | hlt
    · rw [hmod, hx] at hnone
      cases hnone
    · have := hfirst.before m hle hlt
      rw [hmod, hstop] at this
      cases this
  rcases hfull j hfirst.le hjm with hne | heq
  · exact absurd hnone hne
  · exact heq

/-- The entry of position `p` moves into the hole, which is then at `p`. -/
lemma Hole.move {x : α} {j : ℕ} (h : Hole n home cell g p) (hn : 0 < n)
    (hx : cell (p % n) = some x) (hfirst : First n stop (home x) j)
    (hstop : ∀ i, stop i = false → cell i ≠ none) (hj : j % n = g % n) :
    Hole n home (update (update cell (g % n) (some x)) (p % n) none) p (p + 1) := by
  have hgp : g % n ≠ p % n := by
    intro heq
    rw [← heq, h.free] at hx
    cases hx
  refine ⟨by omega, by omega, update_self .., fun k hk hkp => by omega, fun i y hi hy => ?_,
    fun m y hm hmp => by omega⟩
  have hfull : ∀ k, cell k ≠ none ∨ k = g % n →
      update (update cell (g % n) (some x)) (p % n) none k ≠ none ∨ k = p % n := by
    intro k hk
    by_cases hkp : k = p % n
    · exact .inr hkp
    · rw [update_of_ne hkp]
      rcases hk with hne | rfl
      · exact .inl (update_ne_none hne)
      · rw [update_self]
        exact .inl (Option.some_ne_none x)
  have hip : i ≠ p % n := by
    rintro rfl
    rw [update_self] at hy
    cases hy
  rw [update_of_ne hip] at hy
  by_cases hig : i = g % n
  · subst hig
    rw [update_self, Option.some.injEq] at hy
    subst hy
    exact ⟨j, hfirst.le, hj, fun k hk hlt => hfull _ (.inl (hstop _ (hfirst.before k hk hlt)))⟩
  · rw [update_of_ne hig] at hy
    obtain ⟨m, hle, hmod, hchain⟩ := h.chained i y hi hy
    exact ⟨m, hle, hmod, fun k hk hlt => hfull _ (hchain k hk hlt)⟩

/-- **The deletion ends** at an empty cell: nothing behind it needs the hole. -/
theorem Hole.chained_of_none (h : Hole n home cell g p) (hp : cell (p % n) = none) :
    Chained n home cell := by
  intro i x hi hx
  obtain ⟨j, hle, hmod, hchain⟩ := h.chained i x hi hx
  by_cases hhole : ∀ k, home x ≤ k → k < j → k % n ≠ g % n
  · exact ⟨j, hle, hmod, fun k hk hlt => (hchain k hk hlt).resolve_right (hhole k hk hlt)⟩
  · push Not at hhole
    obtain ⟨k, hk, hkj, hkg⟩ := hhole
    -- The position of the entry between the hole and `p`.
    obtain ⟨m, hgm, hmn, hm⟩ := exists_position hi (g + 1)
    have hmg : m ≠ g + n := by
      rintro rfl
      rw [Nat.add_mod_right] at hm
      rw [← hm, h.free] at hx
      cases hx
    have hmp : m < p := by
      by_contra hge
      have hlt := h.lt
      have hne : p ≠ m := by
        rintro rfl
        rw [hm, hx] at hp
        cases hp
      have hshift : (k + (m - g)) % n = m % n := by
        have := Nat.ModEq.add_right (m - g) hkg
        rwa [Nat.add_sub_cancel' (by omega)] at this
      have hjm : k + (m - g) ≤ j := by
        by_contra hgt
        have := add_le_of_mod_eq (hmod.trans (hm.symm.trans hshift.symm)) (Nat.lt_of_not_le hgt)
        omega
      have hpk : (k + (p - g)) % n = p % n := by
        have := Nat.ModEq.add_right (p - g) hkg
        rwa [Nat.add_sub_cancel' (by omega)] at this
      rcases hchain (k + (p - g)) (by omega) (by omega) with hfull | heq
      · rw [hpk] at hfull
        exact hfull hp
      · have := add_le_of_mod_eq (heq.symm.trans hpk) hlt
        omega
    obtain ⟨s, hgs, hsm, hs⟩ := h.settled m x hgm hmp (hm ▸ hx)
    refine ⟨home x + (m - s), by omega, ?_, fun t ht hlt => ?_⟩
    · have := Nat.ModEq.add_right (m - s) hs
      rw [Nat.add_sub_cancel' hsm] at this
      rw [← hm]
      exact this.symm
    · have := Nat.ModEq.add_right (t - home x) hs
      rw [Nat.add_sub_cancel' ht] at this
      rw [← show (s + (t - home x)) % n = t % n from this]
      exact h.full _ (by omega) (by omega)

end Ocoms.LinearProbing
