import Mathlib.Tactic

/-!
Greedy cuts of a list of weighted items.

* `fit w n xs` is the longest prefix of `xs` whose weight is at most `n`, `rest w n xs` what it
  leaves; `fit_eq` says that a prefix with nothing behind it that still fits is the greedy one.
* `pieces w ns xs` cuts one such prefix for each bound of `ns`, until nothing is left; together
  with what is `left` the pieces are `xs` (`pieces_flatten_append`), and each is the greedy
  prefix of what the ones before it leave (`getElem_pieces`).
-/

namespace Ocoms.Greedy

variable {α : Type*} (w : α → ℕ)

/-- The weight of a list. -/
def weight (xs : List α) : ℕ := (xs.map w).sum

@[simp] lemma weight_nil : weight w [] = 0 := rfl

@[simp] lemma weight_cons (x : α) (xs : List α) : weight w (x :: xs) = w x + weight w xs := by
  simp [weight]

@[simp] lemma weight_append (xs ys : List α) :
    weight w (xs ++ ys) = weight w xs + weight w ys := by simp [weight]

/-- Items that weigh something: a prefix is determined by its weight. -/
lemma append_inj_of_weight {as bs xs ys : List α} (hpos : ∀ x ∈ as ++ xs, 0 < w x)
    (h : as ++ xs = bs ++ ys) (hw : weight w as = weight w bs) : as = bs ∧ xs = ys := by
  induction as generalizing bs with
  | nil =>
      cases bs with
      | nil => exact ⟨rfl, h⟩
      | cons b bs =>
          have hb := hpos b (by rw [h]; simp)
          simp only [weight_nil, weight_cons] at hw
          omega
  | cons a as ih =>
      cases bs with
      | nil =>
          have ha := hpos a (by simp)
          simp only [weight_nil, weight_cons] at hw
          omega
      | cons b bs =>
          simp only [List.cons_append, List.cons.injEq] at h
          obtain ⟨rfl, htail⟩ := h
          simp only [weight_cons, Nat.add_left_cancel_iff] at hw
          obtain ⟨rfl, rfl⟩ := ih (fun x hx => hpos x (List.mem_cons_of_mem _ hx)) htail hw
          exact ⟨rfl, rfl⟩

/-- The longest prefix of weight at most `n`. -/
def fit : ℕ → List α → List α
  | _, [] => []
  | n, x :: xs => if w x ≤ n then x :: fit (n - w x) xs else []

/-- What the prefix leaves. -/
def rest (n : ℕ) (xs : List α) : List α := xs.drop (fit w n xs).length

@[simp] lemma fit_nil (n : ℕ) : fit w n [] = [] := by cases n <;> rfl

lemma fit_cons_of_le {n : ℕ} {x : α} (h : w x ≤ n) (xs : List α) :
    fit w n (x :: xs) = x :: fit w (n - w x) xs := by rw [fit, if_pos h]

lemma fit_cons_of_lt {n : ℕ} {x : α} (h : n < w x) (xs : List α) : fit w n (x :: xs) = [] := by
  rw [fit, if_neg (not_le.mpr h)]

lemma fit_append_rest (n : ℕ) (xs : List α) : fit w n xs ++ rest w n xs = xs := by
  induction xs generalizing n with
  | nil => simp [rest]
  | cons x xs ih =>
      by_cases h : w x ≤ n
      · have := ih (n - w x)
        rw [rest] at this ⊢
        rw [fit_cons_of_le w h, List.length_cons, List.drop_succ_cons, List.cons_append, this]
      · rw [rest, fit_cons_of_lt w (not_le.mp h)]
        rfl

lemma weight_fit_le (n : ℕ) (xs : List α) : weight w (fit w n xs) ≤ n := by
  induction xs generalizing n with
  | nil => simp
  | cons x xs ih =>
      by_cases h : w x ≤ n
      · have := ih (n - w x)
        rw [fit_cons_of_le w h, weight_cons]
        omega
      · rw [fit_cons_of_lt w (not_le.mp h)]
        simp

/-- A prefix that fits is part of the greedy one. -/
lemma fit_append {n : ℕ} {xs : List α} (h : weight w xs ≤ n) (ys : List α) :
    fit w n (xs ++ ys) = xs ++ fit w (n - weight w xs) ys := by
  induction xs generalizing n with
  | nil => simp
  | cons x xs ih =>
      rw [weight_cons] at h
      rw [List.cons_append, fit_cons_of_le w (by omega), ih (by omega), weight_cons,
        List.cons_append, Nat.sub_sub]

/-- The greedy prefix is the one behind which nothing fits. -/
lemma fit_eq (n : ℕ) (xs ys : List α) (h : weight w xs ≤ n)
    (hys : ∀ y zs, ys = y :: zs → n - weight w xs < w y) :
    fit w n (xs ++ ys) = xs ∧ rest w n (xs ++ ys) = ys := by
  have hfit : fit w n (xs ++ ys) = xs := by
    rw [fit_append w h]
    cases ys with
    | nil => simp
    | cons y zs => rw [fit_cons_of_lt w (hys y zs rfl), List.append_nil]
  exact ⟨hfit, by rw [rest, hfit, List.drop_left]⟩

/-- What comes behind the greedy prefix does not fit. -/
lemma lt_of_rest_eq_cons {n : ℕ} {x : α} {xs ys : List α} (h : rest w n xs = x :: ys) :
    n < weight w (fit w n xs) + w x := by
  by_contra hlt
  have hfit := fit_append w (weight_fit_le w n xs) (x :: ys)
  rw [← h, fit_append_rest, h, fit_cons_of_le w (by omega)] at hfit
  have hlen := congrArg List.length hfit
  simp at hlen

/-- The pieces cut by the bounds `ns`, until nothing is left. -/
def pieces : List ℕ → List α → List (List α)
  | [], _ => []
  | n :: ns, xs => fit w n xs :: (match rest w n xs with
    | [] => []
    | y :: ys => pieces ns (y :: ys))

/-- What the pieces leave. -/
def left (ns : List ℕ) (xs : List α) : List α := xs.drop (pieces w ns xs).flatten.length

lemma pieces_cons_of_rest {n : ℕ} {xs : List α} (h : rest w n xs = []) (ns : List ℕ) :
    pieces w (n :: ns) xs = [xs] := by
  have hfit := fit_append_rest w n xs
  rw [h, List.append_nil] at hfit
  rw [pieces, h, hfit]

lemma pieces_cons_of_ne {n : ℕ} {xs : List α} (h : rest w n xs ≠ []) (ns : List ℕ) :
    pieces w (n :: ns) xs = fit w n xs :: pieces w ns (rest w n xs) := by
  obtain ⟨y, ys, hr⟩ := List.exists_cons_of_ne_nil h
  rw [pieces, hr]

/-- The pieces together are a prefix. -/
lemma pieces_flatten_append (ns : List ℕ) (xs : List α) :
    (pieces w ns xs).flatten ++ left w ns xs = xs := by
  induction ns generalizing xs with
  | nil => rfl
  | cons n ns ih =>
      by_cases h : rest w n xs = []
      · simp [left, pieces_cons_of_rest w h]
      · have hih := ih (rest w n xs)
        rw [left, pieces_cons_of_ne w h, List.flatten_cons, List.length_append, List.append_assoc,
          ← List.drop_drop]
        rw [left] at hih
        exact (congrArg _ hih).trans (fit_append_rest w n xs)

lemma left_cons_of_ne {n : ℕ} {xs : List α} (h : rest w n xs ≠ []) (ns : List ℕ) :
    left w (n :: ns) xs = left w ns (rest w n xs) := by
  rw [left, left, pieces_cons_of_ne w h, List.flatten_cons, List.length_append, ← List.drop_drop]
  rfl

lemma length_pieces_le (ns : List ℕ) (xs : List α) : (pieces w ns xs).length ≤ ns.length := by
  induction ns generalizing xs with
  | nil => simp [pieces]
  | cons n ns ih =>
      by_cases h : rest w n xs = []
      · simp [pieces_cons_of_rest w h]
      · rw [pieces_cons_of_ne w h]
        simpa using ih _

/-- No piece is missing unless nothing is left. -/
lemma left_of_length_lt {ns : List ℕ} {xs : List α} (h : (pieces w ns xs).length < ns.length) :
    left w ns xs = [] := by
  induction ns generalizing xs with
  | nil => simp at h
  | cons n ns ih =>
      by_cases hr : rest w n xs = []
      · simp [left, pieces_cons_of_rest w hr]
      · rw [left_cons_of_ne w hr]
        rw [pieces_cons_of_ne w hr] at h
        exact ih (by simpa using h)

/-- Each piece is the greedy prefix of what the ones before it leave. -/
lemma getElem_pieces {ns : List ℕ} {xs : List α} {i : ℕ} (hi : i < (pieces w ns xs).length) :
    ∃ n, ns[i]? = some n ∧
      (pieces w ns xs)[i] = fit w n (xs.drop ((pieces w ns xs).take i).flatten.length) := by
  induction ns generalizing xs i with
  | nil => simp [pieces] at hi
  | cons n ns ih =>
      by_cases hr : rest w n xs = []
      · have hp := pieces_cons_of_rest w hr ns
        simp only [hp, List.length_singleton, Nat.lt_one_iff] at hi
        subst hi
        refine ⟨n, rfl, ?_⟩
        have hfit := fit_append_rest w n xs
        rw [hr, List.append_nil] at hfit
        simp [hp, hfit]
      · have hp := pieces_cons_of_ne w hr ns
        cases i with
        | zero => exact ⟨n, rfl, by simp [hp]⟩
        | succ i =>
            rw [hp, List.length_cons, Nat.add_lt_add_iff_right] at hi
            obtain ⟨m, hm, hfit⟩ := ih hi
            refine ⟨m, by simpa using hm, ?_⟩
            simp only [hp, List.getElem_cons_succ, List.take_succ_cons, List.flatten_cons,
              List.length_append, ← List.drop_drop]
            exact hfit

end Ocoms.Greedy
