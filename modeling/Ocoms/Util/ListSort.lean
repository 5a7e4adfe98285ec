import Ocoms.Lib.Qsort
import Ocoms.Util.List

/-!
Sorting a doubly linked list: `ocoms_list_sort`.

* `Lists.sort` takes the items out of the list one by one, and puts them in again in the order of
  `qsort`.
* `Lists.Refines.removeAll` and `Lists.Refines.appendAll` are the two loops.
* `list_sort_sorts`: the items and the ring are kept, and without memory nothing is changed.
-/

namespace Ocoms

/-- `OCOMS_SUCCESS` and `OCOMS_ERR_OUT_OF_RESOURCE`. -/
inductive ListRc
  | success | outOfResource
  deriving DecidableEq, Repr

variable {L ι : Type*} [DecidableEq L] [DecidableEq ι]

namespace Lists

/-- The loop of `ocoms_list_sort` that fills the array. The counter of a list whose sentinel is
taken out is wrong, and there is no result. -/
def removeAll : ℕ → Lists L ι → L → Option (Lists L ι × List ι)
  | 0, _, _ => none
  | fuel + 1, h, list =>
      match h.removeFirst list with
      | (h, none) => some (h, [])
      | (_, some (.sentinel _)) => none
      | (h, some (.item item)) => (removeAll fuel h list).map fun r => (r.1, item :: r.2)

/-- The loop of `ocoms_list_sort` that fills the list. -/
def appendAll (h : Lists L ι) (list : L) (items : List ι) : Lists L ι :=
  items.foldl (fun h item => h.append list item) h

/-- `ocoms_list_sort`; `malloc` says whether there is memory for so many pointers. -/
def sort (malloc : ℕ → Bool) {compare : ι → ι → ℤ} (qsort : Qsort ι compare) (fuel : ℕ)
    (h : Lists L ι) (list : L) : Option (Lists L ι × ListRc) :=
  if h.length list = 0 then some (h, .success)
  else if !malloc (h.length list) then some (h, .outOfResource)
  else (h.removeAll fuel list).map fun (h, items) =>
    (h.appendAll list (qsort.sort items), .success)

variable {h : Lists L ι} {σ : L → List ι}

/-! ### The loops -/

/-- All items are taken out, in their order. -/
lemma Refines.removeAll (hr : h.Refines σ) (list : L) {fuel : ℕ} (hfuel : (σ list).length < fuel) :
    ∃ h', h.removeAll fuel list = some (h', σ list) ∧ h'.Refines (Function.update σ list []) := by
  induction fuel generalizing h σ with
  | zero => exact absurd hfuel (Nat.not_lt_zero _)
  | succ fuel ih =>
      obtain ⟨hr₁, hitem⟩ := hr.removeFirst list
      rw [Lists.removeAll]
      generalize h.removeFirst list = w at hr₁ hitem ⊢
      obtain ⟨h₁, item⟩ := w
      dsimp only at hr₁ hitem
      subst hitem
      cases hl : σ list with
      | nil =>
          rw [hl] at hr₁
          exact ⟨h₁, rfl, hr₁⟩
      | cons i is =>
          rw [hl, List.tail_cons] at hr₁
          rw [hl, List.length_cons] at hfuel
          have hshort : (Function.update σ list is list).length < fuel := by
            rw [Function.update_self]
            exact Nat.lt_of_succ_lt_succ hfuel
          obtain ⟨h', hrest, hr'⟩ := ih hr₁ hshort
          rw [Function.update_self] at hrest
          rw [Function.update_idem] at hr'
          refine ⟨h', ?_, hr'⟩
          dsimp only [List.head?_cons, Option.map_some]
          rw [hrest]
          rfl

/-- Items that are on no list come to the end of a list, in their order. -/
lemma Refines.appendAll (hr : h.Refines σ) (list : L) {items : List ι} (hnodup : items.Nodup)
    (hnew : ∀ i ∈ items, ∀ l, i ∉ σ l) :
    (h.appendAll list items).Refines (Function.update σ list (σ list ++ items)) := by
  induction items generalizing h σ with
  | nil =>
      rw [List.append_nil, Function.update_eq_self]
      exact hr
  | cons i is ih =>
      obtain ⟨hi, his⟩ := List.nodup_cons.mp hnodup
      have hr₁ := hr.append list (hnew i List.mem_cons_self)
      -- the others are on no list behind the first
      have hnew₁ : ∀ j ∈ is, ∀ l, j ∉ Function.update σ list (σ list ++ [i]) l := by
        intro j hj l hmem
        have hold := hnew j (List.mem_cons_of_mem _ hj)
        by_cases hl : l = list
        · rw [hl, Function.update_self] at hmem
          rcases List.mem_append.mp hmem with hmem | hmem
          · exact hold list hmem
          · exact hi (List.mem_singleton.mp hmem ▸ hj)
        · rw [Function.update_of_ne hl] at hmem
          exact hold l hmem
      have hr₂ := ih hr₁ his hnew₁
      rw [Function.update_self, Function.update_idem, List.append_assoc] at hr₂
      exact hr₂

/-- Taking all items out and putting them in again in another order. -/
lemma Refines.reorder (hr : h.Refines σ) {list : L} {items : List ι} (hperm : items.Perm (σ list))
    {h' : Lists L ι} (hr' : h'.Refines (Function.update σ list [])) :
    (h'.appendAll list items).Refines (Function.update σ list items) := by
  have hnew : ∀ i ∈ items, ∀ l, i ∉ Function.update σ list [] l := by
    intro i hi l hmem
    by_cases hl : l = list
    · rw [hl, Function.update_self] at hmem
      exact List.not_mem_nil hmem
    · rw [Function.update_of_ne hl] at hmem
      exact hr.disjoint l list hl i hmem (hperm.mem_iff.mp hi)
  have hall := hr'.appendAll list (hperm.nodup_iff.mpr (hr.nodup list)) hnew
  rwa [Function.update_self, List.nil_append, Function.update_idem] at hall

end Lists

/-- **`ocoms_list_sort`** ends. It leaves the same items on the list, in an order that does not
decrease, on a ring that is intact, and no other list is changed; without memory for the array
nothing is. -/
theorem list_sort_sorts {h : Lists L ι} {σ : L → List ι} (hr : h.Refines σ) (list : L)
    (malloc : ℕ → Bool) {compare : ι → ι → ℤ} (qsort : Qsort ι compare) {fuel : ℕ}
    (hfuel : (σ list).length < fuel) :
    ∃ h' rc, h.sort malloc qsort fuel list = some (h', rc) ∧
      (rc = .success → ∃ items, items.Perm (σ list) ∧
        (items.Pairwise fun a b => compare a b ≤ 0) ∧
        h'.Refines (Function.update σ list items) ∧
        h'.Shows (Function.update σ list items)) ∧
      (rc = .outOfResource → h' = h) ∧
      (rc = .success ↔ σ list = [] ∨ malloc (σ list).length = true) := by
  rw [Lists.sort, hr.length]
  by_cases hempty : σ list = []
  · refine ⟨h, .success, if_pos (by rw [hempty]; rfl), fun _ => ⟨[], ?_, .nil, ?_⟩,
      (fun h => by cases h), iff_of_true rfl (Or.inl hempty)⟩
    · rw [hempty]
    · rw [← hempty, Function.update_eq_self]
      exact ⟨hr, hr.shows⟩
  rw [if_neg fun hzero => hempty (List.eq_nil_of_length_eq_zero hzero)]
  cases hmalloc : malloc (σ list).length with
  | false =>
      refine ⟨h, .outOfResource, rfl, (fun h => by cases h), fun _ => rfl, iff_of_false ?_ ?_⟩
      · exact ListRc.noConfusion
      · rintro (hnil | htrue)
        · exact hempty hnil
        · cases htrue
  | true =>
      obtain ⟨h', hremove, hr'⟩ := hr.removeAll list hfuel
      have hsorted := hr.reorder (qsort.perm (σ list)) hr'
      refine ⟨h'.appendAll list (qsort.sort (σ list)), .success, ?_, fun _ => ⟨_, qsort.perm _,
        qsort.sorted _, hsorted, hsorted.shows⟩, (fun h => by cases h), iff_of_true rfl (Or.inr rfl)⟩
      rw [hremove]
      rfl

/-- The difference of two numbers compares them. -/
lemma totalPreorder_sub : TotalPreorder fun a b : ℕ => (a : ℤ) - b :=
  ⟨fun a b => by omega, fun a b c => by omega⟩

/-- Three items, of which the first goes behind the others. -/
theorem list_sort_sorts_three :
    ∃ h h' : Lists Unit ℕ, h.Refines (fun _ => [2, 0, 1]) ∧
      h.sort (fun _ => true) totalPreorder_sub.insertion 4 () = some (h', .success) ∧
      ∃ items : List ℕ, items.Perm [2, 0, 1] ∧ (items.Pairwise fun a b : ℕ => (a : ℤ) - b ≤ 0) ∧
        h'.Shows fun _ => items := by
  have hr : (((Lists.construct.append () 2).append () 0).append () 1 : Lists Unit ℕ).Refines
      fun _ => [2, 0, 1] := by
    have h₁ := Lists.refines_construct.append () (i := 2) (fun _ => List.not_mem_nil)
    have h₂ := h₁.append () (i := 0) (by decide)
    exact h₂.append () (i := 1) (by decide)
  obtain ⟨h', rc, hsort, hsuccess, -, hrc⟩ :=
    list_sort_sorts hr () (fun _ => true) totalPreorder_sub.insertion (Nat.lt_succ_self 3)
  obtain rfl := hrc.mpr (Or.inr rfl)
  obtain ⟨items, hperm, hpair, -, hshows⟩ := hsuccess rfl
  exact ⟨_, h', hr, hsort, items, hperm, hpair, hshows⟩

end Ocoms
