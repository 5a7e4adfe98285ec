import Mathlib.Data.List.Sort

/-!
`qsort` with a comparison function.

* `Qsort` is a function that sorts by the comparison; it says nothing about the order of equal
  entries.
* `TotalPreorder.insertion`: there is one for every comparison that is a total preorder.
-/

namespace Ocoms

variable {α : Type*} {compare : α → α → ℤ}

/-- `qsort` with a comparison function. -/
structure Qsort (α : Type*) (compare : α → α → ℤ) where
  sort : List α → List α
  perm : ∀ l, (sort l).Perm l
  sorted : ∀ l, (sort l).Pairwise fun a b => compare a b ≤ 0

/-- The comparison is a total preorder: of two entries, one is not behind the other. -/
structure TotalPreorder (compare : α → α → ℤ) : Prop where
  total : ∀ a b, compare a b ≤ 0 ∨ compare b a ≤ 0
  trans : ∀ a b c, compare a b ≤ 0 → compare b c ≤ 0 → compare a c ≤ 0

/-- Insertion sort is a `qsort`. -/
def TotalPreorder.insertion (h : TotalPreorder compare) : Qsort α compare where
  sort := List.insertionSort fun a b => compare a b ≤ 0
  perm := List.perm_insertionSort _
  sorted l := by
    have htotal : Std.Total fun a b => compare a b ≤ 0 := ⟨h.total⟩
    have htrans : IsTrans α fun a b => compare a b ≤ 0 := ⟨h.trans⟩
    exact List.pairwise_insertionSort _ l

end Ocoms
