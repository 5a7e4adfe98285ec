import Mathlib.Data.List.Basic
import Mathlib.Data.List.Induction
import Mathlib.Tactic.Common

/-!
Loops over the cells of an array.

* An array is the list of its cells. `write` stores to one, `none` where there is none; `resize` is
  `realloc`, and the cells it adds hold a given value.
* `moveDown` copies cells one by one towards the start of the array, from the first one on,
  `moveUp` towards its end, from the last one on; `store` writes a list of values one by one.
* `moveDown_append`, `moveUp_append` and `store_append` say what a whole loop does to the parts of
  an array.
-/

namespace Ocoms.Cells

variable {α : Type*}

/-- One cell is written. -/
def write (cells : List α) (i : ℕ) (x : α) : Option (List α) :=
  if i < cells.length then some (cells.set i x) else none

/-- The array with `n` cells. -/
def resize (fill : α) (cells : List α) (n : ℕ) : List α :=
  cells.take n ++ List.replicate (n - cells.length) fill

/-- `n` cells from `src` on are copied to `dst`, in ascending order. -/
def moveDown : ℕ → ℕ → ℕ → List α → Option (List α)
  | 0, _, _, cells => some cells
  | n + 1, dst, src, cells => do
      let x ← cells[src]?
      let cells ← write cells dst x
      moveDown n (dst + 1) (src + 1) cells

/-- `n` cells from `src` on are copied to `dst`, in descending order. -/
def moveUp : ℕ → ℕ → ℕ → List α → Option (List α)
  | 0, _, _, cells => some cells
  | n + 1, dst, src, cells => do
      let x ← cells[src + n]?
      let cells ← write cells (dst + n) x
      moveUp n dst src cells

/-- The values are written from `dst` on. -/
def store : List α → ℕ → List α → Option (List α)
  | [], _, cells => some cells
  | x :: xs, dst, cells => do
      let cells ← write cells dst x
      store xs (dst + 1) cells

lemma write_append (pre : List α) (x y : α) (post : List α) :
    write (pre ++ x :: post) pre.length y = some (pre ++ y :: post) := by
  have hlt : pre.length < (pre ++ x :: post).length := by
    rw [List.length_append, List.length_cons]
    omega
  rw [write, if_pos hlt, List.set_append_right _ _ (Nat.le_refl _), Nat.sub_self, List.set_cons_zero]

lemma length_resize (fill : α) (cells : List α) (n : ℕ) : (resize fill cells n).length = n := by
  rw [resize, List.length_append, List.length_take, List.length_replicate]
  omega

/-- Cells in front of the new end stay. -/
lemma resize_append (fill : α) (pre post : List α) (n : ℕ) :
    resize fill (pre ++ post) (pre.length + n) = pre ++ resize fill post n := by
  have hadded : pre.length + n - (pre.length + post.length) = n - post.length := by omega
  rw [resize, resize, List.take_length_add_append, List.length_append, hadded, List.append_assoc]

/-- The read of a cell between two parts. -/
lemma getElem?_append_cons (pre : List α) (x : α) (post : List α) :
    (pre ++ x :: post)[pre.length]? = some x := by
  rw [List.getElem?_append_right (Nat.le_refl _), Nat.sub_self, List.getElem?_cons_zero]

/-- **A block is moved down** over the gap in front of it. -/
lemma moveDown_append (pre gap block post : List α) :
    moveDown block.length pre.length (pre.length + gap.length) (pre ++ (gap ++ (block ++ post)))
      = some (pre ++ (block ++ (gap ++ (block ++ post)).drop block.length)) := by
  induction block generalizing pre gap with
  | nil => rfl
  | cons x block ih =>
      have hread : (pre ++ (gap ++ (x :: block ++ post)))[pre.length + gap.length]? = some x := by
        have h := getElem?_append_cons (pre ++ gap) x (block ++ post)
        rwa [List.length_append, List.append_assoc] at h
      rw [List.length_cons, moveDown, hread, Option.bind_eq_bind, Option.bind_some]
      cases gap with
      | nil =>
          have hrest := ih (pre ++ [x]) []
          simp only [List.length_append, List.length_singleton, List.length_nil, Nat.add_zero,
            List.nil_append, List.append_assoc, List.singleton_append] at hrest
          simp only [List.nil_append, List.cons_append, List.length_nil, Nat.add_zero,
            write_append, Option.bind_eq_bind, Option.bind_some, hrest, List.drop_succ_cons]
      | cons g gap =>
          have hrest := ih (pre ++ [x]) (gap ++ [x])
          simp only [List.length_append, List.length_singleton, List.append_assoc,
            List.singleton_append] at hrest
          have hsrc : pre.length + (g :: gap).length + 1 = pre.length + 1 + (gap.length + 1) := by
            rw [List.length_cons]
            omega
          simp only [List.cons_append, write_append, Option.bind_eq_bind, Option.bind_some,
            List.drop_succ_cons, hsrc, hrest]

/-- **A block is moved up** over the gap behind it. -/
lemma moveUp_append (pre block gap post : List α) :
    moveUp block.length (pre.length + gap.length) pre.length (pre ++ (block ++ (gap ++ post)))
      = some (pre ++ ((block ++ gap).take gap.length ++ (block ++ post))) := by
  induction block using List.reverseRecOn generalizing gap post with
  | nil =>
      simp only [List.nil_append, List.take_length]
      rfl
  | append_singleton block x ih =>
      have hread : (pre ++ (block ++ [x] ++ (gap ++ post)))[pre.length + block.length]? = some x := by
        have h := getElem?_append_cons (pre ++ block) x (gap ++ post)
        simpa only [List.length_append, List.append_assoc, List.singleton_append] using h
      rw [List.length_append, List.length_singleton, moveUp, hread, Option.bind_eq_bind,
        Option.bind_some]
      rcases List.eq_nil_or_concat' gap with rfl | ⟨gap, y, rfl⟩
      · have hwrite := write_append (pre ++ block) x x post
        have hrest := ih [] (x :: post)
        simp only [List.length_append, List.append_assoc] at hwrite
        simp only [List.length_nil, Nat.add_zero, List.nil_append, List.append_nil, List.take_zero]
          at hrest
        simp only [List.length_nil, Nat.add_zero, List.nil_append, List.append_nil, List.take_zero,
          List.append_assoc, List.singleton_append, hwrite, Option.bind_eq_bind, Option.bind_some,
          hrest]
      · have hwrite := write_append (pre ++ (block ++ (x :: gap))) y x post
        have hrest := ih (x :: gap) (x :: post)
        have hpos : pre.length + (gap ++ [y]).length + block.length
            = (pre ++ (block ++ (x :: gap))).length := by
          simp only [List.length_append, List.length_cons, List.length_nil]
          omega
        have hcells : pre ++ (block ++ [x] ++ (gap ++ [y] ++ post))
            = pre ++ (block ++ (x :: gap)) ++ y :: post := by simp
        have hlen : (gap ++ [y]).length = (x :: gap).length := by simp
        have htake : (block ++ [x] ++ (gap ++ [y])).take (x :: gap).length
            = (block ++ x :: gap).take (x :: gap).length := by
          have hsplit : block ++ [x] ++ (gap ++ [y]) = (block ++ x :: gap) ++ [y] := by simp
          rw [hsplit, List.take_append_of_le_length]
          rw [List.length_append]
          omega
        rw [hpos, hcells, hwrite, Option.bind_eq_bind, Option.bind_some, hlen, htake]
        simp only [List.append_assoc, List.cons_append] at hrest ⊢
        rw [hrest]
        simp

/-- **The values replace as many cells.** -/
lemma store_append (pre old xs post : List α) (h : old.length = xs.length) :
    store xs pre.length (pre ++ (old ++ post)) = some (pre ++ (xs ++ post)) := by
  induction xs generalizing pre old with
  | nil =>
      obtain rfl : old = [] := List.length_eq_zero_iff.mp h
      rfl
  | cons x xs ih =>
      cases old with
      | nil => cases h
      | cons o old =>
          have hrest := ih (pre ++ [x]) old (Nat.succ.inj h)
          simp only [List.length_append, List.length_singleton, List.append_assoc,
            List.singleton_append] at hrest
          rw [store, List.cons_append, write_append, Option.bind_eq_bind, Option.bind_some, hrest]
          rfl

end Ocoms.Cells
