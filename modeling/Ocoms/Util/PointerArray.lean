import Mathlib.Data.Int.Notation
import Mathlib.Data.List.Basic
import Mathlib.Tactic.Common

/-!
The growing array of pointers: `ocoms_pointer_array.c`.

* `PointerArray.add` stores a pointer in the lowest free slot; `PointerArray.growTable` doubles
  the table up to its maximum.
* `PointerArray.Holds t xs` says that nothing but `xs` was added to the table and nothing was
  taken out. `PointerArray.Holds.add` says that the next pointer gets the next index, or that the
  table is as large as it may be.
-/

namespace Ocoms

/-- `ocoms_pointer_array_t`. The empty list of slots is the table that is not allocated. -/
structure PointerArray (α : Type*) where
  lowestFree : ℕ
  numberFree : ℤ
  maxSize : ℕ
  blockSize : ℕ
  addr : List (Option α)

/-- `TABLE_GROW`. -/
def tableGrow : ℕ := 2

/-- `OCOMS_FORTRAN_HANDLE_MAX`. -/
def fortranHandleMax : ℕ := 128

namespace PointerArray

variable {α : Type*}

/-- The field `size`. -/
def size (t : PointerArray α) : ℕ := t.addr.length

/-- `ocoms_pointer_array_init`, with a positive first allocation. -/
def init (initialAllocation maxSize blockSize : ℕ) : Option (PointerArray α) :=
  if maxSize < blockSize then none
  else
    let n := if 0 < initialAllocation then initialAllocation else blockSize
    some
      { lowestFree := 0, numberFree := n, maxSize := maxSize, blockSize := blockSize,
        addr := List.replicate n none }

/-- `grow_table`. -/
def growTable (t : PointerArray α) (soft hard : ℕ) : Option (PointerArray α) :=
  if t.maxSize < soft ∧ t.maxSize < hard then none
  else
    let newSize := if t.maxSize < soft then hard else soft
    if t.maxSize ≤ newSize then none
    else some
      { t with
        numberFree := t.numberFree + ((newSize : ℤ) - t.size)
        addr := t.addr.take newSize ++ List.replicate (newSize - t.size) none }

/-- The first free slot from `i` on. -/
def firstFree (addr : List (Option α)) (i : ℕ) : Option ℕ :=
  ((addr.drop i).findIdx? Option.isNone).map (· + i)

/-- The part of `ocoms_pointer_array_add` behind the growth. -/
def place (t : PointerArray α) (ptr : α) : Option (ℕ × PointerArray α) :=
  let index := t.lowestFree
  if index < t.size then
    let addr := t.addr.set index (some ptr)
    let numberFree := t.numberFree - 1
    let lowestFree :=
      if 0 < numberFree then (firstFree addr (index + 1)).getD index else addr.length
    some (index, { t with addr, numberFree, lowestFree })
  else none

/-- `ocoms_pointer_array_add`: the index, and the table. -/
def add (t : PointerArray α) (ptr : α) : Option (ℕ × PointerArray α) :=
  if t.numberFree = 0 then
    (t.growTable (if t.size = 0 then 1 else t.size * tableGrow) fortranHandleMax).bind
      fun t => t.place ptr
  else t.place ptr

/-- `ocoms_pointer_array_get_item`. -/
def getItem (t : PointerArray α) (index : ℕ) : Option α := t.addr[index]?.join

/-- Writes through the pointer in a slot. -/
def modifyItem (t : PointerArray α) (index : ℕ) (f : α → α) : PointerArray α :=
  { t with addr := t.addr.modify index (Option.map f) }

lemma getItem_modifyItem (t : PointerArray α) (i k : ℕ) (f : α → α) :
    (t.modifyItem i f).getItem k = if i = k then (t.getItem k).map f else t.getItem k := by
  rw [getItem, getItem, modifyItem, List.getElem?_modify]
  split
  · cases t.addr[k]? with
    | none => rfl
    | some slot => cases slot <;> rfl
  · cases t.addr[k]? <;> rfl

lemma getItem_modifyItem_self {t : PointerArray α} {i : ℕ} {x : α} (h : t.getItem i = some x)
    (f : α → α) : (t.modifyItem i f).getItem i = some (f x) := by
  rw [getItem_modifyItem, if_pos rfl, h, Option.map_some]

lemma getItem_modifyItem_of_ne (t : PointerArray α) {i k : ℕ} (h : i ≠ k) (f : α → α) :
    (t.modifyItem i f).getItem k = t.getItem k := by
  rw [getItem_modifyItem, if_neg h]

lemma modifyItem_modifyItem (t : PointerArray α) (i : ℕ) (f g : α → α) :
    (t.modifyItem i f).modifyItem i g = t.modifyItem i (g ∘ f) := by
  rw [modifyItem, modifyItem, modifyItem, List.modify_modify_eq, Option.map_comp_map]

/-- The pointers `xs` were added to the table, and none was taken out; `free` slots are left. -/
structure Holds (t : PointerArray α) (xs : List α) (free : ℕ) : Prop where
  addr : t.addr = xs.map some ++ List.replicate free none
  numberFree : t.numberFree = free
  lowestFree : t.lowestFree = xs.length
  allocated : t.addr ≠ []

variable {t t' : PointerArray α} {xs : List α} {free : ℕ}

lemma holds_init {n maxSize blockSize : ℕ} (hn : 0 < n) (hmax : blockSize ≤ maxSize) :
    ∃ t : PointerArray α, init n maxSize blockSize = some t ∧ t.Holds [] n := by
  have hrun : init n maxSize blockSize = some (⟨0, n, maxSize, blockSize, List.replicate n none⟩ :
      PointerArray α) := by
    rw [init, if_neg (Nat.not_lt.mpr hmax), if_pos hn]
  refine ⟨_, hrun, ⟨rfl, rfl, rfl, ?_⟩⟩
  rw [Ne, List.replicate_eq_nil_iff]
  exact Nat.ne_of_gt hn

lemma Holds.size (h : t.Holds xs free) : t.size = xs.length + free := by
  rw [PointerArray.size, h.addr, List.length_append, List.length_map, List.length_replicate]

lemma Holds.getItem (h : t.Holds xs free) (i : ℕ) : t.getItem i = xs[i]? := by
  rw [PointerArray.getItem, h.addr]
  rcases Nat.lt_or_ge i xs.length with hi | hi
  · rw [List.getElem?_append_left (by simpa using hi), List.getElem?_map,
      List.getElem?_eq_getElem hi]
    rfl
  · rw [List.getElem?_append_right (by simpa using hi), List.getElem?_eq_none hi,
      List.getElem?_replicate]
    split <;> rfl

lemma Holds.modifyItem (h : t.Holds xs free) (i : ℕ) (f : α → α) :
    (t.modifyItem i f).Holds (xs.modify i f) free := by
  have haddr : (t.modifyItem i f).addr = (xs.modify i f).map some ++ List.replicate free none := by
    rw [PointerArray.modifyItem, h.addr]
    refine List.ext_getElem (by simp) fun k hk hk' => ?_
    simp only [List.getElem_modify, List.getElem_append, List.length_map, List.length_modify,
      List.getElem_map, List.getElem_replicate]
    by_cases hik : i = k
    · subst hik
      by_cases hi : i < xs.length
      · simp [hi]
      · simp [hi]
    · simp [hik]
  refine ⟨haddr, h.numberFree, ?_, ?_⟩
  · rw [List.length_modify]
    exact h.lowestFree
  · rw [haddr]
    intro hnil
    have hlen := congrArg List.length hnil
    have hpos := List.length_pos_iff.mpr h.allocated
    rw [h.addr, List.length_append, List.length_map, List.length_replicate] at hpos
    rw [List.length_append, List.length_map, List.length_modify, List.length_replicate,
      List.length_nil] at hlen
    omega

/-- A pointer of the table is an old one, or the one that was added last. -/
lemma Holds.getItem_eq_some_iff {x y : α} (h : t.Holds (xs ++ [x]) free) {i : ℕ} :
    t.getItem i = some y ↔ xs[i]? = some y ∨ i = xs.length ∧ x = y := by
  rw [h.getItem]
  rcases Nat.lt_trichotomy i xs.length with hlt | rfl | hgt
  · rw [List.getElem?_append_left hlt]
    exact ⟨Or.inl, fun h => h.resolve_right fun h => Nat.ne_of_lt hlt h.1⟩
  · rw [List.getElem?_concat_length, List.getElem?_eq_none (Nat.le_refl _)]
    simp
  · have hlen : (xs ++ [x]).length ≤ i := by
      rw [List.length_append]
      exact hgt
    rw [List.getElem?_eq_none hlen, List.getElem?_eq_none (Nat.le_of_lt hgt)]
    simp [Nat.ne_of_gt hgt]

/-- A write to the pointer that was added last. -/
lemma Holds.modifyItem_last {x : α} (h : t.Holds (xs ++ [x]) free) (f : α → α) :
    (t.modifyItem xs.length f).Holds (xs ++ [f x]) free := by
  have hlast : (xs ++ [x]).modify xs.length f = xs ++ [f x] := by
    clear h
    induction xs with
    | nil => rfl
    | cons y ys ih => exact congrArg (y :: ·) ih
  rw [← hlast]
  exact h.modifyItem xs.length f

lemma lowestFree_of_growTable {soft hard : ℕ} (hgrow : t.growTable soft hard = some t') :
    t'.lowestFree = t.lowestFree := by
  rw [PointerArray.growTable] at hgrow
  generalize (if t.maxSize < soft then hard else soft) = n at hgrow
  by_cases hno : t.maxSize < soft ∧ t.maxSize < hard
  · rw [if_pos hno] at hgrow
    cases hgrow
  · rw [if_neg hno] at hgrow
    by_cases hmax : t.maxSize ≤ n
    · rw [if_pos hmax] at hgrow
      cases hgrow
    · rw [if_neg hmax] at hgrow
      obtain rfl := Option.some.inj hgrow
      rfl

/-- A full table that is grown has room for the next pointer, or is of no use to `add`. -/
lemma Holds.growTable (h : t.Holds xs 0) {soft hard : ℕ} (hgrow : t.growTable soft hard = some t')
    (hsize : xs.length < t'.size) : ∃ free, t'.Holds xs (free + 1) := by
  have hlen : t.size = xs.length := h.size
  rw [PointerArray.growTable] at hgrow
  generalize (if t.maxSize < soft then hard else soft) = n at hgrow
  by_cases hno : t.maxSize < soft ∧ t.maxSize < hard
  · rw [if_pos hno] at hgrow
    cases hgrow
  · rw [if_neg hno] at hgrow
    by_cases hmax : t.maxSize ≤ n
    · rw [if_pos hmax] at hgrow
      cases hgrow
    · rw [if_neg hmax] at hgrow
      obtain rfl := Option.some.inj hgrow
      rw [PointerArray.size, List.length_append, List.length_take, List.length_replicate,
        ← PointerArray.size, hlen] at hsize
      obtain ⟨k, hk⟩ : ∃ k, n - t.size = k + 1 := ⟨n - t.size - 1, by omega⟩
      have htake : t.addr.take n = t.addr := List.take_of_length_le (by
        rw [← PointerArray.size]
        omega)
      refine ⟨k, ?_, ?_, h.lowestFree, ?_⟩
      · simp only [htake, hk]
        rw [h.addr, List.replicate_zero, List.append_nil]
      · simp only [h.numberFree]
        omega
      · simp [hk, List.replicate_succ]

lemma Holds.place (h : t.Holds xs (free + 1)) (x : α) :
    ∃ t', t.place x = some (xs.length, t') ∧ t'.Holds (xs ++ [x]) free := by
  have hlt : t.lowestFree < t.size := by
    rw [h.lowestFree, h.size]
    omega
  have haddr : t.addr.set xs.length (some x)
      = (xs ++ [x]).map some ++ List.replicate free none := by
    rw [h.addr, List.replicate_succ, List.set_append_right _ _ (by simp)]
    simp
  have hfree : (if 0 < t.numberFree - 1 then
      (firstFree (t.addr.set xs.length (some x)) (xs.length + 1)).getD xs.length
      else (t.addr.set xs.length (some x)).length) = (xs ++ [x]).length := by
    rw [h.numberFree, haddr]
    cases free with
    | zero => simp
    | succ k =>
        have hdrop : ((xs ++ [x]).map some ++ List.replicate (k + 1) none).drop (xs.length + 1)
            = List.replicate (k + 1) none := List.drop_left' (by simp)
        rw [if_pos (by omega), firstFree, hdrop, List.replicate_succ, List.findIdx?_cons]
        simp
  refine ⟨_, by rw [PointerArray.place, if_pos hlt, h.lowestFree], haddr, ?_, hfree, ?_⟩
  · simp only [h.numberFree]
    omega
  · simp [haddr]

/-- **The next pointer gets the next index**, as long as the table may grow. -/
lemma Holds.add (h : t.Holds xs free) (x : α) :
    t.add x = none ∨ ∃ t' free', t.add x = some (xs.length, t') ∧ t'.Holds (xs ++ [x]) free' := by
  cases free with
  | zero =>
      have hfull : t.numberFree = 0 := h.numberFree
      rw [PointerArray.add, if_pos hfull]
      cases hgrow : t.growTable (if t.size = 0 then 1 else t.size * tableGrow) fortranHandleMax with
      | none => exact Or.inl rfl
      | some t₁ =>
          rw [Option.bind_some]
          by_cases hsize : xs.length < t₁.size
          · obtain ⟨k, h₁⟩ := h.growTable hgrow hsize
            obtain ⟨t', hplace, h'⟩ := h₁.place x
            exact Or.inr ⟨t', k, hplace, h'⟩
          · have hfree : t₁.lowestFree = xs.length :=
              (lowestFree_of_growTable hgrow).trans h.lowestFree
            exact Or.inl (by rw [PointerArray.place, hfree, if_neg hsize])
  | succ k =>
      have hne : t.numberFree ≠ 0 := by
        rw [h.numberFree]
        omega
      obtain ⟨t', hplace, h'⟩ := h.place x
      rw [PointerArray.add, if_neg hne]
      exact Or.inr ⟨t', k, hplace, h'⟩

end PointerArray

end Ocoms
