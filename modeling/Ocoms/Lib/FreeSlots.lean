import Mathlib.Data.List.Basic
import Mathlib.Data.Nat.Basic
import Mathlib.Order.Basic
import Mathlib.Tactic.Common

/-!
Slots, some of them free: the number of free slots and the least of them.

* A list of optional values is a row of slots; `none` is a free one.
* `freeCount` counts the free slots, `LeastFree slots k` says that `k` is the least free slot, or
  the number of slots if there is none.
* `nextFree slots i` looks for a free slot from `i` on; `leastFree_nextFree` says when it finds the
  least one.
* For each of occupying a slot, freeing a slot and adding free slots behind: what becomes of the
  count, of the least free slot, and of `read`.
-/

namespace Ocoms.FreeSlots

variable {α : Type*}

/-- Slot `i` is there and free. -/
def IsFree (slots : List (Option α)) (i : ℕ) : Prop := slots[i]? = some none

/-- The value in a slot; nothing is stored in slots that are not there. -/
def read (slots : List (Option α)) (i : ℕ) : Option α := slots[i]?.join

/-- The number of free slots. -/
def freeCount (slots : List (Option α)) : ℕ := slots.countP Option.isNone

/-- The least free slot, or the number of slots. -/
structure LeastFree (slots : List (Option α)) (k : ℕ) : Prop where
  le : k ≤ slots.length
  before : ∀ j < k, ¬ IsFree slots j
  here : k < slots.length → IsFree slots k

/-- The first free slot from `i` on. -/
def nextFree (slots : List (Option α)) (i : ℕ) : Option ℕ :=
  ((slots.drop i).findIdx? Option.isNone).map (· + i)

variable {slots : List (Option α)} {i j k : ℕ}

/-! ### Single slots -/

lemma IsFree.lt (h : IsFree slots i) : i < slots.length := by
  rw [IsFree] at h
  exact (List.getElem?_eq_some_iff.mp h).1

lemma isFree_iff : IsFree slots i ↔ i < slots.length ∧ read slots i = none := by
  rw [IsFree, read]
  by_cases hi : i < slots.length
  · rw [List.getElem?_eq_getElem hi]
    cases slots[i] <;> simp [hi]
  · rw [List.getElem?_eq_none (not_lt.mp hi)]
    simp [hi]

lemma read_eq_none_of_le (h : slots.length ≤ i) : read slots i = none := by
  rw [read, List.getElem?_eq_none h]
  rfl

lemma read_set (hi : i < slots.length) (v : Option α) (j : ℕ) :
    read (slots.set i v) j = if j = i then v else read slots j := by
  rw [read, List.getElem?_set, read]
  by_cases h : i = j
  · rw [if_pos h, if_pos hi, if_pos h.symm]
    rfl
  · rw [if_neg h, if_neg (Ne.symm h)]

lemma read_append_replicate (slots : List (Option α)) (n j : ℕ) :
    read (slots ++ List.replicate n none) j = read slots j := by
  rcases Nat.lt_or_ge j slots.length with hlt | hge
  · rw [read, List.getElem?_append_left hlt, read]
  · rw [read_eq_none_of_le hge, read, List.getElem?_append_right hge, List.getElem?_replicate]
    split <;> rfl

lemma read_replicate (n j : ℕ) : read (List.replicate n (none : Option α)) j = none := by
  rw [read, List.getElem?_replicate]
  split <;> rfl

lemma isFree_set (hi : i < slots.length) (v : Option α) (j : ℕ) :
    IsFree (slots.set i v) j ↔ if j = i then v = none else IsFree slots j := by
  rw [isFree_iff, List.length_set, read_set hi]
  by_cases h : j = i
  · rw [if_pos h, if_pos h]
    exact ⟨fun h => h.2, fun hv => ⟨h ▸ hi, hv⟩⟩
  · rw [if_neg h, if_neg h, isFree_iff]

/-! ### The count -/

lemma freeCount_set_some (h : IsFree slots i) (x : α) :
    freeCount (slots.set i (some x)) + 1 = freeCount slots := by
  have hi := h.lt
  have hget : slots[i] = none := by
    rw [IsFree, List.getElem?_eq_getElem hi] at h
    exact Option.some.inj h
  have hpos : 0 < freeCount slots :=
    List.countP_pos_iff.mpr ⟨none, hget ▸ List.getElem_mem hi, rfl⟩
  rw [freeCount] at hpos
  rw [freeCount, List.countP_set hi, hget, freeCount]
  simp only [Option.isNone_none, Option.isNone_some, if_true, Bool.false_eq_true, if_false]
  omega

lemma freeCount_set_of_read {x : α} (h : read slots i = some x) (v : Option α) :
    freeCount (slots.set i v) = freeCount slots + if v = none then 1 else 0 := by
  have hi : i < slots.length := by
    by_contra hge
    rw [read_eq_none_of_le (not_lt.mp hge)] at h
    cases h
  have hget : slots[i] = some x := by
    rw [read, List.getElem?_eq_getElem hi] at h
    exact h
  rw [freeCount, List.countP_set hi, hget, freeCount]
  cases v <;> simp

lemma freeCount_set_none_of_isFree (h : IsFree slots i) :
    freeCount (slots.set i none) = freeCount slots := by
  have hi := h.lt
  rw [IsFree, List.getElem?_eq_getElem hi] at h
  rw [← Option.some.inj h, List.set_getElem_self]

lemma freeCount_append_replicate (slots : List (Option α)) (n : ℕ) :
    freeCount (slots ++ List.replicate n none) = freeCount slots + n := by
  rw [freeCount, List.countP_append, List.countP_replicate, freeCount]
  rfl

lemma freeCount_replicate (n : ℕ) : freeCount (List.replicate n (none : Option α)) = n := by
  rw [freeCount, List.countP_replicate]
  rfl

/-- Nothing is stored where all slots are free. -/
lemma read_eq_none_of_freeCount (h : freeCount slots = slots.length) (i : ℕ) :
    read slots i = none := by
  rcases Nat.lt_or_ge i slots.length with hi | hi
  · have hall := List.countP_eq_length.mp h slots[i] (List.getElem_mem hi)
    rw [read, List.getElem?_eq_getElem hi, Option.isNone_iff_eq_none.mp hall]
    rfl
  · exact read_eq_none_of_le hi

/-! ### The least free slot -/

lemma LeastFree.unique (h : LeastFree slots k) (h' : LeastFree slots j) : k = j := by
  rcases Nat.lt_trichotomy k j with hlt | heq | hgt
  · exact absurd (h.here (hlt.trans_le h'.le)) (h'.before k hlt)
  · exact heq
  · exact absurd (h'.here (hgt.trans_le h.le)) (h.before j hgt)

lemma leastFree_replicate (n : ℕ) : LeastFree (List.replicate n (none : Option α)) 0 where
  le := Nat.zero_le _
  before _ hj := absurd hj (Nat.not_lt_zero _)
  here hpos := by
    rw [List.length_replicate] at hpos
    rw [IsFree, List.getElem?_replicate, if_pos hpos]

lemma LeastFree.lt_iff (h : LeastFree slots k) : k < slots.length ↔ 0 < freeCount slots := by
  constructor
  · intro hlt
    have hfree := h.here hlt
    rw [IsFree, List.getElem?_eq_getElem hlt] at hfree
    exact List.countP_pos_iff.mpr
      ⟨none, Option.some.inj hfree ▸ List.getElem_mem hlt, rfl⟩
  · intro hpos
    obtain ⟨v, hv, hnone⟩ := List.countP_pos_iff.mp hpos
    obtain ⟨i, hi, rfl⟩ := List.getElem_of_mem hv
    have hfree : IsFree slots i := by
      rw [IsFree, List.getElem?_eq_getElem hi, Option.isNone_iff_eq_none.mp hnone]
    by_contra hge
    exact h.before i (by omega) hfree

/-- The search for the least free slot. -/
lemma leastFree_nextFree (hi : i ≤ slots.length) (hbefore : ∀ j < i, ¬ IsFree slots j) :
    LeastFree slots ((nextFree slots i).getD slots.length) := by
  have hdrop : ∀ j, (slots.drop i)[j]? = slots[i + j]? := fun j => List.getElem?_drop
  cases hfind : (slots.drop i).findIdx? Option.isNone with
  | none =>
      rw [nextFree, hfind]
      refine ⟨le_rfl, fun j hj hfree => ?_, fun hlt => absurd hlt (lt_irrefl _)⟩
      rcases Nat.lt_or_ge j i with hlt | hge
      · exact hbefore j hlt hfree
      · have hmem : none ∈ slots.drop i := by
          refine List.mem_iff_getElem?.mpr ⟨j - i, ?_⟩
          rw [hdrop, Nat.add_sub_cancel' hge]
          exact hfree
        have hall := List.findIdx?_eq_none_iff.mp hfind none hmem
        cases hall
  | some n =>
      obtain ⟨hn, hfree, hless⟩ := List.findIdx?_eq_some_iff_getElem.mp hfind
      rw [nextFree, hfind, Option.map_some, Option.getD_some]
      rw [List.length_drop] at hn
      refine ⟨by omega, fun j hj hfree' => ?_, fun _ => ?_⟩
      · rcases Nat.lt_or_ge j i with hlt | hge
        · exact hbefore j hlt hfree'
        · have hnot := hless (j - i) (by omega)
          have hget : (slots.drop i)[j - i]? = some none := by
            rw [hdrop, Nat.add_sub_cancel' hge]
            exact hfree'
          rw [(List.getElem?_eq_some_iff.mp hget).2] at hnot
          exact hnot rfl
      · have hlt : n < (slots.drop i).length := by
          rw [List.length_drop]
          exact hn
        rw [IsFree, Nat.add_comm n i, ← hdrop, List.getElem?_eq_getElem hlt,
          Option.isNone_iff_eq_none.mp hfree]

/-- Slots in front of the search do not matter. -/
lemma nextFree_set_of_lt (h : i < j) (v : Option α) :
    nextFree (slots.set i v) j = nextFree slots j := by
  rw [nextFree, List.drop_set, if_pos h, nextFree]

/-- A slot other than the least free one is occupied. -/
lemma LeastFree.set_of_ne (h : LeastFree slots k) (hi : i < slots.length) (hne : i ≠ k) (x : α) :
    LeastFree (slots.set i (some x)) k where
  le := by
    rw [List.length_set]
    exact h.le
  before j hj := by
    rw [isFree_set hi]
    split
    · exact Option.some_ne_none x
    · exact h.before j hj
  here hlt := by
    rw [List.length_set] at hlt
    rw [isFree_set hi, if_neg (Ne.symm hne)]
    exact h.here hlt

/-- The least free slot is occupied, and the next one is looked for. -/
lemma LeastFree.set_self (h : LeastFree slots k) (hk : k < slots.length) (x : α) (hik : k ≤ i)
    (hi : i ≤ k + 1) :
    LeastFree (slots.set k (some x))
      ((nextFree (slots.set k (some x)) i).getD slots.length) := by
  have hlen : (slots.set k (some x)).length = slots.length := List.length_set
  rw [← hlen]
  refine leastFree_nextFree (by omega) fun j hj => ?_
  rw [isFree_set hk]
  split
  · exact Option.some_ne_none x
  · exact h.before j (by omega)

/-- A slot is freed. -/
lemma LeastFree.set_none (h : LeastFree slots k) (hi : i < slots.length) :
    LeastFree (slots.set i none) (if i < k then i else k) where
  le := by
    rw [List.length_set]
    have hle := h.le
    split <;> omega
  before j hj := by
    have hjk : j < k ∧ j ≠ i := by
      split at hj <;> omega
    rw [isFree_set hi, if_neg hjk.2]
    exact h.before j hjk.1
  here hlt := by
    rw [List.length_set] at hlt
    rw [isFree_set hi]
    by_cases hik : i < k
    · rw [if_pos hik, if_pos rfl]
    · rw [if_neg hik] at hlt ⊢
      split
      · rfl
      · exact h.here hlt

/-- Free slots are added behind. -/
lemma LeastFree.append_replicate (h : LeastFree slots k) (n : ℕ) :
    LeastFree (slots ++ List.replicate n none) k where
  le := by
    rw [List.length_append]
    exact h.le.trans (Nat.le_add_right _ _)
  before j hj := by
    have hlt : j < slots.length := hj.trans_le h.le
    rw [IsFree, List.getElem?_append_left hlt]
    exact h.before j hj
  here hlt := by
    rw [List.length_append, List.length_replicate] at hlt
    rcases Nat.lt_or_ge k slots.length with hk | hk
    · rw [IsFree, List.getElem?_append_left hk]
      exact h.here hk
    · rw [IsFree, List.getElem?_append_right hk, List.getElem?_replicate, if_pos (by omega)]

/-- What is stored below the least free slot, and nothing in it. -/
lemma LeastFree.read (h : LeastFree slots k) : read slots k = none := by
  rcases Nat.lt_or_ge k slots.length with hk | hk
  · exact (isFree_iff.mp (h.here hk)).2
  · exact read_eq_none_of_le hk

lemma LeastFree.read_lt (h : LeastFree slots k) (hj : j < k) : FreeSlots.read slots j ≠ none :=
  fun hnone => h.before j hj (isFree_iff.mpr ⟨hj.trans_le h.le, hnone⟩)

end Ocoms.FreeSlots
