import Mathlib.Algebra.Group.Nat.Defs
import Mathlib.Data.Int.Order.Basic
import Mathlib.Logic.Function.Basic
import Ocoms.Lib.CInt
import Ocoms.Lib.FreeSlots
import Ocoms.Util.PointerArray

/-!
The pointer array with sizes of type `int` and with allocations that may fail:
`ocoms_pointer_array.c`.

* `PointerTable` is `ocoms_pointer_array_t`; each function that allocates takes a flag that says
  whether the allocation succeeds. `none` is an access outside the allocation, or a `realloc` to
  size 0.
* `PointerTable.Exact t` is the invariant: the number of free slots and the least free slot are the
  ones that the table remembers. One lemma for each function says what becomes of the contents.
* `PointerTable.add_ofArray`: `PointerArray` is the table where there is memory.
-/

namespace Ocoms

open FreeSlots

/-- `OCOMS_SUCCESS`, `OCOMS_ERROR`, `OCOMS_ERR_BAD_PARAM` and `OCOMS_ERR_OUT_OF_RESOURCE`. -/
inductive PointerRc
  | success | error | badParam | outOfResource
  deriving DecidableEq, Repr

/-- `ocoms_pointer_array_t`. `addr` is the allocation, or a null pointer. -/
@[ext]
structure PointerTable (α : Type*) where
  lowestFree : ℤ
  numberFree : ℤ
  size : ℤ
  maxSize : ℤ
  blockSize : ℤ
  addr : Option (List (Option α))
  deriving DecidableEq

namespace PointerTable

variable {α : Type*}

/-! ### The functions -/

/-- `ocoms_pointer_array_construct`. -/
def construct : PointerTable α where
  lowestFree := 0
  numberFree := 0
  size := 0
  maxSize := CInt.max
  blockSize := 0
  addr := none

/-- `ocoms_pointer_array_init`. A negative number of slots is a `size_t` for which there is no
memory. -/
def init (memory : Bool) (t : PointerTable α) (initialAllocation maxSize blockSize : ℤ) :
    PointerRc × PointerTable α :=
  if maxSize < blockSize then (.badParam, t)
  else
    let n := if 0 < initialAllocation then initialAllocation else blockSize
    if memory ∧ 0 ≤ n then
      (.success, { t with
        maxSize, blockSize, numberFree := n, size := n
        addr := some (List.replicate n.toNat none) })
    else
      (.outOfResource, { t with maxSize, blockSize, numberFree := n, size := n, addr := none })

/-- The size that `grow_table` chooses. -/
def newSize (maxSize soft hard : ℤ) : Option ℤ :=
  if maxSize < soft then
    if maxSize < hard then none else if maxSize ≤ hard then none else some hard
  else if maxSize ≤ soft then none else some soft

/-- The part of `grow_table` behind the choice. The new slots are null; the slots of a null pointer
that counts as a table of positive size are not defined. -/
def resize (memory : Bool) (t : PointerTable α) (n : ℤ) : Option (Bool × PointerTable α) :=
  if n < 0 ∨ memory = false then some (false, t)
  else match t.addr with
    | none =>
        if 0 < t.size then none
        else some (true, { t with
          numberFree := t.numberFree + (n - t.size)
          addr := some (List.replicate n.toNat none)
          size := n })
    | some slots =>
        if n = 0 then none
        else some (true, { t with
          numberFree := t.numberFree + (n - t.size)
          addr := some (slots.take n.toNat ++ List.replicate (n.toNat - slots.length) none)
          size := n })

/-- `grow_table`. -/
def growTable (memory : Bool) (t : PointerTable α) (soft hard : ℤ) :
    Option (Bool × PointerTable α) :=
  match newSize t.maxSize soft hard with
  | none => some (false, t)
  | some n => t.resize memory n

/-- `table->addr[index]`. -/
def slot (t : PointerTable α) (index : ℤ) : Option (Option α) :=
  t.addr.bind fun slots => if 0 ≤ index then slots[index.toNat]? else none

/-- `table->addr[index] = value`. -/
def store (t : PointerTable α) (index : ℤ) (value : Option α) : PointerTable α :=
  { t with addr := t.addr.map fun slots => slots.set index.toNat value }

/-- The loops that look for a free slot from `index` to the end of the table. -/
def nextFree (t : PointerTable α) (index : ℤ) : Option ℤ :=
  t.addr.bind fun slots => (FreeSlots.nextFree slots index.toNat).map (↑)

/-- The part of `ocoms_pointer_array_add` behind the growth. -/
def place (t : PointerTable α) (ptr : α) : Option (Except PointerRc ℤ × PointerTable α) :=
  let index := t.lowestFree
  (t.slot index).map fun _ =>
    let stored := t.store index (some ptr)
    (.ok index, { stored with
      numberFree := t.numberFree - 1
      lowestFree :=
        if 0 < t.numberFree - 1 then (stored.nextFree (index + 1)).getD index else t.size })

/-- `ocoms_pointer_array_add`: the index or an error, and the table. -/
def add (memory : Bool) (t : PointerTable α) (ptr : α) :
    Option (Except PointerRc ℤ × PointerTable α) :=
  if t.numberFree = 0 then
    (t.growTable memory (if t.addr.isNone then 1 else CInt.wrap (t.size * tableGrow))
        fortranHandleMax).bind fun (ok, t) =>
      if ok then t.place ptr else some (.error .outOfResource, t)
  else t.place ptr

/-- `((index / TABLE_GROW) + 1) * TABLE_GROW`. -/
def softSize (index : ℤ) : ℤ := CInt.wrap ((index.tdiv tableGrow + 1) * tableGrow)

/-- The part of `ocoms_pointer_array_set_item` behind the growth. -/
def setSlot (t : PointerTable α) (index : ℤ) (value : Option α) : Option (PointerTable α) :=
  (t.slot index).map fun old =>
    let stored := t.store index value
    match value with
    | none => { stored with
        numberFree := if old.isSome then t.numberFree + 1 else t.numberFree
        lowestFree := if index < t.lowestFree then index else t.lowestFree }
    | some _ => { stored with
        numberFree := if old.isNone then t.numberFree - 1 else t.numberFree
        lowestFree :=
          if index = t.lowestFree then (t.nextFree (index + 1)).getD t.size else t.lowestFree }

/-- `ocoms_pointer_array_set_item`. -/
def setItem (memory : Bool) (t : PointerTable α) (index : ℤ) (value : Option α) :
    Option (PointerRc × PointerTable α) :=
  (if t.size ≤ index then t.growTable memory (softSize index) index else some (true, t)).bind
    fun (ok, t) =>
      if ok then (t.setSlot index value).map fun t => (.success, t) else some (.error, t)

/-- The part of `ocoms_pointer_array_test_and_set_item` behind the growth. -/
def reserve (t : PointerTable α) (index : ℤ) (value : α) : Option (PointerTable α) :=
  (t.slot index).map fun _ =>
    let stored := t.store index (some value)
    { stored with
      numberFree := t.numberFree - 1
      lowestFree :=
        if index = t.lowestFree then (stored.nextFree index).getD t.size else t.lowestFree }

/-- `ocoms_pointer_array_test_and_set_item`. -/
def testAndSetItem (memory : Bool) (t : PointerTable α) (index : ℤ) (value : α) :
    Option (Bool × PointerTable α) :=
  if index < t.size then
    (t.slot index).bind fun old =>
      if old.isSome then some (false, t) else (t.reserve index value).map fun t => (true, t)
  else (t.growTable memory (softSize index) index).bind fun (ok, t) =>
    if ok then (t.reserve index value).map fun t => (true, t) else some (false, t)

/-- `ocoms_pointer_array_set_size`. -/
def setSize (memory : Bool) (t : PointerTable α) (newSize : ℤ) :
    Option (PointerRc × PointerTable α) :=
  if t.size < newSize then
    (t.growTable memory newSize newSize).map fun (ok, t) => (if ok then .success else .error, t)
  else some (.success, t)

/-- `ocoms_pointer_array_remove_all`. -/
def removeAll (t : PointerTable α) : PointerTable α :=
  if t.numberFree = t.size then t
  else { t with
    lowestFree := 0
    numberFree := t.size
    addr := t.addr.map fun slots => List.replicate slots.length none }

/-- `ocoms_pointer_array_get_item`. -/
def getItem (t : PointerTable α) (index : ℤ) : Option (Option α) :=
  if t.size ≤ index then some none else t.slot index

/-! ### The invariant -/

/-- The slots; a null pointer has none. -/
def slots (t : PointerTable α) : List (Option α) := t.addr.getD []

/-- What is stored where. -/
def contents (t : PointerTable α) (i : ℕ) : Option α := read t.slots i

/-- The summaries are exact, and the sizes are of type `int`. -/
structure Exact (t : PointerTable α) : Prop where
  size : t.size = t.slots.length
  numberFree : t.numberFree = freeCount t.slots
  lowestFree : ∃ k : ℕ, t.lowestFree = k ∧ LeastFree t.slots k
  sizeMax : t.size ≤ CInt.max
  maxSize : t.maxSize ≤ CInt.max

section Slots

variable (t : PointerTable α)

lemma slot_natCast (i : ℕ) : t.slot i = t.slots[i]? := by
  rw [slot, slots]
  cases t.addr with
  | none => rfl
  | some slots => rw [Option.bind_some, if_pos (Int.natCast_nonneg i), Option.getD_some,
      Int.toNat_natCast]

lemma slot_of_neg {index : ℤ} (h : index < 0) : t.slot index = none := by
  rw [slot]
  cases t.addr with
  | none => rfl
  | some slots => rw [Option.bind_some, if_neg (not_le.mpr h)]

lemma slots_store (i : ℕ) (value : Option α) : (t.store i value).slots = t.slots.set i value := by
  rw [slots, store, slots]
  cases t.addr with
  | none => rfl
  | some slots => rfl

lemma nextFree_natCast (i : ℕ) :
    t.nextFree i = (FreeSlots.nextFree t.slots i).map (fun k => ((k : ℕ) : ℤ)) := by
  rw [nextFree, slots]
  cases t.addr with
  | none => cases i <;> rfl
  | some slots => rw [Option.bind_some, Option.getD_some, Int.toNat_natCast]

lemma getD_nextFree (i n : ℕ) : (t.nextFree i).getD n
    = (((FreeSlots.nextFree t.slots i).getD n : ℕ) : ℤ) := by
  rw [nextFree_natCast]
  cases FreeSlots.nextFree t.slots i <;> rfl

end Slots

section Exact

variable {t t' : PointerTable α} {memory : Bool}

lemma exact_construct : (construct : PointerTable α).Exact where
  size := rfl
  numberFree := rfl
  lowestFree := ⟨0, rfl, leastFree_replicate 0⟩
  sizeMax := (by decide : (0 : ℤ) ≤ CInt.max)
  maxSize := le_rfl

/-- `ocoms_pointer_array_init` does not touch `lowest_free`. -/
lemma exact_init {a m b : ℤ} (hlowest : t.lowestFree = 0) (ha : a ≤ CInt.max) (hm : m ≤ CInt.max)
    (hinit : t.init memory a m b = (.success, t')) :
    t'.Exact ∧ t'.contents = (fun _ => none) ∧ t'.addr.isSome := by
  rw [init] at hinit
  by_cases hbad : m < b
  · rw [if_pos hbad] at hinit
    cases hinit
  · rw [if_neg hbad] at hinit
    generalize hn : (if 0 < a then a else b) = n at hinit
    have hle : n ≤ CInt.max := by
      rw [← hn]
      split <;> omega
    by_cases hmemory : memory = true ∧ 0 ≤ n
    · obtain ⟨k, rfl⟩ := Int.eq_ofNat_of_zero_le hmemory.2
      dsimp only at hinit
      rw [if_pos hmemory] at hinit
      obtain ⟨-, rfl⟩ := Prod.mk.inj hinit
      have hslots : (List.replicate (k : ℤ).toNat (none : Option α)) = List.replicate k none := by
        rw [Int.toNat_natCast]
      refine ⟨⟨?_, ?_, ⟨0, hlowest, ?_⟩, hle, hm⟩, funext fun i => ?_, rfl⟩
      · rw [slots, Option.getD_some, hslots, List.length_replicate]
      · rw [slots, Option.getD_some, hslots, freeCount_replicate]
      · rw [slots, Option.getD_some]
        exact leastFree_replicate _
      · rw [contents, slots, Option.getD_some, hslots, read_replicate]
    · dsimp only at hinit
      rw [if_neg hmemory] at hinit
      cases hinit

/-- Free slots behind the table. -/
def extend (t : PointerTable α) (n : ℕ) : PointerTable α :=
  { t with
    numberFree := t.numberFree + (n - t.size)
    addr := some (t.slots ++ List.replicate (n - t.slots.length) none)
    size := n }

lemma Exact.extend (h : t.Exact) {n : ℕ} (hle : t.slots.length ≤ n) (hn : (n : ℤ) ≤ CInt.max) :
    (t.extend n).Exact ∧ (t.extend n).contents = t.contents := by
  have hslots : (t.extend n).slots = t.slots ++ List.replicate (n - t.slots.length) none := rfl
  obtain ⟨k, hk, hleast⟩ := h.lowestFree
  refine ⟨⟨?_, ?_, ⟨k, hk, ?_⟩, hn, h.maxSize⟩, funext fun i => ?_⟩
  · rw [hslots, List.length_append, List.length_replicate, Nat.add_sub_cancel' hle]
    rfl
  · have hsize := h.size
    have hfree := h.numberFree
    rw [hslots, freeCount_append_replicate]
    dsimp only [PointerTable.extend]
    omega
  · rw [hslots]
    exact hleast.append_replicate _
  · rw [contents, hslots, read_append_replicate, contents]

/-- The table is made larger, if there is memory. -/
lemma Exact.resize_eq (h : t.Exact) {n : ℕ} (hle : t.slots.length ≤ n) (hpos : 0 < n) :
    t.resize memory n = some (if memory then (true, t.extend n) else (false, t)) := by
  have hsize := h.size
  cases memory with
  | false => rw [resize, if_pos (Or.inr rfl)]; rfl
  | true =>
      have hguard : ¬ ((n : ℤ) < 0 ∨ true = false) := by simp
      rw [resize, if_neg hguard, if_pos rfl, PointerTable.extend]
      rw [slots] at hsize hle ⊢
      cases haddr : t.addr with
      | none =>
          rw [haddr] at hsize
          have hnot : ¬ 0 < t.size := by
            rw [hsize]
            exact lt_irrefl 0
          dsimp only
          rw [if_neg hnot]
          rfl
      | some slots =>
          rw [haddr, Option.getD_some] at hle
          have hne : (n : ℤ) ≠ 0 := by omega
          dsimp only
          rw [if_neg hne, Int.toNat_natCast, List.take_of_length_le hle]
          rfl

/-- A failed growth changes nothing. -/
lemma resize_false {n : ℤ} (hresize : t.resize memory n = some (false, t')) : t' = t := by
  rw [resize] at hresize
  split at hresize
  · exact (Prod.mk.inj (Option.some.inj hresize)).2.symm
  · split at hresize
    · split at hresize
      · cases hresize
      · cases (Prod.mk.inj (Option.some.inj hresize)).1
    · split at hresize
      · cases hresize
      · cases (Prod.mk.inj (Option.some.inj hresize)).1

lemma growTable_false {soft hard : ℤ} (hgrow : t.growTable memory soft hard = some (false, t')) :
    t' = t := by
  rw [growTable] at hgrow
  split at hgrow
  · exact (Prod.mk.inj (Option.some.inj hgrow)).2.symm
  · exact resize_false hgrow

/-! ### Writes -/

lemma contents_of_set {i : ℕ} {v : Option α} (hi : i < t.slots.length)
    (hslots : t'.slots = t.slots.set i v) : t'.contents = Function.update t.contents i v := by
  funext j
  rw [contents, hslots, read_set hi, Function.update_apply]
  rfl

/-- What a write to slot `i` leaves. -/
structure Written (t : PointerTable α) (i : ℕ) (v : Option α) (t' : PointerTable α) : Prop where
  lt : (i : ℤ) < t'.size
  exact : t'.Exact
  contents : t'.contents = Function.update t.contents i v
  size : t'.size = t.size
  maxSize : t'.maxSize = t.maxSize
  addr : t.addr.isSome → t'.addr.isSome

lemma isSome_addr_store (i : ℤ) (v : Option α) : (t.store i v).addr.isSome = t.addr.isSome := by
  rw [store, Option.isSome_map]

lemma Exact.written (h : t.Exact) {i k : ℕ} {v : Option α} {number lowest : ℤ}
    (hi : i < t.slots.length) (hnumber : number = freeCount (t.slots.set i v))
    (hlowest : lowest = k) (hleast : LeastFree (t.slots.set i v) k) :
    Written t i v { t.store i v with numberFree := number, lowestFree := lowest } := by
  have hslots : (t.store i v).slots = t.slots.set i v := slots_store t i v
  have hsize := h.size
  refine ⟨?_, ⟨?_, ?_, ⟨k, hlowest, ?_⟩, h.sizeMax, h.maxSize⟩, contents_of_set hi hslots, rfl, rfl,
    fun hsome => ?_⟩
  · change (i : ℤ) < t.size
    omega
  · change t.size = ((t.store i v).slots.length : ℤ)
    rw [hslots, List.length_set, hsize]
  · change number = (freeCount (t.store i v).slots : ℤ)
    rw [hslots, hnumber]
  · change LeastFree (t.store i v).slots k
    rw [hslots]
    exact hleast
  · change (t.store i v).addr.isSome = true
    rw [isSome_addr_store, hsome]

/-- **The least free slot is taken.** -/
lemma Exact.place (h : t.Exact) (hfree : 0 < freeCount t.slots) (x : α) :
    ∃ (k : ℕ) (t' : PointerTable α), t.place x = some (.ok k, t') ∧ LeastFree t.slots k ∧
      Written t k (some x) t' := by
  obtain ⟨k, hk, hleast⟩ := h.lowestFree
  have hlt := hleast.lt_iff.mpr hfree
  have hcount := freeCount_set_some (hleast.here hlt) x
  have hnext := hleast.set_self hlt x (Nat.le_succ k) le_rfl
  refine ⟨k, _, ?_, hleast, h.written hlt rfl rfl hnext⟩
  have hslot : t.slot k = some none := by
    rw [slot_natCast]
    exact hleast.here hlt
  have hslots : (t.store k (some x)).slots = t.slots.set k (some x) := slots_store t k _
  have hnumber : t.numberFree - 1 = freeCount (t.slots.set k (some x)) := by
    rw [h.numberFree]
    omega
  -- if slots are left, the loop finds one
  have hlowest : (if 0 < t.numberFree - 1 then ((t.store k (some x)).nextFree (k + 1)).getD k
      else t.size)
      = ((FreeSlots.nextFree (t.slots.set k (some x)) (k + 1)).getD t.slots.length : ℕ) := by
    have hnextFree := nextFree_natCast (t.store k (some x)) (k + 1)
    rw [hslots, Int.natCast_succ] at hnextFree
    have hiff := hnext.lt_iff
    rw [List.length_set] at hiff
    rw [hnumber, hnextFree]
    cases hfound : FreeSlots.nextFree (t.slots.set k (some x)) (k + 1) with
    | none =>
        rw [Nat.succ_eq_add_one, hfound, Option.getD_none] at hiff
        rw [if_neg (by omega), h.size, Option.getD_none]
    | some m =>
        rw [Nat.succ_eq_add_one, hfound, Option.getD_some] at hiff hnext
        have hle := hnext.le
        rw [List.length_set] at hle
        rw [Option.map_some, Option.getD_some, Option.getD_some, h.size]
        split
        · rfl
        · omega
  rw [PointerTable.place, hk, hslot, Option.map_some]
  dsimp only
  rw [hlowest, hnumber]

lemma slot_eq_some {i : ℕ} {old : Option α} (hslot : t.slot i = some old) :
    i < t.slots.length ∧ t.contents i = old := by
  rw [slot_natCast] at hslot
  refine ⟨(List.getElem?_eq_some_iff.mp hslot).1, ?_⟩
  rw [contents, FreeSlots.read, hslot]
  rfl

/-- **A slot is set**, whatever it holds. -/
lemma Exact.setSlot (h : t.Exact) {i : ℕ} (hi : i < t.slots.length) (v : Option α) :
    ∃ t', t.setSlot i v = some t' ∧ Written t i v t' := by
  obtain ⟨k, hk, hleast⟩ := h.lowestFree
  obtain ⟨old, hslot⟩ : ∃ old, t.slot i = some old := by
    rw [slot_natCast]
    exact ⟨_, List.getElem?_eq_getElem hi⟩
  have hold := (slot_eq_some hslot).2
  have hfree : old = none → IsFree t.slots i := fun hnone => isFree_iff.mpr ⟨hi, hold.trans hnone⟩
  rw [PointerTable.setSlot, hslot, Option.map_some]
  refine ⟨_, rfl, ?_⟩
  cases v with
  | none =>
      refine h.written hi ?_ ?_ (hleast.set_none hi)
      · cases old with
        | none =>
            rw [freeCount_set_none_of_isFree (hfree rfl), ← h.numberFree]
            rfl
        | some y =>
            have hcount := freeCount_set_of_read hold none
            rw [hcount, if_pos rfl, Int.natCast_succ, ← h.numberFree]
            rfl
      · rw [hk]
        split <;> split <;> omega
  | some x =>
      cases old with
      | none =>
          have hcount := freeCount_set_some (hfree rfl) x
          have hnumber : t.numberFree - 1 = freeCount (t.slots.set i (some x)) := by
            rw [h.numberFree]
            omega
          by_cases hik : i = k
          · subst hik
            refine h.written hi hnumber ?_ (hleast.set_self hi x (Nat.le_succ i) le_rfl)
            have hloop := getD_nextFree t (i + 1) t.slots.length
            rw [if_pos hk.symm, h.size]
            rw [Int.natCast_succ] at hloop
            rw [hloop, nextFree_set_of_lt (Nat.lt_succ_self i)]
          · refine h.written hi hnumber ?_ (hleast.set_of_ne hi hik x)
            rw [hk, if_neg (by omega)]
      | some y =>
          have hcount := freeCount_set_of_read hold (some x)
          have hik : i ≠ k := by
            rintro rfl
            have hread := hleast.read
            rw [contents, hread] at hold
            cases hold
          refine h.written hi ?_ ?_ (hleast.set_of_ne hi hik x)
          · rw [hcount, if_neg (Option.some_ne_none x), Nat.add_zero, ← h.numberFree]
            rfl
          · rw [hk, if_neg (by omega)]

/-- **A free slot is reserved.** -/
lemma Exact.reserve (h : t.Exact) {i : ℕ} (hfree : IsFree t.slots i) (x : α) :
    ∃ t', t.reserve i x = some t' ∧ Written t i (some x) t' := by
  obtain ⟨k, hk, hleast⟩ := h.lowestFree
  have hi := hfree.lt
  have hcount := freeCount_set_some hfree x
  have hslots : (t.store i (some x)).slots = t.slots.set i (some x) := slots_store t i _
  have hslot : t.slot i = some none := by
    rw [slot_natCast]
    exact hfree
  have hnumber : t.numberFree - 1 = freeCount (t.slots.set i (some x)) := by
    rw [h.numberFree]
    omega
  rw [PointerTable.reserve, hslot, Option.map_some]
  refine ⟨_, rfl, ?_⟩
  by_cases hik : i = k
  · subst hik
    refine h.written hi hnumber ?_ (hleast.set_self hi x le_rfl (Nat.le_succ i))
    rw [if_pos hk.symm, h.size, getD_nextFree, hslots]
  · refine h.written hi hnumber ?_ (hleast.set_of_ne hi hik x)
    rw [hk, if_neg (by omega)]

/-! ### Growth -/

/-- The size that the callers ask for: the next even number above `index`. -/
def evenAbove (i : ℕ) : ℕ := i + 2 - i % 2

lemma lt_evenAbove (i : ℕ) : i < evenAbove i := by
  rw [evenAbove]
  omega

lemma softSize_eq (i : ℕ) : softSize i = CInt.wrap (evenAbove i) := by
  have hdiv : (i : ℤ).tdiv tableGrow = ((i / 2 : ℕ) : ℤ) := by
    rw [Int.tdiv_eq_ediv_of_nonneg (Int.natCast_nonneg i), tableGrow]
    rfl
  have heven : (((i / 2 : ℕ) : ℤ) + 1) * (tableGrow : ℕ) = (evenAbove i : ℕ) := by
    rw [evenAbove, tableGrow]
    omega
  rw [softSize, hdiv, heven]

/-- What `grow_table` does for `index` in the functions that set a slot. In the last case the table
gets as many slots as `index` says, which leaves none for `index` itself. -/
lemma growTable_softSize (hmax : t.maxSize ≤ CInt.max) {i : ℕ} (hi : (i : ℤ) ≤ CInt.max) :
    ((evenAbove i : ℤ) < t.maxSize ∧
      ∀ memory, t.growTable memory (softSize i) i = t.resize memory (evenAbove i)) ∨
    (t.maxSize ≤ evenAbove i ∧
      ∀ memory, t.growTable memory (softSize i) i = some (false, t)) ∨
    ((i : ℤ) < t.maxSize ∧ t.maxSize < evenAbove i ∧
      ∀ memory, t.growTable memory (softSize i) i = t.resize memory i) := by
  have heven : (evenAbove i : ℤ) ≤ i + 2 ∧ (i : ℤ) < evenAbove i := by
    rw [evenAbove]
    omega
  have hgrow : ∀ n, newSize t.maxSize (softSize i) i = some n →
      ∀ memory, t.growTable memory (softSize i) i = t.resize memory n := by
    intro n hn memory
    rw [growTable, hn]
  have hrefuse : newSize t.maxSize (softSize i) i = none →
      ∀ memory, t.growTable memory (softSize i) i = some (false, t) := by
    intro hn memory
    rw [growTable, hn]
  rw [CInt.max] at hi hmax
  rcases lt_or_ge CInt.max (evenAbove i) with hwrap | hnowrap
  · -- the product overflows, and no memory is found for a negative size
    have hneg : softSize i < 0 := by
      rw [softSize_eq, CInt.wrap_of_gt hwrap (by omega)]
      omega
    rw [CInt.max] at hwrap
    refine .inr (.inl ⟨by omega, ?_⟩)
    by_cases hlt : t.maxSize < softSize i
    · exact hrefuse (by rw [newSize, if_pos hlt, if_pos (by omega)])
    · by_cases hle : t.maxSize ≤ softSize i
      · exact hrefuse (by rw [newSize, if_neg hlt, if_pos hle])
      · intro memory
        rw [hgrow (softSize i) (by rw [newSize, if_neg hlt, if_neg hle]) memory]
        exact if_pos (Or.inl hneg)
  · have hsoft : softSize i = evenAbove i := by
      rw [softSize_eq, CInt.wrap_eq (by omega) hnowrap]
    rcases lt_trichotomy (evenAbove i : ℤ) t.maxSize with hlt | heq | hgt
    · refine .inl ⟨hlt, hgrow _ ?_⟩
      rw [newSize, hsoft, if_neg (by omega), if_neg (by omega)]
    · refine .inr (.inl ⟨heq.ge, hrefuse ?_⟩)
      rw [newSize, hsoft, if_neg (by omega), if_pos heq.ge]
    · rcases lt_trichotomy (i : ℤ) t.maxSize with hlt | heq | hlarge
      · refine .inr (.inr ⟨hlt, hgt, hgrow _ ?_⟩)
        rw [newSize, hsoft, if_pos hgt, if_neg (by omega), if_neg (by omega)]
      · refine .inr (.inl ⟨hgt.le, hrefuse ?_⟩)
        rw [newSize, hsoft, if_pos hgt, if_neg (by omega), if_pos (by omega)]
      · refine .inr (.inl ⟨hgt.le, hrefuse ?_⟩)
        rw [newSize, hsoft, if_pos hgt, if_pos hlarge]

/-- The table gets the size that was chosen, whether that is more or less than before. -/
lemma resize_true {n : ℕ} {ok : Bool} (hresize : t.resize true n = some (ok, t')) :
    ok = true ∧ t'.slots.length = n ∧ t'.lowestFree = t.lowestFree := by
  have hguard : ¬ ((n : ℤ) < 0 ∨ true = false) := by simp
  rw [resize, if_neg hguard] at hresize
  cases haddr : t.addr with
  | none =>
      rw [haddr] at hresize
      dsimp only at hresize
      split at hresize
      · cases hresize
      · obtain ⟨rfl, rfl⟩ := Prod.mk.inj (Option.some.inj hresize)
        refine ⟨rfl, ?_, rfl⟩
        rw [slots, Option.getD_some, List.length_replicate, Int.toNat_natCast]
  | some l =>
      rw [haddr] at hresize
      dsimp only at hresize
      split at hresize
      · cases hresize
      · obtain ⟨rfl, rfl⟩ := Prod.mk.inj (Option.some.inj hresize)
        refine ⟨rfl, ?_, rfl⟩
        rw [slots, Option.getD_some, Int.toNat_natCast, List.length_append, List.length_take,
          List.length_replicate]
        omega

lemma slot_of_le {i : ℕ} (h : t.slots.length ≤ i) : t.slot i = none := by
  rw [slot_natCast, List.getElem?_eq_none h]

lemma setSlot_of_slot {index : ℤ} (h : t.slot index = none) (v : Option α) :
    t.setSlot index v = none := by
  rw [PointerTable.setSlot, h, Option.map_none]

lemma reserve_of_slot {index : ℤ} (h : t.slot index = none) (x : α) :
    t.reserve index x = none := by
  rw [PointerTable.reserve, h, Option.map_none]

/-- What `run` does that grows the table for slot `i` and then writes it: it answers `yes`, or it
changes nothing and answers `no`, or it writes behind the table. -/
def Grown {β : Type*} (t : PointerTable α) (i : ℕ) (v : Option α) (yes no : β)
    (run : Bool → Option (β × PointerTable α)) : Prop :=
  ((evenAbove i : ℤ) < t.maxSize ∧ run false = some (no, t) ∧
    ∃ t', run true = some (yes, t') ∧ Written (t.extend (evenAbove i)) i v t') ∨
  (t.maxSize ≤ evenAbove i ∧ ∀ memory, run memory = some (no, t)) ∨
  ((i : ℤ) < t.maxSize ∧ t.maxSize < evenAbove i ∧ run false = some (no, t) ∧ run true = none)

lemma Exact.grown {β : Type*} (h : t.Exact) {i : ℕ} {v : Option α} {yes no : β}
    {write : PointerTable α → Option (PointerTable α)}
    {run : Bool → Option (β × PointerTable α)}
    (hrun : ∀ memory, run memory = (t.growTable memory (softSize i) i).bind fun (ok, t) =>
      if ok then (write t).map fun t => (yes, t) else some (no, t))
    (hwrite : ∀ t₁ : PointerTable α, t₁.Exact → IsFree t₁.slots i →
      ∃ t', write t₁ = some t' ∧ Written t₁ i v t')
    (hnone : ∀ t₁ : PointerTable α, t₁.slot i = none → write t₁ = none)
    (hsize : t.size ≤ i) (hi : (i : ℤ) ≤ CInt.max) : Grown t i v yes no run := by
  have hlen : t.slots.length ≤ i := by
    have hlength := h.size
    omega
  have hfail : ∀ n, t.resize false n = some (false, t) := fun n => if_pos (Or.inr rfl)
  have heven := lt_evenAbove i
  rcases growTable_softSize h.maxSize hi with ⟨hlt, hgrow⟩ | ⟨hle, hgrow⟩ | ⟨hlt, hgt, hgrow⟩
  · have hmax := h.maxSize
    obtain ⟨hexact, hcontents⟩ := h.extend (n := evenAbove i) (by omega) (by omega)
    have hsize' : (evenAbove i : ℤ) = (t.extend (evenAbove i)).slots.length := hexact.size
    have hfree : IsFree (t.extend (evenAbove i)).slots i := by
      refine isFree_iff.mpr ⟨by omega, ?_⟩
      have hread := congrFun hcontents i
      rw [contents, contents, read_eq_none_of_le hlen] at hread
      exact hread
    obtain ⟨t', ht', hwritten⟩ := hwrite _ hexact hfree
    refine .inl ⟨hlt, ?_, t', ?_, hwritten⟩
    · rw [hrun, hgrow, hfail]
      rfl
    · rw [hrun, hgrow, h.resize_eq (by omega) (by omega), if_pos rfl, Option.bind_some]
      dsimp only
      rw [if_pos rfl, ht', Option.map_some]
  · refine .inr (.inl ⟨hle, fun memory => ?_⟩)
    rw [hrun, hgrow]
    rfl
  · refine .inr (.inr ⟨hlt, hgt, ?_, ?_⟩)
    · rw [hrun, hgrow, hfail]
      rfl
    · rw [hrun, hgrow]
      cases hresize : t.resize true i with
      | none => rfl
      | some r =>
          obtain ⟨ok, t₁⟩ := r
          obtain ⟨rfl, hlength, -⟩ := resize_true hresize
          rw [Option.bind_some]
          dsimp only
          rw [if_pos rfl, hnone t₁ (slot_of_le hlength.le), Option.map_none]

lemma Exact.setItem_grow (h : t.Exact) {i : ℕ} (hsize : t.size ≤ i) (hi : (i : ℤ) ≤ CInt.max)
    (v : Option α) :
    Grown t i v .success .error fun memory => t.setItem memory i v := by
  have hrun : ∀ memory, t.setItem memory i v
      = (t.growTable memory (softSize i) i).bind fun (ok, t) =>
        if ok then (t.setSlot i v).map fun t => (.success, t) else some (.error, t) := by
    intro memory
    rw [PointerTable.setItem, if_pos hsize]
  exact h.grown hrun (fun _ hexact hfree => hexact.setSlot hfree.lt v)
    (fun _ hslot => setSlot_of_slot hslot v) hsize hi

lemma Exact.testAndSetItem_grow (h : t.Exact) {i : ℕ} (hsize : t.size ≤ i)
    (hi : (i : ℤ) ≤ CInt.max) (x : α) :
    Grown t i (some x) true false fun memory => t.testAndSetItem memory i x := by
  have hrun : ∀ memory, t.testAndSetItem memory i x
      = (t.growTable memory (softSize i) i).bind fun (ok, t) =>
        if ok then (t.reserve i x).map fun t => (true, t) else some (false, t) := by
    intro memory
    rw [PointerTable.testAndSetItem, if_neg (not_lt.mpr hsize)]
  exact h.grown hrun (fun _ hexact hfree => hexact.reserve hfree x)
    (fun _ hslot => reserve_of_slot hslot x) hsize hi

/-! ### Adding to a full table -/

/-- `grow_table` makes a full table larger. -/
def AddGrows (t : PointerTable α) : Prop :=
  1 ≤ t.size ∧ 2 * t.size < t.maxSize ∨
    t.size < fortranHandleMax ∧ fortranHandleMax < t.maxSize ∧ t.maxSize < 2 * t.size

/-- `grow_table` makes a full table smaller, or leaves it as it is. -/
def AddBreaks (t : PointerTable α) : Prop :=
  t.size = 0 ∧ 0 < t.maxSize ∨
    fortranHandleMax ≤ t.size ∧ t.size < 2 ^ 30 ∧ fortranHandleMax < t.maxSize ∧
      t.maxSize < 2 * t.size

instance (t : PointerTable α) : Decidable t.AddGrows := inferInstanceAs (Decidable (_ ∨ _))

instance (t : PointerTable α) : Decidable t.AddBreaks := inferInstanceAs (Decidable (_ ∨ _))

/-- What `grow_table` does for a full table. -/
lemma growTable_double (h₀ : 0 ≤ t.size) (hsize : t.size ≤ CInt.max)
    (hmax : t.maxSize ≤ CInt.max) :
    (t.AddGrows ∧ ∃ n : ℕ, t.size < n ∧ (n : ℤ) < t.maxSize ∧ ∀ memory,
      t.growTable memory (CInt.wrap (t.size * tableGrow)) fortranHandleMax = t.resize memory n) ∨
    (t.AddBreaks ∧ ∃ n : ℕ, (n : ℤ) ≤ t.size ∧ ∀ memory,
      t.growTable memory (CInt.wrap (t.size * tableGrow)) fortranHandleMax = t.resize memory n) ∨
    (¬ t.AddGrows ∧ ¬ t.AddBreaks ∧ ∀ memory,
      t.growTable memory (CInt.wrap (t.size * tableGrow)) fortranHandleMax = some (false, t)) := by
  obtain ⟨soft, hsoft⟩ : ∃ soft, soft = CInt.wrap (t.size * tableGrow) := ⟨_, rfl⟩
  obtain ⟨hard, hhard⟩ : ∃ hard : ℤ, hard = fortranHandleMax := ⟨_, rfl⟩
  have hhundred : hard = 128 := hhard
  have hgrow : ∀ n, newSize t.maxSize soft hard = some n →
      ∀ memory, t.growTable memory soft hard = t.resize memory n := by
    intro n hn memory
    rw [growTable, hn]
  have hrefuse : newSize t.maxSize soft hard = none →
      ∀ memory, t.growTable memory soft hard = some (false, t) := by
    intro hn memory
    rw [growTable, hn]
  rw [AddGrows, AddBreaks, ← hsoft, ← hhard, hhundred]
  rw [hhundred] at hgrow hrefuse
  rw [CInt.max] at hsize hmax
  have hproduct : t.size * (tableGrow : ℕ) = 2 * t.size := by
    rw [tableGrow]
    omega
  rw [hproduct] at hsoft
  rcases lt_or_ge t.size (2 ^ 30) with hsmall | hlarge
  · have hdouble : soft = 2 * t.size := by
      rw [hsoft, CInt.wrap_eq (by omega) (by rw [CInt.max]; omega)]
    obtain ⟨s, hs⟩ := Int.eq_ofNat_of_zero_le h₀
    rcases lt_trichotomy (2 * t.size) t.maxSize with hlt | heq | hgt
    · have hchoice := hgrow soft (by rw [newSize, hdouble, if_neg (by omega), if_neg (by omega)])
      have hnat : soft = ((2 * s : ℕ) : ℤ) := by omega
      rw [hnat] at hchoice ⊢
      rcases Nat.eq_zero_or_pos s with hzero | hpos
      · exact .inr (.inl ⟨.inl (by omega), 2 * s, by omega, hchoice⟩)
      · exact .inl ⟨.inl (by omega), 2 * s, by omega, by omega, hchoice⟩
    · refine .inr (.inr ⟨by omega, by omega, hrefuse ?_⟩)
      rw [newSize, hdouble, if_neg (by omega), if_pos heq.ge]
    · rcases lt_trichotomy (128 : ℤ) t.maxSize with hlt | heq | hless
      · have hchoice := hgrow 128
          (by rw [newSize, hdouble, if_pos hgt, if_neg (by omega), if_neg (by omega)])
        rcases lt_or_ge t.size 128 with hs' | hs'
        · exact .inl ⟨.inr (by omega), 128, hs', hlt, hchoice⟩
        · exact .inr (.inl ⟨.inr (by omega), 128, hs', hchoice⟩)
      · refine .inr (.inr ⟨by omega, by omega, hrefuse ?_⟩)
        rw [newSize, hdouble, if_pos hgt, if_neg (by omega), if_pos heq.ge]
      · refine .inr (.inr ⟨by omega, by omega, hrefuse ?_⟩)
        rw [newSize, hdouble, if_pos hgt, if_pos hless]
  · -- the product overflows
    have hneg : soft = 2 * t.size - 2 ^ 32 := by
      rw [hsoft, CInt.wrap_of_gt (by rw [CInt.max]; omega) (by omega)]
    refine .inr (.inr ⟨by omega, by omega, ?_⟩)
    by_cases hlt : t.maxSize < soft
    · exact hrefuse (by rw [newSize, if_pos hlt, if_pos (by omega)])
    · by_cases hle : t.maxSize ≤ soft
      · exact hrefuse (by rw [newSize, if_neg hlt, if_pos hle])
      · intro memory
        rw [hgrow soft (by rw [newSize, if_neg hlt, if_neg hle]) memory]
        exact if_pos (Or.inl (by omega))

/-- **Adding to a table with free slots** takes the least one. -/
lemma Exact.add_of_free (h : t.Exact) (hfree : t.numberFree ≠ 0) (x : α) :
    ∃ (k : ℕ) (t' : PointerTable α), (∀ memory, t.add memory x = some (.ok k, t')) ∧
      LeastFree t.slots k ∧ Written t k (some x) t' := by
  have hnumber := h.numberFree
  obtain ⟨k, t', hplace, hleast, hwritten⟩ := h.place (x := x) (by omega)
  refine ⟨k, t', fun memory => ?_, hleast, hwritten⟩
  rw [PointerTable.add, if_neg hfree, hplace]

/-- A table that is grown to more slots takes the first new one. -/
lemma Exact.place_extend (h : t.Exact) (hfull : t.numberFree = 0) {n : ℕ} (hn : t.size < n)
    (hmax : (n : ℤ) ≤ CInt.max) (x : α) :
    ∃ t', (t.extend n).place x = some (.ok t.size, t') ∧
      Written (t.extend n) t.slots.length (some x) t' := by
  have hsize := h.size
  have hnumber := h.numberFree
  obtain ⟨hexact, -⟩ := h.extend (n := n) (by omega) hmax
  have hnumber' := hexact.numberFree
  have hpos : 0 < freeCount (t.extend n).slots := by
    have hnew : (t.extend n).numberFree = t.numberFree + (n - t.size) := rfl
    omega
  obtain ⟨k, t', hplace, hleast, hwritten⟩ := hexact.place hpos x
  -- the old slots are taken, so the least free slot is the first new one
  obtain ⟨k₀, -, hleast₀⟩ := h.lowestFree
  have hk₀ : k₀ = t.slots.length := by
    have hiff := hleast₀.lt_iff
    have hle := hleast₀.le
    omega
  have hk : k = t.slots.length := by
    rw [← hk₀]
    exact hleast.unique (hleast₀.append_replicate _)
  subst hk
  exact ⟨t', by rw [hplace, hsize], hwritten⟩

/-- **Adding to a full table.** -/
lemma Exact.add_of_full (h : t.Exact) (haddr : t.addr.isSome) (hfull : t.numberFree = 0) (x : α) :
    (t.AddGrows ∧ t.add false x = some (.error .outOfResource, t) ∧
      ∃ (n : ℕ) (t' : PointerTable α), t.size < n ∧ (n : ℤ) < t.maxSize ∧
        t.add true x = some (.ok t.size, t') ∧
        Written (t.extend n) t.slots.length (some x) t') ∨
    (t.AddBreaks ∧ t.add false x = some (.error .outOfResource, t) ∧ t.add true x = none) ∨
    (¬ t.AddGrows ∧ ¬ t.AddBreaks ∧
      ∀ memory, t.add memory x = some (.error .outOfResource, t)) := by
  have hsize := h.size
  have hmax := h.maxSize
  have hrun : ∀ memory, t.add memory x
      = (t.growTable memory (CInt.wrap (t.size * tableGrow)) fortranHandleMax).bind fun (ok, t) =>
        if ok then t.place x else some (.error .outOfResource, t) := by
    intro memory
    have hnull : ¬ t.addr.isNone = true := by
      rw [Option.isNone_iff_eq_none]
      exact Option.isSome_iff_ne_none.mp haddr
    rw [PointerTable.add, if_pos hfull, if_neg hnull]
  have hfail : ∀ n, t.resize false n = some (false, t) := fun n => if_pos (Or.inr rfl)
  rcases growTable_double (by omega) h.sizeMax hmax with
    ⟨hgrows, n, hlt, hltMax, hgrow⟩ | ⟨hbreaks, n, hle, hgrow⟩ | ⟨hgrows, hbreaks, hgrow⟩
  · obtain ⟨t', hplace, hwritten⟩ := h.place_extend hfull hlt (by omega) x
    refine .inl ⟨hgrows, ?_, n, t', hlt, hltMax, ?_, hwritten⟩
    · rw [hrun, hgrow, hfail]
      rfl
    · rw [hrun, hgrow, h.resize_eq (by omega) (by omega), if_pos rfl, Option.bind_some]
      dsimp only
      rw [if_pos rfl, hplace]
  · refine .inr (.inl ⟨hbreaks, ?_, ?_⟩)
    · rw [hrun, hgrow, hfail]
      rfl
    · rw [hrun, hgrow]
      cases hresize : t.resize true n with
      | none => rfl
      | some r =>
          obtain ⟨ok, t₁⟩ := r
          obtain ⟨rfl, hlength, hlowest⟩ := resize_true hresize
          -- the least free slot was the end of the table, which is behind the new end
          obtain ⟨k, hk, hleast⟩ := h.lowestFree
          have hiff := hleast.lt_iff
          have hnumber := h.numberFree
          have hslot : t₁.slot k = none := slot_of_le (by omega)
          rw [Option.bind_some]
          dsimp only
          rw [if_pos rfl, PointerTable.place, hlowest, hk, hslot, Option.map_none]
  · refine .inr (.inr ⟨hgrows, hbreaks, fun memory => ?_⟩)
    rw [hrun, hgrow]
    rfl

end Exact

/-! ### The array without failures -/

/-- A `PointerArray` as a table. -/
def ofArray (t : PointerArray α) : PointerTable α where
  lowestFree := t.lowestFree
  numberFree := t.numberFree
  size := t.size
  maxSize := t.maxSize
  blockSize := t.blockSize
  addr := if t.addr.isEmpty then none else some t.addr

lemma ofArray_addr {t : PointerArray α} (h : t.addr ≠ []) : (ofArray t).addr = some t.addr := by
  rw [ofArray, if_neg (by rwa [List.isEmpty_iff])]

lemma place_ofArray {t t' : PointerArray α} {x : α} {k : ℕ} (hplace : t.place x = some (k, t')) :
    (ofArray t).place x = some (.ok k, ofArray t') := by
  rw [PointerArray.place] at hplace
  dsimp only at hplace
  split at hplace
  · rename_i hlt
    obtain ⟨rfl, rfl⟩ := Prod.mk.inj (Option.some.inj hplace)
    have hlen : t.lowestFree < t.addr.length := hlt
    have hne : t.addr ≠ [] := List.ne_nil_of_length_pos (Nat.zero_lt_of_lt hlen)
    have hset : t.addr.set t.lowestFree (some x) ≠ [] := by
      rwa [Ne, List.set_eq_nil_iff]
    have hslot : (ofArray t).slot t.lowestFree = some t.addr[t.lowestFree] := by
      rw [slot_natCast, slots, ofArray_addr hne, Option.getD_some]
      exact List.getElem?_eq_getElem hlen
    have hstore : ((ofArray t).store t.lowestFree (some x)).addr
        = some (t.addr.set t.lowestFree (some x)) := by
      rw [store, ofArray_addr hne, Option.map_some, Int.toNat_natCast]
    have hloop := getD_nextFree ((ofArray t).store t.lowestFree (some x)) (t.lowestFree + 1)
      t.lowestFree
    rw [slots, hstore, Option.getD_some, Int.natCast_succ] at hloop
    change ((ofArray t).slot t.lowestFree).map _ = _
    rw [hslot, Option.map_some]
    refine congrArg some (Prod.ext rfl (PointerTable.ext ?_ rfl ?_ rfl rfl ?_))
    · change (if 0 < t.numberFree - 1 then _ else (t.size : ℤ))
        = ((if 0 < t.numberFree - 1 then _ else _ : ℕ) : ℤ)
      by_cases hfree : 0 < t.numberFree - 1
      · rw [if_pos hfree, if_pos hfree]
        exact hloop
      · rw [if_neg hfree, if_neg hfree, List.length_set]
        rfl
    · change (t.addr.length : ℤ) = ((t.addr.set t.lowestFree (some x)).length : ℕ)
      rw [List.length_set]
    · rw [ofArray_addr hset]
      exact hstore
  · cases hplace

lemma growTable_ofArray {t t' : PointerArray α} {soft hard : ℕ} (hsoft : 0 < soft)
    (hhard : 0 < hard) (hgrow : t.growTable soft hard = some t') :
    (ofArray t).growTable true soft hard = some (true, ofArray t') := by
  rw [PointerArray.growTable] at hgrow
  by_cases hrefused : t.maxSize < soft ∧ t.maxSize < hard
  · rw [if_pos hrefused] at hgrow
    cases hgrow
  · rw [if_neg hrefused] at hgrow
    obtain ⟨n, hn⟩ : ∃ n, n = if t.maxSize < soft then hard else soft := ⟨_, rfl⟩
    dsimp only at hgrow
    rw [← hn] at hgrow
    by_cases hmax : t.maxSize ≤ n
    · rw [if_pos hmax] at hgrow
      cases hgrow
    · rw [if_neg hmax] at hgrow
      obtain rfl := Option.some.inj hgrow
      have hpos : 0 < n := by
        rw [hn]
        split <;> assumption
      have hchoice : newSize (ofArray t).maxSize soft hard = some (n : ℤ) := by
        change newSize (t.maxSize : ℤ) soft hard = some (n : ℤ)
        rw [newSize]
        split at hn
        · rw [if_pos (by omega), if_neg (by omega), if_neg (by omega), hn]
        · rw [if_neg (by omega), if_neg (by omega), hn]
      have hguard : ¬ ((n : ℤ) < 0 ∨ true = false) := by simp
      have hnew : t.addr.take n ++ List.replicate (n - t.size) none ≠ [] := by
        intro hnil
        have hlength := congrArg List.length hnil
        rw [List.length_append, List.length_take, List.length_replicate, PointerArray.size,
          List.length_nil] at hlength
        omega
      rw [growTable, hchoice]
      dsimp only
      rw [resize, if_neg hguard]
      by_cases hempty : t.addr = []
      · have haddr : (ofArray t).addr = none := by
          rw [ofArray, hempty]
          rfl
        have hsize : ¬ 0 < (ofArray t).size := by
          change ¬ 0 < (t.addr.length : ℤ)
          rw [hempty]
          exact lt_irrefl 0
        rw [haddr]
        dsimp only
        rw [if_neg hsize]
        refine congrArg some (Prod.ext rfl (PointerTable.ext rfl rfl ?_ rfl rfl ?_))
        · change (n : ℤ) = ((t.addr.take n ++ List.replicate (n - t.size) none).length : ℕ)
          rw [PointerArray.size, hempty]
          simp
        · rw [ofArray_addr hnew, PointerArray.size, hempty]
          simp
      · have hne : (n : ℤ) ≠ 0 := by omega
        rw [ofArray_addr hempty]
        dsimp only
        rw [if_neg hne]
        refine congrArg some (Prod.ext rfl (PointerTable.ext rfl rfl ?_ rfl rfl ?_))
        · change (n : ℤ) = ((t.addr.take n ++ List.replicate (n - t.size) none).length : ℕ)
          rw [List.length_append, List.length_take, List.length_replicate, PointerArray.size]
          omega
        · rw [ofArray_addr hnew, Int.toNat_natCast, PointerArray.size]

/-- **`PointerArray.add` is `ocoms_pointer_array_add`** where there is memory, and where the size of
the table can be doubled. -/
lemma add_ofArray {t t' : PointerArray α} {x : α} {k : ℕ} (hsize : t.size < 2 ^ 30)
    (hadd : t.add x = some (k, t')) : (ofArray t).add true x = some (.ok k, ofArray t') := by
  rw [PointerArray.add] at hadd
  by_cases hfull : t.numberFree = 0
  · rw [if_pos hfull] at hadd
    obtain ⟨t₁, hgrow, hplace⟩ := Option.bind_eq_some_iff.mp hadd
    have hsoft : (if (ofArray t).addr.isNone then 1 else CInt.wrap ((ofArray t).size * tableGrow))
        = ((if t.size = 0 then 1 else t.size * tableGrow : ℕ) : ℤ) := by
      by_cases hempty : t.addr = []
      · have hzero : t.size = 0 := by rw [PointerArray.size, hempty]; rfl
        have haddr : (ofArray t).addr = none := by
          rw [ofArray, hempty]
          rfl
        rw [if_pos hzero, haddr]
        rfl
      · have hpos : t.size ≠ 0 := fun hzero => hempty (List.length_eq_zero_iff.mp hzero)
        have hdouble : (t.size : ℤ) * tableGrow = ((t.size * tableGrow : ℕ) : ℤ) := by
          rw [Int.natCast_mul]
        have hlarge : ((t.size * tableGrow : ℕ) : ℤ) ≤ CInt.max := by
          rw [CInt.max, tableGrow]
          omega
        rw [if_neg hpos, ofArray_addr hempty, ← CInt.wrap_eq (by omega) hlarge, ← hdouble]
        rfl
    have hsoftPos : 0 < if t.size = 0 then 1 else t.size * tableGrow := by
      rw [tableGrow]
      split <;> omega
    have hgrow' := growTable_ofArray hsoftPos (by decide) hgrow
    rw [PointerTable.add]
    change (if t.numberFree = 0 then _ else _) = _
    rw [if_pos hfull, hsoft, hgrow', Option.bind_some]
    dsimp only
    rw [if_pos rfl, place_ofArray hplace]
  · rw [if_neg hfull] at hadd
    rw [PointerTable.add]
    change (if t.numberFree = 0 then _ else _) = _
    rw [if_neg hfull, place_ofArray hadd]

end PointerTable

end Ocoms
