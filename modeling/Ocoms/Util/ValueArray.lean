import Mathlib.Data.Nat.Basic
import Mathlib.Order.Basic
import Mathlib.Tactic.Common
import Ocoms.Lib.CSize
import Ocoms.Lib.Doubling

/-!
The array of elements by value: `ocoms_value_array.h` and `ocoms_value_array.c`.

* `ValueArray` is `ocoms_value_array_t`; each function that allocates takes a flag that says whether
  the allocation succeeds, and `setSize` the fuel for its loop. `none` is an access outside the
  allocation, or a loop that has not ended.
* `ValueArray.Reachable`: the arrays after `init` and any calls. `Reachable.inv`: no call lets the
  size exceed the allocated size.
* `ValueArray.SetSizeOk t n` is what a caller expects of `setSize t n`, and `setSizeOk_iff` says
  when it is so.
-/

namespace Ocoms

/-- `OCOMS_SUCCESS` and `OCOMS_ERR_OUT_OF_RESOURCE`. -/
inductive ValueArrayRc
  | success | outOfResource
  deriving DecidableEq, Repr

/-- `ocoms_value_array_t`. `items` is the allocation, or a null pointer; a byte that was never
written is `none`. -/
@[ext]
structure ValueArray where
  items : Option (List (Option UInt8))
  itemSizeof : ℕ
  size : ℕ
  allocSize : ℕ
  deriving DecidableEq

namespace ValueArray

/-! ### The functions -/

/-- `realloc`: the first bytes are kept, the new ones are not defined. -/
def realloc (memory : Bool) (items : Option (List (Option UInt8))) (n : ℕ) :
    Option (List (Option UInt8)) :=
  if memory then
    let old := items.getD []
    some (old.take n ++ List.replicate (n - old.length) none)
  else none

/-- `ocoms_value_array_construct`. -/
def construct : ValueArray where
  items := none
  itemSizeof := 0
  size := 0
  allocSize := 0

/-- `ocoms_value_array_init`. -/
def init (memory : Bool) (t : ValueArray) (itemSizeof : ℕ) : ValueArrayRc × ValueArray :=
  let items := realloc memory t.items (itemSizeof * 1 % sizeT)
  (if items.isSome then .success else .outOfResource, ⟨items, itemSizeof, 0, 1⟩)

/-- `ocoms_value_array_reserve`. -/
def reserve (memory : Bool) (t : ValueArray) (size : ℕ) : ValueArrayRc × ValueArray :=
  if t.allocSize < size then
    let items := realloc memory t.items (t.itemSizeof * size % sizeT)
    if items.isNone then (.outOfResource, { t with items, size := 0, allocSize := 0 })
    else (.success, { t with items, allocSize := size })
  else (.success, t)

/-- The part of `ocoms_value_array_set_size` behind the loop. -/
def resize (memory : Bool) (t : ValueArray) (size allocSize : ℕ) : ValueArrayRc × ValueArray :=
  let items := realloc memory t.items (allocSize * t.itemSizeof % sizeT)
  if items.isNone then (.outOfResource, { t with items, allocSize })
  else (.success, { t with items, allocSize, size })

/-- `ocoms_value_array_set_size`. -/
def setSize (memory : Bool) (fuel : ℕ) (t : ValueArray) (size : ℕ) :
    Option (ValueArrayRc × ValueArray) :=
  if t.allocSize < size then
    (loop (Doubling.body sizeT size) fuel t.allocSize).map (t.resize memory size)
  else some (.success, { t with size })

/-- `ocoms_value_array_get_item`: the offset of the item, or a null pointer. -/
def getItem (memory : Bool) (fuel : ℕ) (t : ValueArray) (itemIndex : ℕ) :
    Option (Option ℕ × ValueArray) :=
  if itemIndex < t.size then some (some (itemIndex * t.itemSizeof % sizeT), t)
  else (t.setSize memory fuel ((itemIndex + 1) % sizeT)).map fun (rc, t) =>
    (if rc = .success then some (itemIndex * t.itemSizeof % sizeT) else none, t)

/-- The `memcpy` of `ocoms_value_array_set_item`. -/
def store (t : ValueArray) (itemIndex : ℕ) (item : List UInt8) : Option ValueArray :=
  t.items.bind fun bytes =>
    let offset := itemIndex * t.itemSizeof % sizeT
    if offset + t.itemSizeof ≤ bytes.length ∧ item.length = t.itemSizeof then
      some { t with
        items := some (bytes.take offset ++ item.map some ++ bytes.drop (offset + t.itemSizeof)) }
    else none

/-- `ocoms_value_array_set_item`. -/
def setItem (memory : Bool) (fuel : ℕ) (t : ValueArray) (itemIndex : ℕ) (item : List UInt8) :
    Option (ValueArrayRc × ValueArray) :=
  if itemIndex < t.size then (t.store itemIndex item).map (.success, ·)
  else (t.setSize memory fuel ((itemIndex + 1) % sizeT)).bind fun (rc, t) =>
    if rc = .success then (t.store itemIndex item).map (.success, ·) else some (rc, t)

/-- `ocoms_value_array_append_item`. -/
def appendItem (memory : Bool) (fuel : ℕ) (t : ValueArray) (item : List UInt8) :
    Option (ValueArrayRc × ValueArray) :=
  t.setItem memory fuel t.size item

/-- `ocoms_value_array_remove_item`. -/
def removeItem (t : ValueArray) (itemIndex : ℕ) : Option (ValueArrayRc × ValueArray) :=
  t.items.bind fun bytes =>
    let dest := t.itemSizeof * itemIndex % sizeT
    let src := t.itemSizeof * ((itemIndex + 1) % sizeT) % sizeT
    let n := t.itemSizeof * subSizeT (subSizeT t.size itemIndex) 1 % sizeT
    if dest + n ≤ bytes.length ∧ src + n ≤ bytes.length then
      some (.success, { t with
        items := some (bytes.take dest ++ (bytes.drop src).take n ++ bytes.drop (dest + n))
        size := subSizeT t.size 1 })
    else none

/-- The functions that a user calls after `init`. -/
inductive Op
  | reserve (size : ℕ)
  | setSize (size : ℕ)
  | setItem (itemIndex : ℕ) (item : List UInt8)
  | getItem (itemIndex : ℕ)
  | append (item : List UInt8)
  | remove (itemIndex : ℕ)

/-- The arguments are values of type `size_t`, and an index to remove is below the size. -/
def Op.Valid (t : ValueArray) : Op → Prop
  | .reserve n | .setSize n | .setItem n _ | .getItem n => n < sizeT
  | .append _ => True
  | .remove i => i < t.size

/-- The array after a call. -/
def step (memory : Bool) (fuel : ℕ) (t : ValueArray) : Op → Option ValueArray
  | .reserve n => some (t.reserve memory n).2
  | .setSize n => (t.setSize memory fuel n).map Prod.snd
  | .setItem i item => (t.setItem memory fuel i item).map Prod.snd
  | .getItem i => (t.getItem memory fuel i).map Prod.snd
  | .append item => (t.appendItem memory fuel item).map Prod.snd
  | .remove i => (t.removeItem i).map Prod.snd

/-- The arrays of items of `itemSizeof` bytes, after `init` and any calls. -/
inductive Reachable (itemSizeof : ℕ) : ValueArray → Prop
  | init (memory : Bool) : Reachable itemSizeof (init memory construct itemSizeof).2
  | step {t t' : ValueArray} (memory : Bool) (fuel : ℕ) (op : Op) : Reachable itemSizeof t →
      op.Valid t → t.step memory fuel op = some t' → Reachable itemSizeof t'

/-! ### Allocations and items -/

/-- The number of bytes of the allocation. -/
def allocated (t : ValueArray) : ℕ := (t.items.getD []).length

/-- The bytes of an item. -/
def item (t : ValueArray) (i : ℕ) : List (Option UInt8) :=
  ((t.items.getD []).drop (i * t.itemSizeof)).take t.itemSizeof

/-- The allocation after a `realloc` for which there is memory. -/
lemma realloc_true (items : Option (List (Option UInt8))) (n : ℕ) :
    ∃ bytes, realloc true items n = some bytes ∧ bytes.length = n ∧
      ∀ m ≤ n, m ≤ (items.getD []).length → bytes.take m = (items.getD []).take m := by
  refine ⟨_, rfl, ?_, fun m hmn hm => ?_⟩
  · rw [List.length_append, List.length_take, List.length_replicate]
    omega
  · rw [List.take_append_of_le_length (by rw [List.length_take]; omega), List.take_take]
    congr 1
    omega

lemma item_length (t : ValueArray) (i : ℕ) :
    (t.item i).length = min t.itemSizeof (t.allocated - i * t.itemSizeof) := by
  rw [item, List.length_take, List.length_drop, allocated]

/-- An item is inside the allocation if it has all its bytes. -/
lemma item_length_eq_iff {t : ValueArray} {i : ℕ} (h : 0 < t.itemSizeof) :
    (t.item i).length = t.itemSizeof ↔ (i + 1) * t.itemSizeof ≤ t.allocated := by
  rw [item_length, Nat.succ_mul]
  omega

/-- Items are kept where the bytes are. -/
lemma item_congr {t t' : ValueArray} {m i : ℕ} (hsz : t'.itemSizeof = t.itemSizeof)
    (htake : (t'.items.getD []).take m = (t.items.getD []).take m)
    (hi : (i + 1) * t.itemSizeof ≤ m) : t'.item i = t.item i := by
  have hcut : ∀ bytes : List (Option UInt8), (bytes.drop (i * t.itemSizeof)).take t.itemSizeof =
      ((bytes.take m).drop (i * t.itemSizeof)).take t.itemSizeof := by
    intro bytes
    rw [List.drop_take, List.take_take]
    congr 1
    rw [Nat.succ_mul] at hi
    omega
  rw [item, item, hsz, hcut, htake, ← hcut]

/-! ### What `setSize` does -/

/-- A call of `setSize` that returns. -/
lemma setSize_cases {memory : Bool} {fuel n : ℕ} {t t' : ValueArray} {rc : ValueArrayRc}
    (ht : t.allocSize < sizeT) (h : t.setSize memory fuel n = some (rc, t')) :
    (n ≤ t.allocSize ∧ rc = .success ∧ t' = { t with size := n }) ∨
    ∃ k, t.allocSize < n ∧ Doubling.FirstFit sizeT n t.allocSize k ∧
      t.resize memory n (t.allocSize * 2 ^ k % sizeT) = (rc, t') := by
  unfold setSize at h
  split at h
  case isTrue hlt =>
    obtain ⟨a, ha, heq⟩ := Option.map_eq_some_iff.1 h
    obtain ⟨k, -, hfit, rfl⟩ := (Doubling.loop_eq_some ht).1 ha
    exact .inr ⟨k, hlt, hfit, heq⟩
  case isFalse hge =>
    obtain ⟨rfl, rfl⟩ := Prod.mk.inj (Option.some.inj h)
    exact .inl ⟨by omega, rfl, rfl⟩

/-- The growth of an array for which there is memory. -/
lemma resize_true (t : ValueArray) (n a : ℕ) :
    ∃ t', t.resize true n a = (.success, t') ∧ t'.itemSizeof = t.itemSizeof ∧ t'.size = n ∧
      t'.allocSize = a ∧ t'.allocated = a * t.itemSizeof % sizeT ∧
      ∀ i, (i + 1) * t.itemSizeof ≤ t.allocated → (i + 1) * t.itemSizeof ≤ t'.allocated →
        t'.item i = t.item i := by
  obtain ⟨bytes, hbytes, hlen, htake⟩ := realloc_true t.items (a * t.itemSizeof % sizeT)
  refine ⟨{ t with items := some bytes, allocSize := a, size := n }, ?_, rfl, rfl, rfl, hlen, ?_⟩
  · simp only [resize, hbytes, Option.isNone_some, Bool.false_eq_true, if_false]
  · intro i hold hnew
    exact item_congr rfl (htake _ (hnew.trans (by rw [allocated, Option.getD_some, hlen])) hold)
      le_rfl

lemma resize_false (t : ValueArray) (n a : ℕ) :
    t.resize false n a = (.outOfResource, { t with items := none, allocSize := a }) := rfl

/-- What a caller expects of `setSize`: it returns, and unless it reports an error the array has the
new size, the allocation covers its items and the earlier items are unchanged. -/
def SetSizeOk (t : ValueArray) (n : ℕ) : Prop :=
  ∃ fuel, ∀ memory, ∃ rc t', t.setSize memory fuel n = some (rc, t') ∧
    (rc = .success → t'.size = n ∧ n ≤ t'.allocSize ∧ n * t'.itemSizeof ≤ t'.allocated ∧
      ∀ i < min t.size n, t'.item i = t.item i)

/-- When it does: the allocation is large enough, or it holds the items of the array and doubling
gives a size that is large enough. -/
def CanSetSize (t : ValueArray) (n : ℕ) : Prop :=
  (n ≤ t.allocSize ∧ n * t.itemSizeof ≤ t.allocated) ∨
  (t.allocSize < n ∧ t.size * t.itemSizeof ≤ t.allocated ∧
    Doubling.Fits sizeT t.itemSizeof n t.allocSize)

/-- **The condition for `setSize`.** -/
theorem setSizeOk_iff {t : ValueArray} {n : ℕ} (hsz : 0 < t.itemSizeof)
    (hsize : t.size ≤ t.allocSize) (halloc : t.allocSize < sizeT) (hn : n * t.itemSizeof < sizeT) :
    t.SetSizeOk n ↔ t.CanSetSize n := by
  constructor
  · rintro ⟨fuel, hret⟩
    obtain ⟨rc, t', hcall, hok⟩ := hret true
    obtain ⟨hle, rfl, rfl⟩ | ⟨k, hlt, hfit, hresize⟩ := setSize_cases halloc hcall
    · obtain ⟨-, -, hcover, -⟩ := hok rfl
      exact .inl ⟨hle, hcover⟩
    · obtain ⟨t'', heq, hsizeof, -, -, hbytes, -⟩ := t.resize_true n (t.allocSize * 2 ^ k % sizeT)
      obtain ⟨rfl, rfl⟩ := Prod.mk.inj (hresize.symm.trans heq)
      obtain ⟨-, -, hcover, hitems⟩ := hok rfl
      rw [hsizeof] at hcover
      refine .inr ⟨hlt, ?_, (Doubling.fits_iff hsz halloc hlt hn).1 ⟨k, hfit, hbytes ▸ hcover⟩⟩
      cases hzero : t.size with
      | zero => simp
      | succ i =>
          -- The last item is whole after the growth, so it was whole before.
          have hlast := hitems i (by omega)
          rw [← item_length_eq_iff hsz, ← hlast, ← hsizeof, item_length_eq_iff (hsizeof ▸ hsz),
            hsizeof]
          exact (Nat.mul_le_mul_right _ (by omega)).trans hcover
  · rintro (⟨hle, hcover⟩ | ⟨hlt, hcover, hfits⟩)
    · refine ⟨0, fun memory => ⟨.success, { t with size := n }, ?_, fun _ => ?_⟩⟩
      · rw [setSize, if_neg (by omega)]
      · exact ⟨rfl, hle, hcover, fun i _ => rfl⟩
    · obtain ⟨k, hfit, hnew⟩ := (Doubling.fits_iff hsz halloc hlt hn).2 hfits
      have hloop : loop (Doubling.body sizeT n) (k + 1) t.allocSize =
          some (t.allocSize * 2 ^ k % sizeT) :=
        (Doubling.loop_eq_some halloc).2 ⟨k, by omega, hfit, rfl⟩
      have hcall : ∀ memory, t.setSize memory (k + 1) n =
          some (t.resize memory n (t.allocSize * 2 ^ k % sizeT)) := by
        intro memory
        rw [setSize, if_pos hlt, hloop, Option.map_some]
      refine ⟨k + 1, fun memory => ?_⟩
      cases memory with
      | false =>
          refine ⟨_, _, hcall false, fun h => ?_⟩
          cases h
      | true =>
          obtain ⟨t', heq, hsizeof, hsize', halloc', hbytes, hitems⟩ :=
            t.resize_true n (t.allocSize * 2 ^ k % sizeT)
          refine ⟨.success, t', heq ▸ hcall true, fun _ => ⟨hsize', ?_, ?_, fun i hi => ?_⟩⟩
          · rw [halloc']
            exact hfit.fits
          · rw [hsizeof, hbytes]
            exact hnew
          · refine hitems i ((Nat.mul_le_mul_right _ ?_).trans hcover) ?_
            · omega
            · rw [hbytes]
              exact (Nat.mul_le_mul_right _ (by omega)).trans hnew

/-! ### Runs -/

/-- The number of items that a call asks for. -/
def Op.asks (t : ValueArray) : Op → ℕ
  | .reserve n | .setSize n => n
  | .setItem i _ | .getItem i => (i + 1) % sizeT
  | .append _ => (t.size + 1) % sizeT
  | .remove _ => 0

/-- What a call can do to the sizes of the array. -/
inductive Change (memory : Bool) (t : ValueArray) (op : Op) (t' : ValueArray) : Prop
  | kept (hsize : t'.size ≤ t.allocSize) (halloc : t'.allocSize = t.allocSize)
      (hbytes : t'.allocated = t.allocated)
  | reserved (hop : op = .reserve t'.allocSize) (hlt : t.allocSize < t'.allocSize)
      (hsize : t'.size = t.size) (hbytes : t'.allocated = t.itemSizeof * t'.allocSize % sizeT)
  | dropped (hmemory : memory = false) (hsize : t'.size = 0) (halloc : t'.allocSize = 0)
  | grown (k : ℕ) (hop : ∀ n, op ≠ .reserve n) (hlt : t.allocSize < op.asks t)
      (hfit : Doubling.FirstFit sizeT (op.asks t) t.allocSize k) (hsize : t'.size = op.asks t)
      (halloc : t'.allocSize = t.allocSize * 2 ^ k % sizeT)
      (hbytes : t'.allocated = t'.allocSize * t.itemSizeof % sizeT)
  | failed (k : ℕ) (hmemory : memory = false) (hsize : t'.size = t.size)
      (halloc : t'.allocSize = t.allocSize * 2 ^ k % sizeT)
      (hlt : t.allocSize < t'.allocSize)

/-- The invariant of every run. -/
structure Inv (itemSizeof : ℕ) (t : ValueArray) : Prop where
  sizeof : t.itemSizeof = itemSizeof
  size_le : t.size ≤ t.allocSize
  alloc_lt : t.allocSize < sizeT

variable {itemSizeof : ℕ} {t t' : ValueArray} {memory : Bool} {fuel : ℕ} {op : Op}

lemma change_setSize {n : ℕ} {rc : ValueArrayRc} (hInv : Inv itemSizeof t)
    (hop : ∀ m, op ≠ .reserve m) (hn : op.asks t = n)
    (h : t.setSize memory fuel n = some (rc, t')) :
    t'.itemSizeof = t.itemSizeof ∧ Change memory t op t' := by
  subst hn
  obtain ⟨hle, rfl, rfl⟩ | ⟨k, hlt, hfit, hresize⟩ := setSize_cases hInv.alloc_lt h
  · exact ⟨rfl, .kept hle rfl rfl⟩
  · cases memory with
    | true =>
        obtain ⟨t'', heq, hsizeof, hsize, halloc, hbytes, -⟩ :=
          t.resize_true (op.asks t) (t.allocSize * 2 ^ k % sizeT)
        obtain ⟨-, rfl⟩ := Prod.mk.inj (hresize.symm.trans heq)
        exact ⟨hsizeof, .grown k hop hlt hfit hsize halloc (halloc ▸ hbytes)⟩
    | false =>
        rw [resize_false] at hresize
        obtain ⟨-, rfl⟩ := Prod.mk.inj hresize
        exact ⟨rfl, .failed k rfl rfl rfl (hlt.trans_le hfit.fits)⟩

lemma store_change {i : ℕ} {bytes : List UInt8} {t'' : ValueArray}
    (h : t.store i bytes = some t')
    (hchange : t.itemSizeof = t''.itemSizeof ∧ Change memory t'' op t) :
    t'.itemSizeof = t''.itemSizeof ∧ Change memory t'' op t' := by
  obtain ⟨items, hitems, hstore⟩ := Option.bind_eq_some_iff.1 h
  dsimp only at hstore
  split at hstore
  case isFalse => cases hstore
  case isTrue hbound =>
    obtain rfl := Option.some.inj hstore
    refine ⟨hchange.1, ?_⟩
    have hlen : allocated { t with
        items := some (items.take (i * t.itemSizeof % sizeT) ++ bytes.map some ++
          items.drop (i * t.itemSizeof % sizeT + t.itemSizeof)) } = t.allocated := by
      rw [allocated, allocated, hitems, Option.getD_some, Option.getD_some, List.length_append,
        List.length_append, List.length_take, List.length_map, List.length_drop, hbound.2]
      omega
    cases hchange.2 with
    | kept hsize halloc hbytes => exact .kept hsize halloc (hlen.trans hbytes)
    | reserved hop hlt hsize hbytes => exact .reserved hop hlt hsize (hlen.trans hbytes)
    | dropped hmemory hsize halloc => exact .dropped hmemory hsize halloc
    | grown k hop hlt hfit hsize halloc hbytes =>
        exact .grown k hop hlt hfit hsize halloc (hlen.trans hbytes)
    | failed k hmemory hsize halloc hlt => exact .failed k hmemory hsize halloc hlt

lemma change_setItem {i : ℕ} {bytes : List UInt8} {rc : ValueArrayRc} (hInv : Inv itemSizeof t)
    (hop : ∀ m, op ≠ .reserve m) (hn : op.asks t = (i + 1) % sizeT)
    (h : t.setItem memory fuel i bytes = some (rc, t')) :
    t'.itemSizeof = t.itemSizeof ∧ Change memory t op t' := by
  unfold setItem at h
  split at h
  case isTrue hlt =>
    obtain ⟨t₁, hstore, heq⟩ := Option.map_eq_some_iff.1 h
    obtain ⟨-, rfl⟩ := Prod.mk.inj heq
    exact store_change hstore ⟨rfl, .kept hInv.size_le rfl rfl⟩
  case isFalse hge =>
    obtain ⟨⟨rc₁, t₁⟩, hset, hstore⟩ := Option.bind_eq_some_iff.1 h
    have hchange := change_setSize hInv hop hn hset
    dsimp only at hstore
    split at hstore
    case isTrue =>
      obtain ⟨t₂, hstored, heq⟩ := Option.map_eq_some_iff.1 hstore
      obtain ⟨-, rfl⟩ := Prod.mk.inj heq
      exact store_change hstored hchange
    case isFalse =>
      obtain ⟨-, rfl⟩ := Prod.mk.inj (Option.some.inj hstore)
      exact hchange

/-- **A call changes the sizes in one of five ways.** -/
theorem step_change (hInv : Inv itemSizeof t) (hvalid : op.Valid t)
    (h : t.step memory fuel op = some t') :
    t'.itemSizeof = t.itemSizeof ∧ Change memory t op t' := by
  cases op with
  | reserve n =>
      obtain rfl := Option.some.inj h
      unfold ValueArray.reserve
      split
      case isFalse => exact ⟨rfl, .kept hInv.size_le rfl rfl⟩
      case isTrue hlt =>
        cases memory with
        | false => exact ⟨rfl, .dropped rfl rfl rfl⟩
        | true =>
            obtain ⟨bytes, hbytes, hlen, -⟩ := realloc_true t.items (t.itemSizeof * n % sizeT)
            simp only [hbytes, Option.isNone_some, Bool.false_eq_true, if_false]
            exact ⟨trivial, .reserved rfl hlt rfl hlen⟩
  | setSize n =>
      obtain ⟨⟨rc, t₁⟩, hset, rfl⟩ := Option.map_eq_some_iff.1 h
      exact change_setSize hInv (by simp) rfl hset
  | setItem i bytes =>
      obtain ⟨⟨rc, t₁⟩, hset, rfl⟩ := Option.map_eq_some_iff.1 h
      exact change_setItem hInv (by simp) rfl hset
  | getItem i =>
      obtain ⟨⟨rc, t₁⟩, hget, rfl⟩ := Option.map_eq_some_iff.1 h
      unfold ValueArray.getItem at hget
      split at hget
      case isTrue =>
        obtain ⟨-, rfl⟩ := Prod.mk.inj (Option.some.inj hget)
        exact ⟨rfl, .kept hInv.size_le rfl rfl⟩
      case isFalse =>
        obtain ⟨⟨rc₂, t₂⟩, hset, heq⟩ := Option.map_eq_some_iff.1 hget
        obtain ⟨-, rfl⟩ := Prod.mk.inj heq
        exact change_setSize hInv (by simp) rfl hset
  | append bytes =>
      obtain ⟨⟨rc, t₁⟩, hset, rfl⟩ := Option.map_eq_some_iff.1 h
      exact change_setItem hInv (by simp) rfl hset
  | remove i =>
      obtain ⟨⟨rc, t₁⟩, hremove, rfl⟩ := Option.map_eq_some_iff.1 h
      obtain ⟨items, hitems, hremove⟩ := Option.bind_eq_some_iff.1 hremove
      dsimp only at hremove
      split at hremove
      case isFalse => cases hremove
      case isTrue hbound =>
        obtain ⟨-, rfl⟩ := Prod.mk.inj (Option.some.inj hremove)
        have hlt : i < t.size := hvalid
        have hsize := hInv.size_le
        have halloc := hInv.alloc_lt
        refine ⟨rfl, .kept ?_ rfl ?_⟩
        · dsimp only
          rw [subSizeT_eq (by omega) (by omega)]
          omega
        · rw [allocated, allocated, hitems, Option.getD_some, Option.getD_some, List.length_append,
            List.length_append, List.length_take, List.length_take, List.length_drop,
            List.length_drop]
          omega

/-- The invariant is kept by every call. -/
lemma Inv.step (hInv : Inv itemSizeof t) (hvalid : op.Valid t)
    (h : t.step memory fuel op = some t') : Inv itemSizeof t' := by
  obtain ⟨hsizeof, hchange⟩ := step_change hInv hvalid h
  have hsize_le := hInv.size_le
  have hmod : ∀ k, t.allocSize * 2 ^ k % sizeT < sizeT := fun k =>
    Nat.mod_lt _ (by rw [sizeT]; omega)
  refine ⟨hsizeof.trans hInv.sizeof, ?_, ?_⟩
  · cases hchange with
    | kept hsize halloc => rwa [halloc]
    | reserved hop hlt hsize => omega
    | dropped _ hsize halloc => omega
    | grown k hop hlt hfit hsize halloc =>
        rw [hsize, halloc]
        exact hfit.fits
    | failed k _ hsize halloc hlt => omega
  · cases hchange with
    | kept _ halloc => exact halloc ▸ hInv.alloc_lt
    | reserved hop =>
        rw [hop] at hvalid
        exact hvalid
    | dropped _ _ halloc =>
        rw [halloc, sizeT]
        omega
    | grown k _ _ _ _ halloc => exact halloc ▸ hmod k
    | failed k _ _ halloc => exact halloc ▸ hmod k

/-- **The invariant holds in every run.** -/
theorem Reachable.inv (h : Reachable itemSizeof t) : Inv itemSizeof t := by
  induction h with
  | init memory => exact ⟨rfl, Nat.zero_le _, (by decide : 1 < sizeT)⟩
  | step memory fuel op _ hvalid hstep ih => exact ih.step hvalid hstep

/-- The array need not grow to this size, or doubling gives one that is large enough. -/
def Fitting (t : ValueArray) (n : ℕ) : Prop :=
  n ≤ t.allocSize ∨ Doubling.Fits sizeT t.itemSizeof n t.allocSize

/-- The condition on the calls of a run. -/
def Op.Fitting (t : ValueArray) : Op → Prop
  | .reserve n => n ≤ t.allocSize ∨ n * t.itemSizeof < sizeT
  | op => t.Fitting (op.asks t)

/-- The arrays after calls with arguments that meet the condition, if there is memory for each. -/
inductive Granted (itemSizeof : ℕ) : ValueArray → Prop
  | init : Granted itemSizeof (init true construct itemSizeof).2
  | step {t t' : ValueArray} (fuel : ℕ) (op : Op) : Granted itemSizeof t → op.Valid t →
      op.Fitting t → t.step true fuel op = some t' → Granted itemSizeof t'

/-- The invariant of such a run. -/
structure Sound (itemSizeof : ℕ) (t : ValueArray) : Prop extends Inv itemSizeof t where
  alloc_pos : 0 < t.allocSize
  bytes_lt : t.allocSize * itemSizeof < sizeT
  covered : t.allocSize * itemSizeof ≤ t.allocated

lemma Sound.step (hSound : Sound itemSizeof t) (hpos : 0 < itemSizeof) (hvalid : op.Valid t)
    (hfitting : op.Fitting t) (h : t.step true fuel op = some t') : Sound itemSizeof t' := by
  have hInv := hSound.toInv.step hvalid h
  obtain ⟨-, hchange⟩ := step_change hSound.toInv hvalid h
  have hsizeof := hSound.sizeof
  cases hchange with
  | kept hsize halloc hbytes =>
      refine ⟨hInv, ?_, ?_, ?_⟩
      · exact halloc ▸ hSound.alloc_pos
      · exact halloc ▸ hSound.bytes_lt
      · rw [halloc, hbytes]
        exact hSound.covered
  | reserved hop hlt hsize hbytes =>
      rw [hop] at hfitting
      have hlt' : t'.allocSize * itemSizeof < sizeT := by
        rcases hfitting with hle | hlt'
        · omega
        · exact hsizeof ▸ hlt'
      refine ⟨hInv, by omega, hlt', ?_⟩
      rw [hbytes, hsizeof, Nat.mul_comm itemSizeof, Nat.mod_eq_of_lt hlt']
  | dropped hmemory => cases hmemory
  | grown k hop hlt hfit hsize halloc hbytes =>
      have hfits : Doubling.Fits sizeT itemSizeof (op.asks t) t.allocSize := by
        have hfitting : t.Fitting (op.asks t) := by
          cases op with
          | reserve n => exact absurd rfl (hop n)
          | _ => exact hfitting
        rcases hfitting with hle | hfits
        · omega
        · exact hsizeof ▸ hfits
      have hlt' : t'.allocSize * itemSizeof < sizeT := by
        rw [halloc]
        exact hfits.mul_lt hpos hSound.alloc_lt hfit
      refine ⟨hInv, ?_, hlt', ?_⟩
      · have := hfit.fits
        omega
      · rw [hbytes, hsizeof, Nat.mod_eq_of_lt hlt']
  | failed k hmemory => cases hmemory

theorem Granted.sound (h : Granted itemSizeof t) (hpos : 0 < itemSizeof)
    (hlt : itemSizeof < sizeT) : Sound itemSizeof t := by
  induction h with
  | init =>
      have hmod : itemSizeof * 1 % sizeT = itemSizeof := by
        rw [Nat.mul_one, Nat.mod_eq_of_lt hlt]
      obtain ⟨bytes, hbytes, hlen, -⟩ := realloc_true none (itemSizeof * 1 % sizeT)
      refine ⟨⟨rfl, Nat.zero_le _, (by decide : 1 < sizeT)⟩, Nat.one_pos, ?_, ?_⟩
      · exact (Nat.one_mul itemSizeof).symm ▸ hlt
      · rw [ValueArray.init, allocated, construct, hbytes, Option.getD_some, hlen, hmod,
          Nat.one_mul]
  | step fuel op _ hvalid hfitting hstep ih => exact ih.step hpos hvalid hfitting hstep

/-- In such a run `setSize` does what a caller expects, for every size that fits. -/
lemma Sound.setSizeOk {n : ℕ} (hSound : Sound itemSizeof t) (hpos : 0 < itemSizeof)
    (hn : n * itemSizeof < sizeT) (hfitting : t.Fitting n) : t.SetSizeOk n := by
  have hsizeof := hSound.sizeof
  refine (setSizeOk_iff (hsizeof ▸ hpos) hSound.size_le hSound.alloc_lt (hsizeof ▸ hn)).2 ?_
  have hcovers : ∀ m ≤ t.allocSize, m * t.itemSizeof ≤ t.allocated := fun m hm => by
    rw [hsizeof]
    exact (Nat.mul_le_mul_right _ hm).trans hSound.covered
  by_cases hle : n ≤ t.allocSize
  · exact .inl ⟨hle, hcovers n hle⟩
  · exact .inr ⟨by omega, hcovers _ hSound.size_le, hfitting.resolve_left hle⟩

/-- **Growth of a value array.** In every run the size is at most the allocated size, and `setSize`
returns, with an error or with the items unchanged and covered, exactly under `CanSetSize`. Where
each allocation so far has succeeded and the sizes asked for fit, it does so for every size that
fits. -/
theorem value_array_growth {itemSizeof : ℕ} (hpos : 0 < itemSizeof) (hlt : itemSizeof < sizeT) :
    (∀ t, Reachable itemSizeof t → t.size ≤ t.allocSize ∧
      ∀ n, n * itemSizeof < sizeT → (t.SetSizeOk n ↔ t.CanSetSize n)) ∧
    ∀ t, Granted itemSizeof t → ∀ n, n * itemSizeof < sizeT → t.Fitting n → t.SetSizeOk n := by
  constructor
  · intro t ht
    have hInv := ht.inv
    refine ⟨hInv.size_le, fun n hn => ?_⟩
    exact setSizeOk_iff (hInv.sizeof ▸ hpos) hInv.size_le hInv.alloc_lt (hInv.sizeof ▸ hn)
  · intro t ht n hn hfitting
    exact (ht.sound hpos hlt).setSizeOk hpos hn hfitting

/-- The growth of an array of items of eight bytes. -/
theorem value_array_growth_eight :
    (∀ t, Reachable 8 t → t.size ≤ t.allocSize ∧
      ∀ n, n * 8 < sizeT → (t.SetSizeOk n ↔ t.CanSetSize n)) ∧
    ∀ t, Granted 8 t → ∀ n, n * 8 < sizeT → t.Fitting n → t.SetSizeOk n :=
  value_array_growth (by decide) (by rw [sizeT]; decide)

/-- After a `reserve` that reports an error the loop of `setSize` does not end: the allocated size
is 0. -/
theorem value_array_growth_fails :
    ¬ ∀ itemSizeof t, 0 < itemSizeof → itemSizeof < sizeT → Reachable itemSizeof t →
      ∀ n, n * itemSizeof < sizeT → t.SetSizeOk n := by
  intro h
  have hinit : Reachable 8 (init true construct 8).2 := .init true
  have hreserve : Reachable 8 ((init true construct 8).2.reserve false 10).2 :=
    .step false 0 (.reserve 10) hinit (by decide : 10 < sizeT) rfl
  obtain ⟨fuel, hret⟩ := h 8 _ (by decide) (by decide) hreserve 1 (by decide)
  obtain ⟨rc, t', hcall, -⟩ := hret true
  obtain ⟨hle, -⟩ | ⟨k, -, hfit, -⟩ := setSize_cases (by decide) hcall
  · exact absurd hle (by decide)
  · exact Doubling.not_firstFit_zero Nat.one_pos hfit

end ValueArray

end Ocoms
