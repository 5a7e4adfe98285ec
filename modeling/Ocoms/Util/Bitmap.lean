import Mathlib.Algebra.Group.Nat.Defs
import Mathlib.Data.Set.Insert
import Mathlib.Logic.Relation
import Ocoms.Lib.ByteBits
import Ocoms.Lib.CInt

/-!
The bitmap: `ocoms_bitmap.c`.

* `Bitmap` is `ocoms_bitmap_t`; each function takes a flag that says whether the allocation it may
  make succeeds, and `none` is a read or a write through a null pointer.
* `Bitmap.Holds bm s` says that the bitmap is the set `s`; one lemma for each function says what
  becomes of the set.
* `bitmap_refines`: the bitmap refines a set as long as it stays below `2 ^ 28` bytes.
  `bitmap_init_max_fails` is a larger one.
* `bitmap_limit_iff`: which limits of `ocoms_bitmap_set_max_size` are limits in bits.
-/

namespace Ocoms

open ByteBits

/-! ### The functions -/

/-- `OCOMS_SUCCESS`, `OCOMS_ERR_BAD_PARAM` and `OCOMS_ERR_OUT_OF_RESOURCE`. -/
inductive BitmapRc
  | success | badParam | outOfResource
  deriving DecidableEq, Repr

/-- `ocoms_bitmap_t`; `bitmap` is `none` where the pointer is null. -/
structure Bitmap where
  bitmap : Option (List Octet)
  arraySize : ℕ
  maxSize : ℤ
  deriving DecidableEq

namespace Bitmap

/-- `ocoms_bitmap_construct`. -/
def construct : Bitmap := { bitmap := none, arraySize := 0, maxSize := CInt.max }

/-- `ocoms_bitmap_set_max_size`. -/
def setMaxSize (bm : Bitmap) (maxSize : ℤ) : Bitmap :=
  { bm with maxSize := maxSize.tdiv 8 + if maxSize.tmod 8 = 0 then 0 else 1 }

/-- `ocoms_bitmap_clear_all_bits`. -/
def clearAllBits (bm : Bitmap) : Option (BitmapRc × Bitmap) :=
  bm.bitmap.map fun _ => (.success, { bm with bitmap := some (List.replicate bm.arraySize 0#8) })

/-- `ocoms_bitmap_set_all_bits`. -/
def setAllBits (bm : Bitmap) : Option (BitmapRc × Bitmap) :=
  bm.bitmap.map fun _ =>
    (.success, { bm with bitmap := some (List.replicate bm.arraySize 0xff#8) })

/-- `ocoms_bitmap_init`. -/
def init (memory : Bool) (bm : Bitmap) (size : ℤ) : BitmapRc × Bitmap :=
  if size ≤ 0 ∨ bm.maxSize < size then (.badParam, bm)
  else
    let actualSize := size.toNat / 8 + if size.toNat % 8 = 0 then 0 else 1
    if memory then
      (.success, { bm with bitmap := some (List.replicate actualSize 0#8), arraySize := actualSize })
    else (.outOfResource, { bm with bitmap := none, arraySize := actualSize })

/-- The growth in `ocoms_bitmap_set_bit`: the result of `realloc` replaces the pointer before it is
looked at. The bytes that `realloc` of a null pointer returns are not defined. -/
def grow (memory : Bool) (bm : Bitmap) (index : ℕ) : Option (BitmapRc × Bitmap) :=
  if bm.arraySize = 0 then none
  else
    let newSize := (index / bm.arraySize + 1) * bm.arraySize
    match memory, bm.bitmap with
    | false, _ => some (.outOfResource, { bm with bitmap := none })
    | true, none => none
    | true, some bytes =>
        some (.success, { bm with
          bitmap := some (bytes ++ List.replicate (newSize - bm.arraySize) 0#8)
          arraySize := newSize })

/-- `bm->bitmap[index] |= (1 << offset)`. -/
def orBit (bm : Bitmap) (bit : ℕ) : Option Bitmap :=
  bm.bitmap.map fun bytes => { bm with
    bitmap := some (bytes.set (bit / 8) (bytes[bit / 8]?.getD 0#8 ||| 1#8 <<< (bit % 8))) }

/-- `ocoms_bitmap_set_bit`. -/
def setBit (memory : Bool) (bm : Bitmap) (bit : ℤ) : Option (BitmapRc × Bitmap) :=
  if bit < 0 ∨ bm.maxSize < bit then some (.badParam, bm)
  else if bm.arraySize ≤ bit.toNat / 8 then
    (bm.grow memory (bit.toNat / 8)).bind fun (rc, bm) =>
      if rc = .success then (bm.orBit bit.toNat).map fun bm => (.success, bm) else some (rc, bm)
  else (bm.orBit bit.toNat).map fun bm => (.success, bm)

/-- `bm->array_size * SIZE_OF_CHAR`, in type `int`. -/
def sizeInBits (bm : Bitmap) : ℤ := CInt.wrap (bm.arraySize * 8)

/-- `ocoms_bitmap_clear_bit`. -/
def clearBit (bm : Bitmap) (bit : ℤ) : Option (BitmapRc × Bitmap) :=
  if bit < 0 ∨ bm.sizeInBits ≤ bit ∨ bm.arraySize ≤ bit.toNat / 8 then some (.badParam, bm)
  else
    let k := bit.toNat
    bm.bitmap.map fun bytes => (.success, { bm with
      bitmap := some (bytes.set (k / 8) (bytes[k / 8]?.getD 0#8 &&& ~~~(1#8 <<< (k % 8)))) })

/-- `ocoms_bitmap_is_set_bit`. -/
def isSetBit (bm : Bitmap) (bit : ℤ) : Option Bool :=
  if bit < 0 ∨ bm.sizeInBits ≤ bit ∨ bm.arraySize ≤ bit.toNat / 8 then some false
  else bm.bitmap.map fun bytes => ByteBits.bit bytes bit.toNat

/-- The first loop of `ocoms_bitmap_find_and_set_first_unset_bit`, on the bytes from some index
on. -/
def skipFull : List Octet → ℕ
  | [] => 0
  | b :: bytes => if b = 0xff#8 then skipFull bytes + 1 else 0

/-- The second loop: the position of the lowest clear bit of a byte. It ends because a byte with a
set bit gets smaller when it is shifted. -/
def lowOnes (temp : Octet) : ℕ :=
  if temp.getLsbD 0 then lowOnes (temp >>> 1) + 1 else 0
  termination_by temp.toNat
  decreasing_by
    have hbit : temp.getLsbD 0 = true := ‹_›
    have hpos : 0 < temp.toNat := by
      rcases Nat.eq_zero_or_pos temp.toNat with hzero | hpos
      · rw [BitVec.getLsbD, hzero, Nat.zero_testBit] at hbit
        cases hbit
      · exact hpos
    rw [BitVec.toNat_ushiftRight, Nat.shiftRight_eq_div_pow]
    omega

/-- `ocoms_bitmap_find_and_set_first_unset_bit`: the return value, the position, the bitmap. -/
def findAndSetFirstUnsetBit (memory : Bool) (bm : Bitmap) : Option (BitmapRc × ℤ × Bitmap) :=
  bm.bitmap.bind fun bytes =>
    let i := skipFull bytes
    if i = bm.arraySize then
      (bm.setBit memory bm.sizeInBits).map fun (rc, bm') => (rc, bm.sizeInBits, bm')
    else
      let b := bytes[i]?.getD 0#8
      some (.success, lowOnes b + i * 8, { bm with bitmap := some (bytes.set i (b ||| (b + 1#8))) })

/-! ### Sets of naturals -/

/-- The bitmap is the set `s`, and the number of its bits is an `int`. -/
structure Holds (bm : Bitmap) (s : Set ℕ) : Prop where
  bytes : ∃ bytes, bm.bitmap = some bytes ∧ bytes.length = bm.arraySize ∧
    ∀ k, ByteBits.bit bytes k = true ↔ k ∈ s
  notEmpty : 0 < bm.arraySize
  small : bm.arraySize < 2 ^ 28

section Holds

variable {bm : Bitmap} {s : Set ℕ}

lemma Holds.sizeInBits_eq (h : bm.Holds s) : bm.sizeInBits = bm.arraySize * 8 := by
  have hsmall := h.small
  exact CInt.wrap_eq (by omega) (by rw [CInt.max]; omega)

/-- Only bits within the array are set. -/
lemma Holds.lt_of_mem (h : bm.Holds s) {k : ℕ} (hk : k ∈ s) : k < 8 * bm.arraySize := by
  obtain ⟨bytes, -, hlen, hbits⟩ := h.bytes
  rw [← hlen]
  exact lt_of_bit ((hbits k).mpr hk)

lemma holds_init {size : ℕ} (hpos : 0 < size) (hle : (size : ℤ) ≤ bm.maxSize)
    (hsmall : (size + 7) / 8 < 2 ^ 28) :
    ∃ bm', init true bm size = (.success, bm') ∧ bm'.Holds ∅ ∧ bm'.maxSize = bm.maxSize := by
  have hguard : ¬ ((size : ℤ) ≤ 0 ∨ bm.maxSize < size) := by omega
  have hactual : size / 8 + (if size % 8 = 0 then 0 else 1) = (size + 7) / 8 := by
    split_ifs <;> omega
  rw [init, if_neg hguard]
  refine ⟨_, rfl, ⟨⟨_, rfl, List.length_replicate, fun k => ?_⟩, ?_, ?_⟩, rfl⟩
  · rw [bit_replicate_zero]
    simp
  · dsimp only [Int.toNat_natCast]
    omega
  · dsimp only [Int.toNat_natCast]
    omega

/-- Setting a bit of the array. -/
lemma Holds.orBit (h : bm.Holds s) {k : ℕ} (hk : k < 8 * bm.arraySize) :
    ∃ bm', bm.orBit k = some bm' ∧ bm'.Holds (insert k s) ∧ bm'.maxSize = bm.maxSize := by
  obtain ⟨bytes, hbytes, hlen, hbits⟩ := h.bytes
  rw [Bitmap.orBit, hbytes]
  refine ⟨_, rfl, ⟨⟨_, rfl, by rw [List.length_set, hlen], fun j => ?_⟩, h.notEmpty, h.small⟩, rfl⟩
  rw [bit_set (by omega), Bool.or_eq_true, hbits, decide_eq_true_iff, Set.mem_insert_iff, or_comm]

/-- The size that the array grows to. -/
def grownSize (bm : Bitmap) (index : ℕ) : ℕ := (index / bm.arraySize + 1) * bm.arraySize

lemma lt_grownSize (hpos : 0 < bm.arraySize) (index : ℕ) : index < bm.grownSize index := by
  rw [grownSize, Nat.mul_comm]
  exact Nat.lt_mul_div_succ index hpos

/-- Growth keeps every bit, and adds clear ones. -/
lemma Holds.grow (h : bm.Holds s) {index : ℕ} (hindex : bm.arraySize ≤ index)
    (hsmall : bm.grownSize index < 2 ^ 28) :
    ∃ bm', bm.grow true index = some (.success, bm') ∧ bm'.Holds s ∧ bm'.maxSize = bm.maxSize ∧
      bm'.arraySize = bm.grownSize index := by
  obtain ⟨bytes, hbytes, hlen, hbits⟩ := h.bytes
  have hlt := lt_grownSize h.notEmpty index
  rw [Bitmap.grow, if_neg h.notEmpty.ne', hbytes]
  refine ⟨_, rfl, ⟨⟨_, rfl, ?_, fun k => ?_⟩, ?_, hsmall⟩, rfl, rfl⟩
  · have hadd : bm.arraySize + (bm.grownSize index - bm.arraySize) = bm.grownSize index := by omega
    rw [List.length_append, List.length_replicate, hlen]
    exact hadd
  · rw [bit_append_replicate, hbits]
  · exact Nat.zero_lt_of_lt hlt

/-- **`ocoms_bitmap_set_bit`.** -/
lemma Holds.setBit (h : bm.Holds s) {k : ℕ} (hk : (k : ℤ) ≤ bm.maxSize)
    (hsmall : bm.arraySize ≤ k / 8 → bm.grownSize (k / 8) < 2 ^ 28) :
    ∃ bm', bm.setBit true k = some (.success, bm') ∧ bm'.Holds (insert k s) ∧
      bm'.maxSize = bm.maxSize := by
  have hguard : ¬ ((k : ℤ) < 0 ∨ bm.maxSize < k) := by omega
  rw [Bitmap.setBit, if_neg hguard, Int.toNat_natCast]
  by_cases hgrow : bm.arraySize ≤ k / 8
  · obtain ⟨bm', hbm', hholds, hmax, hsize⟩ := h.grow hgrow (hsmall hgrow)
    have hlt := lt_grownSize h.notEmpty (k / 8)
    obtain ⟨bm'', hor, hholds', hmax'⟩ := hholds.orBit (k := k) (by rw [hsize]; omega)
    refine ⟨bm'', ?_, hholds', hmax'.trans hmax⟩
    rw [if_pos hgrow, hbm', Option.bind_some]
    dsimp only
    rw [if_pos rfl, hor, Option.map_some]
  · obtain ⟨bm', hor, hholds, hmax⟩ := h.orBit (k := k) (by omega)
    refine ⟨bm', ?_, hholds, hmax⟩
    rw [if_neg hgrow, hor, Option.map_some]

/-- **`ocoms_bitmap_clear_bit`.** -/
lemma Holds.clearBit (h : bm.Holds s) (k : ℕ) :
    ∃ rc bm', bm.clearBit k = some (rc, bm') ∧ bm'.Holds (s \ {k}) ∧ bm'.maxSize = bm.maxSize := by
  obtain ⟨bytes, hbytes, hlen, hbits⟩ := h.bytes
  rw [Bitmap.clearBit, h.sizeInBits_eq, Int.toNat_natCast]
  by_cases hk : k < 8 * bm.arraySize
  · have hguard : ¬ ((k : ℤ) < 0 ∨ (bm.arraySize : ℤ) * 8 ≤ k ∨ bm.arraySize ≤ k / 8) := by omega
    rw [if_neg hguard, hbytes]
    refine ⟨_, _, rfl, ⟨⟨_, rfl, by rw [List.length_set, hlen], fun j => ?_⟩, h.notEmpty, h.small⟩,
      rfl⟩
    rw [bit_clear (by omega), Bool.and_eq_true, hbits, Bool.not_eq_true', decide_eq_false_iff_not,
      Set.mem_sdiff, Set.mem_singleton_iff]
  · have hguard : (k : ℤ) < 0 ∨ (bm.arraySize : ℤ) * 8 ≤ k ∨ bm.arraySize ≤ k / 8 := by omega
    have hnot : k ∉ s := fun hmem => hk (h.lt_of_mem hmem)
    rw [if_pos hguard]
    refine ⟨_, _, rfl, ?_, rfl⟩
    rwa [Set.sdiff_singleton_eq_self hnot]

/-- **`ocoms_bitmap_clear_all_bits`.** -/
lemma Holds.clearAllBits (h : bm.Holds s) :
    ∃ bm', bm.clearAllBits = some (.success, bm') ∧ bm'.Holds ∅ ∧ bm'.maxSize = bm.maxSize := by
  obtain ⟨bytes, hbytes, -⟩ := h.bytes
  rw [Bitmap.clearAllBits, hbytes]
  refine ⟨_, rfl, ⟨⟨_, rfl, List.length_replicate, fun k => ?_⟩, h.notEmpty, h.small⟩, rfl⟩
  rw [bit_replicate_zero]
  simp

/-- **`ocoms_bitmap_is_set_bit`.** -/
lemma Holds.isSetBit (h : bm.Holds s) (bit : ℤ) :
    ∃ b, bm.isSetBit bit = some b ∧ (b = true ↔ ∃ k ∈ s, bit = (k : ℕ)) := by
  obtain ⟨bytes, hbytes, hlen, hbits⟩ := h.bytes
  rw [Bitmap.isSetBit, h.sizeInBits_eq]
  by_cases hguard : bit < 0 ∨ (bm.arraySize : ℤ) * 8 ≤ bit ∨ bm.arraySize ≤ bit.toNat / 8
  · rw [if_pos hguard]
    refine ⟨false, rfl, by simp, ?_⟩
    rintro ⟨k, hk, rfl⟩
    have hlt := h.lt_of_mem hk
    omega
  · rw [if_neg hguard, hbytes]
    refine ⟨_, rfl, ?_⟩
    rw [hbits]
    constructor
    · intro hmem
      exact ⟨_, hmem, by omega⟩
    · rintro ⟨k, hk, rfl⟩
      rwa [Int.toNat_natCast]

/-! ### The first unset bit -/

lemma skipFull_le (bytes : List Octet) : skipFull bytes ≤ bytes.length := by
  induction bytes with
  | nil => exact le_rfl
  | cons b bytes ih =>
      rw [skipFull, List.length_cons]
      split <;> omega

lemma getElem?_of_lt_skipFull {bytes : List Octet} {i : ℕ} (h : i < skipFull bytes) :
    bytes[i]? = some 0xff#8 := by
  induction bytes generalizing i with
  | nil => exact absurd h (Nat.not_lt_zero i)
  | cons b bytes ih =>
      rw [skipFull] at h
      split_ifs at h with hb
      · cases i with
        | zero => rw [hb, List.getElem?_cons_zero]
        | succ i =>
            rw [List.getElem?_cons_succ]
            exact ih (by omega)
      · exact absurd h (Nat.not_lt_zero i)

lemma getElem?_skipFull (bytes : List Octet) : bytes[skipFull bytes]? ≠ some 0xff#8 := by
  induction bytes with
  | nil => simp
  | cons b bytes ih =>
      rw [skipFull]
      split_ifs with hb
      · rwa [List.getElem?_cons_succ]
      · rw [List.getElem?_cons_zero]
        exact fun h => hb (Option.some.inj h)

lemma lowOnes_spec (b : Octet) :
    b.getLsbD (lowOnes b) = false ∧ ∀ i < lowOnes b, b.getLsbD i = true := by
  induction b using lowOnes.induct with
  | case1 b hbit ih =>
      rw [lowOnes, if_pos hbit]
      refine ⟨?_, fun i hi => ?_⟩
      · rw [← ih.1, BitVec.getLsbD_ushiftRight, Nat.add_comm]
      · cases i with
        | zero => exact hbit
        | succ i =>
            have hlow := ih.2 i (by omega)
            rwa [BitVec.getLsbD_ushiftRight, Nat.add_comm] at hlow
  | case2 b hbit =>
      rw [lowOnes, if_neg hbit]
      exact ⟨by simpa using hbit, fun i hi => absurd hi (Nat.not_lt_zero i)⟩

lemma lowOnes_lt {b : Octet} (h : b ≠ 0xff#8) : lowOnes b < 8 := by
  by_contra hle
  refine h (BitVec.eq_of_getLsbD_eq fun i hi => ?_)
  have hone : (0xff#8).getLsbD i = true := by
    have hall : ∀ i : Fin 8, (0xff#8).getLsbD i = true := by decide
    exact hall ⟨i, hi⟩
  rw [(lowOnes_spec b).2 i (by omega), hone]

/-- **`ocoms_bitmap_find_and_set_first_unset_bit`.** -/
lemma Holds.findAndSetFirstUnsetBit (h : bm.Holds s) (hmax : bm.maxSize = CInt.max)
    (hsmall : (∀ k < 8 * bm.arraySize, k ∈ s) → 2 * bm.arraySize < 2 ^ 28) :
    ∃ (p : ℕ) (bm' : Bitmap),
      bm.findAndSetFirstUnsetBit true = some (BitmapRc.success, (p : ℤ), bm') ∧ p ∉ s ∧
      (∀ k < p, k ∈ s) ∧ bm'.Holds (insert p s) ∧ bm'.maxSize = bm.maxSize := by
  obtain ⟨bytes, hbytes, hlen, hbits⟩ := h.bytes
  rw [Bitmap.findAndSetFirstUnsetBit, hbytes, Option.bind_some]
  dsimp only
  -- the bytes in front of the one that is found are full
  have hfull : ∀ k < 8 * skipFull bytes, k ∈ s := by
    intro k hk
    have hone : ∀ i : Fin 8, (0xff#8).getLsbD i = true := by decide
    rw [← hbits, ByteBits.bit, getElem?_of_lt_skipFull (by omega), Option.getD_some]
    exact hone ⟨k % 8, by omega⟩
  by_cases hall : skipFull bytes = bm.arraySize
  · rw [hall] at hfull
    have hdiv : bm.arraySize * 8 / 8 = bm.arraySize := Nat.mul_div_cancel _ (by decide)
    have hgrown : bm.grownSize bm.arraySize = 2 * bm.arraySize := by
      rw [grownSize, Nat.div_self h.notEmpty]
    have hlimit := h.small
    obtain ⟨bm', hset, hholds, hmax'⟩ := h.setBit (k := bm.arraySize * 8)
      (by rw [hmax, CInt.max]; omega) (fun _ => by rw [hdiv, hgrown]; exact hsmall hfull)
    refine ⟨bm.arraySize * 8, bm', ?_, fun hmem => ?_, fun k hk => hfull k (by omega), hholds, hmax'⟩
    · have hbit : bm.sizeInBits = ((bm.arraySize * 8 : ℕ) : ℤ) := by
        rw [h.sizeInBits_eq]
        push_cast
        rfl
      rw [if_pos hall, hbit, hset]
      rfl
    · have hlt := h.lt_of_mem hmem
      omega
  · have hlt : skipFull bytes < bm.arraySize := by
      have hle := skipFull_le bytes
      omega
    obtain ⟨b, hb⟩ : ∃ b, bytes[skipFull bytes]? = some b :=
      ⟨_, List.getElem?_eq_getElem (by omega)⟩
    have hne : b ≠ 0xff#8 := fun hff => getElem?_skipFull bytes (hff ▸ hb)
    have hp := lowOnes_lt hne
    obtain ⟨hclear, hlow⟩ := lowOnes_spec b
    -- bits of that byte
    have hbyte : ∀ j < 8, (skipFull bytes * 8 + j ∈ s ↔ b.getLsbD j = true) := by
      intro j hj
      have hdiv : (skipFull bytes * 8 + j) / 8 = skipFull bytes := by omega
      have hmod : (skipFull bytes * 8 + j) % 8 = j := by omega
      rw [← hbits, ByteBits.bit, hdiv, hmod, hb, Option.getD_some]
    refine ⟨skipFull bytes * 8 + lowOnes b,
      { bm with bitmap := some (bytes.set (skipFull bytes) (b ||| (b + 1#8))) }, ?_, ?_,
      fun k hk => ?_, ?_, rfl⟩
    · rw [if_neg hall, hb, Option.getD_some, Nat.add_comm, Int.natCast_add, Int.natCast_mul]
      rfl
    · rw [hbyte _ hp, hclear]
      exact Bool.false_ne_true
    · rcases Nat.lt_or_ge k (8 * skipFull bytes) with hfront | hback
      · exact hfull k hfront
      · have hsplit : k = skipFull bytes * 8 + (k - skipFull bytes * 8) := by omega
        rw [hsplit, hbyte _ (by omega)]
        exact hlow _ (by omega)
    · refine ⟨⟨_, rfl, by rw [List.length_set, hlen], fun k => ?_⟩, h.notEmpty, h.small⟩
      rw [bit_setByte (by omega), Set.mem_insert_iff]
      by_cases hk : k / 8 = skipFull bytes
      · have hsplit : k = skipFull bytes * 8 + k % 8 := by omega
        have hmem : k ∈ s ↔ b.getLsbD (k % 8) = true := by
          conv_lhs => rw [hsplit]
          exact hbyte _ (Nat.mod_lt k (by decide))
        rw [if_pos hk, or_add_one hp hclear hlow (Nat.mod_lt k (by decide)), Bool.or_eq_true,
          decide_eq_true_iff, hmem, or_comm]
        refine or_congr_left ?_
        omega
      · have hother : k ≠ skipFull bytes * 8 + lowOnes b := by omega
        rw [if_neg hk, hbits]
        exact ⟨Or.inr, fun h => h.resolve_left hother⟩

end Holds

/-! ### Runs -/

/-- A call on a bitmap. -/
inductive Call
  | setBit (bit : ℤ)
  | clearBit (bit : ℤ)
  | clearAllBits
  | isSetBit (bit : ℤ)
  | findAndSetFirstUnsetBit
  deriving DecidableEq

/-- What a call returns. -/
inductive Outcome
  | code (rc : BitmapRc)
  | answer (b : Bool)
  | position (rc : BitmapRc) (p : ℤ)
  deriving DecidableEq

/-- One call, whose allocation succeeds. -/
def call (bm : Bitmap) : Call → Option (Outcome × Bitmap)
  | .setBit bit => (bm.setBit true bit).map fun r => (.code r.1, r.2)
  | .clearBit bit => (bm.clearBit bit).map fun r => (.code r.1, r.2)
  | .clearAllBits => bm.clearAllBits.map fun r => (.code r.1, r.2)
  | .isSetBit bit => (bm.isSetBit bit).map fun b => (.answer b, bm)
  | .findAndSetFirstUnsetBit =>
      (bm.findAndSetFirstUnsetBit true).map fun r => (.position r.1 r.2.1, r.2.2)

/-- What a call does to a set of naturals. -/
inductive SetStep : Set ℕ → Call → Outcome → Set ℕ → Prop
  | setBit (s : Set ℕ) (k : ℕ) : SetStep s (.setBit k) (.code .success) (insert k s)
  | setBitNeg (s : Set ℕ) {bit : ℤ} : bit < 0 → SetStep s (.setBit bit) (.code .badParam) s
  | clearBit (s : Set ℕ) (k : ℕ) (rc : BitmapRc) : SetStep s (.clearBit k) (.code rc) (s \ {k})
  | clearBitNeg (s : Set ℕ) {bit : ℤ} : bit < 0 → SetStep s (.clearBit bit) (.code .badParam) s
  | clearAllBits (s : Set ℕ) : SetStep s .clearAllBits (.code .success) ∅
  | isSetBit (s : Set ℕ) (bit : ℤ) (b : Bool) :
      (b = true ↔ ∃ k ∈ s, bit = (k : ℕ)) → SetStep s (.isSetBit bit) (.answer b) s
  | findAndSetFirstUnsetBit (s : Set ℕ) (p : ℕ) : p ∉ s → (∀ k < p, k ∈ s) →
      SetStep s .findAndSetFirstUnsetBit (.position .success p) (insert p s)

/-- The arguments are of type `int`, and if the array grows, it stays below `2 ^ 28` bytes. -/
def Call.Fits (bm : Bitmap) : Call → Prop
  | .setBit bit =>
      bit ≤ CInt.max ∧ (bm.arraySize ≤ bit.toNat / 8 → bm.grownSize (bit.toNat / 8) < 2 ^ 28)
  | .findAndSetFirstUnsetBit =>
      (∀ k < 8 * bm.arraySize, bm.isSetBit k = some true) → 2 * bm.arraySize < 2 ^ 28
  | _ => True

/-- Calls that fit, with their outcomes. -/
inductive Run : Bitmap → List (Call × Outcome) → Bitmap → Prop
  | nil (bm : Bitmap) : Run bm [] bm
  | cons {bm bm' bm'' : Bitmap} {c : Call} {o : Outcome} {rest : List (Call × Outcome)} :
      c.Fits bm → bm.call c = some (o, bm') → Run bm' rest bm'' → Run bm ((c, o) :: rest) bm''

/-- Calls on a set of naturals, with their outcomes. -/
inductive SetRun : Set ℕ → List (Call × Outcome) → Set ℕ → Prop
  | nil (s : Set ℕ) : SetRun s [] s
  | cons {s s' s'' : Set ℕ} {c : Call} {o : Outcome} {rest : List (Call × Outcome)} :
      SetStep s c o s' → SetRun s' rest s'' → SetRun s ((c, o) :: rest) s''

section Run

variable {bm bm' : Bitmap} {s : Set ℕ}

/-- **One call** that fits returns, and does on the bitmap what it does on the set. -/
lemma Holds.call (h : bm.Holds s) (hmax : bm.maxSize = CInt.max) {c : Call} (hfits : c.Fits bm) :
    ∃ o bm' s', bm.call c = some (o, bm') ∧ SetStep s c o s' ∧ bm'.Holds s' ∧
      bm'.maxSize = CInt.max := by
  cases c with
  | setBit bit =>
      obtain ⟨hle, hsmall⟩ := hfits
      rcases lt_or_ge bit 0 with hneg | hpos
      · refine ⟨.code .badParam, bm, s, ?_, .setBitNeg s hneg, h, hmax⟩
        rw [Bitmap.call, Bitmap.setBit, if_pos (Or.inl hneg)]
        rfl
      · obtain ⟨k, rfl⟩ := Int.eq_ofNat_of_zero_le hpos
        obtain ⟨bm', hset, hholds, hmax'⟩ := h.setBit (k := k) (by rw [hmax]; exact hle) hsmall
        refine ⟨_, bm', _, ?_, .setBit s k, hholds, hmax'.trans hmax⟩
        rw [Bitmap.call, hset]
        rfl
  | clearBit bit =>
      rcases lt_or_ge bit 0 with hneg | hpos
      · refine ⟨.code .badParam, bm, s, ?_, .clearBitNeg s hneg, h, hmax⟩
        rw [Bitmap.call, Bitmap.clearBit, if_pos (Or.inl hneg)]
        rfl
      · obtain ⟨k, rfl⟩ := Int.eq_ofNat_of_zero_le hpos
        obtain ⟨rc, bm', hclear, hholds, hmax'⟩ := h.clearBit k
        refine ⟨_, bm', _, ?_, .clearBit s k rc, hholds, hmax'.trans hmax⟩
        rw [Bitmap.call, hclear]
        rfl
  | clearAllBits =>
      obtain ⟨bm', hclear, hholds, hmax'⟩ := h.clearAllBits
      refine ⟨_, bm', _, ?_, .clearAllBits s, hholds, hmax'.trans hmax⟩
      rw [Bitmap.call, hclear]
      rfl
  | isSetBit bit =>
      obtain ⟨b, hread, hb⟩ := h.isSetBit bit
      refine ⟨_, bm, _, ?_, .isSetBit s bit b hb, h, hmax⟩
      rw [Bitmap.call, hread]
      rfl
  | findAndSetFirstUnsetBit =>
      obtain ⟨p, bm', hfind, hp, hleast, hholds, hmax'⟩ :=
        h.findAndSetFirstUnsetBit hmax fun hfull => hfits fun k hk => by
          obtain ⟨b, hread, hb⟩ := h.isSetBit k
          rw [hread, hb.mpr ⟨k, hfull k hk, rfl⟩]
      refine ⟨_, bm', _, ?_, .findAndSetFirstUnsetBit s p hp hleast, hholds, hmax'.trans hmax⟩
      rw [Bitmap.call, hfind]
      rfl

lemma Run.holds {trace : List (Call × Outcome)} (hrun : Run bm trace bm') (h : bm.Holds s)
    (hmax : bm.maxSize = CInt.max) :
    ∃ s', SetRun s trace s' ∧ bm'.Holds s' ∧ bm'.maxSize = CInt.max := by
  induction hrun generalizing s with
  | nil bm => exact ⟨s, .nil s, h, hmax⟩
  | cons hfits hcall _ ih =>
      obtain ⟨o, bm₁, s₁, hcall', hstep, hholds, hmax'⟩ := h.call hmax hfits
      obtain ⟨rfl, rfl⟩ := Prod.mk.inj (Option.some.inj (hcall.symm.trans hcall'))
      obtain ⟨s', hrest, hholds', hmax''⟩ := ih hholds hmax'
      exact ⟨s', .cons hstep hrest, hholds', hmax''⟩

end Run

end Bitmap

/-- **The bitmap refines a set of naturals**: every run of calls that fit is a run on the set, and
every further call that fits returns. -/
theorem bitmap_refines {size : ℕ} (hpos : 0 < size) (hle : (size : ℤ) ≤ CInt.max)
    (hsmall : (size + 7) / 8 < 2 ^ 28) :
    ∃ bm, Bitmap.init true .construct size = (.success, bm) ∧
      ∀ trace bm', Bitmap.Run bm trace bm' →
        ∃ s, Bitmap.SetRun ∅ trace s ∧ bm'.Holds s ∧
          ∀ c : Bitmap.Call, c.Fits bm' → (bm'.call c).isSome := by
  have hinit : ∃ bm, Bitmap.init true .construct size = (.success, bm) ∧ bm.Holds ∅ ∧
      bm.maxSize = CInt.max := Bitmap.holds_init hpos hle hsmall
  obtain ⟨bm, hinit, hholds, hmax⟩ := hinit
  refine ⟨bm, hinit, fun trace bm' hrun => ?_⟩
  obtain ⟨s, hset, hholds', hmax'⟩ := hrun.holds hholds hmax
  refine ⟨s, hset, hholds', fun c hfits => ?_⟩
  obtain ⟨o, bm'', s', hcall, -⟩ := hholds'.call hmax' hfits
  rw [hcall]
  rfl

/-- A bitmap of one bit. -/
theorem bitmap_refines_one : ∃ bm, Bitmap.init true .construct 1 = (.success, bm) ∧
    ∀ trace bm', Bitmap.Run bm trace bm' →
      ∃ s, Bitmap.SetRun ∅ trace s ∧ bm'.Holds s ∧
        ∀ c : Bitmap.Call, c.Fits bm' → (bm'.call c).isSome :=
  bitmap_refines Nat.one_pos (by decide) (by decide)

/-- The largest bitmap that `ocoms_bitmap_init` makes: bit 0 is set without an error, and is not
set. -/
theorem bitmap_init_max_fails : ∃ bm bm', Bitmap.init true .construct 2147483647 = (.success, bm) ∧
    bm.setBit true 0 = some (.success, bm') ∧ bm'.isSetBit 0 = some false := by
  have hinit : Bitmap.init true .construct 2147483647
      = (.success, ⟨some (List.replicate 268435456 0#8), 268435456, CInt.max⟩) := by
    have hactual : Int.toNat 2147483647 / 8 + (if Int.toNat 2147483647 % 8 = 0 then 0 else 1)
        = 268435456 := by decide
    rw [Bitmap.init, if_neg (by decide)]
    dsimp only
    rw [if_pos rfl, hactual]
    rfl
  have hnotGrown : ¬ (268435456 ≤ (0 : ℤ).toNat / 8) := by decide
  have hwrapped : CInt.wrap (((268435456 : ℕ) : ℤ) * 8) ≤ 0 := by decide
  have hset : ∃ bm', Bitmap.setBit true ⟨some (List.replicate 268435456 0#8), 268435456, CInt.max⟩ 0
      = some (.success, bm') ∧ bm'.arraySize = 268435456 := by
    rw [Bitmap.setBit, if_neg (by decide), if_neg hnotGrown]
    exact ⟨_, rfl, rfl⟩
  obtain ⟨bm', hset, hsize⟩ := hset
  refine ⟨_, bm', hinit, hset, ?_⟩
  rw [Bitmap.isSetBit, Bitmap.sizeInBits, hsize, if_pos (Or.inr (Or.inl hwrapped))]

/-! ### The limit -/

namespace Bitmap

/-- What a limit of `m` bits says about a bitmap. -/
structure LimitInBits (m : ℤ) (bm : Bitmap) : Prop where
  below : ∀ k, 0 ≤ k → k < m → ∃ bm', bm.setBit true k = some (.success, bm')
  above : ∀ memory k, 8 * ((m + 7) / 8) ≤ k →
    ∃ rc bm', bm.setBit memory k = some (rc, bm') ∧ rc ≠ .success
  setBitFails : ∀ memory k rc bm', bm.setBit memory k = some (rc, bm') → rc ≠ .success →
    ∀ j, bm.isSetBit j = some true → bm'.isSetBit j = some true
  findFails : ∀ memory rc p bm', bm.findAndSetFirstUnsetBit memory = some (rc, p, bm') →
    rc ≠ .success → ∀ j, bm.isSetBit j = some true → bm'.isSetBit j = some true

/-- One call of any function, whose allocation may fail. -/
inductive Step (bm : Bitmap) : Bitmap → Prop
  | setBit {memory : Bool} {bit : ℤ} {rc : BitmapRc} {bm' : Bitmap} :
      bm.setBit memory bit = some (rc, bm') → Step bm bm'
  | clearBit {bit : ℤ} {rc : BitmapRc} {bm' : Bitmap} :
      bm.clearBit bit = some (rc, bm') → Step bm bm'
  | clearAllBits {rc : BitmapRc} {bm' : Bitmap} : bm.clearAllBits = some (rc, bm') → Step bm bm'
  | setAllBits {rc : BitmapRc} {bm' : Bitmap} : bm.setAllBits = some (rc, bm') → Step bm bm'
  | findAndSetFirstUnsetBit {memory : Bool} {rc : BitmapRc} {p : ℤ} {bm' : Bitmap} :
      bm.findAndSetFirstUnsetBit memory = some (rc, p, bm') → Step bm bm'

/-- A bitmap of one byte with limit 1. -/
structure OneByte (bm : Bitmap) : Prop where
  bytes : ∃ bytes, bm.bitmap = some bytes ∧ bytes.length = 1
  arraySize : bm.arraySize = 1
  maxSize : bm.maxSize = 1

section OneByte

variable {bm bm' : Bitmap} {memory : Bool} {rc : BitmapRc}

/-- Beyond bit 1 nothing happens. -/
lemma OneByte.setBit_gt (h : bm.OneByte) {k : ℤ} (hk : 1 < k) :
    bm.setBit memory k = some (.badParam, bm) := by
  rw [Bitmap.setBit, h.maxSize, if_pos (Or.inr hk)]

lemma OneByte.setBit_le (h : bm.OneByte) (memory : Bool) {k : ℤ} (hk : 0 ≤ k) (hle : k ≤ 1) :
    ∃ bm', bm.setBit memory k = some (.success, bm') ∧ bm'.OneByte := by
  obtain ⟨bytes, hbytes, hlen⟩ := h.bytes
  have hguard : ¬ (k < 0 ∨ 1 < k) := by omega
  have hlt : ¬ 1 ≤ k.toNat / 8 := by omega
  rw [Bitmap.setBit, h.maxSize, h.arraySize, if_neg hguard, if_neg hlt, orBit, hbytes]
  exact ⟨_, rfl, ⟨_, rfl, by rw [List.length_set, hlen]⟩, h.arraySize, h.maxSize⟩

/-- An error of `ocoms_bitmap_set_bit` changes nothing. -/
lemma OneByte.setBit (h : bm.OneByte) {k : ℤ} (hset : bm.setBit memory k = some (rc, bm')) :
    bm'.OneByte ∧ (rc ≠ .success → bm' = bm) := by
  by_cases hguard : 0 ≤ k ∧ k ≤ 1
  · obtain ⟨bm₁, hset', hone⟩ := h.setBit_le memory hguard.1 hguard.2
    obtain ⟨rfl, rfl⟩ := Prod.mk.inj (Option.some.inj (hset.symm.trans hset'))
    exact ⟨hone, fun hrc => absurd rfl hrc⟩
  · have hbad : bm.setBit memory k = some (.badParam, bm) := by
      rw [Bitmap.setBit, h.maxSize, if_pos (by omega)]
    obtain ⟨rfl, rfl⟩ := Prod.mk.inj (Option.some.inj (hset.symm.trans hbad))
    exact ⟨h, fun _ => rfl⟩

lemma OneByte.findAndSetFirstUnsetBit (h : bm.OneByte) {p : ℤ}
    (hfind : bm.findAndSetFirstUnsetBit memory = some (rc, p, bm')) :
    bm'.OneByte ∧ (rc ≠ .success → bm' = bm) := by
  obtain ⟨bytes, hbytes, hlen⟩ := h.bytes
  rw [Bitmap.findAndSetFirstUnsetBit, hbytes, Option.bind_some] at hfind
  dsimp only at hfind
  split_ifs at hfind with hfull
  · -- the position is bit 8, which is beyond the limit
    obtain ⟨⟨rc', bm₁⟩, hset, heq⟩ := Option.map_eq_some_iff.mp hfind
    obtain ⟨rfl, heq'⟩ := Prod.mk.inj heq
    obtain ⟨-, rfl⟩ := Prod.mk.inj heq'
    exact h.setBit hset
  · obtain ⟨rfl, heq⟩ := Prod.mk.inj (Option.some.inj hfind)
    obtain ⟨-, rfl⟩ := Prod.mk.inj heq
    exact ⟨⟨⟨_, rfl, by rw [List.length_set, hlen]⟩, h.arraySize, h.maxSize⟩,
      fun hrc => absurd rfl hrc⟩

lemma Step.oneByte (hstep : Step bm bm') (h : bm.OneByte) : bm'.OneByte := by
  obtain ⟨bytes, hbytes, hlen⟩ := h.bytes
  cases hstep with
  | setBit hset => exact (h.setBit hset).1
  | clearBit hclear =>
      rw [Bitmap.clearBit, hbytes] at hclear
      split_ifs at hclear
      · obtain ⟨-, rfl⟩ := Prod.mk.inj (Option.some.inj hclear)
        exact h
      · obtain ⟨-, rfl⟩ := Prod.mk.inj (Option.some.inj hclear)
        exact ⟨⟨_, rfl, by rw [List.length_set, hlen]⟩, h.arraySize, h.maxSize⟩
  | clearAllBits hclear =>
      rw [Bitmap.clearAllBits, hbytes] at hclear
      obtain ⟨-, rfl⟩ := Prod.mk.inj (Option.some.inj hclear)
      exact ⟨⟨_, rfl, by rw [List.length_replicate, h.arraySize]⟩, h.arraySize, h.maxSize⟩
  | setAllBits hset =>
      rw [Bitmap.setAllBits, hbytes] at hset
      obtain ⟨-, rfl⟩ := Prod.mk.inj (Option.some.inj hset)
      exact ⟨⟨_, rfl, by rw [List.length_replicate, h.arraySize]⟩, h.arraySize, h.maxSize⟩
  | findAndSetFirstUnsetBit hfind => exact (h.findAndSetFirstUnsetBit hfind).1

lemma OneByte.limitInBits (h : bm.OneByte) {m : ℤ} (hpos : 0 < m) (hle : m ≤ 2) :
    LimitInBits m bm where
  below k hk hlt := by
    obtain ⟨bm', hset, -⟩ := h.setBit_le true hk (by omega)
    exact ⟨bm', hset⟩
  above memory k hk :=
    ⟨.badParam, bm, h.setBit_gt (by omega), by decide⟩
  setBitFails memory k rc bm' hset hrc j hj := by
    rw [(h.setBit hset).2 hrc, hj]
  findFails memory rc p bm' hfind hrc j hj := by
    rw [(h.findAndSetFirstUnsetBit hfind).2 hrc, hj]

end OneByte

/-- A limit of at most two bits is one byte, and `ocoms_bitmap_init` takes only size 1. -/
lemma oneByte_init {m : ℤ} (hpos : 0 < m) (hle : m ≤ 2) {memory : Bool} {size : ℤ} {bm : Bitmap}
    (hinit : init memory (construct.setMaxSize m) size = (.success, bm)) : bm.OneByte := by
  have hmax : (construct.setMaxSize m).maxSize = 1 := by
    rw [setMaxSize]
    obtain rfl | rfl : m = 1 ∨ m = 2 := by omega
    all_goals rfl
  rw [init, hmax] at hinit
  by_cases hguard : size ≤ 0 ∨ 1 < size
  · rw [if_pos hguard] at hinit
    cases hinit
  · rw [if_neg hguard] at hinit
    obtain rfl : size = 1 := by omega
    cases memory with
    | false => cases hinit
    | true =>
        obtain ⟨-, rfl⟩ := Prod.mk.inj hinit
        exact ⟨⟨[0#8], rfl, rfl⟩, rfl, rfl⟩

/-- The last bit of a limit of at least three bits is rejected. -/
lemma setBit_last {m : ℤ} (hm : 3 ≤ m) {bm : Bitmap}
    (hmax : bm.maxSize = (construct.setMaxSize m).maxSize) (memory : Bool) :
    bm.setBit memory (m - 1) = some (.badParam, bm) := by
  have hdiv : m.tdiv 8 = m / 8 := Int.tdiv_eq_ediv_of_nonneg (by omega)
  have hmod : m.tmod 8 = m % 8 := Int.tmod_eq_emod_of_nonneg (by omega)
  have hlt : bm.maxSize < m - 1 := by
    rw [hmax, setMaxSize, hdiv, hmod]
    dsimp only
    split_ifs <;> omega
  rw [Bitmap.setBit, if_pos (Or.inr hlt)]

end Bitmap

/-- **The limit of a bitmap** is a limit in bits, and errors are harmless, for one and two bits
only: `ocoms_bitmap_set_max_size` stores bytes. -/
theorem bitmap_limit_iff {m : ℤ} (hpos : 0 < m) :
    (∀ memory size bm, Bitmap.init memory (Bitmap.construct.setMaxSize m) size = (.success, bm) →
      ∀ bm', Relation.ReflTransGen Bitmap.Step bm bm' → bm'.LimitInBits m) ↔ m ≤ 2 := by
  constructor
  · intro hlimit
    by_contra hgt
    have hinit : ∃ bm, Bitmap.init true (Bitmap.construct.setMaxSize m) (1 : ℕ) = (.success, bm) ∧
        bm.Holds ∅ ∧ bm.maxSize = (Bitmap.construct.setMaxSize m).maxSize := by
      refine Bitmap.holds_init (by decide) ?_ (by decide)
      have hdiv : m.tdiv 8 = m / 8 := Int.tdiv_eq_ediv_of_nonneg (by omega)
      have hmod : m.tmod 8 = m % 8 := Int.tmod_eq_emod_of_nonneg (by omega)
      rw [Bitmap.setMaxSize, hdiv, hmod]
      dsimp only
      split_ifs <;> omega
    obtain ⟨bm, hinit, -, hmax⟩ := hinit
    obtain ⟨bm', hset⟩ := (hlimit true _ bm hinit bm .refl).below (m - 1) (by omega) (by omega)
    rw [Bitmap.setBit_last (by omega) hmax] at hset
    cases hset
  · intro hle memory size bm hinit bm' hreach
    have hone : bm'.OneByte := by
      induction hreach with
      | refl => exact Bitmap.oneByte_init hpos hle hinit
      | tail _ hstep ih => exact hstep.oneByte ih
    exact hone.limitInBits hpos hle

/-- A limit of two bits. -/
theorem bitmap_limit_iff_two :
    (∀ memory size bm, Bitmap.init memory (Bitmap.construct.setMaxSize 2) size = (.success, bm) →
      ∀ bm', Relation.ReflTransGen Bitmap.Step bm bm' → bm'.LimitInBits 2) ↔ (2 : ℤ) ≤ 2 :=
  bitmap_limit_iff (by decide)

/-- With a limit of 64 bits, bit 9 is rejected. -/
theorem bitmap_limit_fails : ∃ bm, Bitmap.init true (Bitmap.construct.setMaxSize 64) 8
    = (.success, bm) ∧ bm.setBit true 9 = some (.badParam, bm) ∧ ¬ bm.LimitInBits 64 := by
  refine ⟨_, rfl, rfl, fun hlimit => ?_⟩
  obtain ⟨bm', hset⟩ := hlimit.below 9 (by decide) (by decide)
  cases hset

end Ocoms
