import Mathlib.Logic.Relation
import Ocoms.Util.PointerTable

/-!
Runs of the pointer array.

* `PointerTable.Call` are the calls, and `PointerTable.MapStep` says what a call does to the map from
  indices to pointers that the array stands for.
* `PointerTable.Exact.step`: a call that returns keeps the invariant and is a step of the map.
* `pointer_array_bookkeeping`: every run of calls that fit is a run on the map.
* `pointer_array_growth`: when growth makes room for the index that it was asked for.
-/

namespace Ocoms

open FreeSlots

namespace PointerTable

variable {α : Type*}

/-! ### Calls -/

/-- A call on a pointer array. The first argument of the calls that allocate says whether there is
memory. -/
inductive Call (α : Type*)
  | init (memory : Bool) (initialAllocation maxSize blockSize : ℤ)
  | add (memory : Bool) (ptr : α)
  | setItem (memory : Bool) (index : ℤ) (value : Option α)
  | testAndSetItem (memory : Bool) (index : ℤ) (value : α)
  | setSize (memory : Bool) (newSize : ℤ)
  | removeAll
  | getItem (index : ℤ)

/-- What a call returns. -/
inductive Outcome (α : Type*)
  | code (rc : PointerRc)
  | index (r : Except PointerRc ℤ)
  | answer (b : Bool)
  | value (v : Option α)

/-- One call. -/
def call (t : PointerTable α) : Call α → Option (Outcome α × PointerTable α)
  | .init memory initialAllocation maxSize blockSize =>
      let r := t.init memory initialAllocation maxSize blockSize
      some (.code r.1, r.2)
  | .add memory ptr => (t.add memory ptr).map fun r => (.index r.1, r.2)
  | .setItem memory index value => (t.setItem memory index value).map fun r => (.code r.1, r.2)
  | .testAndSetItem memory index value =>
      (t.testAndSetItem memory index value).map fun r => (.answer r.1, r.2)
  | .setSize memory newSize => (t.setSize memory newSize).map fun r => (.code r.1, r.2)
  | .removeAll => some (.code .success, t.removeAll)
  | .getItem index => (t.getItem index).map fun v => (.value v, t)

/-- The arguments are of type `int`. -/
def Call.InRange : Call α → Prop
  | .init _ initialAllocation maxSize _ => initialAllocation ≤ CInt.max ∧ maxSize ≤ CInt.max
  | .setItem _ index _ => index ≤ CInt.max
  | .testAndSetItem _ index _ => index ≤ CInt.max
  | .setSize _ newSize => newSize ≤ CInt.max
  | _ => True

/-- What a call does to the map `f`, where the table has `size` slots afterwards. -/
inductive MapStep (f : ℕ → Option α) (size : ℤ) : Call α → Outcome α → (ℕ → Option α) → Prop
  | init {memory : Bool} {a m b : ℤ} :
      MapStep f size (.init memory a m b) (.code .success) fun _ => none
  | initFails {memory : Bool} {a m b : ℤ} :
      MapStep f size (.init memory a m b) (.code .badParam) f
  | add {memory : Bool} {ptr : α} {k : ℕ} : f k = none → (∀ j < k, f j ≠ none) →
      MapStep f size (.add memory ptr) (.index (.ok k)) (Function.update f k (some ptr))
  | addFails {memory : Bool} {ptr : α} :
      MapStep f size (.add memory ptr) (.index (.error .outOfResource)) f
  | setItem {memory : Bool} {i : ℕ} {v : Option α} : (i : ℤ) < size →
      MapStep f size (.setItem memory i v) (.code .success) (Function.update f i v)
  | setItemFails {memory : Bool} {i : ℕ} {v : Option α} : size ≤ i →
      MapStep f size (.setItem memory i v) (.code .error) f
  | testAndSetItem {memory : Bool} {i : ℕ} {x : α} : (i : ℤ) < size → f i = none →
      MapStep f size (.testAndSetItem memory i x) (.answer true) (Function.update f i (some x))
  | testAndSetItemFails {memory : Bool} {i : ℕ} {x : α} : ((i : ℤ) < size → f i ≠ none) →
      MapStep f size (.testAndSetItem memory i x) (.answer false) f
  | setSize {memory : Bool} {n : ℤ} {rc : PointerRc} :
      MapStep f size (.setSize memory n) (.code rc) f
  | removeAll : MapStep f size .removeAll (.code .success) fun _ => none
  | getItem {i : ℕ} : MapStep f size (.getItem i) (.value (f i)) f

section Step

variable {t t' : PointerTable α} {memory : Bool}

/-- What a call leaves, given what it did to the map. -/
def Stepped (t : PointerTable α) (c : Call α) (o : Outcome α) (t' : PointerTable α) : Prop :=
  t'.Exact ∧ t'.addr.isSome ∧ MapStep t.contents t'.size c o t'.contents

lemma Written.of_extend {n i : ℕ} {v : Option α} (h : t.Exact) (hn : t.slots.length ≤ n)
    (hmax : (n : ℤ) ≤ CInt.max) (hwritten : Written (t.extend n) i v t') :
    t'.Exact ∧ t'.addr.isSome ∧ t'.contents = Function.update t.contents i v := by
  have hcontents := hwritten.contents
  rw [(h.extend hn hmax).2] at hcontents
  exact ⟨hwritten.exact, hwritten.addr rfl, hcontents⟩

lemma Exact.step_add (h : t.Exact) (haddr : t.addr.isSome) {x : α} {r : Except PointerRc ℤ}
    (hrun : t.add memory x = some (r, t')) : Stepped t (.add memory x) (.index r) t' := by
  have hsize := h.size
  have hmax := h.maxSize
  have hfail : t.add memory x = some (.error .outOfResource, t) →
      Stepped t (.add memory x) (.index r) t' := by
    intro hadd
    obtain ⟨rfl, rfl⟩ := Prod.mk.inj (Option.some.inj (hrun.symm.trans hadd))
    exact ⟨h, haddr, .addFails⟩
  by_cases hfull : t.numberFree = 0
  · have hnumber := h.numberFree
    rcases h.add_of_full haddr hfull x with
      ⟨-, hfalse, n, t₁, hlt, hltMax, htrue, hwritten⟩ | ⟨-, hfalse, htrue⟩ | ⟨-, -, hall⟩
    · cases memory with
      | false => exact hfail hfalse
      | true =>
          obtain ⟨rfl, rfl⟩ := Prod.mk.inj (Option.some.inj (hrun.symm.trans htrue))
          obtain ⟨hexact, haddr', hcontents⟩ := Written.of_extend h (by omega) (by omega) hwritten
          refine ⟨hexact, haddr', ?_⟩
          rw [hcontents, hsize]
          obtain ⟨k, -, hleast⟩ := h.lowestFree
          have hk : k = t.slots.length := by
            have hiff := hleast.lt_iff
            have hle := hleast.le
            omega
          subst hk
          exact .add hleast.read fun j hj => hleast.read_lt hj
    · cases memory with
      | false => exact hfail hfalse
      | true =>
          rw [htrue] at hrun
          cases hrun
    · exact hfail (hall memory)
  · obtain ⟨k, t₁, hadd, hleast, hwritten⟩ := h.add_of_free hfull x
    obtain ⟨rfl, rfl⟩ := Prod.mk.inj (Option.some.inj (hrun.symm.trans (hadd memory)))
    refine ⟨hwritten.exact, hwritten.addr haddr, ?_⟩
    rw [hwritten.contents]
    exact .add hleast.read fun j hj => hleast.read_lt hj

/-- A slot behind the table is written, or nothing happens. -/
lemma Grown.cases {β : Type*} {i : ℕ} {v : Option α} {yes no r : β}
    {run : Bool → Option (β × PointerTable α)} (hgrown : Grown t i v yes no run) (h : t.Exact)
    (hsize : t.size ≤ i) (hrun : run memory = some (r, t')) :
    (r = no ∧ t' = t) ∨ (r = yes ∧ t'.Exact ∧ t'.addr.isSome ∧ (i : ℤ) < t'.size ∧
      t'.contents = Function.update t.contents i v) := by
  have heven := lt_evenAbove i
  have hlength := h.size
  have hmax := h.maxSize
  have hfail : run memory = some (no, t) → r = no ∧ t' = t := fun hno =>
    Prod.mk.inj (Option.some.inj (hrun.symm.trans hno))
  rcases hgrown with ⟨hlt, hfalse, t₁, htrue, hwritten⟩ | ⟨-, hall⟩ | ⟨-, -, hfalse, htrue⟩
  · cases memory with
    | false => exact .inl (hfail hfalse)
    | true =>
        obtain ⟨rfl, rfl⟩ := Prod.mk.inj (Option.some.inj (hrun.symm.trans htrue))
        obtain ⟨hexact, haddr, hcontents⟩ := Written.of_extend h (by omega) (by omega) hwritten
        exact .inr ⟨rfl, hexact, haddr, hwritten.lt, hcontents⟩
  · exact .inl (hfail (hall memory))
  · cases memory with
    | false => exact .inl (hfail hfalse)
    | true =>
        rw [htrue] at hrun
        cases hrun

lemma Exact.step_setItem (h : t.Exact) (haddr : t.addr.isSome) {index : ℤ} {v : Option α}
    {rc : PointerRc} (hindex : index ≤ CInt.max)
    (hrun : t.setItem memory index v = some (rc, t')) :
    Stepped t (.setItem memory index v) (.code rc) t' := by
  have hsize := h.size
  by_cases hlt : t.size ≤ index
  · obtain ⟨i, rfl⟩ := Int.eq_ofNat_of_zero_le (by omega : 0 ≤ index)
    rcases (h.setItem_grow hlt hindex v).cases h hlt hrun with
      ⟨rfl, rfl⟩ | ⟨rfl, hexact, haddr', hsmall, hcontents⟩
    · exact ⟨h, haddr, .setItemFails hlt⟩
    · refine ⟨hexact, haddr', ?_⟩
      rw [hcontents]
      exact .setItem hsmall
  · rw [PointerTable.setItem, if_neg hlt, Option.bind_some] at hrun
    dsimp only at hrun
    rw [if_pos rfl] at hrun
    rcases lt_or_ge index 0 with hneg | hpos
    · rw [setSlot_of_slot (slot_of_neg t hneg)] at hrun
      cases hrun
    · obtain ⟨i, rfl⟩ := Int.eq_ofNat_of_zero_le hpos
      obtain ⟨t₁, hset, hwritten⟩ := h.setSlot (i := i) (by omega) v
      rw [hset, Option.map_some] at hrun
      obtain ⟨rfl, rfl⟩ := Prod.mk.inj (Option.some.inj hrun)
      refine ⟨hwritten.exact, hwritten.addr haddr, ?_⟩
      rw [hwritten.contents]
      exact .setItem hwritten.lt

lemma Exact.step_testAndSetItem (h : t.Exact) (haddr : t.addr.isSome) {index : ℤ} {x : α}
    {ok : Bool} (hindex : index ≤ CInt.max)
    (hrun : t.testAndSetItem memory index x = some (ok, t')) :
    Stepped t (.testAndSetItem memory index x) (.answer ok) t' := by
  have hsize := h.size
  by_cases hlt : index < t.size
  · rw [PointerTable.testAndSetItem, if_pos hlt] at hrun
    rcases lt_or_ge index 0 with hneg | hpos
    · rw [slot_of_neg t hneg] at hrun
      cases hrun
    · obtain ⟨i, rfl⟩ := Int.eq_ofNat_of_zero_le hpos
      obtain ⟨old, hslot⟩ : ∃ old, t.slot i = some old := by
        rw [slot_natCast]
        exact ⟨_, List.getElem?_eq_getElem (by omega)⟩
      have hold := (slot_eq_some hslot).2
      rw [hslot, Option.bind_some] at hrun
      cases old with
      | none =>
          have hfree : IsFree t.slots i := isFree_iff.mpr ⟨by omega, hold⟩
          obtain ⟨t₁, hreserve, hwritten⟩ := h.reserve hfree x
          rw [Option.isSome_none, if_neg Bool.false_ne_true, hreserve, Option.map_some] at hrun
          obtain ⟨rfl, rfl⟩ := Prod.mk.inj (Option.some.inj hrun)
          refine ⟨hwritten.exact, hwritten.addr haddr, ?_⟩
          rw [hwritten.contents]
          exact .testAndSetItem hwritten.lt hold
      | some y =>
          rw [Option.isSome_some, if_pos rfl] at hrun
          obtain ⟨rfl, rfl⟩ := Prod.mk.inj (Option.some.inj hrun)
          refine ⟨h, haddr, .testAndSetItemFails fun _ => ?_⟩
          rw [hold]
          exact Option.some_ne_none y
  · have hge := not_lt.mp hlt
    obtain ⟨i, rfl⟩ := Int.eq_ofNat_of_zero_le (by omega : 0 ≤ index)
    rcases (h.testAndSetItem_grow hge hindex x).cases h hge hrun with
      ⟨rfl, rfl⟩ | ⟨rfl, hexact, haddr', hsmall, hcontents⟩
    · exact ⟨h, haddr, .testAndSetItemFails fun hsmall => absurd hsmall hlt⟩
    · refine ⟨hexact, haddr', ?_⟩
      rw [hcontents]
      exact .testAndSetItem hsmall (read_eq_none_of_le (by omega))

lemma Exact.step_setSize (h : t.Exact) (haddr : t.addr.isSome) {n : ℤ} {rc : PointerRc}
    (hrun : t.setSize memory n = some (rc, t')) :
    Stepped t (.setSize memory n) (.code rc) t' := by
  have hsize := h.size
  have hmax := h.maxSize
  rw [PointerTable.setSize] at hrun
  by_cases hlt : t.size < n
  · rw [if_pos hlt] at hrun
    obtain ⟨⟨ok, t₁⟩, hgrow, hrun⟩ := Option.map_eq_some_iff.mp hrun
    obtain ⟨-, rfl⟩ := Prod.mk.inj hrun
    obtain ⟨k, rfl⟩ := Int.eq_ofNat_of_zero_le (by omega : 0 ≤ n)
    cases ok with
    | false =>
        obtain rfl := growTable_false hgrow
        exact ⟨h, haddr, .setSize⟩
    | true =>
        rw [growTable, newSize] at hgrow
        by_cases hle : t.maxSize ≤ k
        · have hnone : (if t.maxSize < (k : ℤ) then
              if t.maxSize < (k : ℤ) then none else if t.maxSize ≤ (k : ℤ) then none else some (k : ℤ)
              else if t.maxSize ≤ (k : ℤ) then none else some (k : ℤ)) = none := by
            split_ifs <;> rfl
          rw [hnone] at hgrow
          cases hgrow
        · rw [if_neg (by omega), if_neg hle] at hgrow
          dsimp only at hgrow
          rw [h.resize_eq (by omega) (by omega)] at hgrow
          cases memory with
          | false => cases hgrow
          | true =>
              obtain ⟨-, rfl⟩ := Prod.mk.inj (Option.some.inj hgrow)
              obtain ⟨hexact, hcontents⟩ := h.extend (n := k) (by omega) (by omega)
              refine ⟨hexact, rfl, ?_⟩
              rw [hcontents]
              exact .setSize
  · rw [if_neg hlt] at hrun
    obtain ⟨-, rfl⟩ := Prod.mk.inj (Option.some.inj hrun)
    exact ⟨h, haddr, .setSize⟩

lemma Exact.step_removeAll (h : t.Exact) (haddr : t.addr.isSome) :
    Stepped t .removeAll (.code .success) t.removeAll := by
  have hsize := h.size
  have hnumber := h.numberFree
  rw [PointerTable.removeAll]
  by_cases hempty : t.numberFree = t.size
  · have hcontents : t.contents = fun _ => none := by
      funext i
      exact read_eq_none_of_freeCount (by omega) i
    rw [if_pos hempty]
    refine ⟨h, haddr, ?_⟩
    rw [hcontents]
    exact .removeAll
  · rw [if_neg hempty]
    obtain ⟨l, hl⟩ := Option.isSome_iff_exists.mp haddr
    have hlength : t.slots.length = l.length := by
      rw [slots, hl, Option.getD_some]
    rw [hl, Option.map_some]
    refine ⟨⟨?_, ?_, ⟨0, rfl, leastFree_replicate _⟩, h.sizeMax, h.maxSize⟩, rfl, ?_⟩
    · rw [slots, Option.getD_some, List.length_replicate, ← hlength]
      exact hsize
    · rw [slots, Option.getD_some, freeCount_replicate, ← hlength]
      exact hsize
    · have hcontents : PointerTable.contents (⟨0, t.size, t.size, t.maxSize, t.blockSize,
          some (List.replicate l.length none)⟩ : PointerTable α) = fun _ => none := by
        funext i
        exact read_replicate _ i
      rw [hcontents]
      exact .removeAll

lemma Exact.step_getItem (h : t.Exact) (haddr : t.addr.isSome) {index : ℤ} {v : Option α}
    (hrun : t.getItem index = some v) : Stepped t (.getItem index) (.value v) t := by
  have hsize := h.size
  rw [PointerTable.getItem] at hrun
  by_cases hle : t.size ≤ index
  · rw [if_pos hle] at hrun
    obtain rfl := Option.some.inj hrun
    obtain ⟨i, rfl⟩ := Int.eq_ofNat_of_zero_le (by omega : 0 ≤ index)
    have hnone : t.contents i = none := read_eq_none_of_le (by omega)
    refine ⟨h, haddr, ?_⟩
    rw [← hnone]
    exact .getItem
  · rw [if_neg hle] at hrun
    rcases lt_or_ge index 0 with hneg | hpos
    · rw [slot_of_neg t hneg] at hrun
      cases hrun
    · obtain ⟨i, rfl⟩ := Int.eq_ofNat_of_zero_le hpos
      refine ⟨h, haddr, ?_⟩
      rw [← (slot_eq_some hrun).2]
      exact .getItem

/-- The condition on a call: `init` meets a table whose least free slot is 0, growth does not make
the table smaller, and does not stop in front of the slot that it is for. -/
def Call.Fits (t : PointerTable α) : Call α → Prop
  | .init memory a m b =>
      m < b ∨ memory = true ∧ 0 ≤ (if 0 < a then a else b) ∧ t.lowestFree = 0
  | .add _ _ => t.numberFree = 0 → ¬ t.AddBreaks
  | .setItem _ index _ =>
      0 ≤ index ∧ (t.size ≤ index → ¬ (index % 2 = 0 ∧ t.maxSize = index + 1))
  | .testAndSetItem _ index _ =>
      0 ≤ index ∧ (t.size ≤ index → ¬ (index % 2 = 0 ∧ t.maxSize = index + 1))
  | .getItem index => 0 ≤ index
  | _ => True

/-- **One call** keeps the invariant; of the condition only `init` needs its part. -/
lemma Exact.step (h : t.Exact) (haddr : t.addr.isSome) {c : Call α} {o : Outcome α}
    (hrange : c.InRange) (hinit : ∀ memory a m b, c = .init memory a m b → c.Fits t)
    (hcall : t.call c = some (o, t')) : Stepped t c o t' := by
  cases c with
  | init memory a m b =>
      obtain ⟨rfl, rfl⟩ := Prod.mk.inj (Option.some.inj hcall)
      rcases hinit memory a m b rfl with hbad | ⟨hmemory, hn, hlowest⟩
      · have hrun : t.init memory a m b = (.badParam, t) := if_pos hbad
        rw [hrun]
        exact ⟨h, haddr, .initFails⟩
      · by_cases hbad : m < b
        · have hrun : t.init memory a m b = (.badParam, t) := if_pos hbad
          rw [hrun]
          exact ⟨h, haddr, .initFails⟩
        · have hrun : (t.init memory a m b).1 = .success := by
            rw [PointerTable.init, if_neg hbad]
            dsimp only
            rw [if_pos ⟨hmemory, hn⟩]
          obtain ⟨hexact, hcontents, haddr'⟩ := exact_init hlowest hrange.1 hrange.2
            (show t.init memory a m b = (.success, (t.init memory a m b).2) from
              Prod.ext hrun rfl)
          refine ⟨hexact, haddr', ?_⟩
          rw [hrun, hcontents]
          exact .init
  | add memory x =>
      obtain ⟨⟨r, t₁⟩, hrun, hr⟩ := Option.map_eq_some_iff.mp hcall
      obtain ⟨rfl, rfl⟩ := Prod.mk.inj hr
      exact h.step_add haddr hrun
  | setItem memory index v =>
      obtain ⟨⟨r, t₁⟩, hrun, hr⟩ := Option.map_eq_some_iff.mp hcall
      obtain ⟨rfl, rfl⟩ := Prod.mk.inj hr
      exact h.step_setItem haddr hrange hrun
  | testAndSetItem memory index x =>
      obtain ⟨⟨r, t₁⟩, hrun, hr⟩ := Option.map_eq_some_iff.mp hcall
      obtain ⟨rfl, rfl⟩ := Prod.mk.inj hr
      exact h.step_testAndSetItem haddr hrange hrun
  | setSize memory n =>
      obtain ⟨⟨r, t₁⟩, hrun, hr⟩ := Option.map_eq_some_iff.mp hcall
      obtain ⟨rfl, rfl⟩ := Prod.mk.inj hr
      exact h.step_setSize haddr hrun
  | removeAll =>
      obtain ⟨rfl, rfl⟩ := Prod.mk.inj (Option.some.inj hcall)
      exact h.step_removeAll haddr
  | getItem index =>
      obtain ⟨v, hrun, hr⟩ := Option.map_eq_some_iff.mp hcall
      obtain ⟨rfl, rfl⟩ := Prod.mk.inj hr
      exact h.step_getItem haddr hrun

/-! ### Calls return -/

lemma Grown.isSome {β : Type*} {i : ℕ} {v : Option α} {yes no : β}
    {run : Bool → Option (β × PointerTable α)} (hgrown : Grown t i v yes no run)
    (hfits : ¬ ((i : ℤ) % 2 = 0 ∧ t.maxSize = (i : ℤ) + 1)) (memory : Bool) :
    (run memory).isSome := by
  rcases hgrown with ⟨-, hfalse, t₁, htrue, -⟩ | ⟨-, hall⟩ | ⟨hlt, hgt, -, -⟩
  · cases memory with
    | false => rw [hfalse]; rfl
    | true => rw [htrue]; rfl
  · rw [hall]
    rfl
  · rw [evenAbove] at hgt
    omega

lemma Exact.setSize_isSome (h : t.Exact) (n : ℤ) : (t.setSize memory n).isSome := by
  have hsize := h.size
  rw [PointerTable.setSize]
  by_cases hlt : t.size < n
  · obtain ⟨k, rfl⟩ := Int.eq_ofNat_of_zero_le (by omega : 0 ≤ n)
    rw [if_pos hlt, Option.isSome_map, growTable]
    split
    · rfl
    · rename_i m hm
      have hmk : m = k := by
        rw [newSize] at hm
        split_ifs at hm
        exact (Option.some.inj hm).symm
      rw [hmk, h.resize_eq (by omega) (by omega)]
      rfl
  · rw [if_neg hlt]
    rfl

lemma Exact.slot_isSome (h : t.Exact) {index : ℤ} (hpos : 0 ≤ index) (hlt : index < t.size) :
    ∃ (i : ℕ) (old : Option α), index = i ∧ i < t.slots.length ∧ t.slot i = some old := by
  have hsize := h.size
  obtain ⟨i, rfl⟩ := Int.eq_ofNat_of_zero_le hpos
  have hi : i < t.slots.length := by omega
  exact ⟨i, t.slots[i], rfl, hi, by rw [slot_natCast, List.getElem?_eq_getElem hi]⟩

/-- **A call that fits returns.** -/
lemma Exact.call_isSome (h : t.Exact) (haddr : t.addr.isSome) {c : Call α} (hrange : c.InRange)
    (hfits : c.Fits t) : (t.call c).isSome := by
  cases c with
  | init memory a m b => rfl
  | add memory x =>
      rw [call, Option.isSome_map]
      by_cases hfull : t.numberFree = 0
      · rcases h.add_of_full haddr hfull x with
          ⟨-, hfalse, n, t₁, -, -, htrue, -⟩ | ⟨hbreaks, -, -⟩ | ⟨-, -, hall⟩
        · cases memory with
          | false => rw [hfalse]; rfl
          | true => rw [htrue]; rfl
        · exact absurd hbreaks (hfits hfull)
        · rw [hall]
          rfl
      · obtain ⟨k, t₁, hadd, -, -⟩ := h.add_of_free hfull x
        rw [hadd]
        rfl
  | setItem memory index v =>
      rw [call, Option.isSome_map]
      obtain ⟨hpos, hgrowth⟩ := hfits
      by_cases hlt : t.size ≤ index
      · obtain ⟨i, rfl⟩ := Int.eq_ofNat_of_zero_le hpos
        exact (h.setItem_grow hlt hrange v).isSome (hgrowth hlt) memory
      · obtain ⟨i, old, rfl, hi, -⟩ := h.slot_isSome hpos (not_le.mp hlt)
        obtain ⟨t₁, hset, -⟩ := h.setSlot hi v
        rw [PointerTable.setItem, if_neg hlt, Option.bind_some]
        dsimp only
        rw [if_pos rfl, hset]
        rfl
  | testAndSetItem memory index x =>
      rw [call, Option.isSome_map]
      obtain ⟨hpos, hgrowth⟩ := hfits
      by_cases hlt : index < t.size
      · obtain ⟨i, old, rfl, hi, hslot⟩ := h.slot_isSome hpos hlt
        rw [PointerTable.testAndSetItem, if_pos hlt, hslot, Option.bind_some]
        cases old with
        | none =>
            have hfree : IsFree t.slots i := isFree_iff.mpr ⟨hi, (slot_eq_some hslot).2⟩
            obtain ⟨t₁, hreserve, -⟩ := h.reserve hfree x
            rw [Option.isSome_none, if_neg Bool.false_ne_true, hreserve]
            rfl
        | some y => rfl
      · obtain ⟨i, rfl⟩ := Int.eq_ofNat_of_zero_le hpos
        exact (h.testAndSetItem_grow (not_lt.mp hlt) hrange x).isSome
          (hgrowth (not_lt.mp hlt)) memory
  | setSize memory n =>
      rw [call, Option.isSome_map]
      exact h.setSize_isSome n
  | removeAll => rfl
  | getItem index =>
      rw [call, Option.isSome_map, PointerTable.getItem]
      by_cases hle : t.size ≤ index
      · rw [if_pos hle]
        rfl
      · obtain ⟨i, old, rfl, -, hslot⟩ := h.slot_isSome hfits (not_le.mp hle)
        rw [if_neg hle, hslot]
        rfl

end Step

/-! ### Runs -/

/-- Calls that fit, each with its outcome and the size of the table afterwards. -/
inductive Run : PointerTable α → List (Call α × Outcome α × ℤ) → PointerTable α → Prop
  | nil (t : PointerTable α) : Run t [] t
  | cons {t t' t'' : PointerTable α} {c : Call α} {o : Outcome α}
      {rest : List (Call α × Outcome α × ℤ)} : c.InRange → c.Fits t → t.call c = some (o, t') →
      Run t' rest t'' → Run t ((c, o, t'.size) :: rest) t''

/-- The same calls on a map. -/
inductive MapRun : (ℕ → Option α) → List (Call α × Outcome α × ℤ) → (ℕ → Option α) → Prop
  | nil (f : ℕ → Option α) : MapRun f [] f
  | cons {f f' f'' : ℕ → Option α} {c : Call α} {o : Outcome α} {size : ℤ}
      {rest : List (Call α × Outcome α × ℤ)} : MapStep f size c o f' → MapRun f' rest f'' →
      MapRun f ((c, o, size) :: rest) f''

lemma Run.exact {t t' : PointerTable α} {trace : List (Call α × Outcome α × ℤ)}
    (hrun : Run t trace t') (h : t.Exact) (haddr : t.addr.isSome) :
    t'.Exact ∧ t'.addr.isSome ∧ MapRun t.contents trace t'.contents := by
  induction hrun with
  | nil t => exact ⟨h, haddr, .nil _⟩
  | cons hrange hfits hcall _ ih =>
      obtain ⟨hexact, haddr', hstep⟩ := h.step haddr hrange (fun _ _ _ _ _ => hfits) hcall
      obtain ⟨hexact', haddr'', hmap⟩ := ih hexact haddr'
      exact ⟨hexact', haddr'', .cons hstep hmap⟩

end PointerTable

/-- **Bookkeeping of the pointer array**: in every run of calls that fit the two summaries are exact,
the run is one on the map from indices to pointers, and every further call that fits returns. -/
theorem pointer_array_bookkeeping {α : Type*} {a m b : ℤ} {t t' : PointerTable α}
    (ha : a ≤ CInt.max) (hm : m ≤ CInt.max)
    (hinit : PointerTable.init true .construct a m b = (.success, t))
    {trace : List (PointerTable.Call α × PointerTable.Outcome α × ℤ)}
    (hrun : PointerTable.Run t trace t') :
    t'.Exact ∧ PointerTable.MapRun (fun _ => none) trace t'.contents ∧
      ∀ c : PointerTable.Call α, c.InRange → c.Fits t' → (t'.call c).isSome := by
  obtain ⟨hexact, hcontents, haddr⟩ := PointerTable.exact_init rfl ha hm hinit
  obtain ⟨hexact', haddr', hmap⟩ := hrun.exact hexact haddr
  rw [hcontents] at hmap
  exact ⟨hexact', hmap, fun c hrange hfits => hexact'.call_isSome haddr' hrange hfits⟩

namespace PointerTable

/-- A table of four slots. -/
def four : PointerTable ℕ := (construct.init true 4 10 2).2

/-- The table after pointer 7 was added. -/
def fourOne : PointerTable ℕ :=
  { four with lowestFree := 1, numberFree := 3, addr := some [some 7, none, none, none] }

end PointerTable

theorem pointer_array_bookkeeping_four :
    PointerTable.fourOne.Exact ∧
    PointerTable.MapRun (fun _ => none) [(.add true 7, .index (.ok 0), 4)]
      PointerTable.fourOne.contents ∧
    ∀ c : PointerTable.Call ℕ, c.InRange → c.Fits .fourOne →
      (PointerTable.fourOne.call c).isSome := by
  have hcall : PointerTable.four.call (.add true 7) = some (.index (.ok 0), .fourOne) := rfl
  have hfits : PointerTable.Call.Fits .four (.add true 7) := by
    intro hfull
    cases hfull
  have hrange : PointerTable.Call.InRange (.add true 7 : PointerTable.Call ℕ) := trivial
  have hrun : PointerTable.Run .four [(.add true 7, .index (.ok 0), 4)] .fourOne :=
    .cons hrange hfits hcall (.nil _)
  have hinit : PointerTable.init true .construct 4 10 2 = (.success, PointerTable.four) := rfl
  exact pointer_array_bookkeeping (by decide) (by decide) hinit hrun

/-- A second `ocoms_pointer_array_init` leaves `lowest_free` behind the slots that it frees, and the
next pointer is stored in slot 1. -/
theorem pointer_array_init_twice_fails : ∃ t t',
    PointerTable.fourOne.init true 4 10 2 = (.success, t) ∧ t.slot 0 = some none ∧
      t.lowestFree = 1 ∧ t.add true 8 = some (.ok 1, t') :=
  ⟨_, _, rfl, rfl, rfl, rfl⟩

/-! ### Growth -/

namespace PointerTable

variable {α : Type*} {t : PointerTable α}

/-- A call for the index `i` fails and changes nothing, or answers `yes` and leaves room for `i`; and
it answers `yes` where `i` is below the limit and there is memory. -/
def Covers {β : Type*} (t : PointerTable α) (i : ℤ) (yes : β)
    (run : Bool → Option (β × PointerTable α)) : Prop :=
  ∀ memory, ∃ r t', run memory = some (r, t') ∧ (r ≠ yes → t' = t) ∧
    (r = yes → i < t'.size ∧ t'.size ≤ t'.maxSize) ∧ (i < t.maxSize → memory = true → r = yes)

/-- The tables that calls make of an initialised one, whether or not there is memory. -/
inductive Reachable : PointerTable α → Prop
  | init {a m b : ℤ} {t : PointerTable α} : a ≤ CInt.max → m ≤ CInt.max →
      PointerTable.init true .construct a m b = (.success, t) → Reachable t
  | call {c : Call α} {o : Outcome α} {t t' : PointerTable α} : Reachable t → c.InRange →
      (∀ memory a m b, c ≠ .init memory a m b) → t.call c = some (o, t') → Reachable t'

lemma Reachable.exact (h : t.Reachable) : t.Exact ∧ t.addr.isSome := by
  induction h with
  | init ha hm hinit =>
      obtain ⟨hexact, -, haddr⟩ := exact_init rfl ha hm hinit
      exact ⟨hexact, haddr⟩
  | call _ hrange hne hcall ih =>
      obtain ⟨hexact, haddr, -⟩ := ih.1.step ih.2 hrange
        (fun memory a m b hc => absurd hc (hne memory a m b)) hcall
      exact ⟨hexact, haddr⟩

lemma covers_of_refused {β : Type*} {i : ℤ} {yes no : β} {run : Bool → Option (β × PointerTable α)}
    (hne : no ≠ yes) (hrun : ∀ memory, run memory = some (no, t)) :
    Covers t i yes run ↔ t.maxSize ≤ i := by
  constructor
  · intro hcovers
    obtain ⟨r, t', hr, -, -, hyes⟩ := hcovers true
    obtain ⟨rfl, -⟩ := Prod.mk.inj (Option.some.inj ((hrun true).symm.trans hr))
    by_contra hlt
    exact hne (hyes (not_le.mp hlt) rfl)
  · intro hle memory
    exact ⟨no, t, hrun memory, fun _ => rfl, fun h => absurd h hne, fun h => absurd h (not_lt.mpr hle)⟩

lemma Written.covers {β : Type*} {i n : ℕ} {v : Option α} {yes no : β} {t' : PointerTable α}
    {run : Bool → Option (β × PointerTable α)} (hwritten : Written (t.extend n) i v t')
    (hn : (n : ℤ) ≤ t.maxSize) (hne : no ≠ yes)
    (hfalse : run false = some (no, t)) (htrue : run true = some (yes, t')) :
    Covers t i yes run := by
  have hsize : t'.size = n := hwritten.size
  have hmax : t'.maxSize = t.maxSize := hwritten.maxSize
  intro memory
  cases memory with
  | false =>
      exact ⟨no, t, hfalse, fun _ => rfl, fun h => absurd h hne, fun _ h => Bool.noConfusion h⟩
  | true =>
      refine ⟨yes, t', htrue, fun h => absurd rfl h, fun _ => ⟨hwritten.lt, ?_⟩, fun _ _ => rfl⟩
      rw [hsize, hmax]
      exact hn

lemma Grown.covers_iff {β : Type*} {i : ℕ} {v : Option α} {yes no : β}
    {run : Bool → Option (β × PointerTable α)} (hgrown : Grown t i v yes no run) (hne : no ≠ yes) :
    Covers t i yes run ↔ t.maxSize ≤ i ∨ (evenAbove i : ℤ) < t.maxSize := by
  have heven := lt_evenAbove i
  rcases hgrown with ⟨hlt, hfalse, t', htrue, hwritten⟩ | ⟨hle, hall⟩ | ⟨hlt, hgt, -, htrue⟩
  · exact iff_of_true (hwritten.covers hlt.le hne hfalse htrue) (.inr hlt)
  · rw [covers_of_refused hne hall]
    exact ⟨.inl, fun h => h.resolve_right (not_lt.mpr hle)⟩
  · refine iff_of_false (fun hcovers => ?_) (by omega)
    obtain ⟨r, t', hr, -⟩ := hcovers true
    rw [htrue] at hr
    cases hr

lemma Exact.add_covers_iff (h : t.Exact) (haddr : t.addr.isSome) (hfull : t.numberFree = 0)
    (x : α) :
    Covers t t.size (.ok t.size) (fun memory => t.add memory x) ↔
      t.AddGrows ∨ t.maxSize ≤ t.size ∧ ¬ t.AddBreaks := by
  have hsize := h.size
  have hne : (Except.error PointerRc.outOfResource : Except PointerRc ℤ) ≠ .ok t.size :=
    fun h => by cases h
  rcases h.add_of_full haddr hfull x with
    ⟨hgrows, hfalse, n, t', hlt, hltMax, htrue, hwritten⟩ | ⟨hbreaks, -, htrue⟩ |
      ⟨hgrows, hbreaks, hall⟩
  · refine iff_of_true ?_ (.inl hgrows)
    have hcovers : Covers t (t.slots.length : ℕ) (.ok t.size) fun memory => t.add memory x :=
      hwritten.covers hltMax.le hne hfalse htrue
    rwa [← hsize] at hcovers
  · refine iff_of_false (fun hcovers => ?_) ?_
    · obtain ⟨r, t', hr, -⟩ := hcovers true
      dsimp only at hr
      rw [htrue] at hr
      cases hr
    · rintro (hgrows | ⟨-, hnot⟩)
      · rw [AddBreaks] at hbreaks
        rw [AddGrows] at hgrows
        omega
      · exact hnot hbreaks
  · rw [covers_of_refused hne hall]
    exact ⟨fun hle => .inr ⟨hle, hbreaks⟩, fun h => (h.resolve_left hgrows).1⟩

end PointerTable

/-- **Growth of the pointer array**: for an index behind the table `ocoms_pointer_array_set_item` and
`ocoms_pointer_array_test_and_set_item` make room, or fail without a change, if and only if the index
is not below the limit or the next even number above it is; `ocoms_pointer_array_add` on a full table
does if and only if `grow_table` makes the table larger, or refuses at the limit. -/
theorem pointer_array_growth {α : Type*} {t : PointerTable α} (hreach : t.Reachable) :
    (∀ (i : ℕ) (v : Option α), t.size ≤ i → (i : ℤ) ≤ CInt.max →
      (t.Covers i .success (fun memory => t.setItem memory i v) ↔
        t.maxSize ≤ i ∨ (i : ℤ) + 2 - i % 2 < t.maxSize)) ∧
    (∀ (i : ℕ) (x : α), t.size ≤ i → (i : ℤ) ≤ CInt.max →
      (t.Covers i true (fun memory => t.testAndSetItem memory i x) ↔
        t.maxSize ≤ i ∨ (i : ℤ) + 2 - i % 2 < t.maxSize)) ∧
    (t.numberFree = 0 → ∀ x : α,
      (t.Covers t.size (.ok t.size) (fun memory => t.add memory x) ↔
        t.AddGrows ∨ t.maxSize ≤ t.size ∧ ¬ t.AddBreaks)) := by
  obtain ⟨hexact, haddr⟩ := hreach.exact
  have heven : ∀ i : ℕ, (PointerTable.evenAbove i : ℤ) = (i : ℤ) + 2 - i % 2 := by
    intro i
    rw [PointerTable.evenAbove]
    omega
  refine ⟨fun i v hsize hi => ?_, fun i x hsize hi => ?_, fun hfull x => ?_⟩
  · rw [← heven, (hexact.setItem_grow hsize hi v).covers_iff (by decide)]
  · rw [← heven, (hexact.testAndSetItem_grow hsize hi x).covers_iff (by decide)]
  · exact hexact.add_covers_iff haddr hfull x

theorem pointer_array_growth_four :
    (∀ (i : ℕ) (v : Option ℕ), PointerTable.four.size ≤ i → (i : ℤ) ≤ CInt.max →
      (PointerTable.four.Covers i .success (fun memory => PointerTable.four.setItem memory i v) ↔
        PointerTable.four.maxSize ≤ i ∨ (i : ℤ) + 2 - i % 2 < PointerTable.four.maxSize)) ∧
    (∀ (i x : ℕ), PointerTable.four.size ≤ i → (i : ℤ) ≤ CInt.max →
      (PointerTable.four.Covers i true
          (fun memory => PointerTable.four.testAndSetItem memory i x) ↔
        PointerTable.four.maxSize ≤ i ∨ (i : ℤ) + 2 - i % 2 < PointerTable.four.maxSize)) ∧
    (PointerTable.four.numberFree = 0 → ∀ x : ℕ,
      (PointerTable.four.Covers PointerTable.four.size (.ok PointerTable.four.size)
          (fun memory => PointerTable.four.add memory x) ↔
        PointerTable.four.AddGrows ∨
          PointerTable.four.maxSize ≤ PointerTable.four.size ∧ ¬ PointerTable.four.AddBreaks)) := by
  have hinit : PointerTable.init true .construct 4 10 2 = (.success, PointerTable.four) := rfl
  exact pointer_array_growth (.init (by decide) (by decide) hinit)

/-- With four slots and limit 5, slot 4 is written behind a table that was grown to four slots; with
limit 6 it is refused. -/
theorem pointer_array_growth_fails :
    (∃ t, PointerTable.init true (.construct : PointerTable ℕ) 4 5 2 = (.success, t) ∧
      t.setItem true 4 (some 7) = none) ∧
    ∃ t, PointerTable.init true (.construct : PointerTable ℕ) 4 6 2 = (.success, t) ∧
      t.setItem true 4 (some 7) = some (.error, t) :=
  ⟨⟨_, rfl, by decide⟩, _, rfl, by decide⟩

end Ocoms
