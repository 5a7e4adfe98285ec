import Ocoms.Util.HashTableRemove

/-!
Runs of the hash table.

* `HashTable.Granted`: the tables after `init` and any calls of which none has failed for lack of
  memory, each with the map that the calls describe. `Granted.refines` says what such a table does.
* `HashTable.Leads` are the runs in which memory may be short. The invariant holds there too, but a
  call that fails has already stored the key: `hash_table_failed_set`.
-/

namespace Ocoms

namespace HashTable

open LinearProbing
open scoped List

variable {κ ν : Type*} {methods : HashTypeMethods κ}

section

variable {memory : Bool} {t t' : HashTable κ ν}

/-! ### Empty tables -/

lemma removeAll_capacity (t : HashTable κ ν) : t.removeAll.capacity = t.capacity :=
  List.length_replicate

lemma contents_removeAll (t : HashTable κ ν) : contents t.removeAll.table = [] :=
  List.reduceOption_replicate_none

lemma inv_removeAll (hInv : Inv methods t) : Inv methods t.removeAll := by
  refine ⟨?_, ?_, ?_, ?_, ?_⟩
  · rw [removeAll_capacity]
    exact hInv.pos
  · rw [removeAll_capacity]
    exact hInv.bytes
  · intro i x _ hx
    rw [removeAll, cell_replicate] at hx
    cases hx
  · rw [contents_removeAll]
    exact List.nodup_nil
  · rw [contents_removeAll]
    rfl

/-! ### Room -/

/-- The density and the growth of `init`, with fewer elements than trigger the next growth. -/
structure Roomy (t : HashTable κ ν) : Prop where
  densityNumer : t.densityNumer = 1
  densityDenom : t.densityDenom = 2
  growthNumer : t.growthNumer = 2
  growthDenom : t.growthDenom = 1
  trigger : t.growthTrigger = t.capacity / 2
  size_lt : t.size < max t.growthTrigger 1

lemma Inv.capacity_lt (hInv : Inv methods t) : t.capacity < 2 ^ 59 := by
  have := hInv.bytes
  rw [elementSize, sizeT] at this
  omega

lemma Roomy.hasFree (hRoomy : t.Roomy) (hInv : Inv methods t) : t.HasFree := by
  refine hasFree_iff_length.2 ?_
  have hsize := hRoomy.size_lt
  have htrigger := hRoomy.trigger
  have hpos := hInv.pos
  rw [hInv.size_eq] at hsize
  rw [capacity] at htrigger hpos
  omega

/-- The table after a growth is more than twice as large. -/
lemma Roomy.newCapacity_gt (hRoomy : t.Roomy) (hInv : Inv methods t) :
    2 * t.capacity < t.newCapacity ∧ 30 < t.newCapacity := by
  have hlt := hInv.capacity_lt
  have hpos := hInv.pos
  have hmod : t.capacity * 2 % sizeT = t.capacity * 2 :=
    Nat.mod_eq_of_lt (by rw [sizeT]; omega)
  obtain ⟨hgt, hmin⟩ := lt_roundCapacityUp (c := t.capacity * 2) (by rw [sizeT]; omega)
  rw [newCapacity, hRoomy.growthNumer, hRoomy.growthDenom, hmod, Nat.div_one]
  exact ⟨by omega, hmin (by omega)⟩

lemma Roomy.congr (hRoomy : t.Roomy) (hcapacity : t'.capacity = t.capacity)
    (hparams : t' = { t with table := t'.table, size := t'.size })
    (hsize : t'.size < max t.growthTrigger 1) : t'.Roomy := by
  have htrigger : t'.growthTrigger = t.growthTrigger := by rw [hparams]
  refine ⟨?_, ?_, ?_, ?_, ?_, ?_⟩
  · rw [hparams]
    exact hRoomy.densityNumer
  · rw [hparams]
    exact hRoomy.densityDenom
  · rw [hparams]
    exact hRoomy.growthNumer
  · rw [hparams]
    exact hRoomy.growthDenom
  · rw [htrigger, hcapacity]
    exact hRoomy.trigger
  · rw [htrigger]
    exact hsize

lemma written_capacity (t : HashTable κ ν) (ii : ℕ) (key : κ) (value : ν) (n : ℕ) :
    (t.written ii key value n).capacity = t.capacity := List.length_set

/-- A growth makes room. -/
lemma Roomy.grown {n ii : ℕ} {key : κ} {value : ν} (hRoomy : t.Roomy) (hInv : Inv methods t)
    (hInv' : Inv methods t') (hn : n ≤ t.size + 1)
    (ht' : t' = { t.written ii key value n with
      table := t'.table
      growthTrigger := t'.capacity * t.densityNumer % sizeT / t.densityDenom })
    (hcapacity : t'.capacity = t.newCapacity) : t'.Roomy := by
  have hlt := hInv'.capacity_lt
  have htrigger : t'.capacity * t.densityNumer % sizeT / t.densityDenom = t'.capacity / 2 := by
    rw [hRoomy.densityNumer, hRoomy.densityDenom, Nat.mul_one,
      Nat.mod_eq_of_lt (hlt.trans (by rw [sizeT]; decide))]
  obtain ⟨hgt, hmin⟩ := hRoomy.newCapacity_gt hInv
  have hsize := hRoomy.size_lt
  have hold := hRoomy.trigger
  rw [htrigger] at ht'
  have hfields : t'.growthTrigger = t'.capacity / 2 ∧ t'.size = n := by
    rw [ht']
    exact ⟨rfl, rfl⟩
  rw [ht']
  refine ⟨hRoomy.1, hRoomy.2, hRoomy.3, hRoomy.4, ?_, ?_⟩
  · rw [← ht']
    exact hfields.1
  · rw [← ht', hfields.1, hfields.2]
    omega

/-- A table of `init`, with a map that has the same pairs. -/
structure Good (methods : HashTypeMethods κ) (t : HashTable κ ν) (m : κ → Option ν) : Prop where
  inv : Inv methods t
  roomy : t.Roomy
  represents : t.Represents m

lemma init_good {tableSize : ℕ} (h : init memory construct tableSize = (.success, t)) :
    Good methods t fun _ => none := by
  unfold init init2 at h
  dsimp only at h
  split at h
  case h_1 => cases (Prod.mk.inj h).1
  case h_2 table hnew =>
    obtain ⟨-, rfl⟩ := Prod.mk.inj h
    obtain ⟨hlen, hbytes, hnil, hnone, hchained⟩ := calloc_cases methods hnew
    have hInv : Inv methods { (construct : HashTable κ ν) with
        table, densityNumer := 1, densityDenom := 2, growthNumer := 2, growthDenom := 1
        growthTrigger := roundCapacityUp (tableSize * 2 % sizeT / 1) * 1 % sizeT / 2 } := by
      refine ⟨?_, ?_, hchained, ?_, ?_⟩
      · rw [capacity, hlen]
        exact roundCapacityUp_pos _
      · rw [capacity, hlen]
        exact hbytes
      · rw [hnil]
        exact List.nodup_nil
      · rw [hnil]
        rfl
    refine ⟨hInv, ⟨rfl, rfl, rfl, rfl, ?_, ?_⟩, fun k v => ?_⟩
    · have hlt := hInv.capacity_lt
      rw [capacity, hlen] at hlt ⊢
      dsimp only
      rw [Nat.mul_one, Nat.mod_eq_of_lt (hlt.trans (by rw [sizeT]; decide))]
    · exact Nat.lt_of_lt_of_le Nat.one_pos (Nat.le_max_right _ _)
    · rw [hnil]
      simp

end

/-! ### Calls -/

/-- The functions that a user calls after `init`. -/
inductive Op (κ ν : Type*)
  | get (key : κ)
  | set (key : κ) (value : ν)
  | remove (key : κ)
  | removeAll

section

variable [DecidableEq κ] {memory : Bool} {t t' : HashTable κ ν} {m : κ → Option ν} {fuel : ℕ}
  {rc : HashRc} {op : Op κ ν}

/-- The table after a call, and what the call reports. -/
def step (methods : HashTypeMethods κ) (memory : Bool) (fuel : ℕ) (t : HashTable κ ν) :
    Op κ ν → Option (HashRc × HashTable κ ν)
  | .get key => (t.getValue methods fuel key).map fun r => (r.1, t)
  | .set key value => t.setValue methods memory fuel key value
  | .remove key => t.removeValue methods fuel key
  | .removeAll => some (.success, t.removeAll)

/-- The map after a call. -/
def Op.apply (m : κ → Option ν) : Op κ ν → κ → Option ν
  | .get _ => m
  | .set key value => Function.update m key (some value)
  | .remove key => Function.update m key none
  | .removeAll => fun _ => none

/-! ### The invariant in every run -/

/-- The invariant is kept by every call. -/
lemma Inv.step (hInv : Inv methods t) (h : t.step methods memory fuel op = some (rc, t')) :
    Inv methods t' := by
  cases op with
  | get key =>
      obtain ⟨r, -, heq⟩ := Option.map_eq_some_iff.1 h
      obtain ⟨-, rfl⟩ := Prod.mk.inj heq
      exact hInv
  | set key value =>
      obtain ⟨ii, n, -, -, hwritten, -, hcase⟩ := setValue_cases hInv h
      rcases hcase with ⟨-, -, rfl⟩ | ⟨-, -, ⟨-, -, rfl⟩ | ⟨-, hgrow⟩⟩
      · exact hwritten
      · exact hwritten
      · rcases grow_cases hwritten hgrow with ⟨-, rfl, -⟩ | ⟨-, hInv', -⟩
        · exact hwritten
        · exact hInv'
  | remove key =>
      rcases removeValue_cases hInv h with ⟨-, rfl, -⟩ | ⟨v, -, hInv', -⟩
      · exact hInv
      · exact hInv'
  | removeAll =>
      obtain ⟨-, rfl⟩ := Prod.mk.inj (Option.some.inj h)
      exact inv_removeAll hInv

/-- The tables that calls lead to. -/
inductive Leads (methods : HashTypeMethods κ) (t : HashTable κ ν) : HashTable κ ν → Prop
  | refl : Leads methods t t
  | step {t' t'' : HashTable κ ν} {memory : Bool} {fuel : ℕ} {op : Op κ ν} {rc : HashRc} :
      Leads methods t t' → t'.step methods memory fuel op = some (rc, t'') → Leads methods t t''

theorem Leads.inv (h : Leads methods t t') (hInv : Inv methods t) : Inv methods t' := by
  induction h with
  | refl => exact hInv
  | step _ hstep ih => exact ih.step hstep

/-! ### Runs with enough memory -/

/-- A call that has the memory it needs acts on the map. -/
theorem Good.step (hGood : Good methods t m)
    (h : t.step methods memory fuel op = some (rc, t')) (hrc : rc ≠ .outOfResource) :
    Good methods t' (op.apply m) := by
  have hInv := hGood.inv
  have hInv' := hInv.step h
  have hsize := hGood.roomy.size_lt
  cases op with
  | get key =>
      obtain ⟨r, -, heq⟩ := Option.map_eq_some_iff.1 h
      obtain ⟨-, rfl⟩ := Prod.mk.inj heq
      exact hGood
  | set key value =>
      obtain ⟨ii, n, -, -, hwritten, hmap, hcase⟩ := setValue_cases hInv h
      have hrepresents := hmap m hGood.represents
      have hroomy : n < max t.growthTrigger 1 → (t.written ii key value n).Roomy := fun hn =>
        hGood.roomy.congr (written_capacity ..) rfl hn
      rcases hcase with ⟨rfl, -, rfl⟩ | ⟨rfl, -, ⟨hlt, -, rfl⟩ | ⟨-, hgrow⟩⟩
      · exact ⟨hInv', hroomy hsize, hrepresents⟩
      · exact ⟨hInv', hroomy (hlt.trans_le (Nat.le_max_left _ _)), hrepresents⟩
      · rcases grow_cases hwritten hgrow with ⟨rfl, -⟩ | ⟨-, -, hperm, ht', hcapacity⟩
        · exact absurd rfl hrc
        · refine ⟨hInv', ?_, hrepresents.perm hperm⟩
          refine hGood.roomy.grown hInv hInv' le_rfl ht' ?_
          rw [hcapacity, newCapacity, written_capacity]
          rfl
  | remove key =>
      rcases removeValue_cases hInv h with ⟨-, rfl, habsent⟩ | ⟨v, -, -, hperm, ht', hcapacity⟩
      · rw [Op.apply, ← hGood.represents.eq_none habsent, Function.update_eq_self]
        exact hGood
      · refine ⟨hInv', ?_, hGood.represents.remove hInv hperm⟩
        have hsize' : t'.size = t.size - 1 := by rw [ht']
        exact hGood.roomy.congr hcapacity (by rw [ht']) (by omega)
  | removeAll =>
      obtain ⟨-, rfl⟩ := Prod.mk.inj (Option.some.inj h)
      refine ⟨hInv', ?_, fun k v => ?_⟩
      · refine hGood.roomy.congr (removeAll_capacity t) rfl ?_
        exact Nat.lt_of_lt_of_le Nat.one_pos (Nat.le_max_right _ _)
      · rw [contents_removeAll]
        simp [Op.apply]

/-- The tables after `init` and calls that have the memory they need, with the map that the calls
describe. -/
inductive Granted (methods : HashTypeMethods κ) (tableSize : ℕ) :
    HashTable κ ν → (κ → Option ν) → Prop
  | init {t : HashTable κ ν} : init true construct tableSize = (.success, t) →
      Granted methods tableSize t fun _ => none
  | step {t t' : HashTable κ ν} {m : κ → Option ν} {fuel : ℕ} {op : Op κ ν} {rc : HashRc} :
      Granted methods tableSize t m → t.step methods true fuel op = some (rc, t') →
      rc ≠ .outOfResource → Granted methods tableSize t' (op.apply m)

theorem Granted.good {tableSize : ℕ} (h : Granted methods tableSize t m) : Good methods t m := by
  induction h with
  | init hinit => exact init_good hinit
  | step _ hstep hrc ih => exact ih.step hstep hrc

/-- What a table that refines a map does: every call returns, `getValue` finds the value of the map,
`setValue` fails for lack of memory only, `removeValue` finds the keys of the map, a traversal visits
each pair of the map once, as many as `getSize` counts, and some element is not valid. -/
structure Refines (methods : HashTypeMethods κ) (t : HashTable κ ν) (m : κ → Option ν) : Prop where
  getValue : ∀ key, ∃ n, ∀ fuel ≥ n, t.getValue methods fuel key =
    some (match m key with
      | some value => (.success, some value)
      | none => (.notFound, none))
  setValue : ∀ key value, ∃ n, ∀ fuel ≥ n, ∃ rc t',
    t.setValue methods true fuel key value = some (rc, t') ∧
      (rc = .success ∨ rc = .outOfResource ∧ sizeT ≤ t.newCapacity * elementSize)
  removeValue : ∀ key, ∃ n, ∀ fuel ≥ n, ∃ t', t.removeValue methods fuel key =
    some (if (m key).isSome then .success else .notFound, t')
  traversal : ∃ l, (∀ fuel > t.capacity, t.traverse fuel = some l) ∧ (l.map Prod.fst).Nodup ∧
    (∀ key value, (key, value) ∈ l ↔ m key = some value) ∧ t.getSize = l.length
  free : t.HasFree

lemma Good.getValue (hGood : Good methods t m) (key : κ) (hfuel : t.capacity ≤ fuel) :
    t.getValue methods fuel key = some (match m key with
      | some value => (.success, some value)
      | none => (.notFound, none)) := by
  obtain ⟨ii, hii⟩ := search_returns hGood.inv (hGood.roomy.hasFree hGood.inv) key
  have hsearch := hii fuel hfuel
  obtain ⟨hi, -, hcell⟩ := search_cases hGood.inv hsearch
  unfold HashTable.getValue
  rw [hsearch, Option.map_some]
  rcases hcell with ⟨hnone, habsent⟩ | ⟨v, hsome⟩
  · rw [hnone, hGood.represents.eq_none habsent]
  · rw [hsome, (hGood.represents key v).1 (mem_contents.2 ⟨ii, hi, hsome⟩)]

/-- A call of `setValue` returns. -/
lemma Good.setValue_returns (hGood : Good methods t m) (key : κ) (value : ν)
    (hfuel : t.capacity ≤ fuel) (hfuel' : t.newCapacity ≤ fuel) :
    ∃ r, t.setValue methods memory fuel key value = some r := by
  have hInv := hGood.inv
  obtain ⟨ii, hii⟩ := search_returns hInv (hGood.roomy.hasFree hInv) key
  have hsearch := hii fuel hfuel
  obtain ⟨hi, hfirst, hcell⟩ := search_cases hInv hsearch
  unfold setValue
  rw [hsearch, Option.bind_some]
  rcases hcell with ⟨hnone, habsent⟩ | ⟨v, hsome⟩
  · rw [hnone]
    dsimp only
    split
    case isFalse => exact ⟨_, rfl⟩
    case isTrue =>
      have hwritten : Inv methods (t.written ii key value (t.size + 1)) :=
        hInv.write hi hfirst hnone (.inl ⟨rfl, habsent⟩) rfl
      have hnew : (t.written ii key value (t.size + 1)).newCapacity = t.newCapacity := by
        rw [newCapacity, written_capacity]
        rfl
      obtain ⟨hgt, -⟩ := hGood.roomy.newCapacity_gt hInv
      have hle := hwritten.size_le
      rw [written_capacity] at hle
      refine grow_returns (t := t.written ii key value (t.size + 1)) ?_ (hnew ▸ hfuel')
      rw [← hwritten.size_eq, hnew]
      omega
  · rw [hsome]
    exact ⟨_, rfl⟩

/-- Unless the new table does not fit into the memory, the call succeeds. -/
lemma Good.setValue_success (hGood : Good methods t m) {key : κ} {value : ν}
    (h : t.setValue methods true fuel key value = some (rc, t')) :
    rc = .success ∨ rc = .outOfResource ∧ sizeT ≤ t.newCapacity * elementSize := by
  obtain ⟨ii, n, -, -, hwritten, -, hcase⟩ := setValue_cases hGood.inv h
  rcases hcase with ⟨-, rfl, -⟩ | ⟨-, -, ⟨-, rfl, -⟩ | ⟨-, hgrow⟩⟩
  · exact .inl rfl
  · exact .inl rfl
  · rcases grow_cases hwritten hgrow with ⟨rfl, -, hbytes⟩ | ⟨rfl, -⟩
    · have hle := hbytes rfl
      rw [newCapacity, written_capacity] at hle
      exact .inr ⟨rfl, hle⟩
    · exact .inl rfl

lemma Good.removeValue (hGood : Good methods t m) (key : κ) (hfuel : t.capacity ≤ fuel) :
    ∃ t', t.removeValue methods fuel key =
      some (if (m key).isSome then .success else .notFound, t') := by
  obtain ⟨⟨rc, t'⟩, hremove⟩ :=
    removeValue_returns hGood.inv (hGood.roomy.hasFree hGood.inv) key hfuel
  refine ⟨t', ?_⟩
  rw [hremove]
  rcases removeValue_cases hGood.inv hremove with ⟨rfl, -, habsent⟩ | ⟨v, rfl, -, hperm, -⟩
  · rw [hGood.represents.eq_none habsent]
    rfl
  · rw [(hGood.represents key v).1 (hperm.mem_iff.1 (List.mem_cons_self ..))]
    rfl

theorem Good.refines (hGood : Good methods t m) : Refines methods t m where
  getValue key := ⟨t.capacity, fun _ hfuel => hGood.getValue key hfuel⟩
  setValue key value := by
    refine ⟨max t.capacity t.newCapacity, fun fuel hfuel => ?_⟩
    obtain ⟨⟨rc, t'⟩, hset⟩ : ∃ r, t.setValue methods true fuel key value = some r :=
      hGood.setValue_returns key value ((Nat.le_max_left _ _).trans hfuel)
        ((Nat.le_max_right _ _).trans hfuel)
    exact ⟨rc, t', hset, hGood.setValue_success hset⟩
  removeValue key := ⟨t.capacity, fun _ hfuel => hGood.removeValue key hfuel⟩
  traversal := ⟨contents t.table, fun _ hfuel => traverse_eq hfuel, hGood.inv.nodup,
    hGood.represents, hGood.inv.size_eq⟩
  free := hGood.roomy.hasFree hGood.inv

/-- In every run with enough memory the table refines the map of the run. -/
def RefinesMap (ν : Type*) (methods : HashTypeMethods κ) : Prop :=
  ∀ (tableSize : ℕ) (t : HashTable κ ν) (m : κ → Option ν), Granted methods tableSize t m →
    Refines methods t m

theorem refinesMap (ν : Type*) (methods : HashTypeMethods κ) : RefinesMap ν methods :=
  fun _ _ _ h => h.good.refines

/-! ### Full tables -/

/-- In a table without a free element a search for another key does not end. -/
theorem search_full (hInv : Inv methods t) (hfull : ¬ t.HasFree) {key : κ}
    (habsent : ∀ v, (key, v) ∉ contents t.table) (fuel : ℕ) :
    t.search methods fuel key = none := by
  rw [Option.eq_none_iff_forall_ne_some]
  intro ii hsearch
  obtain ⟨hi, -, hcell⟩ := search_cases hInv hsearch
  rcases hcell with ⟨hnone, -⟩ | ⟨v, hsome⟩
  · exact hfull ⟨ii, hi, hnone⟩
  · exact habsent v (mem_contents.2 ⟨ii, hi, hsome⟩)

/-- What a caller expects of a call that fails for lack of memory: the map and the size are
unchanged, and some element is not valid after any further calls. -/
structure FailureOk (methods : HashTypeMethods κ) (t t' : HashTable κ ν) : Prop where
  contents : ∀ key value, (key, value) ∈ contents t'.table ↔ (key, value) ∈ contents t.table
  size : t'.size = t.size
  free : ∀ t'', Leads methods t' t'' → t''.HasFree

/-- A call that fails has stored the key. -/
lemma Inv.failed_set (hInv : Inv methods t) {key : κ} {value : ν}
    (h : t.setValue methods memory fuel key value = some (.outOfResource, t')) :
    (∀ v, (key, v) ∉ contents t.table) ∧ (key, value) ∈ contents t'.table ∧
      t'.size = t.size + 1 ∧ t'.capacity = t.capacity := by
  obtain ⟨ii, n, -, hi, hwritten, -, hcase⟩ := setValue_cases hInv h
  rcases hcase with ⟨-, hrc, -⟩ | ⟨rfl, habsent, ⟨-, hrc, -⟩ | ⟨-, hgrow⟩⟩
  · cases hrc
  · cases hrc
  · rcases grow_cases hwritten hgrow with ⟨-, rfl, -⟩ | ⟨hrc, -⟩
    · refine ⟨habsent, mem_contents.2 ⟨ii, ?_, ?_⟩, rfl, written_capacity ..⟩
      · exact hi.trans_eq (written_capacity t ii key value _).symm
      · rw [written, cell_set hi, Function.update_self]
    · cases hrc

end

end HashTable

open HashTable

/-- **The hash table refines a map**, for each kind of keys. -/
theorem hash_table_refines_map (ν : Type*) :
    RefinesMap ν hashTypeMethodsUint32 ∧ RefinesMap ν hashTypeMethodsUint64 ∧
      RefinesMap ν hashTypeMethodsPtr :=
  ⟨refinesMap ν _, refinesMap ν _, refinesMap ν _⟩

/-- **A failed growth leaves the key in the table.** In every run a call of `setValue` that fails has
stored a key that was absent, and it counts it: what a caller expects is never true. -/
theorem hash_table_failed_set {κ ν : Type*} [DecidableEq κ] {methods : HashTypeMethods κ}
    {tableSize : ℕ} {t₀ t t' : HashTable κ ν} {memory : Bool} {fuel : ℕ} {key : κ} {value : ν}
    (hinit : init true construct tableSize = (.success, t₀)) (hrun : HashTable.Leads methods t₀ t)
    (hfail : t.setValue methods memory fuel key value = some (.outOfResource, t')) :
    ¬ FailureOk methods t t' ∧ (∀ v, (key, v) ∉ contents t.table) ∧
      (key, value) ∈ contents t'.table ∧ t'.size = t.size + 1 ∧ t'.capacity = t.capacity := by
  have hstored := (hrun.inv (init_good hinit).inv).failed_set hfail
  refine ⟨fun hok => ?_, hstored⟩
  have := hok.size
  obtain ⟨-, -, hsize, -⟩ := hstored
  omega

/-- The first key in a table of initial size 0. -/
theorem hash_table_failed_set_first :
    let t : HashTable (BitVec 32) ℕ := ⟨[none], 0, 0, 1, 2, 2, 1⟩
    let t' : HashTable (BitVec 32) ℕ := ⟨[some (5, 7)], 1, 0, 1, 2, 2, 1⟩
    ¬ FailureOk hashTypeMethodsUint32 t t' ∧ (∀ v, (5, v) ∉ contents t.table) ∧
      (5, 7) ∈ contents t'.table ∧ t'.size = t.size + 1 ∧ t'.capacity = t.capacity := by
  intro t t'
  have hinit : init true construct 0 = (.success, t) := by decide
  have hfail : t.setValue hashTypeMethodsUint32 false 1 5 7 = some (.outOfResource, t') := by decide
  exact hash_table_failed_set hinit .refl hfail

/-- A growth that fails on the first key: the table is full, and a search for another key does not
end. -/
theorem hash_table_failed_set_fails :
    (¬ ∀ (tableSize : ℕ) (t₀ t t' : HashTable (BitVec 32) ℕ) (memory : Bool) (fuel : ℕ)
        (key : BitVec 32) (value : ℕ), init true construct tableSize = (.success, t₀) →
        HashTable.Leads hashTypeMethodsUint32 t₀ t →
        t.setValueUint32 memory fuel key value = some (.outOfResource, t') →
        FailureOk hashTypeMethodsUint32 t t') ∧
      ∀ fuel, getValueUint32 fuel (⟨[some (5, 7)], 1, 0, 1, 2, 2, 1⟩ : HashTable (BitVec 32) ℕ) 6 =
        none := by
  have hinit : init true (construct : HashTable (BitVec 32) ℕ) 0 =
      (.success, ⟨[none], 0, 0, 1, 2, 2, 1⟩) := by decide
  have hfail : setValueUint32 false 1 ⟨[none], 0, 0, 1, 2, 2, 1⟩ 5 7 =
      some (.outOfResource, (⟨[some (5, 7)], 1, 0, 1, 2, 2, 1⟩ : HashTable (BitVec 32) ℕ)) := by
    decide
  constructor
  · intro h
    have hsize := (h 0 _ _ _ false 1 5 7 hinit .refl hfail).size
    exact absurd hsize (by decide)
  · intro fuel
    have hgood : Good hashTypeMethodsUint32 _ _ := init_good hinit
    have hstep : HashTable.step hashTypeMethodsUint32 false 1 _ (.set 5 7) = _ := hfail
    have hfull : ¬ HasFree (⟨[some (5, 7)], 1, 0, 1, 2, 2, 1⟩ : HashTable (BitVec 32) ℕ) := by
      rintro ⟨i, hi, hnone⟩
      obtain rfl : i = 0 := Nat.lt_one_iff.1 hi
      cases hnone
    have habsent : ∀ v, (6, v) ∉ contents [some ((5 : BitVec 32), 7)] := by
      intro v hv
      obtain ⟨hkey, -⟩ := Prod.mk.inj (List.mem_singleton.1 hv)
      exact absurd hkey (by decide)
    rw [getValueUint32, getValue, search_full (hgood.inv.step hstep) hfull habsent, Option.map_none]

end Ocoms
