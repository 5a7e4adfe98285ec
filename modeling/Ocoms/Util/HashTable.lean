import Mathlib.Data.List.Perm.Basic
import Mathlib.Data.List.ReduceOption
import Mathlib.Order.Basic
import Ocoms.Lib.CSize
import Ocoms.Lib.LinearProbing

/-!
The hash table: `ocoms_hash_table.c`.

* `HashTable κ ν` is `ocoms_hash_table_t` with keys of type `κ`; `HashTypeMethods κ` is the hash of
  its keys. An element that is not valid is `none`, and the capacity is the length of the table.
* Every loop over the elements takes fuel, and `none` is a loop that has not ended. Functions that
  allocate take a flag that says whether there is memory; the copy of a byte string key is taken to
  be made.
* `getValue`, `setValue` and `removeValue` are one definition for the three kinds of keys; the
  functions of the source are these with the methods of the kind.
-/

namespace Ocoms

open LinearProbing

/-- `OCOMS_SUCCESS`, `OCOMS_ERROR`, `OCOMS_ERR_NOT_FOUND` and `OCOMS_ERR_OUT_OF_RESOURCE`. -/
inductive HashRc
  | success | error | notFound | outOfResource
  deriving DecidableEq, Repr

/-! ### The keys -/

/-- `ocoms_hash_type_methods_t`, without the destructor. -/
structure HashTypeMethods (κ : Type*) where
  hashElt : κ → ℕ

/-- `ocoms_hash_type_methods_uint32`. -/
def hashTypeMethodsUint32 : HashTypeMethods (BitVec 32) where
  hashElt := BitVec.toNat

/-- `ocoms_hash_type_methods_uint64`. -/
def hashTypeMethodsUint64 : HashTypeMethods (BitVec 64) where
  hashElt := BitVec.toNat

/-- `HASH_MULTIPLIER`. -/
def hashMultiplier : ℕ := 31

/-- `ocoms_hash_hash_key_ptr`. -/
def hashKeyPtr (key : List UInt8) : ℕ :=
  key.foldl (fun hash scanner => (hashMultiplier * hash + scanner.toNat) % 2 ^ 64) 0

/-- `ocoms_hash_type_methods_ptr`. -/
def hashTypeMethodsPtr : HashTypeMethods (List UInt8) where
  hashElt := hashKeyPtr

/-- `ocoms_hash_table_t`. -/
@[ext]
structure HashTable (κ ν : Type*) where
  table : List (Option (κ × ν))
  size : ℕ
  growthTrigger : ℕ
  densityNumer : ℕ
  densityDenom : ℕ
  growthNumer : ℕ
  growthDenom : ℕ
  deriving DecidableEq

namespace HashTable

variable {κ ν : Type*}

/-! ### Creation -/

/-- `ocoms_hash_table_construct`. -/
def construct : HashTable κ ν where
  table := []
  size := 0
  growthTrigger := 0
  densityNumer := 0
  densityDenom := 0
  growthNumer := 0
  growthDenom := 0

/-- `ht_capacity`. -/
def capacity (t : HashTable κ ν) : ℕ := t.table.length

/-- `ocoms_hash_table_get_size`. -/
def getSize (t : HashTable κ ν) : ℕ := t.size

/-- `sizeof(ocoms_hash_element_t)`. -/
def elementSize : ℕ := 32

/-- `calloc`: there is no memory for more bytes than a `size_t` counts. -/
def calloc (memory : Bool) (n : ℕ) : Option (List (Option (κ × ν))) :=
  if memory ∧ n * elementSize < sizeT then some (List.replicate n none) else none

/-- `ocoms_hash_round_capacity_up`. -/
def roundCapacityUp (capacity : ℕ) : ℕ := ((capacity + 29) % sizeT / 30 * 30 + 1) % sizeT

/-- `ocoms_hash_table_init2`. -/
def init2 (memory : Bool) (t : HashTable κ ν)
    (estimatedMaxSize densityNumer densityDenom growthNumer growthDenom : ℕ) :
    HashRc × HashTable κ ν :=
  let estCapacity := estimatedMaxSize * densityDenom % sizeT / densityNumer
  let capacity := roundCapacityUp estCapacity
  match calloc memory capacity with
  | none => (.outOfResource, { t with table := [] })
  | some table => (.success, { t with
      table, densityNumer, densityDenom, growthNumer, growthDenom
      growthTrigger := capacity * densityNumer % sizeT / densityDenom })

/-- `ocoms_hash_table_init`. -/
def init (memory : Bool) (t : HashTable κ ν) (tableSize : ℕ) : HashRc × HashTable κ ν :=
  t.init2 memory tableSize 1 2 2 1

/-- `ocoms_hash_table_remove_all`. -/
def removeAll (t : HashTable κ ν) : HashTable κ ν :=
  { t with table := List.replicate t.capacity none, size := 0 }

/-! ### Elements -/

/-- The element `&elts[i]`. -/
def cell (elts : List (Option (κ × ν))) (i : ℕ) : Option (κ × ν) := elts[i]?.join

/-- `! elts[i].valid`. -/
def free (elts : List (Option (κ × ν))) (i : ℕ) : Bool := (cell elts i).isNone

/-- The first element that is probed for a key. -/
def home (methods : HashTypeMethods κ) (capacity : ℕ) (elt : κ × ν) : ℕ :=
  methods.hashElt elt.1 % capacity

/-- The copy of an old element into the new table. -/
def reinsert (methods : HashTypeMethods κ) (fuel : ℕ) (newTable : List (Option (κ × ν))) :
    Option (κ × ν) → Option (List (Option (κ × ν)))
  | none => some newTable
  | some oldElt =>
      (probe newTable.length (free newTable) fuel (home methods newTable.length oldElt)).map
        fun ii => newTable.set ii (some oldElt)

/-- `ocoms_hash_grow`. -/
def grow (methods : HashTypeMethods κ) (memory : Bool) (fuel : ℕ) (t : HashTable κ ν) :
    Option (HashRc × HashTable κ ν) :=
  let newCapacity := roundCapacityUp (t.capacity * t.growthNumer % sizeT / t.growthDenom)
  match calloc memory newCapacity with
  | none => some (.outOfResource, t)
  | some newTable =>
      (t.table.foldlM (reinsert methods fuel) newTable).map fun table => (.success, { t with
        table
        growthTrigger := newCapacity * t.densityNumer % sizeT / t.densityDenom })

/-- The loop for a follower of a removed element ends at a gap, or where the follower is. -/
def gapOrSelf (elts : List (Option (κ × ν))) (ii jj : ℕ) : Bool := jj == ii || free elts jj

/-- One follower of a removed element: it is moved down if there is a gap on its way. -/
def rehash (methods : HashTypeMethods κ) (fuel capacity : ℕ) :
    List (Option (κ × ν)) × ℕ →
      (List (Option (κ × ν)) × ℕ) ⊕ Option (List (Option (κ × ν)))
  | (elts, ii) =>
      let ii := wrap capacity ii
      match cell elts ii with
      | none => .inr (some elts)
      | some elt =>
          match probe capacity (gapOrSelf elts ii) fuel (home methods capacity elt) with
          | none => .inr none
          | some jj => .inl (if jj = ii then elts else (elts.set jj (some elt)).set ii none, ii + 1)

/-- `ocoms_hash_table_remove_elt_at`. -/
def removeEltAt (methods : HashTypeMethods κ) (fuel : ℕ) (t : HashTable κ ν) (ii : ℕ) :
    Option (HashRc × HashTable κ ν) :=
  match cell t.table ii with
  | none => some (.error, t)
  | some _ =>
      ((loop (rehash methods fuel t.capacity) fuel (t.table.set ii none, ii + 1)).bind id).map
        fun table => (.success, { t with table, size := subSizeT t.size 1 })

/-! ### Access by key -/

section

variable [DecidableEq κ]

/-- A loop that looks for a key ends at an element that is not valid, or that holds the key. -/
def atKey (elts : List (Option (κ × ν))) (key : κ) (ii : ℕ) : Bool :=
  match cell elts ii with
  | none => true
  | some elt => elt.1 = key

/-- The element where the loop ends. -/
def search (methods : HashTypeMethods κ) (fuel : ℕ) (t : HashTable κ ν) (key : κ) : Option ℕ :=
  probe t.capacity (atKey t.table key) fuel (methods.hashElt key % t.capacity)

/-- `ocoms_hash_table_get_value_…`. -/
def getValue (methods : HashTypeMethods κ) (fuel : ℕ) (t : HashTable κ ν) (key : κ) :
    Option (HashRc × Option ν) :=
  (t.search methods fuel key).map fun ii =>
    match cell t.table ii with
    | none => (.notFound, none)
    | some elt => (.success, some elt.2)

/-- `ocoms_hash_table_set_value_…`. -/
def setValue (methods : HashTypeMethods κ) (memory : Bool) (fuel : ℕ) (t : HashTable κ ν) (key : κ)
    (value : ν) : Option (HashRc × HashTable κ ν) :=
  (t.search methods fuel key).bind fun ii =>
    match cell t.table ii with
    | none =>
        let t := { t with table := t.table.set ii (some (key, value)), size := t.size + 1 }
        if t.growthTrigger ≤ t.size then t.grow methods memory fuel else some (.success, t)
    | some elt => some (.success, { t with table := t.table.set ii (some (elt.1, value)) })

/-- `ocoms_hash_table_remove_value_…`. -/
def removeValue (methods : HashTypeMethods κ) (fuel : ℕ) (t : HashTable κ ν) (key : κ) :
    Option (HashRc × HashTable κ ν) :=
  (t.search methods fuel key).bind fun ii =>
    match cell t.table ii with
    | none => some (.notFound, t)
    | some _ => t.removeEltAt methods fuel ii

end

/-- `ocoms_hash_table_get_value_uint32`. -/
def getValueUint32 (fuel : ℕ) (t : HashTable (BitVec 32) ν) (key : BitVec 32) :
    Option (HashRc × Option ν) :=
  t.getValue hashTypeMethodsUint32 fuel key

/-- `ocoms_hash_table_set_value_uint32`. -/
def setValueUint32 (memory : Bool) (fuel : ℕ) (t : HashTable (BitVec 32) ν) (key : BitVec 32)
    (value : ν) : Option (HashRc × HashTable (BitVec 32) ν) :=
  t.setValue hashTypeMethodsUint32 memory fuel key value

/-- `ocoms_hash_table_remove_value_uint32`. -/
def removeValueUint32 (fuel : ℕ) (t : HashTable (BitVec 32) ν) (key : BitVec 32) :
    Option (HashRc × HashTable (BitVec 32) ν) :=
  t.removeValue hashTypeMethodsUint32 fuel key

/-- `ocoms_hash_table_get_value_uint64`. -/
def getValueUint64 (fuel : ℕ) (t : HashTable (BitVec 64) ν) (key : BitVec 64) :
    Option (HashRc × Option ν) :=
  t.getValue hashTypeMethodsUint64 fuel key

/-- `ocoms_hash_table_set_value_uint64`. -/
def setValueUint64 (memory : Bool) (fuel : ℕ) (t : HashTable (BitVec 64) ν) (key : BitVec 64)
    (value : ν) : Option (HashRc × HashTable (BitVec 64) ν) :=
  t.setValue hashTypeMethodsUint64 memory fuel key value

/-- `ocoms_hash_table_remove_value_uint64`. -/
def removeValueUint64 (fuel : ℕ) (t : HashTable (BitVec 64) ν) (key : BitVec 64) :
    Option (HashRc × HashTable (BitVec 64) ν) :=
  t.removeValue hashTypeMethodsUint64 fuel key

/-- `ocoms_hash_table_get_value_ptr`. -/
def getValuePtr (fuel : ℕ) (t : HashTable (List UInt8) ν) (key : List UInt8) :
    Option (HashRc × Option ν) :=
  t.getValue hashTypeMethodsPtr fuel key

/-- `ocoms_hash_table_set_value_ptr`. -/
def setValuePtr (memory : Bool) (fuel : ℕ) (t : HashTable (List UInt8) ν) (key : List UInt8)
    (value : ν) : Option (HashRc × HashTable (List UInt8) ν) :=
  t.setValue hashTypeMethodsPtr memory fuel key value

/-- `ocoms_hash_table_remove_value_ptr`. -/
def removeValuePtr (fuel : ℕ) (t : HashTable (List UInt8) ν) (key : List UInt8) :
    Option (HashRc × HashTable (List UInt8) ν) :=
  t.removeValue hashTypeMethodsPtr fuel key

/-! ### Traversal -/

/-- `ocoms_hash_table_get_next_elt`. -/
def getNextElt (t : HashTable κ ν) (prevElt : Option ℕ) : Option ℕ :=
  let start := prevElt.elim 0 (· + 1)
  ((t.table.drop start).findIdx? Option.isSome).map (start + ·)

/-- `ocoms_hash_table_get_next_key_…`: the key, the value and the node, or an error. -/
def getNextKey (t : HashTable κ ν) (inNode : Option ℕ) : Option (κ × ν × ℕ) :=
  (t.getNextElt inNode).bind fun ii => (cell t.table ii).map fun elt => (elt.1, elt.2, ii)

/-- `ocoms_hash_table_get_first_key_…`. -/
def getFirstKey (t : HashTable κ ν) : Option (κ × ν × ℕ) := t.getNextKey none

/-- A step of a traversal, with the elements that it has visited. -/
def visit (t : HashTable κ ν) :
    Option ℕ × List (κ × ν) → (Option ℕ × List (κ × ν)) ⊕ List (κ × ν)
  | (node, visited) =>
      match if node.isNone then t.getFirstKey else t.getNextKey node with
      | none => .inr visited
      | some (key, value, outNode) => .inl (some outNode, visited ++ [(key, value)])

/-- A full traversal. -/
def traverse (t : HashTable κ ν) (fuel : ℕ) : Option (List (κ × ν)) :=
  loop t.visit fuel (none, [])

end HashTable

end Ocoms
