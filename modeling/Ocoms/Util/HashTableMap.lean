import Mathlib.Data.List.Nodup
import Ocoms.Util.HashTable

/-!
The hash table as a map.

* `HashTable.Inv` is the invariant: chains, distinct keys and the number of elements. It holds with
  or without an element that is not valid.
* One lemma for each function says what a call that returns has done (`setValue_cases`, …), and one
  that the call returns if some element is not valid (`search_returns`, …).
-/

namespace Ocoms.HashTable

open LinearProbing
open scoped List

variable {κ ν : Type*} {methods : HashTypeMethods κ}

/-! ### Elements of a list -/

section

variable {elts : List (Option (κ × ν))} {i : ℕ}

/-- The valid elements. -/
def contents (elts : List (Option (κ × ν))) : List (κ × ν) := elts.reduceOption

lemma cell_set (hi : i < elts.length) (o : Option (κ × ν)) :
    cell (elts.set i o) = Function.update (cell elts) i o := by
  funext k
  by_cases hk : k = i
  · subst hk
    rw [Function.update_self, cell, List.getElem?_set_self hi, Option.join_some]
  · rw [Function.update_of_ne hk, cell, List.getElem?_set_ne (Ne.symm hk), cell]

lemma cell_eq_getElem (hi : i < elts.length) : cell elts i = elts[i] := by
  rw [cell, List.getElem?_eq_getElem hi, Option.join_some]

lemma contents_append (l l' : List (Option (κ × ν))) :
    contents (l ++ l') = contents l ++ contents l' := List.reduceOption_append l l'

lemma contents_cons (o : Option (κ × ν)) (l : List (Option (κ × ν))) :
    contents (o :: l) = o.toList ++ contents l := by
  rw [← List.singleton_append, contents_append, contents, List.reduceOption_singleton]

lemma mem_contents {e : κ × ν} : e ∈ contents elts ↔ ∃ i < elts.length, cell elts i = some e := by
  rw [contents, List.reduceOption_mem_iff, List.mem_iff_getElem]
  constructor
  · rintro ⟨i, hi, he⟩
    exact ⟨i, hi, by rw [cell_eq_getElem hi, he]⟩
  · rintro ⟨i, hi, he⟩
    exact ⟨i, hi, by rw [← cell_eq_getElem hi, he]⟩

/-- An element is exchanged. -/
lemma contents_set (hi : i < elts.length) (o : Option (κ × ν)) :
    (cell elts i).toList ++ contents (elts.set i o) ~ o.toList ++ contents elts := by
  have hperm : ∀ {l l' : List (Option (κ × ν))}, l ~ l' → contents l ~ contents l' :=
    fun h => h.filterMap _
  have hnew := hperm (List.set_perm_cons_eraseIdx hi o)
  have hold := hperm (List.getElem_cons_eraseIdx_perm hi)
  rw [contents_cons] at hnew hold
  rw [cell_eq_getElem hi]
  calc elts[i].toList ++ contents (elts.set i o)
      ~ elts[i].toList ++ (o.toList ++ contents (elts.eraseIdx i)) := hnew.append_left _
    _ ~ o.toList ++ (elts[i].toList ++ contents (elts.eraseIdx i)) := by
        rw [← List.append_assoc, ← List.append_assoc]
        exact List.perm_append_comm.append_right _
    _ ~ o.toList ++ contents elts := hold.append_left _

end

/-! ### The invariant -/

/-- The invariant of every run. -/
structure Inv (methods : HashTypeMethods κ) (t : HashTable κ ν) : Prop where
  pos : 0 < t.capacity
  bytes : t.capacity * elementSize < sizeT
  chained : Chained t.capacity (home methods t.capacity) (cell t.table)
  nodup : ((contents t.table).map Prod.fst).Nodup
  size_eq : t.size = (contents t.table).length

/-- Some element is not valid. -/
def HasFree (t : HashTable κ ν) : Prop := ∃ i < t.capacity, cell t.table i = none

/-- The elements are the pairs of a map. -/
def Represents (t : HashTable κ ν) (m : κ → Option ν) : Prop :=
  ∀ k v, (k, v) ∈ contents t.table ↔ m k = some v

lemma Represents.perm {t t' : HashTable κ ν} {m : κ → Option ν} (h : t.Represents m)
    (hperm : contents t'.table ~ contents t.table) : t'.Represents m := fun k v =>
  hperm.mem_iff.trans (h k v)

lemma Represents.eq_none {t : HashTable κ ν} {m : κ → Option ν} (h : t.Represents m) {key : κ}
    (habsent : ∀ v, (key, v) ∉ contents t.table) : m key = none := by
  rw [Option.eq_none_iff_forall_ne_some]
  intro v hv
  exact habsent v ((h key v).2 hv)

/-- A key has one value. -/
lemma Inv.unique {t : HashTable κ ν} {k : κ} {v w : ν} (hInv : Inv methods t)
    (hv : (k, v) ∈ contents t.table) (hw : (k, w) ∈ contents t.table) : w = v :=
  (Prod.mk.inj (List.inj_on_of_nodup_map hInv.nodup hw hv rfl)).2

lemma Inv.size_le {t : HashTable κ ν} (hInv : Inv methods t) : t.size ≤ t.capacity := by
  rw [hInv.size_eq]
  exact List.reduceOption_length_le _

/-- Fewer valid elements than elements. -/
lemma hasFree_iff_length {elts : List (Option (κ × ν))} :
    (∃ i < elts.length, cell elts i = none) ↔ (contents elts).length < elts.length := by
  rw [contents, List.reduceOption_length_lt_iff, List.mem_iff_getElem]
  constructor
  · rintro ⟨i, hi, hnone⟩
    exact ⟨i, hi, by rw [← cell_eq_getElem hi, hnone]⟩
  · rintro ⟨i, hi, hnone⟩
    exact ⟨i, hi, by rw [cell_eq_getElem hi, hnone]⟩

/-! ### The search for a key -/

section

variable [DecidableEq κ] {t : HashTable κ ν} {key : κ} {fuel ii : ℕ}

lemma atKey_false {elts : List (Option (κ × ν))} {i : ℕ} (h : atKey elts key i = false) :
    cell elts i ≠ none := by
  intro hnone
  rw [atKey, hnone] at h
  cases h

/-- **A search that ends** is at the element with the key, or the key is absent. -/
theorem search_cases (hInv : Inv methods t) (h : t.search methods fuel key = some ii) :
    ii < t.capacity ∧
    (∃ j, First t.capacity (atKey t.table key) (methods.hashElt key % t.capacity) j ∧
      ii = j % t.capacity) ∧
    ((cell t.table ii = none ∧ ∀ v, (key, v) ∉ contents t.table) ∨
      ∃ v, cell t.table ii = some (key, v)) := by
  have hlt : methods.hashElt key % t.capacity < t.capacity := Nat.mod_lt _ hInv.pos
  obtain ⟨j, hfirst, -, rfl⟩ := (probe_eq_some hInv.pos hlt.le rfl).1 h
  refine ⟨Nat.mod_lt _ hInv.pos, ⟨j, hfirst, rfl⟩, ?_⟩
  have hstops := hfirst.stops
  rw [atKey] at hstops
  cases hcell : cell t.table (j % t.capacity) with
  | none =>
      refine .inl ⟨rfl, fun v hv => ?_⟩
      obtain ⟨i, hi, hv⟩ := mem_contents.1 hv
      have hfalse := hInv.chained.not_mem hfirst hcell hi hv rfl
      rw [atKey, hv] at hfalse
      exact absurd rfl (of_decide_eq_false hfalse)
  | some elt =>
      rw [hcell] at hstops
      obtain rfl := of_decide_eq_true hstops
      exact .inr ⟨elt.2, rfl⟩

/-- **A search ends** if some element is not valid. -/
theorem search_returns (hInv : Inv methods t) (hfree : t.HasFree) (key : κ) :
    ∃ ii, ∀ fuel ≥ t.capacity, t.search methods fuel key = some ii := by
  obtain ⟨i, hi, hnone⟩ := hfree
  have hlt : methods.hashElt key % t.capacity < t.capacity := Nat.mod_lt _ hInv.pos
  have hstop : atKey t.table key i = true := by rw [atKey, hnone]
  obtain ⟨j, hfirst, hj⟩ := exists_first hi hstop (methods.hashElt key % t.capacity)
  refine ⟨j % t.capacity, fun fuel hfuel => ?_⟩
  exact (probe_eq_some hInv.pos hlt.le rfl).2 ⟨j, hfirst, by omega, rfl⟩

end

/-! ### An element is written -/

section

variable [DecidableEq κ] {t : HashTable κ ν} {key : κ} {value : ν} {ii : ℕ}

/-- The element where the search has ended gets the key and the value. -/
lemma Inv.write (hInv : Inv methods t) {o : Option (κ × ν)} (hi : ii < t.capacity)
    (hfirst : ∃ j, First t.capacity (atKey t.table key) (methods.hashElt key % t.capacity) j ∧
      ii = j % t.capacity)
    (hcell : cell t.table ii = o)
    (ho : (o = none ∧ ∀ v, (key, v) ∉ contents t.table) ∨ ∃ v, o = some (key, v)) {n : ℕ}
    (hn : n + o.toList.length = t.size + 1) :
    Inv methods { t with table := t.table.set ii (some (key, value)), size := n } := by
  have hperm := contents_set hi (some (key, value))
  rw [hcell] at hperm
  obtain ⟨j, hfirst, rfl⟩ := hfirst
  refine ⟨?_, ?_, ?_, ?_, ?_⟩
  · rw [capacity, List.length_set]
    exact hInv.pos
  · rw [capacity, List.length_set]
    exact hInv.bytes
  · rw [capacity, List.length_set, cell_set hi]
    exact Chained.insert hInv.chained hfirst fun i hi => atKey_false hi
  · have hkeys := hperm.map Prod.fst
    rcases ho with ⟨rfl, habsent⟩ | ⟨v, rfl⟩
    · refine hkeys.nodup_iff.2 (List.nodup_cons.2 ⟨?_, hInv.nodup⟩)
      intro hmem
      obtain ⟨⟨k, v⟩, hv, rfl⟩ := List.mem_map.1 hmem
      exact habsent v hv
    · have hrest := (List.perm_cons key).1 hkeys
      exact hrest.nodup_iff.2 hInv.nodup
  · have hlen := hperm.length_eq
    rw [List.length_append, List.length_append, ← hInv.size_eq] at hlen
    have hone : (some (key, value)).toList.length = 1 := rfl
    dsimp only
    omega

/-- The map afterwards. -/
lemma Represents.write {m : κ → Option ν} {n : ℕ} (h : t.Represents m) (hi : ii < t.capacity)
    (hInv : Inv methods { t with table := t.table.set ii (some (key, value)), size := n })
    (hcell : ∀ k v, cell t.table ii = some (k, v) → k = key) :
    Represents { t with table := t.table.set ii (some (key, value)), size := n }
      (Function.update m key (some value)) := by
  intro k v
  by_cases hk : k = key
  · subst hk
    rw [Function.update_self, Option.some.injEq]
    have hmem : (k, value) ∈ contents (t.table.set ii (some (k, value))) := by
      refine mem_contents.2 ⟨ii, by rwa [List.length_set], ?_⟩
      rw [cell_set hi, Function.update_self]
    constructor
    · intro hv
      exact hInv.unique hv hmem
    · rintro rfl
      exact hmem
  · rw [Function.update_of_ne hk, ← h k v]
    have hperm := (contents_set hi (some (key, value))).mem_iff (a := (k, v))
    rw [List.mem_append, List.mem_append] at hperm
    have hold : (k, v) ∉ (cell t.table ii).toList := by
      intro hmem
      exact hk (hcell k v (Option.mem_toList.1 hmem))
    have hnew : (k, v) ∉ (some (key, value)).toList := by
      intro hmem
      obtain ⟨rfl, -⟩ := Prod.mk.inj (List.mem_singleton.1 hmem)
      exact hk rfl
    exact ⟨fun hv => (hperm.1 (.inr hv)).resolve_left hnew,
      fun hv => (hperm.2 (.inr hv)).resolve_left hold⟩

end

/-! ### Growth -/

section

variable {fuel n : ℕ} {newTable table : List (Option (κ × ν))}

lemma cell_replicate (n i : ℕ) :
    cell (List.replicate n (none : Option (κ × ν))) i = none := by
  rw [cell, List.getElem?_replicate]
  split
  case isTrue => rfl
  case isFalse => rfl

lemma free_false {elts : List (Option (κ × ν))} {i : ℕ} (h : free elts i = false) :
    cell elts i ≠ none := by
  intro hnone
  rw [free, hnone] at h
  cases h

/-- An element is copied into the new table. -/
lemma reinsert_cases {o : Option (κ × ν)} (hn : 0 < newTable.length)
    (hchained : Chained newTable.length (home methods newTable.length) (cell newTable))
    (h : reinsert methods fuel newTable o = some table) :
    table.length = newTable.length ∧
    Chained newTable.length (home methods newTable.length) (cell table) ∧
    contents table ~ o.toList ++ contents newTable := by
  cases o with
  | none =>
      obtain rfl := Option.some.inj h
      exact ⟨rfl, hchained, .refl _⟩
  | some elt =>
      obtain ⟨ii, hii, rfl⟩ := Option.map_eq_some_iff.1 h
      have hlt : home methods newTable.length elt < newTable.length := Nat.mod_lt _ hn
      obtain ⟨j, hfirst, -, rfl⟩ := (probe_eq_some hn hlt.le rfl).1 hii
      have hj : j % newTable.length < newTable.length := Nat.mod_lt _ hn
      have hnone := Option.isNone_iff_eq_none.1 hfirst.stops
      refine ⟨List.length_set, ?_, ?_⟩
      · rw [cell_set hj]
        exact hchained.insert hfirst fun i hi => free_false hi
      · have hperm := contents_set hj (some elt)
        rwa [hnone] at hperm

lemma reinsert_returns {o : Option (κ × ν)} (hfuel : newTable.length ≤ fuel)
    (hfree : (contents newTable).length < newTable.length) :
    ∃ table, reinsert methods fuel newTable o = some table := by
  cases o with
  | none => exact ⟨newTable, rfl⟩
  | some elt =>
      obtain ⟨i, hi, hnone⟩ := hasFree_iff_length.2 hfree
      have hn : 0 < newTable.length := by omega
      have hlt : home methods newTable.length elt < newTable.length := Nat.mod_lt _ hn
      have hstop : free newTable i = true := by rw [free, hnone, Option.isNone_none]
      obtain ⟨j, hfirst, hj⟩ := exists_first hi hstop (home methods newTable.length elt)
      have hprobe : probe newTable.length (free newTable) fuel
          (home methods newTable.length elt) = some (j % newTable.length) :=
        (probe_eq_some hn hlt.le rfl).2 ⟨j, hfirst, by omega, rfl⟩
      exact ⟨_, by rw [reinsert, hprobe, Option.map_some]⟩

/-- All elements of a list are copied. -/
lemma foldlM_reinsert_cases {l : List (Option (κ × ν))} (hn : 0 < newTable.length)
    (hchained : Chained newTable.length (home methods newTable.length) (cell newTable))
    (h : l.foldlM (reinsert methods fuel) newTable = some table) :
    table.length = newTable.length ∧
    Chained newTable.length (home methods newTable.length) (cell table) ∧
    contents table ~ contents l ++ contents newTable := by
  induction l generalizing newTable with
  | nil =>
      obtain rfl := Option.some.inj h
      exact ⟨rfl, hchained, .refl _⟩
  | cons o l ih =>
      rw [List.foldlM_cons] at h
      obtain ⟨t₁, hstep, hrest⟩ := Option.bind_eq_some_iff.1 h
      obtain ⟨hlen₁, hchained₁, hperm₁⟩ := reinsert_cases hn hchained hstep
      rw [← hlen₁] at hn hchained₁ ⊢
      obtain ⟨hlen, hchained, hperm⟩ := ih hn hchained₁ hrest
      refine ⟨hlen, hchained, ?_⟩
      calc contents table
          ~ contents l ++ contents t₁ := hperm
        _ ~ contents l ++ (o.toList ++ contents newTable) := hperm₁.append_left _
        _ ~ contents (o :: l) ++ contents newTable := by
            rw [contents_cons, ← List.append_assoc]
            exact List.perm_append_comm.append_right _

lemma foldlM_reinsert_returns {l : List (Option (κ × ν))} (hfuel : newTable.length ≤ fuel)
    (hchained : Chained newTable.length (home methods newTable.length) (cell newTable))
    (hfree : (contents l).length + (contents newTable).length < newTable.length) :
    ∃ table, l.foldlM (reinsert methods fuel) newTable = some table := by
  induction l generalizing newTable with
  | nil => exact ⟨newTable, rfl⟩
  | cons o l ih =>
      rw [contents_cons, List.length_append] at hfree
      obtain ⟨t₁, hstep⟩ : ∃ t₁, reinsert methods fuel newTable o = some t₁ :=
        reinsert_returns hfuel (by omega)
      obtain ⟨hlen₁, hchained₁, hperm₁⟩ := reinsert_cases (by omega) hchained hstep
      have hcount := hperm₁.length_eq
      rw [List.length_append] at hcount
      rw [← hlen₁] at hfuel hchained₁
      obtain ⟨table, hrest⟩ := ih hfuel hchained₁ (by omega)
      exact ⟨table, by rw [List.foldlM_cons, hstep]; exact hrest⟩

variable {memory : Bool} {t t' : HashTable κ ν} {rc : HashRc}

lemma roundCapacityUp_pos (c : ℕ) : 0 < roundCapacityUp c := by
  rw [roundCapacityUp, sizeT]
  omega

lemma lt_roundCapacityUp {c : ℕ} (h : c + 30 < sizeT) :
    c < roundCapacityUp c ∧ (0 < c → 30 < roundCapacityUp c) := by
  have hmod : (c + 29) % sizeT = c + 29 := Nat.mod_eq_of_lt (by omega)
  have hmod' : ((c + 29) / 30 * 30 + 1) % sizeT = (c + 29) / 30 * 30 + 1 :=
    Nat.mod_eq_of_lt (by omega)
  rw [roundCapacityUp, hmod, hmod']
  constructor
  · omega
  · intro hpos
    omega

/-- The capacity of the new table. -/
def newCapacity (t : HashTable κ ν) : ℕ :=
  roundCapacityUp (t.capacity * t.growthNumer % sizeT / t.growthDenom)

/-- A new table. -/
lemma calloc_cases (methods : HashTypeMethods κ) {n : ℕ} (h : calloc memory n = some newTable) :
    newTable.length = n ∧ n * elementSize < sizeT ∧ contents newTable = [] ∧
      (∀ i, cell newTable i = none) ∧
      Chained newTable.length (home methods newTable.length) (cell newTable) := by
  unfold calloc at h
  split at h
  case isFalse => cases h
  case isTrue hif =>
    obtain rfl := Option.some.inj h
    refine ⟨List.length_replicate, hif.2, List.reduceOption_replicate_none, cell_replicate n, ?_⟩
    intro i x _ hx
    rw [cell_replicate] at hx
    cases hx

/-- **A growth that returns** has copied the elements, or it has changed nothing. -/
theorem grow_cases (hInv : Inv methods t) (h : t.grow methods memory fuel = some (rc, t')) :
    (rc = .outOfResource ∧ t' = t ∧ (memory = true → sizeT ≤ t.newCapacity * elementSize)) ∨
    (rc = .success ∧ Inv methods t' ∧ contents t'.table ~ contents t.table ∧
      t' = { t with
        table := t'.table
        growthTrigger := t'.capacity * t.densityNumer % sizeT / t.densityDenom } ∧
      t'.capacity = t.newCapacity) := by
  unfold grow at h
  dsimp only at h
  rw [← newCapacity] at h
  cases hnew : (calloc memory t.newCapacity : Option (List (Option (κ × ν)))) with
  | none =>
      rw [hnew] at h
      obtain ⟨rfl, rfl⟩ := Prod.mk.inj (Option.some.inj h)
      refine .inl ⟨rfl, rfl, fun hmemory => ?_⟩
      by_contra hlt
      rw [calloc, if_pos ⟨hmemory, Nat.lt_of_not_le hlt⟩] at hnew
      cases hnew
  | some newTable =>
      rw [hnew] at h
      obtain ⟨hlen, hbytes, hnil, -, hempty⟩ := calloc_cases methods hnew
      obtain ⟨table, hfold, heq⟩ := Option.map_eq_some_iff.1 h
      obtain ⟨rfl, rfl⟩ := Prod.mk.inj heq
      have hpos : 0 < newTable.length := hlen ▸ roundCapacityUp_pos _
      obtain ⟨hlen', hchained, hperm⟩ := foldlM_reinsert_cases hpos hempty hfold
      rw [hnil, List.append_nil] at hperm
      refine .inr ⟨rfl, ⟨?_, ?_, ?_, ?_, ?_⟩, hperm, ?_, hlen'.trans hlen⟩
      · rw [capacity, hlen']
        exact hpos
      · rw [capacity, hlen', hlen]
        exact hbytes
      · rw [capacity, hlen']
        exact hchained
      · exact (hperm.map Prod.fst).nodup_iff.2 hInv.nodup
      · rw [hperm.length_eq]
        exact hInv.size_eq
      · rw [capacity, hlen', hlen]

lemma grow_returns (hcount : (contents t.table).length < t.newCapacity)
    (hfuel : t.newCapacity ≤ fuel) : ∃ r, t.grow methods memory fuel = some r := by
  unfold grow
  dsimp only
  rw [← newCapacity]
  cases hnew : (calloc memory t.newCapacity : Option (List (Option (κ × ν)))) with
  | none => exact ⟨_, rfl⟩
  | some newTable =>
      obtain ⟨hlen, -, hnil, -, hempty⟩ := calloc_cases methods hnew
      obtain ⟨table, hfold⟩ : ∃ table, t.table.foldlM (reinsert methods fuel) newTable =
          some table :=
        foldlM_reinsert_returns (by omega) hempty (by rw [hnil, List.length_nil]; omega)
      exact ⟨_, by dsimp only; rw [hfold, Option.map_some]⟩

end

/-! ### The functions on a map -/

section

variable [DecidableEq κ] {memory : Bool} {t t' : HashTable κ ν} {key : κ} {value : ν} {fuel : ℕ}
  {rc : HashRc}

/-- The table with the key in the element where the search has ended. -/
def written (t : HashTable κ ν) (ii : ℕ) (key : κ) (value : ν) (size : ℕ) : HashTable κ ν :=
  { t with table := t.table.set ii (some (key, value)), size }

/-- **A call of `setValue` that returns** has written the key, and it has grown the table or tried
to. -/
theorem setValue_cases (hInv : Inv methods t)
    (h : t.setValue methods memory fuel key value = some (rc, t')) :
    ∃ ii n, t.search methods fuel key = some ii ∧ ii < t.capacity ∧
      Inv methods (t.written ii key value n) ∧
      (∀ m, t.Represents m →
        (t.written ii key value n).Represents (Function.update m key (some value))) ∧
      ((n = t.size ∧ rc = .success ∧ t' = t.written ii key value n) ∨
        (n = t.size + 1 ∧ (∀ v, (key, v) ∉ contents t.table) ∧
          ((n < t.growthTrigger ∧ rc = .success ∧ t' = t.written ii key value n) ∨
            (t.growthTrigger ≤ n ∧
              (t.written ii key value n).grow methods memory fuel = some (rc, t'))))) := by
  obtain ⟨ii, hsearch, hset⟩ := Option.bind_eq_some_iff.1 h
  obtain ⟨hi, hfirst, hcell⟩ := search_cases hInv hsearch
  rcases hcell with ⟨hnone, habsent⟩ | ⟨v, hsome⟩
  · have hwritten : Inv methods (t.written ii key value (t.size + 1)) :=
      hInv.write hi hfirst hnone (.inl ⟨rfl, habsent⟩) rfl
    refine ⟨ii, t.size + 1, hsearch, hi, hwritten, fun m hm => ?_, .inr ⟨rfl, habsent, ?_⟩⟩
    · exact hm.write hi hwritten fun k v hkv => absurd (hnone.symm.trans hkv) (by simp)
    · rw [hnone] at hset
      dsimp only at hset
      split at hset
      case isTrue hge => exact .inr ⟨hge, hset⟩
      case isFalse hlt =>
        obtain ⟨rfl, rfl⟩ := Prod.mk.inj (Option.some.inj hset)
        exact .inl ⟨Nat.lt_of_not_le hlt, rfl, rfl⟩
  · have hwritten : Inv methods (t.written ii key value t.size) :=
      hInv.write hi hfirst hsome (.inr ⟨v, rfl⟩) rfl
    refine ⟨ii, t.size, hsearch, hi, hwritten, fun m hm => ?_, .inl ⟨rfl, ?_⟩⟩
    · refine hm.write hi hwritten fun k w hkw => ?_
      rw [hsome, Option.some.injEq] at hkw
      exact (Prod.mk.inj hkw).1.symm
    · rw [hsome] at hset
      obtain ⟨rfl, rfl⟩ := Prod.mk.inj (Option.some.inj hset)
      exact ⟨rfl, rfl⟩

end

end Ocoms.HashTable
