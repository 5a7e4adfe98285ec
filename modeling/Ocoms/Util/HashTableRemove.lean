import Ocoms.Util.HashTableMap

/-!
Removal from the hash table, and its traversal.

* `rehash_inl` and `rehash_inr` say what a round of `ocoms_hash_table_remove_elt_at` does in the
  state `Hole` of `Ocoms.Lib.LinearProbing`; `removeEltAt_cases` and `removeEltAt_returns` are about
  the whole function.
* `traverse_eq`: a traversal visits the valid elements in the order of the table.
-/

namespace Ocoms.HashTable

open LinearProbing
open scoped List

variable {κ ν : Type*} {methods : HashTypeMethods κ}

/-! ### A round of the loop -/

section

variable {elts elts' : List (Option (κ × ν))} {fuel ii ii' g p : ℕ}

lemma gapOrSelf_false {jj : ℕ} (h : gapOrSelf elts ii jj = false) : cell elts jj ≠ none :=
  free_false (Bool.or_eq_false_iff.1 h).2

lemma gapOrSelf_self : gapOrSelf elts ii ii = true := by
  rw [gapOrSelf, beq_self_eq_true, Bool.true_or]

/-- The element of a follower moves into a gap. -/
lemma contents_move {jj : ℕ} {elt : κ × ν} (hii : ii < elts.length) (hjj : jj < elts.length)
    (hne : jj ≠ ii) (hfrom : cell elts ii = some elt) (hto : cell elts jj = none) :
    contents ((elts.set jj (some elt)).set ii none) ~ contents elts := by
  have hfirst := contents_set hjj (some elt)
  rw [hto] at hfirst
  have hlen : ii < (elts.set jj (some elt)).length := by rwa [List.length_set]
  have hsecond := contents_set hlen none
  rw [cell_set hjj, Function.update_of_ne hne.symm, hfrom] at hsecond
  exact (List.perm_cons elt).1 (hsecond.trans hfirst)

/-- **A round that goes on.** -/
theorem rehash_inl (hole : Hole elts.length (home methods elts.length) (cell elts) g p)
    (hn : 0 < elts.length) (hii : ii ≤ elts.length) (hmod : ii % elts.length = p % elts.length)
    (h : rehash methods fuel elts.length (elts, ii) = .inl (elts', ii')) :
    ii' ≤ elts.length ∧ ii' % elts.length = (p + 1) % elts.length ∧
    elts'.length = elts.length ∧ contents elts' ~ contents elts ∧
    cell elts (p % elts.length) ≠ none ∧
    (∀ k, k ≠ g % elts.length → k ≠ p % elts.length → cell elts' k = cell elts k) ∧
    ∃ g', g ≤ g' ∧ g' ≤ p ∧
      Hole elts.length (home methods elts.length) (cell elts') g' (p + 1) := by
  have hp : p % elts.length < elts.length := Nat.mod_lt _ hn
  unfold rehash at h
  dsimp only at h
  rw [wrap_eq hii, hmod] at h
  cases hcell : cell elts (p % elts.length) with
  | none =>
      rw [hcell] at h
      cases h
  | some elt =>
      rw [hcell] at h
      dsimp only at h
      cases hprobe : probe elts.length (gapOrSelf elts (p % elts.length)) fuel
          (home methods elts.length elt) with
      | none =>
          rw [hprobe] at h
          cases h
      | some jj =>
          rw [hprobe] at h
          obtain ⟨helts, rfl⟩ := Prod.mk.inj (Sum.inl.inj h)
          have hlt : home methods elts.length elt < elts.length := Nat.mod_lt _ hn
          obtain ⟨j, hfirst, -, rfl⟩ := (probe_eq_some hn hlt.le rfl).1 hprobe
          have hgp := hole.lt
          refine ⟨hp, Nat.mod_add_mod p _ 1, ?_⟩
          by_cases hself : j % elts.length = p % elts.length
          · rw [if_pos hself] at helts
            subst helts
            refine ⟨rfl, .refl _, Option.some_ne_none elt, fun k _ _ => rfl, g, le_rfl, hgp.le, ?_⟩
            exact hole.stay hcell hfirst (fun i hi => gapOrSelf_false hi) hself
          · rw [if_neg hself] at helts
            subst helts
            have hgap : cell elts (j % elts.length) = none := by
              have hstops := hfirst.stops
              rw [gapOrSelf, Bool.or_eq_true] at hstops
              rcases hstops with heq | hfree
              · exact absurd (beq_iff_eq.1 heq) hself
              · exact Option.isNone_iff_eq_none.1 hfree
            have hg := hole.mod_eq hn hcell hfirst gapOrSelf_self hgap
            have hj : j % elts.length < elts.length := Nat.mod_lt _ hn
            have hcells : cell ((elts.set (j % elts.length) (some elt)).set (p % elts.length) none) =
                Function.update (Function.update (cell elts) (g % elts.length) (some elt))
                  (p % elts.length) none := by
              rw [cell_set (by rwa [List.length_set]), cell_set hj, hg]
            refine ⟨?_, contents_move hp hj hself hcell hgap, Option.some_ne_none elt, ?_, p,
              hgp.le, le_rfl, ?_⟩
            · rw [List.length_set, List.length_set]
            · intro k hkg hkp
              rw [hcells, Function.update_of_ne hkp, Function.update_of_ne hkg]
            · rw [hcells]
              exact hole.move hn hcell hfirst (fun i hi => gapOrSelf_false hi) hg

/-- The last round. -/
lemma rehash_inr {r : Option (List (Option (κ × ν)))} (hii : ii ≤ elts.length)
    (hmod : ii % elts.length = p % elts.length)
    (h : rehash methods fuel elts.length (elts, ii) = .inr r) :
    r = none ∨ (r = some elts ∧ cell elts (p % elts.length) = none) := by
  unfold rehash at h
  dsimp only at h
  rw [wrap_eq hii, hmod] at h
  split at h
  case h_1 hcell =>
    obtain rfl := Sum.inr.inj h
    exact .inr ⟨rfl, hcell⟩
  case h_2 elt hcell =>
    split at h
    case h_1 => exact .inl (Sum.inr.inj h).symm
    case h_2 => cases h

/-- The inner loop of a round ends. -/
lemma rehash_ne_none (hn : 0 < elts.length) (hii : ii ≤ elts.length)
    (hfuel : elts.length ≤ fuel) : rehash methods fuel elts.length (elts, ii) ≠ .inr none := by
  intro h
  unfold rehash at h
  dsimp only at h
  rw [wrap_eq hii] at h
  split at h
  case h_1 => cases h
  case h_2 elt hcell =>
    have hlt : home methods elts.length elt < elts.length := Nat.mod_lt _ hn
    obtain ⟨j, hfirst, hj⟩ := exists_first (Nat.mod_lt ii hn) gapOrSelf_self
      (home methods elts.length elt)
    have hprobe : probe elts.length (gapOrSelf elts (ii % elts.length)) fuel
        (home methods elts.length elt) = some (j % elts.length) :=
      (probe_eq_some hn hlt.le rfl).2 ⟨j, hfirst, by omega, rfl⟩
    rw [hprobe] at h
    cases h

end

/-! ### Removal -/

section

variable {t t' : HashTable κ ν} {fuel ii : ℕ} {elt : κ × ν} {rc : HashRc}

/-- The state of the loop: a hole at `g`, and the follower at `p` comes next. -/
structure Closing (methods : HashTypeMethods κ) (n : ℕ) (rest : List (κ × ν)) (g p : ℕ)
    (s : List (Option (κ × ν)) × ℕ) : Prop where
  length : s.1.length = n
  le : s.2 ≤ n
  mod_eq : s.2 % n = p % n
  hole : Hole n (home methods n) (cell s.1) g p
  perm : contents s.1 ~ rest

lemma Closing.start (hInv : Inv methods t) (hi : ii < t.capacity)
    (hcell : cell t.table ii = some elt) {rest : List (κ × ν)}
    (hrest : elt :: rest ~ contents t.table) :
    Closing methods t.capacity rest ii (ii + 1) (t.table.set ii none, ii + 1) := by
  refine ⟨List.length_set, hi, rfl, ?_, ?_⟩
  · have hhole := Hole.start hInv.chained hInv.pos (g := ii)
    rwa [Nat.mod_eq_of_lt hi, ← cell_set hi] at hhole
  · have hperm := contents_set hi none
    rw [hcell] at hperm
    exact (List.perm_cons elt).1 (hperm.trans hrest.symm)

/-- The loop leaves the other elements, with all chains. -/
lemma Closing.done {n g p : ℕ} {rest : List (κ × ν)} {s : List (Option (κ × ν)) × ℕ}
    (hn : 0 < n) (h : Closing methods n rest g p s) {r : Option (List (Option (κ × ν)))}
    (hr : loop (rehash methods fuel n) fuel s = some r) {table : List (Option (κ × ν))}
    (htable : r = some table) :
    table.length = n ∧ Chained n (home methods n) (cell table) ∧ contents table ~ rest := by
  refine loop_inv (fun s => ∃ g p, Closing methods n rest g p s)
    (fun r => ∀ table, r = some table → table.length = n ∧
      Chained n (home methods n) (cell table) ∧ contents table ~ rest)
    ?_ ⟨g, p, h⟩ hr table htable
  rintro ⟨elts, ii⟩ ⟨g, p, rfl, hle, hmod, hhole, hcontents⟩
  cases hround : rehash methods fuel elts.length (elts, ii) with
  | inl s' =>
      obtain ⟨hle', hmod', hlen', hperm, -, -, g', -, -, hhole'⟩ :=
        rehash_inl hhole hn hle hmod hround
      exact ⟨g', p + 1, hlen', hle', hmod', hhole', hperm.trans hcontents⟩
  | inr r =>
      rintro table rfl
      rcases rehash_inr hle hmod hround with hnone | ⟨heq, hfree⟩
      · cases hnone
      · obtain rfl := Option.some.inj heq
        exact ⟨rfl, hhole.chained_of_none hfree, hcontents⟩

/-- The loop comes to an element that is not valid after at most `left` rounds, and before it is back
at the hole. -/
def Ending (methods : HashTypeMethods κ) (n : ℕ) (rest : List (κ × ν)) (left : ℕ)
    (s : List (Option (κ × ν)) × ℕ) : Prop :=
  ∃ g p e, Closing methods n rest g p s ∧ left = e - p ∧ p ≤ e ∧ e < g + n ∧
    cell s.1 (e % n) = none

lemma Ending.round {n left : ℕ} {rest : List (κ × ν)} (hn : 0 < n) (hfuel : n ≤ fuel)
    {s : List (Option (κ × ν)) × ℕ} (h : Ending methods n rest left s) :
    (rehash methods fuel n s).elim (fun s' => ∃ m < left, Ending methods n rest m s')
      (fun r => ∃ table, r = some table) := by
  obtain ⟨elts, ii⟩ := s
  obtain ⟨g, p, e, ⟨hlen, hle, hmod, hhole, hperm⟩, rfl, hpe, heg, hfree⟩ := h
  dsimp only at hlen
  subst hlen
  have hgp := hhole.lt
  cases hround : rehash methods fuel elts.length (elts, ii) with
  | inl s' =>
      obtain ⟨hle', hmod', hlen', hperm', hfull, hkeep, g', hg, hg', hhole'⟩ :=
        rehash_inl hhole hn hle hmod hround
      have hne : p ≠ e := by
        rintro rfl
        exact hfull hfree
      have hkeepe : cell s'.1 (e % elts.length) = none := by
        rw [hkeep _ (fun heq => ?_) (fun heq => ?_)]
        · exact hfree
        · have := eq_of_mod_eq heq (by omega) (by omega)
          omega
        · have := eq_of_mod_eq heq (by omega) (by omega)
          omega
      exact ⟨e - (p + 1), by omega, g', p + 1, e, ⟨hlen', hle', hmod', hhole', hperm'.trans hperm⟩,
        rfl, by omega, by omega, hkeepe⟩
  | inr r =>
      cases r with
      | none => exact absurd hround (rehash_ne_none hn hle hfuel)
      | some table => exact ⟨table, rfl⟩

/-- **A removal that returns** has removed the element and no other. -/
theorem removeEltAt_cases (hInv : Inv methods t) (hi : ii < t.capacity)
    (hcell : cell t.table ii = some elt) {rest : List (κ × ν)}
    (hrest : elt :: rest ~ contents t.table)
    (h : t.removeEltAt methods fuel ii = some (rc, t')) :
    rc = .success ∧ Inv methods t' ∧ contents t'.table ~ rest ∧
      t' = { t with table := t'.table, size := t.size - 1 } ∧ t'.capacity = t.capacity := by
  unfold removeEltAt at h
  rw [hcell] at h
  obtain ⟨table, hloop, heq⟩ := Option.map_eq_some_iff.1 h
  obtain ⟨rfl, rfl⟩ := Prod.mk.inj heq
  obtain ⟨r, hr, htable⟩ := Option.bind_eq_some_iff.1 hloop
  have hcapacity : t.capacity < sizeT := by
    have := hInv.bytes
    rw [elementSize] at this
    omega
  have hsize : subSizeT t.size 1 = t.size - 1 := by
    have hlen := hrest.length_eq
    rw [List.length_cons, ← hInv.size_eq] at hlen
    have hle := hInv.size_le
    exact subSizeT_eq (by omega) (by omega)
  obtain ⟨hlen, hchained, hperm⟩ :=
    (Closing.start hInv hi hcell hrest).done hInv.pos hr htable
  refine ⟨rfl, ⟨?_, ?_, ?_, ?_, ?_⟩, hperm, ?_, hlen⟩
  · rw [capacity, hlen]
    exact hInv.pos
  · rw [capacity, hlen]
    exact hInv.bytes
  · rw [capacity, hlen]
    exact hchained
  · have hkeys := (hrest.map Prod.fst).nodup_iff.2 hInv.nodup
    exact ((hperm.map Prod.fst).nodup_iff).2 (List.nodup_cons.1 hkeys).2
  · have hlen := hrest.length_eq
    rw [List.length_cons, ← hInv.size_eq] at hlen
    dsimp only
    rw [hsize, hperm.length_eq]
    omega
  · rw [hsize]

/-- **A removal returns** if some element is not valid. -/
theorem removeEltAt_returns (hInv : Inv methods t) (hfree : t.HasFree) (hi : ii < t.capacity)
    (hcell : cell t.table ii = some elt) (hfuel : t.capacity ≤ fuel) :
    ∃ r, t.removeEltAt methods fuel ii = some r := by
  obtain ⟨i, hlt, hnone⟩ := hfree
  obtain ⟨e, hle, hlt', hmod⟩ := exists_position hlt (ii + 1)
  have hne : e ≠ ii + t.capacity := by
    rintro rfl
    rw [Nat.add_mod_right, Nat.mod_eq_of_lt hi] at hmod
    rw [← hmod, hcell] at hnone
    cases hnone
  have hii : i ≠ ii := by
    rintro rfl
    rw [hcell] at hnone
    cases hnone
  obtain ⟨rest, hrest⟩ : ∃ rest, elt :: rest ~ contents t.table := by
    have hmem : elt ∈ contents t.table := mem_contents.2 ⟨ii, hi, hcell⟩
    obtain ⟨l₁, l₂, heq⟩ := List.append_of_mem hmem
    exact ⟨l₁ ++ l₂, heq ▸ List.perm_middle.symm⟩
  have hending : Ending methods t.capacity rest (e - (ii + 1)) (t.table.set ii none, ii + 1) := by
    refine ⟨ii, ii + 1, e, Closing.start hInv hi hcell hrest, rfl, hle, by omega, ?_⟩
    rw [cell_set hi, hmod, Function.update_of_ne hii]
    exact hnone
  obtain ⟨r, hr, table, rfl⟩ := loop_rule (Ending methods t.capacity rest)
    (fun r => ∃ table, r = some table) (fun _ _ h => h.round hInv.pos hfuel) hending
    (by omega : e - (ii + 1) < fuel)
  unfold removeEltAt
  rw [hcell]
  exact ⟨_, by dsimp only; rw [hr, Option.bind_some, id, Option.map_some]⟩

end

section

variable [DecidableEq κ] {t t' : HashTable κ ν} {key : κ} {fuel : ℕ} {rc : HashRc}

/-- **A call of `removeValue` that returns.** -/
theorem removeValue_cases (hInv : Inv methods t)
    (h : t.removeValue methods fuel key = some (rc, t')) :
    (rc = .notFound ∧ t' = t ∧ ∀ v, (key, v) ∉ contents t.table) ∨
    ∃ v, rc = .success ∧ Inv methods t' ∧ (key, v) :: contents t'.table ~ contents t.table ∧
      t' = { t with table := t'.table, size := t.size - 1 } ∧ t'.capacity = t.capacity := by
  obtain ⟨ii, hsearch, hremove⟩ := Option.bind_eq_some_iff.1 h
  obtain ⟨hi, -, hcell⟩ := search_cases hInv hsearch
  rcases hcell with ⟨hnone, habsent⟩ | ⟨v, hsome⟩
  · rw [hnone] at hremove
    obtain ⟨rfl, rfl⟩ := Prod.mk.inj (Option.some.inj hremove)
    exact .inl ⟨rfl, rfl, habsent⟩
  · rw [hsome] at hremove
    have hmem : (key, v) ∈ contents t.table := mem_contents.2 ⟨ii, hi, hsome⟩
    obtain ⟨l₁, l₂, heq⟩ := List.append_of_mem hmem
    have hrest : (key, v) :: (l₁ ++ l₂) ~ contents t.table := heq ▸ List.perm_middle.symm
    obtain ⟨hrc, hInv', hperm, htable, hcapacity⟩ := removeEltAt_cases hInv hi hsome hrest hremove
    exact .inr ⟨v, hrc, hInv', (hperm.cons _).trans hrest, htable, hcapacity⟩

/-- **A call of `removeValue` returns** if some element is not valid. -/
theorem removeValue_returns (hInv : Inv methods t) (hfree : t.HasFree) (key : κ)
    (hfuel : t.capacity ≤ fuel) : ∃ r, t.removeValue methods fuel key = some r := by
  obtain ⟨ii, hii⟩ := search_returns hInv hfree key
  have hsearch := hii fuel hfuel
  obtain ⟨hi, -, -⟩ := search_cases hInv hsearch
  unfold removeValue
  rw [hsearch, Option.bind_some]
  cases hcell : cell t.table ii with
  | none => exact ⟨_, rfl⟩
  | some elt => exact removeEltAt_returns hInv hfree hi hcell hfuel

/-- The map after a removal. -/
lemma Represents.remove {m : κ → Option ν} {v : ν} (h : t.Represents m) (hInv : Inv methods t)
    (hperm : (key, v) :: contents t'.table ~ contents t.table) :
    t'.Represents (Function.update m key none) := by
  intro k w
  have hmem := hperm.mem_iff (a := (k, w))
  by_cases hk : k = key
  · subst hk
    rw [Function.update_self]
    have hkeys := (hperm.map Prod.fst).nodup_iff.2 hInv.nodup
    constructor
    · intro hw
      exact absurd (List.mem_map_of_mem hw) (List.nodup_cons.1 hkeys).1
    · intro hw
      cases hw
  · rw [Function.update_of_ne hk, ← h k w, ← hmem, List.mem_cons]
    constructor
    · exact .inr
    · rintro (heq | hw)
      · exact absurd (Prod.mk.inj heq).1 hk
      · exact hw

end

/-! ### Traversal -/

section

variable {t : HashTable κ ν}

/-- The first valid element of a list. -/
lemma findIdx_isSome_cases (l : List (Option (κ × ν))) :
    (l.findIdx? Option.isSome = none ∧ contents l = []) ∨
    ∃ d elt, l.findIdx? Option.isSome = some d ∧ d < l.length ∧ cell l d = some elt ∧
      contents l = elt :: contents (l.drop (d + 1)) := by
  induction l with
  | nil => exact .inl ⟨rfl, rfl⟩
  | cons o l ih =>
      rw [List.findIdx?_cons, contents_cons]
      cases o with
      | some elt => exact .inr ⟨0, elt, rfl, Nat.succ_pos _, rfl, rfl⟩
      | none =>
          rcases ih with ⟨hnone, hnil⟩ | ⟨d, elt, hsome, hlt, hcell, hcons⟩
          · exact .inl ⟨by rw [hnone]; rfl, hnil⟩
          · exact .inr ⟨d + 1, elt, by rw [hsome]; rfl, Nat.succ_lt_succ hlt, hcell, hcons⟩

/-- The element behind a node. -/
def after (node : Option ℕ) : ℕ := node.elim 0 (· + 1)

/-- The key that comes next is the first one behind the node. -/
lemma getNextKey_cases (t : HashTable κ ν) (node : Option ℕ) :
    (t.getNextKey node = none ∧ contents (t.table.drop (after node)) = []) ∨
    ∃ key value i, t.getNextKey node = some (key, value, i) ∧ after node ≤ i ∧ i < t.capacity ∧
      contents (t.table.drop (after node)) = (key, value) :: contents (t.table.drop (i + 1)) := by
  rw [getNextKey, getNextElt, ← after]
  rcases findIdx_isSome_cases (t.table.drop (after node)) with
    ⟨hnone, hnil⟩ | ⟨d, ⟨key, value⟩, hsome, hlt, hcell, hcons⟩
  · exact .inl ⟨by rw [hnone]; rfl, hnil⟩
  · rw [List.length_drop] at hlt
    rw [cell, List.getElem?_drop] at hcell
    refine .inr ⟨key, value, after node + d, ?_, by omega, ?_, ?_⟩
    · rw [hsome, Option.map_some, Option.bind_some, cell, hcell, Option.map_some]
    · rw [capacity]
      omega
    · rw [hcons, List.drop_drop, Nat.add_assoc]

/-- A traversal that has visited the elements up to a node, with at most `left` elements to come. -/
structure Visiting (t : HashTable κ ν) (left : ℕ) (s : Option ℕ × List (κ × ν)) : Prop where
  left_eq : left = t.capacity - after s.1
  le : after s.1 ≤ t.capacity
  visited : s.2 ++ contents (t.table.drop (after s.1)) = contents t.table

lemma visit_eq (t : HashTable κ ν) (node : Option ℕ) (visited : List (κ × ν)) :
    t.visit (node, visited) = match t.getNextKey node with
      | none => .inr visited
      | some (key, value, outNode) => .inl (some outNode, visited ++ [(key, value)]) := by
  unfold visit
  cases node with
  | none => rfl
  | some i => rfl

lemma Visiting.round {left : ℕ} {s : Option ℕ × List (κ × ν)} (h : t.Visiting left s) :
    (t.visit s).elim (fun s' => ∃ m < left, t.Visiting m s') (· = contents t.table) := by
  obtain ⟨node, visited⟩ := s
  obtain ⟨rfl, hle, hvisited⟩ := h
  dsimp only at hle hvisited ⊢
  rw [visit_eq]
  rcases t.getNextKey_cases node with ⟨hnone, hnil⟩ | ⟨key, value, i, hsome, hle', hlt, hcons⟩
  · rw [hnone]
    rw [hnil, List.append_nil] at hvisited
    exact hvisited
  · rw [hsome]
    refine ⟨t.capacity - (i + 1), by omega, rfl, hlt, ?_⟩
    rw [← hvisited, hcons, List.append_assoc]
    rfl

/-- **A full traversal** visits the valid elements, one after the other. -/
theorem traverse_eq {fuel : ℕ} (hfuel : t.capacity < fuel) :
    t.traverse fuel = some (contents t.table) := by
  have hstart : t.Visiting t.capacity (none, []) := ⟨rfl, Nat.zero_le _, rfl⟩
  obtain ⟨r, hr, rfl⟩ := loop_rule t.Visiting (· = contents t.table) (fun _ _ h => h.round) hstart
    hfuel
  exact hr

end

end Ocoms.HashTable
