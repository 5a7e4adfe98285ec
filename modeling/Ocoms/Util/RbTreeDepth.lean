import Ocoms.Util.RbTreeRun

/-!
How far the tree goes down: `ocoms_rb_tree_find_with`, the search of `btree_insert`, and
`ocoms_rb_tree_traverse`.

* `search_depth`, `findLeaf_depth` and `inorderTraversal_depth` bound the rounds of the loops, and the
  depth of the recursion, by the depth of the tree.
* `search_depth` is about any comparison function; `Agrees` says which ones find their key.
* `rb_tree_lookup_log` puts this together with the balance.
-/

namespace Ocoms

namespace RbTree

variable {ν κ β σ : Type*} [DecidableEq ν]

/-- `inorder_traversal`. The `action` changes a state, and not the tree. -/
def inorderTraversal (s : RbTree ν κ β) (cond : Option β → Bool) (action : κ → Option β → σ → σ) :
    ℕ → ν → σ → Option σ
  | 0, _, _ => none
  | fuel + 1, node, a =>
      if node = s.nill then some a
      else do
        let a ← inorderTraversal s cond action fuel (s.child .left node) a
        let a := if cond (s.value node) then action (s.key node) (s.value node) a else a
        inorderTraversal s cond action fuel (s.child .right node) a

/-- `ocoms_rb_tree_traverse`. Both functions may be `NULL`, and `false` is `OCOMS_ERROR`. -/
def traverse (s : RbTree ν κ β) (cond : Option (Option β → Bool))
    (action : Option (κ → Option β → σ → σ)) (fuel : ℕ) (a : σ) : Option (Bool × σ) :=
  match cond, action with
  | some cond, some action =>
      (s.inorderTraversal cond action fuel (s.child .left s.rootPtr) a).map fun a => (true, a)
  | _, _ => some (false, a)

/-- The comparison function goes with the order of the nodes: the key comes after those with a positive
result, and before those with a negative one. -/
def Agrees (s : RbTree ν κ β) (compfn : κ → κ → ℤ) (key : κ) (nodes : List ν) : Prop :=
  (nodes.map s.key).Pairwise fun a b =>
    (compfn key a < 0 → compfn key b < 0) ∧ (0 < compfn key b → 0 < compfn key a)

variable {s : RbTree ν κ β} {t l r : BinTree ν} {p i : ν} {compfn : κ → κ → ℤ} {key : κ}

omit [DecidableEq ν] in
lemma Agrees.node (h : s.Agrees compfn key (l.inorder ++ i :: r.inorder)) :
    s.Agrees compfn key l.inorder ∧ s.Agrees compfn key r.inorder ∧
      (compfn key (s.key i) < 0 → ∀ j ∈ r.inorder, compfn key (s.key j) < 0) ∧
      (0 < compfn key (s.key i) → ∀ j ∈ l.inorder, 0 < compfn key (s.key j)) := by
  rw [Agrees, List.map_append, List.map_cons, List.pairwise_append, List.pairwise_cons] at h
  obtain ⟨hl, ⟨hi, hr⟩, hlr⟩ := h
  refine ⟨hl, hr, fun hneg j hj => (hi _ (List.mem_map_of_mem hj)).1 hneg, fun hpos j hj => ?_⟩
  exact (hlr _ (List.mem_map_of_mem hj) _ List.mem_cons_self).2 hpos

/-- **A search** with any comparison function goes down at most as far as the tree is deep. -/
lemma search_depth {ρ : Type*} (hshape : s.Shape p t) (hnill : s.nill ∉ t.inorder) (found : ν → ρ)
    (missing : ρ) {fuel : ℕ} (hfuel : t.depth < fuel) :
    ∃ r, loop (s.searchRound compfn key found missing) fuel (s.ptr t) = some r ∧
      ((∃ i ∈ t.inorder, compfn key (s.key i) = 0 ∧ r = found i) ∨
        r = missing ∧ (s.Agrees compfn key t.inorder → ∀ i ∈ t.inorder, compfn key (s.key i) ≠ 0)) := by
  induction t generalizing p fuel with
  | nil =>
      obtain ⟨fuel, rfl⟩ : ∃ n, fuel = n + 1 := ⟨fuel - 1, by omega⟩
      refine ⟨missing, ?_, .inr ⟨rfl, fun _ i hi => absurd hi List.not_mem_nil⟩⟩
      unfold loop searchRound
      rw [if_neg fun h => h rfl]
      rfl
  | node l i r ihl ihr =>
      obtain ⟨fuel, rfl⟩ : ∃ n, fuel = n + 1 := ⟨fuel - 1, by omega⟩
      obtain ⟨-, hl, hr, hshapel, hshaper⟩ := hshape
      rw [BinTree.depth] at hfuel
      rw [BinTree.inorder, List.mem_append, List.mem_cons, not_or, not_or] at hnill
      have hmem : ∀ j, j ∈ (BinTree.node l i r).inorder ↔ j ∈ l.inorder ∨ j = i ∨ j ∈ r.inorder := by
        intro j
        rw [BinTree.inorder, List.mem_append, List.mem_cons]
      have hround : loop (s.searchRound compfn key found missing) (fuel + 1) (s.ptr (.node l i r))
          = (if compfn key (s.key i) = 0 then Sum.inr (found i) else
              Sum.inl (if compfn key (s.key i) < 0 then s.ptr l else s.ptr r)).elim
            (loop (s.searchRound compfn key found missing) fuel) some := by
        show (s.searchRound compfn key found missing i).elim _ some = _
        unfold searchRound
        rw [if_pos (Ne.symm hnill.2.1), hl, hr]
      rw [hround]
      by_cases hzero : compfn key (s.key i) = 0
      · rw [if_pos hzero]
        exact ⟨_, rfl, .inl ⟨i, (hmem i).mpr (.inr (.inl rfl)), hzero, rfl⟩⟩
      rw [if_neg hzero]
      by_cases hneg : compfn key (s.key i) < 0
      · obtain ⟨v, hv, hcase⟩ := ihl hshapel hnill.1 (show l.depth < fuel by omega)
        rw [if_pos hneg]
        refine ⟨v, hv, hcase.imp ?_ ?_⟩
        · rintro ⟨j, hj, hequal⟩
          exact ⟨j, (hmem j).mpr (.inl hj), hequal⟩
        · rintro ⟨hmissing, hno⟩
          refine ⟨hmissing, fun hagrees j hj => ?_⟩
          obtain ⟨hal, -, hafter, -⟩ := hagrees.node
          rcases (hmem j).mp hj with hj | rfl | hj
          · exact hno hal j hj
          · exact hzero
          · exact Int.ne_of_lt (hafter hneg j hj)
      · obtain ⟨v, hv, hcase⟩ := ihr hshaper hnill.2.2 (show r.depth < fuel by omega)
        rw [if_neg hneg]
        refine ⟨v, hv, hcase.imp ?_ ?_⟩
        · rintro ⟨j, hj, hequal⟩
          exact ⟨j, (hmem j).mpr (.inr (.inr hj)), hequal⟩
        · rintro ⟨hmissing, hno⟩
          refine ⟨hmissing, fun hagrees j hj => ?_⟩
          obtain ⟨-, har, -, hbefore⟩ := hagrees.node
          have hpos : 0 < compfn key (s.key i) := (Int.lt_or_gt_of_ne hzero).resolve_left hneg
          rcases (hmem j).mp hj with hj | rfl | hj
          · exact (Int.ne_of_lt (hbefore hpos j hj)).symm
          · exact hzero
          · exact hno har j hj

/-- **The search for a leaf**, too. -/
lemma findLeaf_depth {node parent : ν} (hshape : s.Shape p t) (hnill : s.nill ∉ t.inorder) {fuel : ℕ}
    (hfuel : t.depth < fuel) : (loop (s.findLeafRound node) fuel (parent, s.ptr t)).isSome := by
  induction t generalizing p fuel parent with
  | nil =>
      obtain ⟨fuel, rfl⟩ : ∃ n, fuel = n + 1 := ⟨fuel - 1, by omega⟩
      show ((s.findLeafRound node (parent, s.nill)).elim _ some).isSome
      unfold findLeafRound
      dsimp only
      rw [if_neg fun h => h rfl]
      rfl
  | node l i r ihl ihr =>
      obtain ⟨fuel, rfl⟩ : ∃ n, fuel = n + 1 := ⟨fuel - 1, by omega⟩
      obtain ⟨-, hl, hr, hshapel, hshaper⟩ := hshape
      rw [BinTree.depth] at hfuel
      rw [BinTree.inorder, List.mem_append, List.mem_cons, not_or, not_or] at hnill
      show ((s.findLeafRound node (parent, i)).elim _ some).isSome
      unfold findLeafRound
      dsimp only
      rw [if_pos (Ne.symm hnill.2.1), hl, hr]
      split_ifs
      · exact ihl hshapel hnill.1 (by omega)
      · exact ihr hshaper hnill.2.2 (by omega)

/-- What a traversal does to the state. -/
def visit (s : RbTree ν κ β) (cond : Option β → Bool) (action : κ → Option β → σ → σ) (nodes : List ν)
    (a : σ) : σ :=
  ((s.entries nodes).filter fun e => cond e.2).foldl (fun a e => action e.1 e.2 a) a

omit [DecidableEq ν] in
lemma visit_append (cond : Option β → Bool) (action : κ → Option β → σ → σ) (as bs : List ν) (a : σ) :
    s.visit cond action (as ++ bs) a = s.visit cond action bs (s.visit cond action as a) := by
  rw [visit, entries, List.map_append, List.filter_append, List.foldl_append]
  rfl

/-- **A traversal** visits the nodes from the left to the right. -/
lemma inorderTraversal_depth (cond : Option β → Bool) (action : κ → Option β → σ → σ)
    (hshape : s.Shape p t) (hnill : s.nill ∉ t.inorder) {fuel : ℕ} (hfuel : t.depth < fuel) (a : σ) :
    s.inorderTraversal cond action fuel (s.ptr t) a = some (s.visit cond action t.inorder a) := by
  induction t generalizing p fuel a with
  | nil =>
      obtain ⟨fuel, rfl⟩ : ∃ n, fuel = n + 1 := ⟨fuel - 1, by omega⟩
      exact if_pos rfl
  | node l i r ihl ihr =>
      obtain ⟨fuel, rfl⟩ : ∃ n, fuel = n + 1 := ⟨fuel - 1, by omega⟩
      obtain ⟨-, hl, hr, hshapel, hshaper⟩ := hshape
      rw [BinTree.depth] at hfuel
      rw [BinTree.inorder, List.mem_append, List.mem_cons, not_or, not_or] at hnill
      have hone : (if cond (s.value i) then action (s.key i) (s.value i) (s.visit cond action l.inorder a)
          else s.visit cond action l.inorder a) = s.visit cond action [i] (s.visit cond action l.inorder a) := by
        cases hcond : cond (s.value i) <;> simp [visit, entries, hcond]
      rw [show s.ptr (.node l i r) = i from rfl, inorderTraversal, if_neg (Ne.symm hnill.2.1), hl, hr,
        ihl hshapel hnill.1 (by omega), Option.bind_eq_bind, Option.bind_some]
      dsimp only
      rw [hone, ihr hshaper hnill.2.2 (by omega), BinTree.inorder, visit_append, ← visit_append cond action [i]]
      rfl

end RbTree

end Ocoms
