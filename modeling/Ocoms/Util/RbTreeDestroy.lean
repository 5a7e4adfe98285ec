import Ocoms.Util.RbTreeRun

/-!
The teardown of the red-black tree: `ocoms_rb_tree_destroy`.

* `Teardown` is the tree with the nodes that are back in the free list. An access to one of them is a
  fault.
* `inorderDestroy_spec`: `inorder_destroy` gives back all nodes below a node, and each of them once.
* `rb_tree_destroy_once` is the theorem, for the trees of all runs.
-/

namespace Ocoms

/-- The tree, and the nodes that were returned to the free list, the last one first. -/
structure Teardown (ν κ β : Type*) where
  tree : RbTree ν κ β
  returned : List ν

namespace Teardown

variable {ν κ β : Type*} [DecidableEq ν]

/-- `node->left` or `node->right` is read. `none` is an access to a node that was returned. -/
def link (d : Teardown ν κ β) (side : Side) (node : ν) : Option ν :=
  if node ∈ d.returned then none else some (d.tree.child side node)

/-- `OCOMS_FREE_LIST_RETURN`. -/
def giveBack (d : Teardown ν κ β) (item : ν) : Teardown ν κ β :=
  { d with returned := item :: d.returned }

/-- `--tree->tree_size`. `none` says that it was zero. -/
def decrSize (d : Teardown ν κ β) : Option (Teardown ν κ β) :=
  match d.tree.treeSize with
  | 0 => none
  | n + 1 => some { d with tree := { d.tree with treeSize := n } }

/-- One half of `inorder_destroy`: what is below the child, and then the child. -/
def destroyChild (destroy : ν → Teardown ν κ β → Option (Teardown ν κ β)) (side : Side) (node : ν)
    (d : Teardown ν κ β) : Option (Teardown ν κ β) :=
  (d.link side node).bind fun child =>
    (destroy child d).bind fun d =>
      (d.link side node).bind fun child =>
        if child ≠ d.tree.nill then d.decrSize.map fun d => d.giveBack child else some d

/-- `inorder_destroy`. -/
def inorderDestroy : ℕ → ν → Teardown ν κ β → Option (Teardown ν κ β)
  | 0, _, _ => none
  | fuel + 1, node, d =>
      if node = d.tree.nill then some d
      else
        (destroyChild (inorderDestroy fuel) .left node d).bind
          (destroyChild (inorderDestroy fuel) .right node)

end Teardown

/-- `ocoms_rb_tree_destroy`. -/
def RbTree.destroy {ν κ β : Type*} [DecidableEq ν] (s : RbTree ν κ β) (fuel : ℕ) :
    Option (RbTreeRc × Teardown ν κ β) :=
  (Teardown.inorderDestroy fuel s.rootPtr ⟨s, []⟩).map fun d =>
    -- now free the root, and the `nill` node
    let d := d.giveBack d.tree.rootPtr
    let d := d.giveBack d.tree.nill
    (.success, d)

open BinTree

namespace Teardown

variable {ν κ β : Type*} {d d' d'' : Teardown ν κ β} {nodes nodes' : List ν} {t : BinTree ν} {i p : ν}
  {side : Side}

/-- From `d` to `d'` these nodes were returned, each of them once, and nothing else has changed. -/
structure Returns (d d' : Teardown ν κ β) (nodes : List ν) : Prop where
  returned : ∃ l, d'.returned = l ++ d.returned ∧ l.Perm nodes
  size : d'.tree.treeSize + nodes.length = d.tree.treeSize
  links : d'.tree.toTreeLinks = d.tree.toTreeLinks

lemma Returns.refl (d : Teardown ν κ β) : d.Returns d [] :=
  ⟨⟨[], rfl, List.Perm.refl _⟩, rfl, rfl⟩

lemma Returns.trans (h : d.Returns d' nodes) (h' : d'.Returns d'' nodes') :
    d.Returns d'' (nodes ++ nodes') := by
  obtain ⟨l, hl, hperm⟩ := h.returned
  obtain ⟨l', hl', hperm'⟩ := h'.returned
  refine ⟨⟨l' ++ l, ?_, ?_⟩, ?_, h'.links.trans h.links⟩
  · rw [hl', hl, List.append_assoc]
  · exact List.perm_append_comm.trans (hperm.append hperm')
  · have hsize := h.size
    have hsize' := h'.size
    rw [List.length_append]
    omega

/-- What is not among the nodes has not been returned. -/
lemma Returns.not_mem (h : d.Returns d' nodes) (hi : i ∉ d.returned) (hnot : i ∉ nodes) :
    i ∉ d'.returned := by
  obtain ⟨l, hl, hperm⟩ := h.returned
  rw [hl]
  exact fun hmem => (List.mem_append.mp hmem).elim (fun h => hnot (hperm.mem_iff.mp h)) hi

/-- The nodes below the root of a tree. -/
def below : BinTree ν → List ν
  | .nil => []
  | .node l _ r => l.inorder ++ r.inorder

lemma length_below_le (t : BinTree ν) : (below t).length ≤ t.inorder.length := by
  cases t with
  | nil => exact Nat.le_refl _
  | node l i r =>
      rw [below, BinTree.inorder, List.length_append, List.length_append, List.length_cons]
      omega

/-- A node, and those below it. -/
lemma perm_below (l : BinTree ν) (i : ν) (r : BinTree ν) :
    (below (.node l i r) ++ [i]).Perm (BinTree.node l i r).inorder := by
  rw [below, BinTree.inorder, List.append_assoc]
  exact List.Perm.append_left _ List.perm_append_comm

/-- What a call on a tree needs: the links, and that none of its nodes was returned. -/
structure Ready (d : Teardown ν κ β) (p : ν) (t : BinTree ν) : Prop where
  shape : d.tree.Shape p t
  nodup : t.inorder.Nodup
  nill : d.tree.nill ∉ t.inorder
  fresh : ∀ i ∈ t.inorder, i ∉ d.returned
  size : (below t).length ≤ d.tree.treeSize

/-- The subtrees of a node. -/
lemma Ready.subtrees {l r : BinTree ν} (h : d.Ready p (.node l i r)) :
    d.Ready i l ∧ d.Ready i r ∧ i ∉ l.inorder ∧ i ∉ r.inorder ∧ ∀ j ∈ r.inorder, j ∉ l.inorder := by
  obtain ⟨-, -, -, hl, hr⟩ := h.shape
  have hnodup := h.nodup
  rw [BinTree.inorder] at hnodup
  obtain ⟨hnl, hnr, hdisj⟩ := List.nodup_append.mp hnodup
  have hleft : ∀ j ∈ l.inorder, j ∈ (BinTree.node l i r).inorder := fun j hj =>
    List.mem_append_left _ hj
  have hright : ∀ j ∈ r.inorder, j ∈ (BinTree.node l i r).inorder := fun j hj =>
    List.mem_append_right _ (List.mem_cons_of_mem _ hj)
  have hsize := h.size
  rw [below, List.length_append] at hsize
  have hbl := length_below_le l
  have hbr := length_below_le r
  refine ⟨⟨hl, hnl, fun hj => h.nill (hleft _ hj), fun j hj => h.fresh j (hleft j hj), by omega⟩,
    ⟨hr, (List.nodup_cons.mp hnr).2, fun hj => h.nill (hright _ hj),
      fun j hj => h.fresh j (hright j hj), by omega⟩,
    fun hj => hdisj i hj i List.mem_cons_self rfl, (List.nodup_cons.mp hnr).1,
    fun j hj hj' => hdisj j hj' j (List.mem_cons_of_mem _ hj) rfl⟩

/-- A tree is ready until one of its nodes is returned. -/
lemma Ready.after (h : d.Ready p t) (hret : d.Returns d' nodes) (hdisj : ∀ j ∈ t.inorder, j ∉ nodes)
    (hsize : (below t).length + nodes.length ≤ d.tree.treeSize) : d'.Ready p t := by
  refine ⟨hret.links ▸ h.shape, h.nodup, hret.links ▸ h.nill, fun j hj => ?_, ?_⟩
  · exact hret.not_mem (h.fresh j hj) (hdisj j hj)
  · have hsize' := hret.size
    omega

variable [DecidableEq ν]

lemma link_of_not_mem (hi : i ∉ d.returned) (side : Side) : d.link side i = some (d.tree.child side i) :=
  if_neg hi

omit [DecidableEq ν] in
/-- A child is returned behind the nodes below it. -/
lemma Returns.giveBack {l r : BinTree ν} (h : d.Returns d' (below (.node l i r)))
    (hsize : (BinTree.node l i r).inorder.length ≤ d.tree.treeSize) :
    ∃ d'', d'.decrSize.map (fun d => d.giveBack i) = some d'' ∧
      d.Returns d'' (BinTree.node l i r).inorder := by
  obtain ⟨l', hl', hperm⟩ := h.returned
  have hlen := (perm_below l i r).length_eq
  have hsize' := h.size
  rw [List.length_append, List.length_singleton] at hlen
  unfold decrSize
  cases hn : d'.tree.treeSize with
  | zero => omega
  | succ n =>
      refine ⟨_, rfl, ⟨i :: l', ?_, ?_⟩, ?_, h.links⟩
      · exact congrArg (List.cons i) hl'
      · refine (hperm.cons i).trans (List.Perm.trans ?_ (perm_below l i r))
        show ([i] ++ below (.node l i r)).Perm _
        exact List.perm_append_comm
      · show n + _ = _
        omega

/-- **One half of a call** returns the whole subtree, if the inner call returns what is below its
root. -/
lemma destroyChild_spec {destroy : ν → Teardown ν κ β → Option (Teardown ν κ β)}
    (hcall : ∃ d', destroy (d.tree.ptr t) d = some d' ∧ d.Returns d' (below t))
    (hchild : d.tree.child side i = d.tree.ptr t) (hi : i ∉ d.returned) (hit : i ∉ t.inorder)
    (hnill : d.tree.nill ∉ t.inorder) (hsize : t.inorder.length ≤ d.tree.treeSize) :
    ∃ d', destroyChild destroy side i d = some d' ∧ d.Returns d' t.inorder := by
  obtain ⟨d₁, hd₁, hret⟩ := hcall
  have hi₁ : i ∉ d₁.returned := by
    refine hret.not_mem hi fun hmem => hit ?_
    cases t with
    | nil => cases hmem
    | node l j r => exact (perm_below l j r).mem_iff.mp (List.mem_append_left _ hmem)
  unfold destroyChild
  rw [link_of_not_mem hi, Option.bind_some, hchild, hd₁, Option.bind_some, link_of_not_mem hi₁,
    Option.bind_some, hret.links, hchild]
  cases t with
  | nil =>
      rw [if_neg fun h => h rfl]
      exact ⟨d₁, rfl, hret⟩
  | node l j r =>
      have hj : j ≠ d.tree.nill := by
        rintro rfl
        exact hnill (List.mem_append_right _ List.mem_cons_self)
      rw [if_pos (show d.tree.ptr (.node l j r) ≠ d.tree.nill from hj)]
      exact hret.giveBack hsize

/-- **`inorder_destroy`** returns all nodes below a node, each of them once. The induction is on the
tree below the node. -/
lemma inorderDestroy_spec (h : d.Ready p t) {fuel : ℕ} (hfuel : t.inorder.length < fuel) :
    ∃ d', inorderDestroy fuel (d.tree.ptr t) d = some d' ∧ d.Returns d' (below t) := by
  induction t generalizing d p fuel with
  | nil =>
      obtain ⟨fuel, rfl⟩ : ∃ n, fuel = n + 1 := ⟨fuel - 1, by omega⟩
      exact ⟨d, if_pos rfl, .refl d⟩
  | node l i r ihl ihr =>
      obtain ⟨fuel, rfl⟩ : ∃ n, fuel = n + 1 := ⟨fuel - 1, by omega⟩
      have hmem : i ∈ (BinTree.node l i r).inorder := List.mem_append_right _ List.mem_cons_self
      have hi : i ≠ d.tree.nill := by
        rintro rfl
        exact h.nill hmem
      obtain ⟨hl, hr, hil, hir, hdisj⟩ := h.subtrees
      obtain ⟨-, hchildl, hchildr, -, -⟩ := h.shape
      have hsize := h.size
      have hlen := hfuel
      rw [below, List.length_append] at hsize
      rw [BinTree.inorder, List.length_append, List.length_cons] at hlen
      obtain ⟨d₁, hd₁, hret₁⟩ := destroyChild_spec
        (ihl hl (show l.inorder.length < fuel by omega)) hchildl (h.fresh i hmem) hil hl.nill
        (by omega)
      have hbelow := length_below_le r
      have hready := hr.after hret₁ hdisj (by omega)
      have hsize₁ := hret₁.size
      have hptr : d₁.tree.ptr r = d.tree.ptr r := by rw [hret₁.links]
      obtain ⟨d₂, hd₂, hret₂⟩ := destroyChild_spec
        (ihr hready (show r.inorder.length < fuel by omega)) (by rw [hret₁.links]; exact hchildr)
        (hret₁.not_mem (h.fresh i hmem) hil) hir hready.nill (by omega)
      refine ⟨d₂, ?_, hret₁.trans hret₂⟩
      show inorderDestroy (fuel + 1) i d = _
      rw [inorderDestroy, if_neg hi, hd₁, Option.bind_some, hd₂]

end Teardown

section Runs

variable {ν κ β : Type*} [DecidableEq ν] {s : RbTree ν κ β} {comp : κ → κ → ℤ} {used : List ν}

/-- **The teardown** of any tree returns all nodes that the free list has given out, each of them once,
and no node that was returned is read again. The two nodes that are not in the tree come last. -/
theorem rb_tree_destroy_once (h : RbTreeRun comp used s) {fuel : ℕ} (hfuel : s.treeSize + 1 < fuel) :
    ∃ d nodes, s.destroy fuel = some (.success, d) ∧ d.returned = s.nill :: s.rootPtr :: nodes ∧
      d.returned.Perm used ∧ d.returned.Nodup ∧ d.tree.treeSize = 0 := by
  obtain ⟨t, hshaped, -, -, hperm⟩ := h.inv
  have hnodup : (s.rootPtr :: s.nill :: t.inorder).Nodup := by
    have hfocus := hshaped.focus.nodup
    rwa [BinTree.around, List.append_nil] at hfocus
  obtain ⟨hroot, hrest⟩ := List.nodup_cons.mp hnodup
  obtain ⟨hnill, ht⟩ := List.nodup_cons.mp hrest
  -- the node above the root is the root of a tree, too
  have hready : (⟨s, []⟩ : Teardown ν κ β).Ready (s.parent s.rootPtr) (.node t s.rootPtr .nil) := by
    refine ⟨⟨rfl, hshaped.focus.around, hshaped.rootRight, hshaped.focus.shape, trivial⟩, ?_, ?_,
      fun _ _ hmem => (by cases hmem), ?_⟩
    · refine List.nodup_append.mpr ⟨ht, List.nodup_singleton _, ?_⟩
      rintro i hi j hj rfl
      rw [List.mem_singleton.mp hj] at hi
      exact hroot (List.mem_cons_of_mem _ hi)
    · intro hmem
      rcases List.mem_append.mp hmem with hmem | hmem
      · exact hnill hmem
      · rw [List.mem_singleton.mp hmem] at hroot
        exact hroot List.mem_cons_self
    · show (t.inorder ++ []).length ≤ s.treeSize
      rw [List.append_nil]
      exact Nat.le_of_eq hshaped.size.symm
  have hlen : (BinTree.node t s.rootPtr .nil).inorder.length < fuel := by
    have hlen := (Teardown.perm_below t s.rootPtr .nil).length_eq
    rw [Teardown.below, BinTree.inorder, List.append_nil, List.length_append, List.length_singleton,
      ← hshaped.size] at hlen
    omega
  obtain ⟨d, hd, ⟨nodes, hnodes, hreturned⟩, hsize, hlinks⟩ := Teardown.inorderDestroy_spec hready hlen
  rw [Teardown.below, BinTree.inorder, List.append_nil] at hreturned hsize
  have hall : (s.nill :: s.rootPtr :: nodes).Perm used := by
    refine List.Perm.trans ?_ hperm.symm
    exact (List.Perm.swap _ _ _).trans ((hreturned.cons _).cons _)
  have hlist : d.returned = nodes := by rw [hnodes, List.append_nil]
  refine ⟨(d.giveBack s.rootPtr).giveBack s.nill, nodes, ?_, ?_, ?_, ?_, ?_⟩
  · unfold RbTree.destroy
    have hcall : Teardown.inorderDestroy fuel s.rootPtr ⟨s, []⟩ = some d := hd
    rw [hcall, Option.map_some]
    show some (RbTreeRc.success, (d.giveBack d.tree.rootPtr).giveBack d.tree.nill) = _
    rw [hlinks]
  · show s.nill :: s.rootPtr :: d.returned = _
    rw [hlist]
  · show (s.nill :: s.rootPtr :: d.returned).Perm used
    rwa [hlist]
  · show (s.nill :: s.rootPtr :: d.returned).Nodup
    rw [hlist]
    exact (hall.trans hperm).nodup_iff.mpr hnodup
  · show d.tree.treeSize = 0
    have hsize' := hshaped.size
    change d.tree.treeSize + t.inorder.length = s.treeSize at hsize
    omega

/-- The teardown of a tree with one entry, which is in the node 2. -/
theorem rb_tree_destroy_once_five : ∃ (s : RbTree ℕ ℤ ℕ) (d : Teardown ℕ ℤ ℕ) (nodes : List ℕ),
    RbTreeRun (fun a b => a - b) [2, 0, 1] s ∧ s.treeSize = 1 ∧ s.destroy 3 = some (.success, d) ∧
      d.returned = s.nill :: s.rootPtr :: nodes ∧ d.returned.Perm [2, 0, 1] := by
  obtain ⟨s₀, hs₀⟩ : ∃ s₀ : RbTree ℕ ℤ ℕ, s₀ = RbTree.init ⟨⟨0, 0, fun _ => 0, fun _ _ => 0⟩, 0,
    fun a b => a - b, fun _ => .red, fun _ => 0, fun _ => none⟩ 0 1 fun a b => a - b := ⟨_, rfl⟩
  have hinit : RbTreeRun (fun a b : ℤ => a - b) [0, 1] s₀ := hs₀ ▸ .init _ Nat.zero_ne_one
  have hshaped : s₀.Shaped .nil := hs₀ ▸ RbTree.init_shaped _ Nat.zero_ne_one _
  have hfresh : s₀.Fresh (BinTree.nil : BinTree ℕ).inorder 2 := by
    rw [hs₀]
    exact fun hmem => by simp [RbTree.init, BinTree.inorder, RbTree.setColor, RbTree.setChild,
      RbTree.setParent, TreeLinks.setChild, TreeLinks.setParent] at hmem
  obtain ⟨s, t, a, b, hinsert, hshaped', hold, hnew, -⟩ :=
    RbTree.insert_spec hshaped hfresh 5 (some 7) (show s₀.treeSize < 1 from hshaped.size ▸ Nat.zero_lt_one)
  have hrun : RbTreeRun (fun a b : ℤ => a - b) [2, 0, 1] s :=
    .insert (some 2) 5 (some 7) 1 hinit (fun x hx => by cases hx; decide) hinsert
  obtain ⟨rfl, rfl⟩ := List.append_eq_nil_iff.mp hold.symm
  have hsize : s.treeSize = 1 := by
    rw [hshaped'.size, hnew]
    rfl
  obtain ⟨d, nodes, hdestroy, hlast, hperm, -⟩ :=
    rb_tree_destroy_once hrun (show s.treeSize + 1 < 3 by rw [hsize]; decide)
  exact ⟨s, d, nodes, hrun, hsize, hdestroy, hlast, hperm⟩

end Runs

end Ocoms
