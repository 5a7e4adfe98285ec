import Ocoms.Lib.RedBlackTree
import Mathlib.Logic.Function.Basic

/-!
Binary trees in memory, with links to the parents, one node `nill` for all ends, and a node above
the root whose left child is the root.

* `TreeLinks` are the links of all nodes.
* `TreeLinks.Shape` says that the links from a node down are those of a tree, `TreeLinks.Around` that
  the links around a place are those of the frames.
* `TreeLinks.Focus` is a tree in memory, seen from a place. `Focus.up`, `Focus.down` move the place.
-/

namespace Ocoms

open BinTree

/-- The links of the nodes. -/
structure TreeLinks (ν : Type*) where
  rootPtr : ν
  nill : ν
  parent : ν → ν
  child : Side → ν → ν

namespace TreeLinks

variable {ν : Type*}

/-- `parent` of a node is written. -/
def setParent [DecidableEq ν] (s : TreeLinks ν) (i p : ν) : TreeLinks ν :=
  { s with parent := Function.update s.parent i p }

/-- `left` or `right` of a node is written. -/
def setChild [DecidableEq ν] (s : TreeLinks ν) (side : Side) (i j : ν) : TreeLinks ν :=
  { s with child := Function.update s.child side (Function.update (s.child side) i j) }

/-- The pointer to a tree. -/
def ptr (s : TreeLinks ν) : BinTree ν → ν
  | .nil => s.nill
  | .node _ i _ => i

/-- The node above a place. -/
def top (s : TreeLinks ν) : List (TreeFrame ν) → ν
  | [] => s.rootPtr
  | f :: _ => f.node

/-- The side of a place. The root is a left child. -/
def holeSide : List (TreeFrame ν) → Side
  | [] => .left
  | f :: _ => f.side

/-- The tree is below the node `p`. -/
def Shape (s : TreeLinks ν) : ν → BinTree ν → Prop
  | _, .nil => True
  | p, .node l i r =>
      s.parent i = p ∧ s.child .left i = s.ptr l ∧ s.child .right i = s.ptr r ∧
        s.Shape i l ∧ s.Shape i r

/-- The frames are around a place with the pointer `x`. -/
def Around (s : TreeLinks ν) : List (TreeFrame ν) → ν → Prop
  | [], x => s.child .left s.rootPtr = x
  | f :: ctx, x =>
      s.child f.side f.node = x ∧ s.child f.side.other f.node = s.ptr f.sibling ∧
        s.parent f.node = s.top ctx ∧ s.Shape f.node f.sibling ∧ s.Around ctx f.node

/-- **A tree in memory**, seen from a place. All nodes are different. -/
structure Focus (s : TreeLinks ν) (ctx : List (TreeFrame ν)) (t : BinTree ν) : Prop where
  shape : s.Shape (s.top ctx) t
  around : s.Around ctx (s.ptr t)
  nodup : (s.rootPtr :: s.nill :: (t.inorder ++ BinTree.around ctx)).Nodup

variable {s s' : TreeLinks ν} {ctx : List (TreeFrame ν)} {f : TreeFrame ν} {t u v : BinTree ν} {i j p x : ν}
  {side : Side}

/-! ### Pointers -/

@[simp]
lemma ptr_branch (s : TreeLinks ν) (side : Side) (t : BinTree ν) (i : ν) (u : BinTree ν) :
    s.ptr (branch side t i u) = i := by
  cases side <;> rfl

lemma ptr_congr (h : s'.nill = s.nill) (t : BinTree ν) : s'.ptr t = s.ptr t := by
  cases t with
  | nil => exact h
  | node l i r => rfl

/-- A pointer is the one of the sentinel, or it is a node of the tree. -/
lemma ptr_mem (s : TreeLinks ν) (t : BinTree ν) :
    t = .nil ∧ s.ptr t = s.nill ∨ t ≠ .nil ∧ s.ptr t ∈ t.inorder := by
  cases t with
  | nil => exact Or.inl ⟨rfl, rfl⟩
  | node l i r =>
      exact Or.inr ⟨(fun h => by cases h), List.mem_append_right _ List.mem_cons_self⟩

lemma shape_branch : s.Shape p (branch side t i u) ↔
    s.parent i = p ∧ s.child side i = s.ptr t ∧ s.child side.other i = s.ptr u ∧
      s.Shape i t ∧ s.Shape i u := by
  cases side with
  | left => exact Iff.rfl
  | right =>
      constructor
      · rintro ⟨hp, hu, ht, hu', ht'⟩
        exact ⟨hp, ht, hu, ht', hu'⟩
      · rintro ⟨hp, ht, hu, ht', hu'⟩
        exact ⟨hp, hu, ht, hu', ht'⟩

/-! ### What a change leaves as it is -/

lemma Shape.congr (h : s.Shape p t) (hnill : s'.nill = s.nill)
    (hparent : ∀ i ∈ t.inorder, s'.parent i = s.parent i)
    (hchild : ∀ side, ∀ i ∈ t.inorder, s'.child side i = s.child side i) : s'.Shape p t := by
  induction t generalizing p with
  | nil => trivial
  | node l i r ihl ihr =>
      obtain ⟨hp, hl, hr, hl', hr'⟩ := h
      have hi : i ∈ (BinTree.node l i r).inorder := List.mem_append_right _ List.mem_cons_self
      have hleft : ∀ j ∈ l.inorder, j ∈ (BinTree.node l i r).inorder := fun j hj =>
        List.mem_append_left _ hj
      have hright : ∀ j ∈ r.inorder, j ∈ (BinTree.node l i r).inorder := fun j hj =>
        List.mem_append_right _ (List.mem_cons_of_mem _ hj)
      refine ⟨(hparent i hi).trans hp, ?_, ?_, ?_, ?_⟩
      · rw [hchild _ i hi, hl, ptr_congr hnill]
      · rw [hchild _ i hi, hr, ptr_congr hnill]
      · exact ihl hl' (fun j hj => hparent j (hleft j hj)) fun sd j hj => hchild sd j (hleft j hj)
      · exact ihr hr' (fun j hj => hparent j (hright j hj)) fun sd j hj => hchild sd j (hright j hj)

/-- A tree below another node: the parent of its root has been written. -/
lemma Shape.reparent (h : s.Shape p t) (hnill : s'.nill = s.nill)
    (hroot : t ≠ .nil → s'.parent (s.ptr t) = x)
    (hparent : ∀ i ∈ t.inorder, i ≠ s.ptr t → s'.parent i = s.parent i)
    (hchild : ∀ side, ∀ i ∈ t.inorder, s'.child side i = s.child side i) (hnodup : t.inorder.Nodup) :
    s'.Shape x t := by
  cases t with
  | nil => trivial
  | node l i r =>
      obtain ⟨-, hl, hr, hl', hr'⟩ := h
      have hi : i ∈ (BinTree.node l i r).inorder := List.mem_append_right _ List.mem_cons_self
      have hdisj := List.nodup_append.mp hnodup
      have hleft : ∀ j ∈ l.inorder, j ∈ (BinTree.node l i r).inorder ∧ j ≠ i := fun j hj =>
        ⟨List.mem_append_left _ hj, hdisj.2.2 j hj i List.mem_cons_self⟩
      have hright : ∀ j ∈ r.inorder, j ∈ (BinTree.node l i r).inorder ∧ j ≠ i := fun j hj =>
        ⟨List.mem_append_right _ (List.mem_cons_of_mem _ hj), by
          rintro rfl
          exact (List.nodup_cons.mp hdisj.2.1).1 hj⟩
      refine ⟨hroot (fun h => by cases h), ?_, ?_, ?_, ?_⟩
      · rw [hchild _ i hi, hl, ptr_congr hnill]
      · rw [hchild _ i hi, hr, ptr_congr hnill]
      · exact hl'.congr hnill (fun j hj => hparent j (hleft j hj).1 (hleft j hj).2)
          fun sd j hj => hchild sd j (hleft j hj).1
      · exact hr'.congr hnill (fun j hj => hparent j (hright j hj).1 (hright j hj).2)
          fun sd j hj => hchild sd j (hright j hj).1

lemma top_congr (h : s'.rootPtr = s.rootPtr) (ctx : List (TreeFrame ν)) : s'.top ctx = s.top ctx := by
  cases ctx with
  | nil => exact h
  | cons f ctx => rfl

lemma Around.congr (h : s.Around ctx x) (hnill : s'.nill = s.nill) (hroot : s'.rootPtr = s.rootPtr)
    (hleft : s'.child .left s.rootPtr = s.child .left s.rootPtr)
    (hparent : ∀ i ∈ BinTree.around ctx, s'.parent i = s.parent i)
    (hchild : ∀ side, ∀ i ∈ BinTree.around ctx, s'.child side i = s.child side i) :
    s'.Around ctx x := by
  induction ctx generalizing x with
  | nil => exact ((congrArg (s'.child .left) hroot).trans hleft).trans h
  | cons f ctx ih =>
      obtain ⟨hx, hs, hp, hshape, hrest⟩ := h
      have hf : f.node ∈ BinTree.around (f :: ctx) := List.mem_cons_self
      have hsib : ∀ j ∈ f.sibling.inorder, j ∈ BinTree.around (f :: ctx) := fun j hj =>
        List.mem_cons_of_mem _ (List.mem_append_left _ hj)
      have hctx : ∀ j ∈ BinTree.around ctx, j ∈ BinTree.around (f :: ctx) := fun j hj =>
        List.mem_cons_of_mem _ (List.mem_append_right _ hj)
      refine ⟨(hchild _ _ hf).trans hx, ?_, ?_, ?_, ?_⟩
      · rw [hchild _ _ hf, hs, ptr_congr hnill]
      · rw [hparent _ hf, hp, top_congr hroot]
      · exact hshape.congr hnill (fun j hj => hparent j (hsib j hj)) fun sd j hj =>
          hchild sd j (hsib j hj)
      · exact ih hrest (fun j hj => hparent j (hctx j hj)) fun sd j hj => hchild sd j (hctx j hj)

/-- **Another tree is linked** at the place: only the link of the node above is written. -/
lemma Around.relink (h : s.Around ctx x) (hnill : s'.nill = s.nill) (hroot : s'.rootPtr = s.rootPtr)
    (hnodup : (s.rootPtr :: BinTree.around ctx).Nodup) {y : ν}
    (hy : s'.child (holeSide ctx) (s.top ctx) = y)
    (hother : s'.child (holeSide ctx).other (s.top ctx) = s.child (holeSide ctx).other (s.top ctx))
    (hparent : ∀ i ∈ BinTree.around ctx, s'.parent i = s.parent i)
    (hchild : ∀ side, ∀ i ∈ s.rootPtr :: BinTree.around ctx, i ≠ s.top ctx →
      s'.child side i = s.child side i) : s'.Around ctx y := by
  cases ctx with
  | nil => exact (congrArg (s'.child .left) hroot).trans hy
  | cons f ctx =>
      obtain ⟨hx, hs, hp, hshape, hrest⟩ := h
      obtain ⟨hroot', hrest'⟩ := List.nodup_cons.mp hnodup
      obtain ⟨hf, -⟩ := List.nodup_cons.mp hrest'
      have hsib : ∀ j ∈ f.sibling.inorder, j ∈ BinTree.around (f :: ctx) ∧ j ≠ f.node :=
        fun j hj => ⟨List.mem_cons_of_mem _ (List.mem_append_left _ hj), by
          rintro rfl
          exact hf (List.mem_append_left _ hj)⟩
      have hctx : ∀ j ∈ BinTree.around ctx, j ∈ BinTree.around (f :: ctx) ∧ j ≠ f.node :=
        fun j hj => ⟨List.mem_cons_of_mem _ (List.mem_append_right _ hj), by
          rintro rfl
          exact hf (List.mem_append_right _ hj)⟩
      have hne : s.rootPtr ≠ f.node := by
        intro heq
        rw [heq] at hroot'
        exact hroot' List.mem_cons_self
      refine ⟨hy, ?_, ?_, ?_, ?_⟩
      · exact hother.trans (hs.trans (ptr_congr hnill _).symm)
      · rw [hparent _ List.mem_cons_self, hp, top_congr hroot]
      · exact hshape.congr hnill (fun j hj => hparent j (hsib j hj).1) fun sd j hj =>
          hchild sd j (List.mem_cons_of_mem _ (hsib j hj).1) (hsib j hj).2
      · exact hrest.congr hnill hroot (hchild _ _ List.mem_cons_self hne)
          (fun j hj => hparent j (hctx j hj).1) fun sd j hj =>
          hchild sd j (List.mem_cons_of_mem _ (hctx j hj).1) (hctx j hj).2

/-! ### Moving the place -/

/-- The whole tree from the root. -/
lemma Focus.up (h : s.Focus (f :: ctx) t) : s.Focus ctx (branch f.side t f.node f.sibling) := by
  obtain ⟨hx, hs, hp, hsib, hrest⟩ := h.around
  refine ⟨shape_branch.mpr ⟨hp, hx, hs, h.shape, hsib⟩, ?_, ?_⟩
  · rw [ptr_branch]
    exact hrest
  · have hperm : ((branch f.side t f.node f.sibling).inorder ++ BinTree.around ctx).Perm
        (t.inorder ++ BinTree.around (f :: ctx)) := by
      refine ((perm_inorder_branch _ _ _ _).append_right _).trans ?_
      rw [BinTree.around, List.cons_append, List.append_assoc]
      exact List.perm_middle.symm
    exact ((hperm.cons _).cons _).nodup_iff.mpr h.nodup

lemma Focus.down (side : Side) (h : s.Focus ctx (branch side t i u)) :
    s.Focus (⟨side, i, u⟩ :: ctx) t := by
  obtain ⟨hp, ht, hu, ht', hu'⟩ := shape_branch.mp h.shape
  refine ⟨ht', ⟨ht, hu, hp, hu', ?_⟩, ?_⟩
  · have haround := h.around
    rw [ptr_branch] at haround
    exact haround
  · have hperm : ((branch side t i u).inorder ++ BinTree.around ctx).Perm
        (t.inorder ++ BinTree.around (⟨side, i, u⟩ :: ctx)) := by
      refine ((perm_inorder_branch _ _ _ _).append_right _).trans ?_
      rw [BinTree.around, List.cons_append, List.append_assoc]
      exact List.perm_middle.symm
    exact ((hperm.cons _).cons _).nodup_iff.mp h.nodup

/-- From any place to the root. -/
lemma Focus.root (h : s.Focus ctx t) : s.Focus [] (plug ctx t) := by
  induction ctx generalizing t with
  | nil => exact h
  | cons f ctx ih => exact ih h.up

/-! ### Reading the links -/

lemma Focus.parent (h : s.Focus ctx (branch side t i u)) : s.parent i = s.top ctx :=
  (shape_branch.mp h.shape).1

/-- The node above, read from the pointer. -/
lemma Focus.parent_ptr (h : s.Focus ctx t) (ht : t ≠ .nil) : s.parent (s.ptr t) = s.top ctx := by
  cases t with
  | nil => exact absurd rfl ht
  | node l i r => exact h.shape.1

lemma Focus.child (h : s.Focus ctx (branch side t i u)) : s.child side i = s.ptr t :=
  (shape_branch.mp h.shape).2.1

lemma Focus.hole (h : s.Focus ctx t) : s.child (holeSide ctx) (s.top ctx) = s.ptr t := by
  cases ctx with
  | nil => exact h.around
  | cons f ctx => exact h.around.1

lemma Focus.sibling (h : s.Focus (f :: ctx) t) : s.child f.side.other f.node = s.ptr f.sibling :=
  h.around.2.1

lemma Focus.top_parent (h : s.Focus (f :: ctx) t) : s.parent f.node = s.top ctx :=
  h.around.2.2.1

lemma Focus.ne_nill (h : s.Focus ctx t) (hi : i ∈ t.inorder ∨ i ∈ BinTree.around ctx) :
    i ≠ s.nill := by
  rintro rfl
  exact (List.nodup_cons.mp (List.nodup_cons.mp h.nodup).2).1 (List.mem_append.mpr hi)

lemma Focus.ne_rootPtr (h : s.Focus ctx t) (hi : i ∈ t.inorder ∨ i ∈ BinTree.around ctx) :
    i ≠ s.rootPtr := by
  rintro rfl
  exact (List.nodup_cons.mp h.nodup).1 (List.mem_cons_of_mem _ (List.mem_append.mpr hi))

/-- The root is a left child, so the other link of the node above it leads to no tree. -/
lemma Focus.not_right_top (h : s.Focus ctx t) :
    ¬ (Side.right = holeSide ctx ∧ s.rootPtr = s.top ctx) := by
  rintro ⟨hside, heq⟩
  cases ctx with
  | nil => cases hside
  | cons f ctx => exact h.ne_rootPtr (.inr List.mem_cons_self) heq.symm

lemma Focus.not_mem_around (h : s.Focus ctx t) (hi : i ∈ t.inorder) : i ∉ BinTree.around ctx := by
  have hnodup := (List.nodup_cons.mp (List.nodup_cons.mp h.nodup).2).2
  exact fun hi' => (List.nodup_append.mp hnodup).2.2 i hi i hi' rfl

lemma Focus.nodup_inorder (h : s.Focus ctx t) : t.inorder.Nodup :=
  (List.nodup_append.mp (List.nodup_cons.mp (List.nodup_cons.mp h.nodup).2).2).1

lemma Focus.nodup_around (h : s.Focus ctx t) : (s.rootPtr :: BinTree.around ctx).Nodup := by
  have hsub : (s.rootPtr :: BinTree.around ctx).Sublist
      (s.rootPtr :: s.nill :: (t.inorder ++ BinTree.around ctx)) :=
    (((List.sublist_append_right _ _).cons _)).cons_cons _
  exact h.nodup.sublist hsub

lemma Focus.nodup_sibling (h : s.Focus (f :: ctx) t) : f.sibling.inorder.Nodup :=
  (List.nodup_append.mp (List.nodup_cons.mp (List.nodup_cons.mp h.nodup_around).2).2).1

/-- A frame in the order, without repetition. -/
lemma Focus.nodup_frame (h : s.Focus (f :: ctx) t) :
    f.node ∉ f.sibling.inorder ∧ f.node ∉ BinTree.around ctx := by
  have hnodup := (List.nodup_cons.mp h.nodup_around).2
  have hnot := (List.nodup_cons.mp hnodup).1
  exact ⟨fun hi => hnot (List.mem_append_left _ hi), fun hi => hnot (List.mem_append_right _ hi)⟩

/-- **On which side** the place is: the pointer is compared with the left child of the node above. At
least one of the two children is a node. -/
lemma Focus.ptr_eq_child (h : s.Focus (f :: ctx) t) (hne : t ≠ .nil ∨ f.sibling ≠ .nil)
    (side : Side) : s.ptr t = s.child side f.node ↔ f.side = side := by
  constructor
  · intro heq
    by_contra hside
    have hother : side = f.side.other := by
      rcases Side.eq_or_other side f.side with h' | h'
      · exact absurd h'.symm hside
      · exact h'
    subst hother
    rw [h.sibling] at heq
    -- a node is not in two trees, and not the sentinel
    rcases s.ptr_mem t with ⟨rfl, ht⟩ | ⟨-, ht⟩ <;> rcases s.ptr_mem f.sibling with ⟨hs, hs'⟩ | ⟨-, hs'⟩
    · exact hne.elim (fun h => h rfl) fun h => h hs
    · refine h.ne_nill (i := s.ptr f.sibling) (Or.inr ?_) (heq.symm.trans ht)
      exact List.mem_cons_of_mem _ (List.mem_append_left _ hs')
    · exact h.ne_nill (Or.inl ht) (heq.trans hs')
    · refine h.not_mem_around ht ?_
      rw [heq]
      exact List.mem_cons_of_mem _ (List.mem_append_left _ hs')
  · rintro rfl
    exact h.around.1.symm

/-- The node above a place. -/
lemma top_mem (s : TreeLinks ν) (ctx : List (TreeFrame ν)) : s.top ctx ∈ s.rootPtr :: BinTree.around ctx := by
  cases ctx with
  | nil => exact List.mem_cons_self
  | cons f ctx => exact List.mem_cons_of_mem _ List.mem_cons_self

/-- **On which side** a node is. The root is a left child. -/
lemma Focus.eq_left_iff (h : s.Focus ctx t) (ht : t ≠ .nil) :
    s.ptr t = s.child .left (s.top ctx) ↔ holeSide ctx = .left := by
  cases ctx with
  | nil => exact iff_of_true h.around.symm rfl
  | cons f ctx => exact h.ptr_eq_child (.inl ht) .left

end TreeLinks

end Ocoms
