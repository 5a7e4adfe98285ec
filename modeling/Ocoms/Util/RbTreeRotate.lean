import Ocoms.Util.RbTree

/-!
The rotations of the red-black tree.

* `TreeLinks.rotate_eq`: the links after a rotation.
* `TreeLinks.Focus.rotate`: the tree after a rotation, at any place.
-/

namespace Ocoms

open BinTree

namespace TreeLinks

variable {ν : Type*} [DecidableEq ν] {s s' : TreeLinks ν} {ctx : List (TreeFrame ν)} {t u v : BinTree ν}
  {x y p b : ν} {side hole : Side}

@[simp]
lemma setChild_child (s : TreeLinks ν) (side side' : Side) (i j k : ν) :
    (s.setChild side i j).child side' k = if side' = side ∧ k = i then j else s.child side' k := by
  by_cases hs : side' = side
  · subst hs
    by_cases hk : k = i <;> simp [setChild, Function.update, hk]
  · simp [setChild, Function.update, hs]

@[simp]
lemma setParent_child (s : TreeLinks ν) (i p : ν) : (s.setParent i p).child = s.child :=
  rfl

@[simp]
lemma setParent_parent (s : TreeLinks ν) (i p k : ν) :
    (s.setParent i p).parent k = if k = i then p else s.parent k := by
  simp [setParent, Function.update]

/-- **The links after a rotation** of `x`, whose child `y` comes to its place. -/
lemma rotate_eq (hy : s.child side.other x = y) (hb : s.child side y = b) (hp : s.parent x = p)
    (hbx : b ≠ x) (hpy : p ≠ y)
    (hhole : x = s.child .left p ↔ hole = .left) :
    (∀ j, (s.rotate side x).parent j =
      if j = x then y else if j = y then p else if j = b ∧ b ≠ s.nill then x else s.parent j) ∧
    ∀ sd j, (s.rotate side x).child sd j =
      if j = y ∧ sd = side then x else if j = x ∧ sd = side.other then b
      else if j = p ∧ sd = hole then y else s.child sd j := by
  have hne : side.other ≠ side := side.other_ne
  -- the first two writes
  obtain ⟨s₁, hs₁⟩ : ∃ s₁, s₁ = if s.child side y ≠ s.nill then s.setParent (s.child side y) x else s :=
    ⟨_, rfl⟩
  have hparent₁ : ∀ j, s₁.parent j = if j = b ∧ b ≠ s.nill then x else s.parent j := by
    intro j
    rw [hs₁, hb]
    split_ifs <;> simp_all
  have hchild₁ : s₁.child = s.child := by
    rw [hs₁]
    split_ifs <;> rfl
  obtain ⟨s₂, hs₂⟩ : ∃ s₂, s₂ = if x = s₁.child .left (s₁.parent x) then
      s₁.setChild .left (s₁.parent x) y else s₁.setChild .right (s₁.parent x) y := ⟨_, rfl⟩
  have hp₁ : s₁.parent x = p := by
    rw [hparent₁, if_neg (fun h => hbx h.1.symm), hp]
  have hparent₂ : s₂.parent = s₁.parent := by
    rw [hs₂]
    split_ifs <;> rfl
  have hchild₂ : ∀ sd j, s₂.child sd j = if j = p ∧ sd = hole then y else s.child sd j := by
    intro sd j
    rw [hs₂, hp₁, hchild₁]
    cases hole with
    | left =>
        rw [if_pos (hhole.mpr rfl), setChild_child, hchild₁]
        simp only [and_comm]
    | right =>
        rw [if_neg (fun h => by cases hhole.mp h), setChild_child, hchild₁]
        simp only [and_comm]
  have hrotate : s.rotate side x = (((s₂.setParent y p).setParent x y).setChild side.other x b).setChild
      side y x := by
    have hsame : s₂.child side y = b := by
      rw [hchild₂, if_neg (fun h => hpy h.1.symm), hb]
    have hp₂ : s₂.parent x = p := by
      rw [hparent₂, hp₁]
    simp only [rotate, hy]
    rw [← hs₁, ← hs₂]
    simp only [setParent, hp₂, hsame]
  rw [hrotate]
  constructor
  · intro j
    show (((s₂.setParent y p).setParent x y)).parent j = _
    rw [setParent_parent, setParent_parent, hparent₂, hparent₁]
  · intro sd j
    rw [setChild_child, setChild_child]
    show (if sd = side ∧ j = y then x else if sd = side.other ∧ j = x then b else s₂.child sd j) = _
    rw [hchild₂]
    simp only [and_comm]

@[simp]
lemma rotate_nill (s : TreeLinks ν) (side : Side) (x : ν) : (s.rotate side x).nill = s.nill := by
  unfold rotate
  dsimp only [setParent, setChild]
  split_ifs <;> rfl

@[simp]
lemma rotate_rootPtr (s : TreeLinks ν) (side : Side) (x : ν) :
    (s.rotate side x).rootPtr = s.rootPtr := by
  unfold rotate
  dsimp only [setParent, setChild]
  split_ifs <;> rfl

/-- **A rotation** at any place. The child `y` of `x` comes to its place. -/
theorem Focus.rotate (h : s.Focus ctx (branch side t x (branch side u y v))) :
    (s.rotate side x).Focus ctx (branch side (branch side t x u) y v) ∧
      (s.rotate side x).parent s.nill = s.parent s.nill ∧
      (s.rotate side x).child .right s.rootPtr = s.child .right s.rootPtr := by
  have hnodup : (branch side t x (branch side u y v)).inorder
      = (branch side (branch side t x u) y v).inorder := (inorder_rotate _ _ _ _ _ _).symm
  have hperm := ((((perm_inorder_branch side t x (branch side u y v)).trans
    (((perm_inorder_branch side u y v).append_left t.inorder).cons x)).append_right
    (BinTree.around ctx)).cons s.nill).cons s.rootPtr
  have hall := hperm.nodup_iff.mp h.nodup
  obtain ⟨hp, ht, hy, ht', hw⟩ := shape_branch.mp h.shape
  obtain ⟨hpy, hu, hv, hu', hv'⟩ := shape_branch.mp hw
  rw [ptr_branch] at hy
  have hside := h.eq_left_iff (branch_ne_nil _ _ _ _)
  rw [ptr_branch] at hside
  have htop := s.top_mem ctx
  have hptr := s.ptr_mem u
  -- all nodes are different
  simp only [List.nodup_cons, List.nodup_append, List.mem_cons, List.mem_append, List.cons_append,
    not_or] at hall htop
  obtain ⟨hroot, hnill, hx, hrest⟩ := hall
  have hbx : s.ptr u ≠ x := by grind
  have hpy' : s.top ctx ≠ y := by grind
  obtain ⟨hparent, hchild⟩ := rotate_eq hy hu hp hbx hpy' hside
  have hnill' : (s.rotate side x).nill = s.nill := rotate_nill s side x
  have hroot' : (s.rotate side x).rootPtr = s.rootPtr := rotate_rootPtr s side x
  have hfix : ∀ j, j ≠ x → j ≠ y → (j = s.ptr u → s.ptr u = s.nill) →
      (s.rotate side x).parent j = s.parent j := by
    intro j hjx hjy hju
    rw [hparent, if_neg hjx, if_neg hjy, if_neg fun h => h.2 (hju h.1)]
  have hfixc : ∀ sd j, j ≠ x → j ≠ y → j ≠ s.top ctx →
      (s.rotate side x).child sd j = s.child sd j := by
    intro sd j hjx hjy hjp
    rw [hchild, if_neg fun h => hjy h.1, if_neg fun h => hjx h.1, if_neg fun h => hjp h.1]
  have hxy : x ≠ y := by grind
  have hne := side.other_ne
  have hright : ¬ (s.rootPtr = s.top ctx ∧ Side.right = holeSide ctx) :=
    mt And.symm h.not_right_top
  refine ⟨⟨?_, ?_, ?_⟩, hfix _ (by grind) (by grind) fun h => h.symm, ?_⟩
  · rw [top_congr hroot']
    refine shape_branch.mpr ⟨?_, ?_, ?_, shape_branch.mpr ⟨?_, ?_, ?_, ?_, ?_⟩, ?_⟩
    · rw [hparent, if_neg hxy.symm, if_pos rfl]
    · rw [hchild, if_pos ⟨rfl, rfl⟩, ptr_branch]
    · rw [hchild, if_neg fun h => hne h.2, if_neg fun h => hxy h.1.symm,
        if_neg fun h => hpy' h.1.symm, hv, ptr_congr hnill']
    · rw [hparent, if_pos rfl]
    · rw [hchild, if_neg fun h => hxy h.1, if_neg fun h => hne h.2.symm, if_neg ?_, ht,
        ptr_congr hnill']
      grind
    · rw [hchild, if_neg fun h => hxy h.1, if_pos ⟨rfl, rfl⟩, ptr_congr hnill']
    · exact ht'.congr hnill' (fun j hj => hfix j (by grind) (by grind) (by grind))
        fun sd j hj => hfixc sd j (by grind) (by grind) (by grind)
    · refine hu'.reparent hnill' (fun hne => ?_) (fun j hj hju => hfix j (by grind) (by grind) (by grind))
        (fun sd j hj => hfixc sd j (by grind) (by grind) (by grind)) (by grind)
      rw [hparent, if_neg hbx, if_neg (by grind), if_pos ⟨rfl, by grind⟩]
    · exact hv'.congr hnill' (fun j hj => hfix j (by grind) (by grind) (by grind))
        fun sd j hj => hfixc sd j (by grind) (by grind) (by grind)
  · refine h.around.relink hnill' hroot' h.nodup_around ?_ ?_ (fun j hj => ?_) fun sd j hj hjp => ?_
    · rw [hchild, if_neg fun h => hpy' h.1, if_neg (by grind), if_pos ⟨rfl, rfl⟩, ptr_branch]
    · rw [hchild, if_neg fun h => hpy' h.1, if_neg (by grind), if_neg fun h => (holeSide ctx).other_ne h.2]
    · exact hfix j (by grind) (by grind) (by grind)
    · rw [List.mem_cons] at hj
      exact hfixc sd j (by grind) (by grind) hjp
  · rw [hnill', hroot', ← hnodup]
    exact h.nodup
  · rw [hchild, if_neg (by grind), if_neg (by grind), if_neg hright]

/-- The mirror image. -/
theorem Focus.rotateOther (h : s.Focus ctx (branch side (branch side v y u) x t)) :
    (s.rotate side.other x).Focus ctx (branch side v y (branch side u x t)) ∧
      (s.rotate side.other x).parent s.nill = s.parent s.nill ∧
      (s.rotate side.other x).child .right s.rootPtr = s.child .right s.rootPtr := by
  have hmirror : s.Focus ctx (branch side.other t x (branch side.other u y v)) := by
    rw [branch_other, branch_other]
    exact h
  have hrot := hmirror.rotate
  rw [branch_other, branch_other] at hrot
  exact hrot

end TreeLinks

namespace RbTree

variable {ν κ β : Type*}

/-- What the rotations and the colours do not change. -/
structure Same (s s' : RbTree ν κ β) : Prop where
  rootPtr : s'.rootPtr = s.rootPtr
  nill : s'.nill = s.nill
  treeSize : s'.treeSize = s.treeSize
  comp : s'.comp = s.comp
  key : s'.key = s.key
  value : s'.value = s.value

/-- **The tree in memory**, seen from a place. The two nodes that are not in the tree are black. The one
above the root has no right child. -/
structure At (s : RbTree ν κ β) (ctx : List (TreeFrame ν)) (t : BinTree ν) : Prop where
  focus : s.toTreeLinks.Focus ctx t
  nillBlack : s.color s.nill = .black
  rootBlack : s.color s.rootPtr = .black
  rootRight : s.child .right s.rootPtr = s.nill

variable {s s' s'' : RbTree ν κ β} {ctx : List (TreeFrame ν)} {f : TreeFrame ν} {t u v : BinTree ν}
  {x y i : ν} {side : Side} {c : NodeColor}

lemma Same.refl (s : RbTree ν κ β) : s.Same s :=
  ⟨rfl, rfl, rfl, rfl, rfl, rfl⟩

lemma Same.trans (h : s.Same s') (h' : s'.Same s'') : s.Same s'' :=
  ⟨h'.rootPtr.trans h.rootPtr, h'.nill.trans h.nill, h'.treeSize.trans h.treeSize,
    h'.comp.trans h.comp, h'.key.trans h.key, h'.value.trans h.value⟩

/-- The colour of a subtree is read from its pointer. -/
lemma At.color_ptr (h : s.At ctx t) (u : BinTree ν) : s.color (s.ptr u) = u.rootColor s.color := by
  cases u with
  | nil => exact h.nillBlack
  | node l i r => rfl

/-- The colour of the node above. -/
lemma At.color_top (h : s.At ctx t) : s.color (s.top ctx) = parentColor s.color ctx := by
  cases ctx with
  | nil => exact h.rootBlack
  | cons f ctx => rfl

lemma At.up (h : s.At (f :: ctx) t) : s.At ctx (branch f.side t f.node f.sibling) :=
  ⟨h.focus.up, h.nillBlack, h.rootBlack, h.rootRight⟩

lemma At.down (side : Side) (h : s.At ctx (branch side t i u)) : s.At (⟨side, i, u⟩ :: ctx) t :=
  ⟨h.focus.down side, h.nillBlack, h.rootBlack, h.rootRight⟩

lemma At.root (h : s.At ctx t) : s.At [] (plug ctx t) :=
  ⟨h.focus.root, h.nillBlack, h.rootBlack, h.rootRight⟩

/-- Only the links and the colours matter. -/
lemma At.congr (h : s.At ctx t) (hlinks : s'.toTreeLinks = s.toTreeLinks)
    (hcolor : s'.color = s.color) : s'.At ctx t := by
  refine ⟨hlinks ▸ h.focus, ?_, ?_, hlinks ▸ h.rootRight⟩
  · rw [hlinks, hcolor]
    exact h.nillBlack
  · rw [hlinks, hcolor]
    exact h.rootBlack

variable [DecidableEq ν]

@[simp]
lemma setColor_color (s : RbTree ν κ β) (i : ν) (c : NodeColor) (j : ν) :
    (s.setColor i c).color j = if j = i then c else s.color j := by
  simp [setColor, Function.update]

@[simp]
lemma setColor_toTreeLinks (s : RbTree ν κ β) (i : ν) (c : NodeColor) :
    (s.setColor i c).toTreeLinks = s.toTreeLinks :=
  rfl

@[simp]
lemma rotate_toTreeLinks (s : RbTree ν κ β) (side : Side) (x : ν) :
    (s.rotate side x).toTreeLinks = s.toTreeLinks.rotate side x :=
  rfl

@[simp]
lemma rotate_color (s : RbTree ν κ β) (side : Side) (x : ν) : (s.rotate side x).color = s.color :=
  rfl

lemma same_setColor (s : RbTree ν κ β) (i : ν) (c : NodeColor) : s.Same (s.setColor i c) :=
  ⟨rfl, rfl, rfl, rfl, rfl, rfl⟩

lemma same_rotate (s : RbTree ν κ β) (side : Side) (x : ν) : s.Same (s.rotate side x) :=
  ⟨TreeLinks.rotate_rootPtr _ _ _, TreeLinks.rotate_nill _ _ _, rfl, rfl, rfl, rfl⟩

/-- Only a node of the tree becomes red. -/
lemma At.setColor (h : s.At ctx t) (hi : c = .black ∨ i ≠ s.nill ∧ i ≠ s.rootPtr) :
    (s.setColor i c).At ctx t := by
  refine ⟨h.focus, ?_, ?_, h.rootRight⟩
  · show (s.setColor i c).color s.nill = .black
    rw [setColor_color]
    split_ifs with heq
    · exact hi.resolve_right fun h => h.1 heq.symm
    · exact h.nillBlack
  · show (s.setColor i c).color s.rootPtr = .black
    rw [setColor_color]
    split_ifs with heq
    · exact hi.resolve_right fun h => h.2 heq.symm
    · exact h.rootBlack

lemma At.rotate (h : s.At ctx (branch side t x (branch side u y v))) :
    (s.rotate side x).At ctx (branch side (branch side t x u) y v) := by
  refine ⟨h.focus.rotate.1, ?_, ?_, ?_⟩
  · rw [(same_rotate s side x).nill]
    exact h.nillBlack
  · rw [(same_rotate s side x).rootPtr]
    exact h.rootBlack
  · rw [(same_rotate s side x).rootPtr, (same_rotate s side x).nill]
    exact h.focus.rotate.2.2.trans h.rootRight

/-- The mirror image. -/
lemma At.rotateOther (h : s.At ctx (branch side (branch side v y u) x t)) :
    (s.rotate side.other x).At ctx (branch side v y (branch side u x t)) := by
  refine ⟨h.focus.rotateOther.1, ?_, ?_, ?_⟩
  · rw [(same_rotate s side.other x).nill]
    exact h.nillBlack
  · rw [(same_rotate s side.other x).rootPtr]
    exact h.rootBlack
  · rw [(same_rotate s side.other x).rootPtr, (same_rotate s side.other x).nill]
    exact h.focus.rotateOther.2.2.trans h.rootRight

end RbTree

end Ocoms
