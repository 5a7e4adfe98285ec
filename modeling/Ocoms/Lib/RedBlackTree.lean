import Mathlib.Algebra.Group.Nat.Defs
import Mathlib.Data.List.Nodup
import Mathlib.Data.List.Perm.Basic

/-!
Binary trees, the places in them, and the balance of red-black trees.

* `BinTree` has nodes of any type. `BinTree.branch` is a node seen from one of its sides, so that one
  lemma is about a rotation and its mirror image.
* `TreeFrame` and `BinTree.plug`: the way from a subtree up to the root.
* `RedBlack` is the balance of a subtree, for colours that are kept outside of the tree. `HoleOk` is
  the balance of all that is around a subtree, and `HoleOk.plug` puts both together.
-/

namespace Ocoms

/-! ### Trees and places -/

/-- The two sides of a node. -/
inductive Side
  | left
  | right
  deriving DecidableEq

namespace Side

/-- The mirror image. -/
def other : Side → Side
  | .left => .right
  | .right => .left

@[simp]
lemma other_other (side : Side) : side.other.other = side := by
  cases side <;> rfl

lemma other_ne (side : Side) : side.other ≠ side := by
  cases side <;> exact fun h => by cases h

/-- There are two sides. -/
lemma eq_or_other (side side' : Side) : side = side' ∨ side = side'.other := by
  cases side <;> cases side' <;> first | exact Or.inl rfl | exact Or.inr rfl

end Side

/-- Binary trees. -/
inductive BinTree (ν : Type*)
  | nil
  | node (l : BinTree ν) (i : ν) (r : BinTree ν)

/-- A node above a subtree: the subtree is at `side`, and `sibling` is at the other side. -/
structure TreeFrame (ν : Type*) where
  side : Side
  node : ν
  sibling : BinTree ν

namespace BinTree

variable {ν : Type*}

/-- The nodes from the left to the right. -/
def inorder : BinTree ν → List ν
  | nil => []
  | node l i r => l.inorder ++ i :: r.inorder

/-- A node with `t` at `side` and `u` at the other side. -/
def branch : Side → BinTree ν → ν → BinTree ν → BinTree ν
  | .left, t, i, u => node t i u
  | .right, t, i, u => node u i t

lemma branch_other (side : Side) (t : BinTree ν) (i : ν) (u : BinTree ν) :
    branch side.other t i u = branch side u i t := by
  cases side <;> rfl

/-- A node, seen from any side. -/
lemma exists_branch (side : Side) (l : BinTree ν) (i : ν) (r : BinTree ν) :
    ∃ t u, node l i r = branch side t i u := by
  cases side
  · exact ⟨l, r, rfl⟩
  · exact ⟨r, l, rfl⟩

lemma branch_ne_nil (side : Side) (t : BinTree ν) (i : ν) (u : BinTree ν) :
    branch side t i u ≠ nil := by
  cases side <;> exact fun h => by cases h

lemma mem_inorder_branch {side : Side} {t u : BinTree ν} {i j : ν} :
    j ∈ (branch side t i u).inorder ↔ j = i ∨ j ∈ t.inorder ∨ j ∈ u.inorder := by
  cases side <;> simp only [branch, inorder, List.mem_append, List.mem_cons] <;> tauto

lemma perm_inorder_branch (side : Side) (t : BinTree ν) (i : ν) (u : BinTree ν) :
    (branch side t i u).inorder.Perm (i :: (t.inorder ++ u.inorder)) := by
  cases side with
  | left => exact List.perm_middle
  | right => exact List.perm_middle.trans (List.perm_append_comm.cons i)

/-- **A rotation** keeps the order of the nodes. -/
lemma inorder_rotate (side : Side) (t u v : BinTree ν) (i j : ν) :
    (branch side (branch side t i u) j v).inorder = (branch side t i (branch side u j v)).inorder := by
  cases side <;> simp [branch, inorder]

/-- The order depends only on the order of the subtrees. -/
lemma inorder_branch_congr (side : Side) {t u u' : BinTree ν} {i : ν} (h : u.inorder = u'.inorder) :
    (branch side t i u).inorder = (branch side t i u').inorder := by
  cases side <;> simp only [branch, inorder, h]

/-- The whole tree, when `t` is at the place. -/
def plug : List (TreeFrame ν) → BinTree ν → BinTree ν
  | [], t => t
  | f :: ctx, t => plug ctx (branch f.side t f.node f.sibling)

/-- The nodes to the left of a place. -/
def before : List (TreeFrame ν) → List ν
  | [] => []
  | f :: ctx =>
      match f.side with
      | .left => before ctx
      | .right => before ctx ++ (f.sibling.inorder ++ [f.node])

/-- The nodes to the right of a place. -/
def after : List (TreeFrame ν) → List ν
  | [] => []
  | f :: ctx =>
      match f.side with
      | .left => f.node :: (f.sibling.inorder ++ after ctx)
      | .right => after ctx

/-- The nodes around a place. -/
def around : List (TreeFrame ν) → List ν
  | [] => []
  | f :: ctx => f.node :: (f.sibling.inorder ++ around ctx)

/-- The order of the nodes, split at a place. -/
lemma inorder_plug (ctx : List (TreeFrame ν)) (t : BinTree ν) :
    (plug ctx t).inorder = before ctx ++ (t.inorder ++ after ctx) := by
  induction ctx generalizing t with
  | nil => simp [plug, before, after]
  | cons f ctx ih =>
      rw [plug, ih]
      obtain ⟨side, node, sibling⟩ := f
      cases side <;> simp [branch, inorder, before, after]

/-- What is around a place adds the same to the order. -/
lemma inorder_plug_congr {ctx : List (TreeFrame ν)} {t u : BinTree ν} (h : t.inorder = u.inorder) :
    (plug ctx t).inorder = (plug ctx u).inorder := by
  rw [inorder_plug, inorder_plug, h]

lemma perm_plug (ctx : List (TreeFrame ν)) (t : BinTree ν) :
    (plug ctx t).inorder.Perm (t.inorder ++ around ctx) := by
  induction ctx generalizing t with
  | nil => simp [plug, around]
  | cons f ctx ih =>
      refine (ih _).trans (((perm_inorder_branch _ _ _ _).append_right _).trans ?_)
      rw [around, List.cons_append, List.append_assoc]
      exact List.perm_middle.symm

end BinTree

open BinTree

/-! ### Balance -/

/-- The colours of the nodes. -/
inductive NodeColor
  | red
  | black
  deriving DecidableEq

namespace BinTree

variable {ν : Type*}

/-- The colour of the root. An empty tree is black. -/
def rootColor (color : ν → NodeColor) : BinTree ν → NodeColor
  | nil => .black
  | node _ i _ => color i

@[simp]
lemma rootColor_branch (color : ν → NodeColor) (side : Side) (t : BinTree ν) (i : ν)
    (u : BinTree ν) : (branch side t i u).rootColor color = color i := by
  cases side <;> rfl

lemma rootColor_congr {color color' : ν → NodeColor} {t : BinTree ν}
    (h : ∀ i ∈ t.inorder, color' i = color i) : t.rootColor color' = t.rootColor color := by
  cases t with
  | nil => rfl
  | node l i r => exact h i (List.mem_append_right _ List.mem_cons_self)

end BinTree

/-- **Balance**: no red node has a red child, and there are `n` black nodes on the way to each end of
the tree. -/
inductive RedBlack {ν : Type*} (color : ν → NodeColor) : ℕ → BinTree ν → Prop
  | nil : RedBlack color 0 .nil
  | red {n : ℕ} {l r : BinTree ν} {i : ν} : color i = .red → l.rootColor color = .black →
      r.rootColor color = .black → RedBlack color n l → RedBlack color n r →
      RedBlack color n (.node l i r)
  | black {n : ℕ} {l r : BinTree ν} {i : ν} : color i = .black → RedBlack color n l →
      RedBlack color n r → RedBlack color (n + 1) (.node l i r)

section Balance

variable {ν : Type*} {color color' : ν → NodeColor} {n : ℕ} {side : Side} {t u : BinTree ν} {i : ν}
  {f : TreeFrame ν} {ctx : List (TreeFrame ν)}

lemma RedBlack.congr (h : RedBlack color n t) (hcolor : ∀ i ∈ t.inorder, color' i = color i) :
    RedBlack color' n t := by
  induction h with
  | nil => exact .nil
  | @red n l r i hi hl hr _ _ ihl ihr =>
      have hleft : ∀ j ∈ l.inorder, color' j = color j := fun j hj =>
        hcolor j (List.mem_append_left _ hj)
      have hright : ∀ j ∈ r.inorder, color' j = color j := fun j hj =>
        hcolor j (List.mem_append_right _ (List.mem_cons_of_mem _ hj))
      refine .red ?_ ?_ ?_ (ihl hleft) (ihr hright)
      · rw [hcolor i (List.mem_append_right _ List.mem_cons_self), hi]
      · rw [rootColor_congr hleft, hl]
      · rw [rootColor_congr hright, hr]
  | @black n l r i hi _ _ ihl ihr =>
      refine .black ?_ (ihl fun j hj => hcolor j (List.mem_append_left _ hj))
        (ihr fun j hj => hcolor j (List.mem_append_right _ (List.mem_cons_of_mem _ hj)))
      rw [hcolor i (List.mem_append_right _ List.mem_cons_self), hi]

lemma RedBlack.redBranch (side : Side) (hi : color i = .red) (ht : t.rootColor color = .black)
    (hu : u.rootColor color = .black) (h : RedBlack color n t) (h' : RedBlack color n u) :
    RedBlack color n (branch side t i u) := by
  cases side
  · exact .red hi ht hu h h'
  · exact .red hi hu ht h' h

lemma RedBlack.blackBranch (side : Side) (hi : color i = .black) (h : RedBlack color n t)
    (h' : RedBlack color n u) : RedBlack color (n + 1) (branch side t i u) := by
  cases side
  · exact .black hi h h'
  · exact .black hi h' h

/-- A red node. -/
lemma RedBlack.of_red (h : RedBlack color n (branch side t i u)) (hi : color i = .red) :
    t.rootColor color = .black ∧ u.rootColor color = .black ∧ RedBlack color n t ∧
      RedBlack color n u := by
  cases side with
  | left =>
      cases h with
      | red _ hl hr h h' => exact ⟨hl, hr, h, h'⟩
      | black hb => exact absurd (hi.symm.trans hb) (fun h => by cases h)
  | right =>
      cases h with
      | red _ hl hr h h' => exact ⟨hr, hl, h', h⟩
      | black hb => exact absurd (hi.symm.trans hb) (fun h => by cases h)

/-- A black node. -/
lemma RedBlack.of_black (h : RedBlack color n (branch side t i u)) (hi : color i = .black) :
    ∃ m, n = m + 1 ∧ RedBlack color m t ∧ RedBlack color m u := by
  cases side with
  | left =>
      cases h with
      | red hr => exact absurd (hi.symm.trans hr) (fun h => by cases h)
      | black _ h h' => exact ⟨_, rfl, h, h'⟩
  | right =>
      cases h with
      | red hr => exact absurd (hi.symm.trans hr) (fun h => by cases h)
      | black _ h h' => exact ⟨_, rfl, h', h⟩

/-- **A red root becomes black**: there is one more black node on each way. -/
lemma RedBlack.blacken (h : RedBlack color n (branch side t i u)) (hi : color i = .red)
    (hi' : color' i = .black)
    (hcolor : ∀ j ∈ (branch side t i u).inorder, j ≠ i → color' j = color j)
    (hnodup : (branch side t i u).inorder.Nodup) : RedBlack color' (n + 1) (branch side t i u) := by
  obtain ⟨-, -, ht, hu⟩ := h.of_red hi
  have hnot := (List.nodup_cons.mp ((perm_inorder_branch side t i u).nodup_iff.mp hnodup)).1
  refine .blackBranch side hi' (ht.congr fun j hj => ?_) (hu.congr fun j hj => ?_)
  · refine hcolor j (mem_inorder_branch.mpr (.inr (.inl hj))) fun heq => ?_
    exact hnot (heq ▸ List.mem_append_left _ hj)
  · refine hcolor j (mem_inorder_branch.mpr (.inr (.inr hj))) fun heq => ?_
    exact hnot (heq ▸ List.mem_append_right _ hj)

/-- A tree with a red root is not empty. -/
lemma exists_branch_of_red (h : t.rootColor color = .red) (side : Side) :
    ∃ u i v, t = branch side u i v ∧ color i = .red := by
  cases t with
  | nil => cases h
  | node l i r =>
      obtain ⟨u, v, huv⟩ := BinTree.exists_branch side l i r
      exact ⟨u, i, v, huv, h⟩

/-- A tree with black nodes on the way is not empty. -/
lemma RedBlack.exists_branch (h : RedBlack color (n + 1) t) (side : Side) :
    ∃ u i v, t = branch side u i v := by
  cases t with
  | nil => cases h
  | node l i r =>
      obtain ⟨u, v, huv⟩ := BinTree.exists_branch side l i r
      exact ⟨u, i, v, huv⟩

/-- The node above the place. -/
def parentColor (color : ν → NodeColor) : List (TreeFrame ν) → NodeColor
  | [] => .black
  | f :: _ => color f.node

/-- **The balance around a place**: a black subtree with `n` black nodes on each way fits there. The
root of the whole tree is black. -/
def HoleOk (color : ν → NodeColor) : List (TreeFrame ν) → ℕ → Prop
  | [], _ => True
  | f :: ctx, n => RedBlack color n f.sibling ∧
      (color f.node = .black ∧ HoleOk color ctx (n + 1) ∨
        color f.node = .red ∧ f.sibling.rootColor color = .black ∧ ctx ≠ [] ∧
          parentColor color ctx = .black ∧ HoleOk color ctx n)

lemma HoleOk.congr (h : HoleOk color ctx n) (hcolor : ∀ i ∈ around ctx, color' i = color i) :
    HoleOk color' ctx n := by
  induction ctx generalizing n with
  | nil => trivial
  | cons f ctx ih =>
      obtain ⟨hsibling, h⟩ := h
      have hf : color' f.node = color f.node := hcolor _ List.mem_cons_self
      have hs : ∀ i ∈ f.sibling.inorder, color' i = color i := fun i hi =>
        hcolor i (List.mem_cons_of_mem _ (List.mem_append_left _ hi))
      have hctx : ∀ i ∈ around ctx, color' i = color i := fun i hi =>
        hcolor i (List.mem_cons_of_mem _ (List.mem_append_right _ hi))
      refine ⟨hsibling.congr hs, h.imp ?_ ?_⟩
      · rintro ⟨hb, h⟩
        exact ⟨hf.trans hb, ih h hctx⟩
      · rintro ⟨hr, hsib, hne, hp, h⟩
        refine ⟨hf.trans hr, (rootColor_congr hs).trans hsib, hne, ?_, ih h hctx⟩
        cases ctx with
        | nil => exact absurd rfl hne
        | cons g ctx => exact (hctx _ List.mem_cons_self).trans hp

/-- Below a black node, there is a black node at the root, too. -/
lemma HoleOk.of_black (h : HoleOk color (f :: ctx) n) (hf : color f.node = .black) :
    RedBlack color n f.sibling ∧ HoleOk color ctx (n + 1) := by
  obtain ⟨hs, ⟨-, h⟩ | ⟨hr, -⟩⟩ := h
  · exact ⟨hs, h⟩
  · exact absurd (hf.symm.trans hr) (fun h => by cases h)

lemma HoleOk.of_red (h : HoleOk color (f :: ctx) n) (hf : color f.node = .red) :
    RedBlack color n f.sibling ∧ f.sibling.rootColor color = .black ∧ ctx ≠ [] ∧
      parentColor color ctx = .black ∧ HoleOk color ctx n := by
  obtain ⟨hs, ⟨hb, -⟩ | ⟨-, h⟩⟩ := h
  · exact absurd (hb.symm.trans hf) (fun h => by cases h)
  · exact ⟨hs, h⟩

/-- **A subtree that fits**: the whole tree is balanced, and its root is black. -/
lemma HoleOk.plug : ∀ {ctx : List (TreeFrame ν)} {n : ℕ} {t : BinTree ν}, HoleOk color ctx n →
    RedBlack color n t → t.rootColor color = .black →
    (plug ctx t).rootColor color = .black ∧ ∃ m, RedBlack color m (plug ctx t)
  | [], n, _, _, ht, hroot => ⟨hroot, n, ht⟩
  | f :: ctx, n, t, h, ht, hroot => by
      cases hf : color f.node with
      | black =>
          obtain ⟨hs, h⟩ := h.of_black hf
          exact h.plug (.blackBranch f.side hf ht hs) ((rootColor_branch _ _ _ _ _).trans hf)
      | red =>
          -- the node above is black
          obtain ⟨hs, hsib, hne, hp, h⟩ := h.of_red hf
          match ctx, hne, hp, h with
          | g :: ctx, _, hp, h =>
              obtain ⟨hs', h⟩ := h.of_black hp
              exact h.plug (.blackBranch g.side hp (.redBranch f.side hf hroot hsib ht hs) hs')
                ((rootColor_branch _ _ _ _ _).trans hp)

/-- A subtree with a red root fits below a black node. -/
lemma HoleOk.plug_of_parent (h : HoleOk color ctx n) (ht : RedBlack color n t) (hne : ctx ≠ [])
    (hparent : parentColor color ctx = .black) :
    (BinTree.plug ctx t).rootColor color = .black ∧ ∃ m, RedBlack color m (BinTree.plug ctx t) := by
  cases ctx with
  | nil => exact absurd rfl hne
  | cons f ctx =>
      obtain ⟨hs, hhole⟩ := h.of_black hparent
      exact hhole.plug (.blackBranch f.side hparent ht hs) ((rootColor_branch _ _ _ _ _).trans hparent)

/-- **A subtree of a balanced tree** is balanced, and so is all that is around it. -/
lemma RedBlack.of_plug (h : RedBlack color n (BinTree.plug ctx t))
    (hroot : (BinTree.plug ctx t).rootColor color = .black) :
    ∃ m, RedBlack color m t ∧ HoleOk color ctx m ∧
      (t.rootColor color = .red → ctx ≠ [] ∧ parentColor color ctx = .black) := by
  induction ctx generalizing t with
  | nil => exact ⟨n, h, trivial, fun hred => absurd (hroot.symm.trans hred) (fun h => by cases h)⟩
  | cons f ctx ih =>
      obtain ⟨m, ht, hhole, hred⟩ := ih h hroot
      rw [rootColor_branch] at hred
      cases hf : color f.node with
      | red =>
          obtain ⟨htb, hsb, ht', hs⟩ := ht.of_red hf
          obtain ⟨hne, hp⟩ := hred hf
          exact ⟨m, ht', ⟨hs, .inr ⟨hf, hsb, hne, hp, hhole⟩⟩,
            fun hred => absurd (htb.symm.trans hred) (fun h => by cases h)⟩
      | black =>
          obtain ⟨k, rfl, ht', hs⟩ := ht.of_black hf
          exact ⟨k, ht', ⟨hs, .inl ⟨hf, hhole⟩⟩, fun _ => ⟨List.cons_ne_nil _ _, hf⟩⟩

/-- **The root becomes black**: the tree stays balanced. -/
lemma RedBlack.blackRoot (h : RedBlack color n (branch side t i u)) (hi : color' i = .black)
    (hcolor : ∀ j ∈ (branch side t i u).inorder, j ≠ i → color' j = color j)
    (hnodup : (branch side t i u).inorder.Nodup) : ∃ m, RedBlack color' m (branch side t i u) := by
  cases hcase : color i with
  | red => exact ⟨n + 1, h.blacken hcase hi hcolor hnodup⟩
  | black =>
      refine ⟨n, h.congr fun j hj => ?_⟩
      by_cases hji : j = i
      · rw [hji, hi, hcase]
      · exact hcolor j hj hji

/-! ### What balance says -/

/-- No red node has a red child. -/
def NoRedRed (color : ν → NodeColor) : BinTree ν → Prop
  | .nil => True
  | .node l i r => (color i = .red → l.rootColor color = .black ∧ r.rootColor color = .black) ∧
      NoRedRed color l ∧ NoRedRed color r

/-- The ways from the root to the ends. -/
def rootPaths : BinTree ν → List (List ν)
  | .nil => [[]]
  | .node l i r => (rootPaths l ++ rootPaths r).map (i :: ·)

lemma RedBlack.noRedRed (h : RedBlack color n t) : NoRedRed color t := by
  induction h with
  | nil => trivial
  | red _ hl hr _ _ ihl ihr => exact ⟨fun _ => ⟨hl, hr⟩, ihl, ihr⟩
  | black hi _ _ ihl ihr => exact ⟨fun hred => (by cases hred.symm.trans hi), ihl, ihr⟩

/-- **All ways have the same number of black nodes.** -/
lemma RedBlack.countP_rootPaths (h : RedBlack color n t) :
    ∀ path ∈ rootPaths t, path.countP (fun i => color i = .black) = n := by
  induction h with
  | nil =>
      intro path hpath
      rw [List.mem_singleton.mp hpath]
      rfl
  | red hi _ _ _ _ ihl ihr =>
      intro path hpath
      obtain ⟨rest, hrest, rfl⟩ := List.mem_map.mp hpath
      rw [List.countP_cons_of_neg (by simp [hi])]
      exact (List.mem_append.mp hrest).elim (ihl rest) (ihr rest)
  | black hi _ _ ihl ihr =>
      intro path hpath
      obtain ⟨rest, hrest, rfl⟩ := List.mem_map.mp hpath
      rw [List.countP_cons_of_pos (by simp [hi])]
      exact congrArg (· + 1) ((List.mem_append.mp hrest).elim (ihl rest) (ihr rest))

/-! ### Depth -/

/-- The nodes on the longest way to an end. -/
def BinTree.depth : BinTree ν → ℕ
  | .nil => 0
  | .node l _ r => max l.depth r.depth + 1

/-- Every second node of a way is black. -/
lemma RedBlack.depth_le (h : RedBlack color n t) :
    t.depth ≤ 2 * n + if t.rootColor color = .red then 1 else 0 := by
  induction h with
  | nil => exact Nat.zero_le _
  | @red n l r i hi hl hr _ _ ihl ihr =>
      have hroot : (BinTree.node l i r).rootColor color = .red := hi
      rw [hl, if_neg (fun h => by cases h)] at ihl
      rw [hr, if_neg (fun h => by cases h)] at ihr
      rw [hroot, if_pos rfl, BinTree.depth]
      omega
  | @black n l r i hi _ _ ihl ihr =>
      rw [BinTree.depth]
      split_ifs at ihl ihr <;> omega

/-- There are enough nodes for all the black ones. -/
lemma RedBlack.pow_le (h : RedBlack color n t) : 2 ^ n ≤ t.inorder.length + 1 := by
  induction h with
  | nil => exact Nat.le_refl 1
  | red _ _ _ _ _ ihl ihr =>
      rw [inorder, List.length_append, List.length_cons]
      omega
  | black _ _ _ ihl ihr =>
      rw [inorder, List.length_append, List.length_cons, Nat.pow_succ]
      omega

/-- **A balanced tree is not deep.** -/
lemma RedBlack.depth_le_log (h : RedBlack color n t) (hroot : t.rootColor color = .black) :
    t.depth ≤ 2 * (t.inorder.length + 1).log2 := by
  have hdepth := h.depth_le
  rw [hroot, if_neg (fun h => by cases h), Nat.add_zero] at hdepth
  have hlog : n ≤ (t.inorder.length + 1).log2 := (Nat.le_log2 (Nat.succ_ne_zero _)).mpr h.pow_le
  omega

end Balance

end Ocoms
