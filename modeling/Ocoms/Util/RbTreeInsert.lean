import Ocoms.Util.RbTreeSearch

/-!
Insertion into the red-black tree.

* `At.insertRound`: one round after an insertion. The node and its parent are red, and everything else
  is balanced.
* `insertFixup_spec`: the rounds end with a balanced tree.
* `insert_spec`: what an insertion does.
-/

namespace Ocoms

open BinTree

namespace RbTree

variable {ν κ β : Type*} {s s' : RbTree ν κ β} {ctx : List (TreeFrame ν)} {f g : TreeFrame ν}
  {t : BinTree ν} {n : ℕ}

/-- The node at the place is red, its children are black, and all else is balanced, too. The node above
may be red. -/
structure RedAt (s : RbTree ν κ β) (ctx : List (TreeFrame ν)) (t : BinTree ν) (n : ℕ) : Prop
    extends s.At ctx t where
  balance : RedBlack s.color n t
  red : t.rootColor s.color = .red
  hole : HoleOk s.color ctx n

/-- **The tree is balanced** when the node above is not red. -/
lemma RedAt.balanced (h : s.RedAt ctx t n) (hparent : parentColor s.color ctx = .black) :
    s.At [] (plug ctx t) ∧ ∃ m, RedBlack s.color m (plug ctx t) := by
  refine ⟨h.toAt.root, ?_⟩
  cases ctx with
  | nil => exact ⟨n, h.balance⟩
  | cons f ctx => exact (h.hole.plug_of_parent h.balance (List.cons_ne_nil _ _) hparent).2

/-- Two red nodes: the one above them is black. -/
lemma RedAt.exists_frames (h : s.RedAt ctx t n) (hparent : parentColor s.color ctx = .red) :
    ∃ f g ctx', ctx = f :: g :: ctx' ∧ s.color f.node = .red ∧ s.color g.node = .black ∧
      RedBlack s.color n f.sibling ∧ f.sibling.rootColor s.color = .black ∧
      RedBlack s.color n g.sibling ∧ HoleOk s.color ctx' (n + 1) := by
  match ctx, h, hparent with
  | f :: ctx', h, hf =>
      obtain ⟨hs, hsib, hne, hp, hhole⟩ := h.hole.of_red hf
      match ctx', hne, hp, hhole with
      | g :: ctx', _, hg, hhole =>
          obtain ⟨hs', hhole'⟩ := hhole.of_black hg
          exact ⟨f, g, ctx', rfl, hf, hg, hs, hsib, hs', hhole'⟩

/-- The nodes at and above a place are different. -/
lemma At.nodup_frames (h : s.At (f :: g :: ctx) t) :
    (f.node ∉ t.inorder ∧ g.node ∉ t.inorder ∧ f.node ≠ g.node ∧
      f.node ∉ f.sibling.inorder ∧ g.node ∉ f.sibling.inorder ∧
      f.node ∉ g.sibling.inorder ∧ g.node ∉ g.sibling.inorder ∧
      f.node ∉ BinTree.around ctx ∧ g.node ∉ BinTree.around ctx) ∧
    ∀ i ∈ g.sibling.inorder, i ∉ t.inorder ∧ i ∉ f.sibling.inorder ∧ i ∉ BinTree.around ctx := by
  have hnodup := h.focus.nodup
  simp only [BinTree.around, List.nodup_cons, List.nodup_append, List.mem_cons, List.mem_append,
    not_or] at hnodup
  grind

/-- The parent and the grandparent of the node. -/
lemma RedAt.parents (h : s.RedAt (f :: g :: ctx) t n) :
    s.parent (s.ptr t) = f.node ∧ s.parent f.node = g.node := by
  have ht : t ≠ .nil := fun hnil => by
    have hred := h.red
    rw [hnil] at hred
    cases hred
  exact ⟨h.focus.parent_ptr ht, h.focus.top_parent⟩

/-- The last round keeps the order of the nodes. -/
lemma inorder_insertLast (hside : f.side = g.side) (t : BinTree ν) :
    (plug (⟨g.side, f.node, branch g.side f.sibling g.node g.sibling⟩ :: ctx) t).inorder
      = (plug (f :: g :: ctx) t).inorder := by
  rw [plug, plug, plug, hside]
  exact inorder_plug_congr (inorder_rotate _ _ _ _ _ _).symm

/-- The round before the last keeps it, too. -/
lemma inorder_insertInner (hside : f.side = g.side.other) (b d : BinTree ν) (x : ν) :
    (plug (⟨g.side, x, d⟩ :: g :: ctx) (branch g.side f.sibling f.node b)).inorder
      = (plug (f :: g :: ctx) (branch g.side b x d)).inorder := by
  show (plug (g :: ctx) (branch g.side (branch g.side f.sibling f.node b) x d)).inorder
    = (plug (g :: ctx) (branch f.side (branch g.side b x d) f.node f.sibling)).inorder
  rw [hside, branch_other]
  exact inorder_plug_congr (inorder_rotate _ _ _ _ _ _)

/-- The frames are no more than the nodes. -/
lemma length_le_around (ctx : List (TreeFrame ν)) : ctx.length ≤ (BinTree.around ctx).length := by
  induction ctx with
  | nil => exact Nat.le_refl _
  | cons f ctx ih =>
      rw [BinTree.around, List.length_cons, List.length_cons, List.length_append]
      omega

variable [DecidableEq ν]

/-- **The last round**, when both nodes are on the same side: the parent comes to the place of the
grandparent. -/
lemma RedAt.insertLast (h : s.RedAt (f :: g :: ctx) t n) (hside : f.side = g.side)
    (hs : RedBlack s.color n f.sibling)
    (hsib : f.sibling.rootColor s.color = .black) (hs' : RedBlack s.color n g.sibling)
    (hsib' : g.sibling.rootColor s.color = .black) (hhole : HoleOk s.color ctx (n + 1)) :
    (((s.setColor f.node .black).setColor g.node .red).rotate g.side.other g.node).RedAt
      (⟨g.side, f.node, branch g.side f.sibling g.node g.sibling⟩ :: ctx) t n := by
  obtain ⟨⟨hft, hgt, hfg, hff, hgf, hfg', hgg, hfctx, hgctx⟩, -⟩ := h.nodup_frames
  obtain ⟨s', hs₁⟩ : ∃ s', s' = (s.setColor f.node .black).setColor g.node .red := ⟨_, rfl⟩
  have hcolor : ∀ i, i ≠ f.node → i ≠ g.node → s'.color i = s.color i := by
    intro i hf hg
    rw [hs₁, setColor_color, if_neg hg, setColor_color, if_neg hf]
  have hf' : s'.color f.node = .black := by
    rw [hs₁, setColor_color, if_neg hfg, setColor_color, if_pos rfl]
  have hg' : s'.color g.node = .red := by
    rw [hs₁, setColor_color, if_pos rfl]
  have hgmem : g.node ∈ BinTree.around (f :: g :: ctx) :=
    List.mem_cons_of_mem _ (List.mem_append_right _ List.mem_cons_self)
  have hat : s'.At (f :: g :: ctx) t := by
    rw [hs₁]
    exact (h.toAt.setColor (.inl rfl)).setColor
      (.inr ⟨h.focus.ne_nill (.inr hgmem), h.focus.ne_rootPtr (.inr hgmem)⟩)
  have hup := hat.up.up
  rw [hside] at hup
  have hrot := hup.rotateOther
  have hsame : ∀ u : BinTree ν, f.node ∉ u.inorder → g.node ∉ u.inorder →
      ∀ i ∈ u.inorder, s'.color i = s.color i := fun u hfu hgu i hi =>
    hcolor i (fun heq => hfu (heq ▸ hi)) (fun heq => hgu (heq ▸ hi))
  have ht := hsame t hft hgt
  have hfs := hsame f.sibling hff hgf
  have hgs := hsame g.sibling hfg' hgg
  rw [← hs₁]
  refine ⟨hrot.down g.side, h.balance.congr ht, (rootColor_congr ht).trans h.red, ?_, .inl ⟨hf', ?_⟩⟩
  · exact .redBranch g.side hg' ((rootColor_congr hfs).trans hsib) ((rootColor_congr hgs).trans hsib')
      (hs.congr hfs) (hs'.congr hgs)
  · exact hhole.congr fun i hi => hcolor i (fun heq => hfctx (heq ▸ hi)) fun heq => hgctx (heq ▸ hi)

/-- **A round with a red uncle**: the grandparent becomes the red node. -/
lemma RedAt.insertRecolor (h : s.RedAt (f :: g :: ctx) t n) (hs : RedBlack s.color n f.sibling)
    (hs' : RedBlack s.color n g.sibling) (hsib' : g.sibling.rootColor s.color = .red)
    (hhole : HoleOk s.color ctx (n + 1)) :
    (((s.setColor f.node .black).setColor (s.ptr g.sibling) .black).setColor g.node .red).RedAt ctx
      (branch g.side (branch f.side t f.node f.sibling) g.node g.sibling) (n + 1) := by
  obtain ⟨⟨hft, hgt, hfg, hff, hgf, hfg', hgg, hfctx, hgctx⟩, hy⟩ := h.nodup_frames
  obtain ⟨u, y, v, huv, hred⟩ := exists_branch_of_red hsib' .left
  have hymem : y ∈ g.sibling.inorder := by
    rw [huv]
    exact mem_inorder_branch.mpr (.inl rfl)
  obtain ⟨hyt, hyf, hyctx⟩ := hy y hymem
  have hyptr : s.ptr g.sibling = y := by
    rw [huv, TreeLinks.ptr_branch]
  rw [hyptr]
  obtain ⟨s', hs₁⟩ : ∃ s', s' = ((s.setColor f.node .black).setColor y .black).setColor g.node .red :=
    ⟨_, rfl⟩
  have hyne : y ≠ g.node := fun heq => hgg (heq ▸ hymem)
  have hfne : f.node ≠ y := fun heq => hfg' (heq ▸ hymem)
  have hcolor : ∀ i, i ≠ f.node → i ≠ y → i ≠ g.node → s'.color i = s.color i := by
    intro i hf hy hg
    rw [hs₁, setColor_color, if_neg hg, setColor_color, if_neg hy, setColor_color, if_neg hf]
  have hf' : s'.color f.node = .black := by
    rw [hs₁, setColor_color, if_neg hfg, setColor_color, if_neg hfne, setColor_color, if_pos rfl]
  have hy' : s'.color y = .black := by
    rw [hs₁, setColor_color, if_neg hyne, setColor_color, if_pos rfl]
  have hg' : s'.color g.node = .red := by
    rw [hs₁, setColor_color, if_pos rfl]
  have hgmem : g.node ∈ BinTree.around (f :: g :: ctx) :=
    List.mem_cons_of_mem _ (List.mem_append_right _ List.mem_cons_self)
  have hat : s'.At (f :: g :: ctx) t := by
    rw [hs₁]
    exact ((h.toAt.setColor (.inl rfl)).setColor (.inl rfl)).setColor
      (.inr ⟨h.focus.ne_nill (.inr hgmem), h.focus.ne_rootPtr (.inr hgmem)⟩)
  have hsame : ∀ w : BinTree ν, f.node ∉ w.inorder → y ∉ w.inorder → g.node ∉ w.inorder →
      ∀ i ∈ w.inorder, s'.color i = s.color i := fun w hfw hyw hgw i hi =>
    hcolor i (fun heq => hfw (heq ▸ hi)) (fun heq => hyw (heq ▸ hi)) (fun heq => hgw (heq ▸ hi))
  have hnodup : (branch .left u y v).inorder.Nodup := by
    rw [← huv]
    exact h.focus.up.nodup_sibling
  have hgs : RedBlack s'.color (n + 1) g.sibling := by
    rw [huv]
    refine (huv ▸ hs' : RedBlack s.color n (branch .left u y v)).blacken hred hy' (fun j hj hjy => ?_)
      hnodup
    rw [← huv] at hj
    exact hcolor j (fun heq => hfg' (heq ▸ hj)) hjy fun heq => hgg (heq ▸ hj)
  rw [← hs₁]
  refine ⟨hat.up.up, .redBranch g.side hg' ?_ ?_ (.blackBranch f.side hf' ?_ ?_) hgs, ?_, ?_⟩
  · exact (rootColor_branch _ _ _ _ _).trans hf'
  · rw [huv]
    exact (rootColor_branch _ _ _ _ _).trans hy'
  · exact h.balance.congr (hsame t hft hyt hgt)
  · exact hs.congr (hsame f.sibling hff hyf hgf)
  · exact (rootColor_branch _ _ _ _ _).trans hg'
  · exact hhole.congr fun i hi => hcolor i (fun heq => hfctx (heq ▸ hi)) (fun heq => hyctx (heq ▸ hi))
      fun heq => hgctx (heq ▸ hi)

/-- **The round before the last**: the nodes are on different sides, and change their places. -/
lemma RedAt.insertInner (h : s.RedAt (f :: g :: ctx) t n) (hside : f.side = g.side.other)
    (hf : s.color f.node = .red) (hg : s.color g.node = .black) (hs : RedBlack s.color n f.sibling)
    (hsib : f.sibling.rootColor s.color = .black) (hs' : RedBlack s.color n g.sibling)
    (hhole : HoleOk s.color ctx (n + 1)) :
    ∃ x b d, t = branch g.side b x d ∧ RedBlack s.color n d ∧ d.rootColor s.color = .black ∧
      (s.rotate g.side f.node).RedAt (⟨g.side, x, d⟩ :: g :: ctx) (branch g.side f.sibling f.node b) n := by
  obtain ⟨b, x, d, rfl, hx⟩ := exists_branch_of_red h.red g.side
  obtain ⟨hb, hd, hb', hd'⟩ := h.balance.of_red hx
  have hup := h.toAt.up
  rw [hside, branch_other] at hup
  exact ⟨x, b, d, rfl, hd', hd, hup.rotate.down g.side, .redBranch g.side hf hsib hb hs hb',
    (rootColor_branch _ _ _ _ _).trans hf,
    ⟨hd', .inr ⟨hx, hd, List.cons_ne_nil _ _, hg, hs', .inl ⟨hg, hhole⟩⟩⟩⟩

lemma same_insertLast (s : RbTree ν κ β) (side : Side) (p g : ν) :
    s.Same (((s.setColor p .black).setColor g .red).rotate side g) :=
  ((same_setColor s _ _).trans (same_setColor _ _ _)).trans (same_rotate _ _ _)

/-- **One round** after an insertion, for both sides. -/
lemma RedAt.insertRound (h : s.RedAt (f :: g :: ctx) t n) (hf : s.color f.node = .red)
    (hg : s.color g.node = .black) (hs : RedBlack s.color n f.sibling)
    (hsib : f.sibling.rootColor s.color = .black) (hs' : RedBlack s.color n g.sibling)
    (hhole : HoleOk s.color ctx (n + 1)) :
    ∃ s' ctx' t' n', s.insertRound g.side (s.ptr t) = (s', s'.ptr t') ∧ s'.RedAt ctx' t' n' ∧
      s.Same s' ∧ (plug ctx' t').inorder = (plug (f :: g :: ctx) t).inorder ∧
      ctx'.length < (f :: g :: ctx).length := by
  obtain ⟨hx, hp⟩ := h.parents
  have hy : s.child g.side.other g.node = s.ptr g.sibling := h.focus.up.sibling
  have hycolor := h.toAt.color_ptr g.sibling
  have hne : t ≠ .nil := fun hnil => by
    have hred := h.red
    rw [hnil] at hred
    cases hred
  cases hsib' : g.sibling.rootColor s.color with
  | red =>
      refine ⟨_, ctx, _, n + 1, ?_, h.insertRecolor hs hs' hsib' hhole, ?_, rfl, ?_⟩
      · rw [TreeLinks.ptr_branch]
        simp only [RbTree.insertRound, setColor_toTreeLinks, hx, hp, hy]
        rw [if_pos (hycolor.trans hsib')]
      · exact ((same_setColor s _ _).trans (same_setColor _ _ _)).trans (same_setColor _ _ _)
      · exact Nat.lt_succ_of_lt (Nat.lt_succ_self _)
  | black =>
      have hblack : s.color (s.ptr g.sibling) ≠ .red := by
        rw [hycolor, hsib']
        exact fun heq => by cases heq
      have hinner := h.focus.ptr_eq_child (.inl hne) g.side.other
      rcases Side.eq_or_other f.side g.side with hside | hside
      · -- the node and its parent are on the same side
        refine ⟨_, _, t, n, ?_, h.insertLast hside hs hsib hs' hsib' hhole, same_insertLast s _ _ _,
          inorder_insertLast hside t, Nat.lt_succ_self _⟩
        have hnot : ¬ s.ptr t = s.child g.side.other f.node := fun heq =>
          g.side.other_ne ((hinner.mp heq).symm.trans hside)
        simp only [RbTree.insertRound, setColor_toTreeLinks, hx, hp, hy]
        rw [if_neg hblack, if_neg hnot]
        simp only [hx, hp]
        exact congrArg (Prod.mk _) (TreeLinks.ptr_congr (TreeLinks.rotate_nill _ _ _) t).symm
      · -- they are on different sides
        have heq : s.ptr t = s.child g.side.other f.node := hinner.mpr hside
        obtain ⟨x, b, d, rfl, hd, hdb, hred⟩ := h.insertInner hside hf hg hs hsib hs' hhole
        obtain ⟨hx', hp'⟩ := hred.parents
        rw [TreeLinks.ptr_branch] at hx'
        refine ⟨_, _, _, n, ?_, hred.insertLast rfl hd hdb hs' hsib' hhole,
          (same_rotate s _ _).trans (same_insertLast _ _ _ _), ?_, Nat.lt_succ_self _⟩
        · simp only [RbTree.insertRound, hx, hp, hy]
          rw [if_neg hblack, if_pos heq]
          simp only [setColor_toTreeLinks]
          rw [hx', hp', TreeLinks.ptr_branch]
        · exact (inorder_insertLast (f := ⟨g.side, x, d⟩) (g := g) rfl _).trans
            (inorder_insertInner hside b d x)

/-! ### The loop -/

/-- Between two rounds. -/
def InsertInv (s₀ : RbTree ν κ β) (nodes : List ν) (m : ℕ) : RbTree ν κ β × ν → Prop
  | (s, x) => ∃ ctx t n, ctx.length ≤ m ∧ s.RedAt ctx t n ∧ s.ptr t = x ∧ s₀.Same s ∧
      (plug ctx t).inorder = nodes

lemma insertFixupRound_inv {s₀ : RbTree ν κ β} {nodes : List ν} (m : ℕ) (p : RbTree ν κ β × ν)
    (h : InsertInv s₀ nodes m p) :
    (insertFixupRound p).elim (fun p' => ∃ k < m, InsertInv s₀ nodes k p') fun s' =>
      ∃ t', s'.At [] t' ∧ s₀.Same s' ∧ t'.inorder = nodes ∧ ∃ k, RedBlack s'.color k t' := by
  obtain ⟨s, x⟩ := p
  obtain ⟨ctx, t, n, hlen, hat, rfl, hsame, hnodes⟩ := h
  have hne : t ≠ .nil := fun hnil => by
    have hred := hat.red
    rw [hnil] at hred
    cases hred
  have hparent : s.color (s.parent (s.ptr t)) = parentColor s.color ctx := by
    rw [hat.focus.parent_ptr hne, hat.toAt.color_top]
  unfold insertFixupRound
  dsimp only
  rw [hparent]
  cases hcolor : parentColor s.color ctx with
  | black =>
      rw [if_neg fun h => by cases h]
      obtain ⟨hroot, hbalance⟩ := hat.balanced hcolor
      exact ⟨_, hroot, hsame, hnodes, hbalance⟩
  | red =>
      rw [if_pos rfl]
      obtain ⟨f, g, ctx', rfl, hf, hg, hs, hsib, hs', hhole⟩ := hat.exists_frames hcolor
      obtain ⟨s', ctx'', t', n', hround, hat', hsame', hnodes', hlt⟩ :=
        hat.insertRound hf hg hs hsib hs' hhole
      obtain ⟨hx, hp⟩ := hat.parents
      have hleft := hat.focus.up.ptr_eq_child (.inl (branch_ne_nil _ _ _ _)) .left
      rw [TreeLinks.ptr_branch] at hleft
      have hinv : ∃ k < m, InsertInv s₀ nodes k (RbTree.insertRound g.side s (s.ptr t)) := by
        rw [hround]
        exact ⟨ctx''.length, Nat.lt_of_lt_of_le hlt hlen, ctx'', t', n', Nat.le_refl _, hat', rfl,
          hsame.trans hsame', hnodes'.trans hnodes⟩
      rw [hx, hp]
      cases hside : g.side with
      | left =>
          rw [if_pos (hleft.mpr hside)]
          rw [hside] at hinv
          exact hinv
      | right =>
          rw [if_neg fun heq => by cases hside.symm.trans (hleft.mp heq)]
          rw [hside] at hinv
          exact hinv

/-- **The rounds end**, and then only the root may be red below a black node. -/
theorem insertFixup_spec (h : s.RedAt ctx t n) {fuel : ℕ} (hfuel : ctx.length < fuel) :
    ∃ s' t', s.insertFixup (s.ptr t) fuel = some s' ∧ s'.At [] t' ∧ s.Same s' ∧
      t'.inorder = (plug ctx t).inorder ∧ ∃ m, RedBlack s'.color m t' := by
  have hinv : InsertInv s (plug ctx t).inorder ctx.length (s, s.ptr t) :=
    ⟨ctx, t, n, Nat.le_refl _, h, rfl, Same.refl s, rfl⟩
  obtain ⟨s', hs', t', hpost⟩ := loop_rule _ _ insertFixupRound_inv hinv hfuel
  exact ⟨s', t', hs', hpost⟩

/-! ### The leaf -/

/-- A new node: it is not in the tree, and not one of the two other nodes. -/
def Fresh (s : RbTree ν κ β) (nodes : List ν) (x : ν) : Prop :=
  x ∉ s.rootPtr :: s.nill :: nodes

/-- **The new leaf** is linked at its place. -/
lemma placeLeaf_focus {x : ν} (h : s.toTreeLinks.Focus ctx .nil)
    (hx : s.Fresh (BinTree.around ctx) x) (hside : s.LeafSide (s.key x) ctx) :
    (s.placeLeaf x (s.top ctx)).toTreeLinks.Focus ctx (.node .nil x .nil) ∧
      (s.placeLeaf x (s.top ctx)).child .right s.rootPtr = s.child .right s.rootPtr := by
  have htop : s.top ctx ≠ x := by
    intro heq
    refine hx (heq ▸ ?_)
    rcases List.mem_cons.mp (s.top_mem ctx) with hroot | hmem
    · exact hroot ▸ List.mem_cons_self
    · exact List.mem_cons_of_mem _ (List.mem_cons_of_mem _ hmem)
  have hleft : (s.top ctx = s.rootPtr ∨ s.comp (s.key x) (s.key (s.top ctx)) ≤ 0) ↔
      TreeLinks.holeSide ctx = .left := by
    cases ctx with
    | nil => exact iff_of_true (Or.inl rfl) rfl
    | cons f ctx => exact (or_iff_right (h.ne_rootPtr (.inr List.mem_cons_self))).trans hside.symm
  obtain ⟨s', hs'⟩ : ∃ s', s' = (((s.toTreeLinks.setChild (TreeLinks.holeSide ctx) (s.top ctx)
      x).setParent x (s.top ctx)).setChild .left x s.nill).setChild .right x s.nill := ⟨_, rfl⟩
  have hlinks : (s.placeLeaf x (s.top ctx)).toTreeLinks = s' := by
    rw [hs']
    unfold placeLeaf
    by_cases hcase : TreeLinks.holeSide ctx = .left
    · rw [if_pos (hleft.mpr hcase), hcase]
      rfl
    · have hright : TreeLinks.holeSide ctx = .right := by
        cases hside : TreeLinks.holeSide ctx
        · exact absurd hside hcase
        · rfl
      rw [if_neg fun h => hcase (hleft.mp h), hright]
      rfl
  have hparent : ∀ j, s'.parent j = if j = x then s.top ctx else s.parent j := by
    intro j
    rw [hs']
    exact TreeLinks.setParent_parent _ _ _ _
  have hchild : ∀ sd j, s'.child sd j = if j = x then s.nill
      else if sd = TreeLinks.holeSide ctx ∧ j = s.top ctx then x else s.child sd j := by
    intro sd j
    rw [hs', TreeLinks.setChild_child, TreeLinks.setChild_child]
    show (if sd = .right ∧ j = x then s.nill else if sd = .left ∧ j = x then s.nill
      else (s.toTreeLinks.setChild (TreeLinks.holeSide ctx) (s.top ctx) x).child sd j) = _
    rw [TreeLinks.setChild_child]
    cases sd <;> split_ifs <;> simp_all
  have hsame : ∀ j ∈ s.rootPtr :: BinTree.around ctx, j ≠ x := by
    rintro j hj rfl
    rcases List.mem_cons.mp hj with hroot | hmem
    · exact hx (hroot ▸ List.mem_cons_self)
    · exact hx (List.mem_cons_of_mem _ (List.mem_cons_of_mem _ hmem))
  have hnill : s'.nill = s.nill := by
    rw [hs']
    rfl
  have hroot : s'.rootPtr = s.rootPtr := by
    rw [hs']
    rfl
  have hright := h.not_right_top
  rw [hlinks]
  refine ⟨⟨⟨?_, ?_, ?_, trivial, trivial⟩, ?_, ?_⟩, ?_⟩
  · rw [hparent, if_pos rfl, TreeLinks.top_congr hroot]
  · rw [hchild, if_pos rfl]
    exact hnill.symm
  · rw [hchild, if_pos rfl]
    exact hnill.symm
  · refine h.around.relink hnill hroot h.nodup_around ?_ ?_ (fun j hj => ?_) fun sd j hj hne => ?_
    · rw [hchild, if_neg htop, if_pos ⟨rfl, rfl⟩]
      rfl
    · rw [hchild, if_neg htop, if_neg fun h => (TreeLinks.holeSide ctx).other_ne h.1]
    · rw [hparent, if_neg (hsame j (List.mem_cons_of_mem _ hj))]
    · rw [hchild, if_neg (hsame j hj), if_neg fun h => hne h.2]
  · rw [hnill, hroot]
    have hnodup := h.nodup
    unfold Fresh at hx
    simp only [BinTree.inorder, List.nil_append, List.singleton_append, List.nodup_cons,
      List.mem_cons, not_or] at hnodup hx ⊢
    exact ⟨⟨hnodup.1.1, fun heq => hx.1 heq.symm, hnodup.1.2⟩, ⟨fun heq => hx.2.1 heq.symm, hnodup.2.1⟩,
      hx.2.2, hnodup.2.2⟩
  · rw [hchild, if_neg (hsame _ List.mem_cons_self), if_neg hright]

/-- The fields of a new node are written: the tree is the same. -/
lemma At.prepare {x : ν} (key : κ) (value : Option β) (h : s.At [] t) (hx : s.Fresh t.inorder x) :
    ((((s.setEntry x key value).setColor x .red).setChild .left x s.nill).setChild .right x
      s.nill).At [] t := by
  unfold Fresh at hx
  simp only [List.mem_cons, not_or] at hx
  obtain ⟨hroot, hnill, hnot⟩ := hx
  obtain ⟨s', hs'⟩ : ∃ s', s' = (((s.setEntry x key value).setColor x .red).setChild .left x
      s.nill).setChild .right x s.nill := ⟨_, rfl⟩
  have hchild : ∀ sd j, j ≠ x → s'.child sd j = s.child sd j := by
    intro sd j hj
    rw [hs']
    show ((s.toTreeLinks.setChild .left x s.nill).setChild .right x s.nill).child sd j = _
    rw [TreeLinks.setChild_child, if_neg fun h => hj h.2, TreeLinks.setChild_child,
      if_neg fun h => hj h.2]
  have hcolor : ∀ j, j ≠ x → s'.color j = s.color j := by
    intro j hj
    rw [hs']
    exact Function.update_of_ne hj _ _
  have hne : ∀ j ∈ t.inorder, j ≠ x := fun j hj heq => hnot (heq ▸ hj)
  have hlinks : s'.parent = s.parent ∧ s'.nill = s.nill ∧ s'.rootPtr = s.rootPtr := by
    rw [hs']
    exact ⟨rfl, rfl, rfl⟩
  obtain ⟨hparent, hn, hr⟩ := hlinks
  rw [← hs']
  refine ⟨⟨?_, ?_, ?_⟩, ?_, ?_, ?_⟩
  · rw [TreeLinks.top_congr hr]
    exact h.focus.shape.congr hn (fun i _ => by rw [hparent]) fun sd i hi => hchild sd i (hne i hi)
  · show s'.child .left s'.rootPtr = s'.ptr t
    rw [hr, hchild _ _ (Ne.symm hroot), TreeLinks.ptr_congr hn]
    exact h.focus.around
  · rw [hr, hn]
    exact h.focus.nodup
  · rw [hn, hcolor _ (Ne.symm hnill), h.nillBlack]
  · rw [hr, hcolor _ (Ne.symm hroot), h.rootBlack]
  · rw [hr, hn, hchild _ _ (Ne.symm hroot), h.rootRight]

/-- A node with a key between those before it and those after it. -/
lemma sorted_insert {x : ν} {key : κ} {a b : List ν} (h : s.Sorted (a ++ b))
    (hcomp : TotalComp s.comp) (hcomp' : s'.comp = s.comp) (hkey : s'.key = Function.update s.key x key)
    (hx : x ∉ a ++ b) (ha : ∀ i ∈ a, 0 < s.comp key (s.key i))
    (hb : ∀ i ∈ b, s.comp key (s.key i) ≤ 0) : s'.Sorted (a ++ x :: b) := by
  have hsame : ∀ i ∈ a ++ b, s'.key i = s.key i := fun i hi => by
    have hne : i ≠ x := fun heq => hx (heq ▸ hi)
    rw [hkey, Function.update_of_ne hne]
  have hsame_a : ∀ i ∈ a, s'.key i = s.key i := fun i hi => hsame i (List.mem_append_left _ hi)
  have hsame_b : ∀ i ∈ b, s'.key i = s.key i := fun i hi => hsame i (List.mem_append_right _ hi)
  have hself : s'.key x = key := by
    rw [hkey, Function.update_self]
  have hone : s'.Sorted [x] := List.pairwise_singleton _ _
  obtain ⟨hsa, hsb, hab⟩ := h.append
  have hxb : s'.Sorted ([x] ++ b) := by
    refine sorted_append hone (hsb.congr hcomp' hsame_b) fun i hi j hj => ?_
    rw [List.mem_singleton.mp hi, hself, hsame_b j hj, hcomp']
    exact hb j hj
  refine sorted_append (hsa.congr hcomp' hsame_a) hxb fun i hi j hj => ?_
  rw [hsame_a i hi, hcomp']
  rcases List.mem_cons.mp hj with rfl | hj
  · rw [hself]
    exact hcomp.le_of_pos (ha i hi)
  · rw [hsame_b j hj]
    exact hab i hi j hj

/-- **What an insertion does.** If the keys are in order, the new node comes after the nodes with keys
that are less, and before all others. -/
theorem insert_spec {x : ν} (h : s.Shaped t) (hx : s.Fresh t.inorder x) (key : κ) (value : Option β)
    {fuel : ℕ} (hfuel : s.treeSize < fuel) :
    ∃ s' t' a b, s.insert (some x) key value fuel = some (.success, s') ∧ s'.Shaped t' ∧
      t.inorder = a ++ b ∧ t'.inorder = a ++ x :: b ∧
      (TotalComp s.comp → s.Sorted t.inorder → s'.Sorted t'.inorder) ∧
      s'.key = Function.update s.key x key ∧ s'.value = Function.update s.value x value ∧
      s'.comp = s.comp ∧ s'.rootPtr = s.rootPtr ∧ s'.nill = s.nill := by
  have hnot : x ∉ t.inorder := fun hi => hx (List.mem_cons_of_mem _ (List.mem_cons_of_mem _ hi))
  -- the fields of the node
  have hat₁ := h.toAt.prepare key value hx
  obtain ⟨s₁, hs₁⟩ : ∃ s₁, s₁ = (((s.setEntry x key value).setColor x .red).setChild .left x
      s.nill).setChild .right x s.nill := ⟨_, rfl⟩
  rw [← hs₁] at hat₁
  have hkey₁ : s₁.key = Function.update s.key x key := by
    rw [hs₁]
    rfl
  have hself : s₁.key x = key := by
    rw [hkey₁, Function.update_self]
  have hcolor₁ : s₁.color = Function.update s.color x .red := by
    rw [hs₁]
    rfl
  have hcomp₁ : s₁.comp = s.comp := by
    rw [hs₁]
    rfl
  have hsame : ∀ i ∈ t.inorder, s₁.key i = s.key i := fun i hi => by
    have hne : i ≠ x := fun heq => hnot (heq ▸ hi)
    rw [hkey₁, Function.update_of_ne hne]
  -- the leaf
  obtain ⟨ctx, hleaf, hway⟩ := findLeaf_spec x hat₁.focus (h.size ▸ hfuel)
  have hwhole := hway.whole
  have haround : t.inorder.Perm (BinTree.around ctx) := by
    rw [← hwhole]
    exact perm_plug ctx .nil
  have hfresh : s₁.Fresh (BinTree.around ctx) x := by
    rw [hs₁]
    intro hmem
    refine hx ?_
    rcases List.mem_cons.mp hmem with hroot | hmem
    · exact hroot ▸ List.mem_cons_self
    rcases List.mem_cons.mp hmem with hnill | hmem
    · exact hnill ▸ List.mem_cons_of_mem _ List.mem_cons_self
    · exact List.mem_cons_of_mem _ (List.mem_cons_of_mem _ (haround.mem_iff.mpr hmem))
  obtain ⟨hfocus₂, hright₂⟩ := placeLeaf_focus hway.focus hfresh hway.leafSide
  obtain ⟨s₂, hs₂⟩ : ∃ s₂, s₂ = s₁.placeLeaf x (s₁.top ctx) := ⟨_, rfl⟩
  rw [← hs₂] at hfocus₂ hright₂
  have hrest : s₂.color = s₁.color ∧ s₂.key = s₁.key ∧ s₂.value = s₁.value ∧ s₂.comp = s₁.comp ∧
      s₂.treeSize = s₁.treeSize + 1 ∧ s₂.nill = s₁.nill ∧ s₂.rootPtr = s₁.rootPtr := by
    rw [hs₂]
    unfold placeLeaf
    dsimp only
    split_ifs <;> exact ⟨rfl, rfl, rfl, rfl, rfl, rfl, rfl⟩
  obtain ⟨hcolor₂, hkey₂, hvalue₂, hcomp₂, hsize₂, hnill₂, hroot₂⟩ := hrest
  have hred : s₂.RedAt ctx (.node .nil x .nil) 0 := by
    have hx' : s₂.color x = .red := by
      rw [hcolor₂, hcolor₁, Function.update_self]
    refine ⟨⟨hfocus₂, ?_, ?_, ?_⟩, .red hx' rfl rfl .nil .nil, hx', ?_⟩
    · rw [hnill₂, hcolor₂, hat₁.nillBlack]
    · rw [hroot₂, hcolor₂, hat₁.rootBlack]
    · rw [hroot₂, hnill₂, hright₂, hat₁.rootRight]
    · obtain ⟨n, hbalance⟩ := h.balance
      have hblack := h.black
      rw [← hwhole] at hbalance hblack
      obtain ⟨m, hnil, hhole, -⟩ := hbalance.of_plug hblack
      cases hnil
      refine hhole.congr fun i hi => ?_
      have hne : i ≠ x := fun heq => hnot (heq ▸ haround.mem_iff.mpr hi)
      rw [hcolor₂, hcolor₁, Function.update_of_ne hne]
  -- the rounds
  have hlen : ctx.length < fuel := by
    have hframes := length_le_around ctx
    have hnodes := haround.length_eq
    have hsize := h.size
    omega
  obtain ⟨s₃, t₃, hfixup, hat₃, hsame₃, horder, m, hbalance₃⟩ := insertFixup_spec hred hlen
  rw [inorder_plug] at horder
  obtain ⟨l, r, hl⟩ : ∃ l r, t₃ = .node l (s₃.ptr t₃) r := by
    cases t₃ with
    | nil =>
        have hmem : x ∈ BinTree.before ctx ++ ((BinTree.node .nil x .nil).inorder ++ BinTree.after ctx) :=
          List.mem_append_right _ (List.mem_append_left _ List.mem_cons_self)
        rw [← horder] at hmem
        cases hmem
    | node l i r => exact ⟨l, r, rfl⟩
  -- the root becomes black
  have hroot : s₃.child .left s₃.rootPtr = s₃.ptr t₃ := hat₃.focus.around
  have hpaint : ∃ k, RedBlack (s₃.setColor (s₃.ptr t₃) .black).color k t₃ := by
    have hb : RedBlack s₃.color m (branch .left l (s₃.ptr t₃) r) := hl ▸ hbalance₃
    have hnodup : (branch .left l (s₃.ptr t₃) r).inorder.Nodup := hl ▸ hat₃.focus.nodup_inorder
    have hself : (s₃.setColor (s₃.ptr t₃) .black).color (s₃.ptr t₃) = .black := by
      rw [setColor_color, if_pos rfl]
    obtain ⟨k, hk⟩ := hb.blackRoot hself (fun j _ hne => by rw [setColor_color, if_neg hne]) hnodup
    exact ⟨k, hl ▸ hk⟩
  have hinorder : t.inorder = BinTree.before ctx ++ BinTree.after ctx := by
    rw [← hwhole, inorder_plug]
    rfl
  have hkey₃ : s₃.key = Function.update s.key x key := by
    rw [hsame₃.key, hkey₂, hkey₁]
  have hcomp₃ : s₃.comp = s.comp := by
    rw [hsame₃.comp, hcomp₂, hcomp₁]
  refine ⟨s₃.setColor (s₃.ptr t₃) .black, t₃, BinTree.before ctx, BinTree.after ctx, ?_,
    ⟨hat₃.setColor (.inl rfl), hpaint, ?_, ?_⟩, hinorder, horder, fun hcomp hsorted => ?_, hkey₃, ?_,
    hcomp₃, ?_, ?_⟩
  · show ((s.setEntry x key value).btreeInsert x fuel).bind _ = _
    have hinsert : (s.setEntry x key value).btreeInsert x fuel = some s₂ := by
      unfold btreeInsert
      dsimp only
      rw [hs₂]
      rw [hs₁] at hleaf ⊢
      exact congrArg (Option.map _) hleaf
    rw [hinsert, Option.bind_some]
    show (s₂.insertFixup x fuel).bind _ = _
    have hfix : s₂.insertFixup x fuel = some s₃ := hfixup
    rw [hfix, Option.bind_some, hroot]
  · rw [hl]
    exact (setColor_color _ _ _ _).trans (if_pos rfl)
  · show s₃.treeSize = t₃.inorder.length
    have hsize₁ : s₁.treeSize = s.treeSize := by
      rw [hs₁]
      rfl
    rw [hsame₃.treeSize, hsize₂, hsize₁, h.size, horder, hinorder]
    simp only [List.length_append, BinTree.inorder, List.length_cons, List.length_nil]
    omega
  · obtain ⟨hbefore, hafter⟩ := hway.order (hcomp₁ ▸ hcomp)
      (fun a b => (hcomp₁ ▸ hcomp : TotalComp s₁.comp).trans _ a b) (hsorted.congr hcomp₁ hsame)
    rw [horder]
    refine sorted_insert (hinorder ▸ hsorted) hcomp hcomp₃ hkey₃ (hinorder ▸ hnot) (fun i hi => ?_)
      fun i hi => ?_
    · have hpos := hbefore i hi
      rwa [hself, hcomp₁, hsame i (hinorder ▸ List.mem_append_left _ hi)] at hpos
    · have hle := hafter i hi
      rwa [hself, hcomp₁, hsame i (hinorder ▸ List.mem_append_right _ hi)] at hle
  · show s₃.value = _
    rw [hsame₃.value, hvalue₂, hs₁]
    rfl
  · show s₃.rootPtr = _
    rw [hsame₃.rootPtr, hroot₂, hs₁]
    rfl
  · show s₃.nill = _
    rw [hsame₃.nill, hnill₂, hs₁]
    rfl

end RbTree

end Ocoms
