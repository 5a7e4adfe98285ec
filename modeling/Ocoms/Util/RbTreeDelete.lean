import Ocoms.Util.RbTreeInsert

/-!
Deletion from the red-black tree.

* `ShortAt`: the subtree at a place has one black node too few on each way, and all else is balanced.
* `ShortAt.redSibling`, `ShortAt.recolor`, `ShortAt.inner` and `ShortAt.last` are the four cases of a
  round, `ShortAt.deleteRound` is the round.
* `btreeDeleteFixup_spec`: the rounds end with a balanced tree.
* `delete_spec`: what a deletion does.
-/

namespace Ocoms

open BinTree

namespace RbTree

variable {ν κ β : Type*} {s s' : RbTree ν κ β} {ctx : List (TreeFrame ν)} {f : TreeFrame ν}
  {t b d : BinTree ν} {p w root : ν} {n : ℕ} {side : Side}

/-! ### The rounds -/

/-- **One black node is missing** on each way through the subtree, which is black. The parent of the
sentinel is the node above, too. -/
structure ShortAt (s : RbTree ν κ β) (ctx : List (TreeFrame ν)) (t : BinTree ν) (n : ℕ) : Prop
    extends s.At ctx t where
  parent : s.parent (s.ptr t) = s.top ctx
  balance : RedBlack s.color n t
  black : t.rootColor s.color = .black
  hole : HoleOk s.color ctx (n + 1)

/-- The memory holds a balanced tree with these nodes. -/
def Balanced (s : RbTree ν κ β) (nodes : List ν) : Prop :=
  ∃ t, s.At [] t ∧ t.inorder = nodes ∧ t.rootColor s.color = .black ∧ ∃ n, RedBlack s.color n t

/-- A subtree that fits. -/
lemma At.balanced (h : s.At ctx t) (ht : RedBlack s.color n t) (hroot : t.rootColor s.color = .black)
    (hhole : HoleOk s.color ctx n) : s.Balanced (plug ctx t).inorder :=
  ⟨_, h.root, rfl, hhole.plug ht hroot⟩

/-- The nodes at and around a place are different. -/
lemma At.nodup_short (h : s.At (⟨side, p, branch side b w d⟩ :: ctx) t) :
    (t.inorder ++ p :: w :: (b.inorder ++ (d.inorder ++ BinTree.around ctx))).Nodup := by
  have hnodup := (List.nodup_cons.mp (List.nodup_cons.mp h.focus.nodup).2).2
  have hperm := (((perm_inorder_branch side b w d).append_right (BinTree.around ctx)).cons p).append_left
    t.inorder
  have hall := hperm.nodup_iff.mp hnodup
  rwa [List.cons_append, List.append_assoc] at hall

/-- From the place to its sibling. -/
lemma At.toSibling {u : BinTree ν} (h : s.At (⟨side, p, u⟩ :: ctx) t) :
    s.At (⟨side.other, p, t⟩ :: ctx) u := by
  have hup := h.up
  rw [← branch_other] at hup
  exact hup.down side.other

/-- The children of the sibling. -/
lemma At.siblingChild (h : s.At (⟨side, p, branch side b w d⟩ :: ctx) t) :
    s.child side.other p = w ∧ s.child side w = s.ptr b ∧ s.child side.other w = s.ptr d := by
  obtain ⟨-, hb, hd, -, -⟩ := TreeLinks.shape_branch.mp h.toSibling.focus.shape
  exact ⟨h.focus.sibling.trans (TreeLinks.ptr_branch _ _ _ _ _), hb, hd⟩

/-- The sibling is not empty. -/
lemma ShortAt.exists_sibling {u : BinTree ν} (h : s.ShortAt (⟨side, p, u⟩ :: ctx) t n) :
    ∃ b w d, u = branch side b w d :=
  h.hole.1.exists_branch side

/-- The root is above any other place. -/
lemma root_mem_around (h : s.toTreeLinks.Focus (f :: ctx) t) :
    s.child .left s.rootPtr ∈ BinTree.around (f :: ctx) := by
  induction ctx generalizing f t with
  | nil =>
      have hroot : s.child .left s.rootPtr = f.node := h.around.2.2.2.2
      rw [hroot]
      exact List.mem_cons_self
  | cons g ctx ih => exact List.mem_cons_of_mem _ (List.mem_append_right _ (ih h.up))

/-- The root is not below the sibling. -/
lemma root_not_mem_sibling (h : s.toTreeLinks.Focus (f :: ctx) t) :
    s.child .left s.rootPtr ∉ f.sibling.inorder := by
  cases ctx with
  | nil =>
      have hroot : s.child .left s.rootPtr = f.node := h.around.2.2.2.2
      rw [hroot]
      exact h.nodup_frame.1
  | cons g ctx =>
      have hnodup := (List.nodup_cons.mp (List.nodup_cons.mp h.nodup_around).2).2
      exact fun hi => (List.nodup_append.mp hnodup).2.2 _ hi _ (root_mem_around h.up) rfl

/-- The root is black, because it is not at the place. -/
lemma root_black (h : s.toTreeLinks.Focus (f :: ctx) t) (hhole : HoleOk s.color (f :: ctx) n) :
    s.color (s.child .left s.rootPtr) = .black := by
  induction ctx generalizing f t n with
  | nil =>
      have hroot : s.child .left s.rootPtr = f.node := h.around.2.2.2.2
      rw [hroot]
      obtain ⟨-, ⟨hb, -⟩ | ⟨-, -, hne, -⟩⟩ := hhole
      · exact hb
      · exact absurd rfl hne
  | cons g ctx ih =>
      obtain ⟨-, ⟨-, hk⟩ | ⟨-, -, -, -, hk⟩⟩ := hhole
      · exact ih h.up hk
      · exact ih h.up hk

variable [DecidableEq ν]

/-- **A red sibling** comes to the place of the parent. The new sibling is black. -/
lemma ShortAt.redSibling (h : s.ShortAt (⟨side, p, branch side b w d⟩ :: ctx) t n)
    (hw : s.color w = .red) :
    (((s.setColor w .black).setColor p .red).rotate side p).ShortAt
      (⟨side, p, b⟩ :: ⟨side, w, d⟩ :: ctx) t n ∧ b.rootColor s.color = .black := by
  have hnodup := h.nodup_short
  simp only [List.nodup_append, List.nodup_cons, List.mem_cons, List.mem_append, not_or] at hnodup
  have hpmem : p ∈ BinTree.around (⟨side, p, branch side b w d⟩ :: ctx) := List.mem_cons_self
  obtain ⟨hs, ⟨hp, hhole⟩ | ⟨-, hsb, -⟩⟩ := h.hole
  · obtain ⟨hbb, hdb, hb, hd⟩ := hs.of_red hw
    obtain ⟨s₁, hs₁⟩ : ∃ s₁, s₁ = (s.setColor w .black).setColor p .red := ⟨_, rfl⟩
    have hcolor : ∀ i, i ≠ w → i ≠ p → s₁.color i = s.color i := by
      intro i hiw hip
      rw [hs₁, setColor_color, if_neg hip, setColor_color, if_neg hiw]
    have hw' : s₁.color w = .black := by
      rw [hs₁, setColor_color, if_neg (by grind), setColor_color, if_pos rfl]
    have hp' : s₁.color p = .red := by
      rw [hs₁, setColor_color, if_pos rfl]
    have hat : s₁.At (⟨side, p, branch side b w d⟩ :: ctx) t := by
      rw [hs₁]
      exact (h.toAt.setColor (.inl rfl)).setColor
        (.inr ⟨h.focus.ne_nill (.inr hpmem), h.focus.ne_rootPtr (.inr hpmem)⟩)
    have hrot := (hat.up.rotate.down side).down side
    have hparent : (s₁.rotate side p).parent s.nill = s.parent s.nill := by
      have hnill := hat.up.focus.rotate.2.1
      rw [hs₁] at hnill ⊢
      exact hnill
    have ht := fun i (hi : i ∈ t.inorder) => hcolor i (by grind) (by grind)
    have hb' := fun i (hi : i ∈ b.inorder) => hcolor i (by grind) (by grind)
    have hd' := fun i (hi : i ∈ d.inorder) => hcolor i (by grind) (by grind)
    rw [← hs₁]
    refine ⟨⟨hrot, ?_, h.balance.congr ht, (rootColor_congr ht).trans h.black, hb.congr hb',
      .inr ⟨hp', (rootColor_congr hb').trans hbb, List.cons_ne_nil _ _, hw', hd.congr hd',
        .inl ⟨hw', ?_⟩⟩⟩, hbb⟩
    · cases t with
      | nil =>
          have hnill : (s₁.rotate side p).nill = s.nill := by
            rw [hs₁]
            exact TreeLinks.rotate_nill _ _ _
          show (s₁.rotate side p).parent (s₁.rotate side p).nill = p
          rw [hnill, hparent]
          exact h.parent
      | node l i r => exact hrot.focus.parent_ptr (fun h => by cases h)
    · exact hhole.congr fun i hi => hcolor i (by grind) (by grind)
  · rw [rootColor_branch, hw] at hsb
    cases hsb

/-- **A sibling with two black children** becomes red. Then the parent is the place where a black node
is missing; or it is red, and becomes black. -/
lemma ShortAt.recolor (h : s.ShortAt (⟨side, p, branch side b w d⟩ :: ctx) t n)
    (hw : s.color w = .black) (hb : b.rootColor s.color = .black)
    (hd : d.rootColor s.color = .black) :
    (s.color p = .black ∧ (s.setColor w .red).ShortAt ctx
      (branch side t p (branch side b w d)) (n + 1)) ∨
    s.color p = .red ∧ ((s.setColor w .red).setColor p .black).Balanced
      (plug ctx (branch side t p (branch side b w d))).inorder := by
  have hnodup := h.nodup_short
  simp only [List.nodup_append, List.nodup_cons, List.mem_cons, List.mem_append, not_or] at hnodup
  have hwmem : w ∈ BinTree.around (⟨side, p, branch side b w d⟩ :: ctx) :=
    List.mem_cons_of_mem _ (List.mem_append_left _ (mem_inorder_branch.mpr (.inl rfl)))
  have hat : (s.setColor w .red).At (⟨side, p, branch side b w d⟩ :: ctx) t :=
    h.toAt.setColor (.inr ⟨h.focus.ne_nill (.inr hwmem), h.focus.ne_rootPtr (.inr hwmem)⟩)
  have hcolor : ∀ i, i ≠ w → (s.setColor w .red).color i = s.color i := fun i hi => by
    rw [setColor_color, if_neg hi]
  have hw' : (s.setColor w .red).color w = .red := by
    rw [setColor_color, if_pos rfl]
  have hpw : p ≠ w := by grind
  cases hp : s.color p with
  | black =>
      refine .inl ⟨rfl, hat.up, ?_, ?_, ?_, ?_⟩
      · rw [TreeLinks.ptr_branch]
        exact hat.focus.top_parent
      · obtain ⟨hs, -⟩ := h.hole.of_black hp
        obtain ⟨m, heq, hb', hd'⟩ := hs.of_black hw
        obtain rfl := Nat.succ.inj heq
        have hb₁ := fun i (hi : i ∈ b.inorder) => hcolor i (by grind)
        have hd₁ := fun i (hi : i ∈ d.inorder) => hcolor i (by grind)
        exact .blackBranch side ((hcolor p hpw).trans hp)
          (h.balance.congr fun i hi => hcolor i (by grind))
          (.redBranch side hw' ((rootColor_congr hb₁).trans hb) ((rootColor_congr hd₁).trans hd)
            (hb'.congr hb₁) (hd'.congr hd₁))
      · rw [rootColor_branch, hcolor p hpw, hp]
      · obtain ⟨-, hhole⟩ := h.hole.of_black hp
        exact hhole.congr fun i hi => hcolor i (by grind)
  | red =>
      obtain ⟨hs, -, -, -, hhole⟩ := h.hole.of_red hp
      obtain ⟨m, heq, hb', hd'⟩ := hs.of_black hw
      obtain rfl := Nat.succ.inj heq
      have hcolor' : ∀ i, i ≠ w → i ≠ p →
          ((s.setColor w .red).setColor p .black).color i = s.color i := fun i hiw hip => by
        rw [setColor_color, if_neg hip, hcolor i hiw]
      have hp' : ((s.setColor w .red).setColor p .black).color p = .black := by
        rw [setColor_color, if_pos rfl]
      have hw'' : ((s.setColor w .red).setColor p .black).color w = .red := by
        rw [setColor_color, if_neg hpw.symm, hw']
      have hb₁ := fun i (hi : i ∈ b.inorder) => hcolor' i (by grind) (by grind)
      have hd₁ := fun i (hi : i ∈ d.inorder) => hcolor' i (by grind) (by grind)
      refine .inr ⟨rfl, (hat.setColor (.inl rfl)).up.balanced (n := n + 1) ?_ ?_ ?_⟩
      · exact .blackBranch side hp' (h.balance.congr fun i hi => hcolor' i (by grind) (by grind))
          (.redBranch side hw'' ((rootColor_congr hb₁).trans hb) ((rootColor_congr hd₁).trans hd)
            (hb'.congr hb₁) (hd'.congr hd₁))
      · exact (rootColor_branch _ _ _ _ _).trans hp'
      · exact hhole.congr fun i hi => hcolor' i (by grind) (by grind)

/-- **A sibling with a red child near the place**: the child comes to its place. -/
lemma ShortAt.inner {b₁ b₂ : BinTree ν} {z : ν}
    (h : s.ShortAt (⟨side, p, branch side (branch side b₁ z b₂) w d⟩ :: ctx) t n)
    (hw : s.color w = .black) (hz : s.color z = .red) (hd : d.rootColor s.color = .black) :
    (((s.setColor z .black).setColor w .red).rotate side.other w).ShortAt
      (⟨side, p, branch side b₁ z (branch side b₂ w d)⟩ :: ctx) t n := by
  have hnodup := h.nodup_short
  have hz' := (perm_inorder_branch side b₁ z b₂).nodup_iff.mp
    (List.nodup_append.mp (List.nodup_cons.mp (List.nodup_cons.mp
      (List.nodup_append.mp hnodup).2.1).2).2).1
  simp only [List.nodup_append, List.nodup_cons, List.mem_cons, List.mem_append, not_or,
    mem_inorder_branch] at hnodup hz'
  have hwmem : w ∈ BinTree.around (⟨side, p, branch side (branch side b₁ z b₂) w d⟩ :: ctx) :=
    List.mem_cons_of_mem _ (List.mem_append_left _ (mem_inorder_branch.mpr (.inl rfl)))
  obtain ⟨s₁, hs₁⟩ : ∃ s₁, s₁ = (s.setColor z .black).setColor w .red := ⟨_, rfl⟩
  have hcolor : ∀ i, i ≠ w → i ≠ z → s₁.color i = s.color i := by
    intro i hiw hiz
    rw [hs₁, setColor_color, if_neg hiw, setColor_color, if_neg hiz]
  have hw' : s₁.color w = .red := by
    rw [hs₁, setColor_color, if_pos rfl]
  have hzw : z ≠ w := by grind
  have hz'' : s₁.color z = .black := by
    rw [hs₁, setColor_color, if_neg hzw, setColor_color, if_pos rfl]
  have hat : s₁.At (⟨side, p, branch side (branch side b₁ z b₂) w d⟩ :: ctx) t := by
    rw [hs₁]
    exact (h.toAt.setColor (.inl rfl)).setColor
      (.inr ⟨h.focus.ne_nill (.inr hwmem), h.focus.ne_rootPtr (.inr hwmem)⟩)
  have hrot := hat.toSibling.rotateOther.toSibling
  rw [Side.other_other] at hrot
  have hparent : (s₁.rotate side.other w).parent s.nill = s.parent s.nill := by
    have hnill := hat.toSibling.focus.rotateOther.2.1
    rw [hs₁] at hnill ⊢
    exact hnill
  -- the balance of the new sibling
  have ht := fun i (hi : i ∈ t.inorder) => hcolor i (by grind) (by grind)
  have hb₁ := fun i (hi : i ∈ b₁.inorder) => hcolor i (by grind) (by grind)
  have hb₂ := fun i (hi : i ∈ b₂.inorder) => hcolor i (by grind) (by grind)
  have hd' := fun i (hi : i ∈ d.inorder) => hcolor i (by grind) (by grind)
  have hp : s₁.color p = s.color p := hcolor p (by grind) (by grind)
  have hctx := fun i (hi : i ∈ BinTree.around ctx) => hcolor i (by grind) (by grind)
  obtain ⟨hs, hrest⟩ := h.hole
  obtain ⟨m, heq, hb, hdd⟩ := hs.of_black hw
  obtain rfl := Nat.succ.inj heq
  obtain ⟨-, hb₂b, hbb₁, hbb₂⟩ := hb.of_red hz
  have hnew : RedBlack s₁.color (n + 1) (branch side b₁ z (branch side b₂ w d)) :=
    .blackBranch side hz'' (hbb₁.congr hb₁)
      (.redBranch side hw' ((rootColor_congr hb₂).trans hb₂b) ((rootColor_congr hd').trans hd)
        (hbb₂.congr hb₂) (hdd.congr hd'))
  rw [← hs₁]
  refine ⟨hrot, ?_, h.balance.congr ht, (rootColor_congr ht).trans h.black, hnew, ?_⟩
  · cases t with
    | nil =>
        have hnill : (s₁.rotate side.other w).nill = s.nill := by
          rw [hs₁]
          exact TreeLinks.rotate_nill _ _ _
        show (s₁.rotate side.other w).parent (s₁.rotate side.other w).nill = p
        rw [hnill, hparent]
        exact h.parent
    | node l i r => exact hrot.focus.parent_ptr (fun h => by cases h)
  · have hhole : ∀ k, HoleOk s.color ctx k → HoleOk s₁.color ctx k := fun k hk => hk.congr hctx
    rcases hrest with ⟨hpb, hk⟩ | ⟨hpr, -, hne, hpc, hk⟩
    · exact .inl ⟨hp.trans hpb, hhole _ hk⟩
    · refine .inr ⟨hp.trans hpr, (rootColor_branch _ _ _ _ _).trans hz'', hne, ?_, hhole _ hk⟩
      cases ctx with
      | nil => exact absurd rfl hne
      | cons g ctx => exact (hctx _ List.mem_cons_self).trans hpc

/-- **The last round**: the sibling with a red child at the other side comes to the place of the
parent. -/
lemma ShortAt.last (h : s.ShortAt (⟨side, p, branch side b w d⟩ :: ctx) t n)
    (hw : s.color w = .black) (hd : d.rootColor s.color = .red) :
    ((((s.setColor w (s.color p)).setColor p .black).setColor (s.ptr d) .black).rotate side p).Balanced
      (plug ctx (branch side t p (branch side b w d))).inorder := by
  obtain ⟨d₁, z, d₂, rfl, hz⟩ := exists_branch_of_red hd side
  rw [TreeLinks.ptr_branch]
  have hnodup := h.nodup_short
  have hzd := (List.nodup_append.mp (List.nodup_append.mp (List.nodup_cons.mp (List.nodup_cons.mp
    (List.nodup_append.mp hnodup).2.1).2).2).2.1).1
  have hz' := (perm_inorder_branch side d₁ z d₂).nodup_iff.mp hzd
  simp only [List.nodup_append, List.nodup_cons, List.mem_cons, List.mem_append, not_or,
    mem_inorder_branch] at hnodup hz'
  have hwmem : w ∈ BinTree.around (⟨side, p, branch side b w (branch side d₁ z d₂)⟩ :: ctx) :=
    List.mem_cons_of_mem _ (List.mem_append_left _ (mem_inorder_branch.mpr (.inl rfl)))
  obtain ⟨s₁, hs₁⟩ : ∃ s₁, s₁ = ((s.setColor w (s.color p)).setColor p .black).setColor z .black :=
    ⟨_, rfl⟩
  have hpw : w ≠ p := by grind
  have hwz : w ≠ z := by grind
  have hpz : p ≠ z := by grind
  have hcolor : ∀ i, i ≠ w → i ≠ p → i ≠ z → s₁.color i = s.color i := by
    intro i hiw hip hiz
    rw [hs₁, setColor_color, if_neg hiz, setColor_color, if_neg hip, setColor_color, if_neg hiw]
  have hw' : s₁.color w = s.color p := by
    rw [hs₁, setColor_color, if_neg hwz, setColor_color, if_neg hpw, setColor_color, if_pos rfl]
  have hp' : s₁.color p = .black := by
    rw [hs₁, setColor_color, if_neg hpz, setColor_color, if_pos rfl]
  have hz'' : s₁.color z = .black := by
    rw [hs₁, setColor_color, if_pos rfl]
  have hat : s₁.At (⟨side, p, branch side b w (branch side d₁ z d₂)⟩ :: ctx) t := by
    rw [hs₁]
    exact ((h.toAt.setColor (.inr ⟨h.focus.ne_nill (.inr hwmem),
      h.focus.ne_rootPtr (.inr hwmem)⟩)).setColor (.inl rfl)).setColor (.inl rfl)
  have hrot := hat.up.rotate
  -- the balance of the parent and of the child
  have ht := fun i (hi : i ∈ t.inorder) => hcolor i (by grind) (by grind) (by grind)
  have hb' := fun i (hi : i ∈ b.inorder) => hcolor i (by grind) (by grind) (by grind)
  have hctx := fun i (hi : i ∈ BinTree.around ctx) => hcolor i (by grind) (by grind) (by grind)
  obtain ⟨hs, hrest⟩ := h.hole
  obtain ⟨m, heq, hb, hdd⟩ := hs.of_black hw
  obtain rfl := Nat.succ.inj heq
  have hleft : RedBlack s₁.color (n + 1) (branch side t p b) :=
    .blackBranch side hp' (h.balance.congr ht) (hb.congr hb')
  have hright : RedBlack s₁.color (n + 1) (branch side d₁ z d₂) :=
    hdd.blacken hz hz'' (fun j hj hjz => by
      rw [mem_inorder_branch] at hj
      exact hcolor j (by grind) (by grind) hjz) hzd
  have horder : (plug ctx (branch side (branch side t p b) w (branch side d₁ z d₂))).inorder
      = (plug ctx (branch side t p (branch side b w (branch side d₁ z d₂)))).inorder :=
    inorder_plug_congr (inorder_rotate _ _ _ _ _ _)
  rw [← hs₁, ← horder]
  rcases hrest with ⟨hpb, hk⟩ | ⟨hpr, -, hne, hpc, hk⟩
  · exact hrot.balanced (.blackBranch side (hw'.trans hpb) hleft hright)
      ((rootColor_branch _ _ _ _ _).trans (hw'.trans hpb)) (hk.congr hctx)
  · have hpc' : parentColor s₁.color ctx = .black := by
      cases ctx with
      | nil => exact absurd rfl hne
      | cons g ctx => exact (hctx _ List.mem_cons_self).trans hpc
    exact ⟨_, hrot.root, rfl, (hk.congr hctx).plug_of_parent (.redBranch side (hw'.trans hpr)
      ((rootColor_branch _ _ _ _ _).trans hp') ((rootColor_branch _ _ _ _ _).trans hz'') hleft hright)
      hne hpc'⟩

/-- After the rounds: `x` becomes black, and then the tree is balanced. -/
def Finished (s : RbTree ν κ β) (root x : ν) (nodes : List ν) : Prop :=
  (x = root ∨ s.color x = .red) ∧ (s.setColor x .black).Balanced nodes

/-- A node that is black already. -/
lemma setColor_self {x : ν} {c : NodeColor} (h : s.color x = c) : s.setColor x c = s := by
  unfold setColor
  rw [← h, Function.update_eq_self]

/-- **The end of the last round**, as the source computes it. -/
lemma ShortAt.deleteLast (h : s.ShortAt (⟨side, p, branch side b w d⟩ :: ctx) t n)
    (hw : s.color w = .black) (hd : d.rootColor s.color = .red)
    (hroot : s.color root = .black ∨ root = p) (hnot : root ≠ w) :
    s.Same (deleteLast side s (s.ptr t) w) ∧
      (deleteLast side s (s.ptr t) w).Finished root root
        (plug ctx (branch side t p (branch side b w d))).inorder := by
  obtain ⟨-, -, hcd⟩ := h.siblingChild
  have hparent : s.parent (s.ptr t) = p := h.parent
  have hlast : RbTree.deleteLast side s (s.ptr t) w
      = (((s.setColor w (s.color p)).setColor p .black).setColor (s.ptr d) .black).rotate side p := by
    simp only [RbTree.deleteLast, setColor_toTreeLinks, hparent, hcd]
  have hcolor : (RbTree.deleteLast side s (s.ptr t) w).color root = .black := by
    rw [hlast, rotate_color, setColor_color, setColor_color, setColor_color, if_neg hnot]
    split_ifs with hd hp
    · rfl
    · rfl
    · exact hroot.resolve_right hp
  refine ⟨?_, .inl rfl, ?_⟩
  · rw [hlast]
    exact (((same_setColor s _ _).trans (same_setColor _ _ _)).trans (same_setColor _ _ _)).trans
      (same_rotate _ _ _)
  · rw [setColor_self hcolor, hlast]
    exact h.last hw hd

/-- **The round before the last**, as the source computes it. -/
lemma ShortAt.deleteInner {b₁ b₂ : BinTree ν} {z : ν}
    (h : s.ShortAt (⟨side, p, branch side (branch side b₁ z b₂) w d⟩ :: ctx) t n)
    (hw : s.color w = .black) (hz : s.color z = .red) (hd : d.rootColor s.color = .black) :
    ∃ s', RbTree.deleteInner side s (s.ptr t) w = (s', z) ∧ s.Same s' ∧ s'.ptr t = s.ptr t ∧
      s'.ShortAt (⟨side, p, branch side b₁ z (branch side b₂ w d)⟩ :: ctx) t n ∧
      s'.color z = .black ∧ s'.color w = .red ∧ ∀ i, i ≠ z → i ≠ w → s'.color i = s.color i := by
  obtain ⟨-, hcb, -⟩ := h.siblingChild
  rw [TreeLinks.ptr_branch] at hcb
  have hshort := h.inner hw hz hd
  obtain ⟨s', hs'⟩ : ∃ s', s' = ((s.setColor z .black).setColor w .red).rotate side.other w := ⟨_, rfl⟩
  rw [← hs'] at hshort
  have hptr : s'.ptr t = s.ptr t := by
    rw [hs']
    exact TreeLinks.ptr_congr (TreeLinks.rotate_nill _ _ _) t
  have hzw : z ≠ w := fun heq => by
    rw [heq, hw] at hz
    cases hz
  refine ⟨s', ?_, ?_, hptr, hshort, ?_, ?_, fun i hiz hiw => ?_⟩
  · have hparent : s'.parent (s.ptr t) = p := hptr ▸ hshort.parent
    have hchild : s'.child side.other p = z := hshort.siblingChild.1
    unfold RbTree.deleteInner
    dsimp only
    rw [hcb, ← hs', hparent, hchild]
  · rw [hs']
    exact ((same_setColor s _ _).trans (same_setColor _ _ _)).trans (same_rotate _ _ _)
  · rw [hs', rotate_color, setColor_color, if_neg hzw, setColor_color, if_pos rfl]
  · rw [hs', rotate_color, setColor_color, if_pos rfl]
  · rw [hs', rotate_color, setColor_color, if_neg hiw, setColor_color, if_neg hiz]

/-- **A round with a black sibling.** -/
lemma ShortAt.blackSibling (h : s.ShortAt (⟨side, p, branch side b w d⟩ :: ctx) t n)
    (hw : s.color w = .black) (hroot : s.color root = .black ∨ root = p)
    (hnot : root ∉ (branch side b w d).inorder) :
    ∃ s' x, deleteBlackSibling side root s (s.ptr t) w = (s', x) ∧ s.Same s' ∧
      ((s.color p = .black ∧ s'.toTreeLinks = s.toTreeLinks ∧ ∃ m, s'.ptr (branch side t p
          (branch side b w d)) = x ∧ s'.ShortAt ctx (branch side t p (branch side b w d)) m) ∨
        s'.Finished root x (plug ctx (branch side t p (branch side b w d))).inorder) := by
  obtain ⟨-, hcb, hcd⟩ := h.siblingChild
  have hparent : s.parent (s.ptr t) = p := h.parent
  have hb := h.color_ptr b
  have hd := h.color_ptr d
  have hmem : ∀ i, i ∈ (branch side b w d).inorder ↔ i = w ∨ i ∈ b.inorder ∨ i ∈ d.inorder := fun i =>
    mem_inorder_branch
  unfold deleteBlackSibling
  rw [hcb, hcd, hb, hd]
  by_cases hblack : b.rootColor s.color = .black ∧ d.rootColor s.color = .black
  · rw [if_pos hblack, hparent]
    refine ⟨_, _, rfl, same_setColor _ _ _, ?_⟩
    rcases h.recolor hw hblack.1 hblack.2 with ⟨hp, hshort⟩ | ⟨hp, hbalanced⟩
    · exact .inl ⟨hp, rfl, n + 1, TreeLinks.ptr_branch _ _ _ _ _, hshort⟩
    · have hpw : p ≠ w := by
        have hnodup := h.nodup_short
        simp only [List.nodup_append, List.nodup_cons, List.mem_cons, List.mem_append, not_or] at hnodup
        grind
      refine .inr ⟨.inr ?_, hbalanced⟩
      rw [setColor_color, if_neg hpw, hp]
  · rw [if_neg hblack]
    have hrootw : root ≠ w := fun heq => hnot ((hmem root).mpr (.inl heq))
    cases hdcolor : d.rootColor s.color with
    | red =>
        obtain ⟨hsame, hfinished⟩ := h.deleteLast hw hdcolor hroot hrootw
        exact ⟨_, root, rfl, hsame, .inr hfinished⟩
    | black =>
        have hbred : b.rootColor s.color = .red := by
          cases hbcolor : b.rootColor s.color with
          | red => rfl
          | black => exact absurd ⟨hbcolor, hdcolor⟩ hblack
        obtain ⟨b₁, z, b₂, rfl, hz⟩ := exists_branch_of_red hbred side
        obtain ⟨s', hinner, hsame, hptr, hshort, hz', hw', hcolor⟩ := h.deleteInner hw hz hdcolor
        have hrootz : root ≠ z := fun heq =>
          hnot ((hmem root).mpr (.inr (.inl (mem_inorder_branch.mpr (.inl heq)))))
        have hroot' : s'.color root = .black ∨ root = p := by
          rw [hcolor root hrootz hrootw]
          exact hroot
        obtain ⟨hsame', hfinished⟩ := hshort.deleteLast hz' ((rootColor_branch _ _ _ _ _).trans hw')
          hroot' hrootz
        have horder : (plug ctx (branch side t p (branch side b₁ z (branch side b₂ w d)))).inorder
            = (plug ctx (branch side t p (branch side (branch side b₁ z b₂) w d))).inorder :=
          inorder_plug_congr (inorder_branch_congr side
            (inorder_rotate side b₁ b₂ d z w).symm)
        rw [if_pos rfl, hinner]
        rw [horder, hptr] at hfinished
        rw [hptr] at hsame'
        exact ⟨_, root, rfl, hsame.trans hsame', .inr hfinished⟩

/-- **One round**, for both sides. -/
lemma ShortAt.deleteRound {u : BinTree ν} (h : s.ShortAt (⟨side, p, u⟩ :: ctx) t n)
    (hroot : s.color root = .black) (hnot : root ∉ u.inorder) :
    ∃ s' x, RbTree.deleteRound side root s (s.ptr t) = (s', x) ∧ s.Same s' ∧
      ((s'.child .left s'.rootPtr = s.child .left s.rootPtr ∧
          ∃ m, s'.ptr (branch side t p u) = x ∧ s'.ShortAt ctx (branch side t p u) m) ∨
        s'.Finished root x (plug ctx (branch side t p u)).inorder) := by
  obtain ⟨b, w, d, rfl⟩ := h.exists_sibling
  have hparent : s.parent (s.ptr t) = p := h.parent
  have hchild : s.child side.other p = w := h.siblingChild.1
  have hmem : ∀ i, i ∈ (branch side b w d).inorder ↔ i = w ∨ i ∈ b.inorder ∨ i ∈ d.inorder := fun i =>
    mem_inorder_branch
  unfold RbTree.deleteRound
  dsimp only
  rw [hparent, hchild]
  cases hw : s.color w with
  | black =>
      rw [if_neg (fun h => by cases h)]
      obtain ⟨s', x, hround, hsame, hcase⟩ := h.blackSibling hw (.inl hroot) hnot
      refine ⟨s', x, hround, hsame, hcase.imp_left ?_⟩
      rintro ⟨-, hlinks, hshort⟩
      exact ⟨by rw [hlinks], hshort⟩
  | red =>
      obtain ⟨hshort, hb⟩ := h.redSibling hw
      obtain ⟨s₁, hs₁⟩ : ∃ s₁, s₁ = ((s.setColor w .black).setColor p .red).rotate side p := ⟨_, rfl⟩
      rw [← hs₁] at hshort
      have hsame₁ : s.Same s₁ := by
        rw [hs₁]
        exact ((same_setColor s _ _).trans (same_setColor _ _ _)).trans (same_rotate _ _ _)
      have hptr : s₁.ptr t = s.ptr t := TreeLinks.ptr_congr hsame₁.nill t
      have hpw : p ≠ w := by
        have hnodup := h.nodup_short
        simp only [List.nodup_append, List.nodup_cons, List.mem_cons, List.mem_append, not_or] at hnodup
        grind
      have hp₁ : s₁.color p = .red := by
        rw [hs₁, rotate_color, setColor_color, if_pos rfl]
      have hroot₁ : s₁.color root = .black ∨ root = p := by
        rw [hs₁, rotate_color, setColor_color]
        split_ifs with hrootp
        · exact .inr hrootp
        · rw [setColor_color, if_neg fun heq => hnot ((hmem root).mpr (.inl heq))]
          exact .inl hroot
      -- the new sibling is black and has black nodes on the way
      obtain ⟨b₁, w₁, d₁, rfl⟩ := hshort.exists_sibling
      have hw₁ : s₁.color w₁ = .black := by
        obtain ⟨-, ⟨hp, -⟩ | ⟨-, hblack, -⟩⟩ := hshort.hole
        · exact absurd (hp.symm.trans hp₁) (fun h => by cases h)
        · exact (rootColor_branch _ _ _ _ _).symm.trans hblack
      have hnot₁ : root ∉ (branch side b₁ w₁ d₁).inorder := fun hi =>
        hnot ((hmem root).mpr (.inr (.inl hi)))
      obtain ⟨s', x, hround, hsame, hcase⟩ := hshort.blackSibling hw₁ hroot₁ hnot₁
      have hnext : RbTree.deleteRedSibling side s (s.ptr t) w = (s₁, w₁) := by
        have hparent₁ : s₁.parent (s.ptr t) = p := hptr ▸ hshort.parent
        have hchild₁ : s₁.child side.other p = w₁ := hshort.siblingChild.1
        simp only [RbTree.deleteRedSibling, setColor_toTreeLinks, hparent]
        rw [← hs₁, hparent₁, hchild₁]
      have horder : (plug (⟨side, w, d⟩ :: ctx) (branch side t p (branch side b₁ w₁ d₁))).inorder
          = (plug ctx (branch side t p (branch side (branch side b₁ w₁ d₁) w d))).inorder :=
        inorder_plug_congr (inorder_rotate _ _ _ _ _ _)
      rw [if_pos rfl, hnext]
      rw [hptr] at hround
      rw [horder] at hcase
      refine ⟨s', x, hround, hsame₁.trans hsame, .inr (hcase.resolve_left fun hp => ?_)⟩
      cases hp.1.symm.trans hp₁

/-! ### The loop -/

/-- Between two rounds. -/
def DeleteInv (s₀ : RbTree ν κ β) (root : ν) (nodes : List ν) (m : ℕ) : RbTree ν κ β × ν → Prop
  | (s, x) => s₀.Same s ∧
      ((s.child .left s.rootPtr = root ∧ ∃ ctx t n, ctx.length < m ∧ s.ptr t = x ∧
          s.ShortAt ctx t n ∧ (plug ctx t).inorder = nodes) ∨
        s.Finished root x nodes)

lemma deleteFixupRound_inv {s₀ : RbTree ν κ β} {nodes : List ν} (m : ℕ) (q : RbTree ν κ β × ν)
    (h : DeleteInv s₀ root nodes m q) :
    (deleteFixupRound root q).elim (fun q' => ∃ k < m, DeleteInv s₀ root nodes k q')
      fun s' => s₀.Same s' ∧ s'.Balanced nodes := by
  obtain ⟨s, x⟩ := q
  obtain ⟨hsame, ⟨hroot, ctx, t, n, hlen, rfl, hshort, hnodes⟩ | ⟨hexit, hbalanced⟩⟩ := h
  · have hblack : s.color (s.ptr t) = .black := (hshort.color_ptr t).trans hshort.black
    unfold deleteFixupRound
    dsimp only
    cases ctx with
    | nil =>
        have hx : s.ptr t = root := hshort.focus.around.symm.trans hroot
        rw [if_neg fun h => h.1 hx, setColor_self hblack]
        refine ⟨hsame, ?_⟩
        rw [← hnodes]
        exact hshort.toAt.balanced hshort.balance hshort.black trivial
    | cons f ctx =>
        obtain ⟨side, p, u⟩ := f
        have hmem := root_mem_around hshort.focus
        rw [hroot] at hmem
        have hne : s.ptr t ≠ root := by
          rintro rfl
          rcases s.ptr_mem t with ⟨-, hnill⟩ | ⟨-, ht⟩
          · exact hshort.focus.ne_nill (.inr hmem) hnill
          · exact hshort.focus.not_mem_around ht hmem
        have hrootb : s.color root = .black := hroot ▸ root_black hshort.focus hshort.hole
        have hnot : root ∉ u.inorder := by
          have htop := root_not_mem_sibling hshort.focus
          rwa [hroot] at htop
        have hparent : s.parent (s.ptr t) = p := hshort.parent
        obtain ⟨b, w, d, hu⟩ := hshort.exists_sibling
        have hleft := hshort.focus.ptr_eq_child (.inr (hu ▸ branch_ne_nil _ _ _ _)) .left
        obtain ⟨s', x, hround, hsame', hcase⟩ := hshort.deleteRound hrootb hnot
        have hinv : ∃ k < m, DeleteInv s₀ root nodes k (RbTree.deleteRound side root s (s.ptr t)) := by
          rw [hround]
          refine ⟨ctx.length + 1, hlen, hsame.trans hsame', ?_⟩
          rcases hcase with ⟨hlinks, k, hx, hshort'⟩ | hfinished
          · exact .inl ⟨hlinks.trans hroot, ctx, _, k, Nat.lt_succ_self _, hx, hshort', hnodes⟩
          · exact .inr (hnodes ▸ hfinished)
        rw [if_pos ⟨hne, hblack⟩, hparent]
        cases side with
        | left =>
            rw [if_pos (hleft.mpr rfl)]
            exact hinv
        | right =>
            rw [if_neg fun heq => by cases hleft.mp heq]
            exact hinv
  · unfold deleteFixupRound
    dsimp only
    have hstop : ¬ (x ≠ root ∧ s.color x = .black) := by
      rintro ⟨hne, hb⟩
      rcases hexit with hx | hred
      · exact hne hx
      · cases hb.symm.trans hred
    rw [if_neg hstop]
    exact ⟨hsame.trans (same_setColor _ _ _), hbalanced⟩

/-- **The rounds end** with a balanced tree. -/
theorem btreeDeleteFixup_spec {nodes : List ν} {x : ν} {m fuel : ℕ}
    (h : DeleteInv s (s.child .left s.rootPtr) nodes m (s, x)) (hfuel : m < fuel) :
    ∃ s', s.btreeDeleteFixup x fuel = some s' ∧ s.Same s' ∧ s'.Balanced nodes :=
  loop_rule _ _ deleteFixupRound_inv h hfuel

/-! ### Taking a node out -/

/-- The child that comes to the place of a node with an empty subtree. -/
lemma child_spliceOut {u : BinTree ν} {x : ν} (h : s.toTreeLinks.Focus ctx (branch side u x .nil)) :
    (if s.child .left x = s.nill then s.child .right x else s.child .left x) = s.ptr u := by
  obtain ⟨-, hu, hnil, -, -⟩ := TreeLinks.shape_branch.mp h.shape
  cases side with
  | left =>
      split_ifs with hleft
      · exact hnil.trans (hleft.symm.trans hu)
      · exact hu
  | right => exact (if_pos hnil).trans hu

/-- **A node with an empty subtree** is taken out: its other subtree comes to its place. -/
lemma spliceOut_spec {u : BinTree ν} {x : ν} (h : s.At ctx (branch side u x .nil)) :
    ∃ s', s.spliceOut x = (s', s'.ptr u) ∧ s'.At ctx u ∧ s'.parent (s'.ptr u) = s'.top ctx ∧
      s.Same s' ∧ s'.color = s.color := by
  have hy := child_spliceOut h.focus
  have hparent : s.parent x = s.top ctx := h.focus.parent
  have hnodup := h.focus.nodup
  have hperm := ((((perm_inorder_branch side u x .nil).append_right
    (BinTree.around ctx)).cons s.nill).cons s.rootPtr)
  have hall := hperm.nodup_iff.mp hnodup
  have htop := s.top_mem ctx
  have hptr := s.ptr_mem u
  simp only [List.nodup_cons, List.nodup_append, List.mem_cons, List.mem_append, List.cons_append,
    not_or, BinTree.inorder, List.append_nil] at hall htop
  obtain ⟨s', hs'⟩ : ∃ s', s' = (s.setParent (s.ptr u) (s.top ctx)).setChild (TreeLinks.holeSide ctx)
      (s.top ctx) (s.ptr u) := ⟨_, rfl⟩
  have hparent' : ∀ j, s'.parent j = if j = s.ptr u then s.top ctx else s.parent j := by
    intro j
    rw [hs']
    exact TreeLinks.setParent_parent _ _ _ _
  have hchild' : ∀ sd j, s'.child sd j
      = if sd = TreeLinks.holeSide ctx ∧ j = s.top ctx then s.ptr u else s.child sd j := by
    intro sd j
    rw [hs']
    exact TreeLinks.setChild_child _ _ _ _ _ _
  have hnill : s'.nill = s.nill := by
    rw [hs']
    rfl
  have hroot : s'.rootPtr = s.rootPtr := by
    rw [hs']
    rfl
  have hcolor : s'.color = s.color := by
    rw [hs']
    rfl
  have hptr' : s'.ptr u = s.ptr u := TreeLinks.ptr_congr hnill u
  have hright := h.focus.not_right_top
  refine ⟨s', ?_, ⟨⟨?_, ?_, ?_⟩, ?_, ?_, ?_⟩, ?_, ?_, hcolor⟩
  · have hself : (s.setParent (s.ptr u) (s.top ctx)).parent (s.ptr u) = s.top ctx :=
      (TreeLinks.setParent_parent _ _ _ _).trans (if_pos rfl)
    have hother : (s.setParent (s.ptr u) (s.top ctx)).parent x = s.top ctx :=
      (TreeLinks.setParent_parent _ _ _ _).trans ((if_neg (by grind)).trans hparent)
    unfold spliceOut
    dsimp only
    rw [hy, hparent, hself, hother, hptr', hs']
    cases ctx with
    | nil => exact if_pos rfl
    | cons f ctx =>
        have hne : f.node ≠ s.rootPtr := h.focus.ne_rootPtr (.inr List.mem_cons_self)
        have hleft : x = s.child .left f.node ↔ f.side = .left := by
          have hiff := h.focus.ptr_eq_child (.inl (branch_ne_nil _ _ _ _)) .left
          rwa [TreeLinks.ptr_branch] at hiff
        rw [if_neg (show ¬ s.top (f :: ctx) = (s.setParent _ _).rootPtr from hne)]
        show (if x = s.child .left f.node then _ else _) = _
        cases hside : f.side with
        | left =>
            rw [if_pos (hleft.mpr hside)]
            show _ = ((s.setParent _ _).setChild f.side _ _, _)
            rw [hside]
        | right =>
            rw [if_neg fun heq => by cases hside.symm.trans (hleft.mp heq)]
            show _ = ((s.setParent _ _).setChild f.side _ _, _)
            rw [hside]
  · rw [TreeLinks.top_congr hroot]
    obtain ⟨-, -, -, hshape, -⟩ := TreeLinks.shape_branch.mp h.focus.shape
    refine hshape.reparent hnill (fun _ => ?_) (fun i hi hne => ?_) (fun sd i hi => ?_) (by grind)
    · rw [hparent', if_pos rfl]
    · rw [hparent', if_neg hne]
    · rw [hchild', if_neg (by grind)]
  · refine h.focus.around.relink hnill hroot h.focus.nodup_around ?_ ?_ (fun j hj => ?_)
      fun sd j hj hne => ?_
    · rw [hchild', if_pos ⟨rfl, rfl⟩, hptr']
    · rw [hchild', if_neg fun h => (TreeLinks.holeSide ctx).other_ne h.1]
    · rw [hparent', if_neg (by grind)]
    · rw [hchild', if_neg fun h => hne h.2]
  · rw [hnill, hroot]
    simp only [List.nodup_cons, List.nodup_append, List.mem_cons, List.mem_append, not_or]
    grind
  · rw [hnill, hcolor, h.nillBlack]
  · rw [hroot, hcolor, h.rootBlack]
  · rw [hroot, hnill, hchild', if_neg hright, h.rootRight]
  · rw [hptr', hparent', if_pos rfl, TreeLinks.top_congr hroot]
  · rw [hs']
    exact ⟨rfl, rfl, rfl, rfl, rfl, rfl⟩

/-! ### The successor -/

/-- Between two rounds on the way down to the successor. -/
def SuccessorInv (s : RbTree ν κ β) (whole : BinTree ν) (left : List ν) (m : ℕ) (q : ν) : Prop :=
  ∃ ctx l r, s.toTreeLinks.Focus ctx (.node l q r) ∧ plug ctx (.node l q r) = whole ∧
    BinTree.before ctx = left ∧ l.inorder.length ≤ m

lemma successorDownRound_inv {whole : BinTree ν} {left : List ν} (m : ℕ) (q : ν)
    (h : s.SuccessorInv whole left m q) :
    (s.successorDownRound q).elim (fun q' => ∃ k < m, s.SuccessorInv whole left k q') fun q' =>
      ∃ ctx r, s.toTreeLinks.Focus ctx (.node .nil q' r) ∧ plug ctx (.node .nil q' r) = whole ∧
        BinTree.before ctx = left := by
  obtain ⟨ctx, l, r, hfocus, hwhole, hbefore, hlen⟩ := h
  have hl : s.child .left q = s.ptr l := hfocus.shape.2.1
  unfold successorDownRound
  rw [hl]
  cases l with
  | nil =>
      rw [if_neg fun h => h rfl]
      exact ⟨ctx, r, hfocus, hwhole, hbefore⟩
  | node a i b =>
      have hdown : s.toTreeLinks.Focus (⟨.left, q, r⟩ :: ctx) (.node a i b) := hfocus.down .left
      have hmem : i ∈ (BinTree.node a i b).inorder := List.mem_append_right _ List.mem_cons_self
      have hne : s.ptr (.node a i b) ≠ s.nill := hdown.ne_nill (.inl hmem)
      rw [if_pos hne]
      rw [BinTree.inorder, List.length_append, List.length_cons] at hlen
      exact ⟨a.inorder.length, by omega, _, a, b, hdown, hwhole, hbefore, Nat.le_refl _⟩

/-- **The successor** of a node with a right subtree. -/
theorem btreeSuccessor_spec {whole l r : BinTree ν} (h : s.toTreeLinks.Focus ctx (.node l p r))
    (hwhole : plug ctx (.node l p r) = whole) (hr : r ≠ .nil) {fuel : ℕ}
    (hfuel : whole.inorder.length < fuel) :
    ∃ q ctx' r', s.btreeSuccessor p fuel = some q ∧ s.toTreeLinks.Focus ctx' (.node .nil q r') ∧
      plug ctx' (.node .nil q r') = whole ∧
      BinTree.before ctx' = BinTree.before ctx ++ (l.inorder ++ [p]) := by
  have hchild : s.child .right p = s.ptr r := h.shape.2.2.1
  have hdown : s.toTreeLinks.Focus (⟨.right, p, l⟩ :: ctx) r := h.down .right
  unfold btreeSuccessor
  rw [hchild]
  cases r with
  | nil => exact absurd rfl hr
  | node a i b =>
      have hmem : i ∈ (BinTree.node a i b).inorder := List.mem_append_right _ List.mem_cons_self
      have hne : s.ptr (.node a i b) ≠ s.nill := hdown.ne_nill (.inl hmem)
      have hlen : a.inorder.length ≤ whole.inorder.length := by
        rw [← hwhole, inorder_plug]
        simp only [BinTree.inorder, List.length_append, List.length_cons]
        omega
      rw [if_neg hne]
      have hinv : s.SuccessorInv whole (BinTree.before ctx ++ (l.inorder ++ [p])) whole.inorder.length
          (s.ptr (.node a i b)) := ⟨_, a, b, hdown, hwhole, rfl, hlen⟩
      obtain ⟨q, hq, ctx', r', hfocus, hwhole', hbefore⟩ :=
        loop_rule _ _ successorDownRound_inv hinv hfuel
      exact ⟨q, ctx', r', hq, hfocus, hwhole', hbefore⟩

/-! ### The deletion -/

/-- **A node is taken out** of a balanced tree, and the balance is restored. -/
lemma Shaped.takeOut {whole u : BinTree ν} {x : ν} (h : s.Shaped whole)
    (hfocus : s.toTreeLinks.Focus ctx (branch side u x .nil))
    (hwhole : plug ctx (branch side u x .nil) = whole) :
    ∃ s₁ y, s.spliceOut x = (s₁, y) ∧ s.Same s₁ ∧ s₁.color = s.color ∧
      ∀ s₂ : RbTree ν κ β, s₂.toTreeLinks = s₁.toTreeLinks → s₂.color = s₁.color →
        ∀ fuel, s.treeSize < fuel →
          ∃ s₃, (if s₂.color x = .black then s₂.btreeDeleteFixup y fuel else some s₂) = some s₃ ∧
            s₂.Same s₃ ∧ s₃.Balanced (plug ctx u).inorder := by
  have hat : s.At ctx (branch side u x .nil) := ⟨hfocus, h.nillBlack, h.rootBlack, h.rootRight⟩
  obtain ⟨s₁, hsplice, hat₁, hparent₁, hsame₁, hcolor₁⟩ := spliceOut_spec hat
  refine ⟨s₁, _, hsplice, hsame₁, hcolor₁, fun s₂ hlinks hcolor fuel hfuel => ?_⟩
  have hat₂ : s₂.At ctx u := hat₁.congr hlinks hcolor
  have hcolor₂ : s₂.color = s.color := hcolor.trans hcolor₁
  have hptr : s₂.ptr u = s₁.ptr u := by rw [hlinks]
  obtain ⟨n, hbalance⟩ := h.balance
  have hblack := h.black
  rw [← hwhole] at hbalance hblack
  obtain ⟨m, hx, hhole, -⟩ := hbalance.of_plug hblack
  rw [← hcolor₂] at hx hhole
  cases hcx : s₂.color x with
  | red =>
      obtain ⟨hub, -, hu, -⟩ := hx.of_red hcx
      rw [if_neg fun h => by cases h]
      exact ⟨s₂, rfl, Same.refl s₂, hat₂.balanced hu hub hhole⟩
  | black =>
      obtain ⟨k, rfl, hu, -⟩ := hx.of_black hcx
      rw [if_pos rfl, ← hptr]
      have hlen : ctx.length + 1 < fuel := by
        have hframes := length_le_around ctx
        have hnodes := (perm_plug ctx (branch side u x .nil)).length_eq
        have hone := (perm_inorder_branch side u x .nil).length_eq
        have hsize := h.size
        rw [hwhole, List.length_append, hone, List.length_cons] at hnodes
        omega
      refine btreeDeleteFixup_spec (m := ctx.length + 1) ⟨Same.refl s₂, ?_⟩ hlen
      cases hcu : u.rootColor s₂.color with
      | black =>
          refine .inl ⟨rfl, ctx, u, k, Nat.lt_succ_self _, rfl, ⟨hat₂, ?_, hu, hcu, hhole⟩, rfl⟩
          rw [hlinks]
          exact hparent₁
      | red =>
          obtain ⟨a, z, b, rfl, hz⟩ := exists_branch_of_red hcu .left
          have hpz : (s₂.setColor z .black).color z = .black := by
            rw [setColor_color, if_pos rfl]
          have hnot := fun i hi => hat₂.focus.not_mem_around (i := i) hi
          refine .inr ⟨.inr ((hat₂.color_ptr _).trans hcu), ?_⟩
          rw [TreeLinks.ptr_branch]
          refine (hat₂.setColor (.inl rfl)).balanced (n := k + 1) ?_ ?_ ?_
          · exact hu.blacken hz hpz (fun j _ hne => by rw [setColor_color, if_neg hne])
              hat₂.focus.nodup_inorder
          · exact (rootColor_branch _ _ _ _ _).trans hpz
          · refine hhole.congr fun j hj => ?_
            have hne : j ≠ z := fun heq => hnot z (mem_inorder_branch.mpr (.inl rfl)) (heq ▸ hj)
            rw [setColor_color, if_neg hne]

omit [DecidableEq ν] in
/-- Without one of the entries the keys still are in order. -/
lemma Sorted.remove {nodes nodes' : List ν} {a b : List (κ × Option β)} {e : κ × Option β}
    (h : s.Sorted nodes) (hold : s.entries nodes = a ++ e :: b) (hnew : s'.entries nodes' = a ++ b)
    (hcomp : s'.comp = s.comp) : s'.Sorted nodes' := by
  have hkeys : ∀ (s : RbTree ν κ β) (nodes : List ν),
      nodes.map s.key = (s.entries nodes).map Prod.fst := fun s nodes => by
    rw [entries, List.map_map]
    rfl
  unfold Sorted at h ⊢
  rw [hkeys, hold] at h
  rw [hkeys, hnew, hcomp]
  exact h.sublist (((List.sublist_cons_self e b).append_left a).map _)

/-- **The rest of a deletion**, when the node `p` has been found, and the node `x` is to be taken out: `p`
itself, or its successor, whose entry is copied to `p`. -/
lemma Shaped.delete_of_found {whole u : BinTree ν} {x : ν} {key : κ} {a b : List (κ × Option β)}
    (h : s.Shaped whole) (side : Side) {fuel : ℕ} (hfuel : s.treeSize < fuel)
    (hfind : s.findNode key fuel = some (some p))
    (htodelete : (if s.child .left p = s.nill ∨ s.child .right p = s.nill then some p
      else s.btreeSuccessor p fuel) = some x)
    (hfocus : s.toTreeLinks.Focus ctx (branch side u x .nil))
    (hwhole : plug ctx (branch side u x .nil) = whole)
    (hnew : (if x ≠ p then s.setEntry p (s.key x) (s.value x) else s).entries (plug ctx u).inorder
      = a ++ b) :
    ∃ s' t', s.delete key fuel = some (.success, some x, s') ∧ s'.Shaped t' ∧
      s'.entries t'.inorder = a ++ b ∧ whole.inorder.Perm (x :: t'.inorder) ∧
      s'.comp = s.comp ∧ s'.rootPtr = s.rootPtr ∧ s'.nill = s.nill := by
  obtain ⟨s₁, y, hsplice, hsame₁, hcolor₁, hrest⟩ := h.takeOut hfocus hwhole
  obtain ⟨s₂, hs₂⟩ : ∃ s₂, s₂ = if x ≠ p then s₁.setEntry p (s₁.key x) (s₁.value x) else s₁ :=
    ⟨_, rfl⟩
  have hlinks : s₂.toTreeLinks = s₁.toTreeLinks ∧ s₂.color = s₁.color ∧
      s₂.treeSize = s₁.treeSize ∧ s₂.comp = s₁.comp := by
    rw [hs₂]
    split_ifs <;> exact ⟨rfl, rfl, rfl, rfl⟩
  have hentry : ∀ nodes, s₂.entries nodes
      = (if x ≠ p then s.setEntry p (s.key x) (s.value x) else s).entries nodes := by
    intro nodes
    rw [hs₂]
    split_ifs <;> simp only [entries, setEntry, hsame₁.key, hsame₁.value]
  obtain ⟨s₃, hfix, hsame₃, t', hat, horder, hblack, hbalance⟩ := hrest s₂ hlinks.1 hlinks.2.1 fuel hfuel
  have hperm : whole.inorder.Perm (x :: t'.inorder) := by
    rw [horder, ← hwhole]
    refine (perm_plug ctx _).trans (((perm_inorder_branch side u x .nil).append_right _).trans ?_)
    refine List.Perm.cons x ?_
    rw [BinTree.inorder, List.append_nil]
    exact (perm_plug ctx u).symm
  have hcomp : s₃.comp = s.comp := by
    rw [hsame₃.comp, hlinks.2.2.2, hsame₁.comp]
  have hsize : s₃.treeSize = s.treeSize := by
    rw [hsame₃.treeSize, hlinks.2.2.1, hsame₁.treeSize]
  have hentries : s₃.entries t'.inorder = a ++ b := by
    rw [horder, ← hnew, ← hentry]
    simp only [entries, hsame₃.key, hsame₃.value]
  refine ⟨{ s₃ with treeSize := s₃.treeSize - 1 }, t', ?_, ⟨hat.congr rfl rfl, hbalance, hblack, ?_⟩,
    hentries, hperm, hcomp, ?_, ?_⟩
  · unfold delete
    rw [hfind, Option.bind_some]
    dsimp only
    rw [htodelete, Option.bind_some, hsplice]
    dsimp only
    rw [← hs₂, hfix]
    rfl
  · have hlen := hperm.length_eq
    rw [List.length_cons] at hlen
    show s₃.treeSize - 1 = t'.inorder.length
    rw [hsize, h.size, hlen, Nat.add_sub_cancel]
  · show s₃.rootPtr = s.rootPtr
    rw [hsame₃.rootPtr, hlinks.1, hsame₁.rootPtr]
  · show s₃.nill = s.nill
    rw [hsame₃.nill, hlinks.1, hsame₁.nill]

/-- **What a deletion does.** One entry with an equal key leaves the tree, and one node; or nothing has
changed, and there is no such entry if the keys are in order. -/
theorem delete_spec {whole : BinTree ν} (h : s.Shaped whole) (key : κ) {fuel : ℕ}
    (hfuel : s.treeSize < fuel) :
    (s.delete key fuel = some (.notFound, none, s) ∧
      (TotalComp s.comp → s.Sorted whole.inorder →
        ∀ i ∈ whole.inorder, s.comp key (s.key i) ≠ 0)) ∨
    ∃ a e b, s.entries whole.inorder = a ++ e :: b ∧ s.comp key e.1 = 0 ∧
      ∃ x s' t', s.delete key fuel = some (.success, some x, s') ∧ s'.Shaped t' ∧
        s'.entries t'.inorder = a ++ b ∧ whole.inorder.Perm (x :: t'.inorder) ∧
        s'.comp = s.comp ∧ s'.rootPtr = s.rootPtr ∧ s'.nill = s.nill := by
  obtain ⟨found, hsearch, ⟨p, rfl, ⟨ctx, l, r, hfocus, hwhole⟩, hequal⟩ | ⟨rfl, hno⟩⟩ :=
    search_spec h key some none hfuel
  · right
    have hl : s.child .left p = s.ptr l := hfocus.shape.2.1
    have hr : s.child .right p = s.ptr r := hfocus.shape.2.2.1
    have horder : whole.inorder = BinTree.before ctx ++ ((l.inorder ++ p :: r.inorder) ++
        BinTree.after ctx) := by
      rw [← hwhole, inorder_plug]
      rfl
    have hfind : s.findNode key fuel = some (some p) := hsearch
    have hself : ¬ p ≠ p := fun h => h rfl
    by_cases hnil : l = .nil ∨ r = .nil
    · -- the node itself is taken out
      have htodelete : (if s.child .left p = s.nill ∨ s.child .right p = s.nill then some p
          else s.btreeSuccessor p fuel) = some p := by
        refine if_pos ?_
        rw [hl, hr]
        rcases hnil with rfl | rfl
        · exact .inl rfl
        · exact .inr rfl
      rcases hnil with rfl | rfl
      · refine ⟨s.entries (BinTree.before ctx), (s.key p, s.value p),
          s.entries (r.inorder ++ BinTree.after ctx), ?_, hequal, p,
          h.delete_of_found .right hfuel hfind htodelete hfocus hwhole ?_⟩
        · rw [horder]
          simp [entries, BinTree.inorder]
        · rw [if_neg hself, inorder_plug]
          simp [entries]
      · refine ⟨s.entries (BinTree.before ctx ++ l.inorder), (s.key p, s.value p),
          s.entries (BinTree.after ctx), ?_, hequal, p,
          h.delete_of_found .left hfuel hfind htodelete hfocus hwhole ?_⟩
        · rw [horder]
          simp [entries, BinTree.inorder]
        · rw [if_neg hself, inorder_plug]
          simp [entries]
    · -- the successor is taken out, and its entry is copied
      have hl' : l ≠ .nil := fun heq => hnil (.inl heq)
      have hr' : r ≠ .nil := fun heq => hnil (.inr heq)
      have hptr : ∀ u : BinTree ν, u ≠ .nil → (∀ i ∈ u.inorder, i ∈ (BinTree.node l p r).inorder) →
          s.ptr u ≠ s.nill := by
        intro u hu hsub
        exact hfocus.ne_nill (.inl (hsub _ ((s.ptr_mem u).resolve_left fun h => hu h.1).2))
      obtain ⟨q, ctx', r', hsucc, hfocus', hwhole', hbefore⟩ :=
        btreeSuccessor_spec hfocus hwhole hr' (h.size ▸ hfuel)
      have htodelete : (if s.child .left p = s.nill ∨ s.child .right p = s.nill then some p
          else s.btreeSuccessor p fuel) = some q := by
        rw [if_neg ?_, hsucc]
        rw [hl, hr]
        rintro (heq | heq)
        · exact hptr l hl' (fun i hi => List.mem_append_left _ hi) heq
        · exact hptr r hr' (fun i hi => List.mem_append_right _ (List.mem_cons_of_mem _ hi)) heq
      have horder' : whole.inorder = BinTree.before ctx ++ (l.inorder ++ p :: q ::
          (r'.inorder ++ BinTree.after ctx')) := by
        rw [← hwhole', inorder_plug, hbefore]
        simp [BinTree.inorder]
      have hnodup := h.focus.nodup_inorder
      rw [horder'] at hnodup
      simp only [List.nodup_append, List.nodup_cons, List.mem_append, List.mem_cons, not_or] at hnodup
      have hqp : q ≠ p := by grind
      have hsame : ∀ i, i ≠ p → ((s.setEntry p (s.key q) (s.value q)).key i,
          (s.setEntry p (s.key q) (s.value q)).value i) = (s.key i, s.value i) := by
        intro i hi
        simp [setEntry, Function.update_of_ne hi]
      have hcopied : ∀ nodes : List ν, p ∉ nodes →
          (s.setEntry p (s.key q) (s.value q)).entries nodes = s.entries nodes := by
        intro nodes hp
        exact List.map_congr_left fun i hi => hsame i (fun heq => hp (heq ▸ hi))
      refine ⟨s.entries (BinTree.before ctx ++ l.inorder), (s.key p, s.value p),
        s.entries (q :: (r'.inorder ++ BinTree.after ctx')), ?_, hequal, q,
        h.delete_of_found .right hfuel hfind htodelete hfocus' hwhole' ?_⟩
      · rw [horder']
        simp [entries]
      · have hsplit : (plug ctx' r').inorder = (BinTree.before ctx ++ l.inorder) ++ (p ::
            (r'.inorder ++ BinTree.after ctx')) := by
          rw [inorder_plug, hbefore]
          simp
        have hleft := hcopied (BinTree.before ctx ++ l.inorder) (by grind)
        have hright := hcopied (r'.inorder ++ BinTree.after ctx') (by grind)
        have hp : ((s.setEntry p (s.key q) (s.value q)).key p,
            (s.setEntry p (s.key q) (s.value q)).value p) = (s.key q, s.value q) := by
          simp [setEntry]
        rw [if_pos hqp, hsplit]
        unfold entries at hleft hright ⊢
        rw [List.map_append, List.map_cons, hleft, hright, hp, List.map_cons]
  · left
    refine ⟨?_, hno⟩
    have hfind : s.findNode key fuel = some none := hsearch
    unfold delete
    rw [hfind]
    rfl

end RbTree

end Ocoms
