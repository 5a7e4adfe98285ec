import Ocoms.Util.RbTreeRotate

/-!
The invariant of the red-black tree, and searches in it.

* `TotalComp`: the comparison function is a total preorder.
* `RbTree.Shaped`: the memory holds a balanced tree. This does not depend on the comparison function.
  `RbTree.Inv`: the keys are in order, too.
* `Way` is the way of a search. It goes on with `Way.down`, and `Way.order` is what it says of the keys
  if they are in order.
* `search_spec` and `findLeaf_spec` are the two searches.
-/

namespace Ocoms

open BinTree

/-- **A comparison function** that is a total preorder of the keys. -/
structure TotalComp {κ : Type*} (comp : κ → κ → ℤ) : Prop where
  trans : ∀ a b c, comp a b ≤ 0 → comp b c ≤ 0 → comp a c ≤ 0
  swap : ∀ a b, comp a b < 0 ↔ 0 < comp b a

namespace TotalComp

variable {κ : Type*} {comp : κ → κ → ℤ} {a b c : κ}

lemma lt_of_lt_of_le (h : TotalComp comp) (hab : comp a b < 0) (hbc : comp b c ≤ 0) :
    comp a c < 0 := by
  by_contra hac
  have hca : comp c a ≤ 0 := by
    by_contra hpos
    exact hac ((h.swap a c).mpr (by omega))
  have hba := h.trans b c a hbc hca
  have hpos := (h.swap a b).mp hab
  omega

lemma pos_of_pos_of_le (h : TotalComp comp) (hab : 0 < comp a b) (hcb : comp c b ≤ 0) :
    0 < comp a c := by
  by_contra hac
  have hle := h.trans a c b (by omega) hcb
  omega

lemma le_of_pos (h : TotalComp comp) (hab : 0 < comp a b) : comp b a ≤ 0 := by
  have hlt := (h.swap b a).mpr hab
  omega

end TotalComp

namespace RbTree

variable {ν κ β : Type*}

/-- The keys and the values from the left to the right. -/
def entries (s : RbTree ν κ β) (nodes : List ν) : List (κ × Option β) :=
  nodes.map fun i => (s.key i, s.value i)

/-- The keys of the nodes do not decrease. -/
def Sorted (s : RbTree ν κ β) (nodes : List ν) : Prop :=
  (nodes.map s.key).Pairwise fun a b => s.comp a b ≤ 0

/-- **A balanced tree in memory**, with any keys. -/
structure Shaped (s : RbTree ν κ β) (t : BinTree ν) : Prop extends s.At [] t where
  balance : ∃ n, RedBlack s.color n t
  black : t.rootColor s.color = .black
  size : s.treeSize = t.inorder.length

/-- **The invariant** of the red-black tree, with the tree that the memory holds. -/
structure Inv (s : RbTree ν κ β) (t : BinTree ν) : Prop extends s.Shaped t where
  sorted : s.Sorted t.inorder

variable {s s' : RbTree ν κ β} {ctx : List (TreeFrame ν)} {t u whole l r : BinTree ν} {i : ν} {key : κ}
  {R : ℤ → Prop} {side : Side}

lemma Sorted.append {a b : List ν} (h : s.Sorted (a ++ b)) :
    s.Sorted a ∧ s.Sorted b ∧ ∀ i ∈ a, ∀ j ∈ b, s.comp (s.key i) (s.key j) ≤ 0 := by
  unfold Sorted at h ⊢
  rw [List.map_append, List.pairwise_append] at h
  obtain ⟨ha, hb, hab⟩ := h
  exact ⟨ha, hb, fun i hi j hj =>
    hab _ (List.mem_map_of_mem hi) _ (List.mem_map_of_mem hj)⟩

lemma sorted_append {a b : List ν} (ha : s.Sorted a) (hb : s.Sorted b)
    (hab : ∀ i ∈ a, ∀ j ∈ b, s.comp (s.key i) (s.key j) ≤ 0) : s.Sorted (a ++ b) := by
  unfold Sorted
  rw [List.map_append, List.pairwise_append]
  refine ⟨ha, hb, fun k hk l hl => ?_⟩
  obtain ⟨i, hi, rfl⟩ := List.mem_map.mp hk
  obtain ⟨j, hj, rfl⟩ := List.mem_map.mp hl
  exact hab i hi j hj

lemma Sorted.congr {a : List ν} (h : s.Sorted a) (hcomp : s'.comp = s.comp)
    (hkey : ∀ i ∈ a, s'.key i = s.key i) : s'.Sorted a := by
  unfold Sorted
  rw [List.map_congr_left hkey, hcomp]
  exact h

/-- The keys next to a node. -/
lemma Sorted.of_plug (h : s.Sorted (plug ctx (.node l i r)).inorder) :
    (∀ j ∈ l.inorder, s.comp (s.key j) (s.key i) ≤ 0) ∧
      ∀ j ∈ r.inorder, s.comp (s.key i) (s.key j) ≤ 0 := by
  rw [inorder_plug] at h
  obtain ⟨-, h, -⟩ := h.append
  obtain ⟨h, -, -⟩ := h.append
  obtain ⟨-, h, hl⟩ := h.append
  obtain ⟨-, -, hr⟩ := Sorted.append (a := [i]) h
  exact ⟨fun j hj => hl j hj i List.mem_cons_self, fun j hj => hr i List.mem_cons_self j hj⟩

/-- The comparison with a node gives the side: `R` says when it is the left one. -/
def Took (R : ℤ → Prop) : Side → ℤ → Prop
  | .left, c => R c
  | .right, c => 0 < c

/-- **The way of a search** down to a place: at each node above, the comparison has given the side. -/
structure Way (s : RbTree ν κ β) (key : κ) (R : ℤ → Prop) (whole : BinTree ν)
    (ctx : List (TreeFrame ν)) (t : BinTree ν) : Prop where
  focus : s.toTreeLinks.Focus ctx t
  whole : plug ctx t = whole
  sides : ∀ f ∈ ctx, Took R f.side (s.comp key (s.key f.node))

lemma Way.start (h : s.toTreeLinks.Focus [] t) : s.Way key R t [] t :=
  ⟨h, rfl, fun _ hf => by cases hf⟩

lemma Way.down (side : Side) (h : s.Way key R whole ctx (branch side t i u))
    (hi : Took R side (s.comp key (s.key i))) : s.Way key R whole (⟨side, i, u⟩ :: ctx) t := by
  refine ⟨h.focus.down side, h.whole, fun f hf => ?_⟩
  rcases List.mem_cons.mp hf with rfl | hf
  · exact hi
  · exact h.sides f hf

/-- **If the keys are in order**, those to the left of the place are less than the key, and those to the
right are related to it by `R`. -/
lemma Way.order (hcomp : TotalComp s.comp)
    (hR : ∀ a b, R (s.comp key a) → s.comp a b ≤ 0 → R (s.comp key b))
    (hsorted : s.Sorted whole.inorder) (h : s.Way key R whole ctx t) :
    (∀ i ∈ before ctx, 0 < s.comp key (s.key i)) ∧ ∀ i ∈ after ctx, R (s.comp key (s.key i)) := by
  induction ctx generalizing t with
  | nil => exact ⟨fun _ hi => (by cases hi), fun _ hi => (by cases hi)⟩
  | cons f ctx ih =>
      obtain ⟨hbefore, hafter⟩ :=
        ih ⟨h.focus.up, h.whole, fun g hg => h.sides g (List.mem_cons_of_mem _ hg)⟩
      have htook := h.sides f List.mem_cons_self
      have hplug : s.Sorted (plug ctx (branch f.side t f.node f.sibling)).inorder := h.whole ▸ hsorted
      obtain ⟨side, i, u⟩ := f
      cases side with
      | left =>
          have hnext := Sorted.of_plug hplug
          refine ⟨hbefore, fun j hj => ?_⟩
          rcases List.mem_cons.mp hj with rfl | hj
          · exact htook
          · rcases List.mem_append.mp hj with hj | hj
            · exact hR _ _ htook (hnext.2 j hj)
            · exact hafter j hj
      | right =>
          have hnext := Sorted.of_plug hplug
          refine ⟨fun j hj => ?_, hafter⟩
          rcases List.mem_append.mp hj with hj | hj
          · exact hbefore j hj
          · rcases List.mem_append.mp hj with hj | hj
            · exact hcomp.pos_of_pos_of_le htook (hnext.1 j hj)
            · rw [List.mem_singleton.mp hj]
              exact htook

/-! ### Search for a key -/

/-- What a search has found. -/
structure Found (s : RbTree ν κ β) (key : κ) (whole : BinTree ν) (p : ν) : Prop where
  place : ∃ ctx l r, s.toTreeLinks.Focus ctx (.node l p r) ∧ plug ctx (.node l p r) = whole
  equal : s.comp key (s.key p) = 0

variable [DecidableEq ν]

/-- Between two rounds of a search. -/
def SearchInv (s : RbTree ν κ β) (key : κ) (whole : BinTree ν) (m : ℕ) (node : ν) : Prop :=
  ∃ ctx t, s.Way key (· < 0) whole ctx t ∧ s.ptr t = node ∧ t.inorder.length ≤ m

/-- **A round of a search** goes down, or ends with a node of an equal key, or at the end of its way. -/
lemma searchRound_inv {ρ : Type*} (found : ν → ρ) (missing : ρ) (m : ℕ) (node : ν)
    (h : s.SearchInv key whole m node) :
    (s.searchRound s.comp key found missing node).elim (fun n => ∃ k < m, s.SearchInv key whole k n)
      fun r => (∃ p, r = found p ∧ s.Found key whole p) ∨
        r = missing ∧ ∃ ctx, s.Way key (· < 0) whole ctx .nil := by
  obtain ⟨ctx, t, hway, rfl, hlen⟩ := h
  cases t with
  | nil =>
      unfold searchRound
      rw [if_neg fun h => h rfl]
      exact Or.inr ⟨rfl, ctx, hway⟩
  | node l i r =>
      have hmem : i ∈ (BinTree.node l i r).inorder := List.mem_append_right _ List.mem_cons_self
      have hl : s.child .left i = s.ptr l := hway.focus.shape.2.1
      have hr : s.child .right i = s.ptr r := hway.focus.shape.2.2.1
      rw [BinTree.inorder, List.length_append, List.length_cons] at hlen
      show (s.searchRound s.comp key found missing i).elim _ _
      unfold searchRound
      rw [if_pos (hway.focus.ne_nill (.inl hmem))]
      dsimp only
      by_cases hzero : s.comp key (s.key i) = 0
      · rw [if_pos hzero]
        exact Or.inl ⟨i, rfl, ⟨ctx, l, r, hway.focus, hway.whole⟩, hzero⟩
      · rw [if_neg hzero]
        by_cases hneg : s.comp key (s.key i) < 0
        · rw [if_pos hneg]
          exact ⟨l.inorder.length, by omega, _, l, hway.down .left hneg, hl.symm, Nat.le_refl _⟩
        · rw [if_neg hneg]
          have hpos : 0 < s.comp key (s.key i) := by omega
          exact ⟨r.inorder.length, by omega, _, r, hway.down .right hpos, hr.symm, Nat.le_refl _⟩

omit [DecidableEq ν] in
/-- A search that has come to an end: if the keys are in order, no key is equal. -/
lemma Way.ne_zero (hcomp : TotalComp s.comp) (hsorted : s.Sorted whole.inorder)
    (h : s.Way key (· < 0) whole ctx .nil) : ∀ i ∈ whole.inorder, s.comp key (s.key i) ≠ 0 := by
  obtain ⟨hbefore, hafter⟩ := h.order hcomp (fun _ _ => hcomp.lt_of_lt_of_le) hsorted
  intro i hi
  rw [← h.whole, inorder_plug] at hi
  rcases List.mem_append.mp hi with hi | hi
  · exact (Int.ne_of_lt (hbefore i hi)).symm
  · exact Int.ne_of_lt (hafter i hi)

/-- **A search** ends: with a node of an equal key; or there is none, if the keys are in order. -/
theorem search_spec {ρ : Type*} (h : s.Shaped whole) (key : κ) (found : ν → ρ) (missing : ρ)
    {fuel : ℕ} (hfuel : s.treeSize < fuel) :
    ∃ r, loop (s.searchRound s.comp key found missing) fuel (s.child .left s.rootPtr) = some r ∧
      ((∃ p, r = found p ∧ s.Found key whole p) ∨
        r = missing ∧ (TotalComp s.comp → s.Sorted whole.inorder →
          ∀ i ∈ whole.inorder, s.comp key (s.key i) ≠ 0)) := by
  have hinv : s.SearchInv key whole s.treeSize (s.child .left s.rootPtr) :=
    ⟨[], whole, .start h.focus, h.focus.around.symm, Nat.le_of_eq h.size.symm⟩
  obtain ⟨r, hr, hfound | ⟨hmissing, ctx, hway⟩⟩ :=
    loop_rule _ _ (searchRound_inv found missing) hinv hfuel
  · exact ⟨r, hr, .inl hfound⟩
  · exact ⟨r, hr, .inr ⟨hmissing, fun hcomp hsorted => hway.ne_zero hcomp hsorted⟩⟩

/-! ### Search for a leaf -/

/-- The place of a leaf: the comparison with the node above gives the side. -/
def LeafSide (s : RbTree ν κ β) (key : κ) : List (TreeFrame ν) → Prop
  | [] => True
  | f :: _ => f.side = .left ↔ s.comp key (s.key f.node) ≤ 0

/-- Between two rounds of the search for a leaf. -/
def LeafInv (s : RbTree ν κ β) (key : κ) (whole : BinTree ν) (m : ℕ) : ν × ν → Prop
  | (parent, n) => ∃ ctx t, s.Way key (· ≤ 0) whole ctx t ∧ s.ptr t = n ∧ s.top ctx = parent ∧
      t.inorder.length ≤ m

omit [DecidableEq ν] in
lemma Way.leafSide (h : s.Way key (· ≤ 0) whole ctx t) : s.LeafSide key ctx := by
  cases ctx with
  | nil => trivial
  | cons f ctx =>
      have htook := h.sides f List.mem_cons_self
      obtain ⟨side, i, u⟩ := f
      cases side with
      | left => exact iff_of_true rfl htook
      | right => exact iff_of_false (fun h => by cases h) (Int.not_le.mpr htook)

lemma findLeafRound_inv {node : ν} (m : ℕ) (p : ν × ν) (h : s.LeafInv (s.key node) whole m p) :
    (s.findLeafRound node p).elim (fun p' => ∃ k < m, s.LeafInv (s.key node) whole k p')
      fun parent => ∃ ctx, s.Way (s.key node) (· ≤ 0) whole ctx .nil ∧ s.top ctx = parent := by
  obtain ⟨parent, n⟩ := p
  obtain ⟨ctx, t, hway, rfl, htop, hlen⟩ := h
  cases t with
  | nil =>
      unfold findLeafRound
      dsimp only
      rw [if_neg fun h => h rfl]
      exact ⟨ctx, hway, htop⟩
  | node l i r =>
      have hmem : i ∈ (BinTree.node l i r).inorder := List.mem_append_right _ List.mem_cons_self
      have hl : s.child .left i = s.ptr l := hway.focus.shape.2.1
      have hr : s.child .right i = s.ptr r := hway.focus.shape.2.2.1
      rw [BinTree.inorder, List.length_append, List.length_cons] at hlen
      show (s.findLeafRound node (parent, i)).elim _ _
      unfold findLeafRound
      dsimp only
      rw [if_pos (hway.focus.ne_nill (.inl hmem))]
      by_cases hle : s.comp (s.key node) (s.key i) ≤ 0
      · rw [if_pos hle]
        exact ⟨l.inorder.length, by omega, _, l, hway.down .left hle, hl.symm, rfl, Nat.le_refl _⟩
      · rw [if_neg hle]
        exact ⟨r.inorder.length, by omega, _, r, hway.down .right (Int.not_le.mp hle), hr.symm, rfl,
          Nat.le_refl _⟩

/-- **The leaf** where a node will be inserted. -/
theorem findLeaf_spec (node : ν) (hfocus : s.toTreeLinks.Focus [] whole) {fuel : ℕ}
    (hfuel : whole.inorder.length < fuel) :
    ∃ ctx, s.findLeaf node fuel = some (s.top ctx) ∧ s.Way (s.key node) (· ≤ 0) whole ctx .nil := by
  have hinv : s.LeafInv (s.key node) whole whole.inorder.length (s.rootPtr, s.child .left s.rootPtr) :=
    ⟨[], whole, .start hfocus, hfocus.around.symm, rfl, Nat.le_refl _⟩
  obtain ⟨parent, hparent, ctx, hway, rfl⟩ := loop_rule _ _ findLeafRound_inv hinv hfuel
  exact ⟨ctx, hparent, hway⟩

end RbTree

end Ocoms
