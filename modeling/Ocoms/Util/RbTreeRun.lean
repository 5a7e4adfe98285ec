import Ocoms.Util.RbTreeDelete

/-!
All runs of the red-black tree.

* `RbTreeRun`: any insertions and deletions on an initialised tree. `used` are the nodes that the free
  list has given out.
* `RbTreeRun.inv`: the invariant holds in every state.
* `rb_tree_sorted_multiset` is the theorem: the tree is balanced and in order, and the operations are
  those of a sorted multiset of entries.
-/

namespace Ocoms

open BinTree

namespace RbTree

variable {ν κ β : Type*} [DecidableEq ν] {s s' : RbTree ν κ β} {key : κ} {fuel fuel' : ℕ}

/-! ### Fuel -/

lemma insert_mono {item : Option ν} {value : Option β} {r : RbTreeRc × RbTree ν κ β}
    (h : s.insert item key value fuel = some r) (hle : fuel ≤ fuel') :
    s.insert item key value fuel' = some r := by
  cases item with
  | none => exact h
  | some x =>
      obtain ⟨s₂, hinsert, hrest⟩ := Option.bind_eq_some_iff.mp h
      obtain ⟨s₃, hfixup, hr⟩ := Option.bind_eq_some_iff.mp hrest
      obtain ⟨parent, hleaf, hplace⟩ := Option.map_eq_some_iff.mp hinsert
      refine Option.bind_eq_some_iff.mpr ⟨s₂, ?_, Option.bind_eq_some_iff.mpr ⟨s₃, ?_, hr⟩⟩
      · exact Option.map_eq_some_iff.mpr ⟨parent, loop_mono hleaf hle, hplace⟩
      · exact loop_mono hfixup hle

lemma btreeSuccessor_mono {node x : ν} (h : s.btreeSuccessor node fuel = some x)
    (hle : fuel ≤ fuel') : s.btreeSuccessor node fuel' = some x := by
  unfold btreeSuccessor at h ⊢
  split_ifs at h ⊢ with hright
  · obtain ⟨p, hp, hx⟩ := Option.map_eq_some_iff.mp h
    exact Option.map_eq_some_iff.mpr ⟨p, loop_mono hp hle, hx⟩
  · exact loop_mono h hle

omit [DecidableEq ν] in
/-- A call in one branch. -/
lemma ite_mono {σ : Type*} {c : Prop} [Decidable c] {x x' y y' : Option σ} {r : σ}
    (hx : x = some r → x' = some r) (hy : y = some r → y' = some r)
    (h : (if c then x else y) = some r) : (if c then x' else y') = some r := by
  by_cases hc : c
  · rw [if_pos hc] at h ⊢
    exact hx h
  · rw [if_neg hc] at h ⊢
    exact hy h

lemma delete_mono {r : RbTreeRc × Option ν × RbTree ν κ β} (h : s.delete key fuel = some r)
    (hle : fuel ≤ fuel') : s.delete key fuel' = some r := by
  obtain ⟨found, hfind, hrest⟩ := Option.bind_eq_some_iff.mp h
  refine Option.bind_eq_some_iff.mpr ⟨found, loop_mono hfind hle, ?_⟩
  cases found with
  | none => exact hrest
  | some p =>
      obtain ⟨x, hx, hmap⟩ := Option.bind_eq_some_iff.mp hrest
      obtain ⟨s₂, hs₂, hr⟩ := Option.map_eq_some_iff.mp hmap
      exact Option.bind_eq_some_iff.mpr ⟨x, ite_mono id (fun h => btreeSuccessor_mono h hle) hx,
        Option.map_eq_some_iff.mpr ⟨s₂, ite_mono (fun h => loop_mono h hle) id hs₂, hr⟩⟩

/-! ### Runs -/

lemma init_shaped (s : RbTree ν κ β) {rootPtr nill : ν} (hne : rootPtr ≠ nill) (comp : κ → κ → ℤ) :
    (s.init rootPtr nill comp).Shaped .nil := by
  have hchild : (s.init rootPtr nill comp).child .left rootPtr = nill := by
    simp [init, setChild, setColor, setParent, TreeLinks.setChild_child]
  refine ⟨⟨⟨trivial, hchild, ?_⟩, ?_, ?_, ?_⟩, ⟨0, .nil⟩, rfl, rfl⟩
  · refine List.nodup_cons.mpr ⟨?_, List.nodup_singleton _⟩
    exact fun hmem => hne (List.mem_singleton.mp hmem)
  · show (s.init rootPtr nill comp).color nill = .black
    simp [init, setColor, setChild, setParent, Function.update]
  · show (s.init rootPtr nill comp).color rootPtr = .black
    simp [init, setColor, setChild, setParent]
  · show (s.init rootPtr nill comp).child .right rootPtr = nill
    simp [init, setChild, setColor, setParent, TreeLinks.setChild_child]

end RbTree

/-- **The runs**: any insertions and deletions on an initialised tree. The free list gives a node that is
not in use, or none; a deletion gives a node back to it. -/
inductive RbTreeRun {ν κ β : Type*} [DecidableEq ν] (comp : κ → κ → ℤ) :
    List ν → RbTree ν κ β → Prop
  | init (s : RbTree ν κ β) {rootPtr nill : ν} : rootPtr ≠ nill →
      RbTreeRun comp [rootPtr, nill] (s.init rootPtr nill comp)
  | insert {used : List ν} {s s' : RbTree ν κ β} {rc : RbTreeRc} (item : Option ν) (key : κ)
      (value : Option β) (fuel : ℕ) : RbTreeRun comp used s → (∀ x, item = some x → x ∉ used) →
      s.insert item key value fuel = some (rc, s') → RbTreeRun comp (item.toList ++ used) s'
  | delete {used : List ν} {s s' : RbTree ν κ β} {rc : RbTreeRc} {freed : Option ν} (key : κ)
      (fuel : ℕ) : RbTreeRun comp used s → s.delete key fuel = some (rc, freed, s') →
      RbTreeRun comp (freed.elim used used.erase) s'

section Runs

variable {ν κ β : Type*} [DecidableEq ν] {s : RbTree ν κ β} {comp : κ → κ → ℤ} {used : List ν}

/-- **The invariant holds in every state.** The keys are in order if the comparison function is a total
preorder. -/
lemma RbTreeRun.inv (h : RbTreeRun comp used s) :
    ∃ t, s.Shaped t ∧ (TotalComp comp → s.Sorted t.inorder) ∧ s.comp = comp ∧
      used.Perm (s.rootPtr :: s.nill :: t.inorder) := by
  induction h with
  | init s hne =>
      exact ⟨.nil, RbTree.init_shaped s hne comp, fun _ => List.Pairwise.nil, rfl, List.Perm.refl _⟩
  | @insert used s s' rc item key value fuel hrun hitem hinsert ih =>
      obtain ⟨t, hshaped, hsorted, rfl, hperm⟩ := ih
      cases item with
      | none =>
          obtain ⟨-, rfl⟩ := Prod.mk.inj (Option.some.inj hinsert)
          exact ⟨t, hshaped, hsorted, rfl, hperm⟩
      | some x =>
          have hx : s.Fresh t.inorder x := fun hmem => hitem x rfl (hperm.mem_iff.mpr hmem)
          obtain ⟨s'', t', a, b, hspec, hshaped', hold, hnew, hsorted', -, -, hcomp', hroot, hnill⟩ :=
            RbTree.insert_spec hshaped hx key value
              (show s.treeSize < max fuel (s.treeSize + 1) by omega)
          have hmono := RbTree.insert_mono hinsert (Nat.le_max_left fuel (s.treeSize + 1))
          obtain ⟨-, rfl⟩ := Prod.mk.inj (Option.some.inj (hspec.symm.trans hmono))
          refine ⟨t', hshaped', fun hcomp => hsorted' hcomp (hsorted hcomp), hcomp', ?_⟩
          rw [hroot, hnill, hnew]
          refine (hperm.cons x).trans ?_
          rw [hold]
          refine (List.Perm.swap _ _ _).trans (List.Perm.cons _ ?_)
          refine (List.Perm.swap _ _ _).trans (List.Perm.cons _ ?_)
          exact List.perm_middle.symm
  | @delete used s s' rc freed key fuel hrun hdelete ih =>
      obtain ⟨t, hshaped, hsorted, rfl, hperm⟩ := ih
      have hmono := RbTree.delete_mono hdelete (Nat.le_max_left fuel (s.treeSize + 1))
      rcases RbTree.delete_spec hshaped key (show s.treeSize < max fuel (s.treeSize + 1) by omega) with
        ⟨hspec, -⟩ | ⟨a, e, b, hold, -, x, s'', t', hspec, hshaped', hnew, horder, hcomp', hroot, hnill⟩
      · obtain ⟨-, hrest⟩ := Prod.mk.inj (Option.some.inj (hspec.symm.trans hmono))
        obtain ⟨rfl, rfl⟩ := Prod.mk.inj hrest
        exact ⟨t, hshaped, hsorted, rfl, hperm⟩
      · obtain ⟨-, hrest⟩ := Prod.mk.inj (Option.some.inj (hspec.symm.trans hmono))
        obtain ⟨rfl, rfl⟩ := Prod.mk.inj hrest
        refine ⟨t', hshaped', fun hcomp => (hsorted hcomp).remove hold hnew hcomp', hcomp', ?_⟩
        rw [hroot, hnill]
        show (used.erase x).Perm _
        have hall : used.Perm (x :: s.rootPtr :: s.nill :: t'.inorder) := by
          refine hperm.trans (((horder.cons _).cons _).trans ?_)
          refine (List.Perm.cons _ (List.Perm.swap _ _ _)).trans (List.Perm.swap _ _ _)
        have herase := hall.erase x
        rwa [List.erase_cons_head] at herase

/-- **A red-black tree** in memory, with the nodes `t`. The links to the parents and to the children
agree. -/
structure IsRbTree (s : RbTree ν κ β) (t : BinTree ν) : Prop where
  links : s.toTreeLinks.Focus [] t
  sorted : (t.inorder.map s.key).Pairwise fun a b => s.comp a b ≤ 0
  rootBlack : t.rootColor s.color = .black
  noRedRed : NoRedRed s.color t
  sameBlacks : ∃ n, ∀ path ∈ rootPaths t, path.countP (fun i => s.color i = .black) = n
  size : s.treeSize = t.inorder.length

omit [DecidableEq ν] in
lemma RbTree.Inv.isRbTree {t : BinTree ν} (h : s.Inv t) : IsRbTree s t := by
  obtain ⟨n, hbalance⟩ := h.balance
  exact ⟨h.focus, h.sorted, h.black, hbalance.noRedRed, ⟨n, hbalance.countP_rootPaths⟩, h.size⟩

/-- **The red-black tree is a sorted multiset**, in every state of every run. It is balanced and in
order. An insertion adds one entry. A deletion removes one entry with an equal key, or there is none
and nothing changes. A search returns the value of an entry with an equal key, or there is none and it
returns `NULL`. All loops end. -/
theorem rb_tree_sorted_multiset (hcomp : TotalComp comp) (h : RbTreeRun comp used s) :
    ∃ t : BinTree ν, s.comp = comp ∧ IsRbTree s t ∧
      (∀ x key value fuel, x ∉ used → s.treeSize < fuel →
        ∃ s' t' a b, s.insert (some x) key value fuel = some (.success, s') ∧ IsRbTree s' t' ∧
          s.entries t.inorder = a ++ b ∧ s'.entries t'.inorder = a ++ (key, value) :: b) ∧
      (∀ key fuel, s.treeSize < fuel →
        (s.delete key fuel = some (.notFound, none, s) ∧
          ∀ e ∈ s.entries t.inorder, comp key e.1 ≠ 0) ∨
        ∃ x s' t' a e b, s.delete key fuel = some (.success, some x, s') ∧ IsRbTree s' t' ∧
          s.entries t.inorder = a ++ e :: b ∧ comp key e.1 = 0 ∧
          s'.entries t'.inorder = a ++ b) ∧
      ∀ key fuel, s.treeSize < fuel →
        ∃ v, s.find key fuel = some v ∧
          ((∃ e ∈ s.entries t.inorder, comp key e.1 = 0 ∧ v = e.2) ∨
            v = none ∧ ∀ e ∈ s.entries t.inorder, comp key e.1 ≠ 0) := by
  obtain ⟨t, hshaped, hsorted, rfl, hused⟩ := h.inv
  have hinv : s.Inv t := ⟨hshaped, hsorted hcomp⟩
  have hentries : ∀ key, (∀ i ∈ t.inorder, s.comp key (s.key i) ≠ 0) →
      ∀ e ∈ s.entries t.inorder, s.comp key e.1 ≠ 0 := by
    intro key hno e he
    obtain ⟨i, hi, rfl⟩ := List.mem_map.mp he
    exact hno i hi
  refine ⟨t, rfl, hinv.isRbTree, fun x key value fuel hx hfuel => ?_, fun key fuel hfuel => ?_,
    fun key fuel hfuel => ?_⟩
  · have hfresh : s.Fresh t.inorder x := fun hmem => hx (hused.mem_iff.mpr hmem)
    obtain ⟨s', t', a, b, hinsert, hshaped', hold, hnew, hsorted', hkey, hvalue, -⟩ :=
      RbTree.insert_spec hshaped hfresh key value hfuel
    have hinv' : s'.Inv t' := ⟨hshaped', hsorted' hcomp hinv.sorted⟩
    have hnot : x ∉ a ++ b := fun hmem =>
      hfresh (List.mem_cons_of_mem _ (List.mem_cons_of_mem _ (hold ▸ hmem)))
    have hsame : ∀ nodes : List ν, x ∉ nodes → s'.entries nodes = s.entries nodes := by
      intro nodes hnodes
      refine List.map_congr_left fun i hi => ?_
      have hne : i ≠ x := fun heq => hnodes (heq ▸ hi)
      rw [hkey, hvalue, Function.update_of_ne hne, Function.update_of_ne hne]
    have hself : (s'.key x, s'.value x) = (key, value) := by
      rw [hkey, hvalue, Function.update_self, Function.update_self]
    have ha := hsame a fun hmem => hnot (List.mem_append_left _ hmem)
    have hb := hsame b fun hmem => hnot (List.mem_append_right _ hmem)
    refine ⟨s', t', s.entries a, s.entries b, hinsert, hinv'.isRbTree, ?_, ?_⟩
    · rw [hold]
      exact List.map_append
    · rw [hnew, ← ha, ← hb, ← hself]
      exact List.map_append
  · rcases RbTree.delete_spec hshaped key hfuel with
      ⟨hdelete, hno⟩ | ⟨a, e, b, hold, he, x, s', t', hdelete, hshaped', hnew, -, hcomp', -⟩
    · exact .inl ⟨hdelete, hentries key (hno hcomp hinv.sorted)⟩
    · have hinv' : s'.Inv t' := ⟨hshaped', hinv.sorted.remove hold hnew hcomp'⟩
      exact .inr ⟨x, s', t', a, e, b, hdelete, hinv'.isRbTree, hold, he, hnew⟩
  · obtain ⟨v, hfind, ⟨p, rfl, ⟨ctx, l, r, -, hwhole⟩, hequal⟩ | ⟨rfl, hno⟩⟩ :=
      RbTree.search_spec hshaped key s.value none hfuel
    · have hmem : p ∈ t.inorder := by
        rw [← hwhole, inorder_plug]
        exact List.mem_append_right _ (List.mem_append_left _ (List.mem_append_right _ List.mem_cons_self))
      exact ⟨_, hfind, .inl ⟨_, List.mem_map_of_mem hmem, hequal, rfl⟩⟩
    · exact ⟨none, hfind, .inr ⟨rfl, hentries key (hno hcomp hinv.sorted)⟩⟩

/-- One insertion, with the two nodes 0 and 1 that are not in the tree. -/
theorem rb_tree_sorted_multiset_five : ∃ s s' : RbTree ℕ ℤ ℕ, ∃ t : BinTree ℕ,
    RbTreeRun (fun a b => a - b) [0, 1] s ∧
      s.insert (some 2) 5 (some 7) 1 = some (.success, s') ∧ IsRbTree s' t ∧
      s'.entries t.inorder = [(5, some 7)] := by
  have hcomp : TotalComp fun a b : ℤ => a - b := ⟨fun a b c hab hbc => by omega, fun a b => by omega⟩
  have hinit : RbTreeRun (fun a b : ℤ => a - b) [0, 1] (RbTree.init (β := ℕ) ⟨⟨0, 0, fun _ => 0,
      fun _ _ => 0⟩, 0, fun a b => a - b, fun _ => .red, fun _ => 0, fun _ => none⟩ 0 1
      fun a b => a - b) := .init _ Nat.zero_ne_one
  obtain ⟨t, -, htree, hinsert, -⟩ := rb_tree_sorted_multiset hcomp hinit
  obtain ⟨s', t', a, b, hresult, htree', hold, hnew⟩ :=
    hinsert 2 5 (some 7) 1 (by decide) Nat.zero_lt_one
  have hempty : t.inorder = [] := List.length_eq_zero_iff.mp htree.size.symm
  rw [hempty] at hold
  obtain ⟨rfl, rfl⟩ := List.append_eq_nil_iff.mp hold.symm
  exact ⟨_, s', t', hinit, hresult, htree', hnew⟩

end Runs

end Ocoms
