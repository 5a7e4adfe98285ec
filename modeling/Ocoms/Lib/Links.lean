import Mathlib.Data.List.Chain
import Mathlib.Data.List.Nodup
import Mathlib.Logic.Function.Iterate

/-!
Nodes with a pointer to the next and one to the previous node.

* `Links ν` holds the two pointers of every node of the type `ν`. `Joined x y` says that `y` is
  next to `x`, from both sides; a ring through `a` is a chain `a, …, a` of joined nodes.
* `excise first last` takes the nodes from `first` up to `last` out of their ring, and
  `graft pos first last` puts the nodes from `first` to `last` in front of `pos`. The chain lemmas
  `isChain_excise` and `isChain_graft` say what becomes of the ring, `Joined.excise` and
  `Joined.graft` which joints stay as they are.
* `iterate_next` reads a chain off the pointers, and `next_prev_of_ring` says that the two pointers
  are inverse on a ring.
-/

namespace Ocoms

/-- The two pointers of every node. -/
@[ext]
structure Links (ν : Type*) where
  next : ν → ν
  prev : ν → ν

namespace Links

variable {ν : Type*} {h : Links ν}

/-- The node `y` is next to `x`, and `x` is before `y`. -/
def Joined (h : Links ν) (x y : ν) : Prop := h.next x = y ∧ h.prev y = x

/-! ### Chains -/

/-- The pointers of a chain lead from its first node through all the others. -/
lemma iterate_next {x : ν} {xs : List ν} (hx : (x :: xs).IsChain h.Joined) {k : ℕ}
    (hk : k < xs.length) : h.next^[k + 1] x = xs[k] := by
  induction xs generalizing x k with
  | nil => exact absurd hk (Nat.not_lt_zero _)
  | cons y ys ih =>
      obtain ⟨hxy, hys⟩ := List.isChain_cons_cons.mp hx
      rw [Function.iterate_succ_apply, hxy.1]
      cases k with
      | zero => rfl
      | succ k => rw [ih hys (Nat.lt_of_succ_lt_succ hk), List.getElem_cons_succ]

/-- A node of a chain that is not the last one is joined with the next. -/
lemma joined_next_of_isChain {xs : List ν} {y : ν} (hc : (xs ++ [y]).IsChain h.Joined) {x : ν}
    (hx : x ∈ xs) : h.Joined x (h.next x) := by
  induction xs with
  | nil => cases hx
  | cons z zs ih =>
      rcases List.mem_cons.mp hx with rfl | hx
      · cases zs with
        | nil =>
            have hj := (List.isChain_cons_cons.mp hc).1
            exact ⟨rfl, hj.1 ▸ hj.2⟩
        | cons w ws =>
            have hj := (List.isChain_cons_cons.mp hc).1
            exact ⟨rfl, hj.1 ▸ hj.2⟩
      · exact ih hc.tail hx

/-- A node of a chain that is not the first one is joined with the previous. -/
lemma joined_prev_of_isChain {a : ν} {xs : List ν} (hc : (a :: xs).IsChain h.Joined) {x : ν}
    (hx : x ∈ xs) : h.Joined (h.prev x) x := by
  induction xs generalizing a with
  | nil => cases hx
  | cons z zs ih =>
      obtain ⟨hj, hzs⟩ := List.isChain_cons_cons.mp hc
      rcases List.mem_cons.mp hx with rfl | hx
      · exact ⟨hj.2 ▸ hj.1, rfl⟩
      · exact ih hzs hx

/-- What is in front of a node of a chain is on the chain. -/
lemma prev_mem_of_isChain {a : ν} {xs : List ν} (hc : (a :: xs).IsChain h.Joined) {x : ν}
    (hx : x ∈ xs) : h.prev x ∈ a :: xs.dropLast := by
  induction xs generalizing a with
  | nil => cases hx
  | cons z zs ih =>
      obtain ⟨hj, hzs⟩ := List.isChain_cons_cons.mp hc
      rcases List.mem_cons.mp hx with rfl | hx
      · rw [hj.2]
        exact List.mem_cons_self
      · have hmem := ih hzs hx
        cases zs with
        | nil => cases hx
        | cons w ws => exact List.mem_cons_of_mem _ hmem

/-- **In a ring the two pointers are each other's inverse.** -/
lemma next_prev_of_ring {a : ν} {xs : List ν} (hc : (a :: (xs ++ [a])).IsChain h.Joined) {x : ν}
    (hx : x ∈ a :: xs) : h.prev (h.next x) = x ∧ h.next (h.prev x) = x := by
  have hmem : x ∈ xs ++ [a] := by
    rcases List.mem_cons.mp hx with rfl | hx
    · exact List.mem_append_right _ (List.mem_singleton_self _)
    · exact List.mem_append_left _ hx
  exact ⟨(joined_next_of_isChain hc hx).2, (joined_prev_of_isChain hc hmem).1⟩

/-- A chain of another relation, if the two agree on the steps of the chain. -/
lemma isChain_imp {R S : ν → ν → Prop} {l : List ν} (hl : l.IsChain R)
    (himp : ∀ x ∈ l.dropLast, ∀ y ∈ l.tail, R x y → S x y) : l.IsChain S := by
  induction l with
  | nil => exact .nil
  | cons x xs ih =>
      cases xs with
      | nil => exact .singleton _
      | cons y ys =>
          obtain ⟨hxy, hys⟩ := List.isChain_cons_cons.mp hl
          refine .cons_cons (himp x (by simp) y (by simp) hxy) (ih hys fun z hz w hw => ?_)
          exact himp z (List.mem_cons_of_mem _ hz) w (List.mem_of_mem_tail hw)

/-! ### Taking out and putting in -/

variable [DecidableEq ν]

/-- Takes the nodes from `first` up to `last` out of their ring. -/
def excise (h : Links ν) (first last : ν) : Links ν where
  next := Function.update h.next (h.prev first) last
  prev := Function.update h.prev last (h.prev first)

/-- Puts the nodes from `first` to `last` in front of `pos`. -/
def graft (h : Links ν) (pos first last : ν) : Links ν where
  next := Function.update (Function.update h.next (h.prev pos) first) last pos
  prev := Function.update (Function.update h.prev first (h.prev pos)) pos last

/-- Taking out changes the joints at `first` and at `last`. -/
lemma Joined.excise {first last x y : ν} (hfirst : h.Joined (h.prev first) first)
    (hxy : h.Joined x y) (hy : y ≠ first) (hlast : y ≠ last) :
    (h.excise first last).Joined x y := by
  have hx : x ≠ h.prev first := by
    intro heq
    exact hy (by rw [← hxy.1, heq, hfirst.1])
  constructor
  · exact (Function.update_of_ne hx _ _).trans hxy.1
  · exact (Function.update_of_ne hlast _ _).trans hxy.2

/-- Taking out joins what is in front of `first` with `last`. -/
lemma joined_excise (h : Links ν) (first last : ν) :
    (h.excise first last).Joined (h.prev first) last :=
  ⟨Function.update_self .., Function.update_self ..⟩

/-- Putting in changes the joints at `pos` and at the ends of what is put in. -/
lemma Joined.graft {pos first last x y : ν} (hpos : h.Joined (h.prev pos) pos)
    (hxy : h.Joined x y) (hy : y ≠ pos) (hfirst : y ≠ first) (hx : x ≠ last) :
    (h.graft pos first last).Joined x y := by
  have hx' : x ≠ h.prev pos := by
    intro heq
    exact hy (by rw [← hxy.1, heq, hpos.1])
  constructor
  · exact ((Function.update_of_ne hx _ _).trans (Function.update_of_ne hx' _ _)).trans hxy.1
  · exact ((Function.update_of_ne hy _ _).trans (Function.update_of_ne hfirst _ _)).trans hxy.2

/-- Putting in joins what is in front of `pos` with `first`, and `last` with `pos`. -/
lemma joined_graft {pos first last : ν} (hpos : h.prev pos ≠ last) (hfirst : first ≠ pos) :
    (h.graft pos first last).Joined (h.prev pos) first ∧
      (h.graft pos first last).Joined last pos := by
  constructor
  · exact ⟨(Function.update_of_ne hpos _ _).trans (Function.update_self ..),
      (Function.update_of_ne hfirst _ _).trans (Function.update_self ..)⟩
  · exact ⟨Function.update_self .., Function.update_self ..⟩

/-- **Taking out**, on the ring: the nodes in front of `first` are followed by `last`, and those
that are taken out stay joined. -/
lemma isChain_excise {a first last : ν} {as ms bs : List ν}
    (hc : (a :: as ++ (first :: ms ++ last :: bs)).IsChain h.Joined)
    (hnodup : (as ++ (first :: ms ++ last :: bs)).Nodup) :
    (a :: as ++ last :: bs).IsChain (h.excise first last).Joined ∧
      (first :: ms).IsChain (h.excise first last).Joined := by
  have hfirst : h.Joined (h.prev first) first :=
    joined_prev_of_isChain hc (by simp)
  obtain ⟨has, hrest, hjoin⟩ := List.isChain_append.mp hc
  obtain ⟨hms, hbs, -⟩ := List.isChain_append.mp hrest
  have hkeep : ∀ {l : List ν}, l.IsChain h.Joined → (∀ y ∈ l.tail, y ≠ first ∧ y ≠ last) →
      l.IsChain (h.excise first last).Joined := by
    intro l hl htail
    refine hl.imp_of_mem_tail_imp fun x y _ hy hxy => ?_
    obtain ⟨h₁, h₂⟩ := htail y hy
    exact hfirst.excise hxy h₁ h₂
  have hmem := List.nodup_append.mp hnodup
  refine ⟨List.isChain_append.mpr ⟨hkeep has ?_, hkeep hbs ?_, ?_⟩, hkeep hms ?_⟩
  · intro y hy
    exact ⟨fun he => hmem.2.2 y hy first (by simp) he, fun he => hmem.2.2 y hy last (by simp) he⟩
  · intro y hy
    grind
  · intro x hx y hy
    obtain rfl : last = y := by simpa using hy
    have hj := hjoin x hx first (by simp)
    rw [← hj.2]
    exact h.joined_excise first last
  · intro y hy
    grind

/-- **Putting in**, on the ring: the nodes `first :: ms`, which are not on it, come to stand in
front of `pos`. -/
lemma isChain_graft {a pos first : ν} {as ms bs : List ν}
    (hc : (a :: as ++ pos :: bs).IsChain h.Joined) (hnodup : (as ++ pos :: bs).Nodup)
    (hms : (first :: ms).IsChain h.Joined) (hmsnodup : (first :: ms).Nodup)
    (hnew : ∀ x ∈ first :: ms, x ≠ a ∧ x ∉ as ∧ x ≠ pos ∧ x ∉ bs) {last : ν}
    (hlast : (first :: ms).getLast? = some last) :
    (a :: as ++ (first :: ms ++ pos :: bs)).IsChain (h.graft pos first last).Joined := by
  have hpos : h.Joined (h.prev pos) pos := joined_prev_of_isChain hc (by simp)
  obtain ⟨has, hbs, hjoin⟩ := List.isChain_append.mp hc
  have hmem := List.nodup_append.mp hnodup
  have hlastmem : last ∈ first :: ms := List.mem_of_getLast? hlast
  obtain ⟨hlasta, hlastas, hlastpos, hlastbs⟩ := hnew last hlastmem
  obtain ⟨hfirsta, hfirstas, hfirstpos, hfirstbs⟩ := hnew first (by simp)
  have hprev : ∀ x ∈ (a :: as).getLast?, h.prev pos = x := fun x hx => (hjoin x hx pos (by simp)).2
  have hne : h.prev pos ≠ last := by
    obtain ⟨x, hx⟩ : ∃ x, (a :: as).getLast? = some x := ⟨_, List.getLast?_cons⟩
    rw [hprev x hx]
    rintro rfl
    rcases List.mem_cons.mp (List.mem_of_getLast? hx) with he | he
    · exact hlasta he
    · exact hlastas he
  obtain ⟨hin, hout⟩ := joined_graft hne hfirstpos
  refine List.isChain_append.mpr ⟨?_, List.isChain_append.mpr ⟨?_, ?_, ?_⟩, ?_⟩
  · refine has.imp_of_mem_tail_imp fun x y hx hy hxy => hpos.graft hxy ?_ ?_ ?_
    · exact hmem.2.2 y hy pos (by simp)
    · exact ne_of_mem_of_not_mem hy hfirstas
    · rintro rfl
      rcases List.mem_cons.mp hx with he | he
      · exact hlasta he
      · exact hlastas he
  · refine isChain_imp hms fun x hx y hy hxy => hpos.graft hxy ?_ ?_ ?_
    · exact (hnew y (List.mem_cons_of_mem _ hy)).2.2.1
    · rintro rfl
      exact (List.nodup_cons.mp hmsnodup).1 hy
    · rw [← List.dropLast_append_getLast? last hlast] at hmsnodup
      exact (List.nodup_append.mp hmsnodup).2.2 x hx last (by simp)
  · refine hbs.imp_of_mem_tail_imp fun x y hx hy hxy => hpos.graft hxy ?_ ?_ ?_
    · rintro rfl
      exact (List.nodup_cons.mp hmem.2.1).1 hy
    · exact ne_of_mem_of_not_mem hy hfirstbs
    · rintro rfl
      rcases List.mem_cons.mp hx with he | he
      · exact hlastpos he
      · exact hlastbs he
  · intro x hx y hy
    obtain rfl : last = x := Option.some.inj (hlast.symm.trans hx)
    obtain rfl : pos = y := by simpa using hy
    exact hout
  · intro x hx y hy
    obtain rfl : first = y := by simpa using hy
    rw [← hprev x hx]
    exact hin

end Links

end Ocoms
