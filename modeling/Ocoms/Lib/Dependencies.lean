import Mathlib.Data.List.Induction
import Mathlib.Logic.Relation
import Mathlib.Order.WellFoundedSet

/-!
Sequences in which everything stands behind what it depends on.

* `DependenciesFirst dep l`: what a member of `l` depends on stands in front of it.
* `Acyclic dep`: nothing depends on itself. `Acyclic.insert` adds a dependency, and `Acyclic.exists_root`
  finds the root that something finite leads back to.
* `DependenciesFirst.acc`: such a sequence leads nowhere in a circle, so that no member of it is on a
  cycle, or depends on one (`DependenciesFirst.not_cycle`).
-/

namespace Ocoms

variable {α : Type*} {dep : α → α → Prop} {l : List α} {x y : α}

/-- **Dependencies first**: what `x` depends on stands in front of `x`. -/
def DependenciesFirst (dep : α → α → Prop) (l : List α) : Prop :=
  ∀ before x behind, l = before ++ x :: behind → ∀ y, dep x y → y ∈ before

lemma dependenciesFirst_nil : DependenciesFirst dep [] := by
  intro before x behind h
  cases before <;> cases h

/-- A sequence goes on with something whose dependencies are all there. -/
lemma DependenciesFirst.concat (h : DependenciesFirst dep l) (hx : ∀ y, dep x y → y ∈ l) :
    DependenciesFirst dep (l ++ [x]) := by
  intro before z behind hsplit
  rcases List.eq_nil_or_concat behind with rfl | ⟨rest, w, rfl⟩
  · obtain ⟨rfl, hz⟩ := List.append_inj' hsplit rfl
    obtain rfl : x = z := (List.cons.inj hz).1
    exact hx
  · rw [List.concat_eq_append, ← List.cons_append, ← List.append_assoc] at hsplit
    exact h before z rest (List.append_inj' hsplit rfl).1

lemma DependenciesFirst.mono {dep' : α → α → Prop} (h : DependenciesFirst dep l)
    (hsub : ∀ x y, dep' x y → dep x y) : DependenciesFirst dep' l :=
  fun before x behind hsplit y hxy => h before x behind hsplit y (hsub x y hxy)

lemma DependenciesFirst.of_concat (h : DependenciesFirst dep (l ++ [x])) :
    DependenciesFirst dep l ∧ ∀ y, dep x y → y ∈ l := by
  refine ⟨fun before z behind hsplit => ?_, h l x [] rfl⟩
  exact h before z (behind ++ [x]) (by rw [hsplit, List.append_assoc, List.cons_append])

/-- Two sequences, where the second one may leave out what the first one has. -/
lemma DependenciesFirst.append {l' : List α} (h : DependenciesFirst dep l)
    (h' : DependenciesFirst (fun x y => dep x y ∧ y ∉ l) l') : DependenciesFirst dep (l ++ l') := by
  induction l' using List.reverseRecOn with
  | nil => rwa [List.append_nil]
  | append_singleton l' z ih =>
      obtain ⟨hl', hz⟩ := h'.of_concat
      rw [← List.append_assoc]
      refine (ih hl').concat fun y hy => ?_
      by_cases hmem : y ∈ l
      · exact List.mem_append_left _ hmem
      · exact List.mem_append_right _ (hz y ⟨hy, hmem⟩)

/-- **No infinite descent** starts in such a sequence. -/
lemma DependenciesFirst.acc (h : DependenciesFirst dep l) (hx : x ∈ l) :
    Acc (fun y x => dep x y) x := by
  induction l using List.reverseRecOn generalizing x with
  | nil => cases hx
  | append_singleton l z ih =>
      obtain ⟨hl, hz⟩ := h.of_concat
      rcases List.mem_append.mp hx with hx | hx
      · exact ih hl hx
      · obtain rfl := List.mem_singleton.mp hx
        exact ⟨x, fun y hy => ih hl (hz y hy)⟩

lemma DependenciesFirst.mem (h : DependenciesFirst dep l) (hx : x ∈ l)
    (hxy : Relation.ReflTransGen dep x y) : y ∈ l := by
  induction hxy with
  | refl => exact hx
  | tail _ hstep ih =>
      obtain ⟨before, behind, rfl⟩ := List.append_of_mem ih
      exact List.mem_append_left _ (h before _ behind rfl _ hstep)

/-- Nothing accessible is on a cycle. -/
lemma not_cycle_of_acc (h : Acc (fun y x => dep x y) x) : ¬ Relation.TransGen dep x x := by
  have hacc := h.transGen
  clear h
  induction hacc with
  | intro x _ ih =>
      intro hcycle
      exact ih x (Relation.transGen_swap.mp hcycle) hcycle

/-- **No member depends on a cycle.** -/
lemma DependenciesFirst.not_cycle (h : DependenciesFirst dep l) (hx : x ∈ l)
    (hxy : Relation.ReflTransGen dep x y) : ¬ Relation.TransGen dep y y :=
  not_cycle_of_acc (h.acc (h.mem hx hxy))

/-! ### Relations without cycles -/

/-- Nothing depends on itself, directly or not. -/
def Acyclic (dep : α → α → Prop) : Prop := ∀ x, ¬ Relation.TransGen dep x x

lemma Acyclic.mono {dep' : α → α → Prop} (h : Acyclic dep) (hsub : ∀ x y, dep' x y → dep x y) :
    Acyclic dep' := fun x hx =>
  h x (Relation.TransGen.mono hsub x x hx)

/-- A dependency of `a` on `b` closes no cycle, if `b` does not depend on `a`. -/
lemma Acyclic.insert {dep' : α → α → Prop} {a b : α} (h : Acyclic dep)
    (hsub : ∀ x y, dep' x y → dep x y ∨ x = a ∧ y = b) (hba : ¬ Relation.ReflTransGen dep b a) :
    Acyclic dep' := by
  have hpath {x y : α} (hxy : Relation.TransGen dep' x y) : Relation.TransGen dep x y ∨
      Relation.ReflTransGen dep x a ∧ Relation.ReflTransGen dep b y := by
    induction hxy with
    | single hstep =>
        rcases hsub _ _ hstep with hstep | ⟨rfl, rfl⟩
        · exact .inl (.single hstep)
        · exact .inr ⟨.refl, .refl⟩
    | tail _ hstep ih =>
        rcases hsub _ _ hstep with hstep | ⟨rfl, rfl⟩
        · exact ih.imp (fun hxz => hxz.tail hstep) fun ⟨hxa, hbz⟩ => ⟨hxa, hbz.tail hstep⟩
        · rcases ih with hxz | ⟨-, hbz⟩
          · exact .inr ⟨hxz.to_reflTransGen, .refl⟩
          · exact absurd hbz hba
  intro x hx
  rcases hpath hx with hx | ⟨hxa, hbx⟩
  · exact h x hx
  · exact hba (hbx.trans hxa)

/-- Behind everything in a finite set that is closed upwards stands a member with `p`, if those
without `p` have something in front of them. -/
lemma Acyclic.exists_root (h : Acyclic dep) (hup : ∀ x y, dep x y → y ∈ l → x ∈ l) {p : α → Prop}
    (hp : ∀ y ∈ l, ¬ p y → ∃ x, dep x y) (hx : x ∈ l) :
    ∃ y ∈ l, Relation.ReflTransGen dep y x ∧ p y := by
  have horder : IsStrictOrder α (Relation.TransGen dep) :=
    { irrefl := h, trans := fun _ _ _ => Relation.TransGen.trans }
  have hwf : {y | y ∈ l}.WellFoundedOn (Relation.TransGen dep) :=
    (List.finite_toSet l).wellFoundedOn
  refine hwf.induction hx (P := fun x => ∃ y ∈ l, Relation.ReflTransGen dep y x ∧ p y) ?_
  intro x hx ih
  by_cases hpx : p x
  · exact ⟨x, hx, .refl, hpx⟩
  · obtain ⟨z, hz⟩ := hp x hx hpx
    obtain ⟨y, hy, hyz, hpy⟩ := ih z (hup z x hz hx) (.single hz)
    exact ⟨y, hy, hyz.tail hz, hpy⟩

end Ocoms
