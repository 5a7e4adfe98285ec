import Mathlib.Algebra.Order.BigOperators.Group.List
import Ocoms.Mca.ComponentRelease

/-!
The repository of components over runs, and `ocoms_mca_base_component_repository_finalize`.

* `RepositoryInv` is what holds between the calls: the counts are balanced, nothing is being unloaded,
  and the links have no cycle.
* `PassInv` is what holds between two rounds of the inner loop of `finalize`. `PassInv.own_pos` says
  that the next item has a reference left, `PassInv.next_not_mem` that its successor is not unloaded
  with it.
* `component_repository_sound` says what callers rely on, in a run in which every call meets its
  condition.
-/

namespace Ocoms.Repository

variable {s s' : Repository} {own : ℕ → ℕ}

/-! ### Sequences -/

lemma getNext_eq {done todo : List ℕ} {i : ℕ} (hsplit : s.repository = done ++ i :: todo)
    (hi : i ∉ done) : s.getNext i = todo.head? := by
  rw [getNext, hsplit, List.dropWhile_append_of_pos, List.dropWhile_cons_of_neg (by simp),
    List.tail_cons]
  intro j hj
  simpa using fun hji : j = i => hi (hji ▸ hj)

/-- Behind the only place of `i`. -/
lemma sublist_of_cons_sublist {i : ℕ} {l before behind : List ℕ} (hi : i ∉ before)
    (h : (i :: l).Sublist (before ++ i :: behind)) : l.Sublist behind := by
  induction before with
  | nil => exact List.cons_sublist_cons.mp h
  | cons j before ih =>
      obtain ⟨hij, hbefore⟩ : i ≠ j ∧ i ∉ before := by simpa using hi
      rcases List.cons_sublist_cons'.mp h with h | ⟨heq, -⟩
      · exact ih hbefore h
      · exact absurd heq hij

/-- In front of the only place of `j`. -/
lemma mem_of_sublist {i k j : ℕ} {before behind : List ℕ} (hj : j ∉ behind) (hij : i ≠ j)
    (h : [i, k, j].Sublist (before ++ j :: behind)) : i ∈ before := by
  induction before with
  | nil =>
      rcases List.cons_sublist_cons'.mp h with h | ⟨heq, -⟩
      · exact absurd (h.subset (by simp)) hj
      · exact absurd heq hij
  | cons m before ih =>
      rcases List.cons_sublist_cons'.mp h with h | ⟨rfl, -⟩
      · exact List.mem_cons_of_mem _ (ih h)
      · exact List.mem_cons_self

/-! ### The invariant -/

/-- What holds between the calls. -/
structure RepositoryInv (s : Repository) (own : ℕ → ℕ) : Prop where
  balanced : Balanced s own none
  loaded : ∀ i ∈ s.repository, i ∉ s.closed
  fresh : ∀ i, i ∈ s.repository ∨ i ∈ s.closed → i < s.next
  acyclic : Acyclic s.Depends
  initialized : s.initialized = true

lemma Depends.mem (h : RepositoryInv s own) {i j : ℕ} (hij : s.Depends i j) :
    i ∈ s.repository ∧ j ∈ s.repository := by
  obtain ⟨-, ri, hi, hj⟩ := hij
  have hmem := h.balanced.mem hi
  exact ⟨hmem, (h.balanced.loaded_of_mem hmem (mem_dependencies.mpr ⟨ri, hi, hj⟩)).1⟩

lemma Depends.mem_ends (h : RepositoryInv s own) {i j : ℕ} (hij : Relation.TransGen s.Depends i j) :
    i ∈ s.repository ∧ j ∈ s.repository := by
  obtain ⟨_, hfirst, -⟩ := Relation.TransGen.head'_iff.mp hij
  obtain ⟨_, -, hlast⟩ := Relation.TransGen.tail'_iff.mp hij
  exact ⟨(hfirst.mem h).1, (hlast.mem h).2⟩

/-- An item, and its count. -/
lemma RepositoryInv.exists_item (h : RepositoryInv s own) {i : ℕ} (hi : i ∈ s.repository) :
    ∃ ri, s.object i = some ri ∧ ri.refCount = own i + s.links i ∧ 0 < ri.refCount := by
  obtain ⟨ri, hri⟩ := h.balanced.exists_item hi
  obtain ⟨hcount, hpos, -⟩ := h.balanced.count i ri (h.loaded i hi) hri
  simp only [reduceCtorEq, if_false, add_zero] at hcount
  exact ⟨ri, hri, hcount, hpos⟩

/-- The references that callers own can be read off the state. -/
lemma RepositoryInv.own_eq (h : RepositoryInv s own) {i : ℕ} (hi : i ∈ s.repository) :
    s.own i = own i := by
  obtain ⟨ri, hri, hcount, -⟩ := h.exists_item hi
  rw [Repository.own, hri, Option.elim_some, hcount]
  omega

lemma mem_of_findComponent {type name : CString} {i : ℕ}
    (hi : s.findComponent type name = some i) : i ∈ s.repository := List.mem_of_find?_eq_some hi

/-- An item without references of its own has one that depends on it. -/
lemma RepositoryInv.exists_depends (h : RepositoryInv s own) {i : ℕ} (hi : i ∈ s.repository)
    (hown : own i = 0) : ∃ j, s.Depends j i := by
  obtain ⟨ri, hri, hcount, hpos⟩ := h.exists_item hi
  have hlinks : 0 < s.links i := by omega
  obtain ⟨j, hj, hmem⟩ := List.mem_flatMap.mp (List.count_pos_iff.mp hlinks)
  exact ⟨j, h.loaded j hj, mem_dependencies.mp hmem⟩

/-- Everything goes back to an item with references of its own. -/
lemma RepositoryInv.exists_owned (h : RepositoryInv s own) {i : ℕ} (hi : i ∈ s.repository) :
    ∃ j ∈ s.repository, Relation.ReflTransGen s.Depends j i ∧ 0 < own j := by
  refine h.acyclic.exists_root (fun j k hjk _ => (hjk.mem h).1) (fun j hj hnot => ?_) hi
  exact h.exists_depends hj (by omega)

/-- A release of a reference that callers own. -/
lemma RepositoryInv.release (h : RepositoryInv s own) {i : ℕ} (hi : i ∈ s.repository)
    (hown : 0 < own i) : ∃ s' gone, s.release i = .ok s' ∧
      RepositoryInv s' (Function.update own i (own i - 1)) ∧
        Cascade s s' (Function.update own i (own i - 1)) gone ∧
          ∀ j ∈ gone, Relation.ReflTransGen s.Depends i j := by
  have hpending : Balanced s (Function.update own i (own i - 1)) (some i) := by
    refine ⟨h.balanced.nodup, h.balanced.object, fun j ri hclosed hj => ?_, h.balanced.unlinked⟩
    obtain ⟨hcount, hbounds⟩ := h.balanced.count j ri hclosed hj
    refine ⟨?_, hbounds⟩
    simp only [reduceCtorEq, if_false] at hcount
    by_cases hji : j = i
    · subst hji
      rw [Function.update_self, if_pos rfl]
      omega
    · rw [Function.update_of_ne hji, if_neg fun hij => hji (Option.some.inj hij).symm]
      omega
  obtain ⟨s', gone, hrun, hbalanced, hcascade, -, hreach⟩ := objRelease_spec
    (s.repository.length + 1) s i hpending ⟨hi, h.loaded i hi⟩
      (Nat.lt_succ_of_le (List.length_filter_le _ _))
  refine ⟨s', gone, hrun, ⟨hbalanced, fun j hj hclosed => ?_, fun j hj => ?_, ?_, ?_⟩, hcascade,
    hreach⟩
  · rw [hcascade.filter, List.mem_filter] at hj
    rw [hcascade.closed] at hclosed
    rcases List.mem_append.mp hclosed with hclosed | hgone
    · exact h.loaded j hj.1 hclosed
    · exact of_decide_eq_true hj.2 hgone
  · rw [hcascade.next]
    rw [hcascade.closed, List.mem_append] at hj
    rcases hj with hj | hj | hj
    · exact h.fresh j (.inl (hcascade.repository j hj))
    · exact h.fresh j (.inr hj)
    · exact h.fresh j (.inl (hcascade.loaded j hj).1)
  · exact h.acyclic.mono fun _ _ => hcascade.depends h.balanced hbalanced
  · exact hcascade.initialized.trans h.initialized

/-! ### A pass -/

/-- Between two rounds of a pass that has begun with `s₀`. The items of `before` have had their turn,
and those of `rest` have not; those of `gone` are unloaded. -/
structure PassInv (s₀ : Repository) (own₀ : ℕ → ℕ) (s : Repository) (own : ℕ → ℕ)
    (before rest gone : List ℕ) : Prop where
  inv : RepositoryInv s own
  unloads : Unloads s₀ s gone
  split : s₀.repository = before ++ rest
  filter : s.repository = s₀.repository.filter (· ∉ gone)
  spent : ∀ i ∈ before, own₀ i ≤ own i + 1 ∧ (i ∉ gone → own₀ i = own i + 1)
  unspent : ∀ i ∈ rest, own i = own₀ i
  zero : ∀ i ∈ gone, own i = 0

section Pass

variable {s₀ : Repository} {own₀ : ℕ → ℕ} {before skipped rest gone : List ℕ} {i : ℕ}

lemma PassInv.depends (h : PassInv s₀ own₀ s own before rest gone) (h₀ : RepositoryInv s₀ own₀)
    {j k : ℕ} (hjk : s.Depends j k) : s₀.Depends j k :=
  h.unloads.depends h₀.balanced h.inv.balanced hjk

/-- The place of `i` is the only one. -/
lemma PassInv.nodup (h : PassInv s₀ own₀ s own before (skipped ++ i :: rest) gone)
    (h₀ : RepositoryInv s₀ own₀) : i ∉ before ++ skipped ∧ (i :: rest).Nodup := by
  have hnodup := h₀.balanced.nodup
  rw [h.split, ← List.append_assoc] at hnodup
  exact ⟨fun hmem => List.disjoint_of_nodup_append hnodup hmem List.mem_cons_self,
    hnodup.of_append_right⟩

/-- The list of the repository, at the turn of `i`. -/
lemma PassInv.repository_eq
    (h : PassInv s₀ own₀ s own before (skipped ++ i :: rest) gone)
    (hskipped : ∀ j ∈ skipped, j ∈ gone) (hi : i ∉ gone) :
    s.repository = before.filter (· ∉ gone) ++ i :: rest.filter (· ∉ gone) := by
  have hnone : skipped.filter (· ∉ gone) = [] :=
    List.filter_eq_nil_iff.mpr fun j hj => by simpa using hskipped j hj
  rw [h.filter, h.split, List.filter_append, List.filter_append,
    List.filter_cons_of_pos (by simpa using hi), hnone, List.nil_append]

/-- **The next item has a reference left.** Otherwise it depends on an item that has had its turn, and
that has one. -/
lemma PassInv.own_pos (h : PassInv s₀ own₀ s own before (skipped ++ i :: rest) gone)
    (h₀ : RepositoryInv s₀ own₀) (hfits : s₀.TurnsFit own₀) (hskipped : ∀ j ∈ skipped, j ∈ gone)
    (hi : i ∉ gone) : 0 < own i := by
  by_contra hnot
  have hunspent : own i = own₀ i := h.unspent i (by simp)
  have hmem : i ∈ s.repository := by
    rw [h.repository_eq hskipped hi]
    simp
  obtain ⟨j, hj, hpath, hpos⟩ := h.inv.exists_owned hmem
  have hji : j ≠ i := by
    rintro rfl
    exact hnot hpos
  rcases Relation.reflTransGen_iff_eq_or_transGen.mp hpath with heq | hpath
  · exact hji heq.symm
  rw [h.filter, List.mem_filter, decide_eq_true_eq, h.split] at hj
  obtain ⟨hj, hgone⟩ := hj
  have hle : own j ≤ own₀ j := by
    rcases List.mem_append.mp hj with hj | hj
    · have := (h.spent j hj).2 hgone
      omega
    · exact (h.unspent j hj).le
  rcases hfits j i (Relation.TransGen.mono (fun _ _ => h.depends h₀) _ _ hpath) with
    hless | ⟨hone, k, hsub, -⟩
  · omega
  · rw [h.split, ← List.append_assoc] at hsub
    rcases List.mem_append.mp (mem_of_sublist (List.nodup_cons.mp (h.nodup h₀).2).1 hji hsub) with hj | hj
    · have := (h.spent j hj).2 hgone
      omega
    · exact hgone (hskipped j hj)

/-- **The successor is not unloaded with an item.** -/
lemma PassInv.next_not_mem (h : PassInv s₀ own₀ s own before (skipped ++ i :: rest) gone)
    (h₀ : RepositoryInv s₀ own₀) (hfits : s₀.TurnsFit own₀) (hpos : 0 < own i)
    {new : List ℕ} (hzero : ∀ j ∈ new, Function.update own i (own i - 1) j = 0)
    (hreach : ∀ j ∈ new, Relation.ReflTransGen s.Depends i j) {j : ℕ} {todo : List ℕ}
    (hnext : rest.filter (· ∉ gone) = j :: todo) : j ∉ new := by
  intro hj
  obtain ⟨hmem, hgone⟩ : j ∈ rest ∧ j ∉ gone := by
    have hhead : j ∈ rest.filter (· ∉ gone) := hnext ▸ List.mem_cons_self
    simpa using hhead
  have hij : i ≠ j := by
    rintro rfl
    exact (List.nodup_cons.mp (h.nodup h₀).2).1 hmem
  have hi₀ : own i = own₀ i := h.unspent i (by simp)
  have hj₀ : own j = own₀ j := h.unspent j (by simp [hmem])
  have hjzero := hzero j hj
  rw [Function.update_of_ne hij.symm] at hjzero
  rcases Relation.reflTransGen_iff_eq_or_transGen.mp (hreach j hj) with heq | hpath
  · exact hij heq.symm
  rcases hfits i j (Relation.TransGen.mono (fun _ _ => h.depends h₀) _ _ hpath) with
    hless | ⟨-, k, hsub, hk⟩
  · omega
  · -- What stands between the two is still there, so that `j` is not the successor.
    rw [h.split, ← List.append_assoc] at hsub
    have hsub := sublist_of_cons_sublist (h.nodup h₀).1 hsub
    have hk₀ : own k = own₀ k := h.unspent k (by simp [hsub.subset (List.mem_cons_self ..)])
    have hkgone : k ∉ gone := fun hkgone => by
      have := h.zero k hkgone
      omega
    have hfiltered : [k, j].Sublist (j :: todo) := by
      have hsub := hsub.filter (· ∉ gone)
      rwa [hnext, List.filter_cons_of_pos (by simpa using hkgone),
        List.filter_cons_of_pos (by simpa using hgone), List.filter_nil] at hsub
    rcases List.cons_sublist_cons'.mp hfiltered with hsub | ⟨rfl, -⟩
    · have hnodup := (List.nodup_cons.mp (h.nodup h₀).2).2.filter (· ∉ gone)
      rw [hnext] at hnodup
      exact (List.nodup_cons.mp hnodup).1 (hsub.subset (by simp))
    · omega

/-- **A round of the inner loop.** -/
lemma PassInv.turn (h : PassInv s₀ own₀ s own before (skipped ++ i :: rest) gone)
    (h₀ : RepositoryInv s₀ own₀) (hfits : s₀.TurnsFit own₀) (hskipped : ∀ j ∈ skipped, j ∈ gone)
    (hi : i ∉ gone) : ∃ s' new, s.release i = .ok s' ∧
      PassInv s₀ own₀ s' (Function.update own i (own i - 1)) (before ++ skipped ++ [i]) rest
        (gone ++ new) ∧ s.getNext i = (rest.filter (· ∉ gone ++ new)).head? := by
  have hpos := h.own_pos h₀ hfits hskipped hi
  have hrepository := h.repository_eq hskipped hi
  obtain ⟨hbefore, hrest⟩ := h.nodup h₀
  have hmem : i ∈ s.repository := by
    rw [hrepository]
    simp
  obtain ⟨s', new, hrun, hinv, hcascade, hreach⟩ := h.inv.release hmem hpos
  refine ⟨s', new, hrun, ⟨hinv, h.unloads.trans hcascade.toUnloads, ?_, ?_, ?_, ?_, ?_⟩, ?_⟩
  · rw [h.split]
    simp
  · rw [hcascade.filter, h.filter, filter_not_mem_append]
  · intro j hj
    rw [List.mem_append, List.mem_singleton] at hj
    rcases hj with hj | rfl
    · have hji : j ≠ i := fun hji => hbefore (hji ▸ hj)
      rw [Function.update_of_ne hji]
      rcases List.mem_append.mp hj with hj | hj
      · exact ⟨(h.spent j hj).1, fun hgone => (h.spent j hj).2 fun hmem =>
          hgone (List.mem_append_left _ hmem)⟩
      · refine ⟨?_, fun hgone => absurd (List.mem_append_left _ (hskipped j hj)) hgone⟩
        have := h.unspent j (by simp [hj])
        omega
    · have := h.unspent j (by simp)
      rw [Function.update_self]
      exact ⟨by omega, fun _ => by omega⟩
  · intro j hj
    have hji : j ≠ i := fun hji => (List.nodup_cons.mp hrest).1 (hji ▸ hj)
    rw [Function.update_of_ne hji]
    exact h.unspent j (by simp [hj])
  · intro j hj
    rcases List.mem_append.mp hj with hj | hj
    · have hji : j ≠ i := fun hji => hi (hji ▸ hj)
      rw [Function.update_of_ne hji]
      exact h.zero j hj
    · exact hcascade.zero j hj
  · have hdone : i ∉ before.filter (· ∉ gone) := fun hmem =>
      hbefore (List.mem_append_left _ (List.mem_filter.mp hmem).1)
    rw [getNext_eq hrepository hdone, filter_not_mem_append]
    cases hnext : rest.filter (· ∉ gone) with
    | nil => rfl
    | cons j todo =>
        have hj := h.next_not_mem h₀ hfits hpos hcascade.zero hreach hnext
        rw [List.filter_cons_of_pos (by simpa using hj), List.head?_cons, List.head?_cons]

/-- The invariant of the inner loop. -/
def PassLoop (s₀ : Repository) (own₀ : ℕ → ℕ) (left : ℕ) (t : Repository × Option ℕ) : Prop :=
  ∃ own before rest gone, PassInv s₀ own₀ t.1 own before rest gone ∧
    t.2 = (rest.filter (· ∉ gone)).head? ∧ left = rest.length

/-- The end of the inner loop. -/
def PassEnd (s₀ : Repository) (own₀ : ℕ → ℕ) (r : Except Fault Repository) : Prop :=
  ∃ s own before rest gone, r = .ok s ∧ PassInv s₀ own₀ s own before rest gone ∧
    rest.filter (· ∉ gone) = []

lemma finalizeItem_round (h₀ : RepositoryInv s₀ own₀) (hfits : s₀.TurnsFit own₀) (left : ℕ)
    (t : Repository × Option ℕ) (h : PassLoop s₀ own₀ left t) :
    (finalizeItem t).elim (fun t' => ∃ left' < left, PassLoop s₀ own₀ left' t')
      (PassEnd s₀ own₀) := by
  obtain ⟨t, cursor⟩ := t
  obtain ⟨own, before, rest, gone, hinv, hcursor, rfl⟩ := h
  dsimp only at hinv hcursor
  cases hrest : rest.filter (· ∉ gone) with
  | nil =>
      rw [hcursor, hrest]
      exact ⟨t, own, before, rest, gone, rfl, hinv, hrest⟩
  | cons i todo =>
      obtain ⟨skipped, rest', rfl, hskipped, hi, rfl⟩ := List.filter_eq_cons_iff.mp hrest
      have hskipped (j : ℕ) (hj : j ∈ skipped) : j ∈ gone := by simpa using hskipped j hj
      have hi : i ∉ gone := of_decide_eq_true hi
      obtain ⟨t', new, hrun, hinv', hnext⟩ := hinv.turn h₀ hfits hskipped hi
      have hmem : i ∈ t.repository := by
        rw [hinv.repository_eq hskipped hi]
        simp
      obtain ⟨ri, hri⟩ := hinv.inv.balanced.exists_item hmem
      have hsome : ¬ (t.object i).isNone = true := by simp [hri]
      rw [hcursor, hrest, List.head?_cons, finalizeItem, if_neg hsome, hrun]
      refine ⟨rest'.length, ?_, _, _, rest', _, hinv', hnext, rfl⟩
      simp
      omega

/-- **The inner loop** gives every item its turn, or unloads it. -/
lemma finalizePass_spec (h₀ : RepositoryInv s₀ own₀) (hfits : s₀.TurnsFit own₀) :
    ∃ s own before rest gone, s₀.finalizePass = .ok s ∧
      PassInv s₀ own₀ s own before rest gone ∧ rest.filter (· ∉ gone) = [] := by
  have hstart : PassLoop s₀ own₀ s₀.repository.length (s₀, s₀.repository.head?) :=
    ⟨own₀, [], s₀.repository, [],
      ⟨h₀, .refl s₀, rfl, by simp, nofun, fun _ _ => rfl, nofun⟩, by simp, rfl⟩
  obtain ⟨r, hrun, s, own, before, rest, gone, rfl, hinv, hnone⟩ := loop_rule
    (PassLoop s₀ own₀) (PassEnd s₀ own₀) (finalizeItem_round h₀ hfits) hstart (Nat.lt_succ_self _)
  refine ⟨s, own, before, rest, gone, ?_, hinv, hnone⟩
  rw [finalizePass, hrun, Option.getD_some]

/-- Behind a pass everything has one reference less, and the next pass is in order. -/
lemma PassInv.turnsFit (h : PassInv s₀ own₀ s own before rest gone) (h₀ : RepositoryInv s₀ own₀)
    (hfits : s₀.TurnsFit own₀) (hnone : rest.filter (· ∉ gone) = []) :
    (∀ i ∈ s.repository, own₀ i = own i + 1) ∧ s.TurnsFit own := by
  have hbefore {i : ℕ} (hi : i ∈ s₀.repository) (hgone : i ∉ gone) : i ∈ before := by
    rw [h.split, List.mem_append] at hi
    refine hi.resolve_right fun hrest => ?_
    have hmem : i ∈ rest.filter (· ∉ gone) := List.mem_filter.mpr ⟨hrest, decide_eq_true hgone⟩
    rw [hnone] at hmem
    cases hmem
  have hspent (i : ℕ) (hi : i ∈ s.repository) : own₀ i = own i + 1 := by
    rw [h.filter, List.mem_filter, decide_eq_true_eq] at hi
    exact (h.spent i (hbefore hi.1 hi.2)).2 hi.2
  refine ⟨hspent, fun i j hpath => ?_⟩
  obtain ⟨hi, hj⟩ := Depends.mem_ends h.inv hpath
  have hi₀ := hspent i hi
  have hj₀ := hspent j hj
  rcases hfits i j (Relation.TransGen.mono (fun _ _ => h.depends h₀) _ _ hpath) with
    hless | ⟨hone, k, hsub, hk⟩
  · exact .inl (by omega)
  · -- The item in between has more than one reference, so that it is still there.
    have hkmem : k ∈ s₀.repository := hsub.subset (by simp)
    have hkown : 0 < own k := by
      rw [h.split] at hkmem
      rcases List.mem_append.mp hkmem with hkmem | hkmem
      · have := (h.spent k hkmem).1
        omega
      · have := h.unspent k hkmem
        omega
    have hkgone : k ∉ gone := fun hgone => by
      have := h.zero k hgone
      omega
    have hk₀ := (h.spent k (hbefore hkmem hkgone)).2 hkgone
    rw [h.filter, List.mem_filter] at hi hj
    refine .inr ⟨by omega, k, ?_, by omega⟩
    have hfiltered := hsub.filter (· ∉ gone)
    rwa [List.filter_cons_of_pos (by simpa using hi.2),
      List.filter_cons_of_pos (by simpa using hkgone), List.filter_cons_of_pos (by simpa using hj.2),
      List.filter_nil, ← h.filter] at hfiltered

end Pass

/-! ### All passes -/

/-- The invariant of the outer loop. -/
def FinalizeLoop (s₀ : Repository) (left : ℕ) (s : Repository) : Prop :=
  ∃ own gone, RepositoryInv s own ∧ s.TurnsFit own ∧ Unloads s₀ s gone ∧
    s.repository = s₀.repository.filter (· ∉ gone) ∧ ∀ i ∈ s.repository, own i ≤ left

/-- The end of the outer loop. -/
def FinalizeEnd (s₀ : Repository) (r : Except Fault Repository) : Prop :=
  ∃ s gone, r = .ok s ∧ Unloads s₀ s gone ∧ s.repository = s₀.repository.filter (· ∉ gone) ∧
    s.repository = []

lemma finalizeRound_round {s₀ : Repository} (left : ℕ) (s : Repository)
    (h : FinalizeLoop s₀ left s) :
    (finalizeRound s).elim (fun s' => ∃ left' < left, FinalizeLoop s₀ left' s')
      (FinalizeEnd s₀) := by
  obtain ⟨own, gone, hinv, hfits, hunloads, hfilter, hleft⟩ := h
  obtain ⟨s', own', before, rest, gone', hrun, hpass, hnone⟩ := finalizePass_spec hinv hfits
  obtain ⟨hspent, hfits'⟩ := hpass.turnsFit hinv hfits hnone
  have hfilter' : s'.repository = s₀.repository.filter (· ∉ gone ++ gone') := by
    rw [hpass.filter, hfilter, filter_not_mem_append]
  have hunloads' := hunloads.trans hpass.unloads
  rw [finalizeRound, hrun]
  dsimp only
  split
  case isTrue hlength =>
    obtain ⟨i, hi⟩ := List.exists_mem_of_length_pos hlength
    have hown (j : ℕ) (hj : j ∈ s'.repository) : own' j + 1 ≤ left := by
      have hle := hleft j (hpass.unloads.repository j hj)
      rwa [hspent j hj] at hle
    have hpos := hown i hi
    exact ⟨left - 1, by omega, own', _, hpass.inv, hfits', hunloads', hfilter',
      fun j hj => Nat.le_sub_one_of_lt (hown j hj)⟩
  case isFalse hlength =>
    exact ⟨s', _, rfl, hunloads', hfilter', List.length_eq_zero_iff.mp (by omega)⟩

/-- No item has more references than all together. -/
lemma RepositoryInv.own_le_totalCount (h : RepositoryInv s own) {i : ℕ} (hi : i ∈ s.repository) :
    own i ≤ s.totalCount := by
  obtain ⟨ri, hri, hcount, -⟩ := h.exists_item hi
  have hsum : ri.refCount.toNat ≤ s.totalCount :=
    List.le_sum_of_mem (List.mem_map.mpr ⟨i, hi, by rw [hri, Option.elim_some]⟩)
  omega

/-- **`ocoms_mca_base_component_repository_finalize`** unloads everything, in order. -/
theorem finalize_spec (h : RepositoryInv s own) (hfits : s.TurnsFit own) :
    ∃ s' gone, s.finalize = .ok s' ∧ Unloads s s' gone ∧ gone.Perm s.repository ∧
      s'.repository = [] := by
  have hstart : FinalizeLoop s s.totalCount s :=
    ⟨own, [], h, hfits, .refl s, by simp, fun i hi => h.own_le_totalCount hi⟩
  obtain ⟨r, hrun, s', gone, rfl, hunloads, hfilter, hempty⟩ := loop_rule
    (FinalizeLoop s) (FinalizeEnd s) finalizeRound_round hstart (Nat.lt_succ_self _)
  refine ⟨{ s' with initialized := false }, gone, ?_, ⟨hunloads.closed, hunloads.nodup,
    hunloads.loaded, hunloads.dependentsFirst, hunloads.kept, hunloads.repository⟩, ?_, hempty⟩
  · rw [finalize, if_pos h.initialized, hrun]
    rfl
  · refine (List.perm_ext_iff_of_nodup hunloads.nodup h.balanced.nodup).mpr fun i =>
      ⟨fun hi => (hunloads.loaded i hi).1, fun hi => ?_⟩
    by_contra hgone
    have hmem : i ∈ s'.repository := by
      rw [hfilter]
      exact List.mem_filter.mpr ⟨hi, decide_eq_true hgone⟩
    rw [hempty] at hmem
    cases hmem

/-! ### Runs -/

lemma depends_iff {i j : ℕ} : s.Depends i j ↔ i ∉ s.closed ∧ j ∈ s.dependencies i := by
  rw [mem_dependencies]
  rfl

/-- A new item. -/
lemma RepositoryInv.retain (h : RepositoryInv s own) (type name : CString) :
    RepositoryInv (s.retain type name) (Function.update own s.next 1) := by
  have hfresh : s.next ∉ s.repository := fun hmem => lt_irrefl _ (h.fresh _ (.inl hmem))
  have hnone : s.object s.next = none := by
    rw [← Option.not_isSome_iff_eq_none, h.balanced.object]
    exact hfresh
  have hnew : (s.retain type name).object s.next = some
      { type := type.take maxTypeNameLen, name := name, refCount := 1, dependencies := [] } :=
    Function.update_self ..
  have hold {j : ℕ} (hj : j ≠ s.next) : (s.retain type name).object j = s.object j :=
    Function.update_of_ne hj _ _
  have hdependencies : (s.retain type name).dependencies = s.dependencies := by
    funext j
    by_cases hj : j = s.next
    · rw [hj, dependencies, dependencies, hnew, hnone]
      rfl
    · rw [dependencies, dependencies, hold hj]
  have hlinks (j : ℕ) : (s.retain type name).links j = s.links j := by
    have hempty : s.dependencies s.next = [] := by
      rw [dependencies, hnone]
      rfl
    rw [links_eq, links_eq, hdependencies, Repository.retain, List.flatMap_append,
      List.flatMap_singleton, hempty, List.append_nil]
  refine ⟨⟨?_, fun j => ?_, fun j ri hclosed hj => ?_, fun j hnot => ?_⟩, fun j hj => ?_,
    fun j hj => ?_, ?_, h.initialized⟩
  · exact List.Nodup.append h.balanced.nodup (List.nodup_singleton _) (by simpa using hfresh)
  · by_cases hj : j = s.next
    · rw [hj, hnew]
      simp [Repository.retain]
    · rw [hold hj, h.balanced.object]
      simp [Repository.retain, hj]
  · rw [hlinks j]
    by_cases hnext : j = s.next
    · rw [hnext, hnew] at hj
      obtain rfl := Option.some.inj hj
      rw [hnext, Function.update_self, h.balanced.unlinked _ fun hloaded => hfresh hloaded.1, CInt.max]
      simp
    · rw [hold hnext] at hj
      rw [Function.update_of_ne hnext]
      exact h.balanced.count j ri hclosed hj
  · rw [hlinks j]
    refine h.balanced.unlinked j ?_
    rintro ⟨hmem, hclosed⟩
    exact hnot ⟨List.mem_append_left _ hmem, hclosed⟩
  · intro hclosed
    rcases List.mem_append.mp hj with hj | hj
    · exact h.loaded j hj hclosed
    · rw [List.mem_singleton.mp hj] at hclosed
      exact lt_irrefl _ (h.fresh _ (.inr hclosed))
  · refine Nat.lt_succ_iff.mpr ?_
    rcases hj with hj | hj
    · rcases List.mem_append.mp hj with hj | hj
      · exact (h.fresh j (.inl hj)).le
      · exact (List.mem_singleton.mp hj).le
    · exact (h.fresh j (.inr hj)).le
  · refine h.acyclic.mono fun i j hij => ?_
    rw [depends_iff, hdependencies] at hij
    exact depends_iff.mpr hij

/-- A reference more. -/
lemma RepositoryInv.objRetain (h : RepositoryInv s own) {i : ℕ} (hroom : s.HasRoom i) :
    RepositoryInv (s.objRetain i) (Function.update own i (own i + 1)) := by
  have hdependencies := dependencies_refCount s i fun ri => CInt.wrap (ri.refCount + 1)
  have hlinks (j : ℕ) : (s.objRetain i).links j = s.links j :=
    links_congr (by rfl) hdependencies j
  refine ⟨⟨h.balanced.nodup, fun j => ?_, fun j ri hclosed hj => ?_, fun j hnot => ?_⟩, h.loaded,
    h.fresh, ?_, h.initialized⟩
  · rw [Repository.objRetain, isSome_modify]
    exact h.balanced.object j
  · rw [hlinks j]
    by_cases hji : j = i
    · subst hji
      cases hobject : s.object j with
      | none =>
          have hsome := isSome_modify s j j fun ri => { ri with refCount := CInt.wrap (ri.refCount + 1) }
          rw [← Repository.objRetain, hj, hobject] at hsome
          cases hsome
      | some ri₀ =>
          rw [Repository.objRetain, object_modify_self hobject] at hj
          obtain rfl := Option.some.inj hj
          obtain ⟨hcount, hpos, -⟩ := h.balanced.count j ri₀ hclosed hobject
          have hlt := hroom ri₀ hobject
          rw [CInt.max] at hlt
          simp only [reduceCtorEq, if_false] at hcount ⊢
          rw [CInt.wrap_eq (by omega) (by rw [CInt.max]; omega), Function.update_self, CInt.max]
          omega
    · rw [Repository.objRetain, object_modify_of_ne hji] at hj
      rw [Function.update_of_ne hji]
      exact h.balanced.count j ri hclosed hj
  · rw [hlinks j]
    exact h.balanced.unlinked j hnot
  · refine h.acyclic.mono fun j k hjk => ?_
    rw [depends_iff] at hjk ⊢
    exact ⟨hjk.1, hdependencies ▸ hjk.2⟩

/-- A reference that callers own becomes one of a link. -/
lemma RepositoryInv.addDependency (h : RepositoryInv s own) {src depend : ℕ}
    (hsrc : src ∈ s.repository) (hdepend : depend ∈ s.repository) (hown : 0 < own depend)
    (hacyclic : ¬ Relation.ReflTransGen s.Depends depend src) :
    RepositoryInv (s.modify src fun ri => { ri with dependencies := ri.dependencies ++ [depend] })
      (Function.update own depend (own depend - 1)) := by
  obtain ⟨ri₀, hri₀⟩ := h.balanced.exists_item hsrc
  have hself : (s.modify src fun ri =>
      { ri with dependencies := ri.dependencies ++ [depend] }).dependencies src =
        s.dependencies src ++ [depend] := by
    rw [dependencies_modify, if_pos rfl, hri₀, dependencies, hri₀]
    rfl
  have hothers (j : ℕ) (hj : j ≠ src) : (s.modify src fun ri =>
      { ri with dependencies := ri.dependencies ++ [depend] }).dependencies j = s.dependencies j := by
    rw [dependencies_modify, if_neg hj]
  have hlinks (j : ℕ) : (s.modify src fun ri =>
      { ri with dependencies := ri.dependencies ++ [depend] }).links j =
        s.links j + (if j = depend then 1 else 0) := by
    have hchange := links_change s
      (s.modify src fun ri => { ri with dependencies := ri.dependencies ++ [depend] })
      h.balanced.nodup hsrc rfl hothers j
    rw [hself, List.count_append, List.count_singleton] at hchange
    simp only [beq_iff_eq, eq_comm (a := depend)] at hchange
    omega
  refine ⟨⟨h.balanced.nodup, fun j => ?_, fun j ri hclosed hj => ?_, fun j hnot => ?_⟩, h.loaded,
    h.fresh, ?_, h.initialized⟩
  · rw [isSome_modify]
    exact h.balanced.object j
  · obtain ⟨ri', hri', hsame⟩ : ∃ ri', s.object j = some ri' ∧ ri'.refCount = ri.refCount := by
      by_cases hjsrc : j = src
      · rw [hjsrc, object_modify_self hri₀] at hj
        obtain rfl := Option.some.inj hj
        exact ⟨ri₀, hjsrc ▸ hri₀, rfl⟩
      · exact ⟨ri, by rwa [object_modify_of_ne hjsrc] at hj, rfl⟩
    obtain ⟨hcount, hbounds⟩ := h.balanced.count j ri' hclosed hri'
    rw [hsame] at hcount hbounds
    refine ⟨?_, hbounds⟩
    rw [hlinks j, hcount]
    by_cases hjd : j = depend
    · subst hjd
      simp only [Function.update_self, if_true, reduceCtorEq, if_false]
      omega
    · rw [Function.update_of_ne hjd, if_neg hjd, Nat.add_zero]
  · have hjd : j ≠ depend := by
      rintro rfl
      exact hnot ⟨hdepend, h.loaded j hdepend⟩
    rw [hlinks j, if_neg hjd]
    exact h.balanced.unlinked j hnot
  · refine h.acyclic.insert (fun j k hjk => ?_) hacyclic
    rw [depends_iff] at hjk
    by_cases hj : j = src
    · rw [hj, hself, List.mem_append, List.mem_singleton] at hjk
      rcases hjk.2 with hmem | hk
      · exact .inl (depends_iff.mpr ⟨hj ▸ hjk.1, hj ▸ hmem⟩)
      · exact .inr ⟨hj, hk⟩
    · rw [hothers j hj] at hjk
      exact .inl (depends_iff.mpr hjk)

/-- A new link. -/
lemma RepositoryInv.linkItems (h : RepositoryInv s own) {src depend : ℕ} (hsrc : src ∈ s.repository)
    (hdepend : depend ∈ s.repository) (hacyclic : ¬ Relation.ReflTransGen s.Depends depend src)
    (hroom : s.HasRoom depend) : RepositoryInv (s.linkItems src depend) own := by
  have hne : src ≠ depend := by
    rintro rfl
    exact hacyclic .refl
  have hdependencies := dependencies_refCount s depend fun ri => CInt.wrap (ri.refCount + 1)
  have hsame (j k : ℕ) : (s.objRetain depend).Depends j k ↔ s.Depends j k := by
    rw [depends_iff, depends_iff]
    exact and_congr_right fun _ => by rw [Repository.objRetain, hdependencies]
  have hretained := (h.objRetain hroom).addDependency hsrc hdepend
    (by rw [Function.update_self]; exact Nat.succ_pos _)
    (fun hpath => hacyclic (Relation.ReflTransGen.mono (fun j k => (hsame j k).mp) _ _ hpath))
  have hown : Function.update (Function.update own depend (own depend + 1)) depend
      (Function.update own depend (own depend + 1) depend - 1) = own := by
    rw [Function.update_idem, Function.update_self, Nat.add_sub_cancel, Function.update_eq_self]
  -- The two writes are to different items.
  have hcomm : (s.objRetain depend).modify src (fun ri =>
      { ri with dependencies := ri.dependencies ++ [depend] }) = s.linkItems src depend := by
    rw [Repository.linkItems, Repository.objRetain, Repository.objRetain, modify, modify, modify,
      modify]
    dsimp only
    rw [Function.update_of_ne hne, Function.update_of_ne hne.symm, Function.update_comm hne]
  rwa [hown, hcomm] at hretained

/-- Every call keeps the invariant. -/
lemma RepositoryInv.step (h : RepositoryInv s own) {op : Op} (hfits : op.Fits s)
    (hstep : s.step op = .ok s') : ∃ own', RepositoryInv s' own' := by
  cases op with
  | retain type name =>
      obtain rfl := Except.ok.inj hstep
      exact ⟨_, h.retain type name⟩
  | retainComponent type name =>
      obtain rfl := Except.ok.inj hstep
      rw [retainComponent]
      cases hfind : s.findComponent type name with
      | none => exact ⟨own, h⟩
      | some i => exact ⟨_, h.objRetain (hfits i hfind)⟩
  | link srcType srcName dependType dependName =>
      obtain rfl := Except.ok.inj hstep
      rw [link]
      cases hsrc : s.findComponent srcType srcName with
      | none => exact ⟨own, h⟩
      | some src =>
          dsimp only
          cases hdepend : s.findComponent dependType dependName with
          | none => exact ⟨own, h⟩
          | some depend =>
              obtain ⟨hacyclic, hroom⟩ := hfits src hsrc depend hdepend
              exact ⟨own, h.linkItems (mem_of_findComponent hsrc) (mem_of_findComponent hdepend)
                hacyclic hroom⟩
  | release type name =>
      rw [Repository.step, releaseComponent, if_pos h.initialized] at hstep
      cases hfind : s.findComponent type name with
      | none =>
          rw [hfind] at hstep
          obtain rfl := Except.ok.inj hstep
          exact ⟨own, h⟩
      | some i =>
          have hmem := mem_of_findComponent hfind
          obtain ⟨s₁, gone, hrun, hinv, -⟩ := h.release hmem (h.own_eq hmem ▸ hfits i hfind)
          rw [hfind] at hstep
          obtain rfl := Except.ok.inj (hrun.symm.trans hstep)
          exact ⟨_, hinv⟩

lemma repositoryInv_init : RepositoryInv init fun _ => 0 where
  balanced := ⟨List.nodup_nil, fun _ => by simp [init], nofun, fun _ _ => rfl⟩
  loaded := nofun
  fresh := nofun
  acyclic i hi := by
    obtain ⟨_, ⟨-, ri, hri, -⟩, -⟩ := Relation.TransGen.head'_iff.mp hi
    cases hri
  initialized := rfl

lemma Reach.inv (h : Reach s) : ∃ own, RepositoryInv s own := by
  induction h with
  | init => exact ⟨_, repositoryInv_init⟩
  | step _ hfits hstep ih =>
      obtain ⟨own, hinv⟩ := ih
      exact hinv.step hfits hstep

/-- **Components are unloaded in order.** In every run in which no link closes a cycle, no reference
count overflows, and no item is released more often than it was retained, a release unloads nothing
that a loaded component depends on; and `finalize` unloads every component once, behind all that
depend on it, if none of these has more references of its own. -/
theorem component_repository_sound (h : Reach s) : Sound s := by
  obtain ⟨own, hinv⟩ := h.inv
  constructor
  case release =>
    intro type name hfits
    rw [releaseComponent, if_pos hinv.initialized]
    cases hfind : s.findComponent type name with
    | none => exact ⟨s, [], rfl, .refl s⟩
    | some i =>
        have hmem := mem_of_findComponent hfind
        obtain ⟨s', gone, hrun, -, hcascade, -⟩ :=
          hinv.release hmem (hinv.own_eq hmem ▸ hfits i hfind)
        exact ⟨s', gone, hrun, hcascade.toUnloads⟩
  case finalize =>
    intro hfits
    refine finalize_spec hinv fun i j hpath => ?_
    obtain ⟨hmem, hmem'⟩ := Depends.mem_ends hinv hpath
    have hi := hinv.own_eq hmem
    have hj := hinv.own_eq hmem'
    rcases hfits i j hpath with hless | ⟨hone, k, hsub, hk⟩
    · exact .inl (by omega)
    · have hk₀ := hinv.own_eq (hsub.subset (show k ∈ [i, k, j] by simp))
      exact .inr ⟨by omega, k, hsub, by omega⟩

/-! ### Some runs -/

/-- The component `a` depends on `d`, which is in front of it. -/
def depending : List Op := [.retain ['t'] ['d'], .retain ['t'] ['a'], .link ['t'] ['a'] ['t'] ['d']]

/-- The state behind some calls. -/
def run (ops : List Op) : Except Fault Repository := ops.foldlM step init

lemma reach_depending (h : run depending = .ok s) : Reach s := by
  have hretain {s : Repository} (name : CString) (h : Reach s) : Reach (s.retain ['t'] name) :=
    h.step (show (Op.retain ['t'] name).Fits s from trivial) rfl
  have hlink : (Op.link ['t'] ['a'] ['t'] ['d']).Fits
      ((init.retain ['t'] ['d']).retain ['t'] ['a']) := by
    rintro src hsrc depend hdepend
    obtain rfl : 1 = src := Option.some.inj hsrc
    obtain rfl : 0 = depend := Option.some.inj hdepend
    constructor
    · intro hpath
      -- `d` depends on nothing.
      rcases hpath.cases_head with hsame | ⟨_, ⟨-, ri, hri, hmem⟩, -⟩
      · exact absurd hsame (by decide)
      · obtain rfl := Option.some.inj hri
        cases hmem
    · intro ri hri
      obtain rfl := Option.some.inj hri
      decide
  obtain rfl := Except.ok.inj h
  exact (hretain ['a'] (hretain ['d'] .init)).step hlink rfl

theorem component_repository_sound_depending :
    ∃ s, run depending = .ok s ∧ Sound s :=
  ⟨_, rfl, component_repository_sound (reach_depending rfl)⟩

/-- **Where the conditions are not met.** `finalize` releases `d`, which has one reference of its own,
twice before `a`, which has two, is gone: it is unloaded first, and `a` touches it afterwards. Of two
items with one name, the releases find the first one. -/
theorem component_repository_unsound :
    (∃ s, run (depending ++ [.retainComponent ['t'] ['a']]) = .ok s ∧ Reach s ∧
      s.finalize = .error .useAfterFree) ∧
    ∃ s ri, run [.retain ['t'] ['a'], .retain ['t'] ['a'], .retain ['t'] ['b'],
      .link ['t'] ['b'] ['t'] ['a'], .release ['t'] ['a'], .release ['t'] ['a']] = .ok s ∧
      s.closed = [0] ∧ s.object 2 = some ri ∧ ri.dependencies = [0] := by
  refine ⟨⟨_, rfl, ?_, rfl⟩, _, _, rfl, rfl, rfl, rfl⟩
  refine (reach_depending rfl).step (show (Op.retainComponent ['t'] ['a']).Fits _ from ?_) rfl
  intro i hfind ri hri
  obtain rfl : 1 = i := Option.some.inj hfind
  obtain rfl := Option.some.inj hri
  decide

end Ocoms.Repository
