import Ocoms.Mca.ComponentRepository

/-!
`OBJ_RELEASE` of a repository item, with all that its destructor releases.

* `Balanced` relates the reference counts to the links, and to the references that callers own.
* `Unloads.trans` puts two steps together.
* `objRelease_spec` is the specification. What is unloaded has no references left, and the released
  component depends on it.
-/

namespace Ocoms.Repository

variable {s s' s'' : Repository} {own : ℕ → ℕ}

/-! ### Links -/

/-- The dependencies of an item. -/
def dependencies (s : Repository) (i : ℕ) : List ℕ :=
  (s.object i).elim [] RepositoryItem.dependencies

lemma links_eq (s : Repository) (i : ℕ) : s.links i = (s.repository.flatMap s.dependencies).count i :=
  rfl

lemma dependencies_modify (s : Repository) (i j : ℕ) (f : RepositoryItem → RepositoryItem) :
    (s.modify i f).dependencies j =
      if j = i then ((s.object i).map f).elim [] RepositoryItem.dependencies else s.dependencies j := by
  simp only [dependencies, modify, Function.update_apply]
  split <;> rfl

/-- Only one item has other dependencies. -/
lemma links_change (s s' : Repository) {p : ℕ} (hnodup : s.repository.Nodup) (hp : p ∈ s.repository)
    (hrepository : s'.repository = s.repository)
    (hothers : ∀ j ≠ p, s'.dependencies j = s.dependencies j) (i : ℕ) :
    s'.links i + (s.dependencies p).count i = s.links i + (s'.dependencies p).count i := by
  obtain ⟨before, behind, hsplit⟩ := List.append_of_mem hp
  rw [hsplit] at hnodup
  have hne {l : List ℕ} (hl : p ∉ l) : l.flatMap s'.dependencies = l.flatMap s.dependencies :=
    List.flatMap_congr fun j hj => hothers j fun hjp => hl (hjp ▸ hj)
  have hbefore : p ∉ before := fun hmem =>
    (List.disjoint_of_nodup_append hnodup) hmem List.mem_cons_self
  have hbehind : p ∉ behind := (List.nodup_cons.mp hnodup.of_append_right).1
  rw [links_eq, links_eq, hrepository, hsplit]
  simp only [List.flatMap_append, List.flatMap_cons, List.count_append, hne hbefore, hne hbehind]
  omega

lemma flatMap_filter_ne {f : ℕ → List ℕ} {p : ℕ} (hp : f p = []) (l : List ℕ) :
    (l.filter (· ≠ p)).flatMap f = l.flatMap f := by
  induction l with
  | nil => rfl
  | cons j l ih =>
      by_cases hjp : j = p
      · subst hjp
        rw [List.filter_cons_of_neg (by simp), List.flatMap_cons, hp, List.nil_append, ih]
      · rw [List.filter_cons_of_pos (by simpa using hjp), List.flatMap_cons, List.flatMap_cons, ih]

/-- An item without dependencies leaves no links behind. -/
lemma links_remove {p : ℕ} (hp : s.dependencies p = []) (i : ℕ) :
    (s.remove p).links i = s.links i := by
  have hsame : (s.remove p).dependencies = s.dependencies := by
    funext j
    by_cases hjp : j = p
    · subst hjp
      rw [hp]
      simp [dependencies, remove]
    · simp [dependencies, remove, Function.update_of_ne hjp]
  rw [links_eq, links_eq, hsame, remove, flatMap_filter_ne hp]

/-! ### The invariant -/

/-- **The reference counts.** A loaded item has one for each link and each reference that callers
own, and `pending` has one more, which is being released. Nothing is linked to an item that is being
unloaded, or that is gone. -/
structure Balanced (s : Repository) (own : ℕ → ℕ) (pending : Option ℕ) : Prop where
  nodup : s.repository.Nodup
  object : ∀ i, (s.object i).isSome ↔ i ∈ s.repository
  count : ∀ i ri, i ∉ s.closed → s.object i = some ri →
    ri.refCount = own i + s.links i + (if pending = some i then 1 else 0) ∧
      0 < ri.refCount ∧ ri.refCount ≤ CInt.max
  unlinked : ∀ i, ¬ s.Loaded i → s.links i = 0

lemma Balanced.mem (h : Balanced s own none) {i : ℕ} {ri : RepositoryItem}
    (hi : s.object i = some ri) : i ∈ s.repository := (h.object i).mp (by rw [hi]; rfl)

lemma Balanced.exists_item {pending : Option ℕ} (h : Balanced s own pending) {i : ℕ}
    (hi : i ∈ s.repository) : ∃ ri, s.object i = some ri :=
  Option.isSome_iff_exists.mp ((h.object i).mpr hi)

/-- A dependency of an item is loaded. -/
lemma Balanced.loaded_of_mem {pending : Option ℕ} (h : Balanced s own pending) {p i : ℕ}
    (hp : p ∈ s.repository) (hi : i ∈ s.dependencies p) : s.Loaded i := by
  by_contra hnot
  have hzero := h.unlinked i hnot
  rw [links_eq, List.count_eq_zero] at hzero
  exact hzero (List.mem_flatMap.mpr ⟨p, hp, hi⟩)

lemma mem_dependencies {i j : ℕ} : j ∈ s.dependencies i ↔
    ∃ ri, s.object i = some ri ∧ j ∈ ri.dependencies := by
  rw [dependencies]
  cases s.object i with
  | none => simp
  | some ri => simp

/-! ### Unloading -/

lemma Unloads.refl (s : Repository) : Unloads s s [] where
  closed := (List.append_nil _).symm
  nodup := List.nodup_nil
  loaded := nofun
  dependentsFirst := dependenciesFirst_nil
  kept _ ri _ _ h := ⟨ri.refCount, h⟩
  repository _ := id

/-- Two steps, one behind the other. -/
lemma Unloads.trans {gone gone' : List ℕ} (h : Unloads s s' gone) (h' : Unloads s' s'' gone') :
    Unloads s s'' (gone ++ gone') where
  closed := by rw [h'.closed, h.closed, List.append_assoc]
  nodup := by
    refine List.Nodup.append h.nodup h'.nodup fun i hi hi' => (h'.loaded i hi').2 ?_
    rw [h.closed]
    exact List.mem_append_right _ hi
  loaded i hi := by
    rcases List.mem_append.mp hi with hi | hi
    · exact h.loaded i hi
    · obtain ⟨hmem, hnot⟩ := h'.loaded i hi
      refine ⟨h.repository i hmem, fun hclosed => hnot ?_⟩
      rw [h.closed]
      exact List.mem_append_left _ hclosed
  dependentsFirst := by
    refine h.dependentsFirst.append (h'.dependentsFirst.mono ?_)
    rintro i j ⟨⟨hclosed, ri, hj, hdepends⟩, hgone⟩
    obtain ⟨refCount, hj'⟩ := h.kept j ri hclosed hgone hj
    refine ⟨fun hmem => ?_, _, hj', hdepends⟩
    rw [h.closed] at hmem
    exact (List.mem_append.mp hmem).elim hclosed hgone
  kept i ri hclosed hgone hi := by
    obtain ⟨hgone, hgone'⟩ : i ∉ gone ∧ i ∉ gone' := by simpa using hgone
    obtain ⟨refCount, hi'⟩ := h.kept i ri hclosed hgone hi
    refine h'.kept i { ri with refCount } (fun hmem => ?_) hgone' hi'
    rw [h.closed] at hmem
    exact (List.mem_append.mp hmem).elim hclosed hgone
  repository i hi := h.repository i (h'.repository i hi)

/-- What a release does besides. -/
structure Cascade (s s' : Repository) (own : ℕ → ℕ) (gone : List ℕ) : Prop
    extends Unloads s s' gone where
  filter : s'.repository = s.repository.filter (· ∉ gone)
  zero : ∀ i ∈ gone, own i = 0
  initialized : s'.initialized = s.initialized
  next : s'.next = s.next

lemma filter_not_mem_append (l gone gone' : List ℕ) :
    l.filter (· ∉ gone ++ gone') = (l.filter (· ∉ gone)).filter (· ∉ gone') := by
  rw [List.filter_filter]
  refine List.filter_congr fun i _ => ?_
  simp [Bool.and_comm]

lemma Cascade.trans {gone gone' : List ℕ} (h : Cascade s s' own gone)
    (h' : Cascade s' s'' own gone') : Cascade s s'' own (gone ++ gone') where
  toUnloads := h.toUnloads.trans h'.toUnloads
  filter := by rw [h'.filter, h.filter, filter_not_mem_append]
  zero i hi := (List.mem_append.mp hi).elim (h.zero i) (h'.zero i)
  initialized := h'.initialized.trans h.initialized
  next := h'.next.trans h.next

/-- The number of loaded items. -/
def loadedCount (s : Repository) : ℕ := (s.repository.filter (· ∉ s.closed)).length

lemma Cascade.loadedCount_le {gone : List ℕ} (h : Cascade s s' own gone) :
    s'.loadedCount ≤ s.loadedCount := by
  rw [loadedCount, loadedCount, h.filter, h.closed, List.filter_filter]
  refine List.Sublist.length_le (List.monotone_filter_right _ fun i hi => ?_)
  simp only [List.mem_append, Bool.and_eq_true, decide_eq_true_eq] at hi ⊢
  exact fun hmem => hi.1 (.inl hmem)

/-- What is linked behind a step was linked before. -/
lemma Unloads.depends {own' : ℕ → ℕ} {gone : List ℕ} {pending pending' : Option ℕ}
    (h : Unloads s s' gone) (hbalanced : Balanced s own pending)
    (hbalanced' : Balanced s' own' pending') {i j : ℕ}
    (hij : s'.Depends i j) : s.Depends i j := by
  obtain ⟨hclosed, ri', hi', hj⟩ := hij
  rw [h.closed, List.mem_append, not_or] at hclosed
  have hmem := h.repository i ((hbalanced'.object i).mp (by rw [hi']; rfl))
  obtain ⟨ri, hi⟩ := hbalanced.exists_item hmem
  obtain ⟨refCount, hsame⟩ := h.kept i ri hclosed.1 hclosed.2 hi
  obtain rfl := Option.some.inj (hi'.symm.trans hsame)
  exact ⟨hclosed.1, ri, hi, hj⟩

/-! ### Writes -/

lemma isSome_modify (s : Repository) (i j : ℕ) (f : RepositoryItem → RepositoryItem) :
    ((s.modify i f).object j).isSome = (s.object j).isSome := by
  simp only [modify, Function.update_apply]
  split
  case isTrue hji => rw [hji, Option.isSome_map]
  case isFalse => rfl

lemma object_modify_of_ne {i j : ℕ} (h : j ≠ i) (f : RepositoryItem → RepositoryItem) :
    (s.modify i f).object j = s.object j := Function.update_of_ne h _ _

lemma object_modify_self {i : ℕ} {ri : RepositoryItem} (h : s.object i = some ri)
    (f : RepositoryItem → RepositoryItem) : (s.modify i f).object i = some (f ri) := by
  rw [modify, h, Option.map_some]
  exact Function.update_self ..

lemma object_remove_of_ne {i j : ℕ} (h : j ≠ i) : (s.remove i).object j = s.object j :=
  Function.update_of_ne h _ _

lemma not_mem_closed_dlclose {i j : ℕ} :
    j ∉ (s.dlclose i).closed ↔ j ∉ s.closed ∧ j ≠ i := by simp [dlclose]

lemma links_congr (hrepository : s'.repository = s.repository)
    (hdependencies : s'.dependencies = s.dependencies) (i : ℕ) : s'.links i = s.links i := by
  rw [links_eq, links_eq, hrepository, hdependencies]

/-- A write to a reference count leaves the links. -/
lemma dependencies_refCount (s : Repository) (i : ℕ) (f : RepositoryItem → ℤ) :
    (s.modify i fun ri => { ri with refCount := f ri }).dependencies = s.dependencies := by
  funext j
  rw [dependencies_modify]
  split
  case isTrue hji =>
    rw [hji, dependencies]
    cases s.object i <;> rfl
  case isFalse => rfl

/-- There is one loaded item less. -/
lemma loadedCount_dlclose {i : ℕ} {f : RepositoryItem → RepositoryItem} (h : s.Loaded i) :
    ((s.modify i f).dlclose i).loadedCount < s.loadedCount := by
  have hfilter : s.repository.filter (· ∉ ((s.modify i f).dlclose i).closed) =
      (s.repository.filter (· ∉ s.closed)).filter (· ≠ i) := by
    rw [List.filter_filter]
    refine List.filter_congr fun j _ => ?_
    rw [← Bool.decide_and, decide_eq_decide, not_mem_closed_dlclose]
    exact and_comm
  have hmem : i ∈ s.repository.filter (· ∉ s.closed) :=
    List.mem_filter.mpr ⟨h.1, decide_eq_true h.2⟩
  rw [loadedCount, loadedCount, dlclose, modify]
  exact hfilter ▸ List.length_filter_lt_length_iff_exists.mpr ⟨i, hmem, by simp⟩

/-- A dependency leaves the list of an item that is being unloaded; its reference is left over. -/
lemma Balanced.drop (h : Balanced s own none) {p d : ℕ} {rest : List ℕ} (hp : p ∈ s.closed)
    (hd : s.dependencies p = d :: rest) :
    Balanced (s.modify p fun ri => { ri with dependencies := ri.dependencies.tail }) own (some d) ∧
      (s.modify p fun ri => { ri with dependencies := ri.dependencies.tail }).dependencies p = rest ∧
        s.Loaded d := by
  obtain ⟨ri, hri, -⟩ := mem_dependencies.mp (hd ▸ List.mem_cons_self)
  have hmem := h.mem hri
  have htail : (s.modify p fun ri => { ri with dependencies := ri.dependencies.tail }).dependencies p
      = rest := by
    rw [dependencies, hri, Option.elim_some] at hd
    rw [dependencies_modify, if_pos rfl, hri, Option.map_some, Option.elim_some, hd, List.tail_cons]
  have hlinks (i : ℕ) : s.links i =
      (s.modify p fun ri => { ri with dependencies := ri.dependencies.tail }).links i +
        (if some d = some i then 1 else 0) := by
    have hchange := links_change s
      (s.modify p fun ri => { ri with dependencies := ri.dependencies.tail }) h.nodup hmem rfl
      (fun j hj => by rw [dependencies_modify, if_neg hj]) i
    rw [htail, hd, List.count_cons] at hchange
    simp only [beq_iff_eq, Option.some.injEq] at hchange ⊢
    omega
  refine ⟨⟨h.nodup, fun i => ?_, fun i ri hclosed hi => ?_, fun i hnot => ?_⟩, htail, ?_⟩
  · rw [isSome_modify]
    exact h.object i
  · have hip : i ≠ p := fun hip => hclosed (hip ▸ hp)
    rw [object_modify_of_ne hip] at hi
    obtain ⟨hcount, hbounds⟩ := h.count i ri hclosed hi
    refine ⟨?_, hbounds⟩
    rw [if_neg nofun, hlinks i] at hcount
    push_cast at hcount ⊢
    omega
  · have hzero := h.unlinked i hnot
    rw [hlinks i] at hzero
    exact Nat.eq_zero_of_add_eq_zero_right hzero
  · exact h.loaded_of_mem hmem (hd ▸ List.mem_cons_self)

/-- The end of a destructor. -/
lemma Balanced.remove (h : Balanced s own none) {p : ℕ} (hp : p ∈ s.closed)
    (hd : s.dependencies p = []) : Balanced (s.remove p) own none where
  nodup := h.nodup.filter _
  object i := by
    by_cases hip : i = p
    · subst hip
      simp [Repository.remove]
    · rw [object_remove_of_ne hip, h.object i]
      simp [Repository.remove, hip]
  count i ri hclosed hi := by
    have hip : i ≠ p := fun hip => hclosed (hip ▸ hp)
    rw [object_remove_of_ne hip] at hi
    rw [links_remove hd]
    exact h.count i ri hclosed hi
  unlinked i hnot := by
    rw [links_remove hd]
    refine h.unlinked i fun ⟨hmem, hclosed⟩ => hnot ⟨?_, hclosed⟩
    have hip : i ≠ p := fun hip => hclosed (hip ▸ hp)
    exact List.mem_filter.mpr ⟨hmem, by simpa using hip⟩

/-- A write to an item that is being unloaded. -/
lemma Cascade.of_modify {p : ℕ} {f : RepositoryItem → RepositoryItem} {gone : List ℕ}
    (hp : p ∈ s.closed) (h : Cascade (s.modify p f) s' own gone) : Cascade s s' own gone where
  closed := h.closed
  nodup := h.nodup
  loaded := h.loaded
  dependentsFirst := by
    refine h.dependentsFirst.mono ?_
    rintro i j ⟨hclosed, hj⟩
    have hjp : j ≠ p := fun hjp => hclosed (hjp ▸ hp)
    exact ⟨hclosed, by rwa [object_modify_of_ne hjp]⟩
  kept i ri hclosed hgone hi := by
    have hip : i ≠ p := fun hip => hclosed (hip ▸ hp)
    exact h.kept i ri hclosed hgone (by rwa [object_modify_of_ne hip])
  repository := h.repository
  filter := h.filter
  zero := h.zero
  initialized := h.initialized
  next := h.next

/-! ### The function -/

/-- What `objRelease` is to do. -/
def Releases (s s' : Repository) (own : ℕ → ℕ) (gone : List ℕ) (i : ℕ) : Prop :=
  Balanced s' own none ∧ Cascade s s' own gone ∧ (∀ j ∈ s.closed, s'.object j = s.object j) ∧
    ∀ j ∈ gone, Relation.ReflTransGen s.Depends i j

/-- The dependencies of an item, one after the other. -/
lemma foldlM_dependencies {fuel p : ℕ}
    (ih : ∀ s i, Balanced s own (some i) → s.Loaded i → s.loadedCount < fuel →
      ∃ s' gone, objRelease fuel s i = .ok s' ∧ Releases s s' own gone i) (ds : List ℕ)
    (h : Balanced s own none) (hp : p ∈ s.repository) (hclosed : p ∈ s.closed)
    (hds : s.dependencies p = ds) (hfuel : s.loadedCount < fuel) :
    ∃ s' gone, ds.foldlM (fun s d => objRelease fuel
        (s.modify p fun ri => { ri with dependencies := ri.dependencies.tail }) d) s = .ok s' ∧
      Balanced s' own none ∧ Cascade s s' own gone ∧
        (∀ j ∈ s.closed, j ≠ p → s'.object j = s.object j) ∧ s'.dependencies p = [] ∧
          ∀ j ∈ gone, ∃ d ∈ ds, Relation.ReflTransGen s.Depends d j := by
  induction ds generalizing s with
  | nil =>
      exact ⟨s, [], rfl, h, ⟨.refl s, by simp, nofun, rfl, rfl⟩, fun _ _ _ => rfl, hds, nofun⟩
  | cons d ds ihds =>
      obtain ⟨hdrop, hrest, hloaded⟩ := h.drop hclosed hds
      obtain ⟨s₂, gone, hrun, hbalanced, hcascade₁, hbusy, hreach⟩ := ih _ d hdrop hloaded hfuel
      have hcascade := hcascade₁.of_modify hclosed
      have hnot : p ∉ gone := fun hmem => (hcascade.loaded p hmem).2 hclosed
      have hp₂ : p ∈ s₂.repository := by
        rw [hcascade.filter]
        exact List.mem_filter.mpr ⟨hp, decide_eq_true hnot⟩
      have hclosed₂ {j : ℕ} (hj : j ∈ s.closed) : j ∈ s₂.closed := by
        rw [hcascade.closed]
        exact List.mem_append_left _ hj
      have hds₂ : s₂.dependencies p = ds := by
        rw [dependencies, hbusy p hclosed]
        exact hrest
      obtain ⟨s', gone', hrun', hbalanced', hcascade', hbusy', hempty, hreach'⟩ :=
        ihds hbalanced hp₂ (hclosed₂ hclosed) hds₂ (hcascade.loadedCount_le.trans_lt hfuel)
      refine ⟨s', gone ++ gone', ?_, hbalanced', hcascade.trans hcascade', fun j hj hjp => ?_, hempty,
        fun j hj => ?_⟩
      · rw [List.foldlM_cons, hrun]
        exact hrun'
      · rw [hbusy' j (hclosed₂ hj) hjp, hbusy j hj, object_modify_of_ne hjp]
      · rcases List.mem_append.mp hj with hj | hj
        · refine ⟨d, List.mem_cons_self, Relation.ReflTransGen.mono ?_ _ _ (hreach j hj)⟩
          rintro a b ⟨ha, hb⟩
          have hap : a ≠ p := fun hap => ha (hap ▸ hclosed)
          exact ⟨ha, by rwa [object_modify_of_ne hap] at hb⟩
        · obtain ⟨d', hd', hpath⟩ := hreach' j hj
          exact ⟨d', List.mem_cons_of_mem _ hd',
            Relation.ReflTransGen.mono (fun _ _ => hcascade.depends h hbalanced) _ _ hpath⟩

/-- An item without references is being unloaded. -/
lemma Balanced.unload {i : ℕ} (h : Balanced s own (some i)) (hzero : s.links i = 0) :
    Balanced ((s.modify i fun ri => { ri with refCount := 0 }).dlclose i) own none := by
  have hlinks (j : ℕ) : ((s.modify i fun ri => { ri with refCount := 0 }).dlclose i).links j =
      s.links j := links_congr (by rfl) (dependencies_refCount s i fun _ => 0) j
  refine ⟨h.nodup, fun j => ?_, fun j ri hclosed hj => ?_, fun j hnot => ?_⟩
  · have hsome := isSome_modify s i j fun ri => { ri with refCount := 0 }
    exact Iff.trans (by rw [← hsome]; rfl) (h.object j)
  · obtain ⟨hclosed, hji⟩ := not_mem_closed_dlclose.mp hclosed
    obtain ⟨hcount, hbounds⟩ := h.count j ri hclosed ((object_modify_of_ne hji _).symm.trans hj)
    rw [hlinks j]
    refine ⟨?_, hbounds⟩
    rwa [if_neg fun hij => hji (Option.some.inj hij).symm] at hcount
  · rw [hlinks j]
    by_cases hji : j = i
    · rwa [hji]
    · exact h.unlinked j fun ⟨hmem, hclosed⟩ =>
        hnot ⟨hmem, not_mem_closed_dlclose.mpr ⟨hclosed, hji⟩⟩

/-- A reference that is not the last one. -/
lemma Balanced.decrement {i : ℕ} {ri : RepositoryItem} (h : Balanced s own (some i))
    (hi : s.object i = some ri) (hne : ri.refCount - 1 ≠ 0) :
    Balanced (s.modify i fun ri' => { ri' with refCount := ri.refCount - 1 }) own none := by
  have hlinks (j : ℕ) : (s.modify i fun ri' => { ri' with refCount := ri.refCount - 1 }).links j =
      s.links j := links_congr (by rfl) (dependencies_refCount s i fun _ => ri.refCount - 1) j
  refine ⟨h.nodup, fun j => ?_, fun j ri' hclosed hj => ?_, fun j hnot => ?_⟩
  · rw [isSome_modify]
    exact h.object j
  · rw [hlinks j]
    by_cases hji : j = i
    · subst hji
      rw [object_modify_self hi] at hj
      obtain rfl := Option.some.inj hj
      obtain ⟨hcount, hpos, hmax⟩ := h.count j ri hclosed hi
      rw [if_pos rfl] at hcount
      simp only [reduceCtorEq, if_false]
      omega
    · rw [object_modify_of_ne hji] at hj
      obtain ⟨hcount, hbounds⟩ := h.count j ri' hclosed hj
      refine ⟨?_, hbounds⟩
      rwa [if_neg fun hij => hji (Option.some.inj hij).symm] at hcount
  · rw [hlinks j]
    exact h.unlinked j hnot

lemma Cascade.modify_refCount {i : ℕ} (refCount : ℤ) :
    Cascade s (s.modify i fun ri => { ri with refCount }) own [] where
  closed := (List.append_nil _).symm
  nodup := List.nodup_nil
  loaded := nofun
  dependentsFirst := dependenciesFirst_nil
  kept j ri _ _ hj := by
    by_cases hji : j = i
    · subst hji
      exact ⟨refCount, object_modify_self hj _⟩
    · exact ⟨ri.refCount, by rwa [object_modify_of_ne hji]⟩
  repository _ := id
  filter := by simp [modify]
  zero := nofun
  initialized := rfl
  next := rfl

/-- An item, and what goes with it. -/
lemma Cascade.cons {i : ℕ} {refCount : ℤ} {gone : List ℕ} (hloaded : s.Loaded i)
    (hnone : ∀ j, ¬ s.Depends j i) (hzero : own i = 0)
    (h : Cascade ((s.modify i fun ri => { ri with refCount }).dlclose i) s' own gone) :
    Cascade s (s'.remove i) own (i :: gone) := by
  have hnot : i ∉ gone := fun hmem =>
    (h.loaded i hmem).2 (List.mem_append_right _ (List.mem_singleton_self i))
  constructor
  case toUnloads =>
    constructor
    case closed => exact h.closed.trans (List.append_cons .. ▸ rfl)
    case nodup => exact List.nodup_cons.mpr ⟨hnot, h.nodup⟩
    case loaded =>
      refine List.forall_mem_cons.mpr ⟨hloaded, fun j hj => ?_⟩
      obtain ⟨hmem, hclosed⟩ := h.loaded j hj
      exact ⟨hmem, fun hj => hclosed (List.mem_append_left _ hj)⟩
    case dependentsFirst =>
      have hfirst : DependenciesFirst (fun i j => s.Depends j i) [i] :=
        dependenciesFirst_nil.concat fun j hj => absurd hj (hnone j)
      refine hfirst.append (h.dependentsFirst.mono ?_)
      rintro j k ⟨⟨hk, hobject⟩, hki⟩
      have hki : k ≠ i := fun heq => hki (List.mem_singleton.mpr heq)
      exact ⟨not_mem_closed_dlclose.mpr ⟨hk, hki⟩, (object_modify_of_ne hki _).symm ▸ hobject⟩
    case kept =>
      intro j ri hj hgone hobject
      obtain ⟨hji, hgone⟩ : j ≠ i ∧ j ∉ gone := by simpa using hgone
      rw [object_remove_of_ne hji]
      exact h.kept j ri (not_mem_closed_dlclose.mpr ⟨hj, hji⟩) hgone
        ((object_modify_of_ne hji _).trans hobject)
    case repository =>
      intro j hj
      exact h.repository j (List.mem_filter.mp hj).1
  case filter =>
    rw [remove, h.filter]
    dsimp only
    rw [List.filter_filter]
    refine List.filter_congr fun j _ => ?_
    simp
  case zero => exact List.forall_mem_cons.mpr ⟨hzero, h.zero⟩
  case initialized => exact h.initialized
  case next => exact h.next

/-- **What `OBJ_RELEASE` does.** -/
theorem objRelease_spec (fuel : ℕ) (s : Repository) (i : ℕ) (h : Balanced s own (some i))
    (hloaded : s.Loaded i) (hfuel : s.loadedCount < fuel) :
    ∃ s' gone, objRelease fuel s i = .ok s' ∧ Releases s s' own gone i := by
  induction fuel generalizing s i with
  | zero => exact absurd hfuel (Nat.not_lt_zero _)
  | succ fuel ih =>
      obtain ⟨ri, hri⟩ := h.exists_item hloaded.1
      obtain ⟨hcount, hpos, hmax⟩ := h.count i ri hloaded.2 hri
      rw [if_pos rfl] at hcount
      have hwrap : CInt.wrap (ri.refCount - 1) = ri.refCount - 1 := CInt.wrap_eq (by omega) (by omega)
      have hne {j : ℕ} (hj : j ∈ s.closed) : j ≠ i := fun hji => hloaded.2 (hji ▸ hj)
      rw [objRelease, hri]
      dsimp only
      rw [hwrap]
      by_cases hlast : ri.refCount - 1 = 0
      · rw [hlast, if_pos rfl]
        have hlinks : s.links i = 0 := by omega
        have hown : own i = 0 := by omega
        have hnone (j : ℕ) : ¬ s.Depends j i := by
          rintro ⟨-, rj, hj, hmem⟩
          rw [links_eq, List.count_eq_zero] at hlinks
          exact hlinks (List.mem_flatMap.mpr ⟨j, (h.object j).mp (by rw [hj]; rfl),
            mem_dependencies.mpr ⟨rj, hj, hmem⟩⟩)
        have hfewer : ((s.modify i fun ri => { ri with refCount := 0 }).dlclose i).loadedCount
            < fuel := (loadedCount_dlclose hloaded).trans_le (Nat.lt_succ_iff.mp hfuel)
        obtain ⟨s₁, gone, hrun, hbalanced, hcascade, hbusy, hempty, hreach⟩ :=
          foldlM_dependencies ih ri.dependencies (h.unload hlinks) hloaded.1
            (List.mem_append_right _ (List.mem_singleton_self i)) (by
              rw [dependencies]
              exact congrArg (Option.elim · [] RepositoryItem.dependencies)
                (object_modify_self hri _)) hfewer
        have hmem : i ∈ s₁.closed := by
          rw [hcascade.closed]
          exact List.mem_append_left _ (List.mem_append_right _ (List.mem_singleton_self i))
        refine ⟨s₁.remove i, i :: gone, ?_, hbalanced.remove hmem hempty,
          hcascade.cons hloaded hnone hown, fun j hj => ?_, ?_⟩
        · simp only [hrun, bind, Except.bind]
        · rw [object_remove_of_ne (hne hj), hbusy j (List.mem_append_left _ hj) (hne hj)]
          exact object_modify_of_ne (hne hj) _
        · refine List.forall_mem_cons.mpr ⟨.refl, fun j hj => ?_⟩
          obtain ⟨d, hd, hpath⟩ := hreach j hj
          refine Relation.ReflTransGen.head ⟨hloaded.2, ri, hri, hd⟩
            (Relation.ReflTransGen.mono ?_ _ _ hpath)
          rintro a b ⟨ha, hb⟩
          obtain ⟨ha, hai⟩ := not_mem_closed_dlclose.mp ha
          exact ⟨ha, (object_modify_of_ne hai _) ▸ hb⟩
      · rw [if_neg hlast]
        exact ⟨_, [], rfl, h.decrement hri hlast, .modify_refCount _,
          fun j hj => object_modify_of_ne (hne hj) _, nofun⟩

end Ocoms.Repository
