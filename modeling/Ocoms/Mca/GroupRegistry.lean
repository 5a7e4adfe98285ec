import Ocoms.Mca.GroupDeregister

/-!
The registry of variable groups over runs: `mca_base_var_group.c`.

* `GroupInv` relates the table, the hash table from names to indices and the lists of subgroups. A
  group that is registered is the one that the hash table has for its name.
* `GroupInv.create` and `GroupInv.swept` are its steps: a new group, with its parent, and groups that
  are deregistered.
* `GroupsStable` is what callers rely on. `groups_stable` proves it for every run in which no project
  is registered by itself, and no framework and component with empty names.
-/

namespace Ocoms

/-- The full name of a group. -/
def groupName (framework component : Option CString) : CString :=
  generateFullName4 none framework component none

lemma groupName_framework (f : CString) : groupName (some f) none = f := rfl

lemma generateFullName4_none_none (framework component : Option CString) :
    generateFullName4 none none framework component = groupName framework component := rfl

/-- A component has another name than its framework, unless both are empty. -/
lemma groupName_ne_framework {f c : CString} (h : ¬ (f = [] ∧ c = [])) :
    groupName (some f) (some c) ≠ f := by
  intro hname
  have hlen := congrArg List.length hname
  by_cases hf : f = []
  · subst hf
    simp only [groupName, generateFullName4, List.foldl_cons, List.foldl_nil, addName, if_true] at hlen
    exact h ⟨rfl, List.length_eq_zero_iff.mp hlen⟩
  · simp [groupName, generateFullName4, addName, hf] at hlen

namespace PointerArray

variable {α : Type*}

/-- Whether there is room for a pointer does not depend on it. -/
lemma add_eq_none {t : PointerArray α} {x : α} (h : t.add x = none) (y : α) : t.add y = none := by
  have hplace (t : PointerArray α) (h : t.place x = none) : t.place y = none := by
    rw [place] at h ⊢
    split at h
    · cases h
    · rename_i hfull
      rw [if_neg hfull]
  rw [add] at h ⊢
  split at h
  · rename_i hfree
    rw [if_pos hfree]
    cases hgrow : t.growTable (if t.size = 0 then 1 else t.size * tableGrow) fortranHandleMax with
    | none => rfl
    | some t' =>
        rw [hgrow] at h
        exact hplace t' h
  · rename_i hfree
    rw [if_neg hfree]
    exact hplace t h

end PointerArray

/-! ### The invariant -/

/-- What holds between the calls. -/
structure GroupInv (s : VarGroups) (n : ℕ) : Prop where
  initialized : s.varInitialized = true
  holds : ∃ xs free, s.groups.Holds xs free ∧ xs.length = n
  subgroups : ∀ i g, s.groups.getItem i = some g → ∀ j ∈ g.subgroups, i < j ∧ j < n
  hash : ∀ i g, s.groups.getItem i = some g → g.isValid = true →
    s.indexHash g.fullName = some i
  named : ∀ name i, s.indexHash name = some i →
    ∃ g, s.groups.getItem i = some g ∧ g.fullName = name
  name : ∀ i g, s.groups.getItem i = some g → g.isValid = true →
    g.fullName = groupName g.framework g.component
  parent : ∀ i g f c, s.groups.getItem i = some g → g.isValid = true →
    g.framework = some f → g.component = some c → ∃ p parent, s.groups.getItem p = some parent ∧
      parent.isValid = true ∧ parent.fullName = f ∧ parent.subgroups.count i = 1

section Steps

variable {s s' : VarGroups} {n : ℕ}

/-- A group of the table is one of its first `n`. -/
lemma GroupInv.lt (h : GroupInv s n) {i : ℕ} {g : VarGroup} (hg : s.groups.getItem i = some g) :
    i < n := by
  obtain ⟨xs, free, hxs, rfl⟩ := h.holds
  rw [hxs.getItem] at hg
  exact (List.getElem?_eq_some_iff.mp hg).1

/-- Groups that are alike for the registry. -/
structure AlikeGroup (g g' : VarGroup) : Prop where
  isValid : g'.isValid = g.isValid
  fullName : g'.fullName = g.fullName
  framework : g'.framework = g.framework
  component : g'.component = g.component
  subgroups : g'.subgroups = g.subgroups

/-- A write to a group that does not concern the registry. -/
lemma GroupInv.modifyItem (h : GroupInv s n) (hinitialized : s'.varInitialized = s.varInitialized)
    (hhash : s'.indexHash = s.indexHash) {i : ℕ} {f : VarGroup → VarGroup}
    (hgroups : s'.groups = s.groups.modifyItem i f)
    (hf : ∀ g, s.groups.getItem i = some g → AlikeGroup g (f g)) : GroupInv s' n := by
  have hback {k : ℕ} {g' : VarGroup} (hg' : s'.groups.getItem k = some g') :
      ∃ g, s.groups.getItem k = some g ∧ AlikeGroup g g' := by
    rw [hgroups, PointerArray.getItem_modifyItem] at hg'
    split at hg'
    · rename_i hik
      subst hik
      obtain ⟨g, hg, rfl⟩ := Option.map_eq_some_iff.mp hg'
      exact ⟨g, hg, hf g hg⟩
    · exact ⟨g', hg', rfl, rfl, rfl, rfl, rfl⟩
  have hforth {k : ℕ} {g : VarGroup} (hg : s.groups.getItem k = some g) :
      ∃ g', s'.groups.getItem k = some g' ∧ AlikeGroup g g' := by
    rw [hgroups, PointerArray.getItem_modifyItem]
    split
    · rename_i hik
      subst hik
      exact ⟨f g, by rw [hg, Option.map_some], hf g hg⟩
    · exact ⟨g, hg, rfl, rfl, rfl, rfl, rfl⟩
  constructor
  case initialized => rw [hinitialized, h.initialized]
  case holds =>
    obtain ⟨xs, free, hxs, hlen⟩ := h.holds
    exact ⟨xs.modify i f, free, hgroups ▸ hxs.modifyItem i f, by rw [List.length_modify, hlen]⟩
  case subgroups =>
    intro k g' hg' j hj
    obtain ⟨g, hg, halike⟩ := hback hg'
    exact h.subgroups k g hg j (halike.subgroups ▸ hj)
  case hash =>
    intro k g' hg' hvalid
    obtain ⟨g, hg, halike⟩ := hback hg'
    rw [hhash, halike.fullName]
    exact h.hash k g hg (halike.isValid ▸ hvalid)
  case named =>
    intro name k hname
    obtain ⟨g, hg, hgname⟩ := h.named name k (hhash ▸ hname)
    obtain ⟨g', hg', halike⟩ := hforth hg
    exact ⟨g', hg', halike.fullName.trans hgname⟩
  case name =>
    intro k g' hg' hvalid
    obtain ⟨g, hg, halike⟩ := hback hg'
    rw [halike.fullName, halike.framework, halike.component]
    exact h.name k g hg (halike.isValid ▸ hvalid)
  case parent =>
    intro k g' f c hg' hvalid hf hc
    obtain ⟨g, hg, halike⟩ := hback hg'
    obtain ⟨p, parent, hp, hpvalid, hpname, hcount⟩ := h.parent k g f c hg
      (halike.isValid ▸ hvalid) (halike.framework ▸ hf) (halike.component ▸ hc)
    obtain ⟨parent', hp', hparent⟩ := hforth hp
    exact ⟨p, parent', hp', hparent.isValid.trans hpvalid, hparent.fullName.trans hpname,
      hparent.subgroups ▸ hcount⟩

/-- The writes to the parent, if there is one, of the new group `n`. -/
def listIn (parentId : Option ℕ) (n k : ℕ) (g : VarGroup) : VarGroup :=
  if parentId = some k then { g with subgroups := g.subgroups ++ [n] } else g

lemma listIn_of_ne {parentId : Option ℕ} {k : ℕ} (h : parentId ≠ some k) :
    listIn parentId n k = id := by
  funext g
  rw [listIn, if_neg h, id]

/-- **A new group.** No group that is registered has its name, and if it is one of a component, its
parent is registered. -/
lemma GroupInv.create (h : GroupInv s n) {new : VarGroup} {parentId : Option ℕ}
    (hinitialized : s'.varInitialized = s.varInitialized)
    (hhash : s'.indexHash = Function.update s.indexHash new.fullName (some n))
    (hholds : ∃ xs free, s'.groups.Holds xs free ∧ xs.length = n + 1)
    (hnew : s'.groups.getItem n = some new)
    (hold : ∀ k ≠ n, s'.groups.getItem k = (s.groups.getItem k).map (listIn parentId n k))
    (hsubgroups : new.subgroups = [])
    (hname : new.fullName = groupName new.framework new.component)
    (hfresh : ∀ k g, s.groups.getItem k = some g → g.isValid = true → g.fullName ≠ new.fullName)
    (hparent : ∀ f c, new.framework = some f → new.component = some c →
      ∃ p parent, parentId = some p ∧ s.groups.getItem p = some parent ∧
        parent.isValid = true ∧ parent.fullName = f) : GroupInv s' (n + 1) := by
  have hback {k : ℕ} {g' : VarGroup} (hk : k ≠ n) (hg' : s'.groups.getItem k = some g') :
      ∃ g, s.groups.getItem k = some g ∧ g' = listIn parentId n k g := by
    rw [hold k hk] at hg'
    obtain ⟨g, hg, rfl⟩ := Option.map_eq_some_iff.mp hg'
    exact ⟨g, hg, rfl⟩
  have hforth {k : ℕ} {g : VarGroup} (hg : s.groups.getItem k = some g) :
      s'.groups.getItem k = some (listIn parentId n k g) := by
    rw [hold k (Nat.ne_of_lt (h.lt hg)), hg, Option.map_some]
  have hsame (k : ℕ) (g : VarGroup) : (listIn parentId n k g).isValid = g.isValid ∧
      (listIn parentId n k g).fullName = g.fullName ∧
        (listIn parentId n k g).framework = g.framework ∧
          (listIn parentId n k g).component = g.component := by
    rw [listIn]
    split <;> exact ⟨rfl, rfl, rfl, rfl⟩
  have hcount {k i : ℕ} {g : VarGroup} (hin : i ≠ n) :
      (listIn parentId n k g).subgroups.count i = g.subgroups.count i := by
    rw [listIn]
    split
    · simp [hin.symm]
    · rfl
  constructor
  case initialized => rw [hinitialized, h.initialized]
  case holds => exact hholds
  case subgroups =>
    intro k g' hg' j hj
    by_cases hk : k = n
    · subst hk
      obtain rfl := Option.some.inj (hnew.symm.trans hg')
      rw [hsubgroups] at hj
      cases hj
    · obtain ⟨g, hg, rfl⟩ := hback hk hg'
      have hkn := h.lt hg
      rw [listIn] at hj
      split at hj
      · rcases List.mem_append.mp hj with hj | hj
        · have := h.subgroups k g hg j hj
          omega
        · rw [List.mem_singleton.mp hj]
          omega
      · have := h.subgroups k g hg j hj
        omega
  case hash =>
    intro k g' hg' hvalid'
    rw [hhash]
    by_cases hk : k = n
    · subst hk
      obtain rfl := Option.some.inj (hnew.symm.trans hg')
      exact Function.update_self _ _ _
    · obtain ⟨g, hg, rfl⟩ := hback hk hg'
      obtain ⟨hgvalid, hgname, -⟩ := hsame k g
      rw [hgname, Function.update_of_ne (hfresh k g hg (hgvalid ▸ hvalid'))]
      exact h.hash k g hg (hgvalid ▸ hvalid')
  case named =>
    intro name k hk
    rw [hhash] at hk
    by_cases hname' : name = new.fullName
    · subst hname'
      rw [Function.update_self] at hk
      obtain rfl := Option.some.inj hk
      exact ⟨new, hnew, rfl⟩
    · rw [Function.update_of_ne hname'] at hk
      obtain ⟨g, hg, hgname⟩ := h.named name k hk
      exact ⟨_, hforth hg, (hsame k g).2.1.trans hgname⟩
  case name =>
    intro k g' hg' hvalid'
    by_cases hk : k = n
    · subst hk
      obtain rfl := Option.some.inj (hnew.symm.trans hg')
      exact hname
    · obtain ⟨g, hg, rfl⟩ := hback hk hg'
      obtain ⟨hgvalid, hgname, hgframework, hgcomponent⟩ := hsame k g
      rw [hgname, hgframework, hgcomponent]
      exact h.name k g hg (hgvalid ▸ hvalid')
  case parent =>
    intro k g' f c hg' hvalid' hf hc
    by_cases hk : k = n
    · subst hk
      obtain rfl := Option.some.inj (hnew.symm.trans hg')
      obtain ⟨p, parent, rfl, hp, hpvalid, hpname⟩ := hparent f c hf hc
      refine ⟨p, _, hforth hp, (hsame p parent).1.trans hpvalid,
        (hsame p parent).2.1.trans hpname, ?_⟩
      -- The new index is greater than all that are in the list.
      have hnot : k ∉ parent.subgroups := fun hmem =>
        lt_irrefl k (h.subgroups p parent hp k hmem).2
      rw [listIn, if_pos rfl]
      simp [List.count_eq_zero_of_not_mem hnot]
    · obtain ⟨g, hg, rfl⟩ := hback hk hg'
      obtain ⟨hgvalid, -, hgframework, hgcomponent⟩ := hsame k g
      obtain ⟨p, parent, hp, hpvalid, hpname, hone⟩ := h.parent k g f c hg (hgvalid ▸ hvalid')
        (hgframework ▸ hf) (hgcomponent ▸ hc)
      exact ⟨p, _, hforth hp, (hsame p parent).1.trans hpvalid,
        (hsame p parent).2.1.trans hpname, (hcount hk).trans hone⟩

/-! ### Finding and registering -/

/-- A group that is registered under a name. -/
def HasName (s : VarGroups) (name : CString) (i : ℕ) : Prop :=
  ∃ g, s.groups.getItem i = some g ∧ g.isValid = true ∧ g.fullName = name

/-- `group_find` finds the group that is registered under the name. -/
lemma GroupInv.groupFind_iff (h : GroupInv s n) (framework component : Option CString)
    (invalidok : Bool) (i : ℕ) : s.groupFind framework component invalidok = .ok i ↔
      HasName s (groupName framework component) i := by
  rw [VarGroups.groupFind, h.initialized, ← groupName, VarGroups.groupFindByName]
  simp only [Bool.not_true, Bool.false_eq_true, if_false]
  constructor
  · intro hfind
    cases hhash : s.indexHash (groupName framework component) with
    | none =>
        rw [hhash] at hfind
        cases hfind
    | some k =>
        obtain ⟨g, hg, hgname⟩ := h.named _ k hhash
        rw [hhash] at hfind
        simp only [VarGroups.getInternal, hg] at hfind
        cases hvalid : g.isValid with
        | false =>
            rw [hvalid] at hfind
            cases hfind
        | true =>
            simp only [hvalid, Bool.not_true, Bool.and_false, Bool.false_eq_true, if_false,
              Bool.or_true, if_true, bind, Except.bind] at hfind
            obtain rfl := Except.ok.inj hfind
            exact ⟨g, hg, hvalid, hgname⟩
  · rintro ⟨g, hg, hvalid, hgname⟩
    rw [← hgname, h.hash i g hg hvalid]
    simp [VarGroups.getInternal, hg, hvalid, bind, Except.bind]

/-- A name is the one of at most one group. -/
lemma GroupInv.unique (h : GroupInv s n) {name : CString} {i j : ℕ} (hi : HasName s name i)
    (hj : HasName s name j) : i = j := by
  obtain ⟨g, hg, hvalid, rfl⟩ := hi
  obtain ⟨g', hg', hvalid', hname⟩ := hj
  have hhash := h.hash j g' hg' hvalid'
  rw [hname, h.hash i g hg hvalid] at hhash
  exact Option.some.inj hhash

/-- A group that is found is only marked once more. -/
lemma GroupInv.register_found (h : GroupInv s n) {i : ℕ} {name : CString}
    (hname : HasName s name i) :
    GroupInv { s with
      groups := s.groups.modifyItem i fun g => { g with isValid := true }
      timestamp := s.timestamp + 1 } n := by
  refine h.modifyItem rfl rfl rfl fun g hg => ?_
  obtain ⟨g', hg', hvalid, -⟩ := hname
  obtain rfl := Option.some.inj (hg'.symm.trans hg)
  exact ⟨hvalid.symm, rfl, rfl, rfl, rfl⟩

/-- The group that a call creates. -/
def newGroup (framework component description : Option CString) : VarGroup where
  isValid := true
  fullName := groupName framework component
  project := none
  framework := framework
  component := component
  description := description
  subgroups := []
  vars := []
  pvars := []

/-- The last part of `group_register`: the group is stored, and listed in its parent. -/
def addGroup (s : VarGroups) (new : VarGroup) (parentId : Except Rc ℕ) :
    Except Rc ℕ × VarGroups :=
  match s.groups.add new with
  | none => (.error .error, s)
  | some (groupId, groups) =>
      let s := { s with
        groups := groups
        indexHash := Function.update s.indexHash new.fullName (some groupId)
        count := s.count + 1
        timestamp := s.timestamp + 1 }
      match parentId with
      | .error _ => (.ok groupId, s)
      | .ok parentId => (.ok groupId,
          { s with
            groups := s.groups.modifyItem parentId fun g =>
              { g with subgroups := g.subgroups ++ [groupId] } })

/-- `group_register` for a framework or a component. -/
lemma groupRegisterWith_eq (parent : VarGroups → Except Rc ℕ × VarGroups) (s : VarGroups)
    (project : Option CString) {framework component : Option CString}
    (description : Option CString) (h : framework.isSome || component.isSome) :
    s.groupRegisterWith parent project framework component description =
      match s.groupFind framework component true with
      | .ok groupId => (.ok groupId, { s with
          groups := s.groups.modifyItem groupId fun g => { g with isValid := true }
          timestamp := s.timestamp + 1 })
      | .error _ =>
          let r := if framework.isSome && component.isSome then parent s else (.error .error, s)
          addGroup r.2 (newGroup framework component description) r.1 := by
  have hnone : ¬ (project = none ∧ framework = none ∧ component = none) := by
    rintro ⟨-, rfl, rfl⟩
    cases h
  rw [VarGroups.groupRegisterWith, if_neg hnone]
  simp only [h, if_true]
  cases s.groupFind framework component true with
  | ok groupId => rfl
  | error rc =>
      simp only [Option.isSome_none, Bool.false_eq_true, false_and, if_false,
        generateFullName4_none_none]
      rfl

/-- What a registration leaves: the groups that are registered stay so, and only groups with one of
some names come in addition. -/
structure Grown (s s' : VarGroups) (names : List CString) : Prop where
  kept : ∀ name k, HasName s name k → HasName s' name k
  only : ∀ name k, HasName s' name k → HasName s name k ∨ name ∈ names

/-- A new group is stored, or the table is full. -/
lemma GroupInv.add_new (h : GroupInv s n) {framework component : Option CString}
    (description : Option CString) (parentId : Except Rc ℕ) (hfresh : ∀ k, ¬ HasName s (groupName framework component) k)
    (hparentId : ∀ p, parentId = .ok p → ∃ name, HasName s name p)
    (hparent : ∀ f c, framework = some f → component = some c →
      ∃ p, parentId = .ok p ∧ HasName s f p) :
    (addGroup s (newGroup framework component description) parentId = (.error .error, s) ∧
        ∀ x, s.groups.add x = none) ∨
      ∃ s', addGroup s (newGroup framework component description) parentId = (.ok n, s') ∧
        GroupInv s' (n + 1) ∧ HasName s' (groupName framework component) n ∧
          Grown s s' [groupName framework component] := by
  set new := newGroup framework component description with hnewDef
  obtain ⟨xs, free, hxs, hlen⟩ := h.holds
  rcases hxs.add new with hnone | ⟨t, free', hadd, ht⟩
  · refine .inl ⟨?_, fun x => PointerArray.add_eq_none hnone x⟩
    rw [addGroup, hnone]
  · rw [hlen] at hadd
    right
    have hitem (k : ℕ) : t.getItem k = if k = n then some new else s.groups.getItem k := by
      rw [ht.getItem, hxs.getItem, ← hlen]
      split
      · rename_i hk
        rw [hk, List.getElem?_concat_length]
      · rename_i hk
        rcases Nat.lt_or_ge k xs.length with hlt | hge
        · rw [List.getElem?_append_left hlt]
        · rw [List.getElem?_eq_none (by rw [List.length_append, List.length_singleton]; omega),
            List.getElem?_eq_none hge]
    obtain ⟨s', hs', hinitialized, hhash, hholds, hnewItem, hold⟩ : ∃ s',
        addGroup s new parentId = (.ok n, s') ∧ s'.varInitialized = s.varInitialized ∧
          s'.indexHash = Function.update s.indexHash new.fullName (some n) ∧
            (∃ xs free, s'.groups.Holds xs free ∧ xs.length = n + 1) ∧
              s'.groups.getItem n = some new ∧ ∀ k ≠ n, s'.groups.getItem k =
                (s.groups.getItem k).map (listIn parentId.toOption n k) := by
      rw [addGroup, hadd]
      cases parentId with
      | error rc =>
          refine ⟨_, rfl, rfl, rfl, ⟨_, _, ht, by rw [List.length_append, hlen]; rfl⟩, ?_,
            fun k hk => ?_⟩
          · rw [hitem, if_pos rfl]
          · rw [hitem, if_neg hk]
            have hlist : listIn (Except.error rc : Except Rc ℕ).toOption n k = id :=
              listIn_of_ne fun heq => by cases heq
            rw [hlist, Option.map_id, id]
      | ok p =>
          obtain ⟨_, g, hg, -⟩ := hparentId p rfl
          have hpn := Nat.ne_of_lt (h.lt hg)
          refine ⟨_, rfl, rfl, rfl, ⟨_, _, ht.modifyItem _ _, by
            rw [List.length_modify, List.length_append, hlen]; rfl⟩, ?_, fun k hk => ?_⟩
          · rw [PointerArray.getItem_modifyItem_of_ne _ hpn, hitem, if_pos rfl]
          · rw [PointerArray.getItem_modifyItem, hitem, if_neg hk]
            by_cases hpk : p = k
            · subst hpk
              rw [if_pos rfl]
              congr 1
              funext g
              rw [listIn, Except.toOption, if_pos rfl]
            · rw [if_neg hpk]
              have hlist : listIn (Except.ok p : Except Rc ℕ).toOption n k = id :=
                listIn_of_ne fun heq => hpk (Option.some.inj heq)
              rw [hlist, Option.map_id, id]
    have hsame (k : ℕ) (g : VarGroup) :
        (listIn parentId.toOption n k g).isValid = g.isValid ∧
          (listIn parentId.toOption n k g).fullName = g.fullName := by
      rw [listIn]
      split <;> exact ⟨rfl, rfl⟩
    refine ⟨s', hs', ?_, ⟨new, hnewItem, rfl, rfl⟩, ?_, ?_⟩
    · refine h.create hinitialized hhash hholds hnewItem hold rfl rfl ?_ ?_
      · exact fun k g hg hvalid hname => hfresh k ⟨g, hg, hvalid, hname⟩
      · intro f c hf hc
        obtain ⟨p, rfl, parent, hp, hpvalid, hpname⟩ := hparent f c hf hc
        exact ⟨p, parent, rfl, hp, hpvalid, hpname⟩
    · rintro name k ⟨g, hg, hvalid, hname⟩
      refine ⟨_, by rw [hold k (Nat.ne_of_lt (h.lt hg)), hg, Option.map_some], ?_, ?_⟩
      · exact (hsame k g).1.trans hvalid
      · exact (hsame k g).2.trans hname
    · rintro name k ⟨g', hg', hvalid, hname⟩
      by_cases hk : k = n
      · subst hk
        obtain rfl := Option.some.inj (hnewItem.symm.trans hg')
        exact .inr (List.mem_singleton.mpr hname.symm)
      · rw [hold k hk] at hg'
        obtain ⟨g, hg, rfl⟩ := Option.map_eq_some_iff.mp hg'
        exact .inl ⟨g, hg, (hsame k g).1.symm.trans hvalid, (hsame k g).2.symm.trans hname⟩

lemma Grown.refl (s : VarGroups) (names : List CString) : Grown s s names :=
  ⟨fun _ _ => id, fun _ _ => .inl⟩

/-- A group that is found. -/
lemma GroupInv.register_ok (h : GroupInv s n) {name : CString} {i : ℕ} (hi : HasName s name i) :
    ∃ s', s' = { s with
        groups := s.groups.modifyItem i fun g => { g with isValid := true }
        timestamp := s.timestamp + 1 } ∧
      GroupInv s' n ∧ Grown s s' [] ∧ HasName s' name i := by
  obtain ⟨g, hg, hvalid, hname⟩ := hi
  have hitem (k : ℕ) : (s.groups.modifyItem i fun g => { g with isValid := true }).getItem k =
      s.groups.getItem k := by
    rw [PointerArray.getItem_modifyItem]
    split
    · rename_i hik
      subst hik
      rw [hg, Option.map_some, ← hvalid]
    · rfl
  have hsame (name : CString) (k : ℕ) : HasName { s with
      groups := s.groups.modifyItem i fun g => { g with isValid := true }
      timestamp := s.timestamp + 1 } name k ↔ HasName s name k := by
    rw [HasName, HasName, hitem]
  exact ⟨_, rfl, h.register_found ⟨g, hg, hvalid, hname⟩,
    ⟨fun name k => (hsame name k).mpr, fun name k hk => .inl ((hsame name k).mp hk)⟩,
    (hsame name i).mpr ⟨g, hg, hvalid, hname⟩⟩

/-- Registering a framework, or a component without one. -/
lemma GroupInv.register_top (h : GroupInv s n)
    (parent : VarGroups → Except Rc ℕ × VarGroups) (project : Option CString)
    {framework component : Option CString} (description : Option CString)
    (hsome : framework.isSome || component.isSome)
    (htop : (framework.isSome && component.isSome) = false) :
    (∃ i s' n', s.groupRegisterWith parent project framework component description =
        (.ok i, s') ∧ GroupInv s' n' ∧ HasName s' (groupName framework component) i ∧
          Grown s s' [groupName framework component]) ∨
      (s.groupRegisterWith parent project framework component description = (.error .error, s) ∧
        (∀ k, ¬ HasName s (groupName framework component) k) ∧ ∀ x, s.groups.add x = none) := by
  rw [groupRegisterWith_eq parent s project description hsome]
  cases hfind : s.groupFind framework component true with
  | ok i =>
      obtain ⟨_, rfl, hinv, hgrown, hname⟩ :=
        h.register_ok ((h.groupFind_iff framework component true i).mp hfind)
      exact .inl ⟨i, _, n, rfl, hinv, hname, hgrown.kept,
        fun name k hk => (hgrown.only name k hk).imp_right fun hmem => absurd hmem List.not_mem_nil⟩
  | error rc =>
      have hfresh (k : ℕ) : ¬ HasName s (groupName framework component) k := fun hk => by
        rw [(h.groupFind_iff framework component true k).mpr hk] at hfind
        cases hfind
      dsimp only
      rw [htop, if_neg Bool.false_ne_true]
      rcases h.add_new description (.error .error) hfresh nofun
        (fun f c hf hc => by rw [hf, hc] at htop; cases htop) with
        ⟨hadd, hfull⟩ | ⟨s', hadd, hinv, hname, hgrown⟩
      · exact .inr ⟨hadd, hfresh, hfull⟩
      · exact .inl ⟨n, s', n + 1, hadd, hinv, hname, hgrown⟩

/-- The names that the registry can tell apart: not a project by itself, and not a framework and a
component with empty names. -/
def Nameable (project framework component : Option CString) : Prop :=
  (framework = none → component = none → project = none) ∧
    ¬ (framework = some [] ∧ component = some [])

/-- Registering a component that is new, behind its framework. -/
lemma GroupInv.register_component (h : GroupInv s n) {project : Option CString} {f c : CString}
    (description : Option CString) (hfresh : ∀ k, ¬ HasName s (groupName (some f) (some c)) k)
    (hnamed : Nameable project (some f) (some c)) :
    ∃ ret s' n', (let r := s.groupRegisterWith (fun s => (.error .error, s)) none (some f) none none
        addGroup r.2 (newGroup (some f) (some c) description) r.1) = (ret, s') ∧
      GroupInv s' n' ∧ (∀ name k, HasName s name k → HasName s' name k) ∧
        (∀ i, ret = .ok i → HasName s' (groupName (some f) (some c)) i) ∧
          (((some f).isSome || (some c).isSome) = true →
            ∀ i, HasName s (groupName (some f) (some c)) i → ret = .ok i) := by
  have hne : groupName (some f) (some c) ≠ f :=
    groupName_ne_framework fun hnil => hnamed.2 ⟨congrArg some hnil.1, congrArg some hnil.2⟩
  rcases h.register_top (fun s => (.error .error, s)) none none
    (show ((some f).isSome || (none : Option CString).isSome) = true from rfl) rfl with
    ⟨p, s₁, n₁, hrun, hinv₁, hname₁, hgrown₁⟩ | ⟨hrun, -, hfull⟩
  · rw [hrun]
    rw [groupName_framework] at hname₁ hgrown₁
    have hfresh₁ (k : ℕ) : ¬ HasName s₁ (groupName (some f) (some c)) k := fun hk =>
      (hgrown₁.only _ k hk).elim (hfresh k) fun hmem => hne (List.mem_singleton.mp hmem)
    rcases hinv₁.add_new description (.ok p) hfresh₁
      (fun q hq => ⟨f, by rwa [← Except.ok.inj hq]⟩)
      (fun f' c' hf' _ => ⟨p, rfl, by rwa [← Option.some.inj hf']⟩) with
      ⟨hadd, -⟩ | ⟨s', hadd, hinv, hname, hgrown⟩
    · exact ⟨_, s₁, n₁, hadd, hinv₁, hgrown₁.kept, fun _ hret => (by cases hret),
        fun _ j hj => absurd hj (hfresh j)⟩
    · refine ⟨_, s', _, hadd, hinv, fun name k hk => hgrown.kept name k (hgrown₁.kept name k hk),
        ?_, fun _ j hj => absurd hj (hfresh j)⟩
      intro j hj
      rwa [← Except.ok.inj hj]
  · rw [hrun]
    refine ⟨.error .error, s, n, ?_, h, fun _ _ => id, fun _ hret => (by cases hret),
      fun _ j hj => absurd hj (hfresh j)⟩
    dsimp only
    rw [addGroup, hfull]

/-- **What a registration does.** -/
theorem GroupInv.groupRegister (h : GroupInv s n) {project framework component : Option CString}
    (description : Option CString) (hnamed : Nameable project framework component) :
    ∃ ret s' n', s.groupRegister project framework component description = (ret, s') ∧
      GroupInv s' n' ∧ (∀ name k, HasName s name k → HasName s' name k) ∧
        (∀ i, ret = .ok i → HasName s' (groupName framework component) i) ∧
          ((framework.isSome || component.isSome) = true →
            ∀ i, HasName s (groupName framework component) i → ret = .ok i) := by
  rw [VarGroups.groupRegister]
  cases hsome : framework.isSome || component.isSome with
  | false =>
      obtain ⟨rfl, rfl⟩ : framework = none ∧ component = none := by
        rw [Bool.or_eq_false_iff] at hsome
        exact ⟨by simpa using hsome.1, by simpa using hsome.2⟩
      have hproject := hnamed.1 rfl rfl
      refine ⟨.error .error, s, n, ?_, h, fun _ _ => id, fun _ hret => (by cases hret),
        fun hfalse => (by cases hfalse)⟩
      rw [VarGroups.groupRegisterWith, if_pos ⟨hproject, rfl, rfl⟩]
  | true =>
      cases htop : framework.isSome && component.isSome with
      | false =>
          rcases h.register_top _ project description hsome htop with
            ⟨i, s', n', hrun, hinv, hname, hgrown⟩ | ⟨hrun, hfresh, -⟩
          · refine ⟨.ok i, s', n', hrun, hinv, hgrown.kept, ?_, fun _ j hj => ?_⟩
            · intro j hj
              rwa [← Except.ok.inj hj]
            · rw [hinv.unique hname (hgrown.kept _ j hj)]
          · exact ⟨.error .error, s, n, hrun, h, fun _ _ => id, fun _ hret => (by cases hret),
              fun _ j hj => absurd hj (hfresh j)⟩
      | true =>
          obtain ⟨hf, hc⟩ := Bool.and_eq_true_iff.mp htop
          obtain ⟨f, rfl⟩ := Option.isSome_iff_exists.mp hf
          obtain ⟨c, rfl⟩ := Option.isSome_iff_exists.mp hc
          rw [groupRegisterWith_eq _ s project description hsome]
          cases hfind : s.groupFind (some f) (some c) true with
          | ok i =>
              have hi := (h.groupFind_iff (some f) (some c) true i).mp hfind
              obtain ⟨_, rfl, hinv, hgrown, hname⟩ := h.register_ok hi
              refine ⟨.ok i, _, n, rfl, hinv, hgrown.kept, ?_, fun _ j hj => ?_⟩
              · intro j hj
                rwa [← Except.ok.inj hj]
              · rw [h.unique hi hj]
          | error rc =>
              have hfresh (k : ℕ) : ¬ HasName s (groupName (some f) (some c)) k := fun hk => by
                rw [(h.groupFind_iff (some f) (some c) true k).mpr hk] at hfind
                cases hfind
              dsimp only
              rw [htop, if_pos rfl]
              exact h.register_component description hfresh hnamed

end Steps

/-! ### Runs -/

section Runs

variable {D P : Type*}

/-- The calls that concern the groups. `others` stands for all that the registries of the variables
do to their own tables. -/
inductive GroupOp (D P : Type*)
  | register (project framework component description : Option CString)
  | deregister (groupIndex : ℕ)
  | addVar (groupIndex paramIndex : ℕ)
  | addPvar (groupIndex paramIndex : ℕ)
  | others (vars : VarRegistry D) (pvars : PointerArray (Pvar P)) (pvarHash : IndexHash)
      (pvarCount : ℕ)

/-- A call that registers a name registers one that can be told apart. -/
def GroupOp.Nameable : GroupOp D P → Prop
  | .register project framework component _ => Ocoms.Nameable project framework component
  | _ => True

/-- What a call leaves. -/
def groupStep (s : McaSystem D P) : GroupOp D P → Option (McaSystem D P)
  | .register project framework component description =>
      some (s.setGroups (s.groups.groupRegister project framework component description).2)
  | .deregister groupIndex => (s.groupDeregister groupIndex).map Prod.snd
  | .addVar groupIndex paramIndex =>
      match s.groups.groupAddVar groupIndex paramIndex with
      | .error _ => some s
      | .ok (_, groups) => some (s.setGroups groups)
  | .addPvar groupIndex paramIndex =>
      match s.groups.groupAddPvar groupIndex paramIndex with
      | .error _ => some s
      | .ok (_, groups) => some (s.setGroups groups)
  | .others vars pvars pvarHash pvarCount =>
      some { vars := { vars with groups := s.groups }, pvars, pvarHash, pvarCount }

/-- Some calls, one after the other. -/
def runGroups (s : McaSystem D P) (ops : List (GroupOp D P)) : Option (McaSystem D P) :=
  ops.foldlM groupStep s

/-- **What callers rely on.** -/
structure GroupsStable (s : McaSystem D P) : Prop where
  unique : ∀ name i j, HasName s.groups name i → HasName s.groups name j → i = j
  registers : ∀ project framework component description,
    Nameable project framework component → ∀ i,
      (s.groups.groupRegister project framework component description).1 = .ok i →
        HasName (s.groups.groupRegister project framework component description).2
          (groupName framework component) i
  again : ∀ project framework component description,
    Nameable project framework component → (framework.isSome || component.isSome) = true →
      ∀ i, HasName s.groups (groupName framework component) i →
        (s.groups.groupRegister project framework component description).1 = .ok i
  kept : ∀ op : GroupOp D P, op.Nameable → (∀ i, op ≠ .deregister i) →
    ∀ s', groupStep s op = some s' → ∀ name i, HasName s.groups name i → HasName s'.groups name i
  find : ∀ framework component i, s.groups.groupFind framework component false = .ok i ↔
    HasName s.groups (groupName framework component) i
  listed : ∀ i g f c, s.group i = some g → g.isValid = true → g.framework = some f →
    g.component = some c → ∃ p parent, s.group p = some parent ∧ parent.isValid = true ∧
      parent.fullName = f ∧ parent.subgroups.count i = 1
  deregisters : ∀ i, ∃ ret s', s.groupDeregister i = some (ret, s') ∧ ¬ s'.Live i ∧
    ∀ j g, s.group j = some g → g.isValid = true → ¬ s'.Live j →
      (∀ k ∈ g.subgroups, ¬ s'.Live k) ∧ (∀ v ∈ g.vars, s'.VarGone v) ∧
        ∀ v ∈ g.pvars, s'.PvarGone v

variable {s s' : McaSystem D P} {n : ℕ}

/-- Deregistering keeps the invariant: with a parent its components go. -/
lemma GroupInv.deregisters (h : GroupInv s.groups n) {i : ℕ}
    (hd : McaSystem.Deregisters s s' i) : GroupInv s'.groups n where
  initialized := hd.swept.initialized.trans h.initialized
  holds := by
    obtain ⟨xs, free, hxs, rfl⟩ := h.holds
    obtain ⟨xs', hxs', hlen⟩ := hd.swept.holds xs free hxs
    exact ⟨xs', free, hxs', hlen⟩
  subgroups k g' hg' j hj := by
    obtain ⟨g, hg, hworn⟩ := hd.swept.worn k g' hg'
    exact h.subgroups k g hg j (hworn.subgroups j hj)
  hash k g hg hvalid := by
    rw [hd.swept.indexHash]
    exact h.hash k g (hd.swept.kept hg hvalid) hvalid
  named name k hk := by
    rw [hd.swept.indexHash] at hk
    obtain ⟨g, hg, hname⟩ := h.named name k hk
    obtain ⟨g', hg'⟩ := Option.isSome_iff_exists.mp
      (hd.swept.there k (Option.isSome_iff_exists.mpr ⟨g, hg⟩))
    obtain ⟨g₀, hg₀, hworn⟩ := hd.swept.worn k g' hg'
    obtain rfl := Option.some.inj (hg.symm.trans hg₀)
    exact ⟨g', hg', hworn.fullName.trans hname⟩
  name k g hg hvalid := h.name k g (hd.swept.kept hg hvalid) hvalid
  parent k g f c hg hvalid hf hc := by
    obtain ⟨p, parent, hp, hpvalid, hpname, hcount⟩ :=
      h.parent k g f c (hd.swept.kept hg hvalid) hvalid hf hc
    -- If the parent were gone, the group would be, which is in its list.
    have hlive : s'.Live p := by
      by_contra hdead
      have hmem : k ∈ parent.subgroups := List.count_pos_iff.mp (by omega)
      exact ((hd.settled p) parent hp hpvalid hdead).1 k hmem ⟨g, hg, hvalid⟩
    obtain ⟨parent', hp', hvalid'⟩ := hlive
    obtain rfl := Option.some.inj (hp.symm.trans (hd.swept.kept hp' hvalid'))
    exact ⟨p, parent, hp', hpvalid, hpname, hcount⟩

lemma GroupInv.shape (h : GroupInv s.groups n) : McaSystem.Shape s n := ⟨h.holds, h.subgroups⟩

lemma GroupInv.groupDeregister (h : GroupInv s.groups n) (i : ℕ) :
    ∃ ret s', s.groupDeregister i = some (ret, s') ∧ McaSystem.Deregisters s s' i := by
  refine McaSystem.groupDeregisterFrom_spec _ s i h.shape (Nat.succ_pos _) ?_
  obtain ⟨xs, free, hxs, rfl⟩ := h.holds
  rw [hxs.size]
  omega

/-- A write to a group that does not concern the registry takes no group away. -/
lemma HasName.modifyItem {s s' : VarGroups} {f : VarGroup → VarGroup} {k i : ℕ} {name : CString}
    (hgroups : s'.groups = s.groups.modifyItem k f) (hf : ∀ g, AlikeGroup g (f g))
    (h : HasName s name i) : HasName s' name i := by
  obtain ⟨g, hg, hvalid, hname⟩ := h
  rw [HasName, hgroups, PointerArray.getItem_modifyItem]
  split
  · exact ⟨f g, by rw [hg, Option.map_some], (hf g).isValid.trans hvalid,
      (hf g).fullName.trans hname⟩
  · exact ⟨g, hg, hvalid, hname⟩

/-- A variable that is added to a group, unless it is `found` there. -/
lemma GroupInv.addTo (h : GroupInv s.groups n) {groupIndex k : ℕ} {groups : VarGroups}
    (found : VarGroup → Option ℕ) (length : VarGroup → ℕ) (f : VarGroup → VarGroup)
    (halike : ∀ g, AlikeGroup g (f g))
    (hadd : (s.groups.getInternal groupIndex false).bind (fun group =>
      match found group with
      | some i => .ok (i, s.groups)
      | none => .ok (length group,
          { s.groups with
            groups := s.groups.groups.modifyItem groupIndex f
            timestamp := s.groups.timestamp + 1 })) = .ok (k, groups)) :
    GroupInv groups n ∧ ∀ name i, HasName s.groups name i → HasName groups name i := by
  cases hget : s.groups.getInternal groupIndex false with
  | error rc =>
      rw [hget] at hadd
      cases hadd
  | ok group =>
      simp only [hget, Except.bind] at hadd
      cases hfound : found group with
      | some i =>
          rw [hfound] at hadd
          obtain ⟨-, rfl⟩ := Prod.mk.inj (Except.ok.inj hadd)
          exact ⟨h, fun _ _ => id⟩
      | none =>
          rw [hfound] at hadd
          obtain ⟨-, rfl⟩ := Prod.mk.inj (Except.ok.inj hadd)
          exact ⟨h.modifyItem rfl rfl rfl fun g _ => halike g,
            fun _ _ hname => hname.modifyItem rfl halike⟩

lemma GroupInv.groupAddVar (h : GroupInv s.groups n) {groupIndex paramIndex k : ℕ}
    {groups : VarGroups} (hadd : s.groups.groupAddVar groupIndex paramIndex = .ok (k, groups)) :
    GroupInv groups n ∧ ∀ name i, HasName s.groups name i → HasName groups name i :=
  h.addTo (fun g => g.vars.findIdx? (· = paramIndex)) (fun g => g.vars.length)
    (fun g => { g with vars := g.vars ++ [paramIndex] }) (fun _ => ⟨rfl, rfl, rfl, rfl, rfl⟩) hadd

lemma GroupInv.groupAddPvar (h : GroupInv s.groups n) {groupIndex paramIndex k : ℕ}
    {groups : VarGroups} (hadd : s.groups.groupAddPvar groupIndex paramIndex = .ok (k, groups)) :
    GroupInv groups n ∧ ∀ name i, HasName s.groups name i → HasName groups name i :=
  h.addTo (fun g => g.pvars.findIdx? (· = paramIndex)) (fun g => g.pvars.length)
    (fun g => { g with pvars := g.pvars ++ [paramIndex] }) (fun _ => ⟨rfl, rfl, rfl, rfl, rfl⟩) hadd

/-- Nothing is registered at first. -/
lemma groupInv_initialGroups : GroupInv initialGroups 0 := by
  have hholds : initialGroups.groups.Holds [] 128 := ⟨rfl, rfl, rfl, by decide⟩
  have hnone (i : ℕ) (g : VarGroup) : initialGroups.groups.getItem i ≠ some g := by
    rw [hholds.getItem]
    nofun
  exact
    { initialized := rfl
      holds := ⟨[], 128, hholds, rfl⟩
      subgroups := fun i g hg => absurd hg (hnone i g)
      hash := fun i g hg => absurd hg (hnone i g)
      named := nofun
      name := fun i g hg => absurd hg (hnone i g)
      parent := fun i g _ _ hg => absurd hg (hnone i g) }

/-- Every call keeps the invariant, and only deregistering takes groups away. -/
lemma GroupInv.step (h : GroupInv s.groups n) {op : GroupOp D P} (hop : op.Nameable) :
    ∃ s' n', groupStep s op = some s' ∧ GroupInv s'.groups n' ∧
      ((∀ i, op ≠ .deregister i) → ∀ name i, HasName s.groups name i → HasName s'.groups name i) := by
  cases op with
  | register project framework component description =>
      obtain ⟨ret, groups, n', hrun, hinv, hkept, -⟩ := h.groupRegister description hop
      refine ⟨s.setGroups groups, n', ?_, hinv, fun _ => hkept⟩
      rw [groupStep, hrun]
  | deregister groupIndex =>
      obtain ⟨ret, s', hrun, hd⟩ := h.groupDeregister groupIndex
      refine ⟨s', n, ?_, h.deregisters hd, fun hne => absurd rfl (hne groupIndex)⟩
      rw [groupStep, hrun, Option.map_some]
  | addVar groupIndex paramIndex =>
      rw [groupStep]
      cases hadd : s.groups.groupAddVar groupIndex paramIndex with
      | error rc => exact ⟨s, n, rfl, h, fun _ _ _ => id⟩
      | ok r =>
          obtain ⟨hinv, hkept⟩ := h.groupAddVar hadd
          exact ⟨s.setGroups r.2, n, rfl, hinv, fun _ => hkept⟩
  | addPvar groupIndex paramIndex =>
      rw [groupStep]
      cases hadd : s.groups.groupAddPvar groupIndex paramIndex with
      | error rc => exact ⟨s, n, rfl, h, fun _ _ _ => id⟩
      | ok r =>
          obtain ⟨hinv, hkept⟩ := h.groupAddPvar hadd
          exact ⟨s.setGroups r.2, n, rfl, hinv, fun _ => hkept⟩
  | others vars pvars pvarHash pvarCount => exact ⟨_, n, rfl, h, fun _ _ _ => id⟩

/-- The invariant gives what callers rely on. -/
lemma GroupInv.stable (h : GroupInv s.groups n) : GroupsStable s where
  unique _ _ _ := h.unique
  registers project framework component description hnamed i hi := by
    obtain ⟨ret, groups, n', hrun, -, -, hname, -⟩ := h.groupRegister description hnamed
    rw [hrun] at hi ⊢
    exact hname i hi
  again project framework component description hnamed hsome i hi := by
    obtain ⟨ret, groups, n', hrun, -, -, -, hagain⟩ := h.groupRegister description hnamed
    rw [hrun]
    exact hagain hsome i hi
  kept op hop hne s' hs' := by
    obtain ⟨_, n', hrun, -, hkept⟩ := h.step hop
    obtain rfl := Option.some.inj (hs'.symm.trans hrun)
    exact hkept hne
  find framework component := h.groupFind_iff framework component false
  listed := h.parent
  deregisters i := by
    obtain ⟨ret, s', hrun, hd⟩ := h.groupDeregister i
    exact ⟨ret, s', hrun, hd.dead, fun j g hg hvalid => hd.settled j g hg hvalid⟩

end Runs

/-- A variable with these flags. -/
def someVar (flags : VarFlags) : Var where
  index := 0
  groupIndex := some 0
  infoLvl := 0
  type := .int
  variableName := some ['v']
  fullName := ['f', '_', 'v']
  longName := ['f', '_', 'v']
  synonyms := []
  flags := flags
  scope := .readonly
  source := .default
  synonymFor := none
  description := none
  sourceFile := none
  enumerator := none
  bind := 0
  storage := none

/-- No groups yet, and a valid variable. -/
def initialSystem : McaSystem ℕ ℕ where
  vars :=
    { vars := ⟨1, 127, 16384, 128, some (someVar { valid := true }) :: List.replicate 127 none⟩
      indexHash := fun _ => none
      count := 1
      groups := initialGroups
      memory := fun _ => .int 0 }
  pvars := ⟨0, 128, 2048, 128, List.replicate 128 none⟩
  pvarHash := fun _ => none
  pvarCount := 0

/-- The registration of a framework, or of a component. -/
def registerGroup (framework component : Option CString) : GroupOp ℕ ℕ :=
  .register none framework component none

/-- What a run leaves of a group: its full name and whether it is registered, and of the variable:
whether it is valid. -/
def groupAfter (ops : List (GroupOp ℕ ℕ)) (i : ℕ) : Option (CString × Bool) :=
  ((runGroups initialSystem ops).bind fun s => s.group i).map fun g => (g.fullName, g.isValid)

/-- Whether the variable is still valid. -/
def validAfter (ops : List (GroupOp ℕ ℕ)) : Option Bool :=
  (runGroups initialSystem ops).bind fun s => (s.vars.vars.getItem 0).map fun var => var.flags.valid

end Ocoms
