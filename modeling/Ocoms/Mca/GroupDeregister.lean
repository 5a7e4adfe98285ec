import Ocoms.Mca.Pvar
import Ocoms.Mca.Var

/-!
Deregistering a variable group: `ocoms_mca_base_var_group_deregister`.

* `McaSystem` is the variables and the performance variables, over the same groups.
* `groupDeregisterFrom` is the function of the source, with a fuel argument for its recursion over
  the subgroups; `groupDeregister` has enough of it, as subgroups have greater indices (`Shape`).
* `Swept` is what deregistering leaves as it was. `Settled` says of a group that is gone what has gone
  with it. `groupDeregisterFrom_spec` is the specification.
-/

namespace Ocoms

/-- The variables, with the groups, and the performance variables. -/
structure McaSystem (D P : Type*) where
  vars : VarRegistry D
  pvars : PointerArray (Pvar P)
  pvarHash : IndexHash
  pvarCount : ℕ

namespace McaSystem

variable {D P : Type*}

/-- The groups. -/
def groups (s : McaSystem D P) : VarGroups := s.vars.groups

/-- Replaces the groups. -/
def setGroups (s : McaSystem D P) (groups : VarGroups) : McaSystem D P :=
  { s with vars := { s.vars with groups } }

/-- The group with this index. -/
def group (s : McaSystem D P) (i : ℕ) : Option VarGroup := s.groups.groups.getItem i

/-- Writes to a group. -/
def modifyGroup (s : McaSystem D P) (i : ℕ) (f : VarGroup → VarGroup) : McaSystem D P :=
  s.setGroups { s.groups with groups := s.groups.groups.modifyItem i f }

/-- The registry of the performance variables. -/
def pvarRegistry (s : McaSystem D P) : PvarRegistry P where
  groups := s.groups
  registered := s.pvars
  indexHash := s.pvarHash
  count := s.pvarCount

/-! ### The functions -/

/-- `ocoms_mca_base_pvar_mark_invalid`. -/
def pvarMarkInvalid (s : McaSystem D P) (index : ℕ) : Except Rc Unit × McaSystem D P :=
  match s.pvarRegistry.getInternal index false with
  | .error rc => (.error rc, s)
  | .ok _ => (.ok (), { s with
      pvars := s.pvars.modifyItem index fun pvar =>
        { pvar with flags := { pvar.flags with invalid := true } } })

/-- A pass of the first loop of `ocoms_mca_base_var_group_deregister`. -/
def deregisterWithGroup (s : McaSystem D P) (param : ℕ) : McaSystem D P :=
  match s.vars.get param with
  | .error _ => s
  | .ok var => if var.flags.dwg then { s with vars := (s.vars.deregister param).2 } else s

/-- A pass of the second loop. -/
def invalidateWithGroup (s : McaSystem D P) (param : ℕ) : McaSystem D P :=
  match s.pvarRegistry.get param with
  | .error _ => s
  | .ok pvar => if pvar.flags.iwg then (s.pvarMarkInvalid param).2 else s

/-- `ocoms_mca_base_var_group_deregister`. -/
def groupDeregisterFrom : ℕ → McaSystem D P → ℕ → Option (Except Rc Unit × McaSystem D P)
  | 0, _, _ => none
  | fuel + 1, s, groupIndex =>
      match s.groups.getInternal groupIndex false with
      | .error rc => some (.error rc, s)
      | .ok group => do
          let s := s.modifyGroup groupIndex fun g => { g with isValid := false }
          let s := (group.vars.foldl deregisterWithGroup s).modifyGroup groupIndex fun g =>
            { g with vars := [] }
          let s := (group.pvars.foldl invalidateWithGroup s).modifyGroup groupIndex fun g =>
            { g with pvars := [] }
          let s ← group.subgroups.foldlM
            (fun s subgroup => (groupDeregisterFrom fuel s subgroup).map Prod.snd) s
          let s := s.modifyGroup groupIndex fun g => { g with subgroups := [] }
          some (.ok (), s.setGroups { s.groups with timestamp := s.groups.timestamp + 1 })

/-- `ocoms_mca_base_var_group_deregister`, with enough fuel. -/
def groupDeregister (s : McaSystem D P) (groupIndex : ℕ) :
    Option (Except Rc Unit × McaSystem D P) :=
  s.groupDeregisterFrom (s.groups.groups.size + 1) groupIndex

/-! ### What goes with a group -/

/-- A group that is registered. -/
def Live (s : McaSystem D P) (i : ℕ) : Prop := ∃ g, s.group i = some g ∧ g.isValid = true

/-- A variable is deregistered, if it goes with its group. -/
def VarGone (s : McaSystem D P) (v : ℕ) : Prop :=
  ∀ var, s.vars.get v = .ok var → var.flags.dwg = true → var.flags.valid = false

/-- A performance variable is not to be found, if it goes with its group. -/
def PvarGone (s : McaSystem D P) (v : ℕ) : Prop :=
  ∀ pvar, s.pvarRegistry.get v = .ok pvar → pvar.flags.iwg = false

/-- If a group is gone, so are its subgroups and its variables. -/
def Settled (s s' : McaSystem D P) (i : ℕ) : Prop :=
  ∀ g, s.group i = some g → g.isValid = true → ¬ s'.Live i →
    (∀ j ∈ g.subgroups, ¬ s'.Live j) ∧ (∀ v ∈ g.vars, s'.VarGone v) ∧
      ∀ v ∈ g.pvars, s'.PvarGone v

/-- What deregistering may do to a group. -/
structure Worn (g g' : VarGroup) : Prop where
  fullName : g'.fullName = g.fullName
  framework : g'.framework = g.framework
  component : g'.component = g.component
  subgroups : ∀ j ∈ g'.subgroups, j ∈ g.subgroups
  kept : g'.isValid = true → g' = g

/-- **What deregistering leaves.** A group that is still registered is as it was. -/
structure Swept (s s' : McaSystem D P) : Prop where
  initialized : s'.groups.varInitialized = s.groups.varInitialized
  indexHash : s'.groups.indexHash = s.groups.indexHash
  holds : ∀ xs free, s.groups.groups.Holds xs free →
    ∃ xs', s'.groups.groups.Holds xs' free ∧ xs'.length = xs.length
  worn : ∀ i g', s'.group i = some g' → ∃ g, s.group i = some g ∧ Worn g g'
  there : ∀ i, (s.group i).isSome → (s'.group i).isSome
  varGone : ∀ v, s.VarGone v → s'.VarGone v
  pvarGone : ∀ v, s.PvarGone v → s'.PvarGone v

/-- Subgroups have greater indices. -/
structure Shape (s : McaSystem D P) (n : ℕ) : Prop where
  holds : ∃ xs free, s.groups.groups.Holds xs free ∧ xs.length = n
  subgroups : ∀ i g, s.group i = some g → ∀ j ∈ g.subgroups, i < j ∧ j < n

lemma Worn.refl (g : VarGroup) : Worn g g := ⟨rfl, rfl, rfl, fun _ => id, fun _ => rfl⟩

lemma Worn.trans {g g' g'' : VarGroup} (h : Worn g g') (h' : Worn g' g'') : Worn g g'' where
  fullName := h'.fullName.trans h.fullName
  framework := h'.framework.trans h.framework
  component := h'.component.trans h.component
  subgroups j hj := h.subgroups j (h'.subgroups j hj)
  kept hvalid := by
    obtain rfl := h'.kept hvalid
    exact h.kept hvalid

variable {s s' s'' : McaSystem D P} {i n : ℕ}

lemma Swept.refl (s : McaSystem D P) : Swept s s where
  initialized := rfl
  indexHash := rfl
  holds xs _ h := ⟨xs, h, rfl⟩
  worn _ g' h := ⟨g', h, .refl g'⟩
  there _ := id
  varGone _ := id
  pvarGone _ := id

lemma Swept.trans (h : Swept s s') (h' : Swept s' s'') : Swept s s'' where
  initialized := h'.initialized.trans h.initialized
  indexHash := h'.indexHash.trans h.indexHash
  holds xs free hxs := by
    obtain ⟨xs', hxs', hlen⟩ := h.holds xs free hxs
    obtain ⟨xs'', hxs'', hlen'⟩ := h'.holds xs' free hxs'
    exact ⟨xs'', hxs'', hlen'.trans hlen⟩
  worn i g'' hg'' := by
    obtain ⟨g', hg', hworn'⟩ := h'.worn i g'' hg''
    obtain ⟨g, hg, hworn⟩ := h.worn i g' hg'
    exact ⟨g, hg, hworn.trans hworn'⟩
  there i hi := h'.there i (h.there i hi)
  varGone v hv := h'.varGone v (h.varGone v hv)
  pvarGone v hv := h'.pvarGone v (h.pvarGone v hv)

/-- A group that is registered behind a sweep was so before, and is the same. -/
lemma Swept.kept (h : Swept s s') {g : VarGroup} (hg : s'.group i = some g)
    (hvalid : g.isValid = true) : s.group i = some g := by
  obtain ⟨g₀, hg₀, hworn⟩ := h.worn i g hg
  rw [hg₀, hworn.kept hvalid]

lemma Swept.live (h : Swept s s') (hlive : s'.Live i) : s.Live i := by
  obtain ⟨g, hg, hvalid⟩ := hlive
  exact ⟨g, h.kept hg hvalid, hvalid⟩

lemma Shape.swept (hshape : Shape s n) (h : Swept s s') : Shape s' n where
  holds := by
    obtain ⟨xs, free, hxs, rfl⟩ := hshape.holds
    obtain ⟨xs', hxs', hlen⟩ := h.holds xs free hxs
    exact ⟨xs', free, hxs', hlen⟩
  subgroups i g' hg' j hj := by
    obtain ⟨g, hg, hworn⟩ := h.worn i g' hg'
    exact hshape.subgroups i g hg j (hworn.subgroups j hj)

lemma Settled.refl (s : McaSystem D P) (i : ℕ) : Settled s s i :=
  fun g hg hvalid hdead => absurd ⟨g, hg, hvalid⟩ hdead

/-- What has gone with a group stays away. -/
lemma Settled.trans (h : Settled s s' i) (h' : Settled s' s'' i) (hswept : Swept s s')
    (hswept' : Swept s' s'') : Settled s s'' i := by
  intro g hg hvalid hdead
  by_cases hlive : s'.Live i
  · obtain ⟨g', hg', hvalid'⟩ := hlive
    obtain rfl := Option.some.inj (hg.symm.trans (hswept.kept hg' hvalid'))
    exact h' g hg' hvalid hdead
  · obtain ⟨hsubgroups, hvars, hpvars⟩ := h g hg hvalid hlive
    exact ⟨fun j hj hjlive => hsubgroups j hj (hswept'.live hjlive),
      fun v hv => hswept'.varGone v (hvars v hv), fun v hv => hswept'.pvarGone v (hpvars v hv)⟩

/-! ### The loops -/

lemma group_modifyGroup (s : McaSystem D P) (i k : ℕ) (f : VarGroup → VarGroup) :
    (s.modifyGroup i f).group k = if i = k then (s.group k).map f else s.group k :=
  PointerArray.getItem_modifyItem _ _ _ _

/-- A write to a group that only wears it. -/
lemma swept_modifyGroup {f : VarGroup → VarGroup} (h : ∀ g, s.group i = some g → Worn g (f g)) :
    Swept s (s.modifyGroup i f) where
  initialized := rfl
  indexHash := rfl
  holds xs _ hxs := ⟨_, hxs.modifyItem i f, List.length_modify ..⟩
  worn k g' hg' := by
    rw [group_modifyGroup] at hg'
    split at hg'
    case isTrue hik =>
      subst hik
      obtain ⟨g, hg, rfl⟩ := Option.map_eq_some_iff.mp hg'
      exact ⟨g, hg, h g hg⟩
    case isFalse => exact ⟨g', hg', .refl g'⟩
  there k hk := by
    rw [group_modifyGroup]
    split
    · rwa [Option.isSome_map]
    · exact hk
  varGone _ := id
  pvarGone _ := id

lemma get_eq (r : VarRegistry D) (v : ℕ) :
    r.get v = match r.vars.getItem v with
      | none => .error .badParam
      | some var => .ok var := by
  rw [VarRegistry.get, VarRegistry.varGet]
  cases r.vars.getItem v with
  | none => rfl
  | some var => simp [Except.map]

lemma get_modifyVar {r : VarRegistry D} {v k : ℕ} {f : Var → Var} {var' : Var}
    (h : (r.modifyVar v f).get k = .ok var') :
    ∃ var, r.get k = .ok var ∧ var' = if v = k then f var else var := by
  rw [get_eq, VarRegistry.modifyVar, PointerArray.getItem_modifyItem] at h
  rw [get_eq]
  cases hitem : r.vars.getItem k with
  | none =>
      rw [hitem, Option.map_none, ite_self] at h
      cases h
  | some var =>
      rw [hitem] at h
      refine ⟨var, rfl, ?_⟩
      by_cases hvk : v = k
      · rw [if_pos hvk] at h ⊢
        exact (Except.ok.inj h).symm
      · rw [if_neg hvk] at h ⊢
        exact (Except.ok.inj h).symm

lemma groups_deregister (r : VarRegistry D) (v : ℕ) : (r.deregister v).2.groups = r.groups := by
  rw [VarRegistry.deregister]
  repeat' split
  all_goals rfl

/-- What is found behind `ocoms_mca_base_var_deregister` was there before; the variable itself is not
valid any more. -/
lemma get_deregister {r : VarRegistry D} {v k : ℕ} {var' : Var}
    (h : (r.deregister v).2.get k = .ok var') :
    ∃ var, r.get k = .ok var ∧ var'.flags.dwg = var.flags.dwg ∧
      (var.flags.valid = false → var'.flags.valid = false) ∧
        (k = v → var'.flags.valid = false) := by
  rw [VarRegistry.deregister, VarRegistry.varGet] at h
  cases hitem : r.vars.getItem v with
  | none =>
      rw [hitem] at h
      refine ⟨var', h, rfl, id, ?_⟩
      rintro rfl
      rw [get_eq, hitem] at h
      cases h
  | some var =>
      have hget : r.get v = .ok var := by rw [get_eq, hitem]
      rw [hitem] at h
      simp only [Bool.and_false, Bool.false_eq_true, if_false] at h
      cases hvalid : var.flags.valid with
      | false =>
          rw [hvalid] at h
          refine ⟨var', h, rfl, id, ?_⟩
          rintro rfl
          obtain rfl : var = var' := Except.ok.inj (hget.symm.trans h)
          exact hvalid
      | true =>
          rw [hvalid] at h
          simp only [Bool.not_true, Bool.false_eq_true, if_false] at h
          obtain ⟨var₁, hmarked, hsame⟩ : ∃ var₁, (r.modifyVar v fun var =>
              { var with flags := { var.flags with valid := false } }).get k = .ok var₁ ∧
                var'.flags = var₁.flags := by
            split at h
            · exact ⟨var', h, rfl⟩
            · obtain ⟨var₁, hvar₁, rfl⟩ := get_modifyVar h
              refine ⟨var₁, hvar₁, ?_⟩
              split <;> rfl
          obtain ⟨var₀, hvar₀, rfl⟩ := get_modifyVar hmarked
          rw [hsame]
          refine ⟨var₀, hvar₀, ?_, ?_, ?_⟩
          · split <;> rfl
          · intro hinvalid
            split
            · rfl
            · exact hinvalid
          · rintro rfl
            rw [if_pos rfl]

/-- A loop that leaves the groups, and spares what is gone. -/
structure Spares (s s' : McaSystem D P) : Prop where
  groups : s'.groups = s.groups
  varGone : ∀ v, s.VarGone v → s'.VarGone v
  pvarGone : ∀ v, s.PvarGone v → s'.PvarGone v

lemma Spares.swept (h : Spares s s') : Swept s s' where
  initialized := by rw [h.groups]
  indexHash := by rw [h.groups]
  holds xs free hxs := ⟨xs, by rwa [h.groups], rfl⟩
  worn i g' hg' := ⟨g', by rwa [group, ← h.groups], .refl g'⟩
  there i hi := by rwa [group, h.groups]
  varGone := h.varGone
  pvarGone := h.pvarGone

lemma spares_deregisterWithGroup (s : McaSystem D P) (v : ℕ) :
    Spares s (s.deregisterWithGroup v) ∧ (s.deregisterWithGroup v).VarGone v := by
  rw [deregisterWithGroup]
  cases hget : s.vars.get v with
  | error rc =>
      refine ⟨⟨rfl, fun _ => id, fun _ => id⟩, fun var hvar => ?_⟩
      rw [hget] at hvar
      cases hvar
  | ok var =>
      dsimp only
      cases hdwg : var.flags.dwg with
      | false =>
          refine ⟨⟨rfl, fun _ => id, fun _ => id⟩, fun var' hvar' hdwg' => ?_⟩
          obtain rfl : var = var' := Except.ok.inj (hget.symm.trans hvar')
          rw [hdwg] at hdwg'
          cases hdwg'
      | true =>
          rw [if_pos rfl]
          have hgroups := groups_deregister s.vars v
          refine ⟨⟨hgroups, fun k hk var' hvar' hdwg' => ?_, fun k hk pvar hpvar => ?_⟩,
            fun var' hvar' _ => ?_⟩
          · obtain ⟨var₀, hvar₀, hsame, hinvalid, -⟩ := get_deregister hvar'
            exact hinvalid (hk var₀ hvar₀ (hsame.symm.trans hdwg'))
          · exact hk pvar hpvar
          · obtain ⟨-, -, -, -, hself⟩ := get_deregister hvar'
            exact hself rfl

/-- A performance variable that is marked is not found any more, the others are as before. -/
lemma pvarGet_marked (s : McaSystem D P) (v : ℕ) (pvar : Pvar P) :
    ({ s with pvars := s.pvars.modifyItem v fun pvar =>
      { pvar with flags := { pvar.flags with invalid := true } } } :
        McaSystem D P).pvarRegistry.get v ≠ .ok pvar := by
  rw [PvarRegistry.get, PvarRegistry.getInternal]
  split
  · intro h
    cases h
  · rw [pvarRegistry, PointerArray.getItem_modifyItem, if_pos rfl]
    cases s.pvars.getItem v with
    | none =>
        intro h
        cases h
    | some pvar =>
        intro h
        cases h

lemma pvarGet_of_ne (s : McaSystem D P) {v k : ℕ} (h : v ≠ k) :
    ({ s with pvars := s.pvars.modifyItem v fun pvar =>
      { pvar with flags := { pvar.flags with invalid := true } } } :
        McaSystem D P).pvarRegistry.get k = s.pvarRegistry.get k := by
  rw [PvarRegistry.get, PvarRegistry.getInternal, PvarRegistry.get, PvarRegistry.getInternal]
  simp only [pvarRegistry]
  rw [PointerArray.getItem_modifyItem_of_ne _ h]
  rfl

lemma spares_invalidateWithGroup (s : McaSystem D P) (v : ℕ) :
    Spares s (s.invalidateWithGroup v) ∧ (s.invalidateWithGroup v).PvarGone v := by
  rw [invalidateWithGroup]
  cases hget : s.pvarRegistry.get v with
  | error rc =>
      refine ⟨⟨rfl, fun _ => id, fun _ => id⟩, fun pvar hpvar => ?_⟩
      rw [hget] at hpvar
      cases hpvar
  | ok pvar =>
      dsimp only
      cases hiwg : pvar.flags.iwg with
      | false =>
          refine ⟨⟨rfl, fun _ => id, fun _ => id⟩, fun pvar' hpvar' => ?_⟩
          obtain rfl : pvar = pvar' := Except.ok.inj (hget.symm.trans hpvar')
          exact hiwg
      | true =>
          rw [if_pos rfl, pvarMarkInvalid, ← PvarRegistry.get, hget]
          dsimp only
          refine ⟨⟨rfl, fun _ => id, fun k hk pvar' hpvar' => ?_⟩, fun pvar' hpvar' => ?_⟩
          · by_cases hvk : v = k
            · subst hvk
              exact absurd hpvar' (pvarGet_marked s v pvar')
            · exact hk pvar' (pvarGet_of_ne s hvk ▸ hpvar')
          · exact absurd hpvar' (pvarGet_marked s v pvar')

lemma Spares.refl (s : McaSystem D P) : Spares s s := ⟨rfl, fun _ => id, fun _ => id⟩

lemma Spares.trans (h : Spares s s') (h' : Spares s' s'') : Spares s s'' :=
  ⟨h'.groups.trans h.groups, fun v hv => h'.varGone v (h.varGone v hv),
    fun v hv => h'.pvarGone v (h.pvarGone v hv)⟩

lemma spares_foldl_deregisterWithGroup (s : McaSystem D P) (params : List ℕ) :
    Spares s (params.foldl deregisterWithGroup s) ∧
      ∀ v ∈ params, (params.foldl deregisterWithGroup s).VarGone v := by
  induction params generalizing s with
  | nil => exact ⟨.refl s, nofun⟩
  | cons v params ih =>
      obtain ⟨hspares, hgone⟩ := spares_deregisterWithGroup s v
      obtain ⟨hrest, hall⟩ := ih (s.deregisterWithGroup v)
      exact ⟨hspares.trans hrest, List.forall_mem_cons.mpr ⟨hrest.varGone v hgone, hall⟩⟩

lemma spares_foldl_invalidateWithGroup (s : McaSystem D P) (params : List ℕ) :
    Spares s (params.foldl invalidateWithGroup s) ∧
      ∀ v ∈ params, (params.foldl invalidateWithGroup s).PvarGone v := by
  induction params generalizing s with
  | nil => exact ⟨.refl s, nofun⟩
  | cons v params ih =>
      obtain ⟨hspares, hgone⟩ := spares_invalidateWithGroup s v
      obtain ⟨hrest, hall⟩ := ih (s.invalidateWithGroup v)
      exact ⟨hspares.trans hrest, List.forall_mem_cons.mpr ⟨hrest.pvarGone v hgone, hall⟩⟩

/-! ### The function -/

/-- What deregistering a group comes to. -/
structure Deregisters (s s' : McaSystem D P) (i : ℕ) : Prop where
  swept : Swept s s'
  settled : ∀ j, Settled s s' j
  dead : ¬ s'.Live i

/-- A step that deregisters nothing. -/
structure Calm (s s' : McaSystem D P) : Prop where
  swept : Swept s s'
  live : ∀ j, s.Live j → s'.Live j

lemma Calm.trans (h : Calm s s') (h' : Calm s' s'') : Calm s s'' :=
  ⟨h.swept.trans h'.swept, fun j hj => h'.live j (h.live j hj)⟩

lemma Calm.settled (h : Calm s s') (j : ℕ) : Settled s s' j :=
  fun g hg hvalid hdead => absurd (h.live j ⟨g, hg, hvalid⟩) hdead

lemma Calm.dead (h : Calm s s') (hdead : ¬ s.Live i) : ¬ s'.Live i :=
  fun hlive => hdead (h.swept.live hlive)

lemma Spares.calm (h : Spares s s') : Calm s s' :=
  ⟨h.swept, fun j hj => by rwa [Live, group, h.groups]⟩

lemma calm_timestamp (s : McaSystem D P) (timestamp : ℕ) :
    Calm s (s.setGroups { s.groups with timestamp }) where
  swept := ⟨rfl, rfl, fun xs _ h => ⟨xs, h, rfl⟩, fun _ g' h => ⟨g', h, .refl g'⟩, fun _ => id,
    fun _ => id, fun _ => id⟩
  live _ := id

/-- A list of a group that is not registered is cleared. -/
lemma calm_clear {f : VarGroup → VarGroup} (hdead : ¬ s.Live i)
    (hf : ∀ g, g.isValid = false → Worn g (f g)) : Calm s (s.modifyGroup i f) where
  swept := swept_modifyGroup fun g hg => hf g (by
    by_contra hvalid
    exact hdead ⟨g, hg, by simpa using hvalid⟩)
  live j hj := by
    obtain ⟨g, hg, hvalid⟩ := hj
    have hij : i ≠ j := by
      rintro rfl
      exact hdead ⟨g, hg, hvalid⟩
    exact ⟨g, by rwa [group_modifyGroup, if_neg hij], hvalid⟩

lemma worn_vars {g : VarGroup} (h : g.isValid = false) : Worn g { g with vars := [] } :=
  ⟨rfl, rfl, rfl, fun _ => id, fun hvalid => absurd (h.symm.trans hvalid) Bool.false_ne_true⟩

lemma worn_pvars {g : VarGroup} (h : g.isValid = false) : Worn g { g with pvars := [] } :=
  ⟨rfl, rfl, rfl, fun _ => id, fun hvalid => absurd (h.symm.trans hvalid) Bool.false_ne_true⟩

lemma worn_subgroups {g : VarGroup} (h : g.isValid = false) : Worn g { g with subgroups := [] } :=
  ⟨rfl, rfl, rfl, nofun, fun hvalid => absurd (h.symm.trans hvalid) Bool.false_ne_true⟩

lemma worn_isValid (g : VarGroup) : Worn g { g with isValid := false } :=
  ⟨rfl, rfl, rfl, fun _ => id, nofun⟩

lemma getInternal_false (s : McaSystem D P) (i : ℕ) :
    (∃ g, s.groups.getInternal i false = .ok g ∧ s.group i = some g ∧ g.isValid = true) ∨
      ∃ rc, s.groups.getInternal i false = .error rc ∧ ¬ s.Live i := by
  rw [VarGroups.getInternal, ← group]
  cases hg : s.group i with
  | none =>
      refine .inr ⟨_, rfl, ?_⟩
      rintro ⟨g, hsome, -⟩
      cases hg.symm.trans hsome
  | some g =>
      cases hvalid : g.isValid with
      | true => exact .inl ⟨g, by simp [hvalid], rfl, hvalid⟩
      | false =>
          refine .inr ⟨.notFound, by simp [hvalid], ?_⟩
          rintro ⟨g', hg', hvalid'⟩
          obtain rfl := Option.some.inj (hg.symm.trans hg')
          cases hvalid.symm.trans hvalid'

/-- The subgroups, one after the other. -/
lemma foldlM_subgroups {fuel : ℕ}
    (ih : ∀ (s : McaSystem D P) i, Shape s n → 0 < fuel → n < i + fuel →
      ∃ ret s', s.groupDeregisterFrom fuel i = some (ret, s') ∧ Deregisters s s' i)
    (subgroups : List ℕ) (hshape : Shape s n) (hfuel : ∀ j ∈ subgroups, 0 < fuel ∧ n < j + fuel) :
    ∃ s', subgroups.foldlM (fun s j => (groupDeregisterFrom fuel s j).map Prod.snd) s = some s' ∧
      Swept s s' ∧ (∀ j, Settled s s' j) ∧ ∀ j ∈ subgroups, ¬ s'.Live j := by
  induction subgroups generalizing s with
  | nil => exact ⟨s, rfl, .refl s, .refl s, nofun⟩
  | cons i subgroups ihs =>
      obtain ⟨⟨hpos, hi⟩, hrest⟩ := List.forall_mem_cons.mp hfuel
      obtain ⟨ret, s₁, hrun, h₁⟩ := ih s i hshape hpos hi
      obtain ⟨s', hrun', hswept, hsettled, hdead⟩ := ihs (hshape.swept h₁.swept) hrest
      refine ⟨s', ?_, h₁.swept.trans hswept,
        fun j => (h₁.settled j).trans (hsettled j) h₁.swept hswept,
        List.forall_mem_cons.mpr ⟨fun hlive => h₁.dead (hswept.live hlive), hdead⟩⟩
      rw [List.foldlM_cons, hrun, Option.map_some]
      exact hrun'

/-- What is done in front of the subgroups: the group is marked, and its variables are gone. -/
lemma deregister_variables {g : VarGroup} (hg : s.group i = some g) :
    ∃ s₁ s₂, s₁ = s.modifyGroup i (fun g => { g with isValid := false }) ∧
      s₂ = (g.pvars.foldl invalidateWithGroup ((g.vars.foldl deregisterWithGroup s₁).modifyGroup i
        fun g => { g with vars := [] })).modifyGroup i (fun g => { g with pvars := [] }) ∧
      Swept s s₂ ∧ (∀ j ≠ i, Settled s s₂ j) ∧ ¬ s₂.Live i ∧ (∀ v ∈ g.vars, s₂.VarGone v) ∧
        ∀ v ∈ g.pvars, s₂.PvarGone v := by
  have hmark : Swept s (s.modifyGroup i fun g => { g with isValid := false }) :=
    swept_modifyGroup fun g _ => worn_isValid g
  have hdead : ¬ (s.modifyGroup i fun g => { g with isValid := false }).Live i := by
    rintro ⟨g', hg', hvalid'⟩
    rw [group_modifyGroup, if_pos rfl, hg, Option.map_some] at hg'
    obtain rfl := Option.some.inj hg'
    cases hvalid'
  have hothers (j : ℕ) (hj : j ≠ i) :
      Settled s (s.modifyGroup i fun g => { g with isValid := false }) j := by
    intro g' hg' hvalid' hnot
    exact absurd ⟨g', by rwa [group_modifyGroup, if_neg hj.symm], hvalid'⟩ hnot
  obtain ⟨hvars, hvarsGone⟩ := spares_foldl_deregisterWithGroup
    (s.modifyGroup i fun g => { g with isValid := false }) g.vars
  have hclear := calm_clear (hvars.calm.dead hdead) fun _ => worn_vars
  obtain ⟨hpvars, hpvarsGone⟩ := spares_foldl_invalidateWithGroup
    ((g.vars.foldl deregisterWithGroup (s.modifyGroup i fun g =>
      { g with isValid := false })).modifyGroup i fun g => { g with vars := [] }) g.pvars
  have hclear' := calm_clear (hpvars.calm.dead (hclear.dead (hvars.calm.dead hdead)))
    fun _ => worn_pvars
  have hcalm := ((hvars.calm.trans hclear).trans hpvars.calm).trans hclear'
  refine ⟨_, _, rfl, rfl, hmark.trans hcalm.swept, fun j hj => ?_, hcalm.dead hdead,
    fun v hv => ?_, fun v hv => ?_⟩
  · exact (hothers j hj).trans (hcalm.settled j) hmark hcalm.swept
  · exact hclear'.swept.varGone v (hpvars.varGone v (hclear.swept.varGone v (hvarsGone v hv)))
  · exact hclear'.swept.pvarGone v (hpvarsGone v hv)

/-- **What `ocoms_mca_base_var_group_deregister` does.** The fuel has to reach behind the last
group. -/
theorem groupDeregisterFrom_spec (fuel : ℕ) (s : McaSystem D P) (i : ℕ) (hshape : Shape s n)
    (hpos : 0 < fuel) (hfuel : n < i + fuel) :
    ∃ ret s', s.groupDeregisterFrom fuel i = some (ret, s') ∧ Deregisters s s' i := by
  induction fuel generalizing s i with
  | zero => exact absurd hpos (lt_irrefl 0)
  | succ fuel ih =>
      rw [groupDeregisterFrom]
      rcases getInternal_false s i with ⟨g, hget, hg, -⟩ | ⟨rc, hget, hdead⟩
      · rw [hget]
        obtain ⟨s₁, s₂, rfl, rfl, hswept, hothers, hdead, hvars, hpvars⟩ :=
          deregister_variables hg
        obtain ⟨s₃, hrun, hswept', hsettled, hsubgroups⟩ := foldlM_subgroups
          (fun s i hshape hpos hfuel => ih s i hshape hpos hfuel) g.subgroups
          (hshape.swept hswept) fun j hj => by
            have hj := hshape.subgroups i g hg j hj
            omega
        have hdead' : ¬ s₃.Live i := fun hlive => hdead (hswept'.live hlive)
        have hclear := calm_clear hdead' fun _ => worn_subgroups
        have hcalm := hclear.trans (calm_timestamp
          (s₃.modifyGroup i fun g => { g with subgroups := [] })
          ((s₃.modifyGroup i fun g => { g with subgroups := [] }).groups.timestamp + 1))
        refine ⟨.ok (), _, Option.bind_eq_some_iff.mpr ⟨s₃, hrun, rfl⟩,
          (hswept.trans hswept').trans hcalm.swept, fun j => ?_, hcalm.dead hdead'⟩
        by_cases hji : j = i
        · subst hji
          intro g' hg' _ _
          obtain rfl := Option.some.inj (hg.symm.trans hg')
          exact ⟨fun k hk hlive => hsubgroups k hk (hcalm.swept.live hlive),
            fun v hv => hcalm.swept.varGone v (hswept'.varGone v (hvars v hv)),
            fun v hv => hcalm.swept.pvarGone v (hswept'.pvarGone v (hpvars v hv))⟩
        · exact ((hothers j hji).trans (hsettled j) hswept hswept').trans (hcalm.settled j)
            (hswept.trans hswept') hcalm.swept
      · rw [hget]
        exact ⟨_, s, rfl, .refl s, .refl s, hdead⟩

end McaSystem
end Ocoms
