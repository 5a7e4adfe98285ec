import Ocoms.Mca.Initial

/-!
The registry over runs of registrations and deregistrations.

* `VarRegistry.Keeps` is what a lookup leaves as it is, in the whole registry.
* `VarRegistry.Consistent`: the hash table leads from the full names to the variables.
* `var_registry_consistent` says what a run of calls preserves of a variable: the index that is
  found by its name, and its storage.
-/

namespace Ocoms

variable {D : Type*} {c : VarConfig D}

namespace VarRegistry

variable {s s' s'' : VarRegistry D} {index : ℕ} {var : Var}

/-! ### What the lookups keep -/

/-- The hash table and the skeletons of the variables stay. -/
structure Keeps (s s' : VarRegistry D) : Prop where
  indexHash : s'.indexHash = s.indexHash
  skeleton : ∀ k, (s'.vars.getItem k).map Var.skeleton = (s.vars.getItem k).map Var.skeleton
  holds : ∀ {xs free}, s.vars.Holds xs free →
    ∃ xs', s'.vars.Holds xs' free ∧ xs'.length = xs.length

lemma Keeps.refl (s : VarRegistry D) : s.Keeps s := ⟨rfl, fun _ => rfl, fun h => ⟨_, h, rfl⟩⟩

lemma Keeps.trans (h : s.Keeps s') (h' : s'.Keeps s'') : s.Keeps s'' := by
  refine ⟨h'.indexHash.trans h.indexHash, fun k => (h'.skeleton k).trans (h.skeleton k), ?_⟩
  intro xs free hxs
  obtain ⟨ys, hys, hlen⟩ := h.holds hxs
  obtain ⟨zs, hzs, hlen'⟩ := h'.holds hys
  exact ⟨zs, hzs, hlen'.trans hlen⟩

lemma Keeps.getItem (h : s.Keeps s') (hvar : s.vars.getItem index = some var) :
    ∃ var', s'.vars.getItem index = some var' ∧ var'.skeleton = var.skeleton := by
  have hk := h.skeleton index
  rw [hvar, Option.map_some] at hk
  exact Option.map_eq_some_iff.mp hk

lemma keeps_modifyVar (s : VarRegistry D) (index : ℕ) {f : Var → Var}
    (hf : ∀ var, s.vars.getItem index = some var → (f var).skeleton = var.skeleton) :
    s.Keeps (s.modifyVar index f) := by
  refine ⟨rfl, fun k => ?_, fun h => ⟨_, h.modifyItem index f, List.length_modify _ _ _⟩⟩
  rw [modifyVar]
  dsimp only
  rw [PointerArray.getItem_modifyItem]
  split
  · next hk =>
      cases hvar : s.vars.getItem k with
      | none => rfl
      | some var => exact congrArg some (hf var (hk ▸ hvar))
  · rfl

lemma keeps_record {found : Lookup D} (hvar : s.vars.getItem index = some var)
    (hfound : found.var.skeleton = var.skeleton) : s.Keeps (s.record index found) := by
  have hkeep := keeps_modifyVar s index (f := fun _ => found.var) fun var' hvar' => by
    rw [hvar] at hvar'
    rw [← Option.some.inj hvar', hfound]
  exact ⟨hkeep.indexHash, hkeep.skeleton, hkeep.holds⟩

lemma getItem_of_varGet {original : Bool} {i : ℕ} (h : s.varGet index original = .ok (i, var)) :
    s.vars.getItem i = some var := by
  rw [varGet] at h
  cases hvar : s.vars.getItem index with
  | none =>
      rw [hvar] at h
      cases h
  | some named =>
      rw [hvar] at h
      dsimp only at h
      by_cases hsyn : (named.flags.synonym && original) = true
      · rw [if_pos hsyn] at h
        cases hfor : named.synonymFor with
        | none =>
            rw [hfor] at h
            cases h
        | some j =>
            rw [hfor] at h
            dsimp only at h
            cases hj : s.vars.getItem j with
            | none =>
                rw [hj] at h
                cases h
            | some orig =>
                rw [hj] at h
                cases h
                exact hj
      · rw [if_neg hsyn] at h
        cases h
        exact hvar

lemma getItem_of_target {named : Var} {i : ℕ} (hnamed : s.vars.getItem index = some named)
    (h : s.target index named = .ok (i, var)) : s.vars.getItem i = some var := by
  rw [target] at h
  by_cases hsyn : named.flags.synonym = true
  · rw [if_pos hsyn] at h
    cases hfor : named.synonymFor with
    | none =>
        rw [hfor] at h
        cases h
    | some j =>
        rw [hfor] at h
        exact getItem_of_varGet h
  · rw [if_neg hsyn] at h
    cases h
    exact hnamed

lemma keeps_of_lookUp {bound : VarSource} {look : Var → Var → Option (Lookup D)}
    {ret : Except Rc Unit}
    (hlook : ∀ named var found, look named var = some found → found.var.skeleton = var.skeleton)
    (h : s.lookUp index bound look = some (ret, s')) : s.Keeps s' := by
  rw [lookUp] at h
  cases hnamed : s.vars.getItem index with
  | none =>
      rw [hnamed] at h
      cases h
      exact .refl s
  | some named =>
      rw [hnamed] at h
      dsimp only at h
      rcases htarget : s.target index named with rc | ⟨i, var⟩
      · rw [htarget] at h
        cases h
        exact .refl s
      · rw [htarget] at h
        dsimp only at h
        by_cases hdone : named.flags.synonym ∧ bound.toNat ≤ var.source.toNat
        · rw [if_pos hdone] at h
          cases h
          exact .refl s
        · rw [if_neg hdone] at h
          obtain ⟨found, hfound, heq⟩ := Option.map_eq_some_iff.mp h
          cases heq
          exact keeps_record (getItem_of_target hnamed htarget) (hlook named var found hfound)

lemma keeps_of_setFromEnv {ret : Except Rc Unit} (h : s.setFromEnv c index = some (ret, s')) :
    s.Keeps s' :=
  keeps_of_lookUp (fun _ _ _ => VarConfig.fromEnv_skeleton) h

lemma keeps_of_setFromFile {values : List FileValue} {ret : Except Rc Unit}
    (h : s.setFromFile c values index = some (ret, s')) : s.Keeps s' :=
  keeps_of_lookUp (fun _ _ _ => VarConfig.fromFile_skeleton) h

/-- **`var_set_initial` keeps the registry**, up to the sources and the values. -/
lemma keeps_of_setInitial {ret : Except Rc Unit} (h : s.setInitial c index = some (ret, s')) :
    s.Keeps s' := by
  rw [setInitial] at h
  dsimp only [bind] at h
  have hstart := keeps_modifyVar s index (f := fun var => { var with source := .default })
    fun _ _ => rfl
  obtain ⟨⟨ret₁, s₁⟩, h₁, h⟩ := Option.bind_eq_some_iff.mp h
  have hover : s₁.Keeps (if ret₁ = .ok () then s₁.modifyVar index Var.overridden else s₁) := by
    split
    · exact keeps_modifyVar s₁ index fun _ _ => rfl
    · exact .refl s₁
  obtain ⟨⟨ret₂, s₂⟩, h₂, h⟩ := Option.bind_eq_some_iff.mp h
  have hkeep₂ := ((hstart.trans (keeps_of_setFromFile h₁)).trans hover).trans
    (keeps_of_setFromEnv h₂)
  dsimp only at h
  split at h
  · cases h
    exact hkeep₂
  · obtain ⟨⟨ret₃, s₃⟩, h₃, h⟩ := Option.bind_eq_some_iff.mp h
    have hkeep₃ := hkeep₂.trans (keeps_of_setFromFile h₃)
    dsimp only at h
    split at h <;> cases h <;> exact hkeep₃

/-! ### The hash table -/

/-- **The registry is consistent**: the hash table leads from every full name to the variable that
has it. -/
structure Consistent (s : VarRegistry D) : Prop where
  holds : ∃ xs free, s.vars.Holds xs free
  hash : ∀ name i, s.indexHash name = some i ↔
    ∃ var, s.vars.getItem i = some var ∧ var.fullName = name

/-- The registry of `ocoms_mca_base_var_init`. -/
def IsEmpty (s : VarRegistry D) : Prop :=
  (∃ free, s.vars.Holds [] free) ∧ ∀ name, s.indexHash name = none

lemma IsEmpty.consistent (h : s.IsEmpty) : s.Consistent := by
  obtain ⟨⟨free, hvars⟩, hhash⟩ := h
  refine ⟨⟨[], free, hvars⟩, fun name i => ?_⟩
  rw [hhash, hvars.getItem, List.getElem?_nil]
  exact ⟨(fun h => by cases h), fun ⟨_, h, _⟩ => by cases h⟩

/-- Only the names of the variables count. -/
lemma Consistent.of_names (h : s.Consistent) (hhash : s'.indexHash = s.indexHash)
    (hholds : ∃ xs free, s'.vars.Holds xs free)
    (hnames : ∀ k, (s'.vars.getItem k).map Var.fullName = (s.vars.getItem k).map Var.fullName) :
    s'.Consistent := by
  refine ⟨hholds, fun name i => ?_⟩
  have hiff := h.hash name i
  simp only [← Option.map_eq_some_iff] at hiff ⊢
  rw [hhash, hnames i]
  exact hiff

lemma Consistent.keeps (h : s.Consistent) (hkeep : s.Keeps s') : s'.Consistent := by
  obtain ⟨xs, free, hxs⟩ := h.holds
  obtain ⟨xs', hxs', -⟩ := hkeep.holds hxs
  refine h.of_names hkeep.indexHash ⟨xs', free, hxs'⟩ fun k => ?_
  have hk := congrArg (Option.map Var.fullName) (hkeep.skeleton k)
  rw [Option.map_map, Option.map_map] at hk
  exact hk

lemma Consistent.modifyVar (h : s.Consistent) (index : ℕ) {f : Var → Var}
    (hf : ∀ var, (f var).fullName = var.fullName) : (s.modifyVar index f).Consistent := by
  obtain ⟨xs, free, hxs⟩ := h.holds
  refine h.of_names rfl ⟨_, free, hxs.modifyItem index f⟩ fun k => ?_
  rw [VarRegistry.modifyVar]
  dsimp only
  rw [PointerArray.getItem_modifyItem]
  split
  · cases s.vars.getItem k with
    | none => rfl
    | some var => exact congrArg some (hf var)
  · rfl

lemma Consistent.index_unique (h : s.Consistent) {i j : ℕ} {v w : Var}
    (hv : s.vars.getItem i = some v) (hw : s.vars.getItem j = some w)
    (hname : v.fullName = w.fullName) : i = j := by
  have hi := (h.hash w.fullName i).mpr ⟨v, hv, hname⟩
  have hj := (h.hash w.fullName j).mpr ⟨w, hw, rfl⟩
  rw [hi] at hj
  exact Option.some.inj hj

lemma varGet_false (hvar : s.vars.getItem index = some var) :
    s.varGet index false = .ok (index, var) := by
  rw [varGet, hvar]
  dsimp only
  rw [Bool.and_false, if_neg Bool.false_ne_true]

/-- The variable with the index has the name, and is valid. -/
def Registered (s : VarRegistry D) (name : CString) (index : ℕ) : Prop :=
  ∃ var, s.vars.getItem index = some var ∧ var.fullName = name ∧ var.flags.valid = true

lemma Consistent.findByName (h : s.Consistent) {name : CString} (hreg : s.Registered name index) :
    s.findByName name false = .ok index := by
  obtain ⟨var, hvar, hname, hvalid⟩ := hreg
  rw [VarRegistry.findByName, (h.hash name index).mpr ⟨var, hvar, hname⟩]
  dsimp only
  rw [varGet_false hvar]
  dsimp only
  rw [hvalid, Bool.false_or, if_pos rfl]

/-! ### The effect of a registration -/

/-- What a registration under a name does to the variables that are there. The others keep their
storage. -/
def Extends (name : CString) (s s' : VarRegistry D) : Prop :=
  ∀ k var, s.vars.getItem k = some var →
    ∃ var', s'.vars.getItem k = some var' ∧ var'.fullName = var.fullName ∧
      (var.flags.valid = true → var'.flags.valid = true) ∧
      (var.fullName ≠ name → var'.storage = var.storage)

variable {name : CString}

lemma Extends.refl (name : CString) (s : VarRegistry D) : s.Extends name s :=
  fun _ var hvar => ⟨var, hvar, rfl, id, fun _ => rfl⟩

lemma Extends.trans (h : Extends name s s') (h' : Extends name s' s'') : Extends name s s'' := by
  intro k var hvar
  obtain ⟨var', hvar', hname, hvalid, hstorage⟩ := h k var hvar
  obtain ⟨var'', hvar'', hname', hvalid', hstorage'⟩ := h' k var' hvar'
  refine ⟨var'', hvar'', hname'.trans hname, fun hv => hvalid' (hvalid hv), fun hne => ?_⟩
  exact (hstorage' (hname ▸ hne)).trans (hstorage hne)

lemma Keeps.extends (h : s.Keeps s') (name : CString) : Extends name s s' := by
  intro k var hvar
  obtain ⟨var', hvar', hskel⟩ := h.getItem hvar
  refine ⟨var', hvar', Var.fullName_congr hskel, fun hvalid => ?_, fun _ => Var.storage_congr hskel⟩
  rw [Var.congr_skeleton (fun v => v.flags.valid) (fun _ => rfl) hskel]
  exact hvalid

lemma extends_modifyVar (s : VarRegistry D) (index : ℕ) {f : Var → Var}
    (hf : ∀ var, s.vars.getItem index = some var → (f var).fullName = var.fullName ∧
      (var.flags.valid = true → (f var).flags.valid = true) ∧
      (var.fullName ≠ name → (f var).storage = var.storage)) :
    Extends name s (s.modifyVar index f) := by
  intro k var hvar
  by_cases hk : index = k
  · subst hk
    exact ⟨f var, getItem_modifyVar hvar f, hf var hvar⟩
  · refine ⟨var, ?_, rfl, id, fun _ => rfl⟩
    rw [modifyVar]
    dsimp only
    rw [PointerArray.getItem_modifyItem_of_ne _ hk, hvar]

/-- A name that is new gets the next index. -/
lemma createVar_cases {xs : List Var} {free : ℕ} (h : s.vars.Holds xs free) (call : VarCall) :
    (∃ rc s', s.createVar call = (.error rc, s') ∧ s'.vars = s.vars ∧
        s'.indexHash = s.indexHash ∧ s'.memory = s.memory) ∨
      ∃ s' group free', s.createVar call = (.ok xs.length, s') ∧
        s'.vars.Holds (xs ++ [{ call.newVar group with index := xs.length }]) free' ∧
        s'.indexHash = Function.update s.indexHash call.key (some xs.length) ∧
        s'.memory = s.memory := by
  rw [createVar]
  rcases s.groups.groupRegister none call.framework call.component none with ⟨group, groups⟩
  dsimp only
  by_cases hflags : (call.isConstant && call.flags.defaultOnly && call.flags.settable) = true
  · rw [if_pos hflags]
    exact Or.inl ⟨_, _, rfl, rfl, rfl, rfl⟩
  · rw [if_neg hflags]
    rcases h.add (call.newVar group.toOption) with hadd | ⟨vars, free', hadd, hvars⟩
    · rw [hadd]
      exact Or.inl ⟨_, _, rfl, rfl, rfl, rfl⟩
    · rw [hadd]
      exact Or.inr ⟨_, group.toOption, free', rfl, hvars.modifyItem_last _, rfl, rfl⟩

/-- A variable with a new name. -/
lemma Consistent.createVar (h : s.Consistent) {call : VarCall} {r : Except Rc ℕ}
    (hnew : s.indexHash call.key = none) (hcreate : s.createVar call = (r, s')) :
    s'.Consistent ∧ Extends call.key s s' ∧
      ∀ i, r = .ok i → ∃ var, s'.vars.getItem i = some var ∧ var.fullName = call.key := by
  obtain ⟨xs, free, hxs⟩ := h.holds
  rcases createVar_cases hxs call with
    ⟨rc, s₁, hs₁, hvars, hhash, -⟩ | ⟨s₁, group, free', hs₁, hvars, hhash, -⟩
  · rw [hcreate] at hs₁
    cases hs₁
    refine ⟨h.of_names hhash ⟨xs, free, hvars ▸ hxs⟩ fun k => by rw [hvars], ?_, nofun⟩
    intro k var hvar
    exact ⟨var, hvars ▸ hvar, rfl, id, fun _ => rfl⟩
  · rw [hcreate] at hs₁
    cases hs₁
    have hget := fun i y => hvars.getItem_eq_some_iff (i := i) (y := y)
    have hfresh : ∀ (i : ℕ) (y : Var), xs[i]? = some y → y.fullName ≠ call.key := by
      intro i y hy hname
      have hsome := (h.hash call.key i).mpr ⟨y, (hxs.getItem i).trans hy, hname⟩
      rw [hnew] at hsome
      cases hsome
    refine ⟨⟨⟨_, free', hvars⟩, fun name i => ?_⟩, fun k var hvar => ?_, fun i hi => ?_⟩
    · rw [hhash]
      by_cases hname : name = call.key
      · rw [hname, Function.update_self, Option.some_inj]
        constructor
        · rintro rfl
          exact ⟨_, (hget _ _).mpr (Or.inr ⟨rfl, rfl⟩), rfl⟩
        · rintro ⟨y, hy, hkey⟩
          rcases (hget i y).mp hy with hold | ⟨hi, -⟩
          · exact absurd hkey (hfresh i y hold)
          · exact hi.symm
      · rw [Function.update_of_ne hname, h.hash name i]
        constructor
        · rintro ⟨y, hy, hy'⟩
          rw [hxs.getItem] at hy
          exact ⟨y, (hget i y).mpr (Or.inl hy), hy'⟩
        · rintro ⟨y, hy, hy'⟩
          rcases (hget i y).mp hy with hold | ⟨-, rfl⟩
          · exact ⟨y, (hxs.getItem i).trans hold, hy'⟩
          · exact absurd hy'.symm hname
    · rw [hxs.getItem] at hvar
      exact ⟨var, (hget k var).mpr (Or.inl hvar), rfl, id, fun _ => rfl⟩
    · injection hi with hi
      exact ⟨_, (hget i _).mpr (Or.inr ⟨hi.symm, rfl⟩), rfl⟩

lemma attach_extends (hvar : s.vars.getItem index = some var) {call : VarCall}
    (hname : var.fullName = call.key) : Extends call.key s (s.attach call index) := by
  have henum : Extends call.key s (s.modifyVar index fun var =>
      { var with enumerator := if var.type = .bool then some .bool else call.enumerator }) :=
    extends_modifyVar s index fun _ _ => ⟨rfl, id, fun _ => rfl⟩
  rw [attach]
  cases call.synonymFor with
  | some original =>
      exact henum.trans (extends_modifyVar _ original fun _ _ => ⟨rfl, id, fun _ => rfl⟩)
  | none =>
      refine henum.trans (extends_modifyVar _ index fun var' hvar' => ⟨rfl, id, fun hne => ?_⟩)
      rw [getItem_modifyVar hvar] at hvar'
      exact absurd (by rw [← Option.some.inj hvar']; exact hname) hne

lemma Consistent.attach (h : s.Consistent) (call : VarCall) (index : ℕ) :
    (s.attach call index).Consistent := by
  have henum : (s.modifyVar index fun var =>
      { var with enumerator := if var.type = .bool then some .bool else call.enumerator }).Consistent :=
    h.modifyVar index fun _ => rfl
  rw [VarRegistry.attach]
  cases call.synonymFor with
  | some original =>
      dsimp only
      exact henum.modifyVar original fun _ => rfl
  | none =>
      dsimp only
      exact henum.modifyVar index fun _ => rfl

lemma getItem_attach (hvar : s.vars.getItem index = some var) {call : VarCall}
    (hplain : call.synonymFor = none) :
    (s.attach call index).vars.getItem index
      = some { var with
          enumerator := if var.type = .bool then some .bool else call.enumerator
          storage := call.storage } := by
  rw [VarRegistry.attach, hplain]
  exact getItem_modifyVar (getItem_modifyVar hvar _) _

/-- A variable that is there. -/
lemma Consistent.initVar (h : s.Consistent) {call : VarCall} {r : Except Rc ℕ}
    (hvar : s.vars.getItem index = some var) (hname : var.fullName = call.key)
    (hinit : s.initVar c call index = some (r, s')) :
    s'.Consistent ∧ Extends call.key s s' ∧
      ∀ i, r = .ok i → i = index ∧ s'.Registered call.key i ∧
        (call.synonymFor = none → (s'.vars.getItem i).map Var.storage = some call.storage) := by
  obtain ⟨⟨ret, s₁⟩, hset, heq⟩ := Option.map_eq_some_iff.mp hinit
  have hkeep := keeps_of_setInitial hset
  have hext := (attach_extends hvar hname).trans (hkeep.extends call.key)
  have hcons := (h.attach call index).keeps hkeep
  cases ret with
  | error rc =>
      cases heq
      exact ⟨hcons, hext, nofun⟩
  | ok _ =>
      cases heq
      refine ⟨?_, ?_, fun i hi => ?_⟩
      · exact hcons.modifyVar index fun _ => rfl
      · exact hext.trans (extends_modifyVar _ index fun _ _ => ⟨rfl, fun _ => rfl, fun _ => rfl⟩)
      injection hi with hi
      subst hi
      obtain ⟨var', hvar', hname', -⟩ := hext index var hvar
      refine ⟨rfl, ⟨_, getItem_modifyVar hvar' _, hname'.trans hname, rfl⟩, fun hplain => ?_⟩
      have hattach := getItem_attach hvar hplain
      obtain ⟨var'', hvar'', hskel⟩ := hkeep.getItem hattach
      rw [hvar'] at hvar''
      obtain rfl := Option.some.inj hvar''
      rw [getItem_modifyVar hvar', Option.map_some]
      exact congrArg some (Var.storage_congr hskel)

/-- The lookup of a registration finds what is in the hash table. -/
lemma Consistent.varFind (h : s.Consistent) (call : VarCall) :
    s.varFind none none call.variableName true
      = match s.indexHash call.key with
        | none => .error .notFound
        | some index => .ok index := by
  rw [VarRegistry.varFind, VarRegistry.findByName, ← VarCall.key]
  cases hhash : s.indexHash call.key with
  | none => rfl
  | some index =>
      obtain ⟨var, hvar, -⟩ := (h.hash call.key index).mp hhash
      dsimp only
      rw [varGet_false hvar]
      dsimp only
      rw [Bool.true_or, if_pos rfl]

lemma eq_of_findVar {call : VarCall} {j : ℕ} (h : s.findVar call index = .ok j) : j = index := by
  rw [findVar] at h
  rcases hvar : s.varGet index false with rc | ⟨i, var⟩
  · rw [hvar] at h
    cases h
  · rw [hvar] at h
    dsimp only at h
    cases hgroup : var.groupIndex with
    | none =>
        rw [hgroup] at h
        cases h
    | some group =>
        rw [hgroup] at h
        dsimp only at h
        cases hget : s.groups.getInternal group true with
        | error rc =>
            rw [hget] at h
            cases h
        | ok g =>
            rw [hget] at h
            dsimp only at h
            split at h
            · cases h
            · injection h with h
              exact h.symm

/-- **What a registration does.** -/
lemma Consistent.registerVariable (h : s.Consistent) {call : VarCall} {r : Except Rc ℕ}
    (hreg : s.registerVariable c call = some (r, s')) :
    s'.Consistent ∧ Extends call.key s s' ∧
      ∀ i, r = .ok i → s'.Registered call.key i ∧
        (call.synonymFor = none → (s'.vars.getItem i).map Var.storage = some call.storage) := by
  rw [VarRegistry.registerVariable, h.varFind] at hreg
  cases hhash : s.indexHash call.key with
  | none =>
      rw [hhash] at hreg
      dsimp only at hreg
      rcases hcreate : s.createVar call with ⟨r₁, s₁⟩
      obtain ⟨hcons, hext, hnew⟩ := h.createVar hhash hcreate
      rw [hcreate] at hreg
      cases r₁ with
      | error rc =>
          cases hreg
          exact ⟨hcons, hext, nofun⟩
      | ok index =>
          obtain ⟨var, hvar, hname⟩ := hnew index rfl
          obtain ⟨hcons', hext', hok⟩ := hcons.initVar hvar hname hreg
          refine ⟨hcons', hext.trans hext', fun i hi => ?_⟩
          exact (hok i hi).2
  | some index =>
      rw [hhash] at hreg
      dsimp only at hreg
      cases hfind : s.findVar call index with
      | error rc =>
          rw [hfind] at hreg
          cases hreg
          exact ⟨h, .refl _ _, nofun⟩
      | ok j =>
          obtain rfl := eq_of_findVar hfind
          rw [hfind] at hreg
          obtain ⟨var, hvar, hname⟩ := (h.hash call.key j).mp hhash
          obtain ⟨hcons, hext, hok⟩ := h.initVar hvar hname hreg
          refine ⟨hcons, hext, fun i hi => ?_⟩
          exact (hok i hi).2

lemma getItem_modifyVar_of_ne (s : VarRegistry D) {i k : ℕ} (hk : k ≠ i) (f : Var → Var) :
    (s.modifyVar i f).vars.getItem k = s.vars.getItem k :=
  PointerArray.getItem_modifyItem_of_ne _ (Ne.symm hk) _

/-- **What a deregistration does**: only the variable itself changes. -/
lemma Consistent.deregister (h : s.Consistent) (i : ℕ) :
    (s.deregister i).2.Consistent ∧
      ∀ k, k ≠ i → (s.deregister i).2.vars.getItem k = s.vars.getItem k := by
  rw [VarRegistry.deregister]
  rcases s.varGet i false with rc | ⟨j, var⟩
  · exact ⟨h, fun _ _ => rfl⟩
  · dsimp only
    have hvalid : (s.modifyVar i fun var =>
        { var with flags := { var.flags with valid := false } }).Consistent :=
      h.modifyVar i fun _ => rfl
    by_cases hflag : (!var.flags.valid) = true
    · rw [if_pos hflag]
      exact ⟨h, fun _ _ => rfl⟩
    rw [if_neg hflag]
    by_cases hsyn : var.flags.synonym = true
    · rw [if_pos hsyn]
      exact ⟨hvalid, fun k hk => getItem_modifyVar_of_ne s hk _⟩
    · rw [if_neg hsyn]
      have hclear := hvalid.modifyVar i (f := fun var => { var with enumerator := none, storage := none })
        fun _ => rfl
      refine ⟨⟨hclear.holds, hclear.hash⟩, fun k hk => ?_⟩
      exact (getItem_modifyVar_of_ne _ hk _).trans (getItem_modifyVar_of_ne s hk _)

end VarRegistry

/-! ### Runs -/

/-- A call of one of the functions that register and deregister variables. -/
inductive VarOp
  | register (call : VarCall)
  | registerSynonym (synonymFor : ℕ) (syn : SynonymCall)
  | deregister (index : ℕ)

/-- The registry behind a call that returns. -/
def VarOp.run (c : VarConfig D) : VarOp → VarRegistry D → Option (VarRegistry D)
  | .register call, s => (s.register c call).map Prod.snd
  | .registerSynonym synonymFor syn, s => (s.registerSynonym c synonymFor syn).map Prod.snd
  | .deregister index, s => some (s.deregister index).2

/-- The registries that calls with a property lead to. -/
inductive VarSteps (c : VarConfig D) (P : VarOp → Prop) (s : VarRegistry D) : VarRegistry D → Prop
  | refl : VarSteps c P s s
  | step {s' s'' : VarRegistry D} {op : VarOp} :
      VarSteps c P s s' → P op → op.run c s' = some s'' → VarSteps c P s s''

/-- The registries that calls lead to from an empty one. -/
def VarRun (c : VarConfig D) (s : VarRegistry D) : Prop :=
  ∃ s₀ : VarRegistry D, s₀.IsEmpty ∧ VarSteps c (fun _ => True) s₀ s

variable {s s' s'' : VarRegistry D}

/-- **One call** keeps the registry consistent, and a registered variable registered, unless it is
the one that is deregistered. -/
lemma VarOp.run_spec {op : VarOp} (h : s.Consistent) (hrun : op.run c s = some s') :
    s'.Consistent ∧
      ∀ name i, op ≠ .deregister i → s.Registered name i → s'.Registered name i := by
  have hext : ∀ {key : CString}, VarRegistry.Extends key s s' →
      ∀ name i, s.Registered name i → s'.Registered name i := by
    rintro key hext name i ⟨var, hvar, hname, hvalid⟩
    obtain ⟨var', hvar', hname', hvalid', -⟩ := hext i var hvar
    exact ⟨var', hvar', hname'.trans hname, hvalid' hvalid⟩
  cases op with
  | register call =>
      obtain ⟨⟨r, s₁⟩, hreg, rfl⟩ := Option.map_eq_some_iff.mp hrun
      obtain ⟨hcons, hextends, -⟩ := h.registerVariable hreg
      exact ⟨hcons, fun name i _ => hext hextends name i⟩
  | registerSynonym synonymFor syn =>
      obtain ⟨⟨r, s₁⟩, hreg, rfl⟩ := Option.map_eq_some_iff.mp hrun
      rw [VarRegistry.registerSynonym] at hreg
      rcases hget : s.varGet synonymFor false with rc | ⟨j, var⟩
      · rw [hget] at hreg
        cases hreg
        exact ⟨h, fun _ _ _ => id⟩
      · rw [hget] at hreg
        dsimp only at hreg
        by_cases hsyn : var.flags.synonym = true
        · rw [if_pos hsyn] at hreg
          cases hreg
          exact ⟨h, fun _ _ _ => id⟩
        · rw [if_neg hsyn] at hreg
          obtain ⟨hcons, hextends, -⟩ := h.registerVariable hreg
          exact ⟨hcons, fun name i _ => hext hextends name i⟩
  | deregister index =>
      obtain rfl := Option.some.inj hrun
      obtain ⟨hcons, hothers⟩ := h.deregister index
      refine ⟨hcons, fun name i hne => ?_⟩
      rintro ⟨var, hvar, hname, hvalid⟩
      have hi : i ≠ index := fun hi => hne (congrArg VarOp.deregister hi.symm)
      exact ⟨var, (hothers i hi).trans hvar, hname, hvalid⟩

lemma VarSteps.consistent {P : VarOp → Prop} (hsteps : VarSteps c P s s') (h : s.Consistent) :
    s'.Consistent := by
  induction hsteps with
  | refl => exact h
  | step _ _ hrun ih => exact (VarOp.run_spec ih hrun).1

lemma VarRun.consistent (hrun : VarRun c s) : s.Consistent := by
  obtain ⟨s₀, hempty, hsteps⟩ := hrun
  exact hsteps.consistent hempty.consistent

/-- A registered variable stays registered over a run that does not deregister it. -/
lemma VarSteps.registered {name : CString} {i : ℕ}
    (hsteps : VarSteps c (· ≠ .deregister i) s s') (h : s.Consistent)
    (hreg : s.Registered name i) : s'.Registered name i := by
  induction hsteps with
  | refl => exact hreg
  | step hprev hne hrun ih => exact (VarOp.run_spec (hprev.consistent h) hrun).2 name i hne ih

/-- **The registry is consistent by the names of the variables.** A registration that succeeds with
the index `i` is found under the name of the variable as long as `i` is not deregistered. Another
registration of that name, whatever framework and component it has, returns `i` if it succeeds, and
the storage of the variable is then the one that it brings. A registration of another name neither
returns `i` nor changes the storage of the variable. -/
theorem var_registry_consistent {s₁ s₂ s₃ : VarRegistry D} {call call' : VarCall} {i : ℕ}
    {r : Except Rc ℕ} (hrun : VarRun c s) (hreg : s.register c call = some (.ok i, s₁))
    (hsteps : VarSteps c (· ≠ .deregister i) s₁ s₂)
    (hreg' : s₂.register c call' = some (r, s₃)) :
    s₂.find none none call.variableName = .ok i ∧
      (call'.key = call.key → ∀ j, r = .ok j → j = i ∧
        (s₃.vars.getItem i).map Var.storage = some call'.storage) ∧
      (call'.key ≠ call.key → r ≠ .ok i ∧
        (s₃.vars.getItem i).map Var.storage = (s₂.vars.getItem i).map Var.storage) := by
  obtain ⟨hcons₁, -, hok⟩ := hrun.consistent.registerVariable hreg
  have hcons₂ := hsteps.consistent hcons₁
  have hregistered := hsteps.registered hcons₁ (hok i rfl).1
  have hfind := hcons₂.findByName hregistered
  obtain ⟨hcons₃, hext, hok'⟩ := hcons₂.registerVariable hreg'
  obtain ⟨var, hvar, hname, -⟩ := hregistered
  obtain ⟨var', hvar', hname', -, hstorage⟩ := hext i var hvar
  refine ⟨hfind, fun hkey j hj => ?_, fun hkey => ⟨fun hr => ?_, ?_⟩⟩
  · obtain ⟨⟨w, hw, hwname, -⟩, hplain⟩ := hok' j hj
    obtain rfl : j = i := hcons₃.index_unique hw hvar'
      (hwname.trans (hkey.trans (hname.symm.trans hname'.symm)))
    exact ⟨rfl, hplain rfl⟩
  · obtain ⟨⟨w, hw, hwname, -⟩, -⟩ := hok' i hr
    rw [hvar'] at hw
    obtain rfl := Option.some.inj hw
    exact hkey (hwname.symm.trans (hname'.trans hname))
  · rw [hvar, hvar', Option.map_some, Option.map_some, hstorage]
    exact fun h => hkey (h.symm.trans hname)

/-! ### Two components with a variable of one name -/

/-- The registry of `ocoms_mca_base_var_init`, with small tables. -/
def emptyRegistry : VarRegistry Unit where
  vars := ⟨0, 2, 16384, 2, [none, none]⟩
  indexHash := fun _ => none
  count := 0
  groups := ⟨true, ⟨0, 4, 16384, 4, [none, none, none, none]⟩, fun _ => none, 0, 0⟩
  memory := fun _ => .int 0

lemma emptyRegistry_isEmpty : emptyRegistry.IsEmpty :=
  ⟨⟨2, rfl, rfl, rfl, List.cons_ne_nil _ _⟩, fun _ => rfl⟩

/-- The registration of `priority` for a component of `btl`. -/
def btlPriority (component : CString) (storage : ℕ) : VarCall where
  framework := some "btl".toList
  component := some component
  variableName := some "priority".toList
  description := none
  type := .int
  enumerator := none
  bind := 0
  flags := {}
  infoLvl := 0
  scope := .readonly
  synonymFor := none
  storage := some storage

/-- The registry with `btl_tcp_priority`. -/
def tcpRegistry : VarRegistry Unit :=
  ((emptyRegistry.register (withEnv []) (btlPriority "tcp".toList 0)).map Prod.snd).getD emptyRegistry

lemma register_tcp :
    emptyRegistry.register (withEnv []) (btlPriority "tcp".toList 0) = some (.ok 0, tcpRegistry) := by
  rfl

/-- The registry with `btl_self_priority` too. -/
def selfRegistry : VarRegistry Unit :=
  ((tcpRegistry.register (withEnv []) (btlPriority "self".toList 1)).map Prod.snd).getD tcpRegistry

lemma register_self :
    tcpRegistry.register (withEnv []) (btlPriority "self".toList 1) = some (.ok 0, selfRegistry) := by
  rfl

theorem var_registry_consistent_tcp :
    tcpRegistry.find none none (some "priority".toList) = .ok 0 ∧
      (selfRegistry.vars.getItem 0).map Var.storage = some (some 1) := by
  have hrun : VarRun (withEnv []) emptyRegistry := ⟨_, emptyRegistry_isEmpty, .refl⟩
  have hboth := var_registry_consistent hrun register_tcp .refl register_self
  exact ⟨hboth.1, (hboth.2.1 rfl 0 rfl).2⟩

/-- **Two components share one variable**: the second registration returns the index of the first,
and its storage takes the place of the first one's. -/
theorem two_components_share_priority :
    (btlPriority "tcp".toList 0).component ≠ (btlPriority "self".toList 1).component ∧
      (∃ s₁ s₂, emptyRegistry.register (withEnv []) (btlPriority "tcp".toList 0)
          = some (.ok 0, s₁) ∧
        s₁.register (withEnv []) (btlPriority "self".toList 1) = some (.ok 0, s₂) ∧
        (s₁.vars.getItem 0).map Var.storage = some (some 0) ∧
        (s₂.vars.getItem 0).map Var.storage = some (some 1)) := by
  refine ⟨by decide, tcpRegistry, selfRegistry, register_tcp, register_self, rfl, rfl⟩

end Ocoms
