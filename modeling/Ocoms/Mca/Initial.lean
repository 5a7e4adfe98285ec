import Ocoms.Mca.Var

/-!
What `var_set_initial` does to a variable, and the way of a source through the environment.

* `Var.skeleton` is what a lookup leaves as it is.
* `VarConfig.initial` is `var_set_initial` without the registry: `setInitial_of_not_synonym` says so.
* `source_survives_iff` says which sources a child process records again from the environment that
  its parent has built.
-/

namespace Ocoms

/-- A variable without its source, and without the flags that go with the override file. -/
def Var.skeleton (var : Var) : Var :=
  { var with
    source := .default
    sourceFile := none
    flags := { var.flags with settable := false, override := false } }

variable {D : Type*} {c : VarConfig D} {var : Var}

@[simp]
lemma Var.skeleton_overridden (var : Var) : var.overridden.skeleton = var.skeleton := rfl

/-- What does not depend on more than the skeleton. -/
lemma Var.congr_skeleton {β : Type*} {v w : Var} (f : Var → β) (hf : ∀ v, f v.skeleton = f v)
    (h : v.skeleton = w.skeleton) : f v = f w := by
  rw [← hf v, h, hf w]

lemma Var.fullName_congr {v w : Var} (h : v.skeleton = w.skeleton) : v.fullName = w.fullName :=
  congr_skeleton fullName (fun _ => rfl) h

lemma Var.longName_congr {v w : Var} (h : v.skeleton = w.skeleton) : v.longName = w.longName :=
  congr_skeleton longName (fun _ => rfl) h

lemma Var.storage_congr {v w : Var} (h : v.skeleton = w.skeleton) : v.storage = w.storage :=
  congr_skeleton storage (fun _ => rfl) h

lemma Var.synonym_congr {v w : Var} (h : v.skeleton = w.skeleton) :
    v.flags.synonym = w.flags.synonym :=
  congr_skeleton (fun v => v.flags.synonym) (fun _ => rfl) h

/-! ### Lookups -/

lemma VarConfig.read_var {src : Option CString} {found : Lookup D}
    (h : c.read var src = some found) : found.var = var := by
  obtain ⟨r, -, rfl⟩ := Option.map_eq_some_iff.mp h
  cases r <;> rfl

lemma VarConfig.fromEnv_skeleton {fullName : CString} {found : Lookup D}
    (h : c.fromEnv fullName var = some found) : found.var.skeleton = var.skeleton := by
  rw [fromEnv] at h
  cases hvalue : c.getenv (valueName fullName) with
  | none =>
      rw [hvalue] at h
      exact congrArg _ (congrArg Lookup.var (Option.some.inj h).symm)
  | some value =>
      rw [hvalue] at h
      dsimp only at h
      split_ifs at h with hdefault hoverride
      · exact congrArg _ (congrArg Lookup.var (Option.some.inj h).symm)
      · exact congrArg _ (congrArg Lookup.var (Option.some.inj h).symm)
      · rw [read_var h]
        rfl

lemma VarConfig.fromFile_skeleton {values : List FileValue} {fullName longName : CString}
    {found : Lookup D} (h : c.fromFile values fullName longName var = some found) :
    found.var.skeleton = var.skeleton := by
  rw [fromFile] at h
  cases hvalue : values.find? (FileValue.isFor fullName longName) with
  | none =>
      rw [hvalue] at h
      exact congrArg _ (congrArg Lookup.var (Option.some.inj h).symm)
  | some fv =>
      rw [hvalue] at h
      dsimp only at h
      split_ifs at h with hdefault henv hoverride
      · exact congrArg _ (congrArg Lookup.var (Option.some.inj h).symm)
      · exact congrArg _ (congrArg Lookup.var (Option.some.inj h).symm)
      · exact congrArg _ (congrArg Lookup.var (Option.some.inj h).symm)
      · rw [read_var h]
        rfl

/-- Nothing was found, which is no error of `var_set_initial`. -/
def Lookup.settle (found : Lookup D) : Lookup D :=
  if found.code = .error .notFound then { found with code := .ok () } else found

@[simp]
lemma Lookup.settle_var (found : Lookup D) : found.settle.var = found.var := by
  rw [settle]
  split <;> rfl

/-- `var_set_initial` for a variable that is no synonym, without the registry. -/
def VarConfig.initial (c : VarConfig D) (var : Var) : Option (Lookup D) := do
  let found ← c.fromFile c.overrideValues var.fullName var.longName { var with source := .default }
  let var₁ := if found.code = .ok () then found.var.overridden else found.var
  let found₁ ← c.fromEnv var.fullName var₁
  let stored := found₁.stored.orElse fun _ => found.stored
  if found₁.code ≠ .error .notFound then some { found₁ with stored := stored }
  else
    let found₂ ← c.fromFile c.fileValues var.fullName var.longName found₁.var
    some (Lookup.settle { found₂ with stored := found₂.stored.orElse fun _ => stored })

namespace VarRegistry

variable {s : VarRegistry D} {index : ℕ}

/-! ### The registry behind a lookup -/

lemma lookUp_of_not_synonym (hvar : s.vars.getItem index = some var)
    (hsyn : var.flags.synonym = false) (bound : VarSource)
    (look : Var → Var → Option (Lookup D)) :
    s.lookUp index bound look
      = (look var var).map fun found => (found.code, s.record index found) := by
  have htarget : s.target index var = .ok (index, var) := by
    rw [target, hsyn, if_neg Bool.false_ne_true]
  rw [lookUp, hvar]
  dsimp only
  rw [htarget]
  dsimp only
  rw [hsyn, if_neg fun h => Bool.false_ne_true h.1]

lemma getItem_record (hvar : s.vars.getItem index = some var) (found : Lookup D) :
    (s.record index found).vars.getItem index = some found.var :=
  PointerArray.getItem_modifyItem_self hvar _

lemma getItem_modifyVar (hvar : s.vars.getItem index = some var) (f : Var → Var) :
    (s.modifyVar index f).vars.getItem index = some (f var) :=
  PointerArray.getItem_modifyItem_self hvar _

lemma modifyVar_modifyVar (s : VarRegistry D) (index : ℕ) (f g : Var → Var) :
    (s.modifyVar index f).modifyVar index g = s.modifyVar index (g ∘ f) := by
  rw [modifyVar, modifyVar, modifyVar, PointerArray.modifyItem_modifyItem]

lemma record_modifyVar (s : VarRegistry D) (index : ℕ) (f : Var → Var) (found : Lookup D) :
    (s.modifyVar index f).record index found = s.record index found := by
  rw [record, modifyVar_modifyVar]
  rfl

lemma modifyVar_record (s : VarRegistry D) (index : ℕ) (found : Lookup D) (f : Var → Var)
    (hf : (f found.var).storage = found.var.storage) :
    (s.record index found).modifyVar index f
      = s.record index { found with var := f found.var } := by
  have hvars : ((s.modifyVar index fun _ => found.var).modifyVar index f)
      = s.modifyVar index fun _ => f found.var := modifyVar_modifyVar _ _ _ _
  have hwrite : found.write s.memory = Lookup.write { found with var := f found.var } s.memory := by
    rw [Lookup.write, Lookup.write, hf]
  rw [record, record, ← hvars, ← hwrite]
  rfl

/-- Two lookups in a row. -/
lemma record_record (s : VarRegistry D) (index : ℕ) (found found' : Lookup D)
    (h : found'.var.storage = found.var.storage) :
    (s.record index found).record index found'
      = s.record index { found' with stored := found'.stored.orElse fun _ => found.stored } := by
  have hvars : ((s.modifyVar index fun _ => found.var).modifyVar index fun _ => found'.var)
      = s.modifyVar index fun _ => found'.var := modifyVar_modifyVar _ _ _ _
  have hwrite : found'.write (found.write s.memory)
      = Lookup.write { found' with stored := found'.stored.orElse fun _ => found.stored }
          s.memory := by
    rw [Lookup.write, Lookup.write, Lookup.write, h]
    rcases found.var.storage with _ | address
    · rfl
    · rcases found'.stored with _ | value
      · rfl
      · rcases found.stored with _ | value'
        · rfl
        · exact Function.update_idem _ _ _
  rw [record, record, record, ← hvars, ← hwrite]
  rfl

lemma setFromFile_of_not_synonym {values : List FileValue}
    (hvar : s.vars.getItem index = some var) (hsyn : var.flags.synonym = false) :
    s.setFromFile c values index
      = (c.fromFile values var.fullName var.longName var).map fun found =>
          (found.code, s.record index found) :=
  lookUp_of_not_synonym hvar hsyn _ _

lemma setFromEnv_of_not_synonym (hvar : s.vars.getItem index = some var)
    (hsyn : var.flags.synonym = false) :
    s.setFromEnv c index
      = (c.fromEnv var.fullName var).map fun found => (found.code, s.record index found) :=
  lookUp_of_not_synonym hvar hsyn _ _

/-- **`var_set_initial` without the registry.** -/
lemma setInitial_of_not_synonym (c : VarConfig D) (hvar : s.vars.getItem index = some var)
    (hsyn : var.flags.synonym = false) :
    s.setInitial c index
      = (c.initial var).map fun found => (found.code, s.record index found) := by
  have hvar₀ := getItem_modifyVar hvar fun var => { var with source := .default }
  rw [setInitial, VarConfig.initial]
  dsimp only [bind]
  rw [setFromFile_of_not_synonym hvar₀ hsyn]
  cases hfile : c.fromFile c.overrideValues var.fullName var.longName
      { var with source := .default } with
  | none => rfl
  | some found =>
      have hkeep : found.var.skeleton = var.skeleton :=
        (VarConfig.fromFile_skeleton hfile).trans rfl
      rw [Option.map_some, Option.bind_some, Option.bind_some, record_modifyVar]
      dsimp only
      obtain ⟨var₁, hvar₁⟩ : ∃ var₁,
          var₁ = if found.code = .ok () then found.var.overridden else found.var := ⟨_, rfl⟩
      have hkeep₁ : var₁.skeleton = var.skeleton := by
        rw [hvar₁, ← hkeep]
        split <;> rfl
      have hstate : (if found.code = .ok () then (s.record index found).modifyVar index Var.overridden
          else s.record index found) = s.record index { found with var := var₁ } := by
        rw [hvar₁]
        split
        · exact modifyVar_record s index found _ rfl
        · rfl
      have hget₁ := getItem_record hvar { found with var := var₁ }
      have hsyn₁ : var₁.flags.synonym = false := (Var.synonym_congr hkeep₁).trans hsyn
      rw [hstate, ← hvar₁, setFromEnv_of_not_synonym hget₁ hsyn₁, Var.fullName_congr hkeep₁]
      cases henv : c.fromEnv var.fullName var₁ with
      | none => rfl
      | some found₁ =>
          have hstep := VarConfig.fromEnv_skeleton henv
          have hkeep₂ := hstep.trans hkeep₁
          rw [Option.map_some, Option.bind_some, Option.bind_some]
          dsimp only
          rw [record_record s index _ found₁ (Var.storage_congr hstep)]
          by_cases hcode : found₁.code = .error .notFound
          · have hget₂ := getItem_record hvar
              { found₁ with stored := found₁.stored.orElse fun _ => found.stored }
            have hsyn₂ : found₁.var.flags.synonym = false := (Var.synonym_congr hkeep₂).trans hsyn
            rw [if_neg (not_not.mpr hcode), if_neg (not_not.mpr hcode),
              setFromFile_of_not_synonym hget₂ hsyn₂]
            dsimp only
            rw [Var.fullName_congr hkeep₂, Var.longName_congr hkeep₂]
            cases hlast : c.fromFile c.fileValues var.fullName var.longName found₁.var with
            | none => rfl
            | some found₂ =>
                have hstep₂ := VarConfig.fromFile_skeleton hlast
                rw [Option.map_some, Option.bind_some, Option.bind_some]
                dsimp only
                rw [record_record s index
                  { found₁ with stored := found₁.stored.orElse fun _ => found.stored } found₂
                  (Var.storage_congr hstep₂), Option.map_some, Lookup.settle]
                by_cases hend : found₂.code = .error .notFound
                · rw [if_neg (not_not.mpr hend), if_pos hend]
                  rfl
                · rw [if_pos hend, if_neg hend]
          · rw [if_pos hcode, if_pos hcode]
            rfl

end VarRegistry

/-! ### The source of a value in the environment of a child -/

/-- The environment entry with the source of a variable that `ocoms_mca_base_var_build_env` writes,
if it writes one. -/
def Var.sourceEntry (var : Var) : Option CString :=
  match var.source with
  | .file => some ("FILE:".toList ++ var.sourceFile.getD "(null)".toList)
  | .override => some ("FILE:".toList ++ var.sourceFile.getD "(null)".toList)
  | .commandLine => some "COMMAND_LINE".toList
  | _ => none

/-- `var_value_string`, for a variable. -/
def VarRegistry.varValueString (c : VarConfig D) (s : VarRegistry D) (var : Var) :
    Except Rc CString :=
  match s.varGet var.index true with
  | .error rc => .error rc
  | .ok (_, original) =>
      if !original.flags.valid then .error .badParam
      else
        match original.storage with
        | none => .error .error
        | some address => (s.memory address).valueString c.toPlatform var.enumerator

/-- The value is a string that is `NULL`. -/
def VarValue.isNull : VarValue D → Bool
  | .string none => true
  | _ => false

/-- The environment entries that `ocoms_mca_base_var_build_env` writes for a variable. -/
def VarRegistry.envEntries (c : VarConfig D) (s : VarRegistry D) (var : Var) (internal : Bool) :
    Except Rc (List (CString × CString)) :=
  if var.source = .default ∨ (!internal ∧ var.flags.internal) then .ok []
  else if var.type = .string ∧ (var.storage.map s.memory).any VarValue.isNull then .ok []
  else
    match s.varValueString c var with
    | .error rc => .error rc
    | .ok text =>
        .ok ((valueName var.fullName, text) ::
          (var.sourceEntry.map fun source => (sourceName var.fullName, source)).toList)

lemma valueName_ne_sourceName (fullName : CString) : valueName fullName ≠ sourceName fullName := by
  intro h
  have hlen := congrArg List.length h
  rw [valueName, sourceName, List.length_append, List.length_append, List.length_append] at hlen
  have hseven : "SOURCE_".toList.length = 7 := rfl
  omega

/-- What the entries are. -/
lemma VarRegistry.lookup_envEntries {c : VarConfig D} {s : VarRegistry D} {var : Var}
    {internal : Bool} {entries : List (CString × CString)}
    (hentries : s.envEntries c var internal = .ok entries) (hne : entries ≠ []) :
    (∃ text, entries.lookup (valueName var.fullName) = some text) ∧
      entries.lookup (sourceName var.fullName) = var.sourceEntry := by
  rw [envEntries] at hentries
  by_cases hskip : var.source = .default ∨ (!internal ∧ var.flags.internal)
  · rw [if_pos hskip] at hentries
    injection hentries with hnil
    exact absurd hnil.symm hne
  rw [if_neg hskip] at hentries
  by_cases hnull : var.type = .string ∧ (var.storage.map s.memory).any VarValue.isNull
  · rw [if_pos hnull] at hentries
    injection hentries with hnil
    exact absurd hnil.symm hne
  rw [if_neg hnull] at hentries
  cases hvalue : s.varValueString c var with
  | error rc =>
      rw [hvalue] at hentries
      cases hentries
  | ok text =>
      rw [hvalue] at hentries
      injection hentries with hentries
      rw [← hentries]
      have hname : (sourceName var.fullName == valueName var.fullName) = false :=
        beq_eq_false_iff_ne.mpr (valueName_ne_sourceName var.fullName).symm
      refine ⟨⟨text, by rw [List.lookup_cons_self]⟩, ?_⟩
      rw [List.lookup_cons, hname]
      cases var.sourceEntry with
      | none => rfl
      | some source =>
          rw [Option.map_some, Option.toList_some, List.lookup_cons_self]

/-! ### A variable that only the environment has a value for -/

lemma VarConfig.fromFile_of_none {values : List FileValue} {fullName longName : CString}
    (h : values.find? (FileValue.isFor fullName longName) = none) (var : Var) :
    c.fromFile values fullName longName var = some ⟨.error .notFound, var, none⟩ := by
  rw [fromFile, h]

/-- `var_set_initial` without an entry in a file. -/
lemma VarConfig.initial_of_no_file
    (hoverride : c.overrideValues.find? (FileValue.isFor var.fullName var.longName) = none)
    (hfile : c.fileValues.find? (FileValue.isFor var.fullName var.longName) = none) :
    c.initial var
      = (c.fromEnv var.fullName { var with source := .default }).map Lookup.settle := by
  rw [initial, fromFile_of_none hoverride]
  dsimp only [bind]
  rw [Option.bind_some, if_neg nofun]
  cases henv : c.fromEnv var.fullName { var with source := .default } with
  | none => rfl
  | some found =>
      have hstored : (found.stored.orElse fun _ => none) = found.stored := by
        cases found.stored <;> rfl
      rw [Option.bind_some, Option.map_some, hstored]
      by_cases hcode : found.code = .error .notFound
      · rw [if_neg (not_not.mpr hcode), fromFile_of_none hfile, Option.bind_some, Lookup.settle,
          Lookup.settle, if_pos hcode, if_pos rfl]
        rfl
      · rw [if_pos hcode, Lookup.settle, if_neg hcode]

lemma VarConfig.exists_read_iff {src : Option CString} :
    (∃ found, c.read var src = some found) ↔
      setFromString c.toPlatform var.type var.enumerator src ≠ none := by
  rw [read]
  cases setFromString c.toPlatform var.type var.enumerator src with
  | none => exact iff_of_false (fun ⟨_, h⟩ => by cases h) (fun h => h rfl)
  | some r => exact iff_of_true ⟨_, rfl⟩ nofun

/-- The variable with the source that the environment says. -/
def VarConfig.sourced (c : VarConfig D) (var : Var) : Var :=
  let decoded := decodeSource c.overrideFile (c.getenv (sourceName var.fullName))
  { var with source := decoded.1, sourceFile := decoded.2.orElse fun _ => var.sourceFile }

/-- `var_set_initial` with an entry in the environment only. -/
lemma VarConfig.initial_of_env {text : CString}
    (hoverride : c.overrideValues.find? (FileValue.isFor var.fullName var.longName) = none)
    (hfile : c.fileValues.find? (FileValue.isFor var.fullName var.longName) = none)
    (htext : c.getenv (valueName var.fullName) = some text) :
    c.initial var
      = (if var.flags.defaultOnly then
            some ⟨.error .notFound, { var with source := .default }, none⟩
          else c.read (c.sourced var) (some text)).map Lookup.settle := by
  rw [initial_of_no_file hoverride hfile, fromEnv, htext]
  rfl

/-- **The source of a variable survives.** It came from the environment, or from a file that has a
name and is not the override file, or from the override file. -/
def Var.SourceSurvives (overrideFile : CString) (var : Var) : Prop :=
  match var.source with
  | .env => True
  | .file => ∃ file, var.sourceFile = some file ∧ file ≠ overrideFile
  | .override => var.sourceFile = some overrideFile
  | _ => False

lemma decodeSource_file (overrideFile file : CString) :
    decodeSource overrideFile (some ("FILE:".toList ++ file))
      = (if file = overrideFile then .override else .file, some file) := by
  have hcase : strncaseeq 5 ("FILE:".toList ++ file) "file:".toList = true := by
    have htake : ("FILE:".toList ++ file).take 5 = "FILE:".toList := rfl
    rw [strncaseeq, htake]
    decide
  have hdrop : ("FILE:".toList ++ file).drop 5 = file := rfl
  rw [decodeSource, if_pos hcase, hdrop]

/-- A source that is a file comes with the name of the file. -/
lemma decodeSource_orElse {overrideFile : CString} {entry : Option CString}
    (h : (decodeSource overrideFile entry).1 = .file ∨ (decodeSource overrideFile entry).1 = .override)
    (file : Option CString) :
    ((decodeSource overrideFile entry).2.orElse fun _ => file)
      = (decodeSource overrideFile entry).2 := by
  cases entry with
  | none => rcases h with h | h <;> cases h
  | some source =>
      rw [decodeSource] at h ⊢
      by_cases hfile : strncaseeq 5 source "file:".toList = true
      · rw [if_pos hfile]
        rfl
      rw [if_neg hfile] at h
      by_cases hcommand : strcaseeq source "command".toList = true
      · rw [if_pos hcommand] at h
        rcases h with h | h <;> cases h
      · rw [if_neg hcommand] at h
        rcases h with h | h <;> cases h

/-- What a child decodes from the entry of its parent. -/
lemma Var.decodeSource_sourceEntry_iff {overrideFile : CString} {var : Var}
    (hsource : var.source ≠ .default ∧ var.source ≠ .set) :
    ((decodeSource overrideFile var.sourceEntry).1 = var.source ∧
        (var.source = .file ∨ var.source = .override →
          (decodeSource overrideFile var.sourceEntry).2 = var.sourceFile)) ↔
      var.SourceSurvives overrideFile := by
  rw [SourceSurvives, sourceEntry]
  cases hkind : var.source with
  | default => exact absurd hkind hsource.1
  | set => exact absurd hkind hsource.2
  | commandLine =>
      have hdecode : (decodeSource overrideFile (some "COMMAND_LINE".toList)).1 = .env := by
        rw [decodeSource, if_neg (by decide), if_neg (by decide)]
      refine iff_of_false (fun h => ?_) id
      rw [hdecode] at h
      cases h.1
  | env => exact iff_of_true ⟨rfl, fun h => by rcases h with h | h <;> cases h⟩ trivial
  | file =>
      dsimp only
      rw [decodeSource_file]
      cases hfile : var.sourceFile with
      | none =>
          refine iff_of_false (fun h => ?_) fun ⟨_, h, _⟩ => by cases h
          cases h.2 (Or.inl rfl)
      | some file =>
          by_cases heq : file = overrideFile
          · refine iff_of_false (fun h => ?_) fun ⟨_, h, hne⟩ => hne (Option.some.inj h ▸ heq)
            rw [Option.getD_some, if_pos heq] at h
            cases h.1
          · refine iff_of_true ⟨?_, fun _ => rfl⟩ ⟨file, rfl, heq⟩
            rw [Option.getD_some, if_neg heq]
  | override =>
      dsimp only
      rw [decodeSource_file]
      cases hfile : var.sourceFile with
      | none =>
          refine iff_of_false (fun h => ?_) nofun
          cases h.2 (Or.inr rfl)
      | some file =>
          rw [Option.getD_some]
          by_cases heq : file = overrideFile
          · refine iff_of_true ⟨?_, fun _ => rfl⟩ (congrArg some heq)
            rw [if_pos heq]
          · refine iff_of_false (fun h => ?_) (mt Option.some.inj heq)
            rw [if_neg heq] at h
            cases h.1

/-- The state of a child in which a variable is looked up: the variable is no synonym, has no entry
in a file, and the environment has what the parent has written for it. -/
structure Inherits (parent child : VarConfig D) (s : VarRegistry D) (var : Var) (internal : Bool)
    (t : VarRegistry D) (index : ℕ) (childVar : Var) : Prop where
  get : t.vars.getItem index = some childVar
  fullName : childVar.fullName = var.fullName
  synonym : childVar.flags.synonym = false
  override : child.overrideValues.find? (FileValue.isFor childVar.fullName childVar.longName) = none
  file : child.fileValues.find? (FileValue.isFor childVar.fullName childVar.longName) = none
  env : ∃ entries, s.envEntries parent var internal = .ok entries ∧ entries ≠ [] ∧
    ∀ name, name = valueName var.fullName ∨ name = sourceName var.fullName →
      child.getenv name = entries.lookup name

/-- **Which sources survive the environment.** A variable has a source other than a default or a set
value, and its parent has written entries for it. The child's `var_set_initial` records the same
source, and the same file, if and only if the source survives, the variable takes values from the
environment at all, and reading the text of the value ends. -/
theorem source_survives_iff {parent child : VarConfig D} {s t : VarRegistry D} {var childVar : Var}
    {internal : Bool} {index : ℕ}
    (h : Inherits parent child s var internal t index childVar)
    (hsource : var.source ≠ .default ∧ var.source ≠ .set) :
    (∃ ret t' v, t.setInitial child index = some (ret, t') ∧ t'.vars.getItem index = some v ∧
        v.source = var.source ∧
        (var.source = .file ∨ var.source = .override → v.sourceFile = var.sourceFile)) ↔
      var.SourceSurvives child.overrideFile ∧ childVar.flags.defaultOnly = false ∧
        setFromString child.toPlatform childVar.type childVar.enumerator
          (child.getenv (valueName var.fullName)) ≠ none := by
  obtain ⟨entries, hentries, hne, hchild⟩ := h.env
  obtain ⟨⟨text, htext⟩, hentry⟩ := VarRegistry.lookup_envEntries hentries hne
  rw [← hchild _ (Or.inl rfl), ← h.fullName] at htext
  rw [← hchild _ (Or.inr rfl), ← h.fullName] at hentry
  rw [VarRegistry.setInitial_of_not_synonym child h.get h.synonym,
    VarConfig.initial_of_env h.override h.file htext, ← h.fullName, htext,
    ← Var.decodeSource_sourceEntry_iff hsource, ← hentry]
  -- what is recorded is what is found
  have hrecord : ∀ {found : Lookup D} {ret : Except Rc Unit} {t' : VarRegistry D} {v : Var},
      (some found.settle).map (fun found => (found.code, t.record index found)) = some (ret, t') →
        t'.vars.getItem index = some v → v = found.var := by
    intro found ret t' v hret hv
    have ht := congrArg Prod.snd (Option.some.inj hret)
    dsimp only at ht
    rw [← ht, VarRegistry.getItem_record h.get] at hv
    rw [← Option.some.inj hv, Lookup.settle_var]
  cases hdefault : childVar.flags.defaultOnly with
  | true =>
      rw [if_pos rfl]
      refine iff_of_false ?_ nofun
      rintro ⟨ret, t', v, hret, hv, hkind, -⟩
      rw [hrecord hret hv] at hkind
      exact hsource.1 hkind.symm
  | false =>
      have hreads : (∃ found, child.read (child.sourced childVar) (some text) = some found) ↔
          setFromString child.toPlatform childVar.type childVar.enumerator (some text) ≠ none :=
        VarConfig.exists_read_iff
      rw [if_neg Bool.false_ne_true, and_iff_right rfl, ← hreads]
      constructor
      · rintro ⟨ret, t', v, hret, hv, hkind, hpath⟩
        cases hfound : child.read (child.sourced childVar) (some text) with
        | none =>
            rw [hfound] at hret
            cases hret
        | some found =>
            rw [hfound] at hret
            have hv' : v = child.sourced childVar :=
              (hrecord hret hv).trans (VarConfig.read_var hfound)
            rw [hv'] at hkind hpath
            refine ⟨⟨hkind, fun hfile => ?_⟩, found, rfl⟩
            rw [← hpath hfile]
            rw [← hkind] at hfile
            exact (decodeSource_orElse hfile _).symm
      · rintro ⟨⟨hkind, hpath⟩, found, hfound⟩
        have hvar := VarConfig.read_var hfound
        rw [hfound]
        refine ⟨_, _, found.var, rfl, ?_, ?_, fun hfile => ?_⟩
        · rw [VarRegistry.getItem_record h.get, Lookup.settle_var]
        · rw [hvar]
          exact hkind
        · rw [hvar]
          refine Eq.trans ?_ (hpath hfile)
          rw [← hkind] at hfile
          exact decodeSource_orElse hfile _

/-! ### A variable from the environment, and one from the command line -/

/-- A variable of the type `int` at the address 0. -/
def priority (source : VarSource) : Var where
  index := 0
  groupIndex := none
  infoLvl := 0
  type := .int
  variableName := some "priority".toList
  fullName := "priority".toList
  longName := "priority".toList
  synonyms := []
  flags := { valid := true }
  scope := .readonly
  source := source
  synonymFor := none
  description := none
  sourceFile := none
  enumerator := none
  bind := 0
  storage := some 0

/-- A registry with one variable, whose value is 5. -/
def oneVar (var : Var) : VarRegistry Unit where
  vars := ⟨1, 0, 16384, 1, [some var]⟩
  indexHash := fun _ => none
  count := 1
  groups := ⟨true, ⟨0, 1, 16384, 1, [none]⟩, fun _ => none, 0, 0⟩
  memory := fun _ => .int 5

/-- A process with these entries in the environment, and no parameter files. -/
def withEnv (entries : List (CString × CString)) : VarConfig Unit where
  home := none
  strtod := fun _ => ()
  formatDouble := fun _ => []
  getenv := fun name => entries.lookup name
  overrideFile := "override.conf".toList
  overrideValues := []
  fileValues := []

/-- The entries of the variable. -/
lemma envEntries_priority {source : VarSource} (hsource : source ≠ .default) :
    (oneVar (priority source)).envEntries (withEnv []) (priority source) true
      = .ok ((valueName "priority".toList, ['5']) ::
          ((priority source).sourceEntry.map fun entry =>
            (sourceName "priority".toList, entry)).toList) := by
  rw [VarRegistry.envEntries, if_neg (by rintro (h | h); exacts [hsource h, absurd h.1 (by decide)]),
    if_neg (by rintro ⟨h, -⟩; cases h)]
  rfl

theorem source_survives_from_env :
    ∃ ret t' v, (oneVar (priority .default)).setInitial
          (withEnv [(valueName "priority".toList, ['5'])]) 0 = some (ret, t') ∧
        t'.vars.getItem 0 = some v ∧ v.source = .env ∧
        (VarSource.env = .file ∨ VarSource.env = .override → v.sourceFile = none) := by
  have hchild : Inherits (withEnv []) (withEnv [(valueName "priority".toList, ['5'])])
      (oneVar (priority .env)) (priority .env) true (oneVar (priority .default)) 0
      (priority .default) :=
    ⟨rfl, rfl, rfl, rfl, rfl, _, envEntries_priority nofun, List.cons_ne_nil _ _, fun _ _ => rfl⟩
  exact (source_survives_iff hchild ⟨nofun, nofun⟩).mpr ⟨trivial, rfl, nofun⟩

/-- **A value from the command line comes from the environment in the child.** -/
theorem source_of_command_line_is_lost :
    ∃ entries,
      (oneVar (priority .commandLine)).envEntries (withEnv []) (priority .commandLine) true
        = .ok entries ∧
      ((((oneVar (priority .default)).setInitial (withEnv entries) 0).bind
          fun r => r.2.vars.getItem 0).map Var.source) = some .env :=
  ⟨_, envEntries_priority nofun, rfl⟩

end Ocoms
