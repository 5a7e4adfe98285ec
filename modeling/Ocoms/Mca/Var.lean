import Ocoms.Mca.VarValue

/-!
The registry of MCA variables: `mca_base_var.c`.

* A pointer to a variable is its index in the array. The storage of a variable is an address of the
  caller's memory, `VarRegistry.memory`.
* `VarRegistry.setInitial` looks for a value in the override file, the environment and the parameter
  files. A lookup that does not return (see `setString`) is `none`.
* `VarRegistry.registerVariable` finds or creates the variable, and looks for its initial value.
* `VarRegistry.find` looks for the composed name, where the registration looks for the name of the
  variable alone.
-/

namespace Ocoms

/-- `ocoms_mca_base_var_source_t`. -/
inductive VarSource
  | default
  | commandLine
  | env
  | file
  | set
  | override
  deriving DecidableEq, Repr

/-- The number of a source. -/
def VarSource.toNat : VarSource → ℕ
  | default => 0
  | commandLine => 1
  | env => 2
  | file => 3
  | set => 4
  | override => 5

/-- `ocoms_mca_base_var_scope_t`. -/
inductive VarScope
  | constant
  | readonly
  | localTo
  | group
  | groupEq
  | all
  | allEq
  deriving DecidableEq

/-- `ocoms_mca_base_var_flag_t`, the flags of a caller. -/
structure VarCallFlags where
  internal : Bool := false
  defaultOnly : Bool := false
  settable : Bool := false
  deprecated : Bool := false
  override : Bool := false
  environmentOnly : Bool := false
  dwg : Bool := false
  deriving DecidableEq

/-- The flags of a variable, with the internal ones. -/
structure VarFlags extends VarCallFlags where
  valid : Bool := false
  synonym : Bool := false
  deriving DecidableEq

/-- `ocoms_mca_base_var_t`. -/
structure Var where
  index : ℕ
  groupIndex : Option ℕ
  infoLvl : ℕ
  type : VarType
  variableName : Option CString
  fullName : CString
  longName : CString
  synonyms : List ℕ
  flags : VarFlags
  scope : VarScope
  source : VarSource
  synonymFor : Option ℕ
  description : Option CString
  sourceFile : Option CString
  enumerator : Option VarEnum
  bind : ℤ
  storage : Option ℕ
  deriving DecidableEq

/-- `ocoms_mca_base_var_file_value_t`. -/
structure FileValue where
  var : CString
  value : Option CString
  file : Option CString

/-- What `var_set_initial` writes to the variable when the override file has a value. -/
def Var.overridden (var : Var) : Var :=
  { var with flags := { var.flags with settable := false, override := true }, source := .override }

variable {D : Type*}

/-- What is looked up: the environment, the path of the override file, and the entries that were read
from it and from the parameter files. -/
structure VarConfig (D : Type*) extends Platform D where
  getenv : CString → Option CString
  overrideFile : CString
  overrideValues : List FileValue
  fileValues : List FileValue

/-- The registered variables, the groups, and the storage of the variables. -/
structure VarRegistry (D : Type*) where
  vars : PointerArray Var
  indexHash : IndexHash
  count : ℕ
  groups : VarGroups
  memory : ℕ → VarValue D

/-- `mca_prefix`. -/
def mcaPrefix : CString := "OMPI_MCA_".toList

/-- The name of the environment entry with the value of a variable. -/
def valueName (fullName : CString) : CString := mcaPrefix ++ fullName

/-- The name of the environment entry with the source of the value. -/
def sourceName (fullName : CString) : CString := mcaPrefix ++ "SOURCE_".toList ++ fullName

/-! ### Lookups of one variable -/

/-- What a lookup returns, the variable behind it, and what it stores. -/
structure Lookup (D : Type*) where
  code : Except Rc Unit
  var : Var
  stored : Option (VarValue D)

/-- The storage behind a lookup. -/
def Lookup.write (found : Lookup D) (memory : ℕ → VarValue D) : ℕ → VarValue D :=
  match found.var.storage, found.stored with
  | some address, some value => Function.update memory address value
  | _, _ => memory

/-- `var_set_from_string`, for a variable. -/
def VarConfig.read (c : VarConfig D) (var : Var) (src : Option CString) : Option (Lookup D) :=
  (setFromString c.toPlatform var.type var.enumerator src).map fun r =>
    match r with
    | .error rc => ⟨.error rc, var, none⟩
    | .ok value => ⟨.ok (), var, some value⟩

/-- The source that an entry `OMPI_MCA_SOURCE_…` says, and the file. -/
def decodeSource (overrideFile : CString) : Option CString → VarSource × Option CString
  | none => (.env, none)
  | some source =>
      if strncaseeq 5 source "file:".toList then
        (if source.drop 5 = overrideFile then .override else .file, some (source.drop 5))
      else if strcaseeq source "command".toList then (.commandLine, none)
      else (.env, none)

/-- `var_set_from_env` for the variable that is set, under the full name of the one that is looked
up. -/
def VarConfig.fromEnv (c : VarConfig D) (fullName : CString) (var : Var) : Option (Lookup D) :=
  match c.getenv (valueName fullName) with
  | none => some ⟨.error .notFound, var, none⟩
  | some value =>
      if var.flags.defaultOnly then some ⟨.error .notFound, var, none⟩
      else if var.source = .override then some ⟨.error .notFound, var, none⟩
      else
        let (source, file) := decodeSource c.overrideFile (c.getenv (sourceName fullName))
        c.read { var with source, sourceFile := file.orElse fun _ => var.sourceFile } (some value)

/-- The entry is one of a variable with these names. -/
def FileValue.isFor (fullName longName : CString) (fv : FileValue) : Bool :=
  fv.var = fullName || fv.var = longName

/-- `var_set_from_file` for the variable that is set, under the names of the one that is looked
up. -/
def VarConfig.fromFile (c : VarConfig D) (values : List FileValue) (fullName longName : CString)
    (var : Var) : Option (Lookup D) :=
  match values.find? (FileValue.isFor fullName longName) with
  | none => some ⟨.error .notFound, var, none⟩
  | some fv =>
      if var.flags.defaultOnly then some ⟨.error .notFound, var, none⟩
      else if var.flags.environmentOnly then some ⟨.error .notFound, var, none⟩
      else if var.source = .override then some ⟨.error .notFound, var, none⟩
      else
        c.read { var with source := .file, sourceFile := fv.file.orElse fun _ => var.sourceFile }
          fv.value

namespace VarRegistry

/-! ### The functions of the registry -/

/-- Writes to a variable. -/
def modifyVar (s : VarRegistry D) (index : ℕ) (f : Var → Var) : VarRegistry D :=
  { s with vars := s.vars.modifyItem index f }

/-- `var_get`: the variable, or the one that it is a synonym for. -/
def varGet (s : VarRegistry D) (index : ℕ) (original : Bool) : Except Rc (ℕ × Var) :=
  match s.vars.getItem index with
  | none => .error .badParam
  | some var =>
      if var.flags.synonym && original then
        match var.synonymFor with
        | none => .error .badParam
        | some index =>
            match s.vars.getItem index with
            | none => .error .badParam
            | some var => .ok (index, var)
      else .ok (index, var)

/-- `ocoms_mca_base_var_get`. -/
def get (s : VarRegistry D) (index : ℕ) : Except Rc Var := (s.varGet index false).map Prod.snd

/-- Writes what a lookup has found to the variable, and to its storage. -/
def record (s : VarRegistry D) (index : ℕ) (found : Lookup D) : VarRegistry D :=
  { s.modifyVar index fun _ => found.var with memory := found.write s.memory }

/-- The variable that is set when `named` is looked up: it, or the one that it is a synonym for. -/
def target (s : VarRegistry D) (index : ℕ) (named : Var) : Except Rc (ℕ × Var) :=
  if named.flags.synonym then
    match named.synonymFor with
    | none => .error .badParam
    | some index => s.varGet index true
  else .ok (index, named)

/-- The frame of `var_set_from_env` and `var_set_from_file`: a synonym is not looked up if the
original has a source with the number `bound`, or a greater one. -/
def lookUp (s : VarRegistry D) (index : ℕ) (bound : VarSource)
    (look : Var → Var → Option (Lookup D)) : Option (Except Rc Unit × VarRegistry D) :=
  match s.vars.getItem index with
  | none => some (.error .error, s)
  | some named =>
      match s.target index named with
      | .error _ => some (.error .error, s)
      | .ok (i, var) =>
          if named.flags.synonym ∧ bound.toNat ≤ var.source.toNat then some (.ok (), s)
          else (look named var).map fun found => (found.code, s.record i found)

/-- `var_set_from_env`. -/
def setFromEnv (c : VarConfig D) (s : VarRegistry D) (index : ℕ) :
    Option (Except Rc Unit × VarRegistry D) :=
  s.lookUp index .env fun named var => c.fromEnv named.fullName var

/-- `var_set_from_file`. -/
def setFromFile (c : VarConfig D) (values : List FileValue) (s : VarRegistry D) (index : ℕ) :
    Option (Except Rc Unit × VarRegistry D) :=
  s.lookUp index .file fun named var => c.fromFile values named.fullName named.longName var

/-- `var_set_initial`. -/
def setInitial (c : VarConfig D) (s : VarRegistry D) (index : ℕ) :
    Option (Except Rc Unit × VarRegistry D) := do
  let s := s.modifyVar index fun var => { var with source := .default }
  let (ret, s) ← s.setFromFile c c.overrideValues index
  let s := if ret = .ok () then s.modifyVar index Var.overridden else s
  let (ret, s) ← s.setFromEnv c index
  if ret ≠ .error .notFound then some (ret, s)
  else
    let (ret, s) ← s.setFromFile c c.fileValues index
    if ret ≠ .error .notFound then some (ret, s) else some (.ok (), s)

/-! ### Registration -/

/-- `var_find_by_name`. -/
def findByName (s : VarRegistry D) (fullName : CString) (invalidok : Bool) : Except Rc ℕ :=
  match s.indexHash fullName with
  | none => .error .notFound
  | some index =>
      match s.varGet index false with
      | .error _ => .error .error
      | .ok (_, var) => if invalidok || var.flags.valid then .ok index else .error .notFound

/-- `var_find`. -/
def varFind (s : VarRegistry D) (framework component variable_ : Option CString)
    (invalidok : Bool) : Except Rc ℕ :=
  s.findByName (generateFullName4 none framework component variable_) invalidok

/-- `ocoms_mca_base_var_find`. -/
def find (s : VarRegistry D) (framework component variable_ : Option CString) : Except Rc ℕ :=
  s.varFind framework component variable_ false

end VarRegistry

/-- The arguments of `register_variable`. The flag of a synonym is the field `synonymFor`. -/
structure VarCall where
  framework : Option CString
  component : Option CString
  variableName : Option CString
  description : Option CString
  type : VarType
  enumerator : Option VarEnum
  bind : ℤ
  flags : VarCallFlags
  infoLvl : ℕ
  scope : VarScope
  synonymFor : Option ℕ
  storage : Option ℕ

namespace VarCall

/-- The name under which a call looks for the variable. -/
def key (call : VarCall) : CString := generateFullName4 none none none call.variableName

/-- Read-only and constant variables are not settable. -/
def isConstant (call : VarCall) : Bool :=
  call.scope = .constant || call.scope = .readonly || call.flags.defaultOnly

/-- The variable that a call creates, before it is registered. -/
def newVar (call : VarCall) (groupIndex : Option ℕ) : Var where
  index := 0
  groupIndex := groupIndex
  infoLvl := call.infoLvl
  type := call.type
  variableName := call.variableName
  fullName := call.key
  longName := generateFullName4 none call.framework call.component call.variableName
  synonyms := []
  flags :=
    { call.flags with
      settable := call.flags.settable && !call.isConstant, synonym := call.synonymFor.isSome }
  scope := call.scope
  source := .default
  synonymFor := call.synonymFor
  description := call.description
  sourceFile := none
  enumerator := none
  bind := call.bind
  storage := none

end VarCall

/-- The names and the flags of a synonym. -/
structure SynonymCall where
  framework : Option CString
  component : Option CString
  synonymName : Option CString
  deprecated : Bool
  internal : Bool

/-- What `ocoms_mca_base_var_register_synonym` passes to `register_variable`. -/
def SynonymCall.toVarCall (syn : SynonymCall) (index : ℕ) (var : Var) : VarCall where
  framework := syn.framework
  component := syn.component
  variableName := syn.synonymName
  description := var.description
  type := var.type
  enumerator := var.enumerator
  bind := var.bind
  flags := { deprecated := syn.deprecated, internal := syn.internal }
  infoLvl := var.infoLvl
  scope := var.scope
  synonymFor := some index
  storage := none

namespace VarRegistry

/-- The first half of `register_variable` for a name that is new: the index of the variable. -/
def createVar (s : VarRegistry D) (call : VarCall) : Except Rc ℕ × VarRegistry D :=
  -- a group index of -1 passes the check
  let (group, groups) := s.groups.groupRegister none call.framework call.component none
  let s := { s with groups := groups }
  if call.isConstant && call.flags.defaultOnly && call.flags.settable then (.error .error, s)
  else
    match s.vars.add (call.newVar group.toOption) with
    | none => (.error .error, s)
    | some (index, vars) =>
        let groups :=
          match group with
          | .error _ => s.groups
          | .ok group =>
              match s.groups.groupAddVar group index with
              | .error _ => s.groups
              | .ok (_, groups) => groups
        (.ok index,
          { s with
            vars := vars.modifyItem index fun var => { var with index := index }
            groups := groups
            count := s.count + 1
            indexHash := Function.update s.indexHash call.key (some index) })

/-- The first half of `register_variable` for a name that is known. -/
def findVar (s : VarRegistry D) (call : VarCall) (index : ℕ) : Except Rc ℕ :=
  match s.varGet index false with
  | .error _ => .error .error
  | .ok (_, var) =>
      match var.groupIndex with
      | none => .error .error
      | some group =>
          match s.groups.getInternal group true with
          | .error _ => .error .error
          | .ok _ => if var.type ≠ call.type then .error .valueOutOfBounds else .ok index

/-- The enumerator and the storage that `register_variable` gives to a variable. -/
def attach (s : VarRegistry D) (call : VarCall) (index : ℕ) : VarRegistry D :=
  let s := s.modifyVar index fun var =>
    { var with enumerator := if var.type = .bool then some .bool else call.enumerator }
  match call.synonymFor with
  | some original => s.modifyVar original fun var => { var with synonyms := var.synonyms ++ [index] }
  | none => s.modifyVar index fun var => { var with storage := call.storage }

/-- The second half of `register_variable`. -/
def initVar (c : VarConfig D) (s : VarRegistry D) (call : VarCall) (index : ℕ) :
    Option (Except Rc ℕ × VarRegistry D) :=
  ((s.attach call index).setInitial c index).map fun (ret, s) =>
    match ret with
    | .error rc => (.error rc, s)
    | .ok () =>
        (.ok index, s.modifyVar index fun var => { var with flags := { var.flags with valid := true } })

/-- `register_variable`. Only the name of the variable is used for checking its uniqueness. -/
def registerVariable (c : VarConfig D) (s : VarRegistry D) (call : VarCall) :
    Option (Except Rc ℕ × VarRegistry D) :=
  match s.varFind none none call.variableName true with
  | .error _ =>
      match s.createVar call with
      | (.error rc, s) => some (.error rc, s)
      | (.ok index, s) => s.initVar c call index
  | .ok index =>
      match s.findVar call index with
      | .error rc => some (.error rc, s)
      | .ok index => s.initVar c call index

/-- `ocoms_mca_base_var_register`. -/
def register (c : VarConfig D) (s : VarRegistry D) (call : VarCall) :
    Option (Except Rc ℕ × VarRegistry D) :=
  s.registerVariable c { call with synonymFor := none }

/-- `ocoms_mca_base_var_register_synonym`. -/
def registerSynonym (c : VarConfig D) (s : VarRegistry D) (synonymFor : ℕ) (syn : SynonymCall) :
    Option (Except Rc ℕ × VarRegistry D) :=
  match s.varGet synonymFor false with
  | .error _ => some (.error .badParam, s)
  | .ok (_, var) =>
      if var.flags.synonym then some (.error .badParam, s)
      else s.registerVariable c (syn.toVarCall synonymFor var)

/-- `ocoms_mca_base_var_deregister`. -/
def deregister (s : VarRegistry D) (index : ℕ) : Except Rc Unit × VarRegistry D :=
  match s.varGet index false with
  | .error rc => (.error rc, s)
  | .ok (_, var) =>
      if !var.flags.valid then (.error .badParam, s)
      else
        let s := s.modifyVar index fun var =>
          { var with flags := { var.flags with valid := false } }
        if var.flags.synonym then (.ok (), s)
        else
          let memory :=
            match var.type, var.storage with
            | .string, some address => Function.update s.memory address (.string none)
            | _, _ => s.memory
          (.ok (),
            { s.modifyVar index fun var => { var with enumerator := none, storage := none } with
              memory := memory })

end VarRegistry

end Ocoms
