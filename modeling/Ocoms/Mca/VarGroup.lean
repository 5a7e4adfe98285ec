import Mathlib.Logic.Function.Basic
import Ocoms.Lib.Strings
import Ocoms.Util.PointerArray

/-!
Names and groups of MCA variables: `ocoms_mca_base_var_generate_full_name4` and
`mca_base_var_group.c`.

* A C string is the list of its characters. `generateFullName4` puts an underscore between the
  parts of a name that are there.
* A hash table from names to indices is modelled by the finite map that it is.
* `VarGroups.groupRegister` finds or creates a group, and its parent with it.
-/

namespace Ocoms

/-- The negative return codes. -/
inductive Rc
  | error
  | outOfResource
  | badParam
  | notFound
  | perm
  | valueOutOfBounds
  deriving DecidableEq, Repr

/-- `ocoms_mca_base_var_type_t`. -/
inductive VarType
  | int
  | unsignedInt
  | unsignedLong
  | unsignedLongLong
  | sizeT
  | string
  | bool
  | double
  deriving DecidableEq, Repr

/-! ### Names -/

/-- The loop body of `ocoms_mca_base_var_generate_full_name4`: an underscore, if something is
written already, and the next part. -/
def addName (name : CString) : Option CString → CString
  | none => name
  | some part => if name = [] then part else name ++ '_' :: part

/-- `ocoms_mca_base_var_generate_full_name4`. -/
def generateFullName4 (project framework component variable_ : Option CString) : CString :=
  [project, framework, component, variable_].foldl addName []

/-- A hash table from names to indices. -/
abbrev IndexHash := CString → Option ℕ

/-! ### Groups -/

/-- `ocoms_mca_base_var_group_t`. -/
structure VarGroup where
  isValid : Bool
  fullName : CString
  project : Option CString
  framework : Option CString
  component : Option CString
  description : Option CString
  subgroups : List ℕ
  vars : List ℕ
  pvars : List ℕ

/-- The state of the group system. -/
structure VarGroups where
  varInitialized : Bool
  groups : PointerArray VarGroup
  indexHash : IndexHash
  count : ℕ
  timestamp : ℕ

namespace VarGroups

/-- `ocoms_mca_base_var_group_get_internal`. -/
def getInternal (s : VarGroups) (groupIndex : ℕ) (invalidok : Bool) : Except Rc VarGroup :=
  match s.groups.getItem groupIndex with
  | some group => if !invalidok && !group.isValid then .error .notFound else .ok group
  | none => .error .notFound

/-- `group_find_by_name`. -/
def groupFindByName (s : VarGroups) (fullName : CString) (invalidok : Bool) : Except Rc ℕ := do
  match s.indexHash fullName with
  | none => .error .notFound
  | some index =>
      let group ← s.getInternal index false
      if invalidok || group.isValid then .ok index else .error .notFound

/-- `group_find`; the project name is dropped. -/
def groupFind (s : VarGroups) (framework component : Option CString) (invalidok : Bool) :
    Except Rc ℕ :=
  if !s.varInitialized then .error .notFound
  else s.groupFindByName (generateFullName4 none framework component none) invalidok

/-- `group_register`, with the registration of the parent. The code is `OCOMS_ERROR`, which is -1, in
every case of an error. -/
def groupRegisterWith (parent : VarGroups → Except Rc ℕ × VarGroups) (s : VarGroups)
    (project framework component description : Option CString) : Except Rc ℕ × VarGroups :=
  if project = none ∧ framework = none ∧ component = none then (.error .error, s)
  else
    let project := if framework.isSome || component.isSome then none else project
    match s.groupFind framework component true with
    | .ok groupId => (.ok groupId,
        { s with
          groups := s.groups.modifyItem groupId fun g => { g with isValid := true }
          timestamp := s.timestamp + 1 })
    | .error _ =>
        let (parentId, s) :=
          if framework.isSome && component.isSome then parent s else (.error .error, s)
        let group : VarGroup :=
          { isValid := true, fullName := [], project, framework, component, description
            subgroups := [], vars := [], pvars := [] }
        let project := if project.isSome ∧ project = framework then none else project
        let group := { group with fullName := generateFullName4 none project framework component }
        match s.groups.add group with
        | none => (.error .error, s)
        | some (groupId, groups) =>
            let s := { s with
              groups := groups
              indexHash := Function.update s.indexHash group.fullName (some groupId)
              count := s.count + 1
              timestamp := s.timestamp + 1 }
            match parentId with
            | .error _ => (.ok groupId, s)
            | .ok parentId => (.ok groupId,
                { s with
                  groups := s.groups.modifyItem parentId fun g =>
                    { g with subgroups := g.subgroups ++ [groupId] } })

/-- `ocoms_mca_base_var_group_register`. The recursion of the source ends at the parent, which has
no component. -/
def groupRegister (s : VarGroups) (project framework component description : Option CString) :
    Except Rc ℕ × VarGroups :=
  s.groupRegisterWith
    (fun s => s.groupRegisterWith (fun s => (.error .error, s)) none framework none none)
    project framework component description

/-- `ocoms_mca_base_var_group_add_var`. -/
def groupAddVar (s : VarGroups) (groupIndex paramIndex : ℕ) : Except Rc (ℕ × VarGroups) := do
  let group ← s.getInternal groupIndex false
  match group.vars.findIdx? (· = paramIndex) with
  | some i => .ok (i, s)
  | none => .ok (group.vars.length,
      { s with
        groups := s.groups.modifyItem groupIndex fun g => { g with vars := g.vars ++ [paramIndex] }
        timestamp := s.timestamp + 1 })

/-- `ocoms_mca_base_var_group_add_pvar`. -/
def groupAddPvar (s : VarGroups) (groupIndex paramIndex : ℕ) : Except Rc (ℕ × VarGroups) := do
  let group ← s.getInternal groupIndex false
  match group.pvars.findIdx? (· = paramIndex) with
  | some i => .ok (i, s)
  | none => .ok (group.pvars.length,
      { s with
        groups := s.groups.modifyItem groupIndex fun g => { g with pvars := g.pvars ++ [paramIndex] }
        timestamp := s.timestamp + 1 })

end VarGroups

end Ocoms
