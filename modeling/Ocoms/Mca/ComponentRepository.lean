import Mathlib.Data.List.Perm.Basic
import Ocoms.Lib.CInt
import Ocoms.Lib.Dependencies
import Ocoms.Lib.Loop
import Ocoms.Lib.Strings

/-!
The repository of loaded components: `mca_base_component_repository.c`.

* An object is a number, and a number is not used again. An object that was freed is `none`; to touch
  it is `Fault.useAfterFree`.
* `objRelease` is `OBJ_RELEASE` with the destructor `ri_destructor`, which releases the dependencies.
  Its fuel is for this recursion.
* `closed` is the list of the calls of `lt_dlclose`.
* `Repository.own` is what is left of the references that the callers have; the others are links.
-/

namespace Ocoms

/-- `MCA_BASE_MAX_TYPE_NAME_LEN`. -/
def maxTypeNameLen : ℕ := 31

/-- `repository_item_t`; `name` is the name in its component. -/
structure RepositoryItem where
  type : CString
  name : CString
  refCount : ℤ
  dependencies : List ℕ

/-- The state of the repository. -/
structure Repository where
  initialized : Bool
  repository : List ℕ
  object : ℕ → Option RepositoryItem
  next : ℕ
  closed : List ℕ

/-- What ends a call that does not return. -/
inductive Fault
  | noFuel
  | useAfterFree

namespace Repository

/-- `ocoms_mca_base_component_repository_init`. -/
def init : Repository where
  initialized := true
  repository := []
  object := fun _ => none
  next := 0
  closed := []

/-- Writes to an object. -/
def modify (s : Repository) (i : ℕ) (f : RepositoryItem → RepositoryItem) : Repository :=
  { s with object := Function.update s.object i ((s.object i).map f) }

/-- `lt_dlclose` of the component of an item. -/
def dlclose (s : Repository) (i : ℕ) : Repository := { s with closed := s.closed ++ [i] }

/-- The end of a destructor: the item leaves the list, and is freed. -/
def remove (s : Repository) (i : ℕ) : Repository :=
  { s with
    repository := s.repository.filter (· ≠ i)
    object := Function.update s.object i none }

/-- `OBJ_RELEASE` for a repository item, with `ri_destructor` for one without references. -/
def objRelease : ℕ → Repository → ℕ → Except Fault Repository
  | 0, _, _ => .error .noFuel
  | fuel + 1, s, i =>
      match s.object i with
      | none => .error .useAfterFree
      | some ri =>
          let refCount := CInt.wrap (ri.refCount - 1)
          let s := s.modify i fun ri => { ri with refCount }
          if refCount = 0 then do
            -- A dependency item leaves the list, and is released with what it points to.
            let s ← ri.dependencies.foldlM (fun s depend => objRelease fuel
              (s.modify i fun ri => { ri with dependencies := ri.dependencies.tail }) depend)
              (s.dlclose i)
            .ok (s.remove i)
          else .ok s

/-- `OBJ_RELEASE`, with enough fuel. -/
def release (s : Repository) (i : ℕ) : Except Fault Repository :=
  objRelease (s.repository.length + 1) s i

/-- `find_component`. -/
def findComponent (s : Repository) (type name : CString) : Option ℕ :=
  s.repository.find? fun i => (s.object i).any fun ri => ri.type = type ∧ ri.name = name

/-- `ocoms_mca_base_component_repository_retain`. -/
def retain (s : Repository) (type name : CString) : Repository :=
  { s with
    repository := s.repository ++ [s.next]
    object := Function.update s.object s.next (some
      { type := type.take maxTypeNameLen, name := name, refCount := 1, dependencies := [] })
    next := s.next + 1 }

/-- `OBJ_RETAIN`. -/
def objRetain (s : Repository) (i : ℕ) : Repository :=
  s.modify i fun ri => { ri with refCount := CInt.wrap (ri.refCount + 1) }

/-- `ocoms_mca_base_component_repository_retain_component`. -/
def retainComponent (s : Repository) (type name : CString) : Repository :=
  match s.findComponent type name with
  | some i => s.objRetain i
  | none => s

/-- `link_items`. -/
def linkItems (s : Repository) (src depend : ℕ) : Repository :=
  (s.modify src fun ri => { ri with dependencies := ri.dependencies ++ [depend] }).objRetain depend

/-- `ocoms_mca_base_component_repository_link`. -/
def link (s : Repository) (srcType srcName dependType dependName : CString) : Repository :=
  match s.findComponent srcType srcName with
  | none => s
  | some src =>
      match s.findComponent dependType dependName with
      | none => s
      | some depend => s.linkItems src depend

/-- `ocoms_mca_base_component_repository_release`. -/
def releaseComponent (s : Repository) (type name : CString) : Except Fault Repository :=
  if s.initialized then
    match s.findComponent type name with
    | some i => s.release i
    | none => .ok s
  else .ok s

/-- `ocoms_list_get_next`; `none` is the end of the list. -/
def getNext (s : Repository) (i : ℕ) : Option ℕ :=
  (s.repository.dropWhile (· ≠ i)).tail.head?

/-- A round of the inner loop of `ocoms_mca_base_component_repository_finalize`. -/
def finalizeItem : Repository × Option ℕ →
    (Repository × Option ℕ) ⊕ Except Fault Repository
  | (s, none) => .inr (.ok s)
  | (s, some i) =>
      if (s.object i).isNone then .inr (.error .useAfterFree)
      else
        let item := s.getNext i
        match s.release i with
        | .error fault => .inr (.error fault)
        | .ok s => .inl (s, item)

/-- The inner loop. -/
def finalizePass (s : Repository) : Except Fault Repository :=
  (loop finalizeItem (s.repository.length + 1) (s, s.repository.head?)).getD (.error .noFuel)

/-- A round of the outer loop. -/
def finalizeRound (s : Repository) : Repository ⊕ Except Fault Repository :=
  match s.finalizePass with
  | .error fault => .inr (.error fault)
  | .ok s => if 0 < s.repository.length then .inl s else .inr (.ok s)

/-- The sum of all reference counts. -/
def totalCount (s : Repository) : ℕ :=
  (s.repository.map fun i => (s.object i).elim 0 fun ri => ri.refCount.toNat).sum

/-- `ocoms_mca_base_component_repository_finalize`. -/
def finalize (s : Repository) : Except Fault Repository :=
  if s.initialized then
    ((loop finalizeRound (s.totalCount + 1) s).getD (.error .noFuel)).map fun s =>
      { s with initialized := false }
  else .ok s

/-! ### What callers rely on -/

/-- The number of links to an item. -/
def links (s : Repository) (i : ℕ) : ℕ :=
  (s.repository.flatMap fun j => (s.object j).elim [] RepositoryItem.dependencies).count i

/-- The references to an item that callers have: it was retained more often than released. -/
def own (s : Repository) (i : ℕ) : ℕ :=
  ((s.object i).elim 0 fun ri => ri.refCount - s.links i).toNat

/-- An item that is loaded. -/
def Loaded (s : Repository) (i : ℕ) : Prop := i ∈ s.repository ∧ i ∉ s.closed

/-- A component that is loaded depends on another one. -/
def Depends (s : Repository) (i j : ℕ) : Prop :=
  i ∉ s.closed ∧ ∃ ri, s.object i = some ri ∧ j ∈ ri.dependencies

/-- **What a call unloads.** Each component is unloaded once, and behind all that depend on it. The
others are as they were, apart from their reference counts. -/
structure Unloads (s s' : Repository) (gone : List ℕ) : Prop where
  closed : s'.closed = s.closed ++ gone
  nodup : gone.Nodup
  loaded : ∀ i ∈ gone, s.Loaded i
  dependentsFirst : DependenciesFirst (fun i j => s.Depends j i) gone
  kept : ∀ i ri, i ∉ s.closed → i ∉ gone → s.object i = some ri →
    ∃ refCount, s'.object i = some { ri with refCount }
  repository : ∀ i ∈ s'.repository, i ∈ s.repository

/-- The passes of `finalize` take one reference from every item. What depends on an item must not have
more of them, or else exactly one more, and stand in front of it, with something between them that
is still there. -/
def TurnsFit (s : Repository) (own : ℕ → ℕ) : Prop :=
  ∀ i j, Relation.TransGen s.Depends i j → own i ≤ own j ∨
    own i = own j + 1 ∧ ∃ k, [i, k, j].Sublist s.repository ∧ own i ≤ own k

/-- The calls. -/
inductive Op
  | retain (type name : CString)
  | retainComponent (type name : CString)
  | link (srcType srcName dependType dependName : CString)
  | release (type name : CString)

/-- What a call leaves. -/
def step (s : Repository) : Op → Except Fault Repository
  | .retain type name => .ok (s.retain type name)
  | .retainComponent type name => .ok (s.retainComponent type name)
  | .link srcType srcName dependType dependName =>
      .ok (s.link srcType srcName dependType dependName)
  | .release type name => s.releaseComponent type name

/-- The reference count of an item is not at its maximum. -/
def HasRoom (s : Repository) (i : ℕ) : Prop :=
  ∀ ri, s.object i = some ri → ri.refCount < CInt.max

/-- **The condition for a call.** A link closes no cycle, a count does not overflow, and a release finds
an item that was retained more often than released. -/
def Op.Fits (s : Repository) : Op → Prop
  | .retain _ _ => True
  | .retainComponent type name => ∀ i, s.findComponent type name = some i → s.HasRoom i
  | .link srcType srcName dependType dependName =>
      ∀ src, s.findComponent srcType srcName = some src →
        ∀ depend, s.findComponent dependType dependName = some depend →
          ¬ Relation.ReflTransGen s.Depends depend src ∧ s.HasRoom depend
  | .release type name => ∀ i, s.findComponent type name = some i → 0 < s.own i

/-- The states of a run in which every call meets its condition. -/
inductive Reach : Repository → Prop
  | init : Reach init
  | step {s s' op} (h : Reach s) (hfits : op.Fits s) (hstep : s.step op = .ok s') : Reach s'

/-- **What callers rely on.** -/
structure Sound (s : Repository) : Prop where
  release : ∀ type name, (Op.release type name).Fits s → ∃ s' gone,
    s.releaseComponent type name = .ok s' ∧ Unloads s s' gone
  finalize : s.TurnsFit s.own → ∃ s' gone, s.finalize = .ok s' ∧ Unloads s s' gone ∧
    gone.Perm s.repository ∧ s'.repository = []

end Repository
end Ocoms
