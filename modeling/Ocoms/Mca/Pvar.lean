import Ocoms.Mca.VarGroup

/-!
Performance variables: `ocoms_mca_base_pvar_register`, `ocoms_mca_base_pvar_find` and
`ocoms_mca_base_pvar_get` of `mca_base_pvar.c`.

* `PvarRegistry.register` finds or creates the variable, and sets its fields. The index is kept in
  the variable, in the hash table, in the array and in the group, and they are set at different
  times.
* `PvarRegistry.HashesZero`: the hash table holds the index of a variable before it is set.
* `pvar_register_inconsistent` says what this means for every call of every run.
-/

namespace Ocoms

/-- The classes of performance variables. -/
inductive PvarClass
  | state
  | level
  | size
  | percentage
  | highwatermark
  | lowwatermark
  | counter
  | aggregate
  | timer
  | generic
  deriving DecidableEq

/-- `ocoms_mca_base_pvar_flag_t`. -/
structure PvarFlags where
  iwg : Bool := false
  readonly : Bool := false
  continuous : Bool := false
  atomic : Bool := false
  invalid : Bool := false

/-- A function of a variable: the one it was registered with, or the default. -/
inductive Callback (P : Type*)
  | default
  | user (p : P)

/-- `ocoms_mca_base_pvar_t`; `P` are the pointers that the caller passes. -/
structure Pvar (P : Type*) where
  pvarIndex : ℕ
  name : CString
  description : Option CString
  groupIndex : ℕ
  verbosity : ℕ
  varClass : PvarClass
  type : VarType
  enumerator : Option P
  bind : ℤ
  flags : PvarFlags
  getValue : Callback P
  setValue : Option (Callback P)
  notify : Callback P
  ctx : Option P

/-- The arguments of `ocoms_mca_base_pvar_register`. -/
structure PvarCall (P : Type*) where
  project : Option CString
  framework : Option CString
  component : Option CString
  name : Option CString
  description : Option CString
  verbosity : ℕ
  varClass : PvarClass
  type : VarType
  enumerator : Option P
  bind : ℤ
  flags : PvarFlags
  getValue : Option P
  setValue : Option P
  notify : Option P
  ctx : Option P

/-- The registered variables, and the groups. -/
structure PvarRegistry (P : Type*) where
  groups : VarGroups
  registered : PointerArray (Pvar P)
  indexHash : IndexHash
  count : ℕ

/-- The datatypes that are permitted for a class. -/
def PvarClass.permits : PvarClass → VarType → Bool
  | .state, type => type = .int
  | .counter, type => type = .unsignedInt || type = .unsignedLong || type = .unsignedLongLong
  | .percentage, type => type = .double
  | .generic, _ => true
  | _, type =>
      type = .unsignedInt || type = .unsignedLong || type = .unsignedLongLong || type = .double

variable {P : Type*}

/-- The full name of a call. -/
def PvarCall.fullName (call : PvarCall P) : CString :=
  generateFullName4 none call.framework call.component call.name

namespace PvarRegistry

/-- `ocoms_mca_base_pvar_find_by_name`. -/
def findByName (s : PvarRegistry P) (fullName : CString) : Except Rc ℕ :=
  match s.indexHash fullName with
  | none => .error .notFound
  | some index => .ok index

/-- `ocoms_mca_base_pvar_find`. -/
def find (s : PvarRegistry P) (framework component name : Option CString) : Except Rc ℕ :=
  s.findByName (generateFullName4 none framework component name)

/-- `ocoms_mca_base_pvar_get_internal`. -/
def getInternal (s : PvarRegistry P) (index : ℕ) (invalidok : Bool) : Except Rc (Pvar P) :=
  if s.count ≤ index then .error .valueOutOfBounds
  else match s.registered.getItem index with
    | none => .error .error
    | some pvar => if pvar.flags.invalid && !invalidok then .error .valueOutOfBounds else .ok pvar

/-- `ocoms_mca_base_pvar_get`. -/
def get (s : PvarRegistry P) (index : ℕ) : Except Rc (Pvar P) := s.getInternal index false

/-- A new `ocoms_mca_base_pvar_t`, with everything zero but its name and its description. -/
def newPvar (call : PvarCall P) : Pvar P where
  pvarIndex := 0
  name := call.fullName
  description := call.description
  groupIndex := 0
  verbosity := 0
  varClass := .state
  type := .int
  enumerator := none
  bind := 0
  flags := {}
  getValue := .default
  setValue := none
  notify := .default
  ctx := none

/-- The creation of a variable: its slot, and the registry. -/
def create (s : PvarRegistry P) (call : PvarCall P) : Except Rc ℕ × PvarRegistry P :=
  match s.groups.groupRegister call.project call.framework call.component none with
  -- the index of the group is -1 then, which passes the check, and no group is found for it
  | (.error _, groups) => (.error .notFound, { s with groups := groups })
  | (.ok groupIndex, groups) =>
      let s := { s with groups := groups }
      let pvar := newPvar call
      match s.groups.groupAddPvar groupIndex s.count with
      | .error rc => (.error rc, s)
      | .ok (_, groups) =>
          let s := { s with groups := groups }
          match s.registered.add pvar with
          | none => (.error .outOfResource, s)
          | some (slot, registered) =>
              (.ok slot,
                { s with
                  registered := registered.modifyItem slot fun p => { p with groupIndex }
                  indexHash := Function.update s.indexHash pvar.name (some pvar.pvarIndex)
                  count := s.count + 1 })

/-- The end of `ocoms_mca_base_pvar_register`, which sets the fields of the variable. -/
def setFields (s : PvarRegistry P) (slot : ℕ) (call : PvarCall P) : PvarRegistry P :=
  { s with
    registered := s.registered.modifyItem slot fun p =>
      { p with
        verbosity := call.verbosity
        varClass := call.varClass
        type := call.type
        enumerator := call.enumerator
        bind := call.bind
        flags := { call.flags with invalid := false }
        getValue := call.getValue.elim .default .user
        notify := call.notify.elim .default .user
        setValue := if call.flags.readonly then p.setValue
          else some (call.setValue.elim .default .user)
        ctx := call.ctx
        pvarIndex := s.count } }

/-- `ocoms_mca_base_pvar_register`: the index or an error code, and the registry. -/
def register (s : PvarRegistry P) (call : PvarCall P) : Except Rc ℕ × PvarRegistry P :=
  if call.getValue.isNone && call.ctx.isNone then (.error .badParam, s)
  else if !call.varClass.permits call.type then (.error .badParam, s)
  else match s.find call.framework call.component call.name with
    | .ok index =>
        match s.getInternal index true with
        | .error _ => (.error .error, s)
        | .ok _ => (.ok (s.setFields index call).count, s.setFields index call)
    | .error _ =>
        match s.create call with
        | (.error rc, s) => (.error rc, s)
        | (.ok slot, s) => (.ok (s.setFields slot call).count, s.setFields slot call)

/-- Nothing is registered. -/
def IsEmpty (s : PvarRegistry P) : Prop :=
  s.count = 0 ∧ (∀ name, s.indexHash name = none) ∧ ∃ n, s.registered.Holds [] n

/-- **The call is consistent**: the index leads to the variable, by its name too, and is the one
that the variable has. -/
structure Consistent (s : PvarRegistry P) (call : PvarCall P) (index : ℕ) : Prop where
  get : ∃ pvar, s.get index = .ok pvar ∧ pvar.name = call.fullName ∧ pvar.pvarIndex = index
  find : s.find call.framework call.component call.name = .ok index
  slot : index < s.count

variable {s : PvarRegistry P} {call : PvarCall P}

/-! ### The effects of the functions -/

/-- A variable is created, or the count and the hash table stay. -/
lemma create_cases (s : PvarRegistry P) (call : PvarCall P) :
    (∃ rc, (s.create call).1 = .error rc ∧ (s.create call).2.count = s.count ∧
        (s.create call).2.indexHash = s.indexHash) ∨
      ∃ slot, (s.create call).1 = .ok slot ∧ (s.create call).2.count = s.count + 1 ∧
        (s.create call).2.indexHash = Function.update s.indexHash call.fullName (some 0) := by
  rw [create]
  rcases s.groups.groupRegister call.project call.framework call.component none with
    ⟨rc | groupIndex, groups⟩
  · exact Or.inl ⟨.notFound, rfl, rfl, rfl⟩
  · dsimp only
    rcases groups.groupAddPvar groupIndex s.count with rc | ⟨_, groups'⟩
    · exact Or.inl ⟨rc, rfl, rfl, rfl⟩
    · dsimp only
      rcases s.registered.add (newPvar call) with _ | ⟨slot, registered⟩
      · exact Or.inl ⟨.outOfResource, rfl, rfl, rfl⟩
      · exact Or.inr ⟨slot, rfl, rfl, rfl⟩

@[simp]
lemma setFields_count (slot : ℕ) : (s.setFields slot call).count = s.count := rfl

@[simp]
lemma setFields_indexHash (slot : ℕ) : (s.setFields slot call).indexHash = s.indexHash := rfl

lemma lt_count_of_getInternal {index : ℕ} {pvar : Pvar P}
    (h : s.getInternal index true = .ok pvar) : index < s.count := by
  rw [getInternal] at h
  by_cases hle : s.count ≤ index
  · rw [if_pos hle] at h
    cases h
  · exact Nat.lt_of_not_le hle

/-- What a call does: it fails, it finds a variable, or it creates one. -/
lemma register_cases (s : PvarRegistry P) (call : PvarCall P) :
    (∃ rc, (s.register call).1 = .error rc ∧ (s.register call).2.count = s.count ∧
        (s.register call).2.indexHash = s.indexHash) ∨
      (∃ index, s.indexHash call.fullName = some index ∧ index < s.count ∧
        s.register call = (.ok s.count, s.setFields index call)) ∨
      ((s.register call).1 = .ok (s.count + 1) ∧ (s.register call).2.count = s.count + 1 ∧
        (s.register call).2.indexHash
          = Function.update s.indexHash call.fullName (some 0)) := by
  rw [register]
  by_cases hctx : (call.getValue.isNone && call.ctx.isNone) = true
  · rw [if_pos hctx]
    exact Or.inl ⟨.badParam, rfl, rfl, rfl⟩
  rw [if_neg hctx]
  by_cases htype : (!call.varClass.permits call.type) = true
  · rw [if_pos htype]
    exact Or.inl ⟨.badParam, rfl, rfl, rfl⟩
  rw [if_neg htype, find, findByName, ← PvarCall.fullName]
  cases hhash : s.indexHash call.fullName with
  | some index =>
      dsimp only
      cases hget : s.getInternal index true with
      | error rc => exact Or.inl ⟨.error, rfl, rfl, rfl⟩
      | ok pvar =>
          exact Or.inr (Or.inl ⟨index, rfl, lt_count_of_getInternal hget, rfl⟩)
  | none =>
      dsimp only
      rcases hcreate : s.create call with ⟨rc | slot, s'⟩
      · rcases create_cases s call with ⟨rc, -, hcount, hindex⟩ | ⟨slot, hok, -⟩
        · rw [hcreate] at hcount hindex
          exact Or.inl ⟨_, rfl, hcount, hindex⟩
        · rw [hcreate] at hok
          cases hok
      · rcases create_cases s call with ⟨rc, herr, -⟩ | ⟨slot', -, hcount, hindex⟩
        · rw [hcreate] at herr
          cases herr
        · rw [hcreate] at hcount hindex
          exact Or.inr (Or.inr ⟨congrArg Except.ok hcount, hcount, hindex⟩)

/-- **What the hash table is worth**: every name that is in it has the index 0, and something is
registered then. -/
def HashesZero (s : PvarRegistry P) : Prop :=
  ∀ name index, s.indexHash name = some index → index = 0 ∧ 0 < s.count

lemma HashesZero.register (h : s.HashesZero) (call : PvarCall P) :
    (s.register call).2.HashesZero := by
  intro name index hname
  rcases register_cases s call with ⟨rc, -, hcount, hindex⟩ | ⟨i, -, -, heq⟩ | ⟨-, hcount, hindex⟩
  · rw [hindex] at hname
    rw [hcount]
    exact h name index hname
  · rw [heq] at hname ⊢
    exact h name index hname
  · rw [hindex] at hname
    rw [hcount]
    refine ⟨?_, Nat.succ_pos _⟩
    by_cases hself : name = call.fullName
    · rw [hself, Function.update_self] at hname
      exact (Option.some.inj hname).symm
    · rw [Function.update_of_ne hself] at hname
      exact (h name index hname).1

/-- **What a successful call returns**: the number of variables, and the hash table holds the name
with index 0. -/
lemma HashesZero.register_ok (h : s.HashesZero) {i : ℕ} (hi : (s.register call).1 = .ok i) :
    (s.register call).2.count = i ∧ 0 < i ∧
      (s.register call).2.indexHash call.fullName = some 0 := by
  rcases register_cases s call with
    ⟨rc, herr, -⟩ | ⟨index, hhash, -, heq⟩ | ⟨hok, hcount, hindex⟩
  · rw [herr] at hi
    cases hi
  · obtain ⟨hzero, hpos⟩ := h _ _ hhash
    rw [heq] at hi ⊢
    obtain rfl : s.count = i := by injection hi
    exact ⟨rfl, hpos, by rw [setFields_indexHash, hhash, hzero]⟩
  · rw [hok] at hi
    obtain rfl : s.count + 1 = i := by injection hi
    exact ⟨hcount, Nat.succ_pos _, by rw [hindex, Function.update_self]⟩

end PvarRegistry

/-! ### Runs of registrations -/

/-- The registries that a sequence of calls leads to. -/
inductive PvarRun : PvarRegistry P → Prop
  | init {s : PvarRegistry P} : s.IsEmpty → PvarRun s
  | register {s : PvarRegistry P} (call : PvarCall P) : PvarRun s → PvarRun (s.register call).2

lemma PvarRun.hashesZero {s : PvarRegistry P} (hrun : PvarRun s) : s.HashesZero := by
  induction hrun with
  | init hempty =>
      intro name index hname
      rw [hempty.2.1 name] at hname
      cases hname
  | register call _ ih => exact ih.register call

/-- **No call is consistent.** In every run every successful call returns an index that no variable
has: it is the number of variables, `ocoms_mca_base_pvar_get` refuses it, and
`ocoms_mca_base_pvar_find` returns another one for the name. -/
theorem pvar_register_inconsistent {s : PvarRegistry P} {call : PvarCall P} {i : ℕ}
    (hrun : PvarRun s) (hi : (s.register call).1 = .ok i) :
    ¬ (s.register call).2.Consistent call i ∧
      (s.register call).2.get i = .error .valueOutOfBounds ∧
      (s.register call).2.find call.framework call.component call.name = .ok 0 ∧ 0 < i := by
  obtain ⟨hcount, hpos, hhash⟩ := hrun.hashesZero.register_ok hi
  have hget : (s.register call).2.get i = .error .valueOutOfBounds := by
    rw [PvarRegistry.get, PvarRegistry.getInternal, if_pos (Nat.le_of_eq hcount)]
  have hfind : (s.register call).2.find call.framework call.component call.name = .ok 0 := by
    rw [PvarRegistry.find, PvarRegistry.findByName, ← PvarCall.fullName, hhash]
  refine ⟨fun hcons => ?_, hget, hfind, hpos⟩
  obtain ⟨pvar, hok, -⟩ := hcons.get
  rw [hget] at hok
  cases hok

/-! ### The first variable -/

/-- The groups after `ocoms_mca_base_var_group_init`. -/
def initialGroups : VarGroups where
  varInitialized := true
  groups := ⟨0, 128, 16384, 128, List.replicate 128 none⟩
  indexHash := fun _ => none
  count := 0
  timestamp := 0

/-- The registry after `ocoms_mca_base_pvar_init`. -/
def initialPvars : PvarRegistry ℕ where
  groups := initialGroups
  registered := ⟨0, 128, 2048, 128, List.replicate 128 none⟩
  indexHash := fun _ => none
  count := 0

/-- A generic variable of a component. -/
def bytesSent : PvarCall ℕ where
  project := none
  framework := some ['b', 't', 'l']
  component := some ['t', 'c', 'p']
  name := some ['s', 'e', 'n', 't']
  description := none
  verbosity := 0
  varClass := .counter
  type := .unsignedLong
  enumerator := none
  bind := 0
  flags := {}
  getValue := none
  setValue := none
  notify := none
  ctx := some 0

lemma initialPvars_isEmpty : initialPvars.IsEmpty :=
  ⟨rfl, fun _ => rfl, 128, rfl, rfl, rfl, by decide⟩

set_option maxRecDepth 4000 in
/-- The first variable gets the index 1. -/
lemma register_bytesSent : (initialPvars.register bytesSent).1 = .ok 1 := by
  rfl

set_option maxRecDepth 4000 in
lemma get_bytesSent :
    (initialPvars.register bytesSent).2.get 1 = .error .valueOutOfBounds := by
  rfl

theorem pvar_register_inconsistent_bytesSent :
    ¬ (initialPvars.register bytesSent).2.Consistent bytesSent 1 :=
  (pvar_register_inconsistent (.init initialPvars_isEmpty) register_bytesSent).1

/-- The index of the first variable is out of bounds. -/
theorem get_of_first_pvar_fails :
    (initialPvars.register bytesSent).1 = .ok 1 ∧
      (initialPvars.register bytesSent).2.get 1 = .error .valueOutOfBounds ∧
      ¬ (initialPvars.register bytesSent).2.Consistent bytesSent 1 := by
  have hget := get_bytesSent
  refine ⟨register_bytesSent, hget, fun hcons => ?_⟩
  obtain ⟨pvar, hok, -⟩ := hcons.get
  rw [hget] at hok
  cases hok

end Ocoms
