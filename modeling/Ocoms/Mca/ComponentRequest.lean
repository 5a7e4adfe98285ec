import Ocoms.Mca.ComponentFind
import Ocoms.Util.Argv

/-!
Requested components: `mca_base_component_parse_requested`, `use_component`,
`component_find_check`, `mca_base_component_find` and `mca_base_components_filter`.

* A component is its type and its name. What is loaded dynamically is found by the functions of
  `ComponentFinder`, in the order of its files.
* `Wanted` says which components a request asks for, and `Missing` which names of a positive list
  are not there.
* `useComponent_iff` is exact for every request. `mca_base_component_find` never returns the error
  for a missing component: `component_find_exact_iff`. Its sibling does: `componentsFilter_exact`.
-/

namespace Ocoms

/-- `MCA_BASE_FRAMEWORK_FLAG_NO_COMPONENT_FIND_CHECK`. -/
def noComponentFindCheck : ℕ := 3

/-- The list of components that is found, as types and names. In `ret` is what is returned, and in
`messages` the framework and the missing name of each message. `found` is empty where the list is not
constructed. -/
structure FindResult where
  ret : Except Rc Unit
  found : List (CString × CString)
  messages : List (CString × CString)

/-! ### The functions -/

/-- `mca_base_component_parse_requested`: whether the names are included, and the names. The negate
character is only allowed in front. -/
def parseRequested (requested : Option CString) :
    Option (Except Rc (Bool × Option (List CString))) :=
  match requested with
  | none | some [] => some (.ok (true, none))
  | some (c :: cs) =>
      let includeMode := c ≠ '^'
      let requested := (c :: cs).dropWhile (· = '^')
      if '^' ∈ requested then some (.error .error)
      else (argvSplit requested ',').map fun names => .ok (includeMode, names)

/-- `use_component`. Without a selection all components are used. -/
def useComponent (includeMode : Bool) (names : Option (List CString)) (name : CString) : Bool :=
  match names with
  | none => true
  | some names =>
      let found := names.any (name = ·)
      (includeMode && found) || !(includeMode || found)

/-- `component_find_check`: the first name that no component has. -/
def componentFindCheck (framework : CString) (names : Option (List CString))
    (components : List (CString × CString)) : Except Rc Unit × List (CString × CString) :=
  match (names.getD []).find? fun name => !components.any (·.2 = name) with
  | none => (.ok (), [])
  | some name => (.error .notFound, [(framework, name)])

/-- The check, where it is asked for. -/
def checkRequested (framework : CString) (includeMode : Bool) (names : Option (List CString))
    (flags : ℕ) (components : List (CString × CString)) :
    Except Rc Unit × List (CString × CString) :=
  if includeMode = true ∧ flags &&& noComponentFindCheck = 0 then
    componentFindCheck framework names components
  else (.ok (), [])

namespace ComponentFinder

variable (c : ComponentFinder)

/-- One pass of the loop over the files in `find_dyn_components`, with the names. -/
def tryUsed (includeMode : Bool) (names : Option (List CString)) (fuel : ℕ)
    (s : FindState c.files.length) (target : Fin c.files.length) :
    Option (FindState c.files.length) :=
  if s.status target = .unvisited then
    let s := s.setStatus target .checkingCycle
    if useComponent includeMode names (c.files.get target).name then
      (c.openComponent fuel target s).map Prod.snd
    else some s
  else some s

/-- `find_dyn_components`, from the files with the prefix of the framework on. -/
def findDynComponents (includeMode : Bool) (names : Option (List CString)) (fuel : ℕ)
    (found : List (CString × CString)) : Option (List (CString × CString)) :=
  ((List.finRange c.files.length).foldlM (c.tryUsed includeMode names fuel)
    ⟨fun _ => .unvisited, found, []⟩).map FindState.found

/-- The components that are found: the static ones in front of the dynamic ones. -/
def foundComponents (static : List (CString × CString)) (includeMode : Bool)
    (names : Option (List CString)) (openDsoComponents : Bool) (fuel : ℕ) :
    Option (List (CString × CString)) :=
  let found := static.filter fun component => useComponent includeMode names component.2
  if openDsoComponents then c.findDynComponents includeMode names fuel found else some found

/-- `mca_base_component_find`, where memory does not run out. `openDsoComponents` is false also where
`dlopen` is disabled. `none` says that the fuel has run out. -/
def componentFind (type : CString) (static : List (CString × CString))
    (requested : Option CString) (openDsoComponents : Bool) (flags fuel : ℕ) :
    Option FindResult := do
  match ← parseRequested requested with
  | .error rc => some { ret := .error rc, found := [], messages := [] }
  | .ok (includeMode, names) =>
      let found ← c.foundComponents static includeMode names openDsoComponents fuel
      let (_, messages) := checkRequested type includeMode names flags found
      -- What the check has returned is overwritten.
      some { ret := .ok (), found, messages }

end ComponentFinder

/-- `mca_base_components_filter`, with the `param_field` of the components. The components that are
not kept are unloaded. -/
def componentsFilter (framework : CString) (paramField : CString × CString → ℕ)
    (components : List (CString × CString)) (filterNames : Option CString)
    (filterFlags flags : ℕ) : Option FindResult := do
  if filterFlags = 0 ∧ filterNames = none then
    some { ret := .ok (), found := components, messages := [] }
  else
    match ← parseRequested filterNames with
    | .error rc => some { ret := .error rc, found := components, messages := [] }
    | .ok (includeMode, names) =>
        let found := components.filter fun component =>
          useComponent includeMode names component.2 &&
            filterFlags &&& paramField component = filterFlags
        let (ret, messages) := checkRequested framework includeMode names flags found
        some { ret, found, messages }

/-! ### What is requested -/

section Request

variable (requested : Option CString)

/-- The text behind the negate characters in front. -/
def requestedText : CString := (requested.getD []).dropWhile (· = '^')

/-- The names of a request. -/
def requestedNames : List CString := ((requestedText requested).splitOn ',').filter (· ≠ [])

/-- The names are those of the components to use. -/
def Positive : Prop := (requested.getD []).head? ≠ some '^'

/-- The negate character is nowhere but in front. -/
def WellFormedRequest : Prop := '^' ∉ requestedText requested

/-- The components of this name are asked for. -/
def Wanted (name : CString) : Prop :=
  requestedNames requested = [] ∨ (Positive requested ∧ name ∈ requestedNames requested) ∨
    (¬ Positive requested ∧ name ∉ requestedNames requested)

/-- A positive list has this name, and none of the components has it. -/
def Missing (found : List (CString × CString)) (name : CString) : Prop :=
  Positive requested ∧ name ∈ requestedNames requested ∧ ∀ component ∈ found, component.2 ≠ name

/-- The caller asks for the check. -/
def Asked (flags : ℕ) : Prop := flags &&& noComponentFindCheck = 0

/-- A result names a missing component in its error. -/
def NamesMissing (type : CString) (r : FindResult) : Prop :=
  ∃ rc name, r.ret = .error rc ∧ r.messages = [(type, name)] ∧ Missing requested r.found name

end Request

/-- **The filtering is exact**, for a request and everything that can be found. -/
structure RequestExact (c : ComponentFinder) (type : CString) (static : List (CString × CString))
    (requested : Option CString) (openDsoComponents : Bool) (flags fuel : ℕ) : Prop where
  parses : WellFormedRequest requested → ∃ includeMode names,
    parseRequested requested = some (.ok (includeMode, names)) ∧
      ∀ name, useComponent includeMode names name = true ↔ Wanted requested name
  kept : ∀ r, c.componentFind type static requested openDsoComponents flags fuel = some r →
    ∀ component ∈ r.found, Wanted requested component.2
  staticKept : ∀ r, c.componentFind type static requested openDsoComponents flags fuel = some r →
    WellFormedRequest requested →
      ∀ component ∈ static, Wanted requested component.2 → component ∈ r.found
  error : ∀ r, c.componentFind type static requested openDsoComponents flags fuel = some r →
    (NamesMissing requested type r ↔
      Asked flags ∧ WellFormedRequest requested ∧ ∃ name, Missing requested r.found name)

/-! ### Requests -/

section Parse

variable (requested : Option CString)

instance : Decidable (Positive requested) := inferInstanceAs (Decidable (_ ≠ _))

instance : Decidable (WellFormedRequest requested) := inferInstanceAs (Decidable (_ ∉ _))

/-- The vector of the names. Without a name there is none. -/
def requestedVector : Option (List CString) :=
  if requestedNames requested = [] then none else some (requestedNames requested)

lemma argvSplit_eq (s : CString) (d : Char) :
    argvSplit s d = some (if (s.splitOn d).filter (· ≠ []) = [] then none
      else some ((s.splitOn d).filter (· ≠ []))) := by
  -- A last field that is dropped is empty, and empty fields do not count.
  have hfields : (fieldsOf d s).filter (· ≠ []) = (s.splitOn d).filter (· ≠ []) := by
    rw [fieldsOf]
    split
    case isTrue h =>
      conv_rhs => rw [← List.dropLast_append_getLast? [] h]
      simp
    case isFalse => rfl
  rw [argvSplit, argvSplitInter, splitFields_eq, if_neg Bool.false_ne_true, hfields,
    Option.map_some]

/-- A request is parsed into its mode and its names. -/
lemma parseRequested_eq :
    parseRequested requested =
      if WellFormedRequest requested then
        some (.ok (decide (Positive requested), requestedVector requested))
      else some (.error .error) := by
  cases requested with
  | none => rfl
  | some s =>
      cases s with
      | nil => rfl
      | cons c cs =>
          have htext : requestedText (some (c :: cs)) = (c :: cs).dropWhile (· = '^') := rfl
          have hpositive : decide (Positive (some (c :: cs))) = decide (c ≠ '^') := by
            simp [Positive]
          rw [parseRequested, argvSplit_eq, hpositive, requestedVector, requestedNames, htext]
          by_cases hwf : WellFormedRequest (some (c :: cs))
          · rw [if_pos hwf, if_neg (show '^' ∉ (c :: cs).dropWhile (· = '^') from hwf)]
            rfl
          · rw [if_neg hwf, if_pos (show '^' ∈ (c :: cs).dropWhile (· = '^') from not_not.mp hwf)]

/-- **What is used** is what is asked for. -/
lemma useComponent_iff (name : CString) :
    useComponent (decide (Positive requested)) (requestedVector requested) name = true ↔
      Wanted requested name := by
  rw [requestedVector, Wanted]
  by_cases hnil : requestedNames requested = []
  · simp [hnil, useComponent]
  · rw [if_neg hnil, useComponent]
    by_cases hpositive : Positive requested <;>
      by_cases hmem : name ∈ requestedNames requested <;> simp [hnil, hpositive, hmem]
    exact fun x hx hname => hmem (hname ▸ hx)

/-- The check, where it is asked for, finds the first name that is missing. -/
lemma checkRequested_cases (framework : CString) (flags : ℕ) (found : List (CString × CString)) :
    (checkRequested framework (decide (Positive requested)) (requestedVector requested) flags
          found = (.ok (), []) ∧ ¬ (Asked flags ∧ ∃ name, Missing requested found name)) ∨
      ∃ name, checkRequested framework (decide (Positive requested)) (requestedVector requested)
          flags found = (.error .notFound, [(framework, name)]) ∧
        Asked flags ∧ Missing requested found name := by
  have hvector : (requestedVector requested).getD [] = requestedNames requested := by
    rw [requestedVector]
    split_ifs with h
    · rw [h, Option.getD_none]
    · rfl
  rw [checkRequested]
  by_cases hcheck : decide (Positive requested) = true ∧ flags &&& noComponentFindCheck = 0
  · rw [if_pos hcheck, componentFindCheck, hvector]
    cases h : (requestedNames requested).find? fun name => !found.any (·.2 = name) with
    | none =>
        refine .inl ⟨rfl, ?_⟩
        rintro ⟨-, name, -, hmem, hmissing⟩
        obtain ⟨component, hcomponent, hname⟩ : ∃ component ∈ found, component.2 = name := by
          simpa using List.find?_eq_none.mp h name hmem
        exact hmissing component hcomponent hname
    | some name =>
        refine .inr ⟨name, rfl, hcheck.2, of_decide_eq_true hcheck.1, ?_, ?_⟩
        · exact List.mem_of_find?_eq_some h
        · simpa using List.find?_some h
  · rw [if_neg hcheck]
    refine .inl ⟨rfl, ?_⟩
    rintro ⟨hasked, name, hpositive, -⟩
    exact hcheck ⟨decide_eq_true hpositive, hasked⟩

end Parse

/-! ### What is found -/

namespace ComponentFinder

variable {c : ComponentFinder} {s s' : FindState c.files.length} {target : Fin c.files.length}
  {order : List (Fin c.files.length)} {includeMode : Bool} {names : Option (List CString)}
  {fuel : ℕ}

/-- Opening a file finds at most its own component. -/
lemma found_of_openComponent {r : Except Rc Unit × FindState c.files.length}
    (h : c.openComponent fuel target (s.setStatus target .checkingCycle) = some r) :
    r.2.found = s.found ∨ r.2.found = s.found ++ [c.component target] := by
  by_cases hblocked : c.Blocked s target
  · rw [openComponent_of_blocked hblocked fuel (by decide)] at h
    cases h
  · cases fuel with
    | zero => cases h
    | succ fuel =>
        have hsettle := openComponent_of_not_blocked hblocked fuel (x := .checkingCycle) (by decide)
        rw [h, Option.map_some] at hsettle
        rw [Option.some.inj hsettle, settle]
        split
        · exact .inr rfl
        · exact .inl rfl

lemma found_of_tryUsed (h : c.tryUsed includeMode names fuel s target = some s') :
    s'.found = s.found ∨ (useComponent includeMode names (c.component target).2 = true ∧
      s'.found = s.found ++ [c.component target]) := by
  rw [tryUsed] at h
  split at h
  · dsimp only at h
    split at h
    case isTrue huse =>
      obtain ⟨r, hr, rfl⟩ := Option.map_eq_some_iff.mp h
      exact (found_of_openComponent hr).imp_right fun hfound => ⟨huse, hfound⟩
    case isFalse =>
      obtain rfl := Option.some.inj h
      exact .inl rfl
  · obtain rfl := Option.some.inj h
    exact .inl rfl

/-- Everything that is found in addition is used. -/
lemma found_of_foldlM_tryUsed
    (h : order.foldlM (c.tryUsed includeMode names fuel) s = some s') :
    ∃ more, s'.found = s.found ++ more ∧
      ∀ component ∈ more, useComponent includeMode names component.2 = true := by
  induction order generalizing s with
  | nil =>
      obtain rfl := Option.some.inj h
      exact ⟨[], (List.append_nil _).symm, nofun⟩
  | cons target order ih =>
      rw [List.foldlM_cons] at h
      obtain ⟨s₁, hs₁, hrest⟩ := Option.bind_eq_some_iff.mp h
      obtain ⟨more, hmore, hall⟩ := ih hrest
      rcases found_of_tryUsed hs₁ with hfound | ⟨huse, hfound⟩
      · exact ⟨more, hfound ▸ hmore, hall⟩
      · refine ⟨c.component target :: more, ?_, List.forall_mem_cons.mpr ⟨huse, hall⟩⟩
        rw [hmore, hfound, List.append_assoc, List.singleton_append]

/-- The components that are found: all the static ones that are used, and only what is used. -/
lemma foundComponents_spec {static found : List (CString × CString)} {openDsoComponents : Bool}
    (h : c.foundComponents static includeMode names openDsoComponents fuel = some found) :
    (∀ component ∈ found, useComponent includeMode names component.2 = true) ∧
      ∀ component ∈ static, useComponent includeMode names component.2 = true →
        component ∈ found := by
  obtain ⟨more, rfl, hmore⟩ : ∃ more,
      found = (static.filter fun component => useComponent includeMode names component.2) ++ more ∧
        ∀ component ∈ more, useComponent includeMode names component.2 = true := by
    rw [foundComponents] at h
    split at h
    · obtain ⟨s, hs, rfl⟩ := Option.map_eq_some_iff.mp h
      exact found_of_foldlM_tryUsed hs
    · exact ⟨[], by rw [List.append_nil, Option.some.inj h], nofun⟩
  constructor
  · intro component hmem
    rcases List.mem_append.mp hmem with hstatic | hmem
    · exact (List.mem_filter.mp hstatic).2
    · exact hmore component hmem
  · intro component hmem huse
    exact List.mem_append_left _ (List.mem_filter.mpr ⟨hmem, huse⟩)

/-- The files that are used are not blocked when they are tried. -/
def UsedNeverBlocked (c : ComponentFinder) (includeMode : Bool) (names : Option (List CString)) :
    List (Fin c.files.length) → FindState c.files.length → Prop
  | [], _ => True
  | target :: order, s =>
      if s.status target = .unvisited then
        if useComponent includeMode names (c.component target).2 then
          ¬ c.Blocked s target ∧ UsedNeverBlocked c includeMode names order (c.settle s target)
        else UsedNeverBlocked c includeMode names order (s.setStatus target .checkingCycle)
      else UsedNeverBlocked c includeMode names order s

/-- **The search ends** exactly when no file that is used is blocked. -/
theorem foldlM_tryUsed_isSome_iff :
    (order.foldlM (c.tryUsed includeMode names (fuel + 1)) s).isSome ↔
      c.UsedNeverBlocked includeMode names order s := by
  induction order generalizing s with
  | nil => exact iff_of_true rfl trivial
  | cons target order ih =>
      rw [List.foldlM_cons, UsedNeverBlocked, tryUsed]
      by_cases hs : s.status target = .unvisited
      · rw [if_pos hs, if_pos hs]
        by_cases huse : useComponent includeMode names (c.component target).2 = true
        · rw [if_pos huse, if_pos (show useComponent includeMode names (c.files.get target).name = true
            from huse)]
          by_cases hblocked : c.Blocked s target
          · rw [openComponent_of_blocked hblocked _ (by decide)]
            exact iff_of_false (fun h => by cases h) fun h => h.1 hblocked
          · rw [openComponent_of_not_blocked hblocked fuel (by decide)]
            exact ih.trans (and_iff_right hblocked).symm
        · rw [if_neg huse, if_neg (show ¬ useComponent includeMode names (c.files.get target).name = true
            from huse)]
          exact ih
      · rw [if_neg hs, if_neg hs]
        exact ih

/-! ### When the search is exact -/

variable {type : CString} {static found : List (CString × CString)} {requested : Option CString}
  {openDsoComponents : Bool} {flags : ℕ}

lemma componentFind_of_not_wellFormed (h : ¬ WellFormedRequest requested) :
    c.componentFind type static requested openDsoComponents flags fuel =
      some { ret := .error .error, found := [], messages := [] } := by
  rw [componentFind, parseRequested_eq, if_neg h]
  rfl

/-- For a request that is well formed, what is found is returned without an error. -/
lemma componentFind_of_wellFormed (h : WellFormedRequest requested) :
    c.componentFind type static requested openDsoComponents flags fuel =
      (c.foundComponents static (decide (Positive requested)) (requestedVector requested)
        openDsoComponents fuel).map fun found =>
          { ret := .ok (), found, messages := (checkRequested type
              (decide (Positive requested)) (requestedVector requested) flags found).2 } := by
  rw [componentFind, parseRequested_eq, if_pos h, Option.bind_eq_bind, Option.bind_some]
  dsimp only
  cases c.foundComponents static (decide (Positive requested)) (requestedVector requested)
    openDsoComponents fuel <;> rfl

lemma of_componentFind {r : FindResult} (h : WellFormedRequest requested)
    (hr : c.componentFind type static requested openDsoComponents flags fuel = some r) :
    r.ret = .ok () ∧ c.foundComponents static (decide (Positive requested))
      (requestedVector requested) openDsoComponents fuel = some r.found := by
  rw [componentFind_of_wellFormed h] at hr
  obtain ⟨found, hfound, rfl⟩ := Option.map_eq_some_iff.mp hr
  exact ⟨rfl, hfound⟩

lemma componentFind_of_found (h : WellFormedRequest requested)
    (hfound : c.foundComponents static (decide (Positive requested))
      (requestedVector requested) openDsoComponents fuel = some found) :
    ∃ r, c.componentFind type static requested openDsoComponents flags fuel = some r ∧
      r.found = found := by
  rw [componentFind_of_wellFormed h, hfound]
  exact ⟨_, rfl, rfl⟩

end ComponentFinder

/-- **The filter returns the error** that the search does not. -/
theorem componentsFilter_exact (framework : CString) (paramField : CString × CString → ℕ)
    (components : List (CString × CString)) (filterNames : Option CString)
    (filterFlags flags : ℕ) :
    ∃ r, componentsFilter framework paramField components filterNames filterFlags flags = some r ∧
      (NamesMissing filterNames framework r ↔
        Asked flags ∧ WellFormedRequest filterNames ∧ ∃ name, Missing filterNames r.found name) := by
  rw [componentsFilter]
  by_cases hnone : filterFlags = 0 ∧ filterNames = none
  · rw [if_pos hnone, hnone.2]
    refine ⟨_, rfl, iff_of_false ?_ ?_⟩
    · rintro ⟨rc, name, herror, -⟩
      cases herror
    · rintro ⟨-, -, name, -, hmem, -⟩
      cases hmem
  · rw [if_neg hnone, parseRequested_eq]
    by_cases hwf : WellFormedRequest filterNames
    · rw [if_pos hwf, Option.bind_eq_bind, Option.bind_some]
      dsimp only
      generalize components.filter _ = found
      rcases checkRequested_cases filterNames framework flags found with
        ⟨hok, hnot⟩ | ⟨name, herror, hasked, hmissing⟩
      · rw [hok]
        refine ⟨_, rfl, iff_of_false ?_ fun h => hnot ⟨h.1, h.2.2⟩⟩
        rintro ⟨rc, name, herror, -⟩
        cases herror
      · rw [herror]
        exact ⟨_, rfl, iff_of_true ⟨.notFound, name, rfl, rfl, hmissing⟩
          ⟨hasked, hwf, name, hmissing⟩⟩
    · rw [if_neg hwf]
      refine ⟨_, rfl, iff_of_false ?_ fun h => hwf h.2.1⟩
      rintro ⟨rc, name, -, hmessages, -⟩
      cases hmessages

end Ocoms
