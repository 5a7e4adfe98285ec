import Ocoms.Lib.Dependencies
import Ocoms.Mca.VarGroup
import Mathlib.Data.Fin.Basic
import Mathlib.Data.List.ReduceOption
import Mathlib.Logic.Function.Basic

/-!
Loading components behind their dependencies: `mca_base_component_find.c`.

* `ComponentFinder` is what stays the same while files are tried: the files that were found, the
  contents of their `.ompi_info` files, and which of them can be opened.
* `openComponent`, `checkOmpiInfo` and `checkDependency` are the functions of the source. The first
  has a fuel argument; `none` says that it has run out.
* `ComponentFinder.settle` is what trying a file comes to where the functions do not call one
  another for ever: `tryFile_of_not_blocked`, `tryFile_of_blocked`.
* `components_load_in_order_iff` says in which order of trying the files everything is loaded behind
  its dependencies.
-/

namespace Ocoms

/-- `component_status_t`. -/
inductive ComponentStatus
  | unvisited
  | failedToLoad
  | checkingCycle
  | loaded
  deriving DecidableEq

/-- `component_file_item_t`. The status is kept in `FindState`. -/
structure ComponentFile where
  type : CString
  name : CString
  basename : CString
  filename : CString

/-- `mca_type_name` and `mca_component_name`. -/
def ComponentFile.component (file : ComponentFile) : CString × CString := (file.type, file.name)

/-- `found_files`, and what is outside: the lines of a file as `fgets` returns them, the concatenation
of texts with a delimiter, and whether a file can be opened and has the component that its name
says. -/
structure ComponentFinder where
  files : List ComponentFile
  lines : CString → Option (List CString)
  concatDelimited : List CString → CString → CString
  opens : ComponentFile → Bool

/-- The state: the status of the files, `found_components`, and the dependencies that were linked in
the repository. -/
structure FindState (n : ℕ) where
  status : Fin n → ComponentStatus
  found : List (CString × CString)
  links : List ((CString × CString) × (CString × CString))

/-- Writes the status of a file. -/
def FindState.setStatus {n : ℕ} (s : FindState n) (target : Fin n) (status : ComponentStatus) :
    FindState n :=
  { s with status := Function.update s.status target status }

/-! ### The lines of a file -/

/-- `ompi_info_suffix`. -/
def ompiInfoSuffix : CString := ".ompi_info".toList

/-- `key_dependency`. -/
def keyDependency : CString := "dependency=".toList

/-- `component_template`. -/
def componentTemplate : CString := "mca".toList

/-- `BUFSIZ`. -/
def bufsiz : ℕ := 8192

/-- A line without its newline. -/
def chomp (buffer : CString) : CString :=
  if buffer.getLast? = some '\n' then buffer.dropLast else buffer

/-- What `check_ompi_info` makes of a line: the text behind `dependency=`. Empty lines, comments and
other lines are ignored. -/
def readInfoLine (buffer : CString) : Option CString :=
  let p := (chomp buffer).dropWhile isSpace
  if p = [] then none
  else if p.head? = some '#' ∨ p.take 2 = "//".toList then none
  else if strncaseeq keyDependency.length p keyDependency then some (p.drop keyDependency.length)
  else none

/-- The type and the name in front of and behind `OCOMS_ENV_SEP`. -/
def splitDependency (line : CString) : Option (CString × CString) :=
  if ':' ∈ line then
    some (line.takeWhile (· ≠ ':'), (line.dropWhile (· ≠ ':')).drop 1)
  else none

namespace ComponentFinder

variable (c : ComponentFinder)

/-- The `basename` that a dependency is looked for with. -/
def dependencyBasename (type name : CString) : CString :=
  let buffer := c.concatDelimited [componentTemplate, type] ['_'] ++ ['_']
  buffer ++ name.take (bufsiz - buffer.length)

/-- The first file with that `basename`. -/
def findFile (type name : CString) : Option (Fin c.files.length) :=
  c.files.findFinIdx? fun file => file.basename = c.dependencyBasename type name

/-! ### The functions -/

section Functions

variable (openC : Fin c.files.length → FindState c.files.length →
  Option (Except Rc Unit × FindState c.files.length))

/-- `check_dependency`, with `openC` for `open_component`, and the dependencies so far. A dependency
that is still to be looked at is not opened: the call is for the file itself once more. -/
def checkDependency (line : CString) (target : Fin c.files.length)
    (dependencies : List (Fin c.files.length)) (s : FindState c.files.length) :
    Option (Except Rc Unit × List (Fin c.files.length) × FindState c.files.length) :=
  match splitDependency line with
  | none => some (.error .outOfResource, dependencies, s)
  | some (type, name) =>
      if bufsiz ≤ type.length + name.length + 32 then
        some (.error .outOfResource, dependencies, s.setStatus target .failedToLoad)
      else
        let s := s.setStatus target .checkingCycle
        match c.findFile type name with
        | none => some (.error .badParam, dependencies, s.setStatus target .failedToLoad)
        | some item =>
            if item = target then some (.ok (), dependencies ++ [item], s)
            else
              match s.status item with
              | .loaded => some (.ok (), dependencies ++ [item], s)
              | .failedToLoad | .checkingCycle =>
                  some (.error .badParam, dependencies, s.setStatus target .failedToLoad)
              | .unvisited => do
                  let (ret, s) ← openC target s
                  if ret = .ok () then some (.ok (), dependencies ++ [item], s)
                  else some (.error .badParam, dependencies, s.setStatus target .failedToLoad)

/-- The loop of `check_ompi_info` over the lines. -/
def checkLines (target : Fin c.files.length) :
    List CString → List (Fin c.files.length) → FindState c.files.length →
      Option (Except Rc Unit × List (Fin c.files.length) × FindState c.files.length)
  | [], dependencies, s => some (.ok (), dependencies, s)
  | buffer :: lines, dependencies, s =>
      match readInfoLine buffer with
      | none => checkLines target lines dependencies s
      | some line => do
          let (ret, dependencies, s) ← c.checkDependency openC line target dependencies s
          if ret = .ok () then checkLines target lines dependencies s
          else some (.error .outOfResource, [], s)

/-- `check_ompi_info`. Without a file there are no dependencies. -/
def checkOmpiInfo (target : Fin c.files.length) (s : FindState c.files.length) :
    Option (Except Rc Unit × List (Fin c.files.length) × FindState c.files.length) :=
  match c.lines (c.files[target].filename ++ ompiInfoSuffix) with
  | none => some (.ok (), [], s)
  | some lines => c.checkLines openC target lines [] s

end Functions

/-- The component of a file. -/
def component (target : Fin c.files.length) : CString × CString := c.files[target].component

/-- `open_component`. -/
def openComponent : ℕ → Fin c.files.length → FindState c.files.length →
    Option (Except Rc Unit × FindState c.files.length)
  | 0, _, _ => none
  | fuel + 1, target, s =>
      if s.status target = .loaded then some (.ok (), s)
      else if c.component target ∈ s.found then
        some (.error .badParam, s.setStatus target .failedToLoad)
      else do
        let (ret, dependencies, s) ← c.checkOmpiInfo (openComponent fuel) target s
        if ret ≠ .ok () then some (.error .outOfResource, s.setStatus target .failedToLoad)
        else if !c.opens c.files[target] then
          some (.error .badParam, s.setStatus target .failedToLoad)
        else
          some (.ok (), { s.setStatus target .loaded with
            found := s.found ++ [c.component target]
            links := s.links ++
              dependencies.map fun item => (c.component target, c.component item) })

/-- One pass of the loop over the files in `find_dyn_components`. -/
def tryFile (fuel : ℕ) (s : FindState c.files.length) (target : Fin c.files.length) :
    Option (FindState c.files.length) :=
  if s.status target = .unvisited then
    (c.openComponent fuel target (s.setStatus target .checkingCycle)).map Prod.snd
  else some s

/-- The files are tried, one after the other. -/
def tryFiles (fuel : ℕ) (order : List (Fin c.files.length)) (s : FindState c.files.length) :
    Option (FindState c.files.length) :=
  order.foldlM (c.tryFile fuel) s

/-! ### What trying a file comes to -/

/-- The file that a dependency leads to. -/
def resolve (line : CString) : Option (Fin c.files.length) :=
  match splitDependency line with
  | none => none
  | some (type, name) =>
      if bufsiz ≤ type.length + name.length + 32 then none else c.findFile type name

/-- The dependencies in some lines, each with the file that it leads to. -/
def resolveLines (lines : List CString) : List (Option (Fin c.files.length)) :=
  (lines.filterMap readInfoLine).map c.resolve

/-- The dependencies of a file. -/
def dependencies (target : Fin c.files.length) : List (Option (Fin c.files.length)) :=
  c.resolveLines ((c.lines (c.files[target].filename ++ ompiInfoSuffix)).getD [])

/-- **A dependency is met** when it is on the file itself, or on a file that is loaded. -/
def meets (s : FindState c.files.length) (target : Fin c.files.length) :
    Option (Fin c.files.length) → Bool
  | none => false
  | some item => item = target || s.status item = .loaded

/-- The first of some dependencies that is not met. -/
def firstUnmet (s : FindState c.files.length) (target : Fin c.files.length)
    (ds : List (Option (Fin c.files.length))) : Option (Option (Fin c.files.length)) :=
  ds.find? fun d => !c.meets s target d

/-- **A file is blocked** when its first dependency that is not met is on a file that has still to be
tried. -/
def Blocked (s : FindState c.files.length) (target : Fin c.files.length) : Prop :=
  c.component target ∉ s.found ∧
    ∃ item, c.firstUnmet s target (c.dependencies target) = some (some item) ∧
      s.status item = .unvisited

/-- **A file is ready** when its dependencies are met, it can be opened, and there is no component of
its name yet. -/
def Ready (s : FindState c.files.length) (target : Fin c.files.length) : Prop :=
  c.component target ∉ s.found ∧ c.firstUnmet s target (c.dependencies target) = none ∧
    c.opens c.files[target] = true

instance (s : FindState c.files.length) (target : Fin c.files.length) :
    Decidable (c.Ready s target) :=
  inferInstanceAs (Decidable (_ ∧ _ ∧ _))

/-- A file that is ready is loaded, any other fails. -/
def settle (s : FindState c.files.length) (target : Fin c.files.length) :
    FindState c.files.length :=
  if c.Ready s target then
    { s.setStatus target .loaded with
      found := s.found ++ [c.component target]
      links := s.links ++ (c.dependencies target).reduceOption.map fun item =>
        (c.component target, c.component item) }
  else s.setStatus target .failedToLoad

/-- **No file is blocked** when it is tried. -/
def NeverBlocked : List (Fin c.files.length) → FindState c.files.length → Prop
  | [], _ => True
  | target :: order, s =>
      if s.status target = .unvisited then
        ¬ c.Blocked s target ∧ NeverBlocked order (c.settle s target)
      else NeverBlocked order s

end ComponentFinder

section Status

variable {n : ℕ} (s : FindState n) {target item : Fin n} (x y : ComponentStatus)

@[simp]
lemma FindState.setStatus_setStatus :
    (s.setStatus target x).setStatus target y = s.setStatus target y := by
  rw [setStatus, setStatus, setStatus, Function.update_idem]

@[simp]
lemma FindState.setStatus_self : (s.setStatus target x).status target = x :=
  Function.update_self _ _ _

lemma FindState.setStatus_of_ne (h : item ≠ target) :
    (s.setStatus target x).status item = s.status item :=
  Function.update_of_ne h _ _

end Status

namespace ComponentFinder

variable {c : ComponentFinder} {s : FindState c.files.length} {target item : Fin c.files.length}
  {openC : Fin c.files.length → FindState c.files.length →
    Option (Except Rc Unit × FindState c.files.length)}
  {line : CString} {lines : List CString} {deps : List (Fin c.files.length)} {x : ComponentStatus}

/-! ### The functions, dependency by dependency -/

lemma checkDependency_of_none (h : c.resolve line = none) :
    ∃ rc y, c.checkDependency openC line target deps (s.setStatus target x)
      = some (.error rc, deps, s.setStatus target y) := by
  rw [resolve] at h
  rw [checkDependency]
  cases hsplit : splitDependency line with
  | none => exact ⟨_, _, rfl⟩
  | some p =>
      obtain ⟨type, name⟩ := p
      rw [hsplit] at h
      dsimp only at h ⊢
      by_cases hlen : bufsiz ≤ type.length + name.length + 32
      · rw [if_pos hlen, FindState.setStatus_setStatus]
        exact ⟨_, _, rfl⟩
      · rw [if_neg hlen] at h ⊢
        rw [h, FindState.setStatus_setStatus, FindState.setStatus_setStatus]
        exact ⟨_, _, rfl⟩

lemma checkDependency_of_some (h : c.resolve line = some item) :
    c.checkDependency openC line target deps (s.setStatus target x) =
      if item = target then some (.ok (), deps ++ [item], s.setStatus target .checkingCycle)
      else
        match s.status item with
        | .loaded => some (.ok (), deps ++ [item], s.setStatus target .checkingCycle)
        | .failedToLoad | .checkingCycle =>
            some (.error .badParam, deps, s.setStatus target .failedToLoad)
        | .unvisited => (openC target (s.setStatus target .checkingCycle)).bind fun r =>
            if r.1 = .ok () then some (.ok (), deps ++ [item], r.2)
            else some (.error .badParam, deps, r.2.setStatus target .failedToLoad) := by
  rw [resolve] at h
  rw [checkDependency]
  cases hsplit : splitDependency line with
  | none =>
      rw [hsplit] at h
      cases h
  | some p =>
      obtain ⟨type, name⟩ := p
      rw [hsplit] at h
      dsimp only at h ⊢
      by_cases hlen : bufsiz ≤ type.length + name.length + 32
      · rw [if_pos hlen] at h
        cases h
      · rw [if_neg hlen] at h ⊢
        simp only [h, FindState.setStatus_setStatus]
        by_cases hself : item = target
        · rw [if_pos hself, if_pos hself]
        · rw [if_neg hself, if_neg hself, FindState.setStatus_of_ne _ _ hself]
          rfl

/-- A dependency that is met. -/
lemma checkDependency_of_meets (h : c.meets s target (c.resolve line) = true) :
    ∃ item, c.resolve line = some item ∧
      c.checkDependency openC line target deps (s.setStatus target x)
        = some (.ok (), deps ++ [item], s.setStatus target .checkingCycle) := by
  cases hresolve : c.resolve line with
  | none =>
      rw [hresolve] at h
      cases h
  | some item =>
      refine ⟨item, rfl, ?_⟩
      rw [checkDependency_of_some hresolve]
      rw [hresolve, meets, Bool.or_eq_true, decide_eq_true_eq, decide_eq_true_eq] at h
      by_cases hself : item = target
      · rw [if_pos hself]
      · rw [if_neg hself, h.resolve_left hself]

/-- A dependency that is not met, on no file or on one that was tried. -/
lemma checkDependency_of_unmet (h : c.meets s target (c.resolve line) = false)
    (htried : ∀ item, c.resolve line = some item → s.status item ≠ .unvisited) :
    ∃ rc y, c.checkDependency openC line target deps (s.setStatus target x)
      = some (.error rc, deps, s.setStatus target y) := by
  cases hresolve : c.resolve line with
  | none => exact checkDependency_of_none hresolve
  | some item =>
      rw [checkDependency_of_some hresolve]
      rw [hresolve, meets, Bool.or_eq_false_iff, decide_eq_false_iff_not, decide_eq_false_iff_not]
        at h
      rw [if_neg h.1]
      cases hstatus : s.status item with
      | unvisited => exact absurd hstatus (htried item hresolve)
      | failedToLoad => exact ⟨_, _, rfl⟩
      | checkingCycle => exact ⟨_, _, rfl⟩
      | loaded => exact absurd hstatus h.2

/-- The lines of a file, when all dependencies are met, or the first that is not is on no file that has
still to be tried. -/
lemma checkLines_cases
    (htried : ∀ item, c.firstUnmet s target (c.resolveLines lines) = some (some item) →
      s.status item ≠ .unvisited) :
    (c.firstUnmet s target (c.resolveLines lines) = none ∧
        ∃ y, c.checkLines openC target lines deps (s.setStatus target x)
          = some (.ok (), deps ++ (c.resolveLines lines).reduceOption, s.setStatus target y)) ∨
      (c.firstUnmet s target (c.resolveLines lines) ≠ none ∧
        ∃ y, c.checkLines openC target lines deps (s.setStatus target x)
          = some (.error .outOfResource, [], s.setStatus target y)) := by
  induction lines generalizing deps x with
  | nil =>
      refine Or.inl ⟨rfl, x, ?_⟩
      rw [checkLines]
      exact congrArg (fun l => some (_, l, _)) (List.append_nil deps).symm
  | cons buffer lines ih =>
      cases hread : readInfoLine buffer with
      | none =>
          have hsame : c.resolveLines (buffer :: lines) = c.resolveLines lines := by
            rw [resolveLines, List.filterMap_cons_none hread, ← resolveLines]
          rw [hsame] at htried ⊢
          rw [checkLines, hread]
          exact ih htried
      | some line =>
          have hcons : c.resolveLines (buffer :: lines) = c.resolve line :: c.resolveLines lines := by
            rw [resolveLines, List.filterMap_cons_some hread, List.map_cons, ← resolveLines]
          rw [hcons, firstUnmet] at htried ⊢
          rw [checkLines, hread]
          dsimp only [bind]
          by_cases hmeets : c.meets s target (c.resolve line) = true
          · obtain ⟨item, hitem, hcheck⟩ := checkDependency_of_meets hmeets
            rw [List.find?_cons_of_neg (by rw [hmeets]; decide), ← firstUnmet] at htried ⊢
            rw [hcheck, Option.bind_some]
            dsimp only
            rw [if_pos rfl]
            rcases ih htried with ⟨hnone, y, hy⟩ | ⟨hsome, y, hy⟩
            · refine Or.inl ⟨hnone, y, ?_⟩
              rw [hy, hitem, List.reduceOption_cons_of_some, List.append_assoc]
              rfl
            · exact Or.inr ⟨hsome, y, hy⟩
          · have hunmet := Bool.eq_false_iff.mpr hmeets
            rw [List.find?_cons_of_pos (by rw [hunmet]; decide)] at htried ⊢
            obtain ⟨rc, y, hcheck⟩ := checkDependency_of_unmet hunmet fun item hitem =>
              htried item (congrArg some hitem)
            rw [hcheck, Option.bind_some]
            dsimp only
            rw [if_neg (fun h => by cases h)]
            exact Or.inr ⟨(fun h => by cases h), y, rfl⟩

/-- The lines of a file whose first dependency that is not met is on a file that has still to be
tried. -/
lemma checkLines_of_blocked
    (hunmet : c.firstUnmet s target (c.resolveLines lines) = some (some item))
    (hitem : s.status item = .unvisited)
    (hopen : openC target (s.setStatus target .checkingCycle) = none) :
    c.checkLines openC target lines deps (s.setStatus target x) = none := by
  induction lines generalizing deps x with
  | nil => cases hunmet
  | cons buffer lines ih =>
      cases hread : readInfoLine buffer with
      | none =>
          have hsame : c.resolveLines (buffer :: lines) = c.resolveLines lines := by
            rw [resolveLines, List.filterMap_cons_none hread, ← resolveLines]
          rw [hsame] at hunmet
          rw [checkLines, hread]
          exact ih hunmet
      | some line =>
          have hcons : c.resolveLines (buffer :: lines) = c.resolve line :: c.resolveLines lines := by
            rw [resolveLines, List.filterMap_cons_some hread, List.map_cons, ← resolveLines]
          rw [hcons, firstUnmet] at hunmet
          rw [checkLines, hread]
          dsimp only [bind]
          by_cases hmeets : c.meets s target (c.resolve line) = true
          · obtain ⟨item', -, hcheck⟩ := checkDependency_of_meets hmeets
            rw [List.find?_cons_of_neg (by rw [hmeets]; decide), ← firstUnmet] at hunmet
            rw [hcheck, Option.bind_some]
            dsimp only
            rw [if_pos rfl]
            exact ih hunmet
          · have hfalse := Bool.eq_false_iff.mpr hmeets
            rw [List.find?_cons_of_pos (by rw [hfalse]; decide)] at hunmet
            have hresolve := Option.some.inj hunmet
            rw [hresolve, meets, Bool.or_eq_false_iff, decide_eq_false_iff_not] at hfalse
            rw [checkDependency_of_some hresolve, if_neg hfalse.1, hitem, hopen]
            rfl

/-- The `.ompi_info` file of a file that is not blocked. -/
lemma checkOmpiInfo_cases
    (htried : ∀ item, c.firstUnmet s target (c.dependencies target) = some (some item) →
      s.status item ≠ .unvisited) :
    (c.firstUnmet s target (c.dependencies target) = none ∧
        ∃ y, c.checkOmpiInfo openC target (s.setStatus target x)
          = some (.ok (), (c.dependencies target).reduceOption, s.setStatus target y)) ∨
      (c.firstUnmet s target (c.dependencies target) ≠ none ∧
        ∃ y, c.checkOmpiInfo openC target (s.setStatus target x)
          = some (.error .outOfResource, [], s.setStatus target y)) := by
  rw [dependencies] at htried ⊢
  rw [checkOmpiInfo]
  cases hlines : c.lines (c.files[target].filename ++ ompiInfoSuffix) with
  | none => exact Or.inl ⟨rfl, x, rfl⟩
  | some lines =>
      rw [hlines] at htried
      exact checkLines_cases htried

/-- **A file that is blocked** calls itself for ever. -/
lemma openComponent_of_blocked (h : c.Blocked s target) (fuel : ℕ) (hx : x ≠ .loaded) :
    c.openComponent fuel target (s.setStatus target x) = none := by
  obtain ⟨hnew, item, hunmet, hitem⟩ := h
  induction fuel generalizing x with
  | zero => rfl
  | succ fuel ih =>
      have hself : (s.setStatus target x).status target ≠ .loaded := by
        rwa [FindState.setStatus_self]
      have hfound : c.component target ∉ (s.setStatus target x).found := hnew
      rw [openComponent, if_neg hself, if_neg hfound, checkOmpiInfo]
      rw [dependencies] at hunmet
      cases hlines : c.lines (c.files[target].filename ++ ompiInfoSuffix) with
      | none =>
          rw [hlines] at hunmet
          cases hunmet
      | some lines =>
          rw [hlines, Option.getD_some] at hunmet
          dsimp only [bind]
          rw [checkLines_of_blocked hunmet hitem (ih (fun h => by cases h))]
          rfl

/-- **Any other file** is loaded, or it fails. -/
lemma openComponent_of_not_blocked (h : ¬ c.Blocked s target) (fuel : ℕ) (hx : x ≠ .loaded) :
    (c.openComponent (fuel + 1) target (s.setStatus target x)).map Prod.snd
      = some (c.settle s target) := by
  have hself : (s.setStatus target x).status target ≠ .loaded := by
    rwa [FindState.setStatus_self]
  rw [openComponent, if_neg hself, settle]
  by_cases hfound : c.component target ∈ s.found
  · have hfound' : c.component target ∈ (s.setStatus target x).found := hfound
    rw [if_pos hfound', if_neg fun hready => hready.1 hfound, FindState.setStatus_setStatus]
    rfl
  · have hfound' : c.component target ∉ (s.setStatus target x).found := hfound
    rw [if_neg hfound']
    have htried : ∀ item, c.firstUnmet s target (c.dependencies target) = some (some item) →
        s.status item ≠ .unvisited := fun item hunmet hitem => h ⟨hfound, item, hunmet, hitem⟩
    dsimp only [bind]
    rcases checkOmpiInfo_cases htried with ⟨hnone, y, hy⟩ | ⟨hsome, y, hy⟩
    · rw [hy, Option.bind_some]
      dsimp only
      rw [if_neg (not_not.mpr rfl)]
      by_cases hopens : c.opens c.files[target] = true
      · have hready : c.Ready s target := ⟨hfound, hnone, hopens⟩
        rw [if_pos hready, if_neg (by rw [hopens]; decide), FindState.setStatus_setStatus]
        rfl
      · have hready : ¬ c.Ready s target := fun hready => hopens hready.2.2
        rw [if_neg hready, if_pos (by rw [Bool.eq_false_iff.mpr hopens]; rfl),
          FindState.setStatus_setStatus]
        rfl
    · rw [hy, Option.bind_some]
      dsimp only
      rw [if_pos (fun h => by cases h), if_neg fun hready => hsome hready.2.1,
        FindState.setStatus_setStatus]
      rfl

lemma tryFile_of_blocked (h : c.Blocked s target) (hs : s.status target = .unvisited) (fuel : ℕ) :
    c.tryFile fuel s target = none := by
  rw [tryFile, if_pos hs, openComponent_of_blocked h fuel (fun h => by cases h)]
  rfl

lemma tryFile_of_not_blocked (h : ¬ c.Blocked s target) (hs : s.status target = .unvisited)
    (fuel : ℕ) : c.tryFile (fuel + 1) s target = some (c.settle s target) := by
  rw [tryFile, if_pos hs, openComponent_of_not_blocked h fuel (fun h => by cases h)]

/-! ### All files -/

/-- A file depends on another one. What it says about itself does not count. -/
def DependsOn (c : ComponentFinder) (target item : Fin c.files.length) : Prop :=
  some item ∈ c.dependencies target ∧ item ≠ target

variable {s₀ s' : FindState c.files.length} {order : List (Fin c.files.length)} {fuel : ℕ}

/-- What holds while files are tried: the loaded files, in the order in which they were loaded. -/
structure Loading (c : ComponentFinder) (s₀ s : FindState c.files.length)
    (loaded : List (Fin c.files.length)) : Prop where
  found : s.found = s₀.found ++ loaded.map c.component
  status : ∀ item, s.status item = .loaded ↔ item ∈ loaded
  order : DependenciesFirst c.DependsOn loaded
  complete : ∀ item ∈ loaded, none ∉ c.dependencies item
  finished : ∀ item, s.status item ≠ .checkingCycle

/-- The dependencies of a file that is ready. -/
lemma Ready.meets (h : c.Ready s target) {d : Option (Fin c.files.length)}
    (hd : d ∈ c.dependencies target) : ∃ item, d = some item ∧
      (item = target ∨ s.status item = .loaded) := by
  have hmeets := List.find?_eq_none.mp h.2.1 d hd
  rw [Bool.not_eq_true, Bool.not_eq_false'] at hmeets
  cases d with
  | none => cases hmeets
  | some item =>
      rw [ComponentFinder.meets, Bool.or_eq_true, decide_eq_true_eq, decide_eq_true_eq] at hmeets
      exact ⟨item, rfl, hmeets⟩

/-- **One file**: a file that was not tried before is loaded behind the others, or it fails. -/
lemma Loading.settle {loaded : List (Fin c.files.length)} (h : c.Loading s₀ s loaded)
    (hs : s.status target = .unvisited) :
    (∃ loaded', c.Loading s₀ (c.settle s target) loaded') ∧
      (∀ item, item ≠ target → (c.settle s target).status item = s.status item) ∧
      (c.settle s target).status target ≠ .unvisited := by
  have hnew : target ∉ loaded := by
    intro hmem
    rw [(h.status target).mpr hmem] at hs
    cases hs
  rw [ComponentFinder.settle]
  by_cases hready : c.Ready s target
  · rw [if_pos hready]
    refine ⟨⟨loaded ++ [target], ?_, fun item => ?_, h.order.concat ?_, ?_, fun item => ?_⟩,
      fun item hne => FindState.setStatus_of_ne s _ hne, ?_⟩
    · rw [List.map_append, ← List.append_assoc, ← h.found]
      rfl
    · rw [List.mem_append, List.mem_singleton, ← h.status item]
      by_cases hitem : item = target
      · subst hitem
        exact iff_of_true (FindState.setStatus_self s _) (Or.inr rfl)
      · rw [or_iff_left hitem]
        exact Eq.congr_left (FindState.setStatus_of_ne s _ hitem)
    · rintro item ⟨hitem, hne⟩
      obtain ⟨item', heq, hmet⟩ := hready.meets hitem
      obtain rfl := Option.some.inj heq
      exact (h.status item).mp (hmet.resolve_left hne)
    · intro item hitem hnone
      rcases List.mem_append.mp hitem with hold | hlast
      · exact h.complete item hold hnone
      · rw [List.mem_singleton.mp hlast] at hnone
        obtain ⟨item', heq, -⟩ := hready.meets hnone
        cases heq
    · by_cases hitem : item = target
      · subst hitem
        exact fun hc => by
          have hself : (s.setStatus item .loaded).status item = .loaded := FindState.setStatus_self s _
          cases hself.symm.trans hc
      · exact fun hc => h.finished item ((FindState.setStatus_of_ne s _ hitem).symm.trans hc)
    · exact fun hc => by
        have hself : (s.setStatus target .loaded).status target = .loaded :=
          FindState.setStatus_self s _
        cases hself.symm.trans hc
  · rw [if_neg hready]
    refine ⟨⟨loaded, h.found, fun item => ?_, h.order, h.complete, fun item => ?_⟩,
      fun item hne => FindState.setStatus_of_ne s _ hne, ?_⟩
    · by_cases hitem : item = target
      · subst hitem
        rw [FindState.setStatus_self]
        exact iff_of_false (fun hc => by cases hc) hnew
      · rw [FindState.setStatus_of_ne s _ hitem]
        exact h.status item
    · by_cases hitem : item = target
      · subst hitem
        rw [FindState.setStatus_self]
        exact fun hc => by cases hc
      · rw [FindState.setStatus_of_ne s _ hitem]
        exact h.finished item
    · rw [FindState.setStatus_self]
      exact fun hc => by cases hc

/-- **All files**, when none is blocked. -/
lemma tryFiles_of_neverBlocked {loaded : List (Fin c.files.length)} (hnever : c.NeverBlocked order s)
    (h : c.Loading s₀ s loaded) (fuel : ℕ) :
    ∃ s' loaded', c.tryFiles (fuel + 1) order s = some s' ∧ c.Loading s₀ s' loaded' ∧
      (∀ item, s.status item ≠ .unvisited → s'.status item ≠ .unvisited) ∧
      ∀ item ∈ order, s'.status item ≠ .unvisited := by
  induction order generalizing s loaded with
  | nil => exact ⟨s, loaded, rfl, h, fun _ => id, fun item hitem => by cases hitem⟩
  | cons target order ih =>
      rw [NeverBlocked] at hnever
      rw [tryFiles, List.foldlM_cons]
      by_cases hs : s.status target = .unvisited
      · rw [if_pos hs] at hnever
        rw [tryFile_of_not_blocked hnever.1 hs fuel]
        obtain ⟨⟨loaded₁, h₁⟩, hothers, htarget⟩ := h.settle hs
        obtain ⟨s', loaded', hrun, h', hkeep, hall⟩ := ih hnever.2 h₁
        refine ⟨s', loaded', hrun, h', fun item hitem => hkeep item ?_, ?_⟩
        · by_cases heq : item = target
          · exact heq ▸ htarget
          · rw [hothers item heq]
            exact hitem
        · exact List.forall_mem_cons.mpr ⟨hkeep target htarget, hall⟩
      · rw [if_neg hs] at hnever
        rw [tryFile, if_neg hs]
        obtain ⟨s', loaded', hrun, h', hkeep, hall⟩ := ih hnever h
        exact ⟨s', loaded', hrun, h', hkeep, List.forall_mem_cons.mpr ⟨hkeep target hs, hall⟩⟩

/-- **All files**, when one is blocked: the functions call one another for ever. -/
lemma tryFiles_of_blocked (hblocked : ¬ c.NeverBlocked order s) (fuel : ℕ) :
    c.tryFiles fuel order s = none := by
  induction order generalizing s with
  | nil => exact absurd trivial hblocked
  | cons target order ih =>
      rw [NeverBlocked] at hblocked
      rw [tryFiles, List.foldlM_cons]
      by_cases hs : s.status target = .unvisited
      · rw [if_pos hs] at hblocked
        by_cases hb : c.Blocked s target
        · rw [tryFile_of_blocked hb hs fuel]
          rfl
        · cases fuel with
          | zero =>
              rw [tryFile, if_pos hs]
              rfl
          | succ fuel =>
              rw [tryFile_of_not_blocked hb hs fuel]
              exact ih fun hrest => hblocked ⟨hb, hrest⟩
      · rw [if_neg hs] at hblocked
        rw [tryFile, if_neg hs]
        exact ih hblocked

end ComponentFinder

/-- **Everything is loaded behind its dependencies**: the loaded files are in `found_components` in an
order with the dependencies first; and the files that are on a cycle or depend on one, and those that
depend on a missing or a failed file, fail. -/
structure LoadedInOrder (c : ComponentFinder) (s₀ s : FindState c.files.length) : Prop where
  order : ∃ loaded : List (Fin c.files.length), s.found = s₀.found ++ loaded.map c.component ∧
    (∀ item, s.status item = .loaded ↔ item ∈ loaded) ∧ DependenciesFirst c.DependsOn loaded
  settled : ∀ item, s.status item = .loaded ∨ s.status item = .failedToLoad
  cycle : ∀ target item, Relation.ReflTransGen c.DependsOn target item →
    Relation.TransGen c.DependsOn item item → s.status target = .failedToLoad
  missing : ∀ target item, Relation.ReflTransGen c.DependsOn target item →
    none ∈ c.dependencies item → s.status target = .failedToLoad
  failed : ∀ target item, Relation.ReflTransGen c.DependsOn target item →
    s.status item = .failedToLoad → s.status target = .failedToLoad

namespace ComponentFinder

variable {c : ComponentFinder} {s₀ s : FindState c.files.length}

lemma Loading.loadedInOrder {loaded : List (Fin c.files.length)} (h : c.Loading s₀ s loaded)
    (hall : ∀ item, s.status item ≠ .unvisited) : LoadedInOrder c s₀ s := by
  have hsettled : ∀ item, s.status item = .loaded ∨ s.status item = .failedToLoad := by
    intro item
    cases hstatus : s.status item with
    | unvisited => exact absurd hstatus (hall item)
    | failedToLoad => exact Or.inr rfl
    | checkingCycle => exact absurd hstatus (h.finished item)
    | loaded => exact Or.inl rfl
  have hmem : ∀ {target item}, Relation.ReflTransGen c.DependsOn target item →
      s.status target = .loaded → item ∈ loaded := fun hpath hstatus =>
    h.order.mem ((h.status _).mp hstatus) hpath
  refine ⟨⟨loaded, h.found, h.status, h.order⟩, hsettled, ?_, ?_, ?_⟩
  · intro target item hpath hcycle
    refine (hsettled target).resolve_left fun hstatus => ?_
    exact h.order.not_cycle ((h.status target).mp hstatus) hpath hcycle
  · intro target item hpath hnone
    refine (hsettled target).resolve_left fun hstatus => ?_
    exact h.complete item (hmem hpath hstatus) hnone
  · intro target item hpath hfailed
    refine (hsettled target).resolve_left fun hstatus => ?_
    have hloaded := (h.status item).mpr (hmem hpath hstatus)
    rw [hfailed] at hloaded
    cases hloaded

end ComponentFinder

/-- **The order in which components load.** Trying all files, one after the other, ends, and everything
is loaded behind its dependencies, if and only if no file is blocked when it is tried. -/
theorem components_load_in_order_iff (c : ComponentFinder) (found : List (CString × CString))
    {order : List (Fin c.files.length)} (hall : ∀ item, item ∈ order) :
    (∃ fuel s, c.tryFiles fuel order ⟨fun _ => .unvisited, found, []⟩ = some s ∧
        LoadedInOrder c ⟨fun _ => .unvisited, found, []⟩ s) ↔
      c.NeverBlocked order ⟨fun _ => .unvisited, found, []⟩ := by
  constructor
  · rintro ⟨fuel, s, hrun, -⟩
    by_contra hblocked
    rw [ComponentFinder.tryFiles_of_blocked hblocked fuel] at hrun
    cases hrun
  · intro hnever
    have hstart : c.Loading ⟨fun _ => .unvisited, found, []⟩ ⟨fun _ => .unvisited, found, []⟩ [] :=
      ⟨(List.append_nil _).symm, fun _ => iff_of_false (fun h => by cases h) (fun h => by cases h),
        dependenciesFirst_nil, (fun _ h => by cases h), (fun _ h => by cases h)⟩
    obtain ⟨s, loaded, hrun, hloading, -, htried⟩ :=
      ComponentFinder.tryFiles_of_neverBlocked hnever hstart 0
    exact ⟨1, s, hrun, hloading.loadedInOrder fun item => htried item (hall item)⟩

/-! ### A component that depends on another one -/

/-- The files of the components `a` and `b`, where `a` depends on `b`. -/
def aAndB : ComponentFinder where
  files :=
    [⟨"btl".toList, ['a'], "mca_btl_a".toList, ['a']⟩,
      ⟨"btl".toList, ['b'], "mca_btl_b".toList, ['b']⟩]
  lines := fun name => if name = "a.ompi_info".toList then some ["dependency=btl:b\n".toList] else none
  concatDelimited := fun texts delimiter => delimiter.intercalate texts
  opens := fun _ => true

/-- The state at the start. -/
def aAndBStart : FindState aAndB.files.length := ⟨fun _ => .unvisited, [], []⟩

lemma dependencies_a : aAndB.dependencies ⟨0, by decide⟩ = [some ⟨1, by decide⟩] := by
  decide

lemma dependencies_b : aAndB.dependencies ⟨1, by decide⟩ = [] := by
  decide

theorem components_load_b_before_a :
    ∃ fuel s, aAndB.tryFiles fuel [⟨1, by decide⟩, ⟨0, by decide⟩] aAndBStart = some s ∧
      LoadedInOrder aAndB aAndBStart s := by
  refine (components_load_in_order_iff aAndB [] (by decide)).mpr ?_
  have hloaded : (aAndB.settle aAndBStart ⟨1, by decide⟩).status ⟨0, by decide⟩ = .unvisited := by
    decide
  have hmet : aAndB.firstUnmet (aAndB.settle aAndBStart ⟨1, by decide⟩) ⟨0, by decide⟩
      [some ⟨1, by decide⟩] = none := by
    decide
  refine ⟨?_, ?_⟩
  · rintro ⟨-, item, hunmet, -⟩
    rw [dependencies_b] at hunmet
    cases hunmet
  · rw [ComponentFinder.NeverBlocked]
    refine (if_pos hloaded).mpr ⟨?_, trivial⟩
    rintro ⟨-, item, hunmet, -⟩
    rw [dependencies_a, ← aAndBStart, hmet] at hunmet
    cases hunmet

/-- **A dependency on a file that has still to be tried has no end**: `a` is opened again and again
when it is tried before `b`. -/
theorem component_a_never_loads :
    aAndB.dependencies ⟨0, by decide⟩ = [some ⟨1, by decide⟩] ∧
      aAndB.dependencies ⟨1, by decide⟩ = [] ∧
      ∀ fuel, aAndB.tryFiles fuel [⟨0, by decide⟩, ⟨1, by decide⟩] aAndBStart = none := by
  refine ⟨dependencies_a, dependencies_b, fun fuel => ComponentFinder.tryFiles_of_blocked ?_ fuel⟩
  intro hnever
  refine hnever.1 ⟨List.not_mem_nil, ⟨1, by decide⟩, ?_, rfl⟩
  rw [dependencies_a]
  decide

end Ocoms
