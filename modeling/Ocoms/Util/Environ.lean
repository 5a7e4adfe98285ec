import Mathlib.Data.List.TakeWhile
import Mathlib.Logic.Function.Basic
import Ocoms.Util.ArgvEdit

/-!
Environment arrays: `ocoms_environ.c`.

* An array is the list of its cells, as in `ArgvEdit`; `isEnviron` says that it is the array of the
  process, for which `ocoms_setenv` calls `putenv`. Memory does not run out.
* `EnvMap` is what an array is for: a map from names to values. `EnvCall.spec` is what a call does
  to it.
* `EnvCall.simulates` is the step lemma, `environ_refines` the theorem about sequences of calls and
  about `ocoms_environ_merge`.
-/

namespace Ocoms

/-! ### The functions -/

/-- `OCOMS_SUCCESS`, `OCOMS_EXISTS` and `OCOMS_ERR_NOT_FOUND`. -/
inductive EnvRc
  | success | exists_ | notFound
  deriving DecidableEq, Repr

/-- The loop that looks for a string that starts with `compare`. -/
def findEntry (compare : CString) : List ArgvCell → ℕ → Option (Option ℕ)
  | .null :: _, _ => some none
  | .str s :: cells, i => if compare <+: s then some (some i) else findEntry compare cells (i + 1)
  | _, _ => none

/-- `putenv`: the entry replaces the one with its name, or is appended. -/
def putenv (entry : CString) (cells : List ArgvCell) : Option (List ArgvCell) :=
  (findEntry (entry.takeWhile (· ≠ '=') ++ ['=']) cells 0).bind fun
    | some i => Cells.write cells i (.str entry)
    | none => argvAppendNosize (some cells) entry

/-- `ocoms_setenv`. -/
def setenv (isEnviron : Bool) (name : CString) (value : Option CString) (overwrite : Bool)
    (env : Option (List ArgvCell)) : Option (EnvRc × Option (List ArgvCell)) :=
  let newvalue := name ++ '=' :: value.getD []
  match env with
  | none => (argvAppendNosize none newvalue).map fun cells => (.success, some cells)
  | some cells =>
      if isEnviron then (putenv newvalue cells).map fun cells => (.success, some cells)
      else (findEntry (name ++ ['=']) cells 0).bind fun
        | some i =>
            if overwrite then
              (Cells.write cells i (.str newvalue)).map fun cells => (.success, some cells)
            else some (.exists_, some cells)
        | none =>
            (argvAppendNosize (some cells) newvalue).map fun cells => (.success, some cells)

/-- The loop that shifts the cells down, up to the null pointer. -/
def shiftCells : List ArgvCell → Option (List ArgvCell)
  | .null :: cells => some (.null :: cells)
  | _ :: y :: cells => (shiftCells (y :: cells)).map (y :: ·)
  | _ => none

/-- `ocoms_unsetenv`. -/
def unsetenv (name : CString) (env : Option (List ArgvCell)) :
    Option (EnvRc × Option (List ArgvCell)) :=
  match env with
  | none => some (.success, none)
  | some cells =>
      (findEntry (name ++ ['=']) cells 0).bind fun
        | some i =>
            (shiftCells (cells.drop i)).map fun rest => (.success, some (cells.take i ++ rest))
        | none => some (.notFound, some cells)

/-- The loop body of `ocoms_environ_merge`. -/
def mergeEntry (ret : Option (List ArgvCell)) (entry : CString) :
    Option (Option (List ArgvCell)) :=
  let name := entry.takeWhile (· ≠ '=')
  match entry.dropWhile (· ≠ '=') with
  | [] => (setenv false entry none false ret).map Prod.snd
  | _ :: value => (setenv false name (some value) false ret).map Prod.snd

/-- `ocoms_environ_merge`. -/
def environMerge (minor major : Option (List ArgvCell)) : Option (Option (List ArgvCell)) :=
  match major, minor with
  | none, none => some none
  | none, some minor => argvCopy (some minor)
  | some major, none => argvCopy (some major)
  | some major, some minor =>
      (argvCopy (some major)).bind fun ret =>
        (argvStrings minor).bind fun entries => entries.foldlM mergeEntry ret

/-! ### Entries -/

/-- The name of an entry, which is the part in front of the first `=`. -/
def entryName (s : CString) : Option CString :=
  if '=' ∈ s then some (s.takeWhile (· ≠ '=')) else none

/-- The value of an entry. -/
def entryValue (s : CString) : CString := (s.dropWhile (· ≠ '=')).tail

/-- The names that occur. -/
def entryNames (v : List CString) : List CString := v.filterMap entryName

/-- The value of a name. -/
def lookupEntry (v : List CString) (name : CString) : Option CString :=
  (v.find? fun s => entryName s = some name).map entryValue

section Entries

variable {name : CString} {s : CString} {pre post v : List CString}

lemma takeWhile_eq (hname : '=' ∉ name) (value : CString) :
    (name ++ '=' :: value).takeWhile (· ≠ '=') = name := by
  rw [List.takeWhile_append_of_pos fun c hc => ?_, List.takeWhile_cons_of_neg (by simp),
    List.append_nil]
  exact decide_eq_true fun h => hname (h ▸ hc)

lemma dropWhile_eq (hname : '=' ∉ name) (value : CString) :
    (name ++ '=' :: value).dropWhile (· ≠ '=') = '=' :: value := by
  rw [List.dropWhile_append_of_pos fun c hc => ?_, List.dropWhile_cons_of_neg (by simp)]
  exact decide_eq_true fun h => hname (h ▸ hc)

lemma entryName_eq (hname : '=' ∉ name) (value : CString) :
    entryName (name ++ '=' :: value) = some name := by
  rw [entryName, if_pos (List.mem_append_right _ List.mem_cons_self), takeWhile_eq hname]

lemma entryValue_eq (hname : '=' ∉ name) (value : CString) :
    entryValue (name ++ '=' :: value) = value := by
  rw [entryValue, dropWhile_eq hname, List.tail_cons]

/-- The comparison of `strncmp` is the one of names: a name that another one starts with is not
taken for it. -/
lemma prefix_iff (hname : '=' ∉ name) (s : CString) :
    name ++ ['='] <+: s ↔ entryName s = some name := by
  constructor
  · rintro ⟨value, rfl⟩
    rw [List.append_assoc, List.singleton_append]
    exact entryName_eq hname value
  · intro h
    rw [entryName] at h
    split at h
    · next hmem =>
      have hne : s.dropWhile (· ≠ '=') ≠ [] := fun hnil => by
        have hall := List.dropWhile_eq_nil_iff.mp hnil '=' hmem
        simp at hall
      obtain ⟨c, value, hvalue⟩ := List.exists_cons_of_ne_nil hne
      have hc : c = '=' := by
        have hhead := List.head?_dropWhile_not (· ≠ '=') s
        rw [hvalue] at hhead
        simpa using hhead
      rw [hc] at hvalue
      refine ⟨value, ?_⟩
      rw [← Option.some.inj h, List.append_assoc, List.singleton_append, ← hvalue]
      exact List.takeWhile_append_dropWhile
    · cases h

/-- The first entry with a name, or none. -/
lemma exists_entry (v : List CString) (name : CString) :
    (∃ pre s post, v = pre ++ s :: post ∧ entryName s = some name ∧
      ∀ t ∈ pre, entryName t ≠ some name) ∨ ∀ t ∈ v, entryName t ≠ some name := by
  cases h : v.find? fun s => entryName s = some name with
  | none => exact .inr fun t ht => by simpa using List.find?_eq_none.mp h t ht
  | some s =>
      obtain ⟨hs, pre, post, rfl, hpre⟩ := List.find?_eq_some_iff_append.mp h
      exact .inl ⟨pre, s, post, rfl, by simpa using hs, fun t ht => by simpa using hpre t ht⟩

/-- **One entry is one binding.** -/
lemma lookupEntry_split (pre post : List CString) (hs : entryName s = some name)
    (hpre : ∀ t ∈ pre, entryName t ≠ some name) :
    lookupEntry (pre ++ s :: post)
      = Function.update (lookupEntry (pre ++ post)) name (some (entryValue s)) := by
  funext other
  by_cases hother : other = name
  · have hnone : (pre.find? fun t => entryName t = some name) = none :=
      List.find?_eq_none.mpr fun t ht => by simpa using hpre t ht
    have hfound : (s :: post).find? (fun t => entryName t = some name) = some s :=
      List.find?_cons_of_pos (by simpa using hs)
    rw [hother, Function.update_self, lookupEntry, List.find?_append, hnone, Option.none_or,
      hfound, Option.map_some]
  · have hskip : (s :: post).find? (fun t => entryName t = some other)
        = post.find? fun t => entryName t = some other :=
      List.find?_cons_of_neg (by rw [hs]; simpa [eq_comm] using hother)
    rw [Function.update_of_ne hother, lookupEntry, lookupEntry, List.find?_append, hskip,
      List.find?_append]

lemma lookupEntry_eq_none (h : ∀ t ∈ v, entryName t ≠ some name) :
    lookupEntry v name = none := by
  rw [lookupEntry, List.find?_eq_none.mpr fun t ht => by simpa using h t ht]
  rfl

lemma entryNames_split (hs : entryName s = some name) :
    entryNames (pre ++ s :: post) = entryNames pre ++ name :: entryNames post := by
  rw [entryNames, List.filterMap_append, List.filterMap_cons_some hs]
  rfl

lemma mem_entryNames : name ∈ entryNames v ↔ ∃ s ∈ v, entryName s = some name :=
  List.mem_filterMap

/-! ### What the functions do to the entries -/

variable {more : List ArgvCell}

lemma argvCells_cons (s : CString) (v : List CString) :
    argvCells (s :: v) = .str s :: argvCells v := rfl

lemma argvCells_split (pre : List CString) (s : CString) (post : List CString)
    (more : List ArgvCell) :
    argvCells (pre ++ s :: post) ++ more
      = pre.map .str ++ .str s :: (argvCells post ++ more) := by
  rw [argvCells_append, argvCells_cons, List.append_assoc, List.cons_append]

lemma findEntry_absent (hname : '=' ∉ name) (h : ∀ t ∈ v, entryName t ≠ some name) (i : ℕ) :
    findEntry (name ++ ['=']) (argvCells v ++ more) i = some none := by
  induction v generalizing i with
  | nil => rfl
  | cons t v ih =>
      have ht : ¬ name ++ ['='] <+: t := fun hpre =>
        h t List.mem_cons_self ((prefix_iff hname t).mp hpre)
      rw [argvCells_cons, List.cons_append, findEntry, if_neg ht]
      exact ih (fun u hu => h u (List.mem_cons_of_mem t hu)) (i + 1)

lemma findEntry_found (hname : '=' ∉ name) (hs : entryName s = some name)
    (hpre : ∀ t ∈ pre, entryName t ≠ some name) (i : ℕ) :
    findEntry (name ++ ['=']) (argvCells (pre ++ s :: post) ++ more) i
      = some (some (i + pre.length)) := by
  induction pre generalizing i with
  | nil =>
      rw [List.nil_append, argvCells_cons, List.cons_append, findEntry,
        if_pos ((prefix_iff hname s).mpr hs)]
      rfl
  | cons t pre ih =>
      have ht : ¬ name ++ ['='] <+: t := fun h =>
        hpre t List.mem_cons_self ((prefix_iff hname t).mp h)
      rw [List.cons_append, argvCells_cons, List.cons_append, findEntry, if_neg ht,
        ih (fun u hu => hpre u (List.mem_cons_of_mem t hu)), List.length_cons]
      congr 2
      omega

/-- The write of an entry over another one. -/
lemma write_entry (pre : List CString) (s entry : CString) (post : List CString)
    (more : List ArgvCell) :
    Cells.write (argvCells (pre ++ s :: post) ++ more) pre.length (.str entry)
      = some (argvCells (pre ++ entry :: post) ++ more) := by
  have h := Cells.write_append (pre.map ArgvCell.str) (.str s) (.str entry)
    (argvCells post ++ more)
  rw [List.length_map] at h
  rw [argvCells_split, argvCells_split, h]

lemma putenv_absent (hname : '=' ∉ name) (h : ∀ t ∈ v, entryName t ≠ some name)
    (value : CString) :
    putenv (name ++ '=' :: value) (argvCells v ++ more)
      = some (argvCells (v ++ [name ++ '=' :: value])) := by
  rw [putenv, takeWhile_eq hname, findEntry_absent hname h, Option.bind_some]
  exact argvAppendNosize_eq v more _

lemma putenv_found (hname : '=' ∉ name) (hs : entryName s = some name)
    (hpre : ∀ t ∈ pre, entryName t ≠ some name) (value : CString) :
    putenv (name ++ '=' :: value) (argvCells (pre ++ s :: post) ++ more)
      = some (argvCells (pre ++ (name ++ '=' :: value) :: post) ++ more) := by
  rw [putenv, takeWhile_eq hname, findEntry_found hname hs hpre, Option.bind_some, Nat.zero_add]
  exact write_entry pre s _ post more

lemma setenv_absent (isEnviron overwrite : Bool) (value : Option CString) (more : List ArgvCell)
    (hname : '=' ∉ name) (h : ∀ t ∈ v, entryName t ≠ some name) :
    setenv isEnviron name value overwrite (some (argvCells v ++ more))
      = some (.success, some (argvCells (v ++ [name ++ '=' :: value.getD []]))) := by
  rw [setenv]
  cases isEnviron with
  | true => rw [if_pos rfl, putenv_absent hname h, Option.map_some]
  | false =>
      rw [if_neg Bool.false_ne_true, findEntry_absent hname h, Option.bind_some]
      dsimp only
      rw [argvAppendNosize_eq, Option.map_some]

lemma setenv_found (isEnviron overwrite : Bool) (value : Option CString) (more : List ArgvCell)
    (post : List CString) (hname : '=' ∉ name) (hs : entryName s = some name)
    (hpre : ∀ t ∈ pre, entryName t ≠ some name) :
    setenv isEnviron name value overwrite (some (argvCells (pre ++ s :: post) ++ more))
      = some (if isEnviron || overwrite then
          (.success, some (argvCells (pre ++ (name ++ '=' :: value.getD []) :: post) ++ more))
        else (.exists_, some (argvCells (pre ++ s :: post) ++ more))) := by
  rw [setenv]
  cases isEnviron with
  | true => rw [if_pos rfl, putenv_found hname hs hpre, Option.map_some, Bool.true_or, if_pos rfl]
  | false =>
      rw [if_neg Bool.false_ne_true, findEntry_found hname hs hpre, Option.bind_some,
        Nat.zero_add]
      dsimp only
      rw [write_entry]
      cases overwrite <;> rfl

lemma shiftCells_eq (x : ArgvCell) (hx : x ≠ .null) (post : List CString)
    (more : List ArgvCell) :
    shiftCells (x :: (argvCells post ++ more)) = some (argvCells post ++ .null :: more) := by
  induction post generalizing x with
  | nil =>
      cases x with
      | null => exact absurd rfl hx
      | garbage => rfl
      | str s => rfl
  | cons t post ih =>
      have hstep : shiftCells (x :: (argvCells (t :: post) ++ more))
          = (shiftCells (.str t :: (argvCells post ++ more))).map (.str t :: ·) := by
        cases x with
        | null => exact absurd rfl hx
        | garbage => rfl
        | str s => rfl
      rw [hstep, ih (.str t) (fun h => by cases h)]
      rfl

lemma unsetenv_absent (hname : '=' ∉ name) (h : ∀ t ∈ v, entryName t ≠ some name) :
    unsetenv name (some (argvCells v ++ more)) = some (.notFound, some (argvCells v ++ more)) := by
  rw [unsetenv, findEntry_absent hname h, Option.bind_some]

lemma unsetenv_found (hname : '=' ∉ name) (hs : entryName s = some name)
    (hpre : ∀ t ∈ pre, entryName t ≠ some name) :
    unsetenv name (some (argvCells (pre ++ s :: post) ++ more))
      = some (.success, some (argvCells (pre ++ post) ++ .null :: more)) := by
  rw [unsetenv, findEntry_found hname hs hpre, Option.bind_some, Nat.zero_add, argvCells_split]
  have hlen : pre.length = (pre.map ArgvCell.str).length := (List.length_map _).symm
  dsimp only
  rw [hlen, List.drop_left, List.take_left, shiftCells_eq _ (fun h => by cases h), Option.map_some,
    argvCells_append, List.append_assoc]

end Entries

/-! ### Arrays as maps -/

/-- What an array is for: whether there is one, and the values of names. -/
@[ext]
structure EnvMap where
  allocated : Bool
  value : CString → Option CString

/-- A call. -/
inductive EnvCall
  | setenv (name : CString) (value : Option CString) (overwrite : Bool)
  | unsetenv (name : CString)

namespace EnvCall

/-- The name of a call. -/
def name : EnvCall → CString
  | .setenv name _ _ => name
  | .unsetenv name => name

/-- The call of the function. -/
def run (isEnviron : Bool) : EnvCall → Option (List ArgvCell) →
    Option (EnvRc × Option (List ArgvCell))
  | .setenv name value overwrite, env => Ocoms.setenv isEnviron name value overwrite env
  | .unsetenv name, env => Ocoms.unsetenv name env

/-- What the call does to the map: a name that has a value keeps it unless it is overwritten. -/
def spec (isEnviron : Bool) : EnvCall → EnvMap → EnvRc × EnvMap
  | .setenv name value overwrite, m =>
      if (m.value name).isSome ∧ ¬ (isEnviron || overwrite) then (.exists_, m)
      else (.success, ⟨true, Function.update m.value name (some (value.getD []))⟩)
  | .unsetenv name, m =>
      (if m.allocated ∧ m.value name = none then .notFound else .success,
        { m with value := Function.update m.value name none })

end EnvCall

/-- The array holds the entries `v`, and no name occurs twice. -/
structure HoldsEntries (env : Option (List ArgvCell)) (v : List CString) : Prop where
  cells : ∀ cells, env = some cells → IsVector cells v
  null : env = none → v = []
  nodup : (entryNames v).Nodup

/-- The map of an array with the entries `v`. -/
def envMap (env : Option (List ArgvCell)) (v : List CString) : EnvMap :=
  ⟨env.isSome, lookupEntry v⟩

@[simp] lemma envMap_allocated (env : Option (List ArgvCell)) (v : List CString) :
    (envMap env v).allocated = env.isSome := rfl

@[simp] lemma envMap_value (env : Option (List ArgvCell)) (v : List CString) :
    (envMap env v).value = lookupEntry v := rfl

section Simulation

variable {env : Option (List ArgvCell)} {v pre post : List CString} {name s : CString}
  {cells : List ArgvCell} {isEnviron overwrite : Bool} {value : Option CString}

lemma holdsEntries_some (hcells : IsVector cells v) (h : (entryNames v).Nodup) :
    HoldsEntries (some cells) v where
  cells _ heq := Option.some.inj heq ▸ hcells
  null heq := by cases heq
  nodup := h

lemma entryName_ne_of_nodup (hs : entryName s = some name)
    (h : (entryNames (pre ++ s :: post)).Nodup) :
    (entryNames (pre ++ post)).Nodup ∧ ∀ t ∈ pre ++ post, entryName t ≠ some name := by
  rw [entryNames_split hs] at h
  have hsub := List.nodup_cons.mp ((List.perm_middle.nodup_iff).mp h)
  rw [entryNames, List.filterMap_append]
  refine ⟨hsub.2, fun t ht hname => hsub.1 ?_⟩
  have hmem := mem_entryNames.mpr ⟨t, ht, hname⟩
  rwa [entryNames, List.filterMap_append] at hmem

lemma nodup_append_entry (hs : entryName s = some name) (h : (entryNames v).Nodup)
    (habsent : ∀ t ∈ v, entryName t ≠ some name) : (entryNames (v ++ [s])).Nodup := by
  rw [entryNames_split hs, List.perm_middle.nodup_iff, entryNames, entryNames, List.filterMap_nil,
    List.append_nil]
  refine List.nodup_cons.mpr ⟨fun hmem => ?_, h⟩
  obtain ⟨t, ht, hname⟩ := mem_entryNames.mp hmem
  exact habsent t ht hname

/-- One call of `ocoms_setenv`. -/
lemma simulates_setenv (h : HoldsEntries env v) (hname : '=' ∉ name) :
    ∃ env' v',
      setenv isEnviron name value overwrite env
        = some (((EnvCall.setenv name value overwrite).spec isEnviron (envMap env v)).1, env') ∧
      HoldsEntries env' v' ∧
      envMap env' v' = ((EnvCall.setenv name value overwrite).spec isEnviron (envMap env v)).2 ∧
      ∀ p : CString → Bool, (∀ s, entryName s = some name → p s = false) →
        v'.filter p = v.filter p := by
  have hentry := entryName_eq hname (value.getD [])
  have hvalue := entryValue_eq hname (value.getD [])
  set entry := name ++ '=' :: value.getD []
  rw [EnvCall.spec, envMap_value]
  cases env with
  | none =>
      obtain rfl := h.null rfl
      refine ⟨some (argvCells [entry]), [entry], rfl,
        holdsEntries_some (List.prefix_refl _) ?_, ?_, ?_⟩
      · exact nodup_append_entry hentry h.nodup fun t ht => by cases ht
      · have hlookup := lookupEntry_split [] [] hentry fun t ht => by cases ht
        rw [List.nil_append, List.nil_append, hvalue] at hlookup
        exact EnvMap.ext rfl hlookup
      · intro p hp
        rw [List.filter_cons, hp entry hentry]
        rfl
  | some cells =>
      obtain ⟨more, rfl⟩ := h.cells cells rfl
      rcases exists_entry v name with ⟨pre, s, post, rfl, hs, hpre⟩ | habsent
      · have hlookup := lookupEntry_split pre post hs hpre
        have hisSome : (lookupEntry (pre ++ s :: post) name).isSome := by
          rw [hlookup, Function.update_self]
          rfl
        rw [setenv_found isEnviron overwrite value more post hname hs hpre]
        cases hover : isEnviron || overwrite with
        | false =>
            rw [if_neg Bool.false_ne_true, if_pos ⟨hisSome, Bool.false_ne_true⟩]
            exact ⟨_, _, rfl, h, rfl, fun _ _ => rfl⟩
        | true =>
            rw [if_pos rfl, if_neg fun hn => hn.2 rfl]
            refine ⟨_, pre ++ entry :: post, rfl,
              holdsEntries_some (isVector_append _ _) ?_, EnvMap.ext rfl ?_, ?_⟩
            · rw [entryNames_split hentry, ← entryNames_split hs]
              exact h.nodup
            · rw [envMap_value, lookupEntry_split pre post hentry hpre, hlookup,
                Function.update_idem, hvalue]
            · intro p hp
              rw [List.filter_append, List.filter_append, List.filter_cons, List.filter_cons,
                hp entry hentry, hp s hs]
              rfl
      · have hnone := lookupEntry_eq_none habsent
        rw [setenv_absent isEnviron overwrite value more hname habsent, hnone,
          if_neg fun hn => Bool.false_ne_true hn.1]
        refine ⟨_, v ++ [entry], rfl, holdsEntries_some (List.prefix_refl _) ?_, ?_, ?_⟩
        · exact nodup_append_entry hentry h.nodup habsent
        · have hlookup := lookupEntry_split v [] hentry habsent
          rw [List.append_nil, hvalue] at hlookup
          exact EnvMap.ext rfl hlookup
        · intro p hp
          rw [List.filter_append, List.filter_cons, hp entry hentry]
          exact List.append_nil _

/-- One call of `ocoms_unsetenv`. -/
lemma simulates_unsetenv (h : HoldsEntries env v) (hname : '=' ∉ name) :
    ∃ env' v',
      unsetenv name env
        = some (((EnvCall.unsetenv name).spec isEnviron (envMap env v)).1, env') ∧
      HoldsEntries env' v' ∧
      envMap env' v' = ((EnvCall.unsetenv name).spec isEnviron (envMap env v)).2 ∧
      ∀ p : CString → Bool, (∀ s, entryName s = some name → p s = false) →
        v'.filter p = v.filter p := by
  rw [EnvCall.spec, envMap_value, envMap_allocated]
  cases env with
  | none =>
      obtain rfl := h.null rfl
      refine ⟨none, [], rfl, h, EnvMap.ext rfl ?_, fun _ _ => rfl⟩
      exact (Function.update_eq_self name (lookupEntry [])).symm
  | some cells =>
      obtain ⟨more, rfl⟩ := h.cells cells rfl
      rcases exists_entry v name with ⟨pre, s, post, rfl, hs, hpre⟩ | habsent
      · obtain ⟨hnodup, hne⟩ := entryName_ne_of_nodup hs h.nodup
        have hlookup := lookupEntry_split pre post hs hpre
        have hsome : lookupEntry (pre ++ s :: post) name ≠ none := by
          rw [hlookup, Function.update_self]
          exact Option.some_ne_none _
        rw [unsetenv_found hname hs hpre, if_neg fun hn => hsome hn.2]
        refine ⟨_, pre ++ post, rfl, holdsEntries_some (isVector_append _ _) hnodup,
          EnvMap.ext rfl ?_, ?_⟩
        · rw [envMap_value, hlookup, Function.update_idem, ← lookupEntry_eq_none hne,
            Function.update_eq_self]
        · intro p hp
          rw [List.filter_append, List.filter_append, List.filter_cons, hp s hs]
          rfl
      · have hnone := lookupEntry_eq_none habsent
        rw [unsetenv_absent hname habsent, if_pos ⟨rfl, hnone⟩]
        refine ⟨_, v, rfl, h, EnvMap.ext rfl ?_, fun _ _ => rfl⟩
        rw [envMap_value, ← hnone, Function.update_eq_self]

/-- **One call**: the map, the entries of the other names in their order, and no name twice. -/
lemma EnvCall.simulates (h : HoldsEntries env v) (isEnviron : Bool) (c : EnvCall) (hc : '=' ∉ c.name) :
    ∃ env' v',
      c.run isEnviron env = some ((c.spec isEnviron (envMap env v)).1, env') ∧
      HoldsEntries env' v' ∧ envMap env' v' = (c.spec isEnviron (envMap env v)).2 ∧
      ∀ p : CString → Bool, (∀ s, entryName s = some c.name → p s = false) →
        v'.filter p = v.filter p := by
  cases c with
  | setenv name value overwrite => exact simulates_setenv h hc
  | unsetenv name => exact simulates_unsetenv h hc

end Simulation

/-! ### Sequences of calls, and merging -/

/-- The calls in sequence, with what they return. -/
def runCalls (isEnviron : Bool) : List EnvCall → Option (List ArgvCell) →
    Option (List EnvRc × Option (List ArgvCell))
  | [], env => some ([], env)
  | c :: calls, env =>
      (c.run isEnviron env).bind fun (rc, env) =>
        (runCalls isEnviron calls env).map fun (rcs, env) => (rc :: rcs, env)

/-- What the calls do to the map. -/
def specCalls (isEnviron : Bool) : List EnvCall → EnvMap → List EnvRc × EnvMap
  | [], m => ([], m)
  | c :: calls, m =>
      let (rc, m) := c.spec isEnviron m
      let (rcs, m) := specCalls isEnviron calls m
      (rc :: rcs, m)

/-- An entry that has no `=` gets one. -/
def completedEntry (s : CString) : CString := if '=' ∈ s then s else s ++ ['=']

/-- The name that `ocoms_environ_merge` gives to an entry: all of it if it has no `=`. -/
def fieldName (s : CString) : CString := s.takeWhile (· ≠ '=')

/-- The entries whose names are not taken: the first one of each name. -/
def addedEntries : List CString → List CString → List CString
  | _, [] => []
  | taken, s :: minor =>
      if fieldName s ∈ taken then addedEntries taken minor
      else completedEntry s :: addedEntries (fieldName s :: taken) minor

section Runs

variable {env : Option (List ArgvCell)} {v : List CString}

/-- **A sequence of calls.** -/
lemma runCalls_eq (isEnviron : Bool) (calls : List EnvCall) (h : HoldsEntries env v)
    (hcalls : ∀ c ∈ calls, '=' ∉ c.name) :
    ∃ env' v',
      runCalls isEnviron calls env
        = some ((specCalls isEnviron calls (envMap env v)).1, env') ∧
      HoldsEntries env' v' ∧ envMap env' v' = (specCalls isEnviron calls (envMap env v)).2 ∧
      ∀ p : CString → Bool, (∀ c ∈ calls, ∀ s, entryName s = some c.name → p s = false) →
        v'.filter p = v.filter p := by
  induction calls generalizing env v with
  | nil => exact ⟨env, v, rfl, h, rfl, fun _ _ => rfl⟩
  | cons c calls ih =>
      obtain ⟨env₁, v₁, hrun, h₁, hmap, hfilter⟩ :=
        EnvCall.simulates h isEnviron c (hcalls c List.mem_cons_self)
      obtain ⟨env', v', hruns, h', hmaps, hfilters⟩ :=
        ih h₁ fun c' hc' => hcalls c' (List.mem_cons_of_mem c hc')
      refine ⟨env', v', ?_, h', ?_, fun p hp => ?_⟩
      · rw [runCalls, hrun, Option.bind_some]
        dsimp only
        rw [hruns, specCalls, hmap]
        rfl
      · rw [hmaps, hmap]
        rfl
      · rw [hfilters p fun c' hc' => hp c' (List.mem_cons_of_mem c hc'),
          hfilter p (hp c List.mem_cons_self)]

/-- An entry of the array `minor`, merged into the array with the entries `v`. -/
lemma mergeEntry_eq (v : List CString) (more : List ArgvCell) (s : CString) :
    ∃ more', mergeEntry (some (argvCells v ++ more)) s
      = some (some (argvCells
          (if fieldName s ∈ entryNames v then v else v ++ [completedEntry s]) ++ more')) := by
  have hname : '=' ∉ fieldName s := fun h => by simpa using List.mem_takeWhile_imp h
  obtain ⟨value, hmerge, hentry⟩ : ∃ value : Option CString,
      mergeEntry (some (argvCells v ++ more)) s
        = (setenv false (fieldName s) value false (some (argvCells v ++ more))).map Prod.snd ∧
      fieldName s ++ '=' :: value.getD [] = completedEntry s := by
    rw [mergeEntry]
    cases h : s.dropWhile (· ≠ '=') with
    | nil =>
        have hall := List.dropWhile_eq_nil_iff.mp h
        have hfield : fieldName s = s := List.takeWhile_eq_self_iff.mpr hall
        have hmem : '=' ∉ s := fun hmem => by simpa using hall '=' hmem
        refine ⟨none, by rw [hfield], ?_⟩
        rw [completedEntry, if_neg hmem, hfield]
        rfl
    | cons c value =>
        have hc : c = '=' := by
          have hhead := List.head?_dropWhile_not (· ≠ '=') s
          rw [h] at hhead
          simpa using hhead
        have hsplit : fieldName s ++ '=' :: value = s := by
          rw [fieldName, ← hc, ← h, hc]
          exact List.takeWhile_append_dropWhile
        have hmem : '=' ∈ s := by
          rw [← hsplit]
          exact List.mem_append_right _ List.mem_cons_self
        refine ⟨some value, rfl, ?_⟩
        rw [completedEntry, if_pos hmem]
        exact hsplit
  rw [hmerge]
  rcases exists_entry v (fieldName s) with ⟨pre, t, post, rfl, ht, hpre⟩ | habsent
  · have hmem : fieldName s ∈ entryNames (pre ++ t :: post) :=
      mem_entryNames.mpr ⟨t, List.mem_append_right _ List.mem_cons_self, ht⟩
    rw [setenv_found false false value more post hname ht hpre, if_pos hmem]
    exact ⟨more, rfl⟩
  · have hmem : fieldName s ∉ entryNames v := fun hmem => by
      obtain ⟨t, ht, hfield⟩ := mem_entryNames.mp hmem
      exact habsent t ht hfield
    rw [setenv_absent false false value more hname habsent, if_neg hmem, hentry]
    exact ⟨[], by rw [List.append_nil]; rfl⟩

lemma entryName_completedEntry (s : CString) : entryName (completedEntry s) = some (fieldName s) := by
  rw [completedEntry, fieldName]
  split
  · next hmem => rw [entryName, if_pos hmem]
  · next hmem =>
    have hfield : s.takeWhile (· ≠ '=') = s :=
      List.takeWhile_eq_self_iff.mpr fun c hc => decide_eq_true fun h => hmem (h ▸ hc)
    rw [hfield]
    exact entryName_eq hmem []

lemma addedEntries_congr {taken taken' : List CString} (minor : List CString)
    (h : ∀ s, s ∈ taken ↔ s ∈ taken') : addedEntries taken minor = addedEntries taken' minor := by
  induction minor generalizing taken taken' with
  | nil => rfl
  | cons s minor ih =>
      have hcons : ∀ t, t ∈ fieldName s :: taken ↔ t ∈ fieldName s :: taken' := fun t => by
        rw [List.mem_cons, List.mem_cons, h]
      rw [addedEntries, addedEntries, ih h, ih hcons]
      simp only [h]

lemma mergeEntries_eq (v : List CString) (more : List ArgvCell) (minor : List CString) :
    ∃ cells, minor.foldlM mergeEntry (some (argvCells v ++ more)) = some (some cells) ∧
      IsVector cells (v ++ addedEntries (entryNames v) minor) := by
  induction minor generalizing v more with
  | nil => exact ⟨_, rfl, by rw [addedEntries, List.append_nil]; exact isVector_append v more⟩
  | cons s minor ih =>
      obtain ⟨more', hstep⟩ := mergeEntry_eq v more s
      rw [List.foldlM_cons, hstep]
      obtain ⟨cells, hcells, hv⟩ :=
        ih (if fieldName s ∈ entryNames v then v else v ++ [completedEntry s]) more'
      refine ⟨cells, hcells, ?_⟩
      rw [addedEntries]
      split at hv
      · next hmem => rwa [if_pos hmem]
      · next hmem =>
        have hnames : ∀ t, t ∈ entryNames (v ++ [completedEntry s])
            ↔ t ∈ fieldName s :: entryNames v := fun t => by
          rw [entryNames_split (entryName_completedEntry s), List.mem_append, List.mem_cons,
            List.mem_cons, entryNames, entryNames, List.filterMap_nil]
          simp [or_comm]
        rw [if_neg hmem]
        rwa [addedEntries_congr minor hnames, List.append_assoc, List.singleton_append] at hv

/-- Where no name occurs twice, the entries are those whose names are not taken. -/
lemma addedEntries_eq_filter (taken : List CString) {minor : List CString}
    (h : (minor.map fieldName).Nodup) :
    addedEntries taken minor
      = (minor.filter fun s => fieldName s ∉ taken).map completedEntry := by
  induction minor generalizing taken with
  | nil => rfl
  | cons s minor ih =>
      rw [List.map_cons, List.nodup_cons] at h
      rw [addedEntries, List.filter_cons]
      by_cases hmem : fieldName s ∈ taken
      · rw [if_pos hmem, if_neg (by simpa using hmem), ih taken h.2]
      · rw [if_neg hmem, if_pos (by simpa using hmem), ih _ h.2, List.map_cons]
        congr 2
        refine List.filter_congr fun t ht => ?_
        have hne : fieldName t ≠ fieldName s := fun heq => h.1 (heq ▸ List.mem_map_of_mem ht)
        simp [hne]

end Runs

/-- **Environment arrays are maps**: sequences of calls do to an array what they do to its map, the
entries of other names stay in their order, and merging adds the entries whose names are not there,
each with an `=`. -/
theorem environ_refines :
    (∀ (isEnviron : Bool) (env : Option (List ArgvCell)) (v : List CString) (calls : List EnvCall),
      HoldsEntries env v → (∀ c ∈ calls, '=' ∉ c.name) →
      ∃ env' v',
        runCalls isEnviron calls env
          = some ((specCalls isEnviron calls (envMap env v)).1, env') ∧
        HoldsEntries env' v' ∧ envMap env' v' = (specCalls isEnviron calls (envMap env v)).2 ∧
        v'.filter (fun s => ∀ c ∈ calls, entryName s ≠ some c.name)
          = v.filter fun s => ∀ c ∈ calls, entryName s ≠ some c.name) ∧
    (∀ (minor major : List CString) (more more' : List ArgvCell),
      ∃ cells, environMerge (some (argvCells minor ++ more)) (some (argvCells major ++ more'))
          = some (some cells) ∧
        IsVector cells (major ++ addedEntries (entryNames major) minor) ∧
        ((minor.map fieldName).Nodup → addedEntries (entryNames major) minor
          = (minor.filter fun s => fieldName s ∉ entryNames major).map completedEntry)) ∧
    ∀ (v : List CString) (more : List ArgvCell),
      (∃ cells, environMerge (some (argvCells v ++ more)) none = some (some cells) ∧
        IsVector cells v) ∧
      ∃ cells, environMerge none (some (argvCells v ++ more)) = some (some cells) ∧
        IsVector cells v := by
  refine ⟨fun isEnviron env v calls h hcalls => ?_, fun minor major more more' => ?_,
    fun v more => ⟨argvCopy_eq v more, argvCopy_eq v more⟩⟩
  · obtain ⟨env', v', hrun, h', hmap, hfilter⟩ := runCalls_eq isEnviron calls h hcalls
    refine ⟨env', v', hrun, h', hmap, hfilter _ fun c hc s hs => ?_⟩
    exact decide_eq_false fun hall => hall c hc hs
  · obtain ⟨copy, hcopy, more'', rfl⟩ := argvCopy_eq major more'
    obtain ⟨cells, hcells, hv⟩ := mergeEntries_eq major more'' minor
    refine ⟨cells, ?_, hv, addedEntries_eq_filter _⟩
    rw [environMerge, hcopy, Option.bind_some, argvStrings_eq, Option.bind_some, hcells]

theorem environ_refines_overwrite :
    ∃ env' v',
      runCalls false [.setenv "A".toList (some "1".toList) true, .unsetenv "AB".toList]
          (some (argvCells ["A=0".toList])) = some ([.success, .notFound], env') ∧
        HoldsEntries env' v' ∧ lookupEntry v' "A".toList = some "1".toList := by
  have hholds : HoldsEntries (some (argvCells ["A=0".toList])) ["A=0".toList] :=
    holdsEntries_some (List.prefix_refl _) (by decide)
  obtain ⟨env', v', hrun, h', hmap, -⟩ := environ_refines.1 false _ _
    [.setenv "A".toList (some "1".toList) true, .unsetenv "AB".toList] hholds (by decide)
  exact ⟨env', v', hrun, h', congrFun (congrArg EnvMap.value hmap) "A".toList⟩

/-- The entry that is added is not one of the array; without an array nothing is not found; and the
array of the process is written whatever `overwrite` says. -/
theorem environ_merge_completes_fails :
    environMerge (some (argvCells ["FOO".toList])) (some (argvCells []))
        = some (some (argvCells ["FOO=".toList])) ∧
      unsetenv "A".toList none = some (.success, none) ∧
      setenv true "A".toList (some "2".toList) false (some (argvCells ["A=1".toList]))
        = some (.success, some (argvCells ["A=2".toList])) := by
  decide

end Ocoms
