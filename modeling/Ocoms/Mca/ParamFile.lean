import Mathlib.Data.List.Induction
import Mathlib.Data.List.Nodup
import Ocoms.Mca.Var
import Ocoms.Util.Argv
import Ocoms.Util.KeyvalParse

/-!
Parameter files: `read_files` and `mca_base_parse_paramfile.c`.

* A file is the list of the tokens that the scanner returns before the end of the file, or `none`
  if it cannot be opened. The calls of the callback are the assignments that `keyvalParse` finds.
* The value list is the list of its entries. `saveValue` is the callback.
* `mem_saveValue` says what one assignment does to the entries, `mem_foldl_saveValue` what a file
  does, and `read_files_first_wins` what a list of files does.
-/

namespace Ocoms

/-! ### The value list -/

/-- `save_value`: the first entry of that name is overwritten, or a new one is appended. -/
def saveValue (fileBeingRead : CString) : List FileValue → Assignment → List FileValue
  | [], (name, value) => [⟨name, value, some fileBeingRead⟩]
  | fv :: paramList, (name, value) =>
      if name = fv.var then { fv with value, file := some fileBeingRead } :: paramList
      else fv :: saveValue fileBeingRead paramList (name, value)

/-- The assignments of a file. -/
def assignmentsOf (contents : CString → Option (List KeyvalToken)) (paramfile : CString) :
    List Assignment :=
  match contents paramfile with
  | none => []
  | some tokens => keyvalParse tokens

/-- `ocoms_mca_base_parse_paramfile`. -/
def parseParamfile (contents : CString → Option (List KeyvalToken)) (list : List FileValue)
    (paramfile : CString) : List FileValue :=
  (assignmentsOf contents paramfile).foldl (saveValue paramfile) list

/-- `read_files`: the loop goes from the last file to the first one. -/
def readFiles (contents : CString → Option (List KeyvalToken)) (fileList : CString)
    (fileValues : List FileValue) : Option (List FileValue) :=
  (argvSplit fileList ':').map fun files =>
    (files.getD []).reverse.foldl (parseParamfile contents) fileValues

/-! ### What is saved -/

/-- The name is assigned. -/
def Assigns (assignments : List Assignment) (name : CString) : Prop :=
  ∃ value, (name, value) ∈ assignments

/-- The last assignment to the name has this value. -/
def LastAssigned (assignments : List Assignment) (name : CString) (value : Option CString) : Prop :=
  ∃ before after, assignments = before ++ (name, value) :: after ∧ ¬ Assigns after name

section Saving

variable {file name : CString} {value : Option CString} {list : List FileValue}
  {assignments : List Assignment} {fv : FileValue}

lemma assigns_concat (a : Assignment) :
    Assigns (assignments ++ [a]) name ↔ Assigns assignments name ∨ a.1 = name := by
  constructor
  · rintro ⟨value, hmem⟩
    rcases List.mem_append.mp hmem with hmem | hmem
    · exact .inl ⟨value, hmem⟩
    · exact .inr (by rw [← List.mem_singleton.mp hmem])
  · rintro (⟨value, hmem⟩ | rfl)
    · exact ⟨value, List.mem_append_left _ hmem⟩
    · exact ⟨a.2, List.mem_append_right _ (List.mem_singleton_self a)⟩

/-- The last assignment is the one that is added, or another name is assigned there. -/
lemma lastAssigned_concat (a : Assignment) :
    LastAssigned (assignments ++ [a]) name value ↔
      a = (name, value) ∨ LastAssigned assignments name value ∧ a.1 ≠ name := by
  constructor
  · rintro ⟨before, after, heq, hafter⟩
    rcases List.eq_nil_or_concat after with rfl | ⟨after, b, rfl⟩
    · exact .inl (List.append_inj_right' heq rfl |> List.singleton_inj.mp)
    · rw [List.concat_eq_append, ← List.cons_append, ← List.append_assoc] at heq
      obtain ⟨hinit, hb⟩ := List.append_inj' heq rfl
      rw [List.concat_eq_append, assigns_concat, not_or] at hafter
      obtain rfl := List.singleton_inj.mp hb
      exact .inr ⟨⟨before, after, hinit, hafter.1⟩, hafter.2⟩
  · rintro (rfl | ⟨⟨before, after, rfl, hafter⟩, hne⟩)
    · exact ⟨assignments, [], rfl, fun ⟨_, hmem⟩ => by cases hmem⟩
    · refine ⟨before, after ++ [a], by simp, fun h => ?_⟩
      rcases (assigns_concat a).mp h with h | h
      · exact hafter h
      · exact hne h

/-- **One assignment.** -/
lemma mem_saveValue (hnodup : (list.map FileValue.var).Nodup) :
    fv ∈ saveValue file list (name, value) ↔
      fv = ⟨name, value, some file⟩ ∨ fv ∈ list ∧ name ≠ fv.var := by
  induction list with
  | nil => simp [saveValue]
  | cons first list ih =>
      rw [List.map_cons, List.nodup_cons] at hnodup
      rw [saveValue]
      split
      · next hfirst =>
        -- no other entry has the name
        have hother : ∀ g ∈ list, name ≠ g.var := fun g hg heq =>
          hnodup.1 (hfirst ▸ heq ▸ List.mem_map_of_mem hg)
        rw [List.mem_cons, List.mem_cons, ← hfirst]
        constructor
        · rintro (rfl | hmem)
          · exact .inl rfl
          · exact .inr ⟨.inr hmem, hother fv hmem⟩
        · rintro (rfl | ⟨rfl | hmem, hne⟩)
          · exact .inl rfl
          · exact absurd hfirst hne
          · exact .inr hmem
      · next hfirst =>
        rw [List.mem_cons, List.mem_cons, ih hnodup.2]
        constructor
        · rintro (rfl | rfl | ⟨hmem, hne⟩)
          · exact .inr ⟨.inl rfl, hfirst⟩
          · exact .inl rfl
          · exact .inr ⟨.inr hmem, hne⟩
        · rintro (rfl | ⟨rfl | hmem, hne⟩)
          · exact .inr (.inl rfl)
          · exact .inl rfl
          · exact .inr (.inr ⟨hmem, hne⟩)

lemma nodup_saveValue (hnodup : (list.map FileValue.var).Nodup) :
    ((saveValue file list (name, value)).map FileValue.var).Nodup := by
  induction list with
  | nil => exact List.nodup_singleton _
  | cons first list ih =>
      have hcons := hnodup
      rw [List.map_cons, List.nodup_cons] at hcons
      rw [saveValue]
      split
      · exact hnodup
      · next hfirst =>
        refine List.nodup_cons.mpr ⟨fun hmem => ?_, ih hcons.2⟩
        obtain ⟨g, hg, hvar⟩ := List.mem_map.mp hmem
        rcases (mem_saveValue hcons.2).mp hg with rfl | ⟨hg, -⟩
        · exact hfirst hvar
        · exact hcons.1 (hvar ▸ List.mem_map_of_mem hg)

/-- **A file**: its last assignments, and the entries of the names that it does not assign. -/
lemma mem_foldl_saveValue (file : CString) (assignments : List Assignment)
    (hnodup : (list.map FileValue.var).Nodup) :
    ((assignments.foldl (saveValue file) list).map FileValue.var).Nodup ∧
      ∀ fv, fv ∈ assignments.foldl (saveValue file) list ↔
        fv.file = some file ∧ LastAssigned assignments fv.var fv.value ∨
          fv ∈ list ∧ ¬ Assigns assignments fv.var := by
  induction assignments using List.reverseRecOn with
  | nil => simp [hnodup, LastAssigned, Assigns]
  | append_singleton assignments a ih =>
      obtain ⟨hn, hmem⟩ := ih
      obtain ⟨name, value⟩ := a
      rw [List.foldl_append, List.foldl_cons, List.foldl_nil]
      refine ⟨nodup_saveValue hn, fun fv => ?_⟩
      rw [mem_saveValue hn, hmem, lastAssigned_concat, assigns_concat]
      constructor
      · rintro (rfl | ⟨⟨hfile, hlast⟩ | ⟨hlist, hnot⟩, hne⟩)
        · exact .inl ⟨rfl, .inl rfl⟩
        · exact .inl ⟨hfile, .inr ⟨hlast, hne⟩⟩
        · exact .inr ⟨hlist, not_or.mpr ⟨hnot, hne⟩⟩
      · rintro (⟨hfile, heq | ⟨hlast, hne⟩⟩ | ⟨hlist, hnot⟩)
        · obtain ⟨rfl, rfl⟩ := Prod.mk.inj heq
          exact .inl (congrArg (FileValue.mk fv.var fv.value) hfile)
        · exact .inr ⟨.inl ⟨hfile, hlast⟩, hne⟩
        · exact .inr ⟨.inr ⟨hlist, (not_or.mp hnot).1⟩, (not_or.mp hnot).2⟩

/-- A name that is assigned has a last assignment. -/
lemma Assigns.exists_last (h : Assigns assignments name) :
    ∃ value, LastAssigned assignments name value := by
  induction assignments using List.reverseRecOn with
  | nil => obtain ⟨_, hmem⟩ := h; cases hmem
  | append_singleton assignments a ih =>
      by_cases ha : a.1 = name
      · exact ⟨a.2, (lastAssigned_concat a).mpr (.inl (by rw [← ha]))⟩
      · rcases (assigns_concat a).mp h with h | h
        · obtain ⟨value, hlast⟩ := ih h
          exact ⟨value, (lastAssigned_concat a).mpr (.inr ⟨hlast, ha⟩)⟩
        · exact absurd h ha

lemma LastAssigned.assigns (h : LastAssigned assignments name value) : Assigns assignments name := by
  obtain ⟨before, after, rfl, -⟩ := h
  exact ⟨value, List.mem_append_right _ List.mem_cons_self⟩

end Saving

/-! ### The files -/

/-- `fv` is the last assignment to its name in the first file that assigns it. -/
def FirstFile (contents : CString → Option (List KeyvalToken)) (files : List CString)
    (fv : FileValue) : Prop :=
  ∃ before file after, files = before ++ file :: after ∧ fv.file = some file ∧
    (∀ earlier ∈ before, ¬ Assigns (assignmentsOf contents earlier) fv.var) ∧
    LastAssigned (assignmentsOf contents file) fv.var fv.value

section Files

variable {contents : CString → Option (List KeyvalToken)}

lemma firstFile_cons (file : CString) (files : List CString) (fv : FileValue) :
    FirstFile contents (file :: files) fv ↔
      fv.file = some file ∧ LastAssigned (assignmentsOf contents file) fv.var fv.value ∨
        FirstFile contents files fv ∧ ¬ Assigns (assignmentsOf contents file) fv.var := by
  constructor
  · rintro ⟨before, found, after, heq, hfile, hbefore, hlast⟩
    cases before with
    | nil =>
        obtain ⟨rfl, -⟩ := List.cons.inj heq
        exact .inl ⟨hfile, hlast⟩
    | cons first before =>
        obtain ⟨rfl, rfl⟩ := List.cons.inj heq
        exact .inr ⟨⟨before, found, after, rfl, hfile,
          fun g hg => hbefore g (List.mem_cons_of_mem _ hg), hlast⟩,
          hbefore _ List.mem_cons_self⟩
  · rintro (⟨hfile, hlast⟩ | ⟨⟨before, found, after, rfl, hfile, hbefore, hlast⟩, hnot⟩)
    · exact ⟨[], file, files, rfl, hfile, (fun _ hg => by cases hg), hlast⟩
    · refine ⟨file :: before, found, after, rfl, hfile, fun g hg => ?_, hlast⟩
      rcases List.mem_cons.mp hg with rfl | hg
      · exact hnot
      · exact hbefore g hg

/-- **The loop over the files**, from the last one to the first one. -/
lemma mem_foldr_parseParamfile (contents : CString → Option (List KeyvalToken))
    (files : List CString) :
    ((files.reverse.foldl (parseParamfile contents) []).map FileValue.var).Nodup ∧
      ∀ fv, fv ∈ files.reverse.foldl (parseParamfile contents) [] ↔
        FirstFile contents files fv := by
  rw [List.foldl_reverse]
  induction files with
  | nil => simp [FirstFile]
  | cons file files ih =>
      rw [List.foldr_cons, parseParamfile]
      obtain ⟨hnodup, hmem⟩ := mem_foldl_saveValue file (assignmentsOf contents file) ih.1
      refine ⟨hnodup, fun fv => ?_⟩
      rw [hmem, ih.2, firstFile_cons]

lemma exists_firstFile_iff (files : List CString) (name : CString) :
    (∃ fv, FirstFile contents files fv ∧ fv.var = name) ↔
      ∃ file ∈ files, Assigns (assignmentsOf contents file) name := by
  constructor
  · rintro ⟨fv, ⟨before, file, after, rfl, -, -, hlast⟩, rfl⟩
    exact ⟨file, List.mem_append_right _ List.mem_cons_self, hlast.assigns⟩
  · induction files with
    | nil => rintro ⟨_, hmem, _⟩; cases hmem
    | cons first files ih =>
        rintro ⟨file, hmem, hassigns⟩
        by_cases hfirst : Assigns (assignmentsOf contents first) name
        · obtain ⟨value, hlast⟩ := hfirst.exists_last
          exact ⟨⟨name, value, some first⟩, (firstFile_cons _ _ _).mpr (.inl ⟨rfl, hlast⟩), rfl⟩
        · rcases List.mem_cons.mp hmem with rfl | hmem
          · exact absurd hassigns hfirst
          · obtain ⟨fv, hfv, rfl⟩ := ih ⟨file, hmem, hassigns⟩
            exact ⟨fv, (firstFile_cons _ _ _).mpr (.inr ⟨hfv, hfirst⟩), rfl⟩

/-- **The first file wins, and within a file the last assignment**: no name has two entries, the
names are those that some file of the list assigns, and an entry is the last assignment to its name
in the first file that assigns it. -/
theorem read_files_first_wins (contents : CString → Option (List KeyvalToken))
    (fileList : CString) :
    ∃ files values,
      argvSplit fileList ':' = some files ∧ readFiles contents fileList [] = some values ∧
      (values.map FileValue.var).Nodup ∧
      (∀ name, (∃ fv ∈ values, fv.var = name) ↔
        ∃ file ∈ files.getD [], Assigns (assignmentsOf contents file) name) ∧
      ∀ fv, fv ∈ values ↔ FirstFile contents (files.getD []) fv := by
  obtain ⟨files, hfiles⟩ : ∃ files, argvSplit fileList ':' = some files := by
    rw [argvSplit, argvSplitInter, splitFields_eq]
    exact ⟨_, rfl⟩
  obtain ⟨hnodup, hmem⟩ := mem_foldr_parseParamfile contents (files.getD [])
  refine ⟨files, _, hfiles, by rw [readFiles, hfiles]; rfl, hnodup, fun name => ?_, hmem⟩
  rw [← exists_firstFile_iff]
  simp only [hmem]

end Files

end Ocoms
