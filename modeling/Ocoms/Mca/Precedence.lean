import Ocoms.Mca.Registry

/-!
Which entry a variable with synonyms takes its value from.

* `FirstLookup` and `NextLookup` are what `var_set_initial` does to the source and the value of a
  variable, when it looks up the variable itself and when it looks up a synonym.
* `FollowsPrecedence` is the order in which the kinds of entries ought to count, and
  `EntriesInOrder` the condition under which they do: `followsPrecedence_iff` for the lookups,
  `source_precedence_iff` for the registrations.
-/

namespace Ocoms

/-- The two names that the entries of a variable may have. -/
structure VarName where
  full : CString
  long : CString

variable {D : Type*}

namespace VarConfig

/-- The entry of the override file for a name. -/
def overrideEntry (c : VarConfig D) (n : VarName) : Option FileValue :=
  c.overrideValues.find? (FileValue.isFor n.full n.long)

/-- The entry of the environment for a name. -/
def envEntry (c : VarConfig D) (n : VarName) : Option CString := c.getenv (valueName n.full)

/-- No entry of the environment says that the value for a name has come from elsewhere. -/
def PlainEnv (c : VarConfig D) (n : VarName) : Prop :=
  (decodeSource c.overrideFile (c.getenv (sourceName n.full))).1 = .env

/-- The entry of the parameter files for a name. -/
def fileEntry (c : VarConfig D) (n : VarName) : Option FileValue :=
  c.fileValues.find? (FileValue.isFor n.full n.long)

/-- One of the names has an entry in the override file. -/
def HasOverride (c : VarConfig D) (ns : List VarName) : Prop :=
  ∃ n ∈ ns, (c.overrideEntry n).isSome = true

/-- One of the names has an entry in the environment. -/
def HasEnv (c : VarConfig D) (ns : List VarName) : Prop :=
  ∃ n ∈ ns, (c.envEntry n).isSome = true

/-- One of the names has an entry in the parameter files. -/
def HasFile (c : VarConfig D) (ns : List VarName) : Prop :=
  ∃ n ∈ ns, (c.fileEntry n).isSome = true

/-- The first name with an entry in the environment or in the parameter files has one in the
environment. -/
def envFirst (c : VarConfig D) : List VarName → Bool
  | [] => false
  | n :: ns =>
      if (c.envEntry n).isSome then true
      else if (c.fileEntry n).isSome then false
      else c.envFirst ns

end VarConfig

lemma hasOverride_cons {c : VarConfig D} {n : VarName} {ns : List VarName} :
    c.HasOverride (n :: ns) ↔ (c.overrideEntry n).isSome = true ∨ c.HasOverride ns :=
  List.exists_mem_cons_iff _ _ _

lemma hasEnv_cons {c : VarConfig D} {n : VarName} {ns : List VarName} :
    c.HasEnv (n :: ns) ↔ (c.envEntry n).isSome = true ∨ c.HasEnv ns :=
  List.exists_mem_cons_iff _ _ _

lemma hasFile_cons {c : VarConfig D} {n : VarName} {ns : List VarName} :
    c.HasFile (n :: ns) ↔ (c.fileEntry n).isSome = true ∨ c.HasFile ns :=
  List.exists_mem_cons_iff _ _ _

section Lookups

variable (c : VarConfig D) (type : VarType) (enumerator : Option VarEnum)

/-- A variable accepts the text, and it stands for the value. -/
def Reads (src : Option CString) (value : VarValue D) : Prop :=
  setFromString c.toPlatform type enumerator src = some (.ok value)

/-- What `var_set_initial` does to the source and the value of the variable itself. -/
inductive FirstLookup (n : VarName) (v₀ : VarValue D) : VarSource × VarValue D → Prop
  | override {fv : FileValue} {v : VarValue D} (hoverride : c.overrideEntry n = some fv)
      (hv : Reads c type enumerator fv.value v) : FirstLookup n v₀ (.override, v)
  | env {src : CString} {v : VarValue D}
      (hoverride : ∀ fv v, c.overrideEntry n = some fv → ¬ Reads c type enumerator fv.value v)
      (henv : c.envEntry n = some src) (hv : Reads c type enumerator (some src) v) :
      FirstLookup n v₀ (.env, v)
  | file {fv : FileValue} {v : VarValue D}
      (hoverride : ∀ fv v, c.overrideEntry n = some fv → ¬ Reads c type enumerator fv.value v)
      (henv : c.envEntry n = none) (hfile : c.fileEntry n = some fv)
      (hv : Reads c type enumerator fv.value v) : FirstLookup n v₀ (.file, v)
  | refused {fv : FileValue} (hoverride : c.overrideEntry n = some fv)
      (hv : ∀ v, ¬ Reads c type enumerator fv.value v)
      (henv : c.envEntry n = none) (hfile : c.fileEntry n = none) : FirstLookup n v₀ (.file, v₀)
  | default (hoverride : c.overrideEntry n = none) (henv : c.envEntry n = none)
      (hfile : c.fileEntry n = none) : FirstLookup n v₀ (.default, v₀)

/-- What `var_set_initial` does to the source and the value of a variable when it looks up a
synonym of it. -/
inductive NextLookup (n : VarName) : VarSource × VarValue D → VarSource × VarValue D → Prop
  | done {cell : VarSource × VarValue D} (hdone : VarSource.file.toNat ≤ cell.1.toNat) :
      NextLookup n cell cell
  | override {cell : VarSource × VarValue D} {fv : FileValue} {v : VarValue D}
      (hsource : cell.1 = .default ∨ cell.1 = .env) (hoverride : c.overrideEntry n = some fv) :
      NextLookup n cell (.file, v)
  | kept {v : VarValue D} (hoverride : c.overrideEntry n = none) : NextLookup n (.env, v) (.env, v)
  | env {src : CString} {v v' : VarValue D} (hoverride : c.overrideEntry n = none)
      (henv : c.envEntry n = some src) (hv : Reads c type enumerator (some src) v') :
      NextLookup n (.default, v) (.env, v')
  | file {fv : FileValue} {v v' : VarValue D} (hoverride : c.overrideEntry n = none)
      (henv : c.envEntry n = none) (hfile : c.fileEntry n = some fv)
      (hv : Reads c type enumerator fv.value v') : NextLookup n (.default, v) (.file, v')
  | default {v : VarValue D} (hoverride : c.overrideEntry n = none) (henv : c.envEntry n = none)
      (hfile : c.fileEntry n = none) : NextLookup n (.default, v) (.default, v)

/-- The lookups of all synonyms. -/
inductive NextLookups : List VarName → VarSource × VarValue D → VarSource × VarValue D → Prop
  | nil (cell : VarSource × VarValue D) : NextLookups [] cell cell
  | cons {n : VarName} {ns : List VarName} {cell cell' cell'' : VarSource × VarValue D} :
      NextLookup c type enumerator n cell cell' → NextLookups ns cell' cell'' →
        NextLookups (n :: ns) cell cell''

/-- **The precedence of the sources**: the value and the source are those of the kind of entry that
comes first among the override file, the environment, and the parameter files, under whatever name;
without an entry they are the default. -/
structure FollowsPrecedence (ns : List VarName) (v₀ : VarValue D)
    (cell : VarSource × VarValue D) : Prop where
  override : c.HasOverride ns → cell.1 = .override ∧
    ∃ n ∈ ns, ∃ fv, c.overrideEntry n = some fv ∧ Reads c type enumerator fv.value cell.2
  env : ¬ c.HasOverride ns → c.HasEnv ns → cell.1 = .env ∧
    ∃ n ∈ ns, ∃ src, c.envEntry n = some src ∧ Reads c type enumerator (some src) cell.2
  file : ¬ c.HasOverride ns → ¬ c.HasEnv ns → c.HasFile ns → cell.1 = .file ∧
    ∃ n ∈ ns, ∃ fv, c.fileEntry n = some fv ∧ Reads c type enumerator fv.value cell.2
  default : ¬ c.HasOverride ns → ¬ c.HasEnv ns → ¬ c.HasFile ns → cell = (.default, v₀)

/-- **The entries are in an order that the lookups respect.** If a name has an entry in the override
file, the variable itself has one, with a text that it accepts; and if none has, but one has an entry
in the environment, then the first name with an entry has it there. -/
def EntriesInOrder (n : VarName) (ns : List VarName) : Prop :=
  (c.HasOverride (n :: ns) →
      ∃ fv v, c.overrideEntry n = some fv ∧ Reads c type enumerator fv.value v) ∧
    (¬ c.HasOverride (n :: ns) → c.HasEnv (n :: ns) → c.envFirst (n :: ns) = true)

variable {c type enumerator} {n : VarName} {ns : List VarName}
  {cell cell' : VarSource × VarValue D} {v v₀ : VarValue D}

/-! ### What the lookups of the synonyms lead to -/

lemma file_not_le_env : ¬ VarSource.file.toNat ≤ VarSource.env.toNat := by decide

lemma file_not_le_default : ¬ VarSource.file.toNat ≤ VarSource.default.toNat := by decide

lemma env_not_le_default : ¬ VarSource.env.toNat ≤ VarSource.default.toNat := by decide

lemma NextLookups.of_done (h : NextLookups c type enumerator ns cell cell')
    (hdone : VarSource.file.toNat ≤ cell.1.toNat) : cell' = cell := by
  induction h with
  | nil => rfl
  | cons hstep _ ih =>
      cases hstep with
      | done => exact ih hdone
      | override hsource =>
          rcases hsource with hsource | hsource <;> rw [hsource] at hdone
          · exact absurd hdone file_not_le_default
          · exact absurd hdone file_not_le_env
      | kept => exact absurd hdone file_not_le_env
      | env => exact absurd hdone file_not_le_default
      | file => exact absurd hdone file_not_le_default
      | default => exact absurd hdone file_not_le_default

/-- A value from the environment stays, unless a synonym is in the override file. -/
lemma NextLookups.of_env (h : NextLookups c type enumerator ns (.env, v) cell') :
    (¬ c.HasOverride ns → cell' = (.env, v)) ∧ (c.HasOverride ns → cell'.1 = .file) := by
  induction ns with
  | nil =>
      cases h
      refine ⟨fun _ => rfl, ?_⟩
      rintro ⟨m, hm, -⟩
      cases hm
  | cons n ns ih =>
      obtain ⟨hstep, hrest⟩ : ∃ cell₁, NextLookup c type enumerator n (.env, v) cell₁ ∧
          NextLookups c type enumerator ns cell₁ cell' := by
        cases h with
        | cons hstep hrest => exact ⟨_, hstep, hrest⟩
      cases hrest.1 with
      | done hdone => exact absurd hdone file_not_le_env
      | override hsource hoverride =>
          rw [hrest.2.of_done (Nat.le_refl _)]
          exact ⟨fun hno => absurd (hasOverride_cons.mpr (Or.inl (hoverride ▸ rfl))) hno,
            fun _ => rfl⟩
      | kept hoverride =>
          obtain ⟨hkeep, hlose⟩ := ih hrest.2
          refine ⟨fun hno => hkeep fun hothers => hno (hasOverride_cons.mpr (Or.inr hothers)),
            fun hhas => ?_⟩
          rcases hasOverride_cons.mp hhas with hsome | hothers
          · rw [hoverride] at hsome
            cases hsome
          · exact hlose hothers

/-- Where the default is kept first, the first entry of a synonym counts, unless one is in the
override file. -/
lemma NextLookups.of_default (h : NextLookups c type enumerator ns (.default, v) cell') :
    (c.HasOverride ns → cell'.1 = .file) ∧
      (¬ c.HasOverride ns →
        (c.envFirst ns = true → cell'.1 = .env ∧
          ∃ n ∈ ns, ∃ src, c.envEntry n = some src ∧ Reads c type enumerator (some src) cell'.2) ∧
        (c.envFirst ns = false → c.HasFile ns → cell'.1 = .file ∧
          ∃ n ∈ ns, ∃ fv, c.fileEntry n = some fv ∧ Reads c type enumerator fv.value cell'.2) ∧
        (c.envFirst ns = false → ¬ c.HasFile ns → ¬ c.HasEnv ns ∧ cell' = (.default, v))) := by
  induction ns with
  | nil =>
      cases h
      have hnil : ∀ {p : VarName → Prop}, ¬ ∃ m ∈ [], p m := fun ⟨m, hm, _⟩ => by cases hm
      exact ⟨fun h => absurd h hnil,
        fun _ => ⟨nofun, fun _ h => absurd h hnil, fun _ _ => ⟨hnil, rfl⟩⟩⟩
  | cons n ns ih =>
      obtain ⟨cell₁, hstep, hrest⟩ : ∃ cell₁, NextLookup c type enumerator n (.default, v) cell₁ ∧
          NextLookups c type enumerator ns cell₁ cell' := by
        cases h with
        | cons hstep hrest => exact ⟨_, hstep, hrest⟩
      have hothers : ∀ {p : VarName → Prop}, (∃ m ∈ ns, p m) → ∃ m ∈ n :: ns, p m :=
        fun ⟨m, hm, hp⟩ => ⟨m, List.mem_cons_of_mem _ hm, hp⟩
      rw [hasOverride_cons, hasEnv_cons, hasFile_cons, VarConfig.envFirst]
      cases hstep with
      | done hdone => exact absurd hdone file_not_le_default
      | override hsource hoverride =>
          rw [hrest.of_done (Nat.le_refl _), hoverride]
          exact ⟨fun _ => rfl, fun hno => absurd (Or.inl rfl) hno⟩
      | env hoverride henv hv =>
          obtain ⟨hkeep, hlose⟩ := hrest.of_env
          rw [hoverride, henv, Option.isSome_some, if_pos rfl]
          refine ⟨fun h => hlose (h.resolve_left nofun), fun hno => ⟨fun _ => ?_, nofun, nofun⟩⟩
          rw [hkeep fun h => hno (Or.inr h)]
          exact ⟨rfl, n, List.mem_cons_self, _, henv, hv⟩
      | file hoverride henv hfile hv =>
          rw [hrest.of_done (Nat.le_refl _), hoverride, henv, hfile, if_neg nofun, Option.isSome_some,
            if_pos rfl]
          exact ⟨fun _ => rfl, fun _ => ⟨nofun,
            fun _ _ => ⟨rfl, n, List.mem_cons_self, _, hfile, hv⟩,
            fun _ h => absurd (Or.inl rfl) h⟩⟩
      | default hoverride henv hfile =>
          obtain ⟨hlose, hkeep⟩ := ih hrest
          rw [hoverride, henv, hfile, if_neg nofun, if_neg nofun]
          refine ⟨fun h => hlose (h.resolve_left nofun), fun hno => ?_⟩
          obtain ⟨henv', hfile', hdefault⟩ := hkeep fun h => hno (Or.inr h)
          refine ⟨fun h => ?_, fun h hf => ?_, fun h hf => ?_⟩
          · exact ⟨(henv' h).1, hothers (henv' h).2⟩
          · obtain ⟨hsource, hread⟩ := hfile' h (hf.resolve_left nofun)
            exact ⟨hsource, hothers hread⟩
          · obtain ⟨hno', hcell⟩ := hdefault h fun hf' => hf (Or.inr hf')
            exact ⟨fun h => hno' (h.resolve_left nofun), hcell⟩

/-- A value that is not from the override file, when there is one, is wrong. -/
lemma not_followsPrecedence_of_override (hhas : c.HasOverride (n :: ns))
    (hsource : cell.1 ≠ .override) : ¬ FollowsPrecedence c type enumerator (n :: ns) v₀ cell :=
  fun h => hsource (h.override hhas).1

/-- **The lookups respect the precedence if and only if the entries are in order.** -/
lemma followsPrecedence_iff (hfirst : FirstLookup c type enumerator n v₀ cell)
    (hnext : NextLookups c type enumerator ns cell cell') :
    FollowsPrecedence c type enumerator (n :: ns) v₀ cell' ↔
      EntriesInOrder c type enumerator n ns := by
  have hself : n ∈ n :: ns := List.mem_cons_self
  cases hfirst with
  | override hoverride hv =>
      have hhas : c.HasOverride (n :: ns) := hasOverride_cons.mpr (Or.inl (hoverride ▸ rfl))
      rw [hnext.of_done (by decide : VarSource.file.toNat ≤ VarSource.override.toNat)]
      refine iff_of_true ⟨fun _ => ⟨rfl, n, hself, _, hoverride, hv⟩, fun hno => absurd hhas hno,
        fun hno => absurd hhas hno, fun hno => absurd hhas hno⟩ ?_
      exact ⟨fun _ => ⟨_, _, hoverride, hv⟩, fun hno => absurd hhas hno⟩
  | env hoverride henv hv =>
      obtain ⟨hkeep, hlose⟩ := hnext.of_env
      have hhasEnv : c.HasEnv (n :: ns) := hasEnv_cons.mpr (Or.inl (henv ▸ rfl))
      by_cases hhas : c.HasOverride (n :: ns)
      · refine iff_of_false (not_followsPrecedence_of_override hhas fun hsource => ?_) fun h => ?_
        · by_cases hothers : c.HasOverride ns
          · rw [hlose hothers] at hsource
            cases hsource
          · rw [hkeep hothers] at hsource
            cases hsource
        · obtain ⟨fv, v, hfv, hread⟩ := h.1 hhas
          exact hoverride fv v hfv hread
      · rw [hkeep fun h => hhas (hasOverride_cons.mpr (Or.inr h))]
        refine iff_of_true ⟨fun h => absurd h hhas, fun _ _ => ⟨rfl, n, hself, _, henv, hv⟩,
          fun _ hno => absurd hhasEnv hno, fun _ hno => absurd hhasEnv hno⟩ ?_
        refine ⟨fun h => absurd h hhas, fun _ _ => ?_⟩
        rw [VarConfig.envFirst, henv, Option.isSome_some, if_pos rfl]
  | file hoverride henv hfile hv =>
      have hhasFile : c.HasFile (n :: ns) := hasFile_cons.mpr (Or.inl (hfile ▸ rfl))
      rw [hnext.of_done (Nat.le_refl _)]
      by_cases hhas : c.HasOverride (n :: ns)
      · refine iff_of_false (not_followsPrecedence_of_override hhas nofun) fun h => ?_
        obtain ⟨fv, v, hfv, hread⟩ := h.1 hhas
        exact hoverride fv v hfv hread
      by_cases hhasEnv : c.HasEnv (n :: ns)
      · refine iff_of_false (fun h => ?_) fun h => ?_
        · cases (h.env hhas hhasEnv).1
        · have hfirst := h.2 hhas hhasEnv
          rw [VarConfig.envFirst, henv, hfile, if_neg nofun, Option.isSome_some, if_pos rfl] at hfirst
          cases hfirst
      · exact iff_of_true ⟨fun h => absurd h hhas, fun _ h => absurd h hhasEnv,
          fun _ _ _ => ⟨rfl, n, hself, _, hfile, hv⟩, fun _ _ hno => absurd hhasFile hno⟩
          ⟨fun h => absurd h hhas, fun _ h => absurd h hhasEnv⟩
  | refused hoverride hv henv hfile =>
      have hhas : c.HasOverride (n :: ns) := hasOverride_cons.mpr (Or.inl (hoverride ▸ rfl))
      rw [hnext.of_done (Nat.le_refl _)]
      refine iff_of_false (not_followsPrecedence_of_override hhas nofun) fun h => ?_
      obtain ⟨fv, v, hfv, hread⟩ := h.1 hhas
      rw [hoverride] at hfv
      exact hv v (Option.some.inj hfv ▸ hread)
  | default hoverride henv hfile =>
      obtain ⟨hlose, hkeep⟩ := hnext.of_default
      by_cases hhas : c.HasOverride (n :: ns)
      · have hothers : c.HasOverride ns :=
          (hasOverride_cons.mp hhas).resolve_left (by rw [hoverride]; nofun)
        refine iff_of_false (not_followsPrecedence_of_override hhas ?_) fun h => ?_
        · rw [hlose hothers]
          nofun
        · obtain ⟨fv, v, hfv, -⟩ := h.1 hhas
          rw [hoverride] at hfv
          cases hfv
      · obtain ⟨henv', hfile', hdefault⟩ := hkeep fun h => hhas (hasOverride_cons.mpr (Or.inr h))
        have hfirst : c.envFirst (n :: ns) = c.envFirst ns := by
          rw [VarConfig.envFirst, henv, hfile, if_neg nofun, if_neg nofun]
        have hmem : ∀ {p : VarName → Prop}, (∃ m ∈ ns, p m) → ∃ m ∈ n :: ns, p m :=
          fun ⟨m, hm, hp⟩ => ⟨m, List.mem_cons_of_mem _ hm, hp⟩
        rw [EntriesInOrder, hfirst]
        cases hfe : c.envFirst ns with
        | true =>
            obtain ⟨hsource, m, hm, src, hsrc, hread⟩ := henv' hfe
            have hhasEnv : c.HasEnv (n :: ns) :=
              ⟨m, List.mem_cons_of_mem _ hm, by rw [hsrc, Option.isSome_some]⟩
            exact iff_of_true ⟨fun h => absurd h hhas,
              fun _ _ => ⟨hsource, hmem ⟨m, hm, src, hsrc, hread⟩⟩,
              fun _ hno => absurd hhasEnv hno, fun _ hno => absurd hhasEnv hno⟩
              ⟨fun h => absurd h hhas, fun _ _ => rfl⟩
        | false =>
            by_cases hhasFile : c.HasFile ns
            · obtain ⟨hsource, hread⟩ := hfile' hfe hhasFile
              by_cases hhasEnv : c.HasEnv (n :: ns)
              · refine iff_of_false (fun h => ?_) fun h => by cases h.2 hhas hhasEnv
                have henvSource := (h.env hhas hhasEnv).1
                rw [hsource] at henvSource
                cases henvSource
              · exact iff_of_true ⟨fun h => absurd h hhas, fun _ h => absurd h hhasEnv,
                  fun _ _ _ => ⟨hsource, hmem hread⟩,
                  fun _ _ hno => absurd (hasFile_cons.mpr (Or.inr hhasFile)) hno⟩
                  ⟨fun h => absurd h hhas, fun _ h => absurd h hhasEnv⟩
            · obtain ⟨hnoEnv, hcell⟩ := hdefault hfe hhasFile
              have hnoEnv' : ¬ c.HasEnv (n :: ns) := fun h =>
                hnoEnv ((hasEnv_cons.mp h).resolve_left (by rw [henv]; nofun))
              have hnoFile : ¬ c.HasFile (n :: ns) := fun h =>
                hhasFile ((hasFile_cons.mp h).resolve_left (by rw [hfile]; nofun))
              exact iff_of_true ⟨fun h => absurd h hhas, fun _ h => absurd h hnoEnv',
                fun _ _ h => absurd h hnoFile, fun _ _ _ => hcell⟩
                ⟨fun h => absurd h hhas, fun _ h => absurd h hnoEnv'⟩

end Lookups

/-! ### What a lookup does to the source and the value -/

lemma intFromString_error {src : Option CString} {enumerator : Option VarEnum} {rc : Rc}
    (h : intFromString src enumerator = .error rc) : rc ≠ .notFound := by
  rcases src with _ | _ | ⟨ch, cs⟩
  · cases h
  · cases h
  · rcases enumerator with _ | e
    · cases h
    · have hread : ∀ rc, e.valueFromString (ch :: cs) = .error rc → rc = .valueOutOfBounds := by
        intro rc hrc
        cases e with
        | bool =>
            rw [VarEnum.valueFromString] at hrc
            dsimp only at hrc
            split_ifs at hrc
            injection hrc with hrc
            exact hrc.symm
        | values entries =>
            rw [VarEnum.valueFromString] at hrc
            split at hrc
            · cases hrc
            · injection hrc with hrc
              exact hrc.symm
      rw [intFromString] at h
      · cases hvalue : e.valueFromString (ch :: cs) with
        | error rc' =>
            rw [hvalue] at h
            injection h with h
            rw [← h, hread rc' hvalue]
            intro h
            cases h
        | ok v =>
            rw [hvalue] at h
            cases h
      · intro h
        cases h

/-- A text that is refused is no entry that is not found. -/
lemma setFromString_error {c : Platform D} {type : VarType} {enumerator : Option VarEnum}
    {src : Option CString} {rc : Rc}
    (h : setFromString c type enumerator src = some (.error rc)) : rc ≠ .notFound := by
  have hint : type ≠ .double → type ≠ .string → rc ≠ .notFound := by
    intro hdouble hstring
    rw [setFromString] at h
    · cases hvalue : intFromString src enumerator with
      | error rc' =>
          rw [hvalue] at h
          injection h with h
          injection h with h
          exact h ▸ intFromString_error hvalue
      | ok value =>
          rw [hvalue] at h
          dsimp only at h
          split_ifs at h
          · injection h with h
            injection h with h
            rw [← h]
            intro h
            cases h
          · cases hbits : (VarValue.ofBits type value : Option (VarValue D)) with
            | none =>
                rw [hbits] at h
                injection h with h
                injection h with h
                rw [← h]
                intro h
                cases h
            | some v =>
                rw [hbits] at h
                cases h
    · exact hdouble
    · exact hstring
  cases type with
  | double => cases h
  | string =>
      obtain ⟨v, -, hv⟩ := Option.map_eq_some_iff.mp h
      cases hv
  | int => exact hint (by decide) (by decide)
  | unsignedInt => exact hint (by decide) (by decide)
  | unsignedLong => exact hint (by decide) (by decide)
  | unsignedLongLong => exact hint (by decide) (by decide)
  | sizeT => exact hint (by decide) (by decide)
  | bool => exact hint (by decide) (by decide)

section Tracking

variable {c : VarConfig D} {type : VarType} {enumerator : Option VarEnum} {var : Var}

/-- A text is read, or it is refused. -/
lemma VarConfig.read_cases {src : Option CString} {found : Lookup D}
    (h : c.read var src = some found) :
    found.var = var ∧
      ((∃ v, Reads c var.type var.enumerator src v ∧ found.code = .ok () ∧ found.stored = some v) ∨
        ((∀ v, ¬ Reads c var.type var.enumerator src v) ∧ found.stored = none ∧
          ∃ rc, found.code = .error rc ∧ rc ≠ .notFound)) := by
  obtain ⟨r, hr, rfl⟩ := Option.map_eq_some_iff.mp h
  cases r with
  | error rc =>
      refine ⟨rfl, Or.inr ⟨fun v hv => ?_, rfl, rc, rfl, setFromString_error hr⟩⟩
      rw [Reads, hr] at hv
      cases hv
  | ok v => exact ⟨rfl, Or.inl ⟨v, hr, rfl, rfl⟩⟩

/-- A variable with its storage at the address `a`, for which every kind of entry counts. -/
structure Var.IsTarget (a : ℕ) (type : VarType) (enumerator : Option VarEnum) (var : Var) :
    Prop where
  type : var.type = type
  enumerator : var.enumerator = enumerator
  storage : var.storage = some a
  synonym : var.flags.synonym = false
  defaultOnly : var.flags.defaultOnly = false
  environmentOnly : var.flags.environmentOnly = false

lemma Var.IsTarget.congr {a : ℕ} {w : Var} (h : var.IsTarget a type enumerator)
    (hskel : w.skeleton = var.skeleton) : w.IsTarget a type enumerator where
  type := (congr_skeleton Var.type (fun _ => rfl) hskel).trans h.type
  enumerator := (congr_skeleton Var.enumerator (fun _ => rfl) hskel).trans h.enumerator
  storage := (storage_congr hskel).trans h.storage
  synonym := (synonym_congr hskel).trans h.synonym
  defaultOnly := (congr_skeleton (fun v => v.flags.defaultOnly) (fun _ => rfl) hskel).trans
    h.defaultOnly
  environmentOnly := (congr_skeleton (fun v => v.flags.environmentOnly) (fun _ => rfl) hskel).trans
    h.environmentOnly

/-- What a lookup finds where there is this entry, of this kind. -/
inductive Finds (c : VarConfig D) (entry : Option (Option CString)) (kind : VarSource) (var : Var) :
    Lookup D → Prop
  | notFound (hno : entry = none ∨ var.source = .override) :
      Finds c entry kind var ⟨.error .notFound, var, none⟩
  | read {found : Lookup D} {src : Option CString} {v : VarValue D} (hyes : var.source ≠ .override)
      (hentry : entry = some src) (hv : Reads c var.type var.enumerator src v)
      (hcode : found.code = .ok ()) (hstored : found.stored = some v)
      (hkind : found.var.source = kind) (hskel : found.var.skeleton = var.skeleton) :
      Finds c entry kind var found
  | refused {found : Lookup D} {src : Option CString} {rc : Rc} (hyes : var.source ≠ .override)
      (hentry : entry = some src) (hv : ∀ v, ¬ Reads c var.type var.enumerator src v)
      (hcode : found.code = .error rc) (hrc : rc ≠ .notFound) (hstored : found.stored = none)
      (hkind : found.var.source = kind) (hskel : found.var.skeleton = var.skeleton) :
      Finds c entry kind var found

lemma VarConfig.finds_of_read {src : Option CString} {found : Lookup D} {w : Var}
    {kind : VarSource} (h : c.read w src = some found) (hyes : var.source ≠ .override)
    (hkind : w.source = kind) (hskel : w.skeleton = var.skeleton) :
    Finds c (some src) kind var found := by
  have htype : w.type = var.type := Var.congr_skeleton Var.type (fun _ => rfl) hskel
  have henum : w.enumerator = var.enumerator :=
    Var.congr_skeleton Var.enumerator (fun _ => rfl) hskel
  obtain ⟨hvar, hread⟩ := read_cases h
  rw [htype, henum] at hread
  rcases hread with ⟨v, hv, hcode, hstored⟩ | ⟨hv, hstored, rc, hcode, hrc⟩
  · exact .read hyes rfl hv hcode hstored (hvar ▸ hkind) (hvar ▸ hskel)
  · exact .refused hyes rfl hv hcode hrc hstored (hvar ▸ hkind) (hvar ▸ hskel)

lemma VarConfig.finds_of_fromFile {values : List FileValue} {n : VarName} {a : ℕ}
    {found : Lookup D} (hvar : var.IsTarget a type enumerator)
    (h : c.fromFile values n.full n.long var = some found) :
    Finds c ((values.find? (FileValue.isFor n.full n.long)).map FileValue.value) .file var found := by
  rw [fromFile] at h
  cases hentry : values.find? (FileValue.isFor n.full n.long) with
  | none =>
      rw [hentry] at h
      cases h
      exact .notFound (Or.inl rfl)
  | some fv =>
      rw [hentry] at h
      dsimp only at h
      rw [hvar.defaultOnly, hvar.environmentOnly, if_neg Bool.false_ne_true,
        if_neg Bool.false_ne_true] at h
      by_cases hover : var.source = .override
      · rw [if_pos hover] at h
        cases h
        exact .notFound (Or.inr hover)
      · rw [if_neg hover] at h
        exact finds_of_read h hover rfl rfl

lemma VarConfig.finds_of_fromEnv {n : VarName} {a : ℕ} {found : Lookup D}
    (hvar : var.IsTarget a type enumerator) (hsource : c.PlainEnv n)
    (h : c.fromEnv n.full var = some found) :
    Finds c ((c.envEntry n).map some) .env var found := by
  rw [fromEnv] at h
  rw [VarConfig.envEntry]
  cases hentry : c.getenv (valueName n.full) with
  | none =>
      rw [hentry] at h
      cases h
      exact .notFound (Or.inl rfl)
  | some src =>
      rw [hentry] at h
      dsimp only at h
      rw [hvar.defaultOnly, if_neg Bool.false_ne_true] at h
      by_cases hover : var.source = .override
      · rw [if_pos hover] at h
        cases h
        exact .notFound (Or.inr hover)
      · rw [if_neg hover] at h
        rcases hdecode : decodeSource c.overrideFile (c.getenv (sourceName n.full)) with ⟨kind, file⟩
        rw [PlainEnv, hdecode] at hsource
        rw [hdecode] at h
        exact finds_of_read h hover hsource rfl

/-! ### The variable that is tracked -/

/-- The source and the value of the variable `i`, whose storage is at `a`. -/
def VarRegistry.Tracks (s : VarRegistry D) (i a : ℕ) (type : VarType)
    (enumerator : Option VarEnum) (cell : VarSource × VarValue D) : Prop :=
  ∃ var, s.vars.getItem i = some var ∧ var.IsTarget a type enumerator ∧ var.source = cell.1 ∧
    s.memory a = cell.2

/-- A lookup of the variable `index`, with these names, sets the variable `i`. -/
def VarRegistry.Targets (s : VarRegistry D) (index : ℕ) (n : VarName) (i : ℕ) (syn : Bool) : Prop :=
  ∃ named, s.vars.getItem index = some named ∧ named.fullName = n.full ∧ named.longName = n.long ∧
    named.flags.synonym = syn ∧ if syn then named.synonymFor = some i else i = index

/-- How a lookup ends for the variable that is tracked. -/
inductive LookupEnd (c : VarConfig D) (i a : ℕ) (type : VarType) (enumerator : Option VarEnum)
    (entry : Option (Option CString)) (kind : VarSource) (cell : VarSource × VarValue D)
    (s' : VarRegistry D) : Except Rc Unit → Prop
  | notFound (hno : entry = none ∨ cell.1 = .override)
      (htracks : s'.Tracks i a type enumerator cell) :
      LookupEnd c i a type enumerator entry kind cell s' (.error .notFound)
  | read {src : Option CString} {v : VarValue D} (hyes : cell.1 ≠ .override)
      (hentry : entry = some src) (hv : Reads c type enumerator src v)
      (htracks : s'.Tracks i a type enumerator (kind, v)) :
      LookupEnd c i a type enumerator entry kind cell s' (.ok ())
  | refused {src : Option CString} {rc : Rc} (hyes : cell.1 ≠ .override)
      (hentry : entry = some src) (hv : ∀ v, ¬ Reads c type enumerator src v)
      (hrc : rc ≠ .notFound) (htracks : s'.Tracks i a type enumerator (kind, cell.2)) :
      LookupEnd c i a type enumerator entry kind cell s' (.error rc)

/-- The enumerator that a call gives to the variable. -/
def VarCall.usedEnumerator (call : VarCall) : Option VarEnum :=
  if call.type = .bool then some .bool else call.enumerator

namespace VarRegistry

variable {s s' : VarRegistry D} {index i a : ℕ} {n : VarName} {syn : Bool}
  {cell : VarSource × VarValue D}

lemma Targets.keeps (h : s.Targets index n i syn) (hkeep : s.Keeps s') :
    s'.Targets index n i syn := by
  obtain ⟨named, hnamed, hfull, hlong, hsyn, hfor⟩ := h
  obtain ⟨named', hnamed', hskel⟩ := hkeep.getItem hnamed
  refine ⟨named', hnamed', (Var.fullName_congr hskel).trans hfull,
    (Var.longName_congr hskel).trans hlong, (Var.synonym_congr hskel).trans hsyn, ?_⟩
  rw [Var.congr_skeleton Var.synonymFor (fun _ => rfl) hskel]
  exact hfor

/-- What is recorded is tracked. -/
lemma Tracks.record {var : Var} {found : Lookup D} (hvar : s.vars.getItem i = some var)
    (htarget : found.var.IsTarget a type enumerator) :
    (s.record i found).Tracks i a type enumerator
      (found.var.source, found.stored.getD (s.memory a)) := by
  refine ⟨found.var, getItem_record hvar found, htarget, rfl, ?_⟩
  rw [VarRegistry.record]
  dsimp only
  rw [Lookup.write, htarget.storage]
  cases found.stored with
  | none => rfl
  | some v => exact Function.update_self _ _ _

lemma lookUp_cases {bound kind : VarSource} {look : Var → Var → Option (Lookup D)}
    {entry : Option (Option CString)} {ret : Except Rc Unit}
    (hlook : ∀ named var found, named.fullName = n.full → named.longName = n.long →
      var.IsTarget a type enumerator → look named var = some found → Finds c entry kind var found)
    (hN : s.Targets index n i syn) (hT : s.Tracks i a type enumerator cell)
    (h : s.lookUp index bound look = some (ret, s')) :
    if syn = true ∧ bound.toNat ≤ cell.1.toNat then ret = .ok () ∧ s' = s
    else LookupEnd c i a type enumerator entry kind cell s' ret := by
  obtain ⟨named, hnamed, hfull, hlong, hsyn, hfor⟩ := hN
  obtain ⟨var, hvar, htarget, hsource, hvalue⟩ := hT
  have heq : s.target index named = .ok (i, var) := by
    rw [VarRegistry.target, hsyn]
    cases syn with
    | true =>
        rw [if_pos rfl] at hfor
        rw [if_pos rfl, hfor]
        dsimp only
        rw [varGet, hvar]
        dsimp only
        rw [htarget.synonym, Bool.false_and, if_neg Bool.false_ne_true]
    | false =>
        rw [if_neg Bool.false_ne_true] at hfor
        subst hfor
        rw [hvar] at hnamed
        rw [if_neg Bool.false_ne_true, Option.some.inj hnamed]
  rw [lookUp, hnamed] at h
  dsimp only at h
  rw [heq] at h
  dsimp only at h
  rw [hsyn, hsource] at h
  by_cases hskip : syn = true ∧ bound.toNat ≤ cell.1.toNat
  · rw [if_pos hskip] at h ⊢
    cases h
    exact ⟨rfl, rfl⟩
  · rw [if_neg hskip] at h ⊢
    obtain ⟨found, hfound, hrec⟩ := Option.map_eq_some_iff.mp h
    cases hrec
    cases hlook named var found hfull hlong htarget hfound with
    | notFound hno =>
        have htracks : (s.record i ⟨.error .notFound, var, none⟩).Tracks i a type enumerator
            (var.source, Option.getD none (s.memory a)) := Tracks.record hvar htarget
        rw [hsource] at hno
        rw [hsource, Option.getD_none, hvalue] at htracks
        exact .notFound hno htracks
    | read hyes hentry hv hcode hstored hkind hskel =>
        have htracks := Tracks.record hvar (htarget.congr hskel)
        rw [hstored, hkind] at htracks
        rw [htarget.type, htarget.enumerator] at hv
        rw [hcode]
        exact .read (hsource ▸ hyes) hentry hv htracks
    | refused hyes hentry hv hcode hrc hstored hkind hskel =>
        have htracks := Tracks.record hvar (htarget.congr hskel)
        rw [hstored, hkind, Option.getD_none, hvalue] at htracks
        rw [htarget.type, htarget.enumerator] at hv
        rw [hcode]
        exact .refused (hsource ▸ hyes) hentry hv hrc htracks

lemma setFromFile_cases {values : List FileValue} {ret : Except Rc Unit}
    (hN : s.Targets index n i syn) (hT : s.Tracks i a type enumerator cell)
    (h : s.setFromFile c values index = some (ret, s')) :
    if syn = true ∧ VarSource.file.toNat ≤ cell.1.toNat then ret = .ok () ∧ s' = s
    else LookupEnd c i a type enumerator
      ((values.find? (FileValue.isFor n.full n.long)).map FileValue.value) .file cell s' ret := by
  refine lookUp_cases (fun named var found hfull hlong htarget hfound => ?_) hN hT h
  rw [hfull, hlong] at hfound
  exact VarConfig.finds_of_fromFile htarget hfound

lemma setFromEnv_cases {ret : Except Rc Unit} (hsource : c.PlainEnv n)
    (hN : s.Targets index n i syn) (hT : s.Tracks i a type enumerator cell)
    (h : s.setFromEnv c index = some (ret, s')) :
    if syn = true ∧ VarSource.env.toNat ≤ cell.1.toNat then ret = .ok () ∧ s' = s
    else LookupEnd c i a type enumerator ((c.envEntry n).map some) .env cell s' ret := by
  refine lookUp_cases (fun named var found hfull hlong htarget hfound => ?_) hN hT h
  rw [hfull] at hfound
  exact VarConfig.finds_of_fromEnv htarget hsource hfound

/-- The second half of `var_set_initial`: the lookups in the environment and in the parameter
files. -/
def EnvAndFile (c : VarConfig D) (s : VarRegistry D) (index : ℕ) (ret : Except Rc Unit)
    (s' : VarRegistry D) : Prop :=
  ∃ ret₂ s₂, s.setFromEnv c index = some (ret₂, s₂) ∧
    ((ret₂ ≠ .error .notFound ∧ ret₂ = ret ∧ s₂ = s') ∨
      (ret₂ = .error .notFound ∧ ∃ ret₃, s₂.setFromFile c c.fileValues index = some (ret₃, s') ∧
        (ret₃ ≠ .error .notFound ∧ ret₃ = ret ∨ ret₃ = .error .notFound ∧ ret = .ok ())))

/-- The lookups of `var_set_initial`, one after the other. -/
lemma setInitial_steps {ret : Except Rc Unit} (h : s.setInitial c index = some (ret, s')) :
    ∃ ret₁ s₁, (s.modifyVar index fun var => { var with source := .default }).setFromFile c
        c.overrideValues index = some (ret₁, s₁) ∧
      EnvAndFile c (if ret₁ = .ok () then s₁.modifyVar index Var.overridden else s₁) index ret s' := by
  rw [setInitial] at h
  dsimp only [bind] at h
  obtain ⟨⟨ret₁, s₁⟩, h₁, h⟩ := Option.bind_eq_some_iff.mp h
  obtain ⟨⟨ret₂, s₂⟩, h₂, h⟩ := Option.bind_eq_some_iff.mp h
  refine ⟨ret₁, s₁, h₁, ret₂, s₂, h₂, ?_⟩
  dsimp only at h
  by_cases hret₂ : ret₂ = .error .notFound
  · rw [if_neg (not_not.mpr hret₂)] at h
    obtain ⟨⟨ret₃, s₃⟩, h₃, h⟩ := Option.bind_eq_some_iff.mp h
    dsimp only at h
    by_cases hret₃ : ret₃ = .error .notFound
    · rw [if_neg (not_not.mpr hret₃)] at h
      cases h
      exact Or.inr ⟨hret₂, _, h₃, Or.inr ⟨hret₃, rfl⟩⟩
    · rw [if_pos hret₃] at h
      cases h
      exact Or.inr ⟨hret₂, _, h₃, Or.inl ⟨hret₃, rfl⟩⟩
  · rw [if_pos hret₂] at h
    cases h
    exact Or.inl ⟨hret₂, rfl, rfl⟩

/-- Another variable may change. -/
lemma Tracks.modifyVar_of_ne (h : s.Tracks i a type enumerator cell) (hne : i ≠ index)
    (f : Var → Var) : (s.modifyVar index f).Tracks i a type enumerator cell := by
  obtain ⟨var, hvar, hrest⟩ := h
  exact ⟨var, (getItem_modifyVar_of_ne s hne f).trans hvar, hrest⟩

lemma Tracks.modifyVar {v : VarValue D} {kind : VarSource} (h : s.Tracks i a type enumerator cell)
    {f : Var → Var} (hskel : ∀ var, (f var).skeleton = var.skeleton)
    (hkind : ∀ var, (f var).source = kind) (hv : cell.2 = v) :
    (s.modifyVar i f).Tracks i a type enumerator (kind, v) := by
  obtain ⟨var, hvar, htarget, -, hvalue⟩ := h
  exact ⟨f var, getItem_modifyVar hvar f, htarget.congr (hskel var), hkind var, hvalue.trans hv⟩

/-- The lookups in the environment and in the parameter files, where neither is left out. -/
lemma EnvAndFile.reads {s₁ : VarRegistry D} {kind : VarSource} {v₀ : VarValue D}
    (hsource : c.PlainEnv n) (hkind : kind ≠ .override)
    (hnotEnv : ¬ (syn = true ∧ VarSource.env.toNat ≤ kind.toNat))
    (hnotFile : ¬ (syn = true ∧ VarSource.file.toNat ≤ kind.toNat))
    (hN : s₁.Targets index n i syn) (hT : s₁.Tracks i a type enumerator (kind, v₀))
    (h : EnvAndFile c s₁ index (.ok ()) s') :
    (∃ src v, c.envEntry n = some src ∧ Reads c type enumerator (some src) v ∧
        s'.Tracks i a type enumerator (.env, v)) ∨
      (c.envEntry n = none ∧ ∃ fv v, c.fileEntry n = some fv ∧ Reads c type enumerator fv.value v ∧
        s'.Tracks i a type enumerator (.file, v)) ∨
      (c.envEntry n = none ∧ c.fileEntry n = none ∧ s'.Tracks i a type enumerator (kind, v₀)) := by
  obtain ⟨ret₂, s₂, henv, hend⟩ := h
  have henvEnd := setFromEnv_cases hsource hN hT henv
  rw [if_neg hnotEnv] at henvEnd
  cases henvEnd with
  | read _ hentry hv htracks =>
      obtain ⟨src, hsrc, rfl⟩ := Option.map_eq_some_iff.mp hentry
      rcases hend with ⟨-, -, rfl⟩ | ⟨hret, -⟩
      · exact Or.inl ⟨src, _, hsrc, hv, htracks⟩
      · cases hret
  | refused _ _ _ hrc =>
      rcases hend with ⟨-, hret, -⟩ | ⟨hret, -⟩
      · cases hret
      · injection hret with hret
        exact absurd hret hrc
  | notFound hno htracks =>
      have hnone : c.envEntry n = none := Option.map_eq_none_iff.mp (hno.resolve_right hkind)
      rcases hend with ⟨hret, -⟩ | ⟨-, ret₃, hfile, hret₃⟩
      · exact absurd rfl hret
      have hN₂ := hN.keeps (keeps_of_setFromEnv henv)
      have hfileEnd := setFromFile_cases hN₂ htracks hfile
      rw [if_neg hnotFile] at hfileEnd
      cases hfileEnd with
      | read _ hentry hv htracks =>
          obtain ⟨fv, hfv, rfl⟩ := Option.map_eq_some_iff.mp hentry
          exact Or.inr (Or.inl ⟨hnone, fv, _, hfv, hv, htracks⟩)
      | refused _ _ _ hrc =>
          rcases hret₃ with ⟨-, hret⟩ | ⟨hret, -⟩
          · cases hret
          · injection hret with hret
            exact absurd hret hrc
      | notFound hno htracks =>
          exact Or.inr (Or.inr ⟨hnone, Option.map_eq_none_iff.mp (hno.resolve_right hkind), htracks⟩)

/-- For the variable itself. -/
lemma EnvAndFile.of_self {s₁ : VarRegistry D} {kind : VarSource} {v₀ : VarValue D}
    (hsource : c.PlainEnv n)
    (hkind : kind ≠ .override) (hN : s₁.Targets i n i false)
    (hT : s₁.Tracks i a type enumerator (kind, v₀))
    (h : EnvAndFile c s₁ i (.ok ()) s') :
    (∃ src v, c.envEntry n = some src ∧ Reads c type enumerator (some src) v ∧
        s'.Tracks i a type enumerator (.env, v)) ∨
      (c.envEntry n = none ∧ ∃ fv v, c.fileEntry n = some fv ∧ Reads c type enumerator fv.value v ∧
        s'.Tracks i a type enumerator (.file, v)) ∨
      (c.envEntry n = none ∧ c.fileEntry n = none ∧ s'.Tracks i a type enumerator (kind, v₀)) :=
  h.reads hsource hkind (fun h => Bool.false_ne_true h.1) (fun h => Bool.false_ne_true h.1) hN hT

/-- Nothing is looked up any more when the value is from the override file. -/
lemma EnvAndFile.of_override {s₁ : VarRegistry D} {v : VarValue D}
    (hsource : c.PlainEnv n) (hN : s₁.Targets i n i false)
    (hT : s₁.Tracks i a type enumerator (.override, v))
    (h : EnvAndFile c s₁ i (.ok ()) s') :
    s'.Tracks i a type enumerator (.override, v) := by
  obtain ⟨ret₂, s₂, henv, hend⟩ := h
  have henvEnd := setFromEnv_cases hsource hN hT henv
  rw [if_neg fun h => Bool.false_ne_true h.1] at henvEnd
  cases henvEnd with
  | read hyes => exact absurd rfl hyes
  | refused hyes => exact absurd rfl hyes
  | notFound _ htracks =>
      rcases hend with ⟨hret, -⟩ | ⟨-, ret₃, hfile, -⟩
      · exact absurd rfl hret
      have hfileEnd := setFromFile_cases (hN.keeps (keeps_of_setFromEnv henv)) htracks hfile
      rw [if_neg fun h => Bool.false_ne_true h.1] at hfileEnd
      cases hfileEnd with
      | read hyes => exact absurd rfl hyes
      | refused hyes => exact absurd rfl hyes
      | notFound _ htracks => exact htracks

/-- **The lookup of the variable itself.** -/
lemma setInitial_first {v₀ : VarValue D} (hsource : c.PlainEnv n)
    (hN : s.Targets i n i false) (hT : s.Tracks i a type enumerator cell) (hv₀ : cell.2 = v₀)
    (h : s.setInitial c i = some (.ok (), s')) :
    ∃ cell', FirstLookup c type enumerator n v₀ cell' ∧ s'.Tracks i a type enumerator cell' := by
  obtain ⟨ret₁, s₁, h₁, hrest⟩ := setInitial_steps h
  have hkeep₀ : s.Keeps (s.modifyVar i fun var => { var with source := .default }) :=
    keeps_modifyVar s i fun _ _ => rfl
  have hT₀ : (s.modifyVar i fun var => { var with source := .default }).Tracks i a type enumerator
      (.default, v₀) := hT.modifyVar (fun _ => rfl) (fun _ => rfl) hv₀
  have hN₁ := (hN.keeps hkeep₀).keeps (keeps_of_setFromFile h₁)
  have hfile := setFromFile_cases (hN.keeps hkeep₀) hT₀ h₁
  rw [if_neg fun h => Bool.false_ne_true h.1] at hfile
  cases hfile with
  | read _ hentry hv htracks =>
      obtain ⟨fv, hfv, rfl⟩ := Option.map_eq_some_iff.mp hentry
      rw [if_pos rfl] at hrest
      have hkeep : s₁.Keeps (s₁.modifyVar i Var.overridden) := keeps_modifyVar s₁ i fun _ _ => rfl
      exact ⟨_, .override hfv hv, hrest.of_override hsource (hN₁.keeps hkeep)
        (htracks.modifyVar (fun _ => rfl) (fun _ => rfl) rfl)⟩
  | refused _ hentry hv _ htracks =>
      obtain ⟨fv, hfv, rfl⟩ := Option.map_eq_some_iff.mp hentry
      have hno : ∀ fv' v, c.overrideEntry n = some fv' → ¬ Reads c type enumerator fv'.value v := by
        intro fv' v hfv'
        rw [VarConfig.overrideEntry, hfv] at hfv'
        rw [← Option.some.inj hfv']
        exact hv v
      rw [if_neg (fun h => by cases h)] at hrest
      rcases hrest.of_self hsource (fun h => by cases h) hN₁ htracks with
        ⟨src, v, henv, hread, ht⟩ | ⟨henv, fv, v, hentry, hread, ht⟩ | ⟨henv, hentry, ht⟩
      · exact ⟨_, .env hno henv hread, ht⟩
      · exact ⟨_, .file hno henv hentry hread, ht⟩
      · exact ⟨_, .refused hfv hv henv hentry, ht⟩
  | notFound hnone htracks =>
      have hnone : c.overrideEntry n = none :=
        Option.map_eq_none_iff.mp (hnone.resolve_right fun h => by cases h)
      have hno : ∀ fv' v, c.overrideEntry n = some fv' → ¬ Reads c type enumerator fv'.value v := by
        intro fv' v hfv'
        rw [hnone] at hfv'
        cases hfv'
      rw [if_neg (fun h => by cases h)] at hrest
      rcases hrest.of_self hsource (fun h => by cases h) hN₁ htracks with
        ⟨src, v, henv, hread, ht⟩ | ⟨henv, fv, v, hentry, hread, ht⟩ | ⟨henv, hentry, ht⟩
      · exact ⟨_, .env hno henv hread, ht⟩
      · exact ⟨_, .file hno henv hentry hread, ht⟩
      · exact ⟨_, .default hnone henv hentry, ht⟩

/-- The environment is not looked up for a synonym when the value is from there, or from a file. -/
lemma EnvAndFile.of_synonym_done {s₁ : VarRegistry D}
    (hsource : c.PlainEnv n) (hN : s₁.Targets index n i true)
    (hT : s₁.Tracks i a type enumerator cell) (hdone : VarSource.env.toNat ≤ cell.1.toNat)
    (h : EnvAndFile c s₁ index (.ok ()) s') : s' = s₁ := by
  obtain ⟨ret₂, s₂, henv, hend⟩ := h
  have henvEnd := setFromEnv_cases hsource hN hT henv
  rw [if_pos ⟨rfl, hdone⟩] at henvEnd
  obtain ⟨rfl, rfl⟩ := henvEnd
  rcases hend with ⟨-, -, hs⟩ | ⟨hret, -⟩
  · exact hs.symm
  · cases hret

/-- The lookups for a synonym in the environment and in the parameter files, where the variable has
its default. -/
lemma EnvAndFile.of_synonym_default {s₁ : VarRegistry D} {v : VarValue D}
    (hsource : c.PlainEnv n) (hN : s₁.Targets index n i true)
    (hT : s₁.Tracks i a type enumerator (.default, v)) (hoverride : c.overrideEntry n = none)
    (h : EnvAndFile c s₁ index (.ok ()) s') :
    ∃ cell', NextLookup c type enumerator n (.default, v) cell' ∧
      s'.Tracks i a type enumerator cell' := by
  rcases h.reads hsource (fun h => by cases h) (fun h => absurd h.2 env_not_le_default)
    (fun h => absurd h.2 file_not_le_default) hN hT with
    ⟨src, v, henv, hread, ht⟩ | ⟨henv, fv, v, hentry, hread, ht⟩ | ⟨henv, hentry, ht⟩
  · exact ⟨_, .env hoverride henv hread, ht⟩
  · exact ⟨_, .file hoverride henv hentry hread, ht⟩
  · exact ⟨_, .default hoverride henv hentry, ht⟩

/-- **The lookup of a synonym.** -/
lemma setInitial_next (hsource : c.PlainEnv n) (hne : i ≠ index)
    (hN : s.Targets index n i true) (hT : s.Tracks i a type enumerator cell)
    (hcommand : cell.1 ≠ .commandLine) (h : s.setInitial c index = some (.ok (), s')) :
    ∃ cell', NextLookup c type enumerator n cell cell' ∧ s'.Tracks i a type enumerator cell' := by
  obtain ⟨ret₁, s₁, h₁, hrest⟩ := setInitial_steps h
  have hkeep₀ : s.Keeps (s.modifyVar index fun var => { var with source := .default }) :=
    keeps_modifyVar s index fun _ _ => rfl
  have hN₁ := (hN.keeps hkeep₀).keeps (keeps_of_setFromFile h₁)
  have hN₂ : (s₁.modifyVar index Var.overridden).Targets index n i true :=
    hN₁.keeps (keeps_modifyVar s₁ index fun _ _ => rfl)
  have hT₀ := hT.modifyVar_of_ne hne fun var => { var with source := .default }
  have hfile := setFromFile_cases (hN.keeps hkeep₀) hT₀ h₁
  by_cases hdone : VarSource.file.toNat ≤ cell.1.toNat
  · rw [if_pos ⟨rfl, hdone⟩] at hfile
    obtain ⟨rfl, rfl⟩ := hfile
    rw [if_pos rfl] at hrest
    have hT₂ := hT₀.modifyVar_of_ne hne Var.overridden
    obtain rfl := hrest.of_synonym_done hsource hN₂ hT₂
      ((by decide : VarSource.env.toNat ≤ VarSource.file.toNat).trans hdone)
    exact ⟨cell, .done hdone, hT₂⟩
  rw [if_neg fun h => hdone h.2] at hfile
  have hlow : cell.1 = .default ∨ cell.1 = .env := by
    rcases hcell : cell.1
    · exact Or.inl rfl
    · exact absurd hcell hcommand
    · exact Or.inr rfl
    all_goals
      rw [hcell] at hdone
      exact absurd (by decide) hdone
  cases hfile with
  | read _ hentry _ htracks =>
      obtain ⟨fv, hfv, -⟩ := Option.map_eq_some_iff.mp hentry
      rw [if_pos rfl] at hrest
      have hT₂ := htracks.modifyVar_of_ne hne Var.overridden
      obtain rfl := hrest.of_synonym_done hsource hN₂ hT₂
        (by decide : VarSource.env.toNat ≤ VarSource.file.toNat)
      exact ⟨_, .override hlow hfv, hT₂⟩
  | refused _ hentry _ _ htracks =>
      obtain ⟨fv, hfv, -⟩ := Option.map_eq_some_iff.mp hentry
      rw [if_neg (fun h => by cases h)] at hrest
      obtain rfl := hrest.of_synonym_done hsource hN₁ htracks
        (by decide : VarSource.env.toNat ≤ VarSource.file.toNat)
      exact ⟨_, .override hlow hfv, htracks⟩
  | notFound hno htracks =>
      have hnone : c.overrideEntry n = none := by
        refine Option.map_eq_none_iff.mp (hno.resolve_right fun h => ?_)
        rcases hlow with hlow | hlow <;> rw [hlow] at h <;> cases h
      rw [if_neg (fun h => by cases h)] at hrest
      obtain ⟨source, v⟩ := cell
      rcases hlow with rfl | rfl
      · exact hrest.of_synonym_default hsource hN₁ htracks hnone
      · obtain rfl := hrest.of_synonym_done hsource hN₁ htracks (Nat.le_refl _)
        exact ⟨_, .kept hnone, htracks⟩

/-! ### Registrations -/

/-- The source, the value and the address do not depend on the rest of the variable. -/
lemma Tracks.modifyVar_self (h : s.Tracks i a type enumerator cell) {f : Var → Var}
    (htarget : ∀ var, var.IsTarget a type enumerator → (f var).IsTarget a type enumerator)
    (hsource : ∀ var, (f var).source = var.source) :
    (s.modifyVar i f).Tracks i a type enumerator cell := by
  obtain ⟨var, hvar, hisTarget, hkind, hvalue⟩ := h
  exact ⟨f var, getItem_modifyVar hvar f, htarget var hisTarget, (hsource var).trans hkind, hvalue⟩

/-- A registration under a new name. -/
lemma Consistent.registerVariable_new (h : s.Consistent) (call : VarCall)
    (hnew : s.indexHash call.key = none) (hreg : s.registerVariable c call = some (.ok i, s')) :
    ∃ (xs : List Var) (s₁ s₂ : VarRegistry D) (group : Option ℕ) (free' : ℕ),
      (∃ free, s.vars.Holds xs free) ∧ i = xs.length ∧
      s₁.vars.Holds (xs ++ [{ call.newVar group with index := xs.length }]) free' ∧
      s₁.memory = s.memory ∧ s₁.Consistent ∧
      s₁.indexHash = Function.update s.indexHash call.key (some i) ∧
      (s₁.attach call i).setInitial c i = some (.ok (), s₂) ∧
      s' = s₂.modifyVar i fun var => { var with flags := { var.flags with valid := true } } := by
  obtain ⟨xs, free, hxs⟩ := h.holds
  rw [VarRegistry.registerVariable, h.varFind, hnew] at hreg
  dsimp only at hreg
  rcases createVar_cases hxs call with
    ⟨rc, s₁, hs₁, -⟩ | ⟨s₁, group, free', hs₁, hvars, hhash, hmemory⟩
  · rw [hs₁] at hreg
    cases hreg
  · have hcons := (h.createVar hnew hs₁).1
    rw [hs₁] at hreg
    obtain ⟨⟨ret, s₂⟩, hset, heq⟩ := Option.map_eq_some_iff.mp hreg
    cases ret with
    | error rc => cases heq
    | ok _ =>
        cases heq
        exact ⟨xs, s₁, s₂, group, free', ⟨free, hxs⟩, rfl, hvars, hmemory, hcons, hhash, hset, rfl⟩

lemma indexHash_attach (s : VarRegistry D) (call : VarCall) (index : ℕ) :
    (s.attach call index).indexHash = s.indexHash := by
  rw [attach]
  cases call.synonymFor <;> rfl

lemma memory_attach (s : VarRegistry D) (call : VarCall) (index : ℕ) :
    (s.attach call index).memory = s.memory := by
  rw [attach]
  cases call.synonymFor <;> rfl

lemma Tracks.valid (h : s.Tracks i a type enumerator cell) (index : ℕ) :
    (s.modifyVar index fun var =>
      { var with flags := { var.flags with valid := true } }).Tracks i a type enumerator cell := by
  by_cases hi : i = index
  · subst hi
    exact h.modifyVar_self (fun _ ht => ⟨ht.type, ht.enumerator, ht.storage, ht.synonym,
      ht.defaultOnly, ht.environmentOnly⟩) fun _ => rfl
  · exact h.modifyVar_of_ne hi _

/-- **The registration of the variable.** -/
lemma Consistent.register_first (h : s.Consistent) {call : VarCall}
    (hnew : s.indexHash call.key = none) (hstorage : call.storage = some a)
    (hdefault : call.flags.defaultOnly = false) (henvironment : call.flags.environmentOnly = false)
    (hfull : n.full = call.key)
    (hlong : n.long = generateFullName4 none call.framework call.component call.variableName)
    (hplain : c.PlainEnv n) (hreg : s.register c call = some (.ok i, s')) :
    s'.Consistent ∧ s'.indexHash = Function.update s.indexHash n.full (some i) ∧
      ∃ cell, FirstLookup c call.type call.usedEnumerator n (s.memory a) cell ∧
        s'.Tracks i a call.type call.usedEnumerator cell := by
  have hcons := (h.registerVariable hreg).1
  obtain ⟨xs, s₁, s₂, group, free', -, hi, hvars, hmemory, hcons₁, hhash, hset, rfl⟩ :=
    h.registerVariable_new { call with synonymFor := none } hnew hreg
  have hvar : s₁.vars.getItem i
      = some { VarCall.newVar { call with synonymFor := none } group with index := xs.length } :=
    hvars.getItem_eq_some_iff.mpr (Or.inr ⟨hi, rfl⟩)
  have hself : VarCall.synonymFor { call with synonymFor := none } = none := rfl
  have hattach := getItem_attach hvar hself
  have hN : (s₁.attach { call with synonymFor := none } i).Targets i n i false :=
    ⟨_, hattach, hfull.symm, hlong.symm, rfl, rfl⟩
  have hT : (s₁.attach { call with synonymFor := none } i).Tracks i a call.type call.usedEnumerator
      (.default, s.memory a) :=
    ⟨_, hattach, ⟨rfl, rfl, hstorage, rfl, hdefault, henvironment⟩, rfl,
      by rw [memory_attach, hmemory]⟩
  obtain ⟨cell, hfirst, htracks⟩ := setInitial_first hplain hN hT rfl hset
  refine ⟨hcons, ?_, cell, hfirst, htracks.valid i⟩
  have hkeep := (keeps_of_setInitial hset).indexHash
  rw [indexHash_attach, hhash] at hkeep
  rw [hfull]
  exact hkeep

/-- **The registration of a synonym.** -/
lemma Consistent.registerSynonym_next (h : s.Consistent) (hT : s.Tracks i a type enumerator cell)
    (hcommand : cell.1 ≠ .commandLine) {syn : SynonymCall} {j : ℕ}
    (hfull : n.full = generateFullName4 none none none syn.synonymName)
    (hlong : n.long = generateFullName4 none syn.framework syn.component syn.synonymName)
    (hnew : s.indexHash n.full = none) (hplain : c.PlainEnv n)
    (hreg : s.registerSynonym c i syn = some (.ok j, s')) :
    s'.Consistent ∧ s'.indexHash = Function.update s.indexHash n.full (some j) ∧
      ∃ cell', NextLookup c type enumerator n cell cell' ∧ s'.Tracks i a type enumerator cell' := by
  obtain ⟨original, horiginal, htarget, hsource, hvalue⟩ := hT
  rw [VarRegistry.registerSynonym, varGet_false horiginal] at hreg
  dsimp only at hreg
  rw [htarget.synonym, if_neg Bool.false_ne_true] at hreg
  have hcons := (h.registerVariable hreg).1
  have hkey : n.full = (syn.toVarCall i original).key := hfull
  obtain ⟨xs, s₁, s₂, group, free', ⟨free, hxs⟩, hj, hvars, hmemory, hcons₁, hhash, hset, rfl⟩ :=
    h.registerVariable_new (syn.toVarCall i original) (hkey ▸ hnew) hreg
  have hold : xs[i]? = some original := (hxs.getItem i).symm.trans horiginal
  have hne : i ≠ j := by
    rintro rfl
    rw [hj, List.getElem?_eq_none (Nat.le_refl _)] at hold
    cases hold
  have hvar : s₁.vars.getItem j
      = some { (syn.toVarCall i original).newVar group with index := xs.length } :=
    hvars.getItem_eq_some_iff.mpr (Or.inr ⟨hj, rfl⟩)
  have hT₁ : s₁.Tracks i a type enumerator cell :=
    ⟨original, hvars.getItem_eq_some_iff.mpr (Or.inl hold), htarget, hsource, hmemory ▸ hvalue⟩
  have hN : (s₁.attach (syn.toVarCall i original) j).Targets j n i true := by
    refine ⟨_, (getItem_modifyVar_of_ne _ hne.symm _).trans (getItem_modifyVar hvar _), hfull.symm,
      hlong.symm, rfl, ?_⟩
    rw [if_pos rfl]
    rfl
  have hT : (s₁.attach (syn.toVarCall i original) j).Tracks i a type enumerator cell :=
    (hT₁.modifyVar_of_ne hne _).modifyVar_self (fun _ ht => ⟨ht.type, ht.enumerator, ht.storage,
      ht.synonym, ht.defaultOnly, ht.environmentOnly⟩) fun _ => rfl
  obtain ⟨cell', hnext, htracks⟩ := setInitial_next hplain hne hN hT hcommand hset
  refine ⟨hcons, ?_, cell', hnext, htracks.valid j⟩
  have hkeep := (keeps_of_setInitial hset).indexHash
  rw [indexHash_attach, hhash] at hkeep
  rw [hfull]
  exact hkeep

lemma firstLookup_ne_commandLine {v₀ : VarValue D}
    (h : FirstLookup c type enumerator n v₀ cell) : cell.1 ≠ .commandLine := by
  cases h <;> exact fun h => by cases h

lemma nextLookup_ne_commandLine {cell' : VarSource × VarValue D}
    (h : NextLookup c type enumerator n cell cell') (hcommand : cell.1 ≠ .commandLine) :
    cell'.1 ≠ .commandLine := by
  cases h
  case done => exact hcommand
  all_goals exact fun h => by cases h

/-- The registrations of synonyms, one after the other, which all succeed. -/
def registerSynonyms (c : VarConfig D) (i : ℕ) :
    List SynonymCall → VarRegistry D → Option (VarRegistry D)
  | [], s => some s
  | syn :: syns, s =>
      match s.registerSynonym c i syn with
      | some (.ok _, s') => registerSynonyms c i syns s'
      | _ => none

end VarRegistry

/-- The names of a variable. -/
def VarCall.varName (call : VarCall) : VarName :=
  ⟨call.key, generateFullName4 none call.framework call.component call.variableName⟩

/-- The names of a synonym. -/
def SynonymCall.varName (syn : SynonymCall) : VarName :=
  ⟨generateFullName4 none none none syn.synonymName,
    generateFullName4 none syn.framework syn.component syn.synonymName⟩

namespace VarRegistry

variable {s s' : VarRegistry D} {i a : ℕ} {cell : VarSource × VarValue D}

/-- The registrations of all synonyms. -/
lemma Consistent.registerSynonyms_next {syns : List SynonymCall} (h : s.Consistent)
    (hT : s.Tracks i a type enumerator cell) (hcommand : cell.1 ≠ .commandLine)
    (hnew : ∀ syn ∈ syns, s.indexHash syn.varName.full = none)
    (hdistinct : (syns.map fun syn => syn.varName.full).Nodup)
    (hplain : ∀ syn ∈ syns, c.PlainEnv syn.varName)
    (hregs : registerSynonyms c i syns s = some s') :
    ∃ cell', NextLookups c type enumerator (syns.map SynonymCall.varName) cell cell' ∧
      s'.Tracks i a type enumerator cell' := by
  induction syns generalizing s cell with
  | nil =>
      cases hregs
      exact ⟨cell, .nil cell, hT⟩
  | cons syn syns ih =>
      rw [registerSynonyms] at hregs
      obtain ⟨j, s₁, hreg, hrest⟩ : ∃ j s₁, s.registerSynonym c i syn = some (.ok j, s₁) ∧
          registerSynonyms c i syns s₁ = some s' := by
        split at hregs
        · next j s₁ hreg => exact ⟨j, s₁, hreg, hregs⟩
        · cases hregs
      rw [List.map_cons, List.nodup_cons] at hdistinct
      obtain ⟨hcons, hhash, cell₁, hnext, htracks⟩ :=
        h.registerSynonym_next (n := syn.varName) hT hcommand rfl rfl
          (hnew syn List.mem_cons_self) (hplain syn List.mem_cons_self) hreg
      have hnew' : ∀ other ∈ syns, s₁.indexHash other.varName.full = none := by
        intro other hother
        have hne : other.varName.full ≠ syn.varName.full := fun heq =>
          hdistinct.1 (List.mem_map.mpr ⟨other, hother, heq⟩)
        rw [hhash, Function.update_of_ne hne]
        exact hnew other (List.mem_cons_of_mem _ hother)
      obtain ⟨cell', hnexts, htracks'⟩ := ih hcons htracks (nextLookup_ne_commandLine hnext hcommand)
        hnew' hdistinct.2 (fun other hother => hplain other (List.mem_cons_of_mem _ hother)) hrest
      exact ⟨cell', .cons hnext hnexts, htracks'⟩

end VarRegistry

end Tracking

/-! ### A variable with one synonym -/

/-- The registration of the synonym `prio`. -/
def prio : SynonymCall where
  framework := some "btl".toList
  component := some "tcp".toList
  synonymName := some "prio".toList
  deprecated := true
  internal := false

/-- A parameter file with a value of 1 for this name, and an environment with a value of 7 for the
name `prio`. -/
def fileAndPrio (name : CString) : VarConfig Unit :=
  { withEnv [(valueName "prio".toList, ['7'])] with
    fileValues := [⟨name, some ['1'], some "params.conf".toList⟩] }

/-- The registry with the variable `priority`. -/
def priorityRegistry (name : CString) : VarRegistry Unit :=
  ((emptyRegistry.register (fileAndPrio name) (btlPriority "tcp".toList 0)).map Prod.snd).getD
    emptyRegistry

/-- The registry with its synonym too. -/
def prioRegistry (name : CString) : VarRegistry Unit :=
  (VarRegistry.registerSynonyms (fileAndPrio name) 0 [prio] (priorityRegistry name)).getD
    emptyRegistry

end Ocoms
