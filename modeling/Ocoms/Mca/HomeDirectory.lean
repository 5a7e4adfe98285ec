import Ocoms.Mca.VarValue

/-!
The home directory in string variables: what `var_set_string` is for.

* `expandHome` is the specification: `~/` is replaced at the start of a string and behind a colon,
  and everything else stays.
* `expandHome_append`: where no occurrence begins in front of a part of a string, that part is
  replaced on its own.
* `expandColons_eq` says what the loop of `var_set_string` loses, and `set_string_expands_iff` when
  it loses nothing.
-/

namespace Ocoms

/-- The string with the home directory for each `~/` that an element of a path starts with; the
flag says whether one starts here. -/
def expandHome (home : CString) : Bool → CString → CString
  | true, '~' :: '/' :: rest => home ++ '/' :: expandHome home false rest
  | _, c :: rest => c :: expandHome home (c = ':') rest
  | _, [] => []

section Expansion

variable {home u v x r : CString}

lemma expandHome_false_cons (home : CString) (c : Char) (rest : CString) :
    expandHome home false (c :: rest) = c :: expandHome home (c = ':') rest := by
  rw [expandHome]
  all_goals exact nofun

lemma expandHome_true (h : ¬ ['~', '/'] <+: x) : expandHome home true x = expandHome home false x := by
  cases x with
  | nil => rfl
  | cons c rest =>
      rw [expandHome_false_cons, expandHome]
      rintro after - rfl rfl
      exact h ⟨after, rfl⟩

/-- **What is in front of all occurrences stays.** -/
lemma expandHome_append (home : CString) (h : ∀ k < u.length, ¬ colonHome <+: (u ++ v).drop k) :
    expandHome home false (u ++ v) = u ++ expandHome home false v := by
  induction u with
  | nil => rfl
  | cons c u ih =>
      have hrest := ih fun k hk => h (k + 1) (Nat.succ_lt_succ hk)
      rw [List.cons_append, expandHome_false_cons, List.cons_append, ← hrest]
      congr 1
      by_cases hc : c = ':'
      · rw [decide_eq_true hc]
        refine expandHome_true fun hpre => h 0 (Nat.succ_pos _) ?_
        obtain ⟨after, hafter⟩ := hpre
        exact ⟨after, by rw [List.drop_zero, List.cons_append, ← hafter, hc]; rfl⟩
      · rw [decide_eq_false hc]

lemma expandHome_eq_self (home : CString) (h : ¬ colonHome <:+: x) : expandHome home false x = x := by
  have hself := expandHome_append home (u := x) (v := []) fun k _ hpre => by
    rw [List.append_nil] at hpre
    exact h (hpre.isInfix.trans (List.drop_suffix k x).isInfix)
  rwa [List.append_nil, expandHome, List.append_nil] at hself

/-- An occurrence is replaced. -/
lemma expandHome_colonHome (home after : CString) :
    expandHome home false (colonHome ++ after)
      = homePrefix (some home) ++ expandHome home false after := by
  have hsplit : colonHome ++ after = ':' :: '~' :: '/' :: after := rfl
  rw [hsplit, expandHome_false_cons, decide_eq_true rfl, expandHome, homePrefix]
  simp

/-- No occurrence begins in the text that is put in. -/
lemma not_prefix_homePrefix (hhome : ¬ ExpandsForever (some home)) (after : CString) (k : ℕ)
    (hk : k < (homePrefix (some home)).length) :
    ¬ colonHome <+: (homePrefix (some home) ++ after).drop k := by
  intro hpre
  rw [List.drop_append_of_le_length hk.le] at hpre
  have hsplit : homePrefix (some home) = (':' :: home) ++ ['/'] := rfl
  rcases Nat.lt_or_ge ((homePrefix (some home)).drop k).length 3 with hlt | hge
  · -- the text ends with a slash, which is the last character of an occurrence
    obtain ⟨t, ht⟩ : ∃ t, (homePrefix (some home)).drop k = t ++ ['/'] := by
      rw [hsplit] at hk ⊢
      rw [List.length_append, List.length_singleton] at hk
      exact ⟨(':' :: home).drop k, List.drop_append_of_le_length (by omega)⟩
    rw [ht, List.length_append, List.length_singleton] at hlt
    rw [ht] at hpre
    obtain ⟨rest, hrest⟩ := hpre
    match t, hlt with
    | [], _ => cases hrest
    | [c], _ => cases hrest
  · exact hhome ((List.prefix_of_prefix_length_le hpre (List.prefix_append _ _) hge).isInfix.trans
      (List.drop_suffix k _).isInfix)

/-- **What the loop loses**: the text in front of every occurrence, and of every one that is left. -/
lemma expandColons_eq (hhome : ¬ ExpandsForever (some home)) (fuel : ℕ)
    (h : expandColons (some home) fuel x = some r) :
    ∃ lost, expandHome home false x = lost ++ r ∧
      (lost = [] ↔ ¬ colonHome <:+: x ∨
        ∃ after, x = colonHome ++ after ∧ ¬ colonHome <:+: homePrefix (some home) ++ after) := by
  induction fuel generalizing x with
  | zero => cases h
  | succ fuel ih =>
      cases hfind : strstr colonHome x with
      | none =>
          have hno := strstr_eq_none_iff.mp hfind
          rw [expandColons, hfind] at h
          obtain rfl := Option.some.inj h
          exact ⟨[], expandHome_eq_self home hno, iff_of_true rfl (.inl hno)⟩
      | some p =>
          obtain ⟨before, after⟩ := p
          have hx := eq_append_of_strstr hfind
          have hfirst := not_prefix_of_strstr hfind
          rw [expandColons, hfind] at h
          obtain ⟨lost, hlost, hiff⟩ := ih h
          rw [expandHome_append home (not_prefix_homePrefix hhome after)] at hlost
          have hnext : lost = [] ↔ ¬ colonHome <:+: homePrefix (some home) ++ after := by
            rw [hiff]
            refine or_iff_left ?_
            rintro ⟨after', heq, -⟩
            exact not_prefix_homePrefix hhome after 0 (Nat.succ_pos _) ⟨after', heq.symm⟩
          refine ⟨before ++ lost, ?_, ?_⟩
          · rw [hx, List.append_assoc] at hfirst
            rw [hx, List.append_assoc, expandHome_append home hfirst, expandHome_colonHome, hlost,
              List.append_assoc]
          · rw [List.append_eq_nil_iff, hnext]
            constructor
            · rintro ⟨rfl, hno⟩
              exact .inr ⟨after, hx, hno⟩
            · rintro (hno | ⟨after', hx', hno⟩)
              · rw [strstr_eq_none_iff.mpr hno] at hfind
                cases hfind
              · have hbefore : before = [] := by
                  by_contra hne
                  exact hfirst 0 (List.length_pos_iff.mpr hne) ⟨after', hx'.symm⟩
                rw [hbefore, List.nil_append, hx'] at hx
                rw [← List.append_cancel_left hx]
                exact ⟨hbefore, hno⟩

/-- What is in front of an occurrence stays, and nothing of it is lost. -/
lemma expandColons_eq_iff (home x : CString) :
    expandColons (some home) (x.length + 1) x = some (expandHome home false x) ↔
      ¬ colonHome <:+: x ∨
        ∃ after, x = colonHome ++ after ∧ ¬ colonHome <:+: homePrefix (some home) ++ after := by
  by_cases hhome : ExpandsForever (some home)
  · constructor
    · intro h
      refine .inl fun hx => ?_
      rw [expandColons_eq_none hhome _ hx] at h
      cases h
    · rintro (hno | ⟨after, -, hno⟩)
      · rw [expandColons_of_no_home hno, expandHome_eq_self home hno]
      · exact absurd (hhome.trans (List.prefix_append _ after).isInfix) hno
  · obtain ⟨r, hr⟩ : ∃ r, expandColons (some home) (x.length + 1) x = some r := by
      refine Option.ne_none_iff_exists'.mp fun hnone => hhome ?_
      exact (expandColons_eq_none_iff.mp hnone).2
    obtain ⟨lost, hlost, hiff⟩ := expandColons_eq hhome _ hr
    rw [hr, hlost, Option.some_inj, ← hiff]
    exact List.self_eq_append_left

end Expansion

/-- `var_set_string` stores the string with its home directories; an empty one is stored as a null
pointer. -/
def StoresExpanded (home value : CString) : Prop :=
  ∃ stored, setString (some home) (some value) = some stored ∧
    stored.getD [] = expandHome home true value

section Stored

variable {home value : CString}

lemma storesExpanded_nil (home : CString) : StoresExpanded home [] := ⟨none, rfl, rfl⟩

lemma storesExpanded_iff (hvalue : value ≠ []) :
    StoresExpanded home value ↔
      expandColons (some home) ((expandFront (some home) value).length + 1)
        (expandFront (some home) value) = some (expandHome home true value) := by
  have hset : setString (some home) (some value)
      = (expandColons (some home) ((expandFront (some home) value).length + 1)
        (expandFront (some home) value)).map some := by
    rw [setString]
    exact hvalue
  rw [StoresExpanded, hset]
  constructor
  · rintro ⟨stored, hstored, heq⟩
    obtain ⟨r, hr, rfl⟩ := Option.map_eq_some_iff.mp hstored
    rw [hr, ← heq]
    rfl
  · intro h
    exact ⟨some (expandHome home true value), by rw [h]; rfl, rfl⟩

/-- A string that starts with the home directory. -/
lemma storesExpanded_front_iff (home rest : CString) :
    StoresExpanded home (['~', '/'] ++ rest) ↔ ¬ colonHome <:+: home ++ '/' :: rest := by
  have hfront : expandFront (some home) (['~', '/'] ++ rest) = home ++ '/' :: rest := rfl
  have hspec : expandHome home true (['~', '/'] ++ rest)
      = home ++ '/' :: expandHome home false rest := rfl
  have hne : ['~', '/'] ++ rest ≠ [] := List.cons_ne_nil _ _
  rw [storesExpanded_iff hne, hfront, hspec]
  constructor
  · intro h hx
    by_cases hhome : ExpandsForever (some home)
    · rw [expandColons_eq_none hhome _ hx] at h
      cases h
    · -- no occurrence begins in what is put in at the front
      have hsplit : home ++ '/' :: rest = (home ++ ['/']) ++ rest := by simp
      have hfirst : ∀ k < (home ++ ['/']).length,
          ¬ colonHome <+: ((home ++ ['/']) ++ rest).drop k := fun k hk =>
        not_prefix_homePrefix hhome rest (k + 1) (Nat.succ_lt_succ hk)
      have heq : home ++ '/' :: expandHome home false rest
          = expandHome home false (home ++ '/' :: rest) := by
        rw [hsplit, expandHome_append home hfirst]
        simp
      rw [heq, expandColons_eq_iff] at h
      rcases h with hno | ⟨after, hafter, -⟩
      · exact hno hx
      · rw [hsplit] at hafter
        have hpos : 0 < (home ++ ['/']).length := by
          rw [List.length_append]
          exact Nat.succ_pos _
        exact hfirst 0 hpos ⟨after, hafter.symm⟩
  · intro hno
    have hrest : ¬ colonHome <:+: rest := fun h =>
      hno (h.trans ((List.suffix_cons '/' rest).trans (List.suffix_append home _)).isInfix)
    rw [expandColons_of_no_home hno, expandHome_eq_self home hrest]

lemma storesExpanded_of_not_front (h : ¬ ['~', '/'] <+: value) :
    StoresExpanded home value ↔
      ¬ colonHome <:+: value ∨
        ∃ rest, value = colonHome ++ rest ∧ ¬ colonHome <:+: ':' :: (home ++ '/' :: rest) := by
  by_cases hvalue : value = []
  · rw [hvalue]
    refine iff_of_true (storesExpanded_nil home) (.inl fun hx => ?_)
    have hle : 3 ≤ 0 := hx.length_le
    omega
  · have hprefix : ∀ rest, homePrefix (some home) ++ rest = ':' :: (home ++ '/' :: rest) :=
      fun rest => by simp [homePrefix]
    simp only [← hprefix]
    rw [storesExpanded_iff hvalue, expandFront_of_no_home h, expandHome_true h,
      expandColons_eq_iff]

end Stored

/-- **When the home directory is put in correctly**: the string starts with `~/`, and what is put in
for it neither has a `:~/` nor is in front of one; or there is no `:~/` at all; or the only one is
at the start, and what is put in for it makes no other one. -/
theorem set_string_expands_iff (home value : CString) :
    StoresExpanded home value ↔
      (∃ rest, value = ['~', '/'] ++ rest ∧ ¬ colonHome <:+: home ++ '/' :: rest) ∨
      (¬ ['~', '/'] <+: value ∧ ¬ colonHome <:+: value) ∨
      ∃ rest, value = colonHome ++ rest ∧ ¬ colonHome <:+: ':' :: (home ++ '/' :: rest) := by
  by_cases h : ['~', '/'] <+: value
  · obtain ⟨rest, rfl⟩ := h
    rw [storesExpanded_front_iff]
    constructor
    · exact fun hno => .inl ⟨rest, rfl, hno⟩
    · rintro (⟨rest', heq, hno⟩ | ⟨hno, -⟩ | ⟨rest', heq, -⟩)
      · rwa [List.append_cancel_left heq]
      · exact absurd (List.prefix_append _ _) hno
      · cases heq
  · rw [storesExpanded_of_not_front h]
    constructor
    · rintro (hno | hrest)
      · exact .inr (.inl ⟨h, hno⟩)
      · exact .inr (.inr hrest)
    · rintro (⟨rest, rfl, -⟩ | ⟨-, hno⟩ | hrest)
      · exact absurd (List.prefix_append _ _) h
      · exact .inl hno
      · exact .inr hrest

/-- The text in front of the home directory is lost; and a home directory `~` is put in for ever. -/
theorem set_string_loses_front_fails :
    setString (some "/home/u".toList) (some "a:~/b".toList) = some (some ":/home/u/b".toList) ∧
      expandHome "/home/u".toList true "a:~/b".toList = "a:/home/u/b".toList ∧
      setString (some "~".toList) (some ":~/".toList) = none ∧ ¬ colonHome <:+: "~".toList := by
  have hnone : setString (some "~".toList) (some ":~/".toList) = none :=
    setString_eq_none_iff.mpr ⟨List.infix_refl _, ⟨[], [], rfl⟩⟩
  exact ⟨by decide, by decide, hnone, by decide⟩

end Ocoms
