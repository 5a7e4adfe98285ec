import Mathlib.Data.List.DropRight
import Ocoms.Util.KeyvalParse

/-!
What the scanner of key/value files does.

* The `lexStep` lemmas are the longest matches, one lemma for each rule: the text it takes, and the
  state behind it.
* `Scans` is a sequence of matches. `Scans.keyvalScan` says that the scanner makes them, and
  `LexState.due` that the count of the lines falls behind in some of them at most.
-/

namespace Ocoms

open PatternPart Pattern

/-! ### The classes -/

section Classes

variable {c : Char}

lemma isWhite_iff : isWhite c = true ↔ c = '\x0c' ∨ c = '\t' ∨ c = '\x0b' ∨ c = ' ' := by
  simp [isWhite, or_assoc]

/-- What a character of `WHITE` is not. -/
lemma of_isWhite (h : isWhite c = true) :
    c ≠ '\n' ∧ c ≠ '=' ∧ c ≠ '#' ∧ c ≠ '/' ∧ isNameChar c = false := by
  rcases isWhite_iff.mp h with rfl | rfl | rfl | rfl <;> decide

/-- What a character of `CHAR` is not. -/
lemma of_isNameChar (h : isNameChar c = true) :
    isWhite c = false ∧ c ≠ '\n' ∧ c ≠ '=' ∧ c ≠ '#' ∧ c ≠ '/' ∧ c ≠ '\x00' := by
  refine ⟨?_, ?_, ?_, ?_, ?_, ?_⟩
  · by_contra hw
    rw [(of_isWhite (by simpa using hw)).2.2.2.2] at h
    cases h
  all_goals
    rintro rfl
    exact absurd h (by decide)

@[simp] lemma only_eq_true {d : Char} : only c d = true ↔ d = c := decide_eq_true_iff

@[simp] lemma only_eq_false {d : Char} : only c d = false ↔ d ≠ c := decide_eq_false_iff_not

@[simp] lemma onLine_eq_true : onLine c = true ↔ c ≠ '\n' := bne_iff_ne

end Classes

/-! ### One match -/

section Match

variable {st : StartCondition} {r : KeyvalRule} {pre post : List KeyvalRule}
  {s u v w ws ws' t : CString} {c : Char} {k n : ℕ}

lemma le_one_of_fits_one {d : Char → Bool} {s : CString} (h : Fits [one d] s n) : n ≤ 1 := by
  cases s with
  | nil => exact absurd h not_fits_one_nil
  | cons c s =>
      obtain ⟨-, m, rfl, hm⟩ := fits_one_cons.mp h
      rw [fits_nil] at hm
      omega

lemma lexStep_of_scan {action : LexAction} (hne : u ≠ [])
    (h : Rule.scan keyvalRules st (u ++ v) = some (u.length, action)) :
    lexStep ⟨st, u ++ v, k⟩ =
      some (action.returns.map fun token => token (u.takeWhile (· ≠ '\x00')),
        ⟨action.begins.getD st, v, if action.newline then k + 1 else k⟩) := by
  obtain ⟨c, s, hs⟩ := List.exists_cons_of_ne_nil (List.append_ne_nil_of_left_ne_nil hne v)
  rw [hs] at h ⊢
  simp only [lexStep, h, Option.map_some]
  rw [← hs, List.take_left, List.drop_left]

/-- The match of a rule without trailing context. -/
lemma lexStep_eq (pre : List KeyvalRule)
    (hrules : (keyvalRules.filter fun r => st ∈ r.conditions) = pre ++ r :: post)
    (ht : r.trail = []) (hs : s = u ++ v) (hne : u ≠ []) (h : r.Fits s u.length)
    (hmax : ∀ m, r.Fits s m → m ≤ u.length)
    (hpre : ∀ r' ∈ pre, ∀ m, r'.Fits s m → m < u.length)
    (hpost : ∀ r' ∈ post, ∀ m, r'.Fits s m → m ≤ u.length) :
    lexStep ⟨st, s, k⟩ =
      some (r.action.returns.map fun token => token (u.takeWhile (· ≠ '\x00')),
        ⟨r.action.begins.getD st, v, if r.action.newline then k + 1 else k⟩) := by
  have hscan := Rule.scan_eq hrules h hmax hpre hpost
  rw [Rule.headLength_of_trail_nil ht h] at hscan
  rw [hs] at hscan ⊢
  exact lexStep_of_scan hne hscan

lemma fits_single {d : Char → Bool} : Fits [one d] (c :: s) n ↔ d c = true ∧ n = 1 := by
  simp [fits_one_cons]

/-- `.*\n` is the rest of a line. -/
lemma fits_lineEnd (ht : '\n' ∉ t) :
    Fits [many onLine, one (only '\n')] (t ++ '\n' :: v) n ↔ n = t.length + 1 := by
  have hline : ∀ d ∈ t, onLine d = true :=
    fun d hd => onLine_eq_true.mpr (ne_of_mem_of_not_mem hd ht)
  rw [fits_many_run hline (stops_cons.mpr (by decide)) rfl fun d hd => by
    simpa [canStart] using onLine_eq_true.mp hd]
  simp [fits_single]

lemma not_fits_lineEnd (ht : '\n' ∉ t) : ¬ Fits [many onLine, one (only '\n')] t n := by
  have hline : ∀ d ∈ t, onLine d = true :=
    fun d hd => onLine_eq_true.mpr (ne_of_mem_of_not_mem hd ht)
  rw [← List.append_nil t, fits_many_run hline stops_nil rfl fun d hd => by
    simpa [canStart] using onLine_eq_true.mp hd]
  rintro ⟨m, -, hm⟩
  exact not_fits_one_nil hm

/-- A rule that starts neither with white characters nor with what is behind them. -/
lemma not_fits_white (hws : ∀ d ∈ ws, isWhite d = true)
    (hnull : (r.head ++ r.trail).nullable = false)
    (hwhite : ∀ d, isWhite d = true → (r.head ++ r.trail).canStart d = false)
    (hc : (r.head ++ r.trail).canStart c = false) : ¬ r.Fits (ws ++ c :: v) n := by
  cases ws with
  | nil => exact not_fits_cons hnull hc
  | cons d ws => exact not_fits_cons hnull (hwhite d (hws d List.mem_cons_self))

lemma fits_newlineRule (hws : ∀ d ∈ ws, isWhite d = true) (hv : Stops isWhite v) :
    newlineRule.Fits (ws ++ v) n ↔ ∃ m, n = ws.length + m ∧ Fits [one (only '\n')] v m :=
  fits_many_run hws hv rfl fun d hd => by
    simpa [canStart] using (of_isWhite hd).1

lemma fits_equalRule (hws : ∀ d ∈ ws, isWhite d = true) (hv : Stops isWhite v) :
    equalRule.Fits (ws ++ v) n ↔
      ∃ m, n = ws.length + m ∧ Fits [one (only '='), many isWhite] v m :=
  fits_many_run hws hv rfl fun d hd => by
    simpa [canStart] using (of_isWhite hd).2.1

lemma le_of_fits_whiteRule (hws : ∀ d ∈ ws, isWhite d = true) (hv : Stops isWhite v)
    (h : whiteRule.Fits (ws ++ v) n) : n ≤ ws.length := by
  cases ws with
  | nil =>
      rw [List.nil_append] at h
      cases v with
      | nil => exact absurd h not_fits_one_nil
      | cons c v => exact absurd h (not_fits_cons rfl (by simpa [whiteRule, canStart] using hv))
  | cons d ws =>
      obtain ⟨-, m, rfl, hm⟩ := fits_one_cons.mp h
      have hle := (fits_many_end (fun e he => hws e (List.mem_cons_of_mem _ he)) hv).mp hm
      rw [List.length_cons]
      omega

lemma initialRules : (keyvalRules.filter fun r => StartCondition.initial ∈ r.conditions)
    = [newlineRule, hashRule, slashesRule, openRule, equalRule, whiteRule, wordRule, errorRule,
      echoRule] := rfl

lemma hashRule_apart (d : Char) (hd : isWhite d = true) :
    (hashRule.head ++ hashRule.trail).canStart d = false := by
  simpa [hashRule, canStart] using (of_isWhite hd).2.2.1

lemma slashesRule_apart (d : Char) (hd : isWhite d = true) :
    (slashesRule.head ++ slashesRule.trail).canStart d = false := by
  simpa [slashesRule, canStart] using (of_isWhite hd).2.2.2.1

lemma openRule_apart (d : Char) (hd : isWhite d = true) :
    (openRule.head ++ openRule.trail).canStart d = false := by
  simpa [openRule, canStart] using (of_isWhite hd).2.2.2.1

lemma wordRule_apart (d : Char) (hd : isWhite d = true) :
    (wordRule.head ++ wordRule.trail).canStart d = false := by
  simpa [wordRule, canStart] using (of_isWhite hd).2.2.2.2

/-- `{WHITE}*\n` -/
lemma lexStep_newline (hws : ∀ d ∈ ws, isWhite d = true) (v : CString) (k : ℕ) :
    lexStep ⟨.initial, ws ++ '\n' :: v, k⟩ = some (some .newline, ⟨.initial, v, k + 1⟩) := by
  have hstop : Stops isWhite ('\n' :: v) := stops_cons.mpr (by decide)
  have hlen : (ws ++ ['\n']).length = ws.length + 1 := List.length_append
  refine lexStep_eq [] initialRules rfl (List.append_cons _ _ _) (by simp) ?_ ?_ (by simp) ?_
  · rw [fits_newlineRule hws hstop, hlen]
    exact ⟨1, rfl, fits_one_cons.mpr ⟨rfl, 0, rfl, fits_zero.mpr rfl⟩⟩
  · intro m hm
    obtain ⟨n, rfl, hn⟩ := (fits_newlineRule hws hstop).mp hm
    have := le_one_of_fits_one hn
    omega
  · simp only [List.forall_mem_cons, List.not_mem_nil, false_implies, implies_true, and_true, hlen]
    refine ⟨?_, ?_, ?_, ?_, ?_, ?_, ?_, ?_⟩ <;> intro m hm
    · exact absurd hm (not_fits_white hws rfl hashRule_apart rfl)
    · exact absurd hm (not_fits_white hws rfl slashesRule_apart rfl)
    · exact absurd hm (not_fits_white hws rfl openRule_apart rfl)
    · obtain ⟨n, -, hn⟩ := (fits_equalRule hws hstop).mp hm
      exact absurd (fits_one_cons.mp hn).1 (by decide)
    · have := le_of_fits_whiteRule hws hstop hm
      omega
    · exact absurd hm (not_fits_white hws rfl wordRule_apart rfl)
    · have := le_one_of_fits_one hm
      omega
    · have := le_one_of_fits_one hm
      omega

/-- `#.*\n` -/
lemma lexStep_hash (ht : '\n' ∉ t) (v : CString) (k : ℕ) :
    lexStep ⟨.initial, '#' :: (t ++ '\n' :: v), k⟩ =
      some (some .newline, ⟨.initial, v, k + 1⟩) := by
  have hlen : ('#' :: (t ++ ['\n'])).length = t.length + 2 := by simp
  refine lexStep_eq [newlineRule] initialRules rfl (u := '#' :: (t ++ ['\n'])) (by simp) (by simp)
    ?_ ?_ ?_ ?_
  · rw [hlen]
    exact fits_one_cons.mpr ⟨rfl, _, rfl, (fits_lineEnd ht).mpr rfl⟩
  · intro m hm
    obtain ⟨-, n, rfl, hn⟩ := fits_one_cons.mp hm
    have := (fits_lineEnd ht).mp hn
    omega
  · simp only [List.forall_mem_cons, List.not_mem_nil, false_implies, implies_true, and_true]
    exact fun m hm => absurd hm (not_fits_cons rfl rfl)
  · simp only [List.forall_mem_cons, List.not_mem_nil, false_implies, implies_true, and_true, hlen]
    refine ⟨?_, ?_, ?_, ?_, ?_, ?_, ?_⟩ <;> intro m hm
    · exact absurd hm (not_fits_cons rfl rfl)
    · exact absurd hm (not_fits_cons rfl rfl)
    · exact absurd hm (not_fits_cons rfl rfl)
    · exact absurd hm (not_fits_cons rfl rfl)
    · exact absurd hm (not_fits_cons rfl rfl)
    · have := le_one_of_fits_one hm
      omega
    · have := le_one_of_fits_one hm
      omega

/-- `"//".*\n` -/
lemma lexStep_slashes (ht : '\n' ∉ t) (v : CString) (k : ℕ) :
    lexStep ⟨.initial, '/' :: '/' :: (t ++ '\n' :: v), k⟩ =
      some (some .newline, ⟨.initial, v, k + 1⟩) := by
  have hlen : ('/' :: '/' :: (t ++ ['\n'])).length = t.length + 3 := by simp
  refine lexStep_eq [newlineRule, hashRule] initialRules rfl (u := '/' :: '/' :: (t ++ ['\n']))
    (by simp) (by simp) ?_ ?_ ?_ ?_
  · rw [hlen]
    exact fits_one_cons.mpr ⟨rfl, _, rfl, fits_one_cons.mpr ⟨rfl, _, rfl,
      (fits_lineEnd ht).mpr rfl⟩⟩
  · intro m hm
    obtain ⟨-, n, rfl, hn⟩ := fits_one_cons.mp hm
    obtain ⟨-, l, rfl, hl⟩ := fits_one_cons.mp hn
    have := (fits_lineEnd ht).mp hl
    omega
  · simp only [List.forall_mem_cons, List.not_mem_nil, false_implies, implies_true, and_true]
    exact ⟨fun m hm => absurd hm (not_fits_cons rfl rfl),
      fun m hm => absurd hm (not_fits_cons rfl rfl)⟩
  · simp only [List.forall_mem_cons, List.not_mem_nil, false_implies, implies_true, and_true, hlen]
    refine ⟨?_, ?_, ?_, ?_, ?_, ?_⟩ <;> intro m hm
    · obtain ⟨-, n, rfl, hn⟩ := fits_one_cons.mp hm
      exact absurd hn (not_fits_cons rfl rfl)
    · exact absurd hm (not_fits_cons rfl rfl)
    · exact absurd hm (not_fits_cons rfl rfl)
    · exact absurd hm (not_fits_cons rfl rfl)
    · have := le_one_of_fits_one hm
      omega
    · have := le_one_of_fits_one hm
      omega

/-- `"/*"` -/
lemma lexStep_open (v : CString) (k : ℕ) :
    lexStep ⟨.initial, '/' :: '*' :: v, k⟩ = some (some .newline, ⟨.comment, v, k⟩) := by
  refine lexStep_eq [newlineRule, hashRule, slashesRule] initialRules rfl (u := ['/', '*']) rfl
    (by simp) ?_ ?_ ?_ ?_
  · exact fits_one_cons.mpr ⟨rfl, 1, rfl, fits_single.mpr ⟨rfl, rfl⟩⟩
  · intro m hm
    obtain ⟨-, n, rfl, hn⟩ := fits_one_cons.mp hm
    have := (fits_single.mp hn).2
    simp only [List.length_cons, List.length_nil]
    omega
  · simp only [List.forall_mem_cons, List.not_mem_nil, false_implies, implies_true, and_true]
    refine ⟨?_, ?_, ?_⟩ <;> intro m hm
    · exact absurd hm (not_fits_cons rfl rfl)
    · exact absurd hm (not_fits_cons rfl rfl)
    · obtain ⟨-, n, rfl, hn⟩ := fits_one_cons.mp hm
      exact absurd hn (not_fits_cons rfl rfl)
  · simp only [List.forall_mem_cons, List.not_mem_nil, false_implies, implies_true, and_true,
      List.length_cons, List.length_nil]
    refine ⟨?_, ?_, ?_, ?_, ?_⟩ <;> intro m hm
    · exact absurd hm (not_fits_cons rfl rfl)
    · exact absurd hm (not_fits_cons rfl rfl)
    · exact absurd hm (not_fits_cons rfl rfl)
    · have := le_one_of_fits_one hm
      omega
    · have := le_one_of_fits_one hm
      omega

/-- `{WHITE}*"="{WHITE}*` -/
lemma lexStep_equal (hws : ∀ d ∈ ws, isWhite d = true) (hws' : ∀ d ∈ ws', isWhite d = true)
    (hv : Stops isWhite v) (k : ℕ) :
    lexStep ⟨.initial, ws ++ '=' :: (ws' ++ v), k⟩ = some (some .equal, ⟨.value, v, k⟩) := by
  have hstop : Stops isWhite ('=' :: (ws' ++ v)) := stops_cons.mpr (by decide)
  have hlen : (ws ++ '=' :: ws').length = ws.length + (ws'.length + 1) := by simp
  refine lexStep_eq [newlineRule, hashRule, slashesRule, openRule] initialRules rfl
    (u := ws ++ '=' :: ws') (by simp) (by simp) ?_ ?_ ?_ ?_
  · rw [fits_equalRule hws hstop, hlen]
    exact ⟨_, rfl, fits_one_cons.mpr ⟨rfl, _, rfl, (fits_many_end hws' hv).mpr (Nat.le_refl _)⟩⟩
  · intro m hm
    obtain ⟨n, rfl, hn⟩ := (fits_equalRule hws hstop).mp hm
    obtain ⟨-, l, rfl, hl⟩ := fits_one_cons.mp hn
    have := (fits_many_end hws' hv).mp hl
    omega
  · simp only [List.forall_mem_cons, List.not_mem_nil, false_implies, implies_true, and_true]
    refine ⟨?_, ?_, ?_, ?_⟩ <;> intro m hm
    · obtain ⟨n, -, hn⟩ := (fits_newlineRule hws hstop).mp hm
      exact absurd (fits_single.mp hn).1 (by decide)
    · exact absurd hm (not_fits_white hws rfl hashRule_apart rfl)
    · exact absurd hm (not_fits_white hws rfl slashesRule_apart rfl)
    · exact absurd hm (not_fits_white hws rfl openRule_apart rfl)
  · simp only [List.forall_mem_cons, List.not_mem_nil, false_implies, implies_true, and_true, hlen]
    refine ⟨?_, ?_, ?_, ?_⟩ <;> intro m hm
    · have := le_of_fits_whiteRule hws hstop hm
      omega
    · exact absurd hm (not_fits_white hws rfl wordRule_apart rfl)
    · have := le_one_of_fits_one hm
      omega
    · have := le_one_of_fits_one hm
      omega

/-- `{WHITE}+`, where no end of the line and no `=` follows. -/
lemma lexStep_white (hne : ws ≠ []) (hws : ∀ d ∈ ws, isWhite d = true) (hv : Stops isWhite v)
    (hline : v.head? ≠ some '\n') (hequal : v.head? ≠ some '=') (k : ℕ) :
    lexStep ⟨.initial, ws ++ v, k⟩ = some (none, ⟨.initial, v, k⟩) := by
  have hpos : 1 ≤ ws.length := List.length_pos_of_ne_nil hne
  have hnot : ∀ {d : Char} {p : Pattern Char} {m : ℕ}, v.head? ≠ some d →
      ¬ Fits (one (only d) :: p) v m := by
    intro d p m hd hm
    cases v with
    | nil => exact not_fits_one_nil hm
    | cons c v => exact hd (congrArg some (only_eq_true.mp (fits_one_cons.mp hm).1))
  obtain ⟨d, ws', rfl⟩ := List.exists_cons_of_ne_nil hne
  have hd := hws d List.mem_cons_self
  refine lexStep_eq [newlineRule, hashRule, slashesRule, openRule, equalRule] initialRules rfl rfl
    hne ?_ ?_ ?_ ?_
  · exact fits_one_cons.mpr ⟨hd, _, rfl,
      (fits_many_end (fun e he => hws e (List.mem_cons_of_mem _ he)) hv).mpr (Nat.le_refl _)⟩
  · exact fun m hm => le_of_fits_whiteRule hws hv hm
  · simp only [List.forall_mem_cons, List.not_mem_nil, false_implies, implies_true, and_true]
    refine ⟨?_, ?_, ?_, ?_, ?_⟩ <;> intro m hm
    · obtain ⟨n, -, hn⟩ := (fits_newlineRule hws hv).mp hm
      exact absurd hn (hnot hline)
    · exact absurd hm (not_fits_cons rfl (hashRule_apart d hd))
    · exact absurd hm (not_fits_cons rfl (slashesRule_apart d hd))
    · exact absurd hm (not_fits_cons rfl (openRule_apart d hd))
    · obtain ⟨n, -, hn⟩ := (fits_equalRule hws hv).mp hm
      exact absurd hn (hnot hequal)
  · simp only [List.forall_mem_cons, List.not_mem_nil, false_implies, implies_true, and_true]
    refine ⟨?_, ?_, ?_⟩ <;> intro m hm
    · exact absurd hm (not_fits_cons rfl (wordRule_apart d hd))
    · exact (le_one_of_fits_one hm).trans hpos
    · exact (le_one_of_fits_one hm).trans hpos

/-- Names have no null character in them. -/
lemma takeWhile_isNameChar (hw : ∀ d ∈ w, isNameChar d = true) :
    w.takeWhile (· ≠ '\x00') = w := by
  rw [List.takeWhile_eq_self_iff]
  exact fun d hd => decide_eq_true (of_isNameChar (hw d hd)).2.2.2.2.2

/-- `{CHAR}+` -/
lemma lexStep_word (hne : w ≠ []) (hw : ∀ d ∈ w, isNameChar d = true) (hv : Stops isNameChar v)
    (k : ℕ) : lexStep ⟨.initial, w ++ v, k⟩ = some (some (.singleWord w), ⟨.initial, v, k⟩) := by
  have hpos : 1 ≤ w.length := List.length_pos_of_ne_nil hne
  obtain ⟨c, w', rfl⟩ := List.exists_cons_of_ne_nil hne
  have hc := hw c List.mem_cons_self
  obtain ⟨hwhite, hn, he, hh, hs, -⟩ := of_isNameChar hc
  have hw' : ∀ d ∈ w', isNameChar d = true := fun d hd => hw d (List.mem_cons_of_mem _ hd)
  nth_rewrite 2 [← takeWhile_isNameChar hw]
  refine lexStep_eq [newlineRule, hashRule, slashesRule, openRule, equalRule, whiteRule]
    initialRules rfl rfl hne ?_ ?_ ?_ ?_
  · exact fits_one_cons.mpr ⟨hc, _, rfl, (fits_many_end hw' hv).mpr (Nat.le_refl _)⟩
  · intro m hm
    obtain ⟨-, n, rfl, hn⟩ := fits_one_cons.mp hm
    exact Nat.succ_le_succ ((fits_many_end hw' hv).mp hn)
  · simp only [List.forall_mem_cons, List.not_mem_nil, false_implies, implies_true, and_true]
    refine ⟨?_, ?_, ?_, ?_, ?_, ?_⟩ <;> intro m hm <;> refine absurd hm (not_fits_cons rfl ?_)
    · simp [newlineRule, canStart, hwhite, hn]
    · simp [hashRule, canStart, hh]
    · simp [slashesRule, canStart, hs]
    · simp [openRule, canStart, hs]
    · simp [equalRule, canStart, hwhite, he]
    · simp [whiteRule, canStart, hwhite]
  · simp only [List.forall_mem_cons, List.not_mem_nil, false_implies, implies_true, and_true]
    exact ⟨fun m hm => (le_one_of_fits_one hm).trans hpos,
      fun m hm => (le_one_of_fits_one hm).trans hpos⟩

/-- `.`, where no other rule matches: a comment needs the end of its line. -/
lemma lexStep_error (hline : c ≠ '\n') (hwhite : isWhite c = false) (hname : isNameChar c = false)
    (hequal : c ≠ '=') (hhash : c = '#' → '\n' ∉ v) (hopen : c = '/' → v.head? ≠ some '*')
    (hslashes : c = '/' → v.head? = some '/' → '\n' ∉ v) (k : ℕ) :
    lexStep ⟨.initial, c :: v, k⟩ = some (some .error, ⟨.initial, v, k⟩) := by
  refine lexStep_eq [newlineRule, hashRule, slashesRule, openRule, equalRule, whiteRule, wordRule]
    initialRules rfl (u := [c]) rfl (by simp) ?_ ?_ ?_ ?_
  · exact fits_single.mpr ⟨onLine_eq_true.mpr hline, rfl⟩
  · exact fun m hm => le_one_of_fits_one hm
  · simp only [List.forall_mem_cons, List.not_mem_nil, false_implies, implies_true, and_true]
    refine ⟨?_, ?_, ?_, ?_, ?_, ?_, ?_⟩ <;> intro m hm
    · exact absurd hm (not_fits_cons rfl (by simp [newlineRule, canStart, hwhite, hline]))
    · obtain ⟨hc, n, -, hn⟩ := fits_one_cons.mp hm
      exact absurd hn (not_fits_lineEnd (hhash (only_eq_true.mp hc)))
    · obtain ⟨hc, n, -, hn⟩ := fits_one_cons.mp hm
      cases v with
      | nil => exact absurd hn not_fits_one_nil
      | cons d v =>
          obtain ⟨hd, l, -, hl⟩ := fits_one_cons.mp hn
          have hnone := hslashes (only_eq_true.mp hc) (congrArg some (only_eq_true.mp hd))
          exact absurd hl (not_fits_lineEnd fun h => hnone (List.mem_cons_of_mem _ h))
    · obtain ⟨hc, n, -, hn⟩ := fits_one_cons.mp hm
      cases v with
      | nil => exact absurd hn not_fits_one_nil
      | cons d v =>
          obtain ⟨hd, -⟩ := fits_one_cons.mp hn
          exact absurd (congrArg some (only_eq_true.mp hd)) (hopen (only_eq_true.mp hc))
    · exact absurd hm (not_fits_cons rfl (by simp [equalRule, canStart, hwhite, hequal]))
    · exact absurd hm (not_fits_cons rfl (by simp [whiteRule, canStart, hwhite]))
    · exact absurd hm (not_fits_cons rfl (by simp [wordRule, canStart, hname]))
  · simp only [List.forall_mem_cons, List.not_mem_nil, false_implies, implies_true, and_true]
    exact fun m hm => le_one_of_fits_one hm

lemma valueRules : (keyvalRules.filter fun r => StartCondition.value ∈ r.conditions)
    = [valueNewlineRule, valueRule, echoRule] := rfl

lemma commentRules : (keyvalRules.filter fun r => StartCondition.comment ∈ r.conditions)
    = [commentTextRule, commentStarsRule, commentNewlineRule, closeRule, echoRule] := rfl

/-- `<VALUE>{WHITE}*\n` -/
lemma lexStep_valueNewline (hws : ∀ d ∈ ws, isWhite d = true) (v : CString) (k : ℕ) :
    lexStep ⟨.value, ws ++ '\n' :: v, k⟩ = some (some .newline, ⟨.initial, v, k⟩) := by
  have hstop : Stops isWhite ('\n' :: v) := stops_cons.mpr (by decide)
  have hlen : (ws ++ ['\n']).length = ws.length + 1 := List.length_append
  have hfits : ∀ {n}, valueNewlineRule.Fits (ws ++ '\n' :: v) n ↔
      ∃ m, n = ws.length + m ∧ Fits [one (only '\n')] ('\n' :: v) m := fits_newlineRule hws hstop
  refine lexStep_eq [] valueRules rfl (List.append_cons _ _ _) (by simp) ?_ ?_ (by simp) ?_
  · rw [hfits, hlen]
    exact ⟨1, rfl, fits_single.mpr ⟨rfl, rfl⟩⟩
  · intro m hm
    obtain ⟨n, rfl, hn⟩ := hfits.mp hm
    have := le_one_of_fits_one hn
    omega
  · simp only [List.forall_mem_cons, List.not_mem_nil, false_implies, implies_true, and_true, hlen]
    refine ⟨?_, ?_⟩ <;> intro m hm
    · have := Fits.le_of_rejects (y := '\n') rfl hm
      omega
    · have := le_one_of_fits_one hm
      omega

/-- `<VALUE>[^\n]*[^\t \n]/[\t ]*`: the rest of the line, without the tabs and spaces at its
end. -/
lemma lexStep_value {x : Char} {a b : CString} (ha : ∀ d ∈ a, d ≠ '\n') (hx : x ≠ '\n')
    (hxb : isBlank x = false) (hb : ∀ d ∈ b, isBlank d = true)
    (hfirst : Stops isWhite (a ++ [x])) (hv : ∀ d ∈ v.head?, d = '\n')
    (hnull : '\x00' ∉ a ++ [x]) (k : ℕ) :
    lexStep ⟨.value, a ++ [x] ++ (b ++ v), k⟩ =
      some (some (.value (a ++ [x])), ⟨.value, b ++ v, k⟩) := by
  have hlen : (a ++ [x]).length = a.length + 1 := List.length_append
  have hlast : ∀ d : Char, isBlank d = true → onLine d = true := by
    intro d hd
    simp only [isBlank, Bool.or_eq_true, decide_eq_true_eq] at hd
    rcases hd with rfl | rfl <;> decide
  have hfit : valueRule.Fits (a ++ [x] ++ (b ++ v)) (a.length + 1 + b.length) := by
    have hend : Fits [many isBlank] (b ++ v) b.length := by
      have hall : Fits [many isBlank] (b ++ v) (b.length + 0) := Fits.many hb (fits_nil.mpr rfl)
      exact hall
    have hone : Fits [one fun c => !isBlank c && onLine c, many isBlank] (x :: (b ++ v))
        (b.length + 1) := fits_one_cons.mpr ⟨by simp [hxb, hx], _, rfl, hend⟩
    have hall := hone.many (c := onLine) (u := a) fun d hd => onLine_eq_true.mpr (ha d hd)
    rw [List.append_assoc, List.singleton_append, Nat.add_assoc, Nat.add_comm 1]
    exact hall
  have hmax : ∀ m, valueRule.Fits (a ++ [x] ++ (b ++ v)) m → m ≤ a.length + 1 + b.length := by
    intro m hm
    rw [← List.append_assoc] at hm
    cases v with
    | nil =>
        have hle := hm.1
        simp only [List.append_nil, List.length_append, List.length_singleton] at hle
        exact hle
    | cons d v =>
        obtain rfl := hv d rfl
        have hle := Fits.le_of_rejects (y := '\n') rfl hm
        simp only [List.length_append, List.length_singleton] at hle
        exact hle
  have hhead : valueRule.headLength (a ++ [x] ++ (b ++ v)) (a.length + 1 + b.length)
      = (a ++ [x]).length := by
    refine Rule.headLength_eq (by omega) ?_ ?_ ?_
    · have hone : Fits [one fun c => !isBlank c && onLine c] [x] 1 :=
        fits_single.mpr ⟨by simp [hxb, hx], rfl⟩
      have hall := hone.many (c := onLine) (u := a) fun d hd => onLine_eq_true.mpr (ha d hd)
      have haccepts := hall.2
      rw [← hlen, List.take_length] at haccepts
      rw [List.take_left]
      exact haccepts
    · have hall : Fits [many isBlank] (b ++ []) (b.length + 0) := Fits.many hb (fits_nil.mpr rfl)
      have haccepts := hall.2
      rw [List.append_nil, Nat.add_zero, List.take_length] at haccepts
      rw [← hlen, ← List.append_assoc, ← List.length_append, List.take_left, List.drop_left]
      exact haccepts
    · intro l hl haccepts
      by_contra hlt
      -- a longer head would end in a tab or space
      obtain ⟨j, rfl⟩ : ∃ j, l = (a ++ [x]).length + (j + 1) :=
        ⟨l - (a ++ [x]).length - 1, by omega⟩
      obtain ⟨y, hy, hyb⟩ := getLast?_of_accepts (p := [many onLine]) haccepts
      have hj : j < b.length := by omega
      rw [List.take_length_add_append, List.take_append_of_le_length hj] at hy
      obtain ⟨d, b', hb'⟩ := List.exists_cons_of_length_pos (Nat.zero_lt_of_lt hj)
      have hmem : y ∈ b := by
        rw [hb', List.take_succ_cons, List.getLast?_append, List.getLast?_cons] at hy
        rw [hb']
        refine List.mem_of_mem_take (i := j + 1) ?_
        rw [List.take_succ_cons]
        refine List.mem_of_getLast? ?_
        rw [List.getLast?_cons]
        simpa using hy
      simp [hb y hmem] at hyb
  have hpre : ∀ r ∈ [valueNewlineRule], ∀ m, r.Fits (a ++ [x] ++ (b ++ v)) m →
      m < a.length + 1 + b.length := by
    obtain ⟨y, s, hs⟩ := List.exists_cons_of_ne_nil (List.append_ne_nil_of_right_ne_nil a
      (List.cons_ne_nil x []))
    have hywhite : isWhite y = false := by simpa [hs] using hfirst
    have hyline : y ≠ '\n' := by
      have hmem : y ∈ a ++ [x] := hs ▸ List.mem_cons_self
      rcases List.mem_append.mp hmem with h | h
      · exact ha y h
      · exact List.mem_singleton.mp h ▸ hx
    rw [List.forall_mem_singleton, hs]
    exact fun m hm => absurd hm
      (not_fits_cons rfl (by simp [valueNewlineRule, canStart, hywhite, hyline]))
  have hrules : (keyvalRules.filter fun r => StartCondition.value ∈ r.conditions)
      = [valueNewlineRule] ++ valueRule :: [echoRule] := valueRules
  have hscan := Rule.scan_eq hrules hfit hmax hpre
    (List.forall_mem_singleton.mpr fun m hm => (le_one_of_fits_one hm).trans (by omega))
  rw [hhead] at hscan
  rw [lexStep_of_scan (by simp) hscan, List.takeWhile_eq_self_iff.mpr]
  · rfl
  · exact fun d hd => decide_eq_true (ne_of_mem_of_not_mem hd hnull)

/-- The tabs and spaces at the end of the file are written out, one by one. -/
lemma lexStep_echo {b : CString} (hc : isBlank c = true) (hb : ∀ d ∈ b, isBlank d = true) (k : ℕ) :
    lexStep ⟨.value, c :: b, k⟩ = some (none, ⟨.value, b, k⟩) := by
  have hall : ∀ d ∈ c :: b, isBlank d = true := List.forall_mem_cons.mpr ⟨hc, hb⟩
  refine lexStep_eq [valueNewlineRule, valueRule] valueRules rfl (u := [c]) rfl (by simp)
    ?_ ?_ ?_ ?_
  · exact fits_single.mpr ⟨rfl, rfl⟩
  · exact fun m hm => le_one_of_fits_one hm
  · simp only [List.forall_mem_cons, List.not_mem_nil, false_implies, implies_true, and_true]
    refine ⟨?_, ?_⟩ <;> intro m hm
    · refine absurd hm (not_fits_of_forall (c := only '\n') (by simp [valueNewlineRule]) ?_)
      intro d hd
      rw [only_eq_false]
      rintro rfl
      exact absurd (hall _ hd) (by decide)
    · refine absurd hm (not_fits_of_forall (c := fun c => !isBlank c && onLine c)
        (by simp [valueRule]) ?_)
      exact fun d hd => by simp [hall d hd]
  · simp

/-- `<comment>[^*\n]*` -/
lemma lexStep_commentText (hne : u ≠ []) (hu : ∀ d ∈ u, (d != '*' && d != '\n') = true)
    (hv : Stops (fun d => d != '*' && d != '\n') v) (k : ℕ) :
    lexStep ⟨.comment, u ++ v, k⟩ = some (none, ⟨.comment, v, k⟩) := by
  have hpos : 1 ≤ u.length := List.length_pos_of_ne_nil hne
  obtain ⟨c, u', rfl⟩ := List.exists_cons_of_ne_nil hne
  have hc : c ≠ '*' ∧ c ≠ '\n' := by simpa using hu c List.mem_cons_self
  refine lexStep_eq [] commentRules rfl rfl hne ?_ ?_ (by simp) ?_
  · exact (fits_many_end hu hv).mpr (Nat.le_refl _)
  · exact fun m hm => (fits_many_end hu hv).mp hm
  · simp only [List.forall_mem_cons, List.not_mem_nil, false_implies, implies_true, and_true]
    refine ⟨?_, ?_, ?_, ?_⟩ <;> intro m hm
    · exact absurd hm (not_fits_cons rfl (by simp [commentStarsRule, canStart, hc.1]))
    · exact absurd hm (not_fits_cons rfl (by simp [commentNewlineRule, canStart, hc.2]))
    · exact absurd hm (not_fits_cons rfl (by simp [closeRule, canStart, hc.1]))
    · exact (le_one_of_fits_one hm).trans hpos

/-- `<comment>\n` -/
lemma lexStep_commentNewline (v : CString) (k : ℕ) :
    lexStep ⟨.comment, '\n' :: v, k⟩ = some (some .newline, ⟨.comment, v, k + 1⟩) := by
  refine lexStep_eq [commentTextRule, commentStarsRule] commentRules rfl (u := ['\n']) rfl (by simp)
    ?_ ?_ ?_ ?_
  · exact fits_single.mpr ⟨rfl, rfl⟩
  · exact fun m hm => le_one_of_fits_one hm
  · simp only [List.forall_mem_cons, List.not_mem_nil, false_implies, implies_true, and_true]
    refine ⟨?_, ?_⟩ <;> intro m hm
    · exact Nat.lt_succ_of_le (Fits.le_of_rejects (u := []) (y := '\n') rfl hm)
    · exact absurd hm (not_fits_cons rfl rfl)
  · simp only [List.forall_mem_cons, List.not_mem_nil, false_implies, implies_true, and_true]
    exact ⟨fun m hm => absurd hm (not_fits_cons rfl rfl), fun m hm => le_one_of_fits_one hm⟩

/-- `<comment>"*"+[^*/\n]*` -/
lemma lexStep_commentStars {stars : CString} (hstars : ∀ d ∈ stars, d = '*')
    (hu : ∀ d ∈ u, (d != '*' && d != '/' && d != '\n') = true)
    (hv : Stops (fun d => d != '*' && d != '/' && d != '\n') v)
    (hend : (u ++ v).head? ≠ some '*' ∧ (u ++ v).head? ≠ some '/') (k : ℕ) :
    lexStep ⟨.comment, '*' :: (stars ++ (u ++ v)), k⟩ = some (none, ⟨.comment, v, k⟩) := by
  have hrun : ∀ d ∈ stars, only '*' d = true := fun d hd => only_eq_true.mpr (hstars d hd)
  have hstop : Stops (only '*') (u ++ v) := by
    intro d hd
    rw [only_eq_false]
    rintro rfl
    exact hend.1 hd
  have hlen : ('*' :: (stars ++ u)).length = stars.length + u.length + 1 := by simp
  refine lexStep_eq [commentTextRule] commentRules rfl (u := '*' :: (stars ++ u)) (by simp)
    (by simp) ?_ ?_ ?_ ?_
  · rw [hlen]
    exact fits_one_cons.mpr ⟨rfl, _, rfl,
      ((fits_many_end hu hv).mpr (Nat.le_refl _)).many hrun⟩
  · intro m hm
    obtain ⟨-, n, rfl, hn⟩ := fits_one_cons.mp hm
    rcases hn.of_many hrun hstop
      (fun d hd => by simp [commentStarsRule, canStart, only_eq_true.mp hd]) with
      ⟨-, hle⟩ | ⟨l, rfl, hl⟩
    · omega
    · have := (fits_many_end hu hv).mp hl
      omega
  · simp only [List.forall_mem_cons, List.not_mem_nil, false_implies, implies_true, and_true, hlen]
    exact fun m hm => Nat.lt_succ_of_le
      ((Fits.le_of_rejects (u := []) (y := '*') rfl hm).trans (Nat.zero_le _))
  · simp only [List.forall_mem_cons, List.not_mem_nil, false_implies, implies_true, and_true, hlen]
    refine ⟨?_, ?_, ?_⟩ <;> intro m hm
    · exact absurd hm (not_fits_cons rfl rfl)
    · obtain ⟨-, n, -, hn⟩ := fits_one_cons.mp hm
      obtain ⟨l, -, hl⟩ := (fits_many_run hrun hstop rfl
        fun d hd => by simp [canStart, only_eq_true.mp hd]).mp hn
      cases hw : u ++ v with
      | nil => exact absurd (hw ▸ hl) not_fits_one_nil
      | cons d w =>
          rw [hw] at hl hend
          exact absurd (congrArg some (only_eq_true.mp (fits_one_cons.mp hl).1)) hend.2
    · have := le_one_of_fits_one hm
      omega

/-- `<comment>"*"+"/"` -/
lemma lexStep_close {stars : CString} (hstars : ∀ d ∈ stars, d = '*') (v : CString) (k : ℕ) :
    lexStep ⟨.comment, '*' :: (stars ++ '/' :: v), k⟩ = some (some .newline, ⟨.initial, v, k⟩) := by
  have hrun : ∀ d ∈ stars, only '*' d = true := fun d hd => only_eq_true.mpr (hstars d hd)
  have hstop : Stops (only '*') ('/' :: v) := stops_cons.mpr (by decide)
  have hlen : ('*' :: (stars ++ ['/'])).length = stars.length + 2 := by simp
  have hfits : ∀ {n}, closeRule.Fits ('*' :: (stars ++ '/' :: v)) n ↔ n = stars.length + 2 := by
    intro n
    have hiff := fits_many_run (n := n - 1) hrun hstop (p := [one (only '/')]) rfl
      fun d hd => by simp [canStart, only_eq_true.mp hd]
    constructor
    · intro h
      obtain ⟨-, m, rfl, hm⟩ := fits_one_cons.mp h
      obtain ⟨l, rfl, hl⟩ := hiff.mp hm
      have := (fits_single.mp hl).2
      omega
    · rintro rfl
      exact fits_one_cons.mpr ⟨rfl, _, rfl, hiff.mpr ⟨1, rfl, fits_single.mpr ⟨rfl, rfl⟩⟩⟩
  refine lexStep_eq [commentTextRule, commentStarsRule, commentNewlineRule] commentRules rfl
    (u := '*' :: (stars ++ ['/'])) (by simp) (by simp) ?_ ?_ ?_ ?_
  · rw [hlen]
    exact hfits.mpr rfl
  · exact fun m hm => (hfits.mp hm).trans_le hlen.ge
  · simp only [List.forall_mem_cons, List.not_mem_nil, false_implies, implies_true, and_true, hlen]
    refine ⟨?_, ?_, ?_⟩ <;> intro m hm
    · have := Fits.le_of_rejects (u := []) (y := '*') rfl hm
      rw [List.length_nil] at this
      omega
    · have := Fits.le_of_rejects (u := '*' :: stars) (y := '/') rfl hm
      rw [List.length_cons] at this
      omega
    · exact absurd hm (not_fits_cons rfl rfl)
  · simp only [List.forall_mem_cons, List.not_mem_nil, false_implies, implies_true, and_true, hlen]
    intro m hm
    have := le_one_of_fits_one hm
    omega

end Match

/-! ### Sequences of matches -/

/-- The lines that are counted, and those that are still in front of the scanner. -/
def LexState.due (s : LexState) : ℕ := s.yynewlines + s.rest.count '\n'

/-- The scanner makes the matches `ms` and comes to `s'`. Each of them takes a part of the text, and
counts no more lines than it takes. -/
inductive Scans : LexState → List (Option KeyvalToken × LexState) → LexState → Prop
  | refl (s : LexState) : Scans s [] s
  | step {s s' s'' : LexState} {token : Option KeyvalToken}
      {ms : List (Option KeyvalToken × LexState)} (h : lexStep s = some (token, s'))
      (hlt : s'.rest.length < s.rest.length) (hdue : s'.due ≤ s.due) (hms : Scans s' ms s'') :
      Scans s ((token, s') :: ms) s''

section Scans

variable {s s' s'' : LexState} {ms ms' : List (Option KeyvalToken × LexState)}

@[simp] lemma keyvalTokens_nil : keyvalTokens [] = [] := rfl

lemma keyvalTokens_append (ms ms' : List (Option KeyvalToken × LexState)) :
    keyvalTokens (ms ++ ms') = keyvalTokens ms ++ keyvalTokens ms' := List.filterMap_append

@[simp] lemma keyvalTokens_singleton (token : Option KeyvalToken) (s : LexState) :
    keyvalTokens [(token, s)] = token.toList := by
  cases token <;> rfl

/-- A text without a newline leaves the count right. -/
lemma due_eq {start start' : StartCondition} {u : CString} (hline : '\n' ∉ u) (v : CString)
    (k : ℕ) : LexState.due ⟨start', v, k⟩ = LexState.due ⟨start, u ++ v, k⟩ := by
  rw [LexState.due, LexState.due, List.count_append, List.count_eq_zero.mpr hline, Nat.zero_add]

lemma lexStep_suffix {token : Option KeyvalToken} (h : lexStep s = some (token, s')) :
    s'.rest <:+ s.rest := by
  obtain ⟨start, rest, k⟩ := s
  cases rest with
  | nil => cases h
  | cons c rest =>
      obtain ⟨⟨n, action⟩, -, hs⟩ := Option.map_eq_some_iff.mp h
      cases hs
      exact List.drop_suffix n (c :: rest)

lemma lexStep_nil (hs : s.rest = []) : lexStep s = none := by
  obtain ⟨start, rest, k⟩ := s
  obtain rfl : rest = [] := hs
  rfl

/-- One match. -/
lemma Scans.single {start start' : StartCondition} {token : Option KeyvalToken} {u v : CString}
    {k k' : ℕ} (h : lexStep ⟨start, u ++ v, k⟩ = some (token, ⟨start', v, k'⟩)) (hne : u ≠ [])
    (hk : k' ≤ k + u.count '\n') :
    Scans ⟨start, u ++ v, k⟩ [(token, ⟨start', v, k'⟩)] ⟨start', v, k'⟩ := by
  refine Scans.step h ?_ ?_ (Scans.refl _)
  · have := List.length_pos_of_ne_nil hne
    simp only [List.length_append]
    omega
  · simp only [LexState.due, List.count_append]
    omega

lemma Scans.trans (h : Scans s ms s') (h' : Scans s' ms' s'') : Scans s (ms ++ ms') s'' := by
  induction h with
  | refl s => exact h'
  | step hstep hlt hdue _ ih => exact Scans.step hstep hlt hdue (ih h')

/-- A scan up to the end of the file is the scan. -/
lemma Scans.keyvalScan (h : Scans s ms s') (hs' : s'.rest = []) {fuel : ℕ}
    (hfuel : s.rest.length < fuel) : keyvalScan fuel s = some ms := by
  induction h generalizing fuel with
  | refl s =>
      obtain ⟨fuel, rfl⟩ := Nat.exists_eq_succ_of_ne_zero (Nat.ne_zero_of_lt hfuel)
      rw [Ocoms.keyvalScan, lexStep_nil hs']
  | step hstep hlt _ _ ih =>
      obtain ⟨fuel, rfl⟩ := Nat.exists_eq_succ_of_ne_zero (Nat.ne_zero_of_lt hfuel)
      rw [Ocoms.keyvalScan, hstep]
      dsimp only
      rw [ih hs' (by omega)]
      rfl

lemma Scans.suffix (h : Scans s ms s') : ∀ m ∈ ms, m.2.rest <:+ s.rest := by
  induction h with
  | refl s => exact fun m hm => by cases hm
  | step hstep _ _ _ ih =>
      refine List.forall_mem_cons.mpr ⟨lexStep_suffix hstep, ?_⟩
      exact fun m hm => (ih m hm).trans (lexStep_suffix hstep)

lemma Scans.due_le (h : Scans s ms s') : s'.due ≤ s.due := by
  induction h with
  | refl s => exact Nat.le_refl _
  | step _ _ hdue _ ih => exact ih.trans hdue

/-- The count is right everywhere if it is right at the end: what a match leaves out is not made up
for. -/
lemma Scans.due_iff (h : Scans s ms s') : (∀ m ∈ ms, m.2.due = s.due) ↔ s'.due = s.due := by
  induction h with
  | refl s => exact iff_of_true (fun m hm => by cases hm) rfl
  | @step s s₁ s₂ token ms _ _ hdue hms ih =>
      have hle := hms.due_le
      rw [List.forall_mem_cons]
      constructor
      · rintro ⟨hs, hm⟩
        rw [← hs] at hm ⊢
        exact ih.mp hm
      · intro hs
        have hs₁ : s₁.due = s.due := by omega
        rw [hs₁] at ih
        exact ⟨hs₁, ih.mpr hs⟩

/-- The points at which the count is one more than the lines that are taken. -/
lemma Scans.counted_iff {text : CString} (h : Scans (.ofText text) ms s') :
    (∀ m ∈ ms, ∃ consumed, text = consumed ++ m.2.rest ∧ m.2.yynewlines = 1 + consumed.count '\n') ↔
      s'.due = 1 + text.count '\n' := by
  have hstart : (LexState.ofText text).due = 1 + text.count '\n' := rfl
  rw [← hstart, ← h.due_iff]
  refine forall₂_congr fun m hm => ?_
  obtain ⟨consumed, hrest⟩ := h.suffix m hm
  have hrest : consumed ++ m.2.rest = text := hrest
  have hcount : text.count '\n' = consumed.count '\n' + m.2.rest.count '\n' := by
    rw [← hrest, List.count_append]
  rw [hstart, LexState.due]
  constructor
  · rintro ⟨consumed', htext, hm⟩
    rw [htext, List.count_append]
    omega
  · intro hdue
    exact ⟨consumed, hrest.symm, by omega⟩

end Scans

end Ocoms
