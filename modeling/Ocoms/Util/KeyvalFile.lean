import Mathlib.Algebra.Ring.Parity
import Ocoms.Util.KeyvalLines

/-!
Which key/value files are read faithfully.

* A `KeyvalFile` is a file by its lines. Every text without a null character is one
  (`exists_keyvalFile`).
* `assignmentOf` is what a line says, and `callOf_eq_iff` when the parser takes it so.
* `scansFile` puts the lines together, and `keyval_faithful_iff` is the theorem about the calls of
  the callback and the count of the lines.
-/

namespace Ocoms

open Pattern

/-! ### What a line says -/

/-- The name in front of an `=`, with white characters around it, and block comments before them. -/
def nameOf (p : CString) : Option CString :=
  let q := p.dropWhile fun c => isWhite c || c = '\n'
  if q.takeWhile isNameChar ≠ [] ∧ (q.dropWhile isNameChar).all isWhite = true then
    some (q.takeWhile isNameChar)
  else none

/-- The value behind an `=`, without the white characters around it. -/
def strippedValue (v : CString) : Option CString :=
  let value := (v.dropWhile isWhite).rdropWhile isWhite
  if value = [] then none else some value

/-- The assignment that a line is. -/
def assignmentOf (t : CString) : Option Assignment :=
  match lineFront true false t with
  | .text p v => (nameOf p).map fun name => (name, strippedValue v)
  | _ => none

/-- With the tabs and spaces behind it taken off, the value ends in no other white character. -/
def EndsClean (v : CString) : Prop :=
  ∀ c ∈ ((v.dropWhile isWhite).rdropWhile isBlank).getLast?, isWhite c = false

/-- The condition on a line: an assignment has a clean end, and in front of the `=` of any other
line stands an even number of words. -/
def CalledRight (ended : Bool) (t : CString) : Prop :=
  match lineFront ended false t with
  | .text p v =>
      if (assignmentOf t).isSome = true then EndsClean v else Even (wordsBehind 0 false p)
  | _ => True

section Line

variable {ended : Bool} {t p v name : CString}

lemma rdropWhile_rdropWhile {α : Type*} {c d : α → Bool} (h : ∀ x, c x = true → d x = true)
    (l : List α) : (l.rdropWhile c).rdropWhile d = l.rdropWhile d := by
  induction l using List.reverseRecOn with
  | nil => rfl
  | append_singleton l x ih =>
      by_cases hx : c x = true
      · rw [List.rdropWhile_concat_pos _ _ _ hx, List.rdropWhile_concat_pos _ _ _ (h x hx), ih]
      · rw [List.rdropWhile_concat_neg _ _ _ hx]

/-- The scanner leaves form feeds and vertical tabs behind a value. -/
lemma scannedValue_eq_iff (v : CString) : scannedValue v = strippedValue v ↔ EndsClean v := by
  rw [scannedValue, strippedValue, EndsClean]
  generalize v.dropWhile isWhite = q
  have hstrip : (q.rdropWhile isBlank).rdropWhile isWhite = q.rdropWhile isWhite :=
    rdropWhile_rdropWhile (fun c => isWhite_of_isBlank) q
  generalize q.rdropWhile isBlank = y at hstrip
  rw [← hstrip]
  have hself : y.rdropWhile isWhite = y ↔ ∀ c ∈ y.getLast?, isWhite c = false := by
    rw [List.rdropWhile_eq_self_iff]
    rcases List.eq_nil_or_concat' y with rfl | ⟨a, x, rfl⟩ <;> simp
  rw [← hself]
  constructor
  · intro heq
    by_cases hy : y = []
    · rw [hy, List.rdropWhile_nil]
    · rw [if_neg hy] at heq
      split_ifs at heq
      exact (Option.some.inj heq).symm
  · intro hstripped
    rw [hstripped]

lemma heldName_lead {u : CString} (hu : ∀ c ∈ u, (isWhite c || c = '\n') = true) (p : CString) :
    heldName none false (u ++ p) = heldName none false p := by
  induction u with
  | nil => rfl
  | cons c u ih =>
      obtain ⟨hc, hu⟩ := List.forall_mem_cons.mp hu
      have hname : isNameChar c = false := by
        by_contra hname
        rw [Bool.not_eq_false] at hname
        obtain ⟨hwhite, hline, -⟩ := of_isNameChar hname
        simp [hwhite, hline] at hc
      rw [List.cons_append, heldName, if_neg (by simp [hname]), ite_self, ih hu]

lemma heldName_of_nameOf (h : nameOf p = some name) : heldName none false p = some name := by
  rw [nameOf] at h
  obtain ⟨u, q, rfl, hu, hq⟩ := exists_run (fun c => isWhite c || c = '\n') p
  rw [dropWhile_run hu hq] at h
  split_ifs at h with hcond
  obtain rfl := Option.some.inj h
  obtain ⟨word, ws, rfl, hword, hws⟩ := exists_run isNameChar q
  rw [dropWhile_run hword hws, takeWhile_run hword hws, List.all_eq_true] at hcond
  rw [heldName_lead hu, takeWhile_run hword hws, heldName_word hcond.1 hword none hws]
  have hend := heldName_white hcond.2 (nameBehind none (.singleWord word)) []
  rw [List.append_nil] at hend
  exact hend

/-- An assignment is cut at its `=`, also at the end of the file. -/
lemma lineFront_of_assignmentOf {a : Assignment} (h : assignmentOf t = some a) (ended : Bool) :
    ∃ p v name, lineFront ended false t = .text p v ∧ nameOf p = some name ∧
      a = (name, strippedValue v) := by
  rw [assignmentOf] at h
  cases hfront : lineFront true false t with
  | text p v =>
      rw [hfront] at h
      obtain ⟨name, hname, rfl⟩ := Option.map_eq_some_iff.mp h
      refine ⟨p, v, name, ?_, hname, rfl⟩
      cases ended with
      | true => exact hfront
      | false => exact lineFront_of_ended hfront
  | noEqual =>
      rw [hfront] at h
      cases h
  | broken =>
      rw [hfront] at h
      cases h

/-- **The call for a line** is the right one under the condition. -/
lemma callOf_eq_iff (ended : Bool) (t : CString) :
    callOf ended t = assignmentOf t ↔ CalledRight ended t := by
  rw [callOf, CalledRight]
  cases hassign : assignmentOf t with
  | some a =>
      obtain ⟨p, v, name, hfront, hname, rfl⟩ := lineFront_of_assignmentOf hassign ended
      rw [hfront]
      dsimp only
      rw [heldName_of_nameOf hname, if_pos (by rfl), ← scannedValue_eq_iff]
      simp
  | none =>
      cases lineFront ended false t with
      | text p v =>
          have hodd : (heldName none false p).isSome = true ↔ Odd (wordsBehind 0 false p) :=
            heldName_isSome (by simp) false p
          dsimp only
          rw [if_neg (by simp), ← Nat.not_odd_iff_even, ← hodd]
          simp
      | noEqual => simp
      | broken => simp

end Line

/-! ### Files -/

/-- A file: its lines, and the text behind them, which has no newline at its end. A line goes on
over the newlines in its block comments. -/
structure KeyvalFile where
  lines : List CString
  last : CString
  unbroken : ∀ t ∈ lines, lineFront true false t ≠ .broken
  unbroken_last : lineFront false false last ≠ .broken
  noNull : ∀ t ∈ lines, '\x00' ∉ t
  noNull_last : '\x00' ∉ last

namespace KeyvalFile

variable (f : KeyvalFile)

/-- The text of the file. -/
def text : CString := f.lines.flatMap (· ++ ['\n']) ++ f.last

/-- The lines and the last text, with whether they have a newline. -/
def pieces : List (Bool × CString) := f.lines.map (true, ·) ++ [(false, f.last)]

/-- The assignments of the file. -/
def assignments : List Assignment := f.pieces.filterMap fun t => assignmentOf t.2

/-- The callback is called once for each assignment, in their order. -/
def CallsRight (ms : List (Option KeyvalToken × LexState)) : Prop :=
  keyvalParse (keyvalTokens ms) = f.assignments

/-- Behind each match the count is one more than the newlines that are taken. -/
def CountsRight (ms : List (Option KeyvalToken × LexState)) : Prop :=
  ∀ m ∈ ms, ∃ consumed, f.text = consumed ++ m.2.rest ∧ m.2.yynewlines = 1 + consumed.count '\n'

end KeyvalFile

lemma head?_append_newline {u w : CString} {c : Char} (hc : c ≠ '\n') :
    (u ++ '\n' :: w).head? = some c ↔ u.head? = some c := by
  cases u with
  | nil => simpa using Ne.symm hc
  | cons d u => rfl

lemma opensComment_append_newline (c : Char) (u w : CString) :
    opensComment c (u ++ '\n' :: w) = opensComment c u := by
  rw [opensComment, opensComment, decide_eq_decide.mpr (head?_append_newline (by decide))]

/-- A text that is no last line goes on behind the end of its first line. -/
lemma exists_line {inside : Bool} {t : CString} (h : lineFront false inside t = .broken) :
    ∃ u w, t = u ++ '\n' :: w ∧ lineFront true inside u ≠ .broken := by
  have hprepend : ∀ {u : CString} {g : Front}, g.prepend u = .broken ↔ g = .broken := by
    intro u g
    cases g <;> simp [Front.prepend]
  fun_induction lineFront false inside t with
  | case1 t ih =>
      obtain ⟨u, w, rfl, hu⟩ := ih (hprepend.mp h)
      refine ⟨'*' :: '/' :: u, w, rfl, ?_⟩
      rw [lineFront, ne_eq, hprepend]
      exact hu
  | case2 c t hne ih =>
      obtain ⟨u, w, rfl, hu⟩ := ih h
      refine ⟨c :: u, w, rfl, ?_⟩
      rw [lineFront]
      · exact hu
      · rintro u' rfl rfl
        exact hne _ rfl rfl
  | case6 t ih =>
      obtain ⟨u, w, rfl, hu⟩ := ih h
      refine ⟨'/' :: '*' :: u, w, rfl, ?_⟩
      rw [lineFront]
      exact hu
  | case7 t => exact ⟨[], t, rfl, by simp [lineFront]⟩
  -- a comment or value with a newline in it ends at the first one
  | case8 c t hopen hline hbroken =>
      obtain ⟨u, w, rfl, hu, hw⟩ := exists_run onLine t
      have hnot : '\n' ∉ u := fun hmem => absurd (hu _ hmem) (by decide)
      rcases w with _ | ⟨d, w⟩
      · rw [List.append_nil] at hbroken
        exact absurd hbroken.2 hnot
      obtain rfl : d = '\n' := by
        by_contra hd
        rw [stops_cons, onLine_eq_true.mpr hd] at hw
        cases hw
      rw [opensComment_append_newline] at hbroken
      refine ⟨c :: u, w, rfl, ?_⟩
      rw [lineFront_cons, if_neg hline, if_neg fun hmem => hnot hmem.2]
      · split_ifs with hequal hcomment
        · simp
        · simp
        · simp_all
      · rintro rfl hhead
        obtain ⟨u', rfl⟩ := List.head?_eq_some_iff.mp hhead
        exact hopen _ rfl rfl
  | case11 c t hopen hline hbroken hequal _ ih =>
      obtain ⟨u, w, rfl, hu⟩ := ih (hprepend.mp h)
      rw [opensComment_append_newline] at hbroken
      have hnot : (c = '=' || opensComment c u) = false := by
        by_contra hnot
        rw [Bool.not_eq_false] at hnot
        exact hbroken ⟨hnot, by simp⟩
      rw [Bool.or_eq_false_iff] at hnot
      refine ⟨c :: u, w, rfl, ?_⟩
      rw [lineFront_cons, if_neg hline, if_neg (by simp [hequal, hnot.2]), if_neg hequal,
        if_neg (by simp [hnot.2]), ne_eq, hprepend]
      · exact hu
      · rintro rfl hhead
        obtain ⟨u', rfl⟩ := List.head?_eq_some_iff.mp hhead
        exact hopen _ rfl rfl
  | _ => simp_all

/-- **Every text** without a null character is a file. -/
lemma exists_keyvalFile (text : CString) (hnull : '\x00' ∉ text) :
    ∃ f : KeyvalFile, f.text = text := by
  induction hn : text.length using Nat.strong_induction_on generalizing text with
  | _ n ih =>
      subst hn
      by_cases hbroken : lineFront false false text = .broken
      · obtain ⟨u, w, rfl, hu⟩ := exists_line hbroken
        rw [List.mem_append, List.mem_cons, not_or, not_or] at hnull
        have hlen : w.length < (u ++ '\n' :: w).length := by
          rw [List.length_append, List.length_cons]
          omega
        obtain ⟨f, rfl⟩ := ih w.length hlen w hnull.2.2 rfl
        exact ⟨{ lines := u :: f.lines
                 last := f.last
                 unbroken := List.forall_mem_cons.mpr ⟨hu, f.unbroken⟩
                 unbroken_last := f.unbroken_last
                 noNull := List.forall_mem_cons.mpr ⟨hnull.1, f.noNull⟩
                 noNull_last := f.noNull_last }, by simp [KeyvalFile.text]⟩
      · exact ⟨{ lines := []
                 last := text
                 unbroken := fun t ht => by cases ht
                 unbroken_last := hbroken
                 noNull := fun t ht => by cases ht
                 noNull_last := hnull }, rfl⟩

/-- Lines, one behind another. -/
lemma scansLines {lines : List CString} (hlines : ∀ t ∈ lines, lineFront true false t ≠ .broken)
    (hnull : ∀ t ∈ lines, '\x00' ∉ t) (w : CString) (k : ℕ) :
    ∃ ms k', Scans ⟨.initial, lines.flatMap (· ++ ['\n']) ++ w, k⟩ ms ⟨.initial, w, k'⟩ ∧
      LexState.due ⟨.initial, w, k'⟩ + lines.countP (fun t => (lineFront true false t).hasEqual)
        = LexState.due ⟨.initial, lines.flatMap (· ++ ['\n']) ++ w, k⟩ ∧
      ∀ rest, keyvalParse (keyvalTokens ms ++ rest)
        = lines.filterMap (callOf true) ++ keyvalParse rest := by
  induction lines generalizing k with
  | nil => exact ⟨[], k, Scans.refl _, rfl, fun rest => rfl⟩
  | cons t lines ih =>
      obtain ⟨ht, hlines⟩ := List.forall_mem_cons.mp hlines
      obtain ⟨htnull, hnull⟩ := List.forall_mem_cons.mp hnull
      obtain ⟨ms, s', hms, hrest, hstart, hdue, hparse⟩ :=
        scansLine ht htnull (lines.flatMap (· ++ ['\n']) ++ w) k
      obtain ⟨start, rest', k'⟩ := s'
      obtain rfl : rest' = lines.flatMap (· ++ ['\n']) ++ w := hrest
      obtain rfl : start = .initial := hstart rfl
      obtain ⟨ms', k'', hms', hdue', hparse'⟩ := ih hlines hnull k'
      have htext : (t :: lines).flatMap (· ++ ['\n']) ++ w
          = t ++ behind true (lines.flatMap (· ++ ['\n']) ++ w) := by simp
      rw [htext]
      refine ⟨_, k'', hms.trans hms', ?_, fun rest => ?_⟩
      · rw [← hdue, ← hdue', List.countP_cons, Nat.add_assoc]
        rfl
      · rw [keyvalTokens_append, List.append_assoc, hparse _ (fun h => by cases h), hparse',
          List.filterMap_cons]
        cases callOf true t <;> rfl

/-- **The scan of a file.** -/
lemma scansFile (f : KeyvalFile) : ∃ ms s', Scans (.ofText f.text) ms s' ∧ s'.rest = [] ∧
    s'.due + f.lines.countP (fun t => (lineFront true false t).hasEqual) = 1 + f.text.count '\n' ∧
    keyvalParse (keyvalTokens ms) = f.pieces.filterMap fun t => callOf t.1 t.2 := by
  obtain ⟨ms, k, hms, hdue, hparse⟩ := scansLines f.unbroken f.noNull f.last 1
  obtain ⟨ms', s', hms', hrest, -, hdue', hparse'⟩ := scansLine f.unbroken_last f.noNull_last [] k
  rw [behind_false, List.append_nil] at hms' hdue'
  refine ⟨_, s', hms.trans hms', hrest, ?_, ?_⟩
  · have hlast : uncounted false f.last = 0 := rfl
    rw [hlast, Nat.add_zero] at hdue'
    rw [hdue', hdue]
    rfl
  · have hcalls := hparse' [] fun _ => rfl
    rw [List.append_nil, keyvalParse_nil, List.append_nil] at hcalls
    rw [keyvalTokens_append, hparse, hcalls, KeyvalFile.pieces, List.filterMap_append,
      List.filterMap_map]
    cases h : callOf false f.last <;> simp [h]

/-- Where no value of `g` is missing in `f`, the lists are equal if the values are. -/
lemma filterMap_eq_filterMap_iff {α β : Type*} {f g : α → Option β} {l : List α}
    (h : ∀ x ∈ l, (g x).isSome = true → (f x).isSome = true) :
    l.filterMap f = l.filterMap g ↔ ∀ x ∈ l, f x = g x := by
  induction l with
  | nil => simp
  | cons x l ih =>
      obtain ⟨hx, hl⟩ := List.forall_mem_cons.mp h
      rw [List.forall_mem_cons, ← ih hl]
      cases hf : f x with
      | some a =>
          cases hg : g x with
          | some b => rw [List.filterMap_cons_some hf, List.filterMap_cons_some hg, List.cons.injEq,
              Option.some.injEq]
          -- one value more on the left
          | none =>
              rw [List.filterMap_cons_some hf, List.filterMap_cons_none hg]
              refine iff_of_false (fun heq => ?_) fun h => by cases h.1
              have hlen := congrArg List.length heq
              have hle := List.countP_mono_left hl
              rw [List.length_cons, List.length_filterMap_eq_countP,
                List.length_filterMap_eq_countP] at hlen
              omega
      | none =>
          have hg : g x = none := by
            rw [← Option.not_isSome_iff_eq_none]
            intro hsome
            rw [hf] at hx
            cases hx hsome
          rw [List.filterMap_cons_none hf, List.filterMap_cons_none hg, hg]
          exact (and_iff_right rfl).symm

/-- **Which files are read faithfully.** -/
theorem keyval_faithful_iff (f : KeyvalFile) :
    ∃ ms, keyvalScan (f.text.length + 1) (.ofText f.text) = some ms ∧
      (f.CallsRight ms ↔ ∀ t ∈ f.pieces, CalledRight t.1 t.2) ∧
      (f.CountsRight ms ↔ ∀ t ∈ f.lines, (lineFront true false t).hasEqual = false) := by
  obtain ⟨ms, s', hms, hrest, hdue, hcalls⟩ := scansFile f
  refine ⟨ms, hms.keyvalScan hrest (Nat.lt_succ_self _), ?_, ?_⟩
  · rw [KeyvalFile.CallsRight, hcalls, KeyvalFile.assignments, filterMap_eq_filterMap_iff]
    · exact forall₂_congr fun t _ => callOf_eq_iff t.1 t.2
    · intro t _ hassign
      obtain ⟨a, ha⟩ := Option.isSome_iff_exists.mp hassign
      obtain ⟨p, v, name, hfront, hname, -⟩ := lineFront_of_assignmentOf ha t.1
      rw [callOf, hfront]
      dsimp only
      rw [heldName_of_nameOf hname]
      rfl
  · have hzero : s'.due = 1 + f.text.count '\n'
        ↔ f.lines.countP (fun t => (lineFront true false t).hasEqual) = 0 := by omega
    rw [KeyvalFile.CountsRight, hms.counted_iff, hzero, List.countP_eq_zero]
    simp only [Bool.not_eq_true]

/-- An assignment, and a line with too many words. -/
def oddWords : KeyvalFile where
  lines := ["a = b".toList, "foo bar baz = x".toList]
  last := []
  unbroken := by decide
  unbroken_last := by decide
  noNull := by decide
  noNull_last := by decide

/-- The callback is called for both lines, and neither of them is counted. -/
theorem keyval_unfaithful : ∃ ms, keyvalScan (oddWords.text.length + 1) (.ofText oddWords.text)
      = some ms ∧ ¬ oddWords.CallsRight ms ∧ ¬ oddWords.CountsRight ms := by
  have htokens : (keyvalScan (oddWords.text.length + 1) (.ofText oddWords.text)).map keyvalTokens
      = some [.singleWord "a".toList, .equal, .value "b".toList, .newline, .singleWord "foo".toList,
        .singleWord "bar".toList, .singleWord "baz".toList, .equal, .value "x".toList,
        .newline] := by
    decide +kernel
  have hend : (keyvalScan (oddWords.text.length + 1) (.ofText oddWords.text)).map
      (fun ms => ms.getLast?.map fun m => (m.2.rest, m.2.yynewlines)) = some (some ([], 1)) := by
    decide +kernel
  obtain ⟨ms, hms, htokens⟩ := Option.map_eq_some_iff.mp htokens
  rw [hms, Option.map_some, Option.some.injEq, Option.map_eq_some_iff] at hend
  obtain ⟨m, hm, hlast⟩ := hend
  obtain ⟨hrest, hcount⟩ := Prod.ext_iff.mp hlast
  refine ⟨ms, hms, ?_, ?_⟩
  · have hassign : oddWords.assignments = [("a".toList, some "b".toList)] := rfl
    rw [KeyvalFile.CallsRight, htokens, hassign]
    simp [keyvalParse, parseLine]
  · intro hcounts
    obtain ⟨consumed, htext, hlines⟩ := hcounts m (List.mem_of_getLast? hm)
    dsimp only at hrest hcount
    rw [hrest, List.append_nil] at htext
    rw [hcount, ← htext] at hlines
    exact absurd hlines (by decide)

end Ocoms
