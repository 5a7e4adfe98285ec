import Ocoms.Util.KeyvalScan

/-!
The lines of a key/value file, as the scanner reads them.

* `lineFront` cuts a line at its first `=` outside comments. A line goes on over the newlines in a
  block comment; `ended` is false for the last line of a file, which has no newline behind it.
* `heldName` is the name that the parser holds at the `=`. The words in front of it are taken in
  turn as a name and as what should have been the `=`, so `heldName_isSome` counts them.
* `scansComment` goes through a block comment, `readsFront` through the text up to the `=`, and
  `readsValue` through what is behind it. `scansLine` is a whole line: at most one call of the
  callback, `callOf`, and the count of the lines.
-/

namespace Ocoms

open PatternPart Pattern

/-! ### The text in front of the first `=` -/

/-- A line: the text in front of its first `=` that is in no comment, with each block comment as a
newline, and the text behind it. It is broken if it goes on behind its end. -/
inductive Front
  | text (p v : CString)
  | noEqual
  | broken
  deriving DecidableEq

/-- With more in front. -/
def Front.prepend (u : CString) : Front → Front
  | .text p v => .text (u ++ p) v
  | .noEqual => .noEqual
  | .broken => .broken

/-- There is an `=`. -/
def Front.hasEqual : Front → Bool
  | .text _ _ => true
  | .noEqual => false
  | .broken => false

/-- `#` and `//`. -/
def opensComment (c : Char) (t : CString) : Bool := c = '#' || c = '/' && t.head? = some '/'

/-- The line cut at its first `=`, outside or inside a block comment. -/
def lineFront (ended : Bool) : Bool → CString → Front
  | true, '*' :: '/' :: t => (lineFront ended false t).prepend ['\n']
  | true, _ :: t => lineFront ended true t
  | true, [] => if ended then .broken else .noEqual
  | false, [] => .noEqual
  | false, '/' :: '*' :: t => lineFront ended true t
  | false, c :: t =>
      if c = '\n' then .broken
      else if (c = '=' || opensComment c t) = true ∧ '\n' ∈ t then .broken
      else if c = '=' then .text [] t
      -- a comment takes the newline at its end
      else if (ended && opensComment c t) = true then .noEqual
      else (lineFront ended false t).prepend [c]

/-- What is behind the end of a block comment. -/
def afterBlock : CString → Option CString
  | '*' :: '/' :: t => some t
  | _ :: t => afterBlock t
  | [] => none

/-- The name that the parser holds behind a text: it takes a word for a name, and then anything for
the `=`. -/
def heldName : Option CString → Bool → CString → Option CString
  | held, _, [] => held
  | held, inWord, c :: p =>
      if isNameChar c = true then
        heldName (if inWord then held.map (· ++ [c]) else if held.isNone then some [c] else none)
          true p
      else heldName (if isWhite c then held else none) false p

/-- The number of words at the end of a text, behind the last character that is neither in a word
nor white. -/
def wordsBehind : ℕ → Bool → CString → ℕ
  | n, _, [] => n
  | n, inWord, c :: p =>
      if isNameChar c = true then wordsBehind (if inWord then n else n + 1) true p
      else wordsBehind (if isWhite c then n else 0) false p

/-- The name stands if the number of words is odd. -/
lemma heldName_isSome {held : Option CString} {n : ℕ} (h : held.isSome = true ↔ Odd n)
    (inWord : Bool) (p : CString) :
    (heldName held inWord p).isSome = true ↔ Odd (wordsBehind n inWord p) := by
  induction p generalizing held n inWord with
  | nil => exact h
  | cons c p ih =>
      have hstart : (if held.isNone then some [c] else none).isSome = true ↔ Odd (n + 1) := by
        rw [Nat.odd_add_one, ← h]
        cases held <;> simp
      rw [heldName, wordsBehind]
      by_cases hc : isNameChar c = true
      · rw [if_pos hc, if_pos hc]
        cases inWord with
        | false => exact ih hstart true
        | true => exact ih (by rwa [if_pos rfl, if_pos rfl, Option.isSome_map]) true
      · rw [if_neg hc, if_neg hc]
        cases isWhite c with
        | false => exact ih (by simp) false
        | true => exact ih h false

/-! ### Block comments -/

section Comment

variable {c : Char} {t u v stars : CString}

lemma afterBlock_cons (hc : c ≠ '*') (t : CString) : afterBlock (c :: t) = afterBlock t := by
  rw [afterBlock]
  rintro t' rfl
  exact absurd rfl hc

lemma afterBlock_append (hu : ∀ d ∈ u, d ≠ '*') (v : CString) :
    afterBlock (u ++ v) = afterBlock v := by
  induction u with
  | nil => rfl
  | cons c u ih =>
      obtain ⟨hc, hu⟩ := List.forall_mem_cons.mp hu
      rw [List.cons_append, afterBlock_cons hc, ih hu]

lemma afterBlock_close (hstars : ∀ d ∈ stars, d = '*') (v : CString) :
    afterBlock ('*' :: (stars ++ '/' :: v)) = some v := by
  induction stars with
  | nil => rfl
  | cons c stars ih =>
      obtain ⟨rfl, hrest⟩ := List.forall_mem_cons.mp hstars
      exact ih hrest

lemma afterBlock_stars (hstars : ∀ d ∈ stars, d = '*') (hstar : v.head? ≠ some '*')
    (hslash : v.head? ≠ some '/') : afterBlock ('*' :: (stars ++ v)) = afterBlock v := by
  induction stars with
  | nil =>
      cases v with
      | nil => rfl
      | cons c v =>
          have hc : c ≠ '/' := fun h => hslash (congrArg some h)
          rw [List.nil_append, afterBlock]
          rintro t' - heq
          exact hc (List.cons.inj heq).1
  | cons c stars ih =>
      obtain ⟨rfl, hrest⟩ := List.forall_mem_cons.mp hstars
      exact ih hrest

lemma lineFront_inside (ended : Bool) (t : CString) : lineFront ended true t =
    match afterBlock t with
    | some u => (lineFront ended false u).prepend ['\n']
    | none => if ended then .broken else .noEqual := by
  fun_induction afterBlock t with
  | case1 t => rw [lineFront]
  | case2 c t hne ih => rw [lineFront, ih]; exact hne
  | case3 => rw [lineFront]

lemma length_of_afterBlock (h : afterBlock t = some u) : u.length < t.length := by
  fun_induction afterBlock t with
  | case1 t =>
      cases h
      simp only [List.length_cons]
      omega
  | case2 c t _ ih => exact (ih h).trans (by simp)
  | case3 => cases h

/-- The scanner leaves a block comment: it returns newlines only, and counts all of them. -/
def LeavesComment (v : CString) (s : LexState) (after : Option CString) : Prop :=
  ∃ ms s', Scans s ms s' ∧ s'.due = s.due ∧ (∀ token ∈ keyvalTokens ms, token = .newline) ∧
    (s'.start, s'.rest) = after.elim (.comment, v) fun u => (.initial, u ++ v)

lemma LeavesComment.step {s s' : LexState} {token : Option KeyvalToken} {after : Option CString}
    (h : Scans s [(token, s')] s') (hdue : s'.due = s.due) (htoken : ∀ t ∈ token, t = .newline)
    (h' : LeavesComment v s' after) : LeavesComment v s after := by
  obtain ⟨ms, s'', hms, hdue', htokens, hend⟩ := h'
  refine ⟨_, s'', h.trans hms, hdue'.trans hdue, ?_, hend⟩
  intro t ht
  rw [keyvalTokens_append, keyvalTokens_singleton, List.mem_append, Option.mem_toList] at ht
  exact ht.elim (htoken t) (htokens t)

/-- A match that has no newline in it. -/
lemma LeavesComment.onLine {k : ℕ} {start : StartCondition} {token : Option KeyvalToken}
    {after : Option CString} (hne : u ≠ []) (hline : '\n' ∉ u)
    (h : lexStep ⟨.comment, u ++ t, k⟩ = some (token, ⟨start, t, k⟩))
    (htoken : ∀ t ∈ token, t = .newline) (h' : LeavesComment v ⟨start, t, k⟩ after) :
    LeavesComment v ⟨.comment, u ++ t, k⟩ after := by
  exact LeavesComment.step (Scans.single h hne (Nat.le_add_right _ _)) (due_eq hline t k) htoken h'

lemma LeavesComment.done (u v : CString) (k : ℕ) :
    LeavesComment v ⟨.initial, u ++ v, k⟩ (some u) :=
  ⟨[], _, Scans.refl _, rfl, by simp, rfl⟩

/-- **A block comment.** One that has no end takes the rest of the file. -/
lemma scansComment (t : CString) (h : afterBlock t = none → v = []) (k : ℕ) :
    LeavesComment v ⟨.comment, t ++ v, k⟩ (afterBlock t) := by
  induction hn : t.length using Nat.strong_induction_on generalizing t k with
  | _ n ih =>
      subst hn
      rcases t with _ | ⟨c, t⟩
      · exact ⟨[], _, Scans.refl _, rfl, by simp, rfl⟩
      by_cases hline : c = '\n'
      · subst hline
        rw [afterBlock_cons (by decide)] at h ⊢
        refine LeavesComment.step (Scans.single (u := ['\n']) (lexStep_commentNewline _ k) (by simp)
          (by simp)) ?_ (by simp) (ih t.length (by simp) t h (k + 1) rfl)
        simp [LexState.due]
        omega
      by_cases hstar : c = '*'
      · subst hstar
        obtain ⟨stars, r, rfl, hstars, hr⟩ := exists_run (only '*') t
        have hstars : ∀ d ∈ stars, d = '*' := fun d hd => only_eq_true.mp (hstars d hd)
        have hrstar : r.head? ≠ some '*' := fun hd => absurd (hr _ hd) (by decide)
        by_cases hslash : r.head? = some '/'
        · obtain ⟨r, rfl⟩ := List.head?_eq_some_iff.mp hslash
          rw [afterBlock_close hstars]
          have htext : '*' :: (stars ++ '/' :: r) ++ v = '*' :: (stars ++ ['/']) ++ (r ++ v) := by
            simp
          have hclose := lexStep_close hstars (r ++ v) k
          rw [List.append_cons stars, ← List.cons_append] at hclose
          rw [htext]
          refine LeavesComment.onLine (by simp) ?_ hclose (by simp) (LeavesComment.done r v k)
          simp only [List.mem_cons, List.mem_append, List.not_mem_nil, or_false]
          rintro (h | h | h)
          · exact absurd h (by decide)
          · exact absurd (hstars _ h) (by decide)
          · exact absurd h (by decide)
        -- the stars, and the text up to the next star, slash or newline
        · obtain ⟨u, w, rfl, hu, hw⟩ := exists_run (fun d => d != '*' && d != '/' && d != '\n') r
          have huclass : ∀ d ∈ u, d ≠ '*' ∧ d ≠ '\n' := by
            intro d hd
            have := hu d hd
            simp_all
          have hbehind : w = [] → v = [] := by
            rintro rfl
            refine h ?_
            rw [afterBlock_stars hstars hrstar hslash,
              afterBlock_append fun d hd => (huclass d hd).1]
            rfl
          have hv : Stops (fun d => d != '*' && d != '/' && d != '\n') (w ++ v) := by
            refine hw.append fun hnil => ?_
            rw [hbehind hnil]
            exact stops_nil
          have hends : (u ++ (w ++ v)).head? ≠ some '*' ∧ (u ++ (w ++ v)).head? ≠ some '/' := by
            rw [← List.append_assoc]
            cases hr : u ++ w with
            | nil =>
                rw [hbehind (List.append_eq_nil_iff.mp hr).2]
                simp
            | cons d r => simpa [hr] using And.intro hrstar hslash
          rw [afterBlock_stars hstars hrstar hslash, afterBlock_append fun d hd => (huclass d hd).1]
            at h ⊢
          have htext : '*' :: (stars ++ (u ++ w)) ++ v = '*' :: (stars ++ u) ++ (w ++ v) := by simp
          have hmatch := lexStep_commentStars hstars hu hv hends k
          rw [← List.append_assoc, ← List.cons_append] at hmatch
          rw [htext]
          refine LeavesComment.onLine (by simp) ?_ hmatch (by simp) (ih w.length ?_ w h k rfl)
          · simp only [List.mem_cons, List.mem_append]
            rintro (h | h | h)
            · exact absurd h (by decide)
            · exact absurd (hstars _ h) (by decide)
            · exact (huclass _ h).2 rfl
          · simp only [List.length_cons, List.length_append]
            omega
      -- the text up to the next star or newline
      · have hclass : (c != '*' && c != '\n') = true := by simp [hline, hstar]
        obtain ⟨u, w, hsplit, hne, hu, hw⟩ :=
          exists_run_cons (c := fun d => d != '*' && d != '\n') hclass t
        have huclass : ∀ d ∈ u, d ≠ '*' ∧ d ≠ '\n' := fun d hd => by simpa using hu d hd
        have hlen : w.length < (c :: t).length := by
          have := List.length_pos_of_ne_nil hne
          rw [hsplit, List.length_append]
          omega
        rw [hsplit, afterBlock_append fun d hd => (huclass d hd).1] at h ⊢
        have hv : Stops (fun d => d != '*' && d != '\n') (w ++ v) := by
          refine hw.append ?_
          rintro rfl
          rw [h rfl]
          exact stops_nil
        rw [List.append_assoc]
        exact LeavesComment.onLine hne (fun hd => (huclass _ hd).2 rfl)
          (lexStep_commentText hne hu hv k) (by simp) (ih w.length hlen w h k rfl)

end Comment

/-! ### The parser within a line -/

section Parser

variable {held : Option CString} {token : KeyvalToken}

/-- The parser, with the name that it holds. -/
def parseFrom : Option CString → List KeyvalToken → List Assignment
  | none, tokens => keyvalParse tokens
  | some name, tokens => (parseLine name tokens).2.toList ++ keyvalParse (parseLine name tokens).1

/-- The name that the parser holds behind a token that is no `=`. -/
def nameBehind : Option CString → KeyvalToken → Option CString
  | none, .singleWord name => some name
  | _, _ => none

lemma keyvalParse_nil : keyvalParse [] = [] := by rw [keyvalParse]

lemma parseFrom_cons (h : token ≠ .equal) (held : Option CString) (rest : List KeyvalToken) :
    parseFrom held (token :: rest) = parseFrom (nameBehind held token) rest := by
  cases held with
  | none =>
      cases token <;> rw [parseFrom, keyvalParse] <;> first | rfl | (intro name h; cases h)
  | some name =>
      cases token with
      | equal => exact absurd rfl h
      | _ => rfl

/-- Newlines end a line without an `=`. -/
lemma parseFrom_newlines {tokens : List KeyvalToken} (hne : tokens ≠ [])
    (h : ∀ token ∈ tokens, token = .newline) (held : Option CString) (rest : List KeyvalToken) :
    parseFrom held (tokens ++ rest) = parseFrom none rest := by
  induction tokens generalizing held with
  | nil => exact absurd rfl hne
  | cons token tokens ih =>
      obtain ⟨rfl, hrest⟩ := List.forall_mem_cons.mp h
      have hne : KeyvalToken.newline ≠ .equal := by decide
      have hname : nameBehind held .newline = none := by cases held <;> rfl
      rw [List.cons_append, parseFrom_cons hne, hname]
      cases tokens with
      | nil => rfl
      | cons _ _ => exact ih (List.cons_ne_nil _ _) hrest none

/-- At the end of the file a name is dropped. -/
lemma parseFrom_nil (held : Option CString) : parseFrom held [] = [] := by
  cases held with
  | none => exact keyvalParse_nil
  | some name => exact keyvalParse_nil

/-- The call of the callback for the rest of a line behind the `=`. -/
lemma parseFrom_equal (held y : Option CString) (rest : List KeyvalToken) :
    parseFrom held (.equal :: ((y.map .value).toList ++ .newline :: rest)) =
      (held.map fun name => (name, y)).toList ++ keyvalParse rest := by
  cases held with
  | some name => cases y <;> rfl
  | none => cases y <;> simp [parseFrom, keyvalParse]

/-- The call at the end of the file. -/
lemma parseFrom_equal_end (held y : Option CString) :
    parseFrom held (.equal :: (y.map .value).toList) =
      (held.map fun name => (name, y)).toList := by
  cases held with
  | some name => cases y <;> simp [parseFrom, parseLine, keyvalParse]
  | none => cases y <;> simp [parseFrom, keyvalParse]

lemma heldName_white {ws : CString} (hws : ∀ d ∈ ws, isWhite d = true) (held : Option CString)
    (p : CString) : heldName held false (ws ++ p) = heldName held false p := by
  induction ws with
  | nil => rfl
  | cons c ws ih =>
      obtain ⟨hc, hws⟩ := List.forall_mem_cons.mp hws
      rw [List.cons_append, heldName, if_neg (by simp [(of_isWhite hc).2.2.2.2]), if_pos hc, ih hws]

/-- A character that is neither in a word nor white stands for what should be the `=`. -/
lemma heldName_other {c : Char} (hname : isNameChar c = false) (hwhite : isWhite c = false)
    (held : Option CString) (p : CString) :
    heldName held false (c :: p) = heldName none false p := by
  rw [heldName, if_neg (by simp [hname]), if_neg (by simp [hwhite])]

lemma heldName_inWord {word : CString} (hword : ∀ d ∈ word, isNameChar d = true)
    (held : Option CString) {p : CString} (hp : Stops isNameChar p) :
    heldName held true (word ++ p) = heldName (held.map (· ++ word)) false p := by
  induction word generalizing held with
  | nil =>
      have hheld : held.map (· ++ ([] : CString)) = held := by cases held <;> simp
      rw [List.nil_append, hheld]
      cases p with
      | nil => rfl
      | cons c p =>
          rw [stops_cons] at hp
          simp only [heldName, hp, Bool.false_eq_true, if_false]
  | cons c word ih =>
      obtain ⟨hc, hword⟩ := List.forall_mem_cons.mp hword
      rw [List.cons_append, heldName, if_pos hc, if_pos rfl, ih hword]
      cases held <;> simp

lemma heldName_word {word : CString} (hne : word ≠ []) (hword : ∀ d ∈ word, isNameChar d = true)
    (held : Option CString) {p : CString} (hp : Stops isNameChar p) :
    heldName held false (word ++ p) = heldName (nameBehind held (.singleWord word)) false p := by
  obtain ⟨c, word, rfl⟩ := List.exists_cons_of_ne_nil hne
  obtain ⟨hc, hword⟩ := List.forall_mem_cons.mp hword
  rw [List.cons_append, heldName, if_pos hc, if_neg (by decide), heldName_inWord hword _ hp]
  cases held <;> rfl

end Parser

/-! ### Up to the `=` -/

section FrontLemmas

variable {ended inside : Bool} {t u v p w : CString} {c : Char}

lemma lineFront_cons (hopen : c = '/' → t.head? ≠ some '*') : lineFront ended false (c :: t) =
    if c = '\n' then .broken
    else if (c = '=' || opensComment c t) = true ∧ '\n' ∈ t then .broken
    else if c = '=' then .text [] t
    else if (ended && opensComment c t) = true then .noEqual
    else (lineFront ended false t).prepend [c] := by
  rw [lineFront]
  rintro t' rfl rfl
  exact hopen rfl rfl

lemma Front.prepend_prepend (u v : CString) (f : Front) :
    (f.prepend v).prepend u = f.prepend (u ++ v) := by
  cases f with
  | text p w => rw [prepend, prepend, prepend, List.append_assoc]
  | noEqual => rfl
  | broken => rfl

lemma Front.prepend_nil (f : Front) : f.prepend [] = f := by cases f <;> rfl

/-- Characters that mean nothing to the scanner of a line. -/
lemma lineFront_append (hu : ∀ d ∈ u, d ≠ '\n' ∧ d ≠ '=' ∧ d ≠ '#' ∧ d ≠ '/') (v : CString) :
    lineFront ended false (u ++ v) = (lineFront ended false v).prepend u := by
  induction u with
  | nil => exact (Front.prepend_nil _).symm
  | cons c u ih =>
      obtain ⟨⟨hline, hequal, hhash, hslash⟩, hu⟩ := List.forall_mem_cons.mp hu
      have hopens : opensComment c (u ++ v) = false := by simp [opensComment, hhash, hslash]
      rw [List.cons_append, lineFront_cons fun h => absurd h hslash, if_neg hline,
        if_neg (by simp [hequal, hopens]), if_neg hequal, if_neg (by simp [hopens]), ih hu,
        Front.prepend_prepend]
      rfl

lemma Front.prepend_eq_text {f : Front} (h : f.prepend u = .text p v) :
    ∃ q, f = .text q v ∧ p = u ++ q := by
  cases f with
  | text q w =>
      cases h
      exact ⟨q, rfl, rfl⟩
  | noEqual => cases h
  | broken => cases h

/-- What stands behind the `=` is the end of the line. -/
lemma lineFront_text (h : lineFront ended inside t = .text p v) : '\n' ∉ v ∧ v <:+ t := by
  fun_induction lineFront ended inside t generalizing p with
  | case1 t ih =>
      obtain ⟨q, hq, -⟩ := Front.prepend_eq_text h
      exact ⟨(ih hq).1, (ih hq).2.trans ⟨['*', '/'], rfl⟩⟩
  | case2 c t _ ih => exact ⟨(ih h).1, (ih h).2.trans (List.suffix_cons c t)⟩
  | case6 t ih => exact ⟨(ih h).1, (ih h).2.trans ⟨['/', '*'], rfl⟩⟩
  | case9 t _ _ hline =>
      cases h
      exact ⟨fun hv => hline ⟨by simp, hv⟩, List.suffix_cons '=' _⟩
  | case11 c t _ _ _ _ _ ih =>
      obtain ⟨q, hq, -⟩ := Front.prepend_eq_text h
      exact ⟨(ih hq).1, (ih hq).2.trans (List.suffix_cons c t)⟩
  | _ => cases h

/-- What stands in front of the `=` starts like the line. -/
lemma stops_of_front {d : Char → Bool} (hd : d '\n' = false) (ht : Stops d t)
    (h : lineFront ended false t = .text p v) : Stops d p := by
  rcases t with _ | ⟨c, t⟩
  · cases h
  by_cases hopen : c = '/' → t.head? ≠ some '*'
  · rw [lineFront_cons hopen] at h
    split_ifs at h
    · cases h
      exact stops_nil
    · obtain ⟨q, -, rfl⟩ := Front.prepend_eq_text h
      exact stops_cons.mpr (stops_cons.mp ht)
  · rw [Classical.not_imp, not_not] at hopen
    obtain ⟨rfl, hhead⟩ := hopen
    obtain ⟨t, rfl⟩ := List.head?_eq_some_iff.mp hhead
    rw [lineFront, lineFront_inside] at h
    cases hafter : afterBlock t with
    | some u =>
        rw [hafter] at h
        obtain ⟨q, -, rfl⟩ := Front.prepend_eq_text h
        exact stops_cons.mpr hd
    | none =>
        rw [hafter] at h
        dsimp only at h
        split_ifs at h

/-- Without a newline at the end of the line a comment is no less than before. -/
lemma lineFront_of_ended (h : lineFront true inside t = .text p v) :
    lineFront false inside t = .text p v := by
  fun_induction lineFront true inside t generalizing p with
  | case1 t ih =>
      obtain ⟨q, hq, rfl⟩ := Front.prepend_eq_text h
      rw [lineFront, ih hq]
      rfl
  | case2 c t hne ih =>
      rw [lineFront]
      · exact ih h
      · exact hne
  | case6 t ih =>
      rw [lineFront]
      exact ih h
  | case9 t hopen hline hbroken =>
      cases h
      rw [lineFront, if_neg hline, if_neg hbroken, if_pos rfl]
      exact hopen
  | case11 c t hopen hline hbroken hequal _ ih =>
      obtain ⟨q, hq, rfl⟩ := Front.prepend_eq_text h
      rw [lineFront, if_neg hline, if_neg hbroken, if_neg hequal, if_neg (by simp), ih hq]
      · rfl
      · exact hopen
  | _ => cases h

end FrontLemmas

section ReadsFront

variable {ended : Bool} {t u v ws m w : CString} {c : Char} {k : ℕ} {held held' : Option CString}
  {s s' : LexState} {ms : List (Option KeyvalToken × LexState)} {f : Front}

/-- What is behind a line: its newline and the text `w`, or the end of the file. -/
def behind (ended : Bool) (w : CString) : CString := if ended then '\n' :: w else []

@[simp] lemma behind_true (w : CString) : behind true w = '\n' :: w := rfl

@[simp] lemma behind_false (w : CString) : behind false w = [] := rfl

lemma stops_behind {d : Char → Bool} (hd : d '\n' = false) : Stops d (behind ended w) := by
  cases ended with
  | false => exact stops_nil
  | true => exact stops_cons.mpr hd

/-- A line starts with its own characters. -/
lemma head?_of_append_behind (hc : c ≠ '\n') (h : (u ++ behind ended w).head? = some c) :
    u.head? = some c := by
  cases u with
  | nil =>
      cases ended with
      | false => cases h
      | true => exact absurd (Option.some.inj h).symm hc
  | cons d u => exact h

/-- The scanner and the parser come to the first `=` of a line, or to the end of the line. No line
is left out of the count. -/
def ReadsFront (ended : Bool) (w : CString) (held : Option CString) (s : LexState) : Front → Prop
  | .text p v => ∃ ms s', Scans s ms s' ∧ s'.due = s.due ∧ s'.start = .value ∧
      s'.rest = v.dropWhile isWhite ++ behind ended w ∧
      ∀ rest, parseFrom held (keyvalTokens ms ++ rest)
        = parseFrom (heldName held false p) (.equal :: rest)
  | .noEqual => ∃ ms s', Scans s ms s' ∧ s'.due = s.due ∧ (ended = true → s'.start = .initial) ∧
      s'.rest = (behind ended w).tail ∧
      ∀ rest, (ended = false → rest = []) →
        parseFrom held (keyvalTokens ms ++ rest) = keyvalParse rest
  | .broken => True

/-- Some matches in front. -/
lemma ReadsFront.prepend (h : Scans s ms s') (hdue : s'.due = s.due)
    (htokens : ∀ rest, parseFrom held (keyvalTokens ms ++ rest) = parseFrom held' rest)
    (hm : ∀ p v, f = .text p v → heldName held false (m ++ p) = heldName held' false p)
    (hf : ReadsFront ended w held' s' f) : ReadsFront ended w held s (f.prepend m) := by
  cases f with
  | text p v =>
      obtain ⟨ms', s'', hms', hdue', hstart, hrest, hparse⟩ := hf
      refine ⟨_, s'', h.trans hms', hdue'.trans hdue, hstart, hrest, fun rest => ?_⟩
      rw [keyvalTokens_append, List.append_assoc, htokens, hparse, hm p v rfl]
  | noEqual =>
      obtain ⟨ms', s'', hms', hdue', hstart, hrest, hparse⟩ := hf
      refine ⟨_, s'', h.trans hms', hdue'.trans hdue, hstart, hrest, fun rest hend => ?_⟩
      rw [keyvalTokens_append, List.append_assoc, htokens, hparse rest hend]
  | broken => trivial

/-- One match within a line in front. -/
lemma ReadsFront.step {token : Option KeyvalToken} (hne : u ≠ []) (hline : '\n' ∉ u)
    (h : lexStep ⟨.initial, u ++ v, k⟩ = some (token, ⟨.initial, v, k⟩))
    (htoken : ∀ rest, parseFrom held (token.toList ++ rest) = parseFrom held' rest)
    (hm : ∀ p v, f = .text p v → heldName held false (u ++ p) = heldName held' false p)
    (hf : ReadsFront ended w held' ⟨.initial, v, k⟩ f) :
    ReadsFront ended w held ⟨.initial, u ++ v, k⟩ (f.prepend u) := by
  refine ReadsFront.prepend (Scans.single h hne (Nat.le_add_right _ _)) (due_eq hline v k) ?_ hm hf
  rwa [keyvalTokens_singleton]

lemma count_append_newline (hline : '\n' ∉ u) : (u ++ ['\n']).count '\n' = 1 := by
  rw [List.count_append, List.count_eq_zero.mpr hline]
  rfl

/-- The end of a line that is not the last one. -/
lemma readsFront_newline (hline : '\n' ∉ u)
    (h : lexStep ⟨.initial, u ++ '\n' :: w, k⟩ = some (some .newline, ⟨.initial, w, k + 1⟩)) :
    ReadsFront true w held ⟨.initial, u ++ '\n' :: w, k⟩ .noEqual := by
  have hcount := count_append_newline hline
  rw [List.append_cons] at h ⊢
  refine ⟨_, _, Scans.single h (by simp) (by rw [hcount]), ?_, fun _ => rfl, rfl, ?_⟩
  · rw [LexState.due, LexState.due, List.count_append, hcount, Nat.add_assoc]
  · intro rest _
    rw [keyvalTokens_singleton]
    exact parseFrom_newlines (by simp) (by simp) held rest

/-- A blank line, or the blanks at the end of the file. -/
lemma readsFront_blank (hws : ∀ d ∈ ws, isWhite d = true) :
    ReadsFront ended w held ⟨.initial, ws ++ behind ended w, k⟩ .noEqual := by
  have hline : '\n' ∉ ws := fun h => absurd (hws _ h) (by decide)
  cases ended with
  | true => exact readsFront_newline hline (lexStep_newline hws w k)
  | false =>
      have hparse : ∀ rest, (false = false → rest = []) →
          parseFrom held ([] ++ rest) = keyvalParse rest := by
        intro rest hrest
        rw [hrest rfl, List.nil_append, parseFrom_nil, keyvalParse_nil]
      by_cases hne : ws = []
      · rw [hne]
        exact ⟨[], _, Scans.refl _, rfl, fun h => (by cases h), rfl, hparse⟩
      · have hstep := lexStep_white hne hws (v := behind false w) stops_nil (by simp) (by simp) k
        refine ⟨_, _, Scans.single hstep hne (Nat.le_add_right _ _), due_eq hline _ k,
          fun h => (by cases h), rfl, ?_⟩
        rw [keyvalTokens_singleton]
        exact hparse

/-- The `=`, with the whites around it. -/
lemma readsFront_equal (hws : ∀ d ∈ ws, isWhite d = true) :
    ReadsFront ended w held ⟨.initial, ws ++ '=' :: (v ++ behind ended w), k⟩ (.text ws v) := by
  obtain ⟨ws', v', rfl, hws', hv'⟩ := exists_run isWhite v
  have hdrop : (ws' ++ v').dropWhile isWhite = v' := dropWhile_run hws' hv'
  have hstop : Stops isWhite (v' ++ behind ended w) :=
    hv'.append fun _ => stops_behind (by decide)
  have hline : '\n' ∉ ws ++ '=' :: ws' := by
    simp only [List.mem_append, List.mem_cons]
    rintro (h | h | h)
    · exact absurd (hws _ h) (by decide)
    · exact absurd h (by decide)
    · exact absurd (hws' _ h) (by decide)
  have hstep := lexStep_equal hws hws' hstop k
  have htext : ws ++ '=' :: (ws' ++ v' ++ behind ended w)
      = ws ++ '=' :: ws' ++ (v' ++ behind ended w) := by simp
  rw [List.append_assoc] at htext
  rw [htext] at hstep
  rw [List.append_assoc, htext]
  refine ⟨_, _, Scans.single hstep (by simp) (Nat.le_add_right _ _), due_eq hline _ k, rfl, ?_, ?_⟩
  · rw [hdrop]
  · intro rest
    have hheld := heldName_white hws held []
    rw [List.append_nil] at hheld
    rw [keyvalTokens_singleton, hheld]
    rfl

/-- A block comment: it ends the line for the parser. -/
lemma readsFront_block
    (ih : ∀ u k, afterBlock t = some u →
      ReadsFront ended w none ⟨.initial, u ++ behind ended w, k⟩ (lineFront ended false u)) :
    ReadsFront ended w held ⟨.initial, '/' :: '*' :: (t ++ behind ended w), k⟩
      (lineFront ended true t) := by
  have hopen := Scans.single (u := ['/', '*']) (lexStep_open (t ++ behind ended w) k) (by simp)
    (Nat.le_add_right _ _)
  have hdue : LexState.due ⟨.comment, t ++ behind ended w, k⟩
      = LexState.due ⟨.initial, ['/', '*'] ++ (t ++ behind ended w), k⟩ := due_eq (by decide) _ k
  rw [lineFront_inside]
  cases hafter : afterBlock t with
  | none =>
      cases ended with
      | true => trivial
      | false =>
          obtain ⟨ms, s', hms, hdue', htokens, hend⟩ :=
            scansComment (v := behind false w) t (fun _ => rfl) k
          rw [hafter] at hend
          refine ⟨_, s', hopen.trans hms, hdue'.trans hdue, fun h => (by cases h),
            (Prod.ext_iff.mp hend).2, fun rest hrest => ?_⟩
          rw [keyvalTokens_append, keyvalTokens_singleton]
          exact parseFrom_newlines (by simp) (List.forall_mem_cons.mpr ⟨rfl, htokens⟩) held rest
  | some u =>
      obtain ⟨ms, s', hms, hdue', htokens, hend⟩ :=
        scansComment (v := behind ended w) t (fun h => by rw [hafter] at h; cases h) k
      rw [hafter] at hend
      obtain ⟨start, rest, k'⟩ := s'
      obtain ⟨rfl, rfl⟩ := Prod.ext_iff.mp hend
      refine ReadsFront.prepend (hopen.trans hms) (hdue'.trans hdue) ?_ ?_ (ih u k' hafter)
      · intro rest
        rw [keyvalTokens_append, keyvalTokens_singleton]
        exact parseFrom_newlines (by simp) (List.forall_mem_cons.mpr ⟨rfl, htokens⟩) held rest
      · exact fun p v _ => heldName_other (by decide) (by decide) held p

/-- A comment up to the end of the line. -/
lemma readsFront_comment (hopen : opensComment c t = true) (hline : '\n' ∉ t) :
    ReadsFront true w held ⟨.initial, c :: t ++ behind true w, k⟩ .noEqual := by
  rw [opensComment, Bool.or_eq_true, Bool.and_eq_true, decide_eq_true_eq, decide_eq_true_eq,
    decide_eq_true_eq] at hopen
  rcases hopen with rfl | ⟨rfl, hslash⟩
  · refine readsFront_newline ?_ (lexStep_hash hline w k)
    rw [List.mem_cons, not_or]
    exact ⟨by decide, hline⟩
  · obtain ⟨t, rfl⟩ := List.head?_eq_some_iff.mp hslash
    rw [List.mem_cons, not_or] at hline
    refine readsFront_newline ?_ (lexStep_slashes hline.2 w k)
    rw [List.mem_cons, List.mem_cons, not_or, not_or]
    exact ⟨by decide, by decide, hline.2⟩

/-- **Up to the `=`.** -/
lemma readsFront (ended : Bool) (t w : CString) (held : Option CString) (k : ℕ) :
    ReadsFront ended w held ⟨.initial, t ++ behind ended w, k⟩ (lineFront ended false t) := by
  induction hn : t.length using Nat.strong_induction_on generalizing t held k with
  | _ n ih =>
      subst hn
      obtain ⟨ws, u, rfl, hws, hu⟩ := exists_run isWhite t
      have hplain : ∀ d ∈ ws, d ≠ '\n' ∧ d ≠ '=' ∧ d ≠ '#' ∧ d ≠ '/' := by
        intro d hd
        obtain ⟨h₁, h₂, h₃, h₄, -⟩ := of_isWhite (hws d hd)
        exact ⟨h₁, h₂, h₃, h₄⟩
      rw [lineFront_append hplain]
      rcases u with _ | ⟨c, u⟩
      · rw [List.append_nil, lineFront]
        exact readsFront_blank hws
      rw [stops_cons] at hu
      by_cases hline : c = '\n'
      · rw [lineFront_cons (by simp [hline]), if_pos hline]
        trivial
      by_cases hequal : c = '='
      · rw [lineFront_cons (by simp [hequal]), if_neg hline, if_pos hequal]
        split_ifs with hbroken
        · trivial
        · rw [hequal, Front.prepend, List.append_nil, List.append_assoc, List.cons_append]
          exact readsFront_equal hws
      by_cases hne : ws = []
      · subst hne
        rw [Front.prepend_nil, List.nil_append]
        by_cases hname : isNameChar c = true
        · obtain ⟨word, r, hsplit, hwordne, hword, hr⟩ := exists_run_cons hname u
          have hwordplain : ∀ d ∈ word, d ≠ '\n' ∧ d ≠ '=' ∧ d ≠ '#' ∧ d ≠ '/' := by
            intro d hd
            obtain ⟨-, h₁, h₂, h₃, h₄, -⟩ := of_isNameChar (hword d hd)
            exact ⟨h₁, h₂, h₃, h₄⟩
          have hstop : Stops isNameChar (r ++ behind ended w) :=
            hr.append fun _ => stops_behind (by decide)
          have hlen : r.length < (c :: u).length := by
            have := List.length_pos_of_ne_nil hwordne
            rw [hsplit, List.length_append]
            omega
          rw [hsplit, lineFront_append hwordplain, List.append_assoc]
          refine ReadsFront.step hwordne (fun h => (hwordplain _ h).1 rfl)
            (lexStep_word hwordne hword hstop k) ?_ ?_
            (ih r.length hlen r (nameBehind held (.singleWord word)) k rfl)
          · exact parseFrom_cons (by simp) held
          · exact fun p v hfront =>
              heldName_word hwordne hword held (stops_of_front (by decide) hr hfront)
        by_cases hblock : c = '/' ∧ u.head? = some '*'
        · obtain ⟨rfl, hhead⟩ := hblock
          obtain ⟨t, rfl⟩ := List.head?_eq_some_iff.mp hhead
          rw [lineFront]
          refine readsFront_block fun u' k' hu' => ih u'.length ?_ u' none k' rfl
          have := length_of_afterBlock hu'
          simp only [List.nil_append, List.length_cons]
          omega
        have hopen : c = '/' → u.head? ≠ some '*' := fun hc hhead => hblock ⟨hc, hhead⟩
        rw [lineFront_cons hopen, if_neg hline]
        split_ifs with hbroken hended
        · trivial
        · rw [Bool.and_eq_true] at hended
          obtain ⟨rfl, hcomment⟩ := hended
          exact readsFront_comment hcomment fun hu => hbroken ⟨by simp [hcomment], hu⟩
        · have hcomment : opensComment c u = true → '\n' ∉ u ++ behind ended w := by
            intro hc
            rw [hc, Bool.and_true, Bool.not_eq_true] at hended
            rw [hended, behind_false, List.append_nil]
            exact fun hu => hbroken ⟨by simp [hc], hu⟩
          have hnone : nameBehind held .error = none := by cases held <;> rfl
          have hother : isNameChar c = false := by simpa using hname
          refine ReadsFront.step (List.cons_ne_nil c []) (by simpa using Ne.symm hline)
            (lexStep_error hline hu hother hequal ?_ ?_ ?_ k) ?_ ?_
            (ih u.length (by simp) u (nameBehind held .error) k rfl)
          · rintro rfl
            exact hcomment rfl
          · exact fun hc hhead => hopen hc (head?_of_append_behind (by decide) hhead)
          · intro hc hhead
            refine hcomment ?_
            simp [opensComment, hc, head?_of_append_behind (by decide) hhead]
          · exact parseFrom_cons (by simp) held
          · rw [hnone]
            exact fun p v _ => heldName_other hother hu held p
      -- white characters that belong to no other match
      · have hrest := ih (c :: u).length (by simp [List.length_pos_iff.mpr hne]) (c :: u) held k rfl
        rw [List.append_assoc]
        refine ReadsFront.step hne (fun h => (hplain _ h).1 rfl)
          (lexStep_white hne hws ?_ ?_ ?_ k) ?_ ?_ hrest
        · exact stops_cons.mpr hu
        · simpa using hline
        · simpa using hequal
        · exact fun _ => rfl
        · exact fun p _ _ => heldName_white hws held p

end ReadsFront

/-! ### Behind the `=` -/

/-- The value that the scanner returns: the rule for `=` takes the white characters in front of it,
and the rule for values leaves the tabs and spaces behind it. -/
def scannedValue (v : CString) : Option CString :=
  let value := (v.dropWhile isWhite).rdropWhile isBlank
  if value = [] then none else some value

section Value

variable {ended : Bool} {v b w : CString} {k : ℕ}

lemma isWhite_of_isBlank {c : Char} (h : isBlank c = true) : isWhite c = true := by
  simp only [isBlank, Bool.or_eq_true, decide_eq_true_eq] at h
  rcases h with rfl | rfl <;> decide

/-- The scanner comes to the end of the line or file. The newline behind a value is not counted. -/
def ReadsValue (ended : Bool) (w : CString) (tokens : List KeyvalToken) (s : LexState) : Prop :=
  ∃ ms s', Scans s ms s' ∧ s'.rest = (behind ended w).tail ∧ (ended = true → s'.start = .initial) ∧
    s'.due + (if ended then 1 else 0) = s.due ∧
    keyvalTokens ms = tokens ++ if ended then [.newline] else []

/-- The blanks behind the value. -/
lemma readsValue_blanks (hb : ∀ d ∈ b, isBlank d = true) (w : CString) (k : ℕ) :
    ReadsValue ended w [] ⟨.value, b ++ behind ended w, k⟩ := by
  cases ended with
  | true =>
      have hws : ∀ d ∈ b, isWhite d = true := fun d hd => isWhite_of_isBlank (hb d hd)
      have hline : '\n' ∉ b := fun h => absurd (hb _ h) (by decide)
      have hcount := count_append_newline hline
      have hstep := lexStep_valueNewline hws w k
      rw [List.append_cons] at hstep
      rw [behind_true, List.append_cons]
      refine ⟨_, _, Scans.single hstep (by simp) (Nat.le_add_right _ _), rfl, fun _ => rfl, ?_,
        by simp⟩
      have hdue : k + w.count '\n' + 1 = k + (b ++ ['\n'] ++ w).count '\n' := by
        rw [List.count_append, hcount]
        omega
      exact hdue
  | false =>
      induction b with
      | nil => exact ⟨[], _, Scans.refl _, rfl, fun h => (by cases h), rfl, rfl⟩
      | cons c b ih =>
          obtain ⟨hc, hrest⟩ := List.forall_mem_cons.mp hb
          obtain ⟨ms, s', hms, hend, hstart, hdue, htokens⟩ := ih hrest
          have hblank : ∀ d ∈ b ++ behind false w, isBlank d = true := by simpa using hrest
          have hline : '\n' ∉ [c] := by
            rw [List.mem_singleton]
            rintro rfl
            exact absurd hc (by decide)
          have hstep := Scans.single (u := [c]) (lexStep_echo hc hblank k) (by simp)
            (Nat.le_add_right _ _)
          refine ⟨_, s', hstep.trans hms, hend, hstart, ?_, ?_⟩
          · rw [hdue]
            exact due_eq hline _ k
          · rw [keyvalTokens_append, keyvalTokens_singleton, htokens]
            rfl

/-- **Behind the `=`.** -/
lemma readsValue (hline : '\n' ∉ v) (hnull : '\x00' ∉ v) (w : CString) (k : ℕ) :
    ReadsValue ended w ((scannedValue v).map .value).toList
      ⟨.value, v.dropWhile isWhite ++ behind ended w, k⟩ := by
  obtain ⟨ws, q, rfl, hws, hq⟩ := exists_run isWhite v
  have hdrop : (ws ++ q).dropWhile isWhite = q := dropWhile_run hws hq
  rw [scannedValue, hdrop]
  have hsplit := List.rdropWhile_append_rtakeWhile (p := isBlank) (l := q)
  have hb : ∀ d ∈ q.rtakeWhile isBlank, isBlank d = true := fun d hd => List.mem_rtakeWhile_imp hd
  rw [List.mem_append, not_or] at hline hnull
  generalize hy : q.rdropWhile isBlank = y at hsplit ⊢
  generalize q.rtakeWhile isBlank = b at hsplit hb
  subst hsplit
  have hend : ReadsValue ended w [] ⟨.value, b ++ behind ended w, k⟩ := readsValue_blanks hb w k
  by_cases hne : y = []
  · subst hne
    exact hend
  -- the last character of the value is no tab or space
  · have hlast := List.rdropWhile_last_not isBlank (y ++ b) (by rwa [hy])
    simp only [hy] at hlast
    obtain ⟨a, x, rfl⟩ := (List.eq_nil_or_concat' y).resolve_left hne
    rw [List.getLast_append_singleton, Bool.not_eq_true] at hlast
    have hmem : '\n' ∉ a ++ [x] := fun h => hline.2 (List.mem_append_left b h)
    have ha : ∀ d ∈ a, d ≠ '\n' := fun d hd => ne_of_mem_of_not_mem (List.mem_append_left _ hd) hmem
    have hx : x ≠ '\n' := ne_of_mem_of_not_mem (by simp) hmem
    have hfirst : Stops isWhite (a ++ [x]) := by
      intro d hd
      refine hq d ?_
      rw [List.head?_append_of_ne_nil _ hne]
      exact hd
    have hv : ∀ d ∈ (behind ended w).head?, d = '\n' := by
      cases ended with
      | false => exact fun d hd => by cases hd
      | true => exact fun d hd => (Option.some.inj hd).symm
    have hstep := lexStep_value ha hx hlast hb hfirst hv
      (fun h => hnull.2 (List.mem_append_left b h)) k
    obtain ⟨ms, s', hms, hrest, hstart, hdue, htokens⟩ := hend
    rw [if_neg hne, List.append_assoc (a ++ [x])]
    refine ⟨_, s', (Scans.single hstep hne (Nat.le_add_right _ _)).trans hms, hrest, hstart, ?_, ?_⟩
    · rw [hdue]
      exact due_eq hmem _ k
    · rw [keyvalTokens_append, keyvalTokens_singleton, htokens]
      rfl

end Value

/-! ### Whole lines -/

/-- The call of the callback for a line. -/
def callOf (ended : Bool) (t : CString) : Option Assignment :=
  match lineFront ended false t with
  | .text p v => (heldName none false p).map fun name => (name, scannedValue v)
  | _ => none

/-- The lines of the text that are left out of the count. -/
def uncounted (ended : Bool) (t : CString) : ℕ :=
  if (ended && (lineFront ended false t).hasEqual) = true then 1 else 0

/-- **A line**: the call of the callback, and the lines that are left out of the count. -/
lemma scansLine {ended : Bool} {t : CString} (h : lineFront ended false t ≠ .broken)
    (hnull : '\x00' ∉ t) (w : CString) (k : ℕ) :
    ∃ ms s', Scans ⟨.initial, t ++ behind ended w, k⟩ ms s' ∧
      s'.rest = (behind ended w).tail ∧ (ended = true → s'.start = .initial) ∧
      s'.due + uncounted ended t = LexState.due ⟨.initial, t ++ behind ended w, k⟩ ∧
      ∀ rest, (ended = false → rest = []) →
        keyvalParse (keyvalTokens ms ++ rest) = (callOf ended t).toList ++ keyvalParse rest := by
  have hread := readsFront ended t w none k
  rw [callOf, uncounted]
  cases hfront : lineFront ended false t with
  | broken => exact absurd hfront h
  | noEqual =>
      rw [hfront] at hread
      obtain ⟨ms, s', hms, hdue, hstart, hrest, hparse⟩ := hread
      refine ⟨ms, s', hms, hrest, hstart, ?_, hparse⟩
      rw [Front.hasEqual, Bool.and_false]
      exact hdue
  | text p v =>
      rw [hfront] at hread
      obtain ⟨ms, s', hms, hdue, hstart, hrest, hparse⟩ := hread
      obtain ⟨start, rest', k'⟩ := s'
      obtain rfl : start = .value := hstart
      obtain rfl : rest' = v.dropWhile isWhite ++ behind ended w := hrest
      obtain ⟨hline, hsuffix⟩ := lineFront_text hfront
      obtain ⟨ms', s'', hms', hend, hstart', hdue', htokens⟩ :=
        readsValue hline (fun h => hnull (hsuffix.mem h)) w k'
      refine ⟨_, s'', hms.trans hms', hend, hstart', ?_, fun rest hrest => ?_⟩
      · rw [Front.hasEqual, Bool.and_true, hdue', hdue]
      · rw [keyvalTokens_append, List.append_assoc]
        refine (hparse (keyvalTokens ms' ++ rest)).trans ?_
        rw [htokens]
        cases ended with
        | true =>
            rw [if_pos rfl, List.append_assoc]
            exact parseFrom_equal _ _ _
        | false =>
            rw [hrest rfl, if_neg (by decide), List.append_nil, List.append_nil,
              parseFrom_equal_end, keyvalParse_nil, List.append_nil]

end Ocoms
