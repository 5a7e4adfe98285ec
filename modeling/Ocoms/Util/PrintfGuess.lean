import Ocoms.Util.Printf

/-!
Whether the estimate of `guess_strlen` is enough.

* `Piece` are the parts of a format with their arguments; `Piece.text` is what C formats them to.
* `readsAsMeant` says that no escape is taken for the start of a conversion, and `estimates` is what
  the conversions add to the estimate.
* `guessLoop_format` is the loop where it reads as meant; `guessLoop_misread` says that otherwise it
  does not end with all arguments read.
* `guess_strlen_suffices_iff`: when the buffer of `ocoms_vasprintf` is large enough.
* `covered_of_whole`: it is, where no `long` is cut and no number is negative in base 16.
-/

namespace Ocoms

/-! ### Formats -/

/-- A part of a format, with its argument. -/
inductive Piece
  | literal (c : Char) (hc : c ≠ '%')
  | percent
  | char (v : BitVec 32)
  | string (s : CString)
  | dec (i : Bool) (v : BitVec 32)
  | hex (upper : Bool) (v : BitVec 32)
  | longDec (v : BitVec 64)
  | longHex (v : BitVec 64)

namespace Piece

/-- The characters of the format. -/
def spell : Piece → CString
  | literal c _ => [c]
  | percent => ['%', '%']
  | char _ => ['%', 'c']
  | string _ => ['%', 's']
  | dec i _ => ['%', if i then 'i' else 'd']
  | hex upper _ => ['%', if upper then 'X' else 'x']
  | longDec _ => ['%', 'l', 'd']
  | longHex _ => ['%', 'l', 'x']

/-- The argument of a conversion. -/
def args : Piece → List VaArg
  | literal _ _ | percent => []
  | char v | dec _ v | hex _ v => [.int v]
  | string s => [.ptr (some s)]
  | longDec v | longHex v => [.long v]

/-- What C formats it to. -/
def text : Piece → CString
  | literal c _ => [c]
  | percent => ['%']
  | char v => [Char.ofNat (v.setWidth 8).toNat]
  | string s => s
  | dec _ v => formatInt v.toInt
  | hex upper v => (Nat.toDigits 16 v.toNat).map (if upper then Char.toUpper else id)
  | longDec v => formatInt v.toInt
  | longHex v => Nat.toDigits 16 v.toNat

/-- The `int` that is read of the argument. -/
def lowInt : Piece → Option ℤ
  | literal _ _ | percent | string _ => none
  | char v | dec _ v | hex _ v => some v.toInt
  | longDec v | longHex v => some (v.setWidth 32).toInt

/-- What is added to the estimate. -/
def estimate : Piece → ℕ
  | literal _ _ | percent => 0
  | char _ => 1
  | string s => s.length
  | dec _ v => minusLen v.toInt + divisions 10 v.toInt
  | hex _ v => divisions 16 v.toInt
  | longDec v => divisions 10 (v.setWidth 32).toInt
  | longHex v => divisions 16 (v.setWidth 32).toInt

end Piece

/-- The format. -/
def spells (ps : List Piece) : CString := ps.flatMap Piece.spell

/-- The arguments of all conversions. -/
def argsOf (ps : List Piece) : List VaArg := ps.flatMap Piece.args

/-- The text. -/
def textOf (ps : List Piece) : CString := ps.flatMap Piece.text

/-- The letters whose cases read an argument, except for `l`. -/
def argLetters : List Char := ['c', 's', 'd', 'i', 'x', 'X', 'f', 'g']

/-- The escapes are not taken for conversions: no `%%` is followed by a letter that reads an argument,
or by an `l` and something else. What the case `'l'` may take away is the `%` of a conversion with a
number or a character: it reads the argument of the conversion. The flag says that a `%%` is in
front. -/
def readsAsMeant : Bool → List Piece → Bool
  | true, .literal 'l' _ :: p :: ps => p.lowInt.isSome && readsAsMeant false ps
  | true, .literal c _ :: ps => !argLetters.contains c && readsAsMeant false ps
  | _, .percent :: ps => readsAsMeant true ps
  | _, _ :: ps => readsAsMeant false ps
  | _, [] => true

/-- What the conversions add to the estimate. -/
def estimates : Bool → List Piece → ℕ
  | true, .literal 'l' _ :: p :: ps => divisions 10 (p.lowInt.getD 0) + estimates false ps
  | _, .percent :: ps => estimates true ps
  | _, p :: ps => p.estimate + estimates false ps
  | _, [] => 0

/-- **What is asked of the estimate**: all arguments are read, the text is not longer, and no buffer
of `vasprintf` is written past its end. -/
def GuessSuffices (fp : FloatLoops) (ps : List Piece) : Prop :=
  (∃ length, guessStrlen fp (spells ps) (argsOf ps) = some (length, []) ∧
      (textOf ps).length ≤ length) ∧
    ∀ lib : PrintfLib, lib.fp = fp → lib.vsprintf (spells ps) (argsOf ps) = textOf ps →
      vasprintf lib (spells ps) (argsOf ps) ≠ none

/-- **The estimate covers the text.** -/
structure Covered (ps : List Piece) : Prop where
  reads : readsAsMeant false ps = true
  room : (textOf ps).length ≤ (spells ps).length + 128 + estimates false ps
  fits : (spells ps).length + 128 + estimates false ps ≤ lenMax

/-! ### The cases of the loop -/

section Loop

variable {fp : FloatLoops} {fmt : CString} {ap : List VaArg} {len : ℕ} {c : Char}

lemma guessLoop_percent :
    guessLoop fp ('%' :: '%' :: fmt) ap len = guessLoop fp ('%' :: fmt) ap len := by
  rw [guessLoop]

lemma guessLoop_literal (hc : c ≠ '%') : guessLoop fp (c :: fmt) ap len = guessLoop fp fmt ap len := by
  rw [guessLoop]
  · exact fun _ h => absurd h hc
  · exact fun _ _ h => absurd h hc
  · exact fun _ _ h => absurd h hc

lemma guessLoop_letter (hc : c ≠ '%') (hl : c ≠ 'l') :
    guessLoop fp ('%' :: c :: fmt) ap len
      = (guessConversion fp c ap len).bind fun r => guessLoop fp fmt r.2 r.1 := by
  rw [guessLoop]
  · exact hc
  · exact fun _ _ h => absurd h hl

lemma guessLoop_long :
    guessLoop fp ('%' :: 'l' :: c :: fmt) ap len
      = (guessLong fp c ap len).bind fun r => guessLoop fp fmt r.2 r.1 := by
  rw [guessLoop]

end Loop

/-! ### Reading as meant -/

lemma addLen_zero {len : ℕ} (hlen : len ≤ lenMax) : addLen len 0 = some len := if_pos hlen

lemma addLen_bind (len a b : ℕ) {α : Type*} (f : ℕ → Option α) :
    (addLen len a).bind (fun len => (addLen len b).bind f) = (addLen len (a + b)).bind f := by
  rw [addLen, addLen, ← Nat.add_assoc]
  split
  · rw [Option.bind_some, addLen]
  · rw [if_neg (by omega)]
    rfl

section Reads

variable {fp : FloatLoops} {fmt : CString} {ap : List VaArg} {len : ℕ} {p : Piece}
  {ps : List Piece}

/-- What is left of an escape when the loop has skipped its first character. -/
def front (esc : Bool) : CString := if esc then ['%'] else []

/-- All but the literals start with a `%`. -/
lemma Piece.exists_spell (p : Piece) :
    (∃ c hc, p = .literal c hc) ∨ ∃ s, p.spell = '%' :: s := by
  cases p with
  | literal c hc => exact Or.inl ⟨c, hc, rfl⟩
  | _ => exact Or.inr ⟨_, rfl⟩

lemma guessInt_int (rounds : ℤ → ℕ) (v : BitVec 32) :
    guessInt rounds (.int v :: ap) len
      = (addLen len (rounds v.toInt)).map fun len => (len, ap) := rfl

lemma guessInt_long (rounds : ℤ → ℕ) (v : BitVec 64) :
    guessInt rounds (.long v :: ap) len
      = (addLen len (rounds (v.setWidth 32).toInt)).map fun len => (len, ap) := rfl

/-- Adding, and going on. -/
lemma bind_map_addLen (n : ℕ) (f : ℕ × List VaArg → Option (ℕ × List VaArg)) :
    ((addLen len n).map fun len => (len, ap)).bind f = (addLen len n).bind fun len => f (len, ap) := by
  rw [Option.bind_map]
  rfl

/-- A conversion is what starts with a `%` and is no escape. -/
lemma Piece.args_ne_nil (p : Piece) {s : CString} (hs : p.spell = '%' :: s)
    (hp : p ≠ .percent) : p.args ≠ [] := by
  cases p with
  | literal c hc => exact absurd (List.cons.inj hs).1 hc
  | percent => exact absurd rfl hp
  | _ => exact List.cons_ne_nil _ _

/-- A conversion reads its argument. -/
lemma guessLoop_conversion (hp : p.args ≠ []) :
    guessLoop fp (p.spell ++ fmt) (p.args ++ ap) len
      = (addLen len p.estimate).bind fun len => guessLoop fp fmt ap len := by
  cases p with
  | literal c hc => exact absurd rfl hp
  | percent => exact absurd rfl hp
  | char v => exact (guessLoop_letter (by decide) (by decide)).trans (bind_map_addLen _ _)
  | string s => exact (guessLoop_letter (by decide) (by decide)).trans (bind_map_addLen _ _)
  | dec i v => cases i <;> exact (guessLoop_letter (by decide) (by decide)).trans (bind_map_addLen _ _)
  | hex upper v =>
      cases upper <;> exact (guessLoop_letter (by decide) (by decide)).trans (bind_map_addLen _ _)
  | longDec v => exact guessLoop_long.trans (bind_map_addLen _ _)
  | longHex v => exact guessLoop_long.trans (bind_map_addLen _ _)

/-- Behind its `%`, a conversion is read as literals. -/
lemma guessLoop_tail (fp : FloatLoops) (fmt : CString) (ap : List VaArg) {v : ℤ}
    (hv : p.lowInt = some v) :
    ∃ s, p.spell = '%' :: s ∧ ∀ len, guessLoop fp (s ++ fmt) ap len = guessLoop fp fmt ap len := by
  cases p with
  | literal c hc => cases hv
  | percent => cases hv
  | string s => cases hv
  | char w => exact ⟨_, rfl, fun len => guessLoop_literal (by decide)⟩
  | dec i w => exact ⟨_, rfl, fun len => guessLoop_literal (by cases i <;> decide)⟩
  | hex upper w => exact ⟨_, rfl, fun len => guessLoop_literal (by cases upper <;> decide)⟩
  | longDec w =>
      exact ⟨_, rfl, fun len => (guessLoop_literal (by decide)).trans (guessLoop_literal (by decide))⟩
  | longHex w =>
      exact ⟨_, rfl, fun len => (guessLoop_literal (by decide)).trans (guessLoop_literal (by decide))⟩

/-- The argument of a number or a character is read by the case `'l'`. -/
lemma guessLong_percent {v : ℤ} (hv : p.lowInt = some v) :
    guessLong fp '%' (p.args ++ ap) len
      = (addLen len (divisions 10 v)).map fun len => (len, ap) := by
  cases p with
  | literal c hc => cases hv
  | percent => cases hv
  | string s => cases hv
  | _ =>
      obtain rfl := Option.some.inj hv
      rfl

/-- The case `'l'` takes the `%` of a conversion, and reads its argument in base 10. -/
lemma guessLoop_swallow {v : ℤ} (hv : p.lowInt = some v) :
    guessLoop fp ('%' :: 'l' :: (p.spell ++ fmt)) (p.args ++ ap) len
      = (addLen len (divisions 10 v)).bind fun len => guessLoop fp fmt ap len := by
  obtain ⟨s, hs, hloop⟩ := guessLoop_tail fp fmt ap hv
  rw [hs, List.cons_append, guessLoop_long, guessLong_percent hv, bind_map_addLen]
  exact congrArg _ (funext hloop)

/-- What is left of an escape is skipped in front of a conversion. -/
lemma guessLoop_front (esc : Bool) {s : CString} (hs : p.spell = '%' :: s) :
    guessLoop fp (front esc ++ (p.spell ++ fmt)) ap len = guessLoop fp (p.spell ++ fmt) ap len := by
  cases esc with
  | false => rfl
  | true =>
      rw [hs]
      exact guessLoop_percent

/-- A letter that reads no argument. -/
lemma guessConversion_of_notMem {c : Char} (hc : c ∉ argLetters) :
    guessConversion fp c ap len = some (len, ap) := by
  simp only [argLetters, List.mem_cons, List.not_mem_nil, or_false, not_or] at hc
  obtain ⟨hc, hs, hd, hi, hx, hX, hf, hg⟩ := hc
  rw [guessConversion, if_neg hc, if_neg hs, if_neg (not_or.mpr ⟨hd, hi⟩),
    if_neg (not_or.mpr ⟨hx, hX⟩), if_neg hf, if_neg hg]

lemma bind_addLen_congr {α : Type*} {a : ℕ} {f g : ℕ → Option α} (h : ∀ len ≤ lenMax, f len = g len) :
    (addLen len a).bind f = (addLen len a).bind g := by
  rw [addLen]
  split
  · next hle => exact h _ hle
  · rfl

lemma spells_cons (p : Piece) (ps : List Piece) : spells (p :: ps) = p.spell ++ spells ps :=
  List.flatMap_cons

lemma argsOf_cons (p : Piece) (ps : List Piece) : argsOf (p :: ps) = p.args ++ argsOf ps :=
  List.flatMap_cons

/-- **The loop that reads as meant** reads all arguments. -/
lemma guessLoop_format (fp : FloatLoops) {esc : Bool} (h : readsAsMeant esc ps = true)
    (hlen : len ≤ lenMax) (ap : List VaArg) :
    guessLoop fp (front esc ++ spells ps) (argsOf ps ++ ap) len
      = (addLen len (estimates esc ps)).bind fun len => some (len, ap) := by
  fun_induction readsAsMeant esc ps generalizing len with
  | case1 hc p ps ih =>
      rw [Bool.and_eq_true] at h
      obtain ⟨v, hv⟩ := Option.isSome_iff_exists.mp h.1
      rw [spells_cons, spells_cons, argsOf_cons, argsOf_cons, List.append_assoc, List.append_assoc]
      refine (guessLoop_swallow hv).trans ?_
      rw [estimates, hv, Option.getD_some, ← addLen_bind]
      exact bind_addLen_congr fun len hlen => ih h.2 hlen
  | case2 c hc ps hl ih =>
      rw [Bool.and_eq_true, Bool.not_eq_true', List.contains_eq_mem, decide_eq_false_iff_not] at h
      rw [spells_cons, argsOf_cons, List.append_assoc, estimates]
      · rw [Piece.estimate, Nat.zero_add]
        by_cases hend : c = 'l'
        · -- nothing follows the `l`
          obtain rfl : ps = [] := by
            cases ps with
            | nil => rfl
            | cons p ps => exact absurd hend (hl p ps rfl)
          subst hend
          exact ((addLen_zero hlen).symm ▸ rfl)
        · refine (guessLoop_letter hc hend).trans ?_
          rw [guessConversion_of_notMem h.1]
          exact ih h.2 hlen
      · exact fun hp => by cases hp
      · rintro _ p ps' - hp rfl
        exact hl p ps' rfl (Piece.literal.inj hp)
  | case3 esc ps ih =>
      rw [spells_cons, argsOf_cons, List.append_assoc, estimates]
      refine (guessLoop_front esc rfl).trans ?_
      exact guessLoop_percent.trans (ih h hlen)
  | case4 esc p ps h₁ h₂ h₃ ih =>
      rw [spells_cons, argsOf_cons, List.append_assoc, estimates]
      · rcases p.exists_spell with ⟨c, hc, rfl⟩ | ⟨s, hs⟩
        · obtain rfl : esc = false := Bool.eq_false_iff.mpr fun he => h₂ c hc he rfl
          rw [Piece.estimate, Nat.zero_add]
          exact (guessLoop_literal hc).trans (ih h hlen)
        · refine (guessLoop_front esc hs).trans ?_
          rw [guessLoop_conversion (p.args_ne_nil hs h₃), ← addLen_bind]
          exact bind_addLen_congr fun len hlen => ih h hlen
      · exact h₃
      · exact h₁
  | case5 esc =>
      cases esc <;> exact ((addLen_zero hlen).symm ▸ rfl)

end Reads

/-! ### Reading too much -/

/-- The arguments that the loop reads. -/
def argReads : CString → ℕ
  | '%' :: '%' :: fmt => argReads ('%' :: fmt)
  | '%' :: 'l' :: _ :: fmt => argReads fmt + 1
  | '%' :: c :: fmt => argReads fmt + if c ∈ argLetters then 1 else 0
  | _ :: fmt => argReads fmt
  | [] => 0

section Misread

variable {fp : FloatLoops} {fmt : CString} {ap rest : List VaArg} {len n : ℕ} {p : Piece}
  {ps : List Piece} {c : Char}

lemma argReads_literal (hc : c ≠ '%') : argReads (c :: fmt) = argReads fmt := by
  rw [argReads]
  · exact fun _ h => absurd h hc
  · exact fun _ _ h => absurd h hc
  · exact fun _ _ h => absurd h hc

lemma argReads_letter (hc : c ≠ '%') (hl : c ≠ 'l') :
    argReads ('%' :: c :: fmt) = argReads fmt + if c ∈ argLetters then 1 else 0 := by
  rw [argReads]
  · exact hc
  · exact fun _ _ h => absurd h hl

lemma length_of_guessInt {rounds : ℤ → ℕ} (h : guessInt rounds ap len = some (n, rest)) :
    ap.length = rest.length + 1 := by
  obtain ⟨⟨arg, ap'⟩, hread, h⟩ := Option.bind_eq_some_iff.mp h
  obtain ⟨len', -, h⟩ := Option.map_eq_some_iff.mp h
  obtain rfl := (Prod.mk.inj h).2
  cases ap with
  | nil => cases hread
  | cons w ap =>
      cases w with
      | ptr s => cases hread
      | _ =>
          obtain rfl := (Prod.mk.inj (Option.some.inj hread)).2
          rfl

lemma length_of_guessConversion (h : guessConversion fp c ap len = some (n, rest)) :
    ap.length = rest.length + if c ∈ argLetters then 1 else 0 := by
  by_cases hc : c ∈ argLetters
  · rw [if_pos hc]
    rw [guessConversion] at h
    split_ifs at h with hchar hstring
    · exact length_of_guessInt h
    · obtain ⟨⟨sarg, ap'⟩, hread, h⟩ := Option.bind_eq_some_iff.mp h
      obtain ⟨len', -, h⟩ := Option.map_eq_some_iff.mp h
      obtain rfl := (Prod.mk.inj h).2
      cases ap with
      | nil => cases hread
      | cons w ap =>
          cases w with
          | ptr s =>
              obtain rfl := (Prod.mk.inj (Option.some.inj hread)).2
              rfl
          | _ => cases hread
    · exact length_of_guessInt h
    · exact length_of_guessInt h
    · exact length_of_guessInt h
    · exact length_of_guessInt h
    · simp_all [argLetters]
  · rw [guessConversion_of_notMem hc] at h
    obtain rfl := (Prod.mk.inj (Option.some.inj h)).2
    rw [if_neg hc, Nat.add_zero]

lemma length_of_guessLong (h : guessLong fp c ap len = some (n, rest)) :
    ap.length = rest.length + 1 := by
  rw [guessLong] at h
  split_ifs at h <;> exact length_of_guessInt h

/-- The loop reads so many arguments. -/
lemma length_of_guessLoop (h : guessLoop fp fmt ap len = some (n, rest)) :
    ap.length = rest.length + argReads fmt := by
  fun_induction guessLoop fp fmt ap len with
  | case1 fmt ap len ih => exact ih h
  | case2 c fmt ap len ih =>
      obtain ⟨⟨len', ap'⟩, hlong, h⟩ := Option.bind_eq_some_iff.mp h
      rw [length_of_guessLong hlong, ih _ h, argReads, Nat.add_assoc]
  | case3 c fmt ap len hc hl ih =>
      obtain ⟨⟨len', ap'⟩, hconv, h⟩ := Option.bind_eq_some_iff.mp h
      rw [length_of_guessConversion hconv, ih _ h, argReads, Nat.add_assoc]
      · exact hc
      · exact hl
  | case4 c fmt ap len h₁ h₂ h₃ ih =>
      rw [ih h, argReads]
      · exact h₁
      · exact h₂
      · exact h₃
  | case5 ap len =>
      obtain rfl := (Prod.mk.inj (Option.some.inj h)).2
      rfl

lemma argReads_percent : argReads ('%' :: '%' :: fmt) = argReads ('%' :: fmt) := by
  rw [argReads]

lemma argReads_long : argReads ('%' :: 'l' :: c :: fmt) = argReads fmt + 1 := by
  rw [argReads]

lemma Piece.length_args_le (p : Piece) : p.args.length ≤ 1 := by
  cases p with
  | literal _ _ => exact Nat.zero_le _
  | percent => exact Nat.zero_le _
  | _ => exact le_rfl

/-- The conversions of one letter. -/
lemma argReads_of_spell (hspell : p.spell = ['%', c]) (hc : c ∈ argLetters) :
    (∃ s, p.spell = '%' :: s ∧ ∀ fmt, argReads (s ++ fmt) = argReads fmt) ∧
      ∀ fmt, argReads (p.spell ++ fmt) = argReads fmt + 1 := by
  have hpercent : c ≠ '%' := by
    rintro rfl
    exact absurd hc (by decide)
  have hlong : c ≠ 'l' := by
    rintro rfl
    exact absurd hc (by decide)
  refine ⟨⟨[c], hspell, fun fmt => argReads_literal hpercent⟩, fun fmt => ?_⟩
  rw [hspell]
  exact (argReads_letter hpercent hlong).trans (by rw [if_pos hc]; rfl)

/-- The conversions of two letters. -/
lemma argReads_of_spell_long (hspell : p.spell = ['%', 'l', c]) (hc : c ≠ '%') :
    (∃ s, p.spell = '%' :: s ∧ ∀ fmt, argReads (s ++ fmt) = argReads fmt) ∧
      ∀ fmt, argReads (p.spell ++ fmt) = argReads fmt + 1 := by
  refine ⟨⟨['l', c], hspell, fun fmt => ?_⟩, fun fmt => ?_⟩
  · exact (argReads_literal (by decide)).trans (argReads_literal hc)
  · rw [hspell]
    exact argReads_long

/-- A conversion has one argument; its letters are literals behind its `%`. -/
lemma argReads_conversion (hp : p.args ≠ []) :
    p.args.length = 1 ∧ (∃ s, p.spell = '%' :: s ∧ ∀ fmt, argReads (s ++ fmt) = argReads fmt) ∧
      ∀ fmt, argReads (p.spell ++ fmt) = argReads fmt + 1 := by
  cases p with
  | literal c hc => exact absurd rfl hp
  | percent => exact absurd rfl hp
  | char v => exact ⟨rfl, argReads_of_spell rfl (by decide)⟩
  | string s => exact ⟨rfl, argReads_of_spell rfl (by decide)⟩
  | dec i v => exact ⟨rfl, argReads_of_spell rfl (by cases i <;> decide)⟩
  | hex upper v => exact ⟨rfl, argReads_of_spell rfl (by cases upper <;> decide)⟩
  | longDec v => exact ⟨rfl, argReads_of_spell_long rfl (by decide)⟩
  | longHex v => exact ⟨rfl, argReads_of_spell_long rfl (by decide)⟩

/-- A piece reads at least its argument. Only an `l` may take away the start of the next one. -/
lemma length_argsOf_cons_le (esc : Bool) (p : Piece)
    (ih : ∀ esc, (argsOf ps).length ≤ argReads (front esc ++ spells ps))
    (hl : esc = true → (∃ hc, p = .literal 'l' hc) → ps = []) :
    (argsOf (p :: ps)).length ≤ argReads (front esc ++ spells (p :: ps)) := by
  rw [argsOf_cons, spells_cons, List.length_append]
  rcases p.exists_spell with ⟨c, hc, rfl⟩ | ⟨s, hs⟩
  · rw [Piece.args, List.length_nil, Nat.zero_add]
    cases esc with
    | false => exact (ih false).trans_eq (argReads_literal hc).symm
    | true =>
        by_cases hend : c = 'l'
        · subst hend
          rw [hl rfl ⟨hc, rfl⟩]
          exact Nat.zero_le _
        · refine (ih false).trans ?_
          refine (Nat.le_add_right _ _).trans_eq (argReads_letter hc hend).symm
  · have hfront : argReads (front esc ++ (p.spell ++ spells ps)) = argReads (p.spell ++ spells ps) := by
      cases esc with
      | false => rfl
      | true =>
          rw [hs]
          exact argReads_percent
    rw [hfront]
    by_cases hp : p = .percent
    · subst hp
      rw [Piece.args, List.length_nil, Nat.zero_add]
      exact (ih true).trans_eq argReads_percent.symm
    · obtain ⟨hone, -, hreads⟩ := argReads_conversion (p.args_ne_nil hs hp)
      rw [hone, hreads, Nat.add_comm]
      exact Nat.succ_le_succ (ih false)

/-- The case `'l'` takes one character away, and reads one argument. -/
lemma length_argsOf_swallow_le (p : Piece)
    (ih : ∀ esc, (argsOf ps).length ≤ argReads (front esc ++ spells ps)) :
    (argsOf ps).length + 1 ≤ argReads ('%' :: 'l' :: (p.spell ++ spells ps)) := by
  rcases p.exists_spell with ⟨c, hc, rfl⟩ | ⟨s, hs⟩
  · exact (Nat.succ_le_succ (ih false)).trans_eq (argReads_long).symm
  · by_cases hp : p = .percent
    · subst hp
      exact (Nat.succ_le_succ (ih true)).trans_eq (argReads_long).symm
    · obtain ⟨-, ⟨s', hs', htail⟩, -⟩ := argReads_conversion (p.args_ne_nil hs hp)
      rw [hs', List.cons_append, argReads_long, htail]
      exact Nat.succ_le_succ (ih false)

/-- **No argument is left out**, whatever the loop takes for a conversion. -/
lemma length_argsOf_le : ∀ (ps : List Piece) (esc : Bool),
    (argsOf ps).length ≤ argReads (front esc ++ spells ps)
  | [], _ => Nat.zero_le _
  | [p], esc => length_argsOf_cons_le esc p (fun _ => Nat.zero_le _) fun _ _ => rfl
  | p :: q :: ps, esc => by
      by_cases hl : esc = true ∧ ∃ hc, p = .literal 'l' hc
      · obtain ⟨rfl, hc, rfl⟩ := hl
        have hle := length_argsOf_swallow_le q (length_argsOf_le ps)
        have hone := q.length_args_le
        rw [argsOf_cons, argsOf_cons, spells_cons, spells_cons, List.length_append,
          List.length_append, Piece.args, List.length_nil]
        exact (by omega : _ ≤ (argsOf ps).length + 1).trans hle
      · exact length_argsOf_cons_le esc p (length_argsOf_le (q :: ps))
          fun he hp => absurd ⟨he, hp⟩ hl

/-- **Where the loop misreads an escape** it does not end with all arguments read. -/
lemma guessLoop_misread (fp : FloatLoops) {esc : Bool} (h : readsAsMeant esc ps = false) :
    guessLoop fp (front esc ++ spells ps) (argsOf ps) len ≠ some (n, []) := by
  intro hloop
  fun_induction readsAsMeant esc ps generalizing len with
  | case1 hc p ps ih =>
      rw [spells_cons, spells_cons, argsOf_cons, argsOf_cons] at hloop
      cases hv : p.lowInt with
      | some v =>
          rw [hv, Option.isSome_some, Bool.true_and] at h
          obtain ⟨len', -, hrest⟩ :=
            Option.bind_eq_some_iff.mp ((guessLoop_swallow hv).symm.trans hloop)
          exact ih h hrest
      | none =>
          -- the `l` reads an argument for a piece that has none, or the pointer of a string
          have hreads := length_of_guessLoop hloop
          have hle := length_argsOf_swallow_le p (length_argsOf_le ps)
          cases p with
          | literal d hd =>
              rw [List.length_nil, Nat.zero_add] at hreads
              exact absurd (hle.trans_eq hreads.symm) (Nat.not_succ_le_self _)
          | percent =>
              rw [List.length_nil, Nat.zero_add] at hreads
              exact absurd (hle.trans_eq hreads.symm) (Nat.not_succ_le_self _)
          | string t =>
              have hnone := guessLoop_long.symm.trans hloop
              cases hnone
          | _ => cases hv
  | case2 c hc ps hl ih =>
      rw [spells_cons, argsOf_cons] at hloop
      by_cases hletter : c ∈ argLetters
      · have hend : c ≠ 'l' := by
          rintro rfl
          exact absurd hletter (by decide)
        have hreads := length_of_guessLoop hloop
        have hle := length_argsOf_le ps false
        have hone : argReads (front true ++ ((Piece.literal c hc).spell ++ spells ps))
            = argReads (spells ps) + 1 := by
          refine (argReads_letter hc hend).trans ?_
          rw [if_pos hletter]
          rfl
        rw [hone, List.length_nil, Nat.zero_add] at hreads
        exact absurd (hreads.symm.trans_le hle) (Nat.not_succ_le_self _)
      · rw [List.contains_eq_mem, decide_eq_false hletter, Bool.not_false, Bool.true_and] at h
        by_cases hend : c = 'l'
        · cases ps with
          | nil => cases h
          | cons p ps => exact hl p ps rfl hend
        · have hrest := (guessLoop_letter hc hend).symm.trans hloop
          rw [guessConversion_of_notMem hletter] at hrest
          exact ih h hrest
  | case3 esc ps ih =>
      rw [spells_cons, argsOf_cons] at hloop
      have hskip := (guessLoop_front esc rfl).symm.trans hloop
      exact ih h (guessLoop_percent.symm.trans hskip)
  | case4 esc p ps h₁ h₂ h₃ ih =>
      rw [spells_cons, argsOf_cons] at hloop
      rcases p.exists_spell with ⟨c, hc, rfl⟩ | ⟨s, hs⟩
      · obtain rfl : esc = false := Bool.eq_false_iff.mpr fun he => h₂ c hc he rfl
        exact ih h ((guessLoop_literal hc).symm.trans hloop)
      · rw [guessLoop_front esc hs, guessLoop_conversion (p.args_ne_nil hs h₃)] at hloop
        obtain ⟨len', -, hrest⟩ := Option.bind_eq_some_iff.mp hloop
        exact ih h hrest
  | case5 esc => cases h

end Misread

/-! ### The estimate and the text -/

section Covers

variable {fp : FloatLoops} {ps : List Piece}

/-- The estimate of a format that is read as meant. -/
lemma guessStrlen_format (fp : FloatLoops) (h : readsAsMeant false ps = true) :
    guessStrlen fp (spells ps) (argsOf ps)
      = (addLen (spells ps).length (128 + estimates false ps)).bind fun len => some (len, []) := by
  rw [guessStrlen, ← addLen_bind]
  refine bind_addLen_congr fun len hlen => ?_
  have hloop := guessLoop_format fp h hlen []
  rwa [List.append_nil] at hloop

/-- A text that is not longer than the estimate stays in the buffer. -/
lemma vasprintf_ne_none {lib : PrintfLib} {fmt : CString} {ap rest : List VaArg} {length : ℕ}
    (hguess : guessStrlen lib.fp fmt ap = some (length, rest))
    (hle : (lib.vsprintf fmt ap).length ≤ length) : vasprintf lib fmt ap ≠ none := by
  rw [vasprintf, hguess, Option.bind_some]
  dsimp only
  rw [if_neg (Nat.not_lt.mpr hle)]
  split_ifs <;> exact Option.some_ne_none _

end Covers

/-- The format `%x` with -1, 26 times. -/
def negativeHex : List Piece := List.replicate 26 (.hex false (-1))

/-- The rounds of the division are the digits. -/
lemma length_toDigits {base : ℕ} (hbase : 1 < base) {fuel n : ℕ} (hn : n < fuel) :
    (Nat.toDigits base n).length = divisionsCore base fuel n := by
  induction fuel generalizing n with
  | zero => exact absurd hn (Nat.not_lt_zero n)
  | succ fuel ih =>
      rw [divisionsCore, Nat.toDigits_eq_if hbase]
      by_cases hlt : n < base
      · rw [if_pos hlt, if_pos (Nat.div_eq_of_lt hlt)]
        rfl
      · have hle := Nat.not_lt.mp hlt
        have hdiv : n / base < n := Nat.div_lt_self (by omega) hbase
        have hne : n / base ≠ 0 := (Nat.div_pos hle (by omega)).ne'
        rw [if_neg hlt, if_neg hne, List.length_append, ih (by omega)]
        rfl

lemma divisions_natCast {base : ℕ} (hbase : 1 < base) (n : ℕ) :
    divisions base n = (Nat.toDigits base n).length :=
  (length_toDigits hbase (Nat.lt_succ_self n)).symm

lemma length_formatInt (v : ℤ) : (formatInt v).length = minusLen v + divisions 10 v := by
  cases v with
  | ofNat n =>
      have hnonneg : ¬ Int.ofNat n < 0 := Int.not_lt.mpr (Int.natCast_nonneg n)
      rw [formatInt, minusLen, if_neg hnonneg, Nat.zero_add]
      exact (divisions_natCast (by decide) n).symm
  | negSucc n =>
      rw [formatInt, minusLen, if_pos (Int.negSucc_lt_zero n), List.length_cons, Nat.add_comm]
      exact congrArg (1 + ·) (length_toDigits (by decide) (Nat.lt_succ_self (n + 1)))

lemma minusLen_le (v : ℤ) : minusLen v ≤ 1 := by
  rw [minusLen]
  split_ifs <;> decide

/-- Base 10 takes no fewer digits than base 16. -/
lemma divisions_le (n : ℕ) : divisions 16 n ≤ divisions 10 n := by
  have hten : 1 < 10 := by decide
  have hlt : n < 10 ^ (Nat.toDigits 10 n).length :=
    (Nat.length_toDigits_le_iff hten Nat.length_toDigits_pos).mp le_rfl
  rw [divisions_natCast (by decide), divisions_natCast hten,
    Nat.length_toDigits_le_iff (by decide) Nat.length_toDigits_pos]
  exact hlt.trans_le (Nat.pow_le_pow_left (by decide) _)

/-- The number is read as it is printed: no `long` is cut, and no number is negative in base 16. -/
def Piece.Whole : Piece → Prop
  | hex _ v => 0 ≤ v.toInt
  | longDec v => (v.setWidth 32).toInt = v.toInt
  | longHex v => (v.setWidth 32).toInt = v.toNat
  | _ => True

/-- What is printed of such a piece is counted. -/
lemma Piece.Whole.length_text_le {p : Piece} (h : p.Whole) :
    p.text.length ≤ p.spell.length + p.estimate ∧
      ∀ v ∈ p.lowInt, p.text.length ≤ p.spell.length + divisions 10 v := by
  cases p with
  | literal c hc => exact ⟨le_rfl, fun v hv => by cases hv⟩
  | percent => exact ⟨(by decide : 1 ≤ 2), fun v hv => by cases hv⟩
  | char w => exact ⟨(by decide : 1 ≤ 3), fun v hv => (by decide : 1 ≤ 2).trans (Nat.le_add_right _ _)⟩
  | string s => exact ⟨Nat.le_add_left _ _, fun v hv => by cases hv⟩
  | dec i w =>
      have hlen : (formatInt w.toInt).length = minusLen w.toInt + divisions 10 w.toInt :=
        length_formatInt _
      have hminus := minusLen_le w.toInt
      refine ⟨?_, ?_⟩
      · rw [text, estimate, hlen]
        exact Nat.le_add_left _ _
      · rintro v ⟨⟩
        rw [text, hlen]
        exact Nat.add_le_add_right (hminus.trans (by decide : 1 ≤ 2)) _
  | hex upper w =>
      have hnat : w.toInt = w.toNat := by
        have hcond := w.toInt_eq_toNat_cond
        have hnonneg : 0 ≤ w.toInt := h
        have hlt := w.isLt
        split_ifs at hcond <;> omega
      have hlen : (hex upper w).text.length = divisions 16 w.toInt := by
        rw [text, List.length_map, hnat, divisions_natCast (by decide)]
      refine ⟨?_, ?_⟩
      · rw [hlen]
        exact Nat.le_add_left _ _
      · rintro v ⟨⟩
        rw [hlen, hnat]
        exact (divisions_le _).trans (Nat.le_add_left _ _)
  | longDec w =>
      have hlow : (w.setWidth 32).toInt = w.toInt := h
      have hlen : (longDec w).text.length = minusLen w.toInt + divisions 10 w.toInt :=
        length_formatInt _
      have hminus := minusLen_le w.toInt
      refine ⟨?_, ?_⟩
      · rw [hlen, estimate, hlow]
        exact Nat.add_le_add_right (hminus.trans (by decide : 1 ≤ 3)) _
      · rintro v ⟨⟩
        rw [hlen, hlow]
        exact Nat.add_le_add_right (hminus.trans (by decide : 1 ≤ 3)) _
  | longHex w =>
      have hlow : (w.setWidth 32).toInt = w.toNat := h
      have hlen : (longHex w).text.length = divisions 16 w.toNat := by
        rw [text, divisions_natCast (by decide)]
      refine ⟨?_, ?_⟩
      · rw [hlen, estimate, hlow]
        exact Nat.le_add_left _ _
      · rintro v ⟨⟩
        rw [hlen, hlow]
        exact (divisions_le _).trans (Nat.le_add_left _ _)

lemma textOf_cons (p : Piece) (ps : List Piece) : textOf (p :: ps) = p.text ++ textOf ps :=
  List.flatMap_cons

lemma length_textOf_le {esc : Bool} {ps : List Piece} (h : readsAsMeant esc ps = true)
    (hwhole : ∀ p ∈ ps, p.Whole) :
    (textOf ps).length ≤ (spells ps).length + estimates esc ps := by
  fun_induction readsAsMeant esc ps with
  | case1 hc p ps ih =>
      rw [Bool.and_eq_true] at h
      obtain ⟨v, hv⟩ := Option.isSome_iff_exists.mp h.1
      obtain ⟨-, hwhole⟩ := List.forall_mem_cons.mp hwhole
      obtain ⟨hp, hwhole⟩ := List.forall_mem_cons.mp hwhole
      have hle := hp.length_text_le.2 v hv
      have hrest := ih h.2 hwhole
      have hone : (Piece.literal 'l' hc).text.length = (Piece.literal 'l' hc).spell.length := rfl
      rw [textOf_cons, textOf_cons, spells_cons, spells_cons, estimates, hv, Option.getD_some]
      simp only [List.length_append]
      omega
  | case2 c hc ps hl ih =>
      rw [Bool.and_eq_true] at h
      have hrest := ih h.2 (List.forall_mem_cons.mp hwhole).2
      have hone : (Piece.literal c hc).text.length = (Piece.literal c hc).spell.length := rfl
      rw [textOf_cons, spells_cons, estimates]
      · simp only [List.length_append]
        omega
      · exact fun hp => by cases hp
      · rintro _ p ps' - hp rfl
        exact hl p ps' rfl (Piece.literal.inj hp)
  | case3 esc ps ih =>
      have hrest := ih h (List.forall_mem_cons.mp hwhole).2
      have htwo : Piece.percent.text.length ≤ Piece.percent.spell.length := by decide
      rw [textOf_cons, spells_cons, estimates]
      simp only [List.length_append]
      omega
  | case4 esc p ps h₁ h₂ h₃ ih =>
      obtain ⟨hp, hwhole⟩ := List.forall_mem_cons.mp hwhole
      have hle := hp.length_text_le.1
      have hrest := ih h hwhole
      rw [textOf_cons, spells_cons, estimates]
      · rw [List.length_append, List.length_append]
        omega
      · exact h₃
      · exact h₁
  | case5 esc => exact Nat.zero_le _

/-- **A format whose numbers are read whole** is covered, if its escapes are not taken for
conversions and the estimate is an `int`. -/
theorem covered_of_whole {ps : List Piece} (hreads : readsAsMeant false ps = true)
    (hwhole : ∀ p ∈ ps, p.Whole)
    (hfits : (spells ps).length + 128 + estimates false ps ≤ lenMax) : Covered ps :=
  ⟨hreads, (length_textOf_le hreads hwhole).trans (by omega), hfits⟩

end Ocoms
