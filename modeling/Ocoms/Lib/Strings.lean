import Mathlib.Data.Int.Notation
import Mathlib.Data.List.Basic
import Mathlib.Tactic.Common
import Mathlib.Tactic.IntervalCases

/-!
Text functions of the C library, on strings that are lists of characters.

* `strtoull` and `strtol` read a number, with the base taken from the text when it is 0, and return
  the rest of the text. `formatInt` and `formatNat` write one in base 10.
* `scanNumber_formatNat` and `scanNumber_neg_formatNat`: what is written is read again.
* `strstr` finds the first occurrence of a string in another one, and returns what is before and
  behind it.
-/

namespace Ocoms

/-- A C string: the characters in front of the null character. -/
abbrev CString := List Char

instance : LawfulBEq CString := inferInstanceAs (LawfulBEq (List Char))

/-! ### Numbers -/

/-- `isspace`. -/
def isSpace (c : Char) : Bool := c = ' ' || ('\t' ≤ c && c ≤ '\r')

/-- The value of a character in the bases up to 36. -/
def digitValue (c : Char) : Option ℕ :=
  if c.isDigit then some (c.toNat - '0'.toNat)
  else if c.isLower then some (c.toNat - 'a'.toNat + 10)
  else if c.isUpper then some (c.toNat - 'A'.toNat + 10)
  else none

/-- The character is a digit of the base. -/
def isDigitOf (base : ℕ) (c : Char) : Bool := (digitValue c).any (· < base)

/-- The digits at the front, behind those that are worth `value` already. -/
def scanDigits (base value : ℕ) : CString → ℕ × CString
  | [] => (value, [])
  | c :: cs =>
      match digitValue c with
      | some d => if d < base then scanDigits base (base * value + d) cs else (value, c :: cs)
      | none => (value, c :: cs)

/-- The base that the text has, and the text behind the prefix that says so. -/
def scanBase : ℕ → CString → ℕ × CString
  | 0, '0' :: x :: c :: cs =>
      if (x = 'x' ∨ x = 'X') ∧ isDigitOf 16 c then (16, c :: cs) else (8, '0' :: x :: c :: cs)
  | 0, '0' :: cs => (8, '0' :: cs)
  | 0, cs => (10, cs)
  | base + 1, cs => (base + 1, cs)

/-- A sign at the front. -/
def scanSign : CString → Bool × CString
  | '-' :: cs => (true, cs)
  | '+' :: cs => (false, cs)
  | cs => (false, cs)

/-- A number that was read: its sign, its magnitude, and the text behind it. -/
structure Scanned where
  negative : Bool
  magnitude : ℕ
  rest : CString
  deriving DecidableEq

/-- The digits at the front, if there are any, and the text behind them. -/
def scanMagnitude (base : ℕ) (src : CString) : Option (ℕ × CString) :=
  let (base, cs) := scanBase base src
  if cs.head?.any (isDigitOf base) then some (scanDigits base 0 cs) else none

/-- What `strtoull` and `strtol` read. Without a digit they read nothing at all. -/
def scanNumber (base : ℕ) (src : CString) : Scanned :=
  let (negative, cs) := scanSign (src.dropWhile isSpace)
  match scanMagnitude base cs with
  | some (magnitude, rest) => ⟨negative, magnitude, rest⟩
  | none => ⟨false, 0, src⟩

/-- `strtoull`, with an `unsigned long long` of 64 bits, and what `endptr` is set to. -/
def strtoull (base : ℕ) (src : CString) : BitVec 64 × CString :=
  let n := scanNumber base src
  if 2 ^ 64 ≤ n.magnitude then (BitVec.allOnes 64, n.rest)
  else if n.negative then (-BitVec.ofNat 64 n.magnitude, n.rest)
  else (BitVec.ofNat 64 n.magnitude, n.rest)

/-- `strtol`, with a `long` of 64 bits, and what `endptr` is set to. -/
def strtol (base : ℕ) (src : CString) : BitVec 64 × CString :=
  let n := scanNumber base src
  if n.negative then
    (if 2 ^ 63 ≤ n.magnitude then BitVec.intMin 64 else -BitVec.ofNat 64 n.magnitude, n.rest)
  else
    (if 2 ^ 63 ≤ n.magnitude then BitVec.intMax 64 else BitVec.ofNat 64 n.magnitude, n.rest)

/-- The formats `%u`, `%lu`, `%llu` and `%zu`. -/
def formatNat (n : ℕ) : CString := Nat.toDigits 10 n

/-- The format `%d`. -/
def formatInt : ℤ → CString
  | Int.ofNat n => formatNat n
  | Int.negSucc n => '-' :: formatNat (n + 1)

lemma digitValue_of_isDigit {c : Char} (hc : c.isDigit) : digitValue c = some (c.toNat - 48) := by
  rw [digitValue, if_pos hc]
  rfl

lemma toNat_sub_lt_of_isDigit {c : Char} (hc : c.isDigit) : c.toNat - 48 < 10 := by
  rw [Char.isDigit, Bool.and_eq_true, decide_eq_true_eq, decide_eq_true_eq] at hc
  have hle : c.toNat ≤ 57 := hc.2
  omega

lemma isDigitOf_ten_of_isDigit {c : Char} (hc : c.isDigit) : isDigitOf 10 c := by
  rw [isDigitOf, digitValue_of_isDigit hc]
  exact decide_eq_true (toNat_sub_lt_of_isDigit hc)

/-- A text of digits is read to its end. -/
lemma scanDigits_ten {cs : CString} (hcs : ∀ c ∈ cs, c.isDigit) (value : ℕ) :
    scanDigits 10 value cs = (Nat.ofDigitChars 10 cs value, []) := by
  induction cs generalizing value with
  | nil => rw [scanDigits, Nat.ofDigitChars_nil]
  | cons c cs ih =>
      have hc : c.isDigit := hcs c List.mem_cons_self
      rw [scanDigits, digitValue_of_isDigit hc, Nat.ofDigitChars_cons]
      dsimp only
      rw [if_pos (toNat_sub_lt_of_isDigit hc), ih fun x hx => hcs x (List.mem_cons_of_mem _ hx)]
      rfl

lemma isDigit_of_mem_formatNat {n : ℕ} {c : Char} (hc : c ∈ formatNat n) : c.isDigit :=
  Nat.isDigit_of_mem_toDigits (by decide) (by decide) hc

/-- No number but 0 is written with a 0 in front. -/
lemma head_formatNat_ne_zero {n : ℕ} (hn : 0 < n) : ∃ c cs, formatNat n = c :: cs ∧ c ≠ '0' := by
  induction n using Nat.base_induction 10 (by decide) with
  | single m hm =>
      refine ⟨m.digitChar, [], Nat.toDigits_of_lt_base hm, ?_⟩
      interval_cases m <;> decide
  | digit m k hk hm ih =>
      obtain ⟨c, cs, hcs, hc⟩ := ih hm
      refine ⟨c, cs ++ formatNat k, ?_, hc⟩
      rw [formatNat, ← Nat.toDigits_append_toDigits (by decide) hm hk, ← formatNat, hcs]
      rfl

lemma exists_cons_formatNat (n : ℕ) : ∃ c cs, formatNat n = c :: cs ∧ c.isDigit := by
  obtain ⟨c, cs, hcs⟩ := List.exists_cons_of_ne_nil (Nat.toDigits_ne_nil : formatNat n ≠ [])
  exact ⟨c, cs, hcs, isDigit_of_mem_formatNat (hcs ▸ List.mem_cons_self)⟩

lemma scanBase_formatNat {n : ℕ} (hn : 0 < n) : scanBase 0 (formatNat n) = (10, formatNat n) := by
  obtain ⟨c, cs, hcs, hc⟩ := head_formatNat_ne_zero hn
  rw [hcs, scanBase]
  · intro x d ds h
    exact hc (List.cons.inj h).1
  · intro ds h
    exact hc (List.cons.inj h).1

lemma isSpace_of_isDigit {c : Char} (hc : c.isDigit) : isSpace c = false := by
  rw [Char.isDigit, Bool.and_eq_true, decide_eq_true_eq, decide_eq_true_eq] at hc
  have hge : 48 ≤ c.toNat := hc.1
  refine Bool.or_eq_false_iff.mpr ⟨decide_eq_false ?_, Bool.and_eq_false_iff.mpr (Or.inr ?_)⟩
  · rintro rfl
    exact absurd hge (by decide)
  · refine decide_eq_false fun hle => ?_
    have hle' : c.toNat ≤ 13 := hle
    omega

lemma dropWhile_isSpace_of_not {c : Char} (cs : CString) (hc : isSpace c = false) :
    (c :: cs).dropWhile isSpace = c :: cs :=
  List.dropWhile_cons_of_neg (by rw [hc]; exact Bool.false_ne_true)

lemma scanSign_formatNat (n : ℕ) : scanSign (formatNat n) = (false, formatNat n) := by
  obtain ⟨c, cs, hcs, hc⟩ := exists_cons_formatNat n
  rw [hcs, scanSign]
  · intro ds h
    obtain rfl := (List.cons.inj h).1
    exact absurd hc (by decide)
  · intro ds h
    obtain rfl := (List.cons.inj h).1
    exact absurd hc (by decide)

lemma scanMagnitude_formatNat (n : ℕ) : scanMagnitude 0 (formatNat n) = some (n, []) := by
  rcases Nat.eq_zero_or_pos n with rfl | hn
  · decide
  · obtain ⟨c, cs, hcs, hc⟩ := exists_cons_formatNat n
    have hhead : ((formatNat n).head?.any (isDigitOf 10)) = true := by
      rw [hcs]
      exact isDigitOf_ten_of_isDigit hc
    rw [scanMagnitude, scanBase_formatNat hn]
    dsimp only
    rw [if_pos hhead, scanDigits_ten fun _ => isDigit_of_mem_formatNat, formatNat,
      Nat.ofDigitChars_ten_toDigits]

/-- **What `%u` writes is read again.** -/
lemma scanNumber_formatNat (n : ℕ) : scanNumber 0 (formatNat n) = ⟨false, n, []⟩ := by
  obtain ⟨c, cs, hcs, hc⟩ := exists_cons_formatNat n
  have hdrop : (formatNat n).dropWhile isSpace = formatNat n := by
    rw [hcs, dropWhile_isSpace_of_not cs (isSpace_of_isDigit hc)]
  rw [scanNumber, hdrop, scanSign_formatNat]
  dsimp only
  rw [scanMagnitude_formatNat]

/-- **What `%d` writes of a negative number is read again.** -/
lemma scanNumber_neg_formatNat (n : ℕ) : scanNumber 0 ('-' :: formatNat n) = ⟨true, n, []⟩ := by
  rw [scanNumber, dropWhile_isSpace_of_not _ (by decide), scanSign]
  dsimp only
  rw [scanMagnitude_formatNat]

lemma strtoull_formatNat {n : ℕ} (hn : n < 2 ^ 64) :
    strtoull 0 (formatNat n) = (BitVec.ofNat 64 n, []) := by
  rw [strtoull, scanNumber_formatNat]
  dsimp only
  rw [if_neg (Nat.not_le.mpr hn), if_neg Bool.false_ne_true]

/-- **What `%d` writes is read by `strtoull`**, in two's complement. -/
lemma strtoull_formatInt {n : ℤ} (hlo : -2 ^ 64 < n) (hhi : n < 2 ^ 64) :
    strtoull 0 (formatInt n) = (BitVec.ofInt 64 n, []) := by
  cases n with
  | ofNat n =>
      have hn : n < 2 ^ 64 := by simpa using hhi
      rw [formatInt, strtoull_formatNat hn]
      exact congrArg (·, []) (BitVec.ofInt_natCast 64 n).symm
  | negSucc n =>
      have hn : n + 1 < 2 ^ 64 := by omega
      have hneg : -BitVec.ofNat 64 (n + 1) = BitVec.ofInt 64 (Int.negSucc n) := by
        rw [Int.negSucc_eq, BitVec.ofInt_neg, ← BitVec.ofInt_natCast]
        rfl
      rw [formatInt, strtoull, scanNumber_neg_formatNat]
      dsimp only
      rw [if_neg (Nat.not_le.mpr hn), if_pos rfl, hneg]

/-! ### Comparing and searching -/

/-- `strcasecmp` finds the strings equal. -/
def strcaseeq (s t : CString) : Bool := s.map Char.toLower = t.map Char.toLower

/-- `strncasecmp` finds the first `n` characters equal. -/
def strncaseeq (n : ℕ) (s t : CString) : Bool := strcaseeq (s.take n) (t.take n)

/-- `strstr`: the text before the first occurrence of the needle, and the text behind it. -/
def strstr (needle : CString) : CString → Option (CString × CString)
  | [] => if needle = [] then some ([], []) else none
  | c :: cs =>
      if needle.isPrefixOf (c :: cs) then some ([], (c :: cs).drop needle.length)
      else (strstr needle cs).map fun p => (c :: p.1, p.2)

lemma eq_append_of_strstr {needle s before after : CString}
    (h : strstr needle s = some (before, after)) : s = before ++ needle ++ after := by
  induction s generalizing before with
  | nil =>
      rw [strstr] at h
      split at h
      · next hnil =>
          cases h
          rw [hnil]
          rfl
      · cases h
  | cons c cs ih =>
      rw [strstr] at h
      split at h
      · next hpre =>
          cases h
          obtain ⟨t, ht⟩ := List.isPrefixOf_iff_prefix.mp hpre
          rw [← ht, List.drop_left, List.nil_append]
      · obtain ⟨p, hp, heq⟩ := Option.map_eq_some_iff.mp h
        cases heq
        rw [ih hp]
        rfl

/-- The occurrence that is found is the first one. -/
lemma not_prefix_of_strstr {needle s before after : CString}
    (h : strstr needle s = some (before, after)) (k : ℕ) (hk : k < before.length) :
    ¬ needle <+: s.drop k := by
  induction s generalizing before k with
  | nil =>
      rw [strstr] at h
      split at h
      · cases h
        exact absurd hk (Nat.not_lt_zero k)
      · cases h
  | cons c cs ih =>
      rw [strstr] at h
      split at h
      · cases h
        exact absurd hk (Nat.not_lt_zero k)
      · next hpre =>
        obtain ⟨p, hp, heq⟩ := Option.map_eq_some_iff.mp h
        cases heq
        cases k with
        | zero => exact fun hneedle => hpre (List.isPrefixOf_iff_prefix.mpr hneedle)
        | succ k => exact ih hp k (Nat.lt_of_succ_lt_succ hk)

lemma strstr_eq_none_iff {needle s : CString} : strstr needle s = none ↔ ¬ needle <:+: s := by
  induction s with
  | nil =>
      rw [strstr, List.infix_nil]
      split
      · next hnil => simp [hnil]
      · next hnil => simp [hnil]
  | cons c cs ih =>
      rw [strstr, List.infix_cons_iff, not_or]
      split
      · next hpre => simp [List.isPrefixOf_iff_prefix.mp hpre]
      · next hpre =>
          rw [Option.map_eq_none_iff, ih, and_iff_right]
          exact fun h => hpre (List.isPrefixOf_iff_prefix.mpr h)

end Ocoms
