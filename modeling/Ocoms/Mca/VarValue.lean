import Mathlib.Data.BitVec
import Ocoms.Mca.VarGroup

/-!
The values of MCA variables: how they are read from a text (`var_set_from_string` of
`mca_base_var.c`), and how they are written (`var_value_string`).

* `VarEnum` are the enumerators of `mca_base_var_enum.c`.
* `setString` replaces `~/` in a string. Its loop may be endless: `setString_eq_none_iff` says when.
* `value_round_trip_iff` says which values are read again as they are written.
-/

namespace Ocoms

/-! ### Enumerators -/

/-- `ocoms_mca_base_var_enum_t`: the enumerator of `bool`, or one that was created from a list of
values and their names. -/
inductive VarEnum
  | bool
  | values (entries : List (BitVec 32 × CString))
  deriving DecidableEq

namespace VarEnum

/-- An entry matches a text, as a number or by its name. -/
def Matches (src : CString) (entry : BitVec 32 × CString) : Bool :=
  ((strtol 0 src).2 = [] && (strtol 0 src).1.setWidth 32 = entry.1) || strcaseeq src entry.2

/-- The field `value_from_string`. -/
def valueFromString : VarEnum → CString → Except Rc (BitVec 32)
  | .bool, src =>
      let (v, rest) := strtol 10 src
      let v := v.setWidth 32
      if rest = [] then .ok (if v = 0 then 0 else 1)
      else if src ∈ ["true".toList, "t".toList, "enabled".toList] then .ok 1
      else if src ∈ ["false".toList, "f".toList, "disabled".toList] then .ok 0
      else .error .valueOutOfBounds
  | .values entries, src =>
      match entries.find? (Matches src) with
      | some entry => .ok entry.1
      | none => .error .valueOutOfBounds

/-- The field `string_from_value`. -/
def stringFromValue : VarEnum → BitVec 32 → Except Rc CString
  | .bool, value => .ok (if value = 0 then "false".toList else "true".toList)
  | .values entries, value =>
      match entries.find? fun entry => entry.1 = value with
      | some entry => .ok entry.2
      | none => .error .valueOutOfBounds

end VarEnum

/-! ### Values -/

variable {D : Type*}

/-- What the variables need of the platform: the home directory, and the functions for a `double`,
of the type `D`. -/
structure Platform (D : Type*) where
  home : Option CString
  strtod : CString → D
  formatDouble : D → CString

/-- `ocoms_mca_base_var_storage_t`, with the type of the value that is in it. -/
inductive VarValue (D : Type*)
  | int (x : BitVec 32)
  | unsignedInt (x : BitVec 32)
  | unsignedLong (x : BitVec 64)
  | unsignedLongLong (x : BitVec 64)
  | sizeT (x : BitVec 64)
  | string (s : Option CString)
  | bool (b : Bool)
  | double (x : D)

/-- The type of a value. -/
def VarValue.type : VarValue D → VarType
  | .int _ => .int
  | .unsignedInt _ => .unsignedInt
  | .unsignedLong _ => .unsignedLong
  | .unsignedLongLong _ => .unsignedLongLong
  | .sizeT _ => .sizeT
  | .string _ => .string
  | .bool _ => .bool
  | .double _ => .double

/-- `":~/"`. -/
def colonHome : CString := [':', '~', '/']

/-- What stands for `~/` behind a colon. -/
def homePrefix : Option CString → CString
  | some home => ':' :: (home ++ ['/'])
  | none => [':']

/-- The loop of `var_set_string`. What is before the `:~/` is lost, since `p` is never set. -/
def expandColons (home : Option CString) : ℕ → CString → Option CString
  | 0, _ => none
  | fuel + 1, value =>
      match strstr colonHome value with
      | none => some value
      | some (_, after) => expandColons home fuel (homePrefix home ++ after)

/-- The `~/` at the front of a string in `var_set_string`. -/
def expandFront (home : Option CString) : CString → CString
  | '~' :: '/' :: after =>
      match home with
      | some home => home ++ '/' :: after
      | none => after
  | value => value

/-- `var_set_string`: what the string is set to, or `none` if the loop has no end. -/
def setString (home : Option CString) (value : Option CString) : Option (Option CString) :=
  match value with
  | none => some none
  | some [] => some none
  | some value =>
      let value := expandFront home value
      (expandColons home (value.length + 1) value).map some

/-- The suffixes of `int_from_string`. -/
def suffixShift : Option Char → ℕ
  | some 'G' => 30
  | some 'g' => 30
  | some 'M' => 20
  | some 'm' => 20
  | some 'K' => 10
  | some 'k' => 10
  | _ => 0

/-- `int_from_string`, where `value_out` is 0 before. -/
def intFromString (src : Option CString) (enumerator : Option VarEnum) :
    Except Rc (BitVec 64) :=
  match src, enumerator with
  | none, _ => .ok 0
  | some [], _ => .ok 0
  | some src, some enumerator =>
      match enumerator.valueFromString src with
      | .error rc => .error rc
      | .ok value => .ok (value.signExtend 64)
  | some src, none =>
      let (value, rest) := strtoull 0 src
      .ok (if rest ≠ [] ∧ rest ≠ src then value <<< suffixShift rest.head? else value)

/-- The bits that an `int` must not have. -/
def highMask : BitVec 64 := 0xffffffff00000000#64

/-- What `var_set_from_string` writes to the storage for an integer. -/
def VarValue.ofBits : VarType → BitVec 64 → Option (VarValue D)
  | .int, x => some (.int (x.setWidth 32))
  | .unsignedInt, x => some (.unsignedInt (x.setWidth 32))
  | .unsignedLong, x => some (.unsignedLong x)
  | .unsignedLongLong, x => some (.unsignedLongLong x)
  | .sizeT, x => some (.sizeT x)
  | .bool, x => some (.bool (x ≠ 0))
  | .string, _ => none
  | .double, _ => none

/-- `var_set_from_string`: the value that is stored, or an error. It is `none` if the function does
not return. -/
def setFromString (c : Platform D) (type : VarType) (enumerator : Option VarEnum)
    (src : Option CString) : Option (Except Rc (VarValue D)) :=
  match type with
  | .double => some (.ok (.double (c.strtod (src.getD []))))
  | .string => (setString c.home src).map fun value => .ok (.string value)
  | type =>
      match intFromString src enumerator with
      | .error rc => some (.error rc)
      | .ok value =>
          if type = .int ∧ value &&& highMask ≠ 0 then some (.error .valueOutOfBounds)
          else some ((VarValue.ofBits type value).elim (.error .error) .ok)

/-- `var_value_string`. Only integer variables have enumerators, as the registration asserts, and
those of the type `bool` have one of their own. -/
def VarValue.valueString (c : Platform D) (enumerator : Option VarEnum) :
    VarValue D → Except Rc CString
  | .int x =>
      match enumerator with
      | some enumerator => enumerator.stringFromValue x
      | none => .ok (formatInt x.toInt)
  | .unsignedInt x => .ok (formatNat x.toNat)
  | .unsignedLong x => .ok (formatNat x.toNat)
  | .unsignedLongLong x => .ok (formatNat x.toNat)
  | .sizeT x => .ok (formatNat x.toNat)
  | .string s => .ok (s.getD [])
  | .bool b => VarEnum.bool.stringFromValue (if b then 1 else 0)
  | .double x => .ok (c.formatDouble x)

/-! ### The expansion of strings -/

/-- The loop goes on where what it puts in contains what it looks for. -/
def ExpandsForever (home : Option CString) : Prop := colonHome <:+: homePrefix home

lemma expandColons_of_no_home {home : Option CString} {value : CString}
    (h : ¬ colonHome <:+: value) (fuel : ℕ) : expandColons home (fuel + 1) value = some value := by
  rw [expandColons, strstr_eq_none_iff.mpr h]

/-- Each pass leaves less behind the part that was put in. -/
lemma expandColons_homePrefix {home : Option CString} (hhome : ¬ ExpandsForever home) (fuel : ℕ)
    (after : CString) (hfuel : after.length < fuel) :
    ∃ r, expandColons home fuel (homePrefix home ++ after) = some r ∧ ¬ colonHome <:+: r := by
  induction fuel generalizing after with
  | zero => exact absurd hfuel (Nat.not_lt_zero _)
  | succ fuel ih =>
      cases hfind : strstr colonHome (homePrefix home ++ after) with
      | none =>
          have hno := strstr_eq_none_iff.mp hfind
          exact ⟨_, expandColons_of_no_home hno fuel, hno⟩
      | some p =>
          obtain ⟨before, after'⟩ := p
          have heq := eq_append_of_strstr hfind
          have hlt : after'.length < after.length := by
            by_contra hge
            refine hhome ?_
            have hpre : before ++ colonHome <+: homePrefix home := by
              have hfirst : before ++ colonHome <+: homePrefix home ++ after := ⟨after', heq.symm⟩
              refine List.prefix_of_prefix_length_le hfirst (List.prefix_append _ _) ?_
              have hlen := congrArg List.length heq
              simp only [List.length_append] at hlen ⊢
              omega
            exact (List.suffix_append before colonHome).isInfix.trans hpre.isInfix
          rw [expandColons, hfind]
          exact ih after' (by omega)

/-- The loop has no end where it puts in what it looks for. -/
lemma expandColons_eq_none {home : Option CString} (hhome : ExpandsForever home) (fuel : ℕ)
    {value : CString} (hvalue : colonHome <:+: value) : expandColons home fuel value = none := by
  induction fuel generalizing value with
  | zero => rfl
  | succ fuel ih =>
      cases hfind : strstr colonHome value with
      | none => exact absurd hvalue (strstr_eq_none_iff.mp hfind)
      | some p =>
          rw [expandColons, hfind]
          exact ih (hhome.trans (List.prefix_append _ _).isInfix)

/-- **The loop ends**, unless it puts in what it looks for. -/
lemma expandColons_eq_none_iff {home : Option CString} {value : CString} :
    expandColons home (value.length + 1) value = none ↔
      colonHome <:+: value ∧ ExpandsForever home := by
  constructor
  · intro hnone
    cases hfind : strstr colonHome value with
    | none =>
        rw [expandColons, hfind] at hnone
        cases hnone
    | some p =>
        obtain ⟨before, after⟩ := p
        refine ⟨by_contra fun hno => ?_, by_contra fun hhome => ?_⟩
        · rw [strstr_eq_none_iff.mpr hno] at hfind
          cases hfind
        · have hlen := congrArg List.length (eq_append_of_strstr hfind)
          simp only [List.length_append, colonHome, List.length_cons, List.length_nil] at hlen
          obtain ⟨r, hr, -⟩ := expandColons_homePrefix hhome value.length after (by omega)
          rw [expandColons, hfind] at hnone
          dsimp only at hnone
          rw [hnone] at hr
          cases hr
  · rintro ⟨hvalue, hhome⟩
    exact expandColons_eq_none hhome _ hvalue

/-- What the loop leaves has no `:~/`. It is what was there before, or begins with a colon. -/
lemma expandColons_some {home : Option CString} {fuel : ℕ} {value r : CString}
    (h : expandColons home fuel value = some r) :
    ¬ colonHome <:+: r ∧ (r = value ∨ r.head? = some ':') := by
  induction fuel generalizing value with
  | zero => cases h
  | succ fuel ih =>
      rw [expandColons] at h
      cases hfind : strstr colonHome value with
      | none =>
          rw [hfind] at h
          obtain rfl := Option.some.inj h
          exact ⟨strstr_eq_none_iff.mp hfind, Or.inl rfl⟩
      | some p =>
          rw [hfind] at h
          obtain ⟨hno, rfl | hhead⟩ := ih h
          · refine ⟨hno, Or.inr ?_⟩
            cases home <;> rfl
          · exact ⟨hno, Or.inr hhead⟩

lemma expandFront_of_no_home {home : Option CString} {value : CString}
    (h : ¬ ['~', '/'] <+: value) : expandFront home value = value := by
  rw [expandFront]
  rintro after rfl
  exact h ⟨after, rfl⟩

lemma expandFront_eq_self_iff {home : Option CString} {value : CString} :
    expandFront home value = value ↔ (['~', '/'] <+: value → home = some ['~']) := by
  by_cases hpre : ['~', '/'] <+: value
  · obtain ⟨after, rfl⟩ := hpre
    rw [forall_prop_of_true (List.prefix_append _ _)]
    cases home with
    | none =>
        refine ⟨fun h => ?_, (fun h => by cases h)⟩
        have hlen := congrArg List.length h
        simp only [List.cons_append, List.nil_append, expandFront, List.length_cons] at hlen
        omega
    | some home =>
        have hfront : expandFront (some home) (['~', '/'] ++ after) = home ++ '/' :: after := rfl
        have hsplit : ['~', '/'] ++ after = ['~'] ++ '/' :: after := rfl
        rw [hfront, hsplit, List.append_left_inj, Option.some_inj]
  · rw [expandFront_of_no_home hpre]
    exact ⟨fun _ h => absurd h hpre, fun _ => rfl⟩

/-- **When a string is set to itself**: it is not empty, and there is nothing to be replaced. -/
lemma setString_eq_self_iff {home : Option CString} {value : CString} :
    setString home (some value) = some (some value) ↔
      value ≠ [] ∧ ¬ colonHome <:+: value ∧ (['~', '/'] <+: value → home = some ['~']) := by
  cases value with
  | nil => exact ⟨(fun h => by cases h), fun h => absurd rfl h.1⟩
  | cons c cs =>
      rw [← expandFront_eq_self_iff, setString, Option.map_eq_some_iff]
      · constructor
        · rintro ⟨r, hr, heq⟩
          obtain rfl := Option.some.inj heq
          obtain ⟨hno, hself | hhead⟩ := expandColons_some hr
          · exact ⟨List.cons_ne_nil _ _, hno, hself.symm⟩
          · refine ⟨List.cons_ne_nil _ _, hno, ?_⟩
            obtain rfl := Option.some.inj hhead
            exact expandFront_of_no_home fun h => by
              obtain ⟨t, ht⟩ := h
              cases ht
        · rintro ⟨-, hno, hself⟩
          rw [hself]
          exact ⟨_, expandColons_of_no_home hno _, rfl⟩
      · intro h
        cases h

/-- `var_set_string` does not return when there is a `:~/` to be replaced by something that contains
it again. -/
lemma setString_eq_none_iff {home : Option CString} {value : CString} :
    setString home (some value) = none ↔
      colonHome <:+: expandFront home value ∧ ExpandsForever home := by
  cases value with
  | nil =>
      refine ⟨(fun h => by cases h), fun h => ?_⟩
      have hle : 3 ≤ 0 := h.1.length_le
      omega
  | cons c cs =>
      rw [setString, Option.map_eq_none_iff, expandColons_eq_none_iff]
      intro h
      cases h

/-! ### What is written is read again -/

lemma and_highMask_eq_zero_iff {x : BitVec 64} : x &&& highMask = 0#64 ↔ x.toNat < 2 ^ 32 := by
  have hmask : ∀ i : Fin 64, highMask.getLsbD i = decide (32 ≤ i.val) := by decide
  constructor
  · intro h
    refine Nat.lt_pow_two_of_testBit _ fun i hi => ?_
    rcases Nat.lt_or_ge i 64 with hlt | hge
    · have hbit := congrArg (fun y : BitVec 64 => y.getLsbD i) h
      rw [BitVec.getLsbD_and, hmask ⟨i, hlt⟩, decide_eq_true hi, Bool.and_true,
        BitVec.getLsbD_zero] at hbit
      exact hbit
    · exact BitVec.getLsbD_of_ge x i hge
  · intro h
    refine BitVec.eq_of_getLsbD_eq fun i hi => ?_
    rw [BitVec.getLsbD_and, BitVec.getLsbD_zero, hmask ⟨i, hi⟩]
    rcases Nat.lt_or_ge i 32 with hlt | hge
    · rw [decide_eq_false (Nat.not_le.mpr hlt), Bool.and_false]
    · rw [BitVec.getLsbD, Nat.testBit_lt_two_pow
        (h.trans_le (Nat.pow_le_pow_right (by decide) hge)), Bool.false_and]

/-- The mask lets an `int` pass if it is not negative. -/
lemma signExtend_and_highMask {x : BitVec 32} :
    x.signExtend 64 &&& highMask = 0#64 ↔ 0 ≤ x.toInt := by
  rw [and_highMask_eq_zero_iff, BitVec.toNat_signExtend, BitVec.toInt_eq_msb_cond,
    BitVec.toNat_setWidth_of_le (by decide)]
  have hlt := x.isLt
  cases x.msb with
  | true =>
      rw [if_pos rfl, if_pos rfl]
      omega
  | false =>
      rw [if_neg Bool.false_ne_true, if_neg Bool.false_ne_true]
      omega

lemma setWidth_signExtend_int (x : BitVec 32) : (x.signExtend 64).setWidth 32 = x := by
  refine BitVec.eq_of_getLsbD_eq fun i hi => ?_
  rw [BitVec.getLsbD_setWidth, BitVec.getLsbD_signExtend, decide_eq_true hi, if_pos hi,
    decide_eq_true (hi.trans (by decide)), Bool.true_and, Bool.true_and]

/-- What is stored of an `int` that was read as a sign-extended number. -/
lemma setFromString_int_iff {c : Platform D} {enumerator : Option VarEnum} {src : CString}
    {r : Except Rc (BitVec 32)} {x : BitVec 32}
    (h : intFromString (some src) enumerator = r.map (BitVec.signExtend 64)) :
    setFromString c .int enumerator (some src) = some (.ok (.int x)) ↔
      r = .ok x ∧ 0 ≤ x.toInt := by
  have hset : setFromString c .int enumerator (some src)
      = match intFromString (some src) enumerator with
        | .error rc => some (.error rc)
        | .ok value =>
            if VarType.int = .int ∧ value &&& highMask ≠ 0 then some (.error .valueOutOfBounds)
            else some (.ok (.int (value.setWidth 32))) := rfl
  rw [hset, h]
  cases r with
  | error rc => exact ⟨(fun h => by cases h), (fun h => by cases h.1)⟩
  | ok y =>
      dsimp only [Except.map]
      by_cases hneg : 0 ≤ y.toInt
      · rw [if_neg fun hbad => hbad.2 (signExtend_and_highMask.mpr hneg), setWidth_signExtend_int]
        constructor
        · intro heq
          injection heq with heq
          injection heq with heq
          injection heq with heq
          exact ⟨congrArg _ heq, heq ▸ hneg⟩
        · rintro ⟨heq, -⟩
          injection heq with heq
          rw [heq]
      · rw [if_pos ⟨rfl, fun hzero => hneg (signExtend_and_highMask.mp hzero)⟩]
        refine ⟨(fun h => by cases h), fun ⟨heq, hx⟩ => ?_⟩
        injection heq with heq
        exact absurd (heq ▸ hx) hneg

/-- The number of an `int` with an enumerator, for a text. -/
def VarEnum.intOfName (e : VarEnum) (name : CString) : Except Rc (BitVec 32) :=
  if name = [] then .ok 0 else e.valueFromString name

lemma intFromString_enum (e : VarEnum) (name : CString) :
    intFromString (some name) (some e) = (e.intOfName name).map (BitVec.signExtend 64) := by
  cases name with
  | nil => rfl
  | cons c cs =>
      rw [VarEnum.intOfName, if_neg (List.cons_ne_nil _ _), intFromString]
      · cases e.valueFromString (c :: cs) <;> rfl
      · intro h
        cases h

/-- **A value has a name that is read as the value again.** No entry in front of it has the name,
up to case, or the number that the name reads as; and the empty name reads as 0. -/
def VarEnum.ReadsBack : VarEnum → BitVec 32 → Prop
  | .bool, x => x = 0 ∨ x = 1
  | .values entries, x =>
      ∃ before name after, entries = before ++ (x, name) :: after ∧ (∀ y ∈ before, y.1 ≠ x) ∧
        if name = [] then x = 0 else ∀ y ∈ before, Matches name y = false

/-- **A value is read again as it is written.** An `int` is not negative, and a string is not empty
and has nothing in it that is replaced. -/
def VarValue.ReadsBack (home : Option CString) (enumerator : Option VarEnum) : VarValue D → Prop
  | .int x => 0 ≤ x.toInt ∧ ∀ e, enumerator = some e → e.ReadsBack x
  | .string (some s) =>
      s ≠ [] ∧ ¬ colonHome <:+: s ∧ (['~', '/'] <+: s → home = some ['~'])
  | _ => True

lemma VarEnum.matches_self (name : CString) (x : BitVec 32) : Matches name (x, name) = true := by
  rw [Matches, strcaseeq, decide_eq_true rfl, Bool.or_true]

/-- The name of the first entry with a value. -/
lemma VarEnum.stringFromValue_eq_ok_iff {entries : List (BitVec 32 × CString)} {x : BitVec 32}
    {name : CString} :
    (VarEnum.values entries).stringFromValue x = .ok name ↔
      ∃ before after, entries = before ++ (x, name) :: after ∧ ∀ y ∈ before, y.1 ≠ x := by
  have hfind : (VarEnum.values entries).stringFromValue x = .ok name ↔
      entries.find? (fun entry => entry.1 = x) = some (x, name) := by
    rw [stringFromValue]
    cases hfind : entries.find? fun entry => entry.1 = x with
    | none => exact ⟨(fun h => by cases h), (fun h => by cases h)⟩
    | some entry =>
        have hx : entry.1 = x := by simpa using List.find?_some hfind
        constructor
        · intro h
          injection h with h
          rw [← hx, ← h]
        · intro h
          rw [Option.some.inj h]
  rw [hfind, List.find?_eq_some_iff_append]
  simp

/-- The first entry that matches the name of an entry in front of which none matches. -/
lemma VarEnum.valueFromString_eq_ok_iff {before after : List (BitVec 32 × CString)} {x : BitVec 32}
    {name : CString} (hbefore : ∀ y ∈ before, y.1 ≠ x) :
    (VarEnum.values (before ++ (x, name) :: after)).valueFromString name = .ok x ↔
      ∀ y ∈ before, Matches name y = false := by
  rw [valueFromString, List.find?_append, List.find?_cons_of_pos (matches_self name x)]
  cases hfind : before.find? (Matches name) with
  | none =>
      have hno := List.find?_eq_none.mp hfind
      exact ⟨fun _ y hy => Bool.eq_false_of_not_eq_true (hno y hy), fun _ => rfl⟩
  | some y =>
      have hy := List.mem_of_find?_eq_some hfind
      constructor
      · intro h
        injection h with h
        exact absurd h (hbefore y hy)
      · intro h
        have hmatch := List.find?_some hfind
        rw [h y hy] at hmatch
        cases hmatch

lemma VarEnum.readsBack_iff (e : VarEnum) (x : BitVec 32) :
    e.ReadsBack x ↔ ∃ name, e.stringFromValue x = .ok name ∧ e.intOfName name = .ok x := by
  cases e with
  | bool =>
      by_cases hx : x = 0
      · rw [hx]
        exact ⟨fun _ => ⟨_, rfl, rfl⟩, fun _ => Or.inl rfl⟩
      · have hname : VarEnum.bool.stringFromValue x = .ok "true".toList := by
          rw [stringFromValue, if_neg hx]
        have hone : VarEnum.bool.intOfName "true".toList = .ok 1 := by
          rfl
        rw [hname]
        constructor
        · rintro (h | rfl)
          · exact absurd h hx
          · exact ⟨_, rfl, hone⟩
        · rintro ⟨name, hn, hv⟩
          injection hn with hn
          rw [← hn, hone] at hv
          injection hv with hv
          exact Or.inr hv.symm
  | values entries =>
      constructor
      · rintro ⟨before, name, after, rfl, hbefore, hread⟩
        refine ⟨name, stringFromValue_eq_ok_iff.mpr ⟨before, after, rfl, hbefore⟩, ?_⟩
        rw [intOfName]
        by_cases hname : name = []
        · rw [if_pos hname] at hread ⊢
          rw [hread]
        · rw [if_neg hname] at hread ⊢
          exact (valueFromString_eq_ok_iff hbefore).mpr hread
      · rintro ⟨name, hstring, hread⟩
        obtain ⟨before, after, rfl, hbefore⟩ := stringFromValue_eq_ok_iff.mp hstring
        refine ⟨before, name, after, rfl, hbefore, ?_⟩
        rw [intOfName] at hread
        by_cases hname : name = []
        · rw [if_pos hname] at hread ⊢
          injection hread with hread
          exact hread.symm
        · rw [if_neg hname] at hread ⊢
          exact (valueFromString_eq_ok_iff hbefore).mp hread

/-- The unsigned numbers are written and read without an enumerator. -/
lemma intFromString_formatNat {n : ℕ} (hn : n < 2 ^ 64) :
    intFromString (some (formatNat n)) none = .ok (BitVec.ofNat 64 n) := by
  obtain ⟨c, cs, hcs, -⟩ := exists_cons_formatNat n
  have hnum := strtoull_formatNat hn
  rw [hcs] at hnum ⊢
  rw [intFromString, hnum]
  · rfl
  · intro h
    cases h

/-- What is stored of an unsigned number as it is written. -/
lemma setFromString_formatNat (c : Platform D) {type : VarType} {v : VarValue D} {n : ℕ}
    (hn : n < 2 ^ 64) (htype : type ≠ .int) (hv : VarValue.ofBits type (BitVec.ofNat 64 n) = some v) :
    setFromString c type none (some (formatNat n)) = some (.ok v) := by
  have hset : ∀ hstring : type ≠ .string, ∀ hdouble : type ≠ .double,
      setFromString c type none (some (formatNat n)) = some (.ok v) := by
    intro hstring hdouble
    rw [setFromString, intFromString_formatNat hn]
    · dsimp only
      rw [if_neg fun h => htype h.1, hv]
      rfl
    · exact hdouble
    · exact hstring
  refine hset ?_ ?_
  · rintro rfl
    cases hv
  · rintro rfl
    cases hv

lemma intFromString_formatInt (x : BitVec 32) :
    intFromString (some (formatInt x.toInt)) none
      = (Except.ok x : Except Rc _).map (BitVec.signExtend 64) := by
  have hlo := x.le_toInt
  have hhi := x.toInt_lt
  have hnum := strtoull_formatInt (n := x.toInt) (by omega) (by omega)
  have hne : formatInt x.toInt ≠ [] := by
    cases x.toInt with
    | ofNat n => exact Nat.toDigits_ne_nil
    | negSucc n => exact List.cons_ne_nil _ _
  obtain ⟨c, cs, hcs⟩ := List.exists_cons_of_ne_nil hne
  rw [hcs] at hnum ⊢
  rw [intFromString, hnum]
  · rfl
  · intro h
    cases h

/-- **Which values survive the way through a text.** A value of one of the integer types, with or
without an enumerator, or a string is written by `var_value_string`; `var_set_from_string` accepts
the text and stores the value again if and only if the value reads back. -/
theorem value_round_trip_iff (c : Platform D) (v : VarValue D) (enumerator : Option VarEnum)
    (htype : v.type ≠ .bool ∧ v.type ≠ .double) (hint : enumerator.isSome → v.type = .int) :
    (∃ src, v.valueString c enumerator = .ok src ∧
        setFromString c v.type enumerator (some src) = some (.ok v)) ↔
      v.ReadsBack c.home enumerator := by
  have hnone : v.type ≠ .int → enumerator = none := by
    intro h
    cases enumerator with
    | none => rfl
    | some e => exact absurd (hint rfl) h
  have hlong : ∀ x : BitVec 64, BitVec.ofNat 64 x.toNat = x := fun x => by
    rw [BitVec.ofNat_toNat, BitVec.setWidth_eq]
  cases v with
  | int x =>
      cases enumerator with
      | none =>
          have hset := setFromString_int_iff (c := c) (x := x) (intFromString_formatInt x)
          constructor
          · rintro ⟨src, hsrc, hread⟩
            injection hsrc with hsrc
            rw [← hsrc] at hread
            exact ⟨(hset.mp hread).2, fun e he => by cases he⟩
          · rintro ⟨hpos, -⟩
            exact ⟨_, rfl, hset.mpr ⟨rfl, hpos⟩⟩
      | some e =>
          have hset := fun src => setFromString_int_iff (c := c) (x := x) (intFromString_enum e src)
          constructor
          · rintro ⟨src, hsrc, hread⟩
            obtain ⟨hok, hpos⟩ := (hset src).mp hread
            refine ⟨hpos, fun e' he' => ?_⟩
            obtain rfl := Option.some.inj he'
            exact (e.readsBack_iff x).mpr ⟨src, hsrc, hok⟩
          · rintro ⟨hpos, hread⟩
            obtain ⟨src, hsrc, hok⟩ := (e.readsBack_iff x).mp (hread e rfl)
            exact ⟨src, hsrc, (hset src).mpr ⟨hok, hpos⟩⟩
  | unsignedInt x =>
      obtain rfl := hnone nofun
      have hx : (BitVec.ofNat 64 x.toNat).setWidth 32 = x := by
        rw [BitVec.setWidth_ofNat_of_le (by decide), BitVec.ofNat_toNat, BitVec.setWidth_eq]
      have hn : x.toNat < 2 ^ 64 := x.isLt.trans (by decide)
      exact iff_of_true ⟨_, rfl, setFromString_formatNat c hn nofun
        (by rw [VarValue.type, VarValue.ofBits, hx])⟩ trivial
  | unsignedLong x =>
      obtain rfl := hnone nofun
      exact iff_of_true ⟨_, rfl, setFromString_formatNat c x.isLt nofun
        (by rw [VarValue.type, VarValue.ofBits, hlong])⟩ trivial
  | unsignedLongLong x =>
      obtain rfl := hnone nofun
      exact iff_of_true ⟨_, rfl, setFromString_formatNat c x.isLt nofun
        (by rw [VarValue.type, VarValue.ofBits, hlong])⟩ trivial
  | sizeT x =>
      obtain rfl := hnone nofun
      exact iff_of_true ⟨_, rfl, setFromString_formatNat c x.isLt nofun
        (by rw [VarValue.type, VarValue.ofBits, hlong])⟩ trivial
  | string s =>
      obtain rfl := hnone nofun
      cases s with
      | none => exact iff_of_true ⟨_, rfl, rfl⟩ trivial
      | some s =>
          rw [VarValue.ReadsBack, ← setString_eq_self_iff]
          constructor
          · rintro ⟨src, hsrc, hread⟩
            injection hsrc with hsrc
            obtain ⟨r, hr, heq⟩ := Option.map_eq_some_iff.mp hread
            injection heq with heq
            injection heq with heq
            rw [heq, ← hsrc] at hr
            exact hr
          · intro hself
            refine ⟨s, rfl, ?_⟩
            exact Option.map_eq_some_iff.mpr ⟨_, hself, rfl⟩
  | bool b => exact absurd rfl htype.1
  | double x => exact absurd rfl htype.2

/-- A platform with a home directory, for variables that are not of the type `double`. -/
def homePlatform : Platform Unit where
  home := some "/home/user".toList
  strtod := fun _ => ()
  formatDouble := fun _ => []

theorem value_round_trip_five :
    ∃ src, (VarValue.int 5).valueString homePlatform none = .ok src ∧
      setFromString homePlatform .int none (some src) = some (.ok (.int 5)) :=
  (value_round_trip_iff homePlatform (.int 5) none ⟨nofun, nofun⟩ nofun).mpr
    ⟨by decide, fun e he => by cases he⟩

/-- The text of -1 is refused. -/
lemma setFromString_minus_one :
    setFromString homePlatform .int none (some ['-', '1']) = some (.error .valueOutOfBounds) := by
  have hread : strtoull 0 ['-', '1'] = (-1, []) := by decide
  have hmask : (-1 : BitVec 64) &&& highMask ≠ 0 := by decide
  rw [setFromString, intFromString, hread]
  · dsimp only
    rw [if_pos ⟨rfl, hmask⟩]
  · exact nofun
  · exact nofun
  · exact nofun

theorem value_of_minus_one_is_refused :
    ¬ ∃ src, (VarValue.int (-1)).valueString homePlatform none = .ok src ∧
      setFromString homePlatform .int none (some src) = some (.ok (.int (-1))) := by
  rintro ⟨src, hsrc, hread⟩
  have htext : (VarValue.int (-1)).valueString homePlatform none = .ok ['-', '1'] := by rfl
  rw [htext] at hsrc
  injection hsrc with hsrc
  rw [← hsrc, setFromString_minus_one] at hread
  cases hread

end Ocoms
