import Mathlib.Data.List.TakeWhile
import Ocoms.Lib.CInt
import Ocoms.Lib.Strings

/-!
Splitting and joining argument vectors: `argv.c`.

* A vector is the list of its strings; a pointer to one is `none` where it is `NULL`. Memory does
  not run out. `none` is an access outside a buffer, through a null pointer, or in front of the
  start of a string.
* `argvSplitInter` is the loop that both `ocoms_argv_split` and `ocoms_argv_split_with_empty` are;
  `argvSplitInter_eq` says that its fields are those of `List.splitOn`, but for the last one if it
  is empty.
* `joinFill` is the loop that `ocoms_argv_join` and `ocoms_argv_join_range` fill the buffer with;
  `joinFill_eq` says that they fill it with `List.intercalate`.
* `split_join_iff` is the theorem about both directions, `join_range_iff` the one about ranges.
-/

namespace Ocoms

/-! ### The functions -/

/-- `ARGSIZE`. -/
def argSize : ℕ := 128

/-- `strncpy` of `n` characters and the null character behind them, into a buffer of `size`. -/
def copyToBuffer (size : ℕ) (src : CString) (n : ℕ) : Option CString :=
  if n < size then some (src.take n) else none

/-- The loop of `ocoms_argv_split_inter`: the strings it appends. -/
def splitFields (delimiter : Char) (includeEmpty : Bool) : CString → Option (List CString)
  | [] => some []
  | c :: cs =>
      let src := c :: cs
      let arglen := (src.takeWhile (· ≠ delimiter)).length
      match h : src.dropWhile (· ≠ delimiter) with
      -- tail argument
      | [] => some [src]
      | _ :: rest =>
          have : rest.length < (c :: cs).length := by
            have hle := (List.dropWhile_suffix (l := c :: cs) (· ≠ delimiter)).length_le
            rw [h, List.length_cons] at hle
            exact hle
          if arglen = 0 then
            (splitFields delimiter includeEmpty rest).map fun fields =>
              if includeEmpty then [] :: fields else fields
          -- long argument, then short argument
          else if argSize - 1 < arglen then
            (copyToBuffer (arglen + 1) src arglen).bind fun arg =>
              (splitFields delimiter includeEmpty rest).map (arg :: ·)
          else
            (copyToBuffer argSize src arglen).bind fun arg =>
              (splitFields delimiter includeEmpty rest).map (arg :: ·)
  termination_by src => src.length
  decreasing_by all_goals exact this

/-- `ocoms_argv_split_inter`: without a first string no vector is allocated. -/
def argvSplitInter (src : CString) (delimiter : Char) (includeEmpty : Bool) :
    Option (Option (List CString)) :=
  (splitFields delimiter includeEmpty src).map fun fields =>
    if fields = [] then none else some fields

/-- `ocoms_argv_split`. -/
def argvSplit (src : CString) (delimiter : Char) : Option (Option (List CString)) :=
  argvSplitInter src delimiter false

/-- `ocoms_argv_split_with_empty`. -/
def argvSplitWithEmpty (src : CString) (delimiter : Char) : Option (Option (List CString)) :=
  argvSplitInter src delimiter true

/-- `str_len`: the strings with a delimiter or the null character each. -/
def joinLength (v : List CString) : ℕ := (v.map fun s => s.length + 1).sum

/-- The loop that fills the buffer: `n` characters, from the rest `pp` of a string on, which is
`NULL` behind the last one; `v` are the strings behind it. -/
def joinFill (delimiter : Char) : ℕ → Option CString → List CString → Option CString
  | 0, _, _ => some []
  | _ + 1, none, _ => none
  | n + 1, some [], v => (joinFill delimiter n v.head? v.tail).map (delimiter :: ·)
  | n + 1, some (c :: cs), v => (joinFill delimiter n (some cs) v).map (c :: ·)

/-- The string of `strLen` characters, with the null character, from the strings `v`. Without a
character the null character goes in front of the buffer. -/
def joinString (delimiter : Char) (strLen : ℕ) (v : List CString) : Option CString :=
  if strLen = 0 then none else joinFill delimiter (strLen - 1) v.head? v.tail

/-- `ocoms_argv_join`. -/
def argvJoin (argv : Option (List CString)) (delimiter : Char) : Option CString :=
  match argv with
  | none | some [] => some []
  | some v => joinString delimiter (joinLength v) v

/-- `ocoms_argv_join_range`; `start` is compared as an `int`. -/
def argvJoinRange (argv : Option (List CString)) (start stop : ℕ) (delimiter : Char) :
    Option CString :=
  match argv with
  | none | some [] => some []
  | some v =>
      if (v.length : ℤ) < CInt.wrap start then some []
      else if v.length < start then none
      else joinString delimiter (joinLength ((v.drop start).take (stop - start))) (v.drop start)

/-! ### Splitting -/

section Split

variable {d : Char} {s : CString} {includeEmpty : Bool}

/-- The fields of a string between the delimiters, without the last one if it is empty. -/
def fieldsOf (d : Char) (s : CString) : List CString :=
  if (s.splitOn d).getLast? = some [] then (s.splitOn d).dropLast else s.splitOn d

lemma fieldsOf_nil : fieldsOf d [] = [] := by
  rw [fieldsOf, List.splitOn_nil]
  rfl

/-- The string up to the first delimiter, and behind it. -/
lemma splitOn_of_dropWhile_cons {x : Char} {rest : CString}
    (h : s.dropWhile (· ≠ d) = x :: rest) :
    s.splitOn d = s.takeWhile (· ≠ d) :: rest.splitOn d := by
  have hx : x = d := by
    have hne := List.head?_dropWhile_not (· ≠ d) s
    rw [h] at hne
    simpa using hne
  have hmem : d ∉ s.takeWhile (· ≠ d) := fun hd => by simpa using List.mem_takeWhile_imp hd
  have hsplit : s = s.takeWhile (· ≠ d) ++ d :: rest := by
    conv_lhs => rw [← List.takeWhile_append_dropWhile (p := (· ≠ d)) (l := s), h, hx]
  conv_lhs => rw [hsplit]
  exact List.splitOn_append_cons_self_of_not_mem hmem rest

lemma splitOn_of_dropWhile_nil (h : s.dropWhile (· ≠ d) = []) : s.splitOn d = [s] := by
  refine List.splitOn_eq_singleton fun hd => ?_
  have hall := List.dropWhile_eq_nil_iff.mp h d hd
  simp at hall

lemma copyToBuffer_takeWhile {size : ℕ} (h : (s.takeWhile (· ≠ d)).length < size) :
    copyToBuffer size s (s.takeWhile (· ≠ d)).length = some (s.takeWhile (· ≠ d)) := by
  rw [copyToBuffer, if_pos h]
  exact congrArg some (List.prefix_iff_eq_take.mp (List.takeWhile_prefix _)).symm

lemma fieldsOf_of_dropWhile_nil (hs : s ≠ []) (h : s.dropWhile (· ≠ d) = []) :
    fieldsOf d s = [s] := by
  have hlast : ¬ [s].getLast? = some [] := fun hl => hs (Option.some.inj hl)
  rw [fieldsOf, splitOn_of_dropWhile_nil h, if_neg hlast]

lemma fieldsOf_of_dropWhile_cons {x : Char} {rest : CString}
    (h : s.dropWhile (· ≠ d) = x :: rest) :
    fieldsOf d s = s.takeWhile (· ≠ d) :: fieldsOf d rest := by
  have hne : rest.splitOn d ≠ [] := List.splitOn_ne_nil d rest
  rw [fieldsOf, fieldsOf, splitOn_of_dropWhile_cons h, List.getLast?_cons_of_ne_nil hne,
    List.dropLast_cons_of_ne_nil hne]
  split <;> rfl

lemma splitFields_of_dropWhile_nil (hs : s ≠ []) (h : s.dropWhile (· ≠ d) = []) :
    splitFields d includeEmpty s = some [s] := by
  obtain ⟨c, cs, rfl⟩ := List.exists_cons_of_ne_nil hs
  rw [splitFields]
  split
  · rfl
  · next heq => rw [h] at heq; cases heq

/-- One round of the loop: a field that fits into its buffer. -/
lemma splitFields_of_dropWhile_cons {x : Char} {rest : CString}
    (h : s.dropWhile (· ≠ d) = x :: rest) :
    splitFields d includeEmpty s = (splitFields d includeEmpty rest).map fun fields =>
      if s.takeWhile (· ≠ d) = [] ∧ includeEmpty = false then fields
      else s.takeWhile (· ≠ d) :: fields := by
  obtain ⟨c, cs, rfl⟩ : ∃ c cs, s = c :: cs := List.exists_cons_of_ne_nil (by rintro rfl; cases h)
  rw [splitFields]
  split
  · next heq => rw [h] at heq; cases heq
  · next y rest' heq =>
    obtain ⟨rfl, rfl⟩ := List.cons.inj (heq.symm.trans h)
    by_cases hzero : ((c :: cs).takeWhile (· ≠ d)).length = 0
    · have hnil := List.length_eq_zero_iff.mp hzero
      rw [if_pos hzero, hnil]
      cases includeEmpty <;> rfl
    · have hne : (c :: cs).takeWhile (· ≠ d) ≠ [] := fun hnil => hzero (by rw [hnil]; rfl)
      have hfields : ∀ fields : List CString,
          (if (c :: cs).takeWhile (· ≠ d) = [] ∧ includeEmpty = false then fields
            else (c :: cs).takeWhile (· ≠ d) :: fields)
          = (c :: cs).takeWhile (· ≠ d) :: fields := fun _ => if_neg fun hn => hne hn.1
      simp only [hfields]
      rw [if_neg hzero]
      split
      · rw [copyToBuffer_takeWhile (Nat.lt_succ_self _), Option.bind_some]
      · next hshort =>
        rw [copyToBuffer_takeWhile (by rw [argSize] at *; omega), Option.bind_some]

/-- **The loop finds the fields** between the delimiters, and no access leaves a buffer. -/
lemma splitFields_eq (d : Char) (includeEmpty : Bool) (s : CString) :
    splitFields d includeEmpty s
      = some (if includeEmpty then fieldsOf d s else (fieldsOf d s).filter (· ≠ [])) := by
  induction hn : s.length using Nat.strong_induction_on generalizing s with
  | _ n ih =>
      by_cases hs : s = []
      · rw [hs, splitFields, fieldsOf_nil]
        cases includeEmpty <;> rfl
      · cases h : s.dropWhile (· ≠ d) with
        | nil =>
            rw [splitFields_of_dropWhile_nil hs h, fieldsOf_of_dropWhile_nil hs h]
            cases includeEmpty <;> simp [hs]
        | cons x rest =>
            have hlt : rest.length < n := by
              have hle := (List.dropWhile_suffix (l := s) (· ≠ d)).length_le
              rw [h, List.length_cons] at hle
              omega
            rw [splitFields_of_dropWhile_cons h, ih rest.length hlt rest rfl,
              fieldsOf_of_dropWhile_cons h, Option.map_some]
            cases includeEmpty with
            | true => simp
            | false =>
                generalize s.takeWhile (· ≠ d) = arg
                by_cases hempty : arg = [] <;> simp [hempty]

end Split

/-! ### Joining -/

section Join

variable {d : Char}

lemma joinLength_cons (s : CString) (v : List CString) :
    joinLength (s :: v) = s.length + 1 + joinLength v := by
  rw [joinLength, List.map_cons, List.sum_cons, joinLength]

/-- The rest of a string is copied. -/
lemma joinFill_string (s : CString) (n : ℕ) (v : List CString) :
    joinFill d (s.length + n) (some s) v = (joinFill d n (some []) v).map (s ++ ·) := by
  induction s with
  | nil => simp
  | cons c cs ih =>
      rw [List.length_cons, Nat.add_right_comm, joinFill, ih, Option.map_map]
      rfl

/-- **The buffer is filled with the strings and the delimiters between them**, whatever strings are
behind those that it is for. -/
lemma joinFill_eq (s : CString) (v more : List CString) :
    joinFill d (joinLength (s :: v) - 1) (some s) (v ++ more)
      = some ([d].intercalate (s :: v)) := by
  induction v generalizing s with
  | nil =>
      have hlen : joinLength [s] - 1 = s.length + 0 := by
        rw [joinLength_cons, joinLength]
        rfl
      rw [hlen, joinFill_string, joinFill, Option.map_some, List.append_nil,
        List.intercalate_singleton]
  | cons t v ih =>
      have hlen : joinLength (s :: t :: v) - 1 = s.length + (joinLength (t :: v) - 1 + 1) := by
        rw [joinLength_cons, joinLength_cons]
        omega
      rw [hlen, joinFill_string, joinFill]
      simp only [List.cons_append, List.head?_cons, List.tail_cons]
      rw [ih, List.intercalate_cons_cons]
      simp

lemma joinString_eq {v : List CString} (hv : v ≠ []) (more : List CString) :
    joinString d (joinLength v) (v ++ more) = some ([d].intercalate v) := by
  obtain ⟨s, v, rfl⟩ := List.exists_cons_of_ne_nil hv
  have hpos : joinLength (s :: v) ≠ 0 := by
    rw [joinLength_cons]
    omega
  rw [joinString, if_neg hpos]
  exact joinFill_eq s v more

/-- **`ocoms_argv_join` joins.** -/
lemma argvJoin_eq (v : List CString) (d : Char) :
    argvJoin (some v) d = some ([d].intercalate v) := by
  cases v with
  | nil => rfl
  | cons s v =>
      have h := joinString_eq (d := d) (List.cons_ne_nil s v) []
      rwa [List.append_nil] at h

/-- An empty string behind others adds a delimiter. -/
lemma intercalate_append_nil {v : List CString} (hv : v ≠ []) :
    [d].intercalate (v ++ [[]]) = [d].intercalate v ++ [d] := by
  induction v with
  | nil => exact absurd rfl hv
  | cons s v ih =>
      cases v with
      | nil => simp [List.intercalate_cons_cons]
      | cons t v =>
          have hrest := ih (List.cons_ne_nil t v)
          rw [List.cons_append] at hrest
          rw [List.cons_append, List.cons_append, List.intercalate_cons_cons, hrest,
            List.intercalate_cons_cons]
          simp

end Join

/-! ### Round trips -/

section RoundTrip

variable {d : Char} {s : CString}

/-- The fields join to the string exactly if it does not end with the delimiter. -/
lemma intercalate_fieldsOf_iff (hs : s ≠ []) :
    [d].intercalate (fieldsOf d s) = s ↔ s.getLast? ≠ some d := by
  have hjoin : [d].intercalate (s.splitOn d) = s := List.intercalate_splitOn d
  rw [fieldsOf]
  split
  · next hlast =>
    -- the last field is empty, and so the string ends with the delimiter
    have hsplit : s.splitOn d = (s.splitOn d).dropLast ++ [[]] :=
      (List.dropLast_append_getLast? [] hlast).symm
    set fields := (s.splitOn d).dropLast with hfields
    have hne : fields ≠ [] := by
      intro hnil
      rw [hsplit, hnil] at hjoin
      exact hs hjoin.symm
    rw [hsplit, intercalate_append_nil hne] at hjoin
    refine iff_of_false (fun heq => ?_) (not_not.mpr ?_)
    · have hlen := congrArg List.length hjoin
      rw [heq, List.length_append, List.length_singleton] at hlen
      omega
    · rw [← hjoin, List.getLast?_concat]
  · next hlast =>
    refine iff_of_true hjoin fun hd => hlast ?_
    obtain ⟨t, rfl⟩ := List.getLast?_eq_some_iff.mp hd
    rw [List.splitOn_append_cons_self, List.splitOn_nil, List.getLast?_concat]

/-- **Splitting undoes joining, and joining undoes splitting with empty fields exactly for the
strings that do not end with the delimiter**: behind the last delimiter no field is appended. -/
theorem split_join_iff (d : Char) {v : List CString} (hv : ∀ s ∈ v, s ≠ [] ∧ d ∉ s) {s : CString}
    (hs : s ≠ []) :
    (∃ t, argvJoin (some v) d = some t ∧
      argvSplit t d = some (if v = [] then none else some v)) ∧
    ((∃ argv, argvSplitWithEmpty s d = some argv ∧ argvJoin argv d = some s) ↔
      s.getLast? ≠ some d) := by
  constructor
  · refine ⟨_, argvJoin_eq v d, ?_⟩
    have hfields : (fieldsOf d ([d].intercalate v)).filter (· ≠ []) = v := by
      cases v with
      | nil => rfl
      | cons t v =>
          have hsplit : ([d].intercalate (t :: v)).splitOn d = t :: v :=
            List.splitOn_intercalate d (fun l hl => (hv l hl).2) (List.cons_ne_nil t v)
          have hlast : ¬ (t :: v).getLast? = some [] := fun hl =>
            (hv [] (List.mem_of_getLast? hl)).1 rfl
          rw [fieldsOf, hsplit, if_neg hlast]
          exact List.filter_eq_self.mpr fun l hl => decide_eq_true (hv l hl).1
    rw [argvSplit, argvSplitInter, splitFields_eq, if_neg Bool.false_ne_true, hfields,
      Option.map_some]
  · have hne : fieldsOf d s ≠ [] := by
      cases h : s.dropWhile (· ≠ d) with
      | nil => rw [fieldsOf_of_dropWhile_nil hs h]; exact List.cons_ne_nil _ _
      | cons x rest => rw [fieldsOf_of_dropWhile_cons h]; exact List.cons_ne_nil _ _
    have hsplit : argvSplitWithEmpty s d = some (some (fieldsOf d s)) := by
      rw [argvSplitWithEmpty, argvSplitInter, splitFields_eq, if_pos rfl, Option.map_some,
        if_neg hne]
    rw [← intercalate_fieldsOf_iff hs, hsplit]
    constructor
    · rintro ⟨argv, hargv, hjoin⟩
      obtain rfl := Option.some.inj hargv
      rw [argvJoin_eq] at hjoin
      exact Option.some.inj hjoin
    · intro hjoin
      exact ⟨_, rfl, by rw [argvJoin_eq, hjoin]⟩

theorem split_join_ab :
    (∃ t, argvJoin (some ["a".toList, "b".toList]) ',' = some t ∧
      argvSplit t ',' = some (some ["a".toList, "b".toList])) ∧
    ((∃ argv, argvSplitWithEmpty ",a,,b".toList ',' = some argv ∧
        argvJoin argv ',' = some ",a,,b".toList) ↔ ",a,,b".toList.getLast? ≠ some ',') := by
  have hv : ∀ s ∈ ["a".toList, "b".toList], s ≠ [] ∧ ',' ∉ s := by decide
  exact split_join_iff ',' hv (by decide)

/-- The empty field behind the last delimiter is lost. -/
theorem split_join_trailing_fails :
    argvSplitWithEmpty "a,".toList ',' = some (some ["a".toList]) ∧
      argvJoin (some ["a".toList]) ',' = some "a".toList ∧ "a".toList ≠ "a,".toList := by
  refine ⟨?_, by decide, by decide⟩
  rw [argvSplitWithEmpty, argvSplitInter, splitFields_eq]
  decide

end RoundTrip

/-! ### Ranges -/

lemma wrap_le_of_nat (n : ℕ) : CInt.wrap n ≤ n := by
  rw [CInt.wrap, BitVec.toInt_ofInt]
  rcases Nat.lt_or_ge n (2 ^ 31) with hlt | hge
  · rw [Int.bmod_eq_of_le (by omega) (by omega)]
  · have := Int.bmod_lt (x := (n : ℤ)) (m := 2 ^ 32) (by decide)
    omega

/-- **The range is joined exactly if it is not empty, or passes the check at the start.** An empty
range that does not pass has no character for the null character to go to. -/
theorem join_range_iff (v : List CString) (start stop : ℕ) (d : Char) :
    argvJoinRange (some v) start stop d
        = some ([d].intercalate ((v.drop start).take (stop - start))) ↔
      v = [] ∨ (v.length : ℤ) < CInt.wrap start ∨ start < v.length ∧ start < stop := by
  cases v with
  | nil => simp [argvJoinRange]
  | cons s v =>
      have hwrap := wrap_le_of_nat start
      simp only [argvJoinRange, reduceCtorEq, false_or]
      by_cases hcheck : ((s :: v).length : ℤ) < CInt.wrap start
      · have hdrop : (s :: v).drop start = [] := List.drop_eq_nil_of_le (by omega)
        rw [if_pos hcheck, hdrop, List.take_nil, List.intercalate_nil]
        exact iff_of_true rfl (.inl hcheck)
      · rw [if_neg hcheck]
        by_cases hout : (s :: v).length < start
        · rw [if_pos hout]
          refine iff_of_false (by simp) ?_
          omega
        · rw [if_neg hout]
          set slice := ((s :: v).drop start).take (stop - start) with hslice
          by_cases hempty : slice = []
          · have hrange : ¬ (start < (s :: v).length ∧ start < stop) := by
              have hlen := congrArg List.length hempty
              rw [hslice, List.length_take, List.length_drop, List.length_nil] at hlen
              omega
            rw [hempty]
            refine iff_of_false ?_ (by tauto)
            simp [joinString, joinLength]
          · have hrange : start < (s :: v).length ∧ start < stop := by
              have hlen := List.length_pos_iff.mpr hempty
              rw [hslice, List.length_take, List.length_drop] at hlen
              omega
            refine iff_of_true ?_ (.inr hrange)
            have hsplit : (s :: v).drop start
                = slice ++ ((s :: v).drop start).drop (stop - start) :=
              (List.take_append_drop _ _).symm
            conv_lhs => rw [hsplit]
            exact joinString_eq hempty _

/-- A range behind the last string. -/
theorem join_range_end_fails :
    argvJoinRange (some ["a".toList]) 1 2 ',' = none ∧
      [','].intercalate ((["a".toList].drop 1).take (2 - 1)) = [] := by decide

end Ocoms
