import Ocoms.Lib.CSize
import Ocoms.Lib.Strings

/-!
Formatting into an allocated buffer and into a buffer of the caller: `printf.c`.

* `guessStrlen` estimates the length of the text from the format and its arguments, and `vasprintf`
  allocates as much.
* `vsnprintf` formats into an allocated buffer, and copies. The writes to the buffer of the caller
  are recorded.
* `vsnprintf_bounded_iff` says when they are in bounds and leave the text.
-/

namespace Ocoms

/-! ### Arguments -/

/-- The arguments that are left in a `va_list`. A pointer to characters may be null. -/
inductive VaArg
  | int (v : BitVec 32)
  | long (v : BitVec 64)
  | ptr (s : Option CString)
  deriving DecidableEq

/-- `va_arg(ap, int)`. An argument takes a register or a slot of 8 bytes, and of a `long` the lower
half is read. What is read of a pointer, and behind the last argument, is not defined. -/
def vaInt : List VaArg → Option (ℤ × List VaArg)
  | .int v :: ap => some (v.toInt, ap)
  | .long v :: ap => some ((v.setWidth 32).toInt, ap)
  | _ => none

/-- `va_arg(ap, char *)`. -/
def vaPtr : List VaArg → Option (Option CString × List VaArg)
  | .ptr s :: ap => some (s, ap)
  | _ => none

/-! ### The estimate -/

/-- `INT_MAX`. -/
def lenMax : ℕ := 2 ^ 31 - 1

/-- An addition to `len`, and a conversion of a length to its type `int`. Where the value is above
`INT_MAX` there is no result. -/
def addLen (len n : ℕ) : Option ℕ := if len + n ≤ lenMax then some (len + n) else none

/-- The rounds of a loop that divides by the base until 0 is left. -/
def divisionsCore (base : ℕ) : ℕ → ℕ → ℕ
  | 0, _ => 0
  | fuel + 1, n => if n / base = 0 then 1 else divisionsCore base fuel (n / base) + 1

/-- The rounds of `do { ++len; n /= base; } while (0 != n)`. The division is towards 0, and the sign
makes no difference. -/
def divisions (base : ℕ) (n : ℤ) : ℕ := divisionsCore base (n.natAbs + 1) n.natAbs

/-- The rounds of the loops that divide a `float` and a `double` by 10. -/
structure FloatLoops where
  float : ℤ → ℕ
  double : ℤ → ℕ

/-- The minus sign. -/
def minusLen (n : ℤ) : ℕ := if n < 0 then 1 else 0

/-- A case that reads an `int`, and what it adds. -/
def guessInt (rounds : ℤ → ℕ) (ap : List VaArg) (len : ℕ) : Option (ℕ × List VaArg) :=
  (vaInt ap).bind fun (arg, ap) => (addLen len (rounds arg)).map fun len => (len, ap)

/-- The cases of the conversions of one letter. -/
def guessConversion (fp : FloatLoops) (c : Char) (ap : List VaArg) (len : ℕ) :
    Option (ℕ × List VaArg) :=
  if c = 'c' then guessInt (fun _ => 1) ap len
  else if c = 's' then
    (vaPtr ap).bind fun (sarg, ap) =>
      (addLen len (sarg.elim 5 List.length)).map fun len => (len, ap)
  else if c = 'd' ∨ c = 'i' then guessInt (fun iarg => minusLen iarg + divisions 10 iarg) ap len
  else if c = 'x' ∨ c = 'X' then guessInt (divisions 16) ap len
  else if c = 'f' then guessInt (fun iarg => minusLen iarg + 4 + fp.float iarg) ap len
  else if c = 'g' then guessInt (fun iarg => minusLen iarg + 4 + fp.double iarg) ap len
  else some (len, ap)

/-- The case `'l'`, with the letter that follows. It reads an `int`. -/
def guessLong (fp : FloatLoops) (c : Char) (ap : List VaArg) (len : ℕ) :
    Option (ℕ × List VaArg) :=
  if c = 'x' ∨ c = 'X' then guessInt (divisions 16) ap len
  else if c = 'f' then guessInt (fun iarg => minusLen iarg + 4 + fp.double iarg) ap len
  else guessInt (divisions 10) ap len

/-- The loop of `guess_strlen`. Of `%%` it skips the first character only. -/
def guessLoop (fp : FloatLoops) : CString → List VaArg → ℕ → Option (ℕ × List VaArg)
  | '%' :: '%' :: fmt, ap, len => guessLoop fp ('%' :: fmt) ap len
  | '%' :: 'l' :: c :: fmt, ap, len =>
      (guessLong fp c ap len).bind fun r => guessLoop fp fmt r.2 r.1
  | '%' :: c :: fmt, ap, len =>
      (guessConversion fp c ap len).bind fun r => guessLoop fp fmt r.2 r.1
  | _ :: fmt, ap, len => guessLoop fp fmt ap len
  | [], ap, len => some (len, ap)

/-- `guess_strlen`: the estimate, and the arguments that are left. -/
def guessStrlen (fp : FloatLoops) (fmt : CString) (ap : List VaArg) : Option (ℕ × List VaArg) :=
  (addLen fmt.length 128).bind fun len => guessLoop fp fmt ap len

/-! ### The functions -/

/-- What the functions of `printf.c` use of the C library: whether there is memory for so many
bytes, and the text that `vsprintf` writes. -/
structure PrintfLib where
  malloc : ℕ → Bool
  realloc : ℕ → Bool
  vsprintf : CString → List VaArg → CString
  fp : FloatLoops

/-- `ocoms_vasprintf`. The inner `none` is the return value -1. A text that does not fit into the
buffer is written past its end, and there is no result. -/
def vasprintf (lib : PrintfLib) (fmt : CString) (ap : List VaArg) : Option (Option CString) :=
  (guessStrlen lib.fp fmt ap).bind fun (length, _) =>
    if !lib.malloc (length + 1) then some none
    else
      let text := lib.vsprintf fmt ap
      if length < text.length then none
      else if !lib.realloc (text.length + 1) then some none
      else some (some text)

/-- The string at the front of a text. -/
def untilNull (text : CString) : CString := text.takeWhile (· ≠ '\x00')

/-- `strcpy`: the writes, from the start of the destination. -/
def strcpyWrites (src : CString) : List (ℕ × Char) :=
  (untilNull src ++ ['\x00']).zipIdx.map fun w => (w.2, w.1)

/-- `memcpy` from a buffer that holds `src` and a null character: the writes. There is no result where
it reads past the end. -/
def memcpyWrites (src : CString) (n : ℕ) : Option (List (ℕ × Char)) :=
  if src.length + 1 < n then none
  else some (((src ++ ['\x00']).take n).zipIdx.map fun w => (w.2, w.1))

/-- `ocoms_vsnprintf`: the return value, and the writes to `str`. `isNull` says that `str` is
a null pointer. -/
def vsnprintf (lib : PrintfLib) (isNull : Bool) (size : ℕ) (fmt : CString) (ap : List VaArg) :
    Option (ℤ × List (ℕ × Char)) :=
  (vasprintf lib fmt ap).bind fun
    | none => some (-1, [])
    | some buf =>
        if isNull then some (buf.length, [])
        else if buf.length < size then some (buf.length, strcpyWrites buf)
        else (memcpyWrites buf (subSizeT size 1)).map fun writes =>
          (buf.length, writes ++ [(size, '\x00')])

/-! ### Copies stay in the buffer -/

section Vsnprintf

variable {lib : PrintfLib} {fmt : CString} {ap : List VaArg} {size : ℕ}

/-- The bytes of `str` after the writes. -/
def afterWrites (mem : ℕ → Char) (writes : List (ℕ × Char)) : ℕ → Char :=
  writes.foldl (fun mem w => Function.update mem w.1 w.2) mem

/-- There is a string at the start of `str`. -/
def HoldsString (mem : ℕ → Char) (s : CString) : Prop :=
  (∀ i (hi : i < s.length), mem i = s[i]) ∧ mem s.length = '\x00'

/-- The text is formatted: there is memory for the estimate and for the text, which is not
longer than the estimate. -/
def PrintfLib.Formats (lib : PrintfLib) (fmt : CString) (ap : List VaArg) : Prop :=
  ∃ length rest, guessStrlen lib.fp fmt ap = some (length, rest) ∧ lib.malloc (length + 1) = true ∧
    (lib.vsprintf fmt ap).length ≤ length ∧
    lib.realloc ((lib.vsprintf fmt ap).length + 1) = true

/-- **What is asked of `vsnprintf`**: it writes to the `size` bytes of the buffer, it leaves there
the longest string at the front of the text that they have room for, and it returns the length of
the text. -/
def VsnprintfBounded (lib : PrintfLib) (size : ℕ) (fmt : CString) (ap : List VaArg) : Prop :=
  ∃ writes, vsnprintf lib false size fmt ap = some (((lib.vsprintf fmt ap).length : ℤ), writes) ∧
    (∀ w ∈ writes, w.1 < size) ∧
    (0 < size → ∀ mem, HoldsString (afterWrites mem writes)
      ((untilNull (lib.vsprintf fmt ap)).take (size - 1)))

lemma afterWrites_cons (mem : ℕ → Char) (w : ℕ × Char) (writes : List (ℕ × Char)) :
    afterWrites mem (w :: writes) = afterWrites (Function.update mem w.1 w.2) writes := rfl

/-- In front of what is written nothing is changed. -/
lemma afterWrites_zipIdx_of_lt (mem : ℕ → Char) (xs : CString) {j k : ℕ} (hj : j < k) :
    afterWrites mem ((xs.zipIdx k).map fun w => (w.2, w.1)) j = mem j := by
  induction xs generalizing mem k with
  | nil => rfl
  | cons x xs ih =>
      rw [List.zipIdx_cons, List.map_cons, afterWrites_cons, ih _ (Nat.lt_succ_of_lt hj)]
      exact Function.update_of_ne hj.ne _ _

lemma afterWrites_zipIdx (mem : ℕ → Char) (xs : CString) (k : ℕ) {i : ℕ} (hi : i < xs.length) :
    afterWrites mem ((xs.zipIdx k).map fun w => (w.2, w.1)) (k + i) = xs[i] := by
  induction xs generalizing mem k i with
  | nil => exact absurd hi (Nat.not_lt_zero i)
  | cons x xs ih =>
      rw [List.zipIdx_cons, List.map_cons, afterWrites_cons]
      cases i with
      | zero =>
          rw [Nat.add_zero]
          exact (afterWrites_zipIdx_of_lt _ _ (Nat.lt_succ_self k)).trans (Function.update_self _ _ _)
      | succ i =>
          have hplace : k + (i + 1) = k + 1 + i := by omega
          rw [hplace]
          exact ih _ _ (Nat.lt_of_succ_lt_succ hi)

/-- `strcpy` leaves a string. -/
lemma holdsString_strcpy (mem : ℕ → Char) (src : CString) :
    HoldsString (afterWrites mem (strcpyWrites src)) (untilNull src) := by
  have hlen : (untilNull src ++ ['\x00']).length = (untilNull src).length + 1 := List.length_append
  have hwritten := fun i hi => afterWrites_zipIdx mem (untilNull src ++ ['\x00']) 0 (i := i) hi
  simp only [Nat.zero_add] at hwritten
  constructor
  · intro i hi
    rw [strcpyWrites, hwritten i (by omega), List.getElem_append_left hi]
  · rw [strcpyWrites, hwritten _ (by omega), List.getElem_concat_length rfl]

lemma length_untilNull_le (text : CString) : (untilNull text).length ≤ text.length :=
  (List.takeWhile_sublist _).length_le

/-- `strcpy` writes no more than the source and its null character. -/
lemma lt_of_mem_strcpyWrites {src : CString} {w : ℕ × Char} (hw : w ∈ strcpyWrites src) :
    w.1 < src.length + 1 := by
  obtain ⟨⟨c, i⟩, hmem, rfl⟩ := List.mem_map.mp hw
  have hlt := List.snd_lt_of_mem_zipIdx hmem
  have hle := length_untilNull_le src
  rw [List.length_append, List.length_singleton] at hlt
  dsimp only
  omega

lemma vasprintf_of_formats (h : lib.Formats fmt ap) :
    vasprintf lib fmt ap = some (some (lib.vsprintf fmt ap)) := by
  obtain ⟨length, rest, hguess, hmalloc, hle, hrealloc⟩ := h
  rw [vasprintf, hguess, Option.bind_some]
  dsimp only
  rw [hmalloc, hrealloc, if_neg (by decide), if_neg (Nat.not_lt.mpr hle), if_neg (by decide)]

/-- Otherwise there is no text: the return value is -1, or the text does not fit. -/
lemma vasprintf_cases (lib : PrintfLib) (fmt : CString) (ap : List VaArg) :
    lib.Formats fmt ap ∨ vasprintf lib fmt ap = none ∨ vasprintf lib fmt ap = some none := by
  rw [vasprintf]
  cases hguess : guessStrlen lib.fp fmt ap with
  | none => exact Or.inr (Or.inl rfl)
  | some r =>
      obtain ⟨length, rest⟩ := r
      rw [Option.bind_some]
      dsimp only
      cases hmalloc : lib.malloc (length + 1) with
      | false => exact Or.inr (Or.inr rfl)
      | true =>
          rw [if_neg (by decide)]
          by_cases hle : length < (lib.vsprintf fmt ap).length
          · exact Or.inr (Or.inl (if_pos hle))
          rw [if_neg hle]
          cases hrealloc : lib.realloc ((lib.vsprintf fmt ap).length + 1) with
          | false => exact Or.inr (Or.inr rfl)
          | true => exact Or.inl ⟨length, rest, hguess, hmalloc, Nat.not_lt.mp hle, hrealloc⟩

end Vsnprintf

/-- **`ocoms_vsnprintf`** stays in the buffer and leaves the text there if and only if the text is
formatted and shorter than the buffer. A text that is cut is ended one byte behind the buffer. -/
theorem vsnprintf_bounded_iff (lib : PrintfLib) (size : ℕ) (fmt : CString) (ap : List VaArg) :
    VsnprintfBounded lib size fmt ap ↔
      lib.Formats fmt ap ∧ (lib.vsprintf fmt ap).length < size := by
  constructor
  · rintro ⟨writes, hcall, hbounds, -⟩
    unfold vsnprintf at hcall
    rcases vasprintf_cases lib fmt ap with hformats | hnone | hminus
    · rw [vasprintf_of_formats hformats, Option.bind_some] at hcall
      refine ⟨hformats, Nat.lt_of_not_le fun hle => ?_⟩
      dsimp only at hcall
      rw [if_neg (by decide), if_neg (Nat.not_lt.mpr hle)] at hcall
      obtain ⟨copied, -, hwrites⟩ := Option.map_eq_some_iff.mp hcall
      have hlast : (size, '\x00') ∈ writes := by
        rw [← (Prod.mk.inj hwrites).2]
        exact List.mem_append_right _ (List.mem_singleton_self _)
      exact Nat.lt_irrefl size (hbounds _ hlast)
    · rw [hnone] at hcall
      cases hcall
    · rw [hminus, Option.bind_some] at hcall
      have hlen := (Prod.mk.inj (Option.some.inj hcall)).1
      omega
  · rintro ⟨hformats, hlt⟩
    have hle := length_untilNull_le (lib.vsprintf fmt ap)
    refine ⟨strcpyWrites (lib.vsprintf fmt ap), ?_, fun w hw => ?_, fun _ mem => ?_⟩
    · unfold vsnprintf
      rw [vasprintf_of_formats hformats, Option.bind_some]
      dsimp only
      rw [if_neg (by decide), if_pos hlt]
    · have hw := lt_of_mem_strcpyWrites hw
      omega
    · rw [List.take_of_length_le (by omega)]
      exact holdsString_strcpy mem _

/-- A C library that has memory, and formats what has no conversions. -/
def PrintfLib.plain : PrintfLib where
  malloc _ := true
  realloc _ := true
  vsprintf fmt _ := fmt
  fp := ⟨fun _ => 1, fun _ => 1⟩

/-- Five characters for a buffer of five bytes: four are copied, and the null character is written
behind the buffer. -/
theorem vsnprintf_bounded_hello_fails :
    vsnprintf .plain false 5 ['h', 'e', 'l', 'l', 'o'] []
        = some (5, [(0, 'h'), (1, 'e'), (2, 'l'), (3, 'l'), (5, '\x00')]) ∧
      ¬ VsnprintfBounded .plain 5 ['h', 'e', 'l', 'l', 'o'] [] := by
  have hcall : vsnprintf .plain false 5 ['h', 'e', 'l', 'l', 'o'] []
      = some (5, [(0, 'h'), (1, 'e'), (2, 'l'), (3, 'l'), (5, '\x00')]) := by decide
  refine ⟨hcall, ?_⟩
  rintro ⟨writes, hcall', hbounds, -⟩
  rw [hcall] at hcall'
  obtain ⟨-, rfl⟩ := Prod.mk.inj (Option.some.inj hcall')
  exact absurd (hbounds (5, '\x00') (by simp)) (Nat.lt_irrefl 5)

end Ocoms
