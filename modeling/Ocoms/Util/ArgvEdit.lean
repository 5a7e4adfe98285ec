import Ocoms.Lib.CInt
import Ocoms.Lib.Cells
import Ocoms.Lib.Strings

/-!
Editing argument vectors in place: `ocoms_argv_append_nosize`, `ocoms_argv_copy`,
`ocoms_argv_delete`, `ocoms_argv_insert` and `ocoms_argv_insert_element`.

* A vector is the list of the cells that are allocated for it; its strings are those up to the
  first null pointer. A pointer to one is `none` where it is `NULL`. Memory does not run out.
* A cell behind the null pointer that `realloc` added, and one whose string was freed, is
  `garbage`. `none` is an access outside the allocation, to garbage, or an overflow of `int`.
* `argvDelete_eq`, `argvInsert_eq` and `argvInsertElement_eq` say what the functions do to the
  strings; `argv_edit_iff` is the theorem about all three.
-/

namespace Ocoms

/-! ### The functions -/

/-- `OCOMS_SUCCESS` and `OCOMS_ERR_BAD_PARAM`. -/
inductive ArgvRc
  | success | badParam
  deriving DecidableEq, Repr

/-- One pointer of a vector. -/
inductive ArgvCell
  | garbage
  | null
  | str (s : CString)
  deriving DecidableEq

/-- `ocoms_argv_count`. -/
def argvCount : List ArgvCell → Option ℕ
  | .null :: _ => some 0
  | .str _ :: cells => (argvCount cells).map (· + 1)
  | _ => none

/-- The strings that a loop over a vector reads. -/
def argvStrings : List ArgvCell → Option (List CString)
  | .null :: _ => some []
  | .str s :: cells => (argvStrings cells).map (s :: ·)
  | _ => none

/-- `ocoms_argv_append_nosize`. -/
def argvAppendNosize (argv : Option (List ArgvCell)) (arg : CString) :
    Option (List ArgvCell) :=
  match argv with
  | none => some [.str arg, .null]
  | some cells => do
      let argc ← argvCount cells
      let cells ← Cells.write (Cells.resize .garbage cells (argc + 2)) argc (.str arg)
      Cells.write cells (argc + 1) .null

/-- The loop that appends strings to a vector. -/
def argvAppendAll (cells : List ArgvCell) (v : List CString) : Option (List ArgvCell) :=
  v.foldlM (fun cells s => argvAppendNosize (some cells) s) cells

/-- `ocoms_argv_copy`. -/
def argvCopy (argv : Option (List ArgvCell)) : Option (Option (List ArgvCell)) :=
  match argv with
  | none => some none
  | some cells => (argvStrings cells).bind fun v => (argvAppendAll [.null] v).map some

/-- `free` of `n` strings from `i` on. -/
def freeItems : ℕ → ℕ → List ArgvCell → Option (List ArgvCell)
  | 0, _, cells => some cells
  | n + 1, i, cells =>
      match cells[i]? with
      | some (.str _) => (Cells.write cells i .garbage).bind (freeItems n (i + 1))
      | _ => none

/-- `ocoms_argv_delete`, behind the checks: `numToDelete` cells from `start` on, of `count`. -/
def argvDeleteCells (cells : List ArgvCell) (count start numToDelete : ℕ) :
    Option (List ArgvCell) := do
  let suffixCount := count - (start + numToDelete)
  let cells ← freeItems (min count (start + numToDelete) - start) start cells
  let cells ← Cells.moveDown suffixCount start (start + numToDelete) cells
  let cells ← Cells.write cells (start + suffixCount) .null
  some (Cells.resize .garbage cells (start + suffixCount + 1))

/-- `ocoms_argv_delete`. -/
def argvDelete (argc : ℤ) (argv : Option (List ArgvCell)) (start numToDelete : ℤ) :
    Option (ArgvRc × ℤ × Option (List ArgvCell)) :=
  match argv with
  | none => some (.success, argc, none)
  | some cells =>
      if numToDelete = 0 then some (.success, argc, some cells)
      else (argvCount cells).bind fun count =>
        if (count : ℤ) < start then some (.success, argc, some cells)
        else if start < 0 ∨ numToDelete < 0 then some (.badParam, argc, some cells)
        else if CInt.max < start + numToDelete then none
        else (argvDeleteCells cells count start.toNat numToDelete.toNat).map fun cells =>
          (.success, argc - numToDelete, some cells)

/-- The strings are written from `start` on into a vector of `count` strings, whose strings from
there on are moved first. -/
def argvInsertCells (cells : List ArgvCell) (count start : ℕ) (source : List CString) :
    Option (List ArgvCell) := do
  let suffixCount := count - start
  let cells := Cells.resize .garbage cells (count + source.length + 1)
  let cells ← Cells.moveUp suffixCount (start + source.length) start cells
  let cells ← Cells.write cells (start + suffixCount + source.length) .null
  Cells.store (source.map .str) start cells

/-- `ocoms_argv_insert`. -/
def argvInsert (target : Option (List ArgvCell)) (start : ℤ) (source : Option (List ArgvCell)) :
    Option (ArgvRc × Option (List ArgvCell)) :=
  match target with
  | none => some (.badParam, none)
  | some cells =>
      if start < 0 then some (.badParam, some cells)
      else match source with
        | none => some (.success, some cells)
        | some source =>
            (argvCount cells).bind fun count => (argvStrings source).bind fun source =>
              if (count : ℤ) < start then
                (argvAppendAll cells source).map fun cells => (.success, some cells)
              else (argvInsertCells cells count start.toNat source).map fun cells =>
                (.success, some cells)

/-- `ocoms_argv_insert_element`. -/
def argvInsertElement (target : Option (List ArgvCell)) (location : ℤ)
    (source : Option CString) : Option (ArgvRc × Option (List ArgvCell)) :=
  match target with
  | none => some (.badParam, none)
  | some cells =>
      if location < 0 then some (.badParam, some cells)
      else match source with
        | none => some (.success, some cells)
        | some source =>
            (argvCount cells).bind fun count =>
              if (count : ℤ) < location then
                (argvAppendNosize (some cells) source).map fun cells => (.success, some cells)
              else (argvInsertCells cells count location.toNat [source]).map fun cells =>
                (.success, some cells)

/-! ### Vectors as lists of strings -/

/-- The cells of a vector: its strings and the null pointer. -/
def argvCells (v : List CString) : List ArgvCell := v.map .str ++ [.null]

/-- The strings of the vector are `v`, and the null pointer is behind them. -/
def IsVector (cells : List ArgvCell) (v : List CString) : Prop := argvCells v <+: cells

/-- The elements whose indices are not in `[start, start + n)`. -/
def removeRange (v : List CString) (start n : ℤ) : List CString :=
  (v.zipIdx.filter fun p => ¬ (start ≤ p.2 ∧ (p.2 : ℤ) < start + n)).map Prod.fst

section Vectors

variable {cells more : List ArgvCell} {v w : List CString}

lemma argvCells_append (v w : List CString) :
    argvCells (v ++ w) = v.map .str ++ argvCells w := by
  rw [argvCells, argvCells, List.map_append, List.append_assoc]

lemma argvCount_eq (v : List CString) (more : List ArgvCell) :
    argvCount (argvCells v ++ more) = some v.length := by
  induction v with
  | nil => rfl
  | cons s v ih =>
      have hcons : argvCells (s :: v) ++ more = .str s :: (argvCells v ++ more) := rfl
      rw [hcons, argvCount, ih]
      rfl

lemma argvStrings_eq (v : List CString) (more : List ArgvCell) :
    argvStrings (argvCells v ++ more) = some v := by
  induction v with
  | nil => rfl
  | cons s v ih =>
      have hcons : argvCells (s :: v) ++ more = .str s :: (argvCells v ++ more) := rfl
      rw [hcons, argvStrings, ih]
      rfl

lemma isVector_append (v : List CString) (more : List ArgvCell) :
    IsVector (argvCells v ++ more) v :=
  List.prefix_append _ _

/-- A vector has one list of strings. -/
lemma IsVector.unique (hv : IsVector cells v) (hw : IsVector cells w) : v = w := by
  obtain ⟨more, rfl⟩ := hv
  obtain ⟨more', hw⟩ := hw
  have hread := argvStrings_eq w more'
  rw [hw, argvStrings_eq] at hread
  exact Option.some.inj hread

lemma freeItems_append (pre : List ArgvCell) (mid : List CString) (post : List ArgvCell) :
    freeItems mid.length pre.length (pre ++ (mid.map .str ++ post))
      = some (pre ++ (List.replicate mid.length .garbage ++ post)) := by
  induction mid generalizing pre with
  | nil => rfl
  | cons s mid ih =>
      have hrest := ih (pre ++ [.garbage])
      simp only [List.length_append, List.length_singleton, List.append_assoc,
        List.singleton_append] at hrest
      rw [List.map_cons, List.cons_append, List.length_cons, freeItems,
        Cells.getElem?_append_cons]
      dsimp only
      rw [Cells.write_append, Option.bind_some, hrest, List.replicate_succ, List.cons_append]

/-! ### Ranges of a list -/

lemma filter_zipIdx_eq (v : List CString) (k : ℕ) (p : CString × ℕ → Bool) (b : Bool)
    (h : ∀ i, k ≤ i → i < k + v.length → ∀ s, p (s, i) = b) :
    ((v.zipIdx k).filter p).map Prod.fst = if b then v else [] := by
  cases b with
  | true =>
      have hall : (v.zipIdx k).filter p = v.zipIdx k := by
        refine List.filter_eq_self.mpr fun x hx => ?_
        obtain ⟨hge, hlt, -⟩ := List.mem_zipIdx hx
        exact h x.2 hge hlt x.1
      rw [hall, if_pos rfl, List.zipIdx_map_fst]
  | false =>
      have hnone : (v.zipIdx k).filter p = [] := by
        refine List.filter_eq_nil_iff.mpr fun x hx => ?_
        obtain ⟨hge, hlt, -⟩ := List.mem_zipIdx hx
        rw [h x.2 hge hlt x.1]
        exact Bool.false_ne_true
      rw [hnone]
      rfl

/-- The range cut out of the list. -/
lemma removeRange_append (pre mid post : List CString) (n : ℕ)
    (hmid : mid.length = n ∨ post = [] ∧ mid.length ≤ n) :
    removeRange (pre ++ (mid ++ post)) pre.length n = pre ++ post := by
  rw [removeRange, List.zipIdx_append, List.zipIdx_append, List.filter_append, List.filter_append,
    List.map_append, List.map_append, filter_zipIdx_eq pre 0 _ true, filter_zipIdx_eq mid _ _ false]
  · rcases hmid with hmid | ⟨rfl, -⟩
    · rw [filter_zipIdx_eq post _ _ true]
      · rfl
      · intro i hge _ s
        simp only [decide_eq_true_eq]
        omega
    · rfl
  · intro i hge hlt s
    simp only [decide_eq_false_iff_not, not_not]
    omega
  · intro i _ hlt s
    simp only [decide_eq_true_eq]
    omega

/-- Nothing is cut out where no index is in the range. -/
lemma removeRange_eq_self {start n : ℤ}
    (h : ∀ i : ℕ, i < v.length → ¬ (start ≤ i ∧ (i : ℤ) < start + n)) :
    removeRange v start n = v := by
  rw [removeRange, filter_zipIdx_eq v 0 _ true fun i _ hlt s => ?_, if_pos rfl]
  exact decide_eq_true (h i (by omega))

/-! ### What the functions do to the strings -/

lemma length_argvCells (v : List CString) : (argvCells v).length = v.length + 1 := by
  rw [argvCells, List.length_append, List.length_map, List.length_singleton]

/-- **A string is appended.** -/
lemma argvAppendNosize_eq (v : List CString) (more : List ArgvCell) (s : CString) :
    argvAppendNosize (some (argvCells v ++ more)) s = some (argvCells (v ++ [s])) := by
  have hresize : Cells.resize .garbage (argvCells v ++ more) (v.length + 2)
      = v.map .str ++ Cells.resize .garbage (.null :: more) 2 := by
    have h := Cells.resize_append .garbage (v.map ArgvCell.str) (.null :: more) 2
    rw [List.length_map] at h
    rw [argvCells, List.append_assoc, List.singleton_append, h]
  obtain ⟨x, y, hxy⟩ : ∃ x y, Cells.resize .garbage (ArgvCell.null :: more) 2 = [x, y] :=
    List.length_eq_two.mp (Cells.length_resize _ _ _)
  have hfirst := Cells.write_append (v.map ArgvCell.str) x (.str s) [y]
  have hsecond := Cells.write_append (v.map ArgvCell.str ++ [.str s]) y .null []
  rw [List.length_map] at hfirst
  rw [List.length_append, List.length_map, List.length_singleton, List.append_assoc,
    List.singleton_append] at hsecond
  rw [argvAppendNosize, argvCount_eq]
  simp only [Option.bind_eq_bind, Option.bind_some]
  rw [hresize, hxy, hfirst, Option.bind_some, hsecond, argvCells, List.map_append]
  rfl

lemma argvAppendAll_eq (w v : List CString) (more : List ArgvCell) :
    ∃ cells, argvAppendAll (argvCells v ++ more) w = some cells ∧ IsVector cells (v ++ w) := by
  induction w generalizing v more with
  | nil => exact ⟨_, rfl, by rw [List.append_nil]; exact isVector_append v more⟩
  | cons s w ih =>
      obtain ⟨cells, hcells, hv⟩ := ih (v ++ [s]) []
      refine ⟨cells, ?_, by rwa [List.append_assoc, List.singleton_append] at hv⟩
      rw [List.append_nil] at hcells
      rw [argvAppendAll, List.foldlM_cons, argvAppendNosize_eq]
      exact hcells

/-- **The copy has the same strings.** -/
lemma argvCopy_eq (v : List CString) (more : List ArgvCell) :
    ∃ cells, argvCopy (some (argvCells v ++ more)) = some (some cells) ∧ IsVector cells v := by
  obtain ⟨cells, hcells, hv⟩ := argvAppendAll_eq v [] []
  refine ⟨cells, ?_, hv⟩
  rw [argvCopy, argvStrings_eq, Option.bind_some]
  exact congrArg (Option.map some) hcells

/-- The strings behind the deleted ones are moved over them. -/
lemma moveDown_deleted (pre mid post : List CString) (more : List ArgvCell) (n : ℕ)
    (hmid : mid.length = n ∨ post = [] ∧ mid.length ≤ n) :
    ∃ x rest, Cells.moveDown post.length pre.length (pre.length + n)
        (pre.map .str ++ (List.replicate mid.length .garbage ++ (argvCells post ++ more)))
      = some (pre.map .str ++ (post.map .str ++ x :: rest)) := by
  rcases hmid with rfl | ⟨rfl, -⟩
  · have hmove := Cells.moveDown_append (pre.map ArgvCell.str)
      (List.replicate mid.length .garbage) (post.map .str) (.null :: more)
    rw [List.length_map, List.length_map, List.length_replicate] at hmove
    set behind := (List.replicate mid.length ArgvCell.garbage
      ++ (post.map ArgvCell.str ++ ArgvCell.null :: more)).drop post.length with hbehind
    have hpos : behind ≠ [] := by
      refine List.ne_nil_of_length_pos ?_
      rw [hbehind, List.length_drop, List.length_append, List.length_append, List.length_map,
        List.length_cons]
      omega
    obtain ⟨x, rest, hrest⟩ := List.exists_cons_of_ne_nil hpos
    rw [hrest] at hmove
    rw [argvCells, List.append_assoc, List.singleton_append]
    exact ⟨x, rest, hmove⟩
  · cases h : List.replicate mid.length ArgvCell.garbage ++ (argvCells [] ++ more) with
    | nil => exact absurd (List.append_eq_nil_iff.mp h).2 (List.cons_ne_nil _ _)
    | cons x rest => exact ⟨x, rest, rfl⟩

/-- **The strings of the range are deleted.** -/
lemma argvDeleteCells_eq (pre mid post : List CString) (more : List ArgvCell) (n : ℕ)
    (hmid : mid.length = n ∨ post = [] ∧ mid.length ≤ n) :
    argvDeleteCells (argvCells (pre ++ (mid ++ post)) ++ more) (pre ++ (mid ++ post)).length
      pre.length n = some (argvCells (pre ++ post)) := by
  have hcount : (pre ++ (mid ++ post)).length = pre.length + (mid.length + post.length) := by
    rw [List.length_append, List.length_append]
  have hlen : mid.length = n ∨ post.length = 0 ∧ mid.length ≤ n :=
    hmid.imp_right fun h => ⟨List.length_eq_zero_iff.mpr h.1, h.2⟩
  have hsuffix : pre.length + (mid.length + post.length) - (pre.length + n) = post.length := by
    omega
  have hfreed : min (pre.length + (mid.length + post.length)) (pre.length + n) - pre.length
      = mid.length := by
    omega
  have hfree := freeItems_append (pre.map .str) mid (argvCells post ++ more)
  rw [List.length_map] at hfree
  obtain ⟨x, rest, hmove⟩ := moveDown_deleted pre mid post more n hmid
  have hwrite := Cells.write_append (pre.map ArgvCell.str ++ post.map .str) x .null rest
  rw [List.length_append, List.length_map, List.length_map, List.append_assoc] at hwrite
  have hresize := Cells.resize_append .garbage (argvCells (pre ++ post)) rest 0
  have hcells : pre.map ArgvCell.str ++ (post.map .str) ++ .null :: rest
      = argvCells (pre ++ post) ++ rest := by
    rw [argvCells, List.map_append, List.append_assoc _ [ArgvCell.null], List.singleton_append]
  rw [length_argvCells, List.length_append, Nat.add_zero] at hresize
  rw [argvDeleteCells, hcount, hsuffix, hfreed, argvCells_append, argvCells_append,
    List.append_assoc, List.append_assoc, hfree]
  simp only [Option.bind_eq_bind, Option.bind_some]
  rw [hmove, Option.bind_some, hwrite, Option.bind_some, hcells, hresize, Cells.resize,
    List.take_zero, Nat.zero_sub, List.replicate_zero, List.append_nil, List.append_nil]

/-- **The strings are inserted.** -/
lemma argvInsertCells_eq (pre post source : List CString) (more : List ArgvCell) :
    argvInsertCells (argvCells (pre ++ post) ++ more) (pre ++ post).length pre.length source
      = some (argvCells (pre ++ (source ++ post))) := by
  set k := source.length with hk
  have hsuffix : (pre ++ post).length - pre.length = post.length := by
    rw [List.length_append]
    omega
  -- the null pointer and the cells behind it: room for the strings, and one cell more
  obtain ⟨gap, x, hgap, hlen⟩ : ∃ gap x,
      .null :: Cells.resize .garbage more k = gap ++ [x] ∧ gap.length = k := by
    have hlen : (ArgvCell.null :: Cells.resize .garbage more k).length = k + 1 := by
      rw [List.length_cons, Cells.length_resize]
    refine ⟨(ArgvCell.null :: Cells.resize .garbage more k).dropLast, _,
      (List.dropLast_append_getLast (List.cons_ne_nil _ _)).symm, ?_⟩
    rw [List.length_dropLast, hlen, Nat.add_sub_cancel]
  have hresize : Cells.resize .garbage (argvCells (pre ++ post) ++ more)
      ((pre ++ post).length + k + 1)
      = pre.map .str ++ (post.map .str ++ (gap ++ [x])) := by
    have h := Cells.resize_append .garbage (argvCells (pre ++ post)) more k
    rw [length_argvCells, Nat.add_right_comm] at h
    rw [h, argvCells, ← hgap, List.map_append]
    simp only [List.append_assoc, List.singleton_append]
  have hmove := Cells.moveUp_append (pre.map ArgvCell.str) (post.map .str) gap [x]
  rw [List.length_map, List.length_map, hlen] at hmove
  set old := (post.map ArgvCell.str ++ gap).take k with hold
  have holdlen : old.length = k := by
    rw [hold, List.length_take, List.length_append, hlen]
    omega
  have hwrite := Cells.write_append (pre.map ArgvCell.str ++ (old ++ post.map .str)) x .null []
  have hpos : (pre.map ArgvCell.str ++ (old ++ post.map ArgvCell.str)).length
      = pre.length + post.length + k := by
    rw [List.length_append, List.length_append, holdlen, List.length_map, List.length_map]
    omega
  rw [hpos] at hwrite
  simp only [List.append_assoc] at hwrite
  have hstore := Cells.store_append (pre.map ArgvCell.str) old (source.map .str)
    (post.map .str ++ [.null]) (by rw [holdlen, List.length_map])
  rw [List.length_map] at hstore
  rw [argvInsertCells, ← hk, hsuffix, hresize]
  simp only [Option.bind_eq_bind]
  rw [hmove, Option.bind_some, hwrite, Option.bind_some, hstore, argvCells_append,
    argvCells_append, argvCells]

/-- The range of `argvDelete`, in front of it, and behind it. -/
lemma exists_parts (v : List CString) (start : ℕ) (hstart : start ≤ v.length) (n : ℕ) :
    ∃ pre mid post, v = pre ++ (mid ++ post) ∧ pre.length = start ∧
      (mid.length = n ∨ post = [] ∧ mid.length ≤ n) := by
  refine ⟨v.take start, (v.drop start).take n, (v.drop start).drop n, ?_, ?_, ?_⟩
  · rw [List.take_append_drop, List.take_append_drop]
  · exact List.length_take_of_le hstart
  · rcases Nat.le_total n (v.drop start).length with hle | hle
    · exact .inl (List.length_take_of_le hle)
    · exact .inr ⟨List.drop_eq_nil_of_le hle, List.length_take_le n _⟩

end Vectors

/-! ### The specification -/

/-- `ocoms_argv_delete` removes the elements of the range, and `*argc` is the new count. -/
def DeletesRange (v : List CString) (more : List ArgvCell) (start n : ℤ) : Prop :=
  ∃ rc argc cells,
    argvDelete v.length (some (argvCells v ++ more)) start n = some (rc, argc, some cells) ∧
      IsVector cells (removeRange v start n) ∧ argc = (removeRange v start n).length

section Specification

variable {v : List CString} {more : List ArgvCell} {start n : ℤ}

/-- A call that changes nothing. -/
lemma deletesRange_of_unchanged (rc : ArgvRc)
    (h : argvDelete v.length (some (argvCells v ++ more)) start n
      = some (rc, (v.length : ℤ), some (argvCells v ++ more))) :
    DeletesRange v more start n ↔ removeRange v start n = v := by
  constructor
  · rintro ⟨rc, argc, cells, hdelete, hv, -⟩
    obtain rfl : cells = argvCells v ++ more := by
      rw [h] at hdelete
      simp only [Option.some.injEq, Prod.mk.injEq] at hdelete
      exact hdelete.2.2.symm
    exact hv.unique (isVector_append v more)
  · intro hv
    rw [DeletesRange, hv]
    exact ⟨_, _, _, h, isVector_append v more, rfl⟩

/-- **`ocoms_argv_delete` keeps the count exact unless the range passes the end.** -/
lemma deletesRange_iff (v : List CString) (more : List ArgvCell) (start n : ℤ) :
    DeletesRange v more start n ↔
      n ≤ 0 ∨ v.length < start ∨ start < 0 ∧ (start + n ≤ 0 ∨ v = []) ∨
        0 ≤ start ∧ start + n ≤ v.length ∧ start + n ≤ CInt.max := by
  by_cases hzero : n = 0
  · refine iff_of_true ((deletesRange_of_unchanged .success ?_).mpr ?_) (by omega)
    · rw [argvDelete, if_pos hzero]
    · exact removeRange_eq_self fun i _ => by omega
  by_cases hend : (v.length : ℤ) < start
  · refine iff_of_true ((deletesRange_of_unchanged .success ?_).mpr ?_) (by omega)
    · rw [argvDelete, if_neg hzero, argvCount_eq, Option.bind_some, if_pos hend]
    · exact removeRange_eq_self fun i _ => by omega
  by_cases hneg : start < 0 ∨ n < 0
  · rw [deletesRange_of_unchanged .badParam
      (by rw [argvDelete, if_neg hzero, argvCount_eq, Option.bind_some, if_neg hend,
        if_pos hneg])]
    constructor
    · intro hv
      by_contra hcond
      have hpos : 0 < v.length := by
        refine List.length_pos_iff.mpr fun hnil => hcond ?_
        simp only [hnil, or_true, and_true]
        omega
      -- the first element is in the range
      obtain ⟨s, v, rfl⟩ := List.exists_cons_of_ne_nil (List.length_pos_iff.mp hpos)
      have hlen := congrArg List.length hv
      have hfirst : (decide ¬ (start ≤ ((0 : ℕ) : ℤ) ∧ ((0 : ℕ) : ℤ) < start + n)) = false := by
        simp only [decide_eq_false_iff_not, not_not]
        omega
      rw [removeRange, List.zipIdx_cons, List.filter_cons, hfirst, if_neg Bool.false_ne_true,
        List.length_map] at hlen
      have hle := List.length_filter_le
        (fun p : CString × ℕ => decide ¬ (start ≤ p.2 ∧ (p.2 : ℤ) < start + n)) (v.zipIdx 1)
      rw [List.length_zipIdx] at hle
      rw [Nat.zero_add, List.length_cons] at hlen
      omega
    · intro hcond
      refine removeRange_eq_self fun i hi => ?_
      rcases hcond with h | h | ⟨-, h | rfl⟩ | h
      · omega
      · omega
      · omega
      · exact absurd hi (Nat.not_lt_zero i)
      · omega
  obtain ⟨pre, mid, post, hv, hpre, hmid⟩ :=
    exists_parts v start.toNat (by omega) n.toNat
  have hstart : ((pre.length : ℕ) : ℤ) = start := by omega
  have hn : ((n.toNat : ℕ) : ℤ) = n := by omega
  have hremove : removeRange v start n = pre ++ post := by
    rw [hv, ← hstart, ← hn]
    exact removeRange_append pre mid post n.toNat hmid
  have hlen : v.length = pre.length + (mid.length + post.length) := by
    rw [hv, List.length_append, List.length_append]
  have hlen' : mid.length = n.toNat ∨ post.length = 0 ∧ mid.length ≤ n.toNat :=
    hmid.imp_right fun h => ⟨List.length_eq_zero_iff.mpr h.1, h.2⟩
  rw [DeletesRange, argvDelete, if_neg hzero, argvCount_eq, Option.bind_some, if_neg hend,
    if_neg hneg, hremove, List.length_append]
  by_cases hover : CInt.max < start + n
  · rw [if_pos hover]
    refine iff_of_false ?_ (by omega)
    rintro ⟨rc, argc, cells, hdelete, -⟩
    cases hdelete
  · have hdelete : argvDeleteCells (argvCells v ++ more) v.length start.toNat n.toNat
        = some (argvCells (pre ++ post)) := by
      rw [hv, ← hpre]
      exact argvDeleteCells_eq pre mid post more n.toNat hmid
    rw [if_neg hover, hdelete, Option.map_some]
    constructor
    · rintro ⟨rc, argc, cells, hresult, -, hargc⟩
      have hcount : (v.length : ℤ) - n = argc := by
        simp only [Option.some.injEq, Prod.mk.injEq] at hresult
        exact hresult.2.1
      omega
    · intro hcond
      refine ⟨_, _, _, rfl, List.prefix_refl _, ?_⟩
      omega

/-- **`ocoms_argv_insert` inserts** at the position, or at the end. -/
lemma argvInsert_eq (v : List CString) (more : List ArgvCell) (position : ℕ)
    (source : List CString) (sourceMore : List ArgvCell) :
    ∃ cells, argvInsert (some (argvCells v ++ more)) position
        (some (argvCells source ++ sourceMore)) = some (.success, some cells) ∧
      IsVector cells (v.take position ++ (source ++ v.drop position)) := by
  have hnonneg : ¬ (position : ℤ) < 0 := by omega
  rw [argvInsert, if_neg hnonneg]
  simp only [argvCount_eq, argvStrings_eq, Option.bind_some]
  by_cases hend : (v.length : ℤ) < position
  · have hle : v.length ≤ position := by omega
    obtain ⟨cells, hcells, hvector⟩ := argvAppendAll_eq source v more
    rw [if_pos hend, hcells, List.take_of_length_le hle, List.drop_eq_nil_of_le hle,
      List.append_nil]
    exact ⟨cells, rfl, hvector⟩
  · have hinsert := argvInsertCells_eq (v.take position) (v.drop position) source more
    rw [List.take_append_drop, List.length_take_of_le (by omega)] at hinsert
    rw [if_neg hend, Int.toNat_natCast, hinsert]
    exact ⟨_, rfl, List.prefix_refl _⟩

/-- **`ocoms_argv_insert_element` inserts** at the position, or at the end. -/
lemma argvInsertElement_eq (v : List CString) (more : List ArgvCell) (position : ℕ)
    (source : CString) :
    ∃ cells, argvInsertElement (some (argvCells v ++ more)) position (some source)
        = some (.success, some cells) ∧
      IsVector cells (v.take position ++ source :: v.drop position) := by
  have hnonneg : ¬ (position : ℤ) < 0 := by omega
  rw [argvInsertElement, if_neg hnonneg]
  simp only [argvCount_eq, Option.bind_some]
  by_cases hend : (v.length : ℤ) < position
  · have hle : v.length ≤ position := by omega
    rw [if_pos hend, argvAppendNosize_eq, List.take_of_length_le hle, List.drop_eq_nil_of_le hle]
    exact ⟨_, rfl, List.prefix_refl _⟩
  · have hinsert := argvInsertCells_eq (v.take position) (v.drop position) [source] more
    rw [List.take_append_drop, List.length_take_of_le (by omega), List.singleton_append] at hinsert
    rw [if_neg hend, Int.toNat_natCast, hinsert]
    exact ⟨_, rfl, List.prefix_refl _⟩

/-- **Editing is list editing, and `ocoms_argv_delete` keeps the count exact exactly for the ranges
that do not pass the end**, but for those that name no element: `*argc` loses as many elements as
were asked for. -/
theorem argv_edit_iff (v : List CString) (more : List ArgvCell) :
    (∀ start n : ℤ, DeletesRange v more start n ↔
      n ≤ 0 ∨ v.length < start ∨ start < 0 ∧ (start + n ≤ 0 ∨ v = []) ∨
        0 ≤ start ∧ start + n ≤ v.length ∧ start + n ≤ CInt.max) ∧
    (∀ (position : ℕ) (source : List CString) (sourceMore : List ArgvCell),
      ∃ cells, argvInsert (some (argvCells v ++ more)) position
          (some (argvCells source ++ sourceMore)) = some (.success, some cells) ∧
        IsVector cells (v.take position ++ (source ++ v.drop position))) ∧
    ∀ (position : ℕ) (source : CString),
      ∃ cells, argvInsertElement (some (argvCells v ++ more)) position (some source)
          = some (.success, some cells) ∧
        IsVector cells (v.take position ++ source :: v.drop position) :=
  ⟨deletesRange_iff v more, argvInsert_eq v more, argvInsertElement_eq v more⟩

/-- One string of three is left, and the count is negative. -/
theorem argv_delete_past_end_fails :
    argvDelete 3 (some (argvCells ["a".toList, "b".toList, "c".toList])) 1 5
        = some (.success, -2, some (argvCells ["a".toList])) ∧
      ¬ DeletesRange ["a".toList, "b".toList, "c".toList] [] 1 5 := by
  refine ⟨by decide, ?_⟩
  rw [deletesRange_iff]
  decide

end Specification

end Ocoms
