import Ocoms.Datatype.Clone
import Ocoms.Datatype.Copy
import Ocoms.Datatype.GetCount
import Ocoms.Datatype.Raw

/-!
The stacks of the walks.

* `walkPeak` and the other peaks are the most stack entries that a call has in use at any moment.
  They follow the calls that they measure.
* `level` counts the loops that are open behind the first entries of a description;
  `level_take_desc_le` bounds it by the depth of the nest.
* `PlaceFits` ties a stack to the level of the place it is used at. Every visit of an entry keeps
  it, whatever the walker does (`walkStep_fits`, `generalStep_fits`, `countStep_fits`), and so does
  every call (`convertorPack_fits`, `convertorUnpack_fits`, `setPosition_fits`,
  `convertorRaw_fits`).
* So a call uses an entry for each loop that can be open, one below them, and one for the element
  that it stops at (`convertorPackPeak_le` and the lemmas after it).
-/

namespace Ocoms

open Layout Nest

/-! ### The entries in use -/

section Peaks

/-- During a walk, of at most `fuel` visits. -/
def walkPeak {σ : Type} (W : Walker σ) (desc : List DtElemDesc) (extent : ℤ) :
    ℕ → Cursor → σ → ℕ
  | 0, c, _ => c.stack.length
  | fuel + 1, c, s =>
      max c.stack.length
        (match walkStep W desc extent c s with
          | some (.next c' s') => walkPeak W desc extent fuel c' s'
          | some (.suspend c' _) | some (.complete c' _) => c'.stack.length
          | none => 0)

variable (build : Build) (mem : ℤ → Byte) (fuel : ℕ)

/-- In the loop of the generic pack. -/
def packIovsPeak (pBaseBuf : ℤ) (desc : List DtElemDesc) (extent : ℤ) :
    List Iovec → Cursor → Csum → ℕ
  | [], c, _ => c.stack.length
  | v :: vs, c, csum =>
      let s : PackState := ⟨v.base, v.len, [], csum⟩
      max (walkPeak (packWalker build mem pBaseBuf) desc extent fuel c s)
        (match walk (packWalker build mem pBaseBuf) desc extent fuel c s with
          | some (.suspend c' s') => packIovsPeak pBaseBuf desc extent vs c' s'.csum
          | _ => 0)

/-- In `ocoms_generic_simple_pack`, from the saved element that it takes off the stack to the one
that it leaves there. -/
def genericSimplePackPeak (conv : Convertor) (iov : List Iovec) : ℕ :=
  max conv.stack.length (max
    (conv.load.elim 0 fun c =>
      packIovsPeak build mem fuel conv.pBaseBuf conv.useDesc.desc conv.pDesc.extent iov c conv.csum)
    ((genericSimplePack build mem fuel conv iov).elim 0 fun r => r.conv.stack.length))

/-- In the loop of the generic unpack. -/
def unpackIovsPeak (pBaseBuf : ℤ) (desc : List DtElemDesc) (extent : ℤ) :
    List Fragment → Cursor → ℕ → (ℤ → Byte) → Csum → ℕ
  | [], c, _, _, _ => c.stack.length
  | v :: vs, c, partialLength, mem, csum =>
      match unpackMissing build pBaseBuf desc v c partialLength mem csum with
      | none => c.stack.length
      | some (c, s) =>
          max (walkPeak (unpackWalker build pBaseBuf) desc extent fuel c s)
            (match walk (unpackWalker build pBaseBuf) desc extent fuel c s with
              | some (.suspend c' s') =>
                  (unpackLeftover build pBaseBuf desc c' s').elim 0 fun r =>
                    unpackIovsPeak pBaseBuf desc extent vs c' r.1 r.2.1 r.2.2
              | _ => 0)

/-- In `ocoms_generic_simple_unpack`. -/
def genericSimpleUnpackPeak (conv : Convertor) (iov : List Fragment) : ℕ :=
  max conv.stack.length (max
    (conv.load.elim 0 fun c =>
      unpackIovsPeak build fuel conv.pBaseBuf conv.useDesc.desc conv.pDesc.extent iov c
        conv.partialLength mem conv.csum)
    ((genericSimpleUnpack build fuel conv mem iov).elim 0 fun r => r.conv.stack.length))

/-- In `ocoms_convertor_generic_simple_position`. -/
def genericSimplePositionPeak (conv : Convertor) (position : ℕ) : ℕ :=
  max conv.stack.length (max
    ((conv.skipCopies position).load.elim 0 fun c =>
      walkPeak positionWalker conv.useDesc.desc conv.pDesc.extent fuel c
        (position - (conv.skipCopies position).bConverted))
    ((genericSimplePosition fuel conv position).elim 0 fun r => r.1.stack.length))

/-- During a walk of the general unpack. -/
def generalWalkPeak (master : Master) (remoteArch : Arch) (desc : List DtElemDesc) (extent : ℤ) :
    ℕ → GeneralCursor → GeneralState → ℕ
  | 0, c, _ => c.stack.length
  | fuel + 1, c, s =>
      max c.stack.length
        (match generalStep master remoteArch desc extent c s with
          | some (.next c' s') => generalWalkPeak master remoteArch desc extent fuel c' s'
          | some (.save c' _) => c'.stack.length
          | none => 0)

/-- In its loop over the buffers. -/
def generalIovsPeak (master : Master) (remoteArch : Arch) (desc : List DtElemDesc) (extent : ℤ) :
    List Fragment → GeneralCursor → (ℤ → Byte) → ℕ
  | [], c, _ => c.stack.length
  | v :: vs, c, mem =>
      max (generalWalkPeak master remoteArch desc extent fuel c ⟨v.data, 0, mem⟩)
        ((generalWalk master remoteArch desc extent fuel c ⟨v.data, 0, mem⟩).elim 0 fun r =>
          generalIovsPeak master remoteArch desc extent vs r.1 r.2.mem)

/-- In `ocoms_unpack_general`. -/
def unpackGeneralPeak (conv : Convertor) (iov : List Fragment) : ℕ :=
  max conv.stack.length (max
    (match conv.stack with
      | [] => 0
      | saved :: stack =>
          generalIovsPeak fuel conv.master conv.remoteArch conv.useDesc.desc conv.pDesc.extent iov
            ⟨stack, saved.index.toNat, saved.count, saved.disp⟩ mem)
    ((unpackGeneral fuel conv mem iov).elim 0 fun r => r.conv.stack.length))

/-- In `ocoms_convertor_raw`. -/
def convertorRawPeak (conv : Convertor) (iovCount : ℕ) : ℕ :=
  if conv.flags.completed ∨ conv.flags.noOp then 0
  else max conv.stack.length (max
    (conv.load.elim 0 fun c =>
      walkPeak rawWalker conv.useDesc.desc conv.pDesc.extent fuel c ⟨iovCount, []⟩)
    ((convertorRaw fuel conv iovCount).elim 0 fun r => r.conv.stack.length))

/-- In `ocoms_convertor_pack`. The functions for `CONTIGUOUS` datatypes use the entries that are
there. -/
def convertorPackPeak (conv : Convertor) (iov : List Iovec) : ℕ :=
  if conv.flags.completed ∨ conv.flags.noOp then 0
  else
    let conv := { conv with csum := ⟨0, 0, 0⟩ }
    match conv.fAdvance with
    | .genericSimplePack =>
        genericSimplePackPeak (if conv.fAdvanceChecksum then build else .plain) mem fuel conv iov
    | _ => conv.stack.length

/-- In `ocoms_convertor_unpack`. -/
def convertorUnpackPeak (conv : Convertor) (iov : List Fragment) : ℕ :=
  if conv.flags.completed ∨ conv.flags.noOp then 0
  else
    let conv := { conv with csum := ⟨0, 0, 0⟩ }
    match conv.fAdvance with
    | .genericSimpleUnpack =>
        genericSimpleUnpackPeak (if conv.fAdvanceChecksum then build else .plain) mem fuel conv iov
    | .unpackGeneral => unpackGeneralPeak mem fuel conv iov
    | _ => conv.stack.length

/-- In `ocoms_convertor_set_position`. -/
def setPositionPeak (conv : Convertor) (position : ℕ) : ℕ :=
  if conv.localSize ≤ position ∨ position = conv.bConverted then 0
  else
    let conv := { conv with flags := { conv.flags with completed := false } }
    if conv.flags.withChecksum = false ∧ conv.flags.datatype.noGaps = true ∧
        (conv.flags.send ∨ conv.flags.homogeneous) then 0
    else
      let conv :=
        if position = 0 ∨ position < conv.bConverted then conv.createStackAtBegining else conv
      if position = 0 then conv.stack.length
      else if conv.flags.datatype.contiguous then
        (conv.createStackWithPosContig position).stack.length
      else genericSimplePositionPeak fuel conv position

/-- In the walk that both counts share. -/
def countPeak {σ ρ : Type} (visit : ElemDesc → σ → ρ ⊕ σ) (completed : σ → ρ)
    (pElems : List DtElemDesc) : ℕ → List DtStack → ℕ → σ → ℕ
  | 0, stack, _, _ => stack.length
  | fuel + 1, stack, pos, s =>
      max stack.length
        (match countStep visit completed pElems stack pos s with
          | some (.next stack pos s) => countPeak visit completed pElems fuel stack pos s
          | _ => 0)

/-- In `ocoms_datatype_get_element_count`. -/
def getElementCountPeak (datatype : Datatype) (iSize : ℕ) : ℕ :=
  countPeak getData Prod.fst datatype.desc.desc fuel [⟨-1, 1, 0⟩] 0 (0, iSize)

/-- In `_copy_content_same_ddt`, for a datatype that is not `CONTIGUOUS`. -/
def copyContentPeak (op : MemOp) (destinationBase sourceBase : ℤ) (datatype : Datatype)
    (count : ℕ) : ℕ :=
  let description :=
    if datatype.optDesc.desc ≠ [] then datatype.optDesc.desc else datatype.desc.desc
  let countDesc := (description.head?.map DtElemDesc.count).getD 0
  walkPeak (copyWalker op destinationBase sourceBase) description datatype.extent fuel
    ⟨[⟨-1, count, 0⟩], 0, countDesc, 0⟩ (some ⟨mem, (count * datatype.size : ℕ)⟩)

end Peaks

/-! ### Open loops -/

/-- A `LOOP` opens a level, an `END_LOOP` closes one. -/
def DtElemDesc.opens : DtElemDesc → ℤ
  | elem _ => 0
  | loop _ => 1
  | endLoop _ => -1

/-- The loops that are open behind some entries. -/
def level (entries : List DtElemDesc) : ℤ := (entries.map DtElemDesc.opens).sum

section Level

variable {desc tail : List DtElemDesc} {t D : Nest} {fake : EndLoopDesc} {pos : ℕ}

@[simp] lemma level_nil : level [] = 0 := rfl

@[simp] lemma level_cons (e : DtElemDesc) (es : List DtElemDesc) :
    level (e :: es) = e.opens + level es := by
  rw [level, List.map_cons, List.sum_cons, level]

@[simp] lemma level_append (es es' : List DtElemDesc) :
    level (es ++ es') = level es + level es' := by
  rw [level, List.map_append, List.sum_append, level, level]

/-- All loops of a nest are closed. -/
@[simp] lemma level_flatten (t : Nest) : level t.flatten = 0 := by
  induction t with
  | done => rfl
  | elem e r ih => rw [flatten, level_cons, ih]; rfl
  | loop l b r ihb ih =>
      rw [flatten, level_cons, level_append, level_cons, ihb, ih]
      rfl

/-- **Within a nest** no more loops are open than its depth says. -/
lemma level_take_flatten_le (t : Nest) (n : ℕ) : level (t.flatten.take n) ≤ t.depth := by
  induction t generalizing n with
  | done => rw [flatten, List.take_nil, level_nil]; exact Int.natCast_nonneg _
  | elem e r ih =>
      cases n with
      | zero => exact Int.natCast_nonneg _
      | succ n =>
          have h := ih n
          rw [flatten, List.take_succ_cons, level_cons, DtElemDesc.opens, zero_add]
          exact h
  | loop l b r ihb ih =>
      cases n with
      | zero => exact Int.natCast_nonneg _
      | succ n =>
          rw [flatten, List.take_succ_cons, level_cons, List.take_append, level_append, depth]
          rcases Nat.lt_or_ge b.flatten.length n with hlt | hle
          · obtain ⟨k, hk⟩ := Nat.exists_eq_succ_of_ne_zero (Nat.sub_pos_of_lt hlt).ne'
            have hr := ih k
            rw [List.take_of_length_le hlt.le, hk, List.take_succ_cons, level_cons, level_flatten,
              DtElemDesc.opens, DtElemDesc.opens]
            push_cast
            omega
          · have hb := ihb n
            rw [Nat.sub_eq_zero_of_le hle, List.take_zero, level_nil, DtElemDesc.opens]
            push_cast
            omega

lemma level_take_desc_le (D : Nest) (fake : EndLoopDesc) (n : ℕ) :
    level ((D.desc fake).take n) ≤ D.depth := by
  have h := level_take_flatten_le D n
  have hend : level ([DtElemDesc.endLoop fake].take (n - D.flatten.length)) ≤ 0 := by
    cases n - D.flatten.length with
    | zero => exact le_rfl
    | succ k =>
        rw [List.take_succ_cons, List.take_nil, level_cons, level_nil, DtElemDesc.opens]
        omega
  rw [desc, List.take_append, level_append]
  omega

/-- One entry more. -/
lemma level_take_succ {e : DtElemDesc} (h : desc[pos]? = some e) :
    level (desc.take (pos + 1)) = level (desc.take pos) + e.opens := by
  obtain ⟨hlt, rfl⟩ := List.getElem?_eq_some_iff.mp h
  rw [List.take_succ_eq_append_getElem hlt, level_append, level_cons, level_nil, add_zero]

lemma level_take_succ_le (desc : List DtElemDesc) (pos : ℕ) :
    level (desc.take (pos + 1)) ≤ level (desc.take pos) + 1 := by
  cases h : desc[pos]? with
  | none =>
      have hlen := List.getElem?_eq_none_iff.mp h
      rw [List.take_of_length_le hlen, List.take_of_length_le (hlen.trans (Nat.le_succ _))]
      omega
  | some e =>
      rw [level_take_succ h]
      cases e <;> rw [DtElemDesc.opens] <;> omega

/-- **The loops are closed in pairs**: behind the `END_LOOP` of a loop as many are open as in front
of the loop. -/
def Bracketed (desc : List DtElemDesc) : Prop :=
  ∀ pos l, desc[pos]? = some (.loop l) →
    level (desc.take (pos + (l.items + 1))) = level (desc.take pos)

lemma bracketed_flatten (t : Nest) (tail : List DtElemDesc) {pos : ℕ} {l : LoopDesc}
    (hpos : pos < t.flatten.length) (hl : (t.flatten ++ tail)[pos]? = some (.loop l)) :
    level ((t.flatten ++ tail).take (pos + (l.items + 1))) = level ((t.flatten ++ tail).take pos) := by
  induction t generalizing tail pos with
  | done => cases hpos
  | elem e r ih =>
      cases pos with
      | zero => cases hl
      | succ pos =>
          have h := ih tail (Nat.lt_of_succ_lt_succ hpos) hl
          rw [flatten, List.cons_append, Nat.add_right_comm, List.take_succ_cons,
            List.take_succ_cons, level_cons, level_cons, h]
  | loop l' b r ihb ih =>
      rw [flatten, List.cons_append, List.append_assoc, List.cons_append] at hl ⊢
      cases pos with
      | zero =>
          obtain rfl := DtElemDesc.loop.inj (Option.some.inj hl)
          rw [Nat.zero_add, List.take_succ_cons, List.take_zero, level_cons, loopDesc]
          dsimp only
          rw [List.take_append, List.take_of_length_le (Nat.le_succ _), Nat.add_sub_cancel_left,
            List.take_succ_cons, List.take_zero, level_append, level_flatten, level_cons]
          rfl
      | succ pos =>
          rw [flatten, List.length_cons, List.length_append, List.length_cons] at hpos
          rw [List.getElem?_cons_succ] at hl
          rw [Nat.add_right_comm, List.take_succ_cons, List.take_succ_cons, level_cons, level_cons]
          congr 1
          rcases Nat.lt_trichotomy pos b.flatten.length with hlt | heq | hgt
          · exact ihb _ hlt hl
          · subst heq
            rw [List.getElem?_append_right le_rfl, Nat.sub_self] at hl
            cases hl
          · obtain ⟨k, rfl⟩ : ∃ k, pos = b.flatten.length + (k + 1) :=
              ⟨pos - b.flatten.length - 1, by omega⟩
            rw [List.getElem?_append_right (Nat.le_add_right _ _), Nat.add_sub_cancel_left,
              List.getElem?_cons_succ] at hl
            have hr := ih tail (by omega) hl
            rw [Nat.add_assoc, List.take_length_add_append, List.take_length_add_append,
              Nat.add_right_comm, List.take_succ_cons, List.take_succ_cons, level_append,
              level_append, level_cons, level_cons, hr]

lemma bracketed_desc (D : Nest) (fake : EndLoopDesc) : Bracketed (D.desc fake) := by
  intro pos l hl
  rcases Nat.lt_or_ge pos D.flatten.length with hlt | hge
  · exact bracketed_flatten D _ hlt hl
  · rw [desc, List.getElem?_append_right hge] at hl
    cases hk : pos - D.flatten.length with
    | zero => rw [hk] at hl; cases hl
    | succ k => rw [hk] at hl; cases hl

end Level

/-! ### Stacks and places -/

/-- **The entries of the stack are loops** that are open where the body of each starts. -/
def StackFits (desc : List DtElemDesc) : List ℤ → Prop
  | [] => True
  | index :: below =>
      (below.length : ℤ) ≤ level (desc.take (index + 1).toNat) ∧ StackFits desc below

/-- The stack fits to the entry at `pos`: no more of its entries than loops are open there, and the
bottom one. -/
structure PlaceFits (desc : List DtElemDesc) (stack : List DtStack) (pos : ℕ) : Prop where
  length : (stack.length : ℤ) ≤ level (desc.take pos) + 1
  stack : StackFits desc (stack.map DtStack.index)

/-- The same for a stack with the saved element on top. -/
def SavedFits (desc : List DtElemDesc) : List DtStack → Prop
  | [] => True
  | saved :: stack => PlaceFits desc stack saved.index.toNat

section Places

variable {desc : List DtElemDesc} {stack below : List DtStack} {top : DtStack} {pos n : ℕ}
  {extent : ℤ}

/-- The start of a description. -/
lemma placeFits_start (desc : List DtElemDesc) (count : ℕ) (disp : ℤ) :
    PlaceFits desc [⟨-1, count, disp⟩] 0 :=
  ⟨le_rfl, le_rfl, trivial⟩

/-- Below the stack of a loop. -/
lemma PlaceFits.popped (h : StackFits desc ((top :: below).map DtStack.index)) :
    PlaceFits desc below (top.index + 1).toNat := by
  obtain ⟨hlength, hbelow⟩ := h
  rw [List.length_map] at hlength
  exact ⟨hlength.trans (Int.le_add_one le_rfl), hbelow⟩

/-- At the start of the body of the loop on top. -/
lemma PlaceFits.body (h : StackFits desc ((top :: below).map DtStack.index)) {top' : DtStack}
    (hindex : top'.index = top.index) : PlaceFits desc (top' :: below) (top.index + 1).toNat := by
  obtain ⟨hlength, hbelow⟩ := h
  rw [List.length_map] at hlength
  refine ⟨?_, ?_⟩
  · rw [List.length_cons]
    push_cast
    omega
  · rw [List.map_cons, hindex]
    exact ⟨by rwa [List.length_map], hbelow⟩

/-- Behind an element. -/
lemma PlaceFits.elem (h : PlaceFits desc stack pos) {e : ElemDesc}
    (he : desc[pos]? = some (.elem e)) : PlaceFits desc stack (pos + 1) := by
  have hlevel := level_take_succ he
  rw [DtElemDesc.opens, add_zero] at hlevel
  exact ⟨hlevel ▸ h.length, h.stack⟩

/-- Into a loop. -/
lemma PlaceFits.loop (h : PlaceFits desc stack pos) {l : LoopDesc}
    (hl : desc[pos]? = some (.loop l)) (count : ℕ) (disp : ℤ) :
    PlaceFits desc (⟨pos, count, disp⟩ :: stack) (pos + 1) := by
  have hlevel := level_take_succ hl
  have hlength := h.length
  rw [DtElemDesc.opens] at hlevel
  refine ⟨?_, ?_, h.stack⟩
  · rw [List.length_cons, hlevel]
    push_cast
    omega
  · have hindex : ((pos : ℤ) + 1).toNat = pos + 1 := by omega
    dsimp only
    rw [List.length_map, hindex, hlevel]
    exact hlength

/-- Out of a loop. -/
lemma PlaceFits.endLoop (h : PlaceFits desc (top :: below) pos) {e : EndLoopDesc}
    (he : desc[pos]? = some (.endLoop e)) : PlaceFits desc below (pos + 1) := by
  have hlevel := level_take_succ he
  have hlength := h.length
  rw [DtElemDesc.opens] at hlevel
  rw [List.length_cons] at hlength
  refine ⟨?_, h.stack.2⟩
  rw [hlevel]
  push_cast at hlength
  omega

/-- Over a loop. -/
lemma PlaceFits.skip (h : PlaceFits desc stack pos) (hdesc : Bracketed desc) {l : LoopDesc}
    (hl : desc[pos]? = some (.loop l)) : PlaceFits desc stack (pos + (l.items + 1)) :=
  ⟨(hdesc pos l hl).symm ▸ h.length, h.stack⟩

/-- The indices decide. -/
lemma PlaceFits.congr (h : PlaceFits desc stack pos) {stack' : List DtStack}
    (hindex : stack'.map DtStack.index = stack.map DtStack.index) : PlaceFits desc stack' pos := by
  have hlength := congrArg List.length hindex
  rw [List.length_map, List.length_map] at hlength
  exact ⟨hlength ▸ h.length, hindex ▸ h.stack⟩

lemma SavedFits.congr (h : SavedFits desc stack) {stack' : List DtStack}
    (hindex : stack'.map DtStack.index = stack.map DtStack.index) : SavedFits desc stack' := by
  cases stack with
  | nil => rw [List.map_eq_nil_iff.mp hindex]; trivial
  | cons saved stack =>
      cases stack' with
      | nil => trivial
      | cons saved' stack' =>
          obtain ⟨htop, hbelow⟩ := List.cons.inj hindex
          have hplace : PlaceFits desc stack' saved.index.toNat := PlaceFits.congr h hbelow
          rwa [← htop] at hplace

/-- A stack whose saved element is gone. -/
lemma PlaceFits.saved (h : PlaceFits desc stack pos) : SavedFits desc stack := by
  cases stack with
  | nil => trivial
  | cons top below =>
      have hbelow : PlaceFits desc below (top.index + 1).toNat := .popped h.stack
      refine ⟨?_, hbelow.stack⟩
      have hle : level (desc.take (top.index + 1).toNat)
          ≤ level (desc.take top.index.toNat) + 1 := by
        rcases Int.lt_or_le top.index 0 with hneg | hpos
        · have hzero : (top.index + 1).toNat = 0 := by omega
          rw [hzero, List.take_zero, level_nil, Int.toNat_of_nonpos hneg.le, List.take_zero,
            level_nil]
          omega
        · have hsucc : (top.index + 1).toNat = top.index.toNat + 1 := by omega
          rw [hsucc]
          exact level_take_succ_le _ _
      have hlength := h.stack.1
      rw [List.length_map] at hlength
      exact hlength.trans hle

/-- **A stack that fits** has an entry for each open loop, and one more. -/
lemma PlaceFits.length_le (h : PlaceFits desc stack pos)
    (hdepth : ∀ pos, level (desc.take pos) ≤ n) : stack.length ≤ n + 1 := by
  have hlength := h.length
  have hlevel := hdepth pos
  omega

lemma SavedFits.length_le (h : SavedFits desc stack)
    (hdepth : ∀ pos, level (desc.take pos) ≤ n) : stack.length ≤ n + 2 := by
  cases stack with
  | nil => exact Nat.zero_le _
  | cons saved stack => exact Nat.succ_le_succ (PlaceFits.length_le h hdepth)

end Places

/-! ### One visit -/

/-- The cursor that a visit leads to. -/
def Visit.cursor {σ : Type} : Visit σ → Cursor
  | next c _ | suspend c _ | complete c _ => c

/-- The stack of the cursor fits to its place. -/
def Cursor.Fits (desc : List DtElemDesc) (c : Cursor) : Prop := PlaceFits desc c.stack c.pos

section Visits

variable {desc : List DtElemDesc} {extent : ℤ} {c c' : Cursor} {n : ℕ}

lemma Cursor.Fits.enterAt {stack : List DtStack} {pos : ℕ} (h : PlaceFits desc stack pos)
    (henter : enterAt desc stack pos = some c') : c'.Fits desc := by
  obtain ⟨e, -, rfl⟩ := Option.map_eq_some_iff.mp henter
  exact h

/-- The `END_LOOP` branch. -/
lemma Cursor.Fits.endLoop (h : c.Fits desc) {e : EndLoopDesc}
    (he : desc[c.pos]? = some (.endLoop e)) {last : Bool}
    (hend : c.endLoop desc extent = some (last, c')) : c'.Fits desc := by
  rw [Cursor.Fits] at h
  rw [Cursor.endLoop] at hend
  cases hstack : c.stack with
  | nil => rw [hstack] at hend; cases hend
  | cons top below =>
      rw [hstack] at hend h
      dsimp only at hend
      split_ifs at hend with hcount
      · cases below with
        | nil =>
            cases hend
            exact h.congr rfl
        | cons next below =>
            obtain ⟨c'', henter, heq⟩ := Option.map_eq_some_iff.mp hend
            cases heq
            exact .enterAt (h.endLoop he) henter
      · obtain ⟨ext, -, hend⟩ := Option.bind_eq_some_iff.mp hend
        obtain ⟨c'', henter, heq⟩ := Option.bind_eq_some_iff.mp hend
        cases heq
        have hbody : PlaceFits desc (⟨top.index, sizeDecr top.count, top.disp + ext⟩ :: below)
            (top.index + 1).toNat := .body h.stack rfl
        exact .enterAt hbody henter

lemma Cursor.fits_start (desc : List DtElemDesc) (count countDesc : ℕ) :
    Cursor.Fits desc ⟨[⟨-1, count, 0⟩], 0, countDesc, 0⟩ := placeFits_start desc count 0

/-- **Every visit** leads to a place that the stack fits to. -/
lemma walkStep_fits {σ : Type} {W : Walker σ} (hdesc : Bracketed desc) (h : c.Fits desc) {s : σ}
    {v : Visit σ} (hstep : walkStep W desc extent c s = some v) : v.cursor.Fits desc := by
  rw [walkStep] at hstep
  cases hentry : desc[c.pos]? with
  | none => rw [hentry] at hstep; cases hstep
  | some entry =>
      rw [hentry] at hstep
      cases entry with
      | elem e =>
          dsimp only at hstep
          split_ifs at hstep with hcount
          · obtain ⟨c', henter, rfl⟩ := Option.map_eq_some_iff.mp hstep
            exact .enterAt (PlaceFits.elem h hentry) henter
          · obtain rfl := Option.some.inj hstep
            exact h
      | endLoop e =>
          obtain ⟨⟨last, c'⟩, hend, rfl⟩ := Option.map_eq_some_iff.mp hstep
          have hfits := h.endLoop hentry hend
          cases last <;> exact hfits
      | loop l =>
          have hpush : ∀ {count moved s'},
              (c.push desc count moved).map (fun c' => Visit.next c' s') = some v →
              v.cursor.Fits desc := by
            intro count moved s' hpush
            obtain ⟨c', henter, rfl⟩ := Option.map_eq_some_iff.mp hpush
            exact .enterAt (PlaceFits.loop h hentry _ _) henter
          dsimp only at hstep
          split_ifs at hstep with hcontiguous
          · split at hstep
            · split_ifs at hstep with hcount
              · obtain ⟨c', henter, rfl⟩ := Option.map_eq_some_iff.mp hstep
                exact .enterAt (PlaceFits.skip h hdesc hentry) henter
              · exact hpush hstep
            · cases hstep
          · exact hpush hstep

/-- **A whole walk.** -/
lemma walk_fits {σ : Type} {W : Walker σ} (hdesc : Bracketed desc) {fuel : ℕ} (h : c.Fits desc)
    {s : σ} {v : Visit σ} (hwalk : walk W desc extent fuel c s = some v) : v.cursor.Fits desc := by
  induction fuel generalizing c s with
  | zero => cases hwalk
  | succ fuel ih =>
      rw [walk] at hwalk
      cases hstep : walkStep W desc extent c s with
      | none => rw [hstep] at hwalk; cases hwalk
      | some v' =>
          have hfits := walkStep_fits hdesc h hstep
          rw [hstep] at hwalk
          cases v' with
          | next c' s' => exact ih hfits hwalk
          | suspend c' s' => cases hwalk; exact hfits
          | complete c' s' => cases hwalk; exact hfits

/-- **The entries in use during a walk** are those of the open loops, and one more. -/
lemma walkPeak_le {σ : Type} {W : Walker σ} (hdesc : Bracketed desc)
    (hdepth : ∀ pos, level (desc.take pos) ≤ n) (fuel : ℕ) (h : c.Fits desc) (s : σ) :
    walkPeak W desc extent fuel c s ≤ n + 1 := by
  induction fuel generalizing c s with
  | zero => exact h.length_le hdepth
  | succ fuel ih =>
      rw [walkPeak]
      refine max_le (h.length_le hdepth) ?_
      cases hstep : walkStep W desc extent c s with
      | none => exact Nat.zero_le _
      | some v =>
          have hfits := walkStep_fits hdesc h hstep
          cases v with
          | next c' s' => exact ih hfits s'
          | suspend c' s' => exact hfits.length_le hdepth
          | complete c' s' => exact hfits.length_le hdepth

end Visits

/-! ### One call -/

section Calls

variable {desc : List DtElemDesc} {extent : ℤ} {c c' : Cursor} {n fuel : ℕ} {build : Build}
  {mem : ℤ → Byte} {conv : Convertor}

lemma Cursor.Fits.save (h : c.Fits desc) : SavedFits desc c.save := by
  have hpos : ((c.pos : ℕ) : ℤ).toNat = c.pos := Int.toNat_natCast _
  rw [Cursor.save, SavedFits, hpos]
  exact h

lemma Cursor.Fits.of_load (h : SavedFits desc conv.stack) (hload : conv.load = some c) :
    c.Fits desc := by
  rw [Convertor.load] at hload
  cases hstack : conv.stack with
  | nil => rw [hstack] at hload; cases hload
  | cons saved stack =>
      rw [hstack] at hload h
      cases hload
      exact h

lemma Cursor.Fits.leave (h : c.Fits desc) (conv : Convertor) (total size : ℕ) (csum : Csum) :
    SavedFits desc (conv.leave c total size csum).1.stack := by
  rw [Convertor.leave]
  split
  · exact h.saved
  · exact h.save

lemma packIovs_fits (hdesc : Bracketed desc) {pBaseBuf : ℤ} {iov : List Iovec} (h : c.Fits desc)
    {csum : Csum} {r : List (List Byte) × Cursor × Csum}
    (hpack : packIovs build mem pBaseBuf desc extent fuel iov c csum = some r) :
    r.2.1.Fits desc := by
  induction iov generalizing c csum r with
  | nil =>
      cases hpack
      exact h
  | cons v vs ih =>
      rw [packIovs] at hpack
      split at hpack
      · next c' s' hwalk =>
          obtain ⟨r', hrest, hpack⟩ := Option.bind_eq_some_iff.mp hpack
          have hc' : c'.Fits desc := walk_fits hdesc h hwalk
          have hnext := ih hc' hrest
          cases hpack
          exact hnext
      · next c' s' hwalk =>
          cases hpack
          exact walk_fits hdesc h hwalk
      · cases hpack

lemma packIovsPeak_le (hdesc : Bracketed desc) (hdepth : ∀ pos, level (desc.take pos) ≤ n)
    {pBaseBuf : ℤ} (iov : List Iovec) (h : c.Fits desc) (csum : Csum) :
    packIovsPeak build mem fuel pBaseBuf desc extent iov c csum ≤ n + 1 := by
  induction iov generalizing c csum with
  | nil => exact h.length_le hdepth
  | cons v vs ih =>
      rw [packIovsPeak]
      refine max_le (walkPeak_le hdesc hdepth fuel h _) ?_
      split
      · next c' s' hwalk => exact ih (walk_fits hdesc h hwalk) _
      · exact Nat.zero_le _

/-- **The generic pack** leaves a stack that fits, and has no more entries in use than the open
loops, the bottom one and the saved element. -/
lemma genericSimplePack_fits (hdesc : Bracketed conv.useDesc.desc)
    (h : SavedFits conv.useDesc.desc conv.stack) {iov : List Iovec} {r : PackResult}
    (hpack : genericSimplePack build mem fuel conv iov = some r) :
    SavedFits conv.useDesc.desc r.conv.stack := by
  rw [genericSimplePack] at hpack
  obtain ⟨c, hload, hpack⟩ := Option.bind_eq_some_iff.mp hpack
  obtain ⟨w, hiovs, hpack⟩ := Option.bind_eq_some_iff.mp hpack
  cases hpack
  exact (packIovs_fits hdesc (.of_load h hload) hiovs).leave _ _ _ _

lemma genericSimplePackPeak_le (hdesc : Bracketed conv.useDesc.desc)
    (hdepth : ∀ pos, level (conv.useDesc.desc.take pos) ≤ n)
    (h : SavedFits conv.useDesc.desc conv.stack) (iov : List Iovec) :
    genericSimplePackPeak build mem fuel conv iov ≤ n + 2 := by
  refine max_le (h.length_le hdepth) (max_le ?_ ?_)
  · cases hload : conv.load with
    | none => exact Nat.zero_le _
    | some c =>
        exact (packIovsPeak_le hdesc hdepth iov (.of_load h hload) _).trans (Nat.le_succ _)
  · cases hpack : genericSimplePack build mem fuel conv iov with
    | none => exact Nat.zero_le _
    | some r => exact (genericSimplePack_fits hdesc h hpack).length_le hdepth

lemma unpackMissing_fits {pBaseBuf : ℤ} {v : Fragment} (h : c.Fits desc) {partialLength : ℕ}
    {csum : Csum} {r : Cursor × UnpackState}
    (hmissing : unpackMissing build pBaseBuf desc v c partialLength mem csum = some r) :
    r.1.Fits desc := by
  rw [unpackMissing] at hmissing
  split_ifs at hmissing with hzero
  · cases hmissing
    exact h
  · split at hmissing
    · next e he =>
        obtain ⟨p, -, hmissing⟩ := Option.bind_eq_some_iff.mp hmissing
        obtain ⟨c', hpast, hmissing⟩ := Option.bind_eq_some_iff.mp hmissing
        cases hmissing
        rw [Cursor.pastElem] at hpast
        split_ifs at hpast with hcount
        · exact .enterAt (PlaceFits.elem h he) hpast
        · cases hpast
          exact h
    · cases hmissing

lemma unpackIovs_fits (hdesc : Bracketed desc) {pBaseBuf : ℤ} {iov : List Fragment}
    (h : c.Fits desc) {partialLength : ℕ} {csum : Csum} {w : UnpackWalk}
    (hunpack : unpackIovs build pBaseBuf desc extent fuel iov c partialLength mem csum = some w) :
    w.cursor.Fits desc := by
  induction iov generalizing c partialLength mem csum w with
  | nil =>
      cases hunpack
      exact h
  | cons v vs ih =>
      rw [unpackIovs] at hunpack
      obtain ⟨r, hmissing, hunpack⟩ := Option.bind_eq_some_iff.mp hunpack
      have hr := unpackMissing_fits h hmissing
      dsimp only at hunpack
      split at hunpack
      · next c' s' hwalk =>
          obtain ⟨p, -, hunpack⟩ := Option.bind_eq_some_iff.mp hunpack
          obtain ⟨w', hrest, hunpack⟩ := Option.bind_eq_some_iff.mp hunpack
          have hc' : c'.Fits desc := walk_fits hdesc hr hwalk
          have hnext := ih hc' hrest
          cases hunpack
          exact hnext
      · next c' s' hwalk =>
          cases hunpack
          exact walk_fits hdesc hr hwalk
      · cases hunpack

lemma unpackIovsPeak_le (hdesc : Bracketed desc) (hdepth : ∀ pos, level (desc.take pos) ≤ n)
    {pBaseBuf : ℤ} (iov : List Fragment) (h : c.Fits desc) (partialLength : ℕ) (mem : ℤ → Byte)
    (csum : Csum) :
    unpackIovsPeak build fuel pBaseBuf desc extent iov c partialLength mem csum ≤ n + 1 := by
  induction iov generalizing c partialLength mem csum with
  | nil => exact h.length_le hdepth
  | cons v vs ih =>
      rw [unpackIovsPeak]
      split
      · exact h.length_le hdepth
      · next c' s hmissing =>
          have hr : c'.Fits desc := unpackMissing_fits h hmissing
          refine max_le (walkPeak_le hdesc hdepth fuel hr _) ?_
          split
          · next c'' s' hwalk =>
              cases unpackLeftover build pBaseBuf desc c'' s' with
              | none => exact Nat.zero_le _
              | some r => exact ih (walk_fits hdesc hr hwalk) _ _ _
          · exact Nat.zero_le _

/-- **The generic unpack.** -/
lemma genericSimpleUnpack_fits (hdesc : Bracketed conv.useDesc.desc)
    (h : SavedFits conv.useDesc.desc conv.stack) {iov : List Fragment} {r : UnpackResult}
    (hunpack : genericSimpleUnpack build fuel conv mem iov = some r) :
    SavedFits conv.useDesc.desc r.conv.stack := by
  rw [genericSimpleUnpack] at hunpack
  obtain ⟨c, hload, hunpack⟩ := Option.bind_eq_some_iff.mp hunpack
  obtain ⟨w, hiovs, hunpack⟩ := Option.bind_eq_some_iff.mp hunpack
  cases hunpack
  exact (unpackIovs_fits hdesc (.of_load h hload) hiovs).leave _ _ _ _

lemma genericSimpleUnpackPeak_le (hdesc : Bracketed conv.useDesc.desc)
    (hdepth : ∀ pos, level (conv.useDesc.desc.take pos) ≤ n)
    (h : SavedFits conv.useDesc.desc conv.stack) (iov : List Fragment) :
    genericSimpleUnpackPeak build mem fuel conv iov ≤ n + 2 := by
  refine max_le (h.length_le hdepth) (max_le ?_ ?_)
  · cases hload : conv.load with
    | none => exact Nat.zero_le _
    | some c =>
        exact (unpackIovsPeak_le hdesc hdepth iov (.of_load h hload) _ _ _).trans (Nat.le_succ _)
  · cases hunpack : genericSimpleUnpack build fuel conv mem iov with
    | none => exact Nat.zero_le _
    | some r => exact (genericSimpleUnpack_fits hdesc h hunpack).length_le hdepth

lemma map_index_skipStack (count : ℕ) (extent : ℤ) (stack : List DtStack) :
    (skipStack count extent stack).map DtStack.index = stack.map DtStack.index := by
  induction stack with
  | nil => rfl
  | cons s below ih =>
      cases below with
      | nil => rfl
      | cons next below =>
          rw [skipStack, List.map_cons, ih, List.map_cons]
          · rfl
          · exact nofun

/-- Skipping whole copies leaves the indices as they are. -/
lemma Convertor.skipCopies_fits (h : SavedFits desc conv.stack) (position : ℕ) :
    SavedFits desc (conv.skipCopies position).stack := by
  rw [Convertor.skipCopies]
  split_ifs with hskip
  · refine h.congr ?_
    dsimp only
    split
    · next heq => rw [heq]
    · next s heq => rw [heq]; rfl
    · next saved stack hone heq => rw [heq, List.map_cons, map_index_skipStack, List.map_cons]
  · exact h

/-- **The position function.** -/
lemma genericSimplePosition_fits (hdesc : Bracketed conv.useDesc.desc)
    (h : SavedFits conv.useDesc.desc conv.stack) {position : ℕ} {r : Convertor × ℤ}
    (hposition : genericSimplePosition fuel conv position = some r) :
    SavedFits conv.useDesc.desc r.1.stack := by
  have hmoved : (conv.skipCopies position).useDesc = conv.useDesc := by
    rw [Convertor.skipCopies]
    split <;> rfl
  rw [genericSimplePosition] at hposition
  obtain ⟨c, hload, hposition⟩ := Option.bind_eq_some_iff.mp hposition
  have hc : c.Fits conv.useDesc.desc := .of_load (Convertor.skipCopies_fits h position) hload
  dsimp only at hposition
  rw [hmoved] at hposition
  split at hposition
  · next c' space hwalk =>
      have hfits := walk_fits hdesc hc hwalk
      split_ifs at hposition with hcompleted
      · cases hposition
        exact PlaceFits.saved hfits
      · cases hposition
        exact hfits.save
  · next c' space hwalk =>
      cases hposition
      exact PlaceFits.saved (walk_fits hdesc hc hwalk)
  · cases hposition

lemma genericSimplePositionPeak_le (hdesc : Bracketed conv.useDesc.desc)
    (hdepth : ∀ pos, level (conv.useDesc.desc.take pos) ≤ n)
    (h : SavedFits conv.useDesc.desc conv.stack) (position : ℕ) :
    genericSimplePositionPeak fuel conv position ≤ n + 2 := by
  refine max_le (h.length_le hdepth) (max_le ?_ ?_)
  · cases hload : (conv.skipCopies position).load with
    | none => exact Nat.zero_le _
    | some c =>
        have hc : c.Fits conv.useDesc.desc :=
          .of_load (Convertor.skipCopies_fits h position) hload
        exact (walkPeak_le hdesc hdepth fuel hc _).trans (Nat.le_succ _)
  · cases hposition : genericSimplePosition fuel conv position with
    | none => exact Nat.zero_le _
    | some r => exact (genericSimplePosition_fits hdesc h hposition).length_le hdepth

/-- **The raw list.** -/
lemma convertorRaw_fits (hdesc : Bracketed conv.useDesc.desc)
    (h : SavedFits conv.useDesc.desc conv.stack) {iovCount : ℕ} {r : RawResult}
    (hraw : convertorRaw fuel conv iovCount = some r) :
    SavedFits conv.useDesc.desc r.conv.stack := by
  rw [convertorRaw] at hraw
  split_ifs at hraw with hcompleted hnoOp
  · cases hraw
    exact h
  · cases hraw
    exact h
  · obtain ⟨c, hload, hraw⟩ := Option.bind_eq_some_iff.mp hraw
    have hc : c.Fits conv.useDesc.desc := .of_load h hload
    split at hraw
    · next c' s hwalk =>
        cases hraw
        exact (walk_fits hdesc hc hwalk).leave _ _ _ _
    · next c' s hwalk =>
        cases hraw
        exact (walk_fits hdesc hc hwalk).leave _ _ _ _
    · cases hraw

/-! ### Calls for other datatypes and architectures -/

lemma Convertor.finish_stack (conv : Convertor) : conv.finish.1.stack = conv.stack := by
  rw [Convertor.finish]
  split <;> rfl

/-- **The functions for `CONTIGUOUS` datatypes** leave the indices as they are. -/
lemma packHomogeneousContig_index {iov : List Iovec} {r : PackResult}
    (hpack : packHomogeneousContig build mem conv iov = some r) :
    r.conv.stack.map DtStack.index = conv.stack.map DtStack.index := by
  rw [packHomogeneousContig] at hpack
  obtain ⟨d, -, hpack⟩ := Option.bind_eq_some_iff.mp hpack
  split at hpack
  · next s₁ s₀ hstack =>
      obtain rfl := Option.some.inj hpack
      exact (congrArg (List.map DtStack.index) (Convertor.finish_stack _)).trans
        (congrArg (List.map DtStack.index) hstack).symm
  · cases hpack

lemma packHomogeneousContigWithGaps_index {iov : List Iovec} {maxData : ℕ} {r : PackResult}
    (hpack : packHomogeneousContigWithGaps build mem conv iov maxData = some r) :
    r.conv.stack.map DtStack.index = conv.stack.map DtStack.index := by
  rw [packHomogeneousContigWithGaps] at hpack
  obtain ⟨d, -, hpack⟩ := Option.bind_eq_some_iff.mp hpack
  dsimp only at hpack
  split at hpack
  · next s₁ s₀ hstack =>
      split at hpack
      · cases hpack
        rw [Convertor.finish_stack, hstack]
        rfl
      · split_ifs at hpack
        · cases hpack
          rw [Convertor.finish_stack, hstack]
          rfl
        · cases hpack
          rw [hstack]
          rfl
        · cases hpack
          rw [Convertor.finish_stack]
        all_goals
          cases hpack
          rw [Convertor.finish_stack, hstack]
          rfl
  · cases hpack

lemma unpackHomogeneousContig_index {iov : List Fragment} {r : UnpackResult}
    (hunpack : unpackHomogeneousContig build conv mem iov = some r) :
    r.conv.stack.map DtStack.index = conv.stack.map DtStack.index := by
  rw [unpackHomogeneousContig] at hunpack
  obtain ⟨d, -, hunpack⟩ := Option.bind_eq_some_iff.mp hunpack
  split at hunpack
  · next s₁ s₀ hstack =>
      obtain rfl := Option.some.inj hunpack
      exact (congrArg (List.map DtStack.index) (Convertor.finish_stack _)).trans
        (congrArg (List.map DtStack.index) hstack).symm
  · cases hunpack

/-- The stack of a general cursor fits to its place. -/
def GeneralCursor.Fits (desc : List DtElemDesc) (c : GeneralCursor) : Prop :=
  PlaceFits desc c.stack c.pos

/-- The cursor that a visit leads to. -/
def GeneralVisit.cursor : GeneralVisit → GeneralCursor
  | next c _ | save c _ => c

lemma GeneralCursor.Fits.enter {stack : List DtStack} {pos : ℕ} (h : PlaceFits desc stack pos)
    {c : GeneralCursor} (henter : generalEnter desc stack pos = some c) : c.Fits desc := by
  obtain ⟨e, -, rfl⟩ := Option.map_eq_some_iff.mp henter
  exact h

/-- **A visit of the general unpack.** -/
lemma generalStep_fits {master : Master} {remoteArch : Arch} {c : GeneralCursor}
    {s : GeneralState} (h : c.Fits desc) {v : GeneralVisit}
    (hstep : generalStep master remoteArch desc extent c s = some v) : v.cursor.Fits desc := by
  rw [GeneralCursor.Fits] at h
  rw [generalStep] at hstep
  cases hentry : desc[c.pos]? with
  | none => rw [hentry] at hstep; cases hstep
  | some entry =>
      rw [hentry] at hstep
      cases entry with
      | elem e =>
          obtain ⟨fct, -, hstep⟩ := Option.bind_eq_some_iff.mp hstep
          obtain ⟨r, -, hstep⟩ := Option.bind_eq_some_iff.mp hstep
          split_ifs at hstep with hlength hcount
          · cases hstep
            exact h
          · obtain ⟨c', henter, hstep⟩ := Option.bind_eq_some_iff.mp hstep
            have hc' : c'.Fits desc := .enter (h.elem hentry) henter
            split_ifs at hstep with hzero
            · cases hstep
              exact hc'
            · cases hstep
              exact hc'
      | loop l =>
          obtain ⟨c', henter, rfl⟩ := Option.map_eq_some_iff.mp hstep
          exact .enter (h.loop hentry _ _) henter
      | endLoop e =>
          obtain ⟨⟨last, c'⟩, hend, rfl⟩ := Option.map_eq_some_iff.mp hstep
          have hfits : c'.Fits desc := by
            rw [GeneralCursor.endLoop] at hend
            cases hstack : c.stack with
            | nil => rw [hstack] at hend; cases hend
            | cons top below =>
                rw [hstack] at hend h
                dsimp only at hend
                split_ifs at hend with hcount
                · cases below with
                  | nil =>
                      cases hend
                      exact h.congr rfl
                  | cons next below =>
                      obtain ⟨c'', henter, heq⟩ := Option.map_eq_some_iff.mp hend
                      cases heq
                      exact .enter (h.endLoop hentry) henter
                · obtain ⟨ext, -, hend⟩ := Option.bind_eq_some_iff.mp hend
                  obtain ⟨c'', henter, heq⟩ := Option.bind_eq_some_iff.mp hend
                  have hbody : PlaceFits desc
                      (⟨top.index, sizeDecr top.count, top.disp + ext⟩ :: below)
                      (top.index + 1).toNat := .body h.stack rfl
                  cases heq
                  exact .enter hbody henter
          cases last <;> exact hfits

lemma generalWalk_fits {master : Master} {remoteArch : Arch} {c : GeneralCursor}
    {s : GeneralState} (h : c.Fits desc) {r : GeneralCursor × GeneralState}
    (hwalk : generalWalk master remoteArch desc extent fuel c s = some r) : r.1.Fits desc := by
  induction fuel generalizing c s with
  | zero => cases hwalk
  | succ fuel ih =>
      rw [generalWalk] at hwalk
      cases hstep : generalStep master remoteArch desc extent c s with
      | none => rw [hstep] at hwalk; cases hwalk
      | some v =>
          have hfits := generalStep_fits h hstep
          rw [hstep] at hwalk
          cases v with
          | next c' s' => exact ih hfits hwalk
          | save c' s' => cases hwalk; exact hfits

lemma generalWalkPeak_le {master : Master} {remoteArch : Arch}
    (hdepth : ∀ pos, level (desc.take pos) ≤ n) (fuel : ℕ) {c : GeneralCursor} (h : c.Fits desc)
    (s : GeneralState) :
    generalWalkPeak master remoteArch desc extent fuel c s ≤ n + 1 := by
  induction fuel generalizing c s with
  | zero => exact h.length_le hdepth
  | succ fuel ih =>
      rw [generalWalkPeak]
      refine max_le (h.length_le hdepth) ?_
      cases hstep : generalStep master remoteArch desc extent c s with
      | none => exact Nat.zero_le _
      | some v =>
          have hfits := generalStep_fits h hstep
          cases v with
          | next c' s' => exact ih hfits s'
          | save c' s' => exact hfits.length_le hdepth

lemma generalIovs_fits {master : Master} {remoteArch : Arch} {iov : List Fragment}
    {c : GeneralCursor} (h : c.Fits desc) {r : List ℕ × GeneralCursor × (ℤ → Byte)}
    (hiovs : generalIovs master remoteArch desc extent fuel iov c mem = some r) :
    r.2.1.Fits desc := by
  induction iov generalizing c mem r with
  | nil =>
      cases hiovs
      exact h
  | cons v vs ih =>
      rw [generalIovs] at hiovs
      obtain ⟨p, hwalk, hiovs⟩ := Option.bind_eq_some_iff.mp hiovs
      obtain ⟨q, hrest, hiovs⟩ := Option.bind_eq_some_iff.mp hiovs
      have hnext := ih (generalWalk_fits h hwalk) hrest
      cases hiovs
      exact hnext

lemma generalIovsPeak_le {master : Master} {remoteArch : Arch}
    (hdepth : ∀ pos, level (desc.take pos) ≤ n) (iov : List Fragment) {c : GeneralCursor}
    (h : c.Fits desc) (mem : ℤ → Byte) :
    generalIovsPeak fuel master remoteArch desc extent iov c mem ≤ n + 1 := by
  induction iov generalizing c mem with
  | nil => exact h.length_le hdepth
  | cons v vs ih =>
      rw [generalIovsPeak]
      refine max_le (generalWalkPeak_le hdepth fuel h _) ?_
      cases hwalk : generalWalk master remoteArch desc extent fuel c ⟨v.data, 0, mem⟩ with
      | none => exact Nat.zero_le _
      | some r => exact ih (generalWalk_fits h hwalk) _

/-- **The general unpack.** -/
lemma unpackGeneral_fits (h : SavedFits conv.useDesc.desc conv.stack) {iov : List Fragment}
    {r : UnpackResult} (hunpack : unpackGeneral fuel conv mem iov = some r) :
    SavedFits conv.useDesc.desc r.conv.stack := by
  rw [unpackGeneral] at hunpack
  split at hunpack
  · cases hunpack
  · next saved stack hstack =>
      obtain ⟨w, hiovs, hunpack⟩ := Option.bind_eq_some_iff.mp hunpack
      rw [hstack] at h
      have hc : GeneralCursor.Fits conv.useDesc.desc
          ⟨stack, saved.index.toNat, saved.count, saved.disp⟩ := h
      have hw := generalIovs_fits hc hiovs
      dsimp only at hunpack
      split_ifs at hunpack with hdone
      · cases hunpack
        exact PlaceFits.saved hw
      · cases hunpack
        have hpos : ((w.2.1.pos : ℕ) : ℤ).toNat = w.2.1.pos := Int.toNat_natCast _
        dsimp only
        rw [SavedFits, hpos]
        exact hw

lemma unpackGeneralPeak_le (hdepth : ∀ pos, level (conv.useDesc.desc.take pos) ≤ n)
    (h : SavedFits conv.useDesc.desc conv.stack) (iov : List Fragment) :
    unpackGeneralPeak mem fuel conv iov ≤ n + 2 := by
  refine max_le (h.length_le hdepth) (max_le ?_ ?_)
  · split
    · exact Nat.zero_le _
    · next saved stack hstack =>
        rw [hstack] at h
        have hc : GeneralCursor.Fits conv.useDesc.desc
            ⟨stack, saved.index.toNat, saved.count, saved.disp⟩ := h
        exact (generalIovsPeak_le hdepth iov hc mem).trans (Nat.le_succ _)
  · cases hunpack : unpackGeneral fuel conv mem iov with
    | none => exact Nat.zero_le _
    | some r => exact (unpackGeneral_fits h hunpack).length_le hdepth

/-! ### The calls on a convertor -/

lemma convertorPackPeak_le {chk : Build} (hdesc : Bracketed conv.useDesc.desc)
    (hdepth : ∀ pos, level (conv.useDesc.desc.take pos) ≤ n)
    (h : SavedFits conv.useDesc.desc conv.stack) (iov : List Iovec) :
    convertorPackPeak chk mem fuel conv iov ≤ n + 2 := by
  rw [convertorPackPeak]
  split_ifs with hdone
  · exact Nat.zero_le _
  · dsimp only
    split
    · refine genericSimplePackPeak_le ?_ ?_ ?_ iov
      · exact hdesc
      · exact hdepth
      · exact h
    · exact h.length_le hdepth

lemma convertorUnpackPeak_le {chk : Build} (hdesc : Bracketed conv.useDesc.desc)
    (hdepth : ∀ pos, level (conv.useDesc.desc.take pos) ≤ n)
    (h : SavedFits conv.useDesc.desc conv.stack) (iov : List Fragment) :
    convertorUnpackPeak chk mem fuel conv iov ≤ n + 2 := by
  rw [convertorUnpackPeak]
  split_ifs with hdone
  · exact Nat.zero_le _
  · dsimp only
    split
    · refine genericSimpleUnpackPeak_le ?_ ?_ ?_ iov
      · exact hdesc
      · exact hdepth
      · exact h
    · refine unpackGeneralPeak_le ?_ ?_ iov
      · exact hdepth
      · exact h
    · exact h.length_le hdepth

lemma convertorRawPeak_le (hdesc : Bracketed conv.useDesc.desc)
    (hdepth : ∀ pos, level (conv.useDesc.desc.take pos) ≤ n)
    (h : SavedFits conv.useDesc.desc conv.stack) (iovCount : ℕ) :
    convertorRawPeak fuel conv iovCount ≤ n + 2 := by
  rw [convertorRawPeak]
  split_ifs with hdone
  · exact Nat.zero_le _
  · refine max_le (h.length_le hdepth) (max_le ?_ ?_)
    · cases hload : conv.load with
      | none => exact Nat.zero_le _
      | some c =>
          exact (walkPeak_le hdesc hdepth fuel (.of_load h hload) _).trans (Nat.le_succ _)
    · cases hraw : convertorRaw fuel conv iovCount with
      | none => exact Nat.zero_le _
      | some r => exact (convertorRaw_fits hdesc h hraw).length_le hdepth

/-- The first element of a description, above the bottom of the stack. -/
lemma savedFits_start (desc : List DtElemDesc) {saved bottom : DtStack} (hsaved : saved.index = 0)
    (hbottom : bottom.index = -1) : SavedFits desc [saved, bottom] := by
  have hstart : PlaceFits desc [bottom] 0 := by
    refine (placeFits_start desc 0 0).congr ?_
    rw [List.map_cons, hbottom]
    rfl
  rw [SavedFits, hsaved]
  exact hstart

/-- What a set position call starts from. -/
structure Restarted (conv conv₁ : Convertor) : Prop where
  useDesc : conv₁.useDesc = conv.useDesc
  stack : conv₁.stack = conv.stack ∨ conv₁.stack = conv.createStackAtBegining.stack

lemma Restarted.fits {conv₁ : Convertor} (h : Restarted conv conv₁)
    (hstack : SavedFits conv.useDesc.desc conv.stack) :
    SavedFits conv₁.useDesc.desc conv₁.stack := by
  rw [h.useDesc]
  rcases h.stack with hsame | hbegin
  · rw [hsame]
    exact hstack
  · rw [hbegin]
    exact savedFits_start _ rfl rfl

/-- Where a set position call takes a walk, if it takes one. -/
lemma setPositionPeak_cases (fuel : ℕ) (conv : Convertor) (position : ℕ) :
    setPositionPeak fuel conv position ≤ 2 ∨ conv.flags.datatype.contiguous = false ∧
      ∃ conv₁, Restarted conv conv₁ ∧
        setPositionPeak fuel conv position = genericSimplePositionPeak fuel conv₁ position := by
  rw [setPositionPeak]
  dsimp only
  set conv₀ : Convertor := { conv with flags := { conv.flags with completed := false } }
  set conv₁ := if position = 0 ∨ position < conv.bConverted then conv₀.createStackAtBegining
    else conv₀ with hconv₁
  obtain ⟨hstart, hflags⟩ : Restarted conv conv₁ ∧
      conv₁.flags.datatype.contiguous = conv.flags.datatype.contiguous := by
    rw [hconv₁]
    split
    · exact ⟨⟨rfl, Or.inr rfl⟩, rfl⟩
    · exact ⟨⟨rfl, Or.inl rfl⟩, rfl⟩
  by_cases hdone : conv.localSize ≤ position ∨ position = conv.bConverted
  · rw [if_pos hdone]
    exact Or.inl (Nat.zero_le _)
  rw [if_neg hdone]
  by_cases hdirect : conv.flags.withChecksum = false ∧ conv.flags.datatype.noGaps = true ∧
      (conv.flags.send = true ∨ conv.flags.homogeneous = true)
  · rw [if_pos hdirect]
    exact Or.inl (Nat.zero_le _)
  rw [if_neg hdirect]
  by_cases hzero : position = 0
  · rw [if_pos hzero, hconv₁, if_pos (Or.inl hzero)]
    exact Or.inl le_rfl
  rw [if_neg hzero]
  by_cases hcontiguous : conv₁.flags.datatype.contiguous = true
  · rw [if_pos hcontiguous]
    exact Or.inl le_rfl
  · rw [if_neg hcontiguous]
    rw [hflags] at hcontiguous
    exact Or.inr ⟨Bool.eq_false_iff.mpr hcontiguous, conv₁, hstart, rfl⟩

lemma setPositionPeak_le (hdesc : Bracketed conv.useDesc.desc)
    (hdepth : ∀ pos, level (conv.useDesc.desc.take pos) ≤ n)
    (h : SavedFits conv.useDesc.desc conv.stack) (position : ℕ) :
    setPositionPeak fuel conv position ≤ n + 2 := by
  rcases setPositionPeak_cases fuel conv position with hle | ⟨-, conv₁, hstart, heq⟩
  · exact hle.trans (Nat.le_add_left _ _)
  · rw [heq]
    have hfits := hstart.fits h
    rw [← hstart.useDesc] at hdesc hdepth
    exact genericSimplePositionPeak_le hdesc hdepth hfits position

/-- **Every call** leaves a stack that fits. -/
lemma convertorPack_fits {chk : Build} (hdesc : Bracketed conv.useDesc.desc)
    (h : SavedFits conv.useDesc.desc conv.stack) {iov : List Iovec} {maxData : ℕ} {r : PackResult}
    (hpack : convertorPack chk mem fuel conv iov maxData = some r) :
    SavedFits conv.useDesc.desc r.conv.stack := by
  rw [convertorPack] at hpack
  dsimp only at hpack
  generalize (if conv.fAdvanceChecksum = true then chk else Build.plain) = build at hpack
  split_ifs at hpack with hdone hnoOp
  · cases hpack
    exact h
  · cases hpack
    rw [packNoOp]
    dsimp only
    split <;> exact h
  · split at hpack
    · have hfits := genericSimplePack_fits (by exact hdesc) (by exact h) hpack
      exact hfits
    · have hindex := packHomogeneousContig_index hpack
      exact h.congr hindex
    · have hindex := packHomogeneousContigWithGaps_index hpack
      exact h.congr hindex
    · cases hpack

lemma convertorUnpack_fits {chk : Build} (hdesc : Bracketed conv.useDesc.desc)
    (h : SavedFits conv.useDesc.desc conv.stack) {iov : List Fragment} {r : UnpackResult}
    (hunpack : convertorUnpack chk fuel conv mem iov = some r) :
    SavedFits conv.useDesc.desc r.conv.stack := by
  rw [convertorUnpack] at hunpack
  dsimp only at hunpack
  generalize (if conv.fAdvanceChecksum = true then chk else Build.plain) = build at hunpack
  split_ifs at hunpack with hdone hnoOp
  · cases hunpack
    exact h
  · cases hunpack
    rw [unpackNoOp]
    dsimp only
    split <;> exact h
  · split at hunpack
    · have hfits := genericSimpleUnpack_fits (by exact hdesc) (by exact h) hunpack
      exact hfits
    · have hindex := unpackHomogeneousContig_index hunpack
      exact h.congr hindex
    · have hfits := unpackGeneral_fits (by exact h) hunpack
      exact hfits
    · cases hunpack

lemma setPositionNocheck_fits (hdesc : Bracketed conv.useDesc.desc)
    (h : SavedFits conv.useDesc.desc conv.stack) {position : ℕ} {r : Convertor × ℕ × ℤ}
    (hset : setPositionNocheck fuel conv position = some r) :
    SavedFits conv.useDesc.desc r.1.stack := by
  rw [setPositionNocheck] at hset
  dsimp only at hset
  set conv₁ := if position = 0 ∨ position < conv.bConverted then conv.createStackAtBegining
    else conv with hconv₁
  have hstart : Restarted conv conv₁ := by
    rw [hconv₁]
    split
    · exact ⟨rfl, Or.inr rfl⟩
    · exact ⟨rfl, Or.inl rfl⟩
  have hfits := hstart.fits h
  split_ifs at hset with hzero hcontiguous
  · cases hset
    exact hstart.useDesc ▸ hfits
  · cases hset
    refine savedFits_start _ ?_ rfl
    split <;> rfl
  · obtain ⟨⟨conv₂, rc⟩, hposition, hset⟩ := Option.bind_eq_some_iff.mp hset
    have hafter := genericSimplePosition_fits (hstart.useDesc ▸ hdesc) hfits hposition
    rw [hstart.useDesc] at hafter
    cases hset
    dsimp only
    split <;> exact hafter

lemma setPosition_fits (hdesc : Bracketed conv.useDesc.desc)
    (h : SavedFits conv.useDesc.desc conv.stack) {position : ℕ} {r : Convertor × ℕ × ℤ}
    (hset : setPosition fuel conv position = some r) : SavedFits conv.useDesc.desc r.1.stack := by
  rw [setPosition] at hset
  dsimp only at hset
  split_ifs at hset with hdone hsame hdirect
  · cases hset
    exact h
  · cases hset
    exact h
  · cases hset
    exact h
  · have hfits := setPositionNocheck_fits (by exact hdesc) (by exact h) hset
    exact hfits

/-! ### Counting -/

/-- **An entry of the counting walk.** -/
lemma countStep_fits {σ ρ : Type} {visit : ElemDesc → σ → ρ ⊕ σ} {completed : σ → ρ} {s s' : σ}
    {stack stack' : List DtStack} {pos pos' : ℕ} (h : PlaceFits desc stack pos)
    (hstep : countStep visit completed desc stack pos s = some (.next stack' pos' s')) :
    PlaceFits desc stack' pos' := by
  rw [countStep.eq_def] at hstep
  cases hentry : desc[pos]? with
  | none => rw [hentry] at hstep; cases hstep
  | some entry =>
      rw [hentry] at hstep
      cases entry with
      | elem e =>
          dsimp only at hstep
          cases hvisit : visit e s with
          | inl r => rw [hvisit] at hstep; cases hstep
          | inr s'' =>
              rw [hvisit] at hstep
              cases hstep
              exact h.elem hentry
      | loop l =>
          cases hstep
          exact h.loop hentry _ _
      | endLoop e =>
          cases stack with
          | nil => cases hstep
          | cons top below =>
              dsimp only at hstep
              split_ifs at hstep with hcount
              · cases below with
                | nil => cases hstep
                | cons next below =>
                    cases hstep
                    exact .body h.stack.2 rfl
              · cases hstep
                exact .body h.stack rfl

lemma countPeak_le {σ ρ : Type} {visit : ElemDesc → σ → ρ ⊕ σ} {completed : σ → ρ}
    (hdepth : ∀ pos, level (desc.take pos) ≤ n) (fuel : ℕ) {stack : List DtStack} {pos : ℕ}
    (h : PlaceFits desc stack pos) (s : σ) :
    countPeak visit completed desc fuel stack pos s ≤ n + 1 := by
  induction fuel generalizing stack pos s with
  | zero => exact h.length_le hdepth
  | succ fuel ih =>
      rw [countPeak]
      refine max_le (h.length_le hdepth) ?_
      cases hstep : countStep visit completed desc stack pos s with
      | none => exact Nat.zero_le _
      | some v =>
          cases v with
          | done r => exact Nat.zero_le _
          | next stack' pos' s' => exact ih (countStep_fits h hstep) s'

end Calls

end Ocoms
