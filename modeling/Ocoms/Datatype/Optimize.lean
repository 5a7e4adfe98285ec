import Ocoms.Datatype.Add

/-!
Committing datatypes: `ocoms_datatype_optimize.c`.

* `optStep` visits one entry of the plain description and writes the optimized one: neighbouring
  elements are merged, `CONTIGUOUS` loops become elements, and short loops are unrolled.
  `optimizeShort` is the whole of it, `Datatype.commit` is `ocoms_datatype_commit`.
* `Nest.optimized` is the same on loop nests. `optimizeShort_eq` says that the code computes it.
-/

namespace Ocoms

open Layout

/-! ### The code -/

/-- The locals of `ocoms_datatype_optimize_short`. `out` are the entries up to `pElemDesc`, so
`nbElems` is its length; `stack` are the entries `pStack[stack_pos], …, pStack[0]`. -/
structure OptState where
  pos : ℕ
  stack : List (ℤ × ℤ)
  out : List DtElemDesc
  lastType : TypeId
  lastLength : ℕ
  lastDisp : ℤ
  lastExtent : ℤ
  totalDisp : ℤ

/-- The `CREATE_ELEM` of the data gathered so far. -/
def OptState.lastElem (s : OptState) : DtElemDesc :=
  createElem s.lastType .basic s.lastLength s.lastDisp s.lastExtent

/-- The end of a loop, or of the description, which empties the stack. -/
def OptState.endLoop (e : EndLoopDesc) (s : OptState) : Option OptState :=
  let s :=
    if s.lastLength ≠ 0 then
      { s with out := s.out ++ [s.lastElem], lastDisp := s.lastDisp + s.lastLength, lastLength := 0 }
    else s
  match s.stack with
  | [] => none
  | (index, disp) :: stack =>
      let items := (s.out.length - index + 1).toNat
      let out := s.out ++ [createLoopEnd items e.firstElemDisp e.size e.flags]
      if stack = [] then some { s with pos := s.pos + 1, stack, out }
      else
        let setItems := fun
          | DtElemDesc.loop l => DtElemDesc.loop { l with items }
          | d => d
        some { s with
          pos := s.pos + 1, stack, out := out.modify (index - 1).toNat setItems, totalDisp := disp }

/-- Whether the data gathered so far ends where `disp` is. -/
def OptState.continuity (s : OptState) (disp : ℤ) : Bool :=
  s.lastDisp + s.lastLength * basicSize s.lastType = s.totalDisp + disp

/-- A `CONTIGUOUS` loop without gaps. -/
def OptState.denseLoop (l : LoopDesc) (e : EndLoopDesc) (loopDisp : ℤ) (s : OptState) : OptState :=
  let s' :=
    if s.continuity loopDisp then s
    else
      let s' := if s.lastLength ≠ 0 then { s with out := s.out ++ [s.lastElem], lastLength := 0 }
        else s
      { s' with lastDisp := s'.totalDisp + loopDisp }
  { s' with
    lastLength := s'.lastLength * basicSize s'.lastType + l.loops * e.size
    lastType := .uint1
    lastExtent := 1 }

/-- The copies of one pass, for a loop that is dissolved. -/
def unrolled (type : TypeId) (flags : Flags) (count : ℕ) (extent stride : ℤ) :
    ℕ → ℤ → List DtElemDesc
  | 0, _ => []
  | n + 1, disp => createElem type flags count disp extent ::
      unrolled type flags count extent stride n (disp + stride)

/-- A `CONTIGUOUS` loop with gaps. Its first pass goes with the data gathered so far when it
follows it. -/
def OptState.gappedLoop (l : LoopDesc) (e : EndLoopDesc) (loopDisp : ℤ) (s : OptState) : OptState :=
  let merged := s.lastLength ≠ 0 ∧ s.continuity loopDisp = true
  let counter := if merged then l.loops - 1 else l.loops
  let mergedDisp := if merged then l.extent else 0
  let s :=
    if merged then
      { s with
        lastLength := s.lastLength * basicSize s.lastType + e.size, lastType := .uint1
        lastExtent := 1 }
    else s
  let s :=
    if s.lastLength ≠ 0 then
      { s with
        out := s.out ++ [s.lastElem], lastDisp := s.lastDisp + s.lastLength, lastLength := 0
        lastType := .loop }
    else s
  let entries :=
    if counter ≤ 2 then
      unrolled .uint1 .basic e.size 1 l.extent counter (mergedDisp + e.firstElemDisp)
    else
      [createLoopStart counter 2 l.extent l.flags,
        createElem .uint1 .basic e.size loopDisp 1,
        createLoopEnd 2 (e.firstElemDisp + mergedDisp) e.size e.flags]
  { s with out := s.out ++ entries }

/-- A loop that is not `CONTIGUOUS`, entered unless it is small. `none` is a loop of one entry
that is no element. -/
def OptState.otherLoop (desc : List DtElemDesc) (l : LoopDesc) (s : OptState) : Option OptState :=
  let s :=
    if s.lastLength ≠ 0 then
      { s with
        out := s.out ++ [s.lastElem], lastDisp := s.lastDisp + s.lastLength, lastLength := 0
        lastType := .loop }
    else s
  let enter : OptState :=
    let out := s.out ++ [createLoopStart l.loops l.items l.extent l.flags]
    { s with pos := s.pos + 1, out, stack := (out.length, s.totalDisp) :: s.stack }
  if l.items = 2 then
    match desc[s.pos + 1]? with
    | some (.elem e) =>
        if e.count = 1 ∧ e.extent = basicSize e.type then
          some { s with
            pos := s.pos + (l.items + 1)
            out := s.out ++
              [createElem e.type { e.flags with contiguous := false } l.loops e.disp l.extent] }
        else if l.loops < 3 then
          some { s with
            pos := s.pos + (l.items + 1)
            out := s.out ++ unrolled e.type e.flags e.count e.extent l.extent l.loops e.disp }
        else some enter
    | _ => none
  else some enter

/-- A loop. -/
def OptState.loop (desc : List DtElemDesc) (l : LoopDesc) (s : OptState) : Option OptState := do
  let s ← if l.flags.contiguous then
      match desc[s.pos + l.items]?,
        desc[s.pos + (getFirstNonLoop (desc.drop s.pos))]? with
      | some (.endLoop e), some first =>
          let s' := if l.extent = e.size then s.denseLoop l e first.disp
            else s.gappedLoop l e first.disp
          some { s' with pos := s.pos + (l.items + 1) }
      | _, _ => none
    else s.otherLoop desc l
  -- `total_disp` is read off the stack again
  return { s with totalDisp := (s.stack.head?.map Prod.snd).getD 0 }

/-- An element. -/
def OptState.elem (e : ElemDesc) (s : OptState) : OptState :=
  if e.flags.contiguous = true ∧ s.continuity e.disp = true ∧ e.extent = basicSize e.type then
    if e.type = s.lastType then
      { s with pos := s.pos + 1, lastLength := s.lastLength + e.count, lastExtent := e.extent }
    else if s.lastLength = 0 then
      { s with
        pos := s.pos + 1, lastType := e.type, lastLength := e.count, lastExtent := e.extent }
    else
      { s with
        pos := s.pos + 1
        lastLength := s.lastLength * basicSize s.lastType + e.count * basicSize e.type
        lastType := .uint1
        lastExtent := 1 }
  else
    { s with
      pos := s.pos + 1
      out := if s.lastLength ≠ 0 then s.out ++ [s.lastElem] else s.out
      lastDisp := s.totalDisp + e.disp
      lastLength := e.count
      lastExtent := e.extent
      lastType := e.type }

/-- One visit. `none` is an entry outside the description, and the one that is neither `DATA`
nor a loop, at which the source spins. -/
def optStep (desc : List DtElemDesc) (s : OptState) : Option OptState :=
  match desc[s.pos]? with
  | none => none
  | some (.endLoop e) => s.endLoop e
  | some (.loop l) => s.loop desc l
  | some (.elem e) => if e.flags.data then some (s.elem e) else none

/-- `while( stack_pos >= 0 )`, at most `fuel` visits. -/
def optLoop (desc : List DtElemDesc) : ℕ → OptState → Option OptState
  | 0, _ => none
  | fuel + 1, s => do
      let s ← optStep desc s
      if s.stack = [] then some s else optLoop desc fuel s

/-- The locals at the start. -/
def OptState.start : OptState where
  pos := 0
  stack := [(-1, 0)]
  out := []
  lastType := .uint1
  lastLength := 0
  lastDisp := 0
  lastExtent := 1
  totalDisp := 0

/-- `ocoms_datatype_optimize_short`; every visit moves on in the description. -/
def optimizeShort (pData : Datatype) : Option TypeDesc := do
  let s ← optLoop pData.desc.desc pData.desc.desc.length .start
  let out := if s.lastLength ≠ 0 then s.out ++ [s.lastElem] else s.out
  return { length := 2 * pData.desc.used + 1, used := out.length - 1, desc := out }

/-- The fake `END_LOOP` behind a description of `used` entries. -/
def fakeEndLoop (used : ℕ) (firstElemDisp : ℤ) (size : ℕ) : EndLoopDesc :=
  { flags := {}, items := used, size, firstElemDisp }

/-- `ocoms_datatype_commit`. -/
def Datatype.commit (pData : Datatype) : Option Datatype :=
  if pData.flags.commited then some pData
  else
    let desc := pData.desc.desc.take pData.desc.used
    let firstElemDisp :=
      if pData.size ≠ 0 then (desc[getFirstNonLoop desc]?.map DtElemDesc.disp).getD 0
      else 0
    let pData := { pData with
      flags := { pData.flags with commited := true }
      desc := { pData.desc with
        desc := desc ++ [.endLoop (fakeEndLoop pData.desc.used firstElemDisp pData.size)] } }
    if pData.desc.used = 0 then some { pData with optDesc := .null }
    else
      (optimizeShort pData).map fun optDesc =>
        { pData with
          optDesc :=
            if optDesc.used ≠ 0 then
              { optDesc with
                desc := optDesc.desc.take optDesc.used ++
                  [.endLoop (fakeEndLoop optDesc.used firstElemDisp pData.size)] }
            else optDesc }

/-! ### The same on loop nests -/

/-- What `CREATE_ELEM` writes. -/
def mkElem (type : TypeId) (flags : Flags) (count : ℕ) (disp extent : ℤ) : ElemDesc :=
  { flags := { flags with data := true }, type, count, disp, extent }

/-- An element, as data gathered so far. -/
def ElemDesc.gathered (e : ElemDesc) : ElemDesc := mkElem e.type .basic e.count e.disp e.extent

/-- Where the data of an element ends when there are no gaps in it. -/
def ElemDesc.denseEnd (e : ElemDesc) : ℤ := e.disp + e.count * basicSize e.type

/-- `size` bytes more. -/
def ElemDesc.extended (p : ElemDesc) (size : ℕ) : ElemDesc :=
  mkElem .uint1 .basic (p.count * basicSize p.type + size) p.disp 1

/-- The gathered data in front of a nest. -/
def Nest.behind (last : Option ElemDesc) (t : Nest) : Nest :=
  match last with
  | none => t
  | some p => elem p t

/-- An element joins the data gathered so far, or replaces it. -/
def gatherElem (last : Option ElemDesc) (e : ElemDesc) : Option ElemDesc × ElemDesc :=
  match last with
  | none => (none, e.gathered)
  | some p =>
      if e.flags.contiguous = true ∧ p.denseEnd = e.disp ∧ e.extent = basicSize e.type then
        (none, if e.type = p.type then mkElem p.type .basic (p.count + e.count) p.disp e.extent
          else p.extended (e.count * basicSize e.type))
      else (some p, e.gathered)

/-- A `CONTIGUOUS` loop without gaps joins the data gathered so far, or replaces it. -/
def gatherLoop (last : Option ElemDesc) (l : LoopInfo) (loopDisp : ℤ) :
    Option ElemDesc × ElemDesc :=
  match last with
  | none => (none, mkElem .uint1 .basic (l.loops * l.size) loopDisp 1)
  | some p =>
      if p.denseEnd = loopDisp then (none, p.extended (l.loops * l.size))
      else (some p, mkElem .uint1 .basic (l.loops * l.size) loopDisp 1)

/-- The copies of one pass, in front of a nest. -/
def Nest.unrolled (type : TypeId) (flags : Flags) (count : ℕ) (extent stride : ℤ) :
    ℕ → ℤ → Nest → Nest
  | 0, _, rest => rest
  | n + 1, disp, rest =>
      elem (mkElem type flags count disp extent)
        (unrolled type flags count extent stride n (disp + stride) rest)

/-- A loop as it is written again. -/
def LoopInfo.copied (l : LoopInfo) : LoopInfo :=
  { l with flags := { l.flags with data := false }, endFlags := { l.endFlags with data := false } }

/-- The `counter` passes of a `CONTIGUOUS` loop with gaps that are left when `mergedDisp` is
through. -/
def Nest.gappedPasses (l : LoopInfo) (loopDisp : ℤ) (counter : ℕ) (mergedDisp : ℤ) (rest : Nest) :
    Nest :=
  if counter ≤ 2 then
    unrolled .uint1 .basic l.size 1 l.extent counter (mergedDisp + l.firstElemDisp) rest
  else
    loop { l with loops := counter, firstElemDisp := l.firstElemDisp + mergedDisp : LoopInfo }.copied
      (elem (mkElem .uint1 .basic l.size loopDisp 1) done) rest

/-- A `CONTIGUOUS` loop with gaps. -/
def Nest.gappedLoop (last : Option ElemDesc) (l : LoopInfo) (loopDisp : ℤ) (rest : Nest) : Nest :=
  match last with
  | none => gappedPasses l loopDisp l.loops 0 rest
  | some p =>
      if p.denseEnd = loopDisp then
        elem (p.extended l.size) (gappedPasses l loopDisp (l.loops - 1) l.extent rest)
      else elem p (gappedPasses l loopDisp l.loops 0 rest)

/-- A loop that is not `CONTIGUOUS`; `body'` is its optimized body. -/
def Nest.otherLoop (l : LoopInfo) (body body' rest : Nest) : Nest :=
  match body with
  | elem e done =>
      if e.count = 1 ∧ e.extent = basicSize e.type then
        elem (mkElem e.type { e.flags with contiguous := false } l.loops e.disp l.extent) rest
      else if l.loops < 3 then unrolled e.type e.flags e.count e.extent l.extent l.loops e.disp rest
      else loop l.copied body' rest
  | _ => loop l.copied body' rest

/-- The optimized nest, with the data gathered so far in front. -/
def Nest.optimized : Option ElemDesc → Nest → Nest
  | last, done => behind last done
  | last, elem e rest => behind (gatherElem last e).1 (optimized (some (gatherElem last e).2) rest)
  | last, loop l body rest =>
      if l.flags.contiguous then
        if l.extent = l.size then
          behind (gatherLoop last l body.firstDisp).1
            (optimized (some (gatherLoop last l body.firstDisp).2) rest)
        else gappedLoop last l body.firstDisp (optimized none rest)
      else behind last (otherLoop l body (optimized none body) (optimized none rest))

/-- Every element entry has the flag `DATA`. -/
def Nest.ElemsData : Nest → Prop
  | done => True
  | elem e rest => e.flags.data = true ∧ rest.ElemsData
  | loop _ body rest => body.ElemsData ∧ rest.ElemsData

/-! ### The code computes the optimized nest -/

section Refine

variable {desc : List DtElemDesc}

/-- The entries of the gathered data. -/
def pendingEntries (last : Option ElemDesc) : List DtElemDesc := (last.map .elem).toList

@[simp] lemma pendingEntries_none : pendingEntries none = [] := rfl

@[simp] lemma pendingEntries_some (p : ElemDesc) : pendingEntries (some p) = [.elem p] := rfl

lemma Nest.flatten_behind (last : Option ElemDesc) (t : Nest) :
    (behind last t).flatten = pendingEntries last ++ t.flatten := by
  cases last <;> rfl

lemma Nest.flatten_unrolled (type : TypeId) (flags : Flags) (count : ℕ) (extent stride : ℤ)
    (n : ℕ) (disp : ℤ) (rest : Nest) :
    (unrolled type flags count extent stride n disp rest).flatten
      = Ocoms.unrolled type flags count extent stride n disp ++ rest.flatten := by
  induction n generalizing disp with
  | zero => rfl
  | succ n ih => rw [unrolled, flatten, ih]; rfl

/-- The data gathered so far. -/
def OptState.pending (s : OptState) : Option ElemDesc :=
  if s.lastLength = 0 then none
  else some (mkElem s.lastType .basic s.lastLength s.lastDisp s.lastExtent)

/-- The first displacement, as `GET_FIRST_NON_LOOP` finds it. -/
lemma Nest.Wf.getFirstNonLoop {t : Nest} (h : t.Wf) (ht : t ≠ .done) (tail : List DtElemDesc) :
    ∃ e, (t.flatten ++ tail)[Ocoms.getFirstNonLoop (t.flatten ++ tail)]? = some e ∧
      e.disp = t.firstDisp := by
  induction t generalizing tail with
  | done => exact absurd rfl ht
  | elem e r _ => exact ⟨.elem e, rfl, rfl⟩
  | loop l b r ihb _ =>
      obtain ⟨e, he, hd⟩ := ihb h.2.2.1 h.2.1 (.endLoop (endLoopDesc l b.flatten.length) ::
        (r.flatten ++ tail))
      refine ⟨e, ?_, hd⟩
      simpa [flatten, Ocoms.getFirstNonLoop] using he

/-- Where the walk over the plain description is. -/
structure OptState.At (desc : List DtElemDesc) (code : Nest) (tail : List DtElemDesc)
    (s : OptState) : Prop where
  entries : desc.drop s.pos = code.flatten ++ tail
  stack : s.stack ≠ []
  disps : ∀ p ∈ s.stack, p.2 = 0
  total : s.totalDisp = 0

lemma OptState.At.total_stack {code : Nest} {tail : List DtElemDesc} {s : OptState}
    (h : s.At desc code tail) : (s.stack.head?.map Prod.snd).getD 0 = 0 := by
  obtain ⟨p, ps, hs⟩ := List.exists_cons_of_ne_nil h.stack
  rw [hs]
  exact h.disps p (by simp [hs])

lemma OptState.At.getElem? {code : Nest} {tail : List DtElemDesc} {s : OptState}
    (h : s.At desc code tail) (k : ℕ) : desc[s.pos + k]? = (code.flatten ++ tail)[k]? := by
  rw [← h.entries, List.getElem?_drop]

/-- The walk goes from `s` to `s'` over `code`, and writes its optimized nest. -/
structure OptState.Writes (desc : List DtElemDesc) (code : Nest) (s s' : OptState) : Prop where
  visits : ∃ n ≤ code.flatten.length, ∀ fuel, optLoop desc (fuel + n) s = optLoop desc fuel s'
  pos : s'.pos = s.pos + code.flatten.length
  stack : s'.stack = s.stack
  total : s'.totalDisp = 0
  out : s'.out ++ pendingEntries s'.pending = s.out ++ (code.optimized s.pending).flatten

lemma optLoop_step {s s' : OptState} (h : optStep desc s = some s') (hne : s'.stack ≠ [])
    (fuel : ℕ) : optLoop desc (fuel + 1) s = optLoop desc fuel s' := by
  rw [optLoop, h]
  simp [hne]

/-- One visit, and the rest of the walk. -/
lemma OptState.Writes.step {code rest : Nest} {s s₁ s' : OptState} {n : ℕ}
    (hstep : optStep desc s = some s₁) (hne : s.stack ≠ []) (hstack : s₁.stack = s.stack)
    (hpos : s₁.pos = s.pos + n) (hn : 0 < n) (hlen : code.flatten.length = n + rest.flatten.length)
    (hout : s₁.out ++ (rest.optimized s₁.pending).flatten
      = s.out ++ (code.optimized s.pending).flatten)
    (h : s₁.Writes desc rest s') : s.Writes desc code s' := by
  obtain ⟨⟨m, hm, hvisits⟩, hpos', hstack', htotal, hout'⟩ := h
  refine ⟨⟨m + 1, by omega, fun fuel => ?_⟩, by omega, hstack'.trans hstack, htotal,
    hout'.trans hout⟩
  rw [← Nat.add_assoc, optLoop_step hstep (by rw [hstack]; exact hne), hvisits]

lemma OptState.pending_of_ne {s : OptState} (h : s.lastLength ≠ 0) :
    s.pending = some (mkElem s.lastType .basic s.lastLength s.lastDisp s.lastExtent) := if_neg h

lemma OptState.pending_of_eq {s : OptState} (h : s.lastLength = 0) : s.pending = none := if_pos h

lemma OptState.continuity_iff {s : OptState} (htotal : s.totalDisp = 0) (disp : ℤ) :
    s.continuity disp = true ↔ s.lastDisp + s.lastLength * basicSize s.lastType = disp := by
  simp [continuity, htotal]

/-- The visit of an element. -/
lemma OptState.elem_gathers {e : ElemDesc} (hcount : 0 < e.count) (hsize : 0 < basicSize e.type)
    {s : OptState} (htotal : s.totalDisp = 0) :
    (s.elem e).pending = some (gatherElem s.pending e).2 ∧
      (s.elem e).out = s.out ++ pendingEntries (gatherElem s.pending e).1 ∧
      (s.elem e).pos = s.pos + 1 ∧ (s.elem e).stack = s.stack ∧ (s.elem e).totalDisp = 0 := by
  have hcont := s.continuity_iff htotal e.disp
  rw [OptState.elem]
  by_cases h0 : s.lastLength = 0
  · rw [pending_of_eq h0, gatherElem]
    split_ifs with hg ht hne
    · -- a `last_disp` that nothing is gathered at is the displacement of `e`
      have hdisp := hcont.mp hg.2.1
      rw [h0, Nat.cast_zero, zero_mul, add_zero] at hdisp
      refine ⟨?_, by simp, rfl, rfl, htotal⟩
      rw [pending_of_ne (by simp only; omega), ElemDesc.gathered, ht, h0, hdisp, Nat.zero_add]
    · have hdisp := hcont.mp hg.2.1
      rw [h0, Nat.cast_zero, zero_mul, add_zero] at hdisp
      refine ⟨?_, by simp, rfl, rfl, htotal⟩
      rw [pending_of_ne hcount.ne', ElemDesc.gathered, hdisp]
    · exact absurd h0 hne
    · refine ⟨?_, by simp, rfl, rfl, htotal⟩
      rw [pending_of_ne hcount.ne', ElemDesc.gathered, htotal, zero_add]
  · rw [pending_of_ne h0, gatherElem]
    by_cases hg : e.flags.contiguous = true ∧ s.continuity e.disp = true ∧
        e.extent = basicSize e.type
    · have hg' : e.flags.contiguous = true ∧
          (mkElem s.lastType .basic s.lastLength s.lastDisp s.lastExtent).denseEnd = e.disp ∧
          e.extent = basicSize e.type := ⟨hg.1, hcont.mp hg.2.1, hg.2.2⟩
      simp only [if_pos hg, if_pos hg', if_neg h0]
      split_ifs with ht ht' ht'
      · refine ⟨?_, by simp, rfl, rfl, htotal⟩
        rw [pending_of_ne (by simp only; omega)]
        rfl
      · exact absurd ht ht'
      · exact absurd ht' ht
      · have hpos : 0 < e.count * basicSize e.type := Nat.mul_pos hcount hsize
        refine ⟨?_, by simp, rfl, rfl, htotal⟩
        rw [pending_of_ne (by simp only; omega)]
        rfl
    · have hg' : ¬ (e.flags.contiguous = true ∧
          (mkElem s.lastType .basic s.lastLength s.lastDisp s.lastExtent).denseEnd = e.disp ∧
          e.extent = basicSize e.type) := fun h => hg ⟨h.1, hcont.mpr h.2.1, h.2.2⟩
      rw [if_neg hg, if_neg hg']
      refine ⟨?_, by simp [h0, lastElem, createElem, mkElem], rfl, rfl, htotal⟩
      rw [pending_of_ne hcount.ne', ElemDesc.gathered, htotal, zero_add]

/-- The visit of a `CONTIGUOUS` loop without gaps. -/
lemma OptState.denseLoop_gathers {l : LoopInfo} {n : ℕ} (hpos : 0 < l.loops * l.size)
    (loopDisp : ℤ) {s : OptState} (htotal : s.totalDisp = 0) :
    let s' := s.denseLoop (Nest.loopDesc l n) (Nest.endLoopDesc l n) loopDisp
    s'.pending = some (gatherLoop s.pending l loopDisp).2 ∧
      s'.out = s.out ++ pendingEntries (gatherLoop s.pending l loopDisp).1 ∧
      s'.stack = s.stack ∧ s'.pos = s.pos := by
  have hcont := s.continuity_iff htotal loopDisp
  have hloops : (Nest.loopDesc l n).loops * (Nest.endLoopDesc l n).size = l.loops * l.size := rfl
  simp only [OptState.denseLoop, hloops]
  by_cases h0 : s.lastLength = 0
  · rw [pending_of_eq h0, gatherLoop]
    split_ifs with hc hne
    · have hdisp := hcont.mp hc
      rw [h0, Nat.cast_zero, zero_mul, add_zero] at hdisp
      refine ⟨?_, by simp, rfl, rfl⟩
      rw [pending_of_ne (by simp only [h0]; omega), h0, hdisp, Nat.zero_mul, Nat.zero_add]
    · exact absurd h0 hne
    · refine ⟨?_, by simp, rfl, rfl⟩
      rw [pending_of_ne (by simp only [h0]; omega), h0, htotal, Nat.zero_mul, Nat.zero_add, zero_add]
  · rw [pending_of_ne h0, gatherLoop]
    by_cases hc : s.continuity loopDisp = true
    · have hc' : (mkElem s.lastType .basic s.lastLength s.lastDisp s.lastExtent).denseEnd
          = loopDisp := hcont.mp hc
      rw [if_pos hc, if_pos hc']
      refine ⟨?_, by simp, rfl, rfl⟩
      rw [pending_of_ne (by simp only; omega)]
      rfl
    · have hc' : ¬ (mkElem s.lastType .basic s.lastLength s.lastDisp s.lastExtent).denseEnd
          = loopDisp := fun h => hc (hcont.mpr h)
      rw [if_neg hc, if_pos h0, if_neg hc']
      refine ⟨?_, by simp [lastElem, createElem, mkElem], rfl, rfl⟩
      rw [pending_of_ne (by simp only; omega), htotal, Nat.zero_mul, Nat.zero_add, zero_add]

lemma Nest.flatten_gappedPasses (l : LoopInfo) (n : ℕ) (loopDisp : ℤ) (counter : ℕ)
    (mergedDisp : ℤ) (rest : Nest) :
    (gappedPasses l loopDisp counter mergedDisp rest).flatten
      = (if counter ≤ 2 then
          Ocoms.unrolled .uint1 .basic (endLoopDesc l n).size 1 (loopDesc l n).extent counter
            (mergedDisp + (endLoopDesc l n).firstElemDisp)
        else
          [createLoopStart counter 2 (loopDesc l n).extent (loopDesc l n).flags,
            createElem .uint1 .basic (endLoopDesc l n).size loopDisp 1,
            createLoopEnd 2 ((endLoopDesc l n).firstElemDisp + mergedDisp) (endLoopDesc l n).size
              (endLoopDesc l n).flags]) ++ rest.flatten := by
  rw [gappedPasses]
  split_ifs
  · rw [flatten_unrolled]
    rfl
  · rfl

/-- The visit of a `CONTIGUOUS` loop with gaps. -/
lemma OptState.gappedLoop_writes {l : LoopInfo} {n : ℕ} (hsize : 0 < l.size)
    (loopDisp : ℤ) {s : OptState} (htotal : s.totalDisp = 0) (rest : Nest) :
    let s' := s.gappedLoop (Nest.loopDesc l n) (Nest.endLoopDesc l n) loopDisp
    s'.pending = none ∧
      s'.out ++ rest.flatten = s.out ++ (Nest.gappedLoop s.pending l loopDisp rest).flatten ∧
      s'.stack = s.stack ∧ s'.pos = s.pos := by
  have hcont := s.continuity_iff htotal loopDisp
  by_cases h0 : s.lastLength = 0
  · rw [pending_of_eq h0, Nest.gappedLoop, Nest.flatten_gappedPasses l n]
    have hm : ¬ (s.lastLength ≠ 0 ∧ s.continuity loopDisp = true) := fun h => h.1 h0
    simp only [OptState.gappedLoop, if_neg hm, if_neg (not_not.mpr h0), List.append_assoc]
    exact ⟨pending_of_eq h0, rfl, trivial, trivial⟩
  · rw [pending_of_ne h0, Nest.gappedLoop]
    by_cases hc : s.continuity loopDisp = true
    · have hc' : (mkElem s.lastType .basic s.lastLength s.lastDisp s.lastExtent).denseEnd
          = loopDisp := hcont.mp hc
      have hm : s.lastLength ≠ 0 ∧ s.continuity loopDisp = true := ⟨h0, hc⟩
      have hne : s.lastLength * basicSize s.lastType + (Nest.endLoopDesc l n).size ≠ 0 :=
        (Nat.add_pos_right _ hsize).ne'
      rw [if_pos hc', Nest.flatten, Nest.flatten_gappedPasses l n]
      simp only [OptState.gappedLoop, if_pos hm, if_pos hne, List.append_assoc]
      exact ⟨pending_of_eq rfl, rfl, trivial, trivial⟩
    · have hc' : ¬ (mkElem s.lastType .basic s.lastLength s.lastDisp s.lastExtent).denseEnd
          = loopDisp := fun h => hc (hcont.mpr h)
      have hm : ¬ (s.lastLength ≠ 0 ∧ s.continuity loopDisp = true) := fun h => hc h.2
      rw [if_neg hc', Nest.flatten, Nest.flatten_gappedPasses l n]
      simp only [OptState.gappedLoop, if_neg hm, if_pos h0, List.append_assoc]
      exact ⟨pending_of_eq rfl, rfl, trivial, trivial⟩

/-- The gathered data is written in front of the end of a loop. -/
lemma OptState.endLoop_eq (e : EndLoopDesc) (s : OptState) :
    ∃ s₁ : OptState, s₁.out = s.out ++ pendingEntries s.pending ∧ s₁.stack = s.stack ∧
      s₁.pos = s.pos ∧ s₁.lastLength = 0 ∧ s₁.totalDisp = s.totalDisp ∧ s.endLoop e = s₁.endLoop e := by
  by_cases h0 : s.lastLength = 0
  · exact ⟨s, by rw [pending_of_eq h0]; simp, rfl, rfl, h0, rfl, rfl⟩
  · refine ⟨{ s with out := s.out ++ [s.lastElem], lastDisp := s.lastDisp + s.lastLength,
                     lastLength := 0 }, ?_, rfl, rfl, rfl, rfl, ?_⟩
    · rw [pending_of_ne h0]
      rfl
    · rw [OptState.endLoop, if_pos h0, OptState.endLoop, if_neg (not_not.mpr rfl)]

lemma modify_length_append {α : Type*} (f : α → α) (as bs : List α) (x : α) :
    (as ++ x :: bs).modify as.length f = as ++ f x :: bs := by
  induction as with
  | nil => rfl
  | cons a as ih => simp [ih]

/-- The end of a loop whose start is behind `as`. -/
lemma OptState.endLoop_closes {e : EndLoopDesc} {s : OptState} {as bs : List DtElemDesc}
    {l : LoopDesc} {stack : List (ℤ × ℤ)} (hstack : s.stack = (((as.length + 1 : ℕ) : ℤ), 0) :: stack)
    (hne : stack ≠ []) (hout : s.out ++ pendingEntries s.pending = as ++ .loop l :: bs) :
    ∃ s', s.endLoop e = some s' ∧ s'.pos = s.pos + 1 ∧ s'.stack = stack ∧ s'.totalDisp = 0 ∧
      s'.pending = none ∧
      s'.out = as ++ .loop { l with items := bs.length + 1 } ::
        (bs ++ [createLoopEnd (bs.length + 1) e.firstElemDisp e.size e.flags]) := by
  obtain ⟨s₁, hout₁, hstack₁, hpos₁, hlast₁, -, heq⟩ := s.endLoop_eq e
  rw [hout] at hout₁
  rw [hstack] at hstack₁
  have hitems : ((s₁.out.length : ℤ) - ((as.length + 1 : ℕ) : ℤ) + 1).toNat = bs.length + 1 := by
    rw [hout₁, List.length_append, List.length_cons]
    omega
  have hindex : (((as.length + 1 : ℕ) : ℤ) - 1).toNat = as.length := by omega
  rw [heq, OptState.endLoop, if_neg (not_not.mpr hlast₁), hstack₁]
  simp only [hitems, hindex, if_neg hne]
  refine ⟨_, rfl, by rw [hpos₁], rfl, rfl, pending_of_eq hlast₁, ?_⟩
  simp only [hout₁, List.append_assoc, List.cons_append]
  rw [modify_length_append]

/-- The gathered data is written in front of a loop that is not `CONTIGUOUS`. -/
lemma OptState.otherLoop_eq (l : LoopDesc) (s : OptState) :
    ∃ s₁ : OptState, s₁.out = s.out ++ pendingEntries s.pending ∧ s₁.stack = s.stack ∧
      s₁.pos = s.pos ∧ s₁.lastLength = 0 ∧ s₁.totalDisp = s.totalDisp ∧
      s.otherLoop desc l = s₁.otherLoop desc l := by
  by_cases h0 : s.lastLength = 0
  · exact ⟨s, by rw [pending_of_eq h0]; simp, rfl, rfl, h0, rfl, rfl⟩
  · refine ⟨{ s with out := s.out ++ [s.lastElem], lastDisp := s.lastDisp + s.lastLength,
                     lastLength := 0, lastType := .loop }, ?_, rfl, rfl, rfl, rfl, ?_⟩
    · rw [pending_of_ne h0]
      rfl
    · rw [OptState.otherLoop, if_pos h0, OptState.otherLoop, if_neg (not_not.mpr rfl)]

/-- The loops that `otherLoop` dissolves. -/
lemma Nest.otherLoop_cases (l : LoopInfo) {body : Nest} (hbody : body ≠ .done)
    (body' rest : Nest) :
    (body.flatten.length ≠ 1 ∧ Nest.otherLoop l body body' rest = .loop l.copied body' rest) ∨
      ∃ e, body = .elem e .done ∧
        ((e.count = 1 ∧ e.extent = basicSize e.type ∧ Nest.otherLoop l body body' rest =
            .elem (mkElem e.type { e.flags with contiguous := false } l.loops e.disp l.extent)
              rest) ∨
          (¬ (e.count = 1 ∧ e.extent = basicSize e.type) ∧ l.loops < 3 ∧
            Nest.otherLoop l body body' rest =
              .unrolled e.type e.flags e.count e.extent l.extent l.loops e.disp rest) ∨
          (¬ (e.count = 1 ∧ e.extent = basicSize e.type) ∧ ¬ l.loops < 3 ∧
            Nest.otherLoop l body body' rest = .loop l.copied body' rest)) := by
  cases body with
  | done => exact absurd rfl hbody
  | elem e r =>
      cases r with
      | done =>
          refine Or.inr ⟨e, rfl, ?_⟩
          simp only [Nest.otherLoop]
          split_ifs with h₁ h₂
          · exact Or.inl ⟨h₁.1, h₁.2, rfl⟩
          · exact Or.inr (Or.inl ⟨h₁, h₂, rfl⟩)
          · exact Or.inr (Or.inr ⟨h₁, h₂, rfl⟩)
      | elem e' r' => exact Or.inl ⟨by simp [flatten], rfl⟩
      | loop l' b' r' => exact Or.inl ⟨by simp [flatten], rfl⟩
  | loop l' b' r' => exact Or.inl ⟨by simp [flatten], rfl⟩

/-- The visit of a loop that is not `CONTIGUOUS`: it is dissolved or entered. -/
lemma OptState.At.otherLoop {l : LoopInfo} {b r : Nest} {tail : List DtElemDesc} {s : OptState}
    (h : s.At desc (.loop l b r) tail) (hb : b ≠ .done) (b' r' : Nest) :
    ∃ s₁, s.otherLoop desc (Nest.loopDesc l b.flatten.length) = some s₁ ∧ s₁.pending = none ∧
      ((s₁.pos = s.pos + (b.flatten.length + 2) ∧ s₁.stack = s.stack ∧
          s₁.out ++ r'.flatten
            = s.out ++ pendingEntries s.pending ++ (Nest.otherLoop l b b' r').flatten) ∨
        (s₁.pos = s.pos + 1 ∧ Nest.otherLoop l b b' r' = .loop l.copied b' r' ∧
          s₁.out = s.out ++ pendingEntries s.pending ++
            [.loop (Nest.loopDesc l.copied b.flatten.length)] ∧
          s₁.stack = ((((s.out ++ pendingEntries s.pending).length + 1 : ℕ) : ℤ), 0) :: s.stack)) := by
  obtain ⟨s₀, hout, hstack, hpos, hlast, htotal, heq⟩ :=
    s.otherLoop_eq (Nest.loopDesc l b.flatten.length)
  rw [h.total] at htotal
  have hitems : (Nest.loopDesc l b.flatten.length).items = b.flatten.length + 1 := rfl
  rw [heq, OptState.otherLoop, if_neg (not_not.mpr hlast), ← hout, ← hstack, ← hpos]
  -- the loop is entered
  have henter : ∀ s₁ : OptState, s₁ = { s₀ with
      pos := s₀.pos + 1
      out := s₀.out ++ [createLoopStart l.loops (b.flatten.length + 1) l.extent l.flags]
      stack := ((s₀.out ++ [createLoopStart l.loops (b.flatten.length + 1) l.extent
        l.flags]).length, s₀.totalDisp) :: s₀.stack } →
      Nest.otherLoop l b b' r' = .loop l.copied b' r' →
      s₁.pending = none ∧ s₁.pos = s₀.pos + 1 ∧ Nest.otherLoop l b b' r' = .loop l.copied b' r' ∧
        s₁.out = s₀.out ++ [.loop (Nest.loopDesc l.copied b.flatten.length)] ∧
        s₁.stack = (((s₀.out.length + 1 : ℕ) : ℤ), 0) :: s₀.stack := by
    rintro _ rfl hnest
    refine ⟨pending_of_eq hlast, rfl, hnest, rfl, ?_⟩
    simp only [htotal, List.length_append, List.length_singleton]
  rcases Nest.otherLoop_cases l hb b' r' with ⟨hlen, hnest⟩ | ⟨e, rfl, hcases⟩
  · rw [hitems, if_neg (by omega)]
    obtain ⟨h₁, h₂⟩ := henter _ rfl hnest
    exact ⟨_, rfl, h₁, Or.inr h₂⟩
  · have hget : desc[s₀.pos + 1]? = some (.elem e) := by
      rw [hpos, h.getElem?]
      rfl
    rw [hitems, if_pos (show (Nest.elem e .done).flatten.length + 1 = 2 from rfl), hget]
    rcases hcases with ⟨hcount, hext, hnest⟩ | ⟨hne, hlt, hnest⟩ | ⟨hne, hlt, hnest⟩
    · simp only [hcount, hext, true_and, if_true]
      refine ⟨_, rfl, pending_of_eq hlast, Or.inl ⟨rfl, rfl, ?_⟩⟩
      rw [hnest, List.append_assoc]
      rfl
    · simp only [if_neg hne]
      rw [if_pos (show (Nest.loopDesc l _).loops < 3 from hlt)]
      refine ⟨_, rfl, pending_of_eq hlast, Or.inl ⟨rfl, rfl, ?_⟩⟩
      rw [hnest, Nest.flatten_unrolled, List.append_assoc]
      rfl
    · simp only [if_neg hne]
      rw [if_neg (show ¬ (Nest.loopDesc l _).loops < 3 from hlt)]
      obtain ⟨h₁, h₂⟩ := henter _ rfl hnest
      exact ⟨_, rfl, h₁, Or.inr h₂⟩

/-- The visit of a `CONTIGUOUS` loop, which is not entered. -/
lemma OptState.At.contiguousLoop {l : LoopInfo} {b r : Nest} {tail : List DtElemDesc}
    {s : OptState} (h : s.At desc (.loop l b r) tail) (hwf : (Nest.loop l b r).Wf)
    (hends : Nest.LoopMatches l b) (hcont : l.flags.contiguous = true) (orest : Option ElemDesc → Nest) :
    ∃ s₁, optStep desc s = some s₁ ∧ s₁.pos = s.pos + (b.flatten.length + 2) ∧
      s₁.stack = s.stack ∧ s₁.totalDisp = 0 ∧
      s₁.out ++ (orest s₁.pending).flatten = s.out ++
        (if l.extent = l.size then
          Nest.behind (gatherLoop s.pending l b.firstDisp).1
            (orest (some (gatherLoop s.pending l b.firstDisp).2))
        else Nest.gappedLoop s.pending l b.firstDisp (orest none)).flatten := by
  have hloops := hwf.1
  obtain ⟨hb, hbwf, -⟩ := hwf.2
  have hsize : 0 < l.size := by
    have hlen := hbwf.length_pos hb 0
    rwa [hends hcont, length_run] at hlen
  have hloop : desc[s.pos]? = some (.loop (Nest.loopDesc l b.flatten.length)) := by
    have := h.getElem? 0
    simpa [Nest.flatten] using this
  have hend : desc[s.pos + (Nest.loopDesc l b.flatten.length).items]?
      = some (.endLoop (Nest.endLoopDesc l b.flatten.length)) := by
    rw [h.getElem?]
    simp [Nest.flatten, Nest.loopDesc]
  obtain ⟨first, hfirst, hdisp⟩ := hwf.getFirstNonLoop (by simp) tail
  rw [← h.entries, List.getElem?_drop] at hfirst
  replace hdisp : first.disp = b.firstDisp := hdisp
  have htotal := h.total_stack
  have hcont' : (Nest.loopDesc l b.flatten.length).flags.contiguous = true := hcont
  simp only [optStep, hloop, OptState.loop, hcont', if_true, hend, hfirst, hdisp,
    Option.bind_eq_bind, Option.bind_some, Option.pure_def]
  have hext : ((Nest.loopDesc l b.flatten.length).extent
      = (Nest.endLoopDesc l b.flatten.length).size) ↔ l.extent = l.size := Iff.rfl
  by_cases hd : l.extent = l.size
  · obtain ⟨hpend, hout, hstack, hpos⟩ := OptState.denseLoop_gathers (n := b.flatten.length)
      (Nat.mul_pos hloops hsize) b.firstDisp h.total
    rw [if_pos (hext.mpr hd), if_pos hd]
    refine ⟨_, rfl, rfl, hstack, by simp only [hstack, htotal], ?_⟩
    rw [Nest.flatten_behind, ← List.append_assoc, ← hout]
    congr 2
    exact congrArg orest hpend
  · obtain ⟨hpend, hout, hstack, hpos⟩ := OptState.gappedLoop_writes (n := b.flatten.length)
      hsize b.firstDisp h.total (orest none)
    rw [if_neg (fun h => hd (hext.mp h)), if_neg hd]
    refine ⟨_, rfl, rfl, hstack, by simp only [hstack, htotal], ?_⟩
    rw [← hout]
    congr 2
    exact congrArg orest hpend

/-- **The walk writes the optimized nest.** -/
lemma OptState.At.writes {code : Nest} (hwf : code.Wf) (hends : code.Matches)
    (hdata : code.ElemsData) {tail : List DtElemDesc} (htail : ∃ e es, tail = .endLoop e :: es)
    {s : OptState} (h : s.At desc code tail) : ∃ s', s.Writes desc code s' := by
  induction code generalizing tail s with
  | done =>
      refine ⟨s, ⟨0, le_rfl, fun _ => rfl⟩, rfl, rfl, h.total, ?_⟩
      rw [Nest.optimized, Nest.flatten_behind, Nest.flatten, List.append_nil]
  | elem e r ih =>
      obtain ⟨hpend, hout, hpos, hstack, htotal⟩ := OptState.elem_gathers hwf.1 hwf.2.1 h.total
      have hstep : optStep desc s = some (s.elem e) := by
        have hget : desc[s.pos]? = some (.elem e) := by simpa [Nest.flatten] using h.getElem? 0
        simp [optStep, hget, hdata.1]
      have hat : (s.elem e).At desc r tail := by
        refine ⟨?_, by rw [hstack]; exact h.stack, by rw [hstack]; exact h.disps, htotal⟩
        rw [hpos, ← List.drop_drop, h.entries]
        rfl
      obtain ⟨s', hs'⟩ := ih hwf.2.2 hends hdata.2 htail hat
      refine ⟨s', hs'.step hstep h.stack hstack hpos Nat.one_pos (Nat.add_comm _ _) ?_⟩
      rw [hout, hpend, Nest.optimized, Nest.flatten_behind, List.append_assoc]
  | loop l b r ihb ih =>
      have hlen : (Nest.loop l b r).flatten.length = b.flatten.length + 2 + r.flatten.length := by
        simp [Nest.flatten]
        omega
      have hdrop : desc.drop (s.pos + (b.flatten.length + 2)) = r.flatten ++ tail := by
        rw [← List.drop_drop, h.entries]
        simp [Nest.flatten]
      by_cases hcont : l.flags.contiguous = true
      · obtain ⟨s₁, hstep, hpos, hstack, htotal, hout⟩ :=
          h.contiguousLoop hwf hends.1 hcont fun last => r.optimized last
        have hat : s₁.At desc r tail :=
          ⟨by rw [hpos, hdrop], by rw [hstack]; exact h.stack, by rw [hstack]; exact h.disps, htotal⟩
        obtain ⟨s', hs'⟩ := ih hwf.2.2.2 hends.2.2 hdata.2 htail hat
        refine ⟨s', hs'.step hstep h.stack hstack hpos (by omega) hlen ?_⟩
        rw [hout, Nest.optimized, if_pos hcont]
      · obtain ⟨hloops, hb, hbwf, hrwf⟩ := hwf
        obtain ⟨s₁, hother, hpend₁, ⟨hpos₁, hstack₁, hout₁⟩ | ⟨hpos₁, hnest, hout₁, hstack₁⟩⟩ :=
          h.otherLoop hb (b.optimized none) (r.optimized none)
        all_goals
          have hstep : optStep desc s
              = some { s₁ with totalDisp := (s₁.stack.head?.map Prod.snd).getD 0 } := by
            have hget : desc[s.pos]? = some (.loop (Nest.loopDesc l b.flatten.length)) := by
              simpa [Nest.flatten] using h.getElem? 0
            have hcont' : (Nest.loopDesc l b.flatten.length).flags.contiguous ≠ true := hcont
            simp only [optStep, hget, OptState.loop, hcont', hother, Option.bind_eq_bind,
              Option.bind_some, Option.pure_def]
            rfl
        · -- the loop is dissolved
          have hat : ({ s₁ with totalDisp := (s₁.stack.head?.map Prod.snd).getD 0 } : OptState).At
              desc r tail := by
            refine ⟨by rw [← hdrop, ← hpos₁], ?_, ?_, ?_⟩
            · simp only [hstack₁, h.stack, ne_eq, not_false_eq_true]
            · simp only [hstack₁]
              exact h.disps
            · simp only [hstack₁, h.total_stack]
          obtain ⟨s', hs'⟩ := ih hrwf hends.2.2 hdata.2 htail hat
          refine ⟨s', hs'.step hstep h.stack hstack₁ hpos₁ (by omega) hlen ?_⟩
          rw [Nest.optimized, if_neg hcont, Nest.flatten_behind, ← List.append_assoc, ← hout₁]
          congr 2
          exact congrArg (fun last => r.optimized last) hpend₁
        · -- the loop is entered
          set s₂ : OptState := { s₁ with totalDisp := (s₁.stack.head?.map Prod.snd).getD 0 } with hs₂
          have hstack₂ : s₂.stack = s₁.stack := rfl
          have hat : s₂.At desc b
              (.endLoop (Nest.endLoopDesc l b.flatten.length) :: (r.flatten ++ tail)) := by
            refine ⟨?_, by rw [hstack₂, hstack₁]; simp, ?_, by rw [hs₂]; simp only [hstack₁]; rfl⟩
            · rw [show s₂.pos = s.pos + 1 from hpos₁, ← List.drop_drop, h.entries]
              simp [Nest.flatten]
            · rw [hstack₂, hstack₁]
              rintro p (_ | ⟨_, hp⟩)
              · rfl
              · exact h.disps p hp
          obtain ⟨s₃, ⟨n₃, hn₃, hvisits₃⟩, hpos₃, hstack₃, -, hout₃⟩ :=
            ihb hbwf hends.2.1 hdata.1 ⟨_, _, rfl⟩ hat
          have hget₃ : desc[s₃.pos]? = some (.endLoop (Nest.endLoopDesc l b.flatten.length)) := by
            rw [hpos₃, hat.getElem?]
            simp
          have hout₂ : s₃.out ++ pendingEntries s₃.pending
              = (s.out ++ pendingEntries s.pending) ++
                .loop (Nest.loopDesc l.copied b.flatten.length) :: (b.optimized none).flatten := by
            rw [hout₃, show s₂.pending = none from hpend₁, show s₂.out = s₁.out from rfl, hout₁]
            simp
          obtain ⟨s₄, hclose, hpos₄, hstack₄, htotal₄, hpend₄, hout₄⟩ :=
            OptState.endLoop_closes (e := Nest.endLoopDesc l b.flatten.length)
              (by rw [hstack₃, hstack₂, hstack₁]) h.stack hout₂
          have hpos₄' : s₄.pos = s.pos + (b.flatten.length + 2) := by
            rw [hpos₄, hpos₃, show s₂.pos = s.pos + 1 from hpos₁]
            omega
          have hat₄ : s₄.At desc r tail :=
            ⟨by rw [hpos₄', hdrop], by rw [hstack₄]; exact h.stack, by rw [hstack₄]; exact h.disps,
              htotal₄⟩
          obtain ⟨s', ⟨n', hn', hvisits'⟩, hpos', hstack', htotal', hout'⟩ :=
            ih hrwf hends.2.2 hdata.2 htail hat₄
          have hne₂ : s₂.stack ≠ [] := by
            rw [hstack₂, hstack₁]
            simp
          have hstep₃ : optStep desc s₃ = some s₄ := by rw [optStep, hget₃]; exact hclose
          refine ⟨s', ⟨n' + 1 + n₃ + 1, by omega, fun fuel => ?_⟩, by omega,
            hstack'.trans hstack₄, htotal', ?_⟩
          · rw [← Nat.add_assoc, ← Nat.add_assoc, optLoop_step hstep hne₂, hvisits₃,
              ← Nat.add_assoc, optLoop_step hstep₃ (by rw [hstack₄]; exact h.stack), hvisits']
          · rw [hout', hpend₄, hout₄, Nest.optimized, if_neg hcont, Nest.flatten_behind, hnest]
            simp [Nest.flatten, Nest.loopDesc, Nest.endLoopDesc, createLoopEnd, LoopInfo.copied]

/-- **The code computes the optimized nest.** -/
theorem optimizeShort_eq {D : Nest} (hwf : D.Wf) (hends : D.Matches) (hdata : D.ElemsData)
    (fake : EndLoopDesc) (pData : Datatype)
    (hdesc : pData.desc.desc = D.flatten ++ [.endLoop fake]) :
    ∃ e, optimizeShort pData = some
      { length := 2 * pData.desc.used + 1
        used := (D.optimized none).flatten.length
        desc := (D.optimized none).flatten ++ [.endLoop e] } := by
  have hat : OptState.start.At pData.desc.desc D [.endLoop fake] :=
    ⟨hdesc, by simp [OptState.start], by simp [OptState.start], rfl⟩
  obtain ⟨s', ⟨n, hn, hvisits⟩, hpos, hstack, -, hout⟩ := hat.writes hwf hends hdata ⟨_, _, rfl⟩
  have hget : pData.desc.desc[s'.pos]? = some (.endLoop fake) := by
    rw [hpos, hat.getElem?]
    simp
  obtain ⟨s₁, hout₁, hstack₁, -, hlast₁, -, heq⟩ := s'.endLoop_eq fake
  have hstart : OptState.start.out = [] := rfl
  rw [hout, hstart, List.nil_append, OptState.pending_of_eq rfl] at hout₁
  rw [hstack] at hstack₁
  have hfuel : pData.desc.desc.length = (D.flatten.length - n) + 1 + n := by
    rw [hdesc, List.length_append, List.length_singleton]
    omega
  have hclose : ∃ s₂ e, optStep pData.desc.desc s' = some s₂ ∧ s₂.stack = [] ∧
      s₂.lastLength = 0 ∧ s₂.out = (D.optimized none).flatten ++ [.endLoop e] := by
    have hstep : optStep pData.desc.desc s' = s₁.endLoop fake := by rw [optStep, hget, ← heq]
    rw [hstep, OptState.endLoop, if_neg (not_not.mpr hlast₁), hstack₁]
    exact ⟨_, _, rfl, rfl, hlast₁, by simp only [hout₁]; rfl⟩
  obtain ⟨s₂, e, hstep, hnil, hlast, hout₂⟩ := hclose
  refine ⟨e, ?_⟩
  rw [optimizeShort, hfuel, hvisits, optLoop, hstep]
  simp [hnil, hlast, hout₂]

end Refine

end Ocoms
