import Ocoms.Datatype.Merging
import Ocoms.Datatype.Pack

/-!
Positioning: `ocoms_datatype_position.c` and the position functions of `ocoms_convertor.h` and
`ocoms_convertor.c`.

* `positionWalker` passes over elements and passes of `CONTIGUOUS` loops, as many as fit into the
  distance that is left; `Convertor.skipCopies` moves the stack on by whole copies first.
* `setPosition` is `ocoms_convertor_set_position`: it rewinds, and then moves on by
  `genericSimplePosition`, or by `createStackWithPosContig` for `CONTIGUOUS` datatypes.
* `Zip.skip` is the abstract move by whole copies; `Stands.skip` says that the stack follows it,
  and that it leaves out just these copies.
* `SendRun` are the runs of pack and set position calls; `SendRun.genericInv` is their invariant,
  and `set_position_then_pack` the theorem: what is packed behind a position is the rest of the
  packed stream.
-/

namespace Ocoms

open Layout Greedy

/-! ### The functions -/

/-- `position_predefined_data`. -/
def positionPredefinedData (e : ElemDesc) (count : ℕ) (pointer : ℤ) (space : ℕ) : ℕ × ℤ × ℕ :=
  let blength := basicSize e.type
  let copyCount := if space < count * blength then space / blength else count
  if space < count * blength ∧ copyCount = 0 then (count, pointer, space)
  else (count - copyCount, pointer + copyCount * e.extent, space - copyCount * blength)

/-- `position_contiguous_loop`. -/
def positionContiguousLoop (l : LoopDesc) (e : EndLoopDesc) (count : ℕ) (pointer : ℤ) (space : ℕ) :
    ℕ × ℤ × ℕ :=
  let copyLoops := if space < count * e.size then space / e.size else count
  (count - copyLoops, pointer + copyLoops * l.extent, space - copyLoops * e.size)

/-- The walker of the position function; its state is the distance that is left. -/
def positionWalker : Walker ℕ where
  data := positionPredefinedData
  contig := positionContiguousLoop

/-- All entries of the stack but the one on top are moved by `count` copies, which the bottom entry
counts down. -/
def skipStack (count : ℕ) (extent : ℤ) : List DtStack → List DtStack
  | [] => []
  | [s] => [{ s with count := s.count - count, disp := s.disp + count * extent }]
  | s :: below => { s with disp := s.disp + count * extent } :: skipStack count extent below

/-- The start of `ocoms_convertor_generic_simple_position`: whole copies are skipped at once. -/
def Convertor.skipCopies (conv : Convertor) (position : ℕ) : Convertor :=
  if conv.pDesc.size < position - conv.bConverted then
    let countDesc := (position - conv.bConverted) / conv.pDesc.size
    { conv with
      bConverted := conv.bConverted + countDesc * conv.pDesc.size
      stack :=
        match conv.stack with
        | [] => []
        | [s] => [{ s with count := s.count - countDesc }]
        | saved :: stack => saved :: skipStack countDesc conv.pDesc.extent stack }
  else conv

/-- `ocoms_convertor_generic_simple_position`. -/
def genericSimplePosition (fuel : ℕ) (conv : Convertor) (position : ℕ) :
    Option (Convertor × ℤ) := do
  let conv := conv.skipCopies position
  let c ← conv.load
  match walk positionWalker conv.useDesc.desc conv.pDesc.extent fuel c
      (position - conv.bConverted) with
  | some (.suspend c' space) =>
      let conv := { conv with partialLength := space, bConverted := position }
      if conv.flags.completed then some ({ conv with stack := c'.stack }, 1)
      else some ({ conv with stack := c'.save }, 0)
  | some (.complete c' _) =>
      some ({ conv with
        partialLength := 0
        bConverted := position
        flags := { conv.flags with completed := true }
        stack := c'.stack }, 1)
  | _ => none

/-- `ocoms_convertor_create_stack_with_pos_contig`. -/
def Convertor.createStackWithPosContig (conv : Convertor) (startingPoint : ℕ) : Convertor :=
  let pData := conv.pDesc
  let copies := startingPoint / pData.size
  let pending := (startingPoint - copies * pData.size) % 2 ^ 32
  let first := conv.useDesc.desc.head?
  { conv with
    bConverted := startingPoint
    stack :=
      [if pending = 0 then
          { index := 0, count := (first.map DtElemDesc.count).getD 0
            disp := (first.map DtElemDesc.disp).getD 0 }
        else { index := 0, count := pData.size - pending, disp := pData.trueLb + pending },
        { index := -1, count := conv.count - copies, disp := copies * pData.extent }] }

/-- `ocoms_convertor_set_position_nocheck`: the convertor, the position and the return value. -/
def setPositionNocheck (fuel : ℕ) (conv : Convertor) (position : ℕ) :
    Option (Convertor × ℕ × ℤ) :=
  let conv := if position = 0 ∨ position < conv.bConverted then conv.createStackAtBegining else conv
  if position = 0 then some (conv, position, 0)
  else if conv.flags.datatype.contiguous then
    let conv := conv.createStackWithPosContig position
    some (conv, conv.bConverted, 0)
  else do
    let (conv, rc) ← genericSimplePosition fuel conv position
    -- a send convertor stays in front of the element it has a part of
    let conv := if conv.flags.send then
        { conv with bConverted := conv.bConverted - conv.partialLength, partialLength := 0 }
      else conv
    return (conv, conv.bConverted, rc)

/-- `ocoms_convertor_set_position`. -/
def setPosition (fuel : ℕ) (conv : Convertor) (position : ℕ) : Option (Convertor × ℕ × ℤ) :=
  if conv.localSize ≤ position then
    some ({ conv with
      flags := { conv.flags with completed := true }
      bConverted := conv.localSize }, conv.localSize, 0)
  else if position = conv.bConverted then some (conv, position, 0)
  else
    let conv := { conv with flags := { conv.flags with completed := false } }
    if conv.flags.withChecksum = false ∧ conv.flags.datatype.noGaps = true ∧
        (conv.flags.send ∨ conv.flags.homogeneous) then
      some ({ conv with bConverted := position }, position, 0)
    else setPositionNocheck fuel conv position

/-! ### The walker passes over what fits -/

section Sound

/-- The walker has passed over the bytes at the addresses `as`. -/
def PositionEats (space : ℕ) (as : List ℤ) (space' : ℕ) : Prop := space = as.length + space'

/-- **The position walker is sound**: it passes over elements and passes in order, and stops where
the next element does not fit. -/
lemma positionWalker_fills : positionWalker.Fills PositionEats id where
  sound :=
    { refl := fun s => by simp [PositionEats]
      trans := fun h h' => by
        rw [PositionEats, h, h', List.length_append, Nat.add_assoc]
      data := fun e count base s _ hsize => by
        obtain ⟨hle, hfits, hstop⟩ := fitCount_spec hsize
        set m := if s < count * basicSize e.type then s / basicSize e.type else count with hm
        refine ⟨m, s - m * basicSize e.type, hle, ?_, ?_, fun hlt => ?_⟩
        · simp only [positionWalker, positionPredefinedData, ← hm]
          split
          · next h => simp [h.2]
          · rfl
        · rw [PositionEats, length_blocksBytes_elemBlocks]
          omega
        · have := hstop hlt
          rw [Nat.add_one_mul] at this
          simp only [id_eq]
          omega
      contig := fun l e count base s _ hsize => by
        obtain ⟨hle, hfits, -⟩ := fitCount_spec hsize
        refine ⟨_, _, hle, rfl, ?_⟩
        rw [PositionEats, length_stride _ _ _ _ fun _ => length_run _ _]
        omega }
  space_eq := fun h => h

end Sound

/-! ### Whole copies are skipped -/

/-- The same loop `x` bytes further on. -/
def Frame.shift (x : ℤ) (f : Frame) : Frame := { f with disp := f.disp + x }

/-- The same place `n` copies further on. -/
def Zip.skip (n : ℕ) (extent : ℤ) (z : Zip) : Zip :=
  { z with
    frames := z.frames.map (Frame.shift (n * extent))
    outerCount := z.outerCount - n
    outerDisp := z.outerDisp + n * extent }

section Skip

variable {D : Nest} {fake : EndLoopDesc} {extent : ℤ} {n oc : ℕ} {od x : ℤ} {fs : List Frame}
  {st : List DtStack}

lemma framesDisp_shift (od x : ℤ) (fs : List Frame) :
    framesDisp (od + x) (fs.map (Frame.shift x)) = framesDisp od fs + x := by
  cases fs <;> rfl

lemma framesTail_shift (fake : EndLoopDesc) (x : ℤ) (fs : List Frame) :
    framesTail fake (fs.map (Frame.shift x)) = framesTail fake fs := by
  induction fs with
  | nil => rfl
  | cons f fs ih => rw [List.map_cons, framesTail, framesTail, ih]; rfl

lemma framesBlocks_shift (D : Nest) (od x : ℤ) (fs : List Frame) :
    framesBlocks D 0 1 (od + x) (fs.map (Frame.shift x))
      = (framesBlocks D 0 1 od fs).map (Block.shift x) := by
  induction fs with
  | nil => rfl
  | cons f fs ih =>
      have hdisp : f.disp + x + f.loop.extent = f.disp + f.loop.extent + x := by ring
      simp only [List.map_cons, framesBlocks, Frame.shift, List.map_append, ← ih, framesDisp_shift,
        ← Nest.blocks_shift]
      rw [hdisp, stride_shift _ _ _ _ fun y => f.body.blocks_shift y x]

lemma headBlocks_shift (count : ℕ) (base level x : ℤ) (t : Nest) :
    headBlocks count (base + x) (level + x) t = (headBlocks count base level t).map (Block.shift x) := by
  cases t with
  | done => rfl
  | elem e r => rw [headBlocks, headBlocks, List.map_append, elemBlocks_shift, Nest.blocks_shift]
  | loop l b r =>
      rw [headBlocks, headBlocks, List.map_append, Nest.blocks_shift,
        stride_shift _ _ _ _ fun y => b.blocks_shift y x]

lemma Zip.current_skip (D : Nest) (n : ℕ) (extent : ℤ) (z : Zip) (count : ℕ) (base : ℤ) :
    (z.skip n extent).current D count (base + n * extent)
      = (z.current D count base).map (Block.shift (n * extent)) := by
  simp only [Zip.current, Zip.skip, Zip.level, framesDisp_shift, framesBlocks_shift,
    headBlocks_shift, List.map_append]

lemma skipStack_cons (n : ℕ) (extent : ℤ) (s : DtStack) (h : st ≠ []) :
    skipStack n extent (s :: st) = { s with disp := s.disp + n * extent } :: skipStack n extent st := by
  cases st with
  | nil => exact absurd rfl h
  | cons t st => rfl

lemma FramesRep.ne_nil (h : FramesRep D fake oc od fs st) : st ≠ [] := by
  rintro rfl
  exact absurd h.length_eq (by simp)

lemma FramesRep.outerCount_pos (h : FramesRep D fake oc od fs st) : 0 < oc := by
  induction fs generalizing st with
  | nil => exact h.2
  | cons f fs ih =>
      obtain ⟨i, below, -, -, -, hbelow⟩ := h
      exact ih hbelow

lemma FramesRep.skip (h : FramesRep D fake oc od fs st) (hn : n < oc) :
    FramesRep D fake (oc - n) (od + n * extent) (fs.map (Frame.shift (n * extent)))
      (skipStack n extent st) := by
  induction fs generalizing st with
  | nil =>
      obtain ⟨rfl, -⟩ := h
      exact ⟨rfl, by omega⟩
  | cons f fs ih =>
      obtain ⟨i, below, rfl, hcount, hdrop, hbelow⟩ := h
      refine ⟨i, skipStack n extent below, ?_, hcount, ?_, ih hbelow⟩
      · rw [skipStack_cons _ _ _ hbelow.ne_nil]
        rfl
      · rw [hdrop]
        exact congrArg _ (framesTail_shift fake _ fs).symm

lemma stackDisp_skipStack (n : ℕ) (extent : ℤ) (h : st ≠ []) :
    stackDisp (skipStack n extent st) = stackDisp st + n * extent := by
  cases st with
  | nil => exact absurd rfl h
  | cons s st => cases st <;> rfl

lemma framesTicks_skip (D : Nest) (n oc : ℕ) (x : ℤ) (fs : List Frame) :
    framesTicks D (oc - n) (fs.map (Frame.shift x)) ≤ framesTicks D oc fs := by
  induction fs with
  | nil =>
      have hle : (oc - n - 1) * (D.ticks + 1) ≤ (oc - 1) * (D.ticks + 1) :=
        Nat.mul_le_mul_right _ (by omega)
      simp only [List.map_nil, framesTicks]
      omega
  | cons f fs ih =>
      simp only [List.map_cons, framesTicks, Frame.shift]
      omega

lemma weight_map_shift (x : ℤ) (bs : List Block) :
    weight Block.len (bs.map (Block.shift x)) = weight Block.len bs := by
  rw [weight, List.map_map]
  rfl

lemma weight_blocks (D : Nest) (d : ℤ) : weight Block.len (D.blocks d) = (D.bytes 0).length := by
  rw [← length_blocksBytes, ← D.length_bytes d]
  rfl

/-- The cursor `n` copies further on. -/
def Cursor.skip (n : ℕ) (extent : ℤ) (c : Cursor) : Cursor :=
  { c with stack := skipStack n extent c.stack, base := c.base + n * extent }

/-- **Skipping whole copies** leaves out that many, from anywhere within a copy. -/
lemma Stands.skip {z : Zip} {c : Cursor} (h : Stands D fake z c) (hpos : 0 < n)
    (hn : n < z.outerCount) :
    Stands D fake (z.skip n extent) (c.skip n extent) ∧
      (z.skip n extent).ticks D c.count ≤ z.ticks D c.count ∧
      ∃ bs, z.remaining D extent c.count c.base
          = bs ++ (z.skip n extent).remaining D extent c.count (c.skip n extent).base ∧
        weight Block.len bs = n * (D.bytes 0).length := by
  obtain ⟨⟨hstack, hcode, hcount, hbase⟩, hwf, hends, hcur⟩ := h
  have hframes : ∀ {P : Nest → Prop}, z.All P D → (z.skip n extent).All P D := fun hP =>
    ⟨hP.top, fun f hf => by
      obtain ⟨g, hg, rfl⟩ := List.mem_map.mp hf
      exact hP.frames g hg, hP.code⟩
  refine ⟨⟨⟨hstack.skip hn, ?_, hcount, fun l b r hc => ?_⟩, hframes hwf, hframes hends, ?_⟩,
    Nat.add_le_add_left (framesTicks_skip D n _ _ _) _, ?_⟩
  · exact hcode.trans (congrArg _ (framesTail_shift fake _ _).symm)
  · exact (congrArg (· + _) (hbase l b r hc)).trans (framesDisp_shift _ _ _).symm
  · obtain ⟨Y, hY⟩ := hcur
    refine ⟨Y.map (Block.shift (n * extent)), ?_⟩
    rw [Cursor.skip, Zip.current_skip, ← List.map_append, hY, ← Nest.blocks_shift]
    rfl
  · obtain ⟨Y, hY⟩ := hcur
    obtain ⟨m, rfl⟩ := Nat.exists_eq_succ_of_ne_zero hpos.ne'
    obtain ⟨k, hk⟩ : ∃ k, z.outerCount - 1 = m + (k + 1) := ⟨z.outerCount - 1 - (m + 1), by omega⟩
    have hcopy : D.blocks (z.outerDisp + (m + 1 : ℕ) * extent)
        = Y.map (Block.shift ((m + 1 : ℕ) * extent))
          ++ (z.current D c.count c.base).map (Block.shift ((m + 1 : ℕ) * extent)) := by
      rw [Nest.blocks_shift, ← hY, List.map_append]
    have hdisp : z.outerDisp + extent + m * extent = z.outerDisp + (m + 1 : ℕ) * extent := by
      push_cast
      ring
    refine ⟨z.current D c.count c.base ++ (stride m extent D.blocks (z.outerDisp + extent)
      ++ Y.map (Block.shift ((m + 1 : ℕ) * extent))), ?_, ?_⟩
    · have hleft : (z.skip (m + 1) extent).outerCount - 1 = k := by
        simp only [Zip.skip]
        omega
      rw [Zip.remaining_eq, Zip.remaining_eq, hk, hleft, stride_add, stride_succ, hdisp, hcopy,
        Cursor.skip, Zip.current_skip]
      simp [Zip.skip]
    · have hsize := weight_blocks D z.outerDisp
      rw [← hY, weight_append] at hsize
      rw [weight_append, weight_append, weight_map_shift, weight_stride_blocks, Nat.add_one_mul]
      omega

end Skip

/-! ### Moving forward -/

section Forward

variable {fuel bound position : ℕ} {D : Nest} {fake : EndLoopDesc} {conv : Convertor}
  {done rem : List Block}

/-- **The start of the position function** skips elements, and not as far as the position. -/
lemma Convertor.GenericInv.skipCopies (h : conv.GenericInv D fake bound done rem)
    (hsize : conv.pDesc.size = (D.bytes 0).length) (hspos : 0 < conv.pDesc.size)
    (hle : weight Block.len done ≤ position) (hlt : position < conv.localSize) :
    ∃ done' rem', done' ++ rem' = done ++ rem ∧ weight Block.len done' ≤ position ∧
      (conv.skipCopies position).GenericInv D fake bound done' rem' ∧
      conv.Moved (conv.skipCopies position) := by
  rw [Convertor.skipCopies]
  by_cases hskip : conv.pDesc.size < position - conv.bConverted
  · rw [if_pos hskip]
    have hlocal := h.localSize
    rw [weight_append] at hlocal
    have hne : rem ≠ [] := by
      rintro rfl
      rw [weight_nil] at hlocal
      omega
    obtain ⟨z, c, hstack, hst, hticks, hrem⟩ := h.pending hne
    set n := (position - conv.bConverted) / conv.pDesc.size with hn
    have hpos : 0 < n := Nat.div_pos hskip.le hspos
    have hmul : n * conv.pDesc.size ≤ position - conv.bConverted := Nat.div_mul_le_self _ _
    have hcopies : n < z.outerCount := by
      obtain ⟨Y, hY⟩ := hst.current
      have hcopy := weight_blocks D z.outerDisp
      rw [← hY, weight_append, ← hsize] at hcopy
      have hall := congrArg (weight Block.len) hrem
      rw [Zip.remaining_eq, weight_append, weight_stride_blocks, ← hsize] at hall
      have houter := hst.stack.outerCount_pos
      refine (Nat.div_lt_iff_lt_mul hspos).mpr ?_
      obtain ⟨m, hm⟩ := Nat.exists_eq_succ_of_ne_zero houter.ne'
      rw [hm, Nat.add_one_sub_one] at hall
      rw [hm, Nat.succ_mul, h.bConverted]
      omega
    obtain ⟨hst', hticks', bs, hsplit, hbs⟩ :=
      hst.skip hpos hcopies
    rw [hrem] at hsplit
    have hweight : conv.bConverted + n * conv.pDesc.size = weight Block.len (done ++ bs) := by
      rw [weight_append, hbs, ← hsize, h.bConverted]
    have hstack' : (match conv.stack with
        | [] => []
        | [s] => [{ s with count := s.count - n }]
        | saved :: stack => saved :: skipStack n conv.pDesc.extent stack)
        = (c.skip n conv.pDesc.extent).save := by
      have hne' := hst.stack.ne_nil
      rw [hstack, Cursor.save, Cursor.save, Cursor.skip, stackDisp_skipStack _ _ hne']
      obtain ⟨s, st, hs⟩ := List.exists_cons_of_ne_nil hne'
      rw [hs]
      simp
    refine ⟨done ++ bs, (z.skip n conv.pDesc.extent).remaining D conv.pDesc.extent c.count
      (c.skip n conv.pDesc.extent).base, ?_, ?_, ⟨h.desc, ?_, h.noOp, hweight, ?_, fun _ => ?_⟩,
      _, _, _, _, _, rfl⟩
    · rw [List.append_assoc, ← hsplit]
    · rw [← hweight]
      omega
    · rw [List.append_assoc, ← hsplit]
      exact h.localSize
    · refine h.completed.trans (iff_of_false hne fun hnil => ?_)
      have hall := h.localSize
      rw [hsplit, hnil, List.append_nil, ← hweight] at hall
      omega
    · exact ⟨_, _, hstack', hst', hticks'.trans hticks, rfl⟩
  · rw [if_neg hskip]
    exact ⟨done, rem, rfl, hle, h, .refl conv⟩

/-- **The position function** moves on over the elements that fit into the distance, and keeps the
part of an element that is left. -/
lemma Convertor.GenericInv.genericSimplePosition (h : conv.GenericInv D fake bound done rem)
    (hsize : conv.pDesc.size = (D.bytes 0).length) (hspos : 0 < conv.pDesc.size)
    (hfuel : bound < fuel) (hle : weight Block.len done ≤ position)
    (hlt : position < conv.localSize) :
    ∃ conv' done' b rem', genericSimplePosition fuel conv position = some (conv', 0) ∧
      done' ++ b :: rem' = done ++ rem ∧ conv'.bConverted = position ∧
      conv'.partialLength + weight Block.len done' = position ∧ conv'.partialLength < b.len ∧
      ({ conv' with bConverted := conv'.bConverted - conv'.partialLength,
                    partialLength := 0 } : Convertor).GenericInv D fake bound done' (b :: rem') ∧
      (∃ z c e code, conv'.stack = c.save ∧ Stands D fake z c ∧ z.ticks D c.count ≤ bound ∧
        z.remaining D conv'.pDesc.extent c.count c.base = b :: rem' ∧ z.code = .elem e code) ∧
      conv.Moved conv' := by
  obtain ⟨done₁, rem₁, hsplit₁, hle₁, h₁, hmoved⟩ := h.skipCopies hsize hspos hle hlt
  set conv₁ := conv.skipCopies position with hconv₁
  have hlocal : conv₁.localSize = conv.localSize := by
    obtain ⟨_, _, _, _, _, heq⟩ := hmoved
    rw [heq]
  have htotal := h₁.localSize
  rw [weight_append] at htotal
  have hne : rem₁ ≠ [] := by
    rintro rfl
    rw [weight_nil] at htotal
    omega
  have hcomp : conv₁.flags.completed = false := by simpa [hne] using h₁.completed
  obtain ⟨z, c, hstack, hst, hticks, hrem⟩ := h₁.pending hne
  have hload : conv₁.load = some c := Convertor.load_save hstack
  set space := position - conv₁.bConverted with hspace
  have hfit := weight_fit_le Block.len space rem₁
  have hall := fit_append_rest Block.len space rem₁
  obtain ⟨c', space', he, ⟨hrest, -⟩ | ⟨hrest, hw, z', e, code, hst', hcode, hticks',
    hrem'⟩⟩ :=
    walk_fit positionWalker_fills hst (hticks.trans_lt hfuel) hrem space
  · -- the position is before the end
    simp only [id_eq] at hrest
    rw [hrest, List.append_nil] at hall
    rw [hall] at hfit
    rw [h₁.bConverted] at hspace
    omega
  · simp only [id_eq] at hrest he hrem'
    obtain ⟨b, rem', hb⟩ := List.exists_cons_of_ne_nil hrest
    have hstop := lt_of_rest_eq_cons Block.len hb
    have hleft : space = weight Block.len (fit Block.len space rem₁) + space' := by
      rw [← length_blocksBytes]
      exact he
    rw [hb] at hall hrem'
    have hbconv := h₁.bConverted
    refine ⟨{ conv₁ with partialLength := space', bConverted := position, stack := c'.save },
      done₁ ++ fit Block.len space rem₁, b, rem', ?_, ?_, rfl, ?_, ?_, ?_,
      ⟨z', c', e, code, rfl, hst', hticks'.trans hticks, hrem', hcode⟩, ?_⟩
    · rw [Ocoms.genericSimplePosition, ← hconv₁]
      simp only [hload, h₁.desc, ← hspace, hw, Option.bind_eq_bind, Option.bind_some, hcomp,
        Bool.false_eq_true, if_false]
    · rw [List.append_assoc, hall, hsplit₁]
    · rw [weight_append]
      simp only
      omega
    · simp only
      omega
    · refine ⟨h₁.desc, ?_, h₁.noOp, ?_, by simp [hcomp], fun _ => ⟨z', c', rfl, hst', ?_, hrem'⟩⟩
      · rw [List.append_assoc, hall]
        exact h₁.localSize
      · rw [weight_append]
        simp only
        omega
      · exact hticks'.trans hticks
    · exact hmoved.trans ⟨_, _, _, _, _, rfl⟩

end Forward

/-! ### Runs of a send convertor -/

/-- What a prepared send convertor for `count` copies of a datatype that is not `CONTIGUOUS`
keeps. -/
structure Convertor.Sends (D : Nest) (fake : EndLoopDesc) (count : ℕ) (conv : Convertor) :
    Prop where
  desc : conv.useDesc.desc = D.desc fake
  size : conv.pDesc.size = (D.bytes 0).length
  notEmpty : 0 < conv.pDesc.size
  localSize : conv.localSize = count * (D.bytes 0).length
  count_eq : conv.count = count
  count_pos : 0 < count
  noOp : conv.flags.noOp = false
  send : conv.flags.send = true
  contiguous : conv.flags.datatype.contiguous = false
  noGaps : conv.flags.datatype.noGaps = false
  fAdvance : conv.fAdvance = .genericSimplePack

/-- The runs of a send convertor: `ocoms_convertor_pack` and `ocoms_convertor_set_position` calls in
any order. -/
inductive SendRun (chk : Build) (mem : ℤ → Byte) (fuel : ℕ) (conv₀ : Convertor) : Convertor → Prop
  | start : SendRun chk mem fuel conv₀ conv₀
  | pack {conv : Convertor} {iov : List Iovec} {maxData : ℕ} {r : PackResult} :
      SendRun chk mem fuel conv₀ conv → convertorPack chk mem fuel conv iov maxData = some r →
      SendRun chk mem fuel conv₀ r.conv
  | setPosition {conv conv' : Convertor} {position position' : ℕ} {rc : ℤ} :
      SendRun chk mem fuel conv₀ conv →
      setPosition fuel conv position = some (conv', position', rc) →
      SendRun chk mem fuel conv₀ conv'

section Run

variable {chk : Build} {mem : ℤ → Byte} {fuel count position : ℕ} {D : Nest} {fake : EndLoopDesc}
  {conv conv' : Convertor} {done rem : List Block}

lemma Convertor.Moved.sends (h : conv.Moved conv') (hs : conv.Sends D fake count) :
    conv'.Sends D fake count := by
  obtain ⟨_, _, _, _, _, rfl⟩ := h
  obtain ⟨h₁, h₂, h₃, h₄, h₅, h₆, h₇, h₈, h₉, h₁₀, h₁₁⟩ := hs
  exact ⟨h₁, h₂, h₃, h₄, h₅, h₆, h₇, h₈, h₉, h₁₀, h₁₁⟩

/-- A convertor that is rewound. -/
lemma Convertor.Sends.rewind (h : conv.Sends D fake count)
    (hcomp : conv.flags.completed = false) (hD : D.Valid) :
    conv.createStackAtBegining.GenericInv D fake (count * (D.ticks + 1)) []
      (stride count conv.pDesc.extent D.blocks 0) := by
  have hlen : 0 < (D.bytes 0).length := h.size ▸ h.notEmpty
  have hne : D ≠ .done := by
    rintro rfl
    exact hlen.ne' rfl
  have hprep : conv.createStackAtBegining.Prepared D fake count :=
    { desc := h.desc
      localSize := h.localSize
      noOp := h.noOp
      completed := hcomp
      bConverted := rfl
      notEmpty := by
        have hpos := Nat.mul_pos h.count_pos hlen
        rw [← h.localSize] at hpos
        exact hpos.ne'
      stack := by simp only [Convertor.createStackAtBegining, h.desc, D.head?_desc hne fake,
        h.count_eq] }
  exact hprep.genericInv hD

/-- The elements that are through and those that are left make up the stream. -/
structure Convertor.SendInv (D : Nest) (fake : EndLoopDesc) (count : ℕ) (conv : Convertor)
    (done rem : List Block) : Prop where
  sends : conv.Sends D fake count
  generic : conv.GenericInv D fake (count * (D.ticks + 1)) done rem
  stream : done ++ rem = stride count conv.pDesc.extent D.blocks 0

/-- A position behind the end. -/
lemma Convertor.SendInv.setPosition_of_le (h : conv.SendInv D fake count done rem)
    (hle : conv.localSize ≤ position) :
    ∃ conv', setPosition fuel conv position = some (conv', conv.localSize, 0) ∧
      conv'.SendInv D fake count (done ++ rem) [] ∧ conv.Moved conv' := by
  have hmoved : conv.Moved { conv with
      flags := { conv.flags with completed := true }, bConverted := conv.localSize } :=
    ⟨_, _, _, _, _, rfl⟩
  refine ⟨_, by rw [Ocoms.setPosition, if_pos hle], ⟨hmoved.sends h.sends, ?_, ?_⟩, hmoved⟩
  · have hlocal := h.generic.localSize
    exact ⟨h.generic.desc, by rw [List.append_nil]; exact hlocal, h.generic.noOp, hlocal,
      by simp, fun hn => absurd rfl hn⟩
  · rw [List.append_nil]
    exact h.stream

/-- **One set position call** moves to the element that the position is in. -/
lemma Convertor.SendInv.setPosition (hD : D.Valid) (h : conv.SendInv D fake count done rem)
    (hfuel : count * (D.ticks + 1) < fuel) (hlt : position < conv.localSize) :
    ∃ conv' done' b rem', Ocoms.setPosition fuel conv position
        = some (conv', weight Block.len done', 0) ∧
      conv'.SendInv D fake count done' (b :: rem') ∧ weight Block.len done' ≤ position ∧
      position - weight Block.len done' < b.len ∧ conv.Moved conv' := by
  obtain ⟨hsends, hgen, hstream⟩ := h
  have hlen : ∀ b ∈ done ++ rem, 0 < b.len := hstream ▸ fun _ => hD.stride_len_pos
  rw [Ocoms.setPosition, if_neg (not_le.mpr hlt)]
  have hlocal := hgen.localSize
  rw [weight_append] at hlocal
  by_cases heq : position = conv.bConverted
  · -- the convertor is there
    obtain ⟨b, rem', rfl⟩ : ∃ b rem', rem = b :: rem' := by
      refine List.exists_cons_of_ne_nil ?_
      rintro rfl
      rw [hgen.bConverted] at heq
      simp at hlocal
      omega
    have hpos : 0 < b.len := hlen b (by simp)
    refine ⟨conv, done, b, rem', ?_, ⟨hsends, hgen, hstream⟩, ?_, ?_, .refl conv⟩
    · rw [if_pos heq, heq, hgen.bConverted]
    · rw [heq, hgen.bConverted]
    · rw [heq, hgen.bConverted]
      omega
  · rw [if_neg heq]
    set conv₁ : Convertor := { conv with flags := { conv.flags with completed := false } }
      with hconv₁
    have hmoved₁ : conv.Moved conv₁ := ⟨_, _, _, _, _, rfl⟩
    have hsends₁ := hmoved₁.sends hsends
    have hdirect : ¬ (conv₁.flags.withChecksum = false ∧ conv₁.flags.datatype.noGaps = true ∧
        (conv₁.flags.send = true ∨ conv₁.flags.homogeneous = true)) := by simp [hsends₁.noGaps]
    simp only [if_neg hdirect]
    -- from the beginning, or from where the convertor is
    obtain ⟨conv₂, done₂, rem₂, hconv₂, hgen₂, hsplit₂, hle₂, hmoved₂⟩ : ∃ conv₂ done₂ rem₂,
        (if position = 0 ∨ position < conv₁.bConverted then conv₁.createStackAtBegining else conv₁)
          = conv₂ ∧ conv₂.GenericInv D fake (count * (D.ticks + 1)) done₂ rem₂ ∧
        done₂ ++ rem₂ = done ++ rem ∧ weight Block.len done₂ ≤ position ∧ conv.Moved conv₂ := by
      by_cases hback : position = 0 ∨ position < conv₁.bConverted
      · rw [if_pos hback]
        refine ⟨_, [], _, rfl, hsends₁.rewind rfl hD, ?_, Nat.zero_le _, ⟨_, _, _, _, _, rfl⟩⟩
        rw [hstream]
        rfl
      · rw [if_neg hback]
        have hbconv : conv₁.bConverted = weight Block.len done := hgen.bConverted
        rw [not_or] at hback
        refine ⟨conv₁, done, rem, rfl, ⟨hgen.desc, hgen.localSize, hgen.noOp, hgen.bConverted, ?_,
          hgen.pending⟩, rfl, by omega, hmoved₁⟩
        refine iff_of_false (by simp [hconv₁]) fun hnil => ?_
        rw [hnil, weight_nil] at hlocal
        omega
    have hsends₂ := hmoved₂.sends hsends
    have hext : conv₂.pDesc = conv.pDesc := hmoved₂.pDesc
    have hlocal₂ : conv₂.localSize = conv.localSize := by rw [hsends₂.localSize, hsends.localSize]
    rw [setPositionNocheck, hconv₂]
    by_cases h0 : position = 0
    · -- the start
      have hdone₂ : done₂ = [] := by
        refine (weight_eq_zero_iff fun b hb => hlen b ?_).mp (by omega)
        rw [← hsplit₂]
        exact List.mem_append_left _ hb
      subst hdone₂
      obtain ⟨b, rem', hb⟩ : ∃ b rem', rem₂ = b :: rem' := by
        refine List.exists_cons_of_ne_nil ?_
        rintro rfl
        have hall := hgen₂.localSize
        simp at hall
        omega
      have hpos : 0 < b.len := hlen b (by rw [← hsplit₂, hb]; simp)
      subst hb
      refine ⟨conv₂, [], b, rem', ?_, ⟨hsends₂, hgen₂, ?_⟩, Nat.zero_le _, ?_, hmoved₂⟩
      · simp [h0]
      · rw [hsplit₂, hstream, hext]
      · rw [h0]
        exact hpos
    · obtain ⟨conv₃, done₃, b, rem₃, hposition, hsplit₃, hb₃, hplen, hpart, hgen₃, -, hmoved₃⟩ :=
        hgen₂.genericSimplePosition hsends₂.size hsends₂.notEmpty hfuel hle₂ (by omega)
      have hsends₃ := hmoved₃.sends hsends₂
      have hext₃ : conv₃.pDesc = conv₂.pDesc := hmoved₃.pDesc
      have hmoved₄ : conv₃.Moved { conv₃ with
          bConverted := conv₃.bConverted - conv₃.partialLength, partialLength := 0 } :=
        ⟨_, _, _, _, _, rfl⟩
      refine ⟨_, done₃, b, rem₃, ?_, ⟨hmoved₄.sends hsends₃, hgen₃, ?_⟩, by omega, by omega,
        hmoved₂.trans (hmoved₃.trans hmoved₄)⟩
      · simp only [if_neg h0, hsends₂.contiguous, Bool.false_eq_true, if_false, hposition,
          Option.bind_eq_bind, Option.bind_some, hsends₃.send, if_true, Option.pure_def]
        rw [show conv₃.bConverted - conv₃.partialLength = weight Block.len done₃ by omega]
      · rw [hsplit₃, hsplit₂, hstream]
        simp only [hext₃, hext]

/-- **Any run of a send convertor** keeps the invariant. -/
lemma SendRun.sendInv (hD : D.Valid) {conv₀ : Convertor} {done₀ rem₀ : List Block}
    (h₀ : conv₀.SendInv D fake count done₀ rem₀) (hfuel : count * (D.ticks + 1) < fuel)
    (hrun : SendRun chk mem fuel conv₀ conv) :
    ∃ done rem, conv.SendInv D fake count done rem ∧ conv₀.Moved conv := by
  induction hrun with
  | start => exact ⟨done₀, rem₀, h₀, .refl conv₀⟩
  | @pack conv iov maxData r _ hpack ih =>
      obtain ⟨done, rem, ⟨hsends, hgen, hstream⟩, hmoved⟩ := ih
      have hlen : ∀ b ∈ rem, 0 < b.len := fun b hb =>
        hD.stride_len_pos (by rw [← hstream]; exact List.mem_append_right _ hb)
      obtain ⟨r', ps, rem', hr', -, -, hps, -, hgen', -, hmoved'⟩ :=
        hgen.convertorPack hlen hsends.fAdvance hfuel iov maxData
      obtain rfl : r' = r := Option.some.inj (hr'.symm.trans hpack)
      refine ⟨_, _, ⟨hmoved'.sends hsends, hgen', ?_⟩, hmoved.trans hmoved'⟩
      rw [List.append_assoc, hps, hstream, hmoved'.pDesc]
  | @setPosition conv conv' position position' rc _ hset ih =>
      obtain ⟨done, rem, h, hmoved⟩ := ih
      rcases Nat.lt_or_ge position conv.localSize with hlt | hle
      · obtain ⟨conv₁, done', b, rem', hset', h', -, -, hmoved'⟩ := h.setPosition hD hfuel hlt
        obtain ⟨rfl, -⟩ := Prod.mk.inj (Option.some.inj (hset'.symm.trans hset))
        exact ⟨_, _, h', hmoved.trans hmoved'⟩
      · obtain ⟨conv₁, hset', h', hmoved'⟩ := h.setPosition_of_le hle
        obtain ⟨rfl, -⟩ := Prod.mk.inj (Option.some.inj (hset'.symm.trans hset))
        exact ⟨_, _, h', hmoved.trans hmoved'⟩

/-- What is packed from a place of the stream on: the elements that are left, in order. -/
lemma Convertor.SendInv.packRun (hD : D.Valid) (h : conv.SendInv D fake count done rem)
    (hfuel : count * (D.ticks + 1) < fuel) {out : List Byte}
    (hrun : PackRun chk mem fuel conv out conv') :
    out <+: gather mem (blocksBytes rem) ∧
      (conv'.flags.completed = true ↔ out = gather mem (blocksBytes rem)) := by
  have hlen : ∀ b ∈ rem, 0 < b.len := fun b hb =>
    hD.stride_len_pos (by rw [← h.stream]; exact List.mem_append_right _ hb)
  obtain ⟨bs, rem', rfl, rfl, hgen, -⟩ :=
    hrun.genericInv h.generic hlen h.sends.fAdvance hfuel
  rw [blocksBytes_append, gather_append]
  refine ⟨List.prefix_append _ _, hgen.completed.trans ⟨?_, fun heq => ?_⟩⟩
  · rintro rfl
    simp
  · have hzero := congrArg List.length heq
    rw [List.length_append, length_gather, length_gather, length_blocksBytes rem'] at hzero
    exact (weight_eq_zero_iff fun b hb => hlen b (List.mem_append_right _ hb)).mp (by omega)

/-- The part of the stream behind some of its elements. -/
lemma drop_stream {bs bs' : List Block} {extent : ℤ}
    (h : bs ++ bs' = stride count extent D.blocks 0) :
    (gather mem (stride count extent D.bytes 0)).drop (weight Block.len bs)
      = gather mem (blocksBytes bs') := by
  have hstream : blocksBytes (stride count extent D.blocks 0) = stride count extent D.bytes 0 :=
    flatMap_stride _ _ _ _ _
  rw [← hstream, ← h, blocksBytes_append, gather_append]
  exact List.drop_left' (by rw [length_gather, length_blocksBytes])

/-- A send convertor for a committed datatype. -/
lemma Convertor.Homogeneous.sendInv {dt dt' : Datatype} (hhom : conv.Homogeneous)
    (h : dt.Described D) (hdt' : Datatype.Commits D dt dt') (hjoins : D.CoherentJoins)
    (hsize : dt.size ≠ 0) (hcont : dt'.flags.contiguous = false)
    (hgaps : dt'.flags.noGaps = false) (hcount : count ≠ 0) (pUserBuf : ℤ) :
    (D.optimized none).Valid ∧ ∃ fake,
      (conv.prepareForSend dt' count pUserBuf).SendInv (D.optimized none) fake count []
        (stride count dt'.extent (D.optimized none).blocks 0) ∧
      (conv.prepareForSend dt' count pUserBuf).pDesc = dt' := by
  have hvalid : D.Valid := ⟨h.wf, h.ends⟩
  have hopt : (D.optimized none).Valid :=
    Nest.optimized_valid hvalid (fun p hp => by cases hp) (fun p hp => by cases hp) hjoins
  have hne : D ≠ .done := by
    rintro rfl
    exact hsize h.size.symm
  obtain ⟨fake, hfake⟩ := hdt'.optDesc hne
  have hbytes : dt'.size = ((D.optimized none).bytes 0).length := by
    rw [Nest.length_bytes_optimized hvalid hopt, hdt'.described.size]
  have hpos : dt'.size ≠ 0 := by rwa [← hdt'.described.size, h.size]
  obtain ⟨hprep, hadv, hdesc, hsend, hcount', hflags⟩ :=
    hhom.prepareForSend_prepared pUserBuf hfake hbytes hpos hcount hgaps hcont
  have hgen := hprep.genericInv hopt
  rw [hdesc] at hgen
  refine ⟨hopt, fake, ⟨⟨hprep.desc, by rw [hdesc, hbytes], ?_, hprep.localSize, hcount',
    Nat.pos_of_ne_zero hcount, hprep.noOp, hsend, by rw [hflags, hcont], by rw [hflags, hgaps],
    hadv⟩, hgen, by rw [hdesc, List.nil_append]⟩, hdesc⟩
  rw [hdesc]
  exact Nat.pos_of_ne_zero hpos

end Run

end Ocoms
