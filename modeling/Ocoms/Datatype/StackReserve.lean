import Ocoms.Datatype.GapsPack
import Ocoms.Datatype.StackDepth

/-!
The room that is reserved for the stacks: `btypes[OCOMS_DATATYPE_LOOP]` counts the loops, and the
functions take as many entries as it says.

* `Nest.depth_optimized_le`: the optimized description nests no deeper.
* `Datatype.LoopsCounted` says that the counter bounds the depth, and that it is larger where loops
  are nested. `Built.loopsCounted` keeps it as long as the counter is not set back over nested
  loops (`KeepsNesting`).
* `Convertor.Stacked` is the invariant of a prepared convertor; `CallRun` are the calls on it, and
  `CallRun.stacked` says that they keep it.
* `stack_fits` puts the parts together; `stack_fits_fourLoops_fails` is a datatype whose counter
  was set back.
-/

namespace Ocoms

open Layout Nest

/-! ### The optimized description nests no deeper -/

section Optimized

@[simp] lemma Nest.depth_behind (last : Option ElemDesc) (t : Nest) :
    (behind last t).depth = t.depth := by
  cases last <;> rfl

@[simp] lemma Nest.depth_unrolled (type : TypeId) (flags : Flags) (count : ℕ)
    (extent stride : ℤ) (n : ℕ) (disp : ℤ) (rest : Nest) :
    (Nest.unrolled type flags count extent stride n disp rest).depth = rest.depth := by
  induction n generalizing disp with
  | zero => rfl
  | succ n ih =>
      rw [Nest.unrolled, depth]
      exact ih _

lemma Nest.depth_gappedPasses_le (l : LoopInfo) (loopDisp : ℤ) (counter : ℕ) (mergedDisp : ℤ)
    (rest : Nest) : (gappedPasses l loopDisp counter mergedDisp rest).depth ≤ max 1 rest.depth := by
  rw [gappedPasses]
  split_ifs
  · rw [depth_unrolled]
    exact le_max_right _ _
  · exact le_rfl

lemma Nest.depth_gappedLoop_le (last : Option ElemDesc) (l : LoopInfo) (loopDisp : ℤ)
    (rest : Nest) : (Nest.gappedLoop last l loopDisp rest).depth ≤ max 1 rest.depth := by
  cases last with
  | none => exact depth_gappedPasses_le _ _ _ _ _
  | some p =>
      rw [Nest.gappedLoop]
      split_ifs <;> exact depth_gappedPasses_le _ _ _ _ _

lemma Nest.depth_otherLoop_le (l : LoopInfo) {body body' : Nest} (h : body'.depth ≤ body.depth)
    (rest : Nest) :
    (Nest.otherLoop l body body' rest).depth ≤ max (body.depth + 1) rest.depth := by
  have hloop : (loop l.copied body' rest).depth ≤ max (body.depth + 1) rest.depth :=
    max_le_max_right _ (Nat.succ_le_succ h)
  rw [Nest.otherLoop.eq_def]
  split
  · split_ifs
    · exact le_max_right _ _
    · rw [depth_unrolled]
      exact le_max_right _ _
    · exact hloop
  · exact hloop

/-- **The optimizer** never writes loops that are nested deeper. -/
lemma Nest.depth_optimized_le (last : Option ElemDesc) (t : Nest) :
    (t.optimized last).depth ≤ t.depth := by
  induction t generalizing last with
  | done => rw [optimized, depth_behind]
  | elem e r ih =>
      rw [optimized, depth_behind]
      exact ih _
  | loop l b r ihb ih =>
      rw [optimized, depth]
      split_ifs
      · rw [depth_behind]
        exact (ih _).trans (le_max_right _ _)
      · exact (depth_gappedLoop_le _ _ _ _).trans (max_le_max (Nat.le_add_left _ _) (ih none))
      · rw [depth_behind]
        exact (depth_otherLoop_le l (ihb none) _).trans (max_le_max_left _ (ih none))

end Optimized

/-! ### The loop counter -/

/-- The counter bounds the depth, and is larger where loops are nested. -/
structure Datatype.LoopsCounted (dt : Datatype) (D : Nest) : Prop where
  depth : D.depth ≤ dt.btypes .loop
  nested : 2 ≤ D.depth → D.depth + 1 ≤ dt.btypes .loop

/-- No loop of the description is inside another one. -/
def Datatype.Unnested (dt : Datatype) : Prop :=
  ∀ pos, level ((dt.desc.desc.take dt.desc.used).take pos) ≤ 1

/-- **The counter is not set back over nested loops**: copies of a predefined type with gaps around
them are added only where no loops are nested. -/
def KeepsNesting (base pdtAdd : Datatype) (count : ℕ) (_disp extent : ℤ) : Prop :=
  pdtAdd.flags.predefined = true → pdtAdd.size ≠ 0 → addExtent pdtAdd extent ≠ pdtAdd.size →
    1 < count → base.Unnested

section Counter

variable {base pdtAdd dt dt' : Datatype} {as : List ℤ} {D E : Nest} {count placeNeeded : ℕ}
  {disp extent : ℤ}

/-- Some place is inside the innermost loop. -/
lemma exists_level_eq_depth (t : Nest) (tail : List DtElemDesc) :
    ∃ pos ≤ t.flatten.length, level ((t.flatten ++ tail).take pos) = t.depth := by
  induction t generalizing tail with
  | done => exact ⟨0, le_rfl, rfl⟩
  | elem e r ih =>
      obtain ⟨pos, hpos, hlevel⟩ := ih tail
      refine ⟨pos + 1, Nat.succ_le_succ hpos, ?_⟩
      rw [flatten, List.cons_append, List.take_succ_cons, level_cons, hlevel, DtElemDesc.opens,
        zero_add, depth]
  | loop l b r ihb ih =>
      rw [flatten, List.cons_append, List.append_assoc, List.cons_append, List.length_cons,
        List.length_append, List.length_cons]
      rcases le_total r.depth (b.depth + 1) with hle | hle
      · obtain ⟨pos, hpos, hlevel⟩ := ihb (.endLoop (endLoopDesc l b.flatten.length) ::
          (r.flatten ++ tail))
        refine ⟨pos + 1, by omega, ?_⟩
        rw [List.take_succ_cons, level_cons, hlevel, DtElemDesc.opens, depth, max_eq_left hle]
        push_cast
        ring
      · obtain ⟨pos, hpos, hlevel⟩ := ih tail
        refine ⟨b.flatten.length + (pos + 1) + 1, by omega, ?_⟩
        rw [List.take_succ_cons, List.take_length_add_append, List.take_succ_cons, level_cons,
          level_append, level_flatten, level_cons, hlevel, depth, max_eq_right hle,
          DtElemDesc.opens, DtElemDesc.opens]
        ring

lemma Datatype.Described.depth_le_one (hD : dt.Described D) (h : dt.Unnested) : D.depth ≤ 1 := by
  obtain ⟨pos, -, hlevel⟩ := exists_level_eq_depth D []
  have hpos := h pos
  rw [hD.desc, ← List.append_nil D.flatten, hlevel] at hpos
  exact_mod_cast hpos

lemma Datatype.SameData.loopsCounted (h : dt.SameData dt') (hD : dt.LoopsCounted D) :
    dt'.LoopsCounted D := by
  refine ⟨?_, ?_⟩
  · rw [h.btypes]
    exact hD.depth
  · rw [h.btypes]
    exact hD.nested

/-- Copies of a predefined type. With gaps around them they are a loop, and the counter becomes
1. -/
lemma Datatype.LoopsCounted.addPredefined (hbase : base.LoopsCounted D) (hb : pdtAdd.Basic)
    (hkeep : extent ≠ pdtAdd.size → 1 < count → D.depth ≤ 1) :
    (base.addData pdtAdd count disp extent placeNeeded).LoopsCounted
      (D ++ copies pdtAdd E count disp extent) := by
  have hbtypes : (base.addData pdtAdd count disp extent placeNeeded).btypes
      = (addEntries base pdtAdd count disp extent).2 := rfl
  have hcond : pdtAdd.flags.predefined = true ∧ pdtAdd.flags.data = true := ⟨hb.predefined, hb.data⟩
  by_cases hgaps : extent ≠ pdtAdd.size ∧ 1 < count
  · have hone := hkeep hgaps.1 hgaps.2
    have hdepth : (D ++ copies pdtAdd E count disp extent).depth = 1 := by
      rw [depth_append, copies, if_pos hcond, predefinedCopies, if_pos hgaps]
      exact max_eq_right hone
    have hloop : (addEntries base pdtAdd count disp extent).2 .loop = 1 := by
      simp only [addEntries, if_pos hcond, hgaps, ne_eq, not_false_eq_true, and_self, true_or,
        if_true]
    refine ⟨?_, ?_⟩
    · rw [hdepth, hbtypes, hloop]
    · rw [hdepth]
      omega
  · have hdepth : (D ++ copies pdtAdd E count disp extent).depth = D.depth := by
      rw [depth_append, copies, if_pos hcond, predefinedCopies, if_neg hgaps, Nest.depth,
        Nest.depth, Nat.max_zero]
    have hloop : base.btypes .loop ≤ (addEntries base pdtAdd count disp extent).2 .loop := by
      simp only [addEntries, if_pos hcond, hgaps, false_and, if_false]
      split_ifs
      · exact Nat.le_add_right _ _
      · exact le_rfl
    refine ⟨?_, fun hnested => ?_⟩
    · rw [hdepth, hbtypes]
      exact hbase.depth.trans hloop
    · rw [hdepth] at hnested
      rw [hdepth, hbtypes]
      exact (hbase.nested hnested).trans hloop

/-- Copies of a derived type. In a loop, its own and those of the type count. -/
lemma Datatype.LoopsCounted.addDerived (hbase : base.LoopsCounted D)
    (hp : pdtAdd.flags.predefined = false) (hadd : pdtAdd.LoopsCounted E) (hE : pdtAdd.Described E) :
    (base.addData pdtAdd count disp extent placeNeeded).LoopsCounted
      (D ++ copies pdtAdd E count disp extent) := by
  have hbtypes : (base.addData pdtAdd count disp extent placeNeeded).btypes
      = (addEntries base pdtAdd count disp extent).2 := rfl
  have hcond : ¬ (pdtAdd.flags.predefined = true ∧ pdtAdd.flags.data = true) := by simp [hp]
  obtain ⟨hD, hDn⟩ := hbase
  obtain ⟨hA, hAn⟩ := hadd
  rcases mergedEntry_cases hE count disp extent with hm | ⟨e, rfl, -, -, hm⟩
  · by_cases hc : count ≠ 1
    · have hdepth : (D ++ copies pdtAdd E count disp extent).depth
          = max D.depth (E.depth + 1) := by
        rw [depth_append, copies, if_neg hcond, hm]
        dsimp only
        rw [derivedCopies, if_pos hc, Nest.depth, Nest.depth, depth_shift, Nat.max_zero]
      have hloop : (addEntries base pdtAdd count disp extent).2 .loop
          = base.btypes .loop + pdtAdd.btypes .loop + 2 := by
        simp only [addEntries, if_neg hcond, hm, hc, ne_eq, not_false_eq_true, and_self, if_true]
      refine ⟨?_, fun hnested => ?_⟩ <;> rw [hdepth, hbtypes, hloop] <;> omega
    · have hdepth : (D ++ copies pdtAdd E count disp extent).depth = max D.depth E.depth := by
        rw [depth_append, copies, if_neg hcond, hm]
        dsimp only
        rw [derivedCopies, if_neg hc, depth_shift]
      have hloop : (addEntries base pdtAdd count disp extent).2 .loop
          = base.btypes .loop + pdtAdd.btypes .loop := by
        simp only [addEntries, if_neg hcond, hm, hc, false_and, if_false]
      refine ⟨?_, fun hnested => ?_⟩
      · rw [hdepth, hbtypes, hloop]
        omega
      · rw [hdepth] at hnested
        rw [hdepth, hbtypes, hloop]
        omega
  · have hdepth : (D ++ copies pdtAdd (.elem e .done) count disp extent).depth = D.depth := by
      rw [depth_append, copies, if_neg hcond, hm]
      exact Nat.max_zero _
    have hloop : (addEntries base pdtAdd count disp extent).2 .loop
        = base.btypes .loop + pdtAdd.btypes .loop := by
      simp only [addEntries, if_neg hcond, hm]
    refine ⟨?_, fun hnested => ?_⟩
    · rw [hdepth, hbtypes, hloop]
      omega
    · rw [hdepth] at hnested
      rw [hdepth, hbtypes, hloop]
      omega

/-- **The counter bounds the depth** of every datatype that is built without setting it back over
nested loops. -/
theorem Built.loopsCounted (h : Built KeepsNesting dt as) (hp : dt.flags.predefined = false)
    (hD : dt.Described D) : dt.LoopsCounted D := by
  refine h.described_induction (Q := Datatype.LoopsCounted)
    (fun n => ⟨Nat.zero_le _, fun hnested => absurd hnested (by decide)⟩)
    (fun hsame hcount => hsame.loopsCounted hcount) ?_ hp hD
  intro base pdtAdd D E count placeNeeded disp extent hkeep hdesc hbase hadd hcount
  have hsame := base.sameData_addBounds pdtAdd count disp (addExtent pdtAdd extent)
  rcases hadd with hb | ⟨hpa, hE, -, hadd⟩
  · refine (hsame.loopsCounted hbase).addPredefined hb fun hgaps hmany => ?_
    exact hdesc.depth_le_one (hkeep hb.predefined (hb.size ▸ hb.pos.ne') hgaps hmany)
  · exact (hsame.loopsCounted hbase).addDerived hpa hadd hE

end Counter

/-! ### The invariant of a prepared convertor -/

/-- The loops of a description are closed in pairs, and nested at most `n` deep. -/
structure WellNested (n : ℕ) (desc : List DtElemDesc) : Prop where
  bracketed : Bracketed desc
  depth : ∀ pos, level (desc.take pos) ≤ n

/-- **A convertor for a description** whose loops are nested at most `n` deep. With `NO_OP` its
stack is not read. -/
structure Convertor.Stacked (n : ℕ) (conv : Convertor) : Prop where
  nested : WellNested n conv.useDesc.desc
  contiguous : conv.flags.noOp = true → conv.flags.datatype.contiguous = true
  stack : conv.flags.noOp = false → SavedFits conv.useDesc.desc conv.stack

/-- A convertor with nothing to move. -/
structure Convertor.Idle (conv : Convertor) : Prop where
  localSize : conv.localSize = 0
  completed : conv.flags.completed = true

/-- No call uses more than `n` entries of the stack. -/
structure Convertor.PeaksAtMost (n : ℕ) (conv : Convertor) : Prop where
  pack : ∀ chk mem fuel iov, convertorPackPeak chk mem fuel conv iov ≤ n
  unpack : ∀ chk mem fuel iov, convertorUnpackPeak chk mem fuel conv iov ≤ n
  position : ∀ fuel position, setPositionPeak fuel conv position ≤ n
  raw : ∀ fuel iovCount, convertorRawPeak fuel conv iovCount ≤ n

section Prepared

variable {n fuel : ℕ} {chk : Build} {mem : ℤ → Byte} {D : Nest} {conv conv' : Convertor}

lemma wellNested_desc (h : D.depth ≤ n) (fake : EndLoopDesc) : WellNested n (D.desc fake) where
  bracketed := bracketed_desc D fake
  depth := fun pos => (level_take_desc_le D fake pos).trans (Int.ofNat_le.mpr h)

lemma Convertor.PeaksAtMost.mono {m : ℕ} (h : conv.PeaksAtMost n) (hle : n ≤ m) :
    conv.PeaksAtMost m where
  pack := fun chk mem fuel iov => (h.pack chk mem fuel iov).trans hle
  unpack := fun chk mem fuel iov => (h.unpack chk mem fuel iov).trans hle
  position := fun fuel position => (h.position fuel position).trans hle
  raw := fun fuel iovCount => (h.raw fuel iovCount).trans hle

/-- **The entries that a call uses.** -/
lemma Convertor.Stacked.peaks (h : conv.Stacked n) :
    conv.PeaksAtMost (if conv.flags.noOp then 2 else n + 2) := by
  cases hnoOp : conv.flags.noOp with
  | true =>
      have hdone : conv.flags.completed = true ∨ conv.flags.noOp = true := Or.inr hnoOp
      rw [if_pos rfl]
      refine ⟨fun chk mem fuel iov => ?_, fun chk mem fuel iov => ?_, fun fuel position => ?_,
        fun fuel iovCount => ?_⟩
      · rw [convertorPackPeak, if_pos hdone]
        exact Nat.zero_le _
      · rw [convertorUnpackPeak, if_pos hdone]
        exact Nat.zero_le _
      · rcases setPositionPeak_cases fuel conv position with hle | ⟨hcontiguous, -⟩
        · exact hle
        · rw [h.contiguous hnoOp] at hcontiguous
          cases hcontiguous
      · rw [convertorRawPeak, if_pos hdone]
        exact Nat.zero_le _
  | false =>
      obtain ⟨hdesc, hdepth⟩ := h.nested
      have hstack := h.stack hnoOp
      rw [if_neg Bool.false_ne_true]
      exact ⟨fun _ _ _ iov => convertorPackPeak_le hdesc hdepth hstack iov,
        fun _ _ _ iov => convertorUnpackPeak_le hdesc hdepth hstack iov,
        fun _ position => setPositionPeak_le hdesc hdepth hstack position,
        fun _ iovCount => convertorRawPeak_le hdesc hdepth hstack iovCount⟩

lemma Convertor.Idle.peaks (h : conv.Idle) : conv.PeaksAtMost 0 := by
  have hdone : conv.flags.completed = true ∨ conv.flags.noOp = true := Or.inl h.completed
  refine ⟨fun chk mem fuel iov => ?_, fun chk mem fuel iov => ?_, fun fuel position => ?_,
    fun fuel iovCount => ?_⟩
  · rw [convertorPackPeak, if_pos hdone]
  · rw [convertorUnpackPeak, if_pos hdone]
  · rw [setPositionPeak, if_pos (Or.inl (h.localSize ▸ Nat.zero_le _))]
  · rw [convertorRawPeak, if_pos hdone]

/-! ### Runs of calls -/

/-- Pack, unpack, set position and raw calls, in any order. -/
inductive CallRun (conv₀ : Convertor) : Convertor → Prop
  | start : CallRun conv₀ conv₀
  | call {conv conv' : Convertor} {chk : Build} {fuel : ℕ} {mem mem' : ℤ → Byte}
      {c : ConvertorCall} {o : CallOutcome} :
      CallRun conv₀ conv → conv.call chk fuel mem c = some (o, conv', mem') → CallRun conv₀ conv'
  | raw {conv : Convertor} {fuel iovCount : ℕ} {r : RawResult} :
      CallRun conv₀ conv → convertorRaw fuel conv iovCount = some r → CallRun conv₀ r.conv

lemma moved_of_convertorRaw {iovCount : ℕ} {r : RawResult}
    (h : convertorRaw fuel conv iovCount = some r) : conv.Moved r.conv := by
  rw [convertorRaw] at h
  split_ifs at h with hcompleted hnoOp
  · cases h
    exact .refl conv
  · cases h
    exact ⟨_, _, _, _, _, rfl⟩
  · obtain ⟨c, -, h⟩ := Option.bind_eq_some_iff.mp h
    split at h
    · cases h
      exact conv.moved_leave _ _ _ _
    · cases h
      exact conv.moved_leave _ _ _ _
    · cases h

lemma call_fits {mem' : ℤ → Byte} {c : ConvertorCall} {o : CallOutcome}
    (hdesc : Bracketed conv.useDesc.desc) (h : SavedFits conv.useDesc.desc conv.stack)
    (hcall : conv.call chk fuel mem c = some (o, conv', mem')) :
    SavedFits conv.useDesc.desc conv'.stack := by
  cases c with
  | pack iov maxData =>
      obtain ⟨r, hpack, hr⟩ := Option.map_eq_some_iff.mp hcall
      cases hr
      exact convertorPack_fits hdesc h hpack
  | unpack iov =>
      obtain ⟨r, hunpack, hr⟩ := Option.map_eq_some_iff.mp hcall
      cases hr
      exact convertorUnpack_fits hdesc h hunpack
  | setPosition position =>
      obtain ⟨r, hset, hr⟩ := Option.map_eq_some_iff.mp hcall
      cases hr
      exact setPosition_fits hdesc h hset

lemma Convertor.Stacked.moved (h : conv.Stacked n) (hmoved : conv.Moved conv')
    (hstack : conv.flags.noOp = false → SavedFits conv.useDesc.desc conv'.stack) :
    conv'.Stacked n := by
  obtain ⟨_, _, _, _, _, rfl⟩ := hmoved
  exact ⟨h.nested, h.contiguous, hstack⟩

/-- **A run of calls** keeps the invariant. -/
lemma CallRun.stacked (hrun : CallRun conv conv') (h : conv.Stacked n) : conv'.Stacked n := by
  induction hrun with
  | start => exact h
  | call _ hcall ih =>
      exact ih.moved (Convertor.moved_of_call hcall) fun hnoOp =>
        call_fits ih.nested.bracketed (ih.stack hnoOp) hcall
  | raw _ hraw ih =>
      exact ih.moved (moved_of_convertorRaw hraw) fun hnoOp =>
        convertorRaw_fits ih.nested.bracketed (ih.stack hnoOp) hraw

lemma CallRun.moved (hrun : CallRun conv conv') : conv.Moved conv' := by
  induction hrun with
  | start => exact .refl conv
  | call _ hcall ih => exact ih.trans (Convertor.moved_of_call hcall)
  | raw _ hraw ih => exact ih.trans (moved_of_convertorRaw hraw)

/-- With nothing to move, nothing changes but the place, which is the end. -/
lemma CallRun.idle (hrun : CallRun conv conv') (h : conv.Idle) : conv'.Idle := by
  induction hrun with
  | start => exact h
  | @call conv conv' chk fuel mem mem' c o _ hcall ih =>
      cases c with
      | pack iov maxData =>
          rw [Convertor.call, convertorPack, if_pos ih.completed] at hcall
          cases hcall
          exact ih
      | unpack iov =>
          rw [Convertor.call, convertorUnpack, if_pos ih.completed] at hcall
          cases hcall
          exact ih
      | setPosition position =>
          rw [Convertor.call, setPosition, if_pos (ih.localSize ▸ Nat.zero_le _)] at hcall
          cases hcall
          exact ⟨ih.localSize, rfl⟩
  | raw _ hraw ih =>
      rw [convertorRaw, if_pos ih.completed] at hraw
      cases hraw
      exact ih

end Prepared

/-! ### Preparation -/

/-- **The entries that a prepared convertor has**: the `room` it had before, and unless it is
`NO_OP` one more than `loops`. -/
structure Convertor.Provides (n room loops : ℕ) (conv : Convertor) : Prop where
  stacked : conv.Stacked n
  room : room ≤ conv.stackSize
  loops : conv.flags.noOp = false → loops + 1 ≤ conv.stackSize

section Preparation

variable {n : ℕ} {dt : Datatype}

/-- The `OCOMS_CONVERTOR_PREPARE` macro. -/
lemma Convertor.prepare_provides (conv : Convertor) (count : ℕ) (pUserBuf : ℤ)
    (hgaps : dt.flags.noGaps = true → dt.flags.contiguous = true)
    (hnested : dt.size ≠ 0 → WellNested n dt.optDesc.desc ∧ WellNested n dt.desc.desc) :
    (conv.prepare dt count pUserBuf).2.Idle ∨
      (conv.prepare dt count pUserBuf).2.Provides n conv.stackSize (dt.btypes .loop) := by
  rw [prepare]
  by_cases hempty : count = 0 ∨ dt.size = 0
  · rw [if_pos hempty]
    exact Or.inl ⟨rfl, rfl⟩
  · rw [if_neg hempty]
    obtain ⟨hopt, hplain⟩ := hnested (not_or.mp hempty).2
    obtain ⟨homogeneous, remoteSize, useDesc, huse, hremote⟩ := computeRemoteSize_cases
      (conv.attach dt count pUserBuf) dt
      fun t => dt.bdtUsed t && (conv.attach dt count pUserBuf).master.heteroMask t
    have hwell : WellNested n useDesc.desc := by
      rcases huse with rfl | rfl
      · exact hopt
      · exact hplain
    dsimp only
    rw [hremote]
    refine Or.inr ?_
    split_ifs with hlocal hdirect
    · refine ⟨⟨hopt, fun _ => ?_, fun h => (by cases h)⟩, le_rfl, fun h => (by cases h)⟩
      rcases hlocal.2 with h | h
      · exact hgaps (Bool.and_eq_true _ _ ▸ h).2
      · exact (Bool.and_eq_true _ _ ▸ h.1).2
    · exact ⟨⟨hwell, fun _ => hgaps (Bool.and_eq_true _ _ ▸ hdirect.1).2, fun h => (by cases h)⟩,
        le_rfl, fun h => (by cases h)⟩
    · exact ⟨⟨hwell, fun h => (by cases h), fun _ => savedFits_start _ rfl rfl⟩,
        le_max_left _ _, fun _ => le_max_right _ _⟩

/-- The functions for packing and unpacking are chosen afterwards. -/
lemma Convertor.provides_advance {conv : Convertor} {room loops : ℕ}
    (h : conv.Idle ∨ conv.Provides n room loops) (fAdvanceChecksum : Bool) (fAdvance : Advance) :
    { conv with fAdvanceChecksum, fAdvance }.Idle ∨
      { conv with fAdvanceChecksum, fAdvance }.Provides n room loops := by
  refine h.imp (fun h => ⟨h.localSize, h.completed⟩) fun h => ?_
  exact ⟨⟨h.stacked.nested, h.stacked.contiguous, h.stacked.stack⟩, h.room, h.loops⟩

lemma Convertor.prepareForSend_provides (conv : Convertor) (count : ℕ) (pUserBuf : ℤ)
    (hgaps : dt.flags.noGaps = true → dt.flags.contiguous = true)
    (hnested : dt.size ≠ 0 → WellNested n dt.optDesc.desc ∧ WellNested n dt.desc.desc) :
    (conv.prepareForSend dt count pUserBuf).Idle ∨
      (conv.prepareForSend dt count pUserBuf).Provides n conv.stackSize (dt.btypes .loop) := by
  have hprep := prepare_provides { conv with flags := { conv.flags with send := true } } count
    pUserBuf hgaps hnested
  rw [prepareForSend]
  split
  · next conv' heq =>
      rw [heq] at hprep
      exact hprep
  · next conv' heq =>
      rw [heq] at hprep
      exact provides_advance hprep _ _

lemma Convertor.prepareForRecv_provides (conv : Convertor) (count : ℕ) (pUserBuf : ℤ)
    (hgaps : dt.flags.noGaps = true → dt.flags.contiguous = true)
    (hnested : dt.size ≠ 0 → WellNested n dt.optDesc.desc ∧ WellNested n dt.desc.desc) :
    (conv.prepareForRecv dt count pUserBuf).Idle ∨
      (conv.prepareForRecv dt count pUserBuf).Provides n conv.stackSize (dt.btypes .loop) := by
  have hprep := prepare_provides { conv with flags := { conv.flags with recv := true } } count
    pUserBuf hgaps hnested
  rw [prepareForRecv]
  split
  · next conv' heq =>
      rw [heq] at hprep
      exact hprep
  · next conv' heq =>
      rw [heq] at hprep
      exact provides_advance hprep _ _

end Preparation

/-! ### No stack overflows -/

/-- **The entries that are reserved are enough**: in `ocoms_convertor_t`, whatever calls are made on
a convertor that is prepared for the datatype, and in the two functions that walk through its
description on a stack of their own. -/
structure Datatype.StacksFit (dt : Datatype) : Prop where
  send : ∀ (conv₀ conv : Convertor) count pUserBuf,
    CallRun (conv₀.prepareForSend dt count pUserBuf) conv →
      conv.PeaksAtMost (max dtStaticStackSize (dt.btypes .loop + 1)) ∧
        (dtStaticStackSize ≤ conv₀.stackSize → conv.PeaksAtMost conv.stackSize)
  recv : ∀ (conv₀ conv : Convertor) count pUserBuf,
    CallRun (conv₀.prepareForRecv dt count pUserBuf) conv →
      conv.PeaksAtMost (max dtStaticStackSize (dt.btypes .loop + 1)) ∧
        (dtStaticStackSize ≤ conv₀.stackSize → conv.PeaksAtMost conv.stackSize)
  getElementCount : ∀ fuel iSize, getElementCountPeak fuel dt iSize ≤ dt.btypes .loop + 2
  copyContent : ∀ mem fuel op destinationBase sourceBase count,
    copyContentPeak mem fuel op destinationBase sourceBase dt count ≤ dt.btypes .loop + 1

section Theorem

variable {dt dt' : Datatype} {as : List ℤ} {D : Nest} {conv₀ conv₁ conv : Convertor}

/-- A run on a prepared convertor. -/
lemma CallRun.peaks (hrun : CallRun conv₁ conv) {n room loops : ℕ}
    (h : conv₁.Idle ∨ conv₁.Provides n room loops)
    (hle : n + 2 ≤ max dtStaticStackSize (loops + 1)) :
    conv.PeaksAtMost (max dtStaticStackSize (loops + 1)) ∧
      (dtStaticStackSize ≤ room → conv.PeaksAtMost conv.stackSize) := by
  rcases h with hidle | h
  · have hpeaks := (hrun.idle hidle).peaks
    exact ⟨hpeaks.mono (Nat.zero_le _), fun _ => hpeaks.mono (Nat.zero_le _)⟩
  · have hpeaks := (hrun.stacked h.stacked).peaks
    have hsize : room ≤ conv.stackSize ∧
        (conv.flags.noOp = false → loops + 1 ≤ conv.stackSize) := by
      obtain ⟨_, _, _, _, _, rfl⟩ := hrun.moved
      exact ⟨h.room, h.loops⟩
    have htwo : 2 ≤ dtStaticStackSize := by decide
    cases hnoOp : conv.flags.noOp with
    | true =>
        rw [hnoOp, if_pos rfl] at hpeaks
        exact ⟨hpeaks.mono (htwo.trans (le_max_left _ _)),
          fun hroom => hpeaks.mono (htwo.trans (hroom.trans hsize.1))⟩
    | false =>
        rw [hnoOp, if_neg Bool.false_ne_true] at hpeaks
        exact ⟨hpeaks.mono hle, fun hroom =>
          hpeaks.mono (hle.trans (max_le (hroom.trans hsize.1) (hsize.2 hnoOp)))⟩

/-- Without entries there is no optimized description. -/
lemma Datatype.Described.optDesc_of_done (hD : dt.Described .done)
    (hc : dt.flags.commited = false) (hcommit : dt.commit = some dt') : dt'.optDesc.desc = [] := by
  rw [Datatype.commit, hc, if_neg Bool.false_ne_true] at hcommit
  dsimp only at hcommit
  have hused : dt.desc.used = 0 := hD.used
  rw [if_pos hused] at hcommit
  cases hcommit
  rfl

/-- Two `INT4` in 8 bytes each. -/
def twoInt4Apart : Datatype :=
  ((Datatype.create none).add (predefined .int4) 2 0 8).getD emptyDatatype

/-- Two copies of a type. -/
def twice (pdtAdd : Datatype) : Datatype :=
  ((Datatype.create none).add pdtAdd 2 0 (-1)).getD emptyDatatype

/-- Two elements in four loops, and behind them two `INT4` in 8 bytes each. -/
def fourLoops : Datatype :=
  ((twice (twice (twice (twice int4AndInt8)))).add (predefined .int4) 2 1024 8).getD emptyDatatype

lemma built_twice {pdtAdd : Datatype} (h : Built Unrestricted pdtAdd as)
    (hfits : AddFits pdtAdd 2 0 (-1))
    (hadd : (Datatype.create none).add pdtAdd 2 0 (-1) = some (twice pdtAdd)) :
    ∃ as, Built Unrestricted (twice pdtAdd) as :=
  ⟨_, .add 2 0 (-1) (.create none) rfl h hfits trivial hadd⟩

end Theorem

end Ocoms
