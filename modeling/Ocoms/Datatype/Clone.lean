import Ocoms.Datatype.Position
import Ocoms.Datatype.Unpack

/-!
Cloning: `ocoms_convertor_clone`.

* `Convertor.call` is one pack, unpack or set position call, with its outcome; `Convertor.calls`
  is a sequence of them, and `Convertor.Reachable` what they lead to from a created convertor.
* `Convertor.Guarded` is the invariant of the reachable convertors: what passes by the resetting
  of `partial_length` does not read it either.
* `Convertor.Twin` relates convertors that differ in the checksum, and in a `partial_length` that
  is not read; `Convertor.Twin.call` is the simulation.
* `clone_calls`: a clone continues like its source, unless it lacks a part of an element.
  `clone_int4AndInt8_fails` is a clone of a convertor inside an element.
-/

namespace Ocoms

open Layout

/-! ### Cloning -/

/-- `ocoms_convertor_clone`. The fields that it does not assign stay those of the destination. -/
def Convertor.clone (source destination : Convertor) (copyStack : ℤ) : Convertor :=
  { destination with
    remoteArch := source.remoteArch
    flags := source.flags
    pDesc := source.pDesc
    useDesc := source.useDesc
    count := source.count
    pBaseBuf := source.pBaseBuf
    fAdvance := source.fAdvance
    fAdvanceChecksum := source.fAdvanceChecksum
    master := source.master
    localSize := source.localSize
    remoteSize := source.remoteSize
    stackSize := source.stackSize
    stack := if copyStack = 0 then [] else source.stack
    bConverted := if copyStack = 0 then 2 ^ 64 - 1 else source.bConverted }

/-! ### Calls -/

/-- A call on a convertor. -/
inductive ConvertorCall
  | pack (iov : List Iovec) (maxData : ℕ)
  | unpack (iov : List Fragment)
  | setPosition (position : ℕ)

/-- What a call returns: the bytes packed, or the numbers of bytes taken from the fragments, with
`max_data` and the return value; or the position. -/
inductive CallOutcome
  | packed (frags : List (List Byte)) (maxData : ℕ) (rc : ℤ)
  | unpacked (lens : List ℕ) (maxData : ℕ) (rc : ℤ)
  | positioned (position : ℕ) (rc : ℤ)
  deriving DecidableEq

section Calls

variable (chk : Build) (fuel : ℕ)

/-- One call: its outcome, the convertor and the user memory afterwards. -/
def Convertor.call (conv : Convertor) (mem : ℤ → Byte) :
    ConvertorCall → Option (CallOutcome × Convertor × (ℤ → Byte))
  | .pack iov maxData =>
      (convertorPack chk mem fuel conv iov maxData).map fun r =>
        (.packed r.frags r.maxData r.rc, r.conv, mem)
  | .unpack iov =>
      (convertorUnpack chk fuel conv mem iov).map fun r =>
        (.unpacked r.lens r.maxData r.rc, r.conv, r.mem)
  | .setPosition position =>
      (Ocoms.setPosition fuel conv position).map fun r => (.positioned r.2.1 r.2.2, r.1, mem)

/-- A sequence of calls: their outcomes and the user memory afterwards. -/
def Convertor.calls (conv : Convertor) (mem : ℤ → Byte) :
    List ConvertorCall → Option (List CallOutcome × (ℤ → Byte))
  | [] => some ([], mem)
  | c :: cs =>
      (conv.call chk fuel mem c).bind fun r =>
        (r.2.1.calls r.2.2 cs).map fun rs => (r.1 :: rs.1, rs.2)

/-- What prepare, pack, unpack and set position calls lead to. -/
inductive Convertor.Reachable : Convertor → Prop
  | create (remoteArch : Arch) (withChecksum : Bool) :
      Reachable { Convertor.create remoteArch with
        flags := { (Convertor.create remoteArch).flags with withChecksum } }
  | prepareForSend {conv : Convertor} (datatype : Datatype) (count : ℕ) (pUserBuf : ℤ) :
      Reachable conv → Reachable (conv.prepareForSend datatype count pUserBuf)
  | prepareForRecv {conv : Convertor} (datatype : Datatype) (count : ℕ) (pUserBuf : ℤ) :
      Reachable conv → Reachable (conv.prepareForRecv datatype count pUserBuf)
  | call {conv conv' : Convertor} {mem mem' : ℤ → Byte} {c : ConvertorCall} {o : CallOutcome} :
      Reachable conv → conv.call chk fuel mem c = some (o, conv', mem') → Reachable conv'

end Calls

/-! ### What a call may change -/

section Moved

variable {chk build : Build} {fuel : ℕ} {mem : ℤ → Byte} {conv : Convertor}

lemma Convertor.moved_finish (conv : Convertor) : conv.Moved conv.finish.1 := by
  rw [finish]
  split <;> exact ⟨_, _, _, _, _, rfl⟩

lemma moved_of_genericSimplePack {iov : List Iovec} {r : PackResult}
    (h : genericSimplePack build mem fuel conv iov = some r) : conv.Moved r.conv := by
  rw [genericSimplePack] at h
  obtain ⟨c, -, h⟩ := Option.bind_eq_some_iff.mp h
  obtain ⟨w, -, h⟩ := Option.bind_eq_some_iff.mp h
  obtain rfl := Option.some.inj h
  exact Convertor.moved_leave _ _ _ _ _

lemma moved_of_packHomogeneousContig {iov : List Iovec} {r : PackResult}
    (h : packHomogeneousContig build mem conv iov = some r) : conv.Moved r.conv := by
  rw [packHomogeneousContig] at h
  obtain ⟨d, -, h⟩ := Option.bind_eq_some_iff.mp h
  split at h
  · obtain rfl := Option.some.inj h
    exact Convertor.Moved.trans ⟨_, _, _, _, _, rfl⟩ (Convertor.moved_finish _)
  · cases h

lemma moved_of_packHomogeneousContigWithGaps {iov : List Iovec} {maxData : ℕ} {r : PackResult}
    (h : packHomogeneousContigWithGaps build mem conv iov maxData = some r) :
    conv.Moved r.conv := by
  rw [packHomogeneousContigWithGaps] at h
  obtain ⟨d, -, h⟩ := Option.bind_eq_some_iff.mp h
  dsimp only at h
  split at h
  · split at h
    · obtain rfl := Option.some.inj h
      exact Convertor.Moved.trans ⟨_, _, _, _, _, rfl⟩ (Convertor.moved_finish _)
    · split_ifs at h
      · obtain rfl := Option.some.inj h
        exact Convertor.Moved.trans ⟨_, _, _, _, _, rfl⟩ (Convertor.moved_finish _)
      · obtain rfl := Option.some.inj h
        exact ⟨_, _, _, _, _, rfl⟩
      · obtain rfl := Option.some.inj h
        exact Convertor.Moved.trans ⟨_, _, _, _, _, rfl⟩ (Convertor.moved_finish _)
      all_goals
        obtain rfl := Option.some.inj h
        exact Convertor.Moved.trans ⟨_, _, _, _, _, rfl⟩ (Convertor.moved_finish _)
  · cases h

lemma moved_of_convertorPack {iov : List Iovec} {maxData : ℕ} {r : PackResult}
    (h : convertorPack chk mem fuel conv iov maxData = some r) : conv.Moved r.conv := by
  have hcsum : conv.Moved { conv with csum := ⟨0, 0, 0⟩ } := ⟨_, _, _, _, _, rfl⟩
  rw [convertorPack] at h
  dsimp only at h
  generalize (if conv.fAdvanceChecksum = true then chk else Build.plain) = build at h
  split_ifs at h with hcomp hnoOp
  · obtain rfl := Option.some.inj h
    exact .refl conv
  · obtain rfl := Option.some.inj h
    refine hcsum.trans ?_
    rw [packNoOp]
    dsimp only
    split <;> exact ⟨_, _, _, _, _, rfl⟩
  · split at h
    · exact hcsum.trans (moved_of_genericSimplePack h)
    · exact hcsum.trans (moved_of_packHomogeneousContig h)
    · exact hcsum.trans (moved_of_packHomogeneousContigWithGaps h)
    · cases h

lemma moved_of_genericSimpleUnpack {iov : List Fragment} {r : UnpackResult}
    (h : genericSimpleUnpack build fuel conv mem iov = some r) : conv.Moved r.conv := by
  rw [genericSimpleUnpack] at h
  obtain ⟨c, -, h⟩ := Option.bind_eq_some_iff.mp h
  obtain ⟨w, -, h⟩ := Option.bind_eq_some_iff.mp h
  obtain rfl := Option.some.inj h
  exact Convertor.Moved.trans ⟨_, _, _, _, _, rfl⟩ (Convertor.moved_leave _ _ _ _ _)

lemma moved_of_unpackHomogeneousContig {iov : List Fragment} {r : UnpackResult}
    (h : unpackHomogeneousContig build conv mem iov = some r) : conv.Moved r.conv := by
  rw [unpackHomogeneousContig] at h
  obtain ⟨d, -, h⟩ := Option.bind_eq_some_iff.mp h
  split at h
  · obtain rfl := Option.some.inj h
    exact Convertor.Moved.trans ⟨_, _, _, _, _, rfl⟩ (Convertor.moved_finish _)
  · cases h

lemma moved_of_unpackGeneral {iov : List Fragment} {r : UnpackResult}
    (h : unpackGeneral fuel conv mem iov = some r) : conv.Moved r.conv := by
  rw [unpackGeneral] at h
  split at h
  · cases h
  · obtain ⟨w, -, h⟩ := Option.bind_eq_some_iff.mp h
    dsimp only at h
    split_ifs at h
    all_goals
      obtain rfl := Option.some.inj h
      exact ⟨_, _, _, _, _, rfl⟩

lemma moved_of_convertorUnpack {iov : List Fragment} {r : UnpackResult}
    (h : convertorUnpack chk fuel conv mem iov = some r) : conv.Moved r.conv := by
  have hcsum : conv.Moved { conv with csum := ⟨0, 0, 0⟩ } := ⟨_, _, _, _, _, rfl⟩
  rw [convertorUnpack] at h
  dsimp only at h
  generalize (if conv.fAdvanceChecksum = true then chk else Build.plain) = build at h
  split_ifs at h with hcomp hnoOp
  · obtain rfl := Option.some.inj h
    exact .refl conv
  · obtain rfl := Option.some.inj h
    refine hcsum.trans ?_
    rw [unpackNoOp]
    dsimp only
    split <;> exact ⟨_, _, _, _, _, rfl⟩
  · split at h
    · exact hcsum.trans (moved_of_genericSimpleUnpack h)
    · exact hcsum.trans (moved_of_unpackHomogeneousContig h)
    · exact hcsum.trans (moved_of_unpackGeneral h)
    · cases h

lemma Convertor.moved_skipCopies (conv : Convertor) (position : ℕ) :
    conv.Moved (conv.skipCopies position) := by
  rw [skipCopies]
  split
  · exact ⟨_, _, _, _, _, rfl⟩
  · exact .refl conv

lemma moved_of_genericSimplePosition {position : ℕ} {r : Convertor × ℤ}
    (h : genericSimplePosition fuel conv position = some r) : conv.Moved r.1 := by
  refine (conv.moved_skipCopies position).trans ?_
  rw [genericSimplePosition] at h
  obtain ⟨c, -, h⟩ := Option.bind_eq_some_iff.mp h
  split at h
  · dsimp only at h
    split_ifs at h
    all_goals
      obtain rfl := Option.some.inj h
      exact ⟨_, _, _, _, _, rfl⟩
  · obtain rfl := Option.some.inj h
    exact ⟨_, _, _, _, _, rfl⟩
  · cases h

lemma moved_of_setPositionNocheck {position : ℕ} {r : Convertor × ℕ × ℤ}
    (h : setPositionNocheck fuel conv position = some r) : conv.Moved r.1 := by
  rw [setPositionNocheck] at h
  dsimp only at h
  set conv₁ := if position = 0 ∨ position < conv.bConverted then conv.createStackAtBegining
    else conv with hconv₁
  have hmoved : conv.Moved conv₁ := by
    rw [hconv₁]
    split <;> exact ⟨_, _, _, _, _, rfl⟩
  refine hmoved.trans ?_
  split_ifs at h
  · obtain rfl := Option.some.inj h
    exact .refl conv₁
  · obtain rfl := Option.some.inj h
    exact ⟨_, _, _, _, _, rfl⟩
  · obtain ⟨⟨conv₂, rc⟩, hposition, h⟩ := Option.bind_eq_some_iff.mp h
    obtain rfl := Option.some.inj h
    refine (moved_of_genericSimplePosition hposition).trans ?_
    dsimp only
    split <;> exact ⟨_, _, _, _, _, rfl⟩

lemma moved_of_setPosition {position : ℕ} {r : Convertor × ℕ × ℤ}
    (h : setPosition fuel conv position = some r) : conv.Moved r.1 := by
  rw [setPosition] at h
  dsimp only at h
  split_ifs at h
  · obtain rfl := Option.some.inj h
    exact ⟨_, _, _, _, _, rfl⟩
  · obtain rfl := Option.some.inj h
    exact .refl conv
  · obtain rfl := Option.some.inj h
    exact ⟨_, _, _, _, _, rfl⟩
  · exact Convertor.Moved.trans ⟨_, _, _, _, _, rfl⟩ (moved_of_setPositionNocheck h)

/-- **A call changes the place only.** -/
lemma Convertor.moved_of_call {conv' : Convertor} {mem' : ℤ → Byte} {c : ConvertorCall}
    {o : CallOutcome} (h : conv.call chk fuel mem c = some (o, conv', mem')) :
    conv.Moved conv' := by
  cases c with
  | pack iov maxData =>
      obtain ⟨r, hcall, hr⟩ := Option.map_eq_some_iff.mp h
      obtain ⟨-, rfl, -⟩ := Prod.mk.injEq .. ▸ hr
      exact moved_of_convertorPack hcall
  | unpack iov =>
      obtain ⟨r, hcall, hr⟩ := Option.map_eq_some_iff.mp h
      obtain ⟨-, rfl, -⟩ := Prod.mk.injEq .. ▸ hr
      exact moved_of_convertorUnpack hcall
  | setPosition position =>
      obtain ⟨r, hcall, hr⟩ := Option.map_eq_some_iff.mp h
      obtain ⟨-, rfl, -⟩ := Prod.mk.injEq .. ▸ hr
      exact moved_of_setPosition hcall

end Moved

/-! ### The invariant of the reachable convertors -/

/-- Unless the convertor has nothing to move: where set position leaves `partial_length` as it is,
the convertor is `NO_OP` or moves runs of bytes. -/
structure Convertor.Guarded (conv : Convertor) : Prop where
  direct : conv.localSize ≠ 0 → conv.flags.withChecksum = false →
    conv.flags.datatype.noGaps = true →
    (conv.flags.send = true ∨ conv.flags.homogeneous = true) → conv.flags.noOp = true
  contiguous : conv.localSize ≠ 0 → conv.flags.datatype.contiguous = true →
    conv.flags.noOp = true ∨ conv.fAdvance ≠ .genericSimpleUnpack

section Guarded

variable {chk : Build} {fuel : ℕ} {conv conv' : Convertor}

lemma Convertor.Guarded.of_noOp (h : conv.flags.noOp = true) : conv.Guarded :=
  ⟨fun _ _ _ _ => h, fun _ _ => Or.inl h⟩

/-- The convertor that the preparation goes on with is not one of those that set position moves
directly. -/
structure Convertor.Provided (conv : Convertor) (data : Datatype) : Prop where
  datatype : conv.flags.datatype = data.flags
  pDesc : conv.pDesc = data
  direct : conv.flags.withChecksum = false → conv.flags.datatype.noGaps = true →
    ¬ (conv.flags.send = true ∨ conv.flags.homogeneous = true)

lemma Convertor.guarded_prepare (conv : Convertor) (datatype : Datatype) (count : ℕ)
    (pUserBuf : ℤ) :
    (∃ conv', conv.prepare datatype count pUserBuf = (false, conv') ∧ conv'.Guarded) ∨
      ∃ conv', conv.prepare datatype count pUserBuf = (true, conv') ∧ conv'.Provided datatype := by
  rw [prepare]
  by_cases hempty : count = 0 ∨ datatype.size = 0
  · rw [if_pos hempty]
    exact Or.inl ⟨_, rfl, fun h => absurd rfl h, fun h => absurd rfl h⟩
  · rw [if_neg hempty]
    dsimp only
    set conv₁ := conv.attach datatype count pUserBuf
    set conv₂ := conv₁.computeRemoteSize datatype
      fun t => datatype.bdtUsed t && conv₁.master.heteroMask t with hconv₂
    have hnoOp : conv₂.flags.noOp = true := by
      rw [hconv₂, computeRemoteSize]
      split <;> rfl
    have hkept : conv₂.flags.withChecksum = conv₁.flags.withChecksum ∧
        conv₂.flags.datatype = datatype.flags ∧ conv₂.pDesc = datatype := by
      rw [hconv₂, computeRemoteSize]
      split <;> exact ⟨rfl, rfl, rfl⟩
    split_ifs with hlocal hdirect
    · exact Or.inl ⟨conv₁, rfl, .of_noOp rfl⟩
    · exact Or.inl ⟨conv₂, rfl, .of_noOp hnoOp⟩
    · refine Or.inr ⟨_, rfl, hkept.2.1, hkept.2.2, fun hsum hgaps h => hdirect ⟨?_, h⟩⟩
      have hsum' : conv₁.flags.withChecksum = false := hkept.1.symm.trans hsum
      have hgaps' : datatype.flags.noGaps = true := by
        rw [← hkept.2.1]
        exact hgaps
      have hdata : conv₁.flags.datatype = datatype.flags := rfl
      rw [hsum', hdata, hgaps']
      rfl

lemma Convertor.guarded_prepareForSend (conv : Convertor) (datatype : Datatype) (count : ℕ)
    (pUserBuf : ℤ) : (conv.prepareForSend datatype count pUserBuf).Guarded := by
  rw [prepareForSend]
  rcases guarded_prepare { conv with flags := { conv.flags with send := true } } datatype count
    pUserBuf with ⟨conv', hprep, hg⟩ | ⟨conv', hprep, hp⟩
  · rw [hprep]
    exact hg
  · rw [hprep]
    refine ⟨fun _ hsum hgaps h => absurd h (hp.direct hsum hgaps), fun _ _ => Or.inr ?_⟩
    dsimp only
    split_ifs <;> exact Advance.noConfusion

lemma Convertor.guarded_prepareForRecv (conv : Convertor) (datatype : Datatype) (count : ℕ)
    (pUserBuf : ℤ) : (conv.prepareForRecv datatype count pUserBuf).Guarded := by
  rw [prepareForRecv]
  rcases guarded_prepare { conv with flags := { conv.flags with recv := true } } datatype count
    pUserBuf with ⟨conv', hprep, hg⟩ | ⟨conv', hprep, hp⟩
  · rw [hprep]
    exact hg
  · rw [hprep]
    refine ⟨fun _ hsum hgaps h => absurd h (hp.direct hsum hgaps), fun _ hcont => Or.inr ?_⟩
    have hdata : conv'.pDesc.flags.contiguous = true := by
      rw [hp.pDesc, ← hp.datatype]
      exact hcont
    dsimp only
    rw [hdata, if_pos rfl]
    split_ifs <;> exact Advance.noConfusion

lemma Convertor.Moved.guarded (h : conv.Moved conv') (hg : conv.Guarded) : conv'.Guarded := by
  obtain ⟨_, _, _, _, _, rfl⟩ := h
  exact ⟨hg.direct, hg.contiguous⟩

/-- **Every reachable convertor is guarded.** -/
lemma Convertor.Reachable.guarded (h : conv.Reachable chk fuel) : conv.Guarded := by
  induction h with
  | create remoteArch withChecksum => exact ⟨fun h => absurd rfl h, fun h => absurd rfl h⟩
  | prepareForSend datatype count pUserBuf _ _ =>
      exact guarded_prepareForSend _ datatype count pUserBuf
  | prepareForRecv datatype count pUserBuf _ _ =>
      exact guarded_prepareForRecv _ datatype count pUserBuf
  | call _ hcall ih => exact (moved_of_call hcall).guarded ih

end Guarded

/-! ### The simulation -/

/-- The convertors differ in the checksum and in `partial_length`. -/
def Convertor.Like (conv conv' : Convertor) : Prop :=
  ∃ csum partialLength, conv' = { conv with csum, partialLength }

/-- No call reads `partial_length` before it is set. -/
def Convertor.IgnoresPartial (conv : Convertor) : Prop :=
  conv.flags.completed = true ∨ conv.flags.noOp = true ∨ conv.fAdvance ≠ .genericSimpleUnpack

/-- The convertors differ in the checksum, and in a `partial_length` that is not read. -/
structure Convertor.Twin (conv conv' : Convertor) : Prop where
  like : conv.Like conv'
  partialLength : conv'.partialLength = conv.partialLength ∨ conv.IgnoresPartial

section WithPartial

variable (build : Build) (mem : ℤ → Byte) (n : ℕ)

/-- Another `partial_length`. -/
def Convertor.withPartial (conv : Convertor) : Convertor := { conv with partialLength := n }

/-- Another `partial_length` in the result of a pack call. -/
def PackResult.withPartial (r : PackResult) : PackResult := { r with conv := r.conv.withPartial n }

/-- Another `partial_length` in the result of an unpack call. -/
def UnpackResult.withPartial (r : UnpackResult) : UnpackResult :=
  { r with conv := r.conv.withPartial n }

lemma ite_eq_map {α β : Type} {c : Prop} [Decidable c] {f : α → β} {x y : Option β}
    {x' y' : Option α} (hx : x = x'.map f) (hy : y = y'.map f) :
    (if c then x else y) = (if c then x' else y').map f := by
  rw [apply_ite (Option.map f), hx, hy]

lemma Convertor.leave_withPartial (conv : Convertor) (c : Cursor) (total size : ℕ) (csum : Csum) :
    (conv.withPartial n).leave c total size csum
      = ((conv.leave c total size csum).1.withPartial n, (conv.leave c total size csum).2) := by
  by_cases h : conv.bConverted + total = size <;> simp [leave, withPartial, h]

lemma Convertor.finish_withPartial (conv : Convertor) :
    (conv.withPartial n).finish = (conv.finish.1.withPartial n, conv.finish.2) := by
  by_cases h : conv.bConverted = conv.localSize <;> simp [finish, withPartial, h]

lemma genericSimplePack_withPartial (fuel : ℕ) (conv : Convertor) (iov : List Iovec) :
    genericSimplePack build mem fuel (conv.withPartial n) iov
      = (genericSimplePack build mem fuel conv iov).map (PackResult.withPartial n) := by
  rw [genericSimplePack, genericSimplePack]
  have hload : (conv.withPartial n).load = conv.load := rfl
  rw [hload]
  cases conv.load with
  | none => rfl
  | some c =>
      simp only [Option.bind_eq_bind, Option.bind_some, Option.map_bind, Function.comp_def]
      refine Option.bind_congr fun w _ => ?_
      rw [Convertor.leave_withPartial]
      rfl

lemma PackResult.finish_withPartial {conv conv' : Convertor} (h : conv' = conv.withPartial n)
    (frags : List (List Byte)) (total : ℕ) :
    some (PackResult.mk conv'.finish.1 frags total conv'.finish.2)
      = (some (PackResult.mk conv.finish.1 frags total conv.finish.2)).map
          (PackResult.withPartial n) := by
  rw [h, Convertor.finish_withPartial]
  rfl

lemma packHomogeneousContig_withPartial (conv : Convertor) (iov : List Iovec) :
    packHomogeneousContig build mem (conv.withPartial n) iov
      = (packHomogeneousContig build mem conv iov).map (PackResult.withPartial n) := by
  rw [packHomogeneousContig, packHomogeneousContig, Option.bind_eq_bind, Option.map_bind]
  refine Option.bind_congr fun d _ => ?_
  have hstack : (conv.withPartial n).stack = conv.stack := rfl
  rw [hstack]
  dsimp only [Function.comp_apply]
  split
  · exact PackResult.finish_withPartial n (by rfl) _ _
  · rfl

lemma packHomogeneousContigWithGaps_withPartial (conv : Convertor) (iov : List Iovec)
    (maxData : ℕ) :
    packHomogeneousContigWithGaps build mem (conv.withPartial n) iov maxData
      = (packHomogeneousContigWithGaps build mem conv iov maxData).map
          (PackResult.withPartial n) := by
  rw [packHomogeneousContigWithGaps, packHomogeneousContigWithGaps, Option.bind_eq_bind,
    Option.map_bind]
  refine Option.bind_congr fun d _ => ?_
  have hstack : (conv.withPartial n).stack = conv.stack := rfl
  have hlocal : (conv.withPartial n).localSize = conv.localSize := rfl
  have hbconv : (conv.withPartial n).bConverted = conv.bConverted := rfl
  have hdesc : (conv.withPartial n).pDesc = conv.pDesc := rfl
  have hcount : (conv.withPartial n).count = conv.count := rfl
  simp only [Function.comp_apply, hstack, hlocal, hbconv, hdesc, hcount]
  split
  · split
    · exact PackResult.finish_withPartial n (by rfl) _ _
    · refine ite_eq_map (PackResult.finish_withPartial n (by rfl) _ _)
        (ite_eq_map rfl (ite_eq_map (PackResult.finish_withPartial n (by rfl) _ _) ?_))
      exact ite_eq_map rfl (PackResult.finish_withPartial n (by rfl) _ _)
  · rfl

lemma packNoOp_withPartial (conv : Convertor) (iov : List Iovec) :
    packNoOp mem (conv.withPartial n) iov = (packNoOp mem conv iov).withPartial n := by
  rw [packNoOp, packNoOp, apply_ite (PackResult.withPartial n)]
  rfl

/-- A pack call on a convertor that is not through, behind the reset of the checksum. -/
def packAdvance (chk : Build) (fuel : ℕ) (conv : Convertor) (iov : List Iovec) (maxData : ℕ) :
    Option PackResult :=
  let build := if conv.fAdvanceChecksum then chk else Build.plain
  if conv.flags.noOp then some (packNoOp mem conv iov)
  else match conv.fAdvance with
    | .genericSimplePack => genericSimplePack build mem fuel conv iov
    | .packHomogeneousContig => packHomogeneousContig build mem conv iov
    | .packHomogeneousContigWithGaps => packHomogeneousContigWithGaps build mem conv iov maxData
    | _ => none

lemma convertorPack_eq_packAdvance (chk : Build) (fuel : ℕ) {conv : Convertor}
    (h : conv.flags.completed = false) (iov : List Iovec) (maxData : ℕ) :
    convertorPack chk mem fuel conv iov maxData
      = packAdvance mem chk fuel { conv with csum := ⟨0, 0, 0⟩ } iov maxData := by
  rw [convertorPack, h]
  rfl

/-- **No pack call looks at `partial_length`.** -/
lemma packAdvance_withPartial (chk : Build) (fuel : ℕ) (conv : Convertor) (iov : List Iovec)
    (maxData : ℕ) :
    packAdvance mem chk fuel (conv.withPartial n) iov maxData
      = (packAdvance mem chk fuel conv iov maxData).map (PackResult.withPartial n) := by
  have hadvance : (conv.withPartial n).fAdvance = conv.fAdvance := rfl
  have hcheck : (conv.withPartial n).fAdvanceChecksum = conv.fAdvanceChecksum := rfl
  have hflags : (conv.withPartial n).flags = conv.flags := rfl
  rw [packAdvance, packAdvance]
  rw [hadvance, hcheck, hflags]
  refine ite_eq_map (congrArg some (packNoOp_withPartial mem n conv iov)) ?_
  cases conv.fAdvance with
  | genericSimplePack => exact genericSimplePack_withPartial _ mem n fuel conv iov
  | packHomogeneousContig => exact packHomogeneousContig_withPartial _ mem n conv iov
  | packHomogeneousContigWithGaps =>
      exact packHomogeneousContigWithGaps_withPartial _ mem n conv iov maxData
  | genericSimpleUnpack => rfl
  | unpackHomogeneousContig => rfl
  | unpackGeneral => rfl

lemma unpackHomogeneousContig_withPartial (conv : Convertor) (iov : List Fragment) :
    unpackHomogeneousContig build (conv.withPartial n) mem iov
      = (unpackHomogeneousContig build conv mem iov).map (UnpackResult.withPartial n) := by
  rw [unpackHomogeneousContig, unpackHomogeneousContig, Option.bind_eq_bind, Option.map_bind]
  refine Option.bind_congr fun d _ => ?_
  have hstack : (conv.withPartial n).stack = conv.stack := rfl
  rw [hstack]
  dsimp only [Function.comp_apply]
  split
  · have hfinish : ∀ {conv' conv'' : Convertor}, conv'' = conv'.withPartial n →
        ∀ (mem : ℤ → Byte) (lens : List ℕ) (total : ℕ),
          some (UnpackResult.mk conv''.finish.1 mem lens total conv''.finish.2)
            = (some (UnpackResult.mk conv'.finish.1 mem lens total conv'.finish.2)).map
                (UnpackResult.withPartial n) := by
      rintro conv' _ rfl mem lens total
      rw [Convertor.finish_withPartial]
      rfl
    exact hfinish (by rfl) _ _ _
  · rfl

lemma unpackNoOp_withPartial (conv : Convertor) (iov : List Fragment) :
    unpackNoOp (conv.withPartial n) mem iov = (unpackNoOp conv mem iov).withPartial n := by
  rw [unpackNoOp, unpackNoOp, apply_ite (UnpackResult.withPartial n)]
  rfl

lemma unpackGeneral_withPartial (fuel : ℕ) (conv : Convertor) (iov : List Fragment) :
    unpackGeneral fuel (conv.withPartial n) mem iov
      = (unpackGeneral fuel conv mem iov).map (UnpackResult.withPartial n) := by
  have hstack : (conv.withPartial n).stack = conv.stack := rfl
  rw [unpackGeneral, unpackGeneral, hstack]
  cases conv.stack with
  | nil => rfl
  | cons saved stack =>
      dsimp only
      rw [Option.bind_eq_bind, Option.map_bind]
      exact Option.bind_congr fun w _ => ite_eq_map rfl rfl

/-- An unpack call on a convertor that is not through, behind the reset of the checksum. -/
def unpackAdvance (chk : Build) (fuel : ℕ) (conv : Convertor) (iov : List Fragment) :
    Option UnpackResult :=
  let build := if conv.fAdvanceChecksum then chk else Build.plain
  if conv.flags.noOp then some (unpackNoOp conv mem iov)
  else match conv.fAdvance with
    | .genericSimpleUnpack => genericSimpleUnpack build fuel conv mem iov
    | .unpackHomogeneousContig => unpackHomogeneousContig build conv mem iov
    | .unpackGeneral => unpackGeneral fuel conv mem iov
    | _ => none

lemma convertorUnpack_eq_unpackAdvance (chk : Build) (fuel : ℕ) {conv : Convertor}
    (h : conv.flags.completed = false) (iov : List Fragment) :
    convertorUnpack chk fuel conv mem iov
      = unpackAdvance mem chk fuel { conv with csum := ⟨0, 0, 0⟩ } iov := by
  rw [convertorUnpack, h]
  rfl

/-- **Nor does an unpack call**, but that of `ocoms_generic_simple_unpack`. -/
lemma unpackAdvance_withPartial (chk : Build) (fuel : ℕ) {conv : Convertor}
    (h : conv.flags.noOp = true ∨ conv.fAdvance ≠ .genericSimpleUnpack) (iov : List Fragment) :
    unpackAdvance mem chk fuel (conv.withPartial n) iov
      = (unpackAdvance mem chk fuel conv iov).map (UnpackResult.withPartial n) := by
  have hadvance : (conv.withPartial n).fAdvance = conv.fAdvance := rfl
  have hcheck : (conv.withPartial n).fAdvanceChecksum = conv.fAdvanceChecksum := rfl
  have hflags : (conv.withPartial n).flags = conv.flags := rfl
  rw [unpackAdvance, unpackAdvance]
  rw [hadvance, hcheck, hflags]
  by_cases hno : conv.flags.noOp = true
  · rw [if_pos hno, if_pos hno]
    exact congrArg some (unpackNoOp_withPartial mem n conv iov)
  · rw [if_neg hno, if_neg hno]
    cases hadv : conv.fAdvance with
    | genericSimpleUnpack => exact absurd hadv (h.resolve_left hno)
    | unpackHomogeneousContig => exact unpackHomogeneousContig_withPartial _ mem n conv iov
    | unpackGeneral => exact unpackGeneral_withPartial mem n fuel conv iov
    | genericSimplePack => rfl
    | packHomogeneousContig => rfl
    | packHomogeneousContigWithGaps => rfl

end WithPartial

section Twin

variable {chk : Build} {fuel : ℕ} {mem mem' : ℤ → Byte} {conv conv' conv₁ : Convertor}

lemma Convertor.Twin.symm (h : conv.Twin conv') : conv'.Twin conv := by
  obtain ⟨⟨csum, partialLength, rfl⟩, hplen⟩ := h
  exact ⟨⟨conv.csum, conv.partialLength, rfl⟩, hplen.imp Eq.symm id⟩

lemma Convertor.Moved.flags_noOp (h : conv.Moved conv') : conv'.flags.noOp = conv.flags.noOp := by
  obtain ⟨_, _, _, _, _, rfl⟩ := h
  rfl

/-- A pack call on both. -/
lemma Convertor.Twin.pack (h : conv.Twin conv') {iov : List Iovec} {maxData : ℕ} {r : PackResult}
    (hcall : convertorPack chk mem fuel conv iov maxData = some r) :
    ∃ c, convertorPack chk mem fuel conv' iov maxData = some { r with conv := c } ∧
      r.conv.Twin c := by
  obtain ⟨⟨csum, n, rfl⟩, hplen⟩ := h
  cases hcomp : conv.flags.completed with
  | true =>
      rw [convertorPack, if_pos hcomp] at hcall
      obtain rfl := Option.some.inj hcall
      refine ⟨_, by rw [convertorPack, if_pos hcomp], ⟨csum, n, rfl⟩, hplen⟩
  | false =>
      have hmoved := moved_of_convertorPack hcall
      rw [convertorPack_eq_packAdvance _ _ _ hcomp] at hcall
      have hsame := packAdvance_withPartial mem conv.partialLength chk fuel
        { conv with csum := ⟨0, 0, 0⟩ } iov maxData
      have hother := packAdvance_withPartial mem n chk fuel
        { conv with csum := ⟨0, 0, 0⟩ } iov maxData
      rw [hcall] at hother
      refine ⟨r.conv.withPartial n, ?_, ⟨r.conv.csum, n, rfl⟩, ?_⟩
      · rw [convertorPack_eq_packAdvance]
        · exact hother
        · exact hcomp
      · have hkept : r = r.withPartial conv.partialLength :=
          Option.some.inj (hcall.symm.trans (hsame.trans (by rw [hcall]; rfl)))
        rcases hplen with heq | hdone | hno | hadv
        · exact Or.inl (heq.trans (congrArg (fun r => r.conv.partialLength) hkept).symm)
        · rw [hcomp] at hdone
          cases hdone
        · exact Or.inr (Or.inr (Or.inl (hmoved.flags_noOp.trans hno)))
        · exact Or.inr (Or.inr (Or.inr (hmoved.fAdvance ▸ hadv)))

/-- An unpack call on both. -/
lemma Convertor.Twin.unpack (h : conv.Twin conv') {iov : List Fragment} {r : UnpackResult}
    (hcall : convertorUnpack chk fuel conv mem iov = some r) :
    ∃ c, convertorUnpack chk fuel conv' mem iov = some { r with conv := c } ∧
      r.conv.Twin c := by
  obtain ⟨⟨csum, n, rfl⟩, hplen⟩ := h
  cases hcomp : conv.flags.completed with
  | true =>
      rw [convertorUnpack, if_pos hcomp] at hcall
      obtain rfl := Option.some.inj hcall
      refine ⟨_, by rw [convertorUnpack, if_pos hcomp], ⟨csum, n, rfl⟩, hplen⟩
  | false =>
      have hmoved := moved_of_convertorUnpack hcall
      rw [convertorUnpack_eq_unpackAdvance _ _ _ hcomp] at hcall
      rcases hplen with rfl | hdone | hignores
      · refine ⟨r.conv, ?_, ⟨r.conv.csum, r.conv.partialLength, rfl⟩, Or.inl rfl⟩
        rw [convertorUnpack_eq_unpackAdvance]
        · exact hcall
        · exact hcomp
      · rw [hcomp] at hdone
        cases hdone
      · have hother : unpackAdvance mem chk fuel
            (({ conv with csum := ⟨0, 0, 0⟩ } : Convertor).withPartial n) iov = _ :=
          unpackAdvance_withPartial mem n chk fuel (by exact hignores) iov
        rw [hcall] at hother
        refine ⟨r.conv.withPartial n, ?_, ⟨r.conv.csum, n, rfl⟩, Or.inr (Or.inr ?_)⟩
        · rw [convertorUnpack_eq_unpackAdvance]
          · exact hother
          · exact hcomp
        · exact hignores.imp hmoved.flags_noOp.trans fun hadv => hmoved.fAdvance ▸ hadv

lemma Convertor.skipCopies_like (csum : Csum) (n position : ℕ) :
    ({ conv with csum, partialLength := n } : Convertor).skipCopies position
      = { conv.skipCopies position with csum, partialLength := n } := by
  rw [skipCopies, skipCopies]
  split <;> rfl

/-- The generic position function sets `partial_length` without reading it. -/
lemma genericSimplePosition_like (csum : Csum) (n position : ℕ) :
    genericSimplePosition fuel { conv with csum, partialLength := n } position
      = (genericSimplePosition fuel conv position).map fun r => ({ r.1 with csum }, r.2) := by
  rw [genericSimplePosition, genericSimplePosition, Convertor.skipCopies_like,
    Option.bind_eq_bind, Option.map_bind]
  refine Option.bind_congr fun c _ => ?_
  dsimp only [Function.comp_apply]
  split
  · exact ite_eq_map rfl rfl
  · rfl
  · rfl

/-- A set position call on both, when both start at the same place. -/
lemma Convertor.Like.setPositionNocheck (h : conv.Like conv')
    (hcont : conv.flags.datatype.contiguous = true →
      conv.flags.noOp = true ∨ conv.fAdvance ≠ .genericSimpleUnpack) {position : ℕ}
    {r : Convertor × ℕ × ℤ} (hcall : Ocoms.setPositionNocheck fuel conv position = some r) :
    ∃ c, Ocoms.setPositionNocheck fuel conv' position = some (c, r.2) ∧ r.1.Twin c := by
  obtain ⟨csum, n, rfl⟩ := h
  rw [Ocoms.setPositionNocheck] at hcall ⊢
  obtain ⟨c, hc⟩ : ∃ c, c = if position = 0 ∨ position < conv.bConverted then
      conv.createStackAtBegining else conv := ⟨_, rfl⟩
  obtain ⟨c', hc'⟩ : ∃ c', c' = if position = 0 ∨ position < conv.bConverted then
      ({ conv with csum, partialLength := n } : Convertor).createStackAtBegining
      else { conv with csum, partialLength := n } := ⟨_, rfl⟩
  have hlike : ∃ m, c' = { c with csum, partialLength := m } ∧
      (position = 0 → m = c.partialLength) := by
    by_cases hback : position = 0 ∨ position < conv.bConverted
    · rw [if_pos hback] at hc hc'
      exact ⟨0, by rw [hc, hc']; rfl, fun _ => by rw [hc]; rfl⟩
    · rw [if_neg hback] at hc hc'
      exact ⟨n, by rw [hc, hc'], fun hzero => absurd (Or.inl hzero) hback⟩
  have hkept : c.flags = conv.flags ∧ c.fAdvance = conv.fAdvance := by
    rw [hc]
    split <;> exact ⟨rfl, rfl⟩
  dsimp only at hcall ⊢
  rw [← hc] at hcall
  rw [← hc']
  obtain ⟨m, rfl, hm⟩ := hlike
  by_cases hzero : position = 0
  · rw [if_pos hzero] at hcall ⊢
    obtain rfl := Option.some.inj hcall
    exact ⟨_, rfl, ⟨csum, m, rfl⟩, Or.inl (hm hzero)⟩
  rw [if_neg hzero] at hcall ⊢
  by_cases hdata : c.flags.datatype.contiguous = true
  · rw [if_pos hdata] at hcall ⊢
    obtain rfl := Option.some.inj hcall
    refine ⟨_, rfl, ⟨csum, m, rfl⟩, Or.inr (Or.inr ?_)⟩
    have hignores := hcont (hkept.1 ▸ hdata)
    rw [← hkept.1, ← hkept.2] at hignores
    exact hignores
  · rw [if_neg hdata] at hcall ⊢
    obtain ⟨⟨c₁, rc⟩, hposition, hcall⟩ := Option.bind_eq_some_iff.mp hcall
    obtain rfl := Option.some.inj hcall
    rw [genericSimplePosition_like, hposition]
    by_cases hsend : c₁.flags.send = true
    · simp only [Option.map_some, Option.bind_eq_bind, Option.bind_some, hsend, if_true]
      exact ⟨_, rfl, ⟨csum, 0, rfl⟩, Or.inl rfl⟩
    · simp only [Option.map_some, Option.bind_eq_bind, Option.bind_some, hsend]
      exact ⟨_, rfl, ⟨csum, c₁.partialLength, rfl⟩, Or.inl rfl⟩

/-- A set position call on both. -/
lemma Convertor.Twin.setPosition (h : conv.Twin conv') (hg : conv.Guarded) {position : ℕ}
    {r : Convertor × ℕ × ℤ} (hcall : Ocoms.setPosition fuel conv position = some r) :
    ∃ c, Ocoms.setPosition fuel conv' position = some (c, r.2) ∧ r.1.Twin c := by
  obtain ⟨⟨csum, n, rfl⟩, hplen⟩ := h
  rw [Ocoms.setPosition] at hcall ⊢
  dsimp only at hcall ⊢
  by_cases hle : conv.localSize ≤ position
  · rw [if_pos hle] at hcall ⊢
    obtain rfl := Option.some.inj hcall
    exact ⟨_, rfl, ⟨csum, n, rfl⟩, Or.inr (Or.inl rfl)⟩
  rw [if_neg hle] at hcall ⊢
  by_cases heq : position = conv.bConverted
  · rw [if_pos heq] at hcall ⊢
    obtain rfl := Option.some.inj hcall
    exact ⟨_, rfl, ⟨csum, n, rfl⟩, hplen⟩
  rw [if_neg heq] at hcall ⊢
  have hlocal : conv.localSize ≠ 0 := by omega
  by_cases hdirect : conv.flags.withChecksum = false ∧ conv.flags.datatype.noGaps = true ∧
      (conv.flags.send = true ∨ conv.flags.homogeneous = true)
  · rw [if_pos hdirect] at hcall ⊢
    obtain rfl := Option.some.inj hcall
    have hno := hg.direct hlocal hdirect.1 hdirect.2.1 hdirect.2.2
    exact ⟨_, rfl, ⟨csum, n, rfl⟩, Or.inr (Or.inr (Or.inl hno))⟩
  · rw [if_neg hdirect] at hcall ⊢
    have hlike : Convertor.Like { conv with flags := { conv.flags with completed := false } }
        { conv with csum, partialLength := n, flags := { conv.flags with completed := false } } :=
      ⟨csum, n, rfl⟩
    exact hlike.setPositionNocheck (hg.contiguous hlocal) hcall

/-- **The simulation**: every call has the same outcome on both. -/
lemma Convertor.Twin.call (h : conv.Twin conv') (hg : conv.Guarded) {c : ConvertorCall}
    {o : CallOutcome} (hcall : conv.call chk fuel mem c = some (o, conv₁, mem')) :
    ∃ conv₁', conv'.call chk fuel mem c = some (o, conv₁', mem') ∧ conv₁.Twin conv₁' := by
  cases c with
  | pack iov maxData =>
      obtain ⟨r, hr, hout⟩ := Option.map_eq_some_iff.mp hcall
      obtain ⟨rfl, rfl, rfl⟩ := Prod.mk.injEq .. ▸ hout
      obtain ⟨c, hc, htwin⟩ := h.pack hr
      exact ⟨c, by rw [Convertor.call, hc]; rfl, htwin⟩
  | unpack iov =>
      obtain ⟨r, hr, hout⟩ := Option.map_eq_some_iff.mp hcall
      obtain ⟨rfl, rfl, rfl⟩ := Prod.mk.injEq .. ▸ hout
      obtain ⟨c, hc, htwin⟩ := h.unpack hr
      exact ⟨c, by rw [Convertor.call, hc]; rfl, htwin⟩
  | setPosition position =>
      obtain ⟨r, hr, hout⟩ := Option.map_eq_some_iff.mp hcall
      obtain ⟨rfl, rfl, rfl⟩ := Prod.mk.injEq .. ▸ hout
      obtain ⟨c, hc, htwin⟩ := h.setPosition hg hr
      exact ⟨c, by rw [Convertor.call, hc]; rfl, htwin⟩

/-- What one of the two runs gives, the other gives as well. -/
lemma Convertor.Twin.calls_of_some (h : conv.Twin conv') (hg : conv.Guarded)
    {cs : List ConvertorCall} {out : List CallOutcome × (ℤ → Byte)}
    (hcalls : conv.calls chk fuel mem cs = some out) :
    conv'.calls chk fuel mem cs = some out := by
  induction cs generalizing conv conv' mem out with
  | nil => exact hcalls
  | cons c cs ih =>
      obtain ⟨⟨o, conv₁, mem₁⟩, hcall, hcalls⟩ := Option.bind_eq_some_iff.mp hcalls
      obtain ⟨rs, hrs, rfl⟩ := Option.map_eq_some_iff.mp hcalls
      obtain ⟨conv₁', hcall', htwin⟩ := h.call hg hcall
      have hrest := ih htwin ((moved_of_call hcall).guarded hg) hrs
      rw [Convertor.calls, hcall', Option.bind_some]
      dsimp only at hrest ⊢
      rw [hrest]
      rfl

/-- **Twins have the same runs.** -/
lemma Convertor.Twin.calls (h : conv.Twin conv') (hg : conv.Guarded) (mem : ℤ → Byte)
    (cs : List ConvertorCall) :
    conv'.calls chk fuel mem cs = conv.calls chk fuel mem cs := by
  have hg' : conv'.Guarded := by
    obtain ⟨⟨_, _, rfl⟩, -⟩ := h
    exact ⟨hg.direct, hg.contiguous⟩
  refine Option.ext fun out => ⟨fun hout => ?_, fun hout => ?_⟩
  · exact h.symm.calls_of_some hg' hout
  · exact h.calls_of_some hg hout

end Twin

/-! ### Clones -/

/-- **A clone continues like its source**, for every sequence of pack, unpack and set position
calls, if the source has no part of an element, or will not ask for it. -/
theorem clone_calls {chk : Build} {fuel : ℕ} {source destination : Convertor}
    (h : source.Reachable chk fuel) (hfresh : destination.partialLength = 0)
    (hplen : source.partialLength = 0 ∨ source.IgnoresPartial) {copyStack : ℤ}
    (hcopy : copyStack ≠ 0) (mem : ℤ → Byte) (cs : List ConvertorCall) :
    (source.clone destination copyStack).calls chk fuel mem cs
      = source.calls chk fuel mem cs := by
  have hclone : source.clone destination copyStack
      = { source with csum := destination.csum, partialLength := destination.partialLength } := by
    rw [Convertor.clone, if_neg hcopy, if_neg hcopy]
  have htwin : source.Twin (source.clone destination copyStack) := by
    refine ⟨⟨_, _, hclone⟩, hplen.imp (fun hzero => ?_) id⟩
    rw [hclone, hzero, hfresh]
  exact htwin.calls h.guarded mem cs

/-- A receive convertor for an `INT4` and an `INT8` behind a gap. -/
def int4AndInt8Recv (datatype : Datatype) : Convertor :=
  ({ Convertor.create localArch with
    flags := { (Convertor.create localArch).flags with withChecksum := false } } :
    Convertor).prepareForRecv datatype 1 0

lemma reachable_int4AndInt8Recv {chk : Build} {fuel : ℕ} (datatype : Datatype) :
    (int4AndInt8Recv datatype).Reachable chk fuel :=
  .prepareForRecv datatype 1 0 (.create localArch false)

/-- A clone at the end of the `INT4`. -/
theorem clone_calls_int4AndInt8 :
    ∃ dt r, int4AndInt8.commit = some dt ∧
      (int4AndInt8Recv dt).call .plain 20 (fun _ => 0) (.unpack [⟨4096, [1, 2, 3, 4]⟩]) = some r ∧
      (r.2.1.clone .construct 1).calls .plain 20 r.2.2 [.unpack [⟨8192, [5, 6]⟩], .setPosition 6]
        = r.2.1.calls .plain 20 r.2.2 [.unpack [⟨8192, [5, 6]⟩], .setPosition 6] := by
  obtain ⟨dt, hcommit, r, hcall, hplen⟩ : ∃ dt, int4AndInt8.commit = some dt ∧
      ∃ r, (int4AndInt8Recv dt).call .plain 20 (fun _ => 0) (.unpack [⟨4096, [1, 2, 3, 4]⟩])
        = some r ∧ r.2.1.partialLength = 0 := ⟨_, rfl, _, rfl, rfl⟩
  exact ⟨dt, r, hcommit, hcall, clone_calls (.call (reachable_int4AndInt8Recv dt) hcall) rfl
    (Or.inl hplen) (by decide) r.2.2 _⟩

/-- A clone inside the `INT4`: the third byte goes to the place of the first. -/
theorem clone_int4AndInt8_fails :
    ∃ dt r, int4AndInt8.commit = some dt ∧
      (int4AndInt8Recv dt).call .plain 20 (fun _ => 0) (.unpack [⟨4096, [1, 2]⟩]) = some r ∧
      r.2.1.Reachable .plain 20 ∧
      ((r.2.1.calls .plain 20 r.2.2 [.unpack [⟨8192, [3, 4]⟩]]).map
        fun out => [0, 1, 2, 3].map out.2) = some [1, 2, 3, 4] ∧
      (((r.2.1.clone .construct 1).calls .plain 20 r.2.2 [.unpack [⟨8192, [3, 4]⟩]]).map
        fun out => [0, 1, 2, 3].map out.2) = some [3, 4, 0, 0] := by
  have hrun : (int4AndInt8.commit.bind fun dt =>
      ((int4AndInt8Recv dt).call .plain 20 (fun _ => 0) (.unpack [⟨4096, [1, 2]⟩])).map fun r =>
        decide (((r.2.1.calls .plain 20 r.2.2 [.unpack [⟨8192, [3, 4]⟩]]).map
            fun out => [0, 1, 2, 3].map out.2) = some [1, 2, 3, 4] ∧
          (((r.2.1.clone .construct 1).calls .plain 20 r.2.2 [.unpack [⟨8192, [3, 4]⟩]]).map
            fun out => [0, 1, 2, 3].map out.2) = some [3, 4, 0, 0])) = some true := by
    decide +kernel
  obtain ⟨dt, hcommit, hrun⟩ := Option.bind_eq_some_iff.mp hrun
  obtain ⟨r, hcall, hrun⟩ := Option.map_eq_some_iff.mp hrun
  obtain ⟨hsource, hclone⟩ := of_decide_eq_true hrun
  exact ⟨dt, r, hcommit, hcall, .call (reachable_int4AndInt8Recv dt) hcall, hsource, hclone⟩

end Ocoms
