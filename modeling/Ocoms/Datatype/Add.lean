import Ocoms.Datatype.Nest

/-!
Building datatypes: `ocoms_datatype_create.c`, `ocoms_datatype_add.c` and
`ocoms_datatype_resize.c`.

* `Datatype.create`, `Datatype.add` and `Datatype.resize` are the three operations. An addition
  is cut where the source returns early: `addLb` and `addUb` for the markers, `addBounds` for
  what happens even when there is nothing to add, `addData` for the rest.
-/

namespace Ocoms

open Layout

/-! ### Creating and resizing -/

/-- `DT_INCREASE_STACK`. -/
def dtIncreaseStack : ℕ := 8

/-- `MAX_DT_COMPONENT_COUNT`. -/
def maxDtComponentCount : ℕ := 2 ^ 32 - 1

/-- `ocoms_datatype_create`; `none` stands for the expected size `-1`. -/
def Datatype.create (expectedSize : Option ℕ) : Datatype where
  flags := { contiguous := true }
  id := .loop
  bdtUsed := fun _ => false
  size := 0
  trueLb := longMax
  trueUb := longMin
  lb := longMax
  ub := longMin
  align := 1
  nbElems := 0
  desc := { length := expectedSize.getD dtIncreaseStack + 1, used := 0, desc := [] }
  optDesc := .null
  btypes := fun _ => 0

/-- `ocoms_datatype_resize`. -/
def Datatype.resize (type : Datatype) (lb extent : ℤ) : Datatype :=
  { type with
    lb
    ub := lb + extent
    flags := { type.flags with noGaps := extent = type.size ∧ type.flags.contiguous = true } }

/-! ### Adding -/

/-- `GET_FIRST_NON_LOOP`. -/
def getFirstNonLoop : List DtElemDesc → ℕ
  | .loop _ :: desc => getFirstNonLoop desc + 1
  | _ => 0

/-- `OCOMS_DATATYPE_COMPUTE_REQUIRED_ENTRIES`. `none` is the return with `OCOMS_ERROR`. -/
def requiredEntries (pdtAdd : Datatype) (count : ℕ) (extent : ℤ) : Option ℕ :=
  if pdtAdd.flags.predefined then some (if extent = pdtAdd.size then 1 else 3)
  else if count = 1 then some pdtAdd.desc.used
  else if pdtAdd.desc.used < maxDtComponentCount - 2 then some (pdtAdd.desc.used + 2)
  else none

/-- `OCOMS_DATATYPE_LB_UB_CONT`. -/
def lbUbCont (count : ℕ) (disp oldLb oldUb oldExtent : ℤ) : ℤ × ℤ :=
  if count = 0 then (oldLb + disp, oldUb + disp)
  else
    let upper := disp + oldExtent * (count - 1)
    let lower := disp
    if lower < upper then (lower + oldLb, upper + oldUb) else (upper + oldLb, lower + oldUb)

/-- `NO_GAPS` is taken back when the markers moved. -/
def Datatype.recheckGaps (dt : Datatype) : Datatype :=
  if dt.ub - dt.lb ≠ dt.size then { dt with flags := { dt.flags with noGaps := false } } else dt

/-- The addition of an `LB` marker. -/
def Datatype.addLb (pdtBase : Datatype) (disp : ℤ) : Datatype :=
  { pdtBase with
    bdtUsed := fun t => t = .lb || pdtBase.bdtUsed t
    lb := if pdtBase.flags.userLb then min pdtBase.lb disp else disp
    flags := { pdtBase.flags with userLb := true } : Datatype }.recheckGaps

/-- The addition of a `UB` marker. -/
def Datatype.addUb (pdtBase : Datatype) (disp : ℤ) : Datatype :=
  { pdtBase with
    bdtUsed := fun t => t = .ub || pdtBase.bdtUsed t
    ub := if pdtBase.flags.userUb then max pdtBase.ub disp else disp
    flags := { pdtBase.flags with userUb := true } : Datatype }.recheckGaps

/-- The new bounds, and the alignment. A bound that a user has set on one side only is inherited;
without a user `ub` the extent is rounded up to the alignment. -/
def Datatype.addBounds (pdtBase pdtAdd : Datatype) (count : ℕ) (disp extent : ℤ) : Datatype :=
  let (lb, ub) := lbUbCont count disp pdtAdd.lb pdtAdd.ub extent
  let lb :=
    if pdtAdd.flags.userLb ≠ pdtBase.flags.userLb then
      if pdtBase.flags.userLb then pdtBase.lb else lb
    else min pdtBase.lb lb
  let ub :=
    if pdtBase.flags.userUb ≠ pdtAdd.flags.userUb then
      if pdtBase.flags.userUb then pdtBase.ub else ub
    else max pdtBase.ub ub
  let align := max pdtBase.align pdtAdd.align
  let userUb := pdtBase.flags.userUb || pdtAdd.flags.userUb
  let epsilon := (ub - lb).tmod align
  { pdtBase with
    lb
    ub := if !userUb ∧ epsilon ≠ 0 then ub + (align - epsilon) else ub
    align
    flags := { pdtBase.flags with
      userLb := pdtBase.flags.userLb || pdtAdd.flags.userLb, userUb, data := true } }

/-- `true_lb` and `true_ub` of the added copies. -/
def addTrueBounds (pdtAdd : Datatype) (count : ℕ) (disp extent : ℤ) : ℤ × ℤ :=
  let (lb, ub) := lbUbCont count disp pdtAdd.lb pdtAdd.ub extent
  let trueLb := lb - (pdtAdd.lb - pdtAdd.trueLb)
  let trueUb := ub - (pdtAdd.ub - pdtAdd.trueUb)
  if trueUb < trueLb then (trueUb, trueLb) else (trueLb, trueUb)

/-- The entries for copies of a predefined type: a loop when there are gaps around them. -/
def predefinedEntries (pdtAdd : Datatype) (count : ℕ) (disp extent : ℤ) : List DtElemDesc :=
  if extent ≠ pdtAdd.size ∧ 1 < count then
    let localFlags := { pdtAdd.flags with commited := false, contiguous := false, noGaps := false }
    [createLoopStart count 2 extent localFlags,
      .elem { flags := { localFlags with contiguous := true }, type := pdtAdd.id, count := 1,
              disp, extent := pdtAdd.size },
      createLoopEnd 2 disp pdtAdd.size localFlags]
  else
    [.elem { flags := { pdtAdd.flags with commited := false }, type := pdtAdd.id, count, disp,
             extent }]

/-- An entry of the added description, moved by `disp`. -/
def DtElemDesc.moved (disp : ℤ) : DtElemDesc → DtElemDesc
  | elem e => elem (if e.flags.data then { e with disp := e.disp + disp } else e)
  | loop l => loop l
  | endLoop e => endLoop { e with firstElemDisp := e.firstElemDisp + disp }

/-- The entry that stands for all copies of a description of one entry. -/
def mergedEntry (pdtAdd : Datatype) (count : ℕ) (disp extent : ℤ) : Option DtElemDesc :=
  match pdtAdd.desc.desc.take pdtAdd.desc.used with
  | [.elem e] =>
      if extent = pdtAdd.ub - pdtAdd.lb ∧ extent = e.extent then
        some (.elem { e with count := e.count * count, disp := e.disp + disp })
      else none
  | _ => none

/-- The entries for copies of a derived type: its own, in a loop unless there is one copy. -/
def derivedEntries (pdtAdd : Datatype) (count : ℕ) (disp extent : ℤ) : List DtElemDesc :=
  let copied := (pdtAdd.desc.desc.take pdtAdd.desc.used).map (DtElemDesc.moved disp)
  if count ≠ 1 then
    let flags := { pdtAdd.flags with commited := false }
    let firstElemDisp := (copied[getFirstNonLoop copied]?.map DtElemDesc.disp).getD 0
    createLoopStart count (pdtAdd.desc.used + 1) extent flags ::
      (copied ++ [createLoopEnd (pdtAdd.desc.used + 1) firstElemDisp pdtAdd.size flags])
  else copied

/-- The new entries, and the new `btypes`. -/
def addEntries (pdtBase pdtAdd : Datatype) (count : ℕ) (disp extent : ℤ) :
    List DtElemDesc × (TypeId → ℕ) :=
  if pdtAdd.flags.predefined ∧ pdtAdd.flags.data then
    let btypes := fun t =>
      if t = pdtAdd.id then pdtBase.btypes t + count else pdtBase.btypes t
    let looped := extent ≠ pdtAdd.size ∧ 1 < count
    (predefinedEntries pdtAdd count disp extent,
      fun t => if looped ∧ (t = .loop ∨ t = .endLoop) then 1 else btypes t)
  else
    let btypes := fun
      | .loop => pdtBase.btypes .loop + pdtAdd.btypes .loop
      | .endLoop => pdtBase.btypes .endLoop + pdtAdd.btypes .endLoop
      | .lb => pdtBase.btypes .lb ||| pdtAdd.btypes .lb
      | .ub => pdtBase.btypes .ub ||| pdtAdd.btypes .ub
      | t => pdtBase.btypes t + count * pdtAdd.btypes t
    match mergedEntry pdtAdd count disp extent with
    | some e => ([e], btypes)
    | none =>
        (derivedEntries pdtAdd count disp extent,
          fun t => if count ≠ 1 ∧ t = .loop then btypes t + 2 else btypes t)

/-- The length of the description with room for `placeNeeded` more entries. `newLength` is a
`uint32_t`. -/
def grownLength (length used placeNeeded : ℕ) : ℕ :=
  let newLength := (used + placeNeeded) % 2 ^ 32
  if length < newLength then (newLength / dtIncreaseStack + 1) * dtIncreaseStack % 2 ^ 32
  else length

/-- `ocoms_datatype_add` once there is something to add and the bounds are updated. -/
def Datatype.addData (pdtBase pdtAdd : Datatype) (count : ℕ) (disp extent : ℤ)
    (placeNeeded : ℕ) : Datatype :=
  let (trueLb, trueUb) := addTrueBounds pdtAdd count disp extent
  let size := pdtBase.size + count * pdtAdd.size
  let oldTrueUb := if pdtBase.nbElems = 0 then disp else pdtBase.trueUb
  let (entries, btypes) := addEntries pdtBase pdtAdd count disp extent
  let contiguous := (pdtBase.flags.contiguous && pdtAdd.flags.contiguous) = true ∧
    disp + pdtAdd.trueLb = oldTrueUb ∧ (pdtAdd.size = extent ∨ count < 2)
  { pdtBase with
    size
    trueLb := if size ≠ 0 then min trueLb pdtBase.trueLb else trueLb
    trueUb := if size ≠ 0 then max trueUb pdtBase.trueUb else trueUb
    bdtUsed := fun t => pdtBase.bdtUsed t || pdtAdd.bdtUsed t
    desc :=
      { length := grownLength pdtBase.desc.length pdtBase.desc.used placeNeeded
        used := pdtBase.desc.used + entries.length
        desc := pdtBase.desc.desc.take pdtBase.desc.used ++ entries }
    btypes
    flags := { pdtBase.flags with
      contiguous := contiguous
      noGaps := contiguous ∧ size = pdtBase.ub - pdtBase.lb }
    nbElems := pdtBase.nbElems + count * pdtAdd.nbElems }

/-- The extent of an addition: `-1` stands for the one of the added type. -/
def addExtent (pdtAdd : Datatype) (extent : ℤ) : ℤ :=
  if extent = -1 then pdtAdd.ub - pdtAdd.lb else extent

/-- `ocoms_datatype_add`. `none` is the return with `OCOMS_ERROR`, which leaves the base as it
is. -/
def Datatype.add (pdtBase pdtAdd : Datatype) (count : ℕ) (disp extent : ℤ) : Option Datatype :=
  let extent := addExtent pdtAdd extent
  if pdtAdd.id = .lb then some (pdtBase.addLb disp)
  else if pdtAdd.id = .ub then some (pdtBase.addUb disp)
  else match requiredEntries pdtAdd count extent with
    | none => none
    | some placeNeeded =>
        let pdtBase := pdtBase.addBounds pdtAdd count disp extent
        if count = 0 ∨ pdtAdd.size = 0 then some pdtBase
        else some (pdtBase.addData pdtAdd count disp extent placeNeeded)

end Ocoms
