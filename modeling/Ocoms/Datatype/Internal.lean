import Ocoms.Lib.Layout

/-!
The data of the datatype engine: `ocoms_datatype.h` and `ocoms_datatype_internal.h`.

* `TypeId` are the ids of the predefined types in id order, `basicSize` and `basicAlign` their
  sizes and alignments on the LP64 ABI of x86-64 Linux, where a type the compiler does not have
  (`int128_t`, 2 and 12 byte floats) is unavailable and has size `0`.
* `DtElemDesc` is `union dt_elem_desc`, tagged by the type field of its members:
  `ElemDesc`, `LoopDesc`, `EndLoopDesc`. `DtElemDesc.count` and `DtElemDesc.disp` are the fields
  `elem.count` and `elem.disp` with what they overlay in the other two.
* `Datatype` is `ocoms_datatype_t`; `predefined` and `emptyDatatype` are its static instances.

Lengths, counts and displacements are unbounded: the sizes of one datatype and of its copies are
assumed to fit the C types. The fields `blocklen` and `unused`, which no function reads, are left
out, and so are the reference count and the name.
-/

namespace Ocoms

/-! ### Type ids and flags -/

/-- The type ids, in id order: `OCOMS_DATATYPE_LOOP` is `0`, `OCOMS_DATATYPE_UNAVAILABLE` is
`24`. -/
inductive TypeId
  | loop | endLoop | lb | ub
  | int1 | int2 | int4 | int8 | int16
  | uint1 | uint2 | uint4 | uint8 | uint16
  | float2 | float4 | float8 | float12 | float16
  | floatComplex | doubleComplex | longDoubleComplex
  | bool | wchar | unavailable
  deriving DecidableEq, Repr

namespace TypeId

/-- The numeric id. -/
def toNat : TypeId → ℕ
  | loop => 0 | endLoop => 1 | lb => 2 | ub => 3
  | int1 => 4 | int2 => 5 | int4 => 6 | int8 => 7 | int16 => 8
  | uint1 => 9 | uint2 => 10 | uint4 => 11 | uint8 => 12 | uint16 => 13
  | float2 => 14 | float4 => 15 | float8 => 16 | float12 => 17 | float16 => 18
  | floatComplex => 19 | doubleComplex => 20 | longDoubleComplex => 21
  | bool => 22 | wchar => 23 | unavailable => 24

/-- The ids from `OCOMS_DATATYPE_FIRST_TYPE` on, in id order. -/
def firstTypes : List TypeId :=
  [int1, int2, int4, int8, int16, uint1, uint2, uint4, uint8, uint16, float2, float4, float8,
    float12, float16, floatComplex, doubleComplex, longDoubleComplex, bool, wchar, unavailable]

end TypeId

open TypeId in
/-- `ocoms_datatype_basicDatatypes[type]->size`. -/
def basicSize : TypeId → ℕ
  | loop | endLoop | lb | ub | unavailable => 0
  | int1 | uint1 | TypeId.bool => 1
  | int2 | uint2 => 2
  | int4 | uint4 | float4 | wchar => 4
  | int8 | uint8 | float8 | floatComplex => 8
  | float16 | doubleComplex => 16
  | longDoubleComplex => 32
  | int16 | uint16 | float2 | float12 => 0

open TypeId in
/-- `ocoms_datatype_basicDatatypes[type]->align`. -/
def basicAlign : TypeId → ℕ
  | loop | endLoop | lb | ub | unavailable => 0
  | int1 | uint1 | TypeId.bool => 1
  | int2 | uint2 => 2
  | int4 | uint4 | float4 | wchar | floatComplex => 4
  | int8 | uint8 | float8 | doubleComplex => 8
  | float16 | longDoubleComplex => 16
  | int16 | uint16 | float2 | float12 => 0

/-- The bits `OCOMS_DATATYPE_FLAG_*`. -/
structure Flags where
  unavailable : Bool := false
  predefined : Bool := false
  commited : Bool := false
  overlap : Bool := false
  contiguous : Bool := false
  noGaps : Bool := false
  userLb : Bool := false
  userUb : Bool := false
  data : Bool := false
  deriving DecidableEq, Repr

/-- `OCOMS_DATATYPE_FLAG_BASIC`, the flags of every predefined contiguous type. -/
def Flags.basic : Flags :=
  { predefined := true, contiguous := true, noGaps := true, data := true, commited := true }

/-! ### Description entries -/

/-- `ddt_elem_desc_t`: `count` elements of the basic type, `extent` bytes apart. -/
structure ElemDesc where
  flags : Flags
  type : TypeId
  count : ℕ
  extent : ℤ
  disp : ℤ
  deriving DecidableEq, Repr

/-- `ddt_loop_desc_t`: the entries up to the `END_LOOP` that is `items` further on are repeated
`loops` times, `extent` bytes apart. -/
structure LoopDesc where
  flags : Flags
  loops : ℕ
  items : ℕ
  extent : ℤ
  deriving DecidableEq, Repr

/-- `ddt_endloop_desc_t`: `size` is the number of bytes of one pass of the loop,
`firstElemDisp` the displacement of its first element. -/
structure EndLoopDesc where
  flags : Flags
  items : ℕ
  size : ℕ
  firstElemDisp : ℤ
  deriving DecidableEq, Repr

/-- `union dt_elem_desc`. -/
inductive DtElemDesc
  | elem (e : ElemDesc)
  | loop (l : LoopDesc)
  | endLoop (e : EndLoopDesc)
  deriving DecidableEq, Repr

/-- `elem.count`, which overlays `loop.loops` and `end_loop.items`. -/
def DtElemDesc.count : DtElemDesc → ℕ
  | elem e => e.count
  | loop l => l.loops
  | endLoop e => e.items

/-- `elem.disp`, which overlays `loop.extent` and `end_loop.first_elem_disp`. -/
def DtElemDesc.disp : DtElemDesc → ℤ
  | elem e => e.disp
  | loop l => l.extent
  | endLoop e => e.firstElemDisp

/-- `CREATE_LOOP_START`. -/
def createLoopStart (count items : ℕ) (extent : ℤ) (flags : Flags) : DtElemDesc :=
  .loop { flags := { flags with data := false }, loops := count, items, extent }

/-- `CREATE_LOOP_END`. -/
def createLoopEnd (items : ℕ) (firstElemDisp : ℤ) (size : ℕ) (flags : Flags) : DtElemDesc :=
  .endLoop { flags := { flags with data := false }, items, size, firstElemDisp }

/-- `CREATE_ELEM`. -/
def createElem (type : TypeId) (flags : Flags) (count : ℕ) (disp extent : ℤ) : DtElemDesc :=
  .elem { flags := { flags with data := true }, type, count, disp, extent }

/-! ### Datatypes -/

/-- `dt_type_desc_t`: the first `used` entries of `desc` are the description; a committed one
has a fake `END_LOOP` behind them. `length` is the number of entries allocated. -/
structure TypeDesc where
  length : ℕ
  used : ℕ
  desc : List DtElemDesc
  deriving DecidableEq, Repr

/-- `ocoms_datatype_t`. The bit set `bdt_used` and the array `btypes` are functions of the id. -/
structure Datatype where
  flags : Flags
  id : TypeId
  bdtUsed : TypeId → Bool
  size : ℕ
  trueLb : ℤ
  trueUb : ℤ
  lb : ℤ
  ub : ℤ
  align : ℕ
  nbElems : ℕ
  desc : TypeDesc
  optDesc : TypeDesc
  btypes : TypeId → ℕ

/-- `ub - lb`. -/
def Datatype.extent (dt : Datatype) : ℤ := dt.ub - dt.lb

/-- `LONG_MAX`. -/
def longMax : ℤ := 2 ^ 63 - 1

/-- `LONG_MIN`. -/
def longMin : ℤ := -2 ^ 63

/-- `OCOMS_DATATYPE_INIT_DESC_NULL`. -/
def TypeDesc.null : TypeDesc := { length := 0, used := 0, desc := [] }

/-- The two entries `ocoms_datatype_init` writes for a predefined type. -/
def predefinedElemDesc (t : TypeId) (size : ℕ) : TypeDesc where
  length := 1
  used := 1
  desc :=
    [.elem
      { flags := { predefined := true, data := true, contiguous := true, noGaps := true },
        type := t, count := 1, disp := 0, extent := size },
     .endLoop { flags := {}, items := 1, firstElemDisp := 0, size }]

/-- `OCOMS_DATATYPE_INIT_BASIC_TYPE`, the markers `LOOP`, `END_LOOP`, `LB` and `UB`. -/
def initBasicType (t : TypeId) : Datatype where
  flags := { predefined := true }
  id := t
  bdtUsed := fun u => u = t
  size := 0
  trueLb := 0
  trueUb := 0
  lb := 0
  ub := 0
  align := 0
  nbElems := 1
  desc := .null
  optDesc := .null
  btypes := fun u => if u = t then 1 else 0

/-- `OCOMS_DATATYPE_INIT_BASIC_DATATYPE`, the types the platform has. -/
def initBasicDatatype (t : TypeId) : Datatype where
  flags := Flags.basic
  id := t
  bdtUsed := fun u => u = t
  size := basicSize t
  trueLb := 0
  trueUb := basicSize t
  lb := 0
  ub := basicSize t
  align := basicAlign t
  nbElems := 1
  desc := predefinedElemDesc t (basicSize t)
  optDesc := predefinedElemDesc t (basicSize t)
  btypes := fun u => if u = t then 1 else 0

/-- `OCOMS_DATATYPE_INITIALIZER_UNAVAILABLE_NAMED`, the types the platform does not have. -/
def initUnavailable (t : TypeId) : Datatype where
  flags := { unavailable := true, predefined := true }
  id := t
  bdtUsed := fun _ => false
  size := 0
  trueLb := 0
  trueUb := 0
  lb := 0
  ub := 0
  align := 0
  nbElems := 1
  desc := predefinedElemDesc .unavailable 0
  optDesc := predefinedElemDesc .unavailable 0
  btypes := fun _ => 0

/-- `ocoms_datatype_basicDatatypes[t]`. -/
def predefined (t : TypeId) : Datatype :=
  match t with
  | .loop | .endLoop | .lb | .ub => initBasicType t
  | .uint16 => initUnavailable .int16
  | _ => if basicSize t = 0 then initUnavailable t else initBasicDatatype t

/-- `ocoms_datatype_empty`. -/
def emptyDatatype : Datatype where
  flags := { predefined := true }
  id := .loop
  bdtUsed := fun _ => false
  size := 0
  trueLb := 0
  trueUb := 0
  lb := 0
  ub := 0
  align := 0
  nbElems := 1
  desc := .null
  optDesc := .null
  btypes := fun _ => 0

end Ocoms
