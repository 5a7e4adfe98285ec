import Ocoms.Datatype.Convertor

/-!
The conversion functions: `ocoms_copy_functions.c` and
`ocoms_copy_functions_heterogeneous.c`.

* `ConversionFct` is `conversion_fct_t`: it converts elements of one basic type from a packed
  buffer into user memory. `copyBytes` are the functions the macros `COPY_TYPE` and
  `COPY_CONTIGUOUS_BYTES` define, `copyHeterogeneous` the ones of `COPY_TYPE_HETEROGENEOUS`,
  `copyCxxBoolHeterogeneous` is the one for `bool`.
* `copyFunctions` and `heterogeneousCopyFunctions` are the two tables, in the order of the
  source; `Master.pFunctions` is what `ocoms_convertor_find_or_create_master` makes of them, and
  indexes them by type id.
-/

namespace Ocoms

open Layout

/-- What a conversion function returns: the number of elements converted, the bytes of the buffer
to advance, and the user memory. -/
structure Converted where
  count : ℕ
  advance : ℕ
  mem : ℤ → Byte

/-- `conversion_fct_t`: the architecture of the peer, the count, the bytes of the buffer, the
distance of the elements in it, and the address, the distance and the memory of the destination.
`none` is a read behind the end of the buffer. -/
abbrev ConversionFct := Arch → ℕ → List Byte → ℕ → ℤ → ℤ → (ℤ → Byte) → Option Converted

/-- `MEMCPY` of `n` bytes of the buffer. -/
def memcpy (n : ℕ) (source : List Byte) (dest : ℤ) (mem : ℤ → Byte) : Option (ℤ → Byte) :=
  if source.length < n then none else some (scatter mem (run dest n) (source.take n))

/-- The loop over `count` elements of `size` bytes that converts each with `f`. -/
def convertLoop (size : ℕ) (f : List Byte → List Byte) (fromExtent : ℕ) (toExtent : ℤ) :
    ℕ → List Byte → ℤ → (ℤ → Byte) → Option (ℤ → Byte)
  | 0, _, _, mem => some mem
  | n + 1, source, dest, mem =>
      if source.length < size then none
      else convertLoop size f fromExtent toExtent n (source.drop fromExtent) (dest + toExtent)
        (scatter mem (run dest (f (source.take size)).length) (f (source.take size)))

/-- `datatype_check`: as many elements as the buffer holds. -/
def datatypeCheck (remoteSize count fromLen : ℕ) : ℕ :=
  if fromLen < remoteSize * count then fromLen / remoteSize else count

/-- The functions of `COPY_TYPE` and `COPY_CONTIGUOUS_BYTES`. -/
def copyBytes (size : ℕ) : ConversionFct := fun _ count source fromExtent dest toExtent mem => do
  let count := datatypeCheck size count source.length
  let mem ← if fromExtent = size ∧ toExtent = size then memcpy (count * size) source dest mem
    else convertLoop size id fromExtent toExtent count source dest mem
  return ⟨count, count * fromExtent, mem⟩

/-- The functions of `COPY_TYPE_HETEROGENEOUS`; `ocoms_dt_swap_bytes` reverses an element. -/
def copyHeterogeneous (size : ℕ) : ConversionFct :=
  fun remoteArch count source fromExtent dest toExtent mem => do
    let count := datatypeCheck size count source.length
    let mem ← if remoteArch &&& .isBigEndian ≠ localArch &&& .isBigEndian then
        convertLoop size List.reverse fromExtent toExtent count source dest mem
      else if toExtent = size ∧ fromExtent = size then memcpy (count * size) source dest mem
      else convertLoop size id fromExtent toExtent count source dest mem
    return ⟨count, count * fromExtent, mem⟩

/-- `OCOMS_ARCH_BOOLISxx`. -/
def Arch.boolIsxx : Arch := 0x00000c00

/-- `*to_real = *from == 0 ? false : true`. -/
def toBool (bytes : List Byte) : List Byte := [if bytes.all (· == 0) then 0 else 1]

/-- `copy_cxx_bool_heterogeneous`. -/
def copyCxxBoolHeterogeneous : ConversionFct :=
  fun remoteArch count source fromExtent dest toExtent mem => do
    let remoteBool := remoteArch &&& .boolIsxx
    let differs := remoteBool ≠ localArch &&& .boolIsxx
    let fromExtent :=
      if differs then
        if remoteBool = .boolIs8 then 1 else if remoteBool = .boolIs16 then 2
        else if remoteBool = .boolIs32 then 4 else fromExtent
      else fromExtent
    let count := datatypeCheck (basicSize .bool) count source.length
    let mem ←
      if (toExtent ≠ basicSize .bool ∨ fromExtent ≠ basicSize .bool) ∨ differs then
        if remoteBool = .boolIs8 then convertLoop 1 toBool fromExtent toExtent count source dest mem
        else if remoteBool = .boolIs16 then
          convertLoop 2 toBool fromExtent toExtent count source dest mem
        else if remoteBool = .boolIs32 then
          convertLoop 4 toBool fromExtent toExtent count source dest mem
        else some mem
      else memcpy (count * basicSize .bool) source dest mem
    return ⟨count, count * fromExtent, mem⟩

/-- `ocoms_datatype_copy_functions`. -/
def copyFunctions : List (Option ConversionFct) :=
  [none, none, none, none,
    copyBytes 1, copyBytes 2, copyBytes 4, copyBytes 8, copyBytes 16,
    copyBytes 1, copyBytes 2, copyBytes 4, copyBytes 8, copyBytes 16,
    none, copyBytes 4, copyBytes 8, none, copyBytes 16,
    copyBytes 1, copyBytes 4, none]

/-- `ocoms_datatype_heterogeneous_copy_functions`. The function for 16 byte floats is compiled for
`double`. -/
def heterogeneousCopyFunctions : List (Option ConversionFct) :=
  [none, none, none, none,
    copyHeterogeneous 1, copyHeterogeneous 2, copyHeterogeneous 4, copyHeterogeneous 8, none,
    copyHeterogeneous 1, copyHeterogeneous 2, copyHeterogeneous 4, copyHeterogeneous 8, none,
    none, copyHeterogeneous 4, copyHeterogeneous 8, none, copyHeterogeneous 8,
    copyCxxBoolHeterogeneous, copyHeterogeneous 4, none]

/-- `master->pFunctions[type]`; the entries behind the initialisers of a table are null. -/
def Master.pFunctions (master : Master) (type : TypeId) : Option ConversionFct :=
  if master.homogeneous = false ∧ master.heteroMask type = true then
    (heterogeneousCopyFunctions[type.toNat]?).join
  else (copyFunctions[type.toNat]?).join

end Ocoms
