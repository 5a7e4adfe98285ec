import Ocoms.Datatype.Walk

/-!
The convertor: `ocoms_convertor.h`, `ocoms_convertor_internal.h` and the set-up functions of
`ocoms_convertor.c`.

* `Master` and `findOrCreateMaster`: what the architecture word of the peer says about the types
  it represents differently.
* `Convertor` is `ocoms_convertor_t`; `Convertor.load` and `Cursor.save` are the first and the
  last lines of every walk, which take the current element off the stack and put it back.
* `prepareForSend`, `prepareForRecv` are `ocoms_convertor_prepare_for_send` and `_recv`.
* `Build` is what the two compilations of the pack and unpack sources differ in: `MEMCPY_CSUM`
  and `COMPUTE_CSUM`.

Addresses of user memory are relative to the user buffer; `pBaseBuf` is kept because the checksum
routines look at the alignment of a pointer. The stack is the list of its entries
`pStack[stack_pos], …, pStack[0]`.
-/

namespace Ocoms

open Layout

/-! ### Architectures -/

/-- An architecture word. -/
abbrev Arch := BitVec 32

namespace Arch

/-- `OCOMS_ARCH_HEADERMASK`. -/
def headerMask : Arch := 0x03000000

/-- `OCOMS_ARCH_HEADERMASK2`. -/
def headerMask2 : Arch := 0x00000003

/-- `OCOMS_ARCH_ISBIGENDIAN`. -/
def isBigEndian : Arch := 0x00000008

/-- `OCOMS_ARCH_BOOLIS8`. -/
def boolIs8 : Arch := 0x00000000

/-- `OCOMS_ARCH_BOOLIS16`. -/
def boolIs16 : Arch := 0x00000400

/-- `OCOMS_ARCH_BOOLIS32`. -/
def boolIs32 : Arch := 0x00000800

/-- The word with its four bytes in the opposite order. -/
def swapped (var : Arch) : Arch :=
  var.extractLsb' 0 8 ++ var.extractLsb' 8 8 ++ var.extractLsb' 16 8 ++ var.extractLsb' 24 8

/-- `ocoms_arch_checkmask`: the result, and `*var` afterwards. -/
def checkmask (var mask : Arch) : ℤ × Arch :=
  let test (v : Arch) : ℤ × Arch := (if v &&& mask = mask then 1 else 0, v)
  if var &&& headerMask = 0 then
    if var &&& headerMask2 ≠ 0 then
      let tmpvar := var.swapped
      if tmpvar &&& headerMask ≠ 0 ∧ tmpvar &&& headerMask2 = 0 then test tmpvar else (-1, var)
    else (-1, var)
  else test var

end Arch

/-- `ocoms_local_arch`, as `ocoms_arch_init` sets it on x86-64. -/
def localArch : Arch := 0xFFC91000

/-- `ocoms_convertor_master_t`. -/
structure Master where
  remoteArch : Arch
  homogeneous : Bool
  heteroMask : TypeId → Bool
  remoteSizes : TypeId → ℕ

/-- `ocoms_convertor_find_or_create_master`. Without a mask that passes, the remote `bool` keeps
the local size. -/
def findOrCreateMaster (remoteArch : Arch) : Master :=
  if remoteArch = localArch then
    { remoteArch, homogeneous := true, heteroMask := fun _ => false, remoteSizes := basicSize }
  else
    let (is8, arch₁) := remoteArch.checkmask .boolIs8
    let (is16, arch₂) := arch₁.checkmask .boolIs16
    let (is32, arch₃) := arch₂.checkmask .boolIs32
    let (boolSize, arch) :=
      if is8 ≠ 0 then (1, arch₁) else if is16 ≠ 0 then (2, arch₂)
      else if is32 ≠ 0 then (4, arch₃) else (basicSize .bool, arch₃)
    let remoteSizes := fun t => if t = .bool then boolSize else basicSize t
    let (remoteBig, arch') := arch.checkmask .isBigEndian
    let swap := remoteBig ≠ (localArch.checkmask .isBigEndian).1
    { remoteArch := arch'
      homogeneous := false
      remoteSizes
      heteroMask := fun t => t ∈ TypeId.firstTypes ∧
        (remoteSizes t ≠ basicSize t ∨ swap ∧ 1 < remoteSizes t ∧ t ≠ .bool) }

/-! ### Convertors -/

/-- The flags of a convertor: the sixteen bits it takes from its datatype, and its own. -/
structure ConvertorFlags where
  datatype : Flags := {}
  recv : Bool := false
  send : Bool := false
  homogeneous : Bool := false
  noOp : Bool := false
  withChecksum : Bool := false
  completed : Bool := false
  deriving DecidableEq, Repr

/-- The functions `fAdvance` points to; each has a plain and a checksum compilation, which the
field `fAdvanceChecksum` of a convertor tells apart. -/
inductive Advance
  | genericSimplePack | packHomogeneousContig | packHomogeneousContigWithGaps
  | genericSimpleUnpack | unpackHomogeneousContig | unpackGeneral
  deriving DecidableEq, Repr

/-- `checksum`, `csum_ui1` and `csum_ui2`. -/
structure Csum where
  checksum : BitVec 32
  ui1 : BitVec 32
  ui2 : ℕ
  deriving DecidableEq, Repr

/-- `ocoms_convertor_t`. -/
structure Convertor where
  remoteArch : Arch
  flags : ConvertorFlags
  localSize : ℕ
  remoteSize : ℕ
  pDesc : Datatype
  useDesc : TypeDesc
  count : ℕ
  stackSize : ℕ
  pBaseBuf : ℤ
  stack : List DtStack
  fAdvance : Advance
  fAdvanceChecksum : Bool
  master : Master
  partialLength : ℕ
  bConverted : ℕ
  csum : Csum

/-- `DT_STATIC_STACK_SIZE`. -/
def dtStaticStackSize : ℕ := 5

/-- The first lines of a walk: the saved element comes off the stack, and both displacements go
into the base pointer. -/
def Convertor.load (conv : Convertor) : Option Cursor :=
  match conv.stack with
  | [] => none
  | saved :: stack =>
      some { stack, pos := saved.index.toNat, count := saved.count,
             base := saved.disp + stackDisp stack }

/-- The last lines of a walk: `PUSH_STACK` of the element it stopped at. -/
def Cursor.save (c : Cursor) : List DtStack :=
  { index := c.pos, count := c.count, disp := c.base - stackDisp c.stack } :: c.stack

/-- The end of a generic pack or unpack call that moved `total` bytes: the convertor has completed
when they were the last of `size`, otherwise it keeps its place. -/
def Convertor.leave (conv : Convertor) (c : Cursor) (total size : ℕ) (csum : Csum) :
    Convertor × ℤ :=
  let conv := { conv with bConverted := conv.bConverted + total, csum }
  if conv.bConverted = size then
    ({ conv with flags := { conv.flags with completed := true }, stack := c.stack }, 1)
  else ({ conv with stack := c.save }, 0)

/-- The convertors differ in the place they have come to. -/
def Convertor.Moved (conv conv' : Convertor) : Prop :=
  ∃ bConverted partialLength stack csum completed, conv' = { conv with
    bConverted, partialLength, stack, csum, flags := { conv.flags with completed } }

section Leave

variable {conv conv' conv'' : Convertor} (c : Cursor) (total size : ℕ) (csum : Csum)

lemma Convertor.Moved.refl (conv : Convertor) : conv.Moved conv := ⟨_, _, _, _, _, rfl⟩

lemma Convertor.Moved.trans (h : conv.Moved conv') (h' : conv'.Moved conv'') :
    conv.Moved conv'' := by
  obtain ⟨_, _, _, _, _, rfl⟩ := h
  obtain ⟨_, _, _, _, _, rfl⟩ := h'
  exact ⟨_, _, _, _, _, rfl⟩

lemma Convertor.Moved.fAdvance (h : conv.Moved conv') : conv'.fAdvance = conv.fAdvance := by
  obtain ⟨_, _, _, _, _, rfl⟩ := h
  rfl

lemma Convertor.Moved.pDesc (h : conv.Moved conv') : conv'.pDesc = conv.pDesc := by
  obtain ⟨_, _, _, _, _, rfl⟩ := h
  rfl

lemma Convertor.moved_leave (conv : Convertor) : conv.Moved (conv.leave c total size csum).1 := by
  rw [leave]
  split <;> exact ⟨_, _, _, _, _, rfl⟩

lemma Convertor.leave_csum (conv : Convertor) : (conv.leave c total size csum).1.csum = csum := by
  rw [leave]; split <;> rfl

end Leave

lemma Convertor.load_save {conv : Convertor} {c : Cursor} (h : conv.stack = c.save) :
    conv.load = some c := by
  simp [Convertor.load, h, Cursor.save]

/-- `ocoms_convertor_create_stack_at_begining`. -/
def Convertor.createStackAtBegining (conv : Convertor) : Convertor :=
  { conv with
    partialLength := 0
    bConverted := 0
    stack := [{ index := 0, disp := 0, count := (conv.useDesc.desc.head?.map DtElemDesc.count).getD 0 },
      { index := -1, count := conv.count, disp := 0 }] }

/-- `OCOMS_CONVERTOR_COMPUTE_REMOTE_SIZE`. -/
def Convertor.computeRemoteSize (conv : Convertor) (datatype : Datatype) (bdtMask : TypeId → Bool) :
    Convertor :=
  if TypeId.firstTypes.any bdtMask then
    { conv with
      flags := { conv.flags with homogeneous := !conv.flags.homogeneous }
      remoteSize := conv.count * ((TypeId.firstTypes.filter datatype.bdtUsed).map
        fun t => datatype.btypes t * conv.master.remoteSizes t).sum
      useDesc := datatype.desc }
  else conv

/-- The first part of `OCOMS_CONVERTOR_PREPARE`: the convertor takes over what it needs of the
datatype, with `NO_OP` and `HOMOGENEOUS` set. -/
def Convertor.attach (conv : Convertor) (datatype : Datatype) (count : ℕ) (pUserBuf : ℤ) :
    Convertor :=
  { conv with
    localSize := count * datatype.size
    pBaseBuf := pUserBuf
    count
    flags := { conv.flags with datatype := datatype.flags, noOp := true, homogeneous := true,
                               completed := false }
    pDesc := datatype
    bConverted := 0
    useDesc := datatype.optDesc
    remoteSize := count * datatype.size }

/-- The last part of `OCOMS_CONVERTOR_PREPARE`: a stack that is large enough, at the beginning. -/
def Convertor.provideStack (conv : Convertor) (datatype : Datatype) : Convertor :=
  { conv with
    flags := { conv.flags with noOp := false }
    stackSize := max conv.stackSize (datatype.btypes .loop + 1) }.createStackAtBegining

/-- `OCOMS_CONVERTOR_PREPARE`. `false` says that the macro returned from the function. -/
def Convertor.prepare (conv : Convertor) (datatype : Datatype) (count : ℕ) (pUserBuf : ℤ) :
    Bool × Convertor :=
  if count = 0 ∨ datatype.size = 0 then
    (false, { conv with
      flags := { conv.flags with
        datatype := { conv.flags.datatype with noGaps := true }
        completed := true }
      localSize := 0
      remoteSize := 0 })
  else
    let conv := conv.attach datatype count pUserBuf
    let noGaps := !conv.flags.withChecksum && conv.flags.datatype.noGaps
    let contiguous := !conv.flags.withChecksum && conv.flags.datatype.contiguous
    if conv.remoteArch = localArch ∧ (noGaps ∨ contiguous ∧ count = 1) then (false, conv)
    else
      let conv := conv.computeRemoteSize datatype
        fun t => datatype.bdtUsed t && conv.master.heteroMask t
      if noGaps ∧ (conv.flags.send ∨ conv.flags.homogeneous) then (false, conv)
      else (true, conv.provideStack datatype)

lemma Convertor.computeRemoteSize_of_none (conv : Convertor) (datatype : Datatype)
    {bdtMask : TypeId → Bool} (h : ∀ t, bdtMask t = false) :
    conv.computeRemoteSize datatype bdtMask = conv := by
  have hany : TypeId.firstTypes.any bdtMask = false := by simp [h]
  rw [computeRemoteSize, hany, if_neg Bool.false_ne_true]

/-- A convertor for a peer of the local architecture. -/
structure Convertor.Homogeneous (conv : Convertor) : Prop where
  remoteArch : conv.remoteArch = localArch
  master : conv.master = findOrCreateMaster localArch

/-- `NO_OP` stays set: the user memory is one run, and no checksum is asked for. -/
def Convertor.StaysNoOp (conv : Convertor) (datatype : Datatype) (count : ℕ) : Prop :=
  conv.flags.withChecksum = false ∧
    (datatype.flags.noGaps = true ∨ datatype.flags.contiguous = true ∧ count = 1)

instance (conv : Convertor) (datatype : Datatype) (count : ℕ) :
    Decidable (conv.StaysNoOp datatype count) :=
  inferInstanceAs (Decidable (_ ∧ _))

/-- `OCOMS_CONVERTOR_PREPARE` on a homogeneous convertor. -/
lemma Convertor.Homogeneous.prepare {conv : Convertor} (h : conv.Homogeneous)
    {datatype : Datatype} {count : ℕ} (hcount : count ≠ 0) (hsize : datatype.size ≠ 0)
    (pUserBuf : ℤ) :
    conv.prepare datatype count pUserBuf =
      if conv.StaysNoOp datatype count then (false, conv.attach datatype count pUserBuf)
      else (true, (conv.attach datatype count pUserBuf).provideStack datatype) := by
  have hne : ¬ (count = 0 ∨ datatype.size = 0) := by simp [hcount, hsize]
  have harch : (conv.attach datatype count pUserBuf).remoteArch = localArch := h.remoteArch
  have hmask : ∀ t, (datatype.bdtUsed t
      && (conv.attach datatype count pUserBuf).master.heteroMask t) = false := by
    intro t
    have hm : (conv.attach datatype count pUserBuf).master = findOrCreateMaster localArch :=
      h.master
    rw [hm, findOrCreateMaster, if_pos rfl, Bool.and_false]
  have hflags : (conv.attach datatype count pUserBuf).flags.withChecksum = conv.flags.withChecksum
      ∧ (conv.attach datatype count pUserBuf).flags.datatype = datatype.flags := ⟨rfl, rfl⟩
  simp only [Convertor.prepare, if_neg hne, computeRemoteSize_of_none _ _ hmask, hflags.1,
    hflags.2, harch, StaysNoOp]
  by_cases hw : conv.flags.withChecksum = true <;>
    by_cases hg : datatype.flags.noGaps = true <;> simp [hw, hg]

/-- `ocoms_convertor_prepare_for_send`. -/
def Convertor.prepareForSend (conv : Convertor) (datatype : Datatype) (count : ℕ) (pUserBuf : ℤ) :
    Convertor :=
  match { conv with flags := { conv.flags with send := true } }.prepare datatype count pUserBuf with
  | (false, conv) => conv
  | (true, conv) =>
      { conv with
        fAdvanceChecksum := conv.flags.withChecksum
        fAdvance :=
          if datatype.flags.contiguous then
            if datatype.extent = datatype.size ∨ conv.count ≤ 1 then .packHomogeneousContig
            else .packHomogeneousContigWithGaps
          else .genericSimplePack }

/-- `ocoms_convertor_prepare_for_recv`. -/
def Convertor.prepareForRecv (conv : Convertor) (datatype : Datatype) (count : ℕ) (pUserBuf : ℤ) :
    Convertor :=
  match { conv with flags := { conv.flags with recv := true } }.prepare datatype count pUserBuf with
  | (false, conv) => conv
  | (true, conv) =>
      { conv with
        fAdvanceChecksum := conv.flags.withChecksum
        fAdvance :=
          if !conv.flags.homogeneous then .unpackGeneral
          else if conv.pDesc.flags.contiguous then .unpackHomogeneousContig
          else .genericSimpleUnpack }

/-- `ocoms_convertor_construct`. -/
def Convertor.construct : Convertor where
  remoteArch := localArch
  flags := { datatype := { noGaps := true }, completed := true }
  localSize := 0
  remoteSize := 0
  pDesc := emptyDatatype
  useDesc := .null
  count := 0
  stackSize := dtStaticStackSize
  pBaseBuf := 0
  stack := []
  fAdvance := .genericSimplePack
  fAdvanceChecksum := false
  master := findOrCreateMaster localArch
  partialLength := 0
  bConverted := 0
  csum := ⟨0, 0, 0⟩

/-- `ocoms_convertor_create`. -/
def Convertor.create (remoteArch : Arch) : Convertor :=
  let master := findOrCreateMaster remoteArch
  { Convertor.construct with
    remoteArch, master, flags := { homogeneous := master.homogeneous } }

/-! ### Buffers and copies -/

/-- `struct iovec`: the buffer of `len` bytes at `base`. -/
structure Iovec where
  base : ℤ
  len : ℕ
  deriving DecidableEq, Repr

/-- What a buffer is filled with by the peer. -/
structure Fragment where
  base : ℤ
  data : List Byte
  deriving DecidableEq, Repr

/-- The macros a compilation of the pack and unpack sources defines: `memcpyCsum src dst bytes`
and `computeCsum src bytes` are the effects of `MEMCPY_CSUM` and `COMPUTE_CSUM` on the checksum
fields. -/
structure Build where
  memcpyCsum : ℤ → ℤ → List Byte → Csum → Csum
  computeCsum : ℤ → List Byte → Csum → Csum

/-- The compilation without `CHECKSUM`. -/
def Build.plain : Build := ⟨fun _ _ _ c => c, fun _ _ c => c⟩

/-- `csum'` comes from `csum` by copies that together copy the bytes `bs`. -/
inductive Build.Copies (build : Build) : Csum → List Byte → Csum → Prop
  | nil (csum : Csum) : Copies build csum [] csum
  | cons {csum csum' : Csum} {as bs : List Byte} (src dst : ℤ) :
      Copies build (build.memcpyCsum src dst as csum) bs csum' → Copies build csum (as ++ bs) csum'

lemma Build.Copies.append {build : Build} {c c' c'' : Csum} {as bs : List Byte}
    (h : build.Copies c as c') (h' : build.Copies c' bs c'') : build.Copies c (as ++ bs) c'' := by
  induction h with
  | nil => exact h'
  | cons src dst _ ih =>
      rw [List.append_assoc]
      exact .cons src dst (ih h')

lemma Build.Copies.one (build : Build) (src dst : ℤ) (bs : List Byte) (c : Csum) :
    build.Copies c bs (build.memcpyCsum src dst bs c) := by
  have h := Build.Copies.cons src dst (.nil (build.memcpyCsum src dst bs c))
  rwa [List.append_nil] at h

end Ocoms
