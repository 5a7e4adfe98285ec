import Ocoms.Datatype.CopyFunctions
import Ocoms.Datatype.Pack

/-!
Unpacking: `ocoms_datatype_unpack.h`, `ocoms_datatype_unpack.c` and `ocoms_convertor_unpack`.

* `unpackWalker` copies elements and passes of `CONTIGUOUS` loops out of a fragment, as many as
  it holds; what is left of it is a part of an element, which `unpackPartialDatatype` writes
  through a temporary buffer. `genericSimpleUnpack` walks the description with both.
* `unpackGeneral` converts the elements of a peer of another architecture;
  `unpackHomogeneousContig` and the `NO_OP` branch serve `CONTIGUOUS` datatypes;
  `convertorUnpack` chooses among the four.
-/

namespace Ocoms

open Layout Greedy

/-! ### Copying one entry -/

/-- The source, what is left of a fragment at the address `source`, with the user memory and the
checksum. -/
structure UnpackState where
  source : ℤ
  src : List Byte
  mem : ℤ → Byte
  csum : Csum

section Entry

variable (build : Build) (pBaseBuf : ℤ)

/-- One `MEMCPY_CSUM` of `n` bytes to `dest`. -/
def UnpackState.copy (dest : ℤ) (n : ℕ) (s : UnpackState) : UnpackState :=
  let bytes := s.src.take n
  { source := s.source + n
    src := s.src.drop n
    mem := scatter s.mem (run dest n) bytes
    csum := build.memcpyCsum s.source (pBaseBuf + dest) bytes s.csum }

/-- `n` copies of `len` bytes, `extent` apart. -/
def UnpackState.copies (extent : ℤ) (len : ℕ) : ℕ → ℤ → UnpackState → UnpackState
  | 0, _, s => s
  | n + 1, dest, s => copies extent len n (dest + extent) (s.copy build pBaseBuf dest len)

/-- `unpack_predefined_data`. -/
def unpackPredefinedData (e : ElemDesc) (count : ℕ) (dest : ℤ) (s : UnpackState) :
    ℕ × ℤ × UnpackState :=
  let blength := basicSize e.type
  let copyCount := if s.src.length < count * blength then s.src.length / blength else count
  if s.src.length < count * blength ∧ copyCount = 0 then (count, dest, s)
  else if (blength : ℤ) = e.extent then
    (count - copyCount, dest + (blength * copyCount : ℕ),
      s.copy build pBaseBuf (dest + e.disp) (blength * copyCount))
  else
    (count - copyCount, dest + copyCount * e.extent,
      s.copies build pBaseBuf e.extent blength copyCount (dest + e.disp))

/-- `unpack_contiguous_loop`. -/
def unpackContiguousLoop (l : LoopDesc) (e : EndLoopDesc) (count : ℕ) (dest : ℤ)
    (s : UnpackState) : ℕ × ℤ × UnpackState :=
  let copyLoops := if s.src.length < count * e.size then s.src.length / e.size else count
  (count - copyLoops, dest + copyLoops * l.extent,
    s.copies build pBaseBuf l.extent e.size copyLoops (dest + e.firstElemDisp))

/-- The walker of the generic unpack. -/
def unpackWalker : Walker UnpackState where
  data := unpackPredefinedData build pBaseBuf
  contig := unpackContiguousLoop build pBaseBuf

end Entry

/-! ### Partial elements -/

/-- The search for a byte that the fragment does not contain, downwards from `n`. A `char` below
zero compares unequal to every byte. -/
def findUnusedByte (data : List Byte) : ℕ → ℤ
  | 0 => if (0 : Byte) ∈ data then -1 else 0
  | n + 1 => if BitVec.ofNat 8 (n + 1) ∈ data then findUnusedByte data n else (n + 1 : ℕ)

/-- The bytes that still are the unused byte get their saved values back. -/
def restoreUnused (unused : ℤ) : List Byte → ℤ → (ℤ → Byte) → ℤ → Byte
  | [], _, mem => mem
  | b :: saved, addr, mem =>
      restoreUnused unused saved (addr + 1)
        (if ((mem addr).toNat : ℤ) = unused then Function.update mem addr b else mem)

/-- The length of `temporary` and `saved_data`. -/
def partialBufferLength : ℕ := 16

/-- `ocoms_unpack_partial_datatype`: bytes `startPosition` to `endPosition` of an element whose
base pointer is `userBuffer`. The temporary buffer is aligned. `none` is a write behind the end
of the temporary buffers or a read behind the end of the fragment. -/
def unpackPartialDatatype (build : Build) (pBaseBuf : ℤ) (e : ElemDesc) (partialData : List Byte)
    (startPosition endPosition : ℕ) (userBuffer : ℤ) (mem : ℤ → Byte) (csum : Csum) :
    Option (ℤ × (ℤ → Byte) × Csum) :=
  let dataLength := basicSize e.type
  let length := endPosition - startPosition
  if partialBufferLength < dataLength ∨ partialData.length < length then none
  else
    let realData := userBuffer + e.disp
    let unusedByte := findUnusedByte (partialData.take length) 0x7F
    let temporary := List.replicate startPosition (BitVec.ofInt 8 unusedByte)
      ++ partialData.take length
      ++ List.replicate (dataLength - endPosition) (BitVec.ofInt 8 unusedByte)
    let savedData := gather mem (run realData dataLength)
    let (_, userBuffer, s) :=
      unpackPredefinedData build pBaseBuf e 1 userBuffer ⟨0, temporary, mem, csum⟩
    some (userBuffer, restoreUnused unusedByte savedData realData s.mem, s.csum)

/-! ### The unpack functions -/

/-- What a call leaves of the walk: the number of bytes taken from each buffer, the cursor and
`partial_length`, the user memory and the checksum. -/
structure UnpackWalk where
  lens : List ℕ
  cursor : Cursor
  partialLength : ℕ
  mem : ℤ → Byte
  csum : Csum

/-- What an unpack call returns: the convertor, the user memory, the bytes taken from the first
`out_size` buffers, `max_data` and the return value. -/
structure UnpackResult where
  conv : Convertor
  mem : ℤ → Byte
  lens : List ℕ
  maxData : ℕ
  rc : ℤ

/-- `--count_desc`, and on to the next entry behind the last element. -/
def Cursor.pastElem (desc : List DtElemDesc) (c : Cursor) (base : ℤ) : Option Cursor :=
  if c.count - 1 = 0 then enterAt desc c.stack (c.pos + 1)
  else some { c with count := c.count - 1, base }

section Functions

variable (build : Build)

/-- The start of a buffer: the rest of an element that the last one ended in. -/
def unpackMissing (pBaseBuf : ℤ) (desc : List DtElemDesc) (v : Fragment) (c : Cursor)
    (partialLength : ℕ) (mem : ℤ → Byte) (csum : Csum) : Option (Cursor × UnpackState) :=
  if partialLength = 0 then some (c, ⟨v.base, v.data, mem, csum⟩)
  else match desc[c.pos]? with
    | some (.elem e) => do
        let missingLength := basicSize e.type - partialLength
        let (base, mem, csum) ← unpackPartialDatatype build pBaseBuf e v.data partialLength
          (basicSize e.type) c.base mem
          (build.computeCsum v.base (v.data.take missingLength) csum)
        let c ← c.pastElem desc base
        return (c, ⟨v.base + missingLength, v.data.drop missingLength, mem, csum⟩)
    | _ => none

/-- The end of a buffer: what is left of it is a part of the element the walk stopped at. -/
def unpackLeftover (pBaseBuf : ℤ) (desc : List DtElemDesc) (c : Cursor) (s : UnpackState) :
    Option (ℕ × (ℤ → Byte) × Csum) :=
  if s.src.length = 0 then some (0, s.mem, s.csum)
  else match desc[c.pos]? with
    | some (.elem e) => do
        let (_, mem, csum) ← unpackPartialDatatype build pBaseBuf e s.src 0 s.src.length c.base
          s.mem (build.computeCsum s.source s.src s.csum)
        return (s.src.length, mem, csum)
    | _ => none

/-- The loop over the buffers. It ends early behind the last copy. -/
def unpackIovs (pBaseBuf : ℤ) (desc : List DtElemDesc) (extent : ℤ) (fuel : ℕ) :
    List Fragment → Cursor → ℕ → (ℤ → Byte) → Csum → Option UnpackWalk
  | [], c, partialLength, mem, csum => some ⟨[], c, partialLength, mem, csum⟩
  | v :: vs, c, partialLength, mem, csum => do
      let (c, s) ← unpackMissing build pBaseBuf desc v c partialLength mem csum
      match walk (unpackWalker build pBaseBuf) desc extent fuel c s with
      | some (.suspend c' s') => do
          let (partialLength, mem, csum) ← unpackLeftover build pBaseBuf desc c' s'
          let w ← unpackIovs pBaseBuf desc extent fuel vs c' partialLength mem csum
          return { w with lens := v.data.length :: w.lens }
      | some (.complete c' s') =>
          some ⟨[v.data.length - s'.src.length], c', 0, s'.mem, s'.csum⟩
      | _ => none

/-- `ocoms_generic_simple_unpack`. -/
def genericSimpleUnpack (fuel : ℕ) (conv : Convertor) (mem : ℤ → Byte) (iov : List Fragment) :
    Option UnpackResult := do
  let c ← conv.load
  let w ← unpackIovs build conv.pBaseBuf conv.useDesc.desc conv.pDesc.extent fuel iov c
    conv.partialLength mem conv.csum
  let total := w.lens.sum
  let (conv, rc) := { conv with partialLength := w.partialLength }.leave w.cursor total
    conv.remoteSize w.csum
  return ⟨conv, w.mem, w.lens, total, rc⟩

/-- The state of `ocoms_unpack_homogeneous_contig` between two buffers: `bConverted`, the
displacements of the two stack entries, the user memory, the checksum. -/
structure UnpackContig where
  bConverted : ℕ
  disp₀ : ℤ
  disp₁ : ℤ
  mem : ℤ → Byte
  csum : Csum

/-- One buffer of `ocoms_unpack_homogeneous_contig`, and the bytes taken from it. What remains is
compared with `(uint32_t)iov_len`. -/
def unpackContigIov (pBaseBuf : ℤ) (localSize size : ℕ) (extent initialDispl : ℤ) (v : Fragment)
    (u : UnpackContig) : ℕ × UnpackContig :=
  let remaining := localSize - u.bConverted
  let remaining := if v.data.length % 2 ^ 32 < remaining then v.data.length else remaining
  let s : UnpackState := ⟨v.base, v.data, u.mem, u.csum⟩
  if size = extent then
    let s := s.copy build pBaseBuf (initialDispl + u.bConverted) remaining
    (remaining, { u with bConverted := u.bConverted + remaining, mem := s.mem, csum := s.csum })
  else
    let userMemory := initialDispl + (u.disp₀ + u.disp₁)
    let length := u.bConverted - u.bConverted / size * size
    -- complete the last copy
    let (userMemory, rest, s) :=
      if length ≠ 0 ∧ size - length ≤ remaining then
        (userMemory + (extent - (size - (size - length : ℕ))), remaining - (size - length),
          s.copy build pBaseBuf userMemory (size - length))
      else (userMemory, remaining, s)
    let copies := rest / size
    let s := s.copies build pBaseBuf extent size copies userMemory
    let userMemory := userMemory + copies * extent
    let rest := rest - copies * size
    let s := if rest ≠ 0 then s.copy build pBaseBuf userMemory rest else s
    (remaining, { bConverted := u.bConverted + remaining, disp₀ := userMemory - initialDispl,
                  disp₁ := rest, mem := s.mem, csum := s.csum })

/-- The loop over the buffers. -/
def unpackContigIovs (pBaseBuf : ℤ) (localSize size : ℕ) (extent initialDispl : ℤ) :
    List Fragment → UnpackContig → List ℕ × UnpackContig
  | [], u => ([], u)
  | v :: vs, u =>
      let (len, u) := unpackContigIov build pBaseBuf localSize size extent initialDispl v u
      let (lens, u) := unpackContigIovs pBaseBuf localSize size extent initialDispl vs u
      (len :: lens, u)

/-- `ocoms_unpack_homogeneous_contig`. -/
def unpackHomogeneousContig (conv : Convertor) (mem : ℤ → Byte) (iov : List Fragment) :
    Option UnpackResult := do
  let initialDispl ← conv.initialDispl
  match conv.stack with
  | [s₁, s₀] =>
      let (lens, u) := unpackContigIovs build conv.pBaseBuf conv.localSize conv.pDesc.size
        conv.pDesc.extent initialDispl iov ⟨conv.bConverted, s₀.disp, s₁.disp, mem, conv.csum⟩
      let (conv, rc) := { conv with
        bConverted := u.bConverted
        csum := u.csum
        stack := [{ s₁ with disp := u.disp₁ }, { s₀ with disp := u.disp₀ }] : Convertor }.finish
      return ⟨conv, u.mem, lens, lens.sum, rc⟩
  | _ => none

end Functions

/-! ### The general unpack -/

/-- The locals of `ocoms_unpack_general`: the stack below the current element, `pos_desc`,
`count_desc` and `disp_desc`. -/
structure GeneralCursor where
  stack : List DtStack
  pos : ℕ
  count : ℕ
  disp : ℤ

/-- What is left of a buffer, the bytes taken from it, and the user memory. -/
structure GeneralState where
  src : List Byte
  bConverted : ℕ
  mem : ℤ → Byte

/-- Where a visit of one entry leaves the loop: at the next entry, or at `save_and_return`. -/
inductive GeneralVisit
  | next (c : GeneralCursor) (s : GeneralState)
  | save (c : GeneralCursor) (s : GeneralState)

/-- `count_desc` and `disp_desc` are read at the entry at `pos`. -/
def generalEnter (desc : List DtElemDesc) (stack : List DtStack) (pos : ℕ) :
    Option GeneralCursor :=
  desc[pos]?.map fun e => { stack, pos, count := e.count, disp := e.disp }

/-- The `END_LOOP` branch; `true` says that the last copy is through. -/
def GeneralCursor.endLoop (desc : List DtElemDesc) (extent : ℤ) (c : GeneralCursor) :
    Option (Bool × GeneralCursor) :=
  match c.stack with
  | [] => none
  | top :: below =>
      let count := sizeDecr top.count
      if count = 0 then
        match below with
        | [] => some (true, { c with stack := [{ top with count := 0 }] })
        | _ :: _ => (generalEnter desc below (c.pos + 1)).map fun c' => (false, c')
      else do
        let ext ← loopExtent desc extent top.index
        let c' ← generalEnter desc ({ top with count, disp := top.disp + ext } :: below)
          (top.index + 1).toNat
        return (false, c')

/-- One visit of the entry at `pos_desc`. `none` is a call of a null function or a read outside
the description or the buffer. -/
def generalStep (master : Master) (remoteArch : Arch) (desc : List DtElemDesc) (extent : ℤ)
    (c : GeneralCursor) (s : GeneralState) : Option GeneralVisit :=
  match desc[c.pos]? with
  | none => none
  | some (.endLoop _) =>
      (c.endLoop desc extent).map fun (last, c') => if last then .save c' s else .next c' s
  | some (.loop l) =>
      (generalEnter desc ({ index := c.pos, count := l.loops, disp := stackDisp c.stack } :: c.stack)
        (c.pos + 1)).map fun c' => .next c' s
  | some (.elem e) => do
      let fct ← master.pFunctions e.type
      let r ← fct remoteArch c.count s.src (basicSize e.type) (stackDisp c.stack + c.disp) e.extent
        s.mem
      -- the advance leaves the buffer
      if s.src.length < r.advance then none
      else
        let s := { src := s.src.drop r.advance, bConverted := s.bConverted + r.advance,
                   mem := r.mem : GeneralState }
        if r.count ≠ c.count then
          return .save { c with count := c.count - r.count, disp := c.disp + r.count * e.extent } s
        else
          let c' ← generalEnter desc c.stack (c.pos + 1)
          return if s.src.length = 0 then .save c' s else .next c' s

/-- `while( 1 )`, at most `fuel` visits. -/
def generalWalk (master : Master) (remoteArch : Arch) (desc : List DtElemDesc) (extent : ℤ) :
    ℕ → GeneralCursor → GeneralState → Option (GeneralCursor × GeneralState)
  | 0, _, _ => none
  | fuel + 1, c, s =>
      match generalStep master remoteArch desc extent c s with
      | some (.next c' s') => generalWalk master remoteArch desc extent fuel c' s'
      | some (.save c' s') => some (c', s')
      | none => none

/-- The loop over the buffers. -/
def generalIovs (master : Master) (remoteArch : Arch) (desc : List DtElemDesc) (extent : ℤ)
    (fuel : ℕ) :
    List Fragment → GeneralCursor → (ℤ → Byte) → Option (List ℕ × GeneralCursor × (ℤ → Byte))
  | [], c, mem => some ([], c, mem)
  | v :: vs, c, mem => do
      let (c, s) ← generalWalk master remoteArch desc extent fuel c ⟨v.data, 0, mem⟩
      let (lens, c, mem) ← generalIovs master remoteArch desc extent fuel vs c s.mem
      return (s.bConverted :: lens, c, mem)

/-- `ocoms_unpack_general`. -/
def unpackGeneral (fuel : ℕ) (conv : Convertor) (mem : ℤ → Byte) (iov : List Fragment) :
    Option UnpackResult :=
  match conv.stack with
  | [] => none
  | saved :: stack => do
      let (lens, c, mem) ← generalIovs conv.master conv.remoteArch conv.useDesc.desc
        conv.pDesc.extent fuel iov ⟨stack, saved.index.toNat, saved.count, saved.disp⟩ mem
      let total := lens.sum
      let conv := { conv with bConverted := conv.bConverted + total }
      if conv.remoteSize = conv.bConverted then
        return ⟨{ conv with flags := { conv.flags with completed := true }, stack := c.stack },
          mem, lens, total, 1⟩
      else
        return ⟨{ conv with stack := ⟨c.pos, c.count, c.disp⟩ :: c.stack }, mem, lens, total, 0⟩

/-! ### `ocoms_convertor_unpack` -/

/-- The buffers of the `NO_OP` branch, with `pending` bytes left at `basePointer`. `true` says that
the last byte came in. -/
def unpackNoOpIovs : List Fragment → ℕ → ℤ → (ℤ → Byte) → List ℕ × Bool × (ℤ → Byte)
  | [], _, _, mem => ([], false, mem)
  | v :: vs, pending, basePointer, mem =>
      if pending ≤ v.data.length then
        ([pending], true, scatter mem (run basePointer pending) (v.data.take pending))
      else
        let n := v.data.length
        let (lens, last, mem) := unpackNoOpIovs vs (pending - n) (basePointer + n)
          (scatter mem (run basePointer n) v.data)
        (n :: lens, last, mem)

/-- The `NO_OP` branch of `ocoms_convertor_unpack`. -/
def unpackNoOp (conv : Convertor) (mem : ℤ → Byte) (iov : List Fragment) : UnpackResult :=
  let (lens, last, mem) := unpackNoOpIovs iov (conv.localSize - conv.bConverted)
    conv.getCurrentPointer mem
  let total := lens.sum
  if last then
    ⟨{ conv with
      bConverted := conv.localSize
      flags := { conv.flags with completed := true } }, mem, lens,
      conv.localSize - conv.bConverted, 1⟩
  else ⟨{ conv with bConverted := conv.bConverted + total }, mem, lens, total, 0⟩

/-- `ocoms_convertor_unpack`; `chk` is the checksum compilation. -/
def convertorUnpack (chk : Build) (fuel : ℕ) (conv : Convertor) (mem : ℤ → Byte)
    (iov : List Fragment) : Option UnpackResult :=
  if conv.flags.completed then some ⟨conv, mem, [], 0, 1⟩
  else
    let conv := { conv with csum := ⟨0, 0, 0⟩ }
    let build := if conv.fAdvanceChecksum then chk else Build.plain
    if conv.flags.noOp then some (unpackNoOp conv mem iov)
    else match conv.fAdvance with
      | .genericSimpleUnpack => genericSimpleUnpack build fuel conv mem iov
      | .unpackHomogeneousContig => unpackHomogeneousContig build conv mem iov
      | .unpackGeneral => unpackGeneral fuel conv mem iov
      | _ => none

/-! ### Partial elements are written in place -/

lemma length_ge_of_forall_mem {data : List Byte} {n : ℕ} (hn : n < 256)
    (h : ∀ k ≤ n, BitVec.ofNat 8 k ∈ data) : n + 1 ≤ data.length := by
  have hnodup : ((List.range (n + 1)).map (BitVec.ofNat 8)).Nodup := by
    refine (List.nodup_range).map_on fun i hi j hj hij => ?_
    have hi := List.mem_range.mp hi
    have hj := List.mem_range.mp hj
    have := congrArg BitVec.toNat hij
    simp only [BitVec.toNat_ofNat] at this
    omega
  have hsub : (List.range (n + 1)).map (BitVec.ofNat 8) ⊆ data := by
    intro b hb
    obtain ⟨k, hk, rfl⟩ := List.mem_map.mp hb
    exact h k (by have := List.mem_range.mp hk; omega)
  simpa using (List.subperm_of_subset hnodup hsub).length_le

/-- The search finds a byte, unless the fragment contains all the bytes it looks at. -/
lemma findUnusedByte_spec (data : List Byte) (n : ℕ) :
    (∃ k ≤ n, findUnusedByte data n = k ∧ BitVec.ofNat 8 k ∉ data) ∨
      ∀ k ≤ n, BitVec.ofNat 8 k ∈ data := by
  induction n with
  | zero =>
      by_cases h : (0 : Byte) ∈ data
      · exact Or.inr fun k hk => by rwa [Nat.le_zero.mp hk]
      · exact Or.inl ⟨0, le_rfl, by rw [findUnusedByte, if_neg h, Nat.cast_zero], h⟩
  | succ n ih =>
      by_cases h : BitVec.ofNat 8 (n + 1) ∈ data
      · rcases ih with ⟨k, hk, hfind, hmem⟩ | hall
        · exact Or.inl ⟨k, by omega, by rw [findUnusedByte, if_pos h, hfind], hmem⟩
        · refine Or.inr fun k hk => ?_
          rcases Nat.lt_or_ge n k with hlt | hge
          · rwa [show k = n + 1 by omega]
          · exact hall k hge
      · exact Or.inl ⟨n + 1, le_rfl, by rw [findUnusedByte, if_neg h], h⟩

lemma exists_findUnusedByte {data : List Byte} (h : data.length ≤ 127) :
    ∃ k ≤ 127, findUnusedByte data 0x7F = (k : ℕ) ∧ BitVec.ofNat 8 k ∉ data := by
  rcases findUnusedByte_spec data 0x7F with hk | hall
  · exact hk
  · have := length_ge_of_forall_mem (by norm_num) hall
    omega

lemma restoreUnused_apply (unused : ℤ) (saved : List Byte) (addr : ℤ) (mem : ℤ → Byte) (x : ℤ) :
    restoreUnused unused saved addr mem x =
      if addr ≤ x ∧ ((mem x).toNat : ℤ) = unused then saved[(x - addr).toNat]?.getD (mem x)
      else mem x := by
  induction saved generalizing addr mem with
  | nil => simp [restoreUnused]
  | cons b saved ih =>
      rw [restoreUnused, ih]
      rcases lt_trichotomy x addr with h | rfl | h
      · have hx : x ≠ addr := h.ne
        split_ifs <;> first | omega | simp [Function.update_of_ne hx]
      · have hx : ¬ x + 1 ≤ x := by omega
        simp only [hx, false_and, if_false, le_refl, true_and, sub_self, Int.toNat_zero,
          List.getElem?_cons_zero, Option.getD_some]
        split_ifs <;> simp
      · have hx : x ≠ addr := h.ne'
        have hidx : (x - addr).toNat = (x - (addr + 1)).toNat + 1 := by omega
        have hmem : (if ((mem addr).toNat : ℤ) = unused then Function.update mem addr b else mem) x
            = mem x := by
          split_ifs
          · exact Function.update_of_ne hx _ _
          · rfl
        rw [hmem, hidx, List.getElem?_cons_succ]
        simp only [show addr + 1 ≤ x by omega, h.le]

/-- The bytes between the unused ones of a filled element are the ones that are written. -/
lemma restoreUnused_scatter {data : List Byte} {k : ℕ} (hk : k ≤ 127)
    (hmem : BitVec.ofNat 8 k ∉ data) (pre post : ℕ) (addr : ℤ) (mem : ℤ → Byte) :
    restoreUnused k (gather mem (run addr (pre + data.length + post))) addr
        (scatter mem (run addr (pre + data.length + post))
          (List.replicate pre (BitVec.ofInt 8 k) ++ data ++ List.replicate post (BitVec.ofInt 8 k)))
      = scatter mem (run (addr + pre) data.length) data := by
  set fill : List Byte :=
    List.replicate pre (BitVec.ofInt 8 k) ++ data ++ List.replicate post (BitVec.ofInt 8 k) with hfill
  have hlen : pre + data.length + post = fill.length := by simp [hfill, Nat.add_assoc]
  have hunused : ((BitVec.ofInt 8 k : Byte).toNat : ℤ) = k := by
    rw [BitVec.toNat_ofInt]
    omega
  have hdata : ∀ b ∈ data, (b.toNat : ℤ) ≠ k := by
    intro b hb hbk
    have : b = BitVec.ofNat 8 k := by
      rw [← Nat.cast_inj.mp hbk, BitVec.ofNat_toNat, BitVec.setWidth_eq]
    exact hmem (this ▸ hb)
  funext x
  rw [hlen, restoreUnused_apply, scatter_run_apply, scatter_run_apply, getElem?_gather_run]
  by_cases hx : addr ≤ x
  · obtain ⟨i, rfl⟩ : ∃ i : ℕ, x = addr + i := ⟨(x - addr).toNat, by omega⟩
    have hi : (addr + i - addr).toNat = i := by omega
    simp only [hx, if_true, true_and, hi]
    rcases Nat.lt_or_ge i pre with h₁ | h₁
    · have hget : fill[i]? = some (BitVec.ofInt 8 k) := by
        rw [hfill, List.append_assoc, List.getElem?_append_left (by simpa using h₁),
          List.getElem?_replicate_of_lt h₁]
      rw [hget, Option.getD_some, if_pos hunused, if_pos (by omega), if_neg (by omega),
        Option.getD_some]
    · have hj : (addr + i - (addr + pre)).toNat = i - pre := by omega
      rw [if_pos (show addr + (pre : ℤ) ≤ addr + i by omega), hj]
      rcases Nat.lt_or_ge i (pre + data.length) with h₂ | h₂
      · have hd : i - pre < data.length := by omega
        have hget : fill[i]? = some data[i - pre] := by
          rw [hfill, List.append_assoc, List.getElem?_append_right (by simpa using h₁),
            List.length_replicate, List.getElem?_append_left hd, List.getElem?_eq_getElem hd]
        rw [hget, Option.getD_some, if_neg (hdata _ (List.getElem_mem _)),
          List.getElem?_eq_getElem hd, Option.getD_some]
      · have hnone : data[i - pre]? = none := List.getElem?_eq_none (by omega)
        rw [hnone, Option.getD_none]
        rcases Nat.lt_or_ge i fill.length with h₃ | h₃
        · have hget : fill[i]? = some (BitVec.ofInt 8 k) := by
            have hpost : i - (pre + data.length) < post := by omega
            rw [hfill, List.getElem?_append_right (by simpa using h₂), List.length_append,
              List.length_replicate, List.getElem?_replicate_of_lt hpost]
          rw [hget, Option.getD_some, if_pos hunused, if_pos h₃, Option.getD_some]
        · have hget : fill[i]? = none := List.getElem?_eq_none h₃
          rw [hget, Option.getD_none, if_neg (not_lt.mpr h₃), Option.getD_none, ite_self]
  · rw [if_neg (fun h => hx h.1), if_neg hx, if_neg (by omega)]

/-- One element out of a buffer that holds just that. -/
lemma unpackPredefinedData_one (build : Build) (pBaseBuf : ℤ) (e : ElemDesc) (dest : ℤ)
    (s : UnpackState) (hlen : s.src.length = basicSize e.type) :
    unpackPredefinedData build pBaseBuf e 1 dest s
      = (0, dest + e.extent, s.copy build pBaseBuf (dest + e.disp) (basicSize e.type)) := by
  have hnot : ¬ s.src.length < 1 * basicSize e.type := by omega
  rw [unpackPredefinedData, if_neg (fun h => hnot h.1), if_neg hnot]
  split_ifs with hdense
  · rw [Nat.mul_one, hdense]
  · rw [Nat.cast_one, one_mul]
    rfl

/-- **A partial element**: its bytes are written in place, and no other. -/
lemma unpackPartialDatatype_spec (build : Build) (pBaseBuf : ℤ) {e : ElemDesc}
    {partialData : List Byte} {startPosition endPosition : ℕ} (userBuffer : ℤ) (mem : ℤ → Byte)
    (csum : Csum) (hle : basicSize e.type ≤ partialBufferLength)
    (hstart : startPosition ≤ endPosition) (hend : endPosition ≤ basicSize e.type)
    (hlen : endPosition - startPosition ≤ partialData.length) :
    ∃ csum', unpackPartialDatatype build pBaseBuf e partialData startPosition endPosition userBuffer
        mem csum
      = some (userBuffer + e.extent,
          scatter mem (run (userBuffer + e.disp + startPosition) (endPosition - startPosition))
            (partialData.take (endPosition - startPosition)), csum') := by
  set data := partialData.take (endPosition - startPosition) with hdata
  have hdl : data.length = endPosition - startPosition := by
    rw [hdata, List.length_take, Nat.min_eq_left hlen]
  have hsmall : data.length ≤ 127 := by
    rw [partialBufferLength] at hle
    omega
  obtain ⟨k, hk, hfind, hmem⟩ := exists_findUnusedByte hsmall
  have hsize : startPosition + data.length + (basicSize e.type - endPosition)
      = basicSize e.type := by omega
  set temporary : List Byte := List.replicate startPosition (BitVec.ofInt 8 k) ++ data
    ++ List.replicate (basicSize e.type - endPosition) (BitVec.ofInt 8 k) with htemp
  have htlen : temporary.length = basicSize e.type := by
    rw [htemp, List.length_append, List.length_append, List.length_replicate,
      List.length_replicate, hsize]
  have hguard : ¬ (partialBufferLength < basicSize e.type ∨
      partialData.length < endPosition - startPosition) := by omega
  have hrestore := restoreUnused_scatter hk hmem startPosition (basicSize e.type - endPosition)
    (userBuffer + e.disp) mem
  rw [hsize, ← htemp, hdl] at hrestore
  refine ⟨build.memcpyCsum 0 (pBaseBuf + (userBuffer + e.disp)) temporary csum, ?_⟩
  rw [unpackPartialDatatype, if_neg hguard]
  simp only [← hdata, hfind, ← htemp]
  rw [unpackPredefinedData_one build pBaseBuf e userBuffer _ htlen]
  simp only [UnpackState.copy, List.take_of_length_le htlen.le, hrestore]

/-- The search ends at a byte that the part does not contain. -/
lemma findUnusedByte_terminates {data : List Byte} (h : data.length ≤ partialBufferLength) :
    ∃ k ≤ 0x7F, findUnusedByte data 0x7F = (k : ℕ) ∧ BitVec.ofNat 8 k ∉ data := by
  rw [partialBufferLength] at h
  exact exists_findUnusedByte (by omega)

/-- Two parts of an element, written one behind the other, are the element. -/
lemma scatter_parts (mem : ℤ → Byte) (a : ℤ) {first second : List Byte} {n m : ℕ}
    (hfirst : first.length = n) :
    scatter (scatter mem (run a n) first) (run (a + n) m) second
      = scatter mem (run a (n + m)) (first ++ second) := by
  rw [run_add, scatter_append mem (by rw [length_run, hfirst])]

/-- **The two parts of an element**: behind the first one the missing bytes are what they were,
behind the second one the element is there, and nothing else has changed. -/
theorem unpackPartialDatatype_split (build : Build) (pBaseBuf : ℤ) {e : ElemDesc} {n : ℕ}
    (hsize : basicSize e.type ≤ 16) (hn : n ≤ basicSize e.type) {first second : List Byte}
    (hfirst : n ≤ first.length) (hsecond : basicSize e.type - n ≤ second.length)
    (userBuffer : ℤ) (mem : ℤ → Byte) (csum csum' : Csum) :
    (∃ k ≤ 0x7F, findUnusedByte (first.take n) 0x7F = (k : ℕ) ∧
        BitVec.ofNat 8 k ∉ first.take n) ∧
      (∃ k ≤ 0x7F, findUnusedByte (second.take (basicSize e.type - n)) 0x7F = (k : ℕ) ∧
        BitVec.ofNat 8 k ∉ second.take (basicSize e.type - n)) ∧
      ∃ mem₁ csum₁ mem₂ csum₂,
        unpackPartialDatatype build pBaseBuf e first 0 n userBuffer mem csum
            = some (userBuffer + e.extent, mem₁, csum₁) ∧
          (∀ i : ℕ, n ≤ i → mem₁ (userBuffer + e.disp + i) = mem (userBuffer + e.disp + i)) ∧
          (∀ x ∉ run (userBuffer + e.disp) (basicSize e.type), mem₁ x = mem x) ∧
          unpackPartialDatatype build pBaseBuf e second n (basicSize e.type) userBuffer mem₁ csum'
            = some (userBuffer + e.extent, mem₂, csum₂) ∧
          gather mem₂ (run (userBuffer + e.disp) (basicSize e.type))
            = first.take n ++ second.take (basicSize e.type - n) ∧
          ∀ x ∉ run (userBuffer + e.disp) (basicSize e.type), mem₂ x = mem x := by
  set m := basicSize e.type - n with hm
  have hnm : n + m = basicSize e.type := by omega
  have hlen₁ : (first.take n).length = n := by rw [List.length_take, Nat.min_eq_left hfirst]
  have hlen₂ : (second.take m).length = m := by rw [List.length_take, Nat.min_eq_left hsecond]
  refine ⟨findUnusedByte_terminates (by rw [hlen₁, partialBufferLength]; omega),
    findUnusedByte_terminates (by rw [hlen₂, partialBufferLength]; omega), ?_⟩
  obtain ⟨csum₁, hcall₁⟩ := unpackPartialDatatype_spec build pBaseBuf userBuffer mem csum hsize
    (Nat.zero_le n) hn hfirst
  rw [Nat.cast_zero, add_zero, Nat.sub_zero] at hcall₁
  set mem₁ := scatter mem (run (userBuffer + e.disp) n) (first.take n) with hmem₁
  obtain ⟨csum₂, hcall₂⟩ := unpackPartialDatatype_spec build pBaseBuf userBuffer mem₁ csum' hsize
    hn le_rfl hsecond
  rw [← hm, hmem₁, scatter_parts mem _ hlen₁, hnm] at hcall₂
  refine ⟨mem₁, csum₁, _, csum₂, hcall₁, ?_, ?_, hcall₂, ?_, ?_⟩
  · intro i hi
    refine scatter_of_notMem mem _ fun hmem => ?_
    have := (mem_run.mp hmem).2
    omega
  · intro x hx
    refine scatter_of_notMem mem _ fun hmem => hx ?_
    rw [← hnm, run_add]
    exact List.mem_append_left _ hmem
  · exact gather_scatter_run mem _ (by rw [List.length_append, hlen₁, hlen₂, hnm])
  · intro x hx
    exact scatter_of_notMem mem _ hx

/-- A `double` behind four other bytes, in parts of three and five bytes, where the memory already
holds the first filler. -/
theorem unpackPartialDatatype_split_float8 :
    ∃ mem₁ csum₁ mem₂ csum₂,
      unpackPartialDatatype Build.plain 0 ⟨{}, .float8, 1, 8, 4⟩ [1, 0x7F, 0xFF] 0 3 100
          (fun _ => 0x7F) ⟨0, 0, 0⟩ = some (108, mem₁, csum₁) ∧
        unpackPartialDatatype Build.plain 0 ⟨{}, .float8, 1, 8, 4⟩ [4, 5, 6, 7, 8, 9] 3 8 100
          mem₁ csum₁ = some (108, mem₂, csum₂) ∧
        gather mem₂ (run 104 8) = [1, 0x7F, 0xFF, 4, 5, 6, 7, 8] := by
  obtain ⟨-, -, mem₁, csum₁, -, -, hcall₁, -⟩ :=
    unpackPartialDatatype_split Build.plain 0 (e := ⟨{}, .float8, 1, 8, 4⟩) (n := 3)
      (by decide) (by decide) (show 3 ≤ ([1, 0x7F, 0xFF] : List Byte).length by decide)
      (show 5 ≤ ([4, 5, 6, 7, 8, 9] : List Byte).length by decide) 100 (fun _ => 0x7F) ⟨0, 0, 0⟩ ⟨0, 0, 0⟩
  obtain ⟨-, -, mem₁', csum₁', mem₂, csum₂, hcall₁', -, -, hcall₂, hbytes, -⟩ :=
    unpackPartialDatatype_split Build.plain 0 (e := ⟨{}, .float8, 1, 8, 4⟩) (n := 3)
      (by decide) (by decide) (show 3 ≤ ([1, 0x7F, 0xFF] : List Byte).length by decide)
      (show 5 ≤ ([4, 5, 6, 7, 8, 9] : List Byte).length by decide) 100 (fun _ => 0x7F) ⟨0, 0, 0⟩ csum₁
  obtain ⟨rfl, rfl⟩ : mem₁ = mem₁' ∧ csum₁ = csum₁' := by
    simpa using hcall₁.symm.trans hcall₁'
  exact ⟨mem₁, csum₁, mem₂, csum₂, hcall₁, hcall₂, hbytes⟩

end Ocoms
