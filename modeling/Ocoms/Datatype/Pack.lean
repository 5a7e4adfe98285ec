import Ocoms.Datatype.Convertor

/-!
Packing: `ocoms_datatype_pack.h`, `ocoms_datatype_pack.c` and `ocoms_convertor_pack`.

* `packWalker` copies elements and passes of `CONTIGUOUS` loops into a buffer, as many as fit;
  `genericSimplePack` walks the description with it, buffer after buffer.
* `packHomogeneousContig`, `packHomogeneousContigWithGaps` and the `NO_OP` branch serve
  `CONTIGUOUS` datatypes; `convertorPack` chooses among the four.
* `Greedy.pieces` is the abstract packer: for every buffer, as many of the elements still to come
  as fit. `packIovs_spec` says that the walk refines it, and `Convertor.GenericInv` is the
  invariant that every call keeps (`PackRun.genericInv`).
* `pack_independent_of_fragmentation` is the theorem about any sequence of calls.
-/

namespace Ocoms

open Layout Greedy

/-! ### Copying one entry -/

/-- The destination: the space left in the buffer at `dest`, what has been written to it, and the
checksum. -/
structure PackState where
  dest : ℤ
  space : ℕ
  out : List Byte
  csum : Csum

section Entry

variable (build : Build) (mem : ℤ → Byte) (pBaseBuf : ℤ)

/-- One `MEMCPY_CSUM` of `n` bytes from `source`. -/
def PackState.copy (source : ℤ) (n : ℕ) (s : PackState) : PackState :=
  let bytes := gather mem (run source n)
  { s with
    space := s.space - n
    out := s.out ++ bytes
    csum := build.memcpyCsum (pBaseBuf + source) (s.dest + s.out.length) bytes s.csum }

/-- `n` copies of `len` bytes, `extent` apart. -/
def PackState.copies (extent : ℤ) (len : ℕ) : ℕ → ℤ → PackState → PackState
  | 0, _, s => s
  | n + 1, source, s => copies extent len n (source + extent) (s.copy build mem pBaseBuf source len)

/-- `pack_predefined_data`. -/
def packPredefinedData (e : ElemDesc) (count : ℕ) (source : ℤ) (s : PackState) :
    ℕ × ℤ × PackState :=
  let blength := basicSize e.type
  let copyCount := if s.space < count * blength then s.space / blength else count
  if s.space < count * blength ∧ copyCount = 0 then (count, source, s)
  else if (blength : ℤ) = e.extent then
    (count - copyCount, source + (blength * copyCount : ℕ),
      s.copy build mem pBaseBuf (source + e.disp) (blength * copyCount))
  else
    (count - copyCount, source + copyCount * e.extent,
      s.copies build mem pBaseBuf e.extent blength copyCount (source + e.disp))

/-- `pack_contiguous_loop`. -/
def packContiguousLoop (l : LoopDesc) (e : EndLoopDesc) (count : ℕ) (source : ℤ) (s : PackState) :
    ℕ × ℤ × PackState :=
  let copyLoops := if s.space < count * e.size then s.space / e.size else count
  (count - copyLoops, source + copyLoops * l.extent,
    s.copies build mem pBaseBuf l.extent e.size copyLoops (source + e.firstElemDisp))

/-- The walker of the generic pack. -/
def packWalker : Walker PackState where
  data := packPredefinedData build mem pBaseBuf
  contig := packContiguousLoop build mem pBaseBuf

end Entry

/-! ### The pack functions -/

/-- What a pack call returns: the convertor, the bytes of the first `out_size` buffers,
`max_data` and the return value. -/
structure PackResult where
  conv : Convertor
  frags : List (List Byte)
  maxData : ℕ
  rc : ℤ

section Functions

variable (build : Build) (mem : ℤ → Byte)

/-- The loop over the buffers: the bytes packed into each, and the cursor and the checksum
afterwards. It ends early behind the last copy. -/
def packIovs (pBaseBuf : ℤ) (desc : List DtElemDesc) (extent : ℤ) (fuel : ℕ) :
    List Iovec → Cursor → Csum → Option (List (List Byte) × Cursor × Csum)
  | [], c, csum => some ([], c, csum)
  | v :: vs, c, csum =>
      match walk (packWalker build mem pBaseBuf) desc extent fuel c ⟨v.base, v.len, [], csum⟩ with
      | some (.suspend c' s') => do
          let (outs, c'', csum'') ← packIovs pBaseBuf desc extent fuel vs c' s'.csum
          return (s'.out :: outs, c'', csum'')
      | some (.complete c' s') => some ([s'.out], c', s'.csum)
      | _ => none

/-- `ocoms_generic_simple_pack`. -/
def genericSimplePack (fuel : ℕ) (conv : Convertor) (iov : List Iovec) : Option PackResult := do
  let c ← conv.load
  let (frags, c', csum) ←
    packIovs build mem conv.pBaseBuf conv.useDesc.desc conv.pDesc.extent fuel iov c conv.csum
  let total := (frags.map List.length).sum
  let (conv, rc) := conv.leave c' total conv.localSize csum
  return ⟨conv, frags, total, rc⟩

/-- `use_desc->desc[use_desc->used].end_loop.first_elem_disp`. -/
def Convertor.initialDispl (conv : Convertor) : Option ℤ :=
  match conv.useDesc.desc[conv.useDesc.used]? with
  | some (.endLoop e) => some e.firstElemDisp
  | _ => none

/-- The loop of `ocoms_pack_homogeneous_contig`, with `length` bytes left at `sourceBase`: a
buffer without an address is pointed at the user memory. -/
def packContigIovs (pBaseBuf : ℤ) : List Iovec → ℕ → ℤ → Csum → List (List Byte) × Csum
  | [], _, _, csum => ([], csum)
  | v :: vs, length, sourceBase, csum =>
      if length = 0 then ([], csum)
      else
        let len := min v.len length
        let bytes := gather mem (run sourceBase len)
        let csum := if v.base = 0 then build.computeCsum (pBaseBuf + sourceBase) bytes csum
          else build.memcpyCsum (pBaseBuf + sourceBase) v.base bytes csum
        let (frags, csum) := packContigIovs pBaseBuf vs (length - len) (sourceBase + len) csum
        (bytes :: frags, csum)

/-- The flag and the return value at the end of a call. -/
def Convertor.finish (conv : Convertor) : Convertor × ℤ :=
  if conv.bConverted = conv.localSize then
    ({ conv with flags := { conv.flags with completed := true } }, 1)
  else (conv, 0)

/-- `ocoms_pack_homogeneous_contig`. -/
def packHomogeneousContig (conv : Convertor) (iov : List Iovec) : Option PackResult := do
  let initialDispl ← conv.initialDispl
  match conv.stack with
  | [s₁, s₀] =>
      let (frags, csum) := packContigIovs build mem conv.pBaseBuf iov
        (conv.localSize - conv.bConverted) (initialDispl + s₀.disp + s₁.disp) conv.csum
      let total := (frags.map List.length).sum
      let (conv, rc) := { conv with
        bConverted := conv.bConverted + total
        csum
        stack := [s₁, { s₀ with disp := s₀.disp + total }] : Convertor }.finish
      return ⟨conv, frags, total, rc⟩
  | _ => none

/-- The data that `ocoms_pack_homogeneous_contig_with_gaps` points small buffers at, one copy
each: `len` bytes at `userMemory`, then whole copies from `disp` on. -/
def packGapsReferences (pBaseBuf : ℤ) (size : ℕ) (extent : ℤ) :
    ℕ → ℕ → ℤ → ℤ → Csum → List (List Byte) × Csum
  | 0, _, _, _, csum => ([], csum)
  | n + 1, len, userMemory, disp, csum =>
      let bytes := gather mem (run userMemory len)
      let (frags, csum') := packGapsReferences pBaseBuf size extent n size (disp + extent)
        (disp + extent) (build.computeCsum (pBaseBuf + userMemory) bytes csum)
      (bytes :: frags, csum')

/-- The data that it points buffers at when a copy is at least `IOVEC_MEM_LIMIT` bytes long, one
copy each. A buffer that is given only a part of a copy is added to the checksum, and neither
counted in `out_size` nor in `max_data`. -/
def packGapsLarge (pBaseBuf : ℤ) (size : ℕ) (extent : ℤ) :
    ℕ → ℕ → ℤ → Csum → List (List Byte) × Csum
  | 0, _, _, csum => ([], csum)
  | n + 1, maxAllowed, userMemory, csum =>
      let len := min maxAllowed size
      let bytes := gather mem (run userMemory len)
      let csum := build.computeCsum (pBaseBuf + userMemory) bytes csum
      if maxAllowed < size then ([], csum)
      else
        let (frags, csum) :=
          packGapsLarge pBaseBuf size extent n (maxAllowed - size) (userMemory + extent) csum
        (bytes :: frags, csum)

/-- `IOVEC_MEM_LIMIT`. -/
def iovecMemLimit : ℕ := 8192

/-- `ocoms_pack_homogeneous_contig_with_gaps`. The length of a buffer is not looked at: the first
one takes all that `max_data` allows, and the loop ends there. `none` is the wrap of
`max_allowed` below zero. -/
def packHomogeneousContigWithGaps (conv : Convertor) (iov : List Iovec) (maxData : ℕ) :
    Option PackResult := do
  let initialDispl ← conv.initialDispl
  let size := conv.pDesc.size
  let extent := conv.pDesc.extent
  match conv.stack with
  | [s₁, s₀] =>
      let maxAllowed := min (conv.localSize - conv.bConverted) maxData
      let i := conv.bConverted / size
      let userMemory := initialDispl + s₀.disp + s₁.disp
      match iov with
      | [] =>
          let (conv, rc) := { conv with
            stack := [{ s₁ with disp := maxAllowed },
              { s₀ with disp := userMemory - initialDispl }] : Convertor }.finish
          return ⟨conv, [], 0, rc⟩
      | v :: _ =>
          if maxAllowed = 0 then
            let (conv, rc) := { conv with
              stack := [{ s₁ with disp := 0 },
                { s₀ with disp := userMemory - initialDispl }] : Convertor }.finish
            return ⟨conv, [], 0, rc⟩
          else if v.base = 0 ∧ s₀.count < iov.length then
            let (frags, csum) := packGapsReferences build mem conv.pBaseBuf size extent
              (conv.count - i) (size - conv.bConverted % size) userMemory
              (initialDispl + s₀.disp) conv.csum
            let total := (frags.map List.length).sum
            return ⟨{ conv with
              bConverted := conv.bConverted + total
              csum
              flags := { conv.flags with completed := true }
              stack := [{ s₁ with disp := 0, count := size },
                { s₀ with disp := s₀.disp + (conv.count - i : ℕ) * extent }] }, frags, total, 1⟩
          else if v.base = 0 ∧ iovecMemLimit ≤ size then
            let (frags, csum) := packGapsLarge build mem conv.pBaseBuf size extent
              (min (conv.count - i) iov.length) maxAllowed userMemory conv.csum
            let total := (frags.map List.length).sum
            let (conv, rc) := { conv with
              bConverted := conv.bConverted + total, csum : Convertor }.finish
            return ⟨conv, frags, total, rc⟩
          else
            -- the rest of the copy the last call stopped in
            let rest := if conv.bConverted - i * size ≠ 0 then size - (conv.bConverted - i * size)
              else 0
            if maxAllowed < rest then none
            else
              let counter := min ((maxAllowed - rest) / size) conv.count
              let pending := maxAllowed - rest - counter * size
              let s₁' : PackState := ⟨v.base, maxAllowed, [], conv.csum⟩
              let (userMemory, s) := if rest ≠ 0 then
                (userMemory + (extent - size + rest), s₁'.copy build mem conv.pBaseBuf userMemory rest)
                else (userMemory, s₁')
              let s := s.copies build mem conv.pBaseBuf extent size counter userMemory
              let userMemory := userMemory + counter * extent
              let (userMemory, s) := if pending ≠ 0 then
                (userMemory + pending, s.copy build mem conv.pBaseBuf userMemory pending)
                else (userMemory, s)
              let (conv, rc) := { conv with
                bConverted := conv.bConverted + maxAllowed
                csum := s.csum
                stack := [{ s₁ with disp := 0 },
                  { s₀ with disp := userMemory - initialDispl }] : Convertor }.finish
              return ⟨conv, [s.out], maxAllowed, rc⟩
  | _ => none

/-- The buffers of the `NO_OP` branch, with `pending` bytes left at `basePointer`. `true` says that
the last byte went out. -/
def packNoOpIovs : List Iovec → ℕ → ℤ → List (List Byte) × Bool
  | [], _, _ => ([], false)
  | v :: vs, pending, basePointer =>
      if pending ≤ v.len then ([gather mem (run basePointer pending)], true)
      else
        let (frags, last) := packNoOpIovs vs (pending - v.len) (basePointer + v.len)
        (gather mem (run basePointer v.len) :: frags, last)

/-- `ocoms_convertor_get_current_pointer`, relative to the user buffer. -/
def Convertor.getCurrentPointer (conv : Convertor) : ℤ := conv.bConverted + conv.pDesc.trueLb

/-- The `NO_OP` branch of `ocoms_convertor_pack`. -/
def packNoOp (conv : Convertor) (iov : List Iovec) : PackResult :=
  let (frags, last) := packNoOpIovs mem iov (conv.localSize - conv.bConverted)
    conv.getCurrentPointer
  let total := (frags.map List.length).sum
  if last then
    ⟨{ conv with
      bConverted := conv.localSize
      flags := { conv.flags with completed := true } }, frags, conv.localSize - conv.bConverted, 1⟩
  else ⟨{ conv with bConverted := conv.bConverted + total }, frags, total, 0⟩

end Functions

/-- `ocoms_convertor_pack`; `chk` is the checksum compilation. -/
def convertorPack (chk : Build) (mem : ℤ → Byte) (fuel : ℕ) (conv : Convertor) (iov : List Iovec)
    (maxData : ℕ) : Option PackResult :=
  if conv.flags.completed then some ⟨conv, [], 0, 1⟩
  else
    let conv := { conv with csum := ⟨0, 0, 0⟩ }
    let build := if conv.fAdvanceChecksum then chk else Build.plain
    if conv.flags.noOp then some (packNoOp mem conv iov)
    else match conv.fAdvance with
      | .genericSimplePack => genericSimplePack build mem fuel conv iov
      | .packHomogeneousContig => packHomogeneousContig build mem conv iov
      | .packHomogeneousContigWithGaps => packHomogeneousContigWithGaps build mem conv iov maxData
      | _ => none

/-! ### The walker copies what fits -/

section Sound

variable (build : Build) (mem : ℤ → Byte) (pBaseBuf : ℤ)

/-- The walker has copied the bytes at the addresses `as`. -/
structure PackState.Eats (s : PackState) (as : List ℤ) (s' : PackState) : Prop where
  space : s.space = as.length + s'.space
  out : s'.out = s.out ++ gather mem as
  csum : build.Copies s.csum (gather mem as) s'.csum

variable {build mem} in
lemma PackState.Eats.refl (s : PackState) : s.Eats build mem [] s :=
  ⟨by simp, by simp, .nil _⟩

variable {build mem} in
lemma PackState.Eats.trans {s s' s'' : PackState} {as bs : List ℤ} (h : s.Eats build mem as s')
    (h' : s'.Eats build mem bs s'') : s.Eats build mem (as ++ bs) s'' where
  space := by rw [h.space, h'.space, List.length_append, Nat.add_assoc]
  out := by rw [h'.out, h.out, gather_append, List.append_assoc]
  csum := by
    rw [gather_append]
    exact h.csum.append h'.csum

lemma PackState.eats_copy {s : PackState} (source : ℤ) {n : ℕ} (h : n ≤ s.space) :
    s.Eats build mem (run source n) (s.copy build mem pBaseBuf source n) where
  space := by
    simp only [PackState.copy, length_run]
    omega
  out := rfl
  csum := .one build _ _ _ _

lemma PackState.eats_copies {s : PackState} (extent : ℤ) (len n : ℕ) (source : ℤ)
    (h : n * len ≤ s.space) :
    s.Eats build mem (stride n extent (fun x => run x len) source)
      (s.copies build mem pBaseBuf extent len n source) := by
  induction n generalizing s source with
  | zero => exact .refl s
  | succ n ih =>
      have hlen : n * len + len ≤ s.space := by rwa [← Nat.add_one_mul]
      have hcopy := s.eats_copy build mem pBaseBuf source
        (Nat.le_of_add_left_le hlen)
      have hspace := hcopy.space
      rw [length_run] at hspace
      exact hcopy.trans (ih (source + extent) (by omega))

/-- As many as fit, of `count` pieces of `len` bytes. -/
lemma fitCount_spec {count len space : ℕ} (hlen : 0 < len) :
    (if space < count * len then space / len else count) ≤ count ∧
      (if space < count * len then space / len else count) * len ≤ space ∧
      ((if space < count * len then space / len else count) < count →
        space < ((if space < count * len then space / len else count) + 1) * len) := by
  split
  · next h =>
    refine ⟨?_, Nat.div_mul_le_self _ _, fun _ => ?_⟩
    · exact (Nat.div_le_div_right h.le).trans_eq (Nat.mul_div_cancel _ hlen)
    · rw [Nat.mul_comm]
      exact Nat.lt_mul_div_succ _ hlen
  · next h => exact ⟨le_rfl, not_lt.mp h, fun h => absurd h (lt_irrefl _)⟩

lemma packPredefinedData_spec (e : ElemDesc) (count : ℕ) (base : ℤ) (s : PackState)
    (hsize : 0 < basicSize e.type) :
    ∃ m s', m ≤ count ∧
      packPredefinedData build mem pBaseBuf e count base s = (count - m, base + m * e.extent, s') ∧
      s.Eats build mem (blocksBytes (elemBlocks e m base)) s' ∧ (m < count → s'.space < basicSize e.type) := by
  obtain ⟨hle, hfits, hstop⟩ := fitCount_spec hsize
  set m := if s.space < count * basicSize e.type then s.space / basicSize e.type else count with hm
  have hstops : ∀ s' : PackState, s.Eats build mem (blocksBytes (elemBlocks e m base)) s' →
      m < count → s'.space < basicSize e.type := by
    intro s' he hlt
    have hlt := hstop hlt
    have hspace := he.space
    rw [length_blocksBytes_elemBlocks] at hspace
    rw [Nat.add_one_mul] at hlt
    omega
  by_cases h0 : s.space < count * basicSize e.type ∧ m = 0
  · refine ⟨m, s, hle, ?_, ?_, hstops s ?_⟩
    · rw [packPredefinedData, if_pos h0, h0.2]
      simp
    · rw [h0.2]
      exact .refl s
    · rw [h0.2]
      exact .refl s
  · by_cases hdense : (basicSize e.type : ℤ) = e.extent
    · have heats := s.eats_copy build mem pBaseBuf
        (base + e.disp) (n := basicSize e.type * m) (by rwa [Nat.mul_comm])
      rw [Nat.mul_comm, ← blocksBytes_elemBlocks_dense hdense, Nat.mul_comm] at heats
      refine ⟨m, _, hle, ?_, heats, hstops _ heats⟩
      have hcast : ((basicSize e.type * m : ℕ) : ℤ) = m * basicSize e.type := by
        rw [Nat.cast_mul, mul_comm]
      rw [packPredefinedData, if_neg h0, if_pos hdense, ← hdense, ← hcast]
    · have heats := s.eats_copies build mem pBaseBuf e.extent
        (basicSize e.type) m (base + e.disp) hfits
      rw [← blocksBytes_elemBlocks] at heats
      refine ⟨m, _, hle, ?_, heats, hstops _ heats⟩
      rw [packPredefinedData, if_neg h0, if_neg hdense]

/-- **The pack walker is sound**: it copies elements and passes in order, and stops where the
next element does not fit. -/
lemma packWalker_fills :
    (packWalker build mem pBaseBuf).Fills (PackState.Eats build mem) PackState.space where
  sound :=
    { refl := .refl
      trans := .trans
      data := fun e count base s _ hsize =>
        packPredefinedData_spec build mem pBaseBuf e count base s hsize
      contig := fun l e count base s _ hsize => by
        obtain ⟨hle, hfits, -⟩ := fitCount_spec hsize
        refine ⟨_, _, hle, rfl, ?_⟩
        rw [← stride_add_right _ _ e.firstElemDisp (fun x => run x e.size)]
        exact s.eats_copies build mem pBaseBuf _ _ _ _ hfits }
  space_eq := fun h => h.space

end Sound

/-! ### The generic pack refines the greedy cut -/

section Refine

variable (build : Build) (mem : ℤ → Byte) (pBaseBuf : ℤ) {D : Nest} {fake : EndLoopDesc}
  {extent : ℤ}

/-- **The loop over the buffers** cuts the greedy pieces, and suspends where they end. -/
lemma packIovs_spec {z : Zip} {c : Cursor} (h : Stands D fake z c) {fuel : ℕ}
    (hfuel : z.ticks D c.count < fuel) {rem : List Block}
    (hrem : z.remaining D extent c.count c.base = rem) (iov : List Iovec) (csum : Csum) :
    ∃ c' csum', packIovs build mem pBaseBuf (D.desc fake) extent fuel iov c csum
        = some ((pieces Block.len (iov.map Iovec.len) rem).map
            (fun bs => gather mem (blocksBytes bs)), c', csum') ∧
      build.Copies csum
        (gather mem (blocksBytes (pieces Block.len (iov.map Iovec.len) rem).flatten)) csum' ∧
      (left Block.len (iov.map Iovec.len) rem ≠ [] → ∃ z', Stands D fake z' c' ∧
        z'.ticks D c'.count ≤ z.ticks D c.count ∧
        z'.remaining D extent c'.count c'.base = left Block.len (iov.map Iovec.len) rem) := by
  induction iov generalizing z c rem csum with
  | nil => exact ⟨c, csum, rfl, .nil _, fun _ => ⟨z, h, le_rfl, hrem⟩⟩
  | cons v vs ih =>
      obtain ⟨c₁, s₁, he, ⟨hrest, hw⟩ | ⟨hrest, hw, z₁, -, -, h₁, -, hticks₁, hrem₁⟩⟩ :=
        walk_fit (packWalker_fills build mem pBaseBuf) h hfuel hrem
          ⟨v.base, v.len, [], csum⟩
      all_goals
        have hout : s₁.out = gather mem (blocksBytes (fit Block.len v.len rem)) := he.out
        have hcsum : build.Copies csum (gather mem (blocksBytes (fit Block.len v.len rem))) s₁.csum :=
          he.csum
        simp only at hrest
      · have hfit := fit_append_rest Block.len v.len rem
        rw [hrest, List.append_nil] at hfit
        rw [hfit] at hout hcsum
        refine ⟨c₁, s₁.csum, ?_, ?_, fun hleft => ?_⟩
        · rw [packIovs, hw, List.map_cons, pieces_cons_of_rest _ hrest, List.map_singleton, ← hout]
        · rw [List.map_cons, pieces_cons_of_rest _ hrest]
          simpa using hcsum
        · simp [left, pieces_cons_of_rest _ hrest] at hleft
      · obtain ⟨c', csum', hpack, hcopies, hstands⟩ := ih h₁ (by omega) hrem₁ s₁.csum
        refine ⟨c', csum', ?_, ?_, fun hleft => ?_⟩
        · rw [packIovs, hw, List.map_cons, pieces_cons_of_ne _ hrest, List.map_cons, ← hout]
          simp only [hpack, Option.bind_eq_bind, Option.bind_some]
          rfl
        · rw [List.map_cons, pieces_cons_of_ne _ hrest, List.flatten_cons, blocksBytes_append,
            gather_append]
          exact hcsum.append hcopies
        · rw [List.map_cons, left_cons_of_ne _ hrest] at hleft ⊢
          obtain ⟨z', h', hticks, hrem'⟩ := hstands hleft
          exact ⟨z', h', hticks.trans hticks₁, hrem'⟩

end Refine

/-! ### Sequences of calls -/

/-- A convertor that is set up for `count` copies of the description `D`. -/
structure Convertor.Prepared (D : Nest) (fake : EndLoopDesc) (count : ℕ) (conv : Convertor) :
    Prop where
  desc : conv.useDesc.desc = D.desc fake
  localSize : conv.localSize = count * (D.bytes 0).length
  noOp : conv.flags.noOp = false
  completed : conv.flags.completed = false
  bConverted : conv.bConverted = 0
  notEmpty : conv.localSize ≠ 0
  stack : conv.stack = [⟨0, D.headCount, 0⟩, ⟨-1, count, 0⟩]

/-- The elements `rem` are left, and the stack is where they start. -/
def Convertor.Pending (D : Nest) (fake : EndLoopDesc) (bound : ℕ) (conv : Convertor)
    (rem : List Block) : Prop :=
  ∃ z c, conv.stack = c.save ∧ Stands D fake z c ∧ z.ticks D c.count ≤ bound ∧
    z.remaining D conv.pDesc.extent c.count c.base = rem

/-- The invariant of a generic convertor: the elements `done` are through, `rem` are left. -/
structure Convertor.GenericInv (D : Nest) (fake : EndLoopDesc) (bound : ℕ) (conv : Convertor)
    (done rem : List Block) : Prop where
  desc : conv.useDesc.desc = D.desc fake
  localSize : conv.localSize = weight Block.len (done ++ rem)
  noOp : conv.flags.noOp = false
  bConverted : conv.bConverted = weight Block.len done
  completed : conv.flags.completed = true ↔ rem = []
  pending : rem ≠ [] → conv.Pending D fake bound rem

section Run

variable {chk : Build} {mem : ℤ → Byte} {fuel : ℕ} {D : Nest} {fake : EndLoopDesc} {bound : ℕ}
  {conv : Convertor}

/-- The elements of a valid nest have a size. -/
lemma Nest.Wf.block_len_pos {t : Nest} (h : t.Wf) {d : ℤ} {b : Block} (hb : b ∈ t.blocks d) :
    0 < b.len := by
  induction t generalizing d with
  | done => simp [Nest.blocks] at hb
  | elem e r ih =>
      rcases List.mem_append.mp hb with hb | hb
      · rw [Block.len, type_of_mem_elemBlocks hb]
        exact h.2.1
      · exact ih h.2.2 hb
  | loop l body r ihb ih =>
      rcases List.mem_append.mp hb with hb | hb
      · obtain ⟨k, -, hk⟩ := mem_stride.mp hb
        exact ihb h.2.2.1 hk
      · exact ih h.2.2.2 hb

lemma weight_eq_zero_iff {bs : List Block} (h : ∀ b ∈ bs, 0 < b.len) :
    weight Block.len bs = 0 ↔ bs = [] := by
  cases bs with
  | nil => simp
  | cons b bs =>
      have := h b (by simp)
      simp only [weight_cons, reduceCtorEq, iff_false]
      omega

lemma weight_stride_blocks (D : Nest) (count : ℕ) (extent d : ℤ) :
    weight Block.len (stride count extent D.blocks d) = count * (D.bytes 0).length := by
  rw [← length_blocksBytes, blocksBytes, flatMap_stride]
  exact length_stride _ _ _ _ fun x => D.length_bytes x

lemma sum_length_gather (mem : ℤ → Byte) (ps : List (List Block)) :
    ((ps.map fun bs => gather mem (blocksBytes bs)).map List.length).sum
      = weight Block.len ps.flatten := by
  induction ps with
  | nil => rfl
  | cons p ps ih =>
      rw [List.map_cons, List.map_cons, List.sum_cons, ih, List.flatten_cons, weight_append,
        length_gather, length_blocksBytes]

/-- The end of a call that moved the elements `bs`. -/
lemma Convertor.GenericInv.leave {done rem bs rem' : List Block}
    (h : conv.GenericInv D fake bound done rem) (c' : Cursor) (csum' : Csum)
    (hlen : ∀ b ∈ rem, 0 < b.len) (hsplit : bs ++ rem' = rem)
    (hpending : rem' ≠ [] → ∃ z', Stands D fake z' c' ∧ z'.ticks D c'.count ≤ bound ∧
      z'.remaining D conv.pDesc.extent c'.count c'.base = rem') :
    (conv.leave c' (weight Block.len bs) conv.localSize csum').1.GenericInv D fake bound
        (done ++ bs) rem' ∧
      ((conv.leave c' (weight Block.len bs) conv.localSize csum').2 = 1 ↔ rem' = []) := by
  have hlocal := h.localSize
  rw [← hsplit, weight_append, weight_append] at hlocal
  have hzero : weight Block.len rem' = 0 ↔ rem' = [] :=
    weight_eq_zero_iff fun b hb => hlen b (by rw [← hsplit]; exact List.mem_append_right _ hb)
  have hdone : conv.bConverted + weight Block.len bs = conv.localSize ↔ rem' = [] := by
    rw [h.bConverted, hlocal, ← hzero]
    omega
  have hlocal' : conv.localSize = weight Block.len (done ++ bs ++ rem') := by
    rw [List.append_assoc, hsplit, h.localSize]
  have hconv : conv.bConverted + weight Block.len bs = weight Block.len (done ++ bs) := by
    rw [weight_append, h.bConverted]
  by_cases hr : rem' = []
  · rw [Convertor.leave, if_pos (hdone.mpr hr)]
    exact ⟨⟨h.desc, hlocal', h.noOp, hconv, by simp [hr], fun hn => absurd hr hn⟩, by simp [hr]⟩
  · have hne : rem ≠ [] := fun hn => hr (List.append_eq_nil_iff.mp (hsplit.trans hn)).2
    have hcomp : conv.flags.completed = false := by simpa [hne] using h.completed
    obtain ⟨z', hst', hticks', hrem'⟩ := hpending hr
    rw [Convertor.leave, if_neg fun hd => hr (hdone.mp hd)]
    exact ⟨⟨h.desc, hlocal', h.noOp, hconv, by simp [hr, hcomp],
      fun _ => ⟨z', c', rfl, hst', hticks', hrem'⟩⟩, by simp [hr]⟩

lemma Convertor.Prepared.genericInv {count : ℕ} (hD : D.Valid)
    (h : conv.Prepared D fake count) :
    conv.GenericInv D fake (count * (D.ticks + 1)) []
      (stride count conv.pDesc.extent D.blocks 0) := by
  have hweight := weight_stride_blocks D count conv.pDesc.extent 0
  have hpos : 0 < count * (D.bytes 0).length := Nat.pos_of_ne_zero (h.localSize ▸ h.notEmpty)
  have hcount : 0 < count := Nat.pos_of_mul_pos_right hpos
  have hrem : stride count conv.pDesc.extent D.blocks 0 ≠ [] := by
    intro hnil
    rw [hnil, weight_nil] at hweight
    omega
  refine ⟨h.desc, ?_, h.noOp, by simp [h.bConverted], by simp [h.completed, hrem], fun _ => ?_⟩
  · rw [h.localSize, List.nil_append, hweight]
  · exact ⟨Zip.start D count, ⟨[⟨-1, count, 0⟩], 0, D.headCount, 0⟩, h.stack, stands_start hD hcount,
      (Zip.ticks_start hcount).le, Zip.remaining_start hcount⟩

/-- **One call** of the generic pack cuts the greedy pieces of what is left. -/
lemma Convertor.GenericInv.genericSimplePack {build : Build} {done rem : List Block}
    (h : conv.GenericInv D fake bound done rem) (hlen : ∀ b ∈ rem, 0 < b.len) (hne : rem ≠ [])
    (hfuel : bound < fuel) (iov : List Iovec) :
    ∃ r, genericSimplePack build mem fuel conv iov = some r ∧
      r.frags = (pieces Block.len (iov.map Iovec.len) rem).map
        (fun bs => gather mem (blocksBytes bs)) ∧
      r.conv.GenericInv D fake bound (done ++ (pieces Block.len (iov.map Iovec.len) rem).flatten)
        (left Block.len (iov.map Iovec.len) rem) ∧
      build.Copies conv.csum
        (gather mem (blocksBytes (pieces Block.len (iov.map Iovec.len) rem).flatten))
        r.conv.csum ∧
      (r.rc = 1 ↔ left Block.len (iov.map Iovec.len) rem = []) ∧ conv.Moved r.conv := by
  obtain ⟨z, c, hstack, hst, hticks, hrem⟩ := h.pending hne
  obtain ⟨c', csum', hpack, hcopies, hleft⟩ :=
    packIovs_spec build mem conv.pBaseBuf hst (hticks.trans_lt hfuel) hrem iov conv.csum
  have hsplit := pieces_flatten_append Block.len (iov.map Iovec.len) rem
  set ps := pieces Block.len (iov.map Iovec.len) rem with hps
  set rem' := left Block.len (iov.map Iovec.len) rem with hrem'
  have hload : conv.load = some c := Convertor.load_save hstack
  have htotal := sum_length_gather mem ps
  have hinv := h.leave c' csum' hlen hsplit fun hr => by
    obtain ⟨z', hst', hticks', hrem''⟩ := hleft hr
    exact ⟨z', hst', hticks'.trans hticks, hrem''⟩
  refine ⟨⟨(conv.leave c' (weight Block.len ps.flatten) conv.localSize csum').1, _,
    weight Block.len ps.flatten, _⟩, ?_, rfl, hinv.1, ?_, hinv.2, ?_⟩
  · simp only [Ocoms.genericSimplePack, hload, h.desc, hpack, htotal, Option.bind_eq_bind,
      Option.bind_some]
    rfl
  · rw [Convertor.leave_csum]
    exact hcopies
  · exact conv.moved_leave _ _ _ _

/-- What any sequence of `ocoms_convertor_pack` calls from `conv₀` emits, and the convertor it
leads to. -/
inductive PackRun (chk : Build) (mem : ℤ → Byte) (fuel : ℕ) (conv₀ : Convertor) :
    List Byte → Convertor → Prop
  | start : PackRun chk mem fuel conv₀ [] conv₀
  | call {out : List Byte} {conv : Convertor} {iov : List Iovec} {maxData : ℕ} {r : PackResult} :
      PackRun chk mem fuel conv₀ out conv →
      convertorPack chk mem fuel conv iov maxData = some r →
      PackRun chk mem fuel conv₀ (out ++ r.frags.flatten) r.conv

/-- A call on a generic send convertor. -/
lemma convertorPack_generic (hno : conv.flags.noOp = false)
    (hcomp : conv.flags.completed = false) (hadv : conv.fAdvance = .genericSimplePack)
    (iov : List Iovec) (maxData : ℕ) :
    convertorPack chk mem fuel conv iov maxData
      = genericSimplePack (if conv.fAdvanceChecksum then chk else .plain) mem fuel
          { conv with csum := ⟨0, 0, 0⟩ } iov := by
  simp [convertorPack, hno, hcomp, hadv]

lemma flatten_map_gather (mem : ℤ → Byte) (ps : List (List Block)) :
    (ps.map fun bs => gather mem (blocksBytes bs)).flatten
      = gather mem (blocksBytes ps.flatten) := by
  induction ps with
  | nil => rfl
  | cons p ps ih =>
      rw [List.map_cons, List.flatten_cons, ih, List.flatten_cons, blocksBytes_append,
        gather_append]

/-- What one call does to a generic send convertor in its invariant. -/
lemma Convertor.GenericInv.convertorPack {done rem : List Block}
    (h : conv.GenericInv D fake bound done rem) (hlen : ∀ b ∈ rem, 0 < b.len)
    (hadv : conv.fAdvance = .genericSimplePack) (hfuel : bound < fuel) (iov : List Iovec)
    (maxData : ℕ) :
    ∃ r ps rem', convertorPack chk mem fuel conv iov maxData = some r ∧
      r.frags = ps.map (fun bs => gather mem (blocksBytes bs)) ∧
      ps = (if rem = [] then [] else pieces Block.len (iov.map Iovec.len) rem) ∧
      ps.flatten ++ rem' = rem ∧ (ps.length < iov.length → rem' = []) ∧
      r.conv.GenericInv D fake bound (done ++ ps.flatten) rem' ∧ (r.rc = 1 ↔ rem' = []) ∧
      conv.Moved r.conv := by
  by_cases hne : rem = []
  · have hcomp : conv.flags.completed = true := h.completed.mpr hne
    refine ⟨⟨conv, [], 0, 1⟩, [], [], ?_, rfl, by rw [if_pos hne], by simp [hne], by simp, ?_,
      by simp, .refl conv⟩
    · rw [Ocoms.convertorPack, if_pos hcomp]
    · rw [List.flatten_nil, List.append_nil, ← hne]
      exact h
  · have hcomp : conv.flags.completed = false := by simpa [hne] using h.completed
    have h' : ({ conv with csum := ⟨0, 0, 0⟩ } : Convertor).GenericInv D fake bound done rem :=
      ⟨h.desc, h.localSize, h.noOp, h.bConverted, h.completed, h.pending⟩
    obtain ⟨r, hr, hfrags, hinv, -, hrc, hmoved⟩ := h'.genericSimplePack
      hlen hne hfuel iov
    refine ⟨r, _, _, ?_, hfrags, by rw [if_neg hne], pieces_flatten_append _ _ _,
      fun hlt => ?_, hinv, hrc, .trans ⟨_, _, _, _, _, rfl⟩ hmoved⟩
    · rw [convertorPack_generic h.noOp hcomp hadv, hr]
    · exact left_of_length_lt _ (by simpa using hlt)

/-- **Any run of pack calls** keeps the invariant, and emits elements in order. -/
lemma PackRun.genericInv {conv₀ : Convertor} {done₀ rem₀ : List Block}
    (h₀ : conv₀.GenericInv D fake bound done₀ rem₀) (hlen : ∀ b ∈ rem₀, 0 < b.len)
    (hadv : conv₀.fAdvance = .genericSimplePack) (hfuel : bound < fuel) {out : List Byte}
    (hrun : PackRun chk mem fuel conv₀ out conv) :
    ∃ done rem, done ++ rem = rem₀ ∧ out = gather mem (blocksBytes done) ∧
      conv.GenericInv D fake bound (done₀ ++ done) rem ∧ conv₀.Moved conv := by
  induction hrun with
  | start => exact ⟨[], rem₀, rfl, rfl, by rwa [List.append_nil], .refl conv₀⟩
  | @call out conv iov maxData r _ hcall ih =>
      obtain ⟨done, rem, hsplit, rfl, hinv, hmoved⟩ := ih
      have hlen' : ∀ b ∈ rem, 0 < b.len := fun b hb =>
        hlen b (by rw [← hsplit]; exact List.mem_append_right _ hb)
      obtain ⟨r', ps, rem', hr', hfrags, -, hps, -, hinv', -, hmoved'⟩ :=
        hinv.convertorPack hlen' (hmoved.fAdvance.trans hadv) hfuel iov
          maxData
      obtain rfl : r' = r := Option.some.inj (hr'.symm.trans hcall)
      refine ⟨done ++ ps.flatten, rem', ?_, ?_, ?_, hmoved.trans hmoved'⟩
      · rw [List.append_assoc, hps, hsplit]
      · rw [hfrags, flatten_map_gather, blocksBytes_append, gather_append]
      · rwa [← List.append_assoc]

/-- The elements of the stream have a size. -/
lemma Nest.Valid.stride_len_pos (hD : D.Valid) {count : ℕ} {extent d : ℤ} {b : Block}
    (hb : b ∈ stride count extent D.blocks d) : 0 < b.len := by
  obtain ⟨k, -, hk⟩ := mem_stride.mp hb
  exact hD.wf.block_len_pos hk

/-- The end of `OCOMS_CONVERTOR_PREPARE` sets the walk to the start of the description. -/
lemma Convertor.provideStack_prepared (conv : Convertor) {dt : Datatype} {count : ℕ}
    (pUserBuf : ℤ) (hdesc : dt.optDesc.desc = D.desc fake)
    (hsize : dt.size = (D.bytes 0).length) (hpos : dt.size ≠ 0) (hcount : count ≠ 0) :
    ((conv.attach dt count pUserBuf).provideStack dt).Prepared D fake count where
  desc := hdesc
  localSize := by rw [← hsize]; rfl
  noOp := rfl
  completed := rfl
  bConverted := rfl
  notEmpty := Nat.mul_ne_zero hcount hpos
  stack := by
    have hne : D ≠ .done := fun h => hpos (by rw [hsize, h]; rfl)
    simp only [Convertor.provideStack, Convertor.createStackAtBegining, Convertor.attach, hdesc,
      D.head?_desc hne fake]

/-- `ocoms_convertor_prepare_for_send` sets up the generic pack for a datatype that is not
`CONTIGUOUS`, on a homogeneous convertor. -/
lemma Convertor.Homogeneous.prepareForSend_prepared {dt : Datatype} {count : ℕ}
    (hhom : conv.Homogeneous) (pUserBuf : ℤ) (hdesc : dt.optDesc.desc = D.desc fake)
    (hsize : dt.size = (D.bytes 0).length) (hpos : dt.size ≠ 0) (hcount : count ≠ 0)
    (hgaps : dt.flags.noGaps = false) (hcont : dt.flags.contiguous = false) :
    (conv.prepareForSend dt count pUserBuf).Prepared D fake count ∧
      (conv.prepareForSend dt count pUserBuf).fAdvance = .genericSimplePack ∧
      (conv.prepareForSend dt count pUserBuf).pDesc = dt ∧
      (conv.prepareForSend dt count pUserBuf).flags.send = true ∧
      (conv.prepareForSend dt count pUserBuf).count = count ∧
      (conv.prepareForSend dt count pUserBuf).flags.datatype = dt.flags := by
  have hhom' : ({ conv with flags := { conv.flags with send := true } } : Convertor).Homogeneous :=
    ⟨hhom.remoteArch, hhom.master⟩
  have hno : ¬ ({ conv with flags := { conv.flags with send := true } } : Convertor).StaysNoOp
      dt count := by simp [Convertor.StaysNoOp, hgaps, hcont]
  obtain ⟨hd, hl, hn, hc, hb, he, hs⟩ :=
    Convertor.provideStack_prepared { conv with flags := { conv.flags with send := true } }
      pUserBuf hdesc hsize hpos hcount
  rw [Convertor.prepareForSend, hhom'.prepare hcount hpos, if_neg hno]
  simp only [hcont, Bool.false_eq_true, if_false]
  exact ⟨⟨hd, hl, hn, hc, hb, he, hs⟩, trivial, rfl, rfl, rfl, rfl⟩

/-- **The generic pack does not depend on the fragmentation.** After any sequence of calls what has
been emitted is a prefix of the packed stream, the bytes of `count` copies of the typemap in
description order; `bConverted` is its length, and `COMPLETED` says that it is the whole stream.
A further call fills its buffers in order and leaves one out only behind the last byte; no
fragment exceeds its buffer, and none is empty whose buffer can hold the next basic element. -/
theorem pack_independent_of_fragmentation {count : ℕ} (hD : D.Valid) {conv₀ : Convertor}
    (h₀ : conv₀.Prepared D fake count) (hadv : conv₀.fAdvance = .genericSimplePack)
    (hfuel : count * (D.ticks + 1) < fuel) {out : List Byte}
    (hrun : PackRun chk mem fuel conv₀ out conv) :
    out <+: gather mem (stride count conv₀.pDesc.extent D.bytes 0) ∧
      conv.bConverted = out.length ∧
      (conv.flags.completed = true ↔ out.length = count * (D.bytes 0).length) ∧
      ∀ iov maxData, ∃ r, convertorPack chk mem fuel conv iov maxData = some r ∧
        r.frags.length ≤ iov.length ∧
        (r.frags.length < iov.length → r.conv.flags.completed = true) ∧
        (r.rc = 1 ↔ (out ++ r.frags.flatten).length = count * (D.bytes 0).length) ∧
        ∀ i v f, iov[i]? = some v → r.frags[i]? = some f → f.length ≤ v.len ∧
          ∀ pre b post, stride count conv₀.pDesc.extent D.blocks 0 = pre ++ b :: post →
            (blocksBytes pre).length = (out ++ (r.frags.take i).flatten).length →
            b.len ≤ v.len → f ≠ [] := by
  obtain ⟨done, rem, hsplit, rfl, hinv, hmoved⟩ :=
    hrun.genericInv (h₀.genericInv hD) (fun _ => hD.stride_len_pos) hadv hfuel
  rw [List.nil_append] at hinv
  have hstream : blocksBytes (stride count conv₀.pDesc.extent D.blocks 0)
      = stride count conv₀.pDesc.extent D.bytes 0 := flatMap_stride _ _ _ _ _
  have hpos : ∀ b ∈ stride count conv₀.pDesc.extent D.blocks 0, 0 < b.len :=
    fun _ => hD.stride_len_pos
  have hlen : ∀ b ∈ rem, 0 < b.len := fun b hb =>
    hpos b (by rw [← hsplit]; exact List.mem_append_right _ hb)
  have htotal : weight Block.len done + weight Block.len rem = count * (D.bytes 0).length := by
    rw [← weight_append, hsplit, weight_stride_blocks]
  have hall : ∀ as bs : List Block, as ++ bs = rem →
      ((gather mem (blocksBytes (done ++ as))).length = count * (D.bytes 0).length ↔ bs = []) := by
    intro as bs hab
    have hbs : ∀ b ∈ bs, 0 < b.len := fun b hb =>
      hlen b (by rw [← hab]; exact List.mem_append_right _ hb)
    rw [← weight_eq_zero_iff hbs, length_gather, length_blocksBytes, weight_append, ← htotal,
      ← hab, weight_append]
    omega
  refine ⟨?_, ?_, ?_, fun iov maxData => ?_⟩
  · rw [← hstream, ← hsplit, blocksBytes_append, gather_append]
    exact List.prefix_append _ _
  · rw [hinv.bConverted, length_gather, length_blocksBytes]
  · rw [hinv.completed, ← hall [] rem rfl, List.append_nil]
  · obtain ⟨r, ps, rem', hr, hfrags, hps, hrem, hshort, hinv', hrc, -, -⟩ :=
      hinv.convertorPack hlen (hmoved.fAdvance.trans hadv) hfuel iov
        maxData
    have hle : ps.length ≤ iov.length := by
      rw [hps]
      split
      · exact Nat.zero_le _
      · simpa using length_pieces_le Block.len (iov.map Iovec.len) rem
    refine ⟨r, hr, by rw [hfrags, List.length_map]; exact hle, fun hlt => ?_, ?_,
      fun i v f hv hf => ?_⟩
    · rw [hfrags, List.length_map] at hlt
      exact hinv'.completed.mpr (hshort hlt)
    · rw [hrc, hfrags, flatten_map_gather, ← gather_append, ← blocksBytes_append,
        hall ps.flatten rem' hrem]
    · obtain ⟨hi, rfl⟩ := List.getElem?_eq_some_iff.mp hf
      rw [hfrags, List.length_map] at hi
      have hne : rem ≠ [] := by
        rintro rfl
        simp [hps] at hi
      rw [if_neg hne] at hps
      have hi' : i < (pieces Block.len (iov.map Iovec.len) rem).length := hps ▸ hi
      obtain ⟨n, hn, hfit⟩ := getElem_pieces Block.len hi'
      obtain rfl : n = v.len := by
        rw [List.getElem?_map, hv] at hn
        exact (Option.some.inj hn).symm
      have hps' : ps[i] = fit Block.len v.len (rem.drop (ps.take i).flatten.length) := by
        simpa [hps] using hfit
      have hf' : r.frags[i] = gather mem (blocksBytes ps[i]) := by simp [hfrags]
      rw [hf', hps']
      refine ⟨?_, fun pre b post hpre hoff hb => ?_⟩
      · rw [length_gather, length_blocksBytes]
        exact weight_fit_le _ _ _
      · -- the buffer starts at the element `b`
        have hcut : rem = (ps.take i).flatten ++ ((ps.drop i).flatten ++ rem') := by
          rw [← List.append_assoc, ← List.flatten_append, List.take_append_drop, hrem]
        have hoff' : weight Block.len (done ++ (ps.take i).flatten) = weight Block.len pre := by
          rw [hfrags, ← List.map_take, flatten_map_gather, ← gather_append, ← blocksBytes_append,
            length_gather, length_blocksBytes, length_blocksBytes] at hoff
          exact hoff.symm
        obtain ⟨-, hnext⟩ := append_inj_of_weight Block.len
          (by rw [List.append_assoc, ← hcut, hsplit]; exact hpos)
          (by rw [List.append_assoc, ← hcut, hsplit, hpre]) hoff'
        have hdrop : rem.drop (ps.take i).flatten.length = b :: post := by
          rw [← hnext]
          conv_lhs => rw [hcut]
          exact List.drop_left
        have hbpos : 0 < b.len := hpos b (by rw [hpre]; simp)
        rw [hdrop, fit_cons_of_le _ hb, blocksBytes_cons, gather_append]
        intro hnil
        have hzero := congrArg List.length (List.append_eq_nil_iff.mp hnil).1
        rw [length_gather, Block.length_bytes] at hzero
        exact hbpos.ne' hzero

/-- An `INT4` and, behind a gap, an `INT8`. -/
def gappedNest : Nest :=
  .elem { flags := .basic, type := .int4, count := 1, extent := 4, disp := 0 }
    (.elem { flags := .basic, type := .int8, count := 1, extent := 8, disp := 8 } .done)

/-- The end of its description. -/
def gappedEnd : EndLoopDesc := { flags := {}, items := 2, size := 12, firstElemDisp := 0 }

/-- A datatype with that description. -/
def gappedDatatype : Datatype :=
  let desc : TypeDesc := { length := 3, used := 2, desc := gappedNest.desc gappedEnd }
  { emptyDatatype with
    size := 12, trueUb := 16, ub := 16, align := 8, nbElems := 2, desc, optDesc := desc
    flags := { data := true, commited := true } }

lemma gappedNest_valid : gappedNest.Valid := ⟨by simp [gappedNest, Nest.Wf, basicSize], trivial⟩

lemma homogeneous_create : (Convertor.create localArch).Homogeneous := ⟨rfl, rfl⟩

theorem pack_independent_of_fragmentation_gapped :
    ∃ r, convertorPack .plain (BitVec.ofInt 8) 20
        ((Convertor.create localArch).prepareForSend gappedDatatype 2 0) [⟨4096, 6⟩] 0 = some r ∧
      r.frags.length ≤ 1 ∧ (r.rc = 1 ↔ r.frags.flatten.length = 24) := by
  have hdesc : gappedDatatype.optDesc.desc = gappedNest.desc gappedEnd := rfl
  have hcount : 2 ≠ 0 := by decide
  have hfuel : 2 * (gappedNest.ticks + 1) < 20 := by decide
  obtain ⟨hprep, hadv, -⟩ := homogeneous_create.prepareForSend_prepared 0 hdesc rfl (by decide)
    hcount rfl rfl
  obtain ⟨-, -, -, hcall⟩ := pack_independent_of_fragmentation gappedNest_valid hprep hadv
    hfuel .start
  obtain ⟨r, hr, hle, -, hrc, -⟩ := hcall [⟨4096, 6⟩] 0
  exact ⟨r, hr, hle, hrc⟩

end Run

end Ocoms
