import Ocoms.Lib.BlockMove
import Ocoms.Datatype.Merging
import Ocoms.Datatype.Walk

/-!
The local copy: `ocoms_datatype_copy.c` and `ocoms_datatype_copy.h`.

* `copyContentSameDdt` is `ocoms_datatype_copy_content_same_ddt`. A `MemOp` is what the engine
  copies a block with, `memcpy` or `memmove`: the header is compiled once with each.
* `Nest.pieces` are the blocks that the walk through a description copies, in order;
  `Datatype.pieces` those of the whole call. `copyContent_eq` says that the engine copies them, one
  after the other.
* `copy_content_iff` says when copies to a region apart do what the typemap says,
  `overlapping_copy_iff` when copies to any place do.
-/

namespace Ocoms

open Layout Nest

/-! ### Copying blocks -/

/-- `MEM_OP( d, s, l )`. `none` stands for undefined behaviour. -/
abbrev MemOp := ℤ → ℤ → ℕ → (ℤ → Byte) → Option (ℤ → Byte)

/-- The `l` bytes at `d` become what those at `s` were. -/
def moveBytes (d s : ℤ) (l : ℕ) (mem : ℤ → Byte) : ℤ → Byte :=
  scatter mem (run d l) (gather mem (run s l))

/-- The two blocks overlap without being the same. -/
def Overlap (d s : ℤ) (l : ℕ) : Prop := d < s ∧ s < d + l ∨ s < d ∧ d < s + l

instance (d s : ℤ) (l : ℕ) : Decidable (Overlap d s l) := inferInstanceAs (Decidable (_ ∨ _))

/-- `MEMCPY`. Blocks that overlap are undefined; for equal pointers nothing changes. -/
def MemOp.memcpy : MemOp := fun d s l mem => if Overlap d s l then none else some (moveBytes d s l mem)

/-- `MEMMOVE`. -/
def MemOp.memmove : MemOp := fun d s l mem =>
  if Overlap d s l then some (moveBytes d s l mem) else MemOp.memcpy d s l mem

/-- `count` blocks of `len` bytes, `extent` apart. -/
def MemOp.times (op : MemOp) (len : ℕ) (extent : ℤ) : ℕ → ℤ → ℤ → (ℤ → Byte) → Option (ℤ → Byte)
  | 0, _, _, mem => some mem
  | n + 1, destination, source, mem => do
      let mem ← op destination source len mem
      times op len extent n (destination + extent) (source + extent) mem

/-- `ocoms_datatype_memop_block_size`. -/
def memopBlockSize : ℕ := 128 * 1024

/-- The copy of a run in chunks. A round takes at least a byte, so `fuel` is more than the length
that is left. -/
def MemOp.chunks (op : MemOp) :
    ℕ → ℕ → ℕ → ℤ → ℤ → (ℤ → Byte) → Option (ℤ → Byte)
  | 0, _, _, _, _, _ => none
  | fuel + 1, memopChunk, totalLength, destination, source, mem =>
      if totalLength = 0 then some mem
      else do
        let memopChunk := if totalLength < memopChunk then totalLength else memopChunk
        let mem ← op destination source memopChunk mem
        chunks op fuel memopChunk (totalLength - memopChunk) (destination + memopChunk)
          (source + memopChunk) mem

/-- The memory, and `*SPACE`. -/
structure CopyState where
  mem : ℤ → Byte
  space : ℤ

section Engine

variable (op : MemOp) (destinationBase sourceBase : ℤ)

/-- `_predefined_data`, `disp` bytes behind both bases. The extent is cast to `uint32_t`. -/
def copyPredefinedData (e : ElemDesc) (count : ℕ) (disp : ℤ) (s : CopyState) : Option CopyState := do
  let blength := basicSize e.type
  let source := sourceBase + disp + e.disp
  let destination := destinationBase + disp + e.disp
  let mem ←
    if (blength : ℤ) = e.extent % 2 ^ 32 then op destination source (count * blength) s.mem
    else op.times blength e.extent count destination source s.mem
  return { mem, space := s.space - (count * blength : ℕ) }

/-- `_contiguous_loop`. -/
def copyContiguousLoop (l : LoopDesc) (e : EndLoopDesc) (count : ℕ) (disp : ℤ) (s : CopyState) :
    Option CopyState := do
  let source := sourceBase + disp + e.firstElemDisp
  let destination := destinationBase + disp + e.firstElemDisp
  let mem ←
    if l.extent = e.size then op destination source (count * e.size) s.mem
    else op.times e.size l.extent count destination source s.mem
  return { mem, space := s.space - (count * e.size : ℕ) }

/-- The walk of the copy goes through every entry at once. -/
def copyWalker : Walker (Option CopyState) where
  data := fun e count disp s =>
    (0, disp, s.bind (copyPredefinedData op destinationBase sourceBase e count disp))
  contig := fun l e count disp s =>
    (0, disp, s.bind (copyContiguousLoop op destinationBase sourceBase l e count disp))

/-- `_copy_content_same_ddt`. The assertion at the end is that no space is left. -/
def copyContent (fuel : ℕ) (datatype : Datatype) (count : ℕ) (mem : ℤ → Byte) :
    Option (ℤ → Byte) :=
  if datatype.flags.contiguous then
    let destination := destinationBase + datatype.trueLb
    let source := sourceBase + datatype.trueLb
    if (datatype.size : ℤ) = datatype.extent then
      op.chunks (count * datatype.size + 1) memopBlockSize (count * datatype.size) destination
        source mem
    else op.times datatype.size datatype.extent count destination source mem
  else
    let description :=
      if datatype.optDesc.desc ≠ [] then datatype.optDesc.desc else datatype.desc.desc
    let countDesc := (description.head?.map DtElemDesc.count).getD 0
    match walk (copyWalker op destinationBase sourceBase) description datatype.extent fuel
      ⟨[⟨-1, count, 0⟩], 0, countDesc, 0⟩ (some ⟨mem, (count * datatype.size : ℕ)⟩) with
    | some (.complete _ (some s)) => if s.space = 0 then some s.mem else none
    | _ => none

end Engine

/-- `extent`: what `count` copies span. -/
def copyExtent (datatype : Datatype) (count : ℕ) : ℤ :=
  (datatype.trueUb - datatype.trueLb) + (count - 1) * (datatype.ub - datatype.lb)

/-- The test that selects the variant with `memmove`. -/
def PointersOverlap (datatype : Datatype) (count : ℕ) (destinationBase sourceBase : ℤ) : Prop :=
  if destinationBase < sourceBase then sourceBase < destinationBase + copyExtent datatype count
  else destinationBase < sourceBase + copyExtent datatype count

instance (datatype : Datatype) (count : ℕ) (destinationBase sourceBase : ℤ) :
    Decidable (PointersOverlap datatype count destinationBase sourceBase) :=
  inferInstanceAs (Decidable (ite (destinationBase < sourceBase) _ _))

/-- `ocoms_datatype_copy_content_same_ddt`: the result, and the memory. -/
def copyContentSameDdt (fuel : ℕ) (datatype : Datatype) (count : ℕ)
    (destinationBase sourceBase : ℤ) (mem : ℤ → Byte) : Option (ℕ × (ℤ → Byte)) :=
  if count = 0 then some (1, mem)
  else
    let op :=
      if PointersOverlap datatype count destinationBase sourceBase then MemOp.memmove else MemOp.memcpy
    (copyContent op destinationBase sourceBase fuel datatype count mem).map fun mem => (0, mem)

/-! ### The blocks of a copy -/

/-- The blocks that `count` elements of an entry are copied in. -/
def elemPieces (e : ElemDesc) (count : ℕ) (d : ℤ) : List Piece :=
  if (basicSize e.type : ℤ) = e.extent % 2 ^ 32 then [⟨d + e.disp, count * basicSize e.type⟩]
  else stride count e.extent (fun x => [⟨x, basicSize e.type⟩]) (d + e.disp)

/-- The blocks that the passes of a `CONTIGUOUS` loop are copied in. -/
def loopPieces (l : LoopInfo) (d : ℤ) : List Piece :=
  if l.extent = l.size then [⟨d + l.firstElemDisp, l.loops * l.size⟩]
  else stride l.loops l.extent (fun x => [⟨x, l.size⟩]) (d + l.firstElemDisp)

/-- The blocks that a description is copied in. -/
def Nest.pieces : Nest → ℤ → List Piece
  | done, _ => []
  | elem e rest, d => elemPieces e e.count d ++ rest.pieces d
  | loop l body rest, d =>
      (if l.flags.contiguous then loopPieces l d else stride l.loops l.extent body.pieces d)
        ++ rest.pieces d

/-- The blocks that `count` copies of a datatype with the optimized description `O` are copied
in. -/
def Datatype.pieces (dt : Datatype) (O : Nest) (count : ℕ) : List Piece :=
  if dt.flags.contiguous then
    if (dt.size : ℤ) = dt.extent then chunks memopBlockSize dt.trueLb (count * dt.size)
    else stride count dt.extent (fun x => [⟨x, dt.size⟩]) dt.trueLb
  else stride count dt.extent O.pieces 0

/-! ### The engine copies the blocks -/

section Pieces

variable (op : MemOp) (dst src : ℤ)

/-- The blocks, one after the other. -/
def copyPieces (ps : List Piece) (mem : ℤ → Byte) : Option (ℤ → Byte) :=
  ps.foldlM (fun mem p => op (dst + p.start) (src + p.start) p.len mem) mem

@[simp] lemma copyPieces_nil (mem : ℤ → Byte) : copyPieces op dst src [] mem = some mem := rfl

lemma copyPieces_cons (p : Piece) (ps : List Piece) (mem : ℤ → Byte) :
    copyPieces op dst src (p :: ps) mem
      = (op (dst + p.start) (src + p.start) p.len mem).bind (copyPieces op dst src ps) := rfl

lemma copyPieces_append (ps qs : List Piece) (mem : ℤ → Byte) :
    copyPieces op dst src (ps ++ qs) mem
      = (copyPieces op dst src ps mem).bind (copyPieces op dst src qs) :=
  List.foldlM_append

@[simp] lemma copyPieces_singleton (p : Piece) (mem : ℤ → Byte) :
    copyPieces op dst src [p] mem = op (dst + p.start) (src + p.start) p.len mem :=
  Option.bind_fun_some _

lemma MemOp.times_eq (len : ℕ) (extent : ℤ) (n : ℕ) (a : ℤ) (mem : ℤ → Byte) :
    op.times len extent n (dst + a) (src + a) mem
      = copyPieces op dst src (stride n extent (fun x => [⟨x, len⟩]) a) mem := by
  induction n generalizing a mem with
  | zero => rfl
  | succ n ih =>
      rw [MemOp.times, stride_succ, List.singleton_append, copyPieces_cons, add_assoc, add_assoc]
      exact congrArg _ (funext fun mem => ih _ mem)

lemma MemOp.chunks_eq {fuel c n : ℕ} (hc : 0 < c) (hfuel : n < fuel) (a : ℤ) (mem : ℤ → Byte) :
    op.chunks fuel c n (dst + a) (src + a) mem
      = copyPieces op dst src (Layout.chunks c a n) mem := by
  induction fuel generalizing n a mem with
  | zero => omega
  | succ fuel ih =>
      rw [MemOp.chunks]
      by_cases hn : n = 0
      · rw [if_pos hn, hn, chunks_zero, copyPieces_nil]
      · rw [if_neg hn]
        rcases Nat.lt_or_ge n c with hlt | hle
        · obtain ⟨k, rfl⟩ : ∃ k, fuel = k + 1 := ⟨fuel - 1, by omega⟩
          simp only [if_pos hlt, chunks_of_lt hlt hn, copyPieces_singleton, Nat.sub_self]
          exact Option.bind_fun_some _
        · simp only [if_neg (not_lt.mpr hle), chunks_of_le hc hle, copyPieces_cons, add_assoc]
          exact congrArg _ (funext fun mem => ih (by omega) _ mem)

/-- What copying the blocks does to the state. -/
def copyEffect (ps : List Piece) (s : Option CopyState) : Option CopyState :=
  s.bind fun s => (copyPieces op dst src ps s.mem).map fun mem =>
    { mem, space := s.space - (pieceBytes ps).length }

@[simp] lemma copyEffect_nil (s : Option CopyState) : copyEffect op dst src [] s = s := by
  cases s <;> simp [copyEffect]

lemma copyEffect_append (ps qs : List Piece) (s : Option CopyState) :
    copyEffect op dst src (ps ++ qs) s = copyEffect op dst src qs (copyEffect op dst src ps s) := by
  cases s with
  | none => rfl
  | some s =>
      simp only [copyEffect, Option.bind_some, copyPieces_append, pieceBytes_append,
        List.length_append]
      cases copyPieces op dst src ps s.mem with
      | none => rfl
      | some mem =>
          simp only [Option.bind_some, Option.map_some, Nat.cast_add, ← sub_sub]

lemma length_pieceBytes_stride (n len : ℕ) (ext a : ℤ) :
    (pieceBytes (stride n ext (fun x => [⟨x, len⟩]) a)).length = n * len := by
  rw [pieceBytes_stride, length_stride _ _ _ _ fun x => length_run x len]

lemma length_pieceBytes_elemPieces (e : ElemDesc) (count : ℕ) (d : ℤ) :
    (pieceBytes (elemPieces e count d)).length = count * basicSize e.type := by
  rw [elemPieces]
  split_ifs
  · simp [pieceBytes, Piece.addresses]
  · exact length_pieceBytes_stride _ _ _ _

lemma length_pieceBytes_loopPieces (l : LoopInfo) (d : ℤ) :
    (pieceBytes (loopPieces l d)).length = l.loops * l.size := by
  rw [loopPieces]
  split_ifs
  · simp [pieceBytes, Piece.addresses]
  · exact length_pieceBytes_stride _ _ _ _

lemma copyPredefinedData_eq (e : ElemDesc) (count : ℕ) (d : ℤ) (s : Option CopyState) :
    s.bind (copyPredefinedData op dst src e count d)
      = copyEffect op dst src (elemPieces e count d) s := by
  refine congrArg _ (funext fun s => ?_)
  rw [copyPredefinedData, length_pieceBytes_elemPieces, elemPieces]
  split_ifs
  · rw [copyPieces_singleton, add_assoc, add_assoc, Option.map_eq_bind]
    rfl
  · rw [add_assoc, add_assoc, MemOp.times_eq, Option.map_eq_bind]
    rfl

lemma copyContiguousLoop_eq (l : LoopInfo) (n : ℕ) (d : ℤ) (s : Option CopyState) :
    s.bind (copyContiguousLoop op dst src (Nest.loopDesc l n) (Nest.endLoopDesc l n) l.loops d)
      = copyEffect op dst src (loopPieces l d) s := by
  refine congrArg _ (funext fun s => ?_)
  rw [copyContiguousLoop, length_pieceBytes_loopPieces, loopPieces, Nest.loopDesc,
    Nest.endLoopDesc]
  simp only
  split_ifs
  · rw [copyPieces_singleton, add_assoc, add_assoc, Option.map_eq_bind]
    rfl
  · rw [add_assoc, add_assoc, MemOp.times_eq, Option.map_eq_bind]
    rfl

end Pieces

/-! ### The walk of the copy -/

section CopyWalk

variable {op : MemOp} {dst src : ℤ} {D : Nest} {fake : EndLoopDesc} {extent : ℤ}

lemma walk_next {σ : Type} {W : Walker σ} {desc : List DtElemDesc} {c c' : Cursor} {s s' : σ}
    (h : walkStep W desc extent c s = some (.next c' s')) (fuel : ℕ) :
    walk W desc extent (fuel + 1) c s = walk W desc extent fuel c' s' := by rw [walk, h]

variable (op dst src D fake extent) in
/-- From the start of a level with the nest `t` the walk copies its blocks and comes to the end of
the level. -/
def CopiesLevel (t : Nest) : Prop :=
  ∀ {z : Zip} {c : Cursor}, Fresh D fake z c → z.All Nest.Wf D → z.code = t →
    ∀ s, ∃ n c', n ≤ t.ticks ∧ Fresh D fake { z with code := .done } c' ∧ ∀ fuel,
      walk (copyWalker op dst src) (D.desc fake) extent (n + fuel) c s
        = walk (copyWalker op dst src) (D.desc fake) extent fuel c'
          (copyEffect op dst src (t.pieces z.level) s)

/-- What is left of a loop, `n + 1` passes of it. -/
lemma CopiesLevel.passes {l : LoopInfo} {b r : Nest} (hb : CopiesLevel op dst src D fake extent b)
    (n : ℕ) {fs : List Frame} {oc : ℕ} {od disp : ℤ} {c : Cursor}
    (h : Fresh D fake ⟨⟨l, b, r, n + 1, disp⟩ :: fs, oc, od, b⟩ c)
    (hP : (⟨⟨l, b, r, n + 1, disp⟩ :: fs, oc, od, b⟩ : Zip).All Nest.Wf D)
    (s : Option CopyState) :
    ∃ k c', k ≤ (n + 1) * (b.ticks + 1) ∧ Fresh D fake ⟨fs, oc, od, r⟩ c' ∧ ∀ fuel,
      walk (copyWalker op dst src) (D.desc fake) extent (k + fuel) c s
        = walk (copyWalker op dst src) (D.desc fake) extent fuel c'
          (copyEffect op dst src (stride (n + 1) l.extent b.pieces disp) s) := by
  induction n generalizing disp c s with
  | zero =>
      obtain ⟨k, c₁, hk, h₁, hw₁⟩ := hb h hP rfl s
      have hP₁ : (⟨⟨l, b, r, 1, disp⟩ :: fs, oc, od, .done⟩ : Zip).All Nest.Wf D :=
        ⟨hP.top, hP.frames, trivial⟩
      rcases walkStep_done (W := copyWalker op dst src) extent h₁.toRepresents hP₁ rfl
        (copyEffect op dst src (b.pieces disp) s) with ⟨hz, -⟩ | ⟨z', c', hz, hstep, h'⟩
      · simp [Zip.endLoop] at hz
      · obtain rfl : (⟨fs, oc, od, r⟩ : Zip) = z' := by simpa [Zip.endLoop] using hz
        refine ⟨k + 1, c', by omega, h', fun fuel => ?_⟩
        rw [add_assoc, hw₁, add_comm 1 fuel, zero_add, stride_one]
        exact walk_next hstep fuel
  | succ n ih =>
      obtain ⟨k, c₁, hk, h₁, hw₁⟩ := hb h hP rfl s
      have hP₁ : (⟨⟨l, b, r, n + 2, disp⟩ :: fs, oc, od, .done⟩ : Zip).All Nest.Wf D :=
        ⟨hP.top, hP.frames, trivial⟩
      rcases walkStep_done (W := copyWalker op dst src) extent h₁.toRepresents hP₁ rfl
        (copyEffect op dst src (b.pieces disp) s) with ⟨hz, -⟩ | ⟨z', c₂, hz, hstep, h₂⟩
      · simp [Zip.endLoop] at hz
      · have hP₂ := hP₁.endLoop hereditary_wf hz
        obtain rfl : (⟨⟨l, b, r, n + 1, disp + l.extent⟩ :: fs, oc, od, b⟩ : Zip) = z' := by
          simpa [Zip.endLoop] using hz
        obtain ⟨k', c', hk', h', hw'⟩ := ih h₂ hP₂ (copyEffect op dst src (b.pieces disp) s)
        refine ⟨k + 1 + k', c', ?_, h', fun fuel => ?_⟩
        · rw [Nat.add_one_mul (n + 1)]
          omega
        · rw [stride_succ, copyEffect_append, ← hw' fuel, add_assoc, add_assoc, hw₁,
            add_comm 1 (k' + fuel)]
          exact walk_next hstep _

variable (op dst src extent) in
/-- **A level is copied block by block.** -/
lemma copiesLevel (t : Nest) : CopiesLevel op dst src D fake extent t := by
  induction t with
  | done =>
      rintro ⟨fs, oc, od, code⟩ c h - rfl s
      exact ⟨0, c, le_rfl, h, fun fuel => by rw [Nat.zero_add, Nest.pieces, copyEffect_nil]⟩
  | elem e r ih =>
      intro z c h hP hc s
      have hcount : c.count = e.count := by
        rw [h.count_eq (by simp [hc]), hc]
        rfl
      have hr : (copyWalker op dst src).data e c.count c.base s
          = (0, c.base, copyEffect op dst src (elemPieces e e.count z.level) s) := by
        rw [← copyPredefinedData_eq, hcount, h.base_eq]
        rfl
      rcases walkStep_elem extent h.toRepresents hP hc s hr with
        ⟨-, c₁, hstep, h₁⟩ | ⟨h0, -⟩
      · have hP₁ : ({ z with code := r } : Zip).All Nest.Wf D :=
          ⟨hP.top, hP.frames, hereditary_wf.elem (hc ▸ hP.code)⟩
        obtain ⟨k, c', hk, h', hw⟩ := ih h₁ hP₁ rfl
          (copyEffect op dst src (elemPieces e e.count z.level) s)
        refine ⟨k + 1, c', by rw [Nest.ticks]; omega, h', fun fuel => ?_⟩
        rw [Nest.pieces, copyEffect_append, Nat.add_right_comm]
        exact (walk_next hstep _).trans (hw fuel)
      · exact absurd rfl h0
  | loop l b r ihb ih =>
      intro z c h hP hc s
      have hcount : c.count = l.loops := by
        rw [h.count_eq (by simp [hc]), hc]
        rfl
      have hP' : ({ z with code := r } : Zip).All Nest.Wf D :=
        ⟨hP.top, hP.frames, hereditary_wf.rest (hc ▸ hP.code)⟩
      by_cases hcont : l.flags.contiguous = true
      · -- all passes at once, through the end of the loop
        have hr : (copyWalker op dst src).visitLoop (Nest.loopDesc l b.flatten.length)
            (Nest.endLoopDesc l b.flatten.length) c.count c.base s
            = (0, c.base, copyEffect op dst src (loopPieces l z.level) s) := by
          rw [← copyContiguousLoop_eq op dst src l b.flatten.length, hcount, h.base_eq,
            Walker.visitLoop, if_pos (show (Nest.loopDesc l _).flags.contiguous = true from hcont)]
          rfl
        rcases walkStep_loop extent h.toRepresents hP hc s hr with
          ⟨-, c₁, hstep, h₁⟩ | ⟨h0, -⟩
        · obtain ⟨k, c', hk, h', hw⟩ := ih h₁ hP' rfl
            (copyEffect op dst src (loopPieces l z.level) s)
          refine ⟨k + 1, c', by rw [Nest.ticks]; omega, h', fun fuel => ?_⟩
          rw [Nest.pieces, if_pos hcont, copyEffect_append, Nat.add_right_comm]
          exact (walk_next hstep _).trans (hw fuel)
        · exact absurd rfl h0
      · -- pass by pass
        have hloops : 0 < l.loops := hcount ▸ h.count (by simp [hc])
        obtain ⟨n, hn⟩ : ∃ n, l.loops = n + 1 := ⟨l.loops - 1, by omega⟩
        have hr : (copyWalker op dst src).visitLoop (Nest.loopDesc l b.flatten.length)
            (Nest.endLoopDesc l b.flatten.length) c.count c.base s = (n + 1, c.base, s) := by
          rw [Walker.visitLoop, if_neg (show ¬ (Nest.loopDesc l _).flags.contiguous = true from hcont),
            hcount, hn]
        rcases walkStep_loop extent h.toRepresents hP hc s hr with
          ⟨h0, -⟩ | ⟨-, c₁, hstep, h₁⟩
        · simp at h0
        · simp only [sub_self, add_zero] at h₁
          obtain ⟨k, c₂, hk, h₂, hw₂⟩ := CopiesLevel.passes ihb n h₁
            (hP.push hereditary_wf hc _ _) s
          obtain ⟨k', c', hk', h', hw'⟩ := ih h₂ hP' rfl
            (copyEffect op dst src (stride (n + 1) l.extent b.pieces z.level) s)
          refine ⟨k + k' + 1, c', ?_, h', fun fuel => ?_⟩
          · rw [Nest.ticks, hn]
            omega
          · rw [Nest.pieces, if_neg hcont, copyEffect_append, hn, Nat.add_right_comm, add_assoc k]
            exact (walk_next hstep _).trans ((hw₂ (k' + fuel)).trans (hw' fuel))

variable (op dst src extent) in
/-- **All copies**, block by block. -/
lemma copyWalk_copies (n : ℕ) {od : ℤ} {c : Cursor} (h : Fresh D fake ⟨[], n + 1, od, D⟩ c)
    (hwf : D.Wf) (s : Option CopyState) :
    ∃ k c', k ≤ (n + 1) * (D.ticks + 1) ∧
      walk (copyWalker op dst src) (D.desc fake) extent k c s
        = some (.complete c' (copyEffect op dst src (stride (n + 1) extent D.pieces od) s)) := by
  induction n generalizing od c s with
  | zero =>
      obtain ⟨k, c₁, hk, h₁, hw₁⟩ := copiesLevel op dst src extent D h
        ⟨hwf, by simp, hwf⟩ rfl s
      rcases walkStep_done (W := copyWalker op dst src) extent h₁.toRepresents
        ⟨hwf, by simp, trivial⟩ rfl (copyEffect op dst src (D.pieces od) s) with
        ⟨-, c', hstep⟩ | ⟨z', c', hz, -⟩
      · refine ⟨k + 1, c', by omega, ?_⟩
        have hlevel : D.pieces (⟨[], 1, od, D⟩ : Zip).level = D.pieces od := rfl
        rw [hw₁, zero_add, stride_one, hlevel, walk, hstep]
      · simp [Zip.endLoop] at hz
  | succ n ih =>
      obtain ⟨k, c₁, hk, h₁, hw₁⟩ := copiesLevel op dst src extent D h
        ⟨hwf, by simp, hwf⟩ rfl s
      rcases walkStep_done (W := copyWalker op dst src) extent h₁.toRepresents
        ⟨hwf, by simp, trivial⟩ rfl (copyEffect op dst src (D.pieces od) s) with
        ⟨hz, -⟩ | ⟨z', c₂, hz, hstep, h₂⟩
      · simp [Zip.endLoop] at hz
      · obtain rfl : (⟨[], n + 1, od + extent, D⟩ : Zip) = z' := by
          simpa [Zip.endLoop] using hz
        obtain ⟨k', c', hk', hw'⟩ := ih h₂ (copyEffect op dst src (D.pieces od) s)
        refine ⟨k + (k' + 1), c', ?_, ?_⟩
        · rw [Nat.add_one_mul (n + 1)]
          omega
        · rw [hw₁, stride_succ, copyEffect_append, ← hw']
          exact walk_next hstep _

end CopyWalk

/-! ### What the blocks hold -/

section Bytes

/-- No extent of an entry with several elements is taken for their size when it is cast to
`uint32_t`. -/
def Nest.CastsExtents : Nest → Prop
  | done => True
  | elem e rest =>
      (1 < e.count → (basicSize e.type : ℤ) = e.extent % 2 ^ 32 → e.extent = basicSize e.type) ∧
        rest.CastsExtents
  | loop l body rest => (l.flags.contiguous = false → body.CastsExtents) ∧ rest.CastsExtents

lemma pieceBytes_stride_pieces (n : ℕ) (ext : ℤ) (f : ℤ → List Piece) (d : ℤ) :
    pieceBytes (stride n ext f d) = stride n ext (fun x => pieceBytes (f x)) d :=
  flatMap_stride _ _ _ _ _

lemma pieceBytes_elemPieces {e : ElemDesc} (h : 1 < e.count →
    (basicSize e.type : ℤ) = e.extent % 2 ^ 32 → e.extent = basicSize e.type) (d : ℤ) :
    pieceBytes (elemPieces e e.count d) = blocksBytes (elemBlocks e e.count d) := by
  rw [elemPieces]
  split_ifs with hcast
  · have hgap : ¬ e.Gapped := fun hg => hg.2 (h hg.1 hcast)
    rw [ElemDesc.bytes_of_not_gapped hgap]
    simp [pieceBytes, Piece.addresses]
  · rw [pieceBytes_stride, blocksBytes_elemBlocks]

lemma pieceBytes_loopPieces (l : LoopInfo) (d : ℤ) :
    pieceBytes (loopPieces l d)
      = stride l.loops l.extent (fun x => run (x + l.firstElemDisp) l.size) d := by
  rw [loopPieces, ← stride_add_right _ _ _ fun x => run x l.size]
  split_ifs with hext
  · rw [hext, stride_run]
    simp [pieceBytes, Piece.addresses]
  · exact pieceBytes_stride _ _ _ _

lemma Nest.length_pieceBytes (t : Nest) (d : ℤ) :
    (pieceBytes (t.pieces d)).length = (pieceBytes (t.pieces 0)).length := by
  induction t generalizing d with
  | done => rfl
  | elem e r ih =>
      simp only [Nest.pieces, pieceBytes_append, List.length_append, length_pieceBytes_elemPieces]
      rw [ih d]
  | loop l b r ihb ih =>
      simp only [Nest.pieces, pieceBytes_append, List.length_append]
      rw [ih d]
      congr 1
      split_ifs with hc
      · rw [length_pieceBytes_loopPieces, length_pieceBytes_loopPieces]
      · rw [pieceBytes_stride_pieces, pieceBytes_stride_pieces, length_stride _ _ _ _ ihb,
          length_stride _ _ _ _ ihb]

/-- The blocks hold as many bytes as a walk can read, and these bytes, unless the cast of an extent
hides a gap. -/
lemma Nest.exists_emits_pieces (t : Nest) (d : ℤ) :
    ∃ as, t.Emits d as ∧ as.length = (pieceBytes (t.pieces d)).length ∧
      (t.CastsExtents → as = pieceBytes (t.pieces d)) := by
  induction t generalizing d with
  | done => exact ⟨[], rfl, rfl, fun _ => rfl⟩
  | elem e r ih =>
      obtain ⟨bs, hbs, hlen, heq⟩ := ih d
      refine ⟨_, ⟨bs, hbs, rfl⟩, ?_, fun h => ?_⟩
      · rw [List.length_append, hlen, Nest.pieces, pieceBytes_append, List.length_append,
          length_blocksBytes_elemBlocks, length_pieceBytes_elemPieces]
      · rw [Nest.pieces, pieceBytes_append, pieceBytes_elemPieces h.1, heq h.2]
  | loop l b r ihb ih =>
      obtain ⟨bs, hbs, hlen, heq⟩ := ih d
      rw [Nest.pieces, pieceBytes_append, List.length_append]
      by_cases hc : l.flags.contiguous = true
      · rw [if_pos hc, pieceBytes_loopPieces]
        refine ⟨_, ⟨l.loops, le_rfl, fun h => absurd hc (by simp [h]), fun _ => [], fun k hk => ?_,
          bs, hbs, rfl⟩, ?_, fun h => ?_⟩
        · omega
        · simp [hlen]
        · simp [heq h.2]
      · choose pass hpass hpassLen hpassEq using ihb
        rw [if_neg hc, pieceBytes_stride_pieces]
        refine ⟨_, ⟨0, Nat.zero_le _, fun _ => rfl, fun k => pass (d + (0 + k : ℕ) * l.extent),
          fun k _ => hpass _, bs, hbs, rfl⟩, ?_, fun h => ?_⟩
        · rw [stride_zero, List.nil_append, Nat.sub_zero, List.length_append, hlen,
            length_flatMap_range fun k _ => (hpassLen _).trans (b.length_pieceBytes _),
            length_stride _ _ _ _ b.length_pieceBytes]
        · rw [stride_zero, List.nil_append, Nat.sub_zero, heq h.2]
          congr 1
          refine flatMap_range_eq_stride fun k _ => ?_
          rw [Nat.zero_add]
          exact hpassEq _ (h.1 (by simpa using hc))

/-- **The blocks of the optimized nest** hold as many bytes as the datatype; where all joins are
safe, and no extent is taken for a size, they hold its typemap. -/
lemma Datatype.Commits.pieceBytes {D : Nest} {dt₀ dt : Datatype} (h : Commits D dt₀ dt) (d : ℤ) :
    (pieceBytes ((D.optimized none).pieces d)).length = dt.size ∧
      (D.SafeJoins → (D.optimized none).CastsExtents →
        Layout.pieceBytes ((D.optimized none).pieces d) = D.bytes d) := by
  obtain ⟨as, hemits, hlen, heq⟩ := (D.optimized none).exists_emits_pieces d
  have hsize := Nest.length_of_emits_optimized h.described.wf h.described.ends hemits
  rw [lastBytes_none, List.length_nil, Nat.zero_add, D.length_bytes, h.described.size, hlen] at hsize
  refine ⟨hsize, fun hsafe hcast => ?_⟩
  have hden := (Nest.optimized_denotes_iff h.described.wf h.described.ends
    fun _ (hp : _ ∈ none) => by cases hp).mpr ⟨fun _ hp => (by cases hp), hsafe⟩ d
  rw [← heq hcast]
  exact (hden as).mp hemits

end Bytes

/-! ### What a call copies -/

section Content

variable {dt : Datatype} {as : List ℤ} {O : Nest} {count fuel : ℕ}

/-- A committed datatype that is not `CONTIGUOUS` is copied along its optimized nest. -/
lemma Committed.optimized (h : Committed dt as) (hc : dt.flags.contiguous = false)
    (hO : dt.optDesc.desc.take dt.optDesc.used = O.flatten) :
    ∃ dt₀ D, Datatype.Commits D dt₀ dt ∧ O = D.optimized none ∧ O.Wf ∧ O ≠ .done := by
  obtain ⟨dt₀, D, hD, hne⟩ := h.commits hc
  have hvalid : D.Valid := ⟨hD.described.wf, hD.described.ends⟩
  obtain rfl : O = D.optimized none := flatten_injective (hO.symm.trans hD.opt)
  exact ⟨dt₀, D, hD, rfl, optimized_wf hvalid (fun _ hp => by cases hp),
    optimized_ne_done hvalid hne⟩

/-- **The engine copies the blocks of the datatype**, one after the other. -/
lemma copyContent_eq (h : Committed dt as)
    (hO : dt.optDesc.desc.take dt.optDesc.used = O.flatten) (hcount : count ≠ 0)
    (hfuel : count * (O.ticks + 1) ≤ fuel) (op : MemOp) (dst src : ℤ) (mem : ℤ → Byte) :
    copyContent op dst src fuel dt count mem = copyPieces op dst src (dt.pieces O count) mem := by
  rw [copyContent, Datatype.pieces]
  cases hc : dt.flags.contiguous with
  | true =>
      simp only [if_true]
      split_ifs
      · exact op.chunks_eq dst src (by decide) (Nat.lt_succ_self _) _ mem
      · exact op.times_eq dst src _ _ _ _ mem
  | false =>
      obtain ⟨dt₀, D, hD, rfl, hwf, hne⟩ := h.optimized hc hO
      obtain ⟨fake, hopt⟩ := hD.optDesc (by
        rintro rfl
        exact hne rfl)
      obtain ⟨n, rfl⟩ : ∃ n, count = n + 1 := ⟨count - 1, by omega⟩
      have hdesc : (D.optimized none).desc fake ≠ [] := by simp [Nest.desc]
      have hfresh : Fresh (D.optimized none) fake ⟨[], n + 1, 0, D.optimized none⟩
          ⟨[⟨-1, (n + 1 : ℕ), 0⟩], 0, (D.optimized none).headCount, 0⟩ :=
        ⟨⟨⟨rfl, n.succ_pos⟩, rfl, hwf.headCount_pos, fun _ _ _ _ => rfl⟩, rfl, fun _ => rfl⟩
      obtain ⟨k, c', hk, hwalk⟩ := copyWalk_copies op dst src dt.extent
        n hfresh hwf (some ⟨mem, ((n + 1) * dt.size : ℕ)⟩)
      have hlen : (pieceBytes (stride (n + 1) dt.extent (D.optimized none).pieces 0)).length
          = (n + 1) * dt.size := by
        rw [pieceBytes_stride_pieces, length_stride _ _ _ _ fun x => (hD.pieceBytes x).1]
      simp only [Bool.false_eq_true, if_false, if_pos hdesc, hopt, head?_desc hne,
        walk_mono (hk.trans hfuel) hwalk, copyEffect, Option.bind_some, hlen]
      cases copyPieces op dst src (stride (n + 1) dt.extent (D.optimized none).pieces 0) mem with
      | none => rfl
      | some mem' => simp

end Content

/-! ### What ends up where -/

section Place

variable {dst src : ℤ}

/-- No block overlaps the place it is copied to without being there already. -/
def Clear (δ : ℤ) (ps : List Piece) : Prop := δ ≠ 0 → ∀ p ∈ ps, (p.len : ℤ) ≤ |δ|

lemma clear_cons {δ : ℤ} {p : Piece} {ps : List Piece} :
    Clear δ (p :: ps) ↔ (δ ≠ 0 → (p.len : ℤ) ≤ |δ|) ∧ Clear δ ps := by
  simp only [Clear, List.forall_mem_cons]
  tauto

lemma overlap_iff {p : Piece} :
    Overlap (dst + p.start) (src + p.start) p.len ↔ ¬ (dst - src ≠ 0 → (p.len : ℤ) ≤ |dst - src|) := by
  rw [Overlap]
  rcases abs_cases (dst - src) with ⟨habs, h⟩ | ⟨habs, h⟩ <;> rw [habs] <;> omega

/-- Copying a block is moving a piece, seen from the source on. -/
lemma moveBytes_add (p : Piece) (mem : ℤ → Byte) (x : ℤ) :
    moveBytes (dst + p.start) (src + p.start) p.len mem (src + x)
      = p.move (dst - src) (fun a => mem (src + a)) x := by
  have hsrc : src + p.start + (src + x - (dst + p.start)) = src + (x - (dst - src)) := by ring
  rw [moveBytes, scatter_gather_run_apply, Piece.move, hsrc]
  refine if_congr ?_ rfl rfl
  rw [Piece.Holds]
  omega

/-- **The blocks end up as pieces that are moved**, if the variant with `memmove` runs or no block
overlaps its destination. -/
lemma copyPieces_eq_moves (overlap : Prop) [Decidable overlap] (ps : List Piece)
    (mem : ℤ → Byte) (h : overlap ∨ Clear (dst - src) ps) :
    ∃ mem', copyPieces (if overlap then MemOp.memmove else MemOp.memcpy) dst src ps mem = some mem' ∧
      ∀ x, mem' (src + x) = moves (dst - src) ps (fun a => mem (src + a)) x := by
  induction ps generalizing mem with
  | nil => exact ⟨mem, rfl, fun x => rfl⟩
  | cons p ps ih =>
      rw [clear_cons] at h
      have hop : (if overlap then MemOp.memmove else MemOp.memcpy) (dst + p.start) (src + p.start) p.len mem
          = some (moveBytes (dst + p.start) (src + p.start) p.len mem) := by
        by_cases hv : overlap
        · rw [if_pos hv, MemOp.memmove, MemOp.memcpy]
          split_ifs <;> rfl
        · have hfree := not_not.mpr (h.resolve_left hv).1
          rw [if_neg hv, MemOp.memcpy, if_neg (overlap_iff.not.mpr hfree)]
      obtain ⟨mem', hmem', hmoves⟩ := ih (moveBytes (dst + p.start) (src + p.start) p.len mem)
        (h.imp_right And.right)
      refine ⟨mem', by rw [copyPieces_cons, hop, Option.bind_some, hmem'], fun x => ?_⟩
      rw [hmoves, moves_cons]
      exact congrArg (fun m => moves (dst - src) ps m x) (funext fun a => moveBytes_add p mem a)

/-- With `memcpy`, a block that overlaps its destination is undefined. -/
lemma copyPieces_memcpy_of_not_clear (ps : List Piece) (mem : ℤ → Byte)
    (h : ¬ Clear (dst - src) ps) : copyPieces MemOp.memcpy dst src ps mem = none := by
  induction ps generalizing mem with
  | nil => exact absurd (fun _ _ hp => by cases hp) h
  | cons p ps ih =>
      rw [copyPieces_cons, MemOp.memcpy]
      split_ifs with hov
      · rfl
      · have hfree := not_not.mp (overlap_iff.not.mp hov)
        exact ih _ fun hps => h (clear_cons.mpr ⟨hfree, hps⟩)

variable {dt : Datatype} {as : List ℤ} {O : Nest} {count fuel : ℕ}

/-- The call is defined. -/
def CopyDefined (dt : Datatype) (O : Nest) (count : ℕ) (dst src : ℤ) : Prop :=
  PointersOverlap dt count dst src ∨ Clear (dst - src) (dt.pieces O count)

lemma copyContentSameDdt_eq (hcount : count ≠ 0) (mem : ℤ → Byte) :
    copyContentSameDdt fuel dt count dst src mem
      = (copyContent (if PointersOverlap dt count dst src then MemOp.memmove else MemOp.memcpy) dst src fuel dt
          count mem).map fun mem => (0, mem) := if_neg hcount

/-- **What a call does**, seen from the source on. -/
lemma copyContentSameDdt_eq_moves (h : Committed dt as)
    (hO : dt.optDesc.desc.take dt.optDesc.used = O.flatten) (hcount : count ≠ 0)
    (hfuel : count * (O.ticks + 1) ≤ fuel) (hdef : CopyDefined dt O count dst src)
    (mem : ℤ → Byte) :
    ∃ mem', copyContentSameDdt fuel dt count dst src mem = some (0, mem') ∧
      ∀ x, mem' (src + x) = moves (dst - src) (dt.pieces O count) (fun a => mem (src + a)) x := by
  obtain ⟨mem', hmem', hmoves⟩ := copyPieces_eq_moves _ _ mem hdef
  refine ⟨mem', ?_, hmoves⟩
  rw [copyContentSameDdt_eq hcount, copyContent_eq h hO hcount hfuel, hmem']
  rfl

lemma copyContentSameDdt_of_not_defined (h : Committed dt as)
    (hO : dt.optDesc.desc.take dt.optDesc.used = O.flatten) (hcount : count ≠ 0)
    (hfuel : count * (O.ticks + 1) ≤ fuel) (hdef : ¬ CopyDefined dt O count dst src)
    (mem : ℤ → Byte) : copyContentSameDdt fuel dt count dst src mem = none := by
  obtain ⟨hvariant, hclear⟩ := not_or.mp hdef
  rw [copyContentSameDdt_eq hcount, if_neg hvariant, copyContent_eq h hO hcount hfuel,
    copyPieces_memcpy_of_not_clear _ _ hclear]
  rfl

variable (dst src) in
/-- What holds of a call for every memory: it is defined, and it holds of the moves. -/
lemma forall_copyContentSameDdt_iff (h : Committed dt as)
    (hO : dt.optDesc.desc.take dt.optDesc.used = O.flatten) (hcount : count ≠ 0)
    (hfuel : count * (O.ticks + 1) ≤ fuel) (Q : (ℤ → Byte) → (ℤ → Byte) → Prop) :
    (∀ mem, ∃ mem', copyContentSameDdt fuel dt count dst src mem = some (0, mem') ∧
        Q (fun a => mem (src + a)) (fun a => mem' (src + a))) ↔
      CopyDefined dt O count dst src ∧ ∀ m, Q m (moves (dst - src) (dt.pieces O count) m) := by
  constructor
  · intro hall
    have hdef : CopyDefined dt O count dst src := by
      by_contra hdef
      obtain ⟨mem', hmem', -⟩ := hall fun _ => 0
      rw [copyContentSameDdt_of_not_defined h hO hcount hfuel hdef] at hmem'
      cases hmem'
    refine ⟨hdef, fun m => ?_⟩
    obtain ⟨mem', hmem', hQ⟩ := hall fun x => m (x - src)
    obtain ⟨mem'', hmem'', hmoves⟩ := copyContentSameDdt_eq_moves h hO hcount hfuel hdef
      fun x => m (x - src)
    obtain rfl : mem' = mem'' := congrArg Prod.snd (Option.some.inj (hmem'.symm.trans hmem''))
    simpa only [hmoves, add_sub_cancel_left] using hQ
  · rintro ⟨hdef, hQ⟩ mem
    obtain ⟨mem', hmem', hmoves⟩ := copyContentSameDdt_eq_moves h hO hcount hfuel hdef mem
    refine ⟨mem', hmem', ?_⟩
    simpa only [hmoves] using hQ fun a => mem (src + a)

/-- The blocks of a `CONTIGUOUS` datatype hold its typemap. -/
lemma Committed.pieceBytes_of_contiguous (h : Committed dt as) (hc : dt.flags.contiguous = true)
    (O : Nest) (hcount : count ≠ 0) :
    pieceBytes (dt.pieces O count) = copiesMap as count 0 dt.extent := by
  rw [h.built.measured.contiguous hc, Datatype.pieces, if_pos hc]
  split_ifs with hext
  · rw [pieceBytes_chunks, copiesMap_run _ _ (Or.inl hext) hcount, zero_add]
  · have hround : ∀ d, (run dt.trueLb dt.size).map (· + d) = run (d + dt.trueLb) dt.size :=
      fun d => by rw [map_add_run, add_comm]
    rw [pieceBytes_stride, copiesMap, stride_congr _ _ _ hround,
      ← stride_add_right _ _ _ fun x => run x dt.size, zero_add]

/-- The typemap of a datatype that is not `CONTIGUOUS`. -/
lemma Committed.ne_nil (h : Committed dt as) (hc : dt.flags.contiguous = false) : as ≠ [] := by
  obtain ⟨dt₀, D, hD, hne⟩ := h.commits hc
  have hpos := hD.described.wf.length_pos hne 0
  rw [hD.described.size, h.built.measured.size] at hpos
  exact List.ne_nil_of_length_pos hpos

/-! ### Copies to a region apart -/

/-- The regions from the first to the last of the bytes `as` do not overlap. -/
def Apart (as : List ℤ) (dst src : ℤ) : Prop :=
  ∀ lo hi, Spans as lo hi → dst + hi ≤ src + lo ∨ src + hi ≤ dst + lo

lemma exists_spans {bs : List ℤ} (h : bs ≠ []) : ∃ lo hi, Spans bs lo hi := by
  induction bs with
  | nil => exact absurd rfl h
  | cons a bs ih =>
      have hone : Spans [a] a (a + 1) := spans_run a Nat.one_pos
      rcases eq_or_ne bs [] with rfl | hne
      · exact ⟨a, a + 1, hone⟩
      · obtain ⟨lo, hi, hs⟩ := ih hne
        exact ⟨_, _, hone.append hs⟩

lemma apart_of_bounds {bs : List ℤ} (lo hi : ℤ) (hbs : ∀ a ∈ bs, lo ≤ a ∧ a < hi)
    (hfar : dst + hi ≤ src + lo ∨ src + hi ≤ dst + lo) : Apart bs dst src := by
  intro lo' hi' h
  have hlo := hbs lo' h.least
  have hhi := hbs (hi' - 1) h.greatest
  omega

/-- Regions apart are further apart than any two of their bytes. -/
lemma Apart.lt {bs : List ℤ} (h : Apart bs dst src) {a b : ℤ} (ha : a ∈ bs) (hb : b ∈ bs) :
    |a - b| < |dst - src| := by
  obtain ⟨lo, hi, hs⟩ := exists_spans (List.ne_nil_of_mem ha)
  have hfar := h lo hi hs
  have ha' := hs.within a ha
  have hb' := hs.within b hb
  rcases abs_cases (a - b) with ⟨h₁, -⟩ | ⟨h₁, -⟩ <;>
    rcases abs_cases (dst - src) with ⟨h₂, h₃⟩ | ⟨h₂, h₃⟩ <;> omega

lemma Apart.ne {bs : List ℤ} (h : Apart bs dst src) (hne : bs ≠ []) : dst - src ≠ 0 := by
  obtain ⟨a, ha⟩ := List.exists_mem_of_ne_nil bs hne
  have hlt := h.lt ha ha
  rw [sub_self, abs_zero] at hlt
  exact abs_pos.mp hlt

/-- Blocks of bytes apart are clear of their destinations, and nothing is moved over them. -/
lemma Apart.clear {bs : List ℤ} (h : Apart bs dst src) {ps : List Piece}
    (hps : ∀ a, a ∈ pieceBytes ps ↔ a ∈ bs) : Clear (dst - src) ps := by
  intro _ p hp
  rcases Nat.eq_zero_or_pos p.len with h0 | hpos
  · rw [h0, Nat.cast_zero]
    exact abs_nonneg _
  · have hmem : ∀ a, p.Holds a → a ∈ bs := fun a ha => (hps a).mp (mem_pieceBytes.mpr ⟨p, hp, ha⟩)
    have hlt := h.lt (hmem (p.start + p.len - 1) (by rw [Piece.Holds]; omega))
      (hmem p.start (by rw [Piece.Holds]; omega))
    rw [abs_of_nonneg (by omega)] at hlt
    omega

lemma Apart.untouched {bs : List ℤ} (h : Apart bs dst src) {ps : List Piece}
    (hps : ∀ a, a ∈ pieceBytes ps ↔ a ∈ bs) {a : ℤ} (ha : a ∈ bs) :
    Untouched (dst - src) ps a := by
  intro p hp hold
  have hlt := h.lt ha ((hps _).mp (mem_pieceBytes.mpr ⟨p, hp, hold⟩))
  rw [sub_sub_cancel] at hlt
  exact lt_irrefl _ hlt

instance : Nontrivial Byte := ⟨0, 1, by decide⟩

/-- The blocks that the typemap `bs` is copied in hold just that. -/
lemma moves_iff_of_apart {bs : List ℤ} (h : Apart bs dst src) (hne : bs ≠ []) {ps : List Piece} :
    (∀ m : ℤ → Byte, (∀ a ∈ bs, moves (dst - src) ps m (a + (dst - src)) = m a) ∧
        ∀ x, x - (dst - src) ∉ bs → moves (dst - src) ps m x = m x) ↔
      ∀ a, a ∈ pieceBytes ps ↔ a ∈ bs := by
  have hδ := h.ne hne
  constructor
  · intro hall a
    constructor
    · intro ha
      by_contra hb
      have hself := (moves_self_iff hδ).mp fun m => (hall m).2 (a + (dst - src)) (by simpa using hb)
      obtain ⟨p, hp, hold⟩ := mem_pieceBytes.mp ha
      exact hself p hp (by simpa using hold)
    · exact fun hb => ((moves_add_iff hδ).mp fun m => (hall m).1 a hb).mem
  · refine fun hps m => ⟨fun a ha => ?_, fun x hx => ?_⟩
    · exact (moves_add_iff hδ).mpr (firstHand_of_untouched ((hps a).mpr ha) (h.untouched hps ha)) m
    · refine (moves_self_iff hδ).mpr (fun p hp hold => hx ?_) m
      exact (hps _).mp (mem_pieceBytes.mpr ⟨p, hp, hold⟩)

lemma Committed.copiesMap_ne_nil (h : Committed dt as) (hc : dt.flags.contiguous = false)
    (hcount : count ≠ 0) : copiesMap as count 0 dt.extent ≠ [] := by
  refine List.ne_nil_of_length_pos ?_
  rw [length_copiesMap]
  exact Nat.mul_pos (Nat.pos_of_ne_zero hcount) (List.length_pos_iff.mpr (h.ne_nil hc))

/-- What a copy is to do, seen from the source on. -/
lemma copied_iff {bs : List ℤ} {mem mem' : ℤ → Byte} :
    ((∀ a ∈ bs, mem' (dst + a) = mem (src + a)) ∧ ∀ x, x - dst ∉ bs → mem' x = mem x) ↔
      (∀ a ∈ bs, mem' (src + (a + (dst - src))) = mem (src + a)) ∧
        ∀ x, x - (dst - src) ∉ bs → mem' (src + x) = mem (src + x) := by
  have hdst : ∀ a, src + (a + (dst - src)) = dst + a := fun a => by ring
  simp only [hdst]
  refine and_congr_right fun _ => ⟨fun hkeep x hx => hkeep _ ?_, fun hkeep x hx => ?_⟩
  · rwa [show src + x - dst = x - (dst - src) by ring]
  · have hx' := hkeep (x - src) (by rwa [show x - src - (dst - src) = x - dst by ring])
    rwa [add_sub_cancel] at hx'

/-- Where no join loses a place and no extent is taken for a size, the blocks hold the bytes of the
description. -/
lemma Datatype.Commits.mem_pieceBytes {D : Nest} {dt₀ : Datatype} (h : Commits D dt₀ dt)
    (hjoins : D.SafeJoins) (hcast : (D.optimized none).CastsExtents) (a : ℤ) :
    a ∈ Layout.pieceBytes (stride count dt.extent (D.optimized none).pieces 0) ↔
      a ∈ copiesMap (D.bytes 0) count 0 dt.extent := by
  have hbytes : ∀ x, Layout.pieceBytes ((D.optimized none).pieces x) = (D.bytes 0).map (· + x) :=
    fun x => by rw [(h.pieceBytes x).2 hjoins hcast, D.bytes_eq_map]
  rw [pieceBytes_stride_pieces, stride_congr _ _ _ hbytes]
  rfl

end Place

end Ocoms
