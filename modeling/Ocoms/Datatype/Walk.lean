import Ocoms.Datatype.Nest

/-!
The walk through a description, which packing, unpacking, positioning, the raw iovec list and the
local copy share.

* `Cursor` holds the locals of the walk: the stack below the current element, `pos_desc`,
  `count_desc` and the base pointer. `Cursor.endLoop` is the `END_LOOP` branch, `Cursor.push` the
  `LOOP` branch, `enterAt` is `UPDATE_INTERNAL_COUNTERS` together with the reset of the base
  pointer.
* `Walker` is what a function does with a basic element and with a `CONTIGUOUS` loop;
  `walkStep` visits one entry, `walk` repeats it until the walker has no room left or the
  description is through.
* `Zip` is the abstract state: a place in the loop nest together with the loops around it.
  `Represents` ties it to a cursor; `Zip.remaining` are the blocks still to come. `walkStep_spec`
  says what one visit does to them, `walk_spec` what a whole walk does.
* `Zip.Below` bounds the number of open loops by the depth of the nest (`Represents.length_le`).
-/

namespace Ocoms

open Layout

/-! ### The walk as the code does it -/

/-- `dt_stack_t`; its field `type` is never read. -/
structure DtStack where
  index : ℤ
  count : ℕ
  disp : ℤ
  deriving DecidableEq, Repr

/-- The locals of a walk. `stack` is `pStack` and what lies below it, top first; `base` is the
base pointer relative to the user buffer. -/
structure Cursor where
  stack : List DtStack
  pos : ℕ
  count : ℕ
  base : ℤ
  deriving DecidableEq, Repr

/-- `pStack->disp`. -/
def stackDisp : List DtStack → ℤ
  | [] => 0
  | s :: _ => s.disp

/-- The base pointer is reset to `pStack->disp` and `UPDATE_INTERNAL_COUNTERS` reads the entry at
`pos`. -/
def enterAt (desc : List DtElemDesc) (stack : List DtStack) (pos : ℕ) : Option Cursor :=
  desc[pos]?.map fun e => { stack, pos, count := e.count, base := stackDisp stack }

/-- `--n` on a `size_t`. -/
def sizeDecr (n : ℕ) : ℕ := if n = 0 then 2 ^ 64 - 1 else n - 1

/-- `description[index].loop.extent`, under the assertion that the entry is a `LOOP`; the extent
of the datatype for the outermost entry. -/
def loopExtent (desc : List DtElemDesc) (extent index : ℤ) : Option ℤ :=
  if index = -1 then some extent
  else match desc[index.toNat]? with
    | some (.loop l) => some l.extent
    | _ => none

/-- The `END_LOOP` branch. `true` says that the last copy is through: the stack position was
`0`. -/
def Cursor.endLoop (desc : List DtElemDesc) (extent : ℤ) (c : Cursor) : Option (Bool × Cursor) :=
  match c.stack with
  | [] => none
  | top :: below =>
      let count := sizeDecr top.count
      if count = 0 then
        match below with
        | [] => some (true, { c with stack := [{ top with count := 0 }] })
        | _ :: _ => (enterAt desc below (c.pos + 1)).map fun c' => (false, c')
      else do
        let ext ← loopExtent desc extent top.index
        let c' ← enterAt desc ({ top with count, disp := top.disp + ext } :: below)
          (top.index + 1).toNat
        return (false, c')

/-- The `LOOP` branch: `PUSH_STACK` with `count` passes left, `moved` bytes from where the loop
was entered. -/
def Cursor.push (desc : List DtElemDesc) (c : Cursor) (count : ℕ) (moved : ℤ) : Option Cursor :=
  enterAt desc ({ index := c.pos, count, disp := stackDisp c.stack + moved } :: c.stack)
    (c.pos + 1)

/-- What a function does with `count` basic elements of an entry, and with `count` passes of a
`CONTIGUOUS` loop, at a base pointer: the count left, the new base pointer and the new state. -/
structure Walker (σ : Type) where
  data : ElemDesc → ℕ → ℤ → σ → ℕ × ℤ × σ
  contig : LoopDesc → EndLoopDesc → ℕ → ℤ → σ → ℕ × ℤ × σ

/-- Where one visit ends: at another entry, at an element that is not through, or behind the last
copy. -/
inductive Visit (σ : Type)
  | next (c : Cursor) (s : σ)
  | suspend (c : Cursor) (s : σ)
  | complete (c : Cursor) (s : σ)

/-- One visit of the entry at `pos_desc`. `none` is a read outside the description. -/
def walkStep {σ : Type} (W : Walker σ) (desc : List DtElemDesc) (extent : ℤ) (c : Cursor) (s : σ) :
    Option (Visit σ) :=
  match desc[c.pos]? with
  | none => none
  | some (.elem e) =>
      let (count, base, s') := W.data e c.count c.base s
      if count = 0 then (enterAt desc c.stack (c.pos + 1)).map fun c' => .next c' s'
      else some (.suspend { c with count, base } s')
  | some (.endLoop _) =>
      (c.endLoop desc extent).map fun (last, c') => if last then .complete c' s else .next c' s
  | some (.loop l) =>
      if l.flags.contiguous then
        match desc[c.pos + l.items]? with
        | some (.endLoop e) =>
            let (count, base, s') := W.contig l e c.count c.base s
            if count = 0 then
              (enterAt desc c.stack (c.pos + (l.items + 1))).map fun c' => .next c' s'
            else (c.push desc count (base - c.base)).map fun c' => .next c' s'
        | _ => none
      else (c.push desc c.count 0).map fun c' => .next c' s

/-- `while( 1 )`, at most `fuel` visits. -/
def walk {σ : Type} (W : Walker σ) (desc : List DtElemDesc) (extent : ℤ) :
    ℕ → Cursor → σ → Option (Visit σ)
  | 0, _, _ => none
  | fuel + 1, c, s =>
      match walkStep W desc extent c s with
      | some (.next c' s') => walk W desc extent fuel c' s'
      | r => r

/-- More fuel gives the same result. -/
lemma walk_mono {σ : Type} {W : Walker σ} {desc : List DtElemDesc} {extent : ℤ} {fuel fuel' : ℕ}
    (hle : fuel ≤ fuel') {c : Cursor} {s : σ} {v : Visit σ}
    (h : walk W desc extent fuel c s = some v) : walk W desc extent fuel' c s = some v := by
  induction fuel generalizing fuel' c s with
  | zero => simp [walk] at h
  | succ n ih =>
      obtain ⟨m, rfl⟩ := Nat.exists_eq_add_of_le hle
      rw [Nat.add_right_comm, walk]
      rw [walk] at h
      cases hs : walkStep W desc extent c s with
      | none => simp [hs] at h
      | some r =>
          cases r with
          | next c' s' =>
              simp only [hs] at h ⊢
              exact ih (Nat.le_add_right _ _) h
          | suspend c' s' => simpa [hs] using h
          | complete c' s' => simpa [hs] using h

/-- What a walker does with a loop: nothing is copied through the `END_LOOP` of one that is not
`CONTIGUOUS`. -/
def Walker.visitLoop {σ : Type} (W : Walker σ) (l : LoopDesc) (e : EndLoopDesc) (count : ℕ) (base : ℤ)
    (s : σ) : ℕ × ℤ × σ :=
  if l.flags.contiguous then W.contig l e count base s else (count, base, s)

/-! ### Places in a nest -/

/-- A loop around the current place: what it is, what follows it, and how many passes are left,
the current one at displacement `disp`. -/
structure Frame where
  loop : LoopInfo
  body : Nest
  rest : Nest
  count : ℕ
  disp : ℤ

/-- A place in the nest `D`: the loops around it, innermost first, the copies left with the
displacement of the current one, and what is left of the current level. -/
structure Zip where
  frames : List Frame
  outerCount : ℕ
  outerDisp : ℤ
  code : Nest

/-- The displacement of the innermost of the frames `fs`. -/
def framesDisp (outerDisp : ℤ) : List Frame → ℤ
  | [] => outerDisp
  | f :: _ => f.disp

/-- The displacement of the current level. -/
def Zip.level (z : Zip) : ℤ := framesDisp z.outerDisp z.frames

/-- The count `UPDATE_INTERNAL_COUNTERS` reads at the start of a nest. -/
def Nest.headCount : Nest → ℕ
  | done => 0
  | elem e _ => e.count
  | loop l _ _ => l.loops

/-- The loop a frame stands for. -/
def Frame.nest (f : Frame) : Nest := .loop f.loop f.body f.rest

section Remaining

variable (D : Nest) (extent : ℤ)

/-- The blocks behind the end of the current level. -/
def framesBlocks (outerCount : ℕ) (outerDisp : ℤ) : List Frame → List Block
  | [] => stride (outerCount - 1) extent D.blocks (outerDisp + extent)
  | f :: fs =>
      stride (f.count - 1) f.loop.extent f.body.blocks (f.disp + f.loop.extent)
        ++ (f.rest.blocks (framesDisp outerDisp fs) ++ framesBlocks outerCount outerDisp fs)

/-- The blocks of the current level when `count` of its first entry are left, at `base`. -/
def headBlocks (count : ℕ) (base level : ℤ) : Nest → List Block
  | .done => []
  | .elem e rest => elemBlocks e count base ++ rest.blocks level
  | .loop l body rest => stride count l.extent body.blocks base ++ rest.blocks level

/-- The blocks still to come. -/
def Zip.remaining (z : Zip) (count : ℕ) (base : ℤ) : List Block :=
  headBlocks count base z.level z.code
    ++ framesBlocks D extent z.outerCount z.outerDisp z.frames

/-- Those of the current copy. -/
def Zip.current (z : Zip) (count : ℕ) (base : ℤ) : List Block :=
  headBlocks count base z.level z.code ++ framesBlocks D 0 1 z.outerDisp z.frames

/-- The number of visits a nest takes at most. -/
def Nest.ticks : Nest → ℕ
  | done => 0
  | elem _ rest => 1 + rest.ticks
  | loop l body rest => 1 + l.loops * (body.ticks + 1) + rest.ticks

/-- The number of visits from the end of the current level on. -/
def framesTicks (outerCount : ℕ) : List Frame → ℕ
  | [] => 1 + (outerCount - 1) * (D.ticks + 1)
  | f :: fs => 1 + (f.count - 1) * (f.body.ticks + 1) + f.rest.ticks + framesTicks outerCount fs

/-- The number of visits of the current level. -/
def headTicks (count : ℕ) : Nest → ℕ
  | .done => 0
  | .elem _ rest => 1 + rest.ticks
  | .loop _ body rest => 1 + count * (body.ticks + 1) + rest.ticks

/-- The number of visits still to come, at most. -/
def Zip.ticks (z : Zip) (count : ℕ) : ℕ :=
  headTicks count z.code + framesTicks D z.outerCount z.frames

end Remaining

lemma framesBlocks_eq (D : Nest) (extent : ℤ) (outerCount : ℕ) (outerDisp : ℤ) (fs : List Frame) :
    framesBlocks D extent outerCount outerDisp fs
      = framesBlocks D 0 1 outerDisp fs
        ++ stride (outerCount - 1) extent D.blocks (outerDisp + extent) := by
  induction fs with
  | nil => rfl
  | cons f fs ih => rw [framesBlocks, ih, framesBlocks, List.append_assoc, List.append_assoc]

/-- Behind the current copy there are whole ones. -/
lemma Zip.remaining_eq (D : Nest) (extent : ℤ) (z : Zip) (count : ℕ) (base : ℤ) :
    z.remaining D extent count base = z.current D count base
      ++ stride (z.outerCount - 1) extent D.blocks (z.outerDisp + extent) := by
  rw [remaining, current, framesBlocks_eq, List.append_assoc]

/-- Within a copy, what is left of it only gets less. -/
lemma Zip.current_suffix {D : Nest} {extent : ℤ} {z z' : Zip} {count count' : ℕ} {base base' : ℤ}
    {bs : List Block} (h : z.remaining D extent count base = bs ++ z'.remaining D extent count' base')
    (hcount : z'.outerCount = z.outerCount) (hdisp : z'.outerDisp = z.outerDisp) :
    z'.current D count' base' <:+ z.current D count base := by
  rw [remaining_eq, remaining_eq, hcount, hdisp, ← List.append_assoc] at h
  exact ⟨bs, (List.append_cancel_right h).symm⟩

lemma Nest.Wf.headCount_pos {t : Nest} (h : t.Wf) (ht : t ≠ .done) : 0 < t.headCount := by
  cases t with
  | done => exact absurd rfl ht
  | elem e r => exact h.1
  | loop l b r => exact h.1

lemma headBlocks_headCount (t : Nest) (level : ℤ) :
    headBlocks t.headCount level level t = t.blocks level := by
  cases t <;> rfl

lemma headTicks_headCount (t : Nest) : headTicks t.headCount t = t.ticks := by
  cases t <;> rfl

/-! ### Moving through a nest -/

namespace Zip

/-- Past the end of the current level: the next pass of the innermost loop, or what follows it,
or the next copy. `none` behind the last copy. -/
def endLoop (D : Nest) (extent : ℤ) (z : Zip) : Option Zip :=
  match z.frames with
  | [] =>
      if z.outerCount = 1 then none
      else some { z with outerCount := z.outerCount - 1, outerDisp := z.outerDisp + extent,
                         code := D }
  | f :: fs =>
      if f.count = 1 then some { z with frames := fs, code := f.rest }
      else some { z with
        frames := { f with count := f.count - 1, disp := f.disp + f.loop.extent } :: fs
        code := f.body }

/-- Into the body of a loop, with `count` passes left. -/
def push (z : Zip) (l : LoopInfo) (body rest : Nest) (count : ℕ) (disp : ℤ) : Zip :=
  { z with frames := ⟨l, body, rest, count, disp⟩ :: z.frames, code := body }

/-- A property of the nest, of the loops around the place and of what is left. -/
structure All (P : Nest → Prop) (D : Nest) (z : Zip) : Prop where
  top : P D
  frames : ∀ f ∈ z.frames, P f.nest
  code : P z.code

/-- Every open loop, at its height, stays within depth `n`. -/
def FramesBelow (n : ℕ) : List Frame → Prop
  | [] => True
  | f :: fs => fs.length + f.nest.depth ≤ n ∧ FramesBelow n fs

/-- The place stays within depth `n`. -/
structure Below (n : ℕ) (D : Nest) (z : Zip) : Prop where
  top : D.depth ≤ n
  frames : FramesBelow n z.frames
  code : z.frames.length + z.code.depth ≤ n

end Zip

/-- A property of nests that parts of a nest inherit. -/
structure Hereditary (P : Nest → Prop) : Prop where
  elem : ∀ {e rest}, P (.elem e rest) → P rest
  body : ∀ {l body rest}, P (.loop l body rest) → P body
  rest : ∀ {l body rest}, P (.loop l body rest) → P rest

lemma hereditary_wf : Hereditary Nest.Wf :=
  ⟨fun h => h.2.2, fun h => h.2.2.1, fun h => h.2.2.2⟩

lemma hereditary_matches : Hereditary Nest.Matches :=
  ⟨fun h => h, fun h => h.2.1, fun h => h.2.2⟩

namespace Zip

variable {P : Nest → Prop} {D : Nest} {extent : ℤ} {z z' : Zip}

lemma All.endLoop (hP : Hereditary P) (h : z.All P D) (he : z.endLoop D extent = some z') :
    z'.All P D := by
  obtain ⟨hD, hf, -⟩ := h
  unfold Zip.endLoop at he
  split at he
  · split at he
    · simp at he
    · obtain rfl := Option.some.inj he
      exact ⟨hD, hf, hD⟩
  · next f fs hfs =>
    have hf' : P f.nest := hf f (by simp [hfs])
    have hfs' : ∀ g ∈ fs, P g.nest := fun g hg => hf g (by simp [hfs, hg])
    split at he
    · obtain rfl := Option.some.inj he
      exact ⟨hD, hfs', hP.rest hf'⟩
    · obtain rfl := Option.some.inj he
      refine ⟨hD, fun g hg => ?_, hP.body hf'⟩
      rcases List.mem_cons.mp hg with rfl | hg
      · exact hf'
      · exact hfs' g hg

lemma All.push (hP : Hereditary P) (h : z.All P D) {l : LoopInfo} {body rest : Nest}
    (hc : z.code = .loop l body rest) (count : ℕ) (disp : ℤ) :
    (z.push l body rest count disp).All P D := by
  have hcode : P (.loop l body rest) := hc ▸ h.code
  refine ⟨h.top, fun g hg => ?_, hP.body hcode⟩
  rcases List.mem_cons.mp hg with rfl | hg
  · exact hcode
  · exact h.frames g hg

lemma Below.endLoop {n : ℕ} (h : z.Below n D) (he : z.endLoop D extent = some z') :
    z'.Below n D := by
  obtain ⟨hD, hf, -⟩ := h
  unfold Zip.endLoop at he
  split at he
  · next hfs =>
    split at he
    · simp at he
    · obtain rfl := Option.some.inj he
      exact ⟨hD, hf, by simpa [hfs] using hD⟩
  · next f fs hfs =>
    rw [hfs] at hf
    obtain ⟨hn, hfs'⟩ := hf
    have hdepth : f.nest.depth = max (f.body.depth + 1) f.rest.depth := rfl
    split at he
    · obtain rfl := Option.some.inj he
      exact ⟨hD, hfs', by simp only; omega⟩
    · obtain rfl := Option.some.inj he
      exact ⟨hD, ⟨hn, hfs'⟩, by simp only [List.length_cons]; omega⟩

lemma Below.push {n : ℕ} (h : z.Below n D) {l : LoopInfo} {body rest : Nest}
    (hc : z.code = .loop l body rest) (count : ℕ) (disp : ℤ) :
    (z.push l body rest count disp).Below n D := by
  have hcode := h.code
  rw [hc] at hcode
  refine ⟨h.top, ⟨hcode, h.frames⟩, ?_⟩
  rw [Nest.depth] at hcode
  simp only [Zip.push, List.length_cons]
  omega

end Zip

/-! ### Cursors that represent a place -/

/-- The count of the first entry of a description. -/
lemma Nest.head?_desc {t : Nest} (ht : t ≠ .done) (fake : EndLoopDesc) :
    ((t.desc fake).head?.map DtElemDesc.count).getD 0 = t.headCount := by
  cases t with
  | done => exact absurd rfl ht
  | elem e r => rfl
  | loop l b r => rfl

section Represents

variable (D : Nest) (fake : EndLoopDesc)

/-- The entries behind the current level. -/
def framesTail : List Frame → List DtElemDesc
  | [] => [.endLoop fake]
  | f :: fs =>
      .endLoop (Nest.endLoopDesc f.loop f.body.flatten.length) ::
        (f.rest.flatten ++ framesTail fs)

/-- The stack of a list of frames. -/
def FramesRep (outerCount : ℕ) (outerDisp : ℤ) : List Frame → List DtStack → Prop
  | [], st => st = [⟨-1, outerCount, outerDisp⟩] ∧ 0 < outerCount
  | f :: fs, st =>
      ∃ (i : ℕ) (below : List DtStack), st = ⟨i, f.count, f.disp⟩ :: below ∧ 0 < f.count ∧
        (D.desc fake).drop i = f.nest.flatten ++ framesTail fake fs ∧
        FramesRep outerCount outerDisp fs below

/-- The cursor stands at the place. -/
structure Represents (z : Zip) (c : Cursor) : Prop where
  stack : FramesRep D fake z.outerCount z.outerDisp z.frames c.stack
  pos : (D.desc fake).drop c.pos = z.code.flatten ++ framesTail fake z.frames
  count : z.code ≠ .done → 0 < c.count
  loop : ∀ l body rest, z.code = .loop l body rest → c.base = z.level

/-- The cursor stands at the start of the code that is left. -/
structure Fresh (z : Zip) (c : Cursor) : Prop extends Represents D fake z c where
  base_eq : c.base = z.level
  count_eq : z.code ≠ .done → c.count = z.code.headCount

end Represents

section Step

variable {D : Nest} {fake : EndLoopDesc} {extent : ℤ}

lemma FramesRep.stackDisp_eq {oc : ℕ} {od : ℤ} {fs : List Frame} {st : List DtStack}
    (h : FramesRep D fake oc od fs st) : stackDisp st = framesDisp od fs := by
  cases fs with
  | nil => rw [h.1]; rfl
  | cons f fs =>
      obtain ⟨i, below, rfl, -⟩ := h
      rfl

lemma FramesRep.length_eq {oc : ℕ} {od : ℤ} {fs : List Frame} {st : List DtStack}
    (h : FramesRep D fake oc od fs st) : st.length = fs.length + 1 := by
  induction fs generalizing st with
  | nil => rw [h.1]; rfl
  | cons f fs ih =>
      obtain ⟨i, below, rfl, -, -, hb⟩ := h
      rw [List.length_cons, ih hb, List.length_cons]

lemma getElem?_of_drop {α : Type*} {xs ys : List α} {n : ℕ} {x : α}
    (h : xs.drop n = x :: ys) : xs[n]? = some x := by
  rw [← Nat.add_zero n, ← List.getElem?_drop, h]
  rfl

lemma drop_succ_of_drop {α : Type*} {xs ys : List α} {n : ℕ} {x : α}
    (h : xs.drop n = x :: ys) : xs.drop (n + 1) = ys := by
  rw [← List.drop_drop, h]
  rfl

lemma drop_add_of_drop {α : Type*} {xs as ys : List α} {n : ℕ}
    (h : xs.drop n = as ++ ys) : xs.drop (n + as.length) = ys := by
  rw [← List.drop_drop, h, List.drop_left]

/-- The entry at the start of a level, and the count read there. -/
lemma exists_getElem?_of_drop {z : Zip} {pos : ℕ}
    (h : (D.desc fake).drop pos = z.code.flatten ++ framesTail fake z.frames) :
    ∃ e, (D.desc fake)[pos]? = some e ∧ (z.code ≠ .done → e.count = z.code.headCount) := by
  cases hc : z.code with
  | elem e rest =>
      rw [hc] at h
      exact ⟨_, getElem?_of_drop h, fun _ => rfl⟩
  | loop l body rest =>
      rw [hc] at h
      exact ⟨_, getElem?_of_drop h, fun _ => rfl⟩
  | done =>
      rw [hc] at h
      cases hf : z.frames with
      | nil =>
          rw [hf] at h
          exact ⟨_, getElem?_of_drop h, fun h => absurd rfl h⟩
      | cons f fs =>
          rw [hf] at h
          exact ⟨_, getElem?_of_drop h, fun h => absurd rfl h⟩

/-- `UPDATE_INTERNAL_COUNTERS` at the start of what is left of a level. -/
lemma exists_enterAt {z : Zip} {st : List DtStack} {pos : ℕ}
    (hst : FramesRep D fake z.outerCount z.outerDisp z.frames st)
    (hpos : (D.desc fake).drop pos = z.code.flatten ++ framesTail fake z.frames)
    (hwf : z.code.Wf) :
    ∃ c, enterAt (D.desc fake) st pos = some c ∧ Fresh D fake z c := by
  obtain ⟨e, he, hcount⟩ := exists_getElem?_of_drop hpos
  have hbase : stackDisp st = z.level := hst.stackDisp_eq
  refine ⟨⟨st, pos, e.count, stackDisp st⟩, by rw [enterAt, he]; rfl,
    ⟨hst, hpos, fun hne => ?_, fun _ _ _ _ => hbase⟩, hbase, hcount⟩
  rw [hcount hne]
  exact hwf.headCount_pos hne

lemma sizeDecr_of_pos {n : ℕ} (h : 0 < n) : sizeDecr n = n - 1 := by
  rw [sizeDecr, if_neg h.ne']

lemma loopExtent_of_drop {i : ℕ} {f : Frame} {ys : List DtElemDesc}
    (h : (D.desc fake).drop i = f.nest.flatten ++ ys) :
    loopExtent (D.desc fake) extent i = some f.loop.extent := by
  have hi : ((i : ℕ) : ℤ) ≠ -1 := by omega
  rw [loopExtent, if_neg hi, Int.toNat_natCast, getElem?_of_drop h]
  rfl

/-- The body of a loop starts one entry behind it. -/
lemma drop_body {i : ℕ} {f : Frame} {fs : List Frame}
    (h : (D.desc fake).drop i = f.nest.flatten ++ framesTail fake fs) :
    (D.desc fake).drop (i + 1) = f.body.flatten ++ framesTail fake (f :: fs) := by
  have hnext := drop_succ_of_drop h
  rw [List.append_eq, List.append_assoc] at hnext
  exact hnext

/-- The `END_LOOP` branch follows `Zip.endLoop`. -/
lemma Represents.endLoop {z : Zip} {c : Cursor} (h : Represents D fake z c)
    (hP : z.All Nest.Wf D) (hdone : z.code = .done) :
    (z.endLoop D extent = none ∧ ∃ c', c.endLoop (D.desc fake) extent = some (true, c')) ∨
      ∃ z' c', z.endLoop D extent = some z' ∧
        c.endLoop (D.desc fake) extent = some (false, c') ∧ Fresh D fake z' c' := by
  obtain ⟨frames, oc, od, code⟩ := z
  obtain ⟨hst, hpos, -⟩ := h
  obtain rfl : code = .done := hdone
  simp only at hst hpos
  cases frames with
  | nil =>
      obtain ⟨hst, hoc⟩ := hst
      by_cases h1 : oc = 1
      · refine Or.inl ⟨by simp [Zip.endLoop, h1], ?_⟩
        simp [Cursor.endLoop, hst, h1, sizeDecr]
      · obtain ⟨c', hc', hf⟩ := exists_enterAt (D := D)
          (z := ⟨[], oc - 1, od + extent, D⟩) ⟨rfl, by simp only; omega⟩ List.drop_zero hP.top
        refine Or.inr ⟨⟨[], oc - 1, od + extent, D⟩, c', by simp [Zip.endLoop, h1], ?_, hf⟩
        have h0 : ¬ oc - 1 = 0 := by omega
        simp only [Cursor.endLoop, hst, sizeDecr_of_pos hoc, if_neg h0, loopExtent, if_true,
          Option.bind_eq_bind, Option.bind_some, neg_add_cancel, Int.toNat_zero, hc']
        rfl
  | cons f fs =>
      obtain ⟨i, below, hst, hcount, hi, hbelow⟩ := hst
      by_cases h1 : f.count = 1
      · have hrest : (D.desc fake).drop (c.pos + 1) = f.rest.flatten ++ framesTail fake fs :=
          drop_succ_of_drop hpos
        obtain ⟨c', hc', hf⟩ := exists_enterAt (z := ⟨fs, oc, od, f.rest⟩) hbelow hrest
          (hereditary_wf.rest (hP.frames f (by simp)))
        refine Or.inr ⟨⟨fs, oc, od, f.rest⟩, c', by simp [Zip.endLoop, h1], ?_, hf⟩
        have hne : below ≠ [] := by
          intro hnil
          have := hbelow.length_eq
          simp [hnil] at this
        obtain ⟨b, bs, rfl⟩ := List.exists_cons_of_ne_nil hne
        simp [Cursor.endLoop, hst, h1, sizeDecr, hc']
      · set g : Frame := { f with count := f.count - 1, disp := f.disp + f.loop.extent } with hg
        have hframes : FramesRep D fake oc od (g :: fs)
            (⟨i, f.count - 1, f.disp + f.loop.extent⟩ :: below) :=
          ⟨i, below, rfl, by simp only [hg]; omega, hi, hbelow⟩
        obtain ⟨c', hc', hf⟩ := exists_enterAt (z := ⟨g :: fs, oc, od, f.body⟩) hframes
          (drop_body (f := g) hi) (hereditary_wf.body (hP.frames f (by simp)))
        refine Or.inr ⟨⟨g :: fs, oc, od, f.body⟩, c', by simp [Zip.endLoop, h1, hg], ?_, hf⟩
        have h0 : ¬ f.count - 1 = 0 := by omega
        have hnat : ((i : ℤ) + 1).toNat = i + 1 := by omega
        simp only [Cursor.endLoop, hst, sizeDecr_of_pos hcount, if_neg h0, loopExtent_of_drop hi,
          Option.bind_eq_bind, Option.bind_some, hnat, hc']
        rfl

/-- The `LOOP` branch follows `Zip.push`. -/
lemma Represents.push {z : Zip} {c : Cursor} (h : Represents D fake z c) (hP : z.All Nest.Wf D)
    {l : LoopInfo} {body rest : Nest} (hc : z.code = .loop l body rest) {count : ℕ}
    (hcount : 0 < count) (moved : ℤ) :
    ∃ c', c.push (D.desc fake) count moved = some c' ∧
      Fresh D fake (z.push l body rest count (z.level + moved)) c' := by
  have hpos := h.pos
  rw [hc] at hpos
  have hst : FramesRep D fake z.outerCount z.outerDisp
      (⟨l, body, rest, count, z.level + moved⟩ :: z.frames)
      (⟨c.pos, count, stackDisp c.stack + moved⟩ :: c.stack) :=
    ⟨c.pos, c.stack, by rw [h.stack.stackDisp_eq]; rfl, hcount, hpos, h.stack⟩
  exact exists_enterAt (z := z.push l body rest count (z.level + moved)) hst
    (drop_body (f := ⟨l, body, rest, count, z.level + moved⟩) hpos)
    (hereditary_wf.body (hc ▸ hP.code))

/-- On to what follows the entry. -/
lemma Represents.enterAt_rest {z : Zip} {c : Cursor} (h : Represents D fake z c) {rest : Nest}
    (hwf : rest.Wf) {pos : ℕ}
    (hpos : (D.desc fake).drop pos = rest.flatten ++ framesTail fake z.frames) :
    ∃ c', enterAt (D.desc fake) c.stack pos = some c' ∧
      Fresh D fake { z with code := rest } c' :=
  exists_enterAt (z := { z with code := rest }) h.stack hpos hwf

variable {σ : Type} {W : Walker σ}

variable (extent) in
/-- A visit of an `END_LOOP`. -/
lemma walkStep_done {z : Zip} {c : Cursor} (h : Represents D fake z c) (hP : z.All Nest.Wf D)
    (hc : z.code = .done) (s : σ) :
    (z.endLoop D extent = none ∧
        ∃ c', walkStep W (D.desc fake) extent c s = some (.complete c' s)) ∨
      ∃ z' c', z.endLoop D extent = some z' ∧
        walkStep W (D.desc fake) extent c s = some (.next c' s) ∧ Fresh D fake z' c' := by
  have hpos : ∃ e, (D.desc fake)[c.pos]? = some (.endLoop e) := by
    have hpos := h.pos
    rw [hc] at hpos
    cases hf : z.frames with
    | nil => rw [hf] at hpos; exact ⟨_, getElem?_of_drop hpos⟩
    | cons f fs => rw [hf] at hpos; exact ⟨_, getElem?_of_drop hpos⟩
  obtain ⟨e, he⟩ := hpos
  rcases h.endLoop hP hc with ⟨hz, c', hc'⟩ | ⟨z', c', hz, hc', hf⟩
  · exact Or.inl ⟨hz, c', by simp [walkStep, he, hc']⟩
  · exact Or.inr ⟨z', c', hz, by simp [walkStep, he, hc'], hf⟩

variable (extent) in
/-- A visit of an element. -/
lemma walkStep_elem {z : Zip} {c : Cursor} (h : Represents D fake z c) (hP : z.All Nest.Wf D)
    {e : ElemDesc} {rest : Nest} (hc : z.code = .elem e rest) (s : σ) {r : ℕ × ℤ × σ}
    (hr : W.data e c.count c.base s = r) :
    (r.1 = 0 ∧ ∃ c', walkStep W (D.desc fake) extent c s = some (.next c' r.2.2) ∧
        Fresh D fake { z with code := rest } c') ∨
      (r.1 ≠ 0 ∧ walkStep W (D.desc fake) extent c s
        = some (.suspend { c with count := r.1, base := r.2.1 } r.2.2)) := by
  have hpos := h.pos
  rw [hc] at hpos
  have he := getElem?_of_drop hpos
  by_cases h0 : r.1 = 0
  · obtain ⟨c', hc', hf⟩ := h.enterAt_rest (hereditary_wf.elem (hc ▸ hP.code))
      (drop_succ_of_drop hpos)
    exact Or.inl ⟨h0, c', by simp [walkStep, he, hr, h0, hc'], hf⟩
  · exact Or.inr ⟨h0, by simp [walkStep, he, hr, h0]⟩

variable (extent) in
lemma walkStep_loop_eq {desc : List DtElemDesc} {c : Cursor} {l : LoopDesc} {e : EndLoopDesc}
    (hl : desc[c.pos]? = some (.loop l)) (he : desc[c.pos + l.items]? = some (.endLoop e))
    (hcount : c.count ≠ 0) (s : σ) {r : ℕ × ℤ × σ} (hr : W.visitLoop l e c.count c.base s = r) :
    walkStep W desc extent c s =
      if r.1 = 0 then (enterAt desc c.stack (c.pos + (l.items + 1))).map fun c' => .next c' r.2.2
      else (c.push desc r.1 (r.2.1 - c.base)).map fun c' => .next c' r.2.2 := by
  cases hcont : l.flags.contiguous with
  | false =>
      rw [Walker.visitLoop, hcont, if_neg Bool.false_ne_true] at hr
      subst hr
      simp [walkStep, hl, hcont, hcount]
  | true =>
      rw [Walker.visitLoop, hcont, if_pos rfl] at hr
      simp [walkStep, hl, he, hcont, hr]

variable (extent) in
/-- A visit of a loop. -/
lemma walkStep_loop {z : Zip} {c : Cursor} (h : Represents D fake z c) (hP : z.All Nest.Wf D)
    {l : LoopInfo} {body rest : Nest} (hc : z.code = .loop l body rest) (s : σ)
    {r : ℕ × ℤ × σ}
    (hr : W.visitLoop (Nest.loopDesc l body.flatten.length)
      (Nest.endLoopDesc l body.flatten.length) c.count c.base s = r) :
    (r.1 = 0 ∧ ∃ c', walkStep W (D.desc fake) extent c s = some (.next c' r.2.2) ∧
        Fresh D fake { z with code := rest } c') ∨
      (r.1 ≠ 0 ∧ ∃ c', walkStep W (D.desc fake) extent c s = some (.next c' r.2.2) ∧
        Fresh D fake (z.push l body rest r.1 (z.level + (r.2.1 - c.base))) c') := by
  have hpos := h.pos
  rw [hc] at hpos
  have hl := getElem?_of_drop hpos
  have hbody : (D.desc fake).drop (c.pos + (body.flatten.length + 1))
      = .endLoop (Nest.endLoopDesc l body.flatten.length) ::
        (rest.flatten ++ framesTail fake z.frames) := by
    have hnext := drop_succ_of_drop hpos
    rw [List.append_eq, List.append_assoc] at hnext
    have hend := drop_add_of_drop hnext
    rw [Nat.add_comm body.flatten.length 1, ← Nat.add_assoc]
    exact hend
  have heq := walkStep_loop_eq extent hl (getElem?_of_drop hbody)
    (h.count (by simp [hc])).ne' s hr
  by_cases h0 : r.1 = 0
  · obtain ⟨c', hc', hf⟩ := h.enterAt_rest (hereditary_wf.rest (hc ▸ hP.code))
      (drop_succ_of_drop hbody)
    refine Or.inl ⟨h0, c', ?_, hf⟩
    rw [heq, if_pos h0, ← Nat.add_assoc]
    exact congrArg _ hc'
  · obtain ⟨c', hc', hf⟩ := h.push hP hc (Nat.pos_of_ne_zero h0) (r.2.1 - c.base)
    refine Or.inr ⟨h0, c', ?_, hf⟩
    rw [heq, if_neg h0, hc']
    rfl

end Step

/-! ### What a walk reads -/

/-- `eats s as s'` says that a walker in state `s` may read the addresses `as`, in order, and be
in state `s'`. A sound walker reads elements and passes, as many as it counts down, and leaves an
element only in a state that stops there. -/
structure Walker.Sound {σ : Type} (W : Walker σ) (eats : σ → List ℤ → σ → Prop)
    (stops : ElemDesc → σ → Prop) : Prop where
  refl : ∀ s, eats s [] s
  trans : ∀ {s s' s'' as bs}, eats s as s' → eats s' bs s'' → eats s (as ++ bs) s''
  data : ∀ e count base s, 0 < count → 0 < basicSize e.type →
    ∃ m s', m ≤ count ∧ W.data e count base s = (count - m, base + m * e.extent, s') ∧
      eats s (blocksBytes (elemBlocks e m base)) s' ∧ (m < count → stops e s')
  contig : ∀ l e count base s, 0 < count → 0 < e.size →
    ∃ m s', m ≤ count ∧ W.contig l e count base s = (count - m, base + m * l.extent, s') ∧
      eats s (stride m l.extent (fun x => run (x + e.firstElemDisp) e.size) base) s'

/-- The cursor stands at the place, in a valid nest. -/
structure Stands (D : Nest) (fake : EndLoopDesc) (z : Zip) (c : Cursor) : Prop
    extends Represents D fake z c where
  wf : z.All Nest.Wf D
  ends : z.All Nest.Matches D
  current : z.current D c.count c.base <:+ D.blocks z.outerDisp

section Spec

variable {D : Nest} {fake : EndLoopDesc} {extent : ℤ}

variable (D extent) in
/-- The blocks and visits left at the start of a level. -/
lemma Zip.remaining_headCount (z : Zip) :
    z.remaining D extent z.code.headCount z.level
      = z.code.blocks z.level ++ framesBlocks D extent z.outerCount z.outerDisp z.frames := by
  rw [Zip.remaining, headBlocks_headCount]

lemma Zip.ticks_headCount (z : Zip) :
    z.ticks D z.code.headCount = z.code.ticks + framesTicks D z.outerCount z.frames := by
  rw [Zip.ticks, headTicks_headCount]

/-- Behind the last copy nothing is left. -/
lemma Represents.remaining_of_endLoop_none {z : Zip} {c : Cursor} (h : Represents D fake z c)
    (hdone : z.code = .done) (hz : z.endLoop D extent = none) :
    z.remaining D extent c.count c.base = [] := by
  obtain ⟨frames, oc, od, code⟩ := z
  obtain rfl : code = .done := hdone
  cases frames with
  | nil =>
      have h1 : oc = 1 := by
        by_contra h1
        simp [Zip.endLoop, h1] at hz
      simp [Zip.remaining, headBlocks, framesBlocks, h1]
  | cons f fs =>
      by_cases h1 : f.count = 1 <;> simp [Zip.endLoop, h1] at hz

/-- The blocks behind the end of a level are those of the place the walk goes to. -/
lemma Represents.remaining_endLoop {z z' : Zip} {c : Cursor} (h : Represents D fake z c)
    (hdone : z.code = .done) (hz : z.endLoop D extent = some z') :
    z.remaining D extent c.count c.base = z'.remaining D extent z'.code.headCount z'.level ∧
      z'.ticks D z'.code.headCount < z.ticks D c.count := by
  obtain ⟨frames, oc, od, code⟩ := z
  obtain rfl : code = .done := hdone
  have hst := h.stack
  rw [Zip.remaining_headCount, Zip.ticks_headCount]
  simp only [Zip.remaining, headBlocks, Zip.ticks, headTicks, List.nil_append, zero_add]
  cases frames with
  | nil =>
      have hoc : 0 < oc := hst.2
      by_cases h1 : oc = 1
      · simp [Zip.endLoop, h1] at hz
      · simp only [Zip.endLoop, if_neg h1, Option.some.injEq] at hz
        subst hz
        obtain ⟨n, rfl⟩ : ∃ n, oc = n + 2 := ⟨oc - 2, by omega⟩
        have hn : n + 2 - 1 = n + 1 := rfl
        simp only [framesBlocks, framesTicks, hn, stride_succ, Nat.add_sub_cancel]
        refine ⟨rfl, ?_⟩
        rw [Nat.add_one_mul]
        omega
  | cons f fs =>
      obtain ⟨i, below, -, hcount, -, -⟩ := hst
      by_cases h1 : f.count = 1
      · simp only [Zip.endLoop, if_pos h1, Option.some.injEq] at hz
        subst hz
        simp only [framesBlocks, framesTicks, h1, Nat.sub_self, stride_zero, List.nil_append]
        exact ⟨rfl, by omega⟩
      · simp only [Zip.endLoop, if_neg h1, Option.some.injEq] at hz
        subst hz
        obtain ⟨n, hn⟩ : ∃ n, f.count = n + 2 := ⟨f.count - 2, by omega⟩
        have hn' : n + 2 - 1 = n + 1 := rfl
        simp only [framesBlocks, framesTicks, hn, hn', stride_succ, Nat.add_sub_cancel,
          List.append_assoc, Zip.level, framesDisp, true_and]
        rw [Nat.add_one_mul]
        omega

/-- What is left of a copy is a part of it. -/
lemma Zip.current_endLoop {z z' : Zip} {c c' : Cursor} (hz : z.endLoop D extent = some z')
    (hcur : z.current D c.count c.base <:+ D.blocks z.outerDisp)
    (hrem : z.remaining D extent c.count c.base = z'.remaining D extent z'.code.headCount z'.level)
    (hc : z'.remaining D extent c'.count c'.base
      = z'.remaining D extent z'.code.headCount z'.level) :
    z'.current D c'.count c'.base <:+ D.blocks z'.outerDisp := by
  rw [← hc] at hrem
  have hinner := Zip.current_suffix (hrem.trans (List.nil_append _).symm)
  obtain ⟨frames, oc, od, code⟩ := z
  cases frames with
  | nil =>
      by_cases h1 : oc = 1
      · simp [Zip.endLoop, h1] at hz
      · simp only [Zip.endLoop, if_neg h1, Option.some.injEq] at hz
        subst hz
        rw [Zip.remaining_eq, Zip.remaining_eq] at hc
        rw [List.append_cancel_right hc, Zip.current, headBlocks_headCount]
        simp [framesBlocks, Zip.level, framesDisp]
  | cons f fs =>
      by_cases h1 : f.count = 1
      all_goals
        simp only [Zip.endLoop, h1, if_true, if_false, Option.some.injEq] at hz
        subst hz
        exact (hinner rfl rfl).trans hcur

variable {σ : Type} {W : Walker σ} {eats : σ → List ℤ → σ → Prop} {stops : ElemDesc → σ → Prop}

lemma Fresh.remaining_eq {z : Zip} {c : Cursor} (h : Fresh D fake z c) :
    z.remaining D extent c.count c.base = z.remaining D extent z.code.headCount z.level := by
  rw [h.base_eq]
  by_cases hc : z.code = .done
  · simp only [Zip.remaining, hc, headBlocks]
  · rw [h.count_eq hc]

lemma Fresh.ticks_eq {z : Zip} {c : Cursor} (h : Fresh D fake z c) :
    z.ticks D c.count = z.ticks D z.code.headCount := by
  by_cases hc : z.code = .done
  · simp only [Zip.ticks, hc, headTicks]
  · rw [h.count_eq hc]

/-- A visit of a loop reads whole passes: through a matching `END_LOOP`, or none. -/
lemma Walker.Sound.visitLoop (S : W.Sound eats stops) {l : LoopInfo} {body rest : Nest}
    (hwf : (Nest.loop l body rest).Wf) (hm : (Nest.loop l body rest).Matches) (n : ℕ)
    {count : ℕ} (hcount : 0 < count) (base : ℤ) (s : σ) :
    ∃ m s', m ≤ count ∧
      W.visitLoop (Nest.loopDesc l n) (Nest.endLoopDesc l n) count base s
        = (count - m, base + m * l.extent, s') ∧
      eats s (blocksBytes (stride m l.extent body.blocks base)) s' := by
  cases hcont : l.flags.contiguous with
  | false =>
      refine ⟨0, s, Nat.zero_le _, ?_, S.refl s⟩
      simp [Walker.visitLoop, Nest.loopDesc, hcont]
  | true =>
      have hsize : 0 < l.size := by
        have hlen := hwf.2.2.1.length_pos hwf.2.1 0
        rwa [hm.1 hcont, length_run] at hlen
      obtain ⟨m, s', hmc, hr, he⟩ :=
        S.contig (Nest.loopDesc l n) (Nest.endLoopDesc l n) count base s hcount hsize
      refine ⟨m, s', hmc, ?_, ?_⟩
      · rw [Walker.visitLoop, Nest.loopDesc, hcont, if_pos rfl]
        exact hr
      · rw [blocksBytes, flatMap_stride]
        exact (hm.1.stride_eq hcont m base).symm ▸ he

variable (D extent) in
/-- The blocks of a level whose first entry is a loop, `m` passes of which are through. -/
lemma Zip.remaining_loop {z : Zip} {l : LoopInfo} {body rest : Nest}
    (hc : z.code = .loop l body rest) {m count : ℕ} (hm : m ≤ count) (base : ℤ) :
    z.remaining D extent count base =
      stride m l.extent body.blocks base ++
        (stride (count - m) l.extent body.blocks (base + m * l.extent) ++ (rest.blocks z.level
          ++ framesBlocks D extent z.outerCount z.outerDisp z.frames)) := by
  rw [Zip.remaining, hc, headBlocks, stride_split hm, List.append_assoc, List.append_assoc]

variable (D extent) in
/-- The blocks of a level whose first entry is an element, `m` of which are through. -/
lemma Zip.remaining_elem {z : Zip} {e : ElemDesc} {rest : Nest} (hc : z.code = .elem e rest)
    {m count : ℕ} (hm : m ≤ count) (base : ℤ) :
    z.remaining D extent count base =
      elemBlocks e m base ++ z.remaining D extent (count - m) (base + m * e.extent) := by
  rw [Zip.remaining, Zip.remaining, hc, headBlocks, headBlocks, elemBlocks_split e hm]
  simp only [List.append_assoc]

/-- The blocks left when a loop is entered with `n + 1` passes to go. -/
lemma Zip.remaining_push (z : Zip) (l : LoopInfo) (body rest : Nest) (n : ℕ) (disp : ℤ) :
    (z.push l body rest (n + 1) disp).remaining D extent body.headCount disp =
      stride (n + 1) l.extent body.blocks disp ++ (rest.blocks z.level
        ++ framesBlocks D extent z.outerCount z.outerDisp z.frames) := by
  simp only [Zip.remaining, Zip.push, Zip.level, framesDisp, headBlocks_headCount, framesBlocks,
    Nat.add_sub_cancel, stride_succ, List.append_assoc]

/-- **One visit**: it ends behind the last copy, with nothing left; or at another entry, having
read the blocks that are no longer to come; or at an element that is not through. -/
lemma walkStep_spec (S : W.Sound eats stops) {z : Zip} {c : Cursor} (h : Stands D fake z c)
    (s : σ) :
    (∃ c', walkStep W (D.desc fake) extent c s = some (.complete c' s) ∧
        z.remaining D extent c.count c.base = []) ∨
      (∃ z' c' s' bs, walkStep W (D.desc fake) extent c s = some (.next c' s') ∧
        Stands D fake z' c' ∧ eats s (blocksBytes bs) s' ∧
        z.remaining D extent c.count c.base = bs ++ z'.remaining D extent c'.count c'.base ∧
        z'.ticks D c'.count < z.ticks D c.count) ∨
      ∃ c' s' bs e rest, walkStep W (D.desc fake) extent c s = some (.suspend c' s') ∧
        Stands D fake z c' ∧ z.code = .elem e rest ∧ stops e s' ∧
        eats s (blocksBytes bs) s' ∧
        z.remaining D extent c.count c.base = bs ++ z.remaining D extent c'.count c'.base := by
  obtain ⟨h, hP, hM, hcur⟩ := h
  cases hcode : z.code with
  | done =>
      rcases walkStep_done (W := W) extent h hP hcode s with
        ⟨hz, c', hc'⟩ | ⟨z', c', hz, hc', hf⟩
      · exact Or.inl ⟨c', hc', h.remaining_of_endLoop_none hcode hz⟩
      · obtain ⟨hrem, hticks⟩ := h.remaining_endLoop hcode hz
        refine Or.inr (Or.inl ⟨z', c', s, [], hc', ⟨hf.toRepresents,
          hP.endLoop hereditary_wf hz, hM.endLoop hereditary_matches hz,
          Zip.current_endLoop hz hcur hrem hf.remaining_eq⟩, S.refl s, ?_, ?_⟩)
        · rw [hrem, hf.remaining_eq, List.nil_append]
        · rwa [hf.ticks_eq]
  | elem e rest =>
      have hcount := h.count (by simp [hcode])
      have hwf : (Nest.elem e rest).Wf := hcode ▸ hP.code
      obtain ⟨m, s', hm, hr, he, hstop⟩ := S.data e c.count c.base s hcount hwf.2.1
      have hrem := Zip.remaining_elem D extent hcode hm c.base
      rcases walkStep_elem extent h hP hcode s hr with ⟨h0, c', hc', hf⟩ | ⟨h0, hc'⟩
      · obtain rfl : m = c.count := by simp only at h0; omega
        have hnext : z.remaining D extent c.count c.base = elemBlocks e c.count c.base
            ++ ({ z with code := rest } : Zip).remaining D extent c'.count c'.base := by
          rw [hrem, hf.remaining_eq, Zip.remaining_headCount, Zip.remaining, hcode, headBlocks,
            Nat.sub_self, elemBlocks_zero, List.nil_append]
          rfl
        refine Or.inr (Or.inl ⟨_, c', s', _, hc', ⟨hf.toRepresents,
          ⟨hP.top, hP.frames, hwf.2.2⟩,
          ⟨hM.top, hM.frames, hereditary_matches.elem (hcode ▸ hM.code)⟩,
          (Zip.current_suffix hnext rfl rfl).trans hcur⟩, he, hnext, ?_⟩)
        · rw [hf.ticks_eq, Zip.ticks_headCount, Zip.ticks, hcode, headTicks]
          simp only
          omega
      · refine Or.inr (Or.inr ⟨_, s', _, e, rest, hc',
          ⟨⟨h.stack, h.pos, fun _ => ?_, ?_⟩, hP, hM, (Zip.current_suffix hrem rfl rfl).trans hcur⟩,
          rfl, hstop ?_, he, hrem⟩)
        · exact Nat.pos_of_ne_zero h0
        · simp [hcode]
        · simp only at h0
          omega
  | loop l body rest =>
      have hcount := h.count (by simp [hcode])
      have hwf : (Nest.loop l body rest).Wf := hcode ▸ hP.code
      have hmat : (Nest.loop l body rest).Matches := hcode ▸ hM.code
      have hbase : c.base = z.level := h.loop l body rest hcode
      obtain ⟨m, s', hm, hr, he⟩ := S.visitLoop hwf hmat body.flatten.length hcount c.base s
      have hrem := Zip.remaining_loop D extent hcode hm c.base
      rcases walkStep_loop extent h hP hcode s hr with
        ⟨h0, c', hc', hf⟩ | ⟨h0, c', hc', hf⟩
      · obtain rfl : m = c.count := by simp only at h0; omega
        have hnext : z.remaining D extent c.count c.base
            = stride c.count l.extent body.blocks c.base
              ++ ({ z with code := rest } : Zip).remaining D extent c'.count c'.base := by
          rw [hrem, hf.remaining_eq, Zip.remaining_headCount, Nat.sub_self, stride_zero,
            List.nil_append]
          rfl
        refine Or.inr (Or.inl ⟨_, c', s', _, hc', ⟨hf.toRepresents,
          ⟨hP.top, hP.frames, hwf.2.2.2⟩, ⟨hM.top, hM.frames, hmat.2.2⟩,
          (Zip.current_suffix hnext rfl rfl).trans hcur⟩, he, hnext, ?_⟩)
        · rw [hf.ticks_eq, Zip.ticks_headCount, Zip.ticks, hcode, headTicks]
          simp only
          omega
      · have hpos : 0 < c.count - m := Nat.pos_of_ne_zero h0
        obtain ⟨n, hn⟩ : ∃ n, c.count - m = n + 1 := ⟨c.count - m - 1, by omega⟩
        have hdisp : z.level + (c.base + m * l.extent - c.base) = c.base + m * l.extent := by
          rw [hbase]; ring
        simp only [hdisp, hn] at hf
        have hnext : z.remaining D extent c.count c.base = stride m l.extent body.blocks c.base
            ++ (z.push l body rest (n + 1) (c.base + m * l.extent)).remaining D extent c'.count
              c'.base := by
          rw [hrem, hf.remaining_eq, hn]
          exact congrArg _ (z.remaining_push l body rest n _).symm
        refine Or.inr (Or.inl ⟨_, c', s', _, hc', ⟨hf.toRepresents,
          hP.push hereditary_wf hcode _ _, hM.push hereditary_matches hcode _ _,
          (Zip.current_suffix hnext rfl rfl).trans hcur⟩, he, hnext, ?_⟩)
        · rw [hf.ticks_eq, Zip.ticks_headCount, Zip.ticks, hcode, headTicks]
          simp only [Zip.push, framesTicks, Nat.add_sub_cancel]
          have hmul : (n + 1) * (body.ticks + 1) ≤ c.count * (body.ticks + 1) :=
            Nat.mul_le_mul_right _ (by omega)
          rw [Nat.add_one_mul] at hmul
          omega

/-- **A whole walk**: with as much fuel as there are visits to come, it reads everything that is
left, or all up to an element at which it stops. -/
theorem walk_spec (S : W.Sound eats stops) {z : Zip} {c : Cursor} (h : Stands D fake z c)
    {fuel : ℕ} (hfuel : z.ticks D c.count < fuel) (s : σ) :
    (∃ c' s', walk W (D.desc fake) extent fuel c s = some (.complete c' s') ∧
        eats s (blocksBytes (z.remaining D extent c.count c.base)) s') ∨
      ∃ z' c' s' bs e rest, walk W (D.desc fake) extent fuel c s = some (.suspend c' s') ∧
        Stands D fake z' c' ∧ z'.code = .elem e rest ∧ stops e s' ∧
        eats s (blocksBytes bs) s' ∧
        z.remaining D extent c.count c.base = bs ++ z'.remaining D extent c'.count c'.base ∧
        z'.ticks D c'.count ≤ z.ticks D c.count := by
  induction fuel generalizing z c s with
  | zero => omega
  | succ fuel ih =>
      rw [walk]
      rcases walkStep_spec S h s with
        ⟨c', hstep, hrem⟩ | ⟨z₁, c₁, s₁, bs₁, hstep, h₁, he₁, hrem₁, hticks₁⟩ |
          ⟨c', s', bs, e, rest, hstep, h', hcode, hstop, he, hrem⟩
      · rw [hstep, hrem]
        exact Or.inl ⟨c', s, rfl, S.refl s⟩
      · rw [hstep, hrem₁, blocksBytes_append]
        rcases ih h₁ (by omega) s₁ with
          ⟨c', s', hw, he⟩ | ⟨z', c', s', bs, e, rest, hw, h', hcode, hstop, he, hrem, hticks⟩
        · exact Or.inl ⟨c', s', hw, S.trans he₁ he⟩
        · refine Or.inr ⟨z', c', s', bs₁ ++ bs, e, rest, hw, h', hcode, hstop, ?_, ?_, by omega⟩
          · rw [blocksBytes_append]
            exact S.trans he₁ he
          · rw [hrem, List.append_assoc]
      · rw [hstep]
        refine Or.inr ⟨z, c', s', bs, e, rest, rfl, h', hcode, hstop, he, hrem, ?_⟩
        rw [Zip.ticks, Zip.ticks, hcode, headTicks, headTicks]

/-- At an element the next block is one of its type. -/
lemma Represents.exists_remaining_cons {z : Zip} {c : Cursor} (h : Represents D fake z c)
    {e : ElemDesc} {rest : Nest} (hcode : z.code = .elem e rest) :
    ∃ b bs, z.remaining D extent c.count c.base = b :: bs ∧ b.type = e.type := by
  obtain ⟨n, hn⟩ := Nat.exists_eq_succ_of_ne_zero (h.count (by simp [hcode])).ne'
  rw [Zip.remaining, hcode, headBlocks, hn, elemBlocks_succ]
  exact ⟨_, _, rfl, rfl⟩

/-- A sound walker with a budget: what it reads comes out of it, and an element it leaves does not
fit into what is left. -/
structure Walker.Fills {σ : Type} (W : Walker σ) (eats : σ → List ℤ → σ → Prop) (space : σ → ℕ) :
    Prop where
  sound : W.Sound eats fun e s => space s < basicSize e.type
  space_eq : ∀ {s s' as}, eats s as s' → space s = as.length + space s'

/-- **A whole walk with a budget** reads the greedy prefix of what is left: everything, or all up
to the first element that does not fit. -/
theorem walk_fit {space : σ → ℕ} (F : W.Fills eats space) {z : Zip} {c : Cursor}
    (h : Stands D fake z c) {fuel : ℕ} (hfuel : z.ticks D c.count < fuel) {rem : List Block}
    (hrem : z.remaining D extent c.count c.base = rem) (s : σ) :
    ∃ c' s', eats s (blocksBytes (Greedy.fit Block.len (space s) rem)) s' ∧
      ((Greedy.rest Block.len (space s) rem = [] ∧
          walk W (D.desc fake) extent fuel c s = some (.complete c' s')) ∨
        Greedy.rest Block.len (space s) rem ≠ [] ∧
          walk W (D.desc fake) extent fuel c s = some (.suspend c' s') ∧
          ∃ z' e code, Stands D fake z' c' ∧ z'.code = .elem e code ∧
            z'.ticks D c'.count ≤ z.ticks D c.count ∧
            z'.remaining D extent c'.count c'.base = Greedy.rest Block.len (space s) rem) := by
  rcases walk_spec F.sound h hfuel s with
    ⟨c', s', hw, he⟩ | ⟨z', c', s', bs, e, code, hw, h', hcode, hstop, he, hsplit, hticks⟩
  · rw [hrem] at he
    have hspace := F.space_eq he
    rw [length_blocksBytes] at hspace
    obtain ⟨hfit, hrest⟩ := Greedy.fit_eq Block.len (space s) rem [] (by omega) (by simp)
    rw [List.append_nil] at hfit hrest
    exact ⟨c', s', by rwa [hfit], Or.inl ⟨hrest, hw⟩⟩
  · obtain ⟨b, bs', hb, htype⟩ := h'.exists_remaining_cons hcode
    have hspace := F.space_eq he
    rw [length_blocksBytes] at hspace
    have hlen : space s' < b.len := by rwa [Block.len, htype]
    obtain ⟨hfit, hrest⟩ := Greedy.fit_eq Block.len (space s) bs _ (by omega)
      (by
        intro y zs hy
        obtain ⟨rfl, -⟩ := List.cons.inj (hb.symm.trans hy)
        omega)
    rw [← hsplit, hrem] at hfit hrest
    refine ⟨c', s', by rwa [hfit], Or.inr ⟨?_, hw, z', e, code, h', hcode, hticks, hrest.symm⟩⟩
    rw [hrest, hb]
    exact List.cons_ne_nil _ _

/-- The place a walk starts at: the first of `count` copies. -/
def Zip.start (D : Nest) (count : ℕ) : Zip :=
  { frames := [], outerCount := count, outerDisp := 0, code := D }

lemma Zip.remaining_start {count : ℕ} (hcount : 0 < count) :
    (Zip.start D count).remaining D extent D.headCount 0 = stride count extent D.blocks 0 := by
  obtain ⟨n, rfl⟩ := Nat.exists_eq_succ_of_ne_zero hcount.ne'
  have h := Zip.remaining_headCount D extent (Zip.start D (n + 1))
  simp only [Zip.start, Zip.level, framesDisp, framesBlocks] at h
  rw [Zip.start, h, stride_succ]
  rfl

lemma Zip.ticks_start {count : ℕ} (hcount : 0 < count) :
    (Zip.start D count).ticks D D.headCount = count * (D.ticks + 1) := by
  obtain ⟨n, rfl⟩ := Nat.exists_eq_succ_of_ne_zero hcount.ne'
  have h := Zip.ticks_headCount (D := D) (Zip.start D (n + 1))
  simp only [Zip.start, framesTicks] at h
  rw [Zip.start, h, Nat.add_one_mul, Nat.add_sub_cancel]
  omega

/-- The cursor a walk starts with. -/
lemma stands_start (hD : D.Valid) {count : ℕ} (hcount : 0 < count) :
    Stands D fake (Zip.start D count) ⟨[⟨-1, count, 0⟩], 0, D.headCount, 0⟩ where
  stack := ⟨rfl, hcount⟩
  pos := rfl
  count := hD.wf.headCount_pos
  loop := fun _ _ _ _ => rfl
  wf := ⟨hD.wf, by simp [Zip.start], hD.wf⟩
  ends := ⟨hD.ends, by simp [Zip.start], hD.ends⟩
  current := by
    rw [Zip.current, Zip.start, framesBlocks, stride_zero, List.append_nil, Zip.level, framesDisp,
      headBlocks_headCount]

end Spec

end Ocoms
