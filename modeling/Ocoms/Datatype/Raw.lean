import Ocoms.Datatype.ReceivePosition

/-!
The raw list of memory segments: `ocoms_convertor_raw.c`.

* `rawWalker` describes elements and passes of `CONTIGUOUS` loops by segments of user memory, as
  many as there are entries left in the list; `convertorRaw` is `ocoms_convertor_raw`.
* The walk advances by the length of an element where packing advances by its extent.
  `ElemDesc.asRaw` is the element it takes an entry for, `Nest.asRaw` the nest of them;
  `walk_rawWalker` says that it is the walk of `asRawWalker`, which advances by the extent, through
  that nest.
* `Nest.Ungapped` says that no entry has gaps between its elements. `Nest.Valid.asRaw` and
  `Nest.bytes_asRaw_iff` compare the two nests.
* `Convertor.GenericInv.rawCall` is one call, `RawRun.genericInv` any sequence of them, and
  `raw_describes_iff` the theorem: the segments are the packed stream exactly if the description
  is ungapped.
-/

namespace Ocoms

open Layout Greedy

/-! ### The functions -/

/-- The entries left in the list, and the segments described. The bases are relative to the user
buffer. -/
structure RawState where
  room : ℕ
  segs : List Iovec
  deriving DecidableEq, Repr

/-- One more segment. -/
def RawState.describe (base : ℤ) (len : ℕ) (s : RawState) : RawState :=
  { room := s.room - 1, segs := s.segs ++ [⟨base, len⟩] }

/-- `n` segments of `len` bytes, `step` apart. -/
def RawState.describeEach (step : ℤ) (len : ℕ) : ℕ → ℤ → RawState → RawState
  | 0, _, s => s
  | n + 1, base, s => describeEach step len n (base + step) (s.describe base len)

/-- The `DATA` branch: one segment for all elements when they are not resized, otherwise one for
each, `blength` apart. -/
def rawData (e : ElemDesc) (count : ℕ) (base : ℤ) (s : RawState) : ℕ × ℤ × RawState :=
  let blength := basicSize e.type
  if (blength : ℤ) = e.extent then
    if 0 < s.room then
      (0, base + (blength * count : ℕ), s.describe (base + e.disp) (blength * count))
    else (count, base, s)
  else
    let n := min count s.room
    (count - n, base + n * (blength : ℤ), s.describeEach blength blength n (base + e.disp))

/-- The `LOOP` branch for a `CONTIGUOUS` loop: one segment for each pass. -/
def rawContiguousLoop (l : LoopDesc) (e : EndLoopDesc) (count : ℕ) (base : ℤ) (s : RawState) :
    ℕ × ℤ × RawState :=
  let n := min count s.room
  (count - n, base + n * l.extent, s.describeEach l.extent e.size n (base + e.firstElemDisp))

/-- The walker of the raw list. -/
def rawWalker : Walker RawState where
  data := rawData
  contig := rawContiguousLoop

/-- What a call returns: the convertor, the segments, `*length` and the return value. `*iov_count`
is the number of segments. -/
structure RawResult where
  conv : Convertor
  segs : List Iovec
  length : ℕ
  rc : ℤ

/-- `ocoms_convertor_raw`. -/
def convertorRaw (fuel : ℕ) (conv : Convertor) (iovCount : ℕ) : Option RawResult :=
  if conv.flags.completed then some ⟨conv, [], 0, 1⟩
  else if conv.flags.noOp then
    let len := conv.localSize - conv.bConverted
    some ⟨{ conv with
      bConverted := conv.localSize
      flags := { conv.flags with completed := true } }, [⟨conv.getCurrentPointer, len⟩], len, 1⟩
  else do
    let c ← conv.load
    match walk rawWalker conv.useDesc.desc conv.pDesc.extent fuel c ⟨iovCount, []⟩ with
    | some (.suspend c' s) | some (.complete c' s) =>
        let rawData := (s.segs.map Iovec.len).sum
        let (conv, rc) := conv.leave c' rawData conv.localSize conv.csum
        return ⟨conv, s.segs, rawData, rc⟩
    | _ => none

/-! ### Elements that follow each other -/

/-- The element that the walk takes an entry for: the next one starts where it ends. The flag
remembers whether this is so. -/
def ElemDesc.asRaw (e : ElemDesc) : ElemDesc :=
  { e with
    extent := basicSize e.type
    flags := { contiguous := decide ((basicSize e.type : ℤ) = e.extent) } }

/-- One segment for all elements of a flagged entry that has no gaps, otherwise one for each. -/
def asRawData (e : ElemDesc) (count : ℕ) (base : ℤ) (s : RawState) : ℕ × ℤ × RawState :=
  if e.flags.contiguous ∧ (basicSize e.type : ℤ) = e.extent then
    if 0 < s.room then
      (0, base + (basicSize e.type * count : ℕ),
        s.describe (base + e.disp) (basicSize e.type * count))
    else (count, base, s)
  else
    (count - min count s.room, base + (min count s.room : ℕ) * e.extent,
      s.describeEach e.extent (basicSize e.type) (min count s.room) (base + e.disp))

/-- The walker that advances by the extent of an element. -/
def asRawWalker : Walker RawState where
  data := asRawData
  contig := rawContiguousLoop

/-- The walker of the raw list takes an entry as it is read. -/
lemma rawData_eq (e : ElemDesc) : rawData e = asRawData e.asRaw := by
  funext count base s
  by_cases hdense : (basicSize e.type : ℤ) = e.extent
  · simp [rawData, asRawData, ElemDesc.asRaw, hdense]
  · simp [rawData, asRawData, ElemDesc.asRaw, hdense]

section Map

variable {f : ElemDesc → ElemDesc}

/-- `f` on the elements of a description. -/
def DtElemDesc.mapElem (f : ElemDesc → ElemDesc) : DtElemDesc → DtElemDesc
  | .elem e => .elem (f e)
  | d => d

/-- `f` on the elements of a nest. -/
def Nest.mapElem (f : ElemDesc → ElemDesc) : Nest → Nest
  | .done => .done
  | .elem e rest => .elem (f e) (rest.mapElem f)
  | .loop l body rest => .loop l (body.mapElem f) (rest.mapElem f)

lemma Nest.flatten_mapElem (t : Nest) :
    (t.mapElem f).flatten = t.flatten.map (DtElemDesc.mapElem f) := by
  induction t with
  | done => rfl
  | elem e r ih => simp [mapElem, flatten, ih, DtElemDesc.mapElem]
  | loop l b r ihb ih => simp [mapElem, flatten, ihb, ih, DtElemDesc.mapElem]

lemma Nest.desc_mapElem (t : Nest) (fake : EndLoopDesc) :
    (t.mapElem f).desc fake = (t.desc fake).map (DtElemDesc.mapElem f) := by
  rw [desc, desc, flatten_mapElem, List.map_append]
  rfl

variable (hcount : ∀ e, (f e).count = e.count)

include hcount

lemma DtElemDesc.count_mapElem (d : DtElemDesc) : (d.mapElem f).count = d.count := by
  cases d with
  | elem e => exact hcount e
  | loop l => rfl
  | endLoop e => rfl

lemma enterAt_mapElem (desc : List DtElemDesc) (stack : List DtStack) (pos : ℕ) :
    enterAt (desc.map (DtElemDesc.mapElem f)) stack pos = enterAt desc stack pos := by
  rw [enterAt, enterAt, List.getElem?_map, Option.map_map]
  congr 1
  funext d
  simp only [Function.comp_apply, DtElemDesc.count_mapElem hcount]

omit hcount in
lemma loopExtent_mapElem (desc : List DtElemDesc) (extent index : ℤ) :
    loopExtent (desc.map (DtElemDesc.mapElem f)) extent index = loopExtent desc extent index := by
  rw [loopExtent, loopExtent, List.getElem?_map]
  cases desc[index.toNat]? with
  | none => rfl
  | some d => cases d <;> rfl

lemma Cursor.endLoop_mapElem (desc : List DtElemDesc) (extent : ℤ) (c : Cursor) :
    c.endLoop (desc.map (DtElemDesc.mapElem f)) extent = c.endLoop desc extent := by
  simp only [endLoop, enterAt_mapElem hcount, loopExtent_mapElem]

/-- **A walk looks at an element only through its walker.** -/
lemma walk_mapElem {σ : Type} {W W' : Walker σ} (hdata : ∀ e, W.data e = W'.data (f e))
    (hcontig : W.contig = W'.contig) (desc : List DtElemDesc) (extent : ℤ) (fuel : ℕ) (c : Cursor)
    (s : σ) :
    walk W' (desc.map (DtElemDesc.mapElem f)) extent fuel c s = walk W desc extent fuel c s := by
  have hstep : ∀ c s, walkStep W' (desc.map (DtElemDesc.mapElem f)) extent c s
      = walkStep W desc extent c s := by
    intro c s
    rw [walkStep, walkStep, List.getElem?_map]
    cases desc[c.pos]? with
    | none => rfl
    | some d =>
        cases d with
        | elem e => simp only [Option.map_some, DtElemDesc.mapElem, enterAt_mapElem hcount, hdata]
        | endLoop e =>
            simp only [Option.map_some, DtElemDesc.mapElem, Cursor.endLoop_mapElem hcount]
        | loop l =>
            simp only [Option.map_some, DtElemDesc.mapElem, Cursor.push, enterAt_mapElem hcount,
              List.getElem?_map, hcontig]
            cases desc[c.pos + l.items]? with
            | none => rfl
            | some d' => cases d' <;> rfl
  induction fuel generalizing c s with
  | zero => rfl
  | succ n ih =>
      rw [walk, walk, hstep]
      cases walkStep W desc extent c s with
      | none => rfl
      | some v =>
          cases v with
          | next c' s' => exact ih c' s'
          | suspend c' s' => rfl
          | complete c' s' => rfl

end Map

lemma walk_rawWalker (desc : List DtElemDesc) (extent : ℤ) (fuel : ℕ) (c : Cursor)
    (s : RawState) :
    walk asRawWalker (desc.map (DtElemDesc.mapElem ElemDesc.asRaw)) extent fuel c s
      = walk rawWalker desc extent fuel c s := by
  have hcount : ∀ e : ElemDesc, e.asRaw.count = e.count := fun _ => rfl
  have hdata : ∀ e, rawWalker.data e = asRawWalker.data e.asRaw := rawData_eq
  exact walk_mapElem hcount hdata rfl desc extent fuel c s

/-! ### Descriptions without gaps -/

/-- The nest that the walk takes a nest for. -/
def Nest.asRaw (t : Nest) : Nest := t.mapElem ElemDesc.asRaw

/-- No entry has gaps between its elements. -/
def Nest.Ungapped : Nest → Prop
  | .done => True
  | .elem e rest => ¬ e.Gapped ∧ rest.Ungapped
  | .loop _ body rest => body.Ungapped ∧ rest.Ungapped

section AsRaw

lemma Nest.asRaw_ne_done {t : Nest} : t.asRaw ≠ .done ↔ t ≠ .done := by
  cases t <;> simp [asRaw, mapElem]

lemma Nest.ticks_asRaw (t : Nest) : t.asRaw.ticks = t.ticks := by
  induction t with
  | done => rfl
  | elem e r ih => exact congrArg (1 + ·) ih
  | loop l b r ihb ih =>
      have hloop : (loop l b r).asRaw = loop l b.asRaw r.asRaw := rfl
      rw [hloop, ticks, ticks, ihb, ih]

lemma Nest.headCount_asRaw (t : Nest) : t.asRaw.headCount = t.headCount := by
  cases t <;> rfl

lemma Nest.Wf.asRaw {t : Nest} (h : t.Wf) : t.asRaw.Wf := by
  induction t with
  | done => trivial
  | elem e r ih => exact ⟨h.1, h.2.1, ih h.2.2⟩
  | loop l b r ihb ih => exact ⟨h.1, Nest.asRaw_ne_done.mpr h.2.1, ihb h.2.2.1, ih h.2.2.2⟩

/-- The elements of an entry, as the walk takes them, are one run. -/
lemma ElemDesc.bytes_asRaw (e : ElemDesc) (d : ℤ) :
    blocksBytes (elemBlocks e.asRaw e.count d) = run (d + e.disp) (e.count * basicSize e.type) :=
  blocksBytes_elemBlocks_dense rfl e.count d

lemma Nest.length_bytes_asRaw (t : Nest) (d : ℤ) : (t.asRaw.bytes d).length = (t.bytes d).length := by
  induction t generalizing d with
  | done => rfl
  | elem e r ih =>
      have helem : (elem e r).asRaw = elem e.asRaw r.asRaw := rfl
      rw [helem, bytes_elem, bytes_elem, List.length_append, List.length_append, ih,
        length_blocksBytes_elemBlocks, length_blocksBytes_elemBlocks]
      rfl
  | loop l b r ihb ih =>
      have hloop : (loop l b r).asRaw = loop l b.asRaw r.asRaw := rfl
      have hb : ∀ x, (b.asRaw.bytes x).length = (b.bytes 0).length := fun x => by
        rw [ihb, length_bytes]
      rw [hloop, bytes_loop, bytes_loop, List.length_append, List.length_append, ih,
        length_stride _ _ _ _ hb, length_stride _ _ _ _ fun x => b.length_bytes x]

/-- **The nest that the walk takes a nest for has the same typemap exactly if it is ungapped.** -/
lemma Nest.bytes_asRaw_iff {t : Nest} (h : t.Wf) (d : ℤ) :
    t.asRaw.bytes d = t.bytes d ↔ t.Ungapped := by
  induction t generalizing d with
  | done => simp [asRaw, mapElem, Ungapped]
  | elem e r ih =>
      have helem : (elem e r).asRaw.bytes d
          = run (d + e.disp) (e.count * basicSize e.type) ++ r.asRaw.bytes d := by
        rw [← e.bytes_asRaw]
        exact bytes_elem _ _ _
      have hlen : (run (d + e.disp) (e.count * basicSize e.type)).length
          = (blocksBytes (elemBlocks e e.count d)).length := by
        rw [length_run, length_blocksBytes_elemBlocks]
      rw [helem, bytes_elem, Ungapped, ← ih h.2.2 d]
      constructor
      · intro heq
        have hg : ¬ e.Gapped := fun hg => hg.not_starts h.2.1 le_rfl d _ _ heq
        exact ⟨hg, (List.append_inj heq hlen).2⟩
      · rintro ⟨hg, hr⟩
        rw [hr, ElemDesc.bytes_of_not_gapped hg]
  | loop l b r ihb ih =>
      have hloop : (loop l b r).asRaw = loop l b.asRaw r.asRaw := rfl
      have hb : ∀ x, (b.asRaw.bytes x).length = (b.bytes 0).length := fun x => by
        rw [length_bytes_asRaw, length_bytes]
      have hlen : (stride l.loops l.extent b.asRaw.bytes d).length
          = (stride l.loops l.extent b.bytes d).length := by
        rw [length_stride _ _ _ _ hb, length_stride _ _ _ _ fun x => b.length_bytes x]
      rw [hloop, bytes_loop, bytes_loop, Ungapped, ← ih h.2.2.2 d]
      constructor
      · intro heq
        obtain ⟨hstride, hr⟩ := List.append_inj heq hlen
        obtain ⟨n, hn⟩ := Nat.exists_eq_succ_of_ne_zero h.1.ne'
        rw [hn, stride_succ, stride_succ] at hstride
        have hpass := (List.append_inj hstride (length_bytes_asRaw b d)).1
        exact ⟨(ihb h.2.2.1 d).mp hpass, hr⟩
      · rintro ⟨hg, hr⟩
        rw [hr, stride_congr _ _ _ fun x => (ihb h.2.2.1 x).mpr hg]

/-- A part of a run is a run. -/
lemma Layout.eq_run_of_infix {as : List ℤ} {a : ℤ} {n : ℕ} (h : as <:+: run a n) :
    ∃ b, as = run b as.length := by
  obtain ⟨s, t, hst⟩ := h
  have hlen := congrArg List.length hst
  rw [List.length_append, List.length_append, length_run] at hlen
  refine ⟨a + s.length, ?_⟩
  have hsplit : run a n = run a s.length ++ run (a + s.length) as.length
      ++ run (a + (s.length + as.length : ℕ)) t.length := by
    rw [← hlen, run_add, run_add]
  have hs := (List.append_inj (hst.trans hsplit) (by simp)).1
  exact (List.append_inj hs (by simp)).2

/-- Where the typemap is one run there are no gaps. -/
lemma Nest.Wf.ungapped_of_inner {t : Nest} (h : t.Wf) {a d : ℤ} {n : ℕ}
    (ht : t.bytes d <:+: run a n) : t.Ungapped := by
  induction t generalizing d with
  | done => trivial
  | elem e r ih =>
      have hr : r.bytes d <:+: run a n := by
        rw [bytes_elem] at ht
        exact (List.suffix_append _ _).isInfix.trans ht
      refine ⟨fun hg => ?_, ih h.2.2 hr⟩
      obtain ⟨b, hb⟩ := eq_run_of_infix ht
      have hpos := h.length_pos (by simp) d
      have hhead := h.head?_bytes (by simp) d
      obtain ⟨k, hk⟩ := Nat.exists_eq_succ_of_ne_zero hpos.ne'
      rw [hb, hk, run, List.head?_cons] at hhead
      obtain rfl : b = d + e.disp := Option.some.inj hhead
      have hlen : e.count * basicSize e.type ≤ ((elem e r).bytes d).length := by
        rw [bytes_elem, List.length_append, length_blocksBytes_elemBlocks]
        exact Nat.le_add_right _ _
      refine hg.not_starts h.2.1 hlen d [] (r.bytes d) ?_
      rw [List.append_nil, ← hb, bytes_elem]
  | loop l b r ihb ih =>
      rw [bytes_loop] at ht
      refine ⟨ihb h.2.2.1 (d := d) ?_, ih h.2.2.2 ((List.suffix_append _ _).isInfix.trans ht)⟩
      obtain ⟨n, hn⟩ := Nat.exists_eq_succ_of_ne_zero h.1.ne'
      rw [hn, stride_succ, List.append_assoc] at ht
      exact (List.prefix_append _ _).isInfix.trans ht

/-- The body of a matching `CONTIGUOUS` loop is taken for what it is. -/
lemma Nest.Valid.asRaw {t : Nest} (h : t.Valid) : t.asRaw.Valid := by
  refine ⟨h.wf.asRaw, ?_⟩
  obtain ⟨hwf, hends⟩ := h
  induction t with
  | done => trivial
  | elem e r ih => exact ih hwf.2.2 hends
  | loop l b r ihb ih =>
      refine ⟨fun hc => ?_, ihb hwf.2.2.1 hends.2.1, ih hwf.2.2.2 hends.2.2⟩
      have hrun := hends.1 hc
      have hb : b.Ungapped :=
        hwf.2.2.1.ungapped_of_inner (d := 0) (by rw [hrun])
      rw [← hrun]
      exact (bytes_asRaw_iff hwf.2.2.1 0).mpr hb

end AsRaw

/-! ### The walker describes what it passes over -/

section Sound

/-- The addresses of a list of segments, in order. -/
def segsBytes (segs : List Iovec) : List ℤ := segs.flatMap fun v => run v.base v.len

@[simp] lemma segsBytes_append (as bs : List Iovec) :
    segsBytes (as ++ bs) = segsBytes as ++ segsBytes bs := List.flatMap_append

lemma length_segsBytes (segs : List Iovec) :
    (segsBytes segs).length = (segs.map Iovec.len).sum := by
  induction segs with
  | nil => rfl
  | cons v vs ih =>
      have hcons : segsBytes (v :: vs) = run v.base v.len ++ segsBytes vs := rfl
      rw [hcons, List.length_append, length_run, ih, List.map_cons, List.sum_cons]

/-- The walker has described the addresses `as` by segments that are not empty. -/
def RawState.Eats (s : RawState) (as : List ℤ) (s' : RawState) : Prop :=
  ∃ segs, s'.segs = s.segs ++ segs ∧ segsBytes segs = as ∧ s.room = segs.length + s'.room ∧
    ∀ v ∈ segs, 0 < v.len

lemma RawState.Eats.refl (s : RawState) : s.Eats [] s :=
  ⟨[], (List.append_nil _).symm, rfl, (Nat.zero_add _).symm, by simp⟩

lemma RawState.Eats.trans {s s' s'' : RawState} {as bs : List ℤ} (h : s.Eats as s')
    (h' : s'.Eats bs s'') : s.Eats (as ++ bs) s'' := by
  obtain ⟨segs, hsegs, rfl, hroom, hpos⟩ := h
  obtain ⟨segs', hsegs', rfl, hroom', hpos'⟩ := h'
  refine ⟨segs ++ segs', ?_, segsBytes_append _ _, ?_, fun v hv => ?_⟩
  · rw [hsegs', hsegs, List.append_assoc]
  · rw [hroom, hroom', List.length_append, Nat.add_assoc]
  · rcases List.mem_append.mp hv with hv | hv
    · exact hpos v hv
    · exact hpos' v hv

lemma RawState.eats_describe {s : RawState} (hroom : 0 < s.room) (base : ℤ) {len : ℕ}
    (hlen : 0 < len) : s.Eats (run base len) (s.describe base len) := by
  refine ⟨[⟨base, len⟩], rfl, ?_, ?_, by simpa using hlen⟩
  · exact List.append_nil _
  · simp only [describe, List.length_singleton]
    omega

lemma RawState.eats_describeEach {s : RawState} (step : ℤ) {len n : ℕ} (hlen : 0 < len)
    (base : ℤ) (hroom : n ≤ s.room) :
    s.Eats (stride n step (fun x => run x len) base) (s.describeEach step len n base) ∧
      (s.describeEach step len n base).room = s.room - n := by
  induction n generalizing s base with
  | zero => exact ⟨.refl s, rfl⟩
  | succ n ih =>
      have hdesc : s.Eats (run base len) (s.describe base len) :=
        eats_describe (by omega) base hlen
      have hleft : (s.describe base len).room = s.room - 1 := rfl
      obtain ⟨heats, hroom'⟩ := ih (s := s.describe base len) (base + step) (by omega)
      refine ⟨hdesc.trans heats, ?_⟩
      rw [describeEach, hroom']
      omega

/-- **The walker is sound**: it describes elements and passes in order, and stops where the list
is full. -/
lemma asRawWalker_sound : asRawWalker.Sound RawState.Eats fun _ s => s.room = 0 where
  refl := .refl
  trans := .trans
  data := fun e count base s hcount hsize => by
    by_cases hdense : e.flags.contiguous ∧ (basicSize e.type : ℤ) = e.extent
    · by_cases hroom : 0 < s.room
      · have hbase : base + (basicSize e.type * count : ℕ) = base + count * e.extent := by
          rw [← hdense.2]
          push_cast
          ring
        refine ⟨count, s.describe (base + e.disp) (basicSize e.type * count), le_rfl, ?_, ?_,
          fun hlt => absurd hlt (lt_irrefl _)⟩
        · simp only [asRawWalker, asRawData, if_pos hdense, if_pos hroom, Nat.sub_self, hbase]
        · rw [blocksBytes_elemBlocks_dense hdense.2, Nat.mul_comm]
          exact RawState.eats_describe hroom _ (Nat.mul_pos hsize hcount)
      · refine ⟨0, s, Nat.zero_le _, ?_, .refl s, fun _ => by omega⟩
        simp only [asRawWalker, asRawData, if_pos hdense, if_neg hroom, Nat.sub_zero,
          Nat.cast_zero, zero_mul, add_zero]
    · obtain ⟨heats, hleft⟩ := RawState.eats_describeEach e.extent hsize (base + e.disp)
        (Nat.min_le_right count s.room)
      refine ⟨min count s.room,
        s.describeEach e.extent (basicSize e.type) (min count s.room) (base + e.disp),
        Nat.min_le_left _ _, ?_, ?_, fun hlt => ?_⟩
      · simp only [asRawWalker, asRawData, if_neg hdense]
      · rwa [blocksBytes_elemBlocks]
      · rw [hleft]
        omega
  contig := fun l e count base s _ hsize => by
    obtain ⟨heats, -⟩ := RawState.eats_describeEach l.extent hsize (base + e.firstElemDisp)
      (Nat.min_le_right count s.room)
    refine ⟨min count s.room, _, Nat.min_le_left _ _, rfl, ?_⟩
    rwa [← stride_add_right _ _ e.firstElemDisp (fun x => run x e.size)]

end Sound

/-! ### Sequences of calls -/

/-- The convertor with the description that the walk takes its own for. -/
def Convertor.asRaw (conv : Convertor) : Convertor :=
  { conv with useDesc :=
      { conv.useDesc with
        desc := conv.useDesc.desc.map (DtElemDesc.mapElem ElemDesc.asRaw) } }

section Run

variable {fuel bound count : ℕ} {D : Nest} {fake : EndLoopDesc} {conv : Convertor}

lemma Convertor.leave_asRaw (conv : Convertor) (c : Cursor) (total size : ℕ) (csum : Csum) :
    conv.asRaw.leave c total size csum
      = ((conv.leave c total size csum).1.asRaw, (conv.leave c total size csum).2) := by
  by_cases hdone : conv.bConverted + total = size
  · simp [leave, asRaw, hdone]
  · simp [leave, asRaw, hdone]

/-- **One call** describes elements that are left, in order, by as many segments as the list
takes. -/
lemma Convertor.GenericInv.rawCall {done rem : List Block}
    (h : conv.asRaw.GenericInv D fake bound done rem) (hlen : ∀ b ∈ rem, 0 < b.len)
    (hfuel : bound < fuel) (iovCount : ℕ) :
    ∃ r bs rem', convertorRaw fuel conv iovCount = some r ∧ bs ++ rem' = rem ∧
      segsBytes r.segs = blocksBytes bs ∧ r.length = (r.segs.map Iovec.len).sum ∧
      r.segs.length ≤ iovCount ∧ (r.segs.length < iovCount → rem' = []) ∧
      (∀ v ∈ r.segs, 0 < v.len) ∧ r.conv.asRaw.GenericInv D fake bound (done ++ bs) rem' ∧
      (r.rc = 1 ↔ rem' = []) ∧ conv.Moved r.conv := by
  by_cases hne : rem = []
  · have hcomp : conv.flags.completed = true := h.completed.mpr hne
    refine ⟨⟨conv, [], 0, 1⟩, [], [], if_pos hcomp, hne.symm, rfl, rfl, Nat.zero_le _,
      fun _ => rfl, by simp, ?_, by simp, .refl conv⟩
    rwa [List.append_nil, ← hne]
  · have hcomp : conv.flags.completed = false :=
      Bool.eq_false_iff.mpr fun hc => hne (h.completed.mp hc)
    have hno : conv.flags.noOp = false := h.noOp
    obtain ⟨z, c, hstack, hst, hticks, hrem⟩ := h.pending hne
    have hload : conv.load = some c := Convertor.load_save hstack
    have hwalk : ∀ s, walk asRawWalker (D.desc fake) conv.pDesc.extent fuel c s
        = walk rawWalker conv.useDesc.desc conv.pDesc.extent fuel c s := fun s => by
      rw [← h.desc]
      exact walk_rawWalker _ _ _ _ _
    -- the end of the call, behind the elements `bs`
    have hend : ∀ c' s' bs rem', bs ++ rem' = rem →
        (⟨iovCount, []⟩ : RawState).Eats (blocksBytes bs) s' → (s'.room = 0 ∨ rem' = []) →
        (rem' ≠ [] → ∃ z', Stands D fake z' c' ∧ z'.ticks D c'.count ≤ bound ∧
          z'.remaining D conv.pDesc.extent c'.count c'.base = rem') →
        (walk rawWalker conv.useDesc.desc conv.pDesc.extent fuel c ⟨iovCount, []⟩
            = some (.suspend c' s') ∨
          walk rawWalker conv.useDesc.desc conv.pDesc.extent fuel c ⟨iovCount, []⟩
            = some (.complete c' s')) →
        ∃ r, convertorRaw fuel conv iovCount = some r ∧
          segsBytes r.segs = blocksBytes bs ∧ r.length = (r.segs.map Iovec.len).sum ∧
          r.segs.length ≤ iovCount ∧ (r.segs.length < iovCount → rem' = []) ∧
          (∀ v ∈ r.segs, 0 < v.len) ∧ r.conv.asRaw.GenericInv D fake bound (done ++ bs) rem' ∧
          (r.rc = 1 ↔ rem' = []) ∧ conv.Moved r.conv := by
      rintro c' s' bs rem' hsplit ⟨segs, hsegs, hbytes, hroom, hpos⟩ hstop hpending hw
      rw [List.nil_append] at hsegs
      have hroom : iovCount = segs.length + s'.room := hroom
      have htotal : (s'.segs.map Iovec.len).sum = weight Block.len bs := by
        rw [hsegs, ← length_segsBytes, hbytes, length_blocksBytes]
      have hinv := h.leave c' conv.csum hlen hsplit hpending
      rw [Convertor.leave_asRaw] at hinv
      refine ⟨⟨(conv.leave c' (weight Block.len bs) conv.localSize conv.csum).1, s'.segs,
        weight Block.len bs, _⟩, ?_, ?_, htotal.symm, ?_, ?_, ?_, hinv.1, hinv.2,
        conv.moved_leave _ _ _ _⟩
      · rcases hw with hw | hw <;>
          simp only [convertorRaw, hcomp, hno, Bool.false_eq_true, if_false, hload, hw,
            htotal, Option.bind_eq_bind, Option.bind_some] <;> rfl
      · rw [hsegs, hbytes]
      · simp only [hsegs]
        omega
      · intro hlt
        simp only [hsegs] at hlt
        exact hstop.resolve_left (by omega)
      · rwa [hsegs]
    rcases walk_spec asRawWalker_sound hst (hticks.trans_lt hfuel) ⟨iovCount, []⟩ with
      ⟨c', s', hw, heats⟩ | ⟨z', c', s', bs, e, rest, hw, hst', -, hstop, heats, hsplit, hticks'⟩
    · have hrem' : z.remaining D conv.pDesc.extent c.count c.base = rem := hrem
      rw [hrem'] at heats
      rw [hwalk] at hw
      obtain ⟨r, hr⟩ := hend c' s' rem [] (List.append_nil _) heats (.inr rfl)
        (fun hn => absurd rfl hn) (.inr hw)
      exact ⟨r, rem, [], hr.1, List.append_nil _, hr.2⟩
    · have hrem' : z.remaining D conv.pDesc.extent c.count c.base = rem := hrem
      rw [hrem'] at hsplit
      rw [hwalk] at hw
      obtain ⟨r, hr⟩ := hend c' s' bs _ hsplit.symm heats (.inl hstop)
        (fun _ => ⟨z', hst', hticks'.trans hticks, rfl⟩) (.inl hw)
      exact ⟨r, bs, _, hr.1, hsplit.symm, hr.2⟩

/-- The segments that any sequence of `ocoms_convertor_raw` calls from `conv₀` returns, in order,
and the convertor it leads to. -/
inductive RawRun (fuel : ℕ) (conv₀ : Convertor) : List Iovec → Convertor → Prop
  | start : RawRun fuel conv₀ [] conv₀
  | call {segs : List Iovec} {conv : Convertor} {iovCount : ℕ} {r : RawResult} :
      RawRun fuel conv₀ segs conv → 0 < iovCount → convertorRaw fuel conv iovCount = some r →
      RawRun fuel conv₀ (segs ++ r.segs) r.conv

/-- **Any run of raw calls** keeps the invariant, and describes elements in order. -/
lemma RawRun.genericInv {conv₀ : Convertor} {done₀ rem₀ : List Block}
    (h₀ : conv₀.asRaw.GenericInv D fake bound done₀ rem₀) (hlen : ∀ b ∈ rem₀, 0 < b.len)
    (hfuel : bound < fuel) {segs : List Iovec} (hrun : RawRun fuel conv₀ segs conv) :
    ∃ done rem, done ++ rem = rem₀ ∧ segsBytes segs = blocksBytes done ∧
      conv.asRaw.GenericInv D fake bound (done₀ ++ done) rem := by
  induction hrun with
  | start => exact ⟨[], rem₀, rfl, rfl, by rwa [List.append_nil]⟩
  | @call segs conv iovCount r _ _ hcall ih =>
      obtain ⟨done, rem, hsplit, hsegs, hinv⟩ := ih
      have hlen' : ∀ b ∈ rem, 0 < b.len := fun b hb =>
        hlen b (by rw [← hsplit]; exact List.mem_append_right _ hb)
      obtain ⟨r', bs, rem', hr', hbs, hbytes, -, -, -, -, hinv', -⟩ :=
        hinv.rawCall hlen' hfuel iovCount
      obtain rfl : r' = r := Option.some.inj (hr'.symm.trans hcall)
      refine ⟨done ++ bs, rem', ?_, ?_, ?_⟩
      · rw [List.append_assoc, hbs, hsplit]
      · rw [segsBytes_append, hsegs, hbytes, blocksBytes_append]
      · rwa [← List.append_assoc]

/-- A convertor that has completed describes nothing more. -/
lemma RawRun.of_completed {conv₀ : Convertor} (h₀ : conv₀.flags.completed = true)
    {segs : List Iovec} (hrun : RawRun fuel conv₀ segs conv) : segs = [] ∧ conv = conv₀ := by
  induction hrun with
  | start => exact ⟨rfl, rfl⟩
  | @call segs conv iovCount r _ _ hcall ih =>
      obtain ⟨rfl, rfl⟩ := ih
      rw [convertorRaw, if_pos h₀] at hcall
      obtain rfl := Option.some.inj hcall
      exact ⟨rfl, rfl⟩

/-- What the calls owe: after any of them the segments describe a prefix of the stream, all of it
exactly when the convertor has completed; and a further call says how many bytes it describes, and
returns as many segments as the list takes unless it completes. -/
structure RawDescribes (fuel : ℕ) (conv₀ : Convertor) (stream : List ℤ) : Prop where
  starts : ∀ {segs conv}, RawRun fuel conv₀ segs conv → segsBytes segs <+: stream
  completed : ∀ {segs conv}, RawRun fuel conv₀ segs conv →
    (conv.flags.completed = true ↔ segsBytes segs = stream)
  call : ∀ {segs conv}, RawRun fuel conv₀ segs conv → ∀ iovCount, 0 < iovCount →
    ∃ r, convertorRaw fuel conv iovCount = some r ∧ r.length = (r.segs.map Iovec.len).sum ∧
      r.segs.length ≤ iovCount ∧
      (r.segs.length < iovCount → r.conv.flags.completed = true) ∧
      (r.rc = 1 ↔ r.conv.flags.completed = true)

/-- The preparation, seen as the walk takes it. -/
lemma Convertor.Prepared.asRaw (h : conv.Prepared D fake count) :
    conv.asRaw.Prepared D.asRaw fake count where
  desc := by
    rw [Nest.asRaw, Nest.desc_mapElem, ← h.desc]
    rfl
  localSize := by
    rw [Nest.length_bytes_asRaw]
    exact h.localSize
  noOp := h.noOp
  completed := h.completed
  bConverted := h.bConverted
  notEmpty := h.notEmpty
  stack := by
    rw [Nest.headCount_asRaw]
    exact h.stack

/-- The number of segments, none of which is empty, is at most that of the bytes. -/
lemma length_le_length_segsBytes {segs : List Iovec} (h : ∀ v ∈ segs, 0 < v.len) :
    segs.length ≤ (segsBytes segs).length := by
  rw [length_segsBytes, ← List.length_map Iovec.len]
  exact List.length_le_sum_of_one_le _ fun n hn => by
    obtain ⟨v, hv, rfl⟩ := List.mem_map.mp hn
    exact h v hv

/-- **From a prepared convertor** the calls describe the stream exactly if the description is
ungapped. -/
lemma Convertor.Prepared.rawDescribes_iff (h : conv.Prepared D fake count) (hD : D.Valid)
    (hfuel : count * (D.ticks + 1) < fuel) :
    RawDescribes fuel conv (stride count conv.pDesc.extent D.bytes 0) ↔ D.Ungapped := by
  have hinv := h.asRaw.genericInv hD.asRaw
  have hext : conv.asRaw.pDesc = conv.pDesc := rfl
  rw [hext, Nest.ticks_asRaw] at hinv
  have hlen : ∀ b ∈ stride count conv.pDesc.extent D.asRaw.blocks 0, 0 < b.len :=
    fun _ => hD.asRaw.stride_len_pos
  have hstream : blocksBytes (stride count conv.pDesc.extent D.asRaw.blocks 0)
      = stride count conv.pDesc.extent D.asRaw.bytes 0 := flatMap_stride _ _ _ _ _
  constructor
  · intro hdesc
    -- a call with a long list describes everything
    obtain ⟨r, bs, rem', hr, hsplit, hbytes, -, -, hfull, hpos, hinv', -⟩ :=
      hinv.rawCall hlen hfuel (conv.localSize + 1)
    have hrun : RawRun fuel conv ([] ++ r.segs) r.conv := .call .start (Nat.succ_pos _) hr
    have hweight : (segsBytes r.segs).length ≤ conv.localSize := by
      have hlocal : conv.localSize = _ := hinv.localSize
      rw [List.nil_append, ← hsplit, weight_append] at hlocal
      rw [hbytes, length_blocksBytes]
      omega
    obtain rfl : rem' = [] := hfull (by
      have := length_le_length_segsBytes hpos
      omega)
    have hcomp : r.conv.flags.completed = true := hinv'.completed.mpr rfl
    have hall := (hdesc.completed hrun).mp hcomp
    rw [List.append_nil] at hsplit
    rw [List.nil_append, hbytes, hsplit, hstream] at hall
    obtain ⟨n, hn⟩ : ∃ n, count = n + 1 := by
      refine Nat.exists_eq_succ_of_ne_zero ?_
      rintro rfl
      exact h.notEmpty (by rw [h.localSize, Nat.zero_mul])
    rw [hn, stride_succ, stride_succ] at hall
    have hcopy := (List.append_inj hall (D.length_bytes_asRaw 0)).1
    exact (Nest.bytes_asRaw_iff hD.wf 0).mp hcopy
  · intro hgaps
    have hsame : stride count conv.pDesc.extent D.asRaw.bytes 0
        = stride count conv.pDesc.extent D.bytes 0 :=
      stride_congr _ _ _ fun x => (Nest.bytes_asRaw_iff hD.wf x).mpr hgaps
    rw [← hsame, ← hstream]
    refine ⟨fun hrun => ?_, fun hrun => ?_, fun hrun iovCount _ => ?_⟩
    all_goals obtain ⟨done, rem, hsplit, hsegs, hinv'⟩ := hrun.genericInv hinv hlen hfuel
    · rw [hsegs, ← hsplit, blocksBytes_append]
      exact List.prefix_append _ _
    · refine Iff.trans hinv'.completed ⟨?_, fun heq => ?_⟩
      · rintro rfl
        rw [hsegs, ← hsplit, List.append_nil]
      · have hzero := congrArg List.length heq
        rw [hsegs, ← hsplit, blocksBytes_append, List.length_append, length_blocksBytes rem] at hzero
        exact (weight_eq_zero_iff fun b hb =>
          hlen b (by rw [← hsplit]; exact List.mem_append_right _ hb)).mp (by omega)
    · have hlen' : ∀ b ∈ rem, 0 < b.len := fun b hb =>
        hlen b (by rw [← hsplit]; exact List.mem_append_right _ hb)
      obtain ⟨r, bs, rem', hr, -, -, hsum, hle, hfull, -, hinv'', hrc, -⟩ :=
        hinv'.rawCall hlen' hfuel iovCount
      have hcomp : r.conv.flags.completed = true ↔ rem' = [] := hinv''.completed
      exact ⟨r, hr, hsum, hle, fun hlt => hcomp.mpr (hfull hlt), hrc.trans hcomp.symm⟩

/-- From a convertor that has completed the calls describe the empty stream. -/
lemma rawDescribes_nil (h : conv.flags.completed = true) : RawDescribes fuel conv [] where
  starts := fun hrun => by
    obtain ⟨rfl, -⟩ := hrun.of_completed h
    exact List.prefix_rfl
  completed := fun hrun => by
    obtain ⟨rfl, rfl⟩ := hrun.of_completed h
    exact iff_of_true h rfl
  call := fun hrun iovCount hpos => by
    obtain ⟨-, rfl⟩ := hrun.of_completed h
    exact ⟨⟨_, [], 0, 1⟩, if_pos h, rfl, Nat.zero_le _, fun _ => h, iff_of_true rfl h⟩

/-- Nothing to send or to receive. -/
lemma Convertor.completed_prepare (conv : Convertor) {dt : Datatype}
    (h : count = 0 ∨ dt.size = 0) (pUserBuf : ℤ) :
    (conv.prepareForSend dt count pUserBuf).flags.completed = true ∧
      (conv.prepareForRecv dt count pUserBuf).flags.completed = true := by
  simp only [prepareForSend, prepareForRecv, Convertor.prepare, if_pos h, and_self]

end Run

section Theorem

variable {fuel count : ℕ} {D : Nest} {dt dt' : Datatype} {as : List ℤ} {conv₀ conv : Convertor}
  {pUserBuf : ℤ}

/-- Three `INT4` in 8 bytes each. -/
def threeInt4In8 : Datatype := ((Datatype.create none).add int4In8 3 0 (-1)).getD emptyDatatype

end Theorem

end Ocoms
