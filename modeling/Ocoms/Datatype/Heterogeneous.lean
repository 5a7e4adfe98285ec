import Ocoms.Datatype.RoundTrip
import Ocoms.Datatype.TypeCounts

/-!
The receiver of a peer with another byte order: `ocoms_unpack_general` and the conversion functions.

* `ConversionFct.Decodes` says that a conversion function turns the elements of a buffer around;
  `decodes_iff` says for which types the master of a big-endian peer has one that does.
* `GeneralCursor.StandsAt` ties the locals of the general unpack to a place in the nest.
  `generalStep_spec` says what one visit does with the elements of a buffer, `generalWalk_spec` what
  a whole walk does, `generalIovs_spec` what the loop over the buffers does.
* `Nest.received` is where the elements go: the first copy of the first entry misses its displacement.
* `heterogeneous_receive` is the theorem about any sequence of calls.
-/

namespace Ocoms

open Layout Greedy

/-! ### Conversion functions -/

/-- The values reach a conversion function with their bytes in the opposite order, in a buffer that
holds all that are asked for, or nothing else. It stores them in the order of this machine. -/
def ConversionFct.Decodes (fct : ConversionFct) (remoteArch : Arch) (size : ℕ) : Prop :=
  ∀ (count : ℕ) (vs : List (List Byte)) (more : List Byte) (dest extent : ℤ) (mem : ℤ → Byte),
    (∀ v ∈ vs, v.length = size) → vs.length ≤ count → (vs.length < count → more = []) →
      fct remoteArch count (vs.flatMap List.reverse ++ more) size dest extent mem
        = some ⟨vs.length, vs.length * size,
          scatter mem (stride vs.length extent (fun x => run x size) dest) vs.flatten⟩

lemma length_flatMap_reverse (vs : List (List Byte)) :
    (vs.flatMap List.reverse).length = vs.flatten.length := by
  simp [List.length_flatMap, List.length_flatten]

lemma length_flatMap_reverse_eq_zero {vs : List (List Byte)} (h : ∀ v ∈ vs, v ≠ []) :
    (vs.flatMap List.reverse).length = 0 ↔ vs = [] := by
  cases vs with
  | nil => simp
  | cons v vs => simp [h v List.mem_cons_self]

lemma length_flatten_of_forall {vs : List (List Byte)} {size : ℕ} (h : ∀ v ∈ vs, v.length = size) :
    vs.flatten.length = vs.length * size := by
  rw [List.length_flatten, List.sum_eq_card_nsmul _ size, List.length_map, smul_eq_mul]
  intro n hn
  obtain ⟨v, hv, rfl⟩ := List.mem_map.mp hn
  exact h v hv

/-- The loop over the elements stores what `f` makes of them. -/
lemma convertLoop_spec {size : ℕ} {f : List Byte → List Byte} (vs : List (List Byte))
    (hf : ∀ v ∈ vs, f v.reverse = v) (hsize : ∀ v ∈ vs, v.length = size) (more : List Byte)
    (extent dest : ℤ) (mem : ℤ → Byte) :
    convertLoop size f size extent vs.length (vs.flatMap List.reverse ++ more) dest mem
      = some (scatter mem (stride vs.length extent (fun x => run x size) dest) vs.flatten) := by
  induction vs generalizing dest mem with
  | nil => simp [convertLoop]
  | cons v vs ih =>
      have hv : v.reverse.length = size := by
        rw [List.length_reverse]
        exact hsize v List.mem_cons_self
      rw [List.flatMap_cons, List.append_assoc, List.length_cons, convertLoop, List.length_append,
        if_neg (by omega), List.take_left' hv, List.drop_left' hv, hf v List.mem_cons_self,
        ih (fun u hu => hf u (List.mem_cons_of_mem v hu))
          (fun u hu => hsize u (List.mem_cons_of_mem v hu)),
        stride_succ, List.flatten_cons, hsize v List.mem_cons_self, scatter_append]
      rw [length_run, hsize v List.mem_cons_self]

/-- `datatype_check` counts the elements. -/
lemma datatypeCheck_eq {size count : ℕ} (hpos : 0 < size) {vs : List (List Byte)} {more : List Byte}
    (hsize : ∀ v ∈ vs, v.length = size) (hle : vs.length ≤ count)
    (hmore : vs.length < count → more = []) :
    datatypeCheck size count (vs.flatMap List.reverse ++ more).length = vs.length := by
  rw [List.length_append, length_flatMap_reverse, length_flatten_of_forall hsize, datatypeCheck]
  rcases hle.lt_or_eq with hlt | heq
  · rw [hmore hlt, List.length_nil, Nat.add_zero, Nat.mul_comm vs.length,
      if_pos (Nat.mul_lt_mul_of_pos_left hlt hpos), Nat.mul_div_cancel_left _ hpos]
  · rw [heq, Nat.mul_comm count, if_neg (Nat.not_lt.mpr (Nat.le_add_right _ _))]

/-- The functions of `COPY_TYPE_HETEROGENEOUS`. -/
lemma copyHeterogeneous_decodes {size : ℕ} (hpos : 0 < size) {remoteArch : Arch}
    (hbig : remoteArch &&& .isBigEndian ≠ localArch &&& .isBigEndian) :
    (copyHeterogeneous size).Decodes remoteArch size := by
  intro count vs more dest extent mem hsize hle hmore
  have hloop := convertLoop_spec vs (fun v _ => v.reverse_reverse) hsize more extent dest mem
  simp only [copyHeterogeneous, datatypeCheck_eq hpos hsize hle hmore, if_pos hbig, hloop,
    Option.bind_eq_bind, Option.bind_some, Option.pure_def]

/-- The functions of `COPY_TYPE` for single bytes. -/
lemma copyBytes_decodes (remoteArch : Arch) : (copyBytes 1).Decodes remoteArch 1 := by
  intro count vs more dest extent mem hsize hle hmore
  have hrev : ∀ v ∈ vs, id v.reverse = v := by
    intro v hv
    obtain ⟨b, rfl⟩ := List.length_eq_one_iff.mp (hsize v hv)
    rfl
  have hloop := convertLoop_spec vs hrev hsize more extent dest mem
  have hlen : vs.flatten.length = vs.length := by
    rw [length_flatten_of_forall hsize, Nat.mul_one]
  unfold copyBytes
  rw [datatypeCheck_eq Nat.one_pos hsize hle hmore]
  by_cases hdense : extent = 1
  · subst hdense
    have hwire : vs.flatMap List.reverse = vs.flatten := by
      rw [List.flatten_eq_flatMap]
      exact List.flatMap_congr fun v hv => hrev v hv
    have hroom : ¬ (vs.flatMap List.reverse ++ more).length < vs.length * 1 := by
      rw [List.length_append, length_flatMap_reverse]
      omega
    have hstride : stride vs.length 1 (fun x => run x 1) dest = run dest (vs.length * 1) :=
      stride_run vs.length 1 dest
    rw [if_pos ⟨rfl, rfl⟩, memcpy, if_neg hroom, hstride, hwire,
      List.take_left' (by rw [hlen, Nat.mul_one])]
    rfl
  · rw [if_neg fun h => hdense (by exact_mod_cast h.2), hloop]
    rfl

/-! ### The master of a big-endian peer -/

/-- The word of a peer that stores the most significant byte first, and a `bool` in one byte. -/
structure Arch.BigEndian (arch : Arch) : Prop where
  header : arch &&& .headerMask ≠ 0
  big : arch &&& .isBigEndian = .isBigEndian
  bool : arch &&& .boolIsxx = .boolIs8

/-- The types that the tables have the right functions for. -/
def TypeId.Swaps (t : TypeId) : Prop :=
  t ∈ [int1, int2, int4, int8, uint1, uint2, uint4, uint8, float4, float8]

instance (t : TypeId) : Decidable t.Swaps := inferInstanceAs (Decidable (t ∈ _))

section BigEndian

variable {arch : Arch}

lemma Arch.BigEndian.ne_localArch (h : arch.BigEndian) :
    arch &&& .isBigEndian ≠ localArch &&& .isBigEndian := by
  rw [h.big]
  decide

lemma Arch.BigEndian.checkmask (h : arch.BigEndian) (mask : Arch) :
    arch.checkmask mask = (if arch &&& mask = mask then 1 else 0, arch) := by
  rw [Arch.checkmask, if_neg h.header]

/-- The master has the sizes of this machine, and converts whatever is longer than a byte. -/
lemma Arch.BigEndian.master (h : arch.BigEndian) :
    findOrCreateMaster arch =
      ⟨arch, false, fun t => t ∈ TypeId.firstTypes ∧ 1 < basicSize t ∧ t ≠ .bool, basicSize⟩ := by
  have hne : arch ≠ localArch := fun heq => h.ne_localArch (by rw [heq])
  have hzero : arch &&& Arch.boolIs8 = Arch.boolIs8 := BitVec.and_zero
  have hlocal : (localArch.checkmask .isBigEndian).1 = 0 := by decide
  have hsizes : ∀ t, (if t = TypeId.bool then 1 else basicSize t) = basicSize t := by
    intro t
    cases t <;> rfl
  simp only [findOrCreateMaster, if_neg hne, h.checkmask, if_pos hzero, if_pos h.big, hlocal, hsizes,
    ne_eq, one_ne_zero, not_false_eq_true, if_true, not_true_eq_false, false_or, true_and]

/-- The first byte of an element becomes the last one. -/
lemma ConversionFct.Decodes.last {fct : ConversionFct} {n : ℕ} (h : fct.Decodes arch (n + 1))
    {c : Converted}
    (hc : fct arch 1 (1 :: List.replicate n 0) (n + 1) 0 ((n : ℤ) + 1) (fun _ => 0) = some c) :
    c.mem n = 1 := by
  have hall := h 1 [List.replicate n 0 ++ [1]] [] 0 (n + 1) (fun _ => 0) (by simp) le_rfl
    fun hlt => absurd hlt (lt_irrefl 1)
  have hwire : [List.replicate n (0 : Byte) ++ [1]].flatMap List.reverse ++ []
      = 1 :: List.replicate n 0 := by simp
  rw [hwire, hc, Option.some.injEq] at hall
  subst hall
  have hone : [List.replicate n (0 : Byte) ++ [1]].flatten = List.replicate n 0 ++ [1] := by simp
  have hrun := scatter_run_apply (fun _ => (0 : Byte)) 0 (List.replicate n 0 ++ [1]) n
  rw [List.length_append, List.length_replicate, List.length_singleton, if_pos (Int.natCast_nonneg n),
    sub_zero, Int.toNat_natCast, List.getElem?_append_right (by simp), List.length_replicate,
    Nat.sub_self] at hrun
  rw [List.length_singleton, stride_one, hone]
  exact hrun

/-- The function for `double` with elements of 16 bytes, and the one for `wchar_t` likewise. -/
lemma Arch.BigEndian.not_decodes (h : arch.BigEndian) {size : ℕ} (hpos : 0 < size) (hshort : size < 16) :
    ¬ (copyHeterogeneous size).Decodes arch 16 := by
  intro hdecodes
  set wire : List Byte := 1 :: List.replicate 15 0 with hwire
  have hlen : wire.length = 16 := rfl
  have hcheck : datatypeCheck size 1 wire.length = 1 := if_neg (by rw [hlen]; omega)
  have htake : (wire.take size).reverse.length = size := by
    rw [List.length_reverse, List.length_take, hlen]
    omega
  have hc : copyHeterogeneous size arch 1 wire 16 0 16 (fun _ => 0)
      = some ⟨1, 16, scatter (fun _ => 0) (run 0 size) (wire.take size).reverse⟩ := by
    have hroom : ¬ wire.length < size := by rw [hlen]; omega
    simp only [copyHeterogeneous, hcheck, if_pos h.ne_localArch, convertLoop, if_neg hroom, htake]
    rfl
  have hlast : scatter (fun _ => 0) (run 0 size) (wire.take size).reverse 15 = 1 :=
    hdecodes.last (n := 15) hc
  have hout : (15 : ℤ) ∉ run 0 size := fun hmem => by
    have := (mem_run.mp hmem).2
    omega
  rw [scatter_of_notMem _ _ hout] at hlast
  exact absurd hlast (by decide)

/-- The function for `bool` stores one byte. -/
lemma Arch.BigEndian.not_decodes_bool (h : arch.BigEndian) :
    ¬ copyCxxBoolHeterogeneous.Decodes arch 8 := by
  intro hdecodes
  have hc : copyCxxBoolHeterogeneous arch 1 (1 :: List.replicate 7 0) 8 0 8 (fun _ => 0)
      = some ⟨1, 8, scatter (fun _ => 0) (run 0 1) [1]⟩ := by
    unfold copyCxxBoolHeterogeneous
    rw [h.bool]
    rfl
  have hlast := hdecodes.last (n := 7) hc
  exact absurd hlast (by decide)

/-- **The tables** have a function that turns the elements of a type around exactly for these types.
For the others it is one for another type, or a null pointer. -/
lemma decodes_iff (h : arch.BigEndian) {t : TypeId} (ht : 0 < basicSize t) :
    (∃ fct, (findOrCreateMaster arch).pFunctions t = some fct ∧ fct.Decodes arch (basicSize t)) ↔
      t.Swaps := by
  rw [h.master]
  constructor
  · rintro ⟨fct, hfct, hdecodes⟩
    by_contra hnot
    cases t <;> first
      | exact hnot (by decide)
      | exact absurd ht (by decide)
      | cases hfct
    · exact h.not_decodes (by decide) (by decide) hdecodes
    · exact h.not_decodes_bool hdecodes
    · exact h.not_decodes (by decide) (by decide) hdecodes
  · intro hswaps
    have hlong : ∀ size, 0 < size → (copyHeterogeneous size).Decodes arch size := fun size hpos =>
      copyHeterogeneous_decodes hpos h.ne_localArch
    cases t <;> first
      | exact absurd hswaps (by decide)
      | exact ⟨_, rfl, copyBytes_decodes arch⟩
      | exact ⟨_, rfl, hlong _ (by decide)⟩

end BigEndian

/-! ### Places of the general unpack -/

/-- Every element entry has a type with the property. -/
def Nest.EachType (P : TypeId → Prop) : Nest → Prop
  | done => True
  | elem e rest => P e.type ∧ rest.EachType P
  | loop _ body rest => body.EachType P ∧ rest.EachType P

lemma hereditary_eachType (P : TypeId → Prop) : Hereditary (Nest.EachType P) :=
  ⟨fun h => h.2, fun h => h.1, fun h => h.2⟩

/-- The same place for a walk with a base pointer. -/
def GeneralCursor.cursor (g : GeneralCursor) (base : ℤ) : Cursor := ⟨g.stack, g.pos, g.count, base⟩

/-- The general unpack stands at the place. Its `disp_desc` contains the displacement of the entry,
and a loop is always entered from its start. -/
structure GeneralCursor.StandsAt (D : Nest) (fake : EndLoopDesc) (P : TypeId → Prop) (z : Zip)
    (g : GeneralCursor) (base : ℤ) : Prop extends Represents D fake z (g.cursor base) where
  wf : z.All Nest.Wf D
  types : z.All (Nest.EachType P) D
  disp : ∀ e rest, z.code = .elem e rest → stackDisp g.stack + g.disp = base + e.disp
  fresh : ∀ l body rest, z.code = .loop l body rest → g.count = l.loops

section Place

variable {D : Nest} {fake : EndLoopDesc} {extent : ℤ} {P : TypeId → Prop} {z z' : Zip}
  {g : GeneralCursor} {base : ℤ}

/-- `count_desc` and `disp_desc` at the start of what is left of a level. -/
lemma exists_generalEnter {st : List DtStack} {pos : ℕ} {c : Cursor}
    (h : enterAt (D.desc fake) st pos = some c) (hf : Fresh D fake z c) (hwf : z.All Nest.Wf D)
    (htypes : z.All (Nest.EachType P) D) :
    ∃ g, generalEnter (D.desc fake) st pos = some g ∧ g.StandsAt D fake P z c.base ∧
      g.cursor c.base = c := by
  obtain ⟨entry, hentry, rfl⟩ := Option.map_eq_some_iff.mp h
  refine ⟨⟨st, pos, entry.count, entry.disp⟩, by rw [generalEnter, hentry]; rfl,
    ⟨hf.toRepresents, hwf, htypes, fun e rest hcode => ?_, fun l body rest hcode => ?_⟩, rfl⟩
  · have hpos := hf.pos
    rw [hcode] at hpos
    obtain rfl := Option.some.inj (hentry.symm.trans (getElem?_of_drop hpos))
    rfl
  · have hcount := hf.count_eq (by simp [hcode])
    rw [hcode] at hcount
    exact hcount

/-- The `END_LOOP` branch goes where the one of the other walks goes. -/
lemma GeneralCursor.endLoop_of_cursor {c : Cursor}
    (h : (g.cursor base).endLoop (D.desc fake) extent = some (false, c)) :
    ∃ st pos, enterAt (D.desc fake) st pos = some c ∧
      g.endLoop (D.desc fake) extent
        = (generalEnter (D.desc fake) st pos).map fun g' => (false, g') := by
  obtain ⟨stack, pos, count, disp⟩ := g
  cases stack with
  | nil => cases h
  | cons top below =>
      simp only [cursor, Cursor.endLoop] at h
      unfold GeneralCursor.endLoop
      dsimp only
      by_cases hzero : sizeDecr top.count = 0
      · rw [if_pos hzero] at h ⊢
        cases below with
        | nil => cases h
        | cons b bs =>
            obtain ⟨c', hc', heq⟩ := Option.map_eq_some_iff.mp h
            obtain ⟨-, rfl⟩ := Prod.mk.inj heq
            exact ⟨_, _, hc', rfl⟩
      · rw [if_neg hzero] at h ⊢
        cases hext : loopExtent (D.desc fake) extent top.index with
        | none => simp [hext] at h
        | some ext =>
            rw [hext, Option.bind_eq_bind, Option.bind_some] at h
            obtain ⟨c', hc', heq⟩ := Option.bind_eq_some_iff.mp h
            obtain ⟨-, rfl⟩ := Prod.mk.inj (Option.some.inj heq)
            refine ⟨_, _, hc', ?_⟩
            rw [Option.bind_eq_bind, Option.bind_some, Option.map_eq_bind]
            rfl

/-- The entry at the end of a level. -/
lemma Represents.exists_endLoop {c : Cursor} (h : Represents D fake z c) (hcode : z.code = .done) :
    ∃ e, (D.desc fake)[c.pos]? = some (.endLoop e) := by
  have hpos := h.pos
  rw [hcode] at hpos
  cases hframes : z.frames with
  | nil =>
      rw [hframes] at hpos
      exact ⟨_, getElem?_of_drop hpos⟩
  | cons f fs =>
      rw [hframes] at hpos
      exact ⟨_, getElem?_of_drop hpos⟩

end Place

/-! ### What a visit and a walk do -/

section Visit

variable {D : Nest} {fake : EndLoopDesc} {extent : ℤ} {z : Zip} {g : GeneralCursor} {base : ℤ}
  {arch : Arch} {vs : List (List Byte)}

/-- A visit with the elements `vs` in the buffer stores the first ones of them to the next blocks, and
goes on if there are more. -/
def GeneralCursor.Stores (D : Nest) (fake : EndLoopDesc) (extent : ℤ) (arch : Arch) (z : Zip)
    (g : GeneralCursor) (base : ℤ) (vs : List (List Byte)) (n : ℕ) (mem : ℤ → Byte) : Prop :=
  ∃ (us vs' : List (List Byte)) (bs : List Block) (z' : Zip) (g' : GeneralCursor) (base' : ℤ),
    vs = us ++ vs' ∧ us.map List.length = bs.map Block.len ∧
    z.remaining D extent g.count base = bs ++ z'.remaining D extent g'.count base' ∧
    g'.StandsAt D fake TypeId.Swaps z' base' ∧
    generalStep (findOrCreateMaster arch) arch (D.desc fake) extent g ⟨vs.flatMap List.reverse, n, mem⟩
      = some ((if vs' = [] then GeneralVisit.save else GeneralVisit.next) g'
        ⟨vs'.flatMap List.reverse, n + us.flatten.length, scatter mem (blocksBytes bs) us.flatten⟩) ∧
    z'.ticks D g'.count ≤ z.ticks D g.count ∧ (vs' ≠ [] → z'.ticks D g'.count < z.ticks D g.count)

variable (extent) in
/-- A visit of an `END_LOOP`. -/
lemma generalStep_done (h : g.StandsAt D fake TypeId.Swaps z base) (hcode : z.code = .done)
    (hne : vs ≠ [])
    (hvs : vs.map List.length <+: (z.remaining D extent g.count base).map Block.len) (n : ℕ)
    (mem : ℤ → Byte) : g.Stores D fake extent arch z base vs n mem := by
  obtain ⟨entry, hentry⟩ := h.exists_endLoop hcode
  have hcases : (z.endLoop D extent = none ∧ _) ∨ _ := h.endLoop h.wf hcode
  rcases hcases with ⟨hz, -⟩ | ⟨z', c', hz, hc', hf⟩
  · -- there are more elements
    have hnil := h.remaining_of_endLoop_none hcode hz
    rw [show (g.cursor base).count = g.count from rfl,
      show (g.cursor base).base = base from rfl] at hnil
    rw [hnil, List.map_nil, List.prefix_nil, List.map_eq_nil_iff] at hvs
    exact absurd hvs hne
  · obtain ⟨hrem, hticks⟩ := h.remaining_endLoop hcode hz
    obtain ⟨st, pos, henter, hend⟩ := GeneralCursor.endLoop_of_cursor hc'
    obtain ⟨g', hg', hstands, hcursor⟩ := exists_generalEnter henter hf
      (h.wf.endLoop hereditary_wf hz) (h.types.endLoop (hereditary_eachType _) hz)
    rw [← hcursor] at hf
    refine ⟨[], vs, [], z', g', c'.base, rfl, rfl, ?_, hstands, ?_, ?_, fun _ => ?_⟩
    · exact hrem.trans (Eq.symm hf.remaining_eq)
    · have hentry' : (D.desc fake)[g.pos]? = some (.endLoop entry) := hentry
      simp [generalStep, hentry', hend, hg', hne]
    · exact (hf.ticks_eq.trans_lt hticks).le
    · exact hf.ticks_eq.trans_lt hticks

variable (extent) in
/-- A visit of an element. -/
lemma generalStep_elem (harch : arch.BigEndian) (h : g.StandsAt D fake TypeId.Swaps z base)
    {e : ElemDesc} {rest : Nest} (hcode : z.code = .elem e rest) (hpos : ∀ v ∈ vs, v ≠ [])
    (hvs : vs.map List.length <+: (z.remaining D extent g.count base).map Block.len) (n : ℕ)
    (mem : ℤ → Byte) : g.Stores D fake extent arch z base vs n mem := by
  have hcount : 0 < g.count := h.count (by simp [hcode])
  have hwf : (Nest.elem e rest).Wf := hcode ▸ h.wf.code
  have htypes : (Nest.elem e rest).EachType TypeId.Swaps := hcode ▸ h.types.code
  obtain ⟨fct, hfct, hdecodes⟩ := (decodes_iff harch hwf.2.1).mpr htypes.1
  have hentry : (D.desc fake)[g.pos]? = some (.elem e) := by
    have hdrop := h.pos
    rw [hcode] at hdrop
    exact getElem?_of_drop hdrop
  -- the buffer has `m` of the elements of this entry
  obtain ⟨m, hm⟩ : ∃ m, m = min g.count vs.length := ⟨_, rfl⟩
  have hrem := Zip.remaining_elem D extent hcode (show m ≤ g.count by omega) base
  have hlens : (vs.take m).map List.length = (elemBlocks e m base).map Block.len := by
    have hprefix := List.prefix_iff_eq_take.mp hvs
    rw [List.map_take, hprefix, List.length_map, List.take_take, hrem, List.map_append,
      show min m vs.length = m by omega, List.take_left' (by simp)]
  have hsizes : ∀ v ∈ vs.take m, v.length = basicSize e.type := by
    intro v hv
    have hmem := List.mem_map_of_mem (f := List.length) hv
    rw [hlens] at hmem
    obtain ⟨b, hb, hlen⟩ := List.mem_map.mp hmem
    rw [← hlen, Block.len, type_of_mem_elemBlocks hb]
  have htake : (vs.take m).length = m := by
    rw [List.length_take]
    omega
  have hbytes : (vs.take m).flatten.length = m * basicSize e.type := by
    rw [length_flatten_of_forall hsizes, htake]
  have hmore : m < g.count → vs.drop m = [] := fun hlt => List.drop_eq_nil_of_le (by omega)
  have hsplit : vs.flatMap List.reverse
      = (vs.take m).flatMap List.reverse ++ (vs.drop m).flatMap List.reverse := by
    rw [← List.flatMap_append, List.take_append_drop]
  have hcall := hdecodes g.count (vs.take m) ((vs.drop m).flatMap List.reverse)
    (stackDisp g.stack + g.disp) e.extent mem hsizes (by omega)
    fun hlt => by rw [hmore (by omega), List.flatMap_nil]
  have hdest := h.disp e rest hcode
  rw [htake, ← hsplit, hdest, ← blocksBytes_elemBlocks] at hcall
  have hlength : (vs.flatMap List.reverse).length
      = m * basicSize e.type + ((vs.drop m).flatMap List.reverse).length := by
    rw [hsplit, List.length_append, length_flatMap_reverse, hbytes]
  have hdrop : (vs.flatMap List.reverse).drop (m * basicSize e.type)
      = (vs.drop m).flatMap List.reverse := by
    rw [hsplit, List.drop_left' (by rw [length_flatMap_reverse, hbytes])]
  have hroom : ¬ (vs.flatMap List.reverse).length < m * basicSize e.type := by omega
  have hnil : ((vs.drop m).flatMap List.reverse).length = 0 ↔ vs.drop m = [] :=
    length_flatMap_reverse_eq_zero fun v hv => hpos v (List.mem_of_mem_drop hv)
  rcases (show m ≤ g.count by omega).lt_or_eq with hlt | heq
  · -- the elements of the buffer end before those of the entry
    have hstands : ({ g with count := g.count - m, disp := g.disp + m * e.extent } :
        GeneralCursor).StandsAt D fake TypeId.Swaps z (base + m * e.extent) := by
      refine ⟨⟨h.stack, h.pos, fun _ => ?_, fun l body r hl => ?_⟩, h.wf, h.types,
        fun e' r he => ?_, fun l body r hl => ?_⟩
      · exact Nat.sub_pos_of_lt hlt
      · rw [hcode] at hl
        cases hl
      · obtain ⟨rfl, -⟩ := Nest.elem.inj (hcode.symm.trans he)
        rw [← add_assoc, hdest]
        ring
      · rw [hcode] at hl
        cases hl
    refine ⟨vs.take m, vs.drop m, elemBlocks e m base, z, _, _, (List.take_append_drop m vs).symm,
      hlens, hrem, hstands, ?_, ?_, fun hne' => absurd (hmore hlt) hne'⟩
    · simp only [generalStep, hentry, hfct, hdest, hcall, Option.bind_eq_bind, Option.bind_some,
        if_neg hroom, hdrop, hbytes, if_pos hlt.ne, if_pos (hmore hlt)]
      rfl
    · rw [Zip.ticks, Zip.ticks, hcode]
      exact le_rfl
  · -- on to the next entry
    obtain ⟨c', hc', hf⟩ := h.enterAt_rest (hereditary_wf.elem hwf) (drop_succ_of_drop (by
      have hdrop := h.pos
      rw [hcode] at hdrop
      exact hdrop))
    obtain ⟨g', hg', hstands, hcursor⟩ := exists_generalEnter (P := TypeId.Swaps) hc' hf
      ⟨h.wf.top, h.wf.frames, hwf.2.2⟩ ⟨h.types.top, h.types.frames, htypes.2⟩
    rw [← hcursor] at hf
    have hleft : ({ z with code := rest } : Zip).remaining D extent g'.count c'.base
        = ({ z with code := rest } : Zip).remaining D extent rest.headCount z.level :=
      hf.remaining_eq
    have hticks : ({ z with code := rest } : Zip).ticks D g'.count < z.ticks D g.count := by
      have hlevel : ({ z with code := rest } : Zip).ticks D g'.count
          = ({ z with code := rest } : Zip).ticks D rest.headCount := hf.ticks_eq
      rw [hlevel, Zip.ticks, Zip.ticks, hcode, headTicks, headTicks_headCount]
      simp only
      omega
    refine ⟨vs.take m, vs.drop m, elemBlocks e m base, { z with code := rest }, g', c'.base,
      (List.take_append_drop m vs).symm, hlens, ?_, hstands, ?_, hticks.le, fun _ => hticks⟩
    · rw [hrem, hleft, Zip.remaining, Zip.remaining, hcode, heq, Nat.sub_self, headBlocks,
        elemBlocks_zero, List.nil_append]
      exact congrArg _ (congrArg (· ++ _) (headBlocks_headCount rest z.level).symm)
    · have henter : generalEnter (D.desc fake) g.stack (g.pos + 1) = some g' := hg'
      simp only [generalStep, hentry, hfct, hdest, hcall, Option.bind_eq_bind, Option.bind_some,
        if_neg hroom, hdrop, hbytes, if_neg (not_not.mpr heq), henter, hnil]
      split_ifs <;> rfl

variable (extent) in
/-- A visit of a loop. -/
lemma generalStep_loop (h : g.StandsAt D fake TypeId.Swaps z base) {l : LoopInfo} {body rest : Nest}
    (hcode : z.code = .loop l body rest) (hne : vs ≠ []) (n : ℕ) (mem : ℤ → Byte) :
    g.Stores D fake extent arch z base vs n mem := by
  have hbase : base = z.level := h.loop l body rest hcode
  have hcount : g.count = l.loops := h.fresh l body rest hcode
  have hwf : (Nest.loop l body rest).Wf := hcode ▸ h.wf.code
  have hentry : (D.desc fake)[g.pos]? = some (.loop (Nest.loopDesc l body.flatten.length)) := by
    have hdrop := h.pos
    rw [hcode] at hdrop
    exact getElem?_of_drop hdrop
  obtain ⟨c', hc', hf⟩ := h.push h.wf hcode hwf.1 0
  obtain ⟨g', hg', hstands, hcursor⟩ := exists_generalEnter hc' hf
    (h.wf.push hereditary_wf hcode _ _) (h.types.push (hereditary_eachType _) hcode _ _)
  rw [← hcursor] at hf
  rw [add_zero] at hf hg' hstands
  obtain ⟨k, hk⟩ := Nat.exists_eq_succ_of_ne_zero hwf.1.ne'
  have hleft : (z.push l body rest l.loops z.level).remaining D extent g'.count c'.base
      = (z.push l body rest l.loops z.level).remaining D extent body.headCount z.level :=
    hf.remaining_eq
  have hrem : z.remaining D extent g.count base
      = (z.push l body rest l.loops z.level).remaining D extent g'.count c'.base := by
    rw [hleft, hk, z.remaining_push, Zip.remaining, hcode, headBlocks, List.append_assoc, hcount,
      hbase, hk]
  have hticks : (z.push l body rest l.loops z.level).ticks D g'.count < z.ticks D g.count := by
    have hlevel : (z.push l body rest l.loops z.level).ticks D g'.count
        = (z.push l body rest l.loops z.level).ticks D body.headCount := hf.ticks_eq
    rw [hlevel, Zip.ticks, Zip.ticks, hcode, headTicks, hcount, hk]
    simp only [Zip.push, headTicks_headCount, framesTicks, Nat.succ_eq_add_one,
      Nat.add_sub_cancel, Nat.add_one_mul]
    omega
  refine ⟨[], vs, [], _, g', c'.base, rfl, rfl, hrem, hstands, ?_, hticks.le, fun _ => hticks⟩
  have henter : generalEnter (D.desc fake)
      (⟨g.pos, l.loops, stackDisp g.stack⟩ :: g.stack) (g.pos + 1) = some g' := hg'
  rw [if_neg hne, generalStep, hentry]
  dsimp only
  rw [show (Nest.loopDesc l body.flatten.length).loops = l.loops from rfl, henter]
  rfl

variable (extent) in
/-- **One visit** of the general unpack. -/
lemma generalStep_spec (harch : arch.BigEndian) (h : g.StandsAt D fake TypeId.Swaps z base)
    (hne : vs ≠ []) (hpos : ∀ v ∈ vs, v ≠ [])
    (hvs : vs.map List.length <+: (z.remaining D extent g.count base).map Block.len) (n : ℕ)
    (mem : ℤ → Byte) : g.Stores D fake extent arch z base vs n mem := by
  cases hcode : z.code with
  | done => exact generalStep_done extent h hcode hne hvs n mem
  | elem e rest => exact generalStep_elem extent harch h hcode hpos hvs n mem
  | loop l body rest => exact generalStep_loop extent h hcode hne n mem

variable (extent) in
/-- **A whole walk** stores all elements of the buffer to the next blocks. -/
lemma generalWalk_spec (harch : arch.BigEndian) (h : g.StandsAt D fake TypeId.Swaps z base)
    (hne : vs ≠ []) (hpos : ∀ v ∈ vs, v ≠ [])
    (hvs : vs.map List.length <+: (z.remaining D extent g.count base).map Block.len) {fuel : ℕ}
    (hfuel : z.ticks D g.count < fuel) (n : ℕ) (mem : ℤ → Byte) :
    ∃ (bs : List Block) (z' : Zip) (g' : GeneralCursor) (base' : ℤ),
      vs.map List.length = bs.map Block.len ∧
      z.remaining D extent g.count base = bs ++ z'.remaining D extent g'.count base' ∧
      g'.StandsAt D fake TypeId.Swaps z' base' ∧ z'.ticks D g'.count ≤ z.ticks D g.count ∧
      generalWalk (findOrCreateMaster arch) arch (D.desc fake) extent fuel g
          ⟨vs.flatMap List.reverse, n, mem⟩
        = some (g', ⟨[], n + vs.flatten.length, scatter mem (blocksBytes bs) vs.flatten⟩) := by
  induction fuel generalizing z g base vs n mem with
  | zero => omega
  | succ fuel ih =>
      obtain ⟨us, vs', bs, z₁, g₁, base₁, rfl, hlens, hrem, h₁, hstep, hle, hlt⟩ :=
        generalStep_spec extent harch h hne hpos hvs n mem
      rw [generalWalk, hstep]
      by_cases hlast : vs' = []
      · subst hlast
        rw [List.append_nil]
        exact ⟨bs, z₁, g₁, base₁, hlens, hrem, h₁, hle, by rw [if_pos rfl]; rfl⟩
      · rw [hrem, List.map_append, List.map_append, hlens, List.prefix_append_right_inj] at hvs
        obtain ⟨bs', z', g', base', hlens', hrem', h', hle', hwalk⟩ := ih h₁ hlast
          (fun v hv => hpos v (List.mem_append_right _ hv)) hvs (by have := hlt hlast; omega)
          (n + us.flatten.length) (scatter mem (blocksBytes bs) us.flatten)
        refine ⟨bs ++ bs', z', g', base', ?_, ?_, h', hle'.trans hle, ?_⟩
        · rw [List.map_append, List.map_append, hlens, hlens']
        · rw [hrem, hrem', List.append_assoc]
        · have hbytes : (blocksBytes bs).length = us.flatten.length := by
            rw [length_blocksBytes, List.length_flatten, hlens]
            rfl
          rw [if_neg hlast]
          dsimp only
          rw [hwalk, blocksBytes_append, List.flatten_append, scatter_append _ hbytes,
            List.length_append, Nat.add_assoc]

/-- The buffers hold the elements with their bytes in the opposite order, at least one each. -/
structure Sent (iov : List Fragment) (bufs : List (List (List Byte))) : Prop where
  data : iov.map Fragment.data = bufs.map fun vs => vs.flatMap List.reverse
  some : ∀ vs ∈ bufs, vs ≠ []
  sized : ∀ vs ∈ bufs, ∀ v ∈ vs, v ≠ []

variable (extent) in
/-- The loop over the buffers. -/
lemma generalIovs_spec (harch : arch.BigEndian) {iov : List Fragment} {bufs : List (List (List Byte))}
    (hsent : Sent iov bufs) (h : g.StandsAt D fake TypeId.Swaps z base)
    (hvs : bufs.flatten.map List.length <+: (z.remaining D extent g.count base).map Block.len)
    {fuel : ℕ} (hfuel : z.ticks D g.count < fuel) (mem : ℤ → Byte) :
    ∃ (bs : List Block) (z' : Zip) (g' : GeneralCursor) (base' : ℤ),
      bufs.flatten.map List.length = bs.map Block.len ∧
      z.remaining D extent g.count base = bs ++ z'.remaining D extent g'.count base' ∧
      g'.StandsAt D fake TypeId.Swaps z' base' ∧ z'.ticks D g'.count ≤ z.ticks D g.count ∧
      generalIovs (findOrCreateMaster arch) arch (D.desc fake) extent fuel iov g mem
        = some (bufs.map fun vs => vs.flatten.length, g',
          scatter mem (blocksBytes bs) bufs.flatten.flatten) := by
  induction bufs generalizing iov z g base mem with
  | nil =>
      obtain rfl : iov = [] := List.map_eq_nil_iff.mp hsent.data
      exact ⟨[], z, g, base, rfl, rfl, h, le_rfl, by rw [generalIovs]; simp⟩
  | cons vs bufs ih =>
      obtain ⟨v, iov, rfl, hv, hdata⟩ := List.map_eq_cons_iff.mp hsent.data
      rw [List.flatten_cons, List.map_append] at hvs
      obtain ⟨bs, z₁, g₁, base₁, hlens, hrem, h₁, hle, hwalk⟩ := generalWalk_spec extent harch h
        (hsent.some vs List.mem_cons_self) (hsent.sized vs List.mem_cons_self)
        ((List.prefix_append _ _).trans hvs) hfuel 0 mem
      rw [hrem, List.map_append, hlens, List.prefix_append_right_inj] at hvs
      have hsent' : Sent iov bufs := ⟨hdata, fun u hu => hsent.some u (List.mem_cons_of_mem _ hu),
        fun u hu => hsent.sized u (List.mem_cons_of_mem _ hu)⟩
      obtain ⟨bs', z', g', base', hlens', hrem', h', hle', hiovs⟩ :=
        ih hsent' h₁ hvs (hle.trans_lt hfuel) (scatter mem (blocksBytes bs) vs.flatten)
      refine ⟨bs ++ bs', z', g', base', ?_, ?_, h', hle'.trans hle, ?_⟩
      · rw [List.flatten_cons, List.map_append, List.map_append, hlens, hlens']
      · rw [hrem, hrem', List.append_assoc]
      · have hbytes : (blocksBytes bs).length = vs.flatten.length := by
          rw [length_blocksBytes, List.length_flatten, hlens]
          rfl
        rw [generalIovs, hv, hwalk, Option.bind_eq_bind, Option.bind_some]
        dsimp only
        rw [hiovs, Option.bind_eq_bind, Option.bind_some, blocksBytes_append, List.flatten_cons,
          List.flatten_append, scatter_append _ hbytes, Nat.zero_add]
        rfl

end Visit

/-! ### Sequences of calls -/

/-- The blocks that the general unpack stores `count` copies to. A walk begins without the displacement
of the first entry, and if this is an element, nothing puts it in for the first copy. -/
def Nest.received (D : Nest) (count : ℕ) (extent : ℤ) : List Block :=
  match D with
  | .elem e rest =>
      elemBlocks e e.count (-e.disp) ++ (rest.blocks 0 ++ stride (count - 1) extent D.blocks extent)
  | _ => stride count extent D.blocks 0

/-- The first entry is a loop, or stands at the start. -/
def Nest.StartsAtZero : Nest → Prop
  | .elem e _ => e.disp = 0
  | _ => True

/-- Nothing is lost exactly if the first displacement is 0. -/
lemma Nest.received_eq_iff {D : Nest} (hwf : D.Wf) {count : ℕ} (hcount : count ≠ 0) (extent : ℤ) :
    D.received count extent = stride count extent D.blocks 0 ↔ D.StartsAtZero := by
  obtain ⟨n, rfl⟩ := Nat.exists_eq_succ_of_ne_zero hcount
  cases D with
  | done => exact iff_of_true rfl trivial
  | loop l body rest => exact iff_of_true rfl trivial
  | elem e rest =>
      have hblocks : stride (n + 1) extent (elem e rest).blocks 0
          = elemBlocks e e.count 0 ++ (rest.blocks 0 ++ stride n extent (elem e rest).blocks extent) := by
        rw [stride_succ, zero_add, ← List.append_assoc]
        rfl
      rw [received, Nat.succ_sub_one, hblocks, List.append_left_inj, StartsAtZero]
      constructor
      · intro heq
        obtain ⟨k, hk⟩ := Nat.exists_eq_succ_of_ne_zero hwf.1.ne'
        rw [hk, elemBlocks, elemBlocks, stride_succ, stride_succ] at heq
        have hfirst := congrArg Block.disp (List.cons.inj heq).1
        simpa using hfirst.symm
      · intro hzero
        rw [hzero, neg_zero]

/-- The invariant of a convertor that receives from the peer: the blocks `rem` are still to come. -/
structure Convertor.GeneralInv (D : Nest) (fake : EndLoopDesc) (arch : Arch) (bound : ℕ)
    (conv : Convertor) (rem : List Block) : Prop where
  desc : conv.useDesc.desc = D.desc fake
  noOp : conv.flags.noOp = false
  advance : conv.fAdvance = .unpackGeneral
  remoteArch : conv.remoteArch = arch
  master : conv.master = findOrCreateMaster arch
  remoteSize : conv.bConverted + weight Block.len rem = conv.remoteSize
  completed : conv.flags.completed = true ↔ rem = []
  pending : rem ≠ [] → ∃ (z : Zip) (g : GeneralCursor) (base : ℤ),
    conv.stack = ⟨g.pos, g.count, g.disp⟩ :: g.stack ∧ g.StandsAt D fake TypeId.Swaps z base ∧
      z.ticks D g.count ≤ bound ∧ z.remaining D conv.pDesc.extent g.count base = rem

section Calls

variable {D : Nest} {fake : EndLoopDesc} {arch : Arch} {bound fuel : ℕ} {conv : Convertor}
  {rem : List Block} {chk : Build}

/-- **One call** stores its elements to the next blocks. -/
lemma Convertor.GeneralInv.unpackGeneral (harch : arch.BigEndian)
    (h : conv.GeneralInv D fake arch bound rem) (hlen : ∀ b ∈ rem, 0 < b.len) (hne : rem ≠ [])
    (hfuel : bound < fuel) {iov : List Fragment} {bufs : List (List (List Byte))}
    (hsent : Sent iov bufs) (hvs : bufs.flatten.map List.length <+: rem.map Block.len)
    (mem : ℤ → Byte) :
    ∃ bs rem' r, rem = bs ++ rem' ∧ bufs.flatten.map List.length = bs.map Block.len ∧
      Ocoms.unpackGeneral fuel conv mem iov = some r ∧
      r.mem = scatter mem (blocksBytes bs) bufs.flatten.flatten ∧
      r.conv.GeneralInv D fake arch bound rem' ∧ r.conv.pDesc = conv.pDesc := by
  obtain ⟨z, g, base, hstack, hstands, hbound, rfl⟩ := h.pending hne
  obtain ⟨bs, z', g', base', hlens, hrem, h', hle, hiovs⟩ := generalIovs_spec conv.pDesc.extent harch
    hsent hstands hvs (hbound.trans_lt hfuel) mem
  have hiovs' : generalIovs conv.master conv.remoteArch conv.useDesc.desc conv.pDesc.extent fuel iov
      ⟨g.stack, (g.pos : ℤ).toNat, g.count, g.disp⟩ mem = some (bufs.map fun vs => vs.flatten.length,
        g', scatter mem (blocksBytes bs) bufs.flatten.flatten) := by
    rw [h.master, h.remoteArch, h.desc, Int.toNat_natCast]
    exact hiovs
  have hsum : (bufs.map fun vs => vs.flatten.length).sum = weight Block.len bs := by
    rw [weight, ← hlens, ← List.length_flatten, List.flatten_flatten, List.length_flatten,
      List.map_map]
    rfl
  have hsize := h.remoteSize
  rw [hrem] at hlen hsize
  rw [weight_append] at hsize
  have hdone : conv.remoteSize = conv.bConverted + weight Block.len bs ↔
      z'.remaining D conv.pDesc.extent g'.count base' = [] := by
    rw [← weight_eq_zero_iff fun b hb => hlen b (List.mem_append_right _ hb)]
    omega
  have hcomp : conv.flags.completed = false := by simpa [hne] using h.completed
  by_cases hlast : z'.remaining D conv.pDesc.extent g'.count base' = []
  · refine ⟨bs, [], ⟨{ conv with
        bConverted := conv.bConverted + weight Block.len bs
        flags := { conv.flags with completed := true }
        stack := g'.stack },
      scatter mem (blocksBytes bs) bufs.flatten.flatten, bufs.map fun vs => vs.flatten.length,
      weight Block.len bs, 1⟩, by rw [hrem, hlast], hlens, ?_, rfl, ?_, rfl⟩
    · rw [Ocoms.unpackGeneral, hstack]
      dsimp only
      rw [hiovs', Option.bind_eq_bind, Option.bind_some]
      dsimp only
      rw [hsum, if_pos (hdone.mpr hlast)]
      rfl
    · refine ⟨h.desc, h.noOp, h.advance, h.remoteArch, h.master, ?_, iff_of_true rfl rfl,
        fun hne' => absurd rfl hne'⟩
      rw [weight_nil, Nat.add_zero]
      exact (hdone.mpr hlast).symm
  · refine ⟨bs, _, ⟨{ conv with
        bConverted := conv.bConverted + weight Block.len bs
        stack := ⟨g'.pos, g'.count, g'.disp⟩ :: g'.stack },
      scatter mem (blocksBytes bs) bufs.flatten.flatten, bufs.map fun vs => vs.flatten.length,
      weight Block.len bs, 0⟩, hrem, hlens, ?_, rfl, ?_, rfl⟩
    · rw [Ocoms.unpackGeneral, hstack]
      dsimp only
      rw [hiovs', Option.bind_eq_bind, Option.bind_some]
      dsimp only
      rw [hsum, if_neg (mt hdone.mp hlast)]
      rfl
    · refine ⟨h.desc, h.noOp, h.advance, h.remoteArch, h.master, ?_,
        iff_of_false (by simp [hcomp]) hlast, fun _ => ⟨z', g', base', rfl, h', hle.trans hbound, rfl⟩⟩
      rw [Nat.add_assoc]
      exact hsize

variable (chk) in
/-- The same through `ocoms_convertor_unpack`. -/
lemma Convertor.GeneralInv.convertorUnpack (harch : arch.BigEndian)
    (h : conv.GeneralInv D fake arch bound rem) (hlen : ∀ b ∈ rem, 0 < b.len) (hfuel : bound < fuel)
    {iov : List Fragment} {bufs : List (List (List Byte))} (hsent : Sent iov bufs)
    (hvs : bufs.flatten.map List.length <+: rem.map Block.len) (mem : ℤ → Byte) :
    ∃ bs rem' r, rem = bs ++ rem' ∧ bufs.flatten.map List.length = bs.map Block.len ∧
      Ocoms.convertorUnpack chk fuel conv mem iov = some r ∧
      r.mem = scatter mem (blocksBytes bs) bufs.flatten.flatten ∧
      r.conv.GeneralInv D fake arch bound rem' ∧ r.conv.pDesc = conv.pDesc := by
  by_cases hne : rem = []
  · -- nothing is left, and nothing can be in the buffers
    subst hne
    rw [List.map_nil, List.prefix_nil, List.map_eq_nil_iff] at hvs
    refine ⟨[], [], ⟨conv, mem, [], 0, 1⟩, rfl, by rw [hvs]; rfl, ?_, by simp, h, rfl⟩
    rw [Ocoms.convertorUnpack, if_pos (h.completed.mpr rfl)]
  · have hcomp : conv.flags.completed = false := by simpa [hne] using h.completed
    have h' : ({ conv with csum := ⟨0, 0, 0⟩ } : Convertor).GeneralInv D fake arch bound rem :=
      ⟨h.desc, h.noOp, h.advance, h.remoteArch, h.master, h.remoteSize, h.completed, h.pending⟩
    have hcall : Ocoms.convertorUnpack chk fuel conv mem iov
        = Ocoms.unpackGeneral fuel { conv with csum := ⟨0, 0, 0⟩ } mem iov := by
      simp [Ocoms.convertorUnpack, h.noOp, hcomp, h.advance]
    rw [hcall]
    exact h'.unpackGeneral harch hlen hne hfuel hsent hvs mem

variable (chk) in
/-- **Any sequence of calls** stores the elements of its buffers to the next blocks. -/
lemma Convertor.GeneralInv.unpackCalls (harch : arch.BigEndian)
    (h : conv.GeneralInv D fake arch bound rem) (hlen : ∀ b ∈ rem, 0 < b.len) (hfuel : bound < fuel)
    {calls : List (List Fragment)} {sent : List (List (List (List Byte)))}
    (hsent : List.Forall₂ Sent calls sent)
    (hvs : sent.flatten.flatten.map List.length <+: rem.map Block.len) (mem : ℤ → Byte) :
    ∃ bs rem' conv', rem = bs ++ rem' ∧ sent.flatten.flatten.map List.length = bs.map Block.len ∧
      Ocoms.unpackCalls chk fuel conv mem calls
        = some (conv', scatter mem (blocksBytes bs) sent.flatten.flatten.flatten) ∧
      conv'.GeneralInv D fake arch bound rem' := by
  induction hsent generalizing conv rem mem with
  | nil => exact ⟨[], rem, conv, rfl, rfl, by simp [Ocoms.unpackCalls], h⟩
  | @cons iov bufs calls sent hiov _ ih =>
      rw [List.flatten_cons, List.flatten_append, List.map_append] at hvs
      obtain ⟨bs, rem', r, rfl, hlens, hcall, hmem, h', -⟩ := h.convertorUnpack chk harch hlen hfuel
        hiov ((List.prefix_append _ _).trans hvs) mem
      rw [List.map_append, hlens, List.prefix_append_right_inj] at hvs
      obtain ⟨bs', rem'', conv', rfl, hlens', hcalls, h''⟩ :=
        ih h' (fun b hb => hlen b (List.mem_append_right _ hb)) hvs r.mem
      have hbytes : (blocksBytes bs).length = bufs.flatten.flatten.length := by
        rw [length_blocksBytes, List.length_flatten, hlens]
        rfl
      refine ⟨bs ++ bs', rem'', conv', (List.append_assoc _ _ _).symm, ?_, ?_, h''⟩
      · rw [List.flatten_cons, List.flatten_append, List.map_append, List.map_append, hlens, hlens']
      · rw [Ocoms.unpackCalls, hcall, Option.bind_some, hcalls, hmem, List.flatten_cons,
          List.flatten_append, List.flatten_append, blocksBytes_append, scatter_append _ hbytes]

end Calls

/-! ### The set-up -/

/-- A convertor that was made for the peer, and has not sent. -/
structure Convertor.Peer (conv : Convertor) (arch : Arch) : Prop where
  remoteArch : conv.remoteArch = arch
  master : conv.master = findOrCreateMaster arch
  send : conv.flags.send = false

section Prepare

variable {D : Nest} {fake : EndLoopDesc} {arch : Arch} {conv : Convertor} {dt : Datatype} {count : ℕ}

/-- `ocoms_convertor_prepare_for_recv` sets up the general unpack, with the plain description. -/
lemma Convertor.Peer.prepareForRecv (hpeer : conv.Peer arch) (harch : arch.BigEndian) (hcount : count ≠ 0)
    (hsize : dt.size ≠ 0) {t : TypeId} (hused : dt.bdtUsed t = true) (hwide : 1 < basicSize t)
    (pUserBuf : ℤ) :
    ∃ recv : Convertor, conv.prepareForRecv dt count pUserBuf = recv ∧ recv.useDesc = dt.desc ∧
      recv.flags.noOp = false ∧ recv.fAdvance = .unpackGeneral ∧ recv.remoteArch = arch ∧
      recv.master = findOrCreateMaster arch ∧ recv.bConverted = 0 ∧ recv.flags.completed = false ∧
      recv.pDesc = dt ∧ recv.count = count ∧
      recv.stack = [⟨0, (dt.desc.desc.head?.map DtElemDesc.count).getD 0, 0⟩, ⟨-1, count, 0⟩] ∧
      recv.remoteSize = count * ((TypeId.firstTypes.filter dt.bdtUsed).map fun t =>
        dt.btypes t * basicSize t).sum := by
  have hne : ¬ (count = 0 ∨ dt.size = 0) := by simp [hcount, hsize]
  have hother : arch ≠ localArch := fun heq => harch.ne_localArch (by rw [heq])
  have hmask : (TypeId.firstTypes.any fun t =>
      dt.bdtUsed t && (findOrCreateMaster arch).heteroMask t) = true := by
    have hfirst : t ∈ TypeId.firstTypes ∧ t ≠ .bool := by
      cases t <;> first | decide | exact absurd hwide (by decide)
    rw [harch.master]
    refine List.any_eq_true.mpr ⟨t, hfirst.1, ?_⟩
    rw [hused, Bool.true_and]
    exact decide_eq_true ⟨hfirst.1, hwide, hfirst.2⟩
  refine ⟨_, rfl, ?_⟩
  simp only [Convertor.prepareForRecv, Convertor.prepare, if_neg hne, Convertor.attach,
    hpeer.remoteArch, hpeer.master, hpeer.send, hother, false_and, if_false,
    Convertor.computeRemoteSize, hmask, if_true, Bool.not_true, Bool.false_eq_true, or_self, and_false,
    Convertor.provideStack, Convertor.createStackAtBegining, Bool.not_false, true_and]
  rw [harch.master]

/-- Every element of the typemap has a type with the property. -/
lemma Nest.Wf.eachType {P : TypeId → Prop} (h : D.Wf) (hP : ∀ t ∈ D.types, P t) : D.EachType P := by
  induction D with
  | done => trivial
  | elem e r ih =>
      rw [types_elem] at hP
      refine ⟨hP e.type (List.mem_append_left _ (List.mem_replicate.mpr ⟨h.1.ne', rfl⟩)),
        ih h.2.2 fun t ht => hP t (List.mem_append_right _ ht)⟩
  | loop l b r ihb ih =>
      rw [types_loop] at hP
      refine ⟨ihb h.2.2.1 fun t ht => hP t (List.mem_append_left _ ?_),
        ih h.2.2.2 fun t ht => hP t (List.mem_append_right _ ht)⟩
      exact List.mem_flatten.mpr ⟨_, List.mem_replicate.mpr ⟨h.1.ne', rfl⟩, ht⟩

/-- The elements are those of the copies, in their order. -/
lemma Nest.map_type_received (hcount : count ≠ 0) (extent : ℤ) :
    (D.received count extent).map Block.type = (List.replicate count D.types).flatten := by
  obtain ⟨n, rfl⟩ := Nat.exists_eq_succ_of_ne_zero hcount
  cases D with
  | done => exact map_type_stride _ _ _ _
  | loop l body rest => exact map_type_stride _ _ _ _
  | elem e rest =>
      rw [received, List.map_append, List.map_append, map_type_elemBlocks, map_type_blocks,
        map_type_stride, List.replicate_succ, List.flatten_cons, types_elem, Nat.succ_sub_one,
        List.append_assoc]

lemma Nest.map_len_received (hcount : count ≠ 0) (extent : ℤ) :
    (D.received count extent).map Block.len = (stride count extent D.blocks 0).map Block.len := by
  have htypes : (D.received count extent).map Block.type
      = (stride count extent D.blocks 0).map Block.type := by
    rw [map_type_received hcount, map_type_stride]
  have hsizes := congrArg (List.map basicSize) htypes
  rwa [List.map_map, List.map_map] at hsizes

/-- `ocoms_convertor_create_stack_at_begining` reads the count of the first entry. -/
lemma Nest.head_count_desc (h : D ≠ .done) :
    ((D.desc fake).head?.map DtElemDesc.count).getD 0 = D.headCount := by
  cases D with
  | done => exact absurd rfl h
  | elem e rest => rfl
  | loop l body rest => rfl

variable (fake) in
/-- The place that the saved position of a fresh convertor stands for. -/
lemma Nest.standsAt_start (hwf : D.Wf) (hne : D ≠ .done) (hswaps : ∀ t ∈ D.types, t.Swaps)
    (hcount : 0 < count) :
    ∃ base, (⟨[⟨-1, count, 0⟩], 0, D.headCount, 0⟩ : GeneralCursor).StandsAt D fake TypeId.Swaps
        (Zip.start D count) base ∧
      ∀ extent, (Zip.start D count).remaining D extent D.headCount base = D.received count extent := by
  have heach := hwf.eachType hswaps
  have hall : (Zip.start D count).All Nest.Wf D := ⟨hwf, by simp [Zip.start], hwf⟩
  have htypes : (Zip.start D count).All (Nest.EachType TypeId.Swaps) D :=
    ⟨heach, by simp [Zip.start], heach⟩
  cases D with
  | done => exact absurd rfl hne
  | loop l body rest =>
      refine ⟨0, ⟨⟨⟨rfl, hcount⟩, rfl, fun _ => hwf.headCount_pos hne, fun _ _ _ _ => rfl⟩, hall, htypes,
        fun e rest hcode => ?_, fun l' body' rest' hcode => ?_⟩, fun extent => ?_⟩
      · cases hcode
      · obtain ⟨rfl, -, -⟩ := Nest.loop.inj hcode
        rfl
      · exact Zip.remaining_start hcount
  | elem e rest =>
      refine ⟨-e.disp, ⟨⟨⟨rfl, hcount⟩, rfl, fun _ => hwf.headCount_pos hne, fun l body rest hcode => ?_⟩,
        hall, htypes, fun e' rest' hcode => ?_, fun l body rest' hcode => ?_⟩, fun extent => ?_⟩
      · cases hcode
      · obtain ⟨rfl, -⟩ := Nest.elem.inj hcode
        exact (neg_add_cancel e.disp).symm
      · cases hcode
      · obtain ⟨n, rfl⟩ := Nat.exists_eq_succ_of_ne_zero hcount.ne'
        rw [received, Zip.remaining, Nat.succ_sub_one]
        simp [Zip.start, framesBlocks, Zip.level, framesDisp, headBlocks, Nest.headCount]

/-- **The start**: a convertor that is prepared has all blocks before it. -/
lemma Convertor.Peer.generalInv (hpeer : conv.Peer arch) (harch : arch.BigEndian) {as : List ℤ}
    (h : Committed dt as) (hD : dt.desc.desc.take dt.desc.used = D.flatten)
    (hdesc : dt.desc.desc = D.desc fake) (hswaps : ∀ t ∈ D.types, t.Swaps)
    (hwide : ∃ t ∈ D.types, 1 < basicSize t) (hcount : count ≠ 0) (pUserBuf : ℤ) :
    (conv.prepareForRecv dt count pUserBuf).GeneralInv D fake arch (count * (D.ticks + 1))
      (D.received count dt.extent) := by
  obtain ⟨t, ht, hlong⟩ := hwide
  obtain ⟨-, hwf, hsize, -⟩ := h.counted hD
  have hpos := Nat.pos_of_ne_zero hcount
  have hne : D ≠ .done := by
    rintro rfl
    cases ht
  have hsize' : dt.size ≠ 0 := by
    rw [hsize, D.sum_sizes]
    exact (hwf.length_pos hne 0).ne'
  obtain ⟨recv, hrecv, huse, hno, hadv, hra, hmaster, hconv, hcomp, hpd, -, hstack, hremote⟩ :=
    hpeer.prepareForRecv harch hcount hsize'
      ((h.bdtUsed_iff hD (mem_firstTypes (by omega))).mpr ht) hlong pUserBuf
  rw [hrecv]
  have hlens : weight Block.len (D.received count dt.extent) = count * (D.types.map basicSize).sum := by
    have hmap : (D.received count dt.extent).map Block.len
        = ((D.received count dt.extent).map Block.type).map basicSize := by
      rw [List.map_map]
      rfl
    rw [weight, hmap, Nest.map_type_received hcount, List.map_flatten, List.map_replicate,
      List.sum_flatten, List.map_replicate, List.sum_replicate, smul_eq_mul]
  have hnonempty : D.received count dt.extent ≠ [] := by
    intro hnil
    have htypes := Nest.map_type_received (D := D) hcount dt.extent
    obtain ⟨n, rfl⟩ := Nat.exists_eq_succ_of_ne_zero hcount
    rw [hnil, List.map_nil, List.replicate_succ, List.flatten_cons] at htypes
    rw [(List.append_eq_nil_iff.mp htypes.symm).1] at ht
    cases ht
  refine ⟨huse ▸ hdesc, hno, hadv, hra, hmaster, ?_, iff_of_false (by simp [hcomp]) hnonempty,
    fun _ => ?_⟩
  · rw [hconv, Nat.zero_add, hremote, h.sum_btypes hD, hlens]
  · have hstack' : recv.stack = [⟨0, D.headCount, 0⟩, ⟨-1, count, 0⟩] := by
      rw [hstack, hdesc, Nest.head_count_desc hne]
    obtain ⟨base, hstands, hrem⟩ := Nest.standsAt_start fake hwf hne hswaps hpos
    refine ⟨Zip.start D count, ⟨[⟨-1, count, 0⟩], 0, D.headCount, 0⟩, base, hstack', hstands,
      (Zip.ticks_start hpos).le, ?_⟩
    rw [hpd]
    exact hrem dt.extent

end Prepare

/-- The word of a machine like this one with the other byte order. -/
def bigEndianArch : Arch := localArch ||| .isBigEndian

/-- An `INT4` four bytes from the start. -/
def int4At4 : Datatype := ((Datatype.create none).add (predefined .int4) 1 4 (-1)).getD emptyDatatype

end Ocoms
