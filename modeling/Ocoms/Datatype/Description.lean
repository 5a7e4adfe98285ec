import Ocoms.Datatype.Construction

/-!
The descriptions of built datatypes.

* `Nest.copies` is the nest of the entries that an addition appends (`addEntries_eq`);
  `CopiesSpec` says what is known about it.
* `Datatype.Described dt D` says that the description of `dt` is the nest `D`, whose ends match.
  `Built.described` says that every derived datatype has one.
* `Datatype.Described.commit` says what `ocoms_datatype_commit` makes of it.
-/

namespace Ocoms

open Layout Nest

/-! ### The nest of an addition -/

/-- The nest of copies of a predefined type. -/
def Nest.predefinedCopies (pdtAdd : Datatype) (count : ℕ) (disp extent : ℤ) : Nest :=
  if extent ≠ pdtAdd.size ∧ 1 < count then
    let localFlags := { pdtAdd.flags with commited := false, contiguous := false, noGaps := false }
    loop
      { flags := { localFlags with data := false }, loops := count, extent,
        endFlags := { localFlags with data := false }, size := pdtAdd.size, firstElemDisp := disp }
      (elem { flags := { localFlags with contiguous := true }, type := pdtAdd.id, count := 1, disp,
              extent := pdtAdd.size } done) done
  else
    elem { flags := { pdtAdd.flags with commited := false }, type := pdtAdd.id, count, disp,
           extent } done

/-- The nest of copies of a derived type with the description `D`. -/
def Nest.derivedCopies (pdtAdd : Datatype) (D : Nest) (count : ℕ) (disp extent : ℤ) : Nest :=
  if count ≠ 1 then
    let flags := { pdtAdd.flags with commited := false, data := false }
    loop { flags, loops := count, extent, endFlags := flags, size := pdtAdd.size,
           firstElemDisp := (D.shift disp).firstDisp } (D.shift disp) done
  else D.shift disp

/-- The nest of the entries that an addition appends. -/
def Nest.copies (pdtAdd : Datatype) (D : Nest) (count : ℕ) (disp extent : ℤ) : Nest :=
  if pdtAdd.flags.predefined ∧ pdtAdd.flags.data then predefinedCopies pdtAdd count disp extent
  else match mergedEntry pdtAdd count disp extent with
    | some (.elem e) => elem e done
    | _ => derivedCopies pdtAdd D count disp extent

/-- The description of a datatype is the nest `D`. -/
structure Datatype.Described (dt : Datatype) (D : Nest) : Prop where
  desc : dt.desc.desc.take dt.desc.used = D.flatten
  used : dt.desc.used = D.flatten.length
  wf : D.Wf
  ends : D.Matches
  data : D.ElemsData
  size : (D.bytes 0).length = dt.size
  contiguous : dt.flags.contiguous = true → D.bytes 0 = run dt.trueLb dt.size

/-- A predefined type that the platform has. -/
structure Datatype.Basic (dt : Datatype) : Prop where
  predefined : dt.flags.predefined = true
  data : dt.flags.data = true
  size : dt.size = basicSize dt.id
  pos : 0 < basicSize dt.id
  trueLb : dt.trueLb = 0

section Copies

variable {pdtAdd : Datatype} {D : Nest} {count : ℕ} {disp extent : ℤ}

lemma Nest.ElemsData.flatten_shift (h : D.ElemsData) (x : ℤ) :
    (D.shift x).flatten = D.flatten.map (DtElemDesc.moved x) := by
  induction D with
  | done => rfl
  | elem e r ih =>
      simp only [Nest.shift, Nest.flatten, List.map_cons, DtElemDesc.moved, h.1, if_true, ih h.2]
  | loop l b r ihb ih =>
      simp only [Nest.shift, Nest.flatten, List.map_cons, List.map_append, DtElemDesc.moved,
        ihb h.1, ih h.2, List.length_map]
      rfl

lemma Nest.ElemsData.shift (h : D.ElemsData) (x : ℤ) : (D.shift x).ElemsData := by
  induction D with
  | done => trivial
  | elem e r ih => exact ⟨h.1, ih h.2⟩
  | loop l b r ihb ih => exact ⟨ihb h.1, ih h.2⟩

lemma Nest.elemsData_append {s t : Nest} : (s ++ t).ElemsData ↔ s.ElemsData ∧ t.ElemsData := by
  induction s with
  | done => simp [ElemsData]
  | elem e r ih => simp [ElemsData, ih, and_assoc]
  | loop l b r _ ih => simp [ElemsData, ih, and_assoc]

lemma flatten_predefinedCopies (pdtAdd : Datatype) (count : ℕ) (disp extent : ℤ) :
    (predefinedCopies pdtAdd count disp extent).flatten
      = predefinedEntries pdtAdd count disp extent := by
  rw [predefinedCopies, predefinedEntries]
  split_ifs <;> rfl

lemma flatten_derivedCopies (h : pdtAdd.Described D) (hD : D ≠ .done) (count : ℕ)
    (disp extent : ℤ) :
    (derivedCopies pdtAdd D count disp extent).flatten
      = derivedEntries pdtAdd count disp extent := by
  have hcopied : (pdtAdd.desc.desc.take pdtAdd.desc.used).map (DtElemDesc.moved disp)
      = (D.shift disp).flatten := by rw [h.desc, h.data.flatten_shift]
  rw [derivedCopies, derivedEntries, hcopied]
  by_cases hc : count ≠ 1
  · obtain ⟨e, he, hdisp⟩ := (h.wf.shift disp).getFirstNonLoop (shift_ne_done.mpr hD) []
    rw [List.append_nil] at he
    have hlen : pdtAdd.desc.used = (D.shift disp).flatten.length := by
      rw [length_flatten_shift, h.used]
    simp only [if_pos hc, he, Option.map_some, Option.getD_some, hdisp, hlen]
    rfl
  · rw [if_neg hc, if_neg hc]

lemma mergedEntry_cases (h : pdtAdd.Described D) (count : ℕ) (disp extent : ℤ) :
    mergedEntry pdtAdd count disp extent = none ∨
      ∃ e, D = .elem e .done ∧ extent = pdtAdd.ub - pdtAdd.lb ∧ extent = e.extent ∧
        mergedEntry pdtAdd count disp extent
          = some (.elem { e with count := e.count * count, disp := e.disp + disp }) := by
  rw [mergedEntry, h.desc]
  cases D with
  | done => exact Or.inl rfl
  | loop l b r =>
      refine Or.inl ?_
      rw [Nest.flatten]
  | elem e r =>
      cases r with
      | done =>
          by_cases hc : extent = pdtAdd.ub - pdtAdd.lb ∧ extent = e.extent
          · exact Or.inr ⟨e, rfl, hc.1, hc.2, if_pos hc⟩
          · exact Or.inl (if_neg hc)
      | elem e' r' => exact Or.inl rfl
      | loop l b r' => exact Or.inl rfl

/-- The entries of an addition are those of the nest. -/
lemma addEntries_eq (base : Datatype) (count : ℕ) (disp extent : ℤ) (h : pdtAdd.flags.predefined = true ∧
    pdtAdd.flags.data = true ∨ pdtAdd.Described D ∧ D ≠ .done) :
    (addEntries base pdtAdd count disp extent).1 = (copies pdtAdd D count disp extent).flatten := by
  rw [addEntries, copies]
  by_cases hp : pdtAdd.flags.predefined = true ∧ pdtAdd.flags.data = true
  · rw [if_pos hp, if_pos hp, flatten_predefinedCopies]
  · obtain ⟨hd, hD⟩ := h.resolve_left hp
    rw [if_neg hp, if_neg hp]
    rcases mergedEntry_cases hd count disp extent with
      hm | ⟨e, -, -, -, hm⟩
    · simp only [hm, flatten_derivedCopies hd hD]
    · simp only [hm]
      rfl

/-- What is known about the nest of an addition. -/
structure CopiesSpec (pdtAdd : Datatype) (count : ℕ) (disp extent : ℤ) (C : Nest) : Prop where
  wf : C.Wf
  ends : C.Matches
  data : C.ElemsData
  size : (C.bytes 0).length = count * pdtAdd.size
  contiguous : pdtAdd.flags.contiguous = true → (pdtAdd.size : ℤ) = extent ∨ count < 2 →
    C.bytes 0 = run (disp + pdtAdd.trueLb) (count * pdtAdd.size)

lemma predefinedCopies_spec (h : pdtAdd.Basic) (hcount : count ≠ 0) :
    CopiesSpec pdtAdd count disp extent (predefinedCopies pdtAdd count disp extent) := by
  have hpos := Nat.pos_of_ne_zero hcount
  rw [predefinedCopies]
  by_cases hl : extent ≠ pdtAdd.size ∧ 1 < count
  · rw [if_pos hl]
    refine ⟨⟨hpos, by simp, ⟨Nat.one_pos, h.pos, trivial⟩, trivial⟩,
      ⟨fun hc => (by cases hc), trivial, trivial⟩, ⟨⟨h.data, trivial⟩, trivial⟩, ?_, ?_⟩
    · rw [bytes_loop, bytes_done, List.append_nil, length_stride (k := pdtAdd.size)]
      intro x
      rw [bytes_elem, bytes_done, List.append_nil, length_blocksBytes_elemBlocks, Nat.one_mul,
        h.size]
    · rintro - (hc | hc)
      · exact absurd hc.symm hl.1
      · omega
  · rw [if_neg hl]
    refine ⟨⟨hpos, h.pos, trivial⟩, trivial, ⟨h.data, trivial⟩, ?_, fun _ hd => ?_⟩
    · rw [bytes_elem, bytes_done, List.append_nil, length_blocksBytes_elemBlocks, h.size]
    · have hgap : ∀ e : ElemDesc, e.count = count → e.extent = extent →
          e.type = pdtAdd.id → ¬ e.Gapped := by
        rintro e hc he ht ⟨h₁, h₂⟩
        rw [he, ht, ← h.size] at h₂
        rcases hd with hd | hd
        · exact h₂ hd.symm
        · omega
      rw [bytes_elem, bytes_done, List.append_nil,
        ElemDesc.bytes_of_not_gapped (hgap _ rfl rfl rfl), h.size, h.trueLb, zero_add, add_zero]

lemma mergedCopies_spec {e : ElemDesc} (h : pdtAdd.Described (.elem e .done))
    (hext : extent = e.extent) (hcount : count ≠ 0) :
    CopiesSpec pdtAdd count disp extent
      (.elem { e with count := e.count * count, disp := e.disp + disp } .done) := by
  have hpos := Nat.pos_of_ne_zero hcount
  have hsize := h.size
  rw [bytes_elem, bytes_done, List.append_nil, length_blocksBytes_elemBlocks] at hsize
  refine ⟨⟨Nat.mul_pos h.wf.1 hpos, h.wf.2.1, trivial⟩, trivial, ⟨h.data.1, trivial⟩, ?_,
    fun hc hd => ?_⟩
  · rw [bytes_elem, bytes_done, List.append_nil, length_blocksBytes_elemBlocks, ← hsize]
    ring
  · have hrun := h.contiguous hc
    rw [bytes_elem, bytes_done, List.append_nil] at hrun
    -- a run of elements has no gaps between them
    have hgap : ¬ e.Gapped := by
      intro hg
      have hne := hg.not_starts h.wf.2.1 (n := pdtAdd.size) hsize.le 0 [] []
      rw [List.append_nil, List.append_nil, zero_add, hrun] at hne
      have hhead := h.wf.head?_bytes (by simp) 0
      rw [h.contiguous hc] at hhead
      obtain ⟨k, hk⟩ := Nat.exists_eq_succ_of_ne_zero (hsize ▸ (Nat.mul_pos h.wf.1 h.wf.2.1).ne')
      rw [hk, run, List.head?_cons, Nest.firstDisp, zero_add, Option.some.injEq] at hhead
      exact hne (by rw [hhead])
    have hfirst : e.disp = pdtAdd.trueLb := by
      rw [ElemDesc.bytes_of_not_gapped hgap, zero_add, hsize] at hrun
      have hspan := spans_run e.disp (hsize ▸ Nat.mul_pos h.wf.1 h.wf.2.1)
      rw [hrun] at hspan
      exact hspan.run_eq.1.symm
    have hgap' : ¬ ({ e with count := e.count * count, disp := e.disp + disp } : ElemDesc).Gapped := by
      rintro ⟨h₁, h₂⟩
      simp only at h₁ h₂
      rcases Nat.lt_or_ge 1 e.count with hn | hn
      · exact hgap ⟨hn, h₂⟩
      · obtain hn : e.count = 1 := by have := h.wf.1; omega
        rw [hn, Nat.one_mul] at h₁ hsize
        rcases hd with hd | hd
        · exact h₂ (by rw [← hext, ← hd, hsize])
        · omega
    rw [bytes_elem, bytes_done, List.append_nil, ElemDesc.bytes_of_not_gapped hgap', ← hsize,
      ← hfirst]
    congr 1
    · simp only
      ring
    · simp only
      ring

lemma derivedCopies_spec (h : pdtAdd.Described D) (hD : D ≠ .done) (hcount : count ≠ 0) :
    CopiesSpec pdtAdd count disp extent (derivedCopies pdtAdd D count disp extent) := by
  have hpos := Nat.pos_of_ne_zero hcount
  have hlen : ∀ x, ((D.shift disp).bytes x).length = pdtAdd.size := fun x => by
    rw [bytes_shift_eq, D.length_bytes, h.size]
  have hrun : pdtAdd.flags.contiguous = true → ∀ x,
      (D.shift disp).bytes x = run (x + (disp + pdtAdd.trueLb)) pdtAdd.size := fun hc x => by
    rw [bytes_shift_eq, D.bytes_eq_map, h.contiguous hc, map_add_run]
    congr 1
    ring
  rw [derivedCopies]
  by_cases hc : count ≠ 1
  · rw [if_pos hc]
    refine ⟨⟨hpos, shift_ne_done.mpr hD, h.wf.shift disp, trivial⟩,
      ⟨fun hcont => ?_, h.ends.shift disp, trivial⟩, ⟨h.data.shift disp, trivial⟩, ?_,
      fun hcont hd => ?_⟩
    · -- the end of the loop describes the added run
      have hhead := (h.wf.shift disp).head?_bytes (shift_ne_done.mpr hD) 0
      have hsize : 0 < pdtAdd.size := by
        rw [← hlen 0]
        exact (h.wf.shift disp).length_pos (shift_ne_done.mpr hD) 0
      obtain ⟨k, hk⟩ := Nat.exists_eq_succ_of_ne_zero hsize.ne'
      rw [hrun hcont, hk, run, List.head?_cons, zero_add, zero_add, Option.some.injEq] at hhead
      rw [hrun hcont, zero_add]
      exact congrArg (fun x => run x pdtAdd.size) hhead
    · rw [bytes_loop, bytes_done, List.append_nil, length_stride _ _ _ _ hlen]
    · have hext : (pdtAdd.size : ℤ) = extent := hd.resolve_right (by omega)
      rw [bytes_loop, bytes_done, List.append_nil]
      simp only
      rw [stride_congr _ _ _ (hrun hcont), ← hext,
        ← stride_add_right _ _ _ (fun x => run x pdtAdd.size), stride_run, zero_add]
  · obtain rfl : count = 1 := not_not.mp hc
    rw [if_neg hc]
    refine ⟨h.wf.shift disp, h.ends.shift disp, h.data.shift disp, ?_, fun hcont _ => ?_⟩
    · rw [hlen, Nat.one_mul]
    · rw [hrun hcont, zero_add, Nat.one_mul]

/-- **The nest of an addition** is well formed, and has the bytes of the copies. -/
lemma copies_spec (h : pdtAdd.Basic ∨ pdtAdd.flags.predefined = false ∧ pdtAdd.Described D ∧
    D ≠ .done) (hcount : count ≠ 0) (disp extent : ℤ) :
    CopiesSpec pdtAdd count disp extent (copies pdtAdd D count disp extent) := by
  rw [copies]
  rcases h with hb | ⟨hp, hd, hD⟩
  · rw [if_pos ⟨hb.predefined, hb.data⟩]
    exact predefinedCopies_spec hb hcount
  · rw [if_neg (by simp [hp])]
    rcases mergedEntry_cases hd count disp extent with
      hm | ⟨e, rfl, -, hext, hm⟩
    · simp only [hm]
      exact derivedCopies_spec hd hD hcount
    · simp only [hm]
      exact mergedCopies_spec hd hext hcount

end Copies

/-! ### Every built datatype has a description -/

section Described

variable {P : Datatype → Datatype → ℕ → ℤ → ℤ → Prop} {base pdtAdd dt dt' : Datatype}
  {as bs : List ℤ} {count : ℕ} {disp extent : ℤ}

lemma basic_predefined {t : TypeId} (h : (predefined t).size ≠ 0) : (predefined t).Basic := by
  cases t <;> first | exact absurd rfl h | exact ⟨rfl, rfl, rfl, by decide, rfl⟩

/-- A predefined type can only be resized. -/
lemma Built.basic (h : Built P dt as) (hp : dt.flags.predefined = true) (hsize : dt.size ≠ 0) :
    dt.Basic := by
  induction h with
  | predefined t => exact basic_predefined hsize
  | empty => exact absurd rfl hsize
  | create n => cases hp
  | add count disp extent _ hpre _ _ _ hadd ihb _ =>
      have hsame : ∀ {base dt : Datatype}, base.SameData dt → base.flags.predefined = false →
          dt.flags.predefined = true → False := fun h₁ h₂ h₃ => by
        rw [h₁.predefined, h₂] at h₃
        cases h₃
      cases Datatype.addCase_of_add hadd with
      | lb => exact (hsame (Datatype.sameData_addLb _ _) hpre hp).elim
      | ub => exact (hsame (Datatype.sameData_addUb _ _) hpre hp).elim
      | nothing => exact (hsame (Datatype.sameData_addBounds _ _ _ _ _) hpre hp).elim
      | data => exact absurd (hpre.symm.trans hp) (by decide)
  | resize lb extent _ ih =>
      obtain ⟨h₁, h₂, h₃, h₄, h₅⟩ := ih hp hsize
      exact ⟨h₁, h₂, h₃, h₄, h₅⟩
  | commit _ hpre hcommit _ =>
      rw [(Datatype.sameData_commit hcommit).predefined, hpre] at hp
      cases hp

/-- A description is kept by what leaves the entries, the size and the lower bound as they are. -/
lemma Datatype.SameData.described {D : Nest} (h : dt.SameData dt') (hd : dt.Described D)
    (hdesc : dt'.desc.desc.take dt'.desc.used = dt.desc.desc.take dt.desc.used)
    (hused : dt'.desc.used = dt.desc.used) : dt'.Described D where
  desc := hdesc.trans hd.desc
  used := hused.trans hd.used
  wf := hd.wf
  ends := hd.ends
  data := hd.data
  size := hd.size.trans h.size.symm
  contiguous := fun hc => by
    rw [h.trueLb, h.size]
    exact hd.contiguous (h.contiguous ▸ hc)

lemma Datatype.recheckGaps_desc (dt : Datatype) : dt.recheckGaps.desc = dt.desc := by
  rw [recheckGaps]
  split <;> rfl

/-- A commit keeps the description. -/
lemma Datatype.Described.of_commit {D : Nest} (hD : dt.Described D) (hcommit : dt.commit = some dt') :
    dt'.Described D := by
  refine (Datatype.sameData_commit hcommit).described hD ?_ ?_
  · obtain rfl | ⟨e, optDesc, rfl⟩ := Datatype.commit_cases hcommit
    · rfl
    · have hlen : (dt.desc.desc.take dt.desc.used).length = dt.desc.used := by
        rw [hD.desc, hD.used]
      exact (List.take_left' hlen :)
  · obtain rfl | ⟨e, optDesc, rfl⟩ := Datatype.commit_cases hcommit <;> rfl

/-- **Copies of a type** are described behind what is there. -/
lemma Datatype.Described.addData {D E : Nest} (hbase : base.Described D) (hm : base.Measured as)
    (hadd : pdtAdd.Measured bs)
    (hE : pdtAdd.Basic ∨ pdtAdd.flags.predefined = false ∧ pdtAdd.Described E ∧ E ≠ .done)
    (hcount : count ≠ 0) {placeNeeded : ℕ}
    (hm' : (base.addData pdtAdd count disp extent placeNeeded).Measured
      (as ++ copiesMap bs count disp extent)) :
    (base.addData pdtAdd count disp extent placeNeeded).Described
      (D ++ copies pdtAdd E count disp extent) := by
  have hC := copies_spec hE hcount disp extent
  have hentries := addEntries_eq base count disp extent
    (hE.imp (fun h => ⟨h.predefined, h.data⟩) And.right)
  have hused : (base.addData pdtAdd count disp extent placeNeeded).desc.used
      = (D ++ copies pdtAdd E count disp extent).flatten.length := by
    simp only [Datatype.addData, hentries, Nest.flatten_append, List.length_append, hbase.used]
  have hdesc : (base.addData pdtAdd count disp extent placeNeeded).desc.desc
      = (D ++ copies pdtAdd E count disp extent).flatten := by
    simp only [Datatype.addData, hentries, Nest.flatten_append, hbase.desc]
  refine ⟨?_, hused, wf_append.mpr ⟨hbase.wf, hC.wf⟩, matches_append.mpr ⟨hbase.ends, hC.ends⟩,
    elemsData_append.mpr ⟨hbase.data, hC.data⟩, ?_, fun hc => ?_⟩
  · rw [hdesc, hused, List.take_length]
  · rw [bytes_append, List.length_append, hbase.size, hC.size]
    rfl
  · have hc' := hc
    simp only [Datatype.addData, decide_eq_true_eq, Bool.and_eq_true] at hc'
    obtain ⟨⟨hcb, hca⟩, -, hext⟩ := hc'
    have hrun := hm'.contiguous hc
    rw [hadd.contiguous hca, copiesMap_run _ _ hext hcount, hm.contiguous hcb] at hrun
    rw [bytes_append, hbase.contiguous hcb, hC.contiguous hca hext, hrun]

/-- **Every built datatype that is not predefined has a description.** -/
theorem Built.described (h : Built P dt as) (hp : dt.flags.predefined = false) :
    ∃ D, dt.Described D := by
  induction h with
  | predefined t => cases t <;> cases hp
  | empty => cases hp
  | create n => exact ⟨.done, rfl, rfl, trivial, trivial, trivial, rfl, fun _ => rfl⟩
  | @add base pdtAdd dt as bs count disp extent hb hpre ha hfits hP hadd ihb iha =>
      obtain ⟨D, hD⟩ := ihb hpre
      have hdt : Built P dt (as ++ copiesMap bs count disp (addExtent pdtAdd extent)) :=
        .add count disp extent hb hpre ha hfits hP hadd
      cases Datatype.addCase_of_add hadd with
      | lb =>
          have hkeep := Datatype.recheckGaps_desc
          exact ⟨D, (base.sameData_addLb disp).described hD (by rw [Datatype.addLb, hkeep])
            (by rw [Datatype.addLb, hkeep])⟩
      | ub =>
          have hkeep := Datatype.recheckGaps_desc
          exact ⟨D, (base.sameData_addUb disp).described hD (by rw [Datatype.addUb, hkeep])
            (by rw [Datatype.addUb, hkeep])⟩
      | nothing => exact ⟨D, (base.sameData_addBounds pdtAdd count disp _).described hD rfl rfl⟩
      | data placeNeeded hcount hsize =>
          have hbounds := base.sameData_addBounds pdtAdd count disp (addExtent pdtAdd extent)
          have hE : ∃ E, pdtAdd.Basic ∨
              pdtAdd.flags.predefined = false ∧ pdtAdd.Described E ∧ E ≠ .done := by
            cases hpa : pdtAdd.flags.predefined with
            | true => exact ⟨.done, Or.inl (ha.basic hpa hsize)⟩
            | false =>
                obtain ⟨E, hE⟩ := iha hpa
                refine ⟨E, Or.inr ⟨rfl, hE, ?_⟩⟩
                rintro rfl
                exact hsize hE.size.symm
          obtain ⟨E, hE⟩ := hE
          exact ⟨_, (hbounds.described hD rfl rfl).addData (hbounds.measured hb.measured)
            ha.measured hE hcount hdt.measured⟩
  | @resize dt as lb extent _ ih =>
      obtain ⟨D, hD⟩ := ih hp
      exact ⟨D, (dt.sameData_resize extent lb).described hD rfl rfl⟩
  | @commit dt dt' as _ hpre hcommit ih =>
      obtain ⟨D, hD⟩ := ih hpre
      exact ⟨D, hD.of_commit hcommit⟩

lemma Datatype.Described.unique {D E : Nest} (hD : dt.Described D) (hE : dt.Described E) :
    D = E :=
  flatten_injective (hD.desc.symm.trans hE.desc)

/-- **Induction on the history of a description**: what holds of a new datatype, and is kept by
everything that leaves the data as it is and by copies of a type, holds of every built datatype
with its description. -/
theorem Built.described_induction {Q : Datatype → Nest → Prop}
    (create : ∀ expectedSize, Q (Datatype.create expectedSize) .done)
    (same : ∀ {dt dt' : Datatype} {D : Nest}, dt.SameData dt' → Q dt D → Q dt' D)
    (add : ∀ {base pdtAdd : Datatype} {D E : Nest} {count placeNeeded : ℕ} {disp extent : ℤ},
      P base pdtAdd count disp extent → base.Described D → Q base D →
      (pdtAdd.Basic ∨ pdtAdd.flags.predefined = false ∧ pdtAdd.Described E ∧ E ≠ .done ∧
        Q pdtAdd E) → count ≠ 0 →
      Q ((base.addBounds pdtAdd count disp (addExtent pdtAdd extent)).addData pdtAdd count disp
          (addExtent pdtAdd extent) placeNeeded)
        (D ++ copies pdtAdd E count disp (addExtent pdtAdd extent)))
    (h : Built P dt as) (hp : dt.flags.predefined = false) {D : Nest} (hD : dt.Described D) :
    Q dt D := by
  induction h generalizing D with
  | predefined t => cases t <;> cases hp
  | empty => cases hp
  | create n =>
      have hdone : (Datatype.create n).Described .done :=
        ⟨rfl, rfl, trivial, trivial, trivial, rfl, fun _ => rfl⟩
      exact hD.unique hdone ▸ create n
  | @add base pdtAdd dt as bs count disp extent hb hpre ha hfits hP hadd ihb iha =>
      obtain ⟨D₀, hD₀⟩ := hb.described hpre
      have hkeep := Datatype.recheckGaps_desc
      have hdt : Built P dt (as ++ copiesMap bs count disp (addExtent pdtAdd extent)) :=
        .add count disp extent hb hpre ha hfits hP hadd
      cases Datatype.addCase_of_add hadd with
      | lb =>
          have hsame := base.sameData_addLb disp
          obtain rfl := hD.unique (hsame.described hD₀ (by rw [Datatype.addLb, hkeep])
            (by rw [Datatype.addLb, hkeep]))
          exact same hsame (ihb hpre hD₀)
      | ub =>
          have hsame := base.sameData_addUb disp
          obtain rfl := hD.unique (hsame.described hD₀ (by rw [Datatype.addUb, hkeep])
            (by rw [Datatype.addUb, hkeep]))
          exact same hsame (ihb hpre hD₀)
      | nothing =>
          have hsame := base.sameData_addBounds pdtAdd count disp (addExtent pdtAdd extent)
          obtain rfl := hD.unique (hsame.described hD₀ rfl rfl)
          exact same hsame (ihb hpre hD₀)
      | data placeNeeded hcount hsize =>
          have hsame := base.sameData_addBounds pdtAdd count disp (addExtent pdtAdd extent)
          obtain ⟨E, hE⟩ : ∃ E, pdtAdd.Basic ∨
              pdtAdd.flags.predefined = false ∧ pdtAdd.Described E ∧ E ≠ .done ∧ Q pdtAdd E := by
            cases hpa : pdtAdd.flags.predefined with
            | true => exact ⟨.done, Or.inl (ha.basic hpa hsize)⟩
            | false =>
                obtain ⟨E, hE⟩ := ha.described hpa
                refine ⟨E, Or.inr ⟨rfl, hE, ?_, iha hpa hE⟩⟩
                rintro rfl
                exact hsize hE.size.symm
          obtain rfl := hD.unique ((hsame.described hD₀ rfl rfl).addData (hsame.measured hb.measured)
            ha.measured (hE.imp_right fun h => ⟨h.1, h.2.1, h.2.2.1⟩) hcount hdt.measured)
          exact add hP hD₀ (ihb hpre hD₀) hE hcount
  | @resize dt as lb extent hb ih =>
      obtain ⟨D₀, hD₀⟩ := hb.described hp
      have hsame := dt.sameData_resize extent lb
      obtain rfl := hD.unique (hsame.described hD₀ rfl rfl)
      exact same hsame (ih hp hD₀)
  | @commit dt dt' as hb hpre hcommit ih =>
      obtain ⟨D₀, hD₀⟩ := hb.described hpre
      obtain rfl := hD.unique (hD₀.of_commit hcommit)
      exact same (Datatype.sameData_commit hcommit) (ih hpre hD₀)

/-- What `ocoms_datatype_commit` makes of a description. -/
structure Datatype.Commits (D : Nest) (dt dt' : Datatype) : Prop where
  described : dt'.Described D
  desc : ∃ fake, dt'.desc.desc = D.desc fake
  opt : dt'.optDesc.desc.take dt'.optDesc.used = (D.optimized none).flatten
  optUsed : dt'.optDesc.used = (D.optimized none).flatten.length
  optDesc : D ≠ .done → ∃ fake, dt'.optDesc.desc = (D.optimized none).desc fake

/-- **The commit of a described datatype** succeeds, and writes the optimized nest. -/
lemma Datatype.Described.commit {D : Nest} (h : dt.Described D)
    (hc : dt.flags.commited = false) :
    ∃ dt', dt.commit = some dt' ∧ Commits D dt dt' := by
  have hlen : D.flatten.length = dt.desc.used := h.used.symm
  rw [Datatype.commit, hc, h.desc]
  simp only [Bool.false_eq_true, if_false]
  set fake := fakeEndLoop dt.desc.used
    (if dt.size ≠ 0 then (D.flatten[getFirstNonLoop D.flatten]?.map DtElemDesc.disp).getD 0 else 0)
    dt.size
  by_cases hused : dt.desc.used = 0
  · obtain rfl : D = .done := by
      cases D with
      | done => rfl
      | elem e r => simp [h.used, Nest.flatten] at hused
      | loop l b r => simp [h.used, Nest.flatten] at hused
    refine ⟨_, if_pos hused, ⟨?_, h.used, trivial, trivial, trivial, h.size, h.contiguous⟩,
      ⟨fake, rfl⟩, rfl, rfl, fun h => absurd rfl h⟩
    simp [hused, Nest.flatten]
  · obtain ⟨e, he⟩ := optimizeShort_eq h.wf h.ends h.data fake { dt with
      flags := { dt.flags with commited := true }
      desc := { dt.desc with desc := D.flatten ++ [.endLoop fake] } } rfl
    rw [if_neg hused, he]
    have hplain : (D.flatten ++ [DtElemDesc.endLoop fake]).take dt.desc.used = D.flatten :=
      List.take_left' hlen
    by_cases hopt : (D.optimized none).flatten.length ≠ 0
    · refine ⟨_, rfl, ⟨hplain, h.used, h.wf, h.ends, h.data, h.size, h.contiguous⟩, ⟨fake, rfl⟩, ?_,
        ?_, fun _ => ?_⟩
      · simp [hopt, List.take_left']
      · simp [hopt]
      · simp [hopt, List.take_left', Nest.desc]
    · refine ⟨_, rfl, ⟨hplain, h.used, h.wf, h.ends, h.data, h.size, h.contiguous⟩, ⟨fake, rfl⟩, ?_,
        ?_, fun _ => ⟨e, ?_⟩⟩
      · simp [hopt, List.take_left']
      · simp [hopt]
      · simp [hopt, Nest.desc]

end Described

/-! ### Committed datatypes -/

/-- The committed datatypes, with their typemaps: the predefined types that the platform has, built
datatypes after their commit, and resized ones. -/
inductive Committed : Datatype → List ℤ → Prop
  | predefined (t : TypeId) : basicSize t ≠ 0 → Committed (predefined t) (run 0 (basicSize t))
  | commit {dt dt' : Datatype} {as : List ℤ} :
      Built Unrestricted dt as → dt.flags.predefined = false → dt.flags.commited = false →
      dt.commit = some dt' → Committed dt' as
  | resize {dt : Datatype} {as : List ℤ} (lb extent : ℤ) :
      Committed dt as → Committed (dt.resize lb extent) as

section Committed

variable {dt : Datatype} {as : List ℤ}

lemma Committed.built (h : Committed dt as) : Built Unrestricted dt as := by
  induction h with
  | predefined t _ => exact .predefined t
  | commit hb hp _ hcommit => exact .commit hb hp hcommit
  | resize lb extent _ ih => exact .resize lb extent ih

/-- A derived type stays `CONTIGUOUS` until data is added. -/
lemma Built.contiguous_of_size {P : Datatype → Datatype → ℕ → ℤ → ℤ → Prop} (h : Built P dt as)
    (hp : dt.flags.predefined = false) (hsize : dt.size = 0) : dt.flags.contiguous = true := by
  have hkeep : ∀ {dt dt' : Datatype}, dt.SameData dt' →
      (dt.size = 0 → dt.flags.contiguous = true) → dt'.size = 0 → dt'.flags.contiguous = true :=
    fun hsame h hsize => by rw [hsame.contiguous, h (hsame.size ▸ hsize)]
  induction h with
  | predefined t => cases t <;> cases hp
  | empty => cases hp
  | create n => rfl
  | @add base pdtAdd dt as bs count disp extent _ hpre _ _ _ hadd ihb _ =>
      cases Datatype.addCase_of_add hadd with
      | lb => exact hkeep (base.sameData_addLb disp) (ihb hpre) hsize
      | ub => exact hkeep (base.sameData_addUb disp) (ihb hpre) hsize
      | nothing =>
          exact hkeep (base.sameData_addBounds pdtAdd count disp _) (ihb hpre) hsize
      | data placeNeeded hcount hsizeAdd =>
          have hpos := Nat.mul_ne_zero hcount hsizeAdd
          simp only [Datatype.addData, Nat.add_eq_zero_iff] at hsize
          exact absurd hsize.2 hpos
  | @resize dt as lb extent _ ih => exact hkeep (dt.sameData_resize extent lb) (ih hp) hsize
  | commit _ hpre hcommit ih => exact hkeep (Datatype.sameData_commit hcommit) (ih hpre) hsize

/-- What a commit makes of a description is kept when the datatype is resized. -/
lemma Datatype.Commits.resize {D : Nest} {dt₀ : Datatype} (h : Commits D dt₀ dt) (lb extent : ℤ) :
    Commits D dt₀ (dt.resize lb extent) where
  described := (dt.sameData_resize extent lb).described h.described rfl rfl
  desc := h.desc
  opt := h.opt
  optUsed := h.optUsed
  optDesc := h.optDesc

/-- **A committed datatype is predefined, or has the two descriptions of a commit.** -/
lemma Committed.cases (h : Committed dt as) :
    dt.Basic ∧ dt.flags.contiguous = true ∨ dt.flags.predefined = false ∧ ∃ dt₀ D, Datatype.Commits D dt₀ dt := by
  induction h with
  | predefined t ht =>
      refine Or.inl ⟨basic_predefined fun h => ht (by rw [← h]; cases t <;> rfl), ?_⟩
      cases t <;> first | rfl | exact absurd rfl ht
  | commit hb hp hc hcommit =>
      obtain ⟨D, hD⟩ := hb.described hp
      obtain ⟨dt', hcommit', hcommits⟩ := hD.commit hc
      obtain rfl := Option.some.inj (hcommit.symm.trans hcommit')
      exact Or.inr ⟨(Datatype.sameData_commit hcommit).predefined.trans hp, _, D, hcommits⟩
  | resize lb extent _ ih =>
      rcases ih with ⟨⟨h₁, h₂, h₃, h₄, h₅⟩, hc⟩ | ⟨hp, dt₀, D, hD⟩
      · exact Or.inl ⟨⟨h₁, h₂, h₃, h₄, h₅⟩, hc⟩
      · exact Or.inr ⟨hp, dt₀, D, hD.resize lb extent⟩

/-- One that is not `CONTIGUOUS` has elements, and both descriptions. -/
lemma Committed.commits (h : Committed dt as) (hc : dt.flags.contiguous = false) :
    ∃ dt₀ D, Datatype.Commits D dt₀ dt ∧ D ≠ .done := by
  rcases h.cases with ⟨-, hcont⟩ | ⟨hp, dt₀, D, hD⟩
  · rw [hc] at hcont
    cases hcont
  · refine ⟨dt₀, D, hD, ?_⟩
    rintro rfl
    have hcont := h.built.contiguous_of_size hp hD.described.size.symm
    rw [hc] at hcont
    cases hcont

end Committed

end Ocoms
