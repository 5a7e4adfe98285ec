import Ocoms.Datatype.Description

/-!
The description that `ocoms_datatype_add` builds, and the typemap of the datatype.

* `Datatype.DescribesMap dt as` says that the entries of the description name the bytes of the
  typemap `as`, in order.
* `KeepsPlaces` is the condition on an addition: copies that are merged into the one entry of the
  added type stay where they are.
* `copies_bytes_iff` says that the entries of an addition name the bytes of its copies exactly
  then, and `Built.describesMap` that a history of such additions describes its typemap.
* `add_describesMap_iff` is about the next addition of such a history.
-/

namespace Ocoms

open Layout Nest

/-- The entries of the description name the bytes of the typemap `as`, in order. -/
def Datatype.DescribesMap (dt : Datatype) (as : List ℤ) : Prop :=
  ∃ D : Nest, dt.Described D ∧ D.bytes 0 = as

/-- **The places of an addition**: where the one entry of a derived type stands for all its copies,
it has one element, there is one copy, or all copies are at the same place. -/
def KeepsPlaces (_base pdtAdd : Datatype) (count : ℕ) (_disp extent : ℤ) : Prop :=
  pdtAdd.flags.predefined = false →
    ∀ e, pdtAdd.desc.desc.take pdtAdd.desc.used = [.elem e] →
      addExtent pdtAdd extent = pdtAdd.ub - pdtAdd.lb → addExtent pdtAdd extent = e.extent →
        e.count = 1 ∨ count ≤ 1 ∨ addExtent pdtAdd extent = 0

/-! ### Copies of copies -/

section Copies

variable {pdtAdd : Datatype} {D : Nest} {bs : List ℤ} {count : ℕ} {disp extent : ℤ}

/-- Copies of `m` rounds, `extent` apart like the rounds, are all the rounds only if there is one
copy, one round, or nothing between them. -/
lemma stride_stride_eq_iff {α : Type*} {f : ℤ → List α} {k : ℕ} (hk : ∀ x, (f x).length = k)
    (hinj : ∀ x y, f x = f y → x = y) {m n : ℕ} (hm : m ≠ 0) (d : ℤ) :
    stride (n * m) extent f d = stride n extent (fun x => stride m extent f x) d ↔
      m = 1 ∨ n ≤ 1 ∨ extent = 0 := by
  rw [stride_mul]
  have hlen : ∀ x, (stride m extent f x).length = m * k := fun x => length_stride _ _ _ _ hk
  constructor
  · intro h
    by_contra! hne
    obtain ⟨hm1, hn, hext⟩ := hne
    -- the second copy is in both behind the first one
    obtain ⟨j, rfl⟩ : ∃ j, n = j + 2 := ⟨n - 2, by omega⟩
    rw [stride_succ, stride_succ, stride_succ, stride_succ] at h
    have hsecond := (List.append_inj (List.append_cancel_left h) (by rw [hlen, hlen])).1
    obtain ⟨i, rfl⟩ := Nat.exists_eq_succ_of_ne_zero hm
    rw [stride_succ, stride_succ] at hsecond
    have hstart := hinj _ _ (List.append_inj hsecond (by rw [hk, hk])).1
    have hfar : ((i + 1 : ℕ) : ℤ) * extent = 1 * extent := by linarith
    exact hm1 (by exact_mod_cast mul_right_cancel₀ hext hfar)
  · rintro (rfl | hn | rfl)
    · rw [Nat.cast_one, one_mul]
    · interval_cases n
      · rfl
      · rw [stride_one, stride_one]
    · rw [mul_zero]

/-- Runs of the same length that are equal start at the same address. -/
lemma run_injective {n : ℕ} (hn : 0 < n) {x y : ℤ} (h : run x n = run y n) : x = y := by
  obtain ⟨k, rfl⟩ := Nat.exists_eq_succ_of_ne_zero hn.ne'
  exact (List.cons.inj h).1

/-- The copies of a typemap that a nest names. -/
lemma copiesMap_bytes (D : Nest) (count : ℕ) (disp extent : ℤ) :
    copiesMap (D.bytes 0) count disp extent = stride count extent D.bytes disp :=
  stride_congr _ _ _ fun x => (D.bytes_eq_map x).symm

/-- The bytes of a single entry. -/
lemma bytes_single (e : ElemDesc) (d : ℤ) :
    (elem e done).bytes d
      = stride e.count e.extent (fun x => run (x + e.disp) (basicSize e.type)) d := by
  rw [bytes_elem, bytes_done, List.append_nil, blocksBytes_elemBlocks, stride_add_right]

/-- The same of an entry that is moved. -/
lemma bytes_moved (e : ElemDesc) (n : ℕ) (x : ℤ) :
    (elem { e with count := n, disp := e.disp + x } done).bytes 0
      = stride n e.extent (fun y => run (y + e.disp) (basicSize e.type)) x := by
  have hmove : ∀ y, run (y + (e.disp + x)) (basicSize e.type)
      = run (y + x + e.disp) (basicSize e.type) := fun y => by
    rw [add_comm e.disp x, add_assoc]
  rw [bytes_single, stride_congr _ _ _ hmove,
    ← stride_add_right _ _ _ (fun y => run (y + e.disp) (basicSize e.type)), zero_add]

/-- Copies of a predefined type. -/
lemma predefinedCopies_bytes (pdtAdd : Datatype) (count : ℕ) (disp extent : ℤ) :
    (predefinedCopies pdtAdd count disp extent).bytes 0
      = copiesMap (run 0 (basicSize pdtAdd.id)) count disp extent := by
  have hround : ∀ x, (run 0 (basicSize pdtAdd.id)).map (· + x) = run x (basicSize pdtAdd.id) :=
    fun x => by rw [map_add_run, zero_add]
  rw [copiesMap, stride_congr _ _ _ hround, predefinedCopies]
  by_cases hl : extent ≠ pdtAdd.size ∧ 1 < count
  · have hone : ∀ e : ElemDesc, e.count = 1 → ∀ x,
        (elem e done).bytes x = run (x + e.disp) (basicSize e.type) := fun e he x => by
      rw [bytes_single, he, stride_one]
    rw [if_pos hl, bytes_loop, bytes_done, List.append_nil, stride_congr _ _ _ (hone _ rfl),
      ← stride_add_right _ _ _ (fun x => run x (basicSize pdtAdd.id)), zero_add]
  · rw [if_neg hl, bytes_single, ← stride_add_right _ _ _ (fun x => run x _), zero_add]

/-- Copies of a derived type whose entries are kept. -/
lemma derivedCopies_bytes (pdtAdd : Datatype) (D : Nest) (count : ℕ) (disp extent : ℤ) :
    (derivedCopies pdtAdd D count disp extent).bytes 0
      = copiesMap (D.bytes 0) count disp extent := by
  rw [copiesMap_bytes, derivedCopies]
  by_cases hc : count ≠ 1
  · rw [if_pos hc, bytes_loop, bytes_done, List.append_nil]
    rw [stride_congr _ _ _ (D.bytes_shift_eq disp), ← stride_add_right, zero_add]
  · obtain rfl : count = 1 := not_not.mp hc
    rw [if_neg hc, bytes_shift_eq, zero_add, stride_one]

/-- **The entries of an addition** name the bytes of its copies exactly if the copies keep their
places. -/
lemma copies_bytes_iff (base : Datatype) (hE : pdtAdd.Basic ∧ bs = run 0 (basicSize pdtAdd.id) ∨
    pdtAdd.flags.predefined = false ∧ pdtAdd.Described D ∧ D ≠ .done ∧ bs = D.bytes 0)
    (count : ℕ) (disp extent : ℤ) :
    (copies pdtAdd D count disp (addExtent pdtAdd extent)).bytes 0
        = copiesMap bs count disp (addExtent pdtAdd extent) ↔
      KeepsPlaces base pdtAdd count disp extent := by
  set ext := addExtent pdtAdd extent with hext
  rcases hE with ⟨hb, rfl⟩ | ⟨hp, hd, -, rfl⟩
  · rw [copies, if_pos ⟨hb.predefined, hb.data⟩]
    refine iff_of_true (predefinedCopies_bytes pdtAdd count disp ext) fun hp => ?_
    rw [hb.predefined] at hp
    cases hp
  · rw [copies, if_neg (by simp [hp])]
    rcases mergedEntry_cases hd count disp ext with hm | ⟨e, rfl, hub, he, hm⟩
    · simp only [hm]
      refine iff_of_true (derivedCopies_bytes pdtAdd D count disp ext) fun _ e hdesc hub he => ?_
      rw [mergedEntry, hdesc] at hm
      exact absurd ((if_pos ⟨hub, he⟩).symm.trans hm) (Option.some_ne_none _)
    · simp only [hm]
      have hsize := hd.wf.2.1
      have hcount : e.count ≠ 0 := hd.wf.1.ne'
      rw [bytes_moved, copiesMap_bytes, stride_congr _ _ _ (bytes_single e), Nat.mul_comm, he,
        stride_stride_eq_iff (fun x => length_run _ _) (fun x y h => ?_) hcount]
      · constructor
        · rintro h - e' hdesc - -
          rw [hd.desc] at hdesc
          obtain rfl : e = e' := by simpa [flatten] using hdesc
          rwa [← hext, he]
        · intro h
          have := h hp e hd.desc hub he
          rwa [← hext, he] at this
      · have := run_injective hsize h
        omega

end Copies

/-! ### Histories -/

section History

variable {P : Datatype → Datatype → ℕ → ℤ → ℤ → Prop} {base pdtAdd dt dt' : Datatype}
  {as bs : List ℤ} {count : ℕ} {disp extent : ℤ}

lemma Datatype.DescribesMap.bytes_eq (h : dt.DescribesMap as) {D : Nest} (hD : dt.Described D) :
    D.bytes 0 = as := by
  obtain ⟨E, hE, hbytes⟩ := h
  rwa [hD.unique hE]

/-- A predefined type that is added with data has the typemap of the platform's. -/
lemma Built.map_of_basic (h : Built P dt as) (hb : dt.Basic) : as = run 0 (basicSize dt.id) := by
  induction h with
  | predefined t => cases t <;> rfl
  | empty => exact absurd hb.pos (by rw [← hb.size]; decide)
  | create n => cases hb.predefined
  | add count disp extent _ hpre _ _ _ hadd _ _ =>
      have hkeep := hb.predefined
      cases Datatype.addCase_of_add hadd with
      | lb => rw [(Datatype.sameData_addLb _ _).predefined, hpre] at hkeep; cases hkeep
      | ub => rw [(Datatype.sameData_addUb _ _).predefined, hpre] at hkeep; cases hkeep
      | nothing => rw [(Datatype.sameData_addBounds _ _ _ _ _).predefined, hpre] at hkeep; cases hkeep
      | data => exact absurd (hpre.symm.trans hkeep) (by decide)
  | resize lb extent _ ih => exact ih ⟨hb.1, hb.2, hb.3, hb.4, hb.5⟩
  | commit _ hpre hcommit _ =>
      have hkeep := hb.predefined
      rw [(Datatype.sameData_commit hcommit).predefined, hpre] at hkeep
      cases hkeep

/-- A history under a weaker condition. -/
lemma Built.mono {Q : Datatype → Datatype → ℕ → ℤ → ℤ → Prop}
    (hPQ : ∀ base pdtAdd count disp extent, P base pdtAdd count disp extent →
      Q base pdtAdd count disp extent) (h : Built P dt as) : Built Q dt as := by
  induction h with
  | predefined t => exact .predefined t
  | empty => exact .empty
  | create n => exact .create n
  | add count disp extent _ hpre _ hfits hP hadd ihb iha =>
      exact .add count disp extent ihb hpre iha hfits (hPQ _ _ _ _ _ hP) hadd
  | resize lb extent _ ih => exact .resize lb extent ih
  | commit _ hpre hcommit ih => exact .commit ih hpre hcommit

lemma Built.unrestricted (h : Built P dt as) : Built Unrestricted dt as :=
  h.mono fun _ _ _ _ _ _ => trivial

/-- **The next addition** describes the typemap of both exactly if its copies keep their places. -/
lemma Datatype.DescribesMap.add_iff (hbase : base.DescribesMap as) (hb : Built P base as)
    (hpre : base.flags.predefined = false) (ha : Built P pdtAdd bs)
    (hadd : pdtAdd.flags.predefined = false → pdtAdd.DescribesMap bs)
    (hfits : AddFits pdtAdd count disp extent) (h : base.add pdtAdd count disp extent = some dt) :
    dt.DescribesMap (as ++ copiesMap bs count disp (addExtent pdtAdd extent)) ↔
      KeepsPlaces base pdtAdd count disp extent := by
  obtain ⟨D, hD, rfl⟩ := hbase
  have hm := ha.measured
  -- markers and additions of nothing leave the entries and the typemap as they are
  have hkeep : (count = 0 ∨ bs = []) → ∀ {dt' : Datatype}, dt'.Described D →
      (dt'.DescribesMap (D.bytes 0 ++ copiesMap bs count disp (addExtent pdtAdd extent)) ↔
        KeepsPlaces base pdtAdd count disp extent) := fun hnone dt' hdt' => by
    rw [copiesMap_of_nothing hnone, List.append_nil]
    refine iff_of_true ⟨D, hdt', rfl⟩ fun hp e hdesc _ _ => ?_
    rcases hnone with rfl | rfl
    · exact Or.inr (Or.inl (Nat.zero_le 1))
    · obtain ⟨E, hE, hbytes⟩ := hadd hp
      obtain rfl : E = elem e done := flatten_injective (hE.desc.symm.trans hdesc)
      have hpos := hE.wf.length_pos (by simp) 0
      rw [hbytes] at hpos
      cases hpos
  cases Datatype.addCase_of_add h with
  | lb hid =>
      exact hkeep (Or.inr (hm.marker (Or.inl hid))) ((base.sameData_addLb disp).described hD
        (by rw [Datatype.addLb, Datatype.recheckGaps_desc])
        (by rw [Datatype.addLb, Datatype.recheckGaps_desc]))
  | ub hid =>
      exact hkeep (Or.inr (hm.marker (Or.inr hid))) ((base.sameData_addUb disp).described hD
        (by rw [Datatype.addUb, Datatype.recheckGaps_desc])
        (by rw [Datatype.addUb, Datatype.recheckGaps_desc]))
  | nothing h0 =>
      exact hkeep (h0.imp_right fun h => List.eq_nil_of_length_eq_zero (hm.size ▸ h))
        ((base.sameData_addBounds pdtAdd count disp _).described hD rfl rfl)
  | data placeNeeded hcount hsize =>
      obtain ⟨E, hE⟩ : ∃ E : Nest, pdtAdd.Basic ∧ bs = run 0 (basicSize pdtAdd.id) ∨
          pdtAdd.flags.predefined = false ∧ pdtAdd.Described E ∧ E ≠ .done ∧ bs = E.bytes 0 := by
        cases hp : pdtAdd.flags.predefined with
        | true =>
            have hbasic := ha.basic hp hsize
            exact ⟨.done, Or.inl ⟨hbasic, ha.map_of_basic hbasic⟩⟩
        | false =>
            obtain ⟨E, hE, hbytes⟩ := hadd hp
            refine ⟨E, Or.inr ⟨rfl, hE, ?_, hbytes.symm⟩⟩
            rintro rfl
            exact hsize hE.size.symm
      have hsame := base.sameData_addBounds pdtAdd count disp (addExtent pdtAdd extent)
      have hdt := (hsame.described hD rfl rfl).addData (hsame.measured hb.measured) hm
        (hE.imp And.left fun h => ⟨h.1, h.2.1, h.2.2.1⟩) hcount
        (Built.add count disp extent hb.unrestricted hpre ha.unrestricted hfits trivial h).measured
      rw [← copies_bytes_iff base hE count disp extent]
      constructor
      · intro hmap
        have hbytes := hmap.bytes_eq hdt
        rw [bytes_append] at hbytes
        exact List.append_cancel_left hbytes
      · intro hbytes
        exact ⟨_, hdt, by rw [bytes_append, hbytes]⟩

/-- **A history of additions that keep their places** describes its typemap. -/
lemma Built.describesMap (h : Built KeepsPlaces dt as) (hp : dt.flags.predefined = false) :
    dt.DescribesMap as := by
  induction h with
  | predefined t => cases t <;> cases hp
  | empty => cases hp
  | create n => exact ⟨.done, ⟨rfl, rfl, trivial, trivial, trivial, rfl, fun _ => rfl⟩, rfl⟩
  | add count disp extent hb hpre ha hfits hkeeps hadd ihb iha =>
      exact ((ihb hpre).add_iff hb hpre ha iha hfits hadd).mpr hkeeps
  | @resize dt as lb extent _ ih =>
      obtain ⟨D, hD, hbytes⟩ := ih hp
      exact ⟨D, (dt.sameData_resize extent lb).described hD rfl rfl, hbytes⟩
  | commit _ hpre hcommit ih =>
      obtain ⟨D, hD, hbytes⟩ := ih hpre
      exact ⟨D, hD.of_commit hcommit, hbytes⟩

end History

/-- Two `INT4` that are given the extent of one. -/
def twoInt4In4 : Datatype :=
  (((Datatype.create none).add (predefined .int4) 2 0 (-1)).getD emptyDatatype).resize 0 4

lemma built_twoInt4In4 : Built KeepsPlaces twoInt4In4 [0, 1, 2, 3, 4, 5, 6, 7] :=
  .resize 0 4 (.add 2 0 (-1) (.create none) rfl (.predefined .int4) (fun _ _ => by decide)
    (fun hp => by cases hp) rfl)

end Ocoms
