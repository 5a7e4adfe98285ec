import Ocoms.Datatype.GetCount

/-!
The census of a datatype: `btypes` counts the elements of each type, `bdt_used` says which types there
are.

* `Nest.types` are the types of a typemap in order. `count_types_copies` counts them in what an
  addition appends, `btypes_addData` is what the code makes of the counters.
* `Built.btypes_eq` compares both over the history of a datatype, `sum_btypes` adds up sizes.
-/

namespace Ocoms

open Nest

/-! ### The types of a nest -/

/-- The types of the elements, in order. -/
def Nest.types (t : Nest) : List TypeId := (t.blocks 0).map Block.type

lemma map_type_elemBlocks (e : ElemDesc) (n : ℕ) (d : ℤ) :
    (elemBlocks e n d).map Block.type = List.replicate n e.type := by
  refine List.eq_replicate_iff.mpr ⟨by simp, fun x hx => ?_⟩
  obtain ⟨b, hb, rfl⟩ := List.mem_map.mp hx
  exact type_of_mem_elemBlocks hb

lemma Nest.map_type_blocks (t : Nest) (d : ℤ) : (t.blocks d).map Block.type = t.types := by
  rw [types, ← zero_add d, blocks_shift, List.map_map]
  rfl

@[simp] lemma Nest.types_done : types done = [] := rfl

@[simp] lemma Nest.types_elem (e : ElemDesc) (r : Nest) :
    (elem e r).types = List.replicate e.count e.type ++ r.types := by
  rw [types, blocks, List.map_append, map_type_elemBlocks, map_type_blocks]

lemma Nest.map_type_stride (t : Nest) (n : ℕ) (extent d : ℤ) :
    (Layout.stride n extent t.blocks d).map Block.type = (List.replicate n t.types).flatten := by
  induction n generalizing d with
  | zero => rfl
  | succ n ih =>
      rw [Layout.stride_succ, List.map_append, ih, map_type_blocks, List.replicate_succ,
        List.flatten_cons]

@[simp] lemma Nest.types_loop (l : LoopInfo) (b r : Nest) :
    (loop l b r).types = (List.replicate l.loops b.types).flatten ++ r.types := by
  rw [types, blocks, List.map_append, map_type_stride, map_type_blocks]

lemma Nest.types_append (s t : Nest) : (s ++ t).types = s.types ++ t.types := by
  rw [types, blocks_append, List.map_append]
  rfl

lemma Nest.types_shift (x : ℤ) (t : Nest) : (t.shift x).types = t.types := by
  rw [types, blocks_shift_eq, map_type_blocks]

lemma count_flatten_replicate (t : TypeId) (n : ℕ) (xs : List TypeId) :
    (List.replicate n xs).flatten.count t = n * xs.count t := by
  rw [List.count_flatten, List.map_replicate, List.sum_replicate, smul_eq_mul]

/-- Elements have a size. -/
lemma Nest.Wf.size_types {D : Nest} (h : D.Wf) : ∀ t ∈ D.types, 0 < basicSize t := by
  intro t ht
  obtain ⟨b, hb, rfl⟩ := List.mem_map.mp ht
  exact h.sizes_pos _ (List.mem_map_of_mem (f := Block.len) hb)

lemma mem_firstTypes {t : TypeId} (h : 0 < basicSize t) : t ∈ TypeId.firstTypes := by
  cases t <;> first | decide | exact absurd h (by decide)

/-! ### What an addition counts -/

section Addition

variable {pdtAdd : Datatype} {count : ℕ} {disp extent : ℤ} {t : TypeId}

/-- The elements of a type in an addition. -/
lemma count_types_copies {E : Nest} (h : pdtAdd.Basic ∨ pdtAdd.flags.predefined = false ∧
    pdtAdd.Described E ∧ E ≠ .done) :
    (Nest.copies pdtAdd E count disp extent).types.count t
      = count * if pdtAdd.flags.predefined then (if t = pdtAdd.id then 1 else 0)
        else E.types.count t := by
  rw [Nest.copies]
  rcases h with hb | ⟨hp, hd, -⟩
  · have hone : ∀ n, (List.replicate n pdtAdd.id).count t = n * if t = pdtAdd.id then 1 else 0 := by
      intro n
      rw [List.count_replicate]
      by_cases ht : t = pdtAdd.id
      · simp [ht]
      · rw [if_neg (by simpa using Ne.symm ht), if_neg ht, Nat.mul_zero]
    rw [if_pos ⟨hb.predefined, hb.data⟩, if_pos hb.predefined, predefinedCopies]
    by_cases hl : extent ≠ pdtAdd.size ∧ 1 < count
    · rw [if_pos hl, types_loop, types_done, List.append_nil, count_flatten_replicate, types_elem,
        types_done, List.append_nil, hone, Nat.one_mul]
    · rw [if_neg hl, types_elem, types_done, List.append_nil, hone]
  · rw [if_neg (by simp [hp]), if_neg (by simp [hp])]
    rcases mergedEntry_cases hd count disp extent with hm | ⟨e, rfl, -, -, hm⟩
    · simp only [hm, derivedCopies]
      split_ifs with hc
      · rw [types_loop, types_done, List.append_nil, count_flatten_replicate, types_shift]
      · obtain rfl : count = 1 := not_not.mp hc
        rw [types_shift, Nat.one_mul]
    · simp only [hm, types_elem, types_done, List.append_nil, List.count_replicate]
      split_ifs
      · exact Nat.mul_comm _ _
      · rfl

/-- The new `btypes` of a type. -/
lemma btypes_addData (base : Datatype) (hb : pdtAdd.Basic ∨ pdtAdd.flags.predefined = false)
    (ht : t ∈ TypeId.firstTypes) (placeNeeded : ℕ) :
    (base.addData pdtAdd count disp extent placeNeeded).btypes t
      = base.btypes t + count * if pdtAdd.flags.predefined then (if t = pdtAdd.id then 1 else 0)
        else pdtAdd.btypes t := by
  have hfirst : t ≠ .loop ∧ t ≠ .endLoop ∧ t ≠ .lb ∧ t ≠ .ub := by
    revert t
    decide
  have hbtypes : (base.addData pdtAdd count disp extent placeNeeded).btypes
      = (addEntries base pdtAdd count disp extent).2 := rfl
  rw [hbtypes, addEntries]
  rcases hb with hb | hp
  · rw [if_pos ⟨hb.predefined, hb.data⟩, if_pos hb.predefined]
    simp only [hfirst, or_self, and_false, if_false]
    split_ifs
    · rw [Nat.mul_one]
    · rw [Nat.mul_zero, Nat.add_zero]
  · have hnot : ¬ (pdtAdd.flags.predefined = true ∧ pdtAdd.flags.data = true) := by simp [hp]
    have hnot' : ¬ pdtAdd.flags.predefined = true := by simp [hp]
    rw [if_neg hnot, if_neg hnot']
    cases mergedEntry pdtAdd count disp extent with
    | some e => cases t <;> first | rfl | simp at hfirst
    | none =>
        simp only [hfirst.1, and_false, if_false]
        cases t <;> first | rfl | simp at hfirst

end Addition

/-! ### The census -/

section Census

variable {P : Datatype → Datatype → ℕ → ℤ → ℤ → Prop} {dt : Datatype} {as : List ℤ} {t : TypeId}

/-- **The `btypes` of a derived datatype** count the elements of its typemap. -/
lemma Built.btypes_eq (h : Built P dt as) (hp : dt.flags.predefined = false) {D : Nest}
    (hD : dt.Described D) (ht : t ∈ TypeId.firstTypes) : dt.btypes t = D.types.count t := by
  refine h.described_induction (Q := fun dt D => dt.btypes t = D.types.count t) (fun n => rfl)
    (fun hsame hcount => by rw [hsame.btypes, hcount]) ?_ hp hD
  intro base pdtAdd D E count placeNeeded disp extent _ _ hbase hadd _
  have hE : pdtAdd.Basic ∨ pdtAdd.flags.predefined = false ∧ pdtAdd.Described E ∧ E ≠ .done :=
    hadd.imp_right fun h => ⟨h.1, h.2.1, h.2.2.1⟩
  have hsame := base.sameData_addBounds pdtAdd count disp (addExtent pdtAdd extent)
  rw [btypes_addData _ (hE.imp_right And.left) ht, hsame.btypes, hbase, types_append,
    List.count_append, count_types_copies hE]
  rcases hadd with hb | ⟨hp, -, -, hadd⟩
  · rw [if_pos hb.predefined, if_pos hb.predefined]
  · rw [hp, if_neg Bool.false_ne_true, if_neg Bool.false_ne_true, hadd]

lemma AddCase.predefined {base pdtAdd : Datatype} {count : ℕ} {disp extent : ℤ}
    (h : AddCase base pdtAdd count disp extent dt) : dt.flags.predefined = base.flags.predefined := by
  cases h with
  | lb => exact (base.sameData_addLb disp).predefined
  | ub => exact (base.sameData_addUb disp).predefined
  | nothing => exact (base.sameData_addBounds pdtAdd count disp _).predefined
  | data => rfl

/-- A predefined type has one element. -/
lemma Built.btypes_predefined (h : Built P dt as) (hp : dt.flags.predefined = true)
    (hsize : dt.size ≠ 0) : dt.btypes t = if t = dt.id then 1 else 0 := by
  induction h with
  | predefined u => cases u <;> first | exact absurd rfl hsize | rfl
  | empty => exact absurd rfl hsize
  | create n => cases hp
  | add count disp extent _ hpre _ _ _ hadd ihb _ =>
      have hsame := (Datatype.addCase_of_add hadd).predefined
      rw [hsame, hpre] at hp
      cases hp
  | resize lb extent _ ih => exact ih hp hsize
  | commit _ hpre hcommit ih =>
      rw [(Datatype.sameData_commit hcommit).predefined, hpre] at hp
      cases hp

/-- The bits of `bdt_used` say which counters are not zero. -/
lemma Built.bdtUsed_iff (h : Built P dt as) (ht : t ∈ TypeId.firstTypes) :
    dt.bdtUsed t = true ↔ dt.btypes t ≠ 0 := by
  have hmarker : t ≠ .lb ∧ t ≠ .ub := by
    revert t
    decide
  have hrecheck : ∀ dt : Datatype, dt.recheckGaps.bdtUsed = dt.bdtUsed ∧
      dt.recheckGaps.btypes = dt.btypes := by
    intro dt
    rw [Datatype.recheckGaps]
    split <;> exact ⟨rfl, rfl⟩
  induction h with
  | predefined u =>
      revert t
      cases u <;> decide
  | empty => simp [emptyDatatype]
  | create n => simp [Datatype.create]
  | @add base pdtAdd dt as bs count disp extent _ _ ha _ _ hadd ihb iha =>
      cases Datatype.addCase_of_add hadd with
      | lb =>
          rw [Datatype.addLb, (hrecheck _).1, (hrecheck _).2]
          simpa [hmarker.1] using ihb
      | ub =>
          rw [Datatype.addUb, (hrecheck _).1, (hrecheck _).2]
          simpa [hmarker.2] using ihb
      | nothing => exact ihb
      | data placeNeeded hcount hsize =>
          have hadds : pdtAdd.Basic ∨ pdtAdd.flags.predefined = false := by
            cases hpa : pdtAdd.flags.predefined with
            | true => exact .inl (ha.basic hpa hsize)
            | false => exact .inr rfl
          have hcopies : (if pdtAdd.flags.predefined then (if t = pdtAdd.id then 1 else 0)
              else pdtAdd.btypes t) = pdtAdd.btypes t := by
            cases hpa : pdtAdd.flags.predefined with
            | true => exact (ha.btypes_predefined hpa hsize).symm
            | false => rfl
          have hbase : (base.addBounds pdtAdd count disp (addExtent pdtAdd extent)).btypes
              = base.btypes := rfl
          have hused : ((base.addBounds pdtAdd count disp (addExtent pdtAdd extent)).addData pdtAdd
              count disp (addExtent pdtAdd extent) placeNeeded).bdtUsed t
              = (base.bdtUsed t || pdtAdd.bdtUsed t) := rfl
          rw [btypes_addData _ hadds ht, hcopies, hbase, hused, Bool.or_eq_true]
          refine (or_congr ihb iha).trans ?_
          have hzero : base.btypes t + count * pdtAdd.btypes t = 0 ↔
              base.btypes t = 0 ∧ pdtAdd.btypes t = 0 := by
            rw [Nat.add_eq_zero_iff, Nat.mul_eq_zero, or_iff_right hcount]
          rw [Ne, Ne, Ne, hzero, not_and_or]
  | resize lb extent _ ih => exact ih
  | commit _ _ hcommit ih =>
      obtain rfl | ⟨e, optDesc, rfl⟩ := Datatype.commit_cases hcommit
      · exact ih
      · exact ih

/-- Numbers per type, added up over the types that are used. -/
lemma sum_count_types {ts : List TypeId} (hts : ∀ t ∈ ts, t ∈ TypeId.firstTypes) (f : TypeId → ℕ) :
    (TypeId.firstTypes.map fun t => ts.count t * f t).sum = (ts.map f).sum := by
  induction ts with
  | nil => simp
  | cons u ts ih =>
      have hu := hts u List.mem_cons_self
      have hone : (TypeId.firstTypes.map fun t => if u = t then f t else 0).sum = f u := by
        revert hu
        cases u <;> simp [TypeId.firstTypes]
      rw [List.map_cons, List.sum_cons, ← ih fun t ht => hts t (List.mem_cons_of_mem _ ht), ← hone,
        ← List.sum_map_add]
      refine congrArg _ (List.map_congr_left fun t _ => ?_)
      rw [List.count_cons, Nat.add_mul, Nat.add_comm]
      by_cases h : u = t
      · simp [h]
      · simp [h]

/-- The same with the loop over the bits of `bdt_used`. -/
lemma sum_filter_used {used : TypeId → Bool} {btypes f : TypeId → ℕ}
    (h : ∀ t ∈ TypeId.firstTypes, used t = false → btypes t = 0) :
    ((TypeId.firstTypes.filter used).map fun t => btypes t * f t).sum
      = (TypeId.firstTypes.map fun t => btypes t * f t).sum := by
  generalize TypeId.firstTypes = ts at h
  induction ts with
  | nil => rfl
  | cons t ts ih =>
      have ih := ih fun u hu => h u (List.mem_cons_of_mem _ hu)
      cases hused : used t with
      | true => rw [List.filter_cons_of_pos hused, List.map_cons, List.map_cons, List.sum_cons, ih,
          List.sum_cons]
      | false =>
          rw [List.filter_cons_of_neg (by simp [hused]), ih, List.map_cons, List.sum_cons,
            h t List.mem_cons_self hused, Nat.zero_mul, Nat.zero_add]

/-- What the counters say about a committed datatype. -/
lemma Committed.btypes_eq (h : Committed dt as) {D : Nest}
    (hD : dt.desc.desc.take dt.desc.used = D.flatten) (ht : t ∈ TypeId.firstTypes) :
    dt.btypes t = D.types.count t := by
  induction h with
  | predefined u hu =>
      have hbasic : ∃ flags, (Ocoms.predefined u).desc.desc.take (Ocoms.predefined u).desc.used
          = (Nest.elem ⟨flags, u, 1, basicSize u, 0⟩ .done).flatten ∧
            (Ocoms.predefined u).btypes = fun t => if t = u then 1 else 0 := by
        cases u <;> first
          | exact absurd rfl hu
          | exact ⟨_, rfl, rfl⟩
      obtain ⟨flags, hdesc, hcounts⟩ := hbasic
      obtain rfl : D = .elem ⟨flags, u, 1, basicSize u, 0⟩ .done :=
        flatten_injective (hD.symm.trans hdesc)
      rw [hcounts, types_elem, types_done, List.append_nil, List.count_replicate]
      by_cases htu : t = u
      · simp [htu]
      · simp [htu, Ne.symm htu]
  | @commit dt dt' as hb hp hc hcommit =>
      obtain ⟨D₀, hD₀⟩ := hb.described hp
      obtain ⟨dt'', hcommit', hcommits⟩ := hD₀.commit hc
      obtain rfl := Option.some.inj (hcommit.symm.trans hcommit')
      obtain rfl : D = D₀ := flatten_injective (hD.symm.trans hcommits.described.desc)
      rw [(Datatype.sameData_commit hcommit).btypes, hb.btypes_eq hp hD₀ ht]
  | resize lb extent _ ih => exact ih hD

/-- The types that are used are those of the typemap. -/
lemma Committed.bdtUsed_iff (h : Committed dt as) {D : Nest}
    (hD : dt.desc.desc.take dt.desc.used = D.flatten) (ht : t ∈ TypeId.firstTypes) :
    dt.bdtUsed t = true ↔ t ∈ D.types := by
  rw [h.built.bdtUsed_iff ht, h.btypes_eq hD ht, ← Nat.pos_iff_ne_zero, List.count_pos_iff]

/-- **What the loop over the counters adds up.** -/
lemma Committed.sum_btypes (h : Committed dt as) {D : Nest}
    (hD : dt.desc.desc.take dt.desc.used = D.flatten) (sizes : TypeId → ℕ) :
    ((TypeId.firstTypes.filter dt.bdtUsed).map fun t => dt.btypes t * sizes t).sum
      = (D.types.map sizes).sum := by
  have hfirst : ∀ t ∈ D.types, t ∈ TypeId.firstTypes := fun t ht =>
    mem_firstTypes ((h.counted hD).2.1.size_types t ht)
  rw [sum_filter_used fun t ht hno => ?_, ← sum_count_types hfirst]
  · exact congrArg _ (List.map_congr_left fun t ht => by rw [h.btypes_eq hD ht])
  · by_contra hne
    rw [(h.built.bdtUsed_iff ht).mpr hne] at hno
    cases hno

end Census

end Ocoms
