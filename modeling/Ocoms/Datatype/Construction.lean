import Ocoms.Datatype.Optimize

/-!
Datatypes that are built, and what their fields say.

* `Built P dt as` says that `dt` is built from the predefined types by create, add, resize and
  commit, and has the typemap `as`, every addition meeting the condition `P`.
* `Datatype.Metadata` is what the size, the true bounds and the flags say about the typemap.
  `Datatype.Measured` is the part that every addition keeps (`Built.measured`);
  `metadata_of_built` is the theorem about all of it, when additions of nothing keep the bounds
  of a base without gaps.
* `Datatype.Described dt D` says that the description is the loop nest `D`, with ends that match.
  `Built.described` says that a built datatype has one.
-/

namespace Ocoms

open Layout

/-! ### Histories -/

/-- The true bounds of an addition fit the C type. -/
def AddFits (pdtAdd : Datatype) (count : ℕ) (disp extent : ℤ) : Prop :=
  count ≠ 0 → pdtAdd.size ≠ 0 →
    longMin ≤ (addTrueBounds pdtAdd count disp (addExtent pdtAdd extent)).1 ∧
      (addTrueBounds pdtAdd count disp (addExtent pdtAdd extent)).2 ≤ longMax

/-- The typemap of copies of a type. -/
def copiesMap (as : List ℤ) (count : ℕ) (disp extent : ℤ) : List ℤ :=
  stride count extent (fun d => as.map (· + d)) disp

/-- The datatypes that are built from the predefined ones, with their typemaps. The condition `P`
speaks about a base, the type that is added, and how. -/
inductive Built (P : Datatype → Datatype → ℕ → ℤ → ℤ → Prop) : Datatype → List ℤ → Prop
  | predefined (t : TypeId) : Built P (predefined t) (run 0 (basicSize t))
  | empty : Built P emptyDatatype []
  | create (expectedSize : Option ℕ) : Built P (Datatype.create expectedSize) []
  | add {base pdtAdd dt : Datatype} {as bs : List ℤ} (count : ℕ) (disp extent : ℤ) :
      Built P base as → base.flags.predefined = false → Built P pdtAdd bs →
      AddFits pdtAdd count disp extent → P base pdtAdd count disp extent →
      base.add pdtAdd count disp extent = some dt →
      Built P dt (as ++ copiesMap bs count disp (addExtent pdtAdd extent))
  | resize {dt : Datatype} {as : List ℤ} (lb extent : ℤ) :
      Built P dt as → Built P (dt.resize lb extent) as
  | commit {dt dt' : Datatype} {as : List ℤ} :
      Built P dt as → dt.flags.predefined = false → dt.commit = some dt' → Built P dt' as

/-- No condition. -/
def Unrestricted (_ _ : Datatype) (_ : ℕ) (_ _ : ℤ) : Prop := True

/-- What the fields of a datatype say about its typemap. -/
structure Datatype.Metadata (dt : Datatype) (as : List ℤ) : Prop where
  size : dt.size = as.length
  bounds : as ≠ [] → Spans as dt.trueLb dt.trueUb
  contiguous : dt.flags.contiguous = true → as = run dt.trueLb dt.size
  noGaps : dt.flags.noGaps = true → dt.flags.contiguous = true ∧ dt.ub - dt.lb = dt.size

/-- The part that holds of every built datatype. A derived datatype without a typemap still has
the bounds it was created with, and a marker has none. -/
structure Datatype.Measured (dt : Datatype) (as : List ℤ) : Prop where
  size : dt.size = as.length
  bounds : as ≠ [] → Spans as dt.trueLb dt.trueUb
  contiguous : dt.flags.contiguous = true → as = run dt.trueLb dt.size
  nbElems : as ≠ [] → dt.nbElems ≠ 0
  fresh : dt.flags.predefined = false → as = [] →
    dt.nbElems = 0 ∧ dt.trueLb = longMax ∧ dt.trueUb = longMin
  marker : dt.id = .lb ∨ dt.id = .ub → as = []
  derived : dt.flags.predefined = false → dt.id = .loop

/-! ### What an operation leaves as it is -/

section Frame

variable (base pdtAdd : Datatype) (count : ℕ) (disp extent : ℤ)

/-- Fields that neither markers nor additions of nothing touch. -/
structure Datatype.SameData (dt dt' : Datatype) : Prop where
  size : dt'.size = dt.size
  trueLb : dt'.trueLb = dt.trueLb
  trueUb : dt'.trueUb = dt.trueUb
  contiguous : dt'.flags.contiguous = dt.flags.contiguous
  predefined : dt'.flags.predefined = dt.flags.predefined
  nbElems : dt'.nbElems = dt.nbElems
  id : dt'.id = dt.id
  btypes : dt'.btypes = dt.btypes

lemma Datatype.sameData_recheckGaps : base.SameData base.recheckGaps := by
  rw [recheckGaps]
  split <;> exact ⟨rfl, rfl, rfl, rfl, rfl, rfl, rfl, rfl⟩

lemma Datatype.sameData_addLb : base.SameData (base.addLb disp) := by
  obtain ⟨h₁, h₂, h₃, h₄, h₅, h₆, h₇, h₈⟩ := Datatype.sameData_recheckGaps
    { base with
      bdtUsed := fun t => t = .lb || base.bdtUsed t
      lb := if base.flags.userLb then min base.lb disp else disp
      flags := { base.flags with userLb := true } }
  exact ⟨h₁, h₂, h₃, h₄, h₅, h₆, h₇, h₈⟩

lemma Datatype.sameData_addUb : base.SameData (base.addUb disp) := by
  obtain ⟨h₁, h₂, h₃, h₄, h₅, h₆, h₇, h₈⟩ := Datatype.sameData_recheckGaps
    { base with
      bdtUsed := fun t => t = .ub || base.bdtUsed t
      ub := if base.flags.userUb then max base.ub disp else disp
      flags := { base.flags with userUb := true } }
  exact ⟨h₁, h₂, h₃, h₄, h₅, h₆, h₇, h₈⟩

lemma Datatype.sameData_addBounds : base.SameData (base.addBounds pdtAdd count disp extent) :=
  ⟨rfl, rfl, rfl, rfl, rfl, rfl, rfl, rfl⟩

lemma Datatype.sameData_resize (lb : ℤ) : base.SameData (base.resize lb extent) :=
  ⟨rfl, rfl, rfl, rfl, rfl, rfl, rfl, rfl⟩

end Frame

lemma Datatype.SameData.measured {dt dt' : Datatype} {as : List ℤ} (h : dt.SameData dt')
    (hm : dt.Measured as) : dt'.Measured as where
  size := h.size.trans hm.size
  bounds := fun hne => by
    rw [h.trueLb, h.trueUb]
    exact hm.bounds hne
  contiguous := fun hc => by
    rw [h.trueLb, h.size]
    exact hm.contiguous (h.contiguous ▸ hc)
  nbElems := fun hne => by
    rw [h.nbElems]
    exact hm.nbElems hne
  fresh := fun hp => by
    rw [h.nbElems, h.trueLb, h.trueUb]
    exact hm.fresh (h.predefined ▸ hp)
  marker := fun hid => hm.marker (by rwa [h.id] at hid)
  derived := fun hp => h.id.trans (hm.derived (h.predefined ▸ hp))

/-- `ocoms_datatype_commit` writes the descriptions and the flag `COMMITED`. -/
lemma Datatype.commit_cases {dt dt' : Datatype} (h : dt.commit = some dt') :
    dt' = dt ∨ ∃ e optDesc, dt' = { dt with
      flags := { dt.flags with commited := true }
      desc := { dt.desc with desc := dt.desc.desc.take dt.desc.used ++ [.endLoop e] }
      optDesc } := by
  rw [commit] at h
  by_cases hc : dt.flags.commited = true
  · rw [if_pos hc] at h
    exact Or.inl (Option.some.inj h).symm
  · rw [if_neg hc] at h
    by_cases hused : dt.desc.used = 0
    · simp only [if_pos hused, Option.some.injEq] at h
      exact Or.inr ⟨_, _, h.symm⟩
    · simp only [if_neg hused] at h
      obtain ⟨optDesc, -, heq⟩ := Option.map_eq_some_iff.mp h
      exact Or.inr ⟨_, _, heq.symm⟩

lemma Datatype.sameData_commit {dt dt' : Datatype} (h : dt.commit = some dt') :
    dt.SameData dt' := by
  obtain rfl | ⟨e, optDesc, rfl⟩ := Datatype.commit_cases h <;>
    exact ⟨rfl, rfl, rfl, rfl, rfl, rfl, rfl, rfl⟩

/-- What an addition does: a marker moves a bound; nothing, or copies of a type, are added. -/
inductive AddCase (base pdtAdd : Datatype) (count : ℕ) (disp extent : ℤ) : Datatype → Prop
  | lb : pdtAdd.id = .lb → AddCase base pdtAdd count disp extent (base.addLb disp)
  | ub : pdtAdd.id = .ub → AddCase base pdtAdd count disp extent (base.addUb disp)
  | nothing : count = 0 ∨ pdtAdd.size = 0 → pdtAdd.id ≠ .lb → pdtAdd.id ≠ .ub →
      AddCase base pdtAdd count disp extent
        (base.addBounds pdtAdd count disp (addExtent pdtAdd extent))
  | data (placeNeeded : ℕ) : count ≠ 0 → pdtAdd.size ≠ 0 → AddCase base pdtAdd count disp extent
      ((base.addBounds pdtAdd count disp (addExtent pdtAdd extent)).addData pdtAdd count disp
        (addExtent pdtAdd extent) placeNeeded)

lemma Datatype.addCase_of_add {base pdtAdd dt : Datatype} {count : ℕ} {disp extent : ℤ}
    (h : base.add pdtAdd count disp extent = some dt) :
    AddCase base pdtAdd count disp extent dt := by
  rw [Datatype.add] at h
  by_cases hlb : pdtAdd.id = .lb
  · rw [if_pos hlb] at h
    exact Option.some.inj h ▸ .lb hlb
  by_cases hub : pdtAdd.id = .ub
  · rw [if_neg hlb, if_pos hub] at h
    exact Option.some.inj h ▸ .ub hub
  rw [if_neg hlb, if_neg hub] at h
  cases hplace : requiredEntries pdtAdd count (addExtent pdtAdd extent) with
  | none =>
      rw [hplace] at h
      cases h
  | some placeNeeded =>
      rw [hplace] at h
      by_cases h0 : count = 0 ∨ pdtAdd.size = 0
      · simp only [if_pos h0, Option.some.injEq] at h
        exact h ▸ .nothing h0 hlb hub
      · simp only [if_neg h0, Option.some.injEq] at h
        rw [not_or] at h0
        exact h ▸ .data placeNeeded h0.1 h0.2

/-! ### Sizes, true bounds and contiguity -/

section Measured

variable {base pdtAdd : Datatype} {as bs : List ℤ} {count : ℕ} {disp extent : ℤ}

lemma copiesMap_of_nothing (h : count = 0 ∨ bs = []) : copiesMap bs count disp extent = [] := by
  rcases h with rfl | rfl
  · rfl
  · rw [copiesMap]
    generalize disp = d
    induction count generalizing d with
    | zero => rfl
    | succ n ih => rw [stride_succ, ih]; rfl

lemma length_copiesMap (bs : List ℤ) (count : ℕ) (disp extent : ℤ) :
    (copiesMap bs count disp extent).length = count * bs.length :=
  length_stride _ _ _ _ fun _ => List.length_map _

/-- The true bounds of the copies. -/
lemma addTrueBounds_eq (hcount : count ≠ 0) (hbs : pdtAdd.trueLb < pdtAdd.trueUb) :
    addTrueBounds pdtAdd count disp extent
      = (min disp (disp + extent * (count - 1)) + pdtAdd.trueLb,
        max disp (disp + extent * (count - 1)) + pdtAdd.trueUb) := by
  rw [addTrueBounds, lbUbCont, if_neg hcount]
  by_cases hlt : disp < disp + extent * (count - 1)
  · simp only [if_pos hlt]
    rw [if_neg (by omega), min_eq_left hlt.le, max_eq_right hlt.le]
    congr 1 <;> ring
  · simp only [if_neg hlt]
    rw [if_neg (by omega), min_eq_right (not_lt.mp hlt), max_eq_left (not_lt.mp hlt)]
    congr 1 <;> ring

/-- Copies of a run that are as far apart as it is long, or a single one, are one run. -/
lemma copiesMap_run (a : ℤ) (n : ℕ) (h : (n : ℤ) = extent ∨ count < 2) (hcount : count ≠ 0) :
    copiesMap (run a n) count disp extent = run (disp + a) (count * n) := by
  have hround : ∀ d, (run a n).map (· + d) = run (d + a) n := fun d => by
    rw [map_add_run, add_comm]
  rw [copiesMap, stride_congr _ _ _ hround]
  rcases h with rfl | h
  · rw [← stride_add_right _ _ _ (fun x => run x n), stride_run]
  · obtain rfl : count = 1 := by omega
    rw [stride_one, Nat.one_mul]

/-- **Copies of a type** are measured as the sum of both. -/
lemma Datatype.Measured.addData (hbase : base.Measured as) (hpre : base.flags.predefined = false)
    (hadd : pdtAdd.Measured bs) (hcount : count ≠ 0) (hsize : pdtAdd.size ≠ 0)
    (hfits : longMin ≤ (addTrueBounds pdtAdd count disp extent).1 ∧
      (addTrueBounds pdtAdd count disp extent).2 ≤ longMax) (placeNeeded : ℕ) :
    (base.addData pdtAdd count disp extent placeNeeded).Measured
      (as ++ copiesMap bs count disp extent) := by
  have hbs : bs ≠ [] := by
    rintro rfl
    exact hsize hadd.size
  have hlt := (hadd.bounds hbs).lt
  have hcopies : Spans (copiesMap bs count disp extent)
      (addTrueBounds pdtAdd count disp extent).1 (addTrueBounds pdtAdd count disp extent).2 := by
    rw [addTrueBounds_eq hcount hlt]
    exact (hadd.bounds hbs).stride (Nat.pos_of_ne_zero hcount) extent disp
  have hnonzero : base.size + count * pdtAdd.size ≠ 0 := by
    have := Nat.mul_ne_zero hcount hsize
    omega
  have hbounds : Spans (as ++ copiesMap bs count disp extent)
      (min (addTrueBounds pdtAdd count disp extent).1 base.trueLb)
      (max (addTrueBounds pdtAdd count disp extent).2 base.trueUb) := by
    by_cases has : as = []
    · -- the base still has the bounds it was created with
      obtain ⟨-, hlb, hub⟩ := hbase.fresh hpre has
      have hlt' := hcopies.lt
      rw [has, List.nil_append, hlb, hub, min_eq_left (by omega), max_eq_left (by omega)]
      exact hcopies
    · rw [min_comm, max_comm]
      exact (hbase.bounds has).append hcopies
  have hne : as ++ copiesMap bs count disp extent ≠ [] := hbounds.ne_nil
  refine ⟨?_, fun _ => ?_, fun hc => ?_, fun _ => ?_, fun _ h => absurd h hne, fun h => ?_,
    hbase.derived⟩
  · rw [List.length_append, length_copiesMap, ← hbase.size, ← hadd.size]
    rfl
  · simp only [Datatype.addData, if_pos hnonzero]
    exact hbounds
  · simp only [Datatype.addData, if_pos hnonzero, decide_eq_true_eq, Bool.and_eq_true] at hc ⊢
    obtain ⟨⟨hcb, hca⟩, hjoin, hext⟩ := hc
    have hrun : copiesMap bs count disp extent
        = run (disp + pdtAdd.trueLb) (count * pdtAdd.size) := by
      rw [hadd.contiguous hca]
      exact copiesMap_run _ _ hext hcount
    rw [hrun] at hbounds ⊢
    by_cases has : as = []
    · have hzero : base.size = 0 := by rw [hbase.size, has]; rfl
      rw [has, List.nil_append] at hbounds ⊢
      rw [hbounds.run_eq.1, hzero, Nat.zero_add]
    · have hspan := hbase.bounds has
      rw [if_neg (hbase.nbElems has)] at hjoin
      have hrunb := hbase.contiguous hcb
      rw [hrunb] at hspan
      have hall : as ++ run (disp + pdtAdd.trueLb) (count * pdtAdd.size)
          = run base.trueLb (base.size + count * pdtAdd.size) := by
        rw [run_add, hjoin, ← hspan.run_eq.2, ← hrunb]
      rw [hall] at hbounds ⊢
      rw [← hbounds.run_eq.1]
  · have hnb := Nat.mul_ne_zero hcount (hadd.nbElems hbs)
    simp only [Datatype.addData]
    omega
  · have hid : base.id = .loop := hbase.derived hpre
    change base.id = .lb ∨ base.id = .ub at h
    simp [hid] at h

/-- The predefined types. -/
lemma measured_predefined (t : TypeId) : (predefined t).Measured (run 0 (basicSize t)) where
  size := by
    rw [length_run]
    cases t <;> rfl
  bounds := fun hne => by
    have hpos : 0 < basicSize t := by
      rcases Nat.eq_zero_or_pos (basicSize t) with h | h
      · rw [h] at hne
        exact absurd rfl hne
      · exact h
    have hspan := spans_run 0 hpos
    rw [zero_add] at hspan
    cases t <;> exact hspan
  contiguous := fun _ => by cases t <;> rfl
  nbElems := fun _ => by cases t <;> exact Nat.one_ne_zero
  fresh := fun hp => by cases t <;> cases hp
  marker := fun hid => by cases t <;> first | rfl | exact absurd hid (by decide)
  derived := fun hp => by cases t <;> cases hp

/-- **Every built datatype is measured.** -/
lemma Built.measured {P : Datatype → Datatype → ℕ → ℤ → ℤ → Prop} {dt : Datatype}
    (h : Built P dt as) : dt.Measured as := by
  induction h with
  | predefined t => exact measured_predefined t
  | empty => exact ⟨rfl, fun h => absurd rfl h, fun h => (by cases h), fun h => absurd rfl h,
      fun h => (by cases h), fun h => (by simp [emptyDatatype] at h), fun h => (by cases h)⟩
  | create n => exact ⟨rfl, fun h => absurd rfl h, fun _ => rfl, fun h => absurd rfl h,
      fun _ _ => ⟨rfl, rfl, rfl⟩, fun _ => rfl, fun _ => rfl⟩
  | @add base pdtAdd dt as bs count disp extent _ hpre _ hfits _ hadd ihb iha =>
      have hnone : ∀ h : count = 0 ∨ bs = [], as ++ copiesMap bs count disp
          (addExtent pdtAdd extent) = as := fun h => by
        rw [copiesMap_of_nothing h, List.append_nil]
      cases Datatype.addCase_of_add hadd with
      | lb hid =>
          rw [hnone (Or.inr (iha.marker (Or.inl hid)))]
          exact (base.sameData_addLb disp).measured ihb
      | ub hid =>
          rw [hnone (Or.inr (iha.marker (Or.inr hid)))]
          exact (base.sameData_addUb disp).measured ihb
      | nothing h0 =>
          have h0' : count = 0 ∨ bs = [] :=
            h0.imp_right fun h => List.eq_nil_of_length_eq_zero (iha.size ▸ h)
          rw [hnone h0']
          exact (base.sameData_addBounds pdtAdd count disp _).measured ihb
      | data placeNeeded hcount hsize =>
          exact ((base.sameData_addBounds pdtAdd count disp _).measured ihb).addData hpre iha hcount
            hsize (hfits hcount hsize) placeNeeded
  | @resize dt as lb extent _ ih => exact (dt.sameData_resize extent lb).measured ih
  | commit _ _ hcommit ih => exact (Datatype.sameData_commit hcommit).measured ih

end Measured

/-! ### No gaps -/

/-- An addition of nothing keeps the bounds of a base without gaps: its own bounds lie within those
of the base, it brings no marker the base does not have, and the alignment divides the size. -/
structure KeepsBounds (base pdtAdd : Datatype) (count : ℕ) (disp extent : ℤ) : Prop where
  lb : count = 0 ∨ pdtAdd.size = 0 → base.flags.noGaps = true → pdtAdd.id ≠ .lb → pdtAdd.id ≠ .ub →
    if pdtAdd.flags.userLb = base.flags.userLb then
      base.lb ≤ (lbUbCont count disp pdtAdd.lb pdtAdd.ub (addExtent pdtAdd extent)).1
    else base.flags.userLb = true ∨
      base.lb = (lbUbCont count disp pdtAdd.lb pdtAdd.ub (addExtent pdtAdd extent)).1
  ub : count = 0 ∨ pdtAdd.size = 0 → base.flags.noGaps = true → pdtAdd.id ≠ .lb → pdtAdd.id ≠ .ub →
    if pdtAdd.flags.userUb = base.flags.userUb then
      (lbUbCont count disp pdtAdd.lb pdtAdd.ub (addExtent pdtAdd extent)).2 ≤ base.ub
    else base.flags.userUb = true ∨
      base.ub = (lbUbCont count disp pdtAdd.lb pdtAdd.ub (addExtent pdtAdd extent)).2
  align : count = 0 ∨ pdtAdd.size = 0 → base.flags.noGaps = true → pdtAdd.id ≠ .lb →
    pdtAdd.id ≠ .ub → base.flags.userUb = true ∨ pdtAdd.flags.userUb = true ∨
      (base.size : ℤ).tmod (max base.align pdtAdd.align : ℕ) = 0

section NoGaps

variable {base pdtAdd dt : Datatype} {as bs : List ℤ} {count : ℕ} {disp extent : ℤ}

/-- The flag says what the extent and the flag `CONTIGUOUS` say. -/
def Datatype.Gapless (dt : Datatype) : Prop :=
  dt.flags.noGaps = true → dt.flags.contiguous = true ∧ dt.ub - dt.lb = dt.size

lemma Datatype.Gapless.recheckGaps (h : dt.flags.noGaps = true → dt.flags.contiguous = true) :
    dt.recheckGaps.Gapless := by
  rw [Datatype.recheckGaps]
  split_ifs with hne
  · exact fun h => by cases h
  · exact fun hg => ⟨h hg, not_not.mp hne⟩

/-- An addition of nothing that keeps the bounds. -/
lemma Datatype.Gapless.addBounds (h : base.Gapless) (h0 : count = 0 ∨ pdtAdd.size = 0)
    (hlb : pdtAdd.id ≠ .lb) (hub : pdtAdd.id ≠ .ub)
    (hkeep : KeepsBounds base pdtAdd count disp extent) :
    (base.addBounds pdtAdd count disp (addExtent pdtAdd extent)).Gapless := by
  intro hg
  have hg' : base.flags.noGaps = true := hg
  obtain ⟨hcont, hext⟩ := h hg'
  have hl := hkeep.lb h0 hg' hlb hub
  have hu := hkeep.ub h0 hg' hlb hub
  have ha := hkeep.align h0 hg' hlb hub
  refine ⟨hcont, ?_⟩
  simp only [Datatype.addBounds]
  set lo := (lbUbCont count disp pdtAdd.lb pdtAdd.ub (addExtent pdtAdd extent)).1
  set hi := (lbUbCont count disp pdtAdd.lb pdtAdd.ub (addExtent pdtAdd extent)).2
  have hlb' : (if pdtAdd.flags.userLb ≠ base.flags.userLb then
      if base.flags.userLb = true then base.lb else lo else min base.lb lo) = base.lb := by
    by_cases hf : pdtAdd.flags.userLb = base.flags.userLb
    · rw [if_pos hf] at hl
      rw [if_neg (not_not.mpr hf), min_eq_left hl]
    · rw [if_neg hf] at hl
      rw [if_pos hf]
      split_ifs with hb
      · rfl
      · exact (hl.resolve_left hb).symm
  have hub' : (if base.flags.userUb ≠ pdtAdd.flags.userUb then
      if base.flags.userUb = true then base.ub else hi else max base.ub hi) = base.ub := by
    by_cases hf : pdtAdd.flags.userUb = base.flags.userUb
    · rw [if_pos hf] at hu
      rw [if_neg (not_not.mpr hf.symm), max_eq_left hu]
    · rw [if_neg hf] at hu
      rw [if_pos (Ne.symm hf)]
      split_ifs with hb
      · rfl
      · exact (hu.resolve_left hb).symm
  rw [hlb', hub', hext]
  rw [if_neg]
  · exact hext
  · rintro ⟨hfree, hne⟩
    rcases ha with ha | ha | ha
    · simp [ha] at hfree
    · simp [ha] at hfree
    · exact hne ha

lemma Datatype.gapless_addData (placeNeeded : ℕ) :
    (base.addData pdtAdd count disp extent placeNeeded).Gapless := by
  intro hg
  simp only [Datatype.addData, decide_eq_true_eq] at hg ⊢
  exact ⟨hg.1, hg.2.symm⟩

lemma gapless_predefined (t : TypeId) : (predefined t).Gapless := by
  cases t <;> first | exact fun _ => ⟨rfl, by decide⟩ | exact fun h => absurd h (by decide)

lemma Built.gapless (h : Built KeepsBounds dt as) : dt.Gapless := by
  induction h with
  | predefined t => exact gapless_predefined t
  | empty => exact fun h => by cases h
  | create n => exact fun h => by cases h
  | add count disp extent _ _ _ _ hkeep hadd ihb _ =>
      cases Datatype.addCase_of_add hadd with
      | lb hid => exact Datatype.Gapless.recheckGaps fun hg => (ihb hg).1
      | ub hid => exact Datatype.Gapless.recheckGaps fun hg => (ihb hg).1
      | nothing h0 hlb hub => exact ihb.addBounds h0 hlb hub hkeep
      | data placeNeeded => exact Datatype.gapless_addData placeNeeded
  | @resize dt as lb extent _ _ =>
      intro hg
      simp only [Datatype.resize, decide_eq_true_eq] at hg ⊢
      exact ⟨hg.2, by rw [← hg.1]; ring⟩
  | commit _ _ hcommit ih =>
      obtain rfl | ⟨e, optDesc, rfl⟩ := Datatype.commit_cases hcommit
      · exact ih
      · exact ih

/-- Whatever the history, `NO_GAPS` implies `CONTIGUOUS`. -/
lemma Built.contiguous_of_noGaps {P : Datatype → Datatype → ℕ → ℤ → ℤ → Prop} (h : Built P dt as)
    (hg : dt.flags.noGaps = true) : dt.flags.contiguous = true := by
  have hrecheck : ∀ dt : Datatype, dt.recheckGaps.flags.noGaps = true →
      (dt.flags.noGaps = true → dt.flags.contiguous = true) →
      dt.recheckGaps.flags.contiguous = true := by
    intro dt hg h
    rw [Datatype.recheckGaps] at hg ⊢
    split_ifs at hg ⊢ with hne
    exact h hg
  induction h with
  | predefined t => exact (gapless_predefined t hg).1
  | empty => cases hg
  | create n => cases hg
  | add count disp extent _ _ _ _ _ hadd ihb _ =>
      cases Datatype.addCase_of_add hadd with
      | lb => exact hrecheck _ hg ihb
      | ub => exact hrecheck _ hg ihb
      | nothing => exact ihb hg
      | data placeNeeded => exact (Datatype.gapless_addData placeNeeded hg).1
  | resize lb extent _ _ =>
      simp only [Datatype.resize, decide_eq_true_eq] at hg ⊢
      exact hg.2
  | commit _ _ hcommit ih =>
      obtain rfl | ⟨e, optDesc, rfl⟩ := Datatype.commit_cases hcommit
      · exact ih hg
      · exact ih hg

/-- **What the fields say about the typemap**, for every history whose additions of nothing keep the
bounds of a base without gaps. -/
theorem metadata_of_built (h : Built KeepsBounds dt as) : dt.Metadata as where
  size := h.measured.size
  bounds := h.measured.bounds
  contiguous := h.measured.contiguous
  noGaps := h.gapless

/-- An `INT4` at displacement `0`. -/
def oneInt4 : Datatype :=
  ((Datatype.create none).add (predefined .int4) 1 0 (-1)).getD emptyDatatype

/-- The same with no `INT8`: its bounds grow, and `NO_GAPS` stays. -/
def oneInt4NoInt8 : Datatype := (oneInt4.add (predefined .int8) 0 0 (-1)).getD emptyDatatype

lemma built_oneInt4 {P : Datatype → Datatype → ℕ → ℤ → ℤ → Prop}
    (hP : P (Datatype.create none) (predefined .int4) 1 0 (-1)) : Built P oneInt4 [0, 1, 2, 3] :=
  .add 1 0 (-1) (.create none) rfl (.predefined .int4) (fun _ _ => by decide) hP rfl

theorem metadata_oneInt4 : oneInt4.Metadata [0, 1, 2, 3] :=
  metadata_of_built (built_oneInt4 ⟨fun h => absurd h (by decide), fun h => absurd h (by decide),
    fun h => absurd h (by decide)⟩)

theorem metadata_oneInt4NoInt8_fails :
    Built Unrestricted oneInt4NoInt8 [0, 1, 2, 3] ∧ ¬ oneInt4NoInt8.Metadata [0, 1, 2, 3] := by
  refine ⟨?_, fun h => ?_⟩
  · exact .add 0 0 (-1) (built_oneInt4 trivial) rfl
      (.predefined .int8) (fun h => absurd rfl h) trivial rfl
  · exact absurd (h.noGaps (by decide)).2 (by decide)

end NoGaps

end Ocoms
