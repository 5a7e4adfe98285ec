import Ocoms.Datatype.Merging

/-!
Room in the descriptions.

* `Nest.length_flatten_optimized_le` says that the optimizer writes no more entries than it reads.
* `AddCall` is a call of `ocoms_datatype_add`, `AddCall.placeNeeded` the room it asks for and
  `AddCall.entries` the number of entries it writes; `AddCall.Step` is what it does to the
  description.
* `DescriptionFits` says that no addition writes behind the description, nor the commit behind
  either of them. `RoomLeft` says of each addition that the length it computes is right, and of
  the last one with data that it does not fill the description to its length.
* `description_fits_iff` is the theorem about every sequence of additions: the second is exactly
  what the first takes.
-/

namespace Ocoms

open Layout Nest

/-! ### The optimized description -/

lemma Nest.length_flatten_unrolled (type : TypeId) (flags : Flags) (count : ℕ) (extent stride : ℤ)
    (n : ℕ) (disp : ℤ) (rest : Nest) :
    (Nest.unrolled type flags count extent stride n disp rest).flatten.length
      = n + rest.flatten.length := by
  induction n generalizing disp with
  | zero => rw [Nest.unrolled, Nat.zero_add]
  | succ n ih =>
      rw [Nest.unrolled, flatten, List.length_cons, ih]
      ring

lemma Nest.length_flatten_gappedPasses_le (l : LoopInfo) (loopDisp : ℤ) (counter : ℕ)
    (mergedDisp : ℤ) (rest : Nest) :
    (gappedPasses l loopDisp counter mergedDisp rest).flatten.length ≤ 3 + rest.flatten.length := by
  rw [gappedPasses]
  split_ifs with hc
  · rw [length_flatten_unrolled]
    omega
  · rw [length_flatten_loop]
    simp only [flatten, List.length_cons, List.length_nil]
    omega

lemma Nest.length_flatten_otherLoop_le (l : LoopInfo) {b b' : Nest}
    (hb : b'.flatten.length ≤ b.flatten.length) (rest : Nest) :
    (otherLoop l b b' rest).flatten.length ≤ b.flatten.length + rest.flatten.length + 2 := by
  have hloop : (Nest.loop l.copied b' rest).flatten.length
      ≤ b.flatten.length + rest.flatten.length + 2 := by
    rw [length_flatten_loop]
    omega
  rw [otherLoop.eq_def]
  split
  · split_ifs with h₁ h₂
    · simp only [flatten, List.length_cons, List.length_nil]
      omega
    · rw [length_flatten_unrolled]
      omega
    · exact hloop
  · exact hloop

/-- **The optimizer writes no more entries than it reads**, apart from the data gathered so far. -/
theorem Nest.length_flatten_optimized_le {t : Nest} (h : t.Wf) (last : Option ElemDesc) :
    (t.optimized last).flatten.length ≤ t.flatten.length + (pendingEntries last).length := by
  induction t generalizing last with
  | done => simp [optimized, flatten_behind, flatten]
  | elem e r ih =>
      have hr := ih h.2.2 (some (gatherElem last e).2)
      have hout : (pendingEntries (gatherElem last e).1).length ≤ (pendingEntries last).length := by
        cases last with
        | none => rfl
        | some p =>
            rw [gatherElem]
            split_ifs <;> simp
      rw [optimized, flatten_behind, List.length_append, flatten, List.length_cons]
      simp only [pendingEntries_some, List.length_singleton] at hr
      omega
  | loop l b r ihb ih =>
      obtain ⟨-, hne, hbwf, hrwf⟩ := h
      have hpos := length_flatten_pos hne
      have hnone := ih hrwf none
      simp only [pendingEntries_none, List.length_nil, Nat.add_zero] at hnone
      rw [optimized, length_flatten_loop]
      split_ifs with hc hd
      · have hr := ih hrwf (some (gatherLoop last l b.firstDisp).2)
        have hout : (pendingEntries (gatherLoop last l b.firstDisp).1).length
            ≤ (pendingEntries last).length := by
          cases last with
          | none => rfl
          | some p =>
              rw [gatherLoop]
              split_ifs <;> simp
        rw [flatten_behind, List.length_append]
        simp only [pendingEntries_some, List.length_singleton] at hr
        omega
      · have hpasses := fun counter mergedDisp => length_flatten_gappedPasses_le l b.firstDisp
          counter mergedDisp (r.optimized none)
        rw [gappedLoop.eq_def]
        cases last with
        | none =>
            have hle := hpasses l.loops 0
            simp only [pendingEntries_none, List.length_nil]
            omega
        | some p =>
            have hle := hpasses l.loops 0
            have hle' := hpasses (l.loops - 1) l.extent
            simp only [pendingEntries_some, List.length_singleton]
            split_ifs
            · rw [flatten, List.length_cons]
              omega
            · rw [flatten, List.length_cons]
              omega
      · have hb := ihb hbwf none
        simp only [pendingEntries_none, List.length_nil, Nat.add_zero] at hb
        have hother := length_flatten_otherLoop_le l hb (r.optimized none)
        rw [flatten_behind, List.length_append]
        omega

/-- **The optimized description fits** its buffer of `2 * used + 1` entries, with its `END_LOOP`. -/
lemma Datatype.Described.optDesc_fits {dt dt' : Datatype} {D : Nest} (h : dt.Described D)
    (hc : dt.flags.commited = false) (hcommit : dt.commit = some dt') :
    dt'.optDesc.length = (if dt.desc.used = 0 then 0 else 2 * dt.desc.used + 1) ∧
      dt'.optDesc.desc.length ≤ dt'.optDesc.length := by
  obtain ⟨dt₁, hcommit₁, hdt₁⟩ := h.commit hc
  obtain rfl : dt₁ = dt' := Option.some.inj (hcommit₁.symm.trans hcommit)
  rw [Datatype.commit, hc, if_neg Bool.false_ne_true] at hcommit
  dsimp only at hcommit
  by_cases hused : dt.desc.used = 0
  · rw [if_pos hused] at hcommit
    cases hcommit
    exact ⟨(if_pos hused).symm, le_rfl⟩
  · rw [if_neg hused, Option.map_eq_some_iff] at hcommit
    obtain ⟨optDesc, hopt, rfl⟩ := hcommit
    have hlength : optDesc.length = 2 * dt.desc.used + 1 := by
      simp only [optimizeShort, Option.bind_eq_bind, Option.bind_eq_some_iff, Option.pure_def,
        Option.some.injEq] at hopt
      obtain ⟨s, -, rfl⟩ := hopt
      rfl
    have hD : D ≠ .done := by
      rintro rfl
      exact hused h.used
    obtain ⟨fake, hfake⟩ := hdt₁.optDesc hD
    have hle := Nest.length_flatten_optimized_le h.wf none
    rw [pendingEntries_none, List.length_nil, Nat.add_zero, ← h.used] at hle
    have hlength' : ∀ e : List DtElemDesc,
        (if optDesc.used ≠ 0 then { optDesc with desc := e } else optDesc).length
          = 2 * dt.desc.used + 1 := fun e => by
      split_ifs <;> exact hlength
    rw [if_neg hused, hfake, hlength', Nest.desc, List.length_append, List.length_singleton]
    exact ⟨rfl, by omega⟩

/-! ### Calls -/

/-- The arguments of a call of `ocoms_datatype_add`. -/
structure AddCall where
  pdtAdd : Datatype
  count : ℕ
  disp : ℤ
  extent : ℤ

namespace AddCall

/-- A type that is built is added, and the true bounds fit the C type. -/
structure Valid (c : AddCall) : Prop where
  built : ∃ as, Built Unrestricted c.pdtAdd as
  fits : AddFits c.pdtAdd c.count c.disp c.extent

/-- The room in the description that the call asks for; `none` when it leaves it as it is. -/
def placeNeeded (c : AddCall) : Option ℕ :=
  if c.pdtAdd.id = .lb ∨ c.pdtAdd.id = .ub ∨ c.count = 0 ∨ c.pdtAdd.size = 0 then none
  else requiredEntries c.pdtAdd c.count (addExtent c.pdtAdd c.extent)

/-- The entries that the call writes. -/
def entries (c : AddCall) : ℕ :=
  let extent := addExtent c.pdtAdd c.extent
  if c.pdtAdd.flags.predefined then if extent ≠ c.pdtAdd.size ∧ 1 < c.count then 3 else 1
  else if (mergedEntry c.pdtAdd c.count c.disp extent).isSome then 1
  else if c.count = 1 then c.pdtAdd.desc.used else c.pdtAdd.desc.used + 2

end AddCall

/-- The datatype behind a call; one that fails leaves it as it is. -/
def Datatype.addCall (dt : Datatype) (c : AddCall) : Datatype :=
  (dt.add c.pdtAdd c.count c.disp c.extent).getD dt

/-- The datatype behind a sequence of calls. -/
def Datatype.addAll (dt : Datatype) (calls : List AddCall) : Datatype :=
  calls.foldl Datatype.addCall dt

/-- What a call does to the description. -/
inductive AddCall.Step (dt : Datatype) (c : AddCall) : Prop
  | nothing : c.placeNeeded = none → (dt.addCall c).desc = dt.desc → AddCall.Step dt c
  | data (n : ℕ) : c.placeNeeded = some n →
      (dt.addCall c).desc.length = grownLength dt.desc.length dt.desc.used n →
      (dt.addCall c).desc.used = dt.desc.used + c.entries →
      0 < c.entries → c.entries ≤ n → c.entries = n ∨ n ≤ 3 → AddCall.Step dt c

section Calls

variable {dt : Datatype} {c : AddCall} {calls : List AddCall}

/-- The entries of the nest that a call adds. -/
lemma AddCall.entries_eq (h : c.Valid) (hsize : c.pdtAdd.size ≠ 0) (dt : Datatype) :
    (addEntries dt c.pdtAdd c.count c.disp (addExtent c.pdtAdd c.extent)).1.length = c.entries ∧
      (c.pdtAdd.flags.predefined = false → 0 < c.pdtAdd.desc.used) := by
  obtain ⟨as, hbuilt⟩ := h.built
  rw [entries, addEntries]
  by_cases hp : c.pdtAdd.flags.predefined = true
  · have hbasic := hbuilt.basic hp hsize
    rw [if_pos ⟨hp, hbasic.data⟩, predefinedEntries]
    refine ⟨?_, fun h => absurd hp (by simp [h])⟩
    simp only [hp, if_true]
    split_ifs <;> rfl
  · have hp' : c.pdtAdd.flags.predefined = false := by simpa using hp
    obtain ⟨D, hD⟩ := hbuilt.described hp'
    have hused : 0 < c.pdtAdd.desc.used := by
      rw [hD.used]
      refine Nest.length_flatten_pos ?_
      rintro rfl
      exact hsize hD.size.symm
    rw [if_neg (fun h => hp h.1), if_neg hp]
    refine ⟨?_, fun _ => hused⟩
    cases hm : mergedEntry c.pdtAdd c.count c.disp (addExtent c.pdtAdd c.extent) with
    | some e => rfl
    | none =>
        have htake : (c.pdtAdd.desc.desc.take c.pdtAdd.desc.used).length = c.pdtAdd.desc.used := by
          rw [hD.desc, hD.used]
        simp only [derivedEntries, Option.isSome_none, Bool.false_eq_true, if_false]
        by_cases hc : c.count = 1
        · rw [if_neg (not_not.mpr hc), if_pos hc, List.length_map, htake]
        · rw [if_pos hc, if_neg hc]
          simp only [List.length_cons, List.length_append, List.length_map, htake, List.length_nil]

/-- The room that is asked for is enough, and exact unless it is that of a small addition. -/
lemma AddCall.entries_le (h : c.Valid) {n : ℕ} (hn : c.placeNeeded = some n) :
    0 < c.entries ∧ c.entries ≤ n ∧ (c.entries = n ∨ n ≤ 3) := by
  rw [placeNeeded, requiredEntries] at hn
  by_cases hnone : c.pdtAdd.id = .lb ∨ c.pdtAdd.id = .ub ∨ c.count = 0 ∨ c.pdtAdd.size = 0
  · rw [if_pos hnone] at hn
    cases hn
  · rw [if_neg hnone] at hn
    simp only [not_or] at hnone
    obtain ⟨hlen, hused⟩ := entries_eq h hnone.2.2.2 emptyDatatype
    by_cases hp : c.pdtAdd.flags.predefined = true
    · rw [if_pos hp, Option.some.injEq] at hn
      rw [entries]
      simp only [hp, if_true]
      split_ifs at hn ⊢ <;> omega
    · have hpos := hused (by simpa using hp)
      rw [if_neg hp] at hn
      have hmerged : (mergedEntry c.pdtAdd c.count c.disp (addExtent c.pdtAdd c.extent)).isSome →
          c.pdtAdd.desc.used = 1 := by
        intro hm
        obtain ⟨as, hbuilt⟩ := h.built
        obtain ⟨D, hD⟩ := hbuilt.described (by simpa using hp)
        rcases mergedEntry_cases hD c.count c.disp (addExtent c.pdtAdd c.extent) with
          hm' | ⟨e, rfl, -⟩
        · rw [hm'] at hm
          cases hm
        · exact hD.used
      rw [entries]
      simp only [if_neg hp]
      by_cases hm : (mergedEntry c.pdtAdd c.count c.disp (addExtent c.pdtAdd c.extent)).isSome
      · have hone := hmerged hm
        rw [if_pos hm]
        split_ifs at hn <;> simp only [Option.some.injEq] at hn <;> omega
      · rw [if_neg hm]
        split_ifs at hn ⊢ <;> simp only [Option.some.injEq] at hn <;> omega

/-- **One call** leaves the description as it is, or asks for room and writes its entries. -/
lemma AddCall.step (h : c.Valid) (dt : Datatype) : c.Step dt := by
  have hkeep := Datatype.recheckGaps_desc
  by_cases hlb : c.pdtAdd.id = .lb
  · refine .nothing (if_pos (Or.inl hlb)) ?_
    rw [Datatype.addCall, Datatype.add, if_pos hlb, Option.getD_some, Datatype.addLb, hkeep]
  by_cases hub : c.pdtAdd.id = .ub
  · refine .nothing (if_pos (Or.inr (Or.inl hub))) ?_
    rw [Datatype.addCall, Datatype.add, if_neg hlb, if_pos hub, Option.getD_some, Datatype.addUb,
      hkeep]
  have hadd : dt.addCall c = ((requiredEntries c.pdtAdd c.count
      (addExtent c.pdtAdd c.extent)).bind fun placeNeeded =>
        if c.count = 0 ∨ c.pdtAdd.size = 0 then
          some (dt.addBounds c.pdtAdd c.count c.disp (addExtent c.pdtAdd c.extent))
        else some ((dt.addBounds c.pdtAdd c.count c.disp (addExtent c.pdtAdd c.extent)).addData
          c.pdtAdd c.count c.disp (addExtent c.pdtAdd c.extent) placeNeeded)).getD dt := by
    simp only [Datatype.addCall, Datatype.add, if_neg hlb, if_neg hub]
    cases requiredEntries c.pdtAdd c.count (addExtent c.pdtAdd c.extent) <;> rfl
  by_cases h0 : c.count = 0 ∨ c.pdtAdd.size = 0
  · refine .nothing (if_pos (Or.inr (Or.inr h0))) ?_
    rw [hadd]
    cases requiredEntries c.pdtAdd c.count (addExtent c.pdtAdd c.extent) with
    | none => rfl
    | some placeNeeded =>
        simp only [if_pos h0]
        rfl
  have hplace : c.placeNeeded = requiredEntries c.pdtAdd c.count (addExtent c.pdtAdd c.extent) :=
    if_neg (by simp only [hlb, hub, h0, or_self, not_false_iff])
  cases hn : requiredEntries c.pdtAdd c.count (addExtent c.pdtAdd c.extent) with
  | none =>
      rw [hn] at hadd hplace
      exact .nothing hplace (by rw [hadd]; rfl)
  | some n =>
      rw [hn] at hadd hplace
      simp only [Option.bind_some, if_neg h0, Option.getD_some] at hadd
      obtain ⟨hpos, hle, hexact⟩ := entries_le h hplace
      have hlen := (entries_eq h (fun hsize => h0 (Or.inr hsize))
        (dt.addBounds c.pdtAdd c.count c.disp (addExtent c.pdtAdd c.extent))).1
      refine .data n hplace (by rw [hadd]; rfl) ?_ hpos hle hexact
      rw [hadd, ← hlen]
      rfl

/-! ### The room -/

/-- The addition does not make the length of the description wrap around. -/
def AddCall.Computable (c : AddCall) (dt : Datatype) : Prop :=
  ∀ n ∈ c.placeNeeded, dt.desc.used + n ≤ dt.desc.length ∨ dt.desc.used + n < 2 ^ 32 - 8

instance (c : AddCall) (dt : Datatype) : Decidable (c.Computable dt) :=
  inferInstanceAs (Decidable (∀ n ∈ c.placeNeeded, _))

/-- The addition makes the description longer, or does not fill it to its length. -/
def AddCall.LeavesEntry (c : AddCall) (dt : Datatype) : Prop :=
  ∀ n ∈ c.placeNeeded, dt.desc.length < dt.desc.used + n ∨
    dt.desc.used + c.entries < dt.desc.length

instance (c : AddCall) (dt : Datatype) : Decidable (c.LeavesEntry dt) :=
  inferInstanceAs (Decidable (∀ n ∈ c.placeNeeded, _))

/-- The lengths do not wrap around, and the last addition of data leaves an entry. -/
def RoomLeft : Datatype → List AddCall → Prop
  | _, [] => True
  | dt, c :: calls =>
      c.Computable dt ∧ ((∀ d ∈ calls, d.placeNeeded = none) → c.LeavesEntry dt) ∧
        RoomLeft (dt.addCall c) calls

/-- Every addition writes below the length of the description. -/
def AddsInside : Datatype → List AddCall → Prop
  | _, [] => True
  | dt, c :: calls =>
      (∀ i, dt.desc.used ≤ i → i < (dt.addCall c).desc.used → i < (dt.addCall c).desc.length) ∧
        AddsInside (dt.addCall c) calls

/-- The commit writes below the length of the description, and no more into the optimized one
than is allocated. -/
def CommitsInside (dt : Datatype) : Prop :=
  dt.desc.used + 1 ≤ dt.desc.length ∧ ∃ dt', dt.commit = some dt' ∧
    dt'.optDesc.desc.length ≤ dt'.optDesc.length ∧
    (dt.desc.used ≠ 0 → dt'.optDesc.length = 2 * dt.desc.used + 1)

/-- A sequence of additions and the commit stay inside of the buffers. -/
def DescriptionFits (dt : Datatype) (calls : List AddCall) : Prop :=
  AddsInside dt calls ∧ CommitsInside (dt.addAll calls)

/-- The length of a description fits its type when it is rounded up. -/
lemma grownLength_le {length used n : ℕ} (h : length ≤ 2 ^ 32 - 8) :
    grownLength length used n ≤ 2 ^ 32 - 8 := by
  simp only [grownLength, dtIncreaseStack]
  split_ifs
  · omega
  · exact h

/-- An addition is inside exactly if the length does not wrap around. -/
lemma AddCall.inside_iff {length used n entries : ℕ} (hused : used ≤ length)
    (hlength : length ≤ 2 ^ 32 - 8) (hpos : 0 < entries) (hle : entries ≤ n)
    (hexact : entries = n ∨ n ≤ 3) :
    used + entries ≤ grownLength length used n ↔ used + n ≤ length ∨ used + n < 2 ^ 32 - 8 := by
  simp only [grownLength, dtIncreaseStack]
  split_ifs <;> omega

/-- Behind such an addition there is an entry left if it makes the description longer, or does not
fill it. -/
lemma AddCall.left_iff {length used n entries : ℕ} (hlength : length ≤ 2 ^ 32 - 8)
    (hle : entries ≤ n) (hroom : used + n ≤ length ∨ used + n < 2 ^ 32 - 8) :
    used + entries < grownLength length used n ↔ length < used + n ∨ used + entries < length := by
  simp only [grownLength, dtIncreaseStack]
  split_ifs <;> omega

/-- The additions are inside and leave an entry exactly if there is room. The induction carries
that the description has the entries used so far, and a length that can be rounded up. -/
lemma addsInside_iff (hvalid : ∀ c ∈ calls, c.Valid) (hused : dt.desc.used ≤ dt.desc.length)
    (hlength : dt.desc.length ≤ 2 ^ 32 - 8) :
    AddsInside dt calls ∧ (dt.addAll calls).desc.used < (dt.addAll calls).desc.length ↔
      RoomLeft dt calls ∧
        ((∀ c ∈ calls, c.placeNeeded = none) → dt.desc.used < dt.desc.length) := by
  induction calls generalizing dt with
  | nil => simp [AddsInside, RoomLeft, Datatype.addAll]
  | cons c calls ih =>
      obtain ⟨hc, hcalls⟩ := List.forall_mem_cons.mp hvalid
      have hall : dt.addAll (c :: calls) = (dt.addCall c).addAll calls := rfl
      rw [hall, AddsInside, RoomLeft, List.forall_mem_cons]
      rcases AddCall.step hc dt with ⟨hnone, hdesc⟩ | ⟨n, hn, hlen, hus, hpos, hle, hexact⟩
      · have hrest := @ih (dt.addCall c) hcalls (hdesc ▸ hused) (hdesc ▸ hlength)
        rw [hdesc] at hrest
        simp only [AddCall.Computable, AddCall.LeavesEntry, hnone, hdesc, Option.mem_def,
          reduceCtorEq, false_implies, implies_true, true_and]
        rw [and_assoc, hrest]
        exact and_iff_right fun i h₁ h₂ => absurd h₁ (by omega)
      · have hcomp : c.Computable dt ↔
            dt.desc.used + n ≤ dt.desc.length ∨ dt.desc.used + n < 2 ^ 32 - 8 := by
          simp [AddCall.Computable, hn]
        have hleaves : c.LeavesEntry dt ↔ dt.desc.length < dt.desc.used + n ∨
            dt.desc.used + c.entries < dt.desc.length := by
          simp [AddCall.LeavesEntry, hn]
        have hinside : (∀ i, dt.desc.used ≤ i → i < (dt.addCall c).desc.used →
            i < (dt.addCall c).desc.length) ↔ c.Computable dt := by
          rw [hcomp, ← AddCall.inside_iff hused hlength hpos hle hexact, hlen, hus]
          exact ⟨fun h => by have := h (dt.desc.used + c.entries - 1); omega,
            fun h i _ hi => by omega⟩
        rw [hinside, hn, and_assoc, and_assoc, and_assoc]
        refine and_congr_right fun hok => ?_
        have hroom := hcomp.mp hok
        have hfits := (AddCall.inside_iff hused hlength hpos hle hexact).mpr hroom
        have hrest := @ih (dt.addCall c) hcalls (by rw [hlen, hus]; exact hfits)
          (by rw [hlen]; exact grownLength_le hlength)
        rw [hlen, hus, AddCall.left_iff hlength hle hroom, ← hleaves] at hrest
        rw [hrest]
        constructor
        · rintro ⟨hleft, hlast⟩
          exact ⟨hlast, hleft, fun h => by cases h.1⟩
        · rintro ⟨hlast, hleft, -⟩
          exact ⟨hleft, hlast⟩

/-- An addition keeps a datatype that is built, and not committed yet. -/
structure Datatype.Open (dt : Datatype) : Prop where
  built : ∃ as, Built Unrestricted dt as
  predefined : dt.flags.predefined = false
  commited : dt.flags.commited = false

lemma Datatype.Open.addCall (h : dt.Open) (hc : c.Valid) : (dt.addCall c).Open := by
  obtain ⟨as, hbuilt⟩ := h.built
  obtain ⟨bs, hadd⟩ := hc.built
  rw [Datatype.addCall]
  cases hdt : dt.add c.pdtAdd c.count c.disp c.extent with
  | none => exact h
  | some dt' =>
      have hbuilt' := Built.add c.count c.disp c.extent hbuilt h.predefined hadd hc.fits trivial hdt
      have hflags : dt'.flags.predefined = dt.flags.predefined ∧
          dt'.flags.commited = dt.flags.commited := by
        have hrecheck : ∀ dt : Datatype, dt.recheckGaps.flags.predefined = dt.flags.predefined ∧
            dt.recheckGaps.flags.commited = dt.flags.commited := fun dt => by
          rw [Datatype.recheckGaps]
          split_ifs <;> exact ⟨rfl, rfl⟩
        cases Datatype.addCase_of_add hdt with
        | lb => exact hrecheck _
        | ub => exact hrecheck _
        | nothing => exact ⟨rfl, rfl⟩
        | data => exact ⟨rfl, rfl⟩
      exact ⟨⟨_, hbuilt'⟩, hflags.1.trans h.predefined, hflags.2.trans h.commited⟩

lemma Datatype.Open.addAll (h : dt.Open) (hvalid : ∀ c ∈ calls, c.Valid) : (dt.addAll calls).Open := by
  induction calls generalizing dt with
  | nil => exact h
  | cons c calls ih =>
      obtain ⟨hc, hcalls⟩ := List.forall_mem_cons.mp hvalid
      exact ih (h.addCall hc) hcalls

/-- The commit is inside exactly if an entry is left. -/
lemma Datatype.Open.commitsInside_iff (h : dt.Open) :
    CommitsInside dt ↔ dt.desc.used < dt.desc.length := by
  refine ⟨fun hin => hin.1, fun hlt => ⟨hlt, ?_⟩⟩
  obtain ⟨as, hbuilt⟩ := h.built
  obtain ⟨D, hD⟩ := hbuilt.described h.predefined
  obtain ⟨dt', hcommit, -⟩ := hD.commit h.commited
  obtain ⟨hlength, hfits⟩ := hD.optDesc_fits h.commited hcommit
  exact ⟨dt', hcommit, hfits, fun hused => hlength.trans (if_neg hused)⟩

end Calls

/-- One `INT4` at `disp`. -/
def addInt4 (disp : ℤ) : AddCall := { pdtAdd := predefined .int4, count := 1, disp, extent := -1 }

lemma valid_addInt4 {disp : ℤ} (hlow : longMin ≤ disp) (hhigh : disp + 4 ≤ longMax) :
    (addInt4 disp).Valid := by
  refine ⟨⟨_, .predefined .int4⟩, fun _ _ => ?_⟩
  have hpos : (predefined .int4).trueLb < (predefined .int4).trueUb := by decide
  have hbounds : addTrueBounds (predefined .int4) 1 disp (addExtent (predefined .int4) (-1)) = _ :=
    addTrueBounds_eq one_ne_zero hpos
  have hlb : (predefined .int4).trueLb = 0 := rfl
  have hub : (predefined .int4).trueUb = 4 := rfl
  simp only [hlb, hub, Nat.cast_one, sub_self, mul_zero, add_zero, min_self, max_self] at hbounds
  exact hbounds ▸ ⟨hlow, hhigh⟩

end Ocoms
