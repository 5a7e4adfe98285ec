import Ocoms.Datatype.Description

/-!
What the optimized description means.

* `Nest.Denotes d bs` says that every walk of a nest reads the addresses `bs`, whatever it takes
  through the shortcut for `CONTIGUOUS` loops.
* `Joins p t` says that the optimizer joins the data `p` with what follows it; `JoinsSafely`, that
  it may: there are no gaps in `p`, and no loop of two or more passes remains with its element
  where the first pass was.
* `Nest.optimized_denotes_iff` says that the optimized nest denotes the typemap of the plain one
  exactly if all joins are safe.
* `commit_denotes_iff` is the theorem about every built datatype: what `ocoms_datatype_commit`
  writes denotes the description exactly if all its joins are safe.
-/

namespace Ocoms

open Layout

namespace Nest

/-! ### What every walk reads -/

/-- Every walk of the nest reads the addresses `bs`. -/
def Denotes (t : Nest) (d : ℤ) (bs : List ℤ) : Prop := ∀ as, t.Emits d as ↔ as = bs

lemma Matches.denotes {t : Nest} (h : t.Matches) (d : ℤ) : t.Denotes d (t.bytes d) := h.emits_iff d

lemma Denotes.emits {t : Nest} {d : ℤ} {bs : List ℤ} (h : t.Denotes d bs) : t.Emits d bs :=
  (h bs).mpr rfl

/-- A nest that emits `xs`, of the length of `as`, in front of what another one emits. -/
lemma denotes_append_iff {t rest : Nest} {d : ℤ} {as xs ys : List ℤ}
    (h : ∀ bs, t.Emits d bs ↔ ∃ cs, rest.Emits d cs ∧ bs = as ++ cs)
    (hlen : xs.length = as.length) : t.Denotes d (xs ++ ys) ↔ as = xs ∧ rest.Denotes d ys := by
  constructor
  · intro hd
    obtain ⟨cs, hcs, heq⟩ := (h _).mp hd.emits
    obtain ⟨rfl, rfl⟩ := List.append_inj heq hlen
    refine ⟨rfl, fun bs => ⟨fun hbs => ?_, fun hbs => hbs ▸ hcs⟩⟩
    exact List.append_cancel_left ((hd _).mp ((h _).mpr ⟨bs, hbs, rfl⟩))
  · rintro ⟨rfl, hd⟩ bs
    rw [h]
    constructor
    · rintro ⟨cs, hcs, rfl⟩
      rw [(hd cs).mp hcs]
    · rintro rfl
      exact ⟨ys, hd.emits, rfl⟩

lemma denotes_elem_iff {e : ElemDesc} {rest : Nest} {d : ℤ} {xs ys : List ℤ}
    (hlen : xs.length = e.count * basicSize e.type) :
    (elem e rest).Denotes d (xs ++ ys) ↔
      blocksBytes (elemBlocks e e.count d) = xs ∧ rest.Denotes d ys :=
  denotes_append_iff (fun _ => Iff.rfl) (by rw [hlen, length_blocksBytes_elemBlocks])

/-- The bytes of the data gathered so far. -/
def lastBytes (last : Option ElemDesc) (d : ℤ) : List ℤ :=
  match last with
  | none => []
  | some p => blocksBytes (elemBlocks p p.count d)

@[simp] lemma lastBytes_none (d : ℤ) : lastBytes none d = [] := rfl

lemma denotes_behind_iff (last : Option ElemDesc) (t : Nest) (d : ℤ) (ys : List ℤ) :
    (behind last t).Denotes d (lastBytes last d ++ ys) ↔ t.Denotes d ys := by
  cases last with
  | none => rfl
  | some p =>
      rw [behind, lastBytes, denotes_elem_iff (length_blocksBytes_elemBlocks p p.count d)]
      exact and_iff_right rfl

/-- The bytes of an element that is moved. -/
lemma blocksBytes_elemBlocks_mkElem (type : TypeId) (flags : Flags) (count : ℕ)
    (disp extent : ℤ) (n : ℕ) (x d : ℤ) :
    blocksBytes (elemBlocks (mkElem type flags count (disp + x) extent) n d)
      = blocksBytes (elemBlocks (mkElem type flags count disp extent) n (d + x)) := by
  rw [elemBlocks, elemBlocks, mkElem, mkElem]
  congr 2
  ring

lemma denotes_unrolled_iff (type : TypeId) (flags : Flags) (count : ℕ) (extent stride : ℤ)
    (n : ℕ) (disp : ℤ) (rest : Nest) (d : ℤ) (ys : List ℤ) :
    (unrolled type flags count extent stride n disp rest).Denotes d
        (Layout.stride n stride (fun x => blocksBytes (elemBlocks
          (mkElem type flags count disp extent) count x)) d ++ ys) ↔ rest.Denotes d ys := by
  induction n generalizing disp with
  | zero => rfl
  | succ n ih =>
      have hshift : Layout.stride n stride (fun x => blocksBytes (elemBlocks
          (mkElem type flags count disp extent) count x)) (d + stride)
          = Layout.stride n stride (fun x => blocksBytes (elemBlocks
            (mkElem type flags count (disp + stride) extent) count x)) d := by
        rw [stride_add_right]
        exact stride_congr _ _ _ fun x =>
          (blocksBytes_elemBlocks_mkElem type flags count disp extent count stride x).symm
      rw [unrolled, stride_succ, List.append_assoc, hshift, denotes_elem_iff
        (length_blocksBytes_elemBlocks (mkElem type flags count disp extent) count d), ih]
      exact and_iff_right rfl

/-- A loop with a matching end, whose body denotes its typemap. -/
lemma LoopMatches.denotes_iff {l : LoopInfo} {body : Nest} (hm : LoopMatches l body)
    (hb : body.Matches) (rest : Nest) (d : ℤ) (ys : List ℤ) :
    (loop l body rest).Denotes d (stride l.loops l.extent body.bytes d ++ ys) ↔
      rest.Denotes d ys :=
  (denotes_append_iff (emits_loop_iff hm.bytes_eq (fun d as => hb.emits_iff d as) rest d) rfl).trans
    (and_iff_right rfl)

/-! ### The data gathered so far -/

end Nest

open Nest

/-- The optimizer joins the data `p` with the start of `t`. -/
def Joins (p : ElemDesc) : Nest → Prop
  | .done => False
  | .elem e _ => e.flags.contiguous = true ∧ p.denseEnd = e.disp ∧ e.extent = basicSize e.type
  | .loop l body _ => l.flags.contiguous = true ∧ p.denseEnd = body.firstDisp

/-- A loop that keeps its element where the first pass was when that pass is joined with the data
in front of it. -/
def KeepsFirstDisp : Nest → Prop
  | .loop l _ _ => l.extent ≠ l.size ∧ l.extent ≠ 0 ∧ 3 < l.loops
  | _ => False

/-- A join that keeps the typemap. -/
def JoinsSafely (p : ElemDesc) (t : Nest) : Prop := Joins p t → ¬ p.Gapped ∧ ¬ KeepsFirstDisp t

/-- A `CONTIGUOUS` loop without gaps, as data. -/
def LoopInfo.gathered (l : LoopInfo) (loopDisp : ℤ) : ElemDesc :=
  mkElem .uint1 .basic (l.loops * l.size) loopDisp 1

/-- All joins of an element, or of a `CONTIGUOUS` loop without gaps, with what follows it on the
same level are safe. -/
def Nest.SafeJoins : Nest → Prop
  | done => True
  | elem e rest => JoinsSafely e rest ∧ rest.SafeJoins
  | loop l body rest =>
      (l.flags.contiguous = true → l.extent = l.size →
        JoinsSafely (l.gathered body.firstDisp) rest) ∧
      (l.flags.contiguous = false → body.SafeJoins) ∧ rest.SafeJoins

/-! ### Joining data -/

section Gather

variable {p e : ElemDesc}

@[simp] lemma denseEnd_extended (p : ElemDesc) (size : ℕ) :
    (p.extended size).denseEnd = p.denseEnd + size := by
  simp [ElemDesc.extended, ElemDesc.denseEnd, mkElem, basicSize]
  ring

lemma not_gapped_extended (p : ElemDesc) (size : ℕ) : ¬ (p.extended size).Gapped := fun h => h.2 rfl

lemma not_gapped_gathered (l : LoopInfo) (loopDisp : ℤ) : ¬ (l.gathered loopDisp).Gapped :=
  fun h => h.2 rfl

lemma lastBytes_gathered (l : LoopInfo) (loopDisp d : ℤ) :
    lastBytes (some (l.gathered loopDisp)) d = run (d + loopDisp) (l.loops * l.size) := by
  rw [lastBytes, ElemDesc.bytes_of_not_gapped (not_gapped_gathered l loopDisp)]
  simp [LoopInfo.gathered, mkElem, basicSize]

/-- What is gathered behind an element ends where the element does. -/
lemma denseEnd_gatherElem (last : Option ElemDesc) (e : ElemDesc) :
    (gatherElem last e).2.denseEnd = e.denseEnd := by
  cases last with
  | none => rfl
  | some p =>
      rw [gatherElem]
      split_ifs with hj ht
      · have hend := hj.2.1
        simp only [ElemDesc.denseEnd, mkElem] at hend ⊢
        rw [← hend, ht]
        push_cast
        ring
      · refine (denseEnd_extended _ _).trans ?_
        rw [hj.2.1, ElemDesc.denseEnd]
        push_cast
        ring
      · rfl

/-- It has gaps if the element has, and is not joined. -/
lemma gapped_gatherElem (last : Option ElemDesc) (e : ElemDesc) :
    (gatherElem last e).2.Gapped ↔ e.Gapped := by
  cases last with
  | none => rfl
  | some p =>
      rw [gatherElem]
      split_ifs with hj ht
      · exact iff_of_false (fun h => h.2 (by rw [hj.2.2, ht]; rfl)) fun h => h.2 hj.2.2
      · exact iff_of_false (not_gapped_extended _ _) fun h => h.2 hj.2.2
      · rfl

lemma basicSize_gatherElem_pos (last : Option ElemDesc) (he : 0 < basicSize e.type) :
    0 < basicSize (gatherElem last e).2.type := by
  cases last with
  | none => exact he
  | some p =>
      rw [gatherElem]
      split_ifs with hj ht
      · exact ht ▸ he
      · exact Nat.one_pos
      · exact he

lemma basicSize_gatherLoop_pos (last : Option ElemDesc) (l : LoopInfo) (loopDisp : ℤ) :
    0 < basicSize (gatherLoop last l loopDisp).2.type := by
  cases last with
  | none => exact Nat.one_pos
  | some p =>
      rw [gatherLoop]
      split_ifs <;> exact Nat.one_pos

lemma joins_congr {p q : ElemDesc} (h : p.denseEnd = q.denseEnd) (t : Nest) :
    Joins p t ↔ Joins q t := by
  cases t <;> simp [Joins, h]

lemma joinsSafely_congr {p q : ElemDesc} (h : p.denseEnd = q.denseEnd) (hg : p.Gapped ↔ q.Gapped)
    (t : Nest) : JoinsSafely p t ↔ JoinsSafely q t := by
  rw [JoinsSafely, JoinsSafely, joins_congr h, hg]

lemma denseEnd_gatherLoop (last : Option ElemDesc) (l : LoopInfo) (loopDisp : ℤ) :
    (gatherLoop last l loopDisp).2.denseEnd = (l.gathered loopDisp).denseEnd := by
  cases last with
  | none => rfl
  | some p =>
      rw [gatherLoop]
      split_ifs with hj
      · rw [denseEnd_extended, hj]
        simp [LoopInfo.gathered, ElemDesc.denseEnd, mkElem, basicSize]
      · rfl

lemma not_gapped_gatherLoop (last : Option ElemDesc) (l : LoopInfo) (loopDisp : ℤ) :
    ¬ (gatherLoop last l loopDisp).2.Gapped := by
  cases last with
  | none => exact not_gapped_gathered l loopDisp
  | some p =>
      rw [gatherLoop]
      split_ifs with hj
      · exact not_gapped_extended _ _
      · exact not_gapped_gathered l loopDisp

/-- Data without gaps and what it is extended by are one run. -/
lemma bytes_extended (hp : ¬ p.Gapped) (size : ℕ) (d : ℤ) :
    lastBytes (some (p.extended size)) d = lastBytes (some p) d ++ run (d + p.denseEnd) size := by
  have hend : d + p.denseEnd = d + p.disp + (p.count * basicSize p.type : ℕ) := by
    rw [ElemDesc.denseEnd]
    push_cast
    ring
  rw [lastBytes, lastBytes, ElemDesc.bytes_of_not_gapped (not_gapped_extended _ _),
    ElemDesc.bytes_of_not_gapped hp, hend, ← run_add]
  simp [ElemDesc.extended, mkElem, basicSize]

/-- Elements of one type that are joined. -/
lemma bytes_gatherElem_joined (hp : ¬ p.Gapped)
    (hj : e.flags.contiguous = true ∧ p.denseEnd = e.disp ∧ e.extent = basicSize e.type) (d : ℤ) :
    lastBytes (some (gatherElem (some p) e).2) d
      = lastBytes (some p) d ++ blocksBytes (elemBlocks e e.count d) := by
  have he : ¬ e.Gapped := fun h => h.2 hj.2.2
  rw [ElemDesc.bytes_of_not_gapped he, ← hj.2.1, gatherElem, if_pos hj]
  split_ifs with ht
  · have hm : ¬ (mkElem p.type .basic (p.count + e.count) p.disp e.extent).Gapped :=
      fun h => h.2 (by rw [hj.2.2, ht]; rfl)
    have hend : d + p.denseEnd = d + p.disp + (p.count * basicSize p.type : ℕ) := by
      rw [ElemDesc.denseEnd]
      push_cast
      ring
    rw [lastBytes, lastBytes, ElemDesc.bytes_of_not_gapped hm, ElemDesc.bytes_of_not_gapped hp, hend,
      ht, ← run_add, ← Nat.add_mul]
    rfl
  · exact bytes_extended hp _ d

lemma length_lastBytes_some (p : ElemDesc) (d : ℤ) :
    (lastBytes (some p) d).length = p.count * basicSize p.type := length_blocksBytes_elemBlocks _ _ _

/-- Whatever is joined with data without gaps, its bytes come first. -/
lemma Nest.lastBytes_prefix_of_emits {t : Nest} {m : ElemDesc} (hm : ¬ m.Gapped) {d : ℤ}
    {as : List ℤ} (h : (t.optimized (some m)).Emits d as) : lastBytes (some m) d <+: as := by
  have hhead : ∀ {q : ElemDesc} {r : Nest} {as : List ℤ}, (Nest.elem q r).Emits d as →
      lastBytes (some q) d <+: as := by
    rintro q r _ ⟨bs, -, rfl⟩
    exact List.prefix_append _ _
  induction t generalizing m as with
  | done => exact hhead h
  | elem e r ih =>
      rw [Nest.optimized] at h
      by_cases hj : e.flags.contiguous = true ∧ m.denseEnd = e.disp ∧ e.extent = basicSize e.type
      · have hnone : (gatherElem (some m) e).1 = none := by rw [gatherElem, if_pos hj]
        have hg : ¬ (gatherElem (some m) e).2.Gapped := by
          rw [gapped_gatherElem]
          exact fun h => h.2 hj.2.2
        rw [hnone] at h
        refine List.IsPrefix.trans ?_ (ih hg h)
        rw [bytes_gatherElem_joined hm hj]
        exact List.prefix_append _ _
      · rw [gatherElem, if_neg hj] at h
        exact hhead h
  | loop l b r _ ih =>
      rw [Nest.optimized] at h
      have hext : ∀ size d, lastBytes (some m) d <+: lastBytes (some (m.extended size)) d := by
        intro size d
        rw [bytes_extended hm]
        exact List.prefix_append _ _
      split_ifs at h with hc hd
      · by_cases hj : m.denseEnd = b.firstDisp
        · rw [gatherLoop, if_pos hj] at h
          exact (hext _ _).trans (ih (not_gapped_extended _ _) h)
        · rw [gatherLoop, if_neg hj] at h
          exact hhead h
      · rw [gappedLoop] at h
        split_ifs at h
        · exact (hext _ _).trans (hhead h)
        · exact hhead h
      · exact hhead h

/-- Data with gaps is lost when something is joined with it. -/
lemma ElemDesc.Gapped.not_joined {p m : ElemDesc} (hp : p.Gapped) (hsize : 0 < basicSize p.type)
    (hm : ¬ m.Gapped) (hdisp : m.disp = p.disp)
    (hlen : p.count * basicSize p.type ≤ m.count * basicSize m.type) {d : ℤ} {as : List ℤ} :
    ¬ lastBytes (some m) d <+: lastBytes (some p) d ++ as := by
  rintro ⟨bs, hbs⟩
  rw [lastBytes, lastBytes, ElemDesc.bytes_of_not_gapped hm, hdisp] at hbs
  exact hp.not_starts hsize hlen d bs as hbs

/-- What the optimizer does with data that it gathers: it joins it with what is there, or puts it
in its place. -/
structure Gathers (last : Option ElemDesc) (t : Nest) (bytes : ℤ → List ℤ)
    (g : Option ElemDesc × ElemDesc) : Prop where
  fresh : last = none → g.1 = none ∧ ∀ d, lastBytes (some g.2) d = bytes d
  apart : ∀ p, last = some p → ¬ Joins p t → g.1 = some p ∧ ∀ d, lastBytes (some g.2) d = bytes d
  joined : ∀ p, last = some p → Joins p t → g.1 = none ∧ ¬ g.2.Gapped ∧ g.2.disp = p.disp ∧
    p.count * basicSize p.type ≤ g.2.count * basicSize g.2.type ∧
    (¬ p.Gapped → ∀ d, lastBytes (some g.2) d = lastBytes (some p) d ++ bytes d)

/-- The joins of one step. -/
lemma Gathers.denotes_iff {last : Option ElemDesc} {t r : Nest} {bytes : ℤ → List ℤ}
    {g : Option ElemDesc × ElemDesc} (h : Gathers last t bytes g)
    (hlast : ∀ p ∈ last, 0 < basicSize p.type) (hkeep : ¬ KeepsFirstDisp t)
    (ht : ∀ d, t.bytes d = bytes d ++ r.bytes d) :
    (∀ d, (Nest.behind g.1 (r.optimized (some g.2))).Denotes d (lastBytes last d ++ t.bytes d)) ↔
      (∀ p ∈ last, JoinsSafely p t) ∧
        ∀ d, (r.optimized (some g.2)).Denotes d (lastBytes (some g.2) d ++ r.bytes d) := by
  cases last with
  | none =>
      obtain ⟨hout, hnew⟩ := h.fresh rfl
      rw [hout]
      simp [behind, ht, hnew, lastBytes_none]
  | some p =>
      by_cases hj : Joins p t
      · obtain ⟨hout, hm, hdisp, hlen, hnew⟩ := h.joined p rfl hj
        rw [hout, behind]
        by_cases hp : p.Gapped
        · refine iff_of_false (fun h => ?_) fun h => (h.1 p rfl hj).1 hp
          exact hp.not_joined (hlast p rfl) hm hdisp hlen (lastBytes_prefix_of_emits hm (h 0).emits)
        · have hsafe : ∀ q ∈ some p, JoinsSafely q t := by
            rintro q hq -
            obtain rfl := Option.some.inj hq
            exact ⟨hp, hkeep⟩
          refine Iff.trans (forall_congr' fun d => ?_) (and_iff_right hsafe).symm
          rw [hnew hp, ht, List.append_assoc]
      · obtain ⟨hout, hnew⟩ := h.apart p rfl hj
        have hsafe : ∀ q ∈ some p, JoinsSafely q t := by
          rintro q hq h
          obtain rfl := Option.some.inj hq
          exact absurd h hj
        rw [hout]
        refine Iff.trans (forall_congr' fun d => ?_) (and_iff_right hsafe).symm
        rw [denotes_behind_iff, ht, hnew]

/-- An element. -/
lemma gathers_elem (last : Option ElemDesc) (e : ElemDesc) (r : Nest) :
    Gathers last (.elem e r) (fun d => blocksBytes (elemBlocks e e.count d))
      (gatherElem last e) where
  fresh := by
    rintro rfl
    exact ⟨rfl, fun d => rfl⟩
  apart := by
    rintro p rfl hj
    rw [Joins] at hj
    rw [gatherElem, if_neg hj]
    exact ⟨rfl, fun d => rfl⟩
  joined := by
    rintro p rfl hj
    rw [Joins] at hj
    have hm : ¬ (gatherElem (some p) e).2.Gapped := by
      rw [gapped_gatherElem]
      exact fun h => h.2 hj.2.2
    have hnew := fun hp d => bytes_gatherElem_joined hp hj d
    rw [gatherElem, if_pos hj] at hm hnew ⊢
    refine ⟨rfl, hm, by split_ifs <;> rfl, ?_, hnew⟩
    split_ifs
    · exact Nat.mul_le_mul_right _ (Nat.le_add_right _ _)
    · simp [ElemDesc.extended, mkElem, basicSize]

/-- A `CONTIGUOUS` loop without gaps. -/
lemma gathers_loop (last : Option ElemDesc) {l : LoopInfo} (hcont : l.flags.contiguous = true)
    (b r : Nest) :
    Gathers last (.loop l b r) (fun d => run (d + b.firstDisp) (l.loops * l.size))
      (gatherLoop last l b.firstDisp) where
  fresh := by
    rintro rfl
    exact ⟨rfl, lastBytes_gathered l b.firstDisp⟩
  apart := by
    rintro p rfl hj
    have hne : p.denseEnd ≠ b.firstDisp := fun h => hj ⟨hcont, h⟩
    rw [gatherLoop, if_neg hne]
    exact ⟨rfl, lastBytes_gathered l b.firstDisp⟩
  joined := by
    rintro p rfl hj
    rw [gatherLoop, if_pos hj.2]
    refine ⟨rfl, not_gapped_extended _ _, rfl, ?_, fun hp d => ?_⟩
    · simp [ElemDesc.extended, mkElem, basicSize]
    · rw [bytes_extended hp, hj.2]

end Gather

/-! ### Loops with gaps -/

section Loops

variable {l : LoopInfo} {b r : Nest}

/-- The passes that are left of a `CONTIGUOUS` loop with gaps. -/
lemma denotes_gappedPasses_iff (hsize : 0 < l.size)
    (counter : ℕ) (mergedDisp : ℤ) (rest : Nest) (d : ℤ) (ys : List ℤ) :
    (gappedPasses l l.firstElemDisp counter mergedDisp rest).Denotes d
        (stride counter l.extent (fun x => run (x + l.firstElemDisp) l.size) (d + mergedDisp) ++ ys) ↔
      (2 < counter → mergedDisp = 0) ∧ rest.Denotes d ys := by
  have helem : ∀ disp x, blocksBytes (elemBlocks (mkElem .uint1 .basic l.size disp 1) l.size x)
      = run (x + disp) l.size := by
    intro disp x
    have := ElemDesc.bytes_of_not_gapped (p := mkElem .uint1 .basic l.size disp 1)
      (fun h => h.2 rfl) x
    simpa [mkElem, basicSize] using this
  rw [gappedPasses]
  split_ifs with hle
  · have hstride : stride counter l.extent (fun x => run (x + l.firstElemDisp) l.size) (d + mergedDisp)
        = stride counter l.extent (fun x => blocksBytes (elemBlocks
          (mkElem .uint1 .basic l.size (mergedDisp + l.firstElemDisp) 1) l.size x)) d := by
      rw [stride_add_right]
      exact stride_congr _ _ _ fun x => by rw [helem]; congr 1; ring
    rw [hstride, denotes_unrolled_iff, and_iff_right fun h => by omega]
  · set l' : LoopInfo :=
      { l with loops := counter, firstElemDisp := l.firstElemDisp + mergedDisp : LoopInfo }.copied
      with hl'
    set body : Nest := .elem (mkElem .uint1 .basic l.size l.firstElemDisp 1) .done with hbody
    have hbytes : ∀ x, body.bytes x = run (x + l.firstElemDisp) l.size := fun x => by
      rw [hbody, bytes_elem, bytes_done, List.append_nil]
      exact helem l.firstElemDisp x
    by_cases hm : mergedDisp = 0
    · have hmatch : LoopMatches l' body := fun _ => by
        rw [hbytes, zero_add, hl', hm]
        simp [LoopInfo.copied]
      have hstride : stride counter l.extent (fun x => run (x + l.firstElemDisp) l.size) (d + mergedDisp)
          = stride l'.loops l'.extent body.bytes d := by
        rw [hm, add_zero]
        exact stride_congr _ _ _ fun x => (hbytes x).symm
      rw [hstride, hmatch.denotes_iff trivial, and_iff_right fun _ => hm]
    · -- the passes read entry by entry are not those behind the joined one
      refine iff_of_false (fun h => ?_) fun h => hm (h.1 (by omega))
      obtain ⟨-, -, -, -, -, bs, hbs, -⟩ := h.emits
      have hemits : (loop l' body rest).Emits d
          (stride counter l.extent (fun x => run (x + l.firstElemDisp) l.size) d ++ bs) := by
        refine ⟨0, Nat.zero_le _, fun _ => rfl, fun k => body.bytes (d + k * l.extent),
          fun k _ => ?_, bs, hbs, ?_⟩
        · rw [Matches.emits_iff (t := body) trivial, Nat.zero_add]
          rfl
        · rw [stride_zero, List.nil_append, Nat.sub_zero]
          congr 1
          exact (flatMap_range_eq_stride fun k _ => hbytes _).symm
      have heq := congrArg List.head? ((h _).mp hemits)
      obtain ⟨n, hn⟩ : ∃ n, counter = n + 1 := ⟨counter - 1, by omega⟩
      obtain ⟨k, hk⟩ := Nat.exists_eq_succ_of_ne_zero hsize.ne'
      rw [hn, stride_succ, stride_succ, hk, run, run] at heq
      simp only [List.cons_append, List.head?_cons, Option.some.injEq] at heq
      omega

/-- A `CONTIGUOUS` loop with gaps, and the data in front of it. -/
lemma denotes_gappedLoop_iff (hwf : (Nest.loop l b r).Wf) (hm : LoopMatches l b)
    (hc : l.flags.contiguous = true) (hd : l.extent ≠ l.size) {last : Option ElemDesc}
    (hlast : ∀ p ∈ last, 0 < basicSize p.type) (rest : Nest) :
    (∀ d, (Nest.gappedLoop last l b.firstDisp rest).Denotes d
        (lastBytes last d ++ (Nest.loop l b r).bytes d)) ↔
      (∀ p ∈ last, JoinsSafely p (.loop l b r)) ∧ ∀ d, rest.Denotes d (r.bytes d) := by
  obtain ⟨hfirst, hsize⟩ := hm.firstDisp_eq hc hwf.2.2.1 hwf.2.1
  have hbytes : ∀ d, (Nest.loop l b r).bytes d
      = stride l.loops l.extent (fun x => run (x + l.firstElemDisp) l.size) d ++ r.bytes d := by
    intro d
    rw [bytes_loop, hm.stride_eq hc]
  have hapart : ∀ d, (gappedPasses l b.firstDisp l.loops 0 rest).Denotes d
      ((Nest.loop l b r).bytes d) ↔ rest.Denotes d (r.bytes d) := by
    intro d
    have h := denotes_gappedPasses_iff hsize l.loops 0 rest d (r.bytes d)
    rw [add_zero] at h
    rw [hfirst, hbytes, h]
    exact and_iff_right fun _ => rfl
  cases last with
  | none => simpa [Nest.gappedLoop] using forall_congr' hapart
  | some p =>
      rw [Nest.gappedLoop]
      split_ifs with hj
      · have hjoins : Joins p (.loop l b r) := ⟨hc, hj⟩
        obtain ⟨n, hn⟩ := Nat.exists_eq_succ_of_ne_zero hwf.1.ne'
        by_cases hp : p.Gapped
        · refine iff_of_false (fun h => ?_) fun h => (h.1 p rfl hjoins).1 hp
          obtain ⟨bs, -, heq⟩ := (h 0).emits
          refine hp.not_joined (hlast p rfl) (not_gapped_extended p l.size) rfl ?_ ⟨bs, heq.symm⟩
          simp [ElemDesc.extended, mkElem, basicSize]
        · have hsplit : ∀ d, lastBytes (some p) d ++ (Nest.loop l b r).bytes d
              = lastBytes (some (p.extended l.size)) d ++ (stride (l.loops - 1) l.extent
                (fun x => run (x + l.firstElemDisp) l.size) (d + l.extent) ++ r.bytes d) := by
            intro d
            rw [hbytes, bytes_extended hp, hj, hfirst, hn, stride_succ]
            simp
          have hstep : ∀ d, (Nest.elem (p.extended l.size)
              (gappedPasses l b.firstDisp (l.loops - 1) l.extent rest)).Denotes d
                (lastBytes (some p) d ++ (Nest.loop l b r).bytes d) ↔
              (2 < l.loops - 1 → l.extent = 0) ∧ rest.Denotes d (r.bytes d) := by
            intro d
            rw [hsplit]
            refine (denotes_behind_iff (some (p.extended l.size)) _ d _).trans ?_
            rw [hfirst]
            exact denotes_gappedPasses_iff hsize _ _ _ _ _
          rw [forall_congr' hstep, forall_and, forall_const]
          refine and_congr_left fun _ => ?_
          simp only [Option.mem_some_iff, forall_eq', JoinsSafely, KeepsFirstDisp, hjoins, hp, hd,
            true_implies, not_false_eq_true, true_and, ne_eq, not_and]
          constructor
          · intro h h0 hlt
            exact h0 (h (by omega))
          · intro h hlt
            by_contra h0
            exact h h0 (by omega)
      · have hsafe : ∀ q ∈ some p, JoinsSafely q (.loop l b r) := by
          rintro q hq h
          obtain rfl := Option.some.inj hq
          exact absurd h.2 hj
        refine Iff.trans (forall_congr' fun d => ?_) (and_iff_right hsafe).symm
        exact (denotes_behind_iff (some p) _ d _).trans (hapart d)

end Loops

/-! ### Lengths -/

section Lengths

lemma length_flatMap_range {pass : ℕ → List ℤ} {n k : ℕ} (h : ∀ i < n, (pass i).length = k) :
    ((List.range n).flatMap pass).length = n * k := by
  induction n with
  | zero => simp
  | succ n ih =>
      rw [List.range_succ, List.flatMap_append, List.length_append, ih fun i hi => h i (by omega)]
      simp [h n (by omega), Nat.add_mul]

lemma emits_behind_iff (last : Option ElemDesc) (t : Nest) (d : ℤ) (as : List ℤ) :
    (behind last t).Emits d as ↔ ∃ bs, t.Emits d bs ∧ as = lastBytes last d ++ bs := by
  cases last with
  | none => simp [behind]
  | some p => exact Iff.rfl

lemma length_lastBytes_gatherElem (last : Option ElemDesc) (e : ElemDesc) (d : ℤ) :
    (lastBytes (gatherElem last e).1 d).length + (lastBytes (some (gatherElem last e).2) d).length
      = (lastBytes last d).length + e.count * basicSize e.type := by
  cases last with
  | none => simp [gatherElem, length_lastBytes_some, ElemDesc.gathered, mkElem]
  | some p =>
      rw [gatherElem]
      split_ifs with hj ht
      · simp [length_lastBytes_some, mkElem, ht, Nat.add_mul]
      · simp [length_lastBytes_some, ElemDesc.extended, mkElem, basicSize]
      · simp [length_lastBytes_some, ElemDesc.gathered, mkElem]

lemma length_lastBytes_gatherLoop (last : Option ElemDesc) (l : LoopInfo) (loopDisp d : ℤ) :
    (lastBytes (gatherLoop last l loopDisp).1 d).length
        + (lastBytes (some (gatherLoop last l loopDisp).2) d).length
      = (lastBytes last d).length + l.loops * l.size := by
  cases last with
  | none => simp [gatherLoop, length_lastBytes_some, mkElem, basicSize]
  | some p =>
      rw [gatherLoop]
      split_ifs with hj
      · simp [length_lastBytes_some, ElemDesc.extended, mkElem, basicSize]
      · simp [length_lastBytes_some, mkElem, basicSize]

lemma length_of_emits_unrolled {type : TypeId} {flags : Flags} {count : ℕ} {extent stride : ℤ}
    {n : ℕ} {disp : ℤ} {rest : Nest} {d : ℤ} {as : List ℤ}
    (h : (Nest.unrolled type flags count extent stride n disp rest).Emits d as) :
    ∃ bs, rest.Emits d bs ∧ as.length = n * (count * basicSize type) + bs.length := by
  induction n generalizing disp as with
  | zero => exact ⟨as, h, by simp⟩
  | succ n ih =>
      obtain ⟨bs, hbs, rfl⟩ := h
      obtain ⟨cs, hcs, hlen⟩ := ih hbs
      refine ⟨cs, hcs, ?_⟩
      rw [List.length_append, length_blocksBytes_elemBlocks, hlen, Nat.add_one_mul]
      simp only [mkElem]
      omega

lemma length_of_emits_gappedPasses {l : LoopInfo} {loopDisp : ℤ} {counter : ℕ} {mergedDisp : ℤ}
    {rest : Nest} {d : ℤ} {as : List ℤ}
    (h : (gappedPasses l loopDisp counter mergedDisp rest).Emits d as) :
    ∃ bs, rest.Emits d bs ∧ as.length = counter * l.size + bs.length := by
  rw [gappedPasses] at h
  split_ifs at h
  · simpa [basicSize] using length_of_emits_unrolled h
  · obtain ⟨m, hm, -, pass, hpass, bs, hbs, rfl⟩ := h
    refine ⟨bs, hbs, ?_⟩
    have hlen : ∀ k < counter - m, (pass k).length = l.size := fun k hk => by
      rw [(Matches.emits_iff (t := .elem (mkElem .uint1 .basic l.size loopDisp 1) .done) trivial
        _ _).mp (hpass k hk), bytes_elem, List.length_append, length_blocksBytes_elemBlocks]
      simp [mkElem, basicSize]
    have hm' : m ≤ counter := hm
    have hrest := length_flatMap_range hlen
    simp only [LoopInfo.copied, List.length_append]
    rw [length_stride _ _ _ _ fun _ => length_run _ _, hrest, ← Nat.add_mul,
      Nat.add_sub_cancel' hm']

lemma length_of_emits_loop {l : LoopInfo} {body rest : Nest} (hc : l.flags.contiguous = false)
    {n : ℕ} (hbody : ∀ {d as}, body.Emits d as → as.length = n) {d : ℤ} {as : List ℤ}
    (h : (loop l body rest).Emits d as) :
    ∃ bs, rest.Emits d bs ∧ as.length = l.loops * n + bs.length := by
  obtain ⟨m, -, hm, pass, hpass, bs, hbs, rfl⟩ := h
  obtain rfl := hm hc
  refine ⟨bs, hbs, ?_⟩
  rw [stride_zero, List.nil_append, List.length_append,
    length_flatMap_range fun k hk => hbody (hpass k hk), Nat.sub_zero]

/-- The optimizer keeps the number of bytes, even where it loses their places. -/
lemma Nest.length_of_emits_optimized {t : Nest} (hwf : t.Wf) (hends : t.Matches)
    {last : Option ElemDesc} {d : ℤ} {as : List ℤ} (h : (t.optimized last).Emits d as) :
    as.length = (lastBytes last d).length + (t.bytes d).length := by
  induction t generalizing last d as with
  | done =>
      obtain ⟨bs, hbs, rfl⟩ := (emits_behind_iff _ _ _ _).mp h
      simp [show bs = [] from hbs]
  | elem e r ih =>
      obtain ⟨bs, hbs, rfl⟩ := (emits_behind_iff _ _ _ _).mp h
      have hlen := length_lastBytes_gatherElem last e d
      rw [List.length_append, ih hwf.2.2 hends hbs, bytes_elem, List.length_append,
        length_blocksBytes_elemBlocks]
      omega
  | loop l b r ihb ih =>
      have hpass : ∀ d, (stride l.loops l.extent b.bytes d).length
          = l.loops * (b.bytes 0).length := fun d => length_stride _ _ _ _ b.length_bytes
      rw [bytes_loop, List.length_append, hpass]
      rw [Nest.optimized] at h
      split_ifs at h with hc hd
      · have hsize : (b.bytes 0).length = l.size := by rw [hends.1 hc, length_run]
        obtain ⟨bs, hbs, rfl⟩ := (emits_behind_iff _ _ _ _).mp h
        have hlen := length_lastBytes_gatherLoop last l b.firstDisp d
        rw [List.length_append, ih hwf.2.2.2 hends.2.2 hbs, hsize]
        omega
      · have hsize : (b.bytes 0).length = l.size := by rw [hends.1 hc, length_run]
        rw [hsize]
        obtain ⟨n, hn⟩ := Nat.exists_eq_succ_of_ne_zero hwf.1.ne'
        rw [gappedLoop.eq_def] at h
        cases last with
        | none =>
            obtain ⟨bs, hbs, hlen⟩ := length_of_emits_gappedPasses h
            rw [hlen, ih hwf.2.2.2 hends.2.2 hbs]
            simp
        | some p =>
            simp only at h
            split_ifs at h
            · obtain ⟨bs, hbs, rfl⟩ := h
              obtain ⟨cs, hcs, hlen⟩ := length_of_emits_gappedPasses hbs
              rw [List.length_append, hlen, ih hwf.2.2.2 hends.2.2 hcs, hn,
                length_blocksBytes_elemBlocks, length_lastBytes_some, lastBytes_none]
              simp [ElemDesc.extended, mkElem, basicSize, Nat.add_one_mul]
              omega
            · obtain ⟨bs, hbs, rfl⟩ := h
              obtain ⟨cs, hcs, hlen⟩ := length_of_emits_gappedPasses hbs
              rw [List.length_append, hlen, ih hwf.2.2.2 hends.2.2 hcs,
                length_blocksBytes_elemBlocks, length_lastBytes_some, lastBytes_none]
              simp
      · obtain ⟨bs, hbs, rfl⟩ := (emits_behind_iff _ _ _ _).mp h
        have hcopied : l.copied.flags.contiguous = false := by simpa [LoopInfo.copied] using hc
        have hbody : ∀ {d as}, (b.optimized none).Emits d as → as.length = (b.bytes 0).length := by
          intro d as h
          rw [ihb hwf.2.2.1 hends.2.1 h, lastBytes_none, List.length_nil, Nat.zero_add,
            b.length_bytes]
        have hloop : ∀ {as}, (Nest.loop l.copied (b.optimized none) (r.optimized none)).Emits d as →
            as.length = l.loops * (b.bytes 0).length + (r.bytes d).length := by
          intro as h
          obtain ⟨cs, hcs, hlen⟩ := length_of_emits_loop hcopied hbody h
          rw [hlen, ih hwf.2.2.2 hends.2.2 hcs, lastBytes_none, List.length_nil, Nat.zero_add]
          rfl
        rw [List.length_append, Nat.add_left_cancel_iff]
        rcases otherLoop_cases l hwf.2.1 (b.optimized none) (r.optimized none) with
          ⟨-, hnest⟩ | ⟨e, rfl, ⟨hcount, -, hnest⟩ | ⟨-, -, hnest⟩ | ⟨-, -, hnest⟩⟩
        · exact hloop (hnest ▸ hbs)
        · rw [hnest] at hbs
          obtain ⟨cs, hcs, rfl⟩ := hbs
          rw [List.length_append, length_blocksBytes_elemBlocks, ih hwf.2.2.2 hends.2.2 hcs]
          simp [mkElem, hcount, length_blocksBytes_elemBlocks]
        · rw [hnest] at hbs
          obtain ⟨cs, hcs, hlen⟩ := length_of_emits_unrolled hbs
          rw [hlen, ih hwf.2.2.2 hends.2.2 hcs]
          simp [length_blocksBytes_elemBlocks]
        · exact hloop (hnest ▸ hbs)

end Lengths

/-! ### The optimized nest -/

/-- A loop that is not `CONTIGUOUS`, with the bodies it has before and after. -/
lemma denotes_loop_iff {l : LoopInfo} {b b' r' : Nest} (hc : l.flags.contiguous = false)
    (hloops : 0 < l.loops) (hlen : ∀ {d as}, b'.Emits d as → as.length = (b.bytes 0).length)
    (ys : ℤ → List ℤ) :
    (∀ d, (Nest.loop l b' r').Denotes d (stride l.loops l.extent b.bytes d ++ ys d)) ↔
      (∀ d, b'.Denotes d (b.bytes d)) ∧ ∀ d, r'.Denotes d (ys d) := by
  constructor
  · intro h
    obtain ⟨n, hn⟩ := Nat.exists_eq_succ_of_ne_zero hloops.ne'
    have hpass : ∀ d, ∃ pass : ℕ → List ℤ,
        (∀ k < l.loops, b'.Emits (d + k * l.extent) (pass k)) ∧ ∃ bs, r'.Emits d bs := by
      intro d
      obtain ⟨m, -, hm, pass, hpass, bs, hbs, -⟩ := (h d).emits
      obtain rfl := hm hc
      refine ⟨pass, fun k hk => ?_, bs, hbs⟩
      simpa using hpass k (by omega)
    have hall : ∀ d (pass : ℕ → List ℤ), (∀ k < l.loops, b'.Emits (d + k * l.extent) (pass k)) →
        ∀ bs, r'.Emits d bs → (List.range l.loops).flatMap pass ++ bs
          = stride l.loops l.extent b.bytes d ++ ys d := by
      intro d pass hp bs hbs
      refine (h d _).mp ⟨0, Nat.zero_le _, fun _ => rfl, pass, fun k hk => ?_, bs, hbs, by simp⟩
      simpa using hp k hk
    constructor
    · intro d
      obtain ⟨pass, hp, bs, hbs⟩ := hpass d
      have honly : ∀ as, b'.Emits d as → as = b.bytes d := by
        intro as has
        have heq := hall d (fun k => if k = 0 then as else pass k) (fun k hk => by
          by_cases h0 : k = 0
          · simpa [h0] using has
          · simpa [h0] using hp k hk) bs hbs
        rw [hn, List.range_succ_eq_map, stride_succ, List.flatMap_cons, List.append_assoc,
          List.append_assoc] at heq
        exact List.append_inj_left heq (by simp [hlen has, b.length_bytes d])
      intro as
      refine ⟨honly as, ?_⟩
      rintro rfl
      have h0 := hp 0 hloops
      simp only [Nat.cast_zero, zero_mul, add_zero] at h0
      exact honly _ h0 ▸ h0
    · intro d
      obtain ⟨pass, hp, bs, hbs⟩ := hpass d
      have honly : ∀ bs, r'.Emits d bs → bs = ys d := by
        intro bs hbs
        refine List.append_inj_right (hall d pass hp bs hbs) ?_
        rw [length_flatMap_range fun k hk => hlen (hp k hk),
          length_stride _ _ _ _ b.length_bytes]
      intro as
      exact ⟨honly as, fun has => has ▸ honly bs hbs ▸ hbs⟩
  · rintro ⟨hb, hr⟩ d
    have hemits := emits_loop_iff (l := l) (fun h => by simp [hc] at h) hb r' d
    exact (denotes_append_iff hemits rfl).mpr ⟨rfl, hr d⟩

/-- A loop that is not `CONTIGUOUS`. -/
lemma denotes_otherLoop_iff {l : LoopInfo} {b r : Nest} (hwf : (Nest.loop l b r).Wf)
    (hends : (Nest.loop l b r).Matches) (hc : ¬ l.flags.contiguous = true)
    (hb : (∀ d, (b.optimized none).Denotes d (b.bytes d)) ↔ b.SafeJoins) (r' : Nest) :
    (∀ d, (otherLoop l b (b.optimized none) r').Denotes d ((Nest.loop l b r).bytes d)) ↔
      b.SafeJoins ∧ ∀ d, r'.Denotes d (r.bytes d) := by
  have hlen : ∀ {d as}, (b.optimized none).Emits d as → as.length = (b.bytes 0).length := by
    intro d as h
    rw [length_of_emits_optimized hwf.2.2.1 hends.2.1 h, lastBytes_none, List.length_nil,
      Nat.zero_add, b.length_bytes]
  have hloop : (∀ d, (Nest.loop l.copied (b.optimized none) r').Denotes d
      ((Nest.loop l b r).bytes d)) ↔ b.SafeJoins ∧ ∀ d, r'.Denotes d (r.bytes d) := by
    rw [← hb]
    simp only [bytes_loop]
    exact denotes_loop_iff (l := l.copied) (by simpa [LoopInfo.copied] using hc) hwf.1 hlen r.bytes
  rcases otherLoop_cases l hwf.2.1 (b.optimized none) r' with
    ⟨-, hnest⟩ | ⟨e, rfl, ⟨hcount, hext, hnest⟩ | ⟨-, -, hnest⟩ | ⟨-, -, hnest⟩⟩
  · rw [hnest]
    exact hloop
  · have hone : (Nest.elem e .done).SafeJoins := ⟨fun h => h.elim, trivial⟩
    have hbytes : ∀ flags d, stride l.loops l.extent (Nest.elem e .done).bytes d
        = lastBytes (some (mkElem e.type flags l.loops e.disp l.extent)) d := by
      intro flags d
      rw [lastBytes, blocksBytes_elemBlocks, stride_add_right]
      refine stride_congr _ _ _ fun x => ?_
      rw [bytes_elem, hcount, elemBlocks_succ]
      simp [Block.bytes, Block.len, mkElem]
    rw [hnest]
    refine Iff.trans (forall_congr' fun d => ?_) (and_iff_right hone).symm
    rw [bytes_loop, hbytes { e.flags with contiguous := false } d]
    exact denotes_behind_iff (some _) r' d (r.bytes d)
  · have hone : (Nest.elem e .done).SafeJoins := ⟨fun h => h.elim, trivial⟩
    have hbytes : (Nest.elem e .done).bytes = fun x => blocksBytes (elemBlocks
        (mkElem e.type e.flags e.count e.disp e.extent) e.count x) := by
      funext x
      rw [bytes_elem, bytes_done, List.append_nil]
      rfl
    rw [hnest]
    refine Iff.trans (forall_congr' fun d => ?_) (and_iff_right hone).symm
    rw [bytes_loop, hbytes]
    exact denotes_unrolled_iff _ _ _ _ _ _ _ _ _ _
  · rw [hnest]
    exact hloop

/-- **The optimized nest denotes the typemap exactly if all joins are safe.** -/
theorem Nest.optimized_denotes_iff {t : Nest} (hwf : t.Wf) (hends : t.Matches)
    {last : Option ElemDesc} (hlast : ∀ p ∈ last, 0 < basicSize p.type) :
    (∀ d, (t.optimized last).Denotes d (lastBytes last d ++ t.bytes d)) ↔
      (∀ p ∈ last, JoinsSafely p t) ∧ t.SafeJoins := by
  induction t generalizing last with
  | done =>
      have hsafe : ∀ p ∈ last, JoinsSafely p .done := fun p _ h => h.elim
      refine iff_of_true (fun d => ?_) ⟨hsafe, trivial⟩
      rw [Nest.optimized, denotes_behind_iff]
      exact Matches.denotes (t := .done) trivial d
  | elem e r ih =>
      have hnew : ∀ p ∈ some (gatherElem last e).2, 0 < basicSize p.type := by
        intro p hp
        obtain rfl := Option.some.inj hp
        exact basicSize_gatherElem_pos last hwf.2.1
      have hsafe := joinsSafely_congr (denseEnd_gatherElem last e) (gapped_gatherElem last e) r
      simp only [Nest.optimized, Nest.SafeJoins]
      rw [(gathers_elem last e r).denotes_iff hlast (fun h => h) (fun d => bytes_elem e r d),
        ih hwf.2.2 hends hnew]
      simp [hsafe]
  | loop l b r ihb ih =>
      by_cases hc : l.flags.contiguous = true
      · by_cases hd : l.extent = l.size
        · have hnew : ∀ p ∈ some (gatherLoop last l b.firstDisp).2, 0 < basicSize p.type := by
            intro p hp
            obtain rfl := Option.some.inj hp
            exact basicSize_gatherLoop_pos last l _
          have hbytes : ∀ d, (Nest.loop l b r).bytes d
              = run (d + b.firstDisp) (l.loops * l.size) ++ r.bytes d := by
            intro d
            rw [bytes_loop, hends.1.stride_eq hc, (hends.1.firstDisp_eq hc hwf.2.2.1 hwf.2.1).1,
              ← stride_add_right _ _ _ (fun x => run x l.size), hd, stride_run]
          have hsafe := joinsSafely_congr (denseEnd_gatherLoop last l b.firstDisp)
            (iff_of_false (not_gapped_gatherLoop last l b.firstDisp)
              (not_gapped_gathered l b.firstDisp)) r
          simp only [Nest.optimized, Nest.SafeJoins, if_pos hc, if_pos hd]
          rw [(gathers_loop last hc b r).denotes_iff hlast (fun h => h.1 hd) hbytes,
            ih hwf.2.2.2 hends.2.2 hnew]
          simp [hsafe, hc, hd]
        · simp only [Nest.optimized, Nest.SafeJoins, if_pos hc, if_neg hd]
          rw [denotes_gappedLoop_iff hwf hends.1 hc hd hlast]
          have hr := ih hwf.2.2.2 hends.2.2 fun _ (h : _ ∈ none) => by cases h
          simp only [lastBytes_none, List.nil_append] at hr
          rw [hr]
          simp [hc, hd]
      · have hsafe : ∀ p ∈ last, JoinsSafely p (.loop l b r) := fun p _ h => absurd h.1 hc
        have hb := ihb hwf.2.2.1 hends.2.1 fun _ (h : _ ∈ none) => by cases h
        have hr := ih hwf.2.2.2 hends.2.2 fun _ (h : _ ∈ none) => by cases h
        simp only [lastBytes_none, List.nil_append, Option.mem_def, reduceCtorEq, false_implies,
          implies_true, true_and] at hb hr
        have hkeep := denotes_otherLoop_iff hwf hends hc hb (r.optimized none)
        simp only [Nest.optimized, if_neg hc, denotes_behind_iff]
        rw [hkeep, hr, and_iff_right hsafe]
        simp [Nest.SafeJoins, hc]

/-! ### The optimized nest is valid -/

/-- No loop keeps its element where the first pass was, wherever data is joined with it. -/
def Nest.CoherentJoins : Nest → Prop
  | done => True
  | elem e rest => (Joins e rest → ¬ KeepsFirstDisp rest) ∧ rest.CoherentJoins
  | loop l body rest =>
      (l.flags.contiguous = true → l.extent = l.size → Joins (l.gathered body.firstDisp) rest →
        ¬ KeepsFirstDisp rest) ∧
      (l.flags.contiguous = false → body.CoherentJoins) ∧ rest.CoherentJoins

/-- An element entry of a well-formed nest. -/
def ElemDesc.Sized (p : ElemDesc) : Prop := 0 < p.count ∧ 0 < basicSize p.type

section OptimizedValid

lemma Nest.Valid.elem {e : ElemDesc} {r : Nest} (he : e.Sized) (h : r.Valid) :
    (Nest.elem e r).Valid := ⟨⟨he.1, he.2, h.wf⟩, h.ends⟩

lemma Nest.Valid.behind {last : Option ElemDesc} {t : Nest} (hlast : ∀ p ∈ last, p.Sized)
    (h : t.Valid) : (behind last t).Valid := by
  cases last with
  | none => exact h
  | some p => exact h.elem (hlast p rfl)

lemma Nest.Valid.unrolled {rest : Nest} (h : rest.Valid) {type : TypeId} (flags : Flags) {count : ℕ}
    (hcount : 0 < count) (hsize : 0 < basicSize type) (extent stride : ℤ) (n : ℕ) (disp : ℤ) : (Nest.unrolled type flags count extent stride n disp rest).Valid := by
  induction n generalizing disp with
  | zero => exact h
  | succ n ih => exact (ih _).elem ⟨hcount, hsize⟩

lemma sized_gatherElem {last : Option ElemDesc} (hlast : ∀ p ∈ last, p.Sized) {e : ElemDesc}
    (he : e.Sized) :
    (∀ p ∈ (gatherElem last e).1, p.Sized) ∧ (gatherElem last e).2.Sized := by
  refine ⟨?_, ?_, basicSize_gatherElem_pos last he.2⟩
  · cases last with
    | none => exact fun p hp => by cases hp
    | some p =>
        rw [gatherElem]
        by_cases hj : e.flags.contiguous = true ∧ p.denseEnd = e.disp ∧ e.extent = basicSize e.type
        · rw [if_pos hj]
          exact fun q hq => by cases hq
        · rw [if_neg hj]
          exact hlast
  · cases last with
    | none => exact he.1
    | some p =>
        rw [gatherElem]
        split_ifs
        · exact Nat.add_pos_left (hlast p rfl).1 _
        · exact Nat.add_pos_left (Nat.mul_pos (hlast p rfl).1 (hlast p rfl).2) _
        · exact he.1

lemma sized_gatherLoop {last : Option ElemDesc} (hlast : ∀ p ∈ last, p.Sized) {l : LoopInfo}
    (hpos : 0 < l.loops * l.size) (loopDisp : ℤ) :
    (∀ p ∈ (gatherLoop last l loopDisp).1, p.Sized) ∧ (gatherLoop last l loopDisp).2.Sized := by
  refine ⟨?_, ?_, basicSize_gatherLoop_pos last l loopDisp⟩
  · cases last with
    | none => exact fun p hp => by cases hp
    | some p =>
        rw [gatherLoop]
        split_ifs
        · exact fun q hq => by cases hq
        · exact hlast
  · cases last with
    | none => exact hpos
    | some p =>
        rw [gatherLoop]
        split_ifs
        · exact Nat.add_pos_right _ hpos
        · exact hpos

/-- A loop is valid if its body is, and its end matches. -/
lemma Nest.Valid.loop {l : LoopInfo} {b r : Nest} (hloops : 0 < l.loops) (hm : LoopMatches l b)
    (hne : b ≠ .done) (hb : b.Valid) (hr : r.Valid) : (Nest.loop l b r).Valid :=
  ⟨⟨hloops, hne, hb.wf, hr.wf⟩, hm, hb.ends, hr.ends⟩

lemma Nest.Valid.gappedPasses {l : LoopInfo} (hsize : 0 < l.size) {loopDisp mergedDisp : ℤ}
    {counter : ℕ} (hdisp : 2 < counter → mergedDisp + l.firstElemDisp = loopDisp) {rest : Nest}
    (h : rest.Valid) : (gappedPasses l loopDisp counter mergedDisp rest).Valid := by
  rw [Nest.gappedPasses]
  split_ifs with hc
  · exact h.unrolled _ hsize (show 0 < basicSize .uint1 from Nat.one_pos) _ _ _ _
  · refine .loop (by simp only [LoopInfo.copied]; omega) (fun _ => ?_) (by simp)
      (.elem ⟨hsize, Nat.one_pos⟩ ⟨trivial, trivial⟩) h
    rw [bytes_elem, bytes_done, List.append_nil, ElemDesc.bytes_of_not_gapped fun h => h.2 rfl]
    simp only [LoopInfo.copied, mkElem, basicSize, zero_add, Nat.mul_one]
    rw [← hdisp (by omega), add_comm]

lemma Nest.optimized_ne_done {t : Nest} (h : t.Valid) (ht : t ≠ .done) :
    t.optimized none ≠ .done := by
  intro hdone
  have hemits : (t.optimized none).Emits 0 [] := hdone ▸ rfl
  have hlen := length_of_emits_optimized h.wf h.ends hemits
  have hpos := h.wf.length_pos ht 0
  simp only [List.length_nil, lastBytes_none] at hlen
  omega

lemma Nest.Wf.behind {last : Option ElemDesc} {t : Nest} (hlast : ∀ p ∈ last, p.Sized)
    (h : t.Wf) : (behind last t).Wf := by
  cases last with
  | none => exact h
  | some p => exact ⟨(hlast p rfl).1, (hlast p rfl).2, h⟩

lemma Nest.Wf.unrolled {rest : Nest} (h : rest.Wf) {type : TypeId} (flags : Flags) {count : ℕ}
    (hcount : 0 < count) (hsize : 0 < basicSize type) (extent stride : ℤ) (n : ℕ) (disp : ℤ) :
    (Nest.unrolled type flags count extent stride n disp rest).Wf := by
  induction n generalizing disp with
  | zero => exact h
  | succ n ih => exact ⟨hcount, hsize, ih _⟩

lemma Nest.Wf.gappedPasses {l : LoopInfo} (hsize : 0 < l.size) (loopDisp mergedDisp : ℤ)
    (counter : ℕ) {rest : Nest} (h : rest.Wf) :
    (gappedPasses l loopDisp counter mergedDisp rest).Wf := by
  have hone : 0 < basicSize .uint1 := Nat.one_pos
  rw [Nest.gappedPasses]
  split_ifs with hc
  · exact h.unrolled _ hsize hone _ _ _ _
  · exact ⟨by simp only [LoopInfo.copied]; omega, by simp, ⟨hsize, hone, trivial⟩, h⟩

/-- The optimized nest has the shape of a description, whatever is joined in it. -/
lemma Nest.optimized_wf {t : Nest} (h : t.Valid) {last : Option ElemDesc}
    (hlast : ∀ p ∈ last, p.Sized) : (t.optimized last).Wf := by
  induction t generalizing last with
  | done => exact .behind hlast trivial
  | elem e r ih =>
      obtain ⟨⟨hcount, hsize, hwf⟩, hends⟩ := h
      obtain ⟨hfirst, hnew⟩ := sized_gatherElem hlast (e := e) ⟨hcount, hsize⟩
      exact .behind hfirst (ih ⟨hwf, hends⟩ (by simpa using hnew))
  | loop l b r ihb ih =>
      obtain ⟨⟨hloops, hne, hbwf, hrwf⟩, hm, hbends, hrends⟩ := h
      have hnone : (r.optimized none).Wf := ih ⟨hrwf, hrends⟩ (fun p hp => by cases hp)
      rw [Nest.optimized]
      split_ifs with hc hd
      · obtain ⟨-, hsize⟩ := hm.firstDisp_eq hc hbwf hne
        obtain ⟨hfirst, hnew⟩ := sized_gatherLoop hlast (Nat.mul_pos hloops hsize) b.firstDisp
        exact .behind hfirst (ih ⟨hrwf, hrends⟩ (by simpa using hnew))
      · obtain ⟨-, hsize⟩ := hm.firstDisp_eq hc hbwf hne
        rw [gappedLoop.eq_def]
        cases last with
        | none => exact hnone.gappedPasses hsize _ _ _
        | some p =>
            have hp := hlast p rfl
            by_cases hj : p.denseEnd = b.firstDisp
            · simp only [if_pos hj]
              exact ⟨Nat.add_pos_right _ hsize, Nat.one_pos, hnone.gappedPasses hsize _ _ _⟩
            · simp only [if_neg hj]
              exact ⟨hp.1, hp.2, hnone.gappedPasses hsize _ _ _⟩
      · have hbne := Nest.optimized_ne_done ⟨hbwf, hbends⟩ hne
        have hloop : (Nest.loop l.copied (b.optimized none) (r.optimized none)).Wf :=
          ⟨hloops, hbne, ihb ⟨hbwf, hbends⟩ (fun p hp => by cases hp), hnone⟩
        refine .behind hlast ?_
        rcases otherLoop_cases l hne (b.optimized none) (r.optimized none) with
          ⟨-, hnest⟩ | ⟨e, rfl, ⟨-, -, hnest⟩ | ⟨-, -, hnest⟩ | ⟨-, -, hnest⟩⟩
        · exact hnest ▸ hloop
        · exact hnest ▸ ⟨hloops, hbwf.2.1, hnone⟩
        · exact hnest ▸ hnone.unrolled _ hbwf.1 hbwf.2.1 _ _ _ _
        · exact hnest ▸ hloop

/-- **The optimized nest is valid** if no join breaks a loop. -/
theorem Nest.optimized_valid {t : Nest} (h : t.Valid) {last : Option ElemDesc}
    (hlast : ∀ p ∈ last, p.Sized) (hjoin : ∀ p ∈ last, Joins p t → ¬ KeepsFirstDisp t)
    (hjoins : t.CoherentJoins) : (t.optimized last).Valid := by
  induction t generalizing last with
  | done => exact h.behind hlast
  | elem e r ih =>
      obtain ⟨⟨hcount, hsize, hwf⟩, hends⟩ := h
      obtain ⟨hfirst, hnew⟩ := sized_gatherElem hlast (e := e) ⟨hcount, hsize⟩
      refine .behind hfirst (ih ⟨hwf, hends⟩ (by simpa using hnew) ?_ hjoins.2)
      rintro p hp
      obtain rfl := Option.some.inj hp
      rw [joins_congr (denseEnd_gatherElem last e)]
      exact hjoins.1
  | loop l b r ihb ih =>
      obtain ⟨⟨hloops, hne, hbwf, hrwf⟩, hm, hbends, hrends⟩ := h
      have hr : ∀ {last : Option ElemDesc}, (∀ p ∈ last, p.Sized) →
          (∀ p ∈ last, Joins p r → ¬ KeepsFirstDisp r) → (r.optimized last).Valid :=
        fun h₁ h₂ => ih ⟨hrwf, hrends⟩ h₁ h₂ hjoins.2.2
      have hnone : (r.optimized none).Valid := hr (fun p hp => by cases hp) fun p hp => by cases hp
      rw [Nest.optimized]
      split_ifs with hc hd
      · obtain ⟨-, hsize⟩ := hm.firstDisp_eq hc hbwf hne
        obtain ⟨hfirst, hnew⟩ := sized_gatherLoop hlast (Nat.mul_pos hloops hsize) b.firstDisp
        refine .behind hfirst (hr (by simpa using hnew) ?_)
        rintro p hp
        obtain rfl := Option.some.inj hp
        rw [joins_congr (denseEnd_gatherLoop last l b.firstDisp)]
        exact hjoins.1 hc hd
      · obtain ⟨hdisp, hsize⟩ := hm.firstDisp_eq hc hbwf hne
        have hall : (Nest.gappedPasses l b.firstDisp l.loops 0 (r.optimized none)).Valid :=
          hnone.gappedPasses hsize fun _ => by rw [zero_add, hdisp]
        rw [gappedLoop.eq_def]
        cases last with
        | none => exact hall
        | some p =>
            have hp := hlast p rfl
            by_cases hj : p.denseEnd = b.firstDisp
            · simp only [if_pos hj]
              refine .elem ⟨Nat.add_pos_right _ hsize, Nat.one_pos⟩ (hnone.gappedPasses hsize ?_)
              intro hcounter
              have hkeep := hjoin p rfl ⟨hc, hj⟩
              have hzero : l.extent = 0 := by
                by_contra hz
                exact hkeep ⟨hd, hz, by omega⟩
              rw [hzero, zero_add, hdisp]
            · simp only [if_neg hj]
              exact .elem hp hall
      · have hb : (b.optimized none).Valid := ihb ⟨hbwf, hbends⟩ (fun p hp => by cases hp)
          (fun p hp => by cases hp) (hjoins.2.1 (by simpa using hc))
        have hbne := Nest.optimized_ne_done ⟨hbwf, hbends⟩ hne
        have hloop : (Nest.loop l.copied (b.optimized none) (r.optimized none)).Valid :=
          .loop hloops (fun h => absurd h hc) hbne hb hnone
        refine .behind hlast ?_
        rcases otherLoop_cases l hne (b.optimized none) (r.optimized none) with
          ⟨-, hnest⟩ | ⟨e, rfl, ⟨-, -, hnest⟩ | ⟨-, -, hnest⟩ | ⟨-, -, hnest⟩⟩
        · exact hnest ▸ hloop
        · exact hnest ▸ hnone.elem ⟨hloops, hbwf.2.1⟩
        · exact hnest ▸ hnone.unrolled _ hbwf.1 hbwf.2.1 _ _ _ _
        · exact hnest ▸ hloop

/-- The optimized nest has as many bytes. -/
lemma Nest.length_bytes_optimized {t : Nest} (h : t.Valid) (hopt : (t.optimized none).Valid) :
    ((t.optimized none).bytes 0).length = (t.bytes 0).length := by
  rw [length_of_emits_optimized h.wf h.ends (hopt.ends.denotes 0).emits, lastBytes_none,
    List.length_nil, Nat.zero_add]

end OptimizedValid

/-! ### Committed datatypes -/

/-- The optimized description reads what the plain one does, in every walk. -/
def Datatype.OptDenotesDesc (dt : Datatype) : Prop :=
  ∃ D O : Nest, dt.desc.desc.take dt.desc.used = D.flatten ∧
    dt.optDesc.desc.take dt.optDesc.used = O.flatten ∧ ∀ d as, O.Emits d as ↔ D.Emits d as

/-- The commit of a described datatype. -/
lemma Datatype.Described.optDenotes_iff {dt : Datatype} {D : Nest} (h : dt.Described D)
    (hc : dt.flags.commited = false) :
    ∃ dt', dt.commit = some dt' ∧ (dt'.OptDenotesDesc ↔ D.SafeJoins) := by
  obtain ⟨dt', hcommit, hdt'⟩ := h.commit hc
  refine ⟨dt', hcommit, ?_⟩
  have hjoins := Nest.optimized_denotes_iff h.wf h.ends fun _ (hp : _ ∈ none) => by cases hp
  simp only [lastBytes_none, List.nil_append, Option.mem_def, reduceCtorEq, false_implies,
    implies_true, true_and] at hjoins
  rw [← hjoins]
  constructor
  · rintro ⟨D', O, hD', hO, hsame⟩ d as
    obtain rfl : D' = D := flatten_injective (hD'.symm.trans hdt'.described.desc)
    obtain rfl : O = D'.optimized none := flatten_injective (hO.symm.trans hdt'.opt)
    rw [hsame]
    exact h.ends.denotes d as
  · intro hden
    refine ⟨D, D.optimized none, hdt'.described.desc, hdt'.opt, fun d as => ?_⟩
    rw [hden d as, h.ends.denotes d as]

/-- An `INT4`, and a `UB` marker that gives it 8 bytes. -/
def int4In8 : Datatype :=
  ((((Datatype.create none).add (predefined .int4) 1 0 8).getD emptyDatatype).add
    (predefined .ub) 1 8 (-1)).getD emptyDatatype

lemma built_int4In8 : Built Unrestricted int4In8 [0, 1, 2, 3] :=
  .add 1 8 (-1)
    (.add 1 0 8 (.create none) rfl (.predefined .int4)
      (fun _ _ => by decide) trivial rfl)
    rfl (.predefined .ub) (fun _ h => absurd rfl h) trivial rfl

/-- An `INT4`, and an `INT8` behind a gap. -/
def int4AndInt8 : Datatype := (oneInt4.add (predefined .int8) 1 8 (-1)).getD emptyDatatype

lemma built_int4AndInt8 :
    Built Unrestricted int4AndInt8 [0, 1, 2, 3, 8, 9, 10, 11, 12, 13, 14, 15] :=
  .add 1 8 (-1) (built_oneInt4 trivial) rfl (.predefined .int8) (fun _ _ => by decide) trivial rfl

/-- An `INT4`, and behind it four that are 8 bytes apart. -/
def int4ThenLoop : Datatype :=
  (oneInt4.add ((oneInt4.add (predefined .ub) 1 8 (-1)).getD emptyDatatype) 4 4 (-1)).getD
    emptyDatatype

lemma built_int4ThenLoop : Built Unrestricted int4ThenLoop
    [0, 1, 2, 3, 4, 5, 6, 7, 12, 13, 14, 15, 20, 21, 22, 23, 28, 29, 30, 31] := by
  have hub : Built Unrestricted ((oneInt4.add (predefined .ub) 1 8 (-1)).getD emptyDatatype)
      [0, 1, 2, 3] :=
    .add 1 8 (-1) (built_oneInt4 trivial) rfl (.predefined .ub)
      (fun _ h => absurd rfl h) trivial rfl
  exact .add 4 4 (-1) (built_oneInt4 trivial) rfl hub
    (fun _ _ => by decide) trivial rfl

/-- Three `INT4` in 8 bytes each, and an `INT4` between the second and the third. -/
def vectorThenInt4 : Datatype :=
  ((((Datatype.create none).add int4In8 3 0 (-1)).getD emptyDatatype).add
    (predefined .int4) 1 12 (-1)).getD emptyDatatype

lemma built_vectorThenInt4 : Built Unrestricted vectorThenInt4
    [0, 1, 2, 3, 8, 9, 10, 11, 16, 17, 18, 19, 12, 13, 14, 15] := by
  have hvector : Built Unrestricted (((Datatype.create none).add int4In8 3 0 (-1)).getD
      emptyDatatype) [0, 1, 2, 3, 8, 9, 10, 11, 16, 17, 18, 19] :=
    .add 3 0 (-1) (.create none) rfl built_int4In8
      (fun _ _ => by decide) trivial rfl
  exact .add 1 12 (-1) hvector rfl (.predefined .int4)
    (fun _ _ => by decide) trivial rfl

/-- Its description. -/
def vectorThenInt4Nest : Nest :=
  .elem { flags := { Flags.basic with commited := false }, type := .int4, count := 3, extent := 8,
          disp := 0 }
    (.elem { flags := { Flags.basic with commited := false }, type := .int4, count := 1,
             extent := 4, disp := 12 } .done)

end Ocoms
