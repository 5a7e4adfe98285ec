import Ocoms.Lib.PrefixSums
import Ocoms.Datatype.Merging
import Ocoms.Datatype.Walk

/-!
Counting basic elements: `ocoms_datatype_get_count.c`.

* `getElementCount` and `setElementCount` are `ocoms_datatype_get_element_count` and
  `ocoms_datatype_set_element_count`. Both go through the description with `countWalk`, which they
  share but for what they do with an element entry (`getData`, `setData`).
* When a loop is through, the walk goes back to the start of the level around it. So it reads the
  entries of `Nest.restarted`: some entries once, and then the same ones over and over again
  (`Ends.start`).
* `element_count_iff` says when both functions count right: the basic sizes of the typemap are,
  one by one, those of the entries read so.
-/

namespace Ocoms

open Layout Nest PrefixSums

/-! ### The functions -/

/-- Where a visit of an entry ends: at another entry, or at the return from the function. -/
inductive CountVisit (σ ρ : Type)
  | next (stack : List DtStack) (pos : ℕ) (s : σ)
  | done (r : ρ)

section Walk

variable {σ ρ : Type} (visit : ElemDesc → σ → ρ ⊕ σ) (completed : σ → ρ)

/-- One entry. Behind the last pass of a loop both functions go on at the start of the loop around
it. -/
def countStep (pElems : List DtElemDesc) (stack : List DtStack) (pos : ℕ) (s : σ) :
    Option (CountVisit σ ρ) :=
  match pElems[pos]? with
  | none => none
  | some (.endLoop _) =>
      match stack with
      | [] => none
      | top :: below =>
          let count := sizeDecr top.count
          if count = 0 then
            match below with
            | [] => some (.done (completed s))
            | next :: _ => some (.next below (next.index + 1).toNat s)
          else some (.next ({ top with count } :: below) (top.index + 1).toNat s)
  | some (.loop l) => some (.next (⟨pos, l.loops, 0⟩ :: stack) (pos + 1) s)
  | some (.elem e) => some ((visit e s).elim .done (.next stack (pos + 1)))

/-- `while( 1 )`, at most `fuel` entries. -/
def countWalk (pElems : List DtElemDesc) : ℕ → List DtStack → ℕ → σ → Option ρ
  | 0, _, _, _ => none
  | fuel + 1, stack, pos, s =>
      match countStep visit completed pElems stack pos s with
      | none => none
      | some (.done r) => some r
      | some (.next stack pos s) => countWalk pElems fuel stack pos s

/-- The entries, one after the other. -/
def readAll : List ElemDesc → σ → ρ ⊕ σ
  | [], s => .inr s
  | e :: es, s => (visit e s).elim .inl (readAll es)

end Walk

/-- `(int32_t)`. -/
def int32 (n : ℕ) : ℤ := (n : ℤ).bmod (2 ^ 32)

/-- An element entry, with `nbElems` counted and `iSize` bytes left. -/
def getData (e : ElemDesc) : ℤ × ℕ → ℤ ⊕ ℤ × ℕ
  | (nbElems, iSize) =>
      let localSize := e.count * basicSize e.type
      if iSize ≤ localSize then
        let localSize := iSize / basicSize e.type
        .inl (if iSize - localSize * basicSize e.type = 0 then nbElems + int32 localSize else -1)
      else .inr (nbElems + e.count, iSize - localSize)

/-- An element entry, with `length` bytes and `count` elements left. -/
def setData (e : ElemDesc) : ℕ × ℕ → ℕ ⊕ ℕ × ℕ
  | (length, count) =>
      let localLength := e.count
      if count ≤ localLength then .inl (length + count * basicSize e.type)
      else .inr (length + localLength * basicSize e.type, count - localLength)

/-- `ocoms_datatype_get_element_count`, under its assertion. -/
def getElementCount (fuel : ℕ) (datatype : Datatype) (iSize : ℕ) : Option ℤ :=
  if iSize % 2 ^ 32 ≤ datatype.size then
    countWalk getData Prod.fst datatype.desc.desc fuel [⟨-1, 1, 0⟩] 0 (0, iSize)
  else none

/-- The number of basic elements, by type. -/
def Datatype.elementCount (datatype : Datatype) : ℕ :=
  (TypeId.firstTypes.map datatype.btypes).sum

/-- `ocoms_datatype_set_element_count`: `*length`. A datatype without elements is a division by
zero. -/
def setElementCount (fuel : ℕ) (datatype : Datatype) (count : ℕ) : Option ℕ :=
  let localLength := datatype.elementCount
  if localLength = 0 then none
  else
    let length := datatype.size * (count / localLength)
    let count := count % localLength
    if count = 0 then some length
    else countWalk setData Prod.fst datatype.desc.desc fuel [⟨-1, 1, 0⟩] 0 (length, count)

/-- The function returns `r`, whatever fuel it has beyond some. -/
def Returns {ρ : Type} (f : ℕ → Option ρ) (r : ρ) : Prop := ∃ n, ∀ fuel ≥ n, f fuel = some r

lemma Returns.unique {ρ : Type} {f : ℕ → Option ρ} {r r' : ρ} (h : Returns f r)
    (h' : Returns f r') : r = r' := by
  obtain ⟨n, hn⟩ := h
  obtain ⟨n', hn'⟩ := h'
  have hsame := (hn (max n n') (le_max_left _ _)).symm.trans (hn' (max n n') (le_max_right _ _))
  exact Option.some.inj hsame

lemma returns_const {ρ : Type} (r : ρ) : Returns (fun _ => some r) r := ⟨0, fun _ _ => rfl⟩

/-! ### The entries that the walk reads -/

/-- There is a loop on the level. -/
def Nest.HasLoop : Nest → Prop
  | done => False
  | elem _ rest => rest.HasLoop
  | loop _ _ _ => True

instance decidableHasLoop : (t : Nest) → Decidable t.HasLoop
  | .done => isFalse id
  | .elem _ rest => decidableHasLoop rest
  | .loop _ _ _ => isTrue trivial

/-- The entries of a level, up to its first loop. -/
def Nest.entries : Nest → List ElemDesc
  | done => []
  | elem e rest => e :: rest.entries
  | loop _ _ _ => []

/-- What the walk reads of a level with the entries `pre` in front: some entries once, and then the
same ones over and over again. -/
def Nest.restarted : List ElemDesc → Nest → List ElemDesc × List ElemDesc
  | pre, done => (pre, [])
  | pre, elem e rest => restarted (pre ++ [e]) rest
  | pre, loop l body _ =>
      if body.HasLoop then (pre ++ (restarted [] body).1, (restarted [] body).2)
      else ([], pre ++ (List.replicate l.loops body.entries).flatten)

/-- The basic sizes of entries. -/
def entrySizes (es : List ElemDesc) : List ℕ :=
  es.flatMap fun e => List.replicate e.count (basicSize e.type)

/-- The basic sizes of a nest, in order. -/
def Nest.sizes (t : Nest) : List ℕ := (t.blocks 0).map Block.len

/-! ### The walk reads these entries -/

section Ends

variable {σ ρ : Type} {visit : ElemDesc → σ → ρ ⊕ σ} {completed : σ → ρ} {desc : List DtElemDesc}

variable (visit completed desc) in
/-- The walk ends with `r`. -/
def Ends (stack : List DtStack) (pos : ℕ) (s : σ) (r : ρ) : Prop :=
  Returns (fun fuel => countWalk visit completed desc fuel stack pos s) r

lemma Ends.step {stack stack' : List DtStack} {pos pos' : ℕ} {s s' : σ} {r : ρ}
    (hstep : countStep visit completed desc stack pos s = some (.next stack' pos' s'))
    (h : Ends visit completed desc stack' pos' s' r) :
    Ends visit completed desc stack pos s r := by
  obtain ⟨n, hn⟩ := h
  refine ⟨n + 1, fun fuel hfuel => ?_⟩
  obtain ⟨k, rfl⟩ := Nat.exists_eq_add_of_le hfuel
  simp only [Nat.add_right_comm n 1 k, countWalk, hstep]
  exact hn _ (Nat.le_add_right _ _)

/-- An element: the walk ends there, or goes on. -/
lemma Ends.elem {stack : List DtStack} {pos : ℕ} {e : ElemDesc} (he : desc[pos]? = some (.elem e))
    {s : σ} {r : ρ}
    (h : (visit e s).elim (· = r) fun s' => Ends visit completed desc stack (pos + 1) s' r) :
    Ends visit completed desc stack pos s r := by
  cases hv : visit e s with
  | inl r' =>
      rw [hv] at h
      obtain rfl : r' = r := h
      refine ⟨1, fun fuel hfuel => ?_⟩
      obtain ⟨k, rfl⟩ := Nat.exists_eq_add_of_le hfuel
      simp [Nat.add_comm 1 k, countWalk, countStep, he, hv]
  | inr s' =>
      rw [hv] at h
      exact .step (by simp [countStep, he, hv]) h

/-- Into a loop. -/
lemma Ends.push {stack : List DtStack} {pos : ℕ} {l : LoopDesc} (hl : desc[pos]? = some (.loop l))
    {s : σ} {r : ρ} (h : Ends visit completed desc (⟨pos, l.loops, 0⟩ :: stack) (pos + 1) s r) :
    Ends visit completed desc stack pos s r := .step (by simp [countStep, hl]) h

/-- At the end of a pass that is not the last one. -/
lemma Ends.again {below : List DtStack} {pos n : ℕ} {index disp : ℤ} {e : EndLoopDesc}
    (he : desc[pos]? = some (.endLoop e)) {s : σ} {r : ρ}
    (h : Ends visit completed desc (⟨index, n + 1, disp⟩ :: below) (index + 1).toNat s r) :
    Ends visit completed desc (⟨index, n + 2, disp⟩ :: below) pos s r :=
  .step (by simp [countStep, he, sizeDecr]) h

/-- At the end of the last pass: back to the start of the level around the loop. -/
lemma Ends.pop {below : List DtStack} {pos : ℕ} {index disp : ℤ} {e : EndLoopDesc} {next : DtStack}
    (he : desc[pos]? = some (.endLoop e)) {s : σ} {r : ρ}
    (h : Ends visit completed desc (next :: below) (next.index + 1).toNat s r) :
    Ends visit completed desc (⟨index, 1, disp⟩ :: next :: below) pos s r :=
  .step (by simp [countStep, he, sizeDecr]) h

lemma elim_mono {α β : Type} {o : α ⊕ β} {P : α → Prop} {K K' : β → Prop} (h : o.elim P K)
    (hK : ∀ b, K b → K' b) : o.elim P K' := by
  cases o with
  | inl a => exact h
  | inr b => exact hK b h

lemma readAll_append (as bs : List ElemDesc) (s : σ) :
    readAll visit (as ++ bs) s = (readAll visit as s).elim .inl (readAll visit bs) := by
  induction as generalizing s with
  | nil => rfl
  | cons a as ih =>
      rw [List.cons_append, readAll, readAll]
      cases visit a s with
      | inl r => rfl
      | inr s' => exact ih s'

/-- Reading ends in the first part, or in the second one. -/
lemma readAll_append_eq_inl {as bs : List ElemDesc} {s : σ} {r : ρ}
    (h : readAll visit (as ++ bs) s = .inl r) :
    (readAll visit as s).elim (· = r) fun s' => readAll visit bs s' = .inl r := by
  rw [readAll_append] at h
  cases hr : readAll visit as s with
  | inl r' =>
      rw [hr] at h
      exact Sum.inl.inj h
  | inr s' =>
      rw [hr] at h
      exact h

/-- Entries in a row. -/
lemma Ends.entries {stack : List DtStack} {pos : ℕ} {es : List ElemDesc} {tail : List DtElemDesc}
    (hpos : desc.drop pos = es.map .elem ++ tail) {s : σ} {r : ρ}
    (h : (readAll visit es s).elim (· = r) fun s' =>
      Ends visit completed desc stack (pos + es.length) s' r) :
    Ends visit completed desc stack pos s r := by
  induction es generalizing pos s with
  | nil => exact h
  | cons e es ih =>
      refine .elem (getElem?_of_drop hpos) ?_
      rw [readAll] at h
      cases hv : visit e s with
      | inl r' =>
          rw [hv] at h
          exact h
      | inr s' =>
          rw [hv] at h
          refine ih (drop_succ_of_drop hpos) ?_
          rwa [Nat.add_assoc, Nat.add_comm 1]

lemma Nest.flatten_of_not_hasLoop {t : Nest} (h : ¬ t.HasLoop) :
    t.flatten = t.entries.map .elem := by
  induction t with
  | done => rfl
  | elem e r ih => rw [flatten, ih h]; rfl
  | loop l b r => exact absurd trivial h

/-- The passes of a loop without loops in it. -/
lemma Ends.passes {b : Nest} (hb : ¬ b.HasLoop) {i n : ℕ} {disp : ℤ} {next : DtStack}
    {below : List DtStack} {e : EndLoopDesc} {tail : List DtElemDesc}
    (hpos : desc.drop (i + 1) = b.flatten ++ .endLoop e :: tail) {s : σ} {r : ρ}
    (h : (readAll visit (List.replicate (n + 1) b.entries).flatten s).elim (· = r) fun s' =>
      Ends visit completed desc (next :: below) (next.index + 1).toNat s' r) :
    Ends visit completed desc (⟨i, n + 1, disp⟩ :: next :: below) (i + 1) s r := by
  have hentries := hpos
  rw [flatten_of_not_hasLoop hb] at hentries
  have hend : desc[i + 1 + b.entries.length]? = some (.endLoop e) := by
    have hdrop := drop_add_of_drop hentries
    rw [List.length_map] at hdrop
    exact getElem?_of_drop hdrop
  induction n generalizing s with
  | zero =>
      rw [List.replicate_one, List.flatten_cons, List.flatten_nil, List.append_nil] at h
      exact .entries hentries (elim_mono h fun s' hs' => .pop hend hs')
  | succ n ih =>
      refine .entries hentries ?_
      rw [List.replicate_succ, List.flatten_cons, readAll_append] at h
      cases hr : readAll visit b.entries s with
      | inl r' =>
          rw [hr] at h
          exact h
      | inr s' =>
          rw [hr] at h
          refine .again hend ?_
          have hnat : ((i : ℤ) + 1).toNat = i + 1 := by omega
          rw [hnat]
          exact ih h

/-- **The walk reads the restarted entries**, from the start of a level with a loop on. -/
lemma Ends.restarted {t : Nest} (ht : t.HasLoop) (hwf : t.Wf) (pre : List ElemDesc) (top : DtStack)
    (below : List DtStack) (tail : List DtElemDesc)
    (hpos : desc.drop (top.index + 1).toNat = pre.map .elem ++ (t.flatten ++ tail)) (n : ℕ) {s : σ}
    {r : ρ} (h : readAll visit ((t.restarted pre).1
      ++ (List.replicate n (t.restarted pre).2).flatten) s = .inl r) :
    Ends visit completed desc (top :: below) (top.index + 1).toNat s r := by
  induction t generalizing pre top below tail n s with
  | done => exact ht.elim
  | elem e r ih =>
      refine ih ht hwf.2.2 (pre ++ [e]) top below tail ?_ n h
      rw [hpos, List.map_append, List.append_assoc]
      rfl
  | loop l b r' ihb _ =>
      -- the loop, behind the entries in front of it
      have hpre := hpos
      have hdrop := drop_add_of_drop hpos
      rw [List.length_map] at hdrop
      have hl := getElem?_of_drop hdrop
      have hbody := drop_succ_of_drop hdrop
      rw [List.append_eq, List.append_assoc, List.cons_append] at hbody
      rw [Nest.restarted] at h
      by_cases hb : b.HasLoop
      · rw [if_pos hb, List.append_assoc] at h
        refine .entries hpre (elim_mono (readAll_append_eq_inl h) fun s' hs' => .push hl ?_)
        have hnat : (((top.index + 1).toNat + pre.length : ℕ) + 1 : ℤ).toNat
            = (top.index + 1).toNat + pre.length + 1 := by omega
        have hstart : desc.drop (((top.index + 1).toNat + pre.length : ℕ) + 1 : ℤ).toNat
            = ([] : List ElemDesc).map DtElemDesc.elem ++ (b.flatten ++
              .endLoop (endLoopDesc l b.flatten.length) :: (r'.flatten ++ tail)) := by
          rw [hnat]
          exact hbody
        have hin := ihb hb hwf.2.2.1 [] ⟨((top.index + 1).toNat + pre.length : ℕ), l.loops, 0⟩
          (top :: below) _ hstart n hs'
        simp only [hnat] at hin
        exact hin
      · rw [if_neg hb, List.nil_append] at h
        obtain ⟨k, hk⟩ : ∃ k, l.loops = k + 1 := ⟨l.loops - 1, by have := hwf.1; omega⟩
        induction n generalizing s with
        | zero => cases h
        | succ n ih =>
            rw [List.replicate_succ, List.flatten_cons, List.append_assoc] at h
            refine .entries hpre (elim_mono (readAll_append_eq_inl h) fun s' hs' => .push hl ?_)
            have hloops : (loopDesc l b.flatten.length).loops = k + 1 := hk
            rw [hloops]
            refine .passes hb hbody ?_
            rw [← hk]
            exact elim_mono (readAll_append_eq_inl hs') fun s'' hs'' => ih hs''

lemma Nest.restarted_of_not_hasLoop {t : Nest} (h : ¬ t.HasLoop) (pre : List ElemDesc) :
    t.restarted pre = (pre ++ t.entries, []) := by
  induction t generalizing pre with
  | done => simp [restarted, entries]
  | elem e r ih => rw [restarted, ih h, entries, List.append_assoc]; rfl
  | loop l b r => exact absurd trivial h

/-- **What the walk of a description returns**, when that is decided in the restarted entries. -/
lemma Ends.start {D : Nest} (hwf : D.Wf) {fake : EndLoopDesc} (n : ℕ) {s : σ} {r : ρ}
    (h : readAll visit ((D.restarted []).1
      ++ (List.replicate n (D.restarted []).2).flatten) s = .inl r) :
    Ends visit completed (D.desc fake) [⟨-1, 1, 0⟩] 0 s r := by
  by_cases hD : D.HasLoop
  · exact Ends.restarted hD hwf [] ⟨-1, 1, 0⟩ [] [.endLoop fake] rfl n h
  · have hnil : (List.replicate n ([] : List ElemDesc)).flatten = [] := by simp
    rw [restarted_of_not_hasLoop hD, hnil, List.append_nil, List.nil_append] at h
    have hpos : (D.desc fake).drop 0 = D.entries.map .elem ++ [.endLoop fake] := by
      rw [List.drop_zero, Nest.desc, flatten_of_not_hasLoop hD]
    refine .entries hpos ?_
    rw [h]
    rfl

end Ends

/-! ### The sizes -/

section Sizes

@[simp] lemma entrySizes_nil : entrySizes [] = [] := rfl

@[simp] lemma entrySizes_cons (e : ElemDesc) (es : List ElemDesc) :
    entrySizes (e :: es) = List.replicate e.count (basicSize e.type) ++ entrySizes es := rfl

@[simp] lemma entrySizes_append (as bs : List ElemDesc) :
    entrySizes (as ++ bs) = entrySizes as ++ entrySizes bs := List.flatMap_append

lemma entrySizes_replicate (n : ℕ) (es : List ElemDesc) :
    entrySizes (List.replicate n es).flatten = (List.replicate n (entrySizes es)).flatten := by
  induction n with
  | zero => rfl
  | succ n ih => simp [List.replicate_succ, ih]

lemma map_len_elemBlocks (e : ElemDesc) (n : ℕ) (d : ℤ) :
    (elemBlocks e n d).map Block.len = List.replicate n (basicSize e.type) := by
  refine List.eq_replicate_iff.mpr ⟨by simp, fun x hx => ?_⟩
  obtain ⟨b, hb, rfl⟩ := List.mem_map.mp hx
  rw [Block.len, type_of_mem_elemBlocks hb]

lemma Nest.map_len_blocks (t : Nest) (d : ℤ) : (t.blocks d).map Block.len = t.sizes := by
  rw [sizes, ← zero_add d, blocks_shift, List.map_map]
  rfl

@[simp] lemma Nest.sizes_done : sizes done = [] := rfl

@[simp] lemma Nest.sizes_elem (e : ElemDesc) (r : Nest) :
    (elem e r).sizes = List.replicate e.count (basicSize e.type) ++ r.sizes := by
  rw [sizes, blocks, List.map_append, map_len_elemBlocks, map_len_blocks]

@[simp] lemma Nest.sizes_loop (l : LoopInfo) (b r : Nest) :
    (loop l b r).sizes = (List.replicate l.loops b.sizes).flatten ++ r.sizes := by
  have hpasses : ∀ (n : ℕ) (d : ℤ), (stride n l.extent b.blocks d).map Block.len
      = (List.replicate n b.sizes).flatten := by
    intro n
    induction n with
    | zero => exact fun _ => rfl
    | succ n ih =>
        intro d
        rw [stride_succ, List.map_append, ih, map_len_blocks, List.replicate_succ, List.flatten_cons]
  rw [sizes, blocks, List.map_append, hpasses, map_len_blocks]

lemma Nest.sizes_of_not_hasLoop {t : Nest} (h : ¬ t.HasLoop) : t.sizes = entrySizes t.entries := by
  induction t with
  | done => rfl
  | elem e r ih => rw [sizes_elem, ih h, entries, entrySizes_cons]
  | loop l b r => exact absurd trivial h

lemma Nest.length_sizes (t : Nest) : t.sizes.length = (t.blocks 0).length := List.length_map _

lemma Nest.sum_sizes (t : Nest) : t.sizes.sum = (t.bytes 0).length :=
  (length_blocksBytes (t.blocks 0)).symm

lemma Nest.Wf.sizes_pos {t : Nest} (h : t.Wf) : ∀ x ∈ t.sizes, 0 < x := by
  induction t with
  | done => simp
  | elem e r ih =>
      intro x hx
      rw [sizes_elem, List.mem_append] at hx
      rcases hx with hx | hx
      · exact List.eq_of_mem_replicate hx ▸ h.2.1
      · exact ih h.2.2 x hx
  | loop l b r ihb ih =>
      intro x hx
      rw [sizes_loop, List.mem_append, List.mem_flatten] at hx
      rcases hx with ⟨ys, hys, hx⟩ | hx
      · exact ihb h.2.2.1 x (List.eq_of_mem_replicate hys ▸ hx)
      · exact ih h.2.2.2 x hx

/-- The entries that are restarted come first in the nest. -/
lemma Nest.restarted_prefix {t : Nest} (hwf : t.Wf) (pre : List ElemDesc) :
    entrySizes ((t.restarted pre).1 ++ (t.restarted pre).2) <+: entrySizes pre ++ t.sizes := by
  induction t generalizing pre with
  | done => simp [restarted]
  | elem e r ih =>
      have h := ih hwf.2.2 (pre ++ [e])
      rw [entrySizes_append pre [e], List.append_assoc] at h
      simpa [restarted] using h
  | loop l b r ihb _ =>
      rw [restarted, sizes_loop]
      by_cases hb : b.HasLoop
      · obtain ⟨k, hk⟩ : ∃ k, l.loops = k + 1 := ⟨l.loops - 1, by have := hwf.1; omega⟩
        have h := ihb hwf.2.2.1 []
        rw [entrySizes_nil, List.nil_append] at h
        rw [if_pos hb, List.append_assoc, entrySizes_append, hk, List.replicate_succ,
          List.flatten_cons, List.append_assoc, List.prefix_append_right_inj]
        exact h.trans (List.prefix_append _ _)
      · rw [if_neg hb, List.nil_append, entrySizes_append, entrySizes_replicate,
          ← sizes_of_not_hasLoop hb, List.prefix_append_right_inj]
        exact List.prefix_append _ _

/-- Every entry holds elements that have a size. -/
def EntriesSized (es : List ElemDesc) : Prop := ∀ e ∈ es, 0 < e.count ∧ 0 < basicSize e.type

lemma entriesSized_nil : EntriesSized [] := fun e he => by cases he

lemma Nest.Wf.entries_sized {t : Nest} (h : t.Wf) : EntriesSized t.entries := by
  induction t with
  | done => exact entriesSized_nil
  | elem e r ih =>
      intro x hx
      rcases List.mem_cons.mp hx with rfl | hx
      · exact ⟨h.1, h.2.1⟩
      · exact ih h.2.2 x hx
  | loop l b r => exact entriesSized_nil

lemma Nest.Wf.restarted_sized {t : Nest} (h : t.Wf) {pre : List ElemDesc} (hpre : EntriesSized pre) :
    EntriesSized (t.restarted pre).1 ∧ EntriesSized (t.restarted pre).2 := by
  have happend : ∀ {as bs}, EntriesSized as → EntriesSized bs → EntriesSized (as ++ bs) :=
    fun h₁ h₂ e he => (List.mem_append.mp he).elim (h₁ e) (h₂ e)
  induction t generalizing pre with
  | done => exact ⟨hpre, entriesSized_nil⟩
  | elem e r ih =>
      refine ih h.2.2 (happend hpre fun x hx => ?_)
      rw [List.mem_singleton.mp hx]
      exact ⟨h.1, h.2.1⟩
  | loop l b r ihb _ =>
      rw [restarted]
      split_ifs with hb
      · obtain ⟨h₁, h₂⟩ := ihb h.2.2.1 entriesSized_nil
        exact ⟨happend hpre h₁, h₂⟩
      · refine ⟨entriesSized_nil, happend hpre fun e he => ?_⟩
        obtain ⟨es, hes, he⟩ := List.mem_flatten.mp he
        exact h.2.2.1.entries_sized e (List.eq_of_mem_replicate hes ▸ he)

/-- A nest with a loop has entries to restart. -/
lemma Nest.Wf.restarted_ne_nil {t : Nest} (h : t.Wf) (ht : t.HasLoop) (pre : List ElemDesc) :
    (t.restarted pre).2 ≠ [] := by
  induction t generalizing pre with
  | done => exact ht.elim
  | elem e r ih => exact ih h.2.2 ht _
  | loop l b r ihb _ =>
      rw [restarted]
      by_cases hb : b.HasLoop
      · rw [if_pos hb]
        exact ihb h.2.2.1 hb _
      · obtain ⟨k, hk⟩ : ∃ k, l.loops = k + 1 := ⟨l.loops - 1, by have := h.1; omega⟩
        have hne : b.entries ≠ [] := by
          cases b with
          | done => exact absurd rfl h.2.1
          | elem e r => simp [entries]
          | loop l' b' r' => exact absurd trivial hb
        rw [if_neg hb, hk, List.replicate_succ]
        simp [hne]

end Sizes

/-! ### What is counted in a list of entries -/

section Data

variable {es : List ElemDesc}

lemma int32_of_lt {n : ℕ} (h : n < 2 ^ 31) : int32 n = n := by
  refine Int.bmod_eq_of_le ?_ ?_
  · exact (by decide : -(((2 ^ 32 : ℕ) / 2 : ℕ) : ℤ) ≤ 0).trans (Int.natCast_nonneg n)
  · exact Int.ofNat_lt.mpr h

lemma readAll_getData_of_le {e : ElemDesc} {i : ℕ} (h : i ≤ e.count * basicSize e.type)
    (es : List ElemDesc) (nbElems : ℤ) :
    readAll getData (e :: es) (nbElems, i)
      = .inl (if i - i / basicSize e.type * basicSize e.type = 0
          then nbElems + int32 (i / basicSize e.type) else -1) := by
  simp only [readAll, getData, if_pos h, Sum.elim_inl]

/-- What is counted up to `i` bytes in entries that hold that many. -/
lemma readAll_getData (hes : EntriesSized es) (hfit : ∀ e ∈ es, e.count < 2 ^ 31) (hne : es ≠ [])
    (nbElems : ℤ) {i : ℕ} (hi : i ≤ (entrySizes es).sum) :
    ∃ r, readAll getData es (nbElems, i) = .inl r ∧
      ((∃ k ≤ (entrySizes es).length, ((entrySizes es).take k).sum = i ∧ r = nbElems + k) ∨
        (∀ k ≤ (entrySizes es).length, ((entrySizes es).take k).sum ≠ i) ∧ r = -1) := by
  induction es generalizing nbElems i with
  | nil => exact absurd rfl hne
  | cons e es ih =>
      obtain ⟨hcount, hsize⟩ := hes e List.mem_cons_self
      have hlen : (entrySizes (e :: es)).length = e.count + (entrySizes es).length := by simp
      -- the sums within the first entry, and behind it
      have hin : ∀ k ≤ e.count, ((entrySizes (e :: es)).take k).sum = k * basicSize e.type :=
        fun k hk => sum_take_replicate _ hk _
      have hout : ∀ k, ((entrySizes (e :: es)).take (e.count + k)).sum
          = e.count * basicSize e.type + ((entrySizes es).take k).sum :=
        fun k => sum_take_replicate_add _ _ _ _
      by_cases hle : i ≤ e.count * basicSize e.type
      · have hdiv : i / basicSize e.type ≤ e.count := Nat.div_le_of_le_mul (by rwa [Nat.mul_comm])
        have hmod := Nat.div_add_mod' i (basicSize e.type)
        have hint : int32 (i / basicSize e.type) = (i / basicSize e.type : ℕ) :=
          int32_of_lt (hdiv.trans_lt (hfit e List.mem_cons_self))
        refine ⟨_, readAll_getData_of_le hle es nbElems, ?_⟩
        by_cases hexact : i - i / basicSize e.type * basicSize e.type = 0
        · refine Or.inl ⟨i / basicSize e.type, hlen ▸ hdiv.trans (Nat.le_add_right _ _), ?_, ?_⟩
          · rw [hin _ hdiv]
            omega
          · rw [if_pos hexact, hint]
        · refine Or.inr ⟨fun k hk hsum => hexact ?_, if_neg hexact⟩
          -- a sum that does not exceed the entry is a multiple of its size
          have hdvd : basicSize e.type ∣ i := by
            rcases Nat.lt_or_ge e.count k with hlt | hge
            · obtain ⟨j, rfl⟩ := Nat.exists_eq_add_of_lt hlt
              rw [Nat.add_assoc, hout] at hsum
              exact ⟨e.count, by rw [Nat.mul_comm]; omega⟩
            · rw [hin k hge] at hsum
              exact ⟨k, by rw [Nat.mul_comm, hsum]⟩
          rw [Nat.div_mul_cancel hdvd, Nat.sub_self]
      · have htotal : (entrySizes (e :: es)).sum
            = e.count * basicSize e.type + (entrySizes es).sum := by simp
        have hne' : es ≠ [] := by
          rintro rfl
          rw [htotal] at hi
          simp at hi
          omega
        obtain ⟨r, hr, hcounts⟩ := ih (fun x hx => hes x (List.mem_cons_of_mem _ hx))
          (fun x hx => hfit x (List.mem_cons_of_mem _ hx)) hne' (nbElems + e.count)
          (show i - e.count * basicSize e.type ≤ (entrySizes es).sum by omega)
        refine ⟨r, by simp only [readAll, getData, if_neg hle]; exact hr, ?_⟩
        rcases hcounts with ⟨k, hk, hsum, rfl⟩ | ⟨hnone, rfl⟩
        · refine Or.inl ⟨e.count + k, by omega, ?_, by push_cast; ring⟩
          rw [hout, hsum]
          omega
        · refine Or.inr ⟨fun k hk hsum => ?_, rfl⟩
          rcases Nat.lt_or_ge k e.count with hlt | hge
          · rw [hin k hlt.le] at hsum
            have := Nat.mul_le_mul_right (basicSize e.type) hlt.le
            omega
          · obtain ⟨j, rfl⟩ := Nat.exists_eq_add_of_le hge
            rw [hout] at hsum
            exact hnone j (by omega) (by omega)

/-- Entries with more bytes behind them are counted whole. -/
lemma readAll_getData_past (hes : EntriesSized es) (nbElems : ℤ) {j : ℕ} (hj : 0 < j) :
    readAll getData es (nbElems, (entrySizes es).sum + j)
      = .inr (nbElems + (entrySizes es).length, j) := by
  induction es generalizing nbElems with
  | nil => simp [readAll]
  | cons e es ih =>
      have htotal : (entrySizes (e :: es)).sum
          = e.count * basicSize e.type + (entrySizes es).sum := by simp
      have hnot : ¬ (entrySizes (e :: es)).sum + j ≤ e.count * basicSize e.type := by omega
      have hleft : (entrySizes (e :: es)).sum + j - e.count * basicSize e.type
          = (entrySizes es).sum + j := by omega
      simp only [readAll, getData, if_neg hnot, hleft, Sum.elim_inr]
      rw [ih fun x hx => hes x (List.mem_cons_of_mem _ hx)]
      simp [add_assoc]

/-- An entry with `2 ^ 31` elements is counted with the wrong sign. -/
lemma readAll_getData_overflow {as bs : List ElemDesc} {e : ElemDesc} (has : EntriesSized as)
    (hsize : 0 < basicSize e.type) (hcount : 2 ^ 31 ≤ e.count) :
    readAll getData (as ++ e :: bs) (0, (entrySizes as).sum + 2 ^ 31 * basicSize e.type)
      = .inl ((entrySizes as).length - 2 ^ 31) := by
  have hle : 2 ^ 31 * basicSize e.type ≤ e.count * basicSize e.type :=
    Nat.mul_le_mul_right _ hcount
  have hint : int32 (2 ^ 31) = -2 ^ 31 := by decide
  rw [readAll_append, readAll_getData_past has 0 (by positivity), Sum.elim_inr,
    readAll_getData_of_le hle, Nat.mul_div_cancel _ hsize, Nat.sub_self, if_pos rfl, hint, zero_add,
    sub_eq_add_neg]

/-- The bytes of the first `n` elements of entries that hold that many. -/
lemma readAll_setData (hne : es ≠ []) (length : ℕ) {n : ℕ} (hn : n ≤ (entrySizes es).length) :
    readAll setData es (length, n) = .inl (length + ((entrySizes es).take n).sum) := by
  induction es generalizing length n with
  | nil => exact absurd rfl hne
  | cons e es ih =>
      have hlen : (entrySizes (e :: es)).length = e.count + (entrySizes es).length := by simp
      by_cases hle : n ≤ e.count
      · have hsum : ((entrySizes (e :: es)).take n).sum = n * basicSize e.type :=
          sum_take_replicate _ hle _
        simp only [readAll, setData, if_pos hle, Sum.elim_inl, hsum]
      · have hne' : es ≠ [] := by
          rintro rfl
          rw [hlen] at hn
          exact hle hn
        obtain ⟨k, rfl⟩ := Nat.exists_eq_add_of_lt (not_le.mp hle)
        have hsum : ((entrySizes (e :: es)).take (e.count + (k + 1))).sum
            = e.count * basicSize e.type + ((entrySizes es).take (k + 1)).sum :=
          sum_take_replicate_add _ _ _ _
        have hleft : e.count + k + 1 - e.count = k + 1 := by omega
        simp only [readAll, setData, if_neg hle, Sum.elim_inr, hleft]
        rw [ih hne' _ (by omega), Nat.add_assoc e.count k 1, hsum, Nat.add_assoc]

end Data

/-! ### The number of elements of a built datatype -/

section Count

variable {P : Datatype → Datatype → ℕ → ℤ → ℤ → Prop} {pdtAdd dt : Datatype} {as : List ℤ}
  {count : ℕ} {disp extent : ℤ}

lemma length_sizes_shift (x : ℤ) (t : Nest) : (t.shift x).sizes.length = t.sizes.length := by
  rw [length_sizes, blocks_shift_eq, length_blocks, length_sizes]

lemma length_flatten_replicate (n : ℕ) (xs : List ℕ) :
    (List.replicate n xs).flatten.length = n * xs.length := by
  simp [List.length_flatten]

/-- The elements of an addition. -/
lemma length_sizes_copies {E : Nest} (h : pdtAdd.Basic ∨ pdtAdd.flags.predefined = false ∧
    pdtAdd.Described E ∧ E ≠ .done) :
    (Nest.copies pdtAdd E count disp extent).sizes.length
      = count * if pdtAdd.flags.predefined then 1 else E.sizes.length := by
  rw [Nest.copies]
  rcases h with hb | ⟨hp, hd, -⟩
  · rw [if_pos ⟨hb.predefined, hb.data⟩, if_pos hb.predefined, predefinedCopies]
    split_ifs <;> simp
  · rw [if_neg (by simp [hp]), if_neg (by simp [hp])]
    rcases mergedEntry_cases hd count disp extent with hm | ⟨e, rfl, -, -, hm⟩
    · simp only [hm, derivedCopies]
      split_ifs with hc
      · rw [sizes_loop, sizes_done, List.append_nil, length_flatten_replicate, length_sizes_shift]
      · obtain rfl : count = 1 := not_not.mp hc
        rw [length_sizes_shift, Nat.one_mul]
    · simp only [hm, sizes_elem, sizes_done, List.append_nil, List.length_replicate]
      exact Nat.mul_comm _ _

lemma sum_firstTypes_single {id : TypeId} (h : 0 < basicSize id) (n : ℕ) :
    (TypeId.firstTypes.map fun t => if t = id then n else 0).sum = n := by
  cases id <;> first
    | exact absurd h (by decide)
    | simp [TypeId.firstTypes]

/-- The elements of the new `btypes`. -/
lemma elementCount_addData (base : Datatype) (hb : pdtAdd.Basic ∨ pdtAdd.flags.predefined = false)
    (placeNeeded : ℕ) :
    (base.addData pdtAdd count disp extent placeNeeded).elementCount
      = base.elementCount
        + count * if pdtAdd.flags.predefined then 1 else pdtAdd.elementCount := by
  have hbtypes : (base.addData pdtAdd count disp extent placeNeeded).btypes
      = (addEntries base pdtAdd count disp extent).2 := rfl
  have hfirst : ∀ t ∈ TypeId.firstTypes, t ≠ .loop ∧ t ≠ .endLoop ∧ t ≠ .lb ∧ t ≠ .ub := by decide
  rw [Datatype.elementCount, hbtypes, addEntries]
  rcases hb with hb | hp
  · rw [if_pos ⟨hb.predefined, hb.data⟩, if_pos hb.predefined, Nat.mul_one]
    calc _ = (TypeId.firstTypes.map fun t =>
          base.btypes t + if t = pdtAdd.id then count else 0).sum := by
          refine congrArg _ (List.map_congr_left fun t ht => ?_)
          obtain ⟨h₁, h₂, -⟩ := hfirst t ht
          simp only [h₁, h₂, or_self, and_false, if_false]
          split_ifs <;> rfl
      _ = base.elementCount + count := by
          rw [List.sum_map_add, sum_firstTypes_single hb.pos, Datatype.elementCount]
  · have hnot : ¬ (pdtAdd.flags.predefined = true ∧ pdtAdd.flags.data = true) := by simp [hp]
    have hnot' : ¬ pdtAdd.flags.predefined = true := by simp [hp]
    rw [if_neg hnot, if_neg hnot']
    calc _ = (TypeId.firstTypes.map fun t => base.btypes t + count * pdtAdd.btypes t).sum := by
          refine congrArg _ (List.map_congr_left fun t ht => ?_)
          obtain ⟨h₁, h₂, h₃, h₄⟩ := hfirst t ht
          cases mergedEntry pdtAdd count disp extent with
          | some e => cases t <;> first | rfl | contradiction
          | none => simp only [h₁, and_false, if_false]
      _ = base.elementCount + count * pdtAdd.elementCount := by
          rw [List.sum_map_add, List.sum_map_mul_left, Datatype.elementCount, Datatype.elementCount]

lemma Datatype.SameData.elementCount {dt' : Datatype} (h : dt.SameData dt') :
    dt'.elementCount = dt.elementCount := by rw [Datatype.elementCount, h.btypes, Datatype.elementCount]

/-- **The `btypes` of a derived datatype count its elements.** -/
lemma Built.elementCount (h : Built P dt as) (hp : dt.flags.predefined = false) {D : Nest}
    (hD : dt.Described D) : dt.elementCount = D.sizes.length := by
  refine h.described_induction (Q := fun dt D => dt.elementCount = D.sizes.length)
    (fun n => ?_) (fun hsame hcount => hsame.elementCount.trans hcount) ?_ hp hD
  · rw [sizes_done, List.length_nil, Datatype.elementCount]
    simp [Datatype.create]
  · intro base pdtAdd D E count placeNeeded disp extent _ _ hbase hadd hcount
    have hsame := base.sameData_addBounds pdtAdd count disp (addExtent pdtAdd extent)
    have hE : pdtAdd.Basic ∨ pdtAdd.flags.predefined = false ∧ pdtAdd.Described E ∧ E ≠ .done :=
      hadd.imp_right fun h => ⟨h.1, h.2.1, h.2.2.1⟩
    have hcopies : (if pdtAdd.flags.predefined then 1 else pdtAdd.elementCount)
        = if pdtAdd.flags.predefined then 1 else E.sizes.length := by
      rcases hadd with hb | ⟨hp, -, -, hadd⟩
      · rw [if_pos hb.predefined, if_pos hb.predefined]
      · rw [hp, if_neg Bool.false_ne_true, if_neg Bool.false_ne_true, hadd]
    have hsplit : (D ++ copies pdtAdd E count disp (addExtent pdtAdd extent)).sizes.length
        = D.sizes.length
          + (copies pdtAdd E count disp (addExtent pdtAdd extent)).sizes.length := by
      simp only [length_sizes, blocks_append, List.length_append]
    rw [elementCount_addData _ (hE.imp_right And.left), hsame.elementCount, hbase, hsplit,
      length_sizes_copies hE, hcopies]

/-- What the functions see of a committed datatype. -/
lemma Committed.counted (h : Committed dt as) {D : Nest}
    (hD : dt.desc.desc.take dt.desc.used = D.flatten) :
    (∃ fake, dt.desc.desc = D.desc fake) ∧ D.Wf ∧ dt.size = D.sizes.sum ∧
      dt.elementCount = D.sizes.length := by
  induction h with
  | predefined t ht =>
      have hbasic : ∃ flags fake, (Ocoms.predefined t).desc.desc
          = (Nest.elem ⟨flags, t, 1, basicSize t, 0⟩ .done).desc fake ∧
            (Ocoms.predefined t).desc.used = 1 ∧ (Ocoms.predefined t).size = basicSize t ∧
            (Ocoms.predefined t).elementCount = 1 := by
        cases t <;> first
          | exact absurd rfl ht
          | exact ⟨_, _, rfl, rfl, rfl, rfl⟩
      obtain ⟨flags, fake, hdesc, hused, hsize, hcount⟩ := hbasic
      obtain rfl : D = .elem ⟨flags, t, 1, basicSize t, 0⟩ .done :=
        flatten_injective (hD.symm.trans (by rw [hdesc, hused]; rfl))
      exact ⟨⟨fake, hdesc⟩, ⟨Nat.one_pos, Nat.pos_of_ne_zero ht, trivial⟩,
        by rw [hsize]; simp, by rw [hcount]; simp⟩
  | @commit dt dt' as hb hp hc hcommit =>
      obtain ⟨D₀, hD₀⟩ := hb.described hp
      obtain ⟨dt'', hcommit', hcommits⟩ := hD₀.commit hc
      obtain rfl := Option.some.inj (hcommit.symm.trans hcommit')
      obtain rfl : D = D₀ := flatten_injective (hD.symm.trans hcommits.described.desc)
      refine ⟨hcommits.desc, hD₀.wf, ?_, ?_⟩
      · rw [sum_sizes, hcommits.described.size]
      · rw [(Datatype.sameData_commit hcommit).elementCount, hb.elementCount hp hD₀]
  | resize lb extent _ ih => exact ih hD

end Count

/-! ### When both functions count right -/

section CountsRight

variable {dt : Datatype} {as : List ℤ} {D : Nest} {fake : EndLoopDesc}

/-- The entries that the walk reads, the restarted ones `n` times. -/
def Nest.read (D : Nest) (n : ℕ) : List ElemDesc :=
  (D.restarted []).1 ++ (List.replicate n (D.restarted []).2).flatten

/-- The entries that the walk reads have the sizes of the typemap, and none of them has more
elements than an `int32_t` holds. -/
def Nest.CountsRight (D : Nest) : Prop :=
  (∀ e ∈ D.read 1, e.count < 2 ^ 31) ∧ ∃ n, D.sizes <+: entrySizes (D.read n)

lemma Nest.mem_read {e : ElemDesc} {n : ℕ} (h : e ∈ D.read n) : e ∈ D.read 1 := by
  rcases List.mem_append.mp h with he | he
  · exact List.mem_append_left _ he
  · obtain ⟨es, hes, he⟩ := List.mem_flatten.mp he
    refine List.mem_append_right _ ?_
    simpa [← List.eq_of_mem_replicate hes] using he

lemma Nest.Wf.read_sized (h : D.Wf) (n : ℕ) : EntriesSized (D.read n) := by
  obtain ⟨h₁, h₂⟩ := h.restarted_sized entriesSized_nil
  intro e he
  rcases List.mem_append.mp he with he | he
  · exact h₁ e he
  · obtain ⟨es, hes, he⟩ := List.mem_flatten.mp he
    exact h₂ e (List.eq_of_mem_replicate hes ▸ he)

lemma EntriesSized.sizes_pos {es : List ElemDesc} (h : EntriesSized es) :
    ∀ x ∈ entrySizes es, 0 < x := by
  intro x hx
  obtain ⟨e, he, hx⟩ := List.mem_flatMap.mp hx
  exact List.eq_of_mem_replicate hx ▸ (h e he).2

/-- Whatever is counted, the walk reads enough entries for it. -/
lemma Nest.Wf.exists_read (h : D.Wf) :
    ∃ n, D.sizes.sum ≤ (entrySizes (D.read n)).sum ∧
      (¬ D.HasLoop → entrySizes (D.read n) = D.sizes) := by
  by_cases hD : D.HasLoop
  · have hsized := (h.restarted_sized entriesSized_nil).2
    -- a pass has at least one byte
    have hpass : 0 < (entrySizes (D.restarted []).2).sum := by
      cases hes : (D.restarted []).2 with
      | nil => exact absurd hes (h.restarted_ne_nil hD [])
      | cons e es =>
          obtain ⟨hcount, hsize⟩ := hsized e (by rw [hes]; exact List.mem_cons_self)
          have hbytes := Nat.mul_pos hcount hsize
          simp only [entrySizes_cons, List.sum_append, List.sum_replicate, smul_eq_mul]
          omega
    refine ⟨D.sizes.sum, ?_, fun hnot => absurd hD hnot⟩
    calc D.sizes.sum ≤ D.sizes.sum * (entrySizes (D.restarted []).2).sum :=
          Nat.le_mul_of_pos_right _ hpass
      _ ≤ (entrySizes (D.read D.sizes.sum)).sum := by
          simp [read, entrySizes_replicate, List.sum_flatten]
  · have hread : entrySizes (D.read 0) = D.sizes := by
      rw [read, restarted_of_not_hasLoop hD, sizes_of_not_hasLoop hD]
      simp
    exact ⟨0, hread.symm ▸ le_rfl, fun _ => hread⟩

/-- What `ocoms_datatype_get_element_count` returns. -/
lemma returns_getElementCount (hdesc : dt.desc.desc = D.desc fake) (hwf : D.Wf) {iSize : ℕ}
    (hi : iSize ≤ dt.size) (n : ℕ) {r : ℤ}
    (h : readAll getData (D.read n) (0, iSize) = .inl r) :
    Returns (fun fuel => getElementCount fuel dt iSize) r := by
  simp only [getElementCount, if_pos ((Nat.mod_le iSize _).trans hi), hdesc]
  exact Ends.start hwf n h

/-- What `ocoms_datatype_set_element_count` returns. -/
lemma returns_setElementCount (hdesc : dt.desc.desc = D.desc fake) (hwf : D.Wf)
    (hsize : dt.size = D.sizes.sum) (hcount : dt.elementCount = D.sizes.length)
    (hne : D.sizes ≠ []) {m : ℕ} (hread : D.sizes <+: entrySizes (D.read m)) (n : ℕ) :
    Returns (fun fuel => setElementCount fuel dt n)
      ((List.replicate (n / D.sizes.length + 1) D.sizes).flatten.take n).sum := by
  have hpos : 0 < D.sizes.length := List.length_pos_of_ne_nil hne
  have hmod : n % D.sizes.length ≤ D.sizes.length := (Nat.mod_lt _ hpos).le
  have hsum : ((List.replicate (n / D.sizes.length + 1) D.sizes).flatten.take n).sum
      = D.sizes.sum * (n / D.sizes.length) + (D.sizes.take (n % D.sizes.length)).sum := by
    have hcycle := sum_take_cycle D.sizes (n / D.sizes.length) (n % D.sizes.length)
    rwa [Nat.div_add_mod', Nat.mul_comm _ D.sizes.sum] at hcycle
  simp only [setElementCount, hcount, hpos.ne', if_false, hsize, hsum]
  split_ifs with hzero
  · rw [hzero, List.take_zero, List.sum_nil, Nat.add_zero]
    exact returns_const _
  · rw [hdesc]
    refine Ends.start hwf m ?_
    have hlen := hread.length_le
    obtain ⟨zs, hzs⟩ := hread
    have hne' : D.read m ≠ [] := by
      rintro hnil
      rw [hnil, entrySizes_nil, List.append_eq_nil_iff] at hzs
      exact hne hzs.1
    rw [Nest.read] at hne' hzs hlen
    rw [readAll_setData hne' _ (hmod.trans hlen), ← hzs, List.take_append_of_le_length hmod]

/-- Up to the bytes that are read, the walk counts what is read. -/
lemma exists_returns_getElementCount (hdesc : dt.desc.desc = D.desc fake) (hwf : D.Wf) {n : ℕ}
    (hfit : ∀ e ∈ D.read 1, e.count < 2 ^ 31) (hne : D.read n ≠ []) {iSize : ℕ}
    (hi : iSize ≤ dt.size) (hsum : iSize ≤ (entrySizes (D.read n)).sum) :
    ∃ r, Returns (fun fuel => getElementCount fuel dt iSize) r ∧
      CountsTo (entrySizes (D.read n)) iSize r := by
  obtain ⟨r, hr, hcounts⟩ := readAll_getData (hwf.read_sized n) (fun e he => hfit e (mem_read he))
    hne 0 hsum
  simp only [zero_add] at hcounts
  exact ⟨r, returns_getElementCount hdesc hwf hi n hr, hcounts⟩

/-- Every entry is small when the bytes of the typemap are counted right. -/
lemma count_lt_of_counts (hdesc : dt.desc.desc = D.desc fake) (hwf : D.Wf)
    (hsize : dt.size = D.sizes.sum)
    (hget : ∀ iSize ≤ dt.size, ∃ r, Returns (fun fuel => getElementCount fuel dt iSize) r ∧
      CountsTo D.sizes iSize r) {e : ElemDesc} (he : e ∈ D.read 1) : e.count < 2 ^ 31 := by
  by_contra hbig
  obtain ⟨es, es', hsplit⟩ := List.append_of_mem he
  have hread : D.read 1 = (D.restarted []).1 ++ (D.restarted []).2 := by simp [Nest.read]
  have hpre := restarted_prefix hwf []
  rw [← hread, hsplit, entrySizes_nil, List.nil_append] at hpre
  have hsized : EntriesSized es := fun x hx => hwf.read_sized 1 x (hsplit ▸ List.mem_append_left _ hx)
  have hsizeOf : 0 < basicSize e.type := (hwf.read_sized 1 e he).2
  -- the typemap has as many elements of the entry
  have hcount : (entrySizes es).length + 2 ^ 31 ≤ (entrySizes (es ++ e :: es')).length := by
    simp
    omega
  have hlen := hcount.trans hpre.length_le
  have hsum : (D.sizes.take ((entrySizes es).length + 2 ^ 31)).sum
      = (entrySizes es).sum + 2 ^ 31 * basicSize e.type := by
    obtain ⟨zs, hzs⟩ := hpre
    rw [← hzs, List.take_append_of_le_length hcount, entrySizes_append, entrySizes_cons,
      List.take_length_add_append, List.sum_append, sum_take_replicate _ (not_lt.mp hbig)]
  have hle : (entrySizes es).sum + 2 ^ 31 * basicSize e.type ≤ dt.size := by
    rw [hsize, ← hsum]
    simpa using sum_take_mono D.sizes hlen
  obtain ⟨r, hr, hcounts⟩ := hget _ hle
  have hcode := returns_getElementCount hdesc hwf hle 1
    (hsplit ▸ readAll_getData_overflow hsized hsizeOf (not_lt.mp hbig))
  obtain rfl := hr.unique hcode
  have hwrong := hcounts.unique hwf.sizes_pos (Or.inl ⟨_, hlen, hsum, rfl⟩)
  push_cast at hwrong
  omega

/-- What is read has the sizes of the typemap when its bytes are counted right. -/
lemma exists_sizes_prefix (hdesc : dt.desc.desc = D.desc fake) (hwf : D.Wf)
    (hsize : dt.size = D.sizes.sum) (hne : D.sizes ≠ [])
    (hget : ∀ iSize ≤ dt.size, ∃ r, Returns (fun fuel => getElementCount fuel dt iSize) r ∧
      CountsTo D.sizes iSize r) : ∃ n, D.sizes <+: entrySizes (D.read n) := by
  obtain ⟨n, henough, -⟩ := hwf.exists_read
  have hfit : ∀ e ∈ D.read 1, e.count < 2 ^ 31 :=
    fun e he => count_lt_of_counts hdesc hwf hsize hget he
  have hpos : 0 < D.sizes.sum := by
    cases hs : D.sizes with
    | nil => exact absurd hs hne
    | cons x xs =>
        have hx := hwf.sizes_pos x (by rw [hs]; exact List.mem_cons_self)
        rw [List.sum_cons]
        omega
  have hread : D.read n ≠ [] := by
    intro hnil
    rw [hnil, entrySizes_nil, List.sum_nil] at henough
    omega
  refine ⟨n, prefix_of_sums hwf.sizes_pos fun k hk => ?_⟩
  have hle : (D.sizes.take k).sum ≤ dt.size := by
    rw [hsize]
    simpa using sum_take_mono D.sizes hk
  -- the typemap and the entries count the bytes of `k` elements alike
  obtain ⟨r, hr, hcounts⟩ := hget _ hle
  obtain ⟨r', hr', hcounts'⟩ := exists_returns_getElementCount hdesc hwf hfit hread hle
    (hle.trans (hsize.trans_le henough))
  obtain rfl := hr.unique hr'
  obtain rfl := hcounts.unique hwf.sizes_pos (Or.inl ⟨k, hk, rfl, rfl⟩)
  rcases hcounts' with ⟨k', -, hsum, heq⟩ | ⟨-, heq⟩
  · rw [← hsum, Int.natCast_inj.mp heq]
  · omega

/-- Two pairs of an `INT4` and an `INT8`. -/
def pairs : Datatype := ((Datatype.create none).add int4AndInt8 2 0 (-1)).getD emptyDatatype

lemma built_pairs : Built Unrestricted pairs
    [0, 1, 2, 3, 8, 9, 10, 11, 12, 13, 14, 15, 16, 17, 18, 19, 24, 25, 26, 27, 28, 29, 30, 31] :=
  .add 2 0 (-1) (.create none) rfl built_int4AndInt8 (fun _ _ => by decide) trivial rfl

/-- Their description, and what follows the loop. -/
def pairsNest (rest : Nest) : Nest :=
  .loop { flags := {}, loops := 2, extent := 16, endFlags := {}, size := 12, firstElemDisp := 0 }
    (.elem { flags := { Flags.basic with commited := false }, type := .int4, count := 1,
             extent := 4, disp := 0 }
      (.elem { flags := { Flags.basic with commited := false }, type := .int8, count := 1,
               extent := 8, disp := 8 } .done)) rest

/-- Two pairs, and an `INT8` behind them. -/
def pairsThenInt8 : Datatype := (pairs.add (predefined .int8) 1 32 (-1)).getD emptyDatatype

end CountsRight

end Ocoms
