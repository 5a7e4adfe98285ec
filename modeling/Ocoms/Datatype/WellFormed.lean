import Ocoms.Datatype.Merging

/-!
Well-formed descriptions.

* `TypeDesc.WellFormed` says of the entries of a description that every walk can jump by them:
  loops and their ends point to each other, they are nested, their bodies hold data, the ends of
  `CONTIGUOUS` loops describe one pass, and the fake `END_LOOP` covers all of it.
* `Nest.LoopAt` finds the loops of a nest at the places of their entries, so that
  `Nest.wellFormed_iff` can say what that means of the nest behind a description.
* `Nest.endsDescribe_optimized_iff` says what the optimizer keeps of it.
* `commit_wellFormed_iff` is the theorem about every built datatype: both descriptions are well
  formed exactly if no join breaks a loop.
-/

namespace Ocoms

open Layout Nest

/-- **A well-formed description.** -/
structure TypeDesc.WellFormed (td : TypeDesc) : Prop where
  /-- A loop is closed `items` entries further on. -/
  closed : ∀ (i : ℕ) (l : LoopDesc), td.desc[i]? = some (.loop l) →
    i + l.items < td.used ∧ ∃ e, td.desc[i + l.items]? = some (.endLoop e) ∧ e.items = l.items
  /-- An `END_LOOP` was opened `items` entries before. -/
  opened : ∀ (i : ℕ) (e : EndLoopDesc), i < td.used → td.desc[i]? = some (.endLoop e) →
    e.items ≤ i ∧ ∃ l, td.desc[i - e.items]? = some (.loop l) ∧ l.items = e.items
  /-- A loop that starts in the body of another one ends in it. -/
  nested : ∀ (i k : ℕ) (l l' : LoopDesc), td.desc[i]? = some (.loop l) →
    td.desc[k]? = some (.loop l') → i < k → k < i + l.items → k + l'.items < i + l.items
  /-- There is data in every body. -/
  data : ∀ (i : ℕ) (l : LoopDesc), td.desc[i]? = some (.loop l) →
    ∃ k e, i < k ∧ k < i + l.items ∧ td.desc[k]? = some (.elem e) ∧ e.flags.data = true
  /-- The end of a `CONTIGUOUS` loop describes one pass of its body. -/
  ends : ∀ (i : ℕ) (l : LoopDesc) (e : EndLoopDesc), td.desc[i]? = some (.loop l) →
    l.flags.contiguous = true → td.desc[i + l.items]? = some (.endLoop e) →
    ∃ body : Nest, (td.desc.drop (i + 1)).take (l.items - 1) = body.flatten ∧
      e.firstElemDisp = body.firstDisp ∧ e.size = (body.bytes 0).length
  /-- The fake `END_LOOP` covers the description. -/
  fake : td.desc.length = td.used + 1 ∧
    ∃ e, td.desc[td.used]? = some (.endLoop e) ∧ e.items = td.used

namespace Nest

/-! ### The loops of a nest -/

/-- The nest has the loop `l` with the body `b`, and its entry stands at the index. -/
inductive LoopAt (l : LoopInfo) (b : Nest) : Nest → ℕ → Prop
  | here (r : Nest) : LoopAt l b (loop l b r) 0
  | elem (e : ElemDesc) {r : Nest} {i : ℕ} : LoopAt l b r i → LoopAt l b (elem e r) (i + 1)
  | body (l' : LoopInfo) (r : Nest) {b' : Nest} {i : ℕ} :
      LoopAt l b b' i → LoopAt l b (loop l' b' r) (i + 1)
  | rest (l' : LoopInfo) (b' : Nest) {r : Nest} {i : ℕ} :
      LoopAt l b r i → LoopAt l b (loop l' b' r) (b'.flatten.length + 2 + i)

section LoopAt

variable {l : LoopInfo} {b t : Nest} {i : ℕ}

/-- Its entries stand there. -/
lemma LoopAt.flatten_eq (h : LoopAt l b t i) :
    ∃ pre post, t.flatten = pre ++ ((loop l b done).flatten ++ post) ∧ pre.length = i := by
  induction h with
  | here r => exact ⟨[], r.flatten, by simp [flatten], rfl⟩
  | elem e _ ih =>
      obtain ⟨pre, post, heq, rfl⟩ := ih
      exact ⟨.elem e :: pre, post, by rw [flatten, heq, List.cons_append], rfl⟩
  | @body l' r b' _ _ ih =>
      obtain ⟨pre, post, heq, rfl⟩ := ih
      refine ⟨.loop (loopDesc l' b'.flatten.length) :: pre,
        post ++ .endLoop (endLoopDesc l' b'.flatten.length) :: r.flatten, ?_, rfl⟩
      rw [flatten]
      nth_rewrite 2 [heq]
      simp only [List.cons_append, List.append_assoc]
  | rest l' b' _ ih =>
      obtain ⟨pre, post, heq, rfl⟩ := ih
      refine ⟨.loop (loopDesc l' b'.flatten.length) ::
        (b'.flatten ++ .endLoop (endLoopDesc l' b'.flatten.length) :: pre), post, ?_, ?_⟩
      · rw [flatten, heq]
        simp only [List.cons_append, List.append_assoc]
      · simp only [List.length_cons, List.length_append]
        omega

/-- Where there is the entry of a loop, there is a loop. -/
lemma exists_loopAt {lp : LoopDesc} (h : t.flatten[i]? = some (.loop lp)) :
    ∃ l b, LoopAt l b t i := by
  induction t generalizing i with
  | done => cases h
  | elem e r ih =>
      cases i with
      | zero => cases h
      | succ i =>
          obtain ⟨l, b, hat⟩ := ih h
          exact ⟨l, b, .elem e hat⟩
  | loop l' b' r ihb ih =>
      cases i with
      | zero => exact ⟨l', b', .here r⟩
      | succ i =>
          rw [flatten, List.getElem?_cons_succ] at h
          rcases Nat.lt_trichotomy i b'.flatten.length with hlt | heq | hgt
          · rw [List.getElem?_append_left hlt] at h
            obtain ⟨l, b, hat⟩ := ihb h
            exact ⟨l, b, .body l' r hat⟩
          · rw [List.getElem?_append_right heq.ge, heq, Nat.sub_self] at h
            cases h
          · obtain ⟨k, rfl⟩ : ∃ k, i = b'.flatten.length + (k + 1) :=
              ⟨i - b'.flatten.length - 1, by omega⟩
            rw [List.getElem?_append_right (Nat.le_add_right _ _), Nat.add_sub_cancel_left,
              List.getElem?_cons_succ] at h
            obtain ⟨l, b, hat⟩ := ih h
            exact ⟨l, b, by convert LoopAt.rest l' b' hat using 1; omega⟩

/-- Where there is an `END_LOOP`, a loop ends. -/
lemma exists_loopAt_end {e : EndLoopDesc} (h : t.flatten[i]? = some (.endLoop e)) :
    ∃ l b k, LoopAt l b t k ∧ i = k + (b.flatten.length + 1) := by
  induction t generalizing i with
  | done => cases h
  | elem e r ih =>
      cases i with
      | zero => cases h
      | succ i =>
          obtain ⟨l, b, k, hat, rfl⟩ := ih h
          exact ⟨l, b, k + 1, .elem e hat, by omega⟩
  | loop l' b' r ihb ih =>
      cases i with
      | zero => cases h
      | succ i =>
          rw [flatten, List.getElem?_cons_succ] at h
          rcases Nat.lt_trichotomy i b'.flatten.length with hlt | heq | hgt
          · rw [List.getElem?_append_left hlt] at h
            obtain ⟨l, b, k, hat, rfl⟩ := ihb h
            exact ⟨l, b, k + 1, .body l' r hat, by omega⟩
          · exact ⟨l', b', 0, .here r, by omega⟩
          · obtain ⟨k, rfl⟩ : ∃ k, i = b'.flatten.length + (k + 1) :=
              ⟨i - b'.flatten.length - 1, by omega⟩
            rw [List.getElem?_append_right (Nat.le_add_right _ _), Nat.add_sub_cancel_left,
              List.getElem?_cons_succ] at h
            obtain ⟨l, b, k', hat, rfl⟩ := ih h
            exact ⟨l, b, _, .rest l' b' hat, by omega⟩

lemma LoopAt.wf (h : LoopAt l b t i) (ht : t.Wf) : b ≠ done ∧ b.Wf := by
  induction h with
  | here r => exact ⟨ht.2.1, ht.2.2.1⟩
  | elem e _ ih => exact ih ht.2.2
  | body l' r _ ih => exact ih ht.2.2.1
  | rest l' b' _ ih => exact ih ht.2.2.2

lemma LoopAt.elemsData (h : LoopAt l b t i) (ht : t.ElemsData) : b.ElemsData := by
  induction h with
  | here r => exact ht.1
  | elem e _ ih => exact ih ht.2
  | body l' r _ ih => exact ih ht.1
  | rest l' b' _ ih => exact ih ht.2

/-- There is data in a nest with entries. -/
lemma Wf.exists_data (h : t.Wf) (hdata : t.ElemsData) (ht : t ≠ done) :
    ∃ (k : ℕ) (e : ElemDesc), t.flatten[k]? = some (.elem e) ∧ e.flags.data = true := by
  induction t with
  | done => exact absurd rfl ht
  | elem e r _ => exact ⟨0, e, rfl, hdata.1⟩
  | loop l b r ihb _ =>
      obtain ⟨k, e, hk, he⟩ := ihb h.2.2.1 hdata.1 h.2.1
      refine ⟨k + 1, e, ?_, he⟩
      have hlt : k < b.flatten.length := (List.getElem?_eq_some_iff.mp hk).1
      rw [flatten, List.getElem?_cons_succ, List.getElem?_append_left hlt, hk]

/-- The entries of a description from a loop on. -/
lemma LoopAt.drop_eq (h : LoopAt l b t i) (fake : EndLoopDesc) :
    ∃ tail, (t.desc fake).drop i = .loop (loopDesc l b.flatten.length) ::
      (b.flatten ++ .endLoop (endLoopDesc l b.flatten.length) :: tail) := by
  obtain ⟨pre, post, heq, hlen⟩ := h.flatten_eq
  refine ⟨post ++ [.endLoop fake], ?_⟩
  rw [desc, heq, List.append_assoc, ← hlen, List.drop_left]
  simp only [flatten, List.cons_append, List.append_assoc, List.nil_append]

lemma LoopAt.end_lt (h : LoopAt l b t i) : i + (b.flatten.length + 1) < t.flatten.length := by
  obtain ⟨pre, post, heq, hlen⟩ := h.flatten_eq
  rw [heq, ← hlen]
  simp only [flatten, List.cons_append, List.length_append, List.length_cons]
  omega

lemma LoopAt.getElem?_loop (h : LoopAt l b t i) (fake : EndLoopDesc) :
    (t.desc fake)[i]? = some (.loop (loopDesc l b.flatten.length)) := by
  obtain ⟨tail, htail⟩ := h.drop_eq fake
  rw [← Nat.add_zero i, ← List.getElem?_drop, htail, List.getElem?_cons_zero]

lemma LoopAt.getElem?_body (h : LoopAt l b t i) (fake : EndLoopDesc) {k : ℕ}
    (hk : k < b.flatten.length) : (t.desc fake)[i + (k + 1)]? = b.flatten[k]? := by
  obtain ⟨tail, htail⟩ := h.drop_eq fake
  rw [← List.getElem?_drop, htail, List.getElem?_cons_succ, List.getElem?_append_left hk]

lemma LoopAt.getElem?_end (h : LoopAt l b t i) (fake : EndLoopDesc) :
    (t.desc fake)[i + (b.flatten.length + 1)]?
      = some (.endLoop (endLoopDesc l b.flatten.length)) := by
  obtain ⟨tail, htail⟩ := h.drop_eq fake
  rw [← List.getElem?_drop, htail, List.getElem?_cons_succ, List.getElem?_append_right le_rfl,
    Nat.sub_self, List.getElem?_cons_zero]

lemma LoopAt.take_body (h : LoopAt l b t i) (fake : EndLoopDesc) :
    ((t.desc fake).drop (i + 1)).take b.flatten.length = b.flatten := by
  obtain ⟨tail, htail⟩ := h.drop_eq fake
  rw [← List.drop_drop, htail, List.drop_succ_cons, List.drop_zero, List.take_left]

/-- The loop entries of a description are those of its loops. -/
lemma exists_loopAt_of_desc {fake : EndLoopDesc} {lp : LoopDesc}
    (h : (t.desc fake)[i]? = some (.loop lp)) :
    ∃ l b, LoopAt l b t i ∧ lp = loopDesc l b.flatten.length := by
  have hlt : i < t.flatten.length := by
    by_contra hge
    rw [desc, List.getElem?_append_right (not_lt.mp hge)] at h
    cases hk : i - t.flatten.length with
    | zero => rw [hk] at h; cases h
    | succ k => rw [hk] at h; cases h
  have hi : t.flatten[i]? = some (.loop lp) := by rwa [desc, List.getElem?_append_left hlt] at h
  obtain ⟨l, b, hat⟩ := exists_loopAt hi
  rw [hat.getElem?_loop fake, Option.some.injEq, DtElemDesc.loop.injEq] at h
  exact ⟨l, b, hat, h.symm⟩

end LoopAt

/-! ### The ends of the loops -/

/-- The end of a `CONTIGUOUS` loop gives the first displacement and the size of one pass. -/
def EndDescribes (l : LoopInfo) (body : Nest) : Prop :=
  l.flags.contiguous = true → l.firstElemDisp = body.firstDisp ∧ l.size = (body.bytes 0).length

/-- So do all of them. -/
def EndsDescribe : Nest → Prop
  | done => True
  | elem _ rest => rest.EndsDescribe
  | loop l body rest => EndDescribes l body ∧ body.EndsDescribe ∧ rest.EndsDescribe

section Ends

variable {l : LoopInfo} {b t : Nest} {i : ℕ}

lemma endsDescribe_iff : t.EndsDescribe ↔ ∀ l b i, LoopAt l b t i → EndDescribes l b := by
  constructor
  · intro h l b i hat
    induction hat with
    | here r => exact h.1
    | elem e _ ih => exact ih h
    | body l' r _ ih => exact ih h.2.1
    | rest l' b' _ ih => exact ih h.2.2
  · intro h
    induction t with
    | done => trivial
    | elem e r ih => exact ih fun l b i hat => h l b _ (.elem e hat)
    | loop l' b' r ihb ih =>
        exact ⟨h l' b' 0 (.here r), ihb fun l b i hat => h l b _ (.body l' r hat),
          ih fun l b i hat => h l b _ (.rest l' b' hat)⟩

/-- An end that matches the bytes of the body describes them. -/
lemma Valid.endsDescribe (h : t.Valid) : t.EndsDescribe := by
  obtain ⟨hwf, hends⟩ := h
  induction t with
  | done => trivial
  | elem e r ih => exact ih hwf.2.2 hends
  | loop l b r ihb ih =>
      refine ⟨fun hc => ?_, ihb hwf.2.2.1 hends.2.1, ih hwf.2.2.2 hends.2.2⟩
      refine ⟨(hends.1.firstDisp_eq hc hwf.2.2.1 hwf.2.1).1.symm, ?_⟩
      rw [hends.1 hc, length_run]

/-- **The description of a nest is well formed** exactly if the ends of its loops describe their
bodies. -/
theorem wellFormed_iff (hwf : t.Wf) (hdata : t.ElemsData) {fake : EndLoopDesc} {td : TypeDesc}
    (hdesc : td.desc = t.desc fake) (hused : td.used = t.flatten.length)
    (hfake : fake.items = td.used) : td.WellFormed ↔ t.EndsDescribe := by
  rw [endsDescribe_iff]
  constructor
  · intro h l b i hat hc
    obtain ⟨body, hbody, hdisp, hsize⟩ := h.ends i _ _ (hdesc ▸ hat.getElem?_loop fake) hc
      (hdesc ▸ hat.getElem?_end fake)
    rw [hdesc] at hbody
    obtain rfl : b = body := flatten_injective ((hat.take_body fake).symm.trans hbody)
    exact ⟨hdisp, hsize⟩
  · intro h
    have hends : ∀ {l b i e}, LoopAt l b t i →
        td.desc[i + (b.flatten.length + 1)]? = some (.endLoop e) →
        e = endLoopDesc l b.flatten.length := by
      intro l b i e hat he
      rw [hdesc, hat.getElem?_end fake, Option.some.injEq, DtElemDesc.endLoop.injEq] at he
      exact he.symm
    constructor
    case closed =>
      intro i lp hi
      obtain ⟨l, b, hat, rfl⟩ := exists_loopAt_of_desc (hdesc ▸ hi)
      exact ⟨hused ▸ hat.end_lt, _, hdesc ▸ hat.getElem?_end fake, rfl⟩
    case opened =>
      intro i e hlt hi
      have hi' := hi
      rw [hdesc, desc, List.getElem?_append_left (hused ▸ hlt)] at hi'
      obtain ⟨l, b, k, hat, rfl⟩ := exists_loopAt_end hi'
      obtain rfl := hends hat hi
      refine ⟨Nat.le_add_left _ _, loopDesc l b.flatten.length, ?_, rfl⟩
      simp only [endLoopDesc, Nat.add_sub_cancel]
      exact hdesc ▸ hat.getElem?_loop fake
    case nested =>
      intro i k lp lp' hi hk hik hki
      obtain ⟨l, b, hat, rfl⟩ := exists_loopAt_of_desc (hdesc ▸ hi)
      obtain ⟨m, rfl⟩ : ∃ m, k = i + (m + 1) := ⟨k - i - 1, by omega⟩
      have hm : m < b.flatten.length := by simp only [loopDesc] at hki; omega
      -- the inner loop is one of the body
      have hbody : (b.desc fake)[m]? = some (.loop lp') := by
        rw [desc, List.getElem?_append_left hm, ← hat.getElem?_body fake hm, ← hdesc, hk]
      obtain ⟨l', b', hat', rfl⟩ := exists_loopAt_of_desc hbody
      have hend := hat'.end_lt
      simp only [loopDesc]
      omega
    case data =>
      intro i lp hi
      obtain ⟨l, b, hat, rfl⟩ := exists_loopAt_of_desc (hdesc ▸ hi)
      obtain ⟨hne, hbwf⟩ := hat.wf hwf
      obtain ⟨k, e, hk, he⟩ := hbwf.exists_data (hat.elemsData hdata) hne
      have hlt : k < b.flatten.length := (List.getElem?_eq_some_iff.mp hk).1
      refine ⟨i + (k + 1), e, by omega, by simp only [loopDesc]; omega, ?_, he⟩
      rw [hdesc, hat.getElem?_body fake hlt, hk]
    case ends =>
      intro i lp e hi hc he
      obtain ⟨l, b, hat, rfl⟩ := exists_loopAt_of_desc (hdesc ▸ hi)
      obtain rfl := hends hat he
      obtain ⟨hdisp, hsize⟩ := h l b i hat hc
      exact ⟨b, hdesc ▸ hat.take_body fake, hdisp, hsize⟩
    case fake =>
      refine ⟨?_, fake, ?_, hfake⟩
      · rw [hdesc, hused, desc, List.length_append, List.length_singleton]
      · rw [hdesc, hused, desc, List.getElem?_append_right le_rfl, Nat.sub_self]
        rfl

end Ends

/-! ### What the optimizer keeps -/

section Optimized

variable {t : Nest} {last : Option ElemDesc}

@[simp] lemma endsDescribe_behind (last : Option ElemDesc) (t : Nest) :
    (behind last t).EndsDescribe ↔ t.EndsDescribe := by
  cases last <;> rfl

@[simp] lemma endsDescribe_unrolled (type : TypeId) (flags : Flags) (count : ℕ)
    (extent stride : ℤ) (n : ℕ) (disp : ℤ) (rest : Nest) :
    (Nest.unrolled type flags count extent stride n disp rest).EndsDescribe ↔
      rest.EndsDescribe := by
  induction n generalizing disp with
  | zero => rfl
  | succ n ih => exact ih _

lemma elemsData_behind (hlast : ∀ p ∈ last, p.flags.data = true) (h : t.ElemsData) :
    (behind last t).ElemsData := by
  cases last with
  | none => exact h
  | some p => exact ⟨hlast p rfl, h⟩

lemma elemsData_unrolled (type : TypeId) (flags : Flags) (count : ℕ) (extent stride : ℤ) (n : ℕ)
    (disp : ℤ) (h : t.ElemsData) :
    (Nest.unrolled type flags count extent stride n disp t).ElemsData := by
  induction n generalizing disp with
  | zero => exact h
  | succ n ih => exact ⟨rfl, ih _⟩

lemma elemsData_gappedPasses (l : LoopInfo) (loopDisp : ℤ) (counter : ℕ) (mergedDisp : ℤ)
    (h : t.ElemsData) : (gappedPasses l loopDisp counter mergedDisp t).ElemsData := by
  rw [gappedPasses]
  split_ifs
  · exact elemsData_unrolled _ _ _ _ _ _ _ h
  · exact ⟨⟨rfl, trivial⟩, h⟩

/-- Every element that the optimizer writes has the flag `DATA`. -/
lemma elemsData_optimized (t : Nest) (hlast : ∀ p ∈ last, p.flags.data = true) :
    (t.optimized last).ElemsData := by
  have hnone : ∀ p ∈ (none : Option ElemDesc), p.flags.data = true := fun p hp => by cases hp
  induction t generalizing last with
  | done => exact elemsData_behind hlast trivial
  | elem e r ih =>
      have hgather : (∀ p ∈ (gatherElem last e).1, p.flags.data = true) ∧
          (gatherElem last e).2.flags.data = true := by
        cases last with
        | none => exact ⟨hnone, rfl⟩
        | some p =>
            rw [gatherElem]
            split_ifs
            · exact ⟨hnone, rfl⟩
            · exact ⟨hnone, rfl⟩
            · exact ⟨hlast, rfl⟩
      exact elemsData_behind hgather.1 (ih (by simpa using hgather.2))
  | loop l b r ihb ih =>
      rw [optimized]
      split_ifs with hc hd
      · have hgather : (∀ p ∈ (gatherLoop last l b.firstDisp).1, p.flags.data = true) ∧
            (gatherLoop last l b.firstDisp).2.flags.data = true := by
          cases last with
          | none => exact ⟨hnone, rfl⟩
          | some p =>
              rw [gatherLoop]
              split_ifs
              · exact ⟨hnone, rfl⟩
              · exact ⟨hlast, rfl⟩
        exact elemsData_behind hgather.1 (ih (by simpa using hgather.2))
      · rw [gappedLoop.eq_def]
        cases last with
        | none => exact elemsData_gappedPasses _ _ _ _ (ih hnone)
        | some p =>
            dsimp only
            split_ifs
            · exact ⟨rfl, elemsData_gappedPasses _ _ _ _ (ih hnone)⟩
            · exact ⟨hlast p rfl, elemsData_gappedPasses _ _ _ _ (ih hnone)⟩
      · refine elemsData_behind hlast ?_
        have hloop : (Nest.loop l.copied (b.optimized none) (r.optimized none)).ElemsData :=
          ⟨ihb hnone, ih hnone⟩
        rw [otherLoop.eq_def]
        split
        · split_ifs
          · exact ⟨rfl, ih hnone⟩
          · exact elemsData_unrolled _ _ _ _ _ _ _ (ih hnone)
          · exact hloop
        · exact hloop

/-- A loop that keeps its element where the first pass was does not describe it. -/
lemma not_endsDescribe_gappedPasses {l : LoopInfo} (hc : l.flags.contiguous = true)
    {counter : ℕ} (hcounter : 2 < counter) {mergedDisp : ℤ} (hz : mergedDisp ≠ 0)
    (rest : Nest) : ¬ (gappedPasses l l.firstElemDisp counter mergedDisp rest).EndsDescribe := by
  rw [gappedPasses, if_neg (by omega)]
  rintro ⟨h, -⟩
  have hdisp := (h hc).1
  simp only [LoopInfo.copied, firstDisp, mkElem] at hdisp
  omega

lemma endsDescribe_of_gappedPasses {l : LoopInfo} {loopDisp : ℤ} {counter : ℕ} {mergedDisp : ℤ}
    {rest : Nest} (h : (gappedPasses l loopDisp counter mergedDisp rest).EndsDescribe) :
    rest.EndsDescribe := by
  rw [gappedPasses] at h
  split_ifs at h
  · exact (endsDescribe_unrolled _ _ _ _ _ _ _ _).mp h
  · exact h.2.2

lemma endsDescribe_of_gappedLoop {l : LoopInfo} {loopDisp : ℤ} {rest : Nest}
    (h : (gappedLoop last l loopDisp rest).EndsDescribe) :
    rest.EndsDescribe ∧ ∀ p ∈ last, p.denseEnd = loopDisp →
      (gappedPasses l loopDisp (l.loops - 1) l.extent rest).EndsDescribe := by
  rw [gappedLoop.eq_def] at h
  cases last with
  | none => exact ⟨endsDescribe_of_gappedPasses h, fun p hp => by cases hp⟩
  | some p =>
      by_cases hj : p.denseEnd = loopDisp
      · simp only [if_pos hj] at h
        exact ⟨endsDescribe_of_gappedPasses h, fun _ _ _ => h⟩
      · simp only [if_neg hj] at h
        refine ⟨endsDescribe_of_gappedPasses h, fun q hq hj' => absurd ?_ hj⟩
        obtain rfl := Option.some.inj hq
        exact hj'

lemma endsDescribe_of_otherLoop {l : LoopInfo} {b b' rest : Nest}
    (h : (otherLoop l b b' rest).EndsDescribe) :
    rest.EndsDescribe ∧ (b'.EndsDescribe ∨ ∃ e, b = elem e done) := by
  rw [otherLoop.eq_def] at h
  split at h
  case h_1 e =>
    refine ⟨?_, Or.inr ⟨e, rfl⟩⟩
    split_ifs at h
    · exact h
    · exact (endsDescribe_unrolled _ _ _ _ _ _ _ _).mp h
    · exact h.2.2
  case h_2 => exact ⟨h.2.2, Or.inl h.2.1⟩

/-- Where the ends of the optimized nest describe their bodies, no join breaks a loop. -/
lemma Valid.coherentJoins_of_endsDescribe (h : t.Valid) (hopt : (t.optimized last).EndsDescribe) :
    (∀ p ∈ last, Joins p t → ¬ KeepsFirstDisp t) ∧ t.CoherentJoins := by
  obtain ⟨hwf, hends⟩ := h
  induction t generalizing last with
  | done => exact ⟨fun p _ hj => hj.elim, trivial⟩
  | elem e r ih =>
      rw [optimized, endsDescribe_behind] at hopt
      obtain ⟨hjoin, hr⟩ := ih hopt hwf.2.2 hends
      refine ⟨fun p _ _ hk => hk, ?_, hr⟩
      rw [← joins_congr (denseEnd_gatherElem last e)]
      exact hjoin _ rfl
  | loop l b r ihb ih =>
      obtain ⟨hloops, hne, hbwf, hrwf⟩ := hwf
      obtain ⟨hm, hbends, hrends⟩ := hends
      rw [optimized] at hopt
      split_ifs at hopt with hc hd
      · rw [endsDescribe_behind] at hopt
        obtain ⟨hjoin, hr⟩ := ih hopt hrwf hrends
        refine ⟨fun p _ _ hk => hk.1 hd, fun _ _ => ?_, fun hc' => absurd hc (by simp [hc']), hr⟩
        rw [← joins_congr (denseEnd_gatherLoop last l b.firstDisp)]
        exact hjoin _ rfl
      · obtain ⟨hdisp, -⟩ := hm.firstDisp_eq hc hbwf hne
        obtain ⟨hr, hpasses⟩ := endsDescribe_of_gappedLoop hopt
        refine ⟨?_, fun _ hd' => absurd hd' hd, fun hc' => absurd hc (by simp [hc']),
          (ih hr hrwf hrends).2⟩
        rintro p hp ⟨-, hj⟩ ⟨-, hz, hcount⟩
        exact not_endsDescribe_gappedPasses hc (by omega) hz _ (hdisp ▸ hpasses p hp hj)
      · rw [endsDescribe_behind] at hopt
        obtain ⟨hr, hb⟩ := endsDescribe_of_otherLoop hopt
        refine ⟨fun p _ hj => absurd hj.1 hc, fun hc' => absurd hc' hc, fun _ => ?_,
          (ih hr hrwf hrends).2⟩
        rcases hb with hb | ⟨e, rfl⟩
        · exact (ihb hb hbwf hbends).2
        · exact ⟨fun hj => hj.elim, trivial⟩

/-- **The optimizer keeps the ends of the loops** exactly if no join breaks a loop. -/
theorem endsDescribe_optimized_iff (h : t.Valid) :
    (t.optimized none).EndsDescribe ↔ t.CoherentJoins := by
  refine ⟨fun hopt => (h.coherentJoins_of_endsDescribe hopt).2, fun hjoins => ?_⟩
  exact (optimized_valid h (fun p hp => by cases hp) (fun p hp => by cases hp) hjoins).endsDescribe

end Optimized

end Nest

/-! ### Committed datatypes -/

section Commit

variable {dt dt' : Datatype} {D : Nest} {as : List ℤ}

/-- The fake `END_LOOP`s that `ocoms_datatype_commit` writes. -/
lemma Datatype.commit_fakes (hc : dt.flags.commited = false) (hcommit : dt.commit = some dt') :
    (∃ xs e, dt'.desc.desc = xs ++ [.endLoop e] ∧ e.items = dt'.desc.used) ∧
      (dt'.optDesc.used ≠ 0 →
        ∃ xs e, dt'.optDesc.desc = xs ++ [.endLoop e] ∧ e.items = dt'.optDesc.used) := by
  rw [Datatype.commit, hc, if_neg Bool.false_ne_true] at hcommit
  dsimp only at hcommit
  by_cases hused : dt.desc.used = 0
  · rw [if_pos hused] at hcommit
    cases hcommit
    exact ⟨⟨_, _, rfl, rfl⟩, fun h => absurd rfl h⟩
  · rw [if_neg hused, Option.map_eq_some_iff] at hcommit
    obtain ⟨optDesc, -, rfl⟩ := hcommit
    refine ⟨⟨_, _, rfl, rfl⟩, fun h => ?_⟩
    by_cases hopt : optDesc.used ≠ 0
    · simp only [if_pos hopt]
      exact ⟨_, _, rfl, rfl⟩
    · simp only [if_neg hopt] at h
      exact absurd h hopt

lemma Nest.fake_of_desc_eq {fake e : EndLoopDesc} {xs : List DtElemDesc}
    (h : D.desc fake = xs ++ [.endLoop e]) : fake = e :=
  DtElemDesc.endLoop.inj (List.append_singleton_inj.mp h).2

/-- The descriptions of a commit, with their fake `END_LOOP`s. -/
lemma Datatype.Described.commit_descs (h : dt.Described D) (hc : dt.flags.commited = false)
    (hcommit : dt.commit = some dt') :
    (∃ fake, dt'.desc.desc = D.desc fake ∧ dt'.desc.used = D.flatten.length ∧
        fake.items = dt'.desc.used) ∧
      (D ≠ .done → ∃ fake, dt'.optDesc.desc = (D.optimized none).desc fake ∧
        dt'.optDesc.used = (D.optimized none).flatten.length ∧
        fake.items = dt'.optDesc.used) := by
  obtain ⟨dt₁, hcommit₁, hdt₁⟩ := h.commit hc
  obtain rfl : dt₁ = dt' := Option.some.inj (hcommit₁.symm.trans hcommit)
  obtain ⟨⟨xs, e, hxs, he⟩, hopt⟩ := commit_fakes hc hcommit
  constructor
  · obtain ⟨fake, hfake⟩ := hdt₁.desc
    obtain rfl := fake_of_desc_eq (hfake.symm.trans hxs)
    exact ⟨fake, hfake, hdt₁.described.used, he⟩
  · intro hD
    obtain ⟨fake, hfake⟩ := hdt₁.optDesc hD
    have hused : dt₁.optDesc.used ≠ 0 := by
      rw [hdt₁.optUsed]
      exact (length_flatten_pos (optimized_ne_done ⟨h.wf, h.ends⟩ hD)).ne'
    obtain ⟨ys, e', hys, he'⟩ := hopt hused
    obtain rfl := fake_of_desc_eq (hfake.symm.trans hys)
    exact ⟨fake, hfake, hdt₁.optUsed, he'⟩

/-- Both descriptions are well formed; without entries there is no optimized one. -/
def Datatype.DescsWellFormed (dt : Datatype) : Prop :=
  dt.desc.WellFormed ∧ (dt.desc.used ≠ 0 → dt.optDesc.WellFormed)

/-- The commit of a described datatype. -/
lemma Datatype.Described.descsWellFormed_iff (h : dt.Described D) (hc : dt.flags.commited = false)
    (hcommit : dt.commit = some dt') : dt'.DescsWellFormed ↔ D.CoherentJoins := by
  have hvalid : D.Valid := ⟨h.wf, h.ends⟩
  obtain ⟨⟨fake, hdesc, hused, hfake⟩, hopt⟩ := h.commit_descs hc hcommit
  have hplain : dt'.desc.WellFormed :=
    (wellFormed_iff h.wf h.data hdesc hused hfake).mpr hvalid.endsDescribe
  rw [DescsWellFormed, and_iff_right hplain]
  by_cases hD : D = .done
  · subst hD
    exact iff_of_true (fun hne => absurd hused hne) trivial
  · have hne : dt'.desc.used ≠ 0 := hused ▸ (length_flatten_pos hD).ne'
    obtain ⟨fake', hdesc', hused', hfake'⟩ := hopt hD
    have hwf : (D.optimized none).Wf := optimized_wf hvalid fun p hp => by cases hp
    have hdata : (D.optimized none).ElemsData := elemsData_optimized D fun p hp => by cases hp
    rw [wellFormed_iff hwf hdata hdesc' hused' hfake', endsDescribe_optimized_iff hvalid]
    exact ⟨fun h => h hne, fun h _ => h⟩

end Commit

/-- The description of `int4ThenLoop`. -/
def int4ThenLoopNest : Nest :=
  .elem { flags := { Flags.basic with commited := false }, type := .int4, count := 1, extent := 4,
          disp := 0 }
    (.loop { flags := { contiguous := true, userUb := true }, loops := 4, extent := 8,
             endFlags := { contiguous := true, userUb := true }, size := 4, firstElemDisp := 4 }
      (.elem { flags := { Flags.basic with commited := false }, type := .int4, count := 1,
               extent := 4, disp := 4 } .done) .done)

end Ocoms
