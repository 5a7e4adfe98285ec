import Ocoms.Datatype.Merging
import Ocoms.Datatype.Pack

/-!
Packing a `CONTIGUOUS` datatype with gaps between its copies.

* `Datatype.commit_firstElemDisp`: both descriptions of a committed datatype end with the
  displacement of its first byte.
* `Convertor.GapsInv` is what every call of `packHomogeneousContigWithGaps` keeps: the two
  displacements on the stack lead to the next byte.
* `gaps_pack_iff` says which calls are right, after any run of right ones.
-/

namespace Ocoms

open Layout

/-! ### The end of a committed description -/

/-- The `END_LOOP` behind a description has this displacement. -/
def TypeDesc.EndsAt (desc : TypeDesc) (disp : ℤ) : Prop :=
  ∃ e, desc.desc[desc.used]? = some (.endLoop e) ∧ e.firstElemDisp = disp

/-- **The descriptions of a committed datatype** end with the displacement of its first byte. -/
lemma Datatype.commit_firstElemDisp {dt dt' : Datatype} {D : Nest} (h : dt.Described D)
    (hc : dt.flags.commited = false) (hsize : dt.size ≠ 0) (hcommit : dt.commit = some dt') :
    dt'.desc.EndsAt D.firstDisp ∧ dt'.optDesc.EndsAt D.firstDisp := by
  have hD : D ≠ .done := by
    rintro rfl
    exact hsize (h.size.symm.trans rfl)
  obtain ⟨first, hfirst, hdisp⟩ := h.wf.getFirstNonLoop hD []
  rw [List.append_nil] at hfirst
  have hopt : (D.optimized none).flatten.length ≠ 0 := by
    intro hzero
    have hne := Nest.optimized_ne_done ⟨h.wf, h.ends⟩ hD
    generalize D.optimized none = O at hzero hne
    cases O with
    | done => exact hne rfl
    | elem e r => cases hzero
    | loop l b r => cases hzero
  have hused : dt.desc.used ≠ 0 := by
    intro hzero
    rw [h.used] at hzero
    cases D with
    | done => exact hD rfl
    | elem e r => cases hzero
    | loop l b r => cases hzero
  have hdisp' : (if dt.size ≠ 0 then
      (D.flatten[getFirstNonLoop D.flatten]?.map DtElemDesc.disp).getD 0 else 0) = D.firstDisp := by
    rw [if_pos hsize, hfirst, Option.map_some, Option.getD_some, hdisp]
  obtain ⟨e, he⟩ := optimizeShort_eq h.wf h.ends h.data
    (fakeEndLoop dt.desc.used D.firstDisp dt.size) { dt with
      flags := { dt.flags with commited := true }
      desc := { dt.desc with
        desc := D.flatten ++ [.endLoop (fakeEndLoop dt.desc.used D.firstDisp dt.size)] } } rfl
  rw [Datatype.commit, hc, if_neg Bool.false_ne_true, h.desc] at hcommit
  dsimp only at hcommit he
  rw [hdisp', if_neg hused, he, Option.map_some, if_pos hopt] at hcommit
  obtain rfl := Option.some.inj hcommit
  refine ⟨⟨fakeEndLoop dt.desc.used D.firstDisp dt.size, ?_, rfl⟩,
    ⟨fakeEndLoop (D.optimized none).flatten.length D.firstDisp dt.size, ?_, rfl⟩⟩
  · dsimp only
    rw [h.used, List.getElem?_append_right (Nat.le_refl _), Nat.sub_self]
    rfl
  · dsimp only
    rw [List.take_left' rfl, List.getElem?_append_right (Nat.le_refl _), Nat.sub_self]
    rfl

/-- The first byte of a `CONTIGUOUS` datatype. -/
lemma Datatype.Described.firstDisp_eq {dt : Datatype} {D : Nest} (h : dt.Described D)
    (hcont : dt.flags.contiguous = true) (hsize : dt.size ≠ 0) : D.firstDisp = dt.trueLb := by
  have hD : D ≠ .done := by
    rintro rfl
    exact hsize (h.size.symm.trans rfl)
  have hhead := h.wf.head?_bytes hD 0
  obtain ⟨k, hk⟩ := Nat.exists_eq_succ_of_ne_zero hsize
  rw [h.contiguous hcont, hk, run, List.head?_cons, zero_add] at hhead
  exact (Option.some.inj hhead).symm

/-! ### The convertor -/

/-- The convertor has packed `n` bytes of `count` copies whose first byte is at `a`: the
displacements on its stack lead to the next byte. -/
structure Convertor.GapsAt (conv : Convertor) (size : ℕ) (extent a : ℤ) (count n : ℕ) : Prop where
  initialDispl : conv.initialDispl = some a
  stack : ∃ s₁ s₀, conv.stack = [s₁, s₀] ∧
    s₀.disp + s₁.disp = (n / size : ℕ) * extent + (n % size : ℕ)
  descSize : conv.pDesc.size = size
  descExtent : conv.pDesc.extent = extent
  copies : conv.count = count
  localSize : conv.localSize = count * size
  bConverted : conv.bConverted = n
  le : n ≤ count * size

/-- Between two calls the flag says whether all bytes are packed. -/
structure Convertor.GapsInv (conv : Convertor) (size : ℕ) (extent a : ℤ) (count n : ℕ) : Prop
    extends conv.GapsAt size extent a count n where
  completed : conv.flags.completed = true ↔ n = count * size

/-- The convertor is not at the end of one run. -/
lemma Convertor.prepare_of_not_staysNoOp {conv : Convertor} {datatype : Datatype} {count : ℕ}
    (hcount : 1 < count) (hsize : datatype.size ≠ 0) (hnoOp : ¬ conv.StaysNoOp datatype count)
    (pUserBuf : ℤ) :
    ∃ mask, conv.prepare datatype count pUserBuf = (true,
      ((conv.attach datatype count pUserBuf).computeRemoteSize datatype mask).provideStack
        datatype) := by
  have hne : ¬ (count = 0 ∨ datatype.size = 0) := fun h => h.elim (by omega) hsize
  have hgaps : (!conv.flags.withChecksum && datatype.flags.noGaps) = false := by
    by_contra h
    rw [Bool.not_eq_false, Bool.and_eq_true, Bool.not_eq_true'] at h
    exact hnoOp ⟨h.1, Or.inl h.2⟩
  have hone : count ≠ 1 := by omega
  refine ⟨fun t => datatype.bdtUsed t && (conv.attach datatype count pUserBuf).master.heteroMask t,
    ?_⟩
  rw [prepare, if_neg hne]
  dsimp only
  have hattach : ((conv.attach datatype count pUserBuf).flags.withChecksum = conv.flags.withChecksum)
      ∧ (conv.attach datatype count pUserBuf).flags.datatype = datatype.flags := ⟨rfl, rfl⟩
  rw [hattach.1, hattach.2, hgaps, if_neg (by
    rintro ⟨-, h | h⟩
    · cases h
    · exact hone h.2), if_neg (by
    rintro ⟨h, -⟩
    cases h)]

lemma Convertor.computeRemoteSize_cases (conv : Convertor) (datatype : Datatype)
    (mask : TypeId → Bool) :
    ∃ homogeneous remoteSize useDesc, (useDesc = conv.useDesc ∨ useDesc = datatype.desc) ∧
      conv.computeRemoteSize datatype mask =
        { conv with flags := { conv.flags with homogeneous }, remoteSize, useDesc } := by
  rw [computeRemoteSize]
  split
  · exact ⟨_, _, _, Or.inr rfl, rfl⟩
  · exact ⟨_, _, _, Or.inl rfl, rfl⟩

/-- **The convertor at the beginning.** -/
lemma Convertor.gapsInv_prepareForSend {conv : Convertor} {dt : Datatype} {count : ℕ} {a : ℤ}
    (hcount : 1 < count) (hsize : dt.size ≠ 0) (hnoOp : ¬ conv.StaysNoOp dt count)
    (hdesc : dt.desc.EndsAt a) (hopt : dt.optDesc.EndsAt a) (hcont : dt.flags.contiguous = true)
    (hextent : dt.extent ≠ dt.size) (pUserBuf : ℤ) :
    (conv.prepareForSend dt count pUserBuf).GapsInv dt.size dt.extent a count 0 ∧
      (conv.prepareForSend dt count pUserBuf).fAdvance = .packHomogeneousContigWithGaps := by
  have hsend : ¬ Convertor.StaysNoOp { conv with flags := { conv.flags with send := true } } dt
      count := hnoOp
  obtain ⟨mask, hprep⟩ := prepare_of_not_staysNoOp hcount hsize hsend pUserBuf
  obtain ⟨homogeneous, remoteSize, useDesc, huse, hremote⟩ := computeRemoteSize_cases
    (attach { conv with flags := { conv.flags with send := true } } dt count pUserBuf) dt mask
  obtain ⟨e, he, hea⟩ : useDesc.EndsAt a := by
    rcases huse with rfl | rfl
    · exact hopt
    · exact hdesc
  rw [prepareForSend, hprep, hremote]
  dsimp only
  rw [if_pos hcont, if_neg (by
    rintro (h | h)
    · exact hextent h
    · exact absurd (show count ≤ 1 from h) (by omega))]
  refine ⟨⟨⟨?_, ⟨_, _, rfl, ?_⟩, rfl, rfl, rfl, rfl, rfl, Nat.zero_le _⟩, ?_⟩, rfl⟩
  · rw [Convertor.initialDispl]
    dsimp only [provideStack, createStackAtBegining]
    rw [he]
    exact congrArg some hea
  · simp
  · refine iff_of_false Bool.false_ne_true ?_
    exact (Nat.mul_pos (by omega) (Nat.pos_of_ne_zero hsize)).ne

/-! ### One call -/

/-- **The buffers suit the call**: what is allowed completes the copy that the last call has stopped
in, and the first buffer has room for all of it. -/
def Convertor.Suits (conv : Convertor) (iov : List Iovec) (maxData : ℕ) : Prop :=
  (conv.bConverted % conv.pDesc.size = 0 ∨ conv.pDesc.size - conv.bConverted % conv.pDesc.size
      ≤ min (conv.localSize - conv.bConverted) maxData) ∧
    ∀ v ∈ iov.head?, min (conv.localSize - conv.bConverted) maxData ≤ v.len

variable {build : Build} {mem : ℤ → Byte} {conv : Convertor} {size count n : ℕ} {extent a : ℤ}

lemma Convertor.GapsAt.finish {conv : Convertor} (h : conv.GapsAt size extent a count n)
    (hfresh : conv.flags.completed = false) : conv.finish.1.GapsInv size extent a count n := by
  have hiff : conv.bConverted = conv.localSize ↔ n = count * size := by
    rw [h.bConverted, h.localSize]
  rw [Convertor.finish]
  split
  · next hall =>
      exact ⟨⟨h.initialDispl, h.stack, h.descSize, h.descExtent, h.copies, h.localSize, h.bConverted,
        h.le⟩, iff_of_true rfl (hiff.mp hall)⟩
  · next hsome =>
      refine ⟨h, iff_of_false ?_ fun hall => hsome (hiff.mpr hall)⟩
      rw [hfresh]
      exact Bool.false_ne_true

section Call

variable (build mem)

/-- The copy of the rest of a copy, and none where there is none. -/
lemma PackState.eats_rest (pBaseBuf : ℤ) (extent a : ℤ) (hsize : 0 < size) (k : ℕ) {r : ℕ}
    (hr : r < size) {s : PackState} (hspace : (if r ≠ 0 then size - r else 0) ≤ s.space) :
    ∃ (k' : ℕ) (s' : PackState),
      (if (if r ≠ 0 then size - r else 0) ≠ 0 then
        (a + (k * extent + r) + (extent - size + (if r ≠ 0 then size - r else 0 : ℕ)),
          s.copy build mem pBaseBuf (a + (k * extent + r)) (if r ≠ 0 then size - r else 0))
        else (a + (k * extent + r), s)) = (a + k' * extent, s') ∧
      s.Eats build mem (run (a + (k * extent + r)) (if r ≠ 0 then size - r else 0)) s' ∧
      k * size + r + (if r ≠ 0 then size - r else 0) = k' * size ∧
      runsUpTo size extent a (k * size + r) ++
          run (a + (k * extent + r)) (if r ≠ 0 then size - r else 0)
        = runsUpTo size extent a (k' * size) := by
  by_cases hzero : r = 0
  · subst hzero
    refine ⟨k, s, ?_, ?_, rfl, ?_⟩
    · simp
    · exact .refl s
    · simp
  · have hrest : size - r ≠ 0 := by omega
    rw [if_pos hzero] at hspace ⊢
    refine ⟨k + 1, _, ?_, s.eats_copy build mem pBaseBuf _ hspace, ?_, ?_⟩
    · rw [if_pos hrest]
      refine Prod.ext ?_ rfl
      dsimp only
      push_cast [Nat.cast_sub hr.le]
      ring
    · rw [Nat.succ_mul]
      omega
    · rw [← add_assoc]
      exact runsUpTo_rest extent a hsize k hr.le

/-- The copy of what is pending, and none where nothing is. -/
lemma PackState.eats_pending (pBaseBuf user : ℤ) (pending : ℕ) {s : PackState}
    (hspace : pending ≤ s.space) :
    ∃ s', (if pending ≠ 0 then (user + pending, s.copy build mem pBaseBuf user pending)
        else (user, s)) = (user + pending, s') ∧ s.Eats build mem (run user pending) s' := by
  by_cases hzero : pending = 0
  · subst hzero
    refine ⟨s, ?_, .refl s⟩
    simp
  · exact ⟨_, if_pos hzero, s.eats_copy build mem pBaseBuf user hspace⟩

/-- **A call into a caller's buffer** packs the next bytes, all into that buffer, unless it has to
stop before the rest of a copy. -/
lemma Convertor.GapsInv.pack (h : conv.GapsInv size extent a count n) (hsize : 0 < size)
    {v : Iovec} (vs : List Iovec) (hv : v.base ≠ 0) {maxData : ℕ} (hmax : 0 < maxData)
    (hlt : n < count * size) :
    (n % size ≠ 0 ∧ min (count * size - n) maxData < size - n % size ∧
        packHomogeneousContigWithGaps build mem conv (v :: vs) maxData = none) ∨
      (n % size = 0 ∨ size - n % size ≤ min (count * size - n) maxData) ∧
      ∃ bytes conv' rc, packHomogeneousContigWithGaps build mem conv (v :: vs) maxData
          = some ⟨conv', [gather mem bytes], min (count * size - n) maxData, rc⟩ ∧
        runsUpTo size extent a n ++ bytes
          = runsUpTo size extent a (n + min (count * size - n) maxData) ∧
        conv'.GapsInv size extent a count (n + min (count * size - n) maxData) := by
  obtain ⟨s₁, s₀, hstack, hdisp⟩ := h.stack
  set allowed := min (count * size - n) maxData with hallowed
  have hpos : allowed ≠ 0 := by omega
  have hpart : n - n / size * size = n % size := by
    have := Nat.div_add_mod' n size
    omega
  rw [packHomogeneousContigWithGaps, h.initialDispl, hstack]
  dsimp only [bind, Option.bind_some]
  rw [h.descSize, h.descExtent, h.copies, h.localSize, h.bConverted, hpart, ← hallowed, if_neg hpos,
    if_neg (fun h => hv h.1), if_neg (fun h => hv h.1)]
  have hmod : n % size < size := Nat.mod_lt _ hsize
  by_cases hwrap : allowed < if n % size ≠ 0 then size - n % size else 0
  · refine Or.inl ?_
    rw [if_pos hwrap]
    have hne : n % size ≠ 0 := by
      intro hzero
      rw [if_neg (not_not.mpr hzero)] at hwrap
      exact Nat.not_lt_zero _ hwrap
    rw [if_pos hne] at hwrap
    exact ⟨hne, hwrap, rfl⟩
  · refine Or.inr ⟨?_, ?_⟩
    · by_cases hzero : n % size = 0
      · exact Or.inl hzero
      · rw [if_pos hzero] at hwrap
        exact Or.inr (Nat.le_of_not_lt hwrap)
    rw [if_neg hwrap, add_assoc a, hdisp]
    obtain ⟨k', s', hrest, heats, hk', hruns⟩ := PackState.eats_rest build mem conv.pBaseBuf extent a
      hsize (n / size) hmod (s := ⟨v.base, allowed, [], conv.csum⟩) (by dsimp only; omega)
    rw [hrest]
    dsimp only
    set rest := if n % size ≠ 0 then size - n % size else 0
    set counter := min ((allowed - rest) / size) count with hcounter
    set pending := allowed - rest - counter * size with hpending
    have hspace := heats.space
    rw [length_run] at hspace
    dsimp only at hspace
    -- the copies never count: what is allowed is at most what is left
    have hleft : (allowed - rest) / size ≤ count := by
      refine (Nat.div_le_div_right (c := size) (Nat.sub_le_of_le_add ?_)).trans_eq
        (Nat.mul_div_cancel count hsize)
      omega
    have hquot : counter = (allowed - rest) / size := Nat.min_eq_left hleft
    have hmul : counter * size ≤ allowed - rest := hquot ▸ Nat.div_mul_le_self _ _
    have hlt' : pending < size := by
      have hdm := Nat.div_add_mod' (allowed - rest) size
      have hm := Nat.mod_lt (allowed - rest) hsize
      rw [← hquot] at hdm
      omega
    have hn : n + allowed = (k' + counter) * size + pending := by
      have hdm := Nat.div_add_mod' n size
      rw [Nat.add_mul]
      omega
    have hcopies := s'.eats_copies build mem conv.pBaseBuf extent size counter (a + k' * extent)
      (by omega)
    have hcopied := hcopies.space
    rw [length_stride _ _ _ _ fun x => length_run x size] at hcopied
    obtain ⟨s'', hpend, heats'⟩ := PackState.eats_pending build mem conv.pBaseBuf
      (a + k' * extent + counter * extent) pending (s := s'.copies build mem conv.pBaseBuf extent size
        counter (a + k' * extent)) (by omega)
    rw [hpend]
    have hall := ((heats.trans hcopies).trans heats').out
    dsimp only at hall ⊢
    rw [List.nil_append] at hall
    rw [hall]
    refine ⟨_, _, _, rfl, ?_, ?_⟩
    · rw [hn, ← runsUpTo_append extent a hsize k' counter hlt'.le, ← hruns, Nat.div_add_mod',
        List.append_assoc, List.append_assoc]
    · have hfresh : conv.flags.completed = false := by
        rw [Bool.eq_false_iff]
        exact fun hc => hlt.ne (h.completed.mp hc)
      refine Convertor.GapsAt.finish ⟨h.initialDispl, ⟨_, _, rfl, ?_⟩, h.descSize, h.descExtent, rfl,
        rfl, rfl, by omega⟩ hfresh
      have hdiv : (n + allowed) / size = k' + counter := by
        rw [hn, Nat.add_comm, Nat.add_mul_div_right _ _ hsize, Nat.div_eq_of_lt hlt', Nat.zero_add]
      have hmod' : (n + allowed) % size = pending := by
        rw [hn, Nat.mul_add_mod_self_right, Nat.mod_eq_of_lt hlt']
      rw [hdiv, hmod']
      push_cast
      ring

/-- A call when all is packed. -/
lemma Convertor.GapsInv.pack_nothing (h : conv.GapsInv size extent a count n)
    (hall : n = count * size) (iov : List Iovec) (maxData : ℕ) :
    ∃ conv' rc, packHomogeneousContigWithGaps build mem conv iov maxData
        = some ⟨conv', [], 0, rc⟩ ∧ conv'.GapsInv size extent a count n := by
  obtain ⟨s₁, s₀, hstack, hdisp⟩ := h.stack
  have hzero : min (conv.localSize - conv.bConverted) maxData = 0 := by
    rw [h.localSize, h.bConverted, hall, Nat.sub_self, Nat.zero_min]
  have hdone : ∀ disp s₁', disp + s₁'.disp = s₀.disp + s₁.disp →
      (Convertor.finish { conv with stack := [s₁', { s₀ with disp }] }).1.GapsInv size extent a count
        n := by
    intro disp s₁' heq
    rw [Convertor.finish, if_pos (by rw [h.bConverted, h.localSize, hall])]
    exact ⟨⟨h.initialDispl, ⟨_, _, rfl, heq.trans hdisp⟩, h.descSize, h.descExtent, h.copies,
      h.localSize, h.bConverted, h.le⟩, iff_of_true rfl hall⟩
  rw [packHomogeneousContigWithGaps, h.initialDispl, hstack]
  dsimp only [bind, Option.bind_some]
  rw [hzero]
  cases iov with
  | nil => exact ⟨_, _, rfl, hdone _ _ (by dsimp only; omega)⟩
  | cons v vs =>
      dsimp only
      rw [if_pos rfl]
      exact ⟨_, _, rfl, hdone _ _ (by dsimp only; omega)⟩

end Call

/-! ### Runs -/

/-- The arguments of a call with buffers of the caller. -/
structure CallerBuffers (iov : List Iovec) (maxData : ℕ) : Prop where
  base : ∀ v ∈ iov, v.base ≠ 0
  pos : 0 < maxData
  le : maxData ≤ (iov.map Iovec.len).sum

/-- The calls that suit their buffers, from `conv₀` on: what they have packed, and the convertor. -/
inductive GapsRun (build : Build) (mem : ℤ → Byte) (conv₀ : Convertor) :
    List Byte → Convertor → Prop
  | start : GapsRun build mem conv₀ [] conv₀
  | call {out : List Byte} {conv : Convertor} {iov : List Iovec} {maxData : ℕ} {r : PackResult} :
      GapsRun build mem conv₀ out conv → CallerBuffers iov maxData → conv.Suits iov maxData →
      packHomogeneousContigWithGaps build mem conv iov maxData = some r →
      GapsRun build mem conv₀ (out ++ r.frags.flatten) r.conv

/-- **A call respects its limits**: no buffer is given more than its length, and no more buffers and
bytes are used than allowed; and what is packed goes on with the stream. -/
structure PackResult.Respects (r : PackResult) (iov : List Iovec) (maxData : ℕ)
    (out stream : List Byte) : Prop where
  fits : ∀ p ∈ r.frags.zip iov, p.1.length ≤ p.2.len
  outSize : r.frags.length ≤ iov.length
  total : r.frags.flatten.length ≤ maxData
  stream : out ++ r.frags.flatten <+: stream

lemma Convertor.GapsInv.suits_iff (h : conv.GapsInv size extent a count n) (iov : List Iovec)
    (maxData : ℕ) :
    conv.Suits iov maxData ↔
      (n % size = 0 ∨ size - n % size ≤ min (count * size - n) maxData) ∧
        ∀ v ∈ iov.head?, min (count * size - n) maxData ≤ v.len := by
  rw [Convertor.Suits, h.bConverted, h.descSize, h.localSize]

lemma CallerBuffers.ne_nil {iov : List Iovec} {maxData : ℕ} (h : CallerBuffers iov maxData) :
    iov ≠ [] := by
  rintro rfl
  exact absurd (h.pos.trans_le h.le) (Nat.lt_irrefl 0)

/-- **A run** has packed the first bytes of the stream. -/
lemma GapsRun.inv {conv₀ : Convertor} {out : List Byte} (hrun : GapsRun build mem conv₀ out conv)
    (hsize : 0 < size) (h₀ : conv₀.GapsInv size extent a count 0) :
    conv.GapsInv size extent a count out.length ∧
      out = gather mem (runsUpTo size extent a out.length) := by
  induction hrun with
  | start =>
      refine ⟨h₀, ?_⟩
      have hnil := runsUpTo_mul extent a hsize 0
      rw [Nat.zero_mul, stride_zero] at hnil
      rw [List.length_nil, hnil]
      rfl
  | @call out conv iov maxData r _ hcall hsuits hpack ih =>
      obtain ⟨hinv, hout⟩ := ih
      obtain ⟨hpart, hroom⟩ := (hinv.suits_iff iov maxData).mp hsuits
      by_cases hall : out.length = count * size
      · obtain ⟨conv', rc, hnothing, hinv'⟩ := hinv.pack_nothing build mem hall iov
          maxData
        obtain rfl := Option.some.inj (hpack.symm.trans hnothing)
        rw [List.flatten_nil, List.append_nil]
        exact ⟨hinv', hout⟩
      · obtain ⟨v, vs, rfl⟩ := List.exists_cons_of_ne_nil hcall.ne_nil
        rcases hinv.pack build mem hsize vs (hcall.base v List.mem_cons_self) hcall.pos
          (Nat.lt_of_le_of_ne hinv.le hall) with ⟨-, -, hnone⟩ | ⟨-, bytes, conv', rc, hsome, hruns, hinv'⟩
        · rw [hpack] at hnone
          cases hnone
        · obtain rfl := Option.some.inj (hpack.symm.trans hsome)
          have hlen := congrArg List.length hruns
          rw [List.length_append, length_runsUpTo, length_runsUpTo] at hlen
          rw [List.flatten_singleton, List.length_append, length_gather, hlen]
          refine ⟨hinv', ?_⟩
          rw [← hruns, gather_append, ← hout]

/-- The typemap of copies of a run. -/
lemma copiesMap_of_run (a : ℤ) (size count : ℕ) (extent : ℤ) :
    copiesMap (run a size) count 0 extent = stride count extent (fun x => run x size) a := by
  have hstart : stride count extent (fun x => run x size) a
      = stride count extent (fun x => run x size) (0 + a) := by rw [zero_add]
  rw [copiesMap, hstart, stride_add_right]
  refine stride_congr _ _ _ fun d => ?_
  rw [map_add_run, add_comm]

/-- **Which calls respect their limits.** For a committed `CONTIGUOUS` datatype with gaps between its
copies, and more than one copy: after any run of calls that suit their buffers, the convertor has
completed if and only if it has packed the typemap of the copies, and the next call respects its
limits and goes on with the typemap if and only if it suits its buffers. -/
theorem gaps_pack_iff {dt dt' : Datatype} {as : List ℤ} (h : Built Unrestricted dt as)
    (hp : dt.flags.predefined = false) (hc : dt.flags.commited = false)
    (hcommit : dt.commit = some dt') (hcont : dt'.flags.contiguous = true)
    (hextent : dt'.extent ≠ dt'.size) (hsize : dt'.size ≠ 0) (hcount : 1 < count)
    {conv₀ : Convertor} (hnoOp : ¬ conv₀.StaysNoOp dt' count) (pUserBuf : ℤ) {out : List Byte}
    (hrun : GapsRun build mem (conv₀.prepareForSend dt' count pUserBuf) out conv)
    {iov : List Iovec} {maxData : ℕ} (hcall : CallerBuffers iov maxData) :
    (conv₀.prepareForSend dt' count pUserBuf).fAdvance = .packHomogeneousContigWithGaps ∧
      (conv.flags.completed = true ↔ out = gather mem (copiesMap as count 0 dt'.extent)) ∧
      ((∃ r, packHomogeneousContigWithGaps build mem conv iov maxData = some r ∧
          r.Respects iov maxData out (gather mem (copiesMap as count 0 dt'.extent))) ↔
        conv.Suits iov maxData) := by
  obtain ⟨D, hdesc⟩ := h.described hp
  have hsame := Datatype.sameData_commit hcommit
  have hsize₀ : dt.size ≠ 0 := hsame.size ▸ hsize
  obtain ⟨hend, hopt⟩ := Datatype.commit_firstElemDisp hdesc hc hsize₀ hcommit
  have hcont₀ : dt.flags.contiguous = true := hsame.contiguous ▸ hcont
  have hfirst : D.firstDisp = dt'.trueLb := by
    rw [hsame.trueLb]
    exact hdesc.firstDisp_eq hcont₀ hsize₀
  rw [hfirst] at hend hopt
  obtain ⟨h₀, hadvance⟩ := Convertor.gapsInv_prepareForSend hcount hsize hnoOp hend hopt hcont hextent
    pUserBuf
  have hpos : 0 < dt'.size := Nat.pos_of_ne_zero hsize
  obtain ⟨hinv, hout⟩ := hrun.inv hpos h₀
  have has : as = run dt'.trueLb dt'.size := (Built.commit h hp hcommit).measured.contiguous hcont
  rw [has, copiesMap_of_run]
  set stream := stride count dt'.extent (fun x => run x dt'.size) dt'.trueLb with hstream
  have hlength : stream.length = count * dt'.size :=
    length_stride _ _ _ _ fun x => length_run x dt'.size
  have hprefix : ∀ m ≤ count * dt'.size,
      gather mem (runsUpTo dt'.size dt'.extent dt'.trueLb m) <+: gather mem stream :=
    fun m hm => ( runsUpTo_prefix _ _ hpos hm).map mem
  refine ⟨hadvance, ?_, ?_⟩
  · rw [hinv.completed]
    constructor
    · intro hall
      rw [hout, hall, runsUpTo_mul _ _ hpos]
    · intro hall
      rw [hall, length_gather, hlength]
  · rw [hinv.suits_iff]
    by_cases hall : out.length = count * dt'.size
    · obtain ⟨conv', rc, hnothing, -⟩ := hinv.pack_nothing build mem hall iov maxData
      refine iff_of_true ⟨_, hnothing, ?_, Nat.zero_le _, Nat.zero_le _, ?_⟩ ⟨Or.inl ?_, ?_⟩
      · intro p hp
        cases hp
      · rw [List.flatten_nil, List.append_nil, hout]
        exact hprefix _ hinv.le
      · rw [hall, Nat.mul_mod_left]
      · intro v _
        rw [hall, Nat.sub_self, Nat.zero_min]
        exact Nat.zero_le _
    obtain ⟨v, vs, rfl⟩ := List.exists_cons_of_ne_nil hcall.ne_nil
    rcases hinv.pack build mem hpos vs (hcall.base v List.mem_cons_self) hcall.pos
      (Nat.lt_of_le_of_ne hinv.le hall) with
      ⟨hmid, hless, hnone⟩ | ⟨hmid, bytes, conv', rc, hsome, hruns, hinv'⟩
    · refine iff_of_false (fun ⟨r, hr, _⟩ => ?_) fun hsuits => ?_
      · rw [hnone] at hr
        cases hr
      · rcases hsuits.1 with hzero | hle
        · exact hmid hzero
        · exact absurd hless (Nat.not_lt.mpr hle)
    · have hlen := congrArg List.length hruns
      rw [List.length_append, length_runsUpTo, length_runsUpTo, Nat.add_left_cancel_iff] at hlen
      constructor
      · rintro ⟨r, hr, hresp⟩
        obtain rfl := Option.some.inj (hr.symm.trans hsome)
        refine ⟨hmid, fun w hw => ?_⟩
        obtain rfl : v = w := Option.some.inj hw
        have hfit := hresp.fits (gather mem bytes, v) List.mem_cons_self
        rw [length_gather, hlen] at hfit
        exact hfit
      · rintro ⟨-, hroom⟩
        refine ⟨_, hsome, fun p hp => ?_, Nat.succ_le_succ (Nat.zero_le _), ?_, ?_⟩
        · rw [List.zip_cons_cons, List.zip_nil_left, List.mem_singleton] at hp
          rw [hp, length_gather, hlen]
          exact hroom v rfl
        · rw [List.flatten_singleton, length_gather, hlen]
          exact Nat.min_le_right _ _
        · rw [List.flatten_singleton]
          nth_rewrite 1 [hout]
          rw [← gather_append, hruns]
          exact hprefix _ hinv'.le

/-! ### Two copies of an `INT4` in 8 bytes -/

theorem gaps_pack_iff_int4In8 :
    ∃ dt', int4In8.commit = some dt' ∧ ∃ r,
      packHomogeneousContigWithGaps .plain (BitVec.ofInt 8)
        ((Convertor.create localArch).prepareForSend dt' 2 0) [⟨4096, 8⟩] 8 = some r ∧
      r.Respects [⟨4096, 8⟩] 8 [] (gather (BitVec.ofInt 8) (copiesMap [0, 1, 2, 3] 2 0 8)) := by
  obtain ⟨dt', hcommit, hcont, hextent, hsize, hgaps⟩ : ∃ dt', int4In8.commit = some dt' ∧
      dt'.flags.contiguous = true ∧ dt'.extent = 8 ∧ dt'.size = 4 ∧ dt'.flags.noGaps = false :=
    ⟨_, rfl, rfl, rfl, rfl, rfl⟩
  have hcall : CallerBuffers [⟨4096, 8⟩] 8 :=
    ⟨fun v hv => by rw [List.mem_singleton.mp hv]; decide, by decide, by decide⟩
  have hnoOp : ¬ (Convertor.create localArch).StaysNoOp dt' 2 := by
    rintro ⟨-, h | ⟨-, h⟩⟩
    · rw [hgaps] at h
      cases h
    · cases h
  have hiff := (gaps_pack_iff built_int4In8 rfl rfl hcommit hcont (by rw [hextent, hsize]; decide)
    (by rw [hsize]; decide) (by decide : 1 < 2) hnoOp 0 (.start : GapsRun .plain (BitVec.ofInt 8) _ _ _)
    hcall).2.2
  rw [hextent] at hiff
  refine ⟨dt', hcommit, hiff.mpr ?_⟩
  obtain rfl := Option.some.inj hcommit
  refine ⟨Or.inl rfl, fun v hv => ?_⟩
  rw [← Option.some.inj hv]
  decide

/-- **The first buffer is overrun**: with two buffers of 4 bytes it is given all 8 bytes. -/
theorem gaps_pack_overruns_first_buffer :
    Built Unrestricted int4In8 [0, 1, 2, 3] ∧ CallerBuffers [⟨4096, 4⟩, ⟨8192, 4⟩] 8 ∧
      ∃ dt', int4In8.commit = some dt' ∧ dt'.flags.contiguous = true ∧ dt'.extent ≠ dt'.size ∧
        ∃ r, packHomogeneousContigWithGaps .plain (BitVec.ofInt 8)
            ((Convertor.create localArch).prepareForSend dt' 2 0) [⟨4096, 4⟩, ⟨8192, 4⟩] 8
            = some r ∧
          r.frags = [[0, 1, 2, 3, 8, 9, 10, 11]] ∧
          ¬ r.Respects [⟨4096, 4⟩, ⟨8192, 4⟩] 8 []
            (gather (BitVec.ofInt 8) (copiesMap [0, 1, 2, 3] 2 0 8)) := by
  refine ⟨?_, ⟨?_, by decide, by decide⟩, _, rfl, rfl, by decide, _, rfl, by decide, fun h => ?_⟩
  · exact built_int4In8
  · intro v hv
    fin_cases hv <;> decide
  · have hfit := h.fits _ List.mem_cons_self
    exact absurd hfit (by decide)

end Ocoms
