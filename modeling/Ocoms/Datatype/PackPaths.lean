import Ocoms.Datatype.Clone
import Ocoms.Datatype.ContigUnpack
import Ocoms.Datatype.Raw
import Ocoms.Datatype.Typemap

/-!
The four ways in which `ocoms_convertor_pack` packs a datatype: the `NO_OP` branch, the function for
one run, the one for runs with gaps, and the walk over the description.

* `Datatype.Honest` is what the ways rely on: `NO_GAPS` says what the extent says, and the optimized
  description of a datatype that is not `CONTIGUOUS` names the bytes of the typemap.
  `Built.honest` says which histories lead to it.
* `RunAt` and `ContigSender` are what the calls on a convertor for a `CONTIGUOUS` datatype keep.
* `SendCalls.stream` says that every run of calls packs the first bytes of the typemap, whichever way
  the convertor takes, and `pack_paths_agree` that two convertors pack the same.
-/

namespace Ocoms

open Layout Greedy

/-! ### What the ways rely on -/

/-- The flag `NO_GAPS` says what the extent says; the description of a datatype that is not
`CONTIGUOUS` names the bytes of the typemap, and no join of the optimizer moves one. -/
structure Datatype.Honest (dt : Datatype) (as : List ℤ) : Prop where
  noGaps : dt.flags.noGaps = true → dt.extent = dt.size
  map : dt.flags.contiguous = false → ∃ D : Nest,
    dt.desc.desc.take dt.desc.used = D.flatten ∧ D.SafeJoins ∧ D.bytes 0 = as

/-- An addition that keeps the bounds of the base and the places of the copies. -/
def KeepsMap (base pdtAdd : Datatype) (count : ℕ) (disp extent : ℤ) : Prop :=
  KeepsBounds base pdtAdd count disp extent ∧ KeepsPlaces base pdtAdd count disp extent

/-- **The histories of such additions** lead to what the ways rely on, if all joins of the optimizer
are safe. -/
lemma Built.honest {dt : Datatype} {as : List ℤ} (h : Built KeepsMap dt as)
    (hp : dt.flags.predefined = false)
    (hjoins : ∀ D : Nest, dt.desc.desc.take dt.desc.used = D.flatten → D.SafeJoins) :
    dt.Honest as where
  noGaps := fun hg => ((h.mono fun _ _ _ _ _ hk => hk.1).gapless hg).2
  map := fun _ => by
    obtain ⟨D, hD, hbytes⟩ := (h.mono fun _ _ _ _ _ hk => hk.2).describesMap hp
    exact ⟨D, hD.desc, hjoins D hD.desc, hbytes⟩

/-- Enough fuel for the walks over the optimized description. -/
def Datatype.Fuels (dt : Datatype) (count fuel : ℕ) : Prop :=
  ∀ D : Nest, dt.desc.desc.take dt.desc.used = D.flatten →
    count * ((D.optimized none).ticks + 1) < fuel

/-- Copies of a `CONTIGUOUS` datatype are one run. -/
def Datatype.Dense (dt : Datatype) (count : ℕ) : Prop := dt.extent = dt.size ∨ count = 1

/-- The addresses of copies of a `CONTIGUOUS` datatype. -/
def Datatype.contigMap (dt : Datatype) (count : ℕ) : List ℤ :=
  stride count dt.extent (fun x => run x dt.size) dt.trueLb

section Dense

variable {dt : Datatype} {as : List ℤ} {count n : ℕ}

lemma Datatype.length_contigMap (dt : Datatype) (count : ℕ) :
    (dt.contigMap count).length = count * dt.size :=
  length_stride _ _ _ _ fun x => length_run x dt.size

lemma Datatype.Dense.contigMap (h : dt.Dense count) :
    dt.contigMap count = run dt.trueLb (count * dt.size) := by
  rw [Datatype.contigMap]
  rcases h with hextent | rfl
  · rw [hextent, stride_run]
  · rw [stride_one, Nat.one_mul]

/-- Without gaps, the address of byte `n` is `n` bytes on. -/
lemma Datatype.Dense.place (h : dt.Dense count) (hlt : n < count * dt.size) :
    ((n / dt.size : ℕ) : ℤ) * dt.extent + (n % dt.size : ℕ) = n := by
  rcases h with hextent | rfl
  · rw [hextent, ← Nat.cast_mul, ← Nat.cast_add, Nat.div_add_mod']
  · rw [Nat.one_mul] at hlt
    rw [Nat.div_eq_of_lt hlt, Nat.mod_eq_of_lt hlt, Nat.cast_zero, zero_mul, zero_add]

/-- The typemap of copies of a `CONTIGUOUS` datatype. -/
lemma Committed.copiesMap_contiguous (h : Committed dt as) (hcont : dt.flags.contiguous = true)
    (count : ℕ) : copiesMap as count 0 dt.extent = dt.contigMap count := by
  rw [h.built.measured.contiguous hcont, copiesMap_of_run]
  rfl

/-- The first bytes of copies, and the rest of them. -/
lemma Datatype.take_contigMap (dt : Datatype) (hsize : 0 < dt.size) (h : n ≤ count * dt.size) :
    (dt.contigMap count).take n = runsUpTo dt.size dt.extent dt.trueLb n := by
  have hprefix := runsUpTo_prefix dt.extent dt.trueLb hsize h
  rw [Datatype.contigMap]
  obtain ⟨rest, hrest⟩ := hprefix
  rw [← hrest, List.take_left' (length_runsUpTo _ _ n)]

end Dense

/-! ### One call of the ways for a `CONTIGUOUS` datatype -/

section Calls

variable {conv : Convertor} {dt : Datatype} {count n maxData fuel : ℕ} {chk build : Build}
  {mem : ℤ → Byte} {iov : List Iovec} {r : PackResult}

lemma gather_run_append (mem : ℤ → Byte) (a : ℤ) (m n : ℕ) :
    gather mem (run a m) ++ gather mem (run (a + m) n) = gather mem (run a (m + n)) := by
  rw [← gather_append, ← run_add]

/-- The `NO_OP` branch packs the next bytes of the run, and says when they are all. -/
lemma packNoOpIovs_spec (mem : ℤ → Byte) (iov : List Iovec) {pending : ℕ} (hpos : 0 < pending)
    (base : ℤ) : ∃ m ≤ pending, (packNoOpIovs mem iov pending base).1.flatten = gather mem (run base m) ∧
      ((packNoOpIovs mem iov pending base).2 = true ↔ m = pending) := by
  induction iov generalizing pending base with
  | nil => exact ⟨0, Nat.zero_le _, rfl, by simp [packNoOpIovs, hpos.ne]⟩
  | cons v vs ih =>
      rw [packNoOpIovs]
      by_cases hle : pending ≤ v.len
      · rw [if_pos hle]
        exact ⟨pending, le_rfl, List.flatten_singleton .., iff_of_true rfl rfl⟩
      · rw [if_neg hle]
        obtain ⟨m, hm, hflat, hlast⟩ := ih (Nat.sub_pos_of_lt (Nat.lt_of_not_le hle)) (base + v.len)
        dsimp only
        refine ⟨v.len + m, by omega, ?_, hlast.trans (by omega)⟩
        rw [List.flatten_cons, hflat, gather_run_append]

/-- The function for one run packs the next bytes of it. -/
lemma packContigIovs_spec (build : Build) (mem : ℤ → Byte) (pBaseBuf : ℤ) (iov : List Iovec)
    (length : ℕ) (source : ℤ) (csum : Csum) :
    ∃ m ≤ length, (packContigIovs build mem pBaseBuf iov length source csum).1.flatten
      = gather mem (run source m) := by
  induction iov generalizing length source csum with
  | nil => exact ⟨0, Nat.zero_le _, rfl⟩
  | cons v vs ih =>
      rw [packContigIovs]
      by_cases hzero : length = 0
      · rw [if_pos hzero]
        exact ⟨0, Nat.zero_le _, rfl⟩
      · rw [if_neg hzero]
        dsimp only
        obtain ⟨m, hm, hflat⟩ := ih (length - min v.len length) (source + (min v.len length : ℕ)) _
        refine ⟨min v.len length + m, by omega, ?_⟩
        rw [List.flatten_cons, hflat, gather_run_append]

/-- The sum of the lengths of what is packed. -/
lemma sum_length_frags {frags : List (List Byte)} {a : ℤ} {m : ℕ}
    (h : frags.flatten = gather mem (run a m)) : (frags.map List.length).sum = m := by
  rw [← List.length_flatten, h, length_gather, length_run]

/-- A convertor that stays `NO_OP` has packed `n` bytes of its run. -/
structure Convertor.RunAt (conv : Convertor) (dt : Datatype) (count n : ℕ) : Prop where
  noOp : conv.flags.noOp = true
  dense : dt.Dense count
  pDesc : conv.pDesc = dt
  localSize : conv.localSize = count * dt.size
  bConverted : conv.bConverted = n
  le : n ≤ count * dt.size
  completed : conv.flags.completed = true ↔ n = count * dt.size

/-- One that packs its run from the place on its stack. -/
structure Convertor.StackSender (conv : Convertor) (dt : Datatype) (count n : ℕ) : Prop where
  noOp : conv.flags.noOp = false
  advance : conv.fAdvance = .packHomogeneousContig
  dense : dt.Dense count
  initialDispl : conv.initialDispl = some dt.trueLb
  stack : n < count * dt.size → ∃ s₁ s₀, conv.stack = [s₁, s₀] ∧ s₀.disp + s₁.disp = n
  localSize : conv.localSize = count * dt.size
  bConverted : conv.bConverted = n
  le : n ≤ count * dt.size
  completed : conv.flags.completed = true ↔ n = count * dt.size

/-- **A send convertor for a `CONTIGUOUS` datatype** has packed `n` bytes, in one of three ways. -/
inductive Convertor.ContigSender (dt : Datatype) (count n : ℕ) (conv : Convertor) : Prop
  | noOp : conv.RunAt dt count n → ContigSender dt count n conv
  | run : conv.StackSender dt count n → ContigSender dt count n conv
  | gaps : conv.flags.noOp = false → conv.fAdvance = .packHomogeneousContigWithGaps →
      conv.GapsInv dt.size dt.extent dt.trueLb count n → ContigSender dt count n conv

/-- The function for copies with gaps is called with buffers of the caller. -/
def Convertor.AcceptsBuffers (conv : Convertor) (iov : List Iovec) (maxData : ℕ) : Prop :=
  conv.flags.completed = false → conv.flags.noOp = false →
    conv.fAdvance = .packHomogeneousContigWithGaps → CallerBuffers iov maxData

/-- The `NO_OP` branch goes on with the run. -/
lemma Convertor.RunAt.packNoOp (h : conv.RunAt dt count n) (hlt : n < count * dt.size)
    (mem : ℤ → Byte) (iov : List Iovec) :
    ∃ m, (Ocoms.packNoOp mem conv iov).frags.flatten = gather mem (run (dt.trueLb + n) m) ∧
      (Ocoms.packNoOp mem conv iov).conv.RunAt dt count (n + m) := by
  have hpointer : conv.getCurrentPointer = dt.trueLb + n := by
    rw [getCurrentPointer, h.bConverted, h.pDesc, add_comm]
  have hpending : conv.localSize - conv.bConverted = count * dt.size - n := by
    rw [h.localSize, h.bConverted]
  obtain ⟨m, hm, hflat, hlast⟩ := packNoOpIovs_spec mem iov (Nat.sub_pos_of_lt hlt) (dt.trueLb + n)
  refine ⟨m, ?_, ?_⟩
  · rw [Ocoms.packNoOp, hpointer, hpending]
    dsimp only
    split <;> exact hflat
  · rw [Ocoms.packNoOp, hpointer, hpending]
    dsimp only
    have hsum := sum_length_frags hflat
    split
    · next hall =>
        have hend : n + m = count * dt.size := by have := hlast.mp hall; omega
        exact ⟨h.noOp, h.dense, h.pDesc, h.localSize, h.localSize.trans hend.symm, hend.le,
          iff_of_true rfl hend⟩
    · next hsome =>
        have hmore : m ≠ count * dt.size - n := fun heq => hsome (hlast.mpr heq)
        refine ⟨h.noOp, h.dense, h.pDesc, h.localSize, ?_, by omega, iff_of_false ?_ (by omega)⟩
        · rw [hsum, h.bConverted]
        · exact fun hc => hlt.ne (h.completed.mp hc)

/-- The function for one run goes on with it. -/
lemma Convertor.StackSender.packContig (h : conv.StackSender dt count n)
    (hlt : n < count * dt.size) (build : Build) (mem : ℤ → Byte) (iov : List Iovec) :
    ∃ r m, packHomogeneousContig build mem conv iov = some r ∧
      r.frags.flatten = gather mem (run (dt.trueLb + n) m) ∧
      r.conv.StackSender dt count (n + m) := by
  obtain ⟨s₁, s₀, hstack, hdisp⟩ := h.stack hlt
  obtain ⟨m, hm, hflat⟩ := packContigIovs_spec build mem conv.pBaseBuf iov (count * dt.size - n)
    (dt.trueLb + n) conv.csum
  have hsum := sum_length_frags hflat
  have hle : n + m ≤ count * dt.size := by omega
  have hfresh : conv.flags.completed = false := by
    rw [Bool.eq_false_iff]
    exact fun hc => hlt.ne (h.completed.mp hc)
  rw [packHomogeneousContig, h.initialDispl, hstack]
  dsimp only [bind, Option.bind_some]
  rw [h.localSize, h.bConverted, add_assoc, hdisp, hsum]
  refine ⟨_, m, rfl, hflat, ?_⟩
  have hplace : n + m < count * dt.size → ∃ s₁' s₀',
      [s₁, { s₀ with disp := s₀.disp + m }] = [s₁', s₀'] ∧ s₀'.disp + s₁'.disp = (n + m : ℕ) :=
    fun _ => ⟨_, _, rfl, by push_cast; omega⟩
  rw [Convertor.finish]
  dsimp only
  split
  · next hall =>
      exact ⟨h.noOp, h.advance, h.dense, h.initialDispl, hplace, rfl, rfl, hle,
        iff_of_true rfl hall⟩
  · next hsome =>
      refine ⟨h.noOp, h.advance, h.dense, h.initialDispl, hplace, rfl, rfl, hle,
        iff_of_false ?_ hsome⟩
      rw [hfresh]
      exact Bool.false_ne_true

lemma convertorPack_noOp (hno : conv.flags.noOp = true) (hcomp : conv.flags.completed = false)
    (iov : List Iovec) (maxData : ℕ) :
    convertorPack chk mem fuel conv iov maxData
      = some (packNoOp mem { conv with csum := ⟨0, 0, 0⟩ } iov) := by
  simp [convertorPack, hno, hcomp]

/-- A call on a convertor that packs one run. -/
lemma convertorPack_contig (hno : conv.flags.noOp = false) (hcomp : conv.flags.completed = false)
    (hadv : conv.fAdvance = .packHomogeneousContig) (iov : List Iovec) (maxData : ℕ) :
    convertorPack chk mem fuel conv iov maxData
      = packHomogeneousContig (if conv.fAdvanceChecksum then chk else .plain) mem
          { conv with csum := ⟨0, 0, 0⟩ } iov := by
  simp [convertorPack, hno, hcomp, hadv]

/-- A call on a convertor for copies with gaps. -/
lemma convertorPack_gaps (hno : conv.flags.noOp = false) (hcomp : conv.flags.completed = false)
    (hadv : conv.fAdvance = .packHomogeneousContigWithGaps) (iov : List Iovec) (maxData : ℕ) :
    convertorPack chk mem fuel conv iov maxData
      = packHomogeneousContigWithGaps (if conv.fAdvanceChecksum then chk else .plain) mem
          { conv with csum := ⟨0, 0, 0⟩ } iov maxData := by
  simp [convertorPack, hno, hcomp, hadv]

/-- The bytes that are packed, and the flag that says that they are all. -/
lemma Convertor.ContigSender.completed_iff (h : conv.ContigSender dt count n) :
    conv.flags.completed = true ↔ n = count * dt.size := by
  cases h with
  | noOp h => exact h.completed
  | run h => exact h.completed
  | gaps _ _ h => exact h.completed

lemma Convertor.ContigSender.le (h : conv.ContigSender dt count n) : n ≤ count * dt.size := by
  cases h with
  | noOp h => exact h.le
  | run h => exact h.le
  | gaps _ _ h => exact h.le

/-- The bytes of a run behind those that are packed. -/
lemma Datatype.Dense.gather_contigMap (h : dt.Dense count) (mem : ℤ → Byte) {m : ℕ}
    (hm : n + m ≤ count * dt.size) :
    gather mem ((dt.contigMap count).take n) ++ gather mem (run (dt.trueLb + n) m)
      = gather mem ((dt.contigMap count).take (n + m)) := by
  rw [h.contigMap, take_run _ (by omega), take_run _ hm, gather_run_append]

/-- **Every call** on a convertor for a `CONTIGUOUS` datatype goes on with the typemap. -/
lemma Convertor.ContigSender.pack (h : conv.ContigSender dt count n) (hsize : 0 < dt.size)
    (hbuffers : conv.AcceptsBuffers iov maxData)
    (hcall : convertorPack chk mem fuel conv iov maxData = some r) :
    ∃ m, r.conv.ContigSender dt count (n + m) ∧
      gather mem ((dt.contigMap count).take n) ++ r.frags.flatten
        = gather mem ((dt.contigMap count).take (n + m)) := by
  by_cases hall : n = count * dt.size
  · rw [convertorPack, if_pos (h.completed_iff.mpr hall)] at hcall
    obtain rfl := Option.some.inj hcall
    exact ⟨0, h, List.append_nil _⟩
  have hlt : n < count * dt.size := Nat.lt_of_le_of_ne h.le hall
  have hfresh : conv.flags.completed = false := by
    rw [Bool.eq_false_iff]
    exact fun hc => hall (h.completed_iff.mp hc)
  cases h with
  | noOp h =>
      rw [convertorPack_noOp h.noOp hfresh] at hcall
      have h' : Convertor.RunAt { conv with csum := ⟨0, 0, 0⟩ } dt count n :=
        ⟨h.noOp, h.dense, h.pDesc, h.localSize, h.bConverted, h.le, h.completed⟩
      obtain ⟨m, hflat, hnext⟩ := h'.packNoOp hlt mem iov
      obtain rfl := Option.some.inj hcall
      refine ⟨m, .noOp hnext, ?_⟩
      rw [hflat, h.dense.gather_contigMap mem hnext.le]
  | run h =>
      rw [convertorPack_contig h.noOp hfresh h.advance] at hcall
      have h' : Convertor.StackSender { conv with csum := ⟨0, 0, 0⟩ } dt count n :=
        ⟨h.noOp, h.advance, h.dense, h.initialDispl, h.stack, h.localSize, h.bConverted, h.le,
          h.completed⟩
      obtain ⟨r', m, hr', hflat, hnext⟩ := h'.packContig hlt
        (if conv.fAdvanceChecksum = true then chk else .plain) mem iov
      obtain rfl : r' = r := Option.some.inj (hr'.symm.trans hcall)
      refine ⟨m, .run hnext, ?_⟩
      rw [hflat, h.dense.gather_contigMap mem hnext.le]
  | gaps hno hadv h =>
      rw [convertorPack_gaps hno hfresh hadv] at hcall
      have hcaller := hbuffers hfresh hno hadv
      have h' : Convertor.GapsInv { conv with csum := ⟨0, 0, 0⟩ } dt.size dt.extent dt.trueLb count
          n := ⟨⟨h.initialDispl, h.stack, h.descSize, h.descExtent, h.copies, h.localSize,
            h.bConverted, h.le⟩, h.completed⟩
      obtain ⟨v, vs, rfl⟩ := List.exists_cons_of_ne_nil hcaller.ne_nil
      rcases h'.pack (if conv.fAdvanceChecksum = true then chk else .plain) mem hsize vs
        (hcaller.base v List.mem_cons_self) hcaller.pos hlt with
        ⟨-, -, hnone⟩ | ⟨-, bytes, conv', rc, hsome, hruns, hnext⟩
      · rw [hcall] at hnone
        cases hnone
      · obtain rfl := Option.some.inj (hcall.symm.trans hsome)
        have hmoved := moved_of_packHomogeneousContigWithGaps hsome
        refine ⟨min (count * dt.size - n) maxData, .gaps ?_ ?_ hnext, ?_⟩
        · obtain ⟨_, _, _, _, _, rfl⟩ := hmoved
          exact hno
        · exact hmoved.fAdvance.trans hadv
        · rw [List.flatten_singleton, dt.take_contigMap hsize hlt.le,
            dt.take_contigMap hsize hnext.le, ← gather_append, hruns]

end Calls

/-! ### The convertor at the beginning -/

section Prepare

variable {conv₀ : Convertor} {dt : Datatype} {as : List ℤ} {count : ℕ}

/-- **A convertor that is prepared to send a `CONTIGUOUS` datatype** is at its first byte. -/
lemma Convertor.Homogeneous.contigSender (hhom : conv₀.Homogeneous) (h : Committed dt as)
    (hon : dt.Honest as) (hcont : dt.flags.contiguous = true) (hcount : count ≠ 0)
    (hsize : dt.size ≠ 0) (pUserBuf : ℤ) :
    (conv₀.prepareForSend dt count pUserBuf).ContigSender dt count 0 := by
  have hpos : 0 ≠ count * dt.size := (Nat.mul_ne_zero hcount hsize).symm
  have hhom' : Convertor.Homogeneous { conv₀ with flags := { conv₀.flags with send := true } } :=
    ⟨hhom.remoteArch, hhom.master⟩
  have hprep := hhom'.prepare hcount hsize pUserBuf
  by_cases hno : Convertor.StaysNoOp { conv₀ with flags := { conv₀.flags with send := true } } dt
      count
  · have hdense : dt.Dense count := hno.2.imp hon.noGaps And.right
    rw [prepareForSend, hprep, if_pos hno]
    exact .noOp ⟨rfl, hdense, rfl, rfl, rfl, Nat.zero_le _, iff_of_false Bool.false_ne_true hpos⟩
  rw [if_neg hno] at hprep
  obtain ⟨hdesc, hopt⟩ := h.endsAt hcont hsize
  by_cases hrun : dt.extent = dt.size ∨ count ≤ 1
  · have hdense : dt.Dense count := hrun.imp_right fun hle => by omega
    obtain ⟨e, he, hea⟩ := hopt
    rw [prepareForSend, hprep]
    dsimp only
    rw [if_pos hcont]
    refine .run ⟨rfl, if_pos hrun, hdense, ?_, fun _ => ⟨_, _, rfl, ?_⟩, rfl, rfl, Nat.zero_le _,
      iff_of_false Bool.false_ne_true hpos⟩
    · rw [Convertor.initialDispl]
      dsimp only [provideStack, createStackAtBegining, attach]
      rw [he]
      exact congrArg some hea
    · simp
  · rw [not_or, Nat.not_le] at hrun
    obtain ⟨hinv, hadv⟩ := Convertor.gapsInv_prepareForSend hrun.2 hsize hno hdesc hopt hcont
      hrun.1 pUserBuf
    refine .gaps ?_ hadv hinv
    rw [prepareForSend, hprep]
    rfl

end Prepare

/-! ### Runs of calls -/

section Runs

variable {conv₀ conv conv₁ conv₂ : Convertor} {dt dt₁ dt₂ : Datatype} {as as₁ as₂ : List ℤ}
  {count count₁ count₂ fuel fuel₁ fuel₂ : ℕ} {chk chk₁ chk₂ : Build} {mem : ℤ → Byte}
  {out out₁ out₂ : List Byte} {pUserBuf pUserBuf₁ pUserBuf₂ : ℤ}

/-- What a sequence of `ocoms_convertor_pack` calls with buffers of the caller packs, and the
convertor it leads to. -/
inductive SendCalls (chk : Build) (mem : ℤ → Byte) (fuel : ℕ) (conv₀ : Convertor) :
    List Byte → Convertor → Prop
  | start : SendCalls chk mem fuel conv₀ [] conv₀
  | call {out : List Byte} {conv : Convertor} {iov : List Iovec} {maxData : ℕ} {r : PackResult} :
      SendCalls chk mem fuel conv₀ out conv → conv.AcceptsBuffers iov maxData →
      convertorPack chk mem fuel conv iov maxData = some r →
      SendCalls chk mem fuel conv₀ (out ++ r.frags.flatten) r.conv

lemma SendCalls.packRun (h : SendCalls chk mem fuel conv₀ out conv) :
    PackRun chk mem fuel conv₀ out conv := by
  induction h with
  | start => exact .start
  | call _ _ hcall ih => exact .call ih hcall

/-- Calls on a convertor that has completed pack nothing. -/
lemma SendCalls.of_completed (h₀ : conv₀.flags.completed = true)
    (h : SendCalls chk mem fuel conv₀ out conv) : out = [] ∧ conv = conv₀ := by
  induction h with
  | start => exact ⟨rfl, rfl⟩
  | call _ _ hcall ih =>
      obtain ⟨rfl, rfl⟩ := ih
      rw [convertorPack, if_pos h₀] at hcall
      obtain rfl := Option.some.inj hcall
      exact ⟨rfl, rfl⟩

/-- **Any run of calls** on a convertor for a `CONTIGUOUS` datatype packs its first bytes. -/
lemma SendCalls.contigSender (h₀ : conv₀.ContigSender dt count 0) (hsize : 0 < dt.size)
    (h : SendCalls chk mem fuel conv₀ out conv) :
    ∃ n, conv.ContigSender dt count n ∧ out = gather mem ((dt.contigMap count).take n) := by
  induction h with
  | start => exact ⟨0, h₀, rfl⟩
  | call _ hbuffers hcall ih =>
      obtain ⟨n, hn, rfl⟩ := ih
      obtain ⟨m, hm, hout⟩ := hn.pack hsize hbuffers hcall
      exact ⟨n + m, hm, hout⟩

/-- A convertor that walks over the description packs the first bytes of the typemap. -/
lemma SendCalls.walk (h : Committed dt as) (hon : dt.Honest as) (hhom : conv₀.Homogeneous)
    (hcont : dt.flags.contiguous = false) (hcount : count ≠ 0) (hsize : dt.size ≠ 0)
    (hfuel : dt.Fuels count fuel)
    (hrun : SendCalls chk mem fuel (conv₀.prepareForSend dt count pUserBuf) out conv) :
    out <+: gather mem (copiesMap as count 0 dt.extent) ∧
      (conv.flags.completed = true ↔ out.length = (copiesMap as count 0 dt.extent).length) := by
  obtain ⟨dt₀, D, hcommits, hne⟩ := h.commits hcont
  obtain ⟨E, hE, hjoins, rfl⟩ := hon.map hcont
  obtain rfl : E = D := Nest.flatten_injective (hE.symm.trans hcommits.described.desc)
  have hdesc := hcommits.described
  have hvalid : E.Valid := ⟨hdesc.wf, hdesc.ends⟩
  have hopt : (E.optimized none).Valid :=
    Nest.optimized_valid hvalid (fun p hp => by cases hp) (fun p hp => by cases hp)
      hjoins.coherent
  have hbytes : dt.size = ((E.optimized none).bytes 0).length := by
    rw [hjoins.bytes_optimized hvalid, hdesc.size]
  have hgaps : dt.flags.noGaps = false := by
    by_contra hg
    have := h.built.contiguous_of_noGaps (by simpa using hg)
    simp [hcont] at this
  obtain ⟨fake, hfake⟩ := hcommits.optDesc hne
  obtain ⟨hprep, hadv, hpdesc, -⟩ :=
    hhom.prepareForSend_prepared pUserBuf hfake hbytes hsize hcount hgaps hcont
  obtain ⟨done, rem, hsplit, rfl, hinv, -⟩ :=
    hrun.packRun.genericInv (hprep.genericInv hopt) (fun _ => hopt.stride_len_pos) hadv
      (hfuel E hdesc.desc)
  rw [hpdesc] at hsplit
  have hstream : blocksBytes (done ++ rem) = copiesMap (E.bytes 0) count 0 dt.extent := by
    rw [hsplit, blocksBytes, flatMap_stride, copiesMap_bytes]
    exact stride_congr _ _ _ fun x => hjoins.bytes_optimized hvalid x
  have hpos : ∀ b ∈ rem, 0 < b.len := fun b hb =>
    hopt.stride_len_pos (hsplit ▸ List.mem_append_right done hb)
  refine ⟨?_, ?_⟩
  · rw [← hstream, blocksBytes_append, gather_append]
    exact List.prefix_append _ _
  · rw [hinv.completed, ← hstream, length_gather, length_blocksBytes, length_blocksBytes,
      weight_append, ← weight_eq_zero_iff hpos]
    omega

/-- **Every run of calls packs the first bytes of the typemap**, and the convertor has completed
when they are all. -/
lemma SendCalls.stream (h : Committed dt as) (hon : dt.Honest as) (hhom : conv₀.Homogeneous)
    (hfuel : dt.Fuels count fuel)
    (hrun : SendCalls chk mem fuel (conv₀.prepareForSend dt count pUserBuf) out conv) :
    out <+: gather mem (copiesMap as count 0 dt.extent) ∧
      (conv.flags.completed = true ↔ out = gather mem (copiesMap as count 0 dt.extent)) := by
  have hall : ∀ {bs : List ℤ}, out <+: gather mem bs →
      (out.length = bs.length ↔ out = gather mem bs) := fun hpre =>
    ⟨fun hlen => hpre.eq_of_length (by rw [hlen, length_gather]),
      fun heq => by rw [heq, length_gather]⟩
  by_cases hnone : count = 0 ∨ dt.size = 0
  · have hcomp := (conv₀.completed_prepare hnone pUserBuf).1
    obtain ⟨rfl, rfl⟩ := hrun.of_completed hcomp
    have hempty : copiesMap as count 0 dt.extent = [] :=
      copiesMap_of_nothing (hnone.imp_right fun hs =>
        List.eq_nil_of_length_eq_zero (h.built.measured.size ▸ hs))
    rw [hempty]
    exact ⟨List.prefix_rfl, iff_of_true hcomp rfl⟩
  obtain ⟨hcount, hsize⟩ := not_or.mp hnone
  cases hcont : dt.flags.contiguous with
  | true =>
      obtain ⟨n, hn, rfl⟩ := hrun.contigSender
        (hhom.contigSender h hon hcont hcount hsize pUserBuf) (Nat.pos_of_ne_zero hsize)
      have hpre : gather mem ((dt.contigMap count).take n) <+: gather mem (dt.contigMap count) :=
        (List.take_prefix n _).map mem
      rw [h.copiesMap_contiguous hcont]
      refine ⟨hpre, ?_⟩
      rw [hn.completed_iff, ← hall hpre, length_gather, List.length_take, dt.length_contigMap]
      have := hn.le
      omega
  | false =>
      obtain ⟨hpre, hcomp⟩ := hrun.walk h hon hhom hcont hcount hsize hfuel
      exact ⟨hpre, hcomp.trans (hall hpre)⟩

end Runs

/-- A convertor for the local architecture that computes a checksum. -/
def checksumConvertor : Convertor :=
  { Convertor.create localArch with
    flags := { (Convertor.create localArch).flags with withChecksum := true } }

lemma honest_int4 : (predefined .int4).Honest (run 0 4) :=
  ⟨fun _ => by decide, fun hc => absurd hc (by decide)⟩

lemma fuels_int4 {count fuel : ℕ} (h : count * 2 < fuel) : (predefined .int4).Fuels count fuel := by
  intro D hD
  have hflat : D.flatten = (Nest.elem ⟨{ Flags.basic with commited := false }, .int4, 1, 4, 0⟩
      .done).flatten := hD.symm
  rw [Nest.flatten_injective hflat]
  exact h

end Ocoms
