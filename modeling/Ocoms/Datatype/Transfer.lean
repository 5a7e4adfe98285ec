import Ocoms.Datatype.PackPaths

/-!
A transfer: what `ocoms_convertor_pack` takes out of the memory of the sender, and
`ocoms_convertor_unpack` puts into the memory of the receiver.

* `unpackNoOpIovs_spec` and `RunAt.unpackCalls` are about the `NO_OP` branch of the receiver.
* `Datatype.CutsOnce` is what the receiver needs of the fragments, and `receive_iff` says so, whatever
  way it takes.
* `transfer_iff` is about both ends, with any two datatypes of the same size.
-/

namespace Ocoms

open Layout Greedy

/-! ### The `NO_OP` branch of the receiver -/

section NoOp

variable {conv : Convertor} {dt : Datatype} {count n : ℕ} {chk : Build} {fuel : ℕ}

/-- The fragments of a call go to the next bytes of the run. -/
lemma unpackNoOpIovs_spec {vs : List Fragment} {pending : ℕ} (hpos : 0 < pending)
    (hfit : (fragData vs).length ≤ pending) (base : ℤ) (mem : ℤ → Byte) :
    ∃ lens last, unpackNoOpIovs vs pending base mem
        = (lens, last, scatter mem (run base (fragData vs).length) (fragData vs)) ∧
      lens.sum = (fragData vs).length ∧ (last = true ↔ (fragData vs).length = pending) := by
  induction vs generalizing pending base mem with
  | nil => exact ⟨[], false, rfl, rfl, iff_of_false Bool.false_ne_true hpos.ne⟩
  | cons v vs ih =>
      rw [fragData_cons, List.length_append] at hfit ⊢
      rw [unpackNoOpIovs]
      by_cases hle : pending ≤ v.data.length
      · have hall : v.data.length = pending := by omega
        have hnil : fragData vs = [] := List.eq_nil_of_length_eq_zero (by omega)
        rw [if_pos hle, hnil, List.append_nil, List.length_nil, Nat.add_zero, hall,
          List.take_of_length_le hall.le]
        exact ⟨_, _, rfl, List.sum_singleton, iff_of_true rfl rfl⟩
      · rw [if_neg hle]
        obtain ⟨lens, last, hiovs, hsum, hlast⟩ := ih (Nat.sub_pos_of_lt (Nat.lt_of_not_le hle))
          (by omega) (base + v.data.length) (scatter mem (run base v.data.length) v.data)
        dsimp only
        rw [hiovs]
        refine ⟨_, _, ?_, by rw [List.sum_cons, hsum], hlast.trans (by omega)⟩
        rw [run_add, scatter_append _ (length_run _ _)]

variable (chk fuel) in
/-- **A call** on a convertor that stays `NO_OP` goes on with its run. -/
lemma Convertor.RunAt.convertorUnpack (h : conv.RunAt dt count n) (mem : ℤ → Byte)
    {iov : List Fragment} (hfit : n + (fragData iov).length ≤ count * dt.size) :
    ∃ r, convertorUnpack chk fuel conv mem iov = some r ∧
      r.conv.RunAt dt count (n + (fragData iov).length) ∧
      r.mem = scatter mem (run (dt.trueLb + n) (fragData iov).length) (fragData iov) := by
  by_cases hall : n = count * dt.size
  · have hnil : fragData iov = [] := List.eq_nil_of_length_eq_zero (by omega)
    rw [hnil]
    refine ⟨⟨conv, mem, [], 0, 1⟩, ?_, h, rfl⟩
    rw [Ocoms.convertorUnpack, if_pos (h.completed.mpr hall)]
  have hlt : n < count * dt.size := Nat.lt_of_le_of_ne h.le hall
  have hfresh : conv.flags.completed = false := by
    rw [Bool.eq_false_iff]
    exact fun hc => hall (h.completed.mp hc)
  have hcall : Ocoms.convertorUnpack chk fuel conv mem iov
      = some (unpackNoOp { conv with csum := ⟨0, 0, 0⟩ } mem iov) := by
    simp [Ocoms.convertorUnpack, hfresh, h.noOp]
  have hpointer : Convertor.getCurrentPointer { conv with csum := ⟨0, 0, 0⟩ } = dt.trueLb + n := by
    rw [getCurrentPointer]
    dsimp only
    rw [h.bConverted, h.pDesc, add_comm]
  obtain ⟨lens, last, hiovs, hsum, hlast⟩ := unpackNoOpIovs_spec (Nat.sub_pos_of_lt hlt)
    (show (fragData iov).length ≤ count * dt.size - n by omega) (dt.trueLb + n) mem
  refine ⟨_, hcall, ?_, ?_⟩
  · rw [unpackNoOp, hpointer, h.localSize, h.bConverted, hiovs]
    dsimp only
    split
    · next hall =>
        have hend : n + (fragData iov).length = count * dt.size := by
          have := hlast.mp hall
          omega
        exact ⟨h.noOp, h.dense, h.pDesc, rfl, hend.symm, hfit, iff_of_true rfl hend⟩
    · next hsome =>
        have hmore := mt hlast.mpr hsome
        refine ⟨h.noOp, h.dense, h.pDesc, rfl, ?_, hfit, iff_of_false ?_ (by omega)⟩
        · rw [hsum]
        · rw [hfresh]
          exact Bool.false_ne_true
  · rw [unpackNoOp, hpointer, h.localSize, h.bConverted, hiovs]
    dsimp only
    split <;> rfl

variable (chk fuel) in
/-- **A sequence of calls** goes on with it. -/
lemma Convertor.RunAt.unpackCalls (h : conv.RunAt dt count n) (mem : ℤ → Byte)
    (calls : List (List Fragment)) (hfit : n + (fragData calls.flatten).length ≤ count * dt.size) :
    ∃ conv', unpackCalls chk fuel conv mem calls = some (conv',
        scatter mem (run (dt.trueLb + n) (fragData calls.flatten).length) (fragData calls.flatten)) ∧
      conv'.RunAt dt count (n + (fragData calls.flatten).length) := by
  induction calls generalizing conv n mem with
  | nil => exact ⟨conv, rfl, h⟩
  | cons iov calls ih =>
      rw [List.flatten_cons, fragData_append, List.length_append, ← Nat.add_assoc] at hfit ⊢
      obtain ⟨r, hcall, hr, hmem⟩ := h.convertorUnpack chk fuel mem
        ((Nat.le_add_right _ _).trans hfit)
      obtain ⟨conv', hcalls, hconv'⟩ := ih hr r.mem hfit
      refine ⟨conv', ?_, hconv'⟩
      rw [Ocoms.unpackCalls, hcall, Option.bind_some, hcalls, hmem, run_add,
        scatter_append _ (length_run _ _), Nat.cast_add, add_assoc]

end NoOp

/-! ### The receiver -/

/-- **The fragments cut every element of the optimized description at most once**, and none that is
longer than the buffer for partial elements. Nothing is asked for where the datatype is
`CONTIGUOUS`. -/
def Datatype.CutsOnce (dt : Datatype) (count : ℕ) (lens : List ℕ) : Prop :=
  dt.flags.contiguous = false → ∀ D : Nest, dt.desc.desc.take dt.desc.used = D.flatten →
    CutOnce Block.len partialBufferLength
      (stride count dt.extent (D.optimized none).blocks 0) 0 lens

section Receive

variable {conv₀ : Convertor} {dt : Datatype} {as : List ℤ} {count : ℕ} {chk : Build}
  {fuel : ℕ} {pUserBuf : ℤ} {calls : List (List Fragment)}

lemma Committed.length_copiesMap (h : Committed dt as) (count : ℕ) :
    (copiesMap as count 0 dt.extent).length = count * dt.size := by
  rw [Ocoms.length_copiesMap, h.built.measured.size]

variable (chk fuel pUserBuf) in
/-- A receiver of a `CONTIGUOUS` datatype takes all bytes, however they are cut. -/
lemma Committed.unpackCalls_contiguous (h : Committed dt as) (hon : dt.Honest as)
    (hhom : conv₀.Homogeneous) (hcont : dt.flags.contiguous = true) (hcount : count ≠ 0)
    (hsize : dt.size ≠ 0) (mem : ℤ → Byte)
    (hall : (fragData calls.flatten).length = count * dt.size) :
    ∃ conv, unpackCalls chk fuel (conv₀.prepareForRecv dt count pUserBuf) mem calls = some (conv,
        scatter mem (copiesMap as count 0 dt.extent) (fragData calls.flatten)) ∧
      conv.flags.completed = true := by
  have hpos : 0 ≠ count * dt.size := (Nat.mul_ne_zero hcount hsize).symm
  have hhom' : Convertor.Homogeneous { conv₀ with flags := { conv₀.flags with recv := true } } :=
    ⟨hhom.remoteArch, hhom.master⟩
  have hprep := hhom'.prepare hcount hsize pUserBuf
  have hfit : 0 + (fragData calls.flatten).length ≤ count * dt.size := by omega
  rw [h.copiesMap_contiguous hcont]
  by_cases hno : Convertor.StaysNoOp { conv₀ with flags := { conv₀.flags with recv := true } } dt
      count
  · have hdense : dt.Dense count := hno.2.imp hon.noGaps And.right
    have hrun : (conv₀.prepareForRecv dt count pUserBuf).RunAt dt count 0 := by
      rw [Convertor.prepareForRecv, hprep, if_pos hno]
      exact ⟨rfl, hdense, rfl, rfl, rfl, Nat.zero_le _, iff_of_false Bool.false_ne_true hpos⟩
    obtain ⟨conv, hcalls, hconv⟩ := hrun.unpackCalls chk fuel mem calls hfit
    refine ⟨conv, ?_, hconv.completed.mpr (by omega)⟩
    rw [hcalls, hdense.contigMap, Nat.cast_zero, add_zero, hall]
  · rw [if_neg hno] at hprep
    obtain ⟨hdesc, hopt⟩ := h.endsAt hcont hsize
    have hflag : (conv₀.prepareForRecv dt count pUserBuf).flags.noOp = false := by
      rw [Convertor.prepareForRecv, hprep]
      rfl
    have hadv : (conv₀.prepareForRecv dt count pUserBuf).fAdvance = .unpackHomogeneousContig := by
      rw [Convertor.prepareForRecv, hprep]
      simp [Convertor.provideStack, Convertor.createStackAtBegining, Convertor.attach, hcont]
    have hinv := Convertor.contigInv_prepareForRecv hdesc hopt hcount hsize pUserBuf hflag hadv
    have hsize' := Nat.pos_of_ne_zero hsize
    obtain ⟨conv, mem', bytes, hcalls, hconv, -, rfl, hruns⟩ :=
      hinv.unpackCalls chk fuel hsize' mem calls hfit
    refine ⟨conv, ?_, hconv.completed.mpr (by omega)⟩
    have hstart : runsUpTo dt.size dt.extent dt.trueLb 0 = [] := by simp [runsUpTo]
    rw [hstart, List.nil_append, hall, Nat.zero_add, runsUpTo_mul _ _ hsize'] at hruns
    rw [hcalls, hruns, Datatype.contigMap]

variable (chk pUserBuf) in
/-- **What the receiver needs.** The calls take all bytes of `count` copies, and put them to the
addresses of the typemap in order, exactly if the fragments cut the elements at most once; else they
fail. -/
lemma Committed.receive_iff (h : Committed dt as) (hon : dt.Honest as) (hhom : conv₀.Homogeneous)
    (hfuel : dt.Fuels count fuel) (mem : ℤ → Byte) (hcalls : ∀ v ∈ calls.flatten, v.data ≠ [])
    (hall : (fragData calls.flatten).length = count * dt.size) :
    ((unpackCalls chk fuel (conv₀.prepareForRecv dt count pUserBuf) mem calls).isSome ↔
        dt.CutsOnce count (fragLens calls.flatten)) ∧
      ∀ conv mem', unpackCalls chk fuel (conv₀.prepareForRecv dt count pUserBuf) mem calls
          = some (conv, mem') → conv.flags.completed = true ∧
        mem' = scatter mem (copiesMap as count 0 dt.extent) (fragData calls.flatten) := by
  have hyes : ∀ {conv : Convertor},
      unpackCalls chk fuel (conv₀.prepareForRecv dt count pUserBuf) mem calls = some (conv,
        scatter mem (copiesMap as count 0 dt.extent) (fragData calls.flatten)) →
      conv.flags.completed = true → dt.CutsOnce count (fragLens calls.flatten) →
      ((unpackCalls chk fuel (conv₀.prepareForRecv dt count pUserBuf) mem calls).isSome ↔
          dt.CutsOnce count (fragLens calls.flatten)) ∧
        ∀ conv mem', unpackCalls chk fuel (conv₀.prepareForRecv dt count pUserBuf) mem calls
            = some (conv, mem') → conv.flags.completed = true ∧
          mem' = scatter mem (copiesMap as count 0 dt.extent) (fragData calls.flatten) := by
    intro conv hsome hcomp hcut
    rw [hsome]
    refine ⟨iff_of_true rfl hcut, fun conv' mem' heq => ?_⟩
    obtain ⟨rfl, rfl⟩ := Prod.mk.inj (Option.some.inj heq)
    exact ⟨hcomp, rfl⟩
  by_cases hnone : count = 0 ∨ dt.size = 0
  · -- nothing is to be received, and the convertor has completed
    have hzero : count * dt.size = 0 := by rcases hnone with h0 | h0 <;> simp [h0]
    have hnil : calls.flatten = [] := by
      refine eq_nil_of_sum_fragLens hcalls ?_
      rw [← length_fragData, hall, hzero]
    have hcomp := (conv₀.completed_prepare hnone pUserBuf).2
    have hmap : copiesMap as count 0 dt.extent = [] :=
      List.eq_nil_of_length_eq_zero (by rw [h.length_copiesMap, hzero])
    have hsame : unpackCalls chk fuel (conv₀.prepareForRecv dt count pUserBuf) mem calls
        = some (conv₀.prepareForRecv dt count pUserBuf,
          scatter mem (copiesMap as count 0 dt.extent) (fragData calls.flatten)) := by
      rw [unpackCalls_of_completed hcomp, hmap, scatter_nil]
    refine hyes hsame hcomp fun _ D _ => ?_
    · rw [hnil]
      intro pre x post _ p hp hlt
      obtain ⟨ns, hns, rfl⟩ := hp
      rw [fragLens_nil, List.prefix_nil] at hns
      subst hns
      simp at hlt
  obtain ⟨hcount, hsize⟩ := not_or.mp hnone
  cases hcont : dt.flags.contiguous with
  | true =>
      obtain ⟨conv, hsome, hcomp⟩ :=
        h.unpackCalls_contiguous chk fuel pUserBuf hon hhom hcont hcount hsize mem hall
      exact hyes hsome hcomp fun hc => absurd (hcont.symm.trans hc) (by decide)
  | false =>
      obtain ⟨dt₀, D, hcommits, hne⟩ := h.commits hcont
      obtain ⟨E, hE, hjoins, rfl⟩ := hon.map hcont
      obtain rfl : E = D := Nest.flatten_injective (hE.symm.trans hcommits.described.desc)
      have hdesc := hcommits.described
      have hvalid : E.Valid := ⟨hdesc.wf, hdesc.ends⟩
      have hopt : (E.optimized none).Valid :=
        Nest.optimized_valid hvalid (fun p hp => by cases hp) (fun p hp => by cases hp)
          hjoins.coherent
      have hbytes : dt.size = ((E.optimized none).bytes 0).length := by
        rw [hjoins.bytes_optimized hvalid, hdesc.size]
      have hgaps : dt.flags.noGaps = false := by
        by_contra hg
        have := h.built.contiguous_of_noGaps (by simpa using hg)
        simp [hcont] at this
      obtain ⟨fake, hfake⟩ := hcommits.optDesc hne
      obtain ⟨hprep, hpdesc, -⟩ :=
        hhom.prepareForRecv_prepared pUserBuf hfake hbytes hsize hcount hgaps hcont
      have hinv := hprep.unpackInv hopt
      rw [hpdesc] at hinv
      set stream := stride count dt.extent (E.optimized none).blocks 0 with hstream
      have hpos : ∀ b ∈ stream, 0 < b.len := fun _ => hopt.stride_len_pos
      have hmap : blocksBytes stream = copiesMap (E.bytes 0) count 0 dt.extent := by
        rw [hstream, blocksBytes, flatMap_stride, copiesMap_bytes]
        exact stride_congr _ _ _ fun x => hjoins.bytes_optimized hvalid x
      have hlen : (fragLens calls.flatten).sum = weight Block.len stream := by
        rw [← length_fragData, hall, ← length_blocksBytes, hmap, h.length_copiesMap]
      have hcut : dt.CutsOnce count (fragLens calls.flatten) ↔
          CutOnce Block.len partialBufferLength stream 0 (fragLens calls.flatten) := by
        refine ⟨fun hc => hc hcont E hE, fun hc _ D hD => ?_⟩
        obtain rfl : D = E := Nest.flatten_injective (hD.symm.trans hE)
        exact hc
      have hiff := receiveAll_isSome_iff hpos (.inl rfl : Within Block.len partialBufferLength
        stream 0) (fragLens_pos hcalls) (by rw [hlen, Nat.zero_add])
      rcases hinv.unpackCalls chk hpos (hfuel E hE) calls hcalls (by rw [hlen, Nat.zero_add])
        mem with ⟨hr, hu⟩ | ⟨bs, rem, k, conv, hrem, hw, hr, hu, hconv⟩
      · rw [hu]
        refine ⟨iff_of_false Bool.false_ne_true fun hc => ?_, fun conv mem' heq => by cases heq⟩
        have hsome := hiff.mpr (hcut.mp hc)
        rw [hr] at hsome
        cases hsome
      · have hnil : rem = [] := hconv.eq_nil (fun b hb => hpos b (by rw [hrem]; simp [hb])) (by
          have hweight := congrArg (weight Block.len) hrem
          rw [weight_append] at hweight
          omega)
        rw [List.drop_zero, List.take_of_length_le (by rw [hmap, h.length_copiesMap, hall]), hmap]
          at hu
        refine hyes hu (hconv.completed.mpr hnil) (hcut.mpr (hiff.mp ?_))
        rw [hr]
        rfl

end Receive

/-! ### Both ends -/

section Transfer

variable {convS convS' convR : Convertor} {dtS dtR : Datatype} {asS asR : List ℤ}
  {countS countR fuelS fuelR : ℕ} {chkS chkR : Build} {src : ℤ → Byte} {out : List Byte}
  {pUserBufS pUserBufR : ℤ}

end Transfer

/-- Data of a predefined type keeps all bounds and places. -/
lemma KeepsMap.of_predefined {pdtAdd : Datatype} {count : ℕ} (hp : pdtAdd.flags.predefined = true)
    (hcount : count ≠ 0) (hsize : pdtAdd.size ≠ 0) (base : Datatype) (disp extent : ℤ) :
    KeepsMap base pdtAdd count disp extent := by
  have hdata : ¬ (count = 0 ∨ pdtAdd.size = 0) := not_or.mpr ⟨hcount, hsize⟩
  refine ⟨⟨fun h => absurd h hdata, fun h => absurd h hdata, fun h => absurd h hdata⟩, fun hd => ?_⟩
  rw [hp] at hd
  cases hd

lemma built_int4AndInt8_keepsMap :
    Built KeepsMap int4AndInt8 [0, 1, 2, 3, 8, 9, 10, 11, 12, 13, 14, 15] :=
  .add 1 8 (-1)
    (built_oneInt4 (KeepsMap.of_predefined rfl one_ne_zero (by decide) _ _ _)) rfl
    (.predefined .int8) (fun _ _ => by decide)
    (KeepsMap.of_predefined rfl one_ne_zero (by decide) _ _ _) rfl

end Ocoms
