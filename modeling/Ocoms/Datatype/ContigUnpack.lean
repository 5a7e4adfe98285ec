import Ocoms.Datatype.GapsPack
import Ocoms.Datatype.RoundTrip

/-!
Unpacking a `CONTIGUOUS` datatype, with or without gaps between its copies.

* `Committed.endsAt`: the descriptions of a committed `CONTIGUOUS` datatype end with the
  displacement of its first byte, whether it is predefined, derived or resized.
* `Convertor.ContigInv` is what every call of `unpackHomogeneousContig` keeps: the two
  displacements on the stack lead to the next byte.
* `contig_unpack`: the whole stream, cut in any way, ends up at the addresses of the typemap.
-/

namespace Ocoms

open Layout

/-! ### The descriptions -/

section Ends

variable {dt : Datatype} {as : List ℤ}

/-- **The descriptions of a committed `CONTIGUOUS` datatype** end with the displacement of its
first byte. -/
lemma Committed.endsAt (h : Committed dt as) (hcont : dt.flags.contiguous = true)
    (hsize : dt.size ≠ 0) : dt.desc.EndsAt dt.trueLb ∧ dt.optDesc.EndsAt dt.trueLb := by
  induction h with
  | predefined t ht =>
      cases t <;> first
        | exact absurd rfl ht
        | exact ⟨⟨_, rfl, rfl⟩, ⟨_, rfl, rfl⟩⟩
  | @commit dt₀ dt as hb hp hc hcommit =>
      obtain ⟨D, hdesc⟩ := hb.described hp
      have hsame := Datatype.sameData_commit hcommit
      have hsize₀ : dt₀.size ≠ 0 := hsame.size ▸ hsize
      have hfirst : D.firstDisp = dt.trueLb := by
        rw [hsame.trueLb]
        exact hdesc.firstDisp_eq (hsame.contiguous ▸ hcont) hsize₀
      rw [← hfirst]
      exact Datatype.commit_firstElemDisp hdesc hc hsize₀ hcommit
  | resize lb extent _ ih => exact ih hcont hsize

end Ends

/-! ### The convertor -/

/-- The convertor has unpacked `n` bytes of `count` copies whose first byte is at `a`. With gaps
between the copies, the displacements on its stack lead to the next byte. -/
structure Convertor.ContigAt (conv : Convertor) (size : ℕ) (extent a : ℤ) (count n : ℕ) :
    Prop where
  noOp : conv.flags.noOp = false
  advance : conv.fAdvance = .unpackHomogeneousContig
  initialDispl : conv.initialDispl = some a
  stack : ∃ s₁ s₀, conv.stack = [s₁, s₀] ∧
    ((size : ℤ) ≠ extent → s₀.disp + s₁.disp = (n / size : ℕ) * extent + (n % size : ℕ))
  descSize : conv.pDesc.size = size
  descExtent : conv.pDesc.extent = extent
  localSize : conv.localSize = count * size
  bConverted : conv.bConverted = n
  le : n ≤ count * size

/-- Between two calls the flag says whether all bytes are unpacked. -/
structure Convertor.ContigInv (conv : Convertor) (size : ℕ) (extent a : ℤ) (count n : ℕ) : Prop
    extends conv.ContigAt size extent a count n where
  completed : conv.flags.completed = true ↔ n = count * size

lemma Convertor.ContigAt.finish {conv : Convertor} {size count n : ℕ} {extent a : ℤ}
    (h : conv.ContigAt size extent a count n) (hfresh : conv.flags.completed = false) :
    conv.finish.1.ContigInv size extent a count n := by
  have hiff : conv.bConverted = conv.localSize ↔ n = count * size := by
    rw [h.bConverted, h.localSize]
  rw [Convertor.finish]
  split
  · next hall =>
      exact ⟨⟨h.noOp, h.advance, h.initialDispl, h.stack, h.descSize, h.descExtent, h.localSize,
        h.bConverted, h.le⟩, iff_of_true rfl (hiff.mp hall)⟩
  · next hsome =>
      refine ⟨h, iff_of_false ?_ fun hall => hsome (hiff.mpr hall)⟩
      rw [hfresh]
      exact Bool.false_ne_true

/-- `OCOMS_CONVERTOR_PREPARE` returns early from an empty convertor and from one that stays `NO_OP`;
otherwise it leaves one at the beginning of either description. -/
lemma Convertor.prepare_cases (conv : Convertor) (datatype : Datatype) (count : ℕ) (pUserBuf : ℤ) :
    (∃ conv', conv.prepare datatype count pUserBuf = (false, conv') ∧
        if count = 0 ∨ datatype.size = 0 then conv'.flags.completed = true
        else conv'.flags.noOp = true) ∨
      (count ≠ 0 ∧ datatype.size ≠ 0) ∧ ∃ mask, conv.prepare datatype count pUserBuf = (true,
        ((conv.attach datatype count pUserBuf).computeRemoteSize datatype mask).provideStack
          datatype) := by
  rw [prepare]
  by_cases hempty : count = 0 ∨ datatype.size = 0
  · refine Or.inl ⟨_, if_pos hempty, ?_⟩
    rw [if_pos hempty]
  rw [if_neg hempty]
  dsimp only
  set mask := fun t => datatype.bdtUsed t && (conv.attach datatype count pUserBuf).master.heteroMask t
  split_ifs with hlocal hgaps
  · exact Or.inl ⟨_, rfl, rfl⟩
  · obtain ⟨homogeneous, remoteSize, useDesc, -, hremote⟩ :=
      computeRemoteSize_cases (conv.attach datatype count pUserBuf) datatype mask
    refine Or.inl ⟨_, rfl, ?_⟩
    rw [hremote]
    rfl
  · exact Or.inr ⟨not_or.mp hempty, mask, rfl⟩

/-- **The convertor at the beginning.** -/
lemma Convertor.contigInv_prepareForRecv {conv₀ : Convertor} {dt : Datatype} {count : ℕ} {a : ℤ}
    (hdesc : dt.desc.EndsAt a) (hopt : dt.optDesc.EndsAt a) (hcount : count ≠ 0)
    (hsize : dt.size ≠ 0) (pUserBuf : ℤ)
    (hno : (conv₀.prepareForRecv dt count pUserBuf).flags.noOp = false)
    (hadv : (conv₀.prepareForRecv dt count pUserBuf).fAdvance = .unpackHomogeneousContig) :
    (conv₀.prepareForRecv dt count pUserBuf).ContigInv dt.size dt.extent a count 0 := by
  rcases prepare_cases { conv₀ with flags := { conv₀.flags with recv := true } } dt count pUserBuf
    with ⟨conv', hprep, hflag⟩ | ⟨-, mask, hprep⟩
  · rw [if_neg (not_or.mpr ⟨hcount, hsize⟩)] at hflag
    rw [prepareForRecv, hprep] at hno
    rw [hflag] at hno
    cases hno
  · obtain ⟨homogeneous, remoteSize, useDesc, huse, hremote⟩ := computeRemoteSize_cases
      (attach { conv₀ with flags := { conv₀.flags with recv := true } } dt count pUserBuf) dt mask
    obtain ⟨e, he, hea⟩ : useDesc.EndsAt a := by
      rcases huse with rfl | rfl
      · exact hopt
      · exact hdesc
    rw [hremote] at hprep
    rw [prepareForRecv, hprep] at hno hadv ⊢
    refine ⟨⟨hno, hadv, ?_, ⟨_, _, rfl, fun _ => ?_⟩, rfl, rfl, rfl, rfl, Nat.zero_le _⟩, ?_⟩
    · rw [Convertor.initialDispl]
      dsimp only [provideStack, createStackAtBegining]
      rw [he]
      exact congrArg some hea
    · simp
    · refine iff_of_false Bool.false_ne_true ?_
      exact (Nat.mul_pos (Nat.pos_of_ne_zero hcount) (Nat.pos_of_ne_zero hsize)).ne

/-! ### One buffer -/

section Buffer

variable (build : Build) (pBaseBuf extent a : ℤ) {size count n : ℕ}

/-- The copy of the rest of a copy, if all of it is there. -/
lemma UnpackState.eats_rest (hsize : 0 < size) (k : ℕ) {r : ℕ} (hr : r < size) {remaining : ℕ}
    {s : UnpackState} (hlen : remaining ≤ s.src.length) :
    ∃ (k' r' : ℕ) (s' : UnpackState) (rest : ℕ),
      (if r ≠ 0 ∧ size - r ≤ remaining then
        (a + (k * extent + r) + (extent - (size - (size - r : ℕ))), remaining - (size - r),
          s.copy build pBaseBuf (a + (k * extent + r)) (size - r))
        else (a + (k * extent + r), remaining, s)) = (a + (k' * extent + r'), rest, s') ∧
      ∃ bytes, s.Eats build bytes s' ∧ (r' = 0 ∨ r' + rest < size) ∧
        k * size + r + bytes.length = k' * size + r' ∧ bytes.length + rest = remaining ∧
        runsUpTo size extent a (k * size + r) ++ bytes = runsUpTo size extent a (k' * size + r') := by
  by_cases hall : r ≠ 0 ∧ size - r ≤ remaining
  · refine ⟨k + 1, 0, _, remaining - (size - r), ?_, run (a + (k * extent + r)) (size - r),
      s.eats_copy build pBaseBuf _ (hall.2.trans hlen), Or.inl rfl, ?_, ?_, ?_⟩
    · rw [if_pos hall]
      refine Prod.ext ?_ rfl
      dsimp only
      push_cast [Nat.cast_sub hr.le]
      ring
    · rw [length_run, Nat.succ_mul]
      omega
    · rw [length_run]
      omega
    · rw [← add_assoc, Nat.add_zero]
      exact runsUpTo_rest extent a hsize k hr.le
  · refine ⟨k, r, s, remaining, if_neg hall, [], .refl s, ?_, rfl, ?_, List.append_nil _⟩
    · by_cases hzero : r = 0
      · exact Or.inl hzero
      · have hshort := not_and.mp hall hzero
        omega
    · rw [List.length_nil, Nat.zero_add]

/-- What is left of it, whole copies and a part of the next one. -/
lemma UnpackState.eats_copies_pending (hsize : 0 < size) (k : ℕ) {r rest : ℕ}
    (hr : r = 0 ∨ r + rest < size) {s : UnpackState} (hlen : rest ≤ s.src.length) :
    ∃ bytes s', (if rest - rest / size * size ≠ 0 then
          (s.copies build pBaseBuf extent size (rest / size) (a + (k * extent + r))).copy build
            pBaseBuf (a + (k * extent + r) + (rest / size : ℕ) * extent) (rest - rest / size * size)
        else s.copies build pBaseBuf extent size (rest / size) (a + (k * extent + r))) = s' ∧
      s.Eats build bytes s' ∧ bytes.length = rest ∧
      runsUpTo size extent a (k * size + r) ++ bytes
        = runsUpTo size extent a ((k + rest / size) * size + (r + (rest - rest / size * size))) := by
  have hmul : rest / size * size ≤ rest := Nat.div_mul_le_self _ _
  have hmod : rest - rest / size * size < size := by
    have hdm := Nat.div_add_mod' rest size
    have hm := Nat.mod_lt rest hsize
    omega
  have hcopies := s.eats_copies build pBaseBuf extent size (rest / size) (a + (k * extent + r))
    (hmul.trans hlen)
  have hleft : rest - rest / size * size
      ≤ (s.copies build pBaseBuf extent size (rest / size) (a + (k * extent + r))).src.length := by
    rw [hcopies.src, List.length_drop, length_stride _ _ _ _ fun x => length_run x size]
    omega
  have hruns : runsUpTo size extent a (k * size + r)
      ++ (stride (rest / size) extent (fun x => run x size) (a + (k * extent + r))
        ++ run (a + (k * extent + r) + (rest / size : ℕ) * extent) (rest - rest / size * size))
      = runsUpTo size extent a ((k + rest / size) * size + (r + (rest - rest / size * size))) := by
    rcases hr with rfl | hshort
    · simp only [Nat.cast_zero, add_zero, Nat.zero_add]
      exact runsUpTo_append extent a hsize k (rest / size) hmod.le
    · have hzero : rest / size = 0 := Nat.div_eq_of_lt (by omega)
      simp only [hzero, stride_zero, Nat.cast_zero, zero_mul, add_zero, Nat.sub_zero, List.nil_append]
      rw [runsUpTo_mul_add extent a hsize k (by omega), runsUpTo_mul_add extent a hsize k hshort.le,
        run_add, List.append_assoc, add_assoc]
  refine ⟨_, _, rfl, ?_, ?_, hruns⟩
  · by_cases hzero : rest - rest / size * size = 0
    · rw [if_neg (not_not.mpr hzero), hzero, run_zero, List.append_nil]
      exact hcopies
    · rw [if_pos hzero]
      exact hcopies.trans (UnpackState.eats_copy build pBaseBuf _ hleft)
  · rw [List.length_append, length_stride _ _ _ _ fun x => length_run x size, length_run]
    omega

/-- Without gaps, the runs are one. -/
lemma runsUpTo_dense (n : ℕ) : runsUpTo size size a n = run a n := by
  rw [runsUpTo, stride_run, ← Nat.cast_mul, ← run_add, Nat.div_add_mod']

/-- **A buffer** goes to the next bytes of the typemap. -/
lemma unpackContigIov_spec (hsize : 0 < size) {v : Fragment} {u : UnpackContig}
    (hn : u.bConverted = n) (hfit : n + v.data.length ≤ count * size)
    (hdisp : (size : ℤ) ≠ extent → u.disp₀ + u.disp₁ = (n / size : ℕ) * extent + (n % size : ℕ)) :
    ∃ u' bytes, unpackContigIov build pBaseBuf (count * size) size extent a v u
        = (v.data.length, u') ∧ u'.bConverted = n + v.data.length ∧
      ((size : ℤ) ≠ extent → u'.disp₀ + u'.disp₁
        = ((n + v.data.length) / size : ℕ) * extent + ((n + v.data.length) % size : ℕ)) ∧
      bytes.length = v.data.length ∧ u'.mem = scatter u.mem bytes v.data ∧
      runsUpTo size extent a n ++ bytes = runsUpTo size extent a (n + v.data.length) := by
  have hremaining : (if v.data.length % 2 ^ 32 < count * size - n then v.data.length
      else count * size - n) = v.data.length := by
    have hmod := Nat.mod_le v.data.length (2 ^ 32)
    split_ifs <;> omega
  rw [unpackContigIov, hn]
  dsimp only
  rw [hremaining]
  by_cases hdense : (size : ℤ) = extent
  · subst hdense
    have heats := UnpackState.eats_copy build pBaseBuf (s := ⟨v.base, v.data, u.mem, u.csum⟩)
      (a + n) (n := v.data.length) le_rfl
    refine ⟨_, run (a + n) v.data.length, if_pos rfl, rfl, fun h => absurd rfl h, length_run _ _,
      ?_, ?_⟩
    · have hmem := heats.mem
      rw [length_run] at hmem
      dsimp only at hmem
      rwa [List.take_length] at hmem
    · rw [runsUpTo_dense, runsUpTo_dense, run_add]
  · rw [if_neg hdense, hdisp hdense]
    have hpart : n - n / size * size = n % size := by
      have := Nat.div_add_mod' n size
      omega
    rw [hpart]
    obtain ⟨k, r, s, rest, hrest, bytes, heats, hshort, hk, hlen, hruns⟩ :=
      UnpackState.eats_rest build pBaseBuf extent a hsize (n / size)
        (Nat.mod_lt n hsize) (s := ⟨v.base, v.data, u.mem, u.csum⟩) (le_refl v.data.length)
    rw [hrest]
    dsimp only
    have hleft : rest ≤ s.src.length := by
      rw [heats.src, List.length_drop]
      dsimp only
      omega
    obtain ⟨bytes', s', hpend, heats', hlen', hruns'⟩ :=
      UnpackState.eats_copies_pending build pBaseBuf extent a hsize k hshort hleft
    rw [hpend]
    have hall := heats.trans heats'
    have hlength : (bytes ++ bytes').length = v.data.length := by
      rw [List.length_append]
      omega
    -- where the buffer ends
    have hend : n + v.data.length = (k + rest / size) * size + (r + (rest - rest / size * size)) := by
      have hdm := Nat.div_add_mod' n size
      have hmul : rest / size * size ≤ rest := Nat.div_mul_le_self _ _
      rw [Nat.add_mul]
      omega
    have hlast : r + (rest - rest / size * size) < size := by
      have hdm := Nat.div_add_mod' rest size
      have hm := Nat.mod_lt rest hsize
      omega
    have hdiv : (n + v.data.length) / size = k + rest / size := by
      rw [hend, Nat.add_comm, Nat.add_mul_div_right _ _ hsize, Nat.div_eq_of_lt hlast, Nat.zero_add]
    have hmod : (n + v.data.length) % size = r + (rest - rest / size * size) := by
      rw [hend, Nat.mul_add_mod_self_right, Nat.mod_eq_of_lt hlast]
    refine ⟨_, bytes ++ bytes', rfl, rfl, fun _ => ?_, hlength, ?_, ?_⟩
    · rw [hdiv, hmod]
      push_cast
      ring
    · have hmem := hall.mem
      rw [hlength] at hmem
      dsimp only at hmem
      rwa [List.take_length] at hmem
    · rw [hend, ← hruns', ← hruns, Nat.div_add_mod', List.append_assoc]

/-- All buffers of a call. -/
lemma unpackContigIovs_spec (hsize : 0 < size) {vs : List Fragment} {u : UnpackContig}
    (hn : u.bConverted = n) (hfit : n + (fragData vs).length ≤ count * size)
    (hdisp : (size : ℤ) ≠ extent → u.disp₀ + u.disp₁ = (n / size : ℕ) * extent + (n % size : ℕ)) :
    ∃ u' bytes, unpackContigIovs build pBaseBuf (count * size) size extent a vs u
        = (fragLens vs, u') ∧ u'.bConverted = n + (fragData vs).length ∧
      ((size : ℤ) ≠ extent → u'.disp₀ + u'.disp₁
        = ((n + (fragData vs).length) / size : ℕ) * extent
          + ((n + (fragData vs).length) % size : ℕ)) ∧
      bytes.length = (fragData vs).length ∧ u'.mem = scatter u.mem bytes (fragData vs) ∧
      runsUpTo size extent a n ++ bytes = runsUpTo size extent a (n + (fragData vs).length) := by
  induction vs generalizing n u with
  | nil => exact ⟨u, [], rfl, hn, hdisp, rfl, (scatter_nil _ _).symm, List.append_nil _⟩
  | cons v vs ih =>
      rw [fragData_cons, List.length_append, ← Nat.add_assoc] at hfit ⊢
      obtain ⟨u₁, bs, hiov, hn₁, hdisp₁, hlen, hmem, hruns⟩ :=
        unpackContigIov_spec build pBaseBuf extent a hsize hn ((Nat.le_add_right _ _).trans hfit) hdisp
      obtain ⟨u₂, bs', hiovs, hn₂, hdisp₂, hlen', hmem', hruns'⟩ := ih hn₁ hfit hdisp₁
      refine ⟨u₂, bs ++ bs', ?_, hn₂, hdisp₂, ?_, ?_, ?_⟩
      · rw [unpackContigIovs, hiov]
        dsimp only
        rw [hiovs, fragLens_cons]
      · rw [List.length_append, hlen, hlen']
      · rw [hmem', hmem, scatter_append _ hlen]
      · rw [← List.append_assoc, hruns, hruns']

end Buffer

/-! ### Calls -/

section Calls

variable {conv : Convertor} {size count n : ℕ} {extent a : ℤ} {chk : Build} {fuel : ℕ}

/-- A call of the function. -/
lemma Convertor.ContigAt.unpackHomogeneousContig (h : conv.ContigAt size extent a count n)
    (hfresh : conv.flags.completed = false) (build : Build) (hsize : 0 < size) (mem : ℤ → Byte)
    {iov : List Fragment} (hfit : n + (fragData iov).length ≤ count * size) :
    ∃ r bytes, unpackHomogeneousContig build conv mem iov = some r ∧
      r.conv.ContigInv size extent a count (n + (fragData iov).length) ∧
      bytes.length = (fragData iov).length ∧ r.mem = scatter mem bytes (fragData iov) ∧
      runsUpTo size extent a n ++ bytes = runsUpTo size extent a (n + (fragData iov).length) := by
  obtain ⟨s₁, s₀, hstack, hdisp⟩ := h.stack
  obtain ⟨u, bytes, hiovs, hn, hdisp', hlen, hmem, hruns⟩ := unpackContigIovs_spec build
    conv.pBaseBuf extent a hsize (u := ⟨conv.bConverted, s₀.disp, s₁.disp, mem, conv.csum⟩)
    h.bConverted hfit hdisp
  rw [Ocoms.unpackHomogeneousContig, h.initialDispl, hstack]
  dsimp only [bind, Option.bind_some]
  rw [h.descSize, h.descExtent, h.localSize, hiovs]
  refine ⟨_, bytes, rfl, Convertor.ContigAt.finish ?_ hfresh, hlen, hmem, hruns⟩
  exact ⟨h.noOp, h.advance, h.initialDispl, ⟨_, _, rfl, hdisp'⟩, h.descSize, h.descExtent, rfl, hn,
    hfit⟩

variable (chk fuel) in
/-- **One call** goes on with the typemap. -/
lemma Convertor.ContigInv.convertorUnpack (h : conv.ContigInv size extent a count n)
    (hsize : 0 < size) (mem : ℤ → Byte) {iov : List Fragment}
    (hfit : n + (fragData iov).length ≤ count * size) :
    ∃ r bytes, convertorUnpack chk fuel conv mem iov = some r ∧
      r.conv.ContigInv size extent a count (n + (fragData iov).length) ∧
      bytes.length = (fragData iov).length ∧ r.mem = scatter mem bytes (fragData iov) ∧
      runsUpTo size extent a n ++ bytes = runsUpTo size extent a (n + (fragData iov).length) := by
  by_cases hall : n = count * size
  · -- nothing is left
    have hnil : fragData iov = [] := List.eq_nil_of_length_eq_zero (by omega)
    have hdone := h.completed.mpr hall
    rw [hnil]
    refine ⟨⟨conv, mem, [], 0, 1⟩, [], ?_, h, rfl, (scatter_nil _ _).symm, List.append_nil _⟩
    rw [Ocoms.convertorUnpack, if_pos hdone]
  · have hfresh : conv.flags.completed = false := by
      rw [Bool.eq_false_iff]
      exact fun hc => hall (h.completed.mp hc)
    have hcall : Ocoms.convertorUnpack chk fuel conv mem iov
        = Ocoms.unpackHomogeneousContig (if conv.fAdvanceChecksum then chk else .plain)
            { conv with csum := ⟨0, 0, 0⟩ } mem iov := by
      simp [Ocoms.convertorUnpack, hfresh, h.noOp, h.advance]
    have hat : ({ conv with csum := ⟨0, 0, 0⟩ } : Convertor).ContigAt size extent a count n :=
      ⟨h.noOp, h.advance, h.initialDispl, h.stack, h.descSize, h.descExtent, h.localSize,
        h.bConverted, h.le⟩
    rw [hcall]
    exact hat.unpackHomogeneousContig hfresh _ hsize mem hfit

/-- A completed convertor leaves the memory as it is. -/
lemma unpackCalls_of_completed (h : conv.flags.completed = true) (mem : ℤ → Byte)
    (calls : List (List Fragment)) : unpackCalls chk fuel conv mem calls = some (conv, mem) := by
  induction calls with
  | nil => rfl
  | cons iov calls ih =>
      rw [Ocoms.unpackCalls, convertorUnpack, if_pos h, Option.bind_some]
      exact ih

variable (chk fuel) in
/-- **A sequence of calls** goes on with the typemap. -/
lemma Convertor.ContigInv.unpackCalls (h : conv.ContigInv size extent a count n)
    (hsize : 0 < size) (mem : ℤ → Byte) (calls : List (List Fragment))
    (hfit : n + (fragData calls.flatten).length ≤ count * size) :
    ∃ conv' mem' bytes, unpackCalls chk fuel conv mem calls = some (conv', mem') ∧
      conv'.ContigInv size extent a count (n + (fragData calls.flatten).length) ∧
      bytes.length = (fragData calls.flatten).length ∧
      mem' = scatter mem bytes (fragData calls.flatten) ∧
      runsUpTo size extent a n ++ bytes
        = runsUpTo size extent a (n + (fragData calls.flatten).length) := by
  induction calls generalizing conv n mem with
  | nil => exact ⟨conv, mem, [], rfl, h, rfl, (scatter_nil _ _).symm, List.append_nil _⟩
  | cons iov calls ih =>
      rw [List.flatten_cons, fragData_append, List.length_append, ← Nat.add_assoc] at hfit ⊢
      obtain ⟨r, bs, hcall, hr, hlen, hmem, hruns⟩ :=
        h.convertorUnpack chk fuel hsize mem ((Nat.le_add_right _ _).trans hfit)
      obtain ⟨conv', mem', bs', hcalls, hconv', hlen', hmem', hruns'⟩ := ih hr r.mem hfit
      refine ⟨conv', mem', bs ++ bs', ?_, hconv', ?_, ?_, ?_⟩
      · rw [Ocoms.unpackCalls, hcall, Option.bind_some, hcalls]
      · rw [List.length_append, hlen, hlen']
      · rw [hmem', hmem, scatter_append _ hlen]
      · rw [← List.append_assoc, hruns, hruns']

end Calls

/-! ### The whole stream -/

/-- **Contiguous unpack** stores the stream at the addresses of the typemap and changes no other
address, in whatever way the stream is cut into buffers and calls. -/
theorem contig_unpack {dt : Datatype} {as : List ℤ} (h : Committed dt as)
    (hcont : dt.flags.contiguous = true) {conv₀ conv : Convertor} {count : ℕ} (pUserBuf : ℤ)
    (hconv : conv₀.prepareForRecv dt count pUserBuf = conv) (hno : conv.flags.noOp = false)
    (hadv : conv.fAdvance = .unpackHomogeneousContig) (chk : Build) (fuel : ℕ) (mem : ℤ → Byte)
    (calls : List (List Fragment)) (hall : (fragData calls.flatten).length = count * dt.size) :
    ∃ conv' mem', unpackCalls chk fuel conv mem calls = some (conv', mem') ∧
      conv'.flags.completed = true ∧
      (∀ i a, (copiesMap as count 0 dt.extent)[i]? = some a →
        a ∉ (copiesMap as count 0 dt.extent).drop (i + 1) →
          (fragData calls.flatten)[i]? = some (mem' a)) ∧
      ∀ x, x ∉ copiesMap as count 0 dt.extent → mem' x = mem x := by
  -- the addresses that are written to
  have hreduce : ∀ mem', mem' = scatter mem (copiesMap as count 0 dt.extent) (fragData calls.flatten) →
      (copiesMap as count 0 dt.extent).length = (fragData calls.flatten).length →
      (∀ i a, (copiesMap as count 0 dt.extent)[i]? = some a →
        a ∉ (copiesMap as count 0 dt.extent).drop (i + 1) →
          (fragData calls.flatten)[i]? = some (mem' a)) ∧
      ∀ x, x ∉ copiesMap as count 0 dt.extent → mem' x = mem x := by
    rintro _ rfl hlen
    exact ⟨fun i a hi hlast => getElem?_scatter _ hlen hi hlast,
      fun x hx => scatter_of_notMem _ _ hx⟩
  by_cases hempty : count = 0 ∨ dt.size = 0
  · have hlen : (copiesMap as count 0 dt.extent).length = count * dt.size := by
      rw [h.built.measured.size]
      exact length_stride _ _ _ _ fun x => List.length_map _
    have hzero : count * dt.size = 0 := hempty.elim (fun h => by rw [h, Nat.zero_mul])
      fun h => by rw [h, Nat.mul_zero]
    have hdone : conv.flags.completed = true := by
      rcases Convertor.prepare_cases { conv₀ with flags := { conv₀.flags with recv := true } } dt
        count pUserBuf with ⟨conv', hprep, hflag⟩ | ⟨⟨hcount, hsize⟩, -⟩
      · rw [if_pos hempty] at hflag
        rw [← hconv, Convertor.prepareForRecv, hprep]
        exact hflag
      · exact absurd hempty (not_or.mpr ⟨hcount, hsize⟩)
    have hnil : copiesMap as count 0 dt.extent = [] := List.eq_nil_of_length_eq_zero (by omega)
    refine ⟨conv, mem, unpackCalls_of_completed hdone mem calls, hdone, hreduce mem ?_ ?_⟩
    · rw [hnil, scatter_nil]
    · rw [hlen, hall]
  · obtain ⟨hcount, hsize⟩ := not_or.mp hempty
    obtain ⟨hdesc, hopt⟩ := h.endsAt hcont hsize
    subst hconv
    have hpos : 0 < dt.size := Nat.pos_of_ne_zero hsize
    have hinv := Convertor.contigInv_prepareForRecv hdesc hopt hcount hsize pUserBuf hno hadv
    obtain ⟨conv', mem', bytes, hcalls, hinv', hlen, hmem, hruns⟩ :=
      hinv.unpackCalls chk fuel hpos mem calls (by omega)
    have hbytes : bytes = copiesMap as count 0 dt.extent := by
      have hstart : runsUpTo dt.size dt.extent dt.trueLb 0 = [] := by simp [runsUpTo]
      rw [hstart, List.nil_append, hall, Nat.zero_add, runsUpTo_mul _ _ hpos] at hruns
      rw [h.built.measured.contiguous hcont, copiesMap_of_run, hruns]
    subst hbytes
    refine ⟨conv', mem', hcalls, hinv'.completed.mpr (by omega), hreduce mem' hmem hlen⟩

/-- Two copies of an `INT4` in 8 bytes, of which the second one comes in three pieces. -/
theorem contig_unpack_int4In8 :
    ∃ dt', int4In8.commit = some dt' ∧ ∃ conv' mem',
      unpackCalls .plain 0 ((Convertor.create localArch).prepareForRecv dt' 2 0) (fun _ => 0)
        [[⟨4096, [1, 2, 3, 4, 5]⟩, ⟨8192, [6]⟩], [⟨4096, [7, 8]⟩]] = some (conv', mem') ∧
      conv'.flags.completed = true ∧ mem' 9 = 6 ∧ mem' 4 = 0 := by
  obtain ⟨dt', hcommit, hcont, hextent, hsize, hno, hadv⟩ : ∃ dt', int4In8.commit = some dt' ∧
      dt'.flags.contiguous = true ∧ dt'.extent = 8 ∧ dt'.size = 4 ∧
      ((Convertor.create localArch).prepareForRecv dt' 2 0).flags.noOp = false ∧
      ((Convertor.create localArch).prepareForRecv dt' 2 0).fAdvance = .unpackHomogeneousContig :=
    ⟨_, rfl, rfl, rfl, rfl, rfl, rfl⟩
  obtain ⟨conv', mem', hcalls, hdone, hbytes, hframe⟩ :=
    contig_unpack (.commit built_int4In8 rfl rfl hcommit) hcont 0 rfl hno hadv .plain 0 (fun _ => 0)
      [[⟨4096, [1, 2, 3, 4, 5]⟩, ⟨8192, [6]⟩], [⟨4096, [7, 8]⟩]] (by rw [hsize]; rfl)
  rw [hextent] at hbytes hframe
  have hsix := hbytes 5 9 rfl (by decide)
  exact ⟨dt', hcommit, conv', mem', hcalls, hdone, (Option.some.inj hsix).symm,
    hframe 4 (by decide)⟩

end Ocoms
