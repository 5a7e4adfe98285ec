import Ocoms.Lib.Segments
import Ocoms.Datatype.Unpack

/-!
Unpacking undoes packing.

* `unpackWalker_fills`: the unpack walker writes what the fragment holds, in order.
* `UnpackAt` is the place of an unpack between two fragments: the elements still to come and how
  much of the first is there. `unpackIovs_cons` says that one fragment moves it as the abstract
  receiver `Greedy.receive` does, and writes the fragment to the next addresses of the typemap.
* `Convertor.UnpackInv` is the invariant of a receive convertor between two calls, which
  `Convertor.UnpackInv.unpackCalls` carries through any sequence of them.
* `unpack_undoes_pack_iff` is the theorem about any fragmentation of the packed stream.
-/

namespace Ocoms

open Layout Greedy

/-! ### The walker writes what the fragment holds -/

section Sound

variable (build : Build) (pBaseBuf : ℤ)

/-- The walker has written to the addresses `as`. -/
structure UnpackState.Eats (s : UnpackState) (as : List ℤ) (s' : UnpackState) : Prop where
  length : as.length ≤ s.src.length
  src : s'.src = s.src.drop as.length
  mem : s'.mem = scatter s.mem as (s.src.take as.length)
  csum : build.Copies s.csum (s.src.take as.length) s'.csum

variable {build} in
lemma UnpackState.Eats.refl (s : UnpackState) : s.Eats build [] s :=
  ⟨Nat.zero_le _, rfl, by simp, .nil _⟩

variable {build} in
lemma UnpackState.Eats.trans {s s' s'' : UnpackState} {as bs : List ℤ} (h : s.Eats build as s')
    (h' : s'.Eats build bs s'') : s.Eats build (as ++ bs) s'' := by
  have hlen : bs.length ≤ s.src.length - as.length := by
    have := h'.length
    rwa [h.src, List.length_drop] at this
  have htake : s.src.take (as ++ bs).length = s.src.take as.length ++ s'.src.take bs.length := by
    rw [List.length_append, List.take_add, h.src]
  have htl : as.length = (s.src.take as.length).length := by
    rw [List.length_take, Nat.min_eq_left h.length]
  refine ⟨?_, ?_, ?_, ?_⟩
  · have := h.length
    rw [List.length_append]
    omega
  · rw [h'.src, h.src, List.drop_drop, List.length_append]
  · rw [h'.mem, h.mem, htake, scatter_append _ htl]
  · rw [htake]
    exact h.csum.append h'.csum

lemma UnpackState.eats_copy {s : UnpackState} (dest : ℤ) {n : ℕ} (h : n ≤ s.src.length) :
    s.Eats build (run dest n) (s.copy build pBaseBuf dest n) := by
  refine ⟨by rwa [length_run], by rw [length_run]; rfl, by rw [length_run]; rfl, ?_⟩
  rw [length_run]
  exact .one build _ _ _ _

lemma UnpackState.eats_copies {s : UnpackState} (extent : ℤ) (len n : ℕ) (dest : ℤ)
    (h : n * len ≤ s.src.length) :
    s.Eats build (stride n extent (fun x => run x len) dest)
      (s.copies build pBaseBuf extent len n dest) := by
  induction n generalizing s dest with
  | zero => exact .refl s
  | succ n ih =>
      have hlen : n * len + len ≤ s.src.length := by rwa [← Nat.add_one_mul]
      have hcopy := s.eats_copy build pBaseBuf dest
        (Nat.le_of_add_left_le hlen)
      refine hcopy.trans (ih (dest + extent) ?_)
      rw [hcopy.src, List.length_drop, length_run]
      omega

lemma unpackPredefinedData_spec (e : ElemDesc) (count : ℕ) (base : ℤ) (s : UnpackState)
    (hsize : 0 < basicSize e.type) :
    ∃ m s', m ≤ count ∧
      unpackPredefinedData build pBaseBuf e count base s = (count - m, base + m * e.extent, s') ∧
      s.Eats build (blocksBytes (elemBlocks e m base)) s' ∧
      (m < count → s'.src.length < basicSize e.type) := by
  obtain ⟨hle, hfits, hstop⟩ := fitCount_spec hsize
  set m := if s.src.length < count * basicSize e.type then s.src.length / basicSize e.type
    else count with hm
  have hstops : ∀ s' : UnpackState, s.Eats build (blocksBytes (elemBlocks e m base)) s' →
      m < count → s'.src.length < basicSize e.type := by
    intro s' he hlt
    have hlt := hstop hlt
    rw [he.src, List.length_drop, length_blocksBytes_elemBlocks]
    rw [Nat.add_one_mul] at hlt
    omega
  by_cases h0 : s.src.length < count * basicSize e.type ∧ m = 0
  · refine ⟨m, s, hle, ?_, ?_, hstops s ?_⟩
    · rw [unpackPredefinedData, if_pos h0, h0.2]
      simp
    · rw [h0.2]
      exact .refl s
    · rw [h0.2]
      exact .refl s
  · by_cases hdense : (basicSize e.type : ℤ) = e.extent
    · have heats := s.eats_copy build pBaseBuf
        (base + e.disp) (n := basicSize e.type * m) (by rwa [Nat.mul_comm])
      rw [Nat.mul_comm, ← blocksBytes_elemBlocks_dense hdense, Nat.mul_comm] at heats
      refine ⟨m, _, hle, ?_, heats, hstops _ heats⟩
      have hcast : ((basicSize e.type * m : ℕ) : ℤ) = m * basicSize e.type := by
        rw [Nat.cast_mul, mul_comm]
      rw [unpackPredefinedData, if_neg h0, if_pos hdense, ← hdense, ← hcast]
    · have heats := s.eats_copies build pBaseBuf e.extent
        (basicSize e.type) m (base + e.disp) hfits
      rw [← blocksBytes_elemBlocks] at heats
      refine ⟨m, _, hle, ?_, heats, hstops _ heats⟩
      rw [unpackPredefinedData, if_neg h0, if_neg hdense]

/-- **The unpack walker is sound**: it writes elements and passes in order, and stops where the
fragment does not hold the next element. -/
lemma unpackWalker_fills :
    (unpackWalker build pBaseBuf).Fills (UnpackState.Eats build) fun s => s.src.length where
  sound :=
    { refl := .refl
      trans := .trans
      data := fun e count base s _ hsize =>
        unpackPredefinedData_spec build pBaseBuf e count base s hsize
      contig := fun l e count base s _ hsize => by
        obtain ⟨hle, hfits, -⟩ := fitCount_spec hsize
        refine ⟨_, _, hle, rfl, ?_⟩
        rw [← stride_add_right _ _ e.firstElemDisp (fun x => run x e.size)]
        exact s.eats_copies build pBaseBuf _ _ _ _ hfits }
  space_eq := fun {s s' as} h => by
    have := h.length
    rw [h.src, List.length_drop]
    omega

end Sound

/-! ### One fragment -/

section Fragment

variable {build : Build} {pBaseBuf : ℤ} {D : Nest} {fake : EndLoopDesc} {extent : ℤ} {bound : ℕ}

/-- The place of an unpack between two fragments: the elements `rem` are to come, and `k` bytes of
the first are there. -/
structure UnpackAt (D : Nest) (fake : EndLoopDesc) (extent : ℤ) (bound : ℕ) (c : Cursor) (k : ℕ)
    (rem : List Block) : Prop where
  within : Within Block.len partialBufferLength rem k
  place : ∃ z, Stands D fake z c ∧ z.ticks D c.count ≤ bound ∧
    z.remaining D extent c.count c.base = rem ∧ (k ≠ 0 → ∃ e code, z.code = .elem e code)

/-- The first block at an element. -/
lemma Represents.remaining_elem_head {z : Zip} {c : Cursor} (h : Represents D fake z c)
    {e : ElemDesc} {code : Nest} (hcode : z.code = .elem e code) :
    ∃ n, c.count = n + 1 ∧ z.remaining D extent c.count c.base
      = ⟨e.type, c.base + e.disp⟩ :: z.remaining D extent n (c.base + e.extent) := by
  obtain ⟨n, hn⟩ := Nat.exists_eq_succ_of_ne_zero (h.count (by simp [hcode])).ne'
  refine ⟨n, hn, ?_⟩
  rw [Zip.remaining, Zip.remaining, hcode, headBlocks, headBlocks, hn, elemBlocks_succ]
  rfl

lemma Represents.getElem?_elem {z : Zip} {c : Cursor} (h : Represents D fake z c)
    {e : ElemDesc} {code : Nest} (hcode : z.code = .elem e code) :
    (D.desc fake)[c.pos]? = some (.elem e) := by
  have hpos := h.pos
  rw [hcode] at hpos
  exact getElem?_of_drop hpos

/-- The first part of an element stays within the buffer it came in. -/
lemma unpackLeftover_spec {z : Zip} {c : Cursor} (h : Represents D fake z c) {e : ElemDesc}
    {code : Nest} (hcode : z.code = .elem e code) (s : UnpackState)
    (hlen : s.src.length < basicSize e.type) :
    (s.src.length ≠ 0 ∧ partialBufferLength < basicSize e.type ∧
        unpackLeftover build pBaseBuf (D.desc fake) c s = none) ∨
      (s.src.length ≠ 0 → basicSize e.type ≤ partialBufferLength) ∧
        ∃ csum', unpackLeftover build pBaseBuf (D.desc fake) c s
          = some (s.src.length, scatter s.mem (run (c.base + e.disp) s.src.length) s.src, csum') := by
  rw [unpackLeftover]
  by_cases h0 : s.src.length = 0
  · refine Or.inr ⟨fun hn => absurd h0 hn, s.csum, ?_⟩
    rw [if_pos h0, h0, run_zero, scatter_nil]
  · rw [if_neg h0, h.getElem?_elem hcode]
    by_cases hlim : partialBufferLength < basicSize e.type
    · refine Or.inl ⟨h0, hlim, ?_⟩
      simp [unpackPartialDatatype, hlim]
    · have hle : s.src.length - 0 ≤ s.src.length := Nat.sub_le _ _
      obtain ⟨csum', hp⟩ := unpackPartialDatatype_spec build pBaseBuf (e := e)
        c.base s.mem (build.computeCsum s.source s.src s.csum)
        (not_lt.mp hlim) (Nat.zero_le s.src.length) hlen.le hle
      refine Or.inr ⟨fun _ => not_lt.mp hlim, csum', ?_⟩
      simp only [hp, Option.bind_eq_bind, Option.bind_some, Nat.cast_zero, add_zero, Nat.sub_zero,
        List.take_length]
      rfl

variable (build pBaseBuf) in
/-- The rest of an element that the last buffer ended in. -/
lemma unpackMissing_spec {c : Cursor} {k : ℕ} {y : Block} {ys : List Block}
    (h : UnpackAt D fake extent bound c k (y :: ys)) (hk : k ≠ 0) (v : Fragment)
    (mem : ℤ → Byte) (csum : Csum) :
    (v.data.length < y.len - k ∧
        unpackMissing build pBaseBuf (D.desc fake) v c k mem csum = none) ∨
      y.len - k ≤ v.data.length ∧ ∃ c' csum',
        unpackMissing build pBaseBuf (D.desc fake) v c k mem csum
          = some (c', ⟨v.base + (y.len - k : ℕ), v.data.drop (y.len - k),
              scatter mem (y.bytes.drop k) (v.data.take (y.len - k)), csum'⟩) ∧
        UnpackAt D fake extent bound c' 0 ys := by
  obtain ⟨hwithin, z, hst, hticks, hrem, hcode⟩ := h
  obtain ⟨e, code, hcode⟩ := hcode hk
  obtain h0 | ⟨y', ys', hy, hky, hlim⟩ := hwithin
  · exact absurd h0 hk
  obtain ⟨rfl, rfl⟩ := List.cons.inj hy
  obtain ⟨n, hn, hhead⟩ := hst.remaining_elem_head hcode
  obtain ⟨rfl, hys⟩ := List.cons.inj (hrem.symm.trans hhead)
  have hlen : (Block.mk e.type (c.base + e.disp)).len = basicSize e.type := rfl
  rw [hlen] at hky hlim ⊢
  rw [unpackMissing, if_neg hk, hst.getElem?_elem hcode]
  by_cases hlt : v.data.length < basicSize e.type - k
  · refine Or.inl ⟨hlt, ?_⟩
    simp [unpackPartialDatatype, hlt]
  · obtain ⟨csum', hp⟩ := unpackPartialDatatype_spec build pBaseBuf (e := e)
      c.base mem
      (build.computeCsum v.base (v.data.take (basicSize e.type - k)) csum) hlim hky.le le_rfl
      (not_lt.mp hlt)
    refine Or.inr ⟨not_lt.mp hlt, ?_⟩
    have hbytes : (Block.mk e.type (c.base + e.disp)).bytes.drop k
        = run (c.base + e.disp + k) (basicSize e.type - k) := drop_run _ hky.le
    obtain ⟨c', hc', hplace⟩ : ∃ c', c.pastElem (D.desc fake) (c.base + e.extent) = some c' ∧
        UnpackAt D fake extent bound c' 0 ys := by
      rw [Cursor.pastElem]
      have hn' : c.count - 1 = n := by omega
      rw [hn']
      by_cases h0 : n = 0
      · rw [if_pos h0]
        have hpos := hst.pos
        rw [hcode] at hpos
        obtain ⟨c', hc', hf⟩ := hst.enterAt_rest (hereditary_wf.elem (hcode ▸ hst.wf.code))
          (drop_succ_of_drop hpos)
        have hnext : z.remaining D extent c.count c.base = [⟨e.type, c.base + e.disp⟩]
            ++ ({ z with code } : Zip).remaining D extent c'.count c'.base := by
          rw [hhead, hf.remaining_eq, Zip.remaining_headCount, h0, Zip.remaining, hcode, headBlocks,
            elemBlocks_zero]
          rfl
        refine ⟨c', hc', Or.inl rfl, { z with code }, ⟨hf.toRepresents,
          ⟨hst.wf.top, hst.wf.frames, hereditary_wf.elem (hcode ▸ hst.wf.code)⟩,
          ⟨hst.ends.top, hst.ends.frames, hereditary_matches.elem (hcode ▸ hst.ends.code)⟩,
          (Zip.current_suffix hnext rfl rfl).trans hst.current⟩,
          ?_, ?_, fun h => absurd rfl h⟩
        · rw [hf.ticks_eq, Zip.ticks_headCount]
          rw [Zip.ticks, hcode, headTicks] at hticks
          simp only
          omega
        · rw [hrem] at hnext
          exact (List.cons.inj hnext).2.symm
      · rw [if_neg h0]
        have hnext : z.remaining D extent c.count c.base = [⟨e.type, c.base + e.disp⟩]
            ++ z.remaining D extent n (c.base + e.extent) := hhead
        refine ⟨_, rfl, Or.inl rfl, z, ⟨⟨hst.stack, hst.pos, fun _ => Nat.pos_of_ne_zero h0, ?_⟩,
          hst.wf, hst.ends, (Zip.current_suffix hnext rfl rfl).trans hst.current⟩, ?_, hys.symm,
          fun h => absurd rfl h⟩
        · simp [hcode]
        · rw [Zip.ticks, hcode, headTicks] at hticks ⊢
          exact hticks
    refine ⟨c', csum', ?_, hplace⟩
    simp only [hp, Option.bind_eq_bind, Option.bind_some, hc', hbytes]
    rfl

variable (build pBaseBuf) in
/-- The walk over one fragment that starts with a new element, and what is left of it. -/
lemma unpackSettle_spec {c : Cursor} {rem : List Block} (h : UnpackAt D fake extent bound c 0 rem)
    {fuel : ℕ} (hfuel : bound < fuel) (s : UnpackState)
    (hn : s.src.length ≤ weight Block.len rem) :
    (settle Block.len partialBufferLength s.src.length rem = none ∧ ∃ c' s',
        walk (unpackWalker build pBaseBuf) (D.desc fake) extent fuel c s = some (.suspend c' s') ∧
        unpackLeftover build pBaseBuf (D.desc fake) c' s' = none) ∨
      (settle Block.len partialBufferLength s.src.length rem = some ([], 0) ∧ ∃ c' s',
        walk (unpackWalker build pBaseBuf) (D.desc fake) extent fuel c s = some (.complete c' s') ∧
        s'.src = [] ∧
        s'.mem = scatter s.mem ((blocksBytes rem).take s.src.length) s.src) ∨
      ∃ rem' k' c' s' csum', settle Block.len partialBufferLength s.src.length rem
          = some (rem', k') ∧ rem' ≠ [] ∧
        walk (unpackWalker build pBaseBuf) (D.desc fake) extent fuel c s = some (.suspend c' s') ∧
        unpackLeftover build pBaseBuf (D.desc fake) c' s'
          = some (k', scatter s.mem ((blocksBytes rem).take s.src.length) s.src, csum') ∧
        UnpackAt D fake extent bound c' k' rem' := by
  obtain ⟨-, z, hst, hticks, hrem, -⟩ := h
  have hsplit := fit_append_rest Block.len s.src.length rem
  have hle := weight_fit_le Block.len s.src.length rem
  obtain ⟨c', s', he, ⟨hrest, hw⟩ | ⟨hrest, hw, z', e, code, hst', hcode, hticks', hrem'⟩⟩ :=
    walk_fit (unpackWalker_fills build pBaseBuf) hst
      (hticks.trans_lt hfuel) hrem s
  · -- everything is through
    rw [hrest, List.append_nil] at hsplit
    rw [hsplit] at he hle
    have hlen : s.src.length = (blocksBytes rem).length := by
      rw [length_blocksBytes]
      omega
    refine Or.inr (Or.inl ⟨by rw [settle, hrest], c', s', hw, ?_, ?_⟩)
    · rw [he.src, ← hlen, List.drop_length]
    · rw [he.mem, ← hlen, List.take_length, hlen, List.take_length]
  · -- the walk stopped at the element `y`
    obtain ⟨n, hn', hhead⟩ := hst'.remaining_elem_head hcode
    set y : Block := ⟨e.type, c'.base + e.disp⟩ with hy
    set ys := z'.remaining D extent n (c'.base + e.extent) with hys
    have hys' : rest Block.len s.src.length rem = y :: ys := hrem'.symm.trans hhead
    have hspace := (unpackWalker_fills build pBaseBuf).space_eq he
    rw [length_blocksBytes] at hspace
    have hleft : s.src.length - weight Block.len (fit Block.len s.src.length rem)
        = s'.src.length := by omega
    have hfits : s'.src.length < y.len := by
      have hlt := lt_of_rest_eq_cons Block.len hys'
      omega
    have hset : settle Block.len partialBufferLength s.src.length rem
        = if s'.src.length = 0 then some (y :: ys, 0)
          else if partialBufferLength < y.len then none else some (y :: ys, s'.src.length) := by
      rw [settle, hys']
      simp only [hleft]
    rcases unpackLeftover_spec hst'.toRepresents hcode s'
        hfits with ⟨h0, hlim, hnone⟩ | ⟨hlim, csum', hsome⟩
    · exact Or.inl ⟨by rw [hset, if_neg h0]; exact if_pos hlim, c', s', hw, hnone⟩
    · have hset' : settle Block.len partialBufferLength s.src.length rem
          = some (y :: ys, s'.src.length) := by
        rw [hset]
        split_ifs with h0 hbig
        · rw [h0]
        · exact absurd (hlim h0) (not_le.mpr hbig)
        · rfl
      have hmem : scatter s'.mem (run (c'.base + e.disp) s'.src.length) s'.src
          = scatter s.mem ((blocksBytes rem).take s.src.length) s.src := by
        set as := blocksBytes (fit Block.len s.src.length rem) with has
        have hn : s.src.length = as.length + s'.src.length := by
          rw [has, length_blocksBytes]
          exact hspace
        have htake : (blocksBytes rem).take s.src.length
            = as ++ run (c'.base + e.disp) s'.src.length := by
          have hcut : blocksBytes rem = as ++ (run y.disp y.len ++ blocksBytes ys) := by
            conv_lhs => rw [← hsplit, hys']
            rw [blocksBytes_append, blocksBytes_cons]
            rfl
          rw [hcut, hn, List.take_length_add_append,
            List.take_append_of_le_length (by rw [length_run]; exact hfits.le), take_run _ hfits.le]
        have hsrc : s.src = s.src.take as.length ++ s'.src := by rw [he.src, List.take_append_drop]
        have htl : as.length = (s.src.take as.length).length := by
          rw [List.length_take]
          omega
        rw [htake, he.mem]
        conv_rhs => rw [hsrc]
        exact (scatter_append _ htl).symm
      refine Or.inr (Or.inr ⟨y :: ys, s'.src.length, c', s', csum', hset', List.cons_ne_nil _ _, hw,
        by rw [← hmem]; exact hsome, ?_, z', hst', hticks'.trans hticks, hhead,
        fun _ => ⟨e, code, hcode⟩⟩)
      by_cases h0 : s'.src.length = 0
      · exact Or.inl h0
      · exact Or.inr ⟨y, ys, rfl, hfits, hlim h0⟩

/-- One fragment goes through the loop over the buffers. -/
inductive UnpackIovStep (build : Build) (pBaseBuf : ℤ) (D : Nest) (fake : EndLoopDesc) (extent : ℤ)
    (bound fuel : ℕ) (c : Cursor) (k : ℕ) (rem : List Block) (v : Fragment) (mem : ℤ → Byte)
    (csum : Csum) : Prop
  | fails : receive Block.len partialBufferLength v.data.length rem k = none →
      (∀ vs, unpackIovs build pBaseBuf (D.desc fake) extent fuel (v :: vs) c k mem csum = none) →
      UnpackIovStep build pBaseBuf D fake extent bound fuel c k rem v mem csum
  | completes (c' : Cursor) (csum' : Csum) :
      receive Block.len partialBufferLength v.data.length rem k = some ([], 0) →
      (∀ vs, unpackIovs build pBaseBuf (D.desc fake) extent fuel (v :: vs) c k mem csum
        = some ⟨[v.data.length], c', 0,
            scatter mem (((blocksBytes rem).drop k).take v.data.length) v.data, csum'⟩) →
      UnpackIovStep build pBaseBuf D fake extent bound fuel c k rem v mem csum
  | continues (rem' : List Block) (k' : ℕ) (c' : Cursor) (csum' : Csum) :
      receive Block.len partialBufferLength v.data.length rem k = some (rem', k') →
      rem' ≠ [] → UnpackAt D fake extent bound c' k' rem' →
      (∀ vs, unpackIovs build pBaseBuf (D.desc fake) extent fuel (v :: vs) c k mem csum
        = (unpackIovs build pBaseBuf (D.desc fake) extent fuel vs c' k'
            (scatter mem (((blocksBytes rem).drop k).take v.data.length) v.data) csum').map
            fun w => { w with lens := v.data.length :: w.lens }) →
      UnpackIovStep build pBaseBuf D fake extent bound fuel c k rem v mem csum

/-- The loop body, when the start of the fragment is done with. -/
lemma unpackIovs_cons_of_missing {c c₁ : Cursor} {k : ℕ} {rem₁ : List Block} {v : Fragment}
    {s : UnpackState} {mem : ℤ → Byte} {csum : Csum} {fuel : ℕ} (hfuel : bound < fuel)
    (hmiss : unpackMissing build pBaseBuf (D.desc fake) v c k mem csum = some (c₁, s))
    (h₁ : UnpackAt D fake extent bound c₁ 0 rem₁) {rem : List Block}
    (hn : s.src.length ≤ weight Block.len rem₁)
    (hrec : receive Block.len partialBufferLength v.data.length rem k
      = settle Block.len partialBufferLength s.src.length rem₁)
    (hmem : scatter s.mem ((blocksBytes rem₁).take s.src.length) s.src
      = scatter mem (((blocksBytes rem).drop k).take v.data.length) v.data) :
    UnpackIovStep build pBaseBuf D fake extent bound fuel c k rem v mem csum := by
  rcases unpackSettle_spec build pBaseBuf h₁ hfuel s hn with
    ⟨hset, c', s', hw, hleft⟩ | ⟨hset, c', s', hw, hnil, hmem'⟩ |
      ⟨rem', k', c', s', csum', hset, hne, hw, hleft, h'⟩
  · refine .fails (hrec.trans hset) fun vs => ?_
    simp only [unpackIovs, hmiss, hw, hleft, Option.bind_eq_bind, Option.bind_some,
      Option.bind_none]
  · refine .completes c' s'.csum (hrec.trans hset) fun vs => ?_
    simp only [unpackIovs, hmiss, hw, Option.bind_eq_bind, Option.bind_some, hnil, hmem', hmem,
      List.length_nil, Nat.sub_zero]
  · refine .continues rem' k' c' csum' (hrec.trans hset) hne h' fun vs => ?_
    rw [hmem] at hleft
    simp only [unpackIovs, hmiss, hw, hleft, Option.bind_eq_bind, Option.bind_some]
    cases unpackIovs build pBaseBuf (D.desc fake) extent fuel vs c' k' _ csum' <;> rfl

/-- **One fragment** moves the place as the abstract receiver does, and is written to the next
addresses of the typemap. -/
lemma unpackIovs_cons {c : Cursor} {k : ℕ} {rem : List Block}
    (h : UnpackAt D fake extent bound c k rem) {fuel : ℕ} (hfuel : bound < fuel) (v : Fragment)
    (hn : k + v.data.length ≤ weight Block.len rem) (mem : ℤ → Byte) (csum : Csum) :
    UnpackIovStep build pBaseBuf D fake extent bound fuel c k rem v mem csum := by
  by_cases hk : k = 0
  · subst hk
    have hmiss : unpackMissing build pBaseBuf (D.desc fake) v c 0 mem csum
        = some (c, ⟨v.base, v.data, mem, csum⟩) := by rw [unpackMissing, if_pos rfl]
    refine unpackIovs_cons_of_missing hfuel hmiss h (by simpa using hn) (receive_zero _ _) ?_
    rw [List.drop_zero]
  · obtain ⟨y, ys, rfl, hky, -⟩ := h.within.resolve_left hk
    rw [weight_cons] at hn
    rcases unpackMissing_spec build pBaseBuf h hk v mem csum with
      ⟨hlt, hnone⟩ | ⟨hge, c₁, csum₁, hsome, h₁⟩
    · refine .fails (by rw [receive_cons hk, if_pos hlt]) fun vs => ?_
      simp only [unpackIovs, hnone, Option.bind_eq_bind, Option.bind_none]
    · refine unpackIovs_cons_of_missing hfuel hsome h₁ (by rw [List.length_drop]; omega) ?_ ?_
      · rw [receive_cons hk, if_neg (not_lt.mpr hge), List.length_drop]
      · have hdl : (y.bytes.drop k).length = y.len - k := by
          rw [List.length_drop, Block.length_bytes]
        have htake : ((blocksBytes (y :: ys)).drop k).take v.data.length
            = y.bytes.drop k ++ (blocksBytes ys).take (v.data.length - (y.len - k)) := by
          rw [blocksBytes_cons, List.drop_append_of_le_length
            (by rw [Block.length_bytes]; exact hky.le), List.take_append,
            List.take_of_length_le (by rw [hdl]; exact hge), hdl]
        rw [htake, List.length_drop, ← scatter_append _ (by
          rw [hdl, List.length_take, Nat.min_eq_left hge]), List.take_append_drop]

/-- The lengths of a sequence of fragments. -/
def fragLens (vs : List Fragment) : List ℕ := vs.map fun v => v.data.length

/-- Their data. -/
def fragData (vs : List Fragment) : List Byte := vs.flatMap Fragment.data

@[simp] lemma fragLens_nil : fragLens [] = [] := rfl

@[simp] lemma fragLens_cons (v : Fragment) (vs : List Fragment) :
    fragLens (v :: vs) = v.data.length :: fragLens vs := rfl

@[simp] lemma fragData_nil : fragData [] = [] := rfl

@[simp] lemma fragData_cons (v : Fragment) (vs : List Fragment) :
    fragData (v :: vs) = v.data ++ fragData vs := rfl

lemma fragLens_append (us vs : List Fragment) :
    fragLens (us ++ vs) = fragLens us ++ fragLens vs := List.map_append

lemma fragData_append (us vs : List Fragment) :
    fragData (us ++ vs) = fragData us ++ fragData vs := List.flatMap_append

lemma length_fragData (vs : List Fragment) : (fragData vs).length = (fragLens vs).sum := by
  induction vs with
  | nil => rfl
  | cons v vs ih => simp [ih]

lemma fragLens_pos {vs : List Fragment} (h : ∀ v ∈ vs, v.data ≠ []) : ∀ n ∈ fragLens vs, 0 < n := by
  intro n hn
  obtain ⟨v, hv, rfl⟩ := List.mem_map.mp hn
  exact List.length_pos_of_ne_nil (h v hv)

lemma eq_nil_of_sum_fragLens {vs : List Fragment} (h : ∀ v ∈ vs, v.data ≠ [])
    (hsum : (fragLens vs).sum = 0) : vs = [] := by
  cases vs with
  | nil => rfl
  | cons v vs =>
      have := List.length_pos_of_ne_nil (h v (by simp))
      rw [fragLens_cons, List.sum_cons] at hsum
      omega

/-- The addresses behind a segment. -/
lemma drop_blocksBytes {as : List Block} (rem' : List Block) {k k' n : ℕ}
    (hw : weight Block.len as + k' = k + n) :
    ((blocksBytes (as ++ rem')).drop k).drop n = (blocksBytes rem').drop k' := by
  rw [List.drop_drop, ← hw, blocksBytes_append, ← length_blocksBytes, List.drop_append]
  simp

/-- Two segments of addresses, written one after the other. -/
lemma scatter_segments (mem : ℤ → Byte) (as : List ℤ) (bs bs' : List Byte)
    (h : bs.length ≤ as.length) :
    scatter (scatter mem (as.take bs.length) bs) ((as.drop bs.length).take bs'.length) bs'
      = scatter mem (as.take (bs ++ bs').length) (bs ++ bs') := by
  rw [List.length_append, List.take_add, scatter_append]
  rw [List.length_take, Nat.min_eq_left h]

variable (build pBaseBuf) in
/-- **The loop over the buffers** does with them what the abstract receiver does. -/
lemma unpackIovs_spec {c : Cursor} {k : ℕ} {rem : List Block}
    (h : UnpackAt D fake extent bound c k rem) (hne : rem ≠ []) {fuel : ℕ} (hfuel : bound < fuel)
    (vs : List Fragment) (hvs : ∀ v ∈ vs, v.data ≠ [])
    (hn : k + (fragLens vs).sum ≤ weight Block.len rem) (mem : ℤ → Byte) (csum : Csum) :
    (receiveAll Block.len partialBufferLength (fragLens vs) rem k = none ∧
        unpackIovs build pBaseBuf (D.desc fake) extent fuel vs c k mem csum = none) ∨
      ∃ as rem' k' c' csum', rem = as ++ rem' ∧
        weight Block.len as + k' = k + (fragLens vs).sum ∧
        receiveAll Block.len partialBufferLength (fragLens vs) rem k = some (rem', k') ∧
        unpackIovs build pBaseBuf (D.desc fake) extent fuel vs c k mem csum
          = some ⟨fragLens vs, c', k',
              scatter mem (((blocksBytes rem).drop k).take (fragData vs).length) (fragData vs),
              csum'⟩ ∧
        (rem' = [] → k' = 0) ∧ (rem' ≠ [] → UnpackAt D fake extent bound c' k' rem') := by
  induction vs generalizing c k rem mem csum with
  | nil =>
      exact Or.inr ⟨[], rem, k, c, csum, rfl, by simp, rfl, by simp [unpackIovs],
        fun h0 => absurd h0 hne, fun _ => h⟩
  | cons v vs ih =>
      rw [fragLens_cons, List.sum_cons] at hn
      have hlen : v.data.length ≤ ((blocksBytes rem).drop k).length := by
        rw [List.length_drop, length_blocksBytes]
        omega
      have hrec := receive_spec (w := Block.len) (n := v.data.length) h.within (by omega)
      rcases unpackIovs_cons h hfuel v (by omega) mem csum
        with ⟨hr, hu⟩ | ⟨c', csum', hr, hu⟩ | ⟨rem₁, k₁, c₁, csum₁, hr, hne₁, h₁, hu⟩
      · exact Or.inl ⟨by rw [fragLens_cons, receiveAll, hr, Option.bind_none], hu vs⟩
      · -- the last copy is through, so this was the last buffer
        obtain ⟨as, rem', k', hr', rfl, hw, -, -⟩ | ⟨hr', -⟩ := hrec
        · obtain ⟨rfl, rfl⟩ := Prod.mk.inj (Option.some.inj (hr'.symm.trans hr))
          rw [List.append_nil] at hn
          obtain rfl : vs = [] := eq_nil_of_sum_fragLens (fun u hu => hvs u (by simp [hu])) (by omega)
          refine Or.inr ⟨as, [], 0, c', csum', rfl, by simpa using hw, ?_, ?_, fun _ => rfl,
            fun h0 => absurd rfl h0⟩
          · rw [fragLens_cons, receiveAll, hr]
            rfl
          · rw [hu, fragData_cons, fragData_nil, List.append_nil v.data, fragLens_cons, fragLens_nil]
        · rw [hr] at hr'
          cases hr'
      · obtain ⟨as, rem', k', hr', rfl, hw, -, -⟩ | ⟨hr', -⟩ := hrec
        · obtain ⟨rfl, rfl⟩ := Prod.mk.inj (Option.some.inj (hr'.symm.trans hr))
          have hdrop := drop_blocksBytes rem' hw
          rw [weight_append] at hn
          rcases ih h₁ hne₁ (fun u hu => hvs u (by simp [hu])) (by omega) _ csum₁ with
            ⟨hr₂, hu₂⟩ | ⟨as₂, rem₂, k₂, c₂, csum₂, rfl, hw₂, hr₂, hu₂, hz, h₂⟩
          · refine Or.inl ⟨by rw [fragLens_cons, receiveAll, hr]; exact hr₂, ?_⟩
            rw [hu, hu₂, Option.map_none]
          · refine Or.inr ⟨as ++ as₂, rem₂, k₂, c₂, csum₂, (List.append_assoc _ _ _).symm, ?_,
              by rw [fragLens_cons, receiveAll, hr]; exact hr₂, ?_, hz, h₂⟩
            · rw [weight_append, fragLens_cons, List.sum_cons]
              omega
            · rw [hu, hu₂, ← hdrop, scatter_segments _ _ _ _ hlen]
              rfl
        · rw [hr] at hr'
          cases hr'

end Fragment

/-! ### Sequences of calls -/

/-- A convertor that is set up to receive `count` copies of the description `D`. -/
structure Convertor.ReceivePrepared (D : Nest) (fake : EndLoopDesc) (count : ℕ) (conv : Convertor) :
    Prop extends conv.Prepared D fake count where
  remoteSize : conv.remoteSize = conv.localSize
  partialLength : conv.partialLength = 0
  advance : conv.fAdvance = .genericSimpleUnpack

/-- The invariant of a receive convertor: `k` bytes of the first of the elements `rem` are there,
and nothing of the others. -/
structure Convertor.UnpackInv (D : Nest) (fake : EndLoopDesc) (bound : ℕ) (conv : Convertor)
    (k : ℕ) (rem : List Block) : Prop where
  desc : conv.useDesc.desc = D.desc fake
  noOp : conv.flags.noOp = false
  advance : conv.fAdvance = .genericSimpleUnpack
  partialLength : conv.partialLength = k
  remoteSize : conv.bConverted + weight Block.len rem = conv.remoteSize + k
  completed : conv.flags.completed = true ↔ rem = []
  pending : rem ≠ [] → ∃ c, conv.stack = c.save ∧
    UnpackAt D fake conv.pDesc.extent bound c k rem

/-- A sequence of `ocoms_convertor_unpack` calls. -/
def unpackCalls (chk : Build) (fuel : ℕ) :
    Convertor → (ℤ → Byte) → List (List Fragment) → Option (Convertor × (ℤ → Byte))
  | conv, mem, [] => some (conv, mem)
  | conv, mem, iov :: calls =>
      (convertorUnpack chk fuel conv mem iov).bind fun r => unpackCalls chk fuel r.conv r.mem calls

section Run

variable {chk : Build} {fuel : ℕ} {D : Nest} {fake : EndLoopDesc} {bound : ℕ} {conv : Convertor}

lemma Convertor.ReceivePrepared.unpackInv {count : ℕ} (hD : D.Valid)
    (h : conv.ReceivePrepared D fake count) :
    conv.UnpackInv D fake (count * (D.ticks + 1)) 0
      (stride count conv.pDesc.extent D.blocks 0) := by
  have hinv := h.genericInv hD
  refine ⟨h.desc, h.noOp, h.advance, h.partialLength, ?_, hinv.completed, fun hne => ?_⟩
  · rw [h.bConverted, h.remoteSize, hinv.localSize, List.nil_append, Nat.zero_add, Nat.add_zero]
  · obtain ⟨z, c, hstack, hst, hticks, hrem⟩ := hinv.pending hne
    exact ⟨c, hstack, Or.inl rfl, z, hst, hticks, hrem, fun h0 => absurd rfl h0⟩

/-- A call on a generic receive convertor. -/
lemma convertorUnpack_generic (hno : conv.flags.noOp = false)
    (hcomp : conv.flags.completed = false) (hadv : conv.fAdvance = .genericSimpleUnpack)
    (mem : ℤ → Byte) (iov : List Fragment) :
    convertorUnpack chk fuel conv mem iov
      = genericSimpleUnpack (if conv.fAdvanceChecksum then chk else .plain) fuel
          { conv with csum := ⟨0, 0, 0⟩ } mem iov := by
  simp [convertorUnpack, hno, hcomp, hadv]

/-- The end of a call that leaves `k'` bytes of the first of the elements `rem'`. -/
lemma Convertor.UnpackInv.leave {k n k' : ℕ} {as rem' : List Block}
    (h : conv.UnpackInv D fake bound k (as ++ rem')) (hne : as ++ rem' ≠ [])
    (hlen : ∀ b ∈ rem', 0 < b.len) (hw : weight Block.len as + k' = k + n)
    (hz : rem' = [] → k' = 0) (c' : Cursor) (csum' : Csum)
    (hat : rem' ≠ [] → UnpackAt D fake conv.pDesc.extent bound c' k' rem') :
    ({ conv with partialLength := k' }.leave c' n conv.remoteSize csum').1.UnpackInv D fake bound
      k' rem' := by
  have hsize := h.remoteSize
  rw [weight_append] at hsize
  by_cases hr : rem' = []
  · have hk' := hz hr
    rw [hr, weight_nil] at hsize
    have hdone : conv.bConverted + n = conv.remoteSize := by omega
    rw [Convertor.leave, if_pos hdone]
    refine ⟨h.desc, h.noOp, h.advance, rfl, ?_, by simp [hr], fun h0 => absurd hr h0⟩
    simp only [hr, weight_nil]
    omega
  · obtain ⟨y, ys, rfl⟩ := List.exists_cons_of_ne_nil hr
    have hat := hat hr
    have hky : k' < weight Block.len (y :: ys) := by
      have hy := hlen y (by simp)
      rw [weight_cons]
      obtain h0 | ⟨y', ys', hy', hlt, -⟩ := hat.within
      · omega
      · obtain ⟨rfl, rfl⟩ := List.cons.inj hy'
        omega
    have hcomp : conv.flags.completed = false := by simpa [hne] using h.completed
    have hmore : ¬ conv.bConverted + n = conv.remoteSize := by omega
    rw [Convertor.leave, if_neg hmore]
    refine ⟨h.desc, h.noOp, h.advance, rfl, ?_, by simp [hcomp], fun _ => ⟨c', rfl, hat⟩⟩
    simp only
    omega

/-- No element is left when no byte is. -/
lemma Convertor.UnpackInv.eq_nil {k : ℕ} {rem : List Block} (h : conv.UnpackInv D fake bound k rem)
    (hlen : ∀ b ∈ rem, 0 < b.len) (hle : weight Block.len rem ≤ k) : rem = [] := by
  by_contra hne
  obtain ⟨c, -, hat⟩ := h.pending hne
  obtain ⟨y, ys, rfl⟩ := List.exists_cons_of_ne_nil hne
  have hy := hlen y (by simp)
  rw [weight_cons] at hle
  obtain h0 | ⟨y', ys', hy', hlt, -⟩ := hat.within
  · omega
  · obtain ⟨rfl, -⟩ := List.cons.inj hy'
    omega

/-- **One call** of the generic unpack takes its buffers as the abstract receiver does. -/
lemma Convertor.UnpackInv.genericSimpleUnpack {build : Build} {k : ℕ} {rem : List Block}
    (h : conv.UnpackInv D fake bound k rem) (hlen : ∀ b ∈ rem, 0 < b.len) (hne : rem ≠ [])
    (hfuel : bound < fuel) (iov : List Fragment) (hiov : ∀ v ∈ iov, v.data ≠ [])
    (hn : k + (fragLens iov).sum ≤ weight Block.len rem) (mem : ℤ → Byte) :
    (receiveAll Block.len partialBufferLength (fragLens iov) rem k = none ∧
        genericSimpleUnpack build fuel conv mem iov = none) ∨
      ∃ as rem' k' r, rem = as ++ rem' ∧ weight Block.len as + k' = k + (fragLens iov).sum ∧
        receiveAll Block.len partialBufferLength (fragLens iov) rem k = some (rem', k') ∧
        Ocoms.genericSimpleUnpack build fuel conv mem iov = some r ∧
        r.mem = scatter mem (((blocksBytes rem).drop k).take (fragData iov).length)
          (fragData iov) ∧
        r.conv.UnpackInv D fake bound k' rem' ∧ r.conv.pDesc = conv.pDesc := by
  obtain ⟨c, hstack, hat⟩ := h.pending hne
  have hload : conv.load = some c := Convertor.load_save hstack
  rcases unpackIovs_spec build conv.pBaseBuf hat hne hfuel iov hiov hn mem
      conv.csum with ⟨hr, hu⟩ | ⟨as, rem', k', c', csum', rfl, hw, hr, hu, hz, hat'⟩
  · refine Or.inl ⟨hr, ?_⟩
    simp only [Ocoms.genericSimpleUnpack, hload, h.desc, h.partialLength, hu, Option.bind_eq_bind,
      Option.bind_some, Option.bind_none]
  · have hinv := h.leave hne (fun b hb => hlen b (List.mem_append_right _ hb)) hw hz c' csum' hat'
    set l := ({ conv with partialLength := k' } : Convertor).leave c' (fragLens iov).sum
      conv.remoteSize csum' with hl
    refine Or.inr ⟨as, rem', k', ⟨l.1, scatter mem (((blocksBytes (as ++ rem')).drop k).take
      (fragData iov).length) (fragData iov), fragLens iov, (fragLens iov).sum, l.2⟩, rfl, hw, hr, ?_,
      rfl, hinv, (Convertor.moved_leave _ _ _ _ _).pDesc⟩
    simp only [Ocoms.genericSimpleUnpack, hload, h.desc, h.partialLength, hu, Option.bind_eq_bind,
      Option.bind_some]
    rfl

/-- The same through `ocoms_convertor_unpack`, which also takes calls behind the last copy. -/
lemma Convertor.UnpackInv.convertorUnpack {k : ℕ} {rem : List Block}
    (h : conv.UnpackInv D fake bound k rem) (hlen : ∀ b ∈ rem, 0 < b.len) (hfuel : bound < fuel)
    (iov : List Fragment) (hiov : ∀ v ∈ iov, v.data ≠ [])
    (hn : k + (fragLens iov).sum ≤ weight Block.len rem) (mem : ℤ → Byte) :
    (receiveAll Block.len partialBufferLength (fragLens iov) rem k = none ∧
        convertorUnpack chk fuel conv mem iov = none) ∨
      ∃ as rem' k' r, rem = as ++ rem' ∧ weight Block.len as + k' = k + (fragLens iov).sum ∧
        receiveAll Block.len partialBufferLength (fragLens iov) rem k = some (rem', k') ∧
        Ocoms.convertorUnpack chk fuel conv mem iov = some r ∧
        r.mem = scatter mem (((blocksBytes rem).drop k).take (fragData iov).length)
          (fragData iov) ∧
        r.conv.UnpackInv D fake bound k' rem' ∧ r.conv.pDesc = conv.pDesc := by
  by_cases hne : rem = []
  · subst hne
    obtain rfl : iov = [] := eq_nil_of_sum_fragLens hiov (by rw [weight_nil] at hn; omega)
    refine Or.inr ⟨[], [], k, ⟨conv, mem, [], 0, 1⟩, rfl, by simp, rfl, ?_, by simp, h, rfl⟩
    rw [Ocoms.convertorUnpack, if_pos (h.completed.mpr rfl)]
  · have hcomp : conv.flags.completed = false := by simpa [hne] using h.completed
    have h' : ({ conv with csum := ⟨0, 0, 0⟩ } : Convertor).UnpackInv D fake bound k rem :=
      ⟨h.desc, h.noOp, h.advance, h.partialLength, h.remoteSize, h.completed, h.pending⟩
    rw [convertorUnpack_generic h.noOp hcomp h.advance]
    exact h'.genericSimpleUnpack hlen hne hfuel iov hiov hn mem

variable (chk) in
/-- **Any sequence of calls** takes its buffers as the abstract receiver does. -/
lemma Convertor.UnpackInv.unpackCalls {k : ℕ} {rem : List Block}
    (h : conv.UnpackInv D fake bound k rem) (hlen : ∀ b ∈ rem, 0 < b.len) (hfuel : bound < fuel)
    (calls : List (List Fragment)) (hcalls : ∀ v ∈ calls.flatten, v.data ≠ [])
    (hn : k + (fragLens calls.flatten).sum ≤ weight Block.len rem) (mem : ℤ → Byte) :
    (receiveAll Block.len partialBufferLength (fragLens calls.flatten) rem k = none ∧
        unpackCalls chk fuel conv mem calls = none) ∨
      ∃ as rem' k' conv', rem = as ++ rem' ∧
        weight Block.len as + k' = k + (fragLens calls.flatten).sum ∧
        receiveAll Block.len partialBufferLength (fragLens calls.flatten) rem k = some (rem', k') ∧
        Ocoms.unpackCalls chk fuel conv mem calls = some (conv',
          scatter mem (((blocksBytes rem).drop k).take (fragData calls.flatten).length)
            (fragData calls.flatten)) ∧
        conv'.UnpackInv D fake bound k' rem' := by
  induction calls generalizing conv k rem mem with
  | nil => exact Or.inr ⟨[], rem, k, conv, rfl, by simp, rfl, by simp [Ocoms.unpackCalls], h⟩
  | cons iov calls ih =>
      rw [List.flatten_cons] at hcalls hn
      rw [fragLens_append, List.sum_append] at hn
      have hlen' : (fragData iov).length ≤ ((blocksBytes rem).drop k).length := by
        rw [List.length_drop, length_blocksBytes, length_fragData]
        omega
      rw [List.flatten_cons, fragLens_append, receiveAll_append]
      rcases h.convertorUnpack hlen hfuel iov (fun v hv => hcalls v (by simp [hv]))
          (by omega) mem with ⟨hr, hu⟩ | ⟨as, rem', k', r, rfl, hw, hr, hu, hmem, h', -⟩
      · exact Or.inl ⟨by rw [hr, Option.bind_none], by rw [Ocoms.unpackCalls, hu, Option.bind_none]⟩
      · have hdrop := drop_blocksBytes rem' hw
        rw [weight_append] at hn
        rcases ih h' (fun b hb => hlen b (List.mem_append_right _ hb))
            (fun v hv => hcalls v (List.mem_append_right _ hv)) (by omega) r.mem with
          ⟨hr₂, hu₂⟩ | ⟨as₂, rem₂, k₂, conv₂, rfl, hw₂, hr₂, hu₂, h₂⟩
        · refine Or.inl ⟨by rw [hr, Option.bind_some, hr₂], ?_⟩
          rw [Ocoms.unpackCalls, hu, Option.bind_some, hu₂]
        · refine Or.inr ⟨as ++ as₂, rem₂, k₂, conv₂, (List.append_assoc _ _ _).symm, ?_,
            by rw [hr, Option.bind_some, hr₂], ?_, h₂⟩
          · rw [weight_append, List.sum_append]
            omega
          · rw [length_fragData] at hlen'
            rw [Ocoms.unpackCalls, hu, Option.bind_some, hu₂, hmem, ← hdrop, ← length_fragData iov,
              scatter_segments _ _ _ _ (by rwa [length_fragData]), ← fragData_append]

/-- `ocoms_convertor_prepare_for_recv` sets up the generic unpack for a datatype that is not
`CONTIGUOUS`, on a homogeneous convertor. -/
lemma Convertor.Homogeneous.prepareForRecv_prepared {dt : Datatype} {count : ℕ}
    (hhom : conv.Homogeneous) (pUserBuf : ℤ) (hdesc : dt.optDesc.desc = D.desc fake)
    (hsize : dt.size = (D.bytes 0).length) (hpos : dt.size ≠ 0) (hcount : count ≠ 0)
    (hgaps : dt.flags.noGaps = false) (hcont : dt.flags.contiguous = false) :
    (conv.prepareForRecv dt count pUserBuf).ReceivePrepared D fake count ∧
      (conv.prepareForRecv dt count pUserBuf).pDesc = dt ∧
      (conv.prepareForRecv dt count pUserBuf).flags.send = conv.flags.send ∧
      (conv.prepareForRecv dt count pUserBuf).count = count ∧
      (conv.prepareForRecv dt count pUserBuf).flags.datatype = dt.flags := by
  have hhom' : ({ conv with flags := { conv.flags with recv := true } } : Convertor).Homogeneous :=
    ⟨hhom.remoteArch, hhom.master⟩
  have hno : ¬ ({ conv with flags := { conv.flags with recv := true } } : Convertor).StaysNoOp
      dt count := by simp [Convertor.StaysNoOp, hgaps, hcont]
  obtain ⟨hd, hl, hn, hc, hb, he, hs⟩ :=
    Convertor.provideStack_prepared { conv with flags := { conv.flags with recv := true } }
      pUserBuf hdesc hsize hpos hcount
  rw [Convertor.prepareForRecv, hhom'.prepare hcount hpos, if_neg hno]
  refine ⟨⟨⟨hd, hl, hn, hc, hb, he, hs⟩, rfl, rfl, ?_⟩, rfl, rfl, rfl, rfl⟩
  simp [Convertor.provideStack, Convertor.createStackAtBegining, Convertor.attach, hcont]

/-- **Unpack undoes pack exactly when every element is cut at most once.** The fragments of the
packed stream, cut anywhere and given to any number of calls, restore the bytes of the typemap and
no other exactly if their ends cut every basic element at most once, and none that is longer than
the buffer for partial elements. -/
theorem unpack_undoes_pack_iff {count : ℕ} (hD : D.Valid) {convS convS' convR : Convertor}
    (hS : convS.Prepared D fake count) (hadv : convS.fAdvance = .genericSimplePack)
    (hR : convR.ReceivePrepared D fake count) (hext : convR.pDesc.extent = convS.pDesc.extent)
    (hnodup : (stride count convS.pDesc.extent D.bytes 0).Nodup)
    (hfuel : count * (D.ticks + 1) < fuel) {src : ℤ → Byte} {out : List Byte}
    (hrun : PackRun chk src fuel convS out convS') (hdone : convS'.flags.completed = true)
    (calls : List (List Fragment)) (hcalls : ∀ v ∈ calls.flatten, v.data ≠ [])
    (hout : fragData calls.flatten = out) (mem : ℤ → Byte) :
    (∃ conv mem', unpackCalls chk fuel convR mem calls = some (conv, mem') ∧
        conv.flags.completed = true ∧
        (∀ x ∈ stride count convS.pDesc.extent D.bytes 0, mem' x = src x) ∧
        ∀ x ∉ stride count convS.pDesc.extent D.bytes 0, mem' x = mem x) ↔
      CutOnce Block.len partialBufferLength (stride count convS.pDesc.extent D.blocks 0) 0
        (fragLens calls.flatten) := by
  have hstream : blocksBytes (stride count convS.pDesc.extent D.blocks 0)
      = stride count convS.pDesc.extent D.bytes 0 := flatMap_stride _ _ _ _ _
  have hpos : ∀ b ∈ stride count convS.pDesc.extent D.blocks 0, 0 < b.len :=
    fun _ => hD.stride_len_pos
  -- the stream that the pack calls emitted
  obtain ⟨done, rem, hsplit, rfl, hinv, -⟩ := hrun.genericInv (hS.genericInv hD) hpos hadv hfuel
  obtain rfl := hinv.completed.mp hdone
  rw [List.append_nil] at hsplit
  rw [hsplit, hstream] at hout
  have hlen : (fragLens calls.flatten).sum
      = weight Block.len (stride count convS.pDesc.extent D.blocks 0) := by
    rw [← length_fragData, hout, length_gather, ← hstream, length_blocksBytes]
  have hstart : Within Block.len partialBufferLength
      (stride count convS.pDesc.extent D.blocks 0) 0 := .inl rfl
  have hiff := receiveAll_isSome_iff hpos hstart
    (fragLens_pos hcalls) (by rw [hlen, Nat.zero_add])
  have hR' := hR.unpackInv hD
  rw [hext] at hR'
  rw [← hiff]
  rcases hR'.unpackCalls chk hpos hfuel calls hcalls (by rw [hlen, Nat.zero_add]) mem with
    ⟨hr, hu⟩ | ⟨as, rem', k', conv', hrem, hw, hr, hu, h'⟩
  · simp [hr, hu]
  · -- the whole stream is through, so no element is left
    have hrem' : rem' = [] := h'.eq_nil (fun b hb => hpos b (by rw [hrem]; simp [hb])) (by
      have hweight := congrArg (weight Block.len) hrem
      rw [weight_append] at hweight
      omega)
    rw [List.drop_zero, hout, length_gather, ← hstream, List.take_length, hstream] at hu
    simp only [hr, Option.isSome_some, iff_true]
    exact ⟨conv', _, hu, h'.completed.mpr hrem', fun x hx => scatter_gather mem src hnodup hx,
      fun x hx => scatter_of_notMem mem _ hx⟩

end Run

/-! ### Two cuts of one stream -/

/-- The two ends of a transfer of one copy of `gappedDatatype`. -/
def gappedSend : Convertor := (Convertor.create localArch).prepareForSend gappedDatatype 1 0

/-- The receiving end. -/
def gappedRecv : Convertor := (Convertor.create localArch).prepareForRecv gappedDatatype 1 0

/-- The packed stream, of a memory where every byte is its address. -/
def gappedStream : List Byte := [0, 1, 2, 3, 8, 9, 10, 11, 12, 13, 14, 15]

/-- The stream in two buffers, cut three bytes into the `INT8`. -/
def gappedInTwo : List (List Fragment) :=
  [[⟨0, gappedStream.take 7⟩], [⟨7, gappedStream.drop 7⟩]]

/-- The stream in three buffers; the second one has two of the five bytes missing. -/
def gappedInThree : List (List Fragment) :=
  [[⟨0, gappedStream.take 7⟩], [⟨7, (gappedStream.drop 7).take 2⟩], [⟨9, gappedStream.drop 9⟩]]

lemma gappedSend_packs :
    ∃ r, convertorPack .plain (BitVec.ofInt 8) 20 gappedSend [⟨4096, 12⟩] 0 = some r ∧
      r.frags.flatten = gappedStream ∧ r.conv.flags.completed = true := by
  have h : (convertorPack .plain (BitVec.ofInt 8) 20 gappedSend [⟨4096, 12⟩] 0).map
      (fun r => (r.frags.flatten, r.conv.flags.completed)) = some (gappedStream, true) := by decide
  obtain ⟨r, hr, hpair⟩ := Option.map_eq_some_iff.mp h
  exact ⟨r, hr, congrArg Prod.fst hpair, congrArg Prod.snd hpair⟩

lemma gappedSend_prepared :
    gappedSend.Prepared gappedNest gappedEnd 1 ∧ gappedSend.fAdvance = .genericSimplePack := by
  have hdesc : gappedDatatype.optDesc.desc = gappedNest.desc gappedEnd := rfl
  have hcount : 1 ≠ 0 := Nat.one_ne_zero
  obtain ⟨hprep, hadv, -⟩ := homogeneous_create.prepareForSend_prepared 0 hdesc rfl (by decide)
    hcount rfl rfl
  exact ⟨hprep, hadv⟩

lemma gappedRecv_prepared : gappedRecv.ReceivePrepared gappedNest gappedEnd 1 :=
  (homogeneous_create.prepareForRecv_prepared (D := gappedNest)
    0 rfl rfl (by decide) (by decide) rfl rfl).1

theorem unpack_undoes_pack_gapped :
    (∃ conv mem', unpackCalls .plain 20 gappedRecv (fun _ => 0) gappedInTwo = some (conv, mem') ∧
        conv.flags.completed = true ∧
        (∀ x ∈ stride 1 16 gappedNest.bytes 0, mem' x = BitVec.ofInt 8 x) ∧
        ∀ x ∉ stride 1 16 gappedNest.bytes 0, mem' x = 0) ↔
      CutOnce Block.len partialBufferLength (stride 1 16 gappedNest.blocks 0) 0 [7, 5] := by
  obtain ⟨r, hr, hout, hdone⟩ := gappedSend_packs
  obtain ⟨hprep, hadv⟩ := gappedSend_prepared
  exact unpack_undoes_pack_iff gappedNest_valid hprep hadv gappedRecv_prepared rfl (by decide)
    (by decide) ((PackRun.start).call hr) hdone gappedInTwo (by decide)
    (by rw [hout]; rfl) fun _ => 0

/-- A buffer that does not complete an element is read behind its end. -/
theorem unpack_gapped_in_three_fails :
    gappedNest.Valid ∧ (stride 1 16 gappedNest.bytes 0).Nodup ∧
      gappedRecv.ReceivePrepared gappedNest gappedEnd 1 ∧
      (∃ r, convertorPack .plain (BitVec.ofInt 8) 20 gappedSend [⟨4096, 12⟩] 0 = some r ∧
        fragData gappedInThree.flatten = r.frags.flatten) ∧
      (∀ v ∈ gappedInThree.flatten, v.data ≠ []) ∧
      ¬ ∃ conv mem', unpackCalls .plain 20 gappedRecv (fun _ => 0) gappedInThree
        = some (conv, mem') := by
  obtain ⟨r, hr, hout, -⟩ := gappedSend_packs
  refine ⟨gappedNest_valid, by decide, gappedRecv_prepared, ⟨r, hr, by rw [hout]; rfl⟩,
    by decide, ?_⟩
  rintro ⟨conv, mem', h⟩
  have hnone : (unpackCalls .plain 20 gappedRecv (fun _ => 0) gappedInThree).isSome = false := by
    decide
  rw [h] at hnone
  cases hnone

end Ocoms
