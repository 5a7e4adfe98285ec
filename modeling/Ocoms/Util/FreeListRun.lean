import Mathlib.Data.List.Perm.Lattice
import Ocoms.Util.FreeList

/-!
Free lists over runs: `ocoms_free_list_grow`, `ocoms_free_list_resize` and the macros.

* `Inv` is what holds between the calls. `Inv.numAllocated_lt` is why the number of items never
  wraps around: their addresses are even, and all different.
* `Inv.grow` is the step of the invariant; `Inv.resize` and `Inv.get` use it.
* `free_list_sound` says what users rely on, in a run in which every call meets its condition.
  `free_list_unsound` has calls that do not.
-/

namespace Ocoms.FreeList

variable {malloc : Heap → ℕ → Option ℕ} {s s' : State}

/-! ### The invariant -/

/-- Parameters that pass the tests of the initialization. -/
structure Accepted (p : Params) : Prop where
  frag : ∃ k, p.fragAlignment = 2 ^ (k + 1)
  payload : 0 < p.payloadBufferSize → ∃ k, p.payloadBufferAlignment = 2 ^ k
  max : p.maxToAlloc < sizeT

/-- What holds between the calls. -/
structure Inv (s : State) : Prop where
  accepted : Accepted s.list.toParams
  max : 0 < s.list.maxToAlloc → s.list.numAllocated ≤ s.list.maxToAlloc
  count : s.list.numAllocated = (s.list.lifo ++ s.out).length
  items : (s.list.lifo ++ s.out).Perm (s.list.allocations.flatMap Memory.items)
  carved : ∀ m ∈ s.list.allocations, Carved s.list.toParams m ∧ Owns s.heap m
  inMemory : ∀ m ∈ s.list.allocations, 0 < m.block.addr ∧ m.block.addr + m.block.size ≤ sizeT
  apart : (s.list.allocations.flatMap Memory.items).Pairwise fun a b =>
    Slab.Apart s.list.itemBytes a.addr b.addr

lemma itemBytes_pos (p : Params) : 0 < p.itemBytes :=
  lt_of_lt_of_le (show 0 < itemSizeof by decide) (p.fragClass.derived.trans (le_max_right _ _))

lemma Inv.item_bounds (h : Inv s) {item : Item} (hitem : item ∈ s.list.lifo ++ s.out) :
    2 ∣ item.addr ∧ 0 < item.addr ∧ item.addr < 2 ^ 63 * 2 := by
  obtain ⟨m, hm, hmem⟩ := List.mem_flatMap.mp (h.items.mem_iff.mp hitem)
  obtain ⟨hcarved, -⟩ := h.carved m hm
  obtain ⟨hpos, hend⟩ := h.inMemory m hm
  obtain ⟨hle, hlt⟩ := hcarved.inside item hmem
  obtain ⟨k, hk⟩ := h.accepted.frag
  have hbytes := itemBytes_pos s.list.toParams
  have htwo : 2 ∣ s.list.fragAlignment := hk ▸ Dvd.intro_left (2 ^ k) (Nat.pow_succ ..).symm
  exact ⟨htwo.trans (hcarved.aligned item hmem), by omega, by
    rw [sizeT] at hend
    omega⟩

lemma Inv.pairwise (h : Inv s) : (s.list.lifo ++ s.out).Pairwise fun a b =>
    Slab.Apart s.list.itemBytes a.addr b.addr :=
  h.apart.perm h.items.symm fun hab => hab.symm

lemma Inv.nodup (h : Inv s) : ((s.list.lifo ++ s.out).map Item.addr).Nodup :=
  List.pairwise_map.mpr (h.pairwise.imp fun hab => hab.ne (itemBytes_pos _))

/-- There are not more items than even addresses. -/
lemma Inv.numAllocated_lt (h : Inv s) : s.list.numAllocated < 2 ^ 63 := by
  rw [h.count, ← List.length_map (f := Item.addr)]
  refine length_lt_of_dvd (d := 2) (by decide) h.nodup fun x hx => ?_
  obtain ⟨item, hitem, rfl⟩ := List.mem_map.mp hx
  exact h.item_bounds hitem

/-! ### Growing -/

/-- The truncation of `ocoms_free_list_grow`. -/
lemma truncated_eq {p : Params} {numAllocated numElements : ℕ} (hmax : p.maxToAlloc < sizeT)
    (hle : 0 < p.maxToAlloc → numAllocated ≤ p.maxToAlloc)
    (htotal : 0 < p.maxToAlloc → numAllocated + numElements < sizeT) :
    (if 0 < p.maxToAlloc then
      if p.maxToAlloc < (numAllocated + numElements) % sizeT then subSizeT p.maxToAlloc numAllocated
      else numElements
    else numElements) = p.wanted numAllocated numElements := by
  rw [Params.wanted]
  split
  · rename_i hpos
    rw [Nat.mod_eq_of_lt (htotal hpos)]
    split
    · rw [subSizeT_eq (hle hpos) hmax, Nat.min_eq_right (by omega)]
    · rw [Nat.min_eq_left (by omega)]
  · rfl

/-- The payloads: nothing is allocated, or one block for all of them. -/
structure Payloads (p : Params) (n : ℕ) (heap : Heap) (payloads : Option Block) (elemSize : ℕ)
    (heap' : Heap) : Prop where
  kept : ∀ b ∈ heap.blocks, b ∈ heap'.blocks
  owned : ∀ b, payloads = some b → b ∈ heap'.blocks
  inMemory : (payloads.map Block.addr).getD 0 < sizeT ∧
    (payloads.map Block.addr).getD 0 + n * elemSize ≤ sizeT
  carved : p.alloc.isSome → 0 < p.payloadBufferSize → ∃ b, payloads = some b ∧
    p.payloadBufferAlignment ∣ b.addr ∧ p.payloadBufferAlignment ∣ elemSize ∧
      p.payloadBufferSize ≤ elemSize ∧ b.size = n * elemSize

lemma allocPayloads_spec {p : Params} (haccepted : Accepted p) (halloc : Allocates malloc p.alloc)
    {n : ℕ} (hn : 0 < n)
    (hfits : p.alloc.isSome → n * roundUp p.payloadBufferSize p.payloadBufferAlignment < sizeT)
    (heap : Heap) : p.allocPayloads heap n = none ∨ ∃ payloads elemSize heap',
      p.allocPayloads heap n = some (payloads, elemSize, heap') ∧
        Payloads p n heap payloads elemSize heap' := by
  rw [Params.allocPayloads]
  cases hsome : p.alloc with
  | none =>
      refine .inr ⟨none, 0, heap, rfl, fun _ => id, nofun, ⟨by decide, by simp⟩, ?_⟩
      rw [hsome]
      nofun
  | some alloc =>
      dsimp only
      rcases Nat.eq_zero_or_pos p.payloadBufferSize with hzero | hpos
      · rw [hzero, ocomsAlign_zero, if_pos rfl]
        refine .inr ⟨none, 0, heap, rfl, fun _ => id, nofun, ⟨by decide, by simp⟩, ?_⟩
        intro _ hpos
        omega
      · obtain ⟨k, hk⟩ := haccepted.payload hpos
        have halign : 0 < p.payloadBufferAlignment := hk ▸ Nat.two_pow_pos k
        have hle := le_roundUp halign p.payloadBufferSize
        have hdvd := dvd_roundUp p.payloadBufferSize p.payloadBufferAlignment
        have hfits := hfits (by rw [hsome]; rfl)
        have hone := Nat.le_mul_of_pos_left
          (roundUp p.payloadBufferSize p.payloadBufferAlignment) hn
        have halignle := Nat.le_of_dvd (by omega) hdvd
        rw [ocomsAlign_eq hk (by omega) (by omega), if_neg (by omega)]
        cases hrun : alloc heap (n * roundUp p.payloadBufferSize p.payloadBufferAlignment % sizeT)
          p.payloadBufferAlignment with
        | none => exact .inl rfl
        | some addr =>
            obtain ⟨hfresh, haddr⟩ := halloc.alloc alloc hsome _ _ _ _ hrun
            have hend := hfresh.inMemory
            rw [Nat.mod_eq_of_lt hfits] at hend ⊢
            refine .inr ⟨_, _, _, rfl, fun b hb => List.mem_cons_of_mem _ hb, ?_, ?_, ?_⟩
            · rintro b ⟨⟩
              exact List.mem_cons_self
            · simp only [Option.map_some, Option.getD_some]
              exact ⟨by omega, hend⟩
            · exact fun _ _ => ⟨_, rfl, haddr, hdvd, hle, rfl⟩

/-- A descriptor has room for the object. -/
lemma Params.Fits.headBytes_eq {p : Params} {numAllocated num : ℕ} (h : p.Fits numAllocated num) :
    p.itemBytes = p.headBytes := by
  refine max_eq_left ?_
  cases hsome : p.alloc with
  | none =>
      rw [Params.headBytes, hsome]
      exact h.room hsome
  | some alloc => rw [Params.headBytes, hsome]

/-- What is carved from a new allocation, and how far it reaches. -/
lemma carved_new {p : Params} (haccepted : Accepted p) {num n : ℕ} {numAllocated : ℕ}
    (hfits : p.Fits numAllocated num) (hn : n = p.wanted numAllocated num) (hpos : 0 < n)
    {heap heap' : Heap} {allocPtr allocSize elemSize : ℕ} {payloads : Option Block}
    (hsize : allocSize = n * roundUp p.headBytes p.fragAlignment + itemSizeof + p.fragAlignment)
    (hend : allocPtr + allocSize ≤ sizeT)
    (hpayloads : Payloads p n heap payloads elemSize heap') :
    ∃ items, carve (ocomsAlign p.headBytes p.fragAlignment) elemSize n
        (ocomsAlign ((allocPtr + itemSizeof) % sizeT) p.fragAlignment)
        ((payloads.map Block.addr).getD 0) = items ∧
      Carved p ⟨⟨allocPtr, allocSize⟩, payloads, items⟩ ∧ items.length = n := by
  obtain ⟨k, hk⟩ := haccepted.frag
  have halign : 0 < p.fragAlignment := hk ▸ Nat.two_pow_pos _
  have hheads := hfits.heads
  rw [← hn] at hheads
  have hhead := le_roundUp halign p.headBytes
  have hone := Nat.le_mul_of_pos_left (roundUp p.headBytes p.fragAlignment) hpos
  have hfirst := le_roundUp halign (allocPtr + itemSizeof)
  have hlast := roundUp_le (allocPtr + itemSizeof) p.fragAlignment
  have hbytes := hfits.headBytes_eq
  rw [ocomsAlign_eq hk (by omega) (by omega), Nat.mod_eq_of_lt (show allocPtr + itemSizeof < sizeT by
    omega), ocomsAlign_eq hk (by omega) (by omega), carve_eq (by omega) (by omega)
    hpayloads.inMemory.1 hpayloads.inMemory.2]
  refine ⟨_, rfl, ⟨?_, ?_, ?_, ?_⟩, by rw [List.length_map, List.length_range]⟩
  · simp only [List.forall_mem_map, List.mem_range]
    intro i hi
    have hslot := Slab.le_slot (roundUp (allocPtr + itemSizeof) p.fragAlignment)
      (roundUp p.headBytes p.fragAlignment) i
    have hslotEnd := Slab.slot_add_le_end (roundUp (allocPtr + itemSizeof) p.fragAlignment)
      (roundUp p.headBytes p.fragAlignment) hi
    exact ⟨by omega, by omega⟩
  · simp only [List.forall_mem_map, List.mem_range]
    exact fun i _ => Slab.dvd_slot (dvd_roundUp _ _) (dvd_roundUp _ _)
  · refine List.pairwise_map.mpr (List.pairwise_lt_range.imp fun {i j} hij => ?_)
    have hslot := Slab.slot_add_le (roundUp (allocPtr + itemSizeof) p.fragAlignment)
      (roundUp p.headBytes p.fragAlignment) hij
    dsimp only
    omega
  · intro hsome hpayload
    obtain ⟨b, rfl, haddr, helem, hle, hbsize⟩ := hpayloads.carved hsome hpayload
    refine ⟨b, rfl, ?_, ?_⟩
    · simp only [List.forall_mem_map, List.mem_range, Option.map_some, Option.getD_some]
      intro i hi
      have hslotEnd := Slab.slot_add_le_end b.addr elemSize hi
      exact ⟨Slab.le_slot _ _ _, by omega, Slab.dvd_slot haddr helem⟩
    · refine List.pairwise_map.mpr (List.pairwise_lt_range.imp fun {i j} hij => ?_)
      have hslot := Slab.slot_add_le b.addr elemSize hij
      simp only [Option.map_some, Option.getD_some]
      omega

/-- The size of the allocation does not wrap around, and there are fewer items than half of that. -/
lemma allocSize_eq {p : Params} (haccepted : Accepted p) {num n : ℕ} {numAllocated : ℕ}
    (hfits : p.Fits numAllocated num) (hn : n = p.wanted numAllocated num) (hpos : 0 < n) :
    (n * ocomsAlign p.headBytes p.fragAlignment + itemSizeof + p.fragAlignment) % sizeT =
      n * roundUp p.headBytes p.fragAlignment + itemSizeof + p.fragAlignment ∧ n < 2 ^ 63 := by
  obtain ⟨k, hk⟩ := haccepted.frag
  have hheads := hfits.heads
  rw [← hn] at hheads
  have halign : 0 < p.fragAlignment := hk ▸ Nat.two_pow_pos _
  have hone := Nat.le_mul_of_pos_left (roundUp p.headBytes p.fragAlignment) hpos
  have hhead := le_roundUp halign p.headBytes
  have hbytes : itemSizeof ≤ p.headBytes := hfits.headBytes_eq ▸ p.fragClass.derived.trans
    (le_max_right _ _)
  rw [ocomsAlign_eq hk (by omega) (by omega), Nat.mod_eq_of_lt hheads]
  have htwo : n * 2 ≤ n * roundUp p.headBytes p.fragAlignment := Nat.mul_le_mul_left n (by
    rw [itemSizeof] at hbytes
    omega)
  exact ⟨rfl, by
    rw [sizeT] at hheads
    omega⟩

lemma Inv.tick (h : Inv s) : Inv { s with heap := s.heap.tick } :=
  ⟨h.accepted, h.max, h.count, h.items, h.carved, h.inMemory, h.apart⟩

/-- An allocation that is new. -/
lemma Inv.allocate (h : Inv s) {m : Memory} {heap : Heap} {n : ℕ}
    (hkept : ∀ b ∈ s.heap.blocks, b ∈ heap.blocks)
    (hfresh : Fresh s.heap m.block.addr m.block.size) (hcarved : Carved s.list.toParams m)
    (howns : Owns heap m) (hlength : m.items.length = n)
    (hmax : 0 < s.list.maxToAlloc → s.list.numAllocated + n ≤ s.list.maxToAlloc) :
    Inv { s with
      list := { s.list with
        allocations := s.list.allocations ++ [m]
        lifo := m.items.reverse ++ s.list.lifo
        numAllocated := s.list.numAllocated + n }
      heap := heap } where
  accepted := h.accepted
  max := hmax
  count := by
    simp only [List.length_append, List.length_reverse, hlength, h.count]
    omega
  items := by
    rw [List.flatMap_append, List.flatMap_singleton, List.append_assoc]
    exact ((m.items.reverse_perm.append_right _).trans List.perm_append_comm).trans
      (h.items.append_right _)
  carved := by
    simp only [List.mem_append, List.mem_singleton]
    rintro m' (hm' | rfl)
    · obtain ⟨hcarved', hblock, hptr⟩ := h.carved m' hm'
      exact ⟨hcarved', hkept _ hblock, fun b hb => hkept b (hptr b hb)⟩
    · exact ⟨hcarved, howns⟩
  inMemory := by
    simp only [List.mem_append, List.mem_singleton]
    rintro m' (hm' | rfl)
    · exact h.inMemory m' hm'
    · exact ⟨hfresh.pos, hfresh.inMemory⟩
  apart := by
    rw [List.flatMap_append, List.flatMap_singleton, List.pairwise_append]
    refine ⟨h.apart, hcarved.apart.imp Or.inl, fun a ha b hb => ?_⟩
    obtain ⟨m', hm', hmem⟩ := List.mem_flatMap.mp ha
    obtain ⟨hcarved', hblock, -⟩ := h.carved m' hm'
    have hin := hcarved'.inside a hmem
    have hin' := hcarved.inside b hb
    dsimp only [Slab.Apart]
    rcases hfresh.apart _ hblock with hbefore | hbehind
    · exact .inr (by omega)
    · exact .inl (by omega)

/-- **What `ocoms_free_list_grow` does.** -/
theorem Inv.grow (h : Inv s) (halloc : Allocates malloc s.list.alloc) {num : ℕ}
    (hfits : s.list.Fits s.list.numAllocated num) :
    (∃ s', grow malloc s num = (.tempOutOfResource, s') ∧ Inv s' ∧ s'.list = s.list ∧
      s'.out = s.out) ∨
    ∃ s', grow malloc s num = (.success, s') ∧ Inv s' ∧ s'.list.toParams = s.list.toParams ∧
      s.list.numAllocated < s'.list.numAllocated ∧ s'.out = s.out := by
  rw [FreeList.grow]
  simp only [truncated_eq h.accepted.max h.max hfits.total]
  obtain ⟨n, hn⟩ : ∃ n, n = s.list.wanted s.list.numAllocated num := ⟨_, rfl⟩
  have hpayloads := hfits.payloads
  rw [← hn] at hpayloads ⊢
  rcases Nat.eq_zero_or_pos n with rfl | hpos
  · exact .inl ⟨s, rfl, h, rfl, rfl⟩
  rw [if_neg hpos.ne']
  obtain ⟨hsize, hlt⟩ := allocSize_eq h.accepted hfits hn hpos
  rw [hsize]
  cases hmalloc : malloc s.heap (n * roundUp s.list.headBytes s.list.fragAlignment + itemSizeof +
    s.list.fragAlignment) with
  | none => exact .inl ⟨_, rfl, h.tick, rfl, rfl⟩
  | some allocPtr =>
      have hfresh := halloc.malloc _ _ _ hmalloc
      dsimp only
      rcases allocPayloads_spec h.accepted halloc hpos hpayloads (s.heap.allocate ⟨allocPtr, _⟩) with
        hnone | ⟨payloads, elemSize, heap, hsome, hspec⟩
      · rw [hnone]
        exact .inl ⟨_, rfl, h.tick, rfl, rfl⟩
      · rw [hsome]
        dsimp only
        obtain ⟨items, hitems, hcarved, hlength⟩ :=
          carved_new h.accepted hfits hn hpos rfl hfresh.inMemory hspec
        have hnumber := h.numAllocated_lt
        rw [hitems, Nat.mod_eq_of_lt (show s.list.numAllocated + n < sizeT by
          rw [sizeT]
          omega)]
        refine .inr ⟨_, rfl, h.allocate (fun b hb => hspec.kept b (List.mem_cons_of_mem _ hb)) hfresh
          hcarved ⟨hspec.kept _ List.mem_cons_self, hspec.owned⟩ hlength ?_, rfl,
          Nat.lt_add_of_pos_right hpos, rfl⟩
        intro hmax
        have hle := h.max hmax
        rw [hn, Params.wanted, if_pos hmax]
        omega

/-- No call changes the parameters. -/
lemma toParams_grow (malloc : Heap → ℕ → Option ℕ) (s : State) (num : ℕ) :
    (FreeList.grow malloc s num).2.list.toParams = s.list.toParams := by
  rw [FreeList.grow]
  dsimp only
  generalize (if 0 < s.list.maxToAlloc then _ else num) = n
  split
  · rfl
  · split
    · rfl
    · split <;> rfl

/-! ### The other calls -/

/-- **What `ocoms_free_list_resize` does.** Every round is a growth, and brings the list nearer to its
size. -/
theorem Inv.resize (h : Inv s) (halloc : Allocates malloc s.list.alloc) {size : ℕ}
    (hfits : ResizeFits s.list size) :
    ∃ r, resize malloc s size = some r ∧ (r.1 = .success → size ≤ r.2.list.numAllocated) ∧
      Inv r.2 ∧ r.2.list.toParams = s.list.toParams ∧ r.2.out = s.out := by
  rw [FreeList.resize]
  split
  case isTrue hlt => exact ⟨_, rfl, fun _ => hlt.le, h, rfl, rfl⟩
  case isFalse hge =>
    have hsize := hfits.signed (Nat.le_of_not_lt hge)
    refine loop_rule (fun left t => left = size - t.list.numAllocated ∧
      s.list.numAllocated ≤ t.list.numAllocated ∧ Inv t ∧ t.list.toParams = s.list.toParams ∧
        t.out = s.out) _ ?_ ⟨rfl, le_rfl, h, rfl, rfl⟩ (by omega)
    rintro left t ⟨rfl, hle, hinv, hparams, hout⟩
    have hnumber := hinv.numAllocated_lt
    have hmore : 0 < toSsizeT size - toSsizeT t.list.numAllocated ↔ t.list.numAllocated < size := by
      rw [toSsizeT, toSsizeT, if_pos hsize, if_pos hnumber]
      omega
    rw [resizeRound, if_congr hmore rfl rfl]
    split
    case isTrue hlt =>
      have hgrows := hfits.grows t.list.numAllocated hle hlt
      have halloct : Allocates malloc t.list.alloc := (congrArg Params.alloc hparams).symm ▸ halloc
      rw [← hparams] at hgrows
      rcases hinv.grow halloct hgrows with
        ⟨t', hrun, hinv', hlist, hout'⟩ | ⟨t', hrun, hinv', hparams', hnear, hout'⟩
      · rw [hrun]
        exact ⟨nofun, hinv', by rw [hlist, hparams], hout'.trans hout⟩
      · rw [hrun]
        exact ⟨_, by omega, rfl, hle.trans hnear.le, hinv', hparams'.trans hparams,
          hout'.trans hout⟩
    case isFalse hge => exact ⟨fun _ => Nat.le_of_not_lt hge, hinv, hparams, hout⟩

/-- An item goes from the LIFO to a user. -/
lemma Inv.pop (h : Inv s) : Inv (pop s).2 ∧ (pop s).2.list.toParams = s.list.toParams ∧
    ((pop s).1 = none → s.list.lifo = []) ∧
      ∀ item, (pop s).1 = some item → (pop s).2.out = item :: s.out := by
  rw [FreeList.pop]
  cases hlifo : s.list.lifo with
  | nil => exact ⟨h, rfl, fun _ => rfl, nofun⟩
  | cons item lifo =>
      have hperm : (lifo ++ item :: s.out).Perm (s.list.lifo ++ s.out) := by
        rw [hlifo]
        exact List.perm_middle
      refine ⟨⟨h.accepted, h.max, h.count.trans hperm.length_eq.symm, hperm.trans h.items, h.carved,
        h.inMemory, h.apart⟩, rfl, nofun, ?_⟩
      rintro _ ⟨⟩
      rfl

/-- **What `OCOMS_FREE_LIST_GET` does.** -/
theorem Inv.get (h : Inv s) (halloc : Allocates malloc s.list.alloc)
    (hfits : s.list.lifo = [] → s.list.Fits s.list.numAllocated s.list.numPerAlloc) :
    ∃ r, get malloc s = r ∧ Inv r.2.2 ∧ r.2.2.list.toParams = s.list.toParams ∧
      ∀ item, r.2.1 = some item → r.2.2.out = item :: s.out := by
  refine ⟨_, rfl, ?_⟩
  obtain ⟨hinv, hparams, hempty, hitem⟩ := h.pop
  rw [FreeList.get]
  rcases hpop : FreeList.pop s with ⟨item | item, s₁⟩
  · have hlifo := hempty (by rw [hpop])
    obtain rfl : s₁ = s := by
      rw [FreeList.pop, hlifo] at hpop
      exact (Prod.mk.inj hpop).2.symm
    dsimp only
    obtain ⟨hgrown, hgrownParams, hout⟩ : Inv (FreeList.grow malloc s₁ s₁.list.numPerAlloc).2 ∧
        (FreeList.grow malloc s₁ s₁.list.numPerAlloc).2.list.toParams = s₁.list.toParams ∧
          (FreeList.grow malloc s₁ s₁.list.numPerAlloc).2.out = s₁.out := by
      rcases h.grow halloc (hfits hlifo) with ⟨t, hrun, hinv, hlist, hout⟩ |
        ⟨t, hrun, hinv, hparams, -, hout⟩
      · rw [hrun]
        exact ⟨hinv, by rw [hlist], hout⟩
      · rw [hrun]
        exact ⟨hinv, hparams, hout⟩
    obtain ⟨hinv', hparams', -, hitem'⟩ := hgrown.pop
    rcases hpop' : FreeList.pop (FreeList.grow malloc s₁ s₁.list.numPerAlloc).2 with ⟨item | item, s₂⟩
    · rw [hpop'] at hinv' hparams'
      exact ⟨hinv', hparams'.trans hgrownParams, nofun⟩
    · rw [hpop'] at hinv' hparams' hitem'
      refine ⟨hinv', hparams'.trans hgrownParams, ?_⟩
      rintro _ ⟨⟩
      rw [hitem' item rfl, hout]
  · rw [hpop] at hinv hparams hitem
    refine ⟨hinv, hparams, ?_⟩
    rintro _ ⟨⟩
    exact hitem item rfl

/-- An item goes back. -/
lemma Inv.returnItem (h : Inv s) {item : Item} (hitem : item ∈ s.out) :
    Inv (returnItem s item) := by
  have hperm : (item :: s.list.lifo ++ s.out.erase item).Perm (s.list.lifo ++ s.out) :=
    List.perm_middle.symm.trans ((List.perm_cons_erase hitem).symm.append_left _)
  exact ⟨h.accepted, h.max, h.count.trans hperm.length_eq.symm, hperm.trans h.items, h.carved,
    h.inMemory, h.apart⟩

/-! ### Runs -/

/-- A list that was initialized. -/
lemma inv_initWith {p : Params} {heap : Heap} {num : ℤ} {rc : Rc} (haccepted : Accepted p)
    (halloc : Allocates malloc p.alloc) (hrun : initWith malloc (construct heap) p num = (rc, s))
    (hfits : InitFits s.list.toParams num) : Inv s ∧ s.list.toParams = p := by
  have hstart : Inv { construct heap with
      list := { (construct heap).list with toParams := p, numAllocated := 0 } } :=
    ⟨haccepted, fun _ => Nat.zero_le _, rfl, List.Perm.refl _, nofun, nofun, List.Pairwise.nil⟩
  rw [initWith] at hrun
  dsimp only at hrun
  split at hrun
  case isTrue hne =>
    have hparams := toParams_grow malloc { construct heap with
      list := { (construct heap).list with toParams := p, numAllocated := 0 } } (toSizeT num)
    rw [hrun] at hparams
    have hfits := hfits hne
    rw [hparams] at hfits
    rcases hstart.grow halloc hfits with ⟨t, hrun', hinv, -⟩ | ⟨t, hrun', hinv, -⟩
    all_goals
      obtain ⟨-, rfl⟩ := Prod.mk.inj (hrun.symm.trans hrun')
      exact ⟨hinv, hparams⟩
  case isFalse =>
    obtain ⟨-, rfl⟩ := Prod.mk.inj hrun
    exact ⟨hstart, rfl⟩

/-- Every call keeps the invariant. -/
lemma Inv.step (h : Inv s) (halloc : Allocates malloc s.list.alloc) {op : Op} (hfits : op.Fits s)
    (hstep : step malloc s op = some s') : Inv s' ∧ s'.list.toParams = s.list.toParams := by
  cases op with
  | grow num =>
      obtain rfl := Option.some.inj hstep
      rcases h.grow halloc hfits with ⟨t, hrun, hinv, hlist, -⟩ | ⟨t, hrun, hinv, hparams, -⟩
      · rw [hrun]
        exact ⟨hinv, by rw [hlist]⟩
      · rw [hrun]
        exact ⟨hinv, hparams⟩
  | resize size =>
      obtain ⟨r, hrun, -, hinv, hparams, -⟩ := h.resize halloc hfits
      rw [FreeList.step, hrun] at hstep
      obtain rfl := Option.some.inj hstep
      exact ⟨hinv, hparams⟩
  | get =>
      obtain ⟨r, hrun, hinv, hparams, -⟩ := h.get halloc hfits
      rw [FreeList.step, hrun] at hstep
      obtain rfl := Option.some.inj hstep
      exact ⟨hinv, hparams⟩
  | returnItem item =>
      obtain rfl := Option.some.inj hstep
      exact ⟨h.returnItem hfits, rfl⟩
  | others heap =>
      obtain rfl := Option.some.inj hstep
      exact ⟨⟨h.accepted, h.max, h.count, h.items, fun m hm => ⟨(h.carved m hm).1, hfits m hm⟩,
        h.inMemory, h.apart⟩, rfl⟩

/-- The invariant holds in every run. -/
lemma Reach.inv {alloc : Option AllocFn} (halloc : Allocates malloc alloc)
    (h : Reach malloc alloc s) : Inv s ∧ s.list.alloc = alloc := by
  have hfrag {a : ℕ} (ha : ¬ badAlignment a = true) : ∃ k, a = 2 ^ (k + 1) :=
    of_not_badAlignment (Bool.eq_false_iff.mpr ha)
  induction h with
  | @initEx heap args rc s hargs hinit haccepted hfits =>
      rw [FreeList.initEx] at hinit
      split at hinit
      case isTrue => exact absurd (Prod.mk.inj hinit).1.symm haccepted
      case isFalse hgood =>
        obtain ⟨k, hk⟩ := hfrag hgood
        obtain ⟨hinv, hparams⟩ := inv_initWith ⟨⟨k, hk⟩, fun _ => ⟨k + 1, hk⟩, toSizeT_lt _⟩
          (show Allocates malloc args.alloc from hargs ▸ halloc) hinit hfits
        exact ⟨hinv, (congrArg Params.alloc hparams).trans hargs⟩
  | @initExNew heap args size alignment rc s hargs hinit haccepted hfits =>
      rw [FreeList.initExNew] at hinit
      split at hinit
      case isTrue => exact absurd (Prod.mk.inj hinit).1.symm haccepted
      case isFalse hgood =>
        split at hinit
        case isTrue => exact absurd (Prod.mk.inj hinit).1.symm haccepted
        case isFalse hpayload =>
          have hpow : 0 < size → ∃ k, alignment = 2 ^ k := by
            intro hpos
            obtain ⟨k, hk⟩ := hfrag fun hbad => hpayload (by rw [hbad, decide_eq_true hpos]; rfl)
            exact ⟨k + 1, hk⟩
          obtain ⟨hinv, hparams⟩ := inv_initWith ⟨hfrag hgood, hpow, toSizeT_lt _⟩
            (show Allocates malloc args.alloc from hargs ▸ halloc) hinit hfits
          exact ⟨hinv, (congrArg Params.alloc hparams).trans hargs⟩
  | step h hfits hstep ih =>
      obtain ⟨hinv, hsame⟩ := ih
      obtain ⟨hinv', hparams⟩ := hinv.step (hsame ▸ halloc) hfits hstep
      exact ⟨hinv', (congrArg Params.alloc hparams).trans hsame⟩

/-- **Free lists are sound.** The items are counted, kept apart and carved as promised, `get` hands out
an item that nobody has, and `resize` ends with its size or an error, in every run in which no
computed size wraps around, no item is smaller than its class, and no list is resized to a size that
is negative as an `ssize_t`. -/
theorem free_list_sound {alloc : Option AllocFn} (halloc : Allocates malloc alloc)
    (h : Reach malloc alloc s) : Sound malloc s := by
  obtain ⟨hinv, hsame⟩ := h.inv halloc
  refine ⟨hinv.max, by rw [hinv.count, List.length_append], hinv.pairwise, hinv.items, hinv.carved,
    ?_, ?_⟩
  · intro hfits rc item s' hget other hother
    obtain ⟨r, hrun, hinv', hparams, hout⟩ := hinv.get (hsame ▸ halloc) hfits
    obtain rfl := hrun.symm.trans hget
    have hpairwise := hinv'.pairwise
    rw [hparams, hout item rfl, List.pairwise_append] at hpairwise
    exact (List.pairwise_cons.mp hpairwise.2.1).1 other hother
  · intro size hfits
    obtain ⟨r, hrun, hreached, -⟩ := hinv.resize (hsame ▸ halloc) hfits
    exact ⟨r.1, r.2, hrun, hreached⟩

/-! ### An allocator -/

/-- The end of the last block. -/
def Heap.top (heap : Heap) : ℕ := heap.blocks.foldr (fun b top => max (b.addr + b.size) top) 16

/-- An allocator that never uses memory again. -/
def bump : AllocFn := fun heap size alignment =>
  if 0 < alignment ∧ roundUp heap.top alignment + size ≤ sizeT then
    some (roundUp heap.top alignment)
  else none

lemma Heap.le_top (heap : Heap) : 16 ≤ heap.top ∧ ∀ b ∈ heap.blocks, b.addr + b.size ≤ heap.top := by
  rw [top]
  induction heap.blocks with
  | nil => exact ⟨le_rfl, nofun⟩
  | cons b blocks ih =>
      rw [List.foldr_cons]
      refine ⟨ih.1.trans (le_max_right _ _), List.forall_mem_cons.mpr ⟨le_max_left _ _, ?_⟩⟩
      exact fun b' hb' => (ih.2 b' hb').trans (le_max_right _ _)

lemma fresh_bump {heap : Heap} {size alignment addr : ℕ}
    (h : bump heap size alignment = some addr) : Fresh heap addr size ∧ alignment ∣ addr := by
  rw [bump] at h
  split at h
  case isTrue hfits =>
    obtain ⟨h16, hbehind⟩ := heap.le_top
    have hle := le_roundUp hfits.1 heap.top
    obtain rfl := Option.some.inj h
    exact ⟨⟨by omega, hfits.2, fun b hb => .inr ((hbehind b hb).trans hle)⟩, dvd_roundUp _ _⟩
  case isFalse => cases h

lemma allocates_bump : Allocates (fun heap size => bump heap size 16) (some bump) where
  malloc _ _ _ h := (fresh_bump h).1
  alloc := by
    rintro _ ⟨⟩ heap size alignment addr h
    exact fresh_bump h

/-- A list of two items, at most three, with this alignment. -/
def someArgs (fragSize fragAlignment : ℕ) (fragClass : Option FragClass) (alloc : Option AllocFn) :
    InitArgs where
  fragSize := fragSize
  fragAlignment := fragAlignment
  fragClass := fragClass
  numElementsToAlloc := 2
  maxElementsToAlloc := 3
  numElementsPerAlloc := 1
  alloc := alloc

/-- The list after its initialization, with this payload. -/
def someList (args : InitArgs) (payloadBufferSize payloadBufferAlignment : ℕ) : State :=
  (initExNew (fun heap size => bump heap size 16) (construct ⟨[], 0⟩) args payloadBufferSize
    payloadBufferAlignment).2

theorem free_list_sound_payloads :
    Sound (fun heap size => bump heap size 16) (someList (someArgs 0 8 none (some bump)) 1000 64) :=
  free_list_sound allocates_bump
    (.initExNew (show (someArgs 0 8 none (some bump)).alloc = some bump from rfl) (Prod.mk.eta).symm
      (by decide) fun _ => ⟨by decide, by decide, by decide, nofun⟩)

/-- **Where the conditions are not met.** A class is larger than its fragments: the items overlap. The
size of the descriptors wraps around: an item is outside of its allocation. A size is negative as an
`ssize_t`: `resize` succeeds, and has done nothing. -/
theorem free_list_unsound :
    (¬ (someList (someArgs 0 8 (some ⟨200, by decide⟩) none) 0 0).list.lifo.Pairwise fun a b =>
      Slab.Apart 200 a.addr b.addr) ∧
    (¬ ∀ m ∈ (someList (someArgs (2 ^ 63) 2 none none) 0 0).list.allocations, ∀ item ∈ m.items,
      item.addr + 2 ^ 63 ≤ m.block.addr + m.block.size) ∧
    ∃ s, resize (fun heap size => bump heap size 16) (someList (someArgs 0 8 none none) 0 0) (2 ^ 63)
      = some (.success, s) ∧ s.list.numAllocated < 2 ^ 63 := by
  refine ⟨by decide, by decide, someList (someArgs 0 8 none none) 0 0, ?_, by decide⟩
  rw [resize, if_neg (by decide), loop]
  rfl

end Ocoms.FreeList
