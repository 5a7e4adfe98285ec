import Ocoms.Lib.CSize
import Ocoms.Lib.Loop
import Ocoms.Lib.Slab

/-!
The free list: `ocoms_free_list.c` and the macros of `ocoms_free_list.h`.

* An address is a natural number below `sizeT`, and zero is null. `Heap` is the memory that is
  allocated; `malloc` and the `alloc` of the caller are functions of it.
* The LIFO is the list of its items. An allocation keeps the items that were carved from it.
* `grow`, `resize`, `get` and `giveBack` are the operations.
-/

namespace Ocoms

/-- `OCOMS_ALIGN`, of type `size_t`. -/
def ocomsAlign (x a : ℕ) : ℕ := (x + subSizeT a 1) % sizeT &&& (sizeT - 1 - subSizeT a 1)

/-- The conversion of an `int` to `size_t`. -/
def toSizeT (n : ℤ) : ℕ := (n % sizeT).toNat

/-- The conversion of a `size_t` to `ssize_t`. -/
def toSsizeT (n : ℕ) : ℤ := if n < 2 ^ 63 then n else (n : ℤ) - sizeT

namespace FreeList

/-- `sizeof(ocoms_free_list_item_t)`, on a machine with pointers of 8 bytes and without debugging. -/
def itemSizeof : ℕ := 56

/-- A class of fragments is derived from `ocoms_free_list_item_t`. -/
structure FragClass where
  clsSizeof : ℕ
  derived : itemSizeof ≤ clsSizeof

/-- `ocoms_free_list_item_t`: its address, and `ptr`, the address of its payload. -/
structure Item where
  addr : ℕ
  ptr : ℕ
  deriving DecidableEq

/-- Memory that was allocated. -/
structure Block where
  addr : ℕ
  size : ℕ

/-- The memory that is allocated now. What an allocator returns may depend on the time. -/
structure Heap where
  blocks : List Block
  time : ℕ

/-- The `alloc` function of a caller, which takes a size and an alignment. -/
abbrev AllocFn := Heap → ℕ → ℕ → Option ℕ

/-- `ocoms_free_list_memory_t`: the allocation, the allocation of the payloads (`ptr`), and the items
that were carved from them. -/
structure Memory where
  block : Block
  ptr : Option Block
  items : List Item

/-- The fields of `ocoms_free_list_t` that are set once. -/
structure Params where
  maxToAlloc : ℕ
  numPerAlloc : ℕ
  fragSize : ℕ
  fragAlignment : ℕ
  payloadBufferSize : ℕ
  payloadBufferAlignment : ℕ
  fragClass : FragClass
  alloc : Option AllocFn

end FreeList

/-- `ocoms_free_list_t`; `lifo` is its `super`. -/
structure FreeList extends FreeList.Params where
  numAllocated : ℕ
  lifo : List FreeList.Item
  allocations : List FreeList.Memory

namespace FreeList

/-- The return codes. -/
inductive Rc
  | success
  | error
  | tempOutOfResource
  deriving DecidableEq

/-- A free list, the heap, and the items that were handed out. -/
structure State where
  list : FreeList
  heap : Heap
  out : List Item

/-- An allocation. -/
def Heap.allocate (heap : Heap) (block : Block) : Heap := ⟨block :: heap.blocks, heap.time + 1⟩

/-- Another allocation that failed, or was freed at once. -/
def Heap.tick (heap : Heap) : Heap := { heap with time := heap.time + 1 }

/-- The loop of `ocoms_free_list_grow`: the items, in the order of the loop. -/
def carve (headSize elemSize : ℕ) : ℕ → ℕ → ℕ → List Item
  | 0, _, _ => []
  | n + 1, ptr, runtimeAllocPtr =>
      ⟨ptr, runtimeAllocPtr⟩ ::
        carve headSize elemSize n ((ptr + headSize) % sizeT) ((runtimeAllocPtr + elemSize) % sizeT)

/-- The size of a descriptor. -/
def Params.headBytes (p : Params) : ℕ :=
  match p.alloc with
  | none => p.fragSize
  | some _ => p.fragClass.clsSizeof

/-- The allocation of the payloads, and the size of one of them. -/
def Params.allocPayloads (p : Params) (heap : Heap) (numElements : ℕ) :
    Option (Option Block × ℕ × Heap) :=
  match p.alloc with
  | none => some (none, 0, heap)
  | some alloc =>
      let elemSize := ocomsAlign p.payloadBufferSize p.payloadBufferAlignment
      if elemSize = 0 then some (none, elemSize, heap)
      else
        let size := numElements * elemSize % sizeT
        (alloc heap size p.payloadBufferAlignment).map fun ptr =>
          (some ⟨ptr, size⟩, elemSize, heap.allocate ⟨ptr, size⟩)

section Operations

variable (malloc : Heap → ℕ → Option ℕ)

/-- `ocoms_free_list_grow`. -/
def grow (s : State) (numElements : ℕ) : Rc × State :=
  let fl := s.list
  let numElements :=
    if 0 < fl.maxToAlloc then
      if fl.maxToAlloc < (fl.numAllocated + numElements) % sizeT then
        subSizeT fl.maxToAlloc fl.numAllocated
      else numElements
    else numElements
  if numElements = 0 then (.tempOutOfResource, s)
  else
    let headSize := ocomsAlign fl.headBytes fl.fragAlignment
    let allocSize := (numElements * headSize + itemSizeof + fl.fragAlignment) % sizeT
    match malloc s.heap allocSize with
    | none => (.tempOutOfResource, { s with heap := s.heap.tick })
    | some allocPtr =>
        match fl.allocPayloads (s.heap.allocate ⟨allocPtr, allocSize⟩) numElements with
        | none => (.tempOutOfResource, { s with heap := s.heap.tick })
        | some (payloads, elemSize, heap) =>
            let items := carve headSize elemSize numElements
              (ocomsAlign ((allocPtr + itemSizeof) % sizeT) fl.fragAlignment)
              ((payloads.map Block.addr).getD 0)
            let fl := { fl with
              allocations := fl.allocations ++ [⟨⟨allocPtr, allocSize⟩, payloads, items⟩]
              lifo := items.reverse ++ fl.lifo
              numAllocated := (fl.numAllocated + numElements) % sizeT }
            (.success, { s with list := fl, heap := heap })

/-- A round of the loop of `ocoms_free_list_resize`. -/
def resizeRound (size : ℕ) (s : State) : State ⊕ (Rc × State) :=
  if 0 < toSsizeT size - toSsizeT s.list.numAllocated then
    match grow malloc s s.list.numPerAlloc with
    | (.success, s) => .inl s
    | (rc, s) => .inr (rc, s)
  else .inr (.success, s)

/-- `ocoms_free_list_resize`. -/
def resize (s : State) (size : ℕ) : Option (Rc × State) :=
  if size < s.list.numAllocated then some (.success, s)
  else loop (resizeRound malloc size) (size + 1) s

/-- The pop of the LIFO, by a user who keeps the item. -/
def pop (s : State) : Option Item × State :=
  match s.list.lifo with
  | [] => (none, s)
  | item :: lifo => (some item,
      { s with list := { s.list with lifo := lifo }, out := item :: s.out })

/-- `OCOMS_FREE_LIST_GET`. -/
def get (s : State) : Rc × Option Item × State :=
  match pop s with
  | (some item, s) => (.success, some item, s)
  | (none, s) =>
      match pop (grow malloc s s.list.numPerAlloc).2 with
      | (some item, s) => (.success, some item, s)
      | (none, s) => (.tempOutOfResource, none, s)

/-- `OCOMS_FREE_LIST_RETURN`. -/
def returnItem (s : State) (item : Item) : State :=
  { s with list := { s.list with lifo := item :: s.list.lifo }, out := s.out.erase item }

/-! ### Initialization -/

/-- The test of an alignment. -/
def badAlignment (a : ℕ) : Bool := a ≤ 1 || a &&& (a - 1) ≠ 0

/-- `ocoms_free_list_construct`. -/
def construct (heap : Heap) : State where
  list :=
    { maxToAlloc := 0
      numPerAlloc := 0
      fragSize := itemSizeof
      fragAlignment := 0
      payloadBufferSize := 0
      payloadBufferAlignment := 0
      fragClass := ⟨itemSizeof, le_rfl⟩
      alloc := none
      numAllocated := 0
      lifo := []
      allocations := [] }
  heap := heap
  out := []

/-- The arguments that `ocoms_free_list_init_ex` and `ocoms_free_list_init_ex_new` share. -/
structure InitArgs where
  fragSize : ℕ
  fragAlignment : ℕ
  fragClass : Option FragClass
  numElementsToAlloc : ℤ
  maxElementsToAlloc : ℤ
  numElementsPerAlloc : ℤ
  alloc : Option AllocFn

/-- The parameters of a list behind its initialization. -/
def InitArgs.params (args : InitArgs) (fl : FreeList) (payloadBufferSize : ℕ)
    (payloadBufferAlignment : ℕ) : Params where
  maxToAlloc := toSizeT args.maxElementsToAlloc
  numPerAlloc := toSizeT args.numElementsPerAlloc
  fragSize := if fl.fragSize < args.fragSize then args.fragSize else fl.fragSize
  fragAlignment := args.fragAlignment
  payloadBufferSize := payloadBufferSize
  payloadBufferAlignment := payloadBufferAlignment
  fragClass := args.fragClass.getD fl.fragClass
  alloc := args.alloc

/-- The end of both functions: the parameters are set, and the list gets its first items. -/
def initWith (s : State) (p : Params) (numElementsToAlloc : ℤ) : Rc × State :=
  let s := { s with list := { s.list with toParams := p, numAllocated := 0 } }
  if numElementsToAlloc ≠ 0 then grow malloc s (toSizeT numElementsToAlloc) else (.success, s)

/-- `ocoms_free_list_init_ex`. -/
def initEx (s : State) (args : InitArgs) : Rc × State :=
  if badAlignment args.fragAlignment then (.error, s)
  else
    let p := args.params s.list 0 args.fragAlignment
    initWith malloc s { p with payloadBufferSize := subSizeT p.fragSize p.fragClass.clsSizeof }
      args.numElementsToAlloc

/-- `ocoms_free_list_init_ex_new`, which `ocoms_free_list_init_new` calls. -/
def initExNew (s : State) (args : InitArgs) (payloadBufferSize payloadBufferAlignment : ℕ) :
    Rc × State :=
  if badAlignment args.fragAlignment then (.error, s)
  else if 0 < payloadBufferSize && badAlignment payloadBufferAlignment then (.error, s)
  else
    initWith malloc s (args.params s.list payloadBufferSize payloadBufferAlignment)
      args.numElementsToAlloc

end Operations

/-! ### What a user relies on -/

/-- Memory that an allocator returns is none that is allocated. -/
structure Fresh (heap : Heap) (addr size : ℕ) : Prop where
  pos : 0 < addr
  inMemory : addr + size ≤ sizeT
  apart : ∀ b ∈ heap.blocks, addr + size ≤ b.addr ∨ b.addr + b.size ≤ addr

/-- **What is assumed of the allocators.** -/
structure Allocates (malloc : Heap → ℕ → Option ℕ) (alloc : Option AllocFn) : Prop where
  malloc : ∀ heap size addr, malloc heap size = some addr → Fresh heap addr size
  alloc : ∀ f, alloc = some f → ∀ heap size alignment addr, f heap size alignment = some addr →
    Fresh heap addr size ∧ alignment ∣ addr

/-- The bytes that belong to an item: its descriptor, and the object that is constructed there. -/
def Params.itemBytes (p : Params) : ℕ := max p.headBytes p.fragClass.clsSizeof

/-- How an allocation is carved. -/
structure Carved (p : Params) (m : Memory) : Prop where
  inside : ∀ item ∈ m.items, m.block.addr + itemSizeof ≤ item.addr ∧
    item.addr + p.itemBytes ≤ m.block.addr + m.block.size
  aligned : ∀ item ∈ m.items, p.fragAlignment ∣ item.addr
  apart : m.items.Pairwise fun a b => a.addr + p.itemBytes ≤ b.addr
  payloads : p.alloc.isSome → 0 < p.payloadBufferSize → ∃ block, m.ptr = some block ∧
    (∀ item ∈ m.items, block.addr ≤ item.ptr ∧
      item.ptr + p.payloadBufferSize ≤ block.addr + block.size ∧
        p.payloadBufferAlignment ∣ item.ptr) ∧
    m.items.Pairwise fun a b => a.ptr + p.payloadBufferSize ≤ b.ptr

/-- The number of items that are to be carved. -/
def Params.wanted (p : Params) (numAllocated numElements : ℕ) : ℕ :=
  if 0 < p.maxToAlloc then min numElements (p.maxToAlloc - numAllocated) else numElements

/-- **The condition for `grow`.** The new total, the size of the descriptors and the size of the
payloads can be computed without wrapping around, and a descriptor has room for the object that is
constructed in it. -/
structure Params.Fits (p : Params) (numAllocated numElements : ℕ) : Prop where
  total : 0 < p.maxToAlloc → numAllocated + numElements < sizeT
  heads : p.wanted numAllocated numElements * roundUp p.headBytes p.fragAlignment + itemSizeof +
    p.fragAlignment < sizeT
  payloads : p.alloc.isSome → p.wanted numAllocated numElements *
    roundUp p.payloadBufferSize p.payloadBufferAlignment < sizeT
  room : p.alloc = none → p.fragClass.clsSizeof ≤ p.fragSize

/-- **The condition for `resize`.** The size is positive as an `ssize_t`, and every growth fits. -/
structure ResizeFits (fl : FreeList) (size : ℕ) : Prop where
  signed : fl.numAllocated ≤ size → size < 2 ^ 63
  grows : ∀ numAllocated, fl.numAllocated ≤ numAllocated → numAllocated < size →
    fl.Fits numAllocated fl.numPerAlloc

/-- The calls of the users, and what happens to the heap between them. -/
inductive Op
  | grow (numElements : ℕ)
  | resize (size : ℕ)
  | get
  | returnItem (item : Item)
  | others (heap : Heap)

/-- What a call leaves. -/
def step (malloc : Heap → ℕ → Option ℕ) (s : State) : Op → Option State
  | .grow numElements => some (grow malloc s numElements).2
  | .resize size => (resize malloc s size).map Prod.snd
  | .get => some (get malloc s).2.2
  | .returnItem item => some (returnItem s item)
  | .others heap => some { s with heap := heap }

/-- The memory of a free list. -/
def Owns (heap : Heap) (m : Memory) : Prop :=
  m.block ∈ heap.blocks ∧ ∀ block, m.ptr = some block → block ∈ heap.blocks

/-- The condition for a call. An item is returned by a user who has it, and others do not free the
memory of the list. -/
def Op.Fits (s : State) : Op → Prop
  | .grow numElements => s.list.Fits s.list.numAllocated numElements
  | .resize size => ResizeFits s.list size
  | .get => s.list.lifo = [] → s.list.Fits s.list.numAllocated s.list.numPerAlloc
  | .returnItem item => item ∈ s.out
  | .others heap => ∀ m ∈ s.list.allocations, Owns heap m

/-- The condition for the initialization. -/
def InitFits (p : Params) (numElementsToAlloc : ℤ) : Prop :=
  numElementsToAlloc ≠ 0 → p.Fits 0 (toSizeT numElementsToAlloc)

/-- The states of a run in which every call meets its condition. -/
inductive Reach (malloc : Heap → ℕ → Option ℕ) (alloc : Option AllocFn) : State → Prop
  | initEx {heap args rc s} (halloc : args.alloc = alloc)
      (hinit : initEx malloc (construct heap) args = (rc, s)) (haccepted : rc ≠ .error)
      (hfits : InitFits s.list.toParams args.numElementsToAlloc) : Reach malloc alloc s
  | initExNew {heap args size alignment rc s} (halloc : args.alloc = alloc)
      (hinit : initExNew malloc (construct heap) args size alignment = (rc, s))
      (haccepted : rc ≠ .error) (hfits : InitFits s.list.toParams args.numElementsToAlloc) :
      Reach malloc alloc s
  | step {s s' op} (h : Reach malloc alloc s) (hfits : op.Fits s)
      (hstep : step malloc s op = some s') : Reach malloc alloc s'

/-- **What a user relies on.** -/
structure Sound (malloc : Heap → ℕ → Option ℕ) (s : State) : Prop where
  max : 0 < s.list.maxToAlloc → s.list.numAllocated ≤ s.list.maxToAlloc
  count : s.list.numAllocated = s.list.lifo.length + s.out.length
  apart : (s.list.lifo ++ s.out).Pairwise fun a b => Slab.Apart s.list.itemBytes a.addr b.addr
  items : (s.list.lifo ++ s.out).Perm (s.list.allocations.flatMap Memory.items)
  carved : ∀ m ∈ s.list.allocations, Carved s.list.toParams m ∧ Owns s.heap m
  get : (s.list.lifo = [] → s.list.Fits s.list.numAllocated s.list.numPerAlloc) →
    ∀ rc item s', get malloc s = (rc, some item, s') → ∀ other ∈ s.out,
      Slab.Apart s.list.itemBytes item.addr other.addr
  resize : ∀ size, ResizeFits s.list size → ∃ rc s', resize malloc s size = some (rc, s') ∧
    (rc = .success → size ≤ s'.list.numAllocated)

/-! ### Alignment -/

lemma subSizeT_lt (a b : ℕ) : subSizeT a b < sizeT := Nat.mod_lt _ (by decide)

lemma toSizeT_lt (n : ℤ) : toSizeT n < sizeT := by
  have hnonneg := Int.emod_nonneg n (show (sizeT : ℤ) ≠ 0 by decide)
  have hlt := Int.emod_lt_of_pos n (show (0 : ℤ) < sizeT by decide)
  rw [toSizeT]
  omega

/-- A size of zero is not rounded, whatever the alignment is. -/
lemma ocomsAlign_zero (a : ℕ) : ocomsAlign 0 a = 0 := by
  rw [ocomsAlign, Nat.zero_add, Nat.mod_eq_of_lt (subSizeT_lt a 1)]
  exact and_complement (subSizeT_lt a 1)

/-- Where the result fits, the macro rounds up. -/
lemma ocomsAlign_eq {x a k : ℕ} (ha : a = 2 ^ k) (hlt : a < sizeT) (h : roundUp x a < sizeT) :
    ocomsAlign x a = roundUp x a := by
  subst ha
  have hk : k < 64 := (Nat.pow_lt_pow_iff_right (by decide)).mp hlt
  have hpos := Nat.two_pow_pos k
  have hsum : x + (2 ^ k - 1) < sizeT := by
    by_contra hge
    have hdvd : 2 ^ k ∣ sizeT := Nat.pow_dvd_pow 2 hk.le
    have hmul := Nat.mul_le_mul_right (2 ^ k) (Nat.div_le_div_right (c := 2 ^ k) (Nat.le_of_not_lt hge))
    rw [Nat.div_mul_cancel hdvd] at hmul
    exact absurd h (Nat.not_lt.mpr hmul)
  rw [ocomsAlign, subSizeT_eq hpos hlt, Nat.mod_eq_of_lt hsum, roundUp]
  exact and_mask hk.le hsum

/-- The alignments that pass the test. -/
lemma of_not_badAlignment {a : ℕ} (h : badAlignment a = false) : ∃ k, a = 2 ^ (k + 1) := by
  rw [badAlignment, Bool.or_eq_false_iff, decide_eq_false_iff_not, decide_eq_false_iff_not,
    not_not] at h
  obtain ⟨hlt, hand⟩ := h
  obtain ⟨k, rfl⟩ := (Nat.and_sub_one_eq_zero_iff_isPowerOfTwo (by omega)).mp hand
  cases k with
  | zero => omega
  | succ k => exact ⟨k, rfl⟩

/-! ### Carving -/

/-- As long as no address wraps around, the items are slots. -/
lemma carve_eq {headSize elemSize n ptr runtimeAllocPtr : ℕ} (hptr : ptr < sizeT)
    (hend : ptr + n * headSize ≤ sizeT) (hptr' : runtimeAllocPtr < sizeT)
    (hend' : runtimeAllocPtr + n * elemSize ≤ sizeT) :
    carve headSize elemSize n ptr runtimeAllocPtr = (List.range n).map fun i =>
      ⟨Slab.slot ptr headSize i, Slab.slot runtimeAllocPtr elemSize i⟩ := by
  -- The next address is only used if there is another item.
  have hnext {n p size : ℕ} (hp : p < sizeT) (hfit : p + (n + 1 + 1) * size ≤ sizeT) :
      p + size < sizeT ∧ p + size + (n + 1) * size ≤ sizeT := by
    rw [Nat.succ_mul] at hfit
    rcases Nat.eq_zero_or_pos size with rfl | hpos
    · exact ⟨hp, by omega⟩
    · have hone : size ≤ (n + 1) * size := Nat.le_mul_of_pos_left size n.succ_pos
      exact ⟨by omega, by omega⟩
  induction n generalizing ptr runtimeAllocPtr with
  | zero => rfl
  | succ n ih =>
      rw [List.range_succ_eq_map, List.map_cons, List.map_map, carve, Slab.slot_zero, Slab.slot_zero]
      congr 1
      cases n with
      | zero => rfl
      | succ n =>
          obtain ⟨hlt, hend⟩ := hnext hptr hend
          obtain ⟨hlt', hend'⟩ := hnext hptr' hend'
          rw [Nat.mod_eq_of_lt hlt, Nat.mod_eq_of_lt hlt', ih hlt hend hlt' hend']
          refine List.map_congr_left fun i _ => ?_
          simp only [Function.comp_apply, Nat.succ_eq_add_one, Slab.slot_succ]

end FreeList
end Ocoms
