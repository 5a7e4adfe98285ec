import Ocoms.Lib.Cells
import Mathlib.Data.Set.Disjoint
import Mathlib.Logic.Function.Basic

/-!
The class descriptors: `ocoms_class_initialize` of `ocoms_object.c`.

* `ClassSystem` holds the class descriptors, the allocated blocks and the array `classes`. A write
  outside of a block is `none`.
* `fillWalk_spec` is the second walk along the parents: it fills the constructors of the block from
  their end, and the destructors from their start.
* `ClassRun` are all runs of `ocoms_class_initialize`, and `class_arrays_follow_chain` is the theorem
  about them.
-/

namespace Ocoms

/-- A cell of an array of functions: not written yet, `NULL`, or a function. -/
inductive FnCell (φ : Type)
  | unset
  | null
  | fn (f : φ)

/-- A pointer into a block. -/
structure FnPtr where
  block : ℕ
  off : ℕ
  deriving DecidableEq

/-- `ocoms_class_t`, for pointers to classes in `κ`. -/
structure ClassDesc (κ φ : Type) where
  parent : Option κ
  construct : Option φ
  destruct : Option φ
  initialized : Bool
  depth : ℕ
  constructArray : Option FnPtr
  destructArray : Option FnPtr

/-- `OBJ_CLASS_INSTANCE`. -/
def classInstance {κ φ : Type} (parent : κ) (construct destruct : Option φ) : ClassDesc κ φ :=
  ⟨some parent, construct, destruct, false, 0, none, none⟩

/-- `ocoms_object_t_class`, which is preinitialized. -/
def ocomsObjectTClass {κ φ : Type} : ClassDesc κ φ :=
  ⟨none, none, none, true, 0, none, none⟩

/-- The class descriptors, the blocks that `malloc` has given, and `classes` with `max_classes`. -/
structure ClassSystem (κ φ : Type) where
  classOf : κ → ClassDesc κ φ
  blocks : List (List (FnCell φ))
  classes : List FnPtr
  maxClasses : ℕ

/-- The counts of the first walk. -/
structure ClassCounts where
  depth : ℕ
  construct : ℕ
  destruct : ℕ

namespace ClassSystem

variable {κ φ : Type}

/-- The blocks are written. -/
def setBlocks (s : ClassSystem κ φ) (blocks : List (List (FnCell φ))) : ClassSystem κ φ :=
  { s with blocks }

/-- `malloc` of an array with `n` cells. -/
def malloc (s : ClassSystem κ φ) (n : ℕ) : FnPtr × ClassSystem κ φ :=
  (⟨s.blocks.length, 0⟩, s.setBlocks (s.blocks ++ [List.replicate n .unset]))

/-- A write through a pointer. `none` is a write outside of the block. -/
def store (s : ClassSystem κ φ) (p : FnPtr) (v : FnCell φ) : Option (ClassSystem κ φ) := do
  let cells ← s.blocks[p.block]?
  let cells ← Cells.write cells p.off v
  let blocks ← Cells.write s.blocks p.block cells
  return s.setBlocks blocks

/-- The fields of a class are written. -/
def modify [DecidableEq κ] (s : ClassSystem κ φ) (cls : κ) (f : ClassDesc κ φ → ClassDesc κ φ) :
    ClassSystem κ φ :=
  { s with classOf := Function.update s.classOf cls (f (s.classOf cls)) }

/-- The first walk, which counts. `none` says that the fuel has run out. -/
def countWalk (s : ClassSystem κ φ) : ℕ → Option κ → ClassCounts → Option ClassCounts
  | _, none, n => some n
  | 0, some _, _ => none
  | fuel + 1, some c, n =>
      s.countWalk fuel (s.classOf c).parent
        { construct := if (s.classOf c).construct.isSome then n.construct + 1 else n.construct
          destruct := if (s.classOf c).destruct.isSome then n.destruct + 1 else n.destruct
          depth := n.depth + 1 }

/-- A constructor is written in front of the others. -/
def pushConstruct (p : FnPtr) (s : ClassSystem κ φ) : Option φ → Option (FnPtr × ClassSystem κ φ)
  | none => some (p, s)
  | some f =>
      match p.off with
      | 0 => none
      | off + 1 => (s.store ⟨p.block, off⟩ (.fn f)).map fun s => (⟨p.block, off⟩, s)

/-- A destructor is written behind the others. -/
def pushDestruct (q : FnPtr) (s : ClassSystem κ φ) : Option φ → Option (FnPtr × ClassSystem κ φ)
  | none => some (q, s)
  | some f => (s.store q (.fn f)).map fun s => (⟨q.block, q.off + 1⟩, s)

/-- The second walk, which fills the arrays; `p` and `q` are the local pointers into them. The result is
the second pointer. -/
def fillWalk : ℕ → Option κ → FnPtr → FnPtr → ClassSystem κ φ → Option (FnPtr × ClassSystem κ φ)
  | 0, _, _, q, s => some (q, s)
  | _ + 1, none, _, _, _ => none
  | i + 1, some c, p, q, s => do
      let (p, s) ← pushConstruct p s (s.classOf c).construct
      let (q, s) ← pushDestruct q s (s.classOf c).destruct
      fillWalk i (s.classOf c).parent p q s

/-- `increment`. -/
def increment : ℕ := 10

/-- `expand_array`. -/
def expandArray (s : ClassSystem κ φ) : ClassSystem κ φ :=
  { s with maxClasses := s.maxClasses + increment }

/-- `save_class`. -/
def saveClass (s : ClassSystem κ φ) (array : FnPtr) : ClassSystem κ φ :=
  let s := if s.maxClasses ≤ s.classes.length then s.expandArray else s
  { s with classes := s.classes ++ [array] }

variable [DecidableEq κ]

/-- `ocoms_class_initialize`. A `malloc` that fails ends the process. -/
def classInitialize (s : ClassSystem κ φ) (cls : κ) (fuel : ℕ) : Option (ClassSystem κ φ) :=
  if (s.classOf cls).initialized then some s
  else do
    let n ← s.countWalk fuel (some cls) ⟨0, 0, 0⟩
    let (array, s) := s.malloc (n.construct + n.destruct + 2)
    let s := s.modify cls fun d => { d with
      depth := n.depth
      constructArray := some array
      destructArray := some ⟨array.block, array.off + n.construct + 1⟩ }
    -- the constructor array is reversed, so start at the end
    let s ← s.store ⟨array.block, array.off + n.construct⟩ .null
    let (q, s) ← fillWalk n.depth (some cls) ⟨array.block, array.off + n.construct⟩
      ⟨array.block, array.off + n.construct + 1⟩ s
    let s ← s.store q .null
    let s := s.modify cls fun d => { d with initialized := true }
    return s.saveClass array

end ClassSystem

/-- The functions of an array up to its `NULL`, as `ocoms_obj_run_constructors` and
`ocoms_obj_run_destructors` call them. `none` is a read outside of the block or of a cell that was not
written. -/
def readFns {φ : Type} : List (FnCell φ) → Option (List φ)
  | [] => none
  | .unset :: _ => none
  | .null :: _ => some []
  | .fn f :: cells => (readFns cells).map (f :: ·)

/-- The functions of the array at a pointer. -/
def ClassSystem.functions {κ φ : Type} (s : ClassSystem κ φ) (p : FnPtr) : Option (List φ) := do
  let cells ← s.blocks[p.block]?
  readFns (cells.drop p.off)

/-- **The class chain**: a class and its parents up to the root class. -/
inductive ClassChain {κ φ : Type} (classOf : κ → ClassDesc κ φ) : Option κ → List κ → Prop
  | root : ClassChain classOf none []
  | cons {c : κ} {chain : List κ} : ClassChain classOf (classOf c).parent chain →
      ClassChain classOf (some c) (c :: chain)

namespace ClassSystem

variable {κ φ : Type} {s s' : ClassSystem κ φ} {o : Option κ} {c : κ} {chain : List κ}

/-! ### The walks -/

/-- The constructors of the classes of a chain, from the class up to the root. -/
def constructsOf (classOf : κ → ClassDesc κ φ) (chain : List κ) : List φ :=
  chain.filterMap fun c => (classOf c).construct

/-- The destructors of the classes of a chain, from the class up to the root. -/
def destructsOf (classOf : κ → ClassDesc κ φ) (chain : List κ) : List φ :=
  chain.filterMap fun c => (classOf c).destruct

/-- A class in front of a chain. -/
lemma filterMap_cons_toList {α β : Type} (f : α → Option β) (a : α) (l : List α) :
    (a :: l).filterMap f = (f a).toList ++ l.filterMap f := by
  rw [List.filterMap_cons]
  cases f a <;> rfl

/-- **The first walk** counts the classes and their functions. -/
lemma countWalk_spec (h : ClassChain s.classOf o chain) {fuel : ℕ} (hfuel : chain.length ≤ fuel)
    (n : ClassCounts) :
    s.countWalk fuel o n = some ⟨n.depth + chain.length,
      n.construct + (constructsOf s.classOf chain).length,
      n.destruct + (destructsOf s.classOf chain).length⟩ := by
  induction h generalizing fuel n with
  | root => cases fuel <;> rfl
  | @cons c chain hchain ih =>
      obtain ⟨fuel, rfl⟩ : ∃ m, fuel = m + 1 := ⟨fuel - 1, by rw [List.length_cons] at hfuel; omega⟩
      rw [countWalk, ih (by rw [List.length_cons] at hfuel; omega), constructsOf, constructsOf,
        destructsOf, destructsOf, filterMap_cons_toList, filterMap_cons_toList]
      simp only [List.length_cons, List.length_append, Option.some.injEq, ClassCounts.mk.injEq]
      refine ⟨by omega, ?_, ?_⟩
      · cases (s.classOf c).construct
        · simp
        · simp
          omega
      · cases (s.classOf c).destruct
        · simp
        · simp
          omega

/-- A walk that has ended was along a chain. -/
lemma chain_of_countWalk {fuel : ℕ} {n n' : ClassCounts} (h : s.countWalk fuel o n = some n') :
    ∃ chain, ClassChain s.classOf o chain ∧ chain.length ≤ fuel := by
  induction fuel generalizing o n with
  | zero =>
      cases o with
      | none => exact ⟨[], .root, Nat.le_refl _⟩
      | some c => cases h
  | succ fuel ih =>
      cases o with
      | none => exact ⟨[], .root, Nat.zero_le _⟩
      | some c =>
          obtain ⟨chain, hchain, hlen⟩ := ih h
          exact ⟨c :: chain, .cons hchain, Nat.succ_le_succ hlen⟩

@[simp]
lemma setBlocks_classOf (s : ClassSystem κ φ) (blocks : List (List (FnCell φ))) :
    (s.setBlocks blocks).classOf = s.classOf :=
  rfl

/-- A write to a cell of the block that was allocated last. -/
lemma store_last (s : ClassSystem κ φ) (blocks : List (List (FnCell φ))) {cells pre post : List (FnCell φ)}
    {x : FnCell φ} (h : cells = pre ++ x :: post) {off : ℕ} (hoff : off = pre.length) (v : FnCell φ) :
    (s.setBlocks (blocks ++ [cells])).store ⟨blocks.length, off⟩ v
      = some (s.setBlocks (blocks ++ [pre ++ v :: post])) := by
  subst h hoff
  show ((blocks ++ [pre ++ x :: post])[blocks.length]? >>= fun cells =>
    Cells.write cells pre.length v >>= fun cells =>
      Cells.write (blocks ++ [pre ++ x :: post]) blocks.length cells >>= fun blocks =>
        some (s.setBlocks blocks)) = _
  rw [Cells.getElem?_append_cons]
  show (Cells.write (pre ++ x :: post) pre.length v >>= fun cells =>
    Cells.write (blocks ++ [pre ++ x :: post]) blocks.length cells >>= fun blocks =>
      some (s.setBlocks blocks)) = _
  rw [Cells.write_append]
  show (Cells.write (blocks ++ [pre ++ x :: post]) blocks.length (pre ++ v :: post) >>= fun blocks =>
    some (s.setBlocks blocks)) = _
  rw [Cells.write_append]
  rfl

/-- The block during the second walk: `n` cells that are not written, the constructors, `NULL`, the
destructors, and `m` cells that are not written. -/
def layout (n : ℕ) (written done : List φ) (m : ℕ) : List (FnCell φ) :=
  List.replicate n .unset
    ++ (written.map .fn ++ .null :: (done.map .fn ++ List.replicate m .unset))

/-- The cells in front of those that are not written behind the destructors. -/
def filled (n : ℕ) (written done : List φ) : List (FnCell φ) :=
  List.replicate n .unset ++ (written.map .fn ++ .null :: done.map .fn)

lemma length_filled (n : ℕ) (written done : List φ) :
    (filled n written done).length = n + written.length + 1 + done.length := by
  simp only [filled, List.length_append, List.length_replicate, List.length_map, List.length_cons]
  omega

lemma layout_succ_left (n : ℕ) (written done : List φ) (m : ℕ) :
    layout (n + 1) written done m = List.replicate n .unset
      ++ .unset :: (written.map .fn ++ .null :: (done.map .fn ++ List.replicate m .unset)) := by
  rw [layout, List.replicate_succ', List.append_assoc]
  rfl

lemma layout_eq_append (n : ℕ) (written done : List φ) (m : ℕ) :
    layout n written done m = filled n written done ++ List.replicate m .unset := by
  simp only [layout, filled, List.append_assoc, List.cons_append]

lemma pushConstruct_spec (s : ClassSystem κ φ) (blocks : List (List (FnCell φ))) (f : Option φ) (n : ℕ)
    (written done : List φ) (m : ℕ) :
    pushConstruct ⟨blocks.length, f.toList.length + n⟩
        (s.setBlocks (blocks ++ [layout (f.toList.length + n) written done m])) f
      = some (⟨blocks.length, n⟩, s.setBlocks (blocks ++ [layout n (f.toList ++ written) done m])) := by
  cases f with
  | none =>
      rw [Option.toList_none, List.length_nil, Nat.zero_add, List.nil_append]
      rfl
  | some f =>
      rw [Option.toList_some, List.length_singleton, Nat.add_comm]
      unfold pushConstruct
      dsimp only
      rw [store_last s blocks (layout_succ_left _ _ _ _) List.length_replicate.symm]
      rfl

lemma pushDestruct_spec (s : ClassSystem κ φ) (blocks : List (List (FnCell φ))) (f : Option φ) (n : ℕ)
    (written done : List φ) (m : ℕ) :
    pushDestruct ⟨blocks.length, n + written.length + 1 + done.length⟩
        (s.setBlocks (blocks ++ [layout n written done (f.toList.length + m)])) f
      = some (⟨blocks.length, n + written.length + 1 + (done ++ f.toList).length⟩,
        s.setBlocks (blocks ++ [layout n written (done ++ f.toList) m])) := by
  cases f with
  | none =>
      rw [Option.toList_none, List.length_nil, Nat.zero_add, List.append_nil]
      rfl
  | some f =>
      have hcells : layout n written done (1 + m)
          = filled n written done ++ .unset :: List.replicate m .unset := by
        rw [layout_eq_append, Nat.add_comm, List.replicate_succ]
      have hnext : layout n written (done ++ [f]) m
          = filled n written done ++ .fn f :: List.replicate m .unset := by
        simp only [layout, filled, List.map_append, List.append_assoc, List.cons_append, List.map_cons,
          List.map_nil, List.nil_append]
      rw [Option.toList_some, List.length_singleton, hnext]
      unfold pushDestruct
      dsimp only
      rw [store_last s blocks hcells (length_filled _ _ _).symm, List.length_append]
      rfl

/-- **The second walk** writes the constructors from the class up to the root, each in front of the
last one, and the destructors each behind the last one. -/
lemma fillWalk_spec (blocks : List (List (FnCell φ))) (h : ClassChain s.classOf o chain)
    (written done : List φ) :
    fillWalk chain.length o ⟨blocks.length, (constructsOf s.classOf chain).length⟩
        ⟨blocks.length, (constructsOf s.classOf chain).length + written.length + 1 + done.length⟩
        (s.setBlocks (blocks ++ [layout (constructsOf s.classOf chain).length written done
          ((destructsOf s.classOf chain).length + 1)]))
      = some (⟨blocks.length, (constructsOf s.classOf chain).length + written.length + 1
            + (done ++ destructsOf s.classOf chain).length⟩,
          s.setBlocks (blocks ++ [layout 0 ((constructsOf s.classOf chain).reverse ++ written)
            (done ++ destructsOf s.classOf chain) 1])) := by
  induction h generalizing written done with
  | root =>
      rw [destructsOf, List.filterMap_nil, List.append_nil]
      rfl
  | @cons c chain hchain ih =>
      have hcons : constructsOf s.classOf (c :: chain)
          = (s.classOf c).construct.toList ++ constructsOf s.classOf chain := filterMap_cons_toList _ _ _
      have hdest : destructsOf s.classOf (c :: chain)
          = (s.classOf c).destruct.toList ++ destructsOf s.classOf chain := filterMap_cons_toList _ _ _
      have hrev : (s.classOf c).construct.toList.reverse = (s.classOf c).construct.toList := by
        cases (s.classOf c).construct <;> rfl
      have hq : (s.classOf c).construct.toList.length + (constructsOf s.classOf chain).length
          + written.length = (constructsOf s.classOf chain).length
          + ((s.classOf c).construct.toList ++ written).length := by
        rw [List.length_append]
        omega
      rw [hcons, hdest, List.length_append, List.length_append,
        List.reverse_append, hrev, List.append_assoc, ← List.append_assoc done, hq,
        Nat.add_assoc (s.classOf c).destruct.toList.length]
      show (pushConstruct _ (s.setBlocks _) (s.classOf c).construct >>= fun r =>
        pushDestruct _ r.2 (r.2.classOf c).destruct >>= fun r' =>
          fillWalk chain.length (r'.2.classOf c).parent r.1 r'.1 r'.2) = _
      rw [pushConstruct_spec]
      show (pushDestruct _ (s.setBlocks _) (s.classOf c).destruct >>= fun r' =>
          fillWalk chain.length (r'.2.classOf c).parent _ r'.1 r'.2) = _
      rw [pushDestruct_spec]
      exact ih _ _

/-! ### A call -/

/-- The block of a class: its constructors from the root class down, and its destructors up to the root
class, each with a `NULL` at the end. -/
def arraysBlock (classOf : κ → ClassDesc κ φ) (chain : List κ) : List (FnCell φ) :=
  (constructsOf classOf chain).reverse.map .fn
    ++ .null :: ((destructsOf classOf chain).map .fn ++ [.null])

/-- The fields that `OBJ_CLASS_INSTANCE` gives are the same. -/
structure SameDeclared (classOf classOf' : κ → ClassDesc κ φ) : Prop where
  parent : ∀ c, (classOf' c).parent = (classOf c).parent
  construct : ∀ c, (classOf' c).construct = (classOf c).construct
  destruct : ∀ c, (classOf' c).destruct = (classOf c).destruct

variable {classOf classOf' classOf'' : κ → ClassDesc κ φ}

lemma SameDeclared.refl (classOf : κ → ClassDesc κ φ) : SameDeclared classOf classOf :=
  ⟨fun _ => rfl, fun _ => rfl, fun _ => rfl⟩

lemma SameDeclared.trans (h : SameDeclared classOf classOf') (h' : SameDeclared classOf' classOf'') :
    SameDeclared classOf classOf'' :=
  ⟨fun c => (h'.parent c).trans (h.parent c), fun c => (h'.construct c).trans (h.construct c),
    fun c => (h'.destruct c).trans (h.destruct c)⟩

lemma SameDeclared.symm (h : SameDeclared classOf classOf') : SameDeclared classOf' classOf :=
  ⟨fun c => (h.parent c).symm, fun c => (h.construct c).symm, fun c => (h.destruct c).symm⟩

lemma SameDeclared.classChain (h : SameDeclared classOf classOf') (hchain : ClassChain classOf o chain) :
    ClassChain classOf' o chain := by
  induction hchain with
  | root => exact .root
  | @cons c chain _ ih => exact .cons ((h.parent c).symm ▸ ih)

lemma SameDeclared.constructsOf (h : SameDeclared classOf classOf') (chain : List κ) :
    constructsOf classOf' chain = constructsOf classOf chain :=
  congrArg (fun f => chain.filterMap f) (funext h.construct)

lemma SameDeclared.destructsOf (h : SameDeclared classOf classOf') (chain : List κ) :
    destructsOf classOf' chain = destructsOf classOf chain :=
  congrArg (fun f => chain.filterMap f) (funext h.destruct)

lemma SameDeclared.arraysBlock (h : SameDeclared classOf classOf') (chain : List κ) :
    arraysBlock classOf' chain = arraysBlock classOf chain := by
  rw [ClassSystem.arraysBlock, ClassSystem.arraysBlock, h.constructsOf, h.destructsOf]

lemma saveClass_classOf (s : ClassSystem κ φ) (array : FnPtr) :
    (s.saveClass array).classOf = s.classOf ∧ (s.saveClass array).blocks = s.blocks := by
  unfold saveClass
  split_ifs <;> exact ⟨rfl, rfl⟩

variable [DecidableEq κ]

/-- The other fields of one class are written. -/
lemma sameDeclared_update (classOf : κ → ClassDesc κ φ) {c : κ} {d : ClassDesc κ φ}
    (hparent : d.parent = (classOf c).parent) (hconstruct : d.construct = (classOf c).construct)
    (hdestruct : d.destruct = (classOf c).destruct) :
    SameDeclared classOf (Function.update classOf c d) := by
  refine ⟨fun c' => ?_, fun c' => ?_, fun c' => ?_⟩ <;> rcases eq_or_ne c' c with rfl | hne
  · rw [Function.update_self, hparent]
  · rw [Function.update_of_ne hne]
  · rw [Function.update_self, hconstruct]
  · rw [Function.update_of_ne hne]
  · rw [Function.update_self, hdestruct]
  · rw [Function.update_of_ne hne]

/-- **A call** on a class that is not initialized adds one block, which holds both arrays. -/
lemma classInitialize_spec (hnot : (s.classOf c).initialized = false)
    (hchain : ClassChain s.classOf (some c) chain) {fuel : ℕ} (hfuel : chain.length ≤ fuel) :
    ∃ s' d, s.classInitialize c fuel = some s' ∧ s'.classOf = Function.update s.classOf c d ∧
      SameDeclared s.classOf s'.classOf ∧ d.initialized = true ∧
      d.constructArray = some ⟨s.blocks.length, 0⟩ ∧
      d.destructArray = some ⟨s.blocks.length, (constructsOf s.classOf chain).length + 1⟩ ∧
      s'.blocks = s.blocks ++ [arraysBlock s.classOf chain] := by
  obtain ⟨nc, hnc⟩ : ∃ nc, nc = (constructsOf s.classOf chain).length := ⟨_, rfl⟩
  obtain ⟨nd, hnd⟩ : ∃ nd, nd = (destructsOf s.classOf chain).length := ⟨_, rfl⟩
  -- the fields that are written in front of the walk
  obtain ⟨d, hd⟩ : ∃ d, d = { s.classOf c with
    depth := chain.length
    constructArray := some ⟨s.blocks.length, 0⟩
    destructArray := some ⟨s.blocks.length, nc + 1⟩ } := ⟨_, rfl⟩
  obtain ⟨t, ht⟩ : ∃ t : ClassSystem κ φ, t = { s with classOf := Function.update s.classOf c d } :=
    ⟨_, rfl⟩
  have hsame : SameDeclared s.classOf t.classOf := by
    rw [ht]
    exact sameDeclared_update s.classOf (by rw [hd]) (by rw [hd]) (by rw [hd])
  have hcount := countWalk_spec hchain hfuel ⟨0, 0, 0⟩
  simp only [Nat.zero_add, ← hnc, ← hnd] at hcount
  have hcells : List.replicate (nc + nd + 2) (FnCell.unset : FnCell φ)
      = List.replicate nc .unset ++ .unset :: List.replicate (nd + 1) .unset := by
    rw [← List.replicate_succ, List.replicate_append_replicate]
    rfl
  have hmark := store_last t s.blocks hcells List.length_replicate.symm .null
  have hfill := fillWalk_spec s.blocks (hsame.classChain hchain) [] []
  rw [hsame.constructsOf, hsame.destructsOf, List.length_nil, List.append_nil, List.nil_append,
    Nat.add_zero, Nat.add_zero, ← hnc, ← hnd] at hfill
  have hoff : nc + 1 + nd = (filled 0 (constructsOf s.classOf chain).reverse
      (destructsOf s.classOf chain)).length := by
    rw [length_filled, List.length_reverse, ← hnc, ← hnd, Nat.zero_add]
  have hlast := store_last t s.blocks (layout_eq_append 0 (constructsOf s.classOf chain).reverse
    (destructsOf s.classOf chain) 1) hoff .null
  have hblock : filled 0 (constructsOf s.classOf chain).reverse (destructsOf s.classOf chain)
      ++ [.null] = arraysBlock s.classOf chain := by
    rw [filled, List.replicate_zero, List.nil_append, List.append_assoc, List.cons_append, arraysBlock]
  have hcall : s.classInitialize c fuel
      = ((t.setBlocks (s.blocks ++ [List.replicate (nc + nd + 2) .unset])).store
          ⟨s.blocks.length, nc⟩ .null >>= fun s₁ =>
        fillWalk chain.length (some c) ⟨s.blocks.length, nc⟩ ⟨s.blocks.length, nc + 1⟩ s₁ >>= fun r =>
          r.2.store r.1 .null >>= fun s₂ =>
            some ((s₂.modify c fun d => { d with initialized := true }).saveClass
              ⟨s.blocks.length, 0⟩)) := by
    rw [classInitialize, if_neg (by rw [hnot]; exact Bool.false_ne_true), hcount, ht, hd]
    simp only [malloc, Option.bind_eq_bind, Option.bind_some, Nat.zero_add]
    rfl
  rw [hmark, Option.bind_eq_bind, Option.bind_some] at hcall
  have hmarked : (List.replicate nc .unset ++ .null :: List.replicate (nd + 1) .unset : List (FnCell φ))
      = layout nc [] [] (nd + 1) := rfl
  rw [hmarked, hfill, Option.bind_eq_bind, Option.bind_some] at hcall
  dsimp only at hcall
  rw [hlast, Option.bind_some, List.replicate_zero, hblock] at hcall
  obtain ⟨hclassOf, hblocks⟩ := saveClass_classOf
    ((t.setBlocks (s.blocks ++ [arraysBlock s.classOf chain])).modify c
      fun d => { d with initialized := true }) ⟨s.blocks.length, 0⟩
  have hupdate : Function.update t.classOf c { t.classOf c with initialized := true }
      = Function.update s.classOf c { d with initialized := true } := by
    rw [ht]
    dsimp only
    rw [Function.update_self, Function.update_idem]
  refine ⟨_, { d with initialized := true }, hcall, hclassOf.trans hupdate, ?_, rfl, ?_, ?_, hblocks⟩
  · rw [hclassOf.trans hupdate]
    exact sameDeclared_update s.classOf (by rw [hd]) (by rw [hd]) (by rw [hd])
  · rw [hd]
  · rw [hd, hnc]

/-! ### The arrays -/

omit [DecidableEq κ] in
/-- The functions in front of a `NULL`. -/
lemma readFns_append (fns : List φ) (cells : List (FnCell φ)) :
    readFns (fns.map .fn ++ .null :: cells) = some fns := by
  induction fns with
  | nil => rfl
  | cons f fns ih =>
      rw [List.map_cons, List.cons_append, readFns, ih]
      rfl

/-- The two arrays of a class. -/
inductive ArrayKind
  | construct
  | destruct
  deriving DecidableEq

/-- `cls_construct_array` or `cls_destruct_array`. -/
def arrayOf (s : ClassSystem κ φ) (c : κ) : ArrayKind → Option FnPtr
  | .construct => (s.classOf c).constructArray
  | .destruct => (s.classOf c).destructArray

/-- The cell `i` of a block belongs to an array of the class. The `NULL` is a part of the array. -/
def Occupies (s : ClassSystem κ φ) (c : κ) (k : ArrayKind) (block i : ℕ) : Prop :=
  ∃ p fns, s.arrayOf c k = some p ∧ s.functions p = some fns ∧ p.block = block ∧
    p.off ≤ i ∧ i ≤ p.off + fns.length

/-- The class was not initialized at the start, and is now. -/
def InitializedSince (s₀ s : ClassSystem κ φ) (c : κ) : Prop :=
  (s₀.classOf c).initialized = false ∧ (s.classOf c).initialized = true

/-- The arrays of a class fill one block. -/
structure HasArrays (s : ClassSystem κ φ) (classOf : κ → ClassDesc κ φ) (c : κ) (chain : List κ)
    (b : ℕ) : Prop where
  construct : s.arrayOf c .construct = some ⟨b, 0⟩
  destruct : s.arrayOf c .destruct = some ⟨b, (constructsOf classOf chain).length + 1⟩
  block : s.blocks[b]? = some (arraysBlock classOf chain)

section Arrays

omit [DecidableEq κ]

variable {s₀ : ClassSystem κ φ} {c' : κ} {chain' : List κ} {b b' : ℕ}

lemma HasArrays.functions_construct (h : s.HasArrays classOf c chain b) :
    s.functions ⟨b, 0⟩ = some (constructsOf classOf chain).reverse := by
  rw [functions, h.block]
  exact readFns_append _ _

lemma HasArrays.functions_destruct (h : s.HasArrays classOf c chain b) :
    s.functions ⟨b, (constructsOf classOf chain).length + 1⟩ = some (destructsOf classOf chain) := by
  have hdrop : (arraysBlock classOf chain).drop ((constructsOf classOf chain).length + 1)
      = (destructsOf classOf chain).map .fn ++ [.null] := by
    have hlen : ((constructsOf classOf chain).reverse.map FnCell.fn).length
        = (constructsOf classOf chain).length := by
      rw [List.length_map, List.length_reverse]
    rw [arraysBlock, ← hlen, List.drop_length_add_append]
    rfl
  rw [functions, h.block]
  show readFns ((arraysBlock classOf chain).drop _) = _
  rw [hdrop]
  exact readFns_append _ _

lemma length_arraysBlock (classOf : κ → ClassDesc κ φ) (chain : List κ) :
    (arraysBlock classOf chain).length
      = (constructsOf classOf chain).length + (destructsOf classOf chain).length + 2 := by
  simp only [arraysBlock, List.length_append, List.length_map, List.length_reverse, List.length_cons,
    List.length_nil]
  omega

/-- The cells of the two arrays. -/
lemma HasArrays.occupies (h : s.HasArrays classOf c chain b) {k : ArrayKind} {block i : ℕ}
    (hi : s.Occupies c k block i) : block = b ∧
      match k with
      | .construct => i ≤ (constructsOf classOf chain).length
      | .destruct => (constructsOf classOf chain).length < i ∧
          i ≤ (constructsOf classOf chain).length + 1 + (destructsOf classOf chain).length := by
  obtain ⟨p, fns, hp, hfns, rfl, hlo, hhi⟩ := hi
  cases k with
  | construct =>
      obtain rfl := Option.some.inj (hp.symm.trans h.construct)
      obtain rfl := Option.some.inj (hfns.symm.trans h.functions_construct)
      rw [List.length_reverse, Nat.zero_add] at hhi
      exact ⟨rfl, hhi⟩
  | destruct =>
      obtain rfl := Option.some.inj (hp.symm.trans h.destruct)
      obtain rfl := Option.some.inj (hfns.symm.trans h.functions_destruct)
      exact ⟨rfl, hlo, hhi⟩

/-- More blocks, and changes of other classes. -/
lemma HasArrays.mono (h : s.HasArrays classOf c chain b) (hc : s'.classOf c = s.classOf c)
    {blocks : List (List (FnCell φ))} (hblocks : s'.blocks = s.blocks ++ blocks) :
    s'.HasArrays classOf c chain b := by
  have harray : ∀ k, s'.arrayOf c k = s.arrayOf c k := fun k => by
    cases k <;> simp only [arrayOf, hc]
  refine ⟨(harray _).trans h.construct, (harray _).trans h.destruct, ?_⟩
  have hlt := (List.getElem?_eq_some_iff.mp h.block).1
  rw [hblocks, List.getElem?_append_left hlt]
  exact h.block

/-- A class has one chain. -/
lemma chain_unique (h : ClassChain classOf o chain) (h' : ClassChain classOf o chain') :
    chain = chain' := by
  induction h generalizing chain' with
  | root => cases h'; rfl
  | cons _ ih =>
      cases h' with
      | cons h' => rw [ih h']

/-- **The invariant**: each class that was initialized has its arrays in a block of its own. -/
structure ClassInv (s₀ s : ClassSystem κ φ) : Prop where
  same : SameDeclared s₀.classOf s.classOf
  built : ∀ c, InitializedSince s₀ s c →
    ∃ chain b, ClassChain s₀.classOf (some c) chain ∧ s.HasArrays s₀.classOf c chain b
  apart : ∀ c c' chain chain' b, InitializedSince s₀ s c → InitializedSince s₀ s c' → s.HasArrays s₀.classOf c chain b →
    s.HasArrays s₀.classOf c' chain' b → c = c'

end Arrays

omit [DecidableEq κ] in
/-- Two blocks of one class are the same. -/
lemma HasArrays.block_eq {classOf' : κ → ClassDesc κ φ} {chain' : List κ} {b b' : ℕ}
    (h : s.HasArrays classOf c chain b) (h' : s.HasArrays classOf' c chain' b') : b = b' := by
  have heq := Option.some.inj (h.construct.symm.trans h'.construct)
  exact congrArg FnPtr.block heq

/-- **A call** keeps the invariant. -/
lemma ClassInv.call {s₀ : ClassSystem κ φ} (h : ClassInv s₀ s) {fuel : ℕ}
    (hcall : s.classInitialize c fuel = some s') : ClassInv s₀ s' := by
  by_cases hinit : (s.classOf c).initialized = true
  · rw [classInitialize, if_pos hinit] at hcall
    exact Option.some.inj hcall ▸ h
  · rw [Bool.not_eq_true] at hinit
    have hwalk : ∃ n, s.countWalk fuel (some c) ⟨0, 0, 0⟩ = some n := by
      rw [classInitialize, if_neg (by rw [hinit]; exact Bool.false_ne_true)] at hcall
      obtain ⟨n, hn, -⟩ := Option.bind_eq_some_iff.mp hcall
      exact ⟨n, hn⟩
    obtain ⟨n, hn⟩ := hwalk
    obtain ⟨chain, hchain, hfuel⟩ := chain_of_countWalk hn
    obtain ⟨s'', d, hspec, hclassOf, hsame, hd, hconstruct, hdestruct, hblocks⟩ :=
      classInitialize_spec hinit hchain hfuel
    obtain rfl := Option.some.inj (hspec.symm.trans hcall)
    have hchain₀ : ClassChain s₀.classOf (some c) chain := h.same.symm.classChain hchain
    have hself : s''.classOf c = d := by rw [hclassOf, Function.update_self]
    have hother : ∀ c', c' ≠ c → s''.classOf c' = s.classOf c' := fun c' hne => by
      rw [hclassOf, Function.update_of_ne hne]
    have hnew : s''.HasArrays s₀.classOf c chain s.blocks.length := by
      refine ⟨?_, ?_, ?_⟩
      · rw [arrayOf, hself, hconstruct]
      · rw [arrayOf, hself, hdestruct, h.same.constructsOf]
      · rw [hblocks, List.getElem?_append_right (Nat.le_refl _), Nat.sub_self, h.same.arraysBlock]
        rfl
    -- the other classes have the blocks that they had
    have hold : ∀ c', c' ≠ c → InitializedSince s₀ s'' c' → ∃ chain' b', b' < s.blocks.length ∧
        ClassChain s₀.classOf (some c') chain' ∧ s.HasArrays s₀.classOf c' chain' b' ∧
        s''.HasArrays s₀.classOf c' chain' b' := by
      intro c' hne hbuilt
      obtain ⟨chain', b', hchain', harrays⟩ := h.built c' ⟨hbuilt.1, hother c' hne ▸ hbuilt.2⟩
      exact ⟨chain', b', (List.getElem?_eq_some_iff.mp harrays.block).1, hchain', harrays,
        harrays.mono (hother c' hne) hblocks⟩
    refine ⟨h.same.trans hsame, fun c' hbuilt => ?_, fun c₁ c₂ chain₁ chain₂ b h₁ h₂ ha₁ ha₂ => ?_⟩
    · rcases eq_or_ne c' c with rfl | hne
      · exact ⟨chain, s.blocks.length, hchain₀, hnew⟩
      · obtain ⟨chain', b', -, hchain', -, harrays⟩ := hold c' hne hbuilt
        exact ⟨chain', b', hchain', harrays⟩
    · by_cases hne₁ : c₁ = c <;> by_cases hne₂ : c₂ = c
      · rw [hne₁, hne₂]
      · obtain ⟨chain', b', hlt, -, -, harrays⟩ := hold c₂ hne₂ h₂
        have hb := ((hne₁ ▸ ha₁).block_eq hnew).symm.trans (ha₂.block_eq harrays)
        omega
      · obtain ⟨chain', b', hlt, -, -, harrays⟩ := hold c₁ hne₁ h₁
        have hb := ((hne₂ ▸ ha₂).block_eq hnew).symm.trans (ha₁.block_eq harrays)
        omega
      · obtain ⟨chain₁', b₁, -, -, hs₁, hs₁'⟩ := hold c₁ hne₁ h₁
        obtain ⟨chain₂', b₂, -, -, hs₂, hs₂'⟩ := hold c₂ hne₂ h₂
        obtain rfl := ha₁.block_eq hs₁'
        obtain rfl := ha₂.block_eq hs₂'
        exact h.apart c₁ c₂ chain₁' chain₂' _ ⟨h₁.1, hother c₁ hne₁ ▸ h₁.2⟩
          ⟨h₂.1, hother c₂ hne₂ ▸ h₂.2⟩ hs₁ hs₂

end ClassSystem

/-! ### All runs -/

/-- **The runs**: any calls of `ocoms_class_initialize`. -/
inductive ClassRun {κ φ : Type} [DecidableEq κ] (s₀ : ClassSystem κ φ) : ClassSystem κ φ → Prop
  | start : ClassRun s₀ s₀
  | call {s s' : ClassSystem κ φ} (c : κ) (fuel : ℕ) : ClassRun s₀ s →
      s.classInitialize c fuel = some s' → ClassRun s₀ s'

section Runs

open ClassSystem

variable {κ φ : Type} [DecidableEq κ] {s₀ s : ClassSystem κ φ}

lemma ClassRun.inv (h : ClassRun s₀ s) : ClassInv s₀ s := by
  induction h with
  | start =>
      refine ⟨.refl _, fun c hbuilt => ?_, fun c _ _ _ _ hbuilt _ _ _ => ?_⟩ <;>
      · cases hbuilt.1.symm.trans hbuilt.2
  | call c fuel _ hcall ih => exact ih.call hcall

/-- **The arrays follow the class chain**, in every state of every run, for the classes that were not
initialized at the start: one block holds the constructors from the root class down and the destructors
up to the root class, each up to a `NULL`. No cell belongs to two arrays. A call returns, for a class
with any number of parents. -/
theorem class_arrays_follow_chain (hrun : ClassRun s₀ s) :
    (∀ c chain fuel, ClassChain s₀.classOf (some c) chain → chain.length ≤ fuel →
      ∃ s', s.classInitialize c fuel = some s' ∧ (s'.classOf c).initialized = true) ∧
    (∀ c chain, InitializedSince s₀ s c → ClassChain s₀.classOf (some c) chain →
      ∃ p q cells, s.arrayOf c .construct = some p ∧ s.arrayOf c .destruct = some q ∧
        s.functions p = some (constructsOf s₀.classOf chain).reverse ∧
        s.functions q = some (destructsOf s₀.classOf chain) ∧
        s.blocks[p.block]? = some cells ∧
        ∀ k block i, s.Occupies c k block i → block = p.block ∧ i < cells.length) ∧
    ∀ c c' k k' block i, InitializedSince s₀ s c → InitializedSince s₀ s c' → s.Occupies c k block i →
      s.Occupies c' k' block i → c = c' ∧ k = k' := by
  have hinv := hrun.inv
  refine ⟨fun c chain fuel hchain hfuel => ?_, fun c chain hbuilt hchain => ?_,
    fun c c' k k' block i hbuilt hbuilt' hi hi' => ?_⟩
  · by_cases hinit : (s.classOf c).initialized = true
    · exact ⟨s, by rw [classInitialize, if_pos hinit], hinit⟩
    · obtain ⟨s', d, hcall, hclassOf, -, hd, -⟩ := classInitialize_spec
        (Bool.eq_false_of_not_eq_true hinit) (hinv.same.classChain hchain) hfuel
      refine ⟨s', hcall, ?_⟩
      rw [hclassOf, Function.update_self, hd]
  · obtain ⟨chain', b, hchain', harrays⟩ := hinv.built c hbuilt
    obtain rfl := chain_unique hchain hchain'
    refine ⟨_, _, _, harrays.construct, harrays.destruct, harrays.functions_construct,
      harrays.functions_destruct, harrays.block, fun k block i hi => ?_⟩
    obtain ⟨hblock, hbound⟩ := harrays.occupies hi
    refine ⟨hblock, ?_⟩
    rw [length_arraysBlock]
    cases k <;> dsimp only at hbound <;> omega
  · obtain ⟨chain, b, hchain, harrays⟩ := hinv.built c hbuilt
    obtain ⟨chain', b', hchain', harrays'⟩ := hinv.built c' hbuilt'
    obtain ⟨rfl, hbound⟩ := harrays.occupies hi
    obtain ⟨rfl, hbound'⟩ := harrays'.occupies hi'
    obtain rfl := hinv.apart c c' chain chain' block hbuilt hbuilt' harrays harrays'
    obtain rfl := chain_unique hchain hchain'
    refine ⟨rfl, ?_⟩
    cases k <;> cases k' <;> first | rfl | (dsimp only at hbound hbound'; omega)

/-- A class with a constructor and a destructor, whose parent has a constructor only. -/
theorem class_arrays_follow_chain_two : ∃ (s₀ s : ClassSystem ℕ ℕ) (p q : FnPtr),
    s₀.classOf 0 = ocomsObjectTClass ∧ s₀.classOf 1 = classInstance 0 (some 10) none ∧
      s₀.classOf 2 = classInstance 1 (some 20) (some 21) ∧ s₀.classInitialize 2 3 = some s ∧
      s.arrayOf 2 .construct = some p ∧ s.functions p = some [10, 20] ∧
      s.arrayOf 2 .destruct = some q ∧ s.functions q = some [21] := by
  obtain ⟨s₀, hs₀⟩ : ∃ s₀ : ClassSystem ℕ ℕ, s₀ = ⟨fun c => match c with
    | 0 => ocomsObjectTClass
    | 1 => classInstance 0 (some 10) none
    | _ => classInstance 1 (some 20) (some 21), [], [], 0⟩ := ⟨_, rfl⟩
  have hchain : ClassChain s₀.classOf (some 2) [2, 1, 0] := by
    rw [hs₀]
    exact .cons (.cons (.cons .root))
  obtain ⟨s, hcall, hinit⟩ := (class_arrays_follow_chain (.start : ClassRun s₀ s₀)).1 2 _ 3 hchain
    (Nat.le_refl _)
  have hbuilt : InitializedSince s₀ s 2 := ⟨by rw [hs₀]; rfl, hinit⟩
  obtain ⟨p, q, cells, hp, hq, hconstructs, hdestructs, -⟩ :=
    (class_arrays_follow_chain (.call 2 3 .start hcall)).2.1 2 _ hbuilt hchain
  refine ⟨s₀, s, p, q, hs₀ ▸ rfl, hs₀ ▸ rfl, hs₀ ▸ rfl, hcall, hp, ?_, hq, ?_⟩
  · rw [hconstructs, hs₀]
    rfl
  · rw [hdestructs, hs₀]
    rfl

/-- The class of the base object has no arrays: it is marked as initialized from the start. -/
theorem class_arrays_object_t : ¬ ∀ (s s' : ClassSystem ℕ ℕ) (c : ℕ) (chain : List ℕ) (fuel : ℕ),
    ClassChain s.classOf (some c) chain → s.classInitialize c fuel = some s' →
      ∃ p, s'.arrayOf c .construct = some p ∧
        s'.functions p = some (constructsOf s.classOf chain).reverse := by
  intro h
  obtain ⟨p, hp, -⟩ := h ⟨fun _ => ocomsObjectTClass, [], [], 0⟩ _ 0 [0] 1 (.cons .root) rfl
  cases hp

end Runs

end Ocoms
