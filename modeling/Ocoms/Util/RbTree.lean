import Ocoms.Lib.Loop
import Ocoms.Lib.ParentTree
import Mathlib.Data.Int.Notation

/-!
The red-black tree: `ocoms_rb_tree.c`.

* `RbTree` is the memory of the tree: the fields of all nodes, with `root_ptr` and `nill`.
* `RbTree.rotate`, `insertRound` and `deleteRound` are the code for both sides. `leftRotate` and
  `rightRotate` are the functions of the source.
* The loops have a fuel argument; `none` says that it has run out.
* A node comes from the free list, which is a parameter: an insertion gets a node, or none.
-/

namespace Ocoms

/-- The return codes. -/
inductive RbTreeRc
  | success
  | tempOutOfResource
  | notFound
  deriving DecidableEq

/-- `ocoms_rb_tree_t` with the nodes. A value is a pointer, which can be `NULL`. -/
structure RbTree (ν κ β : Type*) extends TreeLinks ν where
  treeSize : ℕ
  comp : κ → κ → ℤ
  color : ν → NodeColor
  key : ν → κ
  value : ν → Option β

/-- `left_rotate`, and `right_rotate` for the other side, on the links. -/
def TreeLinks.rotate {ν : Type*} [DecidableEq ν] (s : TreeLinks ν) (side : Side) (x : ν) :
    TreeLinks ν :=
  let y := s.child side.other x
  -- the child of `y` gets the parent `x` if it is not the sentinel
  let s := if s.child side y ≠ s.nill then s.setParent (s.child side y) x else s
  let s :=
    if x = s.child .left (s.parent x) then s.setChild .left (s.parent x) y
    else s.setChild .right (s.parent x) y
  let s := s.setParent y (s.parent x)
  let s := s.setParent x y
  let s := s.setChild side.other x (s.child side y)
  s.setChild side y x

namespace RbTree

variable {ν κ β : Type*} [DecidableEq ν]

/-- The `color` of a node is written. -/
def setColor (s : RbTree ν κ β) (i : ν) (c : NodeColor) : RbTree ν κ β :=
  { s with color := Function.update s.color i c }

/-- The `parent` of a node is written. -/
def setParent (s : RbTree ν κ β) (i p : ν) : RbTree ν κ β :=
  { s with toTreeLinks := s.toTreeLinks.setParent i p }

/-- The `left` or `right` of a node is written. -/
def setChild (s : RbTree ν κ β) (side : Side) (i j : ν) : RbTree ν κ β :=
  { s with toTreeLinks := s.toTreeLinks.setChild side i j }

/-- The `key` and the `value` of a node are written. -/
def setEntry (s : RbTree ν κ β) (i : ν) (key : κ) (value : Option β) : RbTree ν κ β :=
  { s with key := Function.update s.key i key, value := Function.update s.value i value }

/-- A rotation of the tree. -/
def rotate (s : RbTree ν κ β) (side : Side) (x : ν) : RbTree ν κ β :=
  { s with toTreeLinks := s.toTreeLinks.rotate side x }

/-- `left_rotate`. -/
def leftRotate (s : RbTree ν κ β) (x : ν) : RbTree ν κ β :=
  s.rotate .left x

/-- `right_rotate`. -/
def rightRotate (s : RbTree ν κ β) (x : ν) : RbTree ν κ β :=
  s.rotate .right x

/-- `ocoms_rb_tree_init`, with the two nodes that the free list has given. -/
def init (s : RbTree ν κ β) (rootPtr nill : ν) (comp : κ → κ → ℤ) : RbTree ν κ β :=
  let s := { s with rootPtr := rootPtr, nill := nill }
  let s := s.setColor nill .black
  let s := s.setChild .left nill nill
  let s := s.setChild .right nill nill
  let s := s.setParent nill nill
  let s := s.setChild .left rootPtr nill
  let s := s.setChild .right rootPtr nill
  let s := s.setParent rootPtr nill
  let s := s.setColor rootPtr .black
  { s with comp := comp, treeSize := 0 }

/-! ### Search -/

/-- The loop of `ocoms_rb_tree_find_with` and `ocoms_rb_tree_find_node`, which have the same text. -/
def searchRound {ρ : Type*} (s : RbTree ν κ β) (compfn : κ → κ → ℤ) (key : κ) (found : ν → ρ)
    (missing : ρ) (node : ν) : ν ⊕ ρ :=
  if node ≠ s.nill then
    let compvalue := compfn key (s.key node)
    if compvalue = 0 then .inr (found node)
    else .inl (if compvalue < 0 then s.child .left node else s.child .right node)
  else .inr missing

/-- `ocoms_rb_tree_find_with`. -/
def findWith (s : RbTree ν κ β) (key : κ) (compfn : κ → κ → ℤ) (fuel : ℕ) : Option (Option β) :=
  loop (s.searchRound compfn key s.value none) fuel (s.child .left s.rootPtr)

/-- `ocoms_rb_tree_find`. -/
def find (s : RbTree ν κ β) (key : κ) (fuel : ℕ) : Option (Option β) :=
  s.findWith key s.comp fuel

/-- `ocoms_rb_tree_find_node`. -/
def findNode (s : RbTree ν κ β) (key : κ) (fuel : ℕ) : Option (Option ν) :=
  loop (s.searchRound s.comp key some none) fuel (s.child .left s.rootPtr)

/-! ### Insertion -/

/-- The loop of `btree_insert`, with the variables `parent` and `n`. -/
def findLeafRound (s : RbTree ν κ β) (node : ν) : ν × ν → (ν × ν) ⊕ ν
  | (parent, n) =>
      if n ≠ s.nill then
        .inl (n, if s.comp (s.key node) (s.key n) ≤ 0 then s.child .left n else s.child .right n)
      else .inr parent

/-- The leaf where the node will be inserted. -/
def findLeaf (s : RbTree ν κ β) (node : ν) (fuel : ℕ) : Option ν :=
  loop (s.findLeafRound node) fuel (s.rootPtr, s.child .left s.rootPtr)

/-- The part of `btree_insert` that places the node on either the left or the right. -/
def placeLeaf (s : RbTree ν κ β) (node parent : ν) : RbTree ν κ β :=
  let s :=
    if parent = s.rootPtr ∨ s.comp (s.key node) (s.key parent) ≤ 0 then s.setChild .left parent node
    else s.setChild .right parent node
  let s := s.setParent node parent
  let s := s.setChild .left node s.nill
  let s := s.setChild .right node s.nill
  { s with treeSize := s.treeSize + 1 }

/-- `btree_insert`. The source first writes `NULL` to the parent of the node, which nobody reads. -/
def btreeInsert (s : RbTree ν κ β) (node : ν) (fuel : ℕ) : Option (RbTree ν κ β) :=
  let s := s.setColor node .red
  let s := s.setChild .left node s.nill
  let s := s.setChild .right node s.nill
  (s.findLeaf node fuel).map (s.placeLeaf node)

/-- One round of the rotations after an insertion, when the parent of the node is red and is a child
at `side`. -/
def insertRound (side : Side) (s : RbTree ν κ β) (node : ν) : RbTree ν κ β × ν :=
  let y := s.child side.other (s.parent (s.parent node))
  if s.color y = .red then
    let s := s.setColor (s.parent node) .black
    let s := s.setColor y .black
    let s := s.setColor (s.parent (s.parent node)) .red
    (s, s.parent (s.parent node))
  else
    let (s, node) :=
      if node = s.child side.other (s.parent node) then
        (s.rotate side (s.parent node), s.parent node)
      else (s, node)
    let s := s.setColor (s.parent node) .black
    let s := s.setColor (s.parent (s.parent node)) .red
    (s.rotate side.other (s.parent (s.parent node)), node)

/-- The loop of `ocoms_rb_tree_insert`. -/
def insertFixupRound : RbTree ν κ β × ν → (RbTree ν κ β × ν) ⊕ RbTree ν κ β
  | (s, node) =>
      if s.color (s.parent node) = .red then
        if s.parent node = s.child .left (s.parent (s.parent node)) then
          .inl (insertRound .left s node)
        else .inl (insertRound .right s node)
      else .inr s

/-- The rotations after an insertion. -/
def insertFixup (s : RbTree ν κ β) (node : ν) (fuel : ℕ) : Option (RbTree ν κ β) :=
  loop insertFixupRound fuel (s, node)

/-- `ocoms_rb_tree_insert`. The free list gives the node `item`. -/
def insert (s : RbTree ν κ β) (item : Option ν) (key : κ) (value : Option β) (fuel : ℕ) :
    Option (RbTreeRc × RbTree ν κ β) :=
  match item with
  | none => some (.tempOutOfResource, s)
  | some node => do
      let s := s.setEntry node key value
      let s ← s.btreeInsert node fuel
      let s ← s.insertFixup node fuel
      some (.success, s.setColor (s.child .left s.rootPtr) .black)

/-! ### Deletion -/

/-- The loop of `btree_successor` that goes up, with the variables `node` and `p`. -/
def successorUpRound (s : RbTree ν κ β) : ν × ν → (ν × ν) ⊕ ν
  | (node, p) => if node = s.child .right p then .inl (p, s.parent p) else .inr p

/-- The loop of `btree_successor` that goes down. -/
def successorDownRound (s : RbTree ν κ β) (p : ν) : ν ⊕ ν :=
  if s.child .left p ≠ s.nill then .inl (s.child .left p) else .inr p

/-- `btree_successor`. -/
def btreeSuccessor (s : RbTree ν κ β) (node : ν) (fuel : ℕ) : Option ν :=
  if s.child .right node = s.nill then
    (loop s.successorUpRound fuel (node, s.parent node)).map fun p =>
      if p = s.rootPtr then s.nill else p
  else loop s.successorDownRound fuel (s.child .right node)

/-- A round of `btree_delete_fixup` on a red sibling `w`: afterwards the sibling is black. -/
def deleteRedSibling (side : Side) (s : RbTree ν κ β) (x w : ν) : RbTree ν κ β × ν :=
  let s := s.setColor w .black
  let s := s.setColor (s.parent x) .red
  let s := s.rotate side (s.parent x)
  (s, s.child side.other (s.parent x))

/-- A round on a sibling `w` with a black child at the other side: afterwards that child is red. -/
def deleteInner (side : Side) (s : RbTree ν κ β) (x w : ν) : RbTree ν κ β × ν :=
  let s := s.setColor (s.child side w) .black
  let s := s.setColor w .red
  let s := s.rotate side.other w
  (s, s.child side.other (s.parent x))

/-- The end of the last round. -/
def deleteLast (side : Side) (s : RbTree ν κ β) (x w : ν) : RbTree ν κ β :=
  let s := s.setColor w (s.color (s.parent x))
  let s := s.setColor (s.parent x) .black
  let s := s.setColor (s.child side.other w) .black
  s.rotate side (s.parent x)

/-- A round on a black sibling `w`. -/
def deleteBlackSibling (side : Side) (root : ν) (s : RbTree ν κ β) (x w : ν) : RbTree ν κ β × ν :=
  if s.color (s.child side w) = .black ∧ s.color (s.child side.other w) = .black then
    (s.setColor w .red, s.parent x)
  else
    let (s, w) :=
      if s.color (s.child side.other w) = .black then deleteInner side s x w else (s, w)
    (deleteLast side s x w, root)

/-- One round of `btree_delete_fixup`, when `x` is a child at `side`. -/
def deleteRound (side : Side) (root : ν) (s : RbTree ν κ β) (x : ν) : RbTree ν κ β × ν :=
  let w := s.child side.other (s.parent x)
  let (s, w) := if s.color w = .red then deleteRedSibling side s x w else (s, w)
  deleteBlackSibling side root s x w

/-- The loop of `btree_delete_fixup`. -/
def deleteFixupRound (root : ν) : RbTree ν κ β × ν → (RbTree ν κ β × ν) ⊕ RbTree ν κ β
  | (s, x) =>
      if x ≠ root ∧ s.color x = .black then
        if x = s.child .left (s.parent x) then .inl (deleteRound .left root s x)
        else .inl (deleteRound .right root s x)
      else .inr (s.setColor x .black)

/-- `btree_delete_fixup`. -/
def btreeDeleteFixup (s : RbTree ν κ β) (x : ν) (fuel : ℕ) : Option (RbTree ν κ β) :=
  let root := s.child .left s.rootPtr
  loop (deleteFixupRound root) fuel (s, x)

/-- The part of `ocoms_rb_tree_delete` that takes `todelete` out of the tree, with the child that
comes to its place. -/
def spliceOut (s : RbTree ν κ β) (todelete : ν) : RbTree ν κ β × ν :=
  let y :=
    if s.child .left todelete = s.nill then s.child .right todelete else s.child .left todelete
  let s := s.setParent y (s.parent todelete)
  if s.parent y = s.rootPtr then (s.setChild .left s.rootPtr y, y)
  else if todelete = s.child .left (s.parent todelete) then
    (s.setChild .left (s.parent todelete) y, y)
  else (s.setChild .right (s.parent todelete) y, y)

/-- `ocoms_rb_tree_delete`. The node that goes back to the free list is returned as well. -/
def delete (s : RbTree ν κ β) (key : κ) (fuel : ℕ) :
    Option (RbTreeRc × Option ν × RbTree ν κ β) :=
  (s.findNode key fuel).bind fun
  | none => some (.notFound, none, s)
  | some p =>
      (if s.child .left p = s.nill ∨ s.child .right p = s.nill then some p
        else s.btreeSuccessor p fuel).bind fun todelete =>
        let (s, y) := s.spliceOut todelete
        let s := if todelete ≠ p then s.setEntry p (s.key todelete) (s.value todelete) else s
        (if s.color todelete = .black then s.btreeDeleteFixup y fuel else some s).map fun s =>
          (.success, some todelete, { s with treeSize := s.treeSize - 1 })

end RbTree

end Ocoms
