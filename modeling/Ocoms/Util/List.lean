import Mathlib.Data.Set.Card
import Mathlib.Dynamics.PeriodicPts.Defs
import Ocoms.Lib.Links

/-!
The doubly linked list: `ocoms_list.h` and `ocoms_list.c`.

* `Lists L ι` is the memory of the lists `L` and the items `ι`: the pointers of every item and of
  the sentinel of every list, and the counter of every list. The functions of the source are the
  same writes to it, in the same order.
* `ListOp.apply` is what an operation means for sequences. `Lists.Refines` is the invariant between
  the memory and the sequences; taking nodes out and putting nodes in keep it
  (`Lists.Refines.excise`, `Lists.Refines.graft`), and every operation is one or both of them.
* `lists_refine_sequences` is the theorem about any sequence of operations.
-/

namespace Ocoms

/-- A pointer to an `ocoms_list_item_t`: the sentinel of a list, or an item. -/
inductive ListItem (L ι : Type*)
  | sentinel (list : L)
  | item (i : ι)
  deriving DecidableEq

/-- The pointers of all sentinels and items, and `ocoms_list_length` of all lists. -/
structure Lists (L ι : Type*) where
  links : Links (ListItem L ι)
  length : L → ℕ

/-- The largest value of an `int`. -/
def intMax : ℤ := 2 ^ 31 - 1

variable {L ι : Type*} [DecidableEq L] [DecidableEq ι]

namespace Lists

/-! ### The functions of the source -/

/-- The field `ocoms_list_next`. -/
def next (h : Lists L ι) (x : ListItem L ι) : ListItem L ι := h.links.next x

/-- The field `ocoms_list_prev`. -/
def prev (h : Lists L ι) (x : ListItem L ι) : ListItem L ι := h.links.prev x

/-- Writes the field `ocoms_list_next`. -/
def setNext (h : Lists L ι) (x y : ListItem L ι) : Lists L ι :=
  { h with links := { h.links with next := Function.update h.links.next x y } }

/-- Writes the field `ocoms_list_prev`. -/
def setPrev (h : Lists L ι) (x y : ListItem L ι) : Lists L ι :=
  { h with links := { h.links with prev := Function.update h.links.prev x y } }

/-- Writes `ocoms_list_length`. -/
def setLength (h : Lists L ι) (list : L) (n : ℕ) : Lists L ι :=
  { h with length := Function.update h.length list n }

/-- `ocoms_list_construct`, for every list. -/
def construct : Lists L ι where
  links := { next := id, prev := id }
  length := fun _ => 0

/-- `ocoms_list_append`. -/
def append (h : Lists L ι) (list : L) (item : ι) : Lists L ι :=
  let h := h.setPrev (.item item) (h.prev (.sentinel list))
  let h := h.setNext (h.prev (.sentinel list)) (.item item)
  let h := h.setNext (.item item) (.sentinel list)
  let h := h.setPrev (.sentinel list) (.item item)
  h.setLength list (h.length list + 1)

/-- `ocoms_list_prepend`. -/
def prepend (h : Lists L ι) (list : L) (item : ι) : Lists L ι :=
  let h := h.setNext (.item item) (h.next (.sentinel list))
  let h := h.setPrev (.item item) (.sentinel list)
  let h := h.setPrev (h.next (.sentinel list)) (.item item)
  let h := h.setNext (.sentinel list) (.item item)
  h.setLength list (h.length list + 1)

/-- `ocoms_list_insert`. The loop counter is an `int`; where it would overflow there is no
result. -/
def insert (h : Lists L ι) (list : L) (item : ι) (idx : ℤ) : Option (Lists L ι × Bool) :=
  if (h.length list : ℤ) ≤ idx then some (h, false)
  else if idx = 0 then
    let h := h.prepend list item
    some (h.setLength list (h.length list + 1), true)
  else if intMax < idx - 1 then none
  else
    let ptr := h.next^[(idx - 1).toNat] (h.next (.sentinel list))
    let next := h.next ptr
    let h := h.setNext (.item item) next
    let h := h.setPrev (.item item) ptr
    let h := h.setPrev next (.item item)
    let h := h.setNext ptr (.item item)
    some (h.setLength list (h.length list + 1), true)

/-- `ocoms_list_insert_pos`. -/
def insertPos (h : Lists L ι) (list : L) (pos : ListItem L ι) (item : ι) : Lists L ι :=
  let h := h.setNext (.item item) pos
  let h := h.setPrev (.item item) (h.prev pos)
  let h := h.setNext (h.prev pos) (.item item)
  let h := h.setPrev pos (.item item)
  h.setLength list (h.length list + 1)

/-- `ocoms_list_remove_item`, with the pointer that it returns. -/
def removeItem (h : Lists L ι) (list : L) (item : ι) : Lists L ι × ListItem L ι :=
  let h := h.setNext (h.prev (.item item)) (h.next (.item item))
  let h := h.setPrev (h.next (.item item)) (h.prev (.item item))
  let h := h.setLength list (h.length list - 1)
  (h, h.prev (.item item))

/-- `ocoms_list_remove_first`, with the pointer that it returns. -/
def removeFirst (h : Lists L ι) (list : L) : Lists L ι × Option (ListItem L ι) :=
  if h.length list = 0 then (h, none)
  else
    let h := h.setLength list (h.length list - 1)
    let item := h.next (.sentinel list)
    let h := h.setPrev (h.next item) (h.prev item)
    let h := h.setNext (.sentinel list) (h.next item)
    (h, some item)

/-- `ocoms_list_remove_last`, with the pointer that it returns. -/
def removeLast (h : Lists L ι) (list : L) : Lists L ι × Option (ListItem L ι) :=
  if h.length list = 0 then (h, none)
  else
    let h := h.setLength list (h.length list - 1)
    let item := h.prev (.sentinel list)
    let h := h.setNext (h.prev item) (h.next item)
    let h := h.setPrev (.sentinel list) (h.prev item)
    (h, some item)

/-- `ocoms_list_transfer`; the range is `[start, stop)`. -/
def transfer (h : Lists L ι) (pos start stop : ListItem L ι) : Lists L ι :=
  if pos = stop then h
  else
    let h := h.setNext (h.prev stop) pos
    let h := h.setNext (h.prev start) stop
    let h := h.setNext (h.prev pos) start
    let tmp := h.prev pos
    let h := h.setPrev pos (h.prev stop)
    let h := h.setPrev stop (h.prev start)
    h.setPrev start tmp

/-- `ocoms_list_join`. -/
def join (h : Lists L ι) (thislist : L) (pos : ListItem L ι) (xlist : L) : Lists L ι :=
  if h.length xlist = 0 then h
  else
    let h := h.transfer pos (h.next (.sentinel xlist)) (.sentinel xlist)
    let h := h.setLength thislist (h.length thislist + h.length xlist)
    h.setLength xlist 0

/-- The loop of `ocoms_list_splice` that counts the items of `[tmp, last)`. -/
def countRange (h : Lists L ι) : ℕ → ListItem L ι → ListItem L ι → Option ℕ
  | 0, _, _ => none
  | fuel + 1, tmp, last =>
      if tmp = last then some 0
      else (h.countRange fuel (h.next tmp) last).map (· + 1)

/-- `ocoms_list_splice`. -/
def splice (h : Lists L ι) (fuel : ℕ) (thislist : L) (pos : ListItem L ι) (xlist : L)
    (first last : ListItem L ι) : Option (Lists L ι) :=
  if first = last then some h
  else (h.countRange fuel first last).map fun change =>
    let h := h.transfer pos first last
    let h := h.setLength thislist (h.length thislist + change)
    h.setLength xlist (h.length xlist - change)

lemma transfer_length (h : Lists L ι) (pos start stop : ListItem L ι) :
    (h.transfer pos start stop).length = h.length := by
  rw [transfer]
  split <;> rfl

end Lists

/-! ### Operations -/

/-- The operations on lists. The position `none` is the end of a list, its sentinel. -/
inductive ListOp (L ι : Type*)
  | append (list : L) (item : ι)
  | prepend (list : L) (item : ι)
  | insert (list : L) (item : ι) (idx : ℤ)
  | insertPos (list : L) (pos : Option ι) (item : ι)
  | removeFirst (list : L)
  | removeLast (list : L)
  | removeItem (list : L) (item : ι)
  | join (thislist : L) (pos : Option ι) (xlist : L)
  | splice (thislist : L) (pos : Option ι) (xlist : L) (first last : Option ι)

/-- What an operation returns. -/
inductive ListRet (L ι : Type*)
  | void
  | bool (b : Bool)
  | pointer (p : Option (ListItem L ι))

/-- The pointer to a position of a list. -/
def ListItem.ofPos (list : L) (pos : Option ι) : ListItem L ι :=
  pos.elim (.sentinel list) .item

/-- Runs an operation on the memory; `fuel` bounds the loop of `ocoms_list_splice`. -/
def ListOp.exec (fuel : ℕ) (h : Lists L ι) : ListOp L ι → Option (Lists L ι × ListRet L ι)
  | .append list item => some (h.append list item, .void)
  | .prepend list item => some (h.prepend list item, .void)
  | .insert list item idx => (h.insert list item idx).map fun r => (r.1, .bool r.2)
  | .insertPos list pos item => some (h.insertPos list (.ofPos list pos) item, .void)
  | .removeFirst list => some ((h.removeFirst list).1, .pointer (h.removeFirst list).2)
  | .removeLast list => some ((h.removeLast list).1, .pointer (h.removeLast list).2)
  | .removeItem list item =>
      some ((h.removeItem list item).1, .pointer (some (h.removeItem list item).2))
  | .join thislist pos xlist => some (h.join thislist (.ofPos thislist pos) xlist, .void)
  | .splice thislist pos xlist first last =>
      (h.splice fuel thislist (.ofPos thislist pos) xlist (.ofPos xlist first)
        (.ofPos xlist last)).map fun h => (h, .void)

/-- Runs operations one after the other. -/
def runListOps (fuel : ℕ) : List (ListOp L ι) → Lists L ι → Option (Lists L ι × List (ListRet L ι))
  | [], h => some (h, [])
  | op :: ops, h => (op.exec fuel h).bind fun r =>
      (runListOps fuel ops r.1).map fun q => (q.1, r.2 :: q.2)

/-! ### What the operations mean for sequences -/

/-- The items in front of a position. -/
def upTo (pos : Option ι) (xs : List ι) : List ι :=
  pos.elim xs fun p => xs.takeWhile (· ≠ p)

/-- The items from a position on. -/
def onward (pos : Option ι) (xs : List ι) : List ι :=
  pos.elim [] fun p => xs.dropWhile (· ≠ p)

/-- The sequences after an operation, and what it returns. An index at or behind the end, or a
negative one, is refused. -/
def ListOp.apply (σ : L → List ι) : ListOp L ι → (L → List ι) × ListRet L ι
  | .append list item => (Function.update σ list (σ list ++ [item]), .void)
  | .prepend list item => (Function.update σ list (item :: σ list), .void)
  | .insert list item idx =>
      if 0 ≤ idx ∧ idx < (σ list).length then
        (Function.update σ list ((σ list).take idx.toNat ++ item :: (σ list).drop idx.toNat),
          .bool true)
      else (σ, .bool false)
  | .insertPos list pos item =>
      (Function.update σ list (upTo pos (σ list) ++ item :: onward pos (σ list)), .void)
  | .removeFirst list =>
      (Function.update σ list (σ list).tail, .pointer ((σ list).head?.map .item))
  | .removeLast list =>
      (Function.update σ list (σ list).dropLast, .pointer ((σ list).getLast?.map .item))
  | .removeItem list item =>
      (Function.update σ list ((σ list).erase item),
        .pointer (some (.ofPos list (upTo (some item) (σ list)).getLast?)))
  | .join thislist pos xlist =>
      let τ := Function.update σ xlist []
      (Function.update τ thislist
        (upTo pos (τ thislist) ++ σ xlist ++ onward pos (τ thislist)), .void)
  | .splice thislist pos xlist first last =>
      let moved := upTo last (onward first (σ xlist))
      let τ := Function.update σ xlist
        (upTo first (σ xlist) ++ onward last (onward first (σ xlist)))
      (Function.update τ thislist
        (upTo pos (τ thislist) ++ moved ++ onward pos (τ thislist)), .void)

/-- Applies operations one after the other. -/
def applyListOps : List (ListOp L ι) → (L → List ι) → (L → List ι) × List (ListRet L ι)
  | [], σ => (σ, [])
  | op :: ops, σ =>
      ((applyListOps ops (op.apply σ).1).1, (op.apply σ).2 :: (applyListOps ops (op.apply σ).1).2)

/-- An operation gets an item that is on no list, positions on their lists, and no position within
the range that it moves. -/
def ListOp.Valid (σ : L → List ι) : ListOp L ι → Prop
  | .append _ item | .prepend _ item | .insert _ item _ => ∀ l, item ∉ σ l
  | .insertPos list pos item => (∀ p ∈ pos, p ∈ σ list) ∧ ∀ l, item ∉ σ l
  | .removeFirst _ | .removeLast _ => True
  | .removeItem list item => item ∈ σ list
  | .join thislist pos xlist => (∀ p ∈ pos, p ∈ σ thislist) ∧ ∀ p ∈ pos, p ∉ σ xlist
  | .splice thislist pos xlist first last =>
      (∀ p ∈ pos, p ∈ σ thislist) ∧ (∀ p ∈ first, p ∈ σ xlist) ∧
        (∀ p ∈ last, p ∈ onward first (σ xlist)) ∧
        ∀ p ∈ pos, p ∉ upTo last (onward first (σ xlist))

/-- The operation keeps the counter: an item is inserted at an index that is positive and that the
loop counter reaches, or behind the end, and no list is joined with itself. -/
def ListOp.KeepsCount (σ : L → List ι) : ListOp L ι → Prop
  | .insert list _ idx => 0 < idx ∧ idx ≤ intMax + 1 ∨ ((σ list).length : ℤ) ≤ idx
  | .join thislist _ xlist => thislist = xlist → σ xlist = []
  | _ => True

/-- Every operation meets the condition `P` where it is applied. -/
def ListOp.All (P : (L → List ι) → ListOp L ι → Prop) : List (ListOp L ι) → (L → List ι) → Prop
  | [], _ => True
  | op :: ops, σ => P σ op ∧ All P ops (op.apply σ).1

/-! ### Positions -/

section Positions

omit [DecidableEq L]

lemma upTo_append_onward (pos : Option ι) (xs : List ι) : upTo pos xs ++ onward pos xs = xs := by
  cases pos with
  | none => exact List.append_nil xs
  | some p => exact List.takeWhile_append_dropWhile

lemma upTo_append_cons {p : ι} {as : List ι} (bs : List ι) (hp : p ∉ as) :
    upTo (some p) (as ++ p :: bs) = as := by
  induction as with
  | nil => simp [upTo]
  | cons a as ih =>
      obtain ⟨hne, hp⟩ := List.ne_and_not_mem_of_not_mem_cons hp
      have hstep : upTo (some p) (a :: as ++ p :: bs) = a :: upTo (some p) (as ++ p :: bs) := by
        simp [upTo, Ne.symm hne]
      rw [hstep, ih hp]

lemma onward_append_cons {p : ι} {as : List ι} (bs : List ι) (hp : p ∉ as) :
    onward (some p) (as ++ p :: bs) = p :: bs := by
  have h := upTo_append_onward (some p) (as ++ p :: bs)
  rw [upTo_append_cons bs hp] at h
  exact List.append_cancel_left h

lemma upTo_subset (pos : Option ι) (xs : List ι) : upTo pos xs ⊆ xs := by
  nth_rewrite 2 [← upTo_append_onward pos xs]
  exact List.subset_append_left _ _

lemma onward_subset (pos : Option ι) (xs : List ι) : onward pos xs ⊆ xs := by
  nth_rewrite 2 [← upTo_append_onward pos xs]
  exact List.subset_append_right _ _

/-- A position of a list is the pointer to what is onward of it. -/
lemma head?_onward {pos : Option ι} {xs : List ι} (hpos : ∀ p ∈ pos, p ∈ xs) :
    (onward pos xs).head? = pos := by
  cases pos with
  | none => rfl
  | some p =>
      obtain ⟨as, bs, rfl, has⟩ := List.eq_append_cons_of_mem (hpos p rfl)
      rw [onward_append_cons bs has, List.head?_cons]

end Positions

section Nodes

omit [DecidableEq L] [DecidableEq ι]

/-- The nodes of the items `xs` at the end of a list, up to its sentinel. -/
def nodes (list : L) (xs : List ι) : List (ListItem L ι) := xs.map .item ++ [.sentinel list]

lemma nodes_append (list : L) (xs ys : List ι) :
    nodes list (xs ++ ys) = xs.map .item ++ nodes list ys := by
  rw [nodes, List.map_append, List.append_assoc, nodes]

/-- The first of the nodes. -/
lemma exists_nodes (list : L) (xs : List ι) :
    ∃ ns, nodes list xs = ListItem.ofPos list xs.head? :: ns := by
  cases xs with
  | nil => exact ⟨[], rfl⟩
  | cons x xs => exact ⟨nodes list xs, rfl⟩

@[simp] lemma item_mem_nodes {list : L} {xs : List ι} {i : ι} :
    .item i ∈ nodes list xs ↔ i ∈ xs := by simp [nodes]

@[simp] lemma sentinel_mem_nodes {list l : L} {xs : List ι} :
    .sentinel l ∈ nodes list xs ↔ l = list := by simp [nodes]

lemma ofPos_mem_nodes {list : L} {pos : Option ι} {xs : List ι} (h : ∀ p ∈ pos, p ∈ xs) :
    .ofPos list pos ∈ nodes list xs := by
  cases pos with
  | none => exact sentinel_mem_nodes.mpr rfl
  | some p => exact item_mem_nodes.mpr (h p rfl)

lemma nodup_nodes (list : L) {xs : List ι} (h : xs.Nodup) : (nodes list xs).Nodup := by
  refine List.nodup_append.mpr
    ⟨h.map fun _ _ => ListItem.item.inj, List.nodup_singleton _, fun x hx y hy hxy => ?_⟩
  obtain ⟨i, -, rfl⟩ := List.mem_map.mp hx
  obtain rfl := List.mem_singleton.mp hy
  cases hxy

end Nodes

/-! ### Refinement -/

namespace Lists

/-- **The invariant**: the nodes of every list are a ring through its sentinel, the counter counts
its items, and every item is at one place of one list. -/
structure Refines (h : Lists L ι) (σ : L → List ι) : Prop where
  ring : ∀ l, (.sentinel l :: nodes l (σ l)).IsChain h.links.Joined
  length : ∀ l, h.length l = (σ l).length
  nodup : ∀ l, (σ l).Nodup
  disjoint : ∀ l l', l ≠ l' → ∀ i ∈ σ l, i ∉ σ l'

variable {h h' : Lists L ι} {σ : L → List ι}

section

omit [DecidableEq L] [DecidableEq ι]

lemma refines_construct : (construct : Lists L ι).Refines fun _ => [] where
  ring _ := List.isChain_cons_cons.mpr ⟨⟨rfl, rfl⟩, .singleton _⟩
  length _ := rfl
  nodup _ := List.nodup_nil
  disjoint _ _ _ _ hi := absurd hi List.not_mem_nil

/-- A node of one list is not a node of another. -/
lemma Refines.ne_of_mem (hr : h.Refines σ) {l l' : L} (hl : l ≠ l') {x y : ListItem L ι}
    (hx : x ∈ nodes l (σ l)) (hy : y ∈ nodes l' (σ l')) : x ≠ y := by
  rintro rfl
  cases x with
  | sentinel k => exact hl ((sentinel_mem_nodes.mp hx).symm.trans (sentinel_mem_nodes.mp hy))
  | item i => exact hr.disjoint l l' hl i (item_mem_nodes.mp hx) (item_mem_nodes.mp hy)

end

omit [DecidableEq ι] in
lemma sublist_update {x : L} {as ms bs : List ι} (hx : σ x = as ++ (ms ++ bs)) (l : L) :
    (Function.update σ x (as ++ bs) l).Sublist (σ l) := by
  by_cases hl : l = x
  · subst hl
    rw [Function.update_self, hx]
    exact (List.sublist_append_right _ _).append_left _
  · rw [Function.update_of_ne hl]

/-- **Taking out**: the items `m :: ms` leave their list, and stay joined. -/
lemma Refines.excise (hr : h.Refines σ) {x : L} {as ms bs : List ι} {m : ι}
    (hx : σ x = as ++ (m :: ms ++ bs))
    (hlinks : h'.links = h.links.excise (.item m) (.ofPos x bs.head?))
    (hlen : h'.length = Function.update h.length x (h.length x - (m :: ms).length)) :
    h'.Refines (Function.update σ x (as ++ bs)) ∧
      ((m :: ms).map ListItem.item).IsChain h'.links.Joined := by
  obtain ⟨ns, hns⟩ := exists_nodes x bs
  have hring := hr.ring x
  have hnodes := nodup_nodes x (hr.nodup x)
  rw [hx, nodes_append, nodes_append, hns, List.map_cons] at hring hnodes
  obtain ⟨hring', hms⟩ := Links.isChain_excise hring hnodes
  rw [← hlinks] at hring' hms
  have hfirst : h.links.Joined (h.links.prev (.item m)) (.item m) :=
    Links.joined_prev_of_isChain hring (by simp)
  have hlastmem : ListItem.ofPos x bs.head? ∈ nodes x (σ x) :=
    ofPos_mem_nodes fun p hp => by
      rw [hx]
      exact List.mem_append_right _ (List.mem_append_right _ (List.mem_of_head? hp))
  have hsub := sublist_update hx
  refine ⟨⟨fun l => ?_, fun l => ?_, fun l => (hr.nodup l).sublist (hsub l),
    fun l l' hl i hi hi' => hr.disjoint l l' hl i ((hsub l).mem hi) ((hsub l').mem hi')⟩, hms⟩
  · by_cases hl : l = x
    · subst hl
      rw [Function.update_self, nodes_append, hns]
      exact hring'
    · rw [Function.update_of_ne hl, hlinks]
      refine (hr.ring l).imp_of_mem_tail_imp fun y z _ hz hyz => hfirst.excise hyz ?_ ?_
      · exact hr.ne_of_mem hl hz (by rw [hx]; simp)
      · exact hr.ne_of_mem hl hz hlastmem
  · by_cases hl : l = x
    · subst hl
      rw [Function.update_self, hlen, Function.update_self, hr.length, hx]
      simp only [List.length_append, List.length_cons]
      omega
    · rw [Function.update_of_ne hl, hlen, Function.update_of_ne hl, hr.length]

/-- **Putting in**: the items `m :: ms`, which are joined and on no list, come onto a list. -/
lemma Refines.graft (hr : h.Refines σ) {t : L} {as ms bs : List ι} {m last : ι}
    (ht : σ t = as ++ bs) (hms : ((m :: ms).map ListItem.item).IsChain h.links.Joined)
    (hnodup : (m :: ms).Nodup) (hnew : ∀ i ∈ m :: ms, ∀ l, i ∉ σ l)
    (hlast : (m :: ms).getLast? = some last)
    (hlinks : h'.links = h.links.graft (.ofPos t bs.head?) (.item m) (.item last))
    (hlen : h'.length = Function.update h.length t (h.length t + (m :: ms).length)) :
    h'.Refines (Function.update σ t (as ++ (m :: ms ++ bs))) := by
  obtain ⟨ns, hns⟩ := exists_nodes t bs
  have hring := hr.ring t
  have hnodes := nodup_nodes t (hr.nodup t)
  rw [ht, nodes_append, hns] at hring hnodes
  have hbs : ∀ y ∈ ListItem.ofPos t bs.head? :: ns, y ∈ nodes t (σ t) := by
    intro y hy
    rw [ht, nodes_append, hns]
    exact List.mem_append_right _ hy
  have hitem : ∀ i ∈ m :: ms, ∀ l, ListItem.item i ∉ nodes l (σ l) := fun i hi l h =>
    hnew i hi l (item_mem_nodes.mp h)
  have hpos : h.links.Joined (h.links.prev (.ofPos t bs.head?)) (.ofPos t bs.head?) :=
    Links.joined_prev_of_isChain hring (by simp)
  have hlastmem := List.mem_of_getLast? hlast
  refine ⟨fun l => ?_, fun l => ?_, fun l => ?_, fun l l' hl i hi => ?_⟩
  · by_cases hl : l = t
    · subst hl
      rw [Function.update_self, nodes_append, nodes_append, hns, hlinks, List.map_cons]
      refine Links.isChain_graft hring hnodes hms (hnodup.map fun _ _ => ListItem.item.inj)
        (fun x hx => ?_) ?_
      · rw [← List.map_cons] at hx
        obtain ⟨i, hi, rfl⟩ := List.mem_map.mp hx
        have hout := hitem i hi l
        rw [ht, nodes_append, hns] at hout
        refine ⟨(fun he => by cases he), fun hin => hout (List.mem_append_left _ hin), ?_, ?_⟩
        · intro he
          exact hout (List.mem_append_right _ (he ▸ List.mem_cons_self))
        · intro hin
          exact hout (List.mem_append_right _ (List.mem_cons_of_mem _ hin))
      · rw [← List.map_cons, List.getLast?_map, hlast, Option.map_some]
    · rw [Function.update_of_ne hl, hlinks]
      refine (hr.ring l).imp_of_mem_tail_imp fun y z hy hz hyz => hpos.graft hyz ?_ ?_ ?_
      · exact hr.ne_of_mem hl hz (hbs _ (by simp))
      · rintro rfl
        exact hitem m (by simp) l hz
      · rintro rfl
        rcases List.mem_cons.mp hy with hy | hy
        · cases hy
        · exact hitem last hlastmem l hy
  · by_cases hl : l = t
    · subst hl
      rw [Function.update_self, hlen, Function.update_self, hr.length, ht]
      simp only [List.length_append, List.length_cons]
      omega
    · rw [Function.update_of_ne hl, hlen, Function.update_of_ne hl, hr.length]
  · by_cases hl : l = t
    · subst hl
      have hσ := hr.nodup l
      rw [Function.update_self, (List.perm_append_comm_assoc as (m :: ms) bs).nodup_iff, ← ht]
      exact List.nodup_append.mpr ⟨hnodup, hσ, fun i hi j hj hij => hnew i hi l (hij ▸ hj)⟩
    · rw [Function.update_of_ne hl]
      exact hr.nodup l
  · -- an item that is put in is on no other list
    have hmem : ∀ k, ∀ j ∈ Function.update σ t (as ++ (m :: ms ++ bs)) k,
        j ∈ σ k ∨ k = t ∧ j ∈ m :: ms := by
      intro k j hj
      by_cases hk : k = t
      · subst hk
        rw [Function.update_self] at hj
        rw [ht]
        simp only [List.mem_append] at hj ⊢
        tauto
      · rw [Function.update_of_ne hk] at hj
        exact Or.inl hj
    intro hi'
    rcases hmem l i hi with hold | ⟨rfl, hin⟩
    · rcases hmem l' i hi' with hold' | ⟨-, hin'⟩
      · exact hr.disjoint l l' hl i hold hold'
      · exact hnew i hin' l hold
    · rcases hmem l' i hi' with hold' | ⟨rfl, -⟩
      · exact hnew i hin l' hold'
      · exact hl rfl

/-- One item comes onto a list. -/
lemma Refines.graft_item (hr : h.Refines σ) {t : L} {as bs : List ι} {i : ι}
    (ht : σ t = as ++ bs) (hnew : ∀ l, i ∉ σ l)
    (hlinks : h'.links = h.links.graft (.ofPos t bs.head?) (.item i) (.item i))
    (hlen : h'.length = Function.update h.length t (h.length t + 1)) :
    h'.Refines (Function.update σ t (as ++ i :: bs)) := by
  have hone : ∀ j ∈ [i], ∀ l, j ∉ σ l := by
    intro j hj
    rwa [List.mem_singleton.mp hj]
  exact hr.graft ht (.singleton _) (List.nodup_singleton i) hone rfl hlinks hlen

/-! ### The functions take out and put in -/

section

omit [DecidableEq L] [DecidableEq ι]

/-- The joint in front of a node of a ring. -/
lemma Refines.joined_prev (hr : h.Refines σ) {l : L} {x : ListItem L ι}
    (hx : x ∈ nodes l (σ l)) : h.links.Joined (h.links.prev x) x :=
  Links.joined_prev_of_isChain (hr.ring l) hx

/-- The joint between two parts of a list. -/
lemma Refines.joined (hr : h.Refines σ) {l : L} {as bs : List ι} (hl : σ l = as ++ bs) :
    h.links.Joined (.ofPos l as.getLast?) (.ofPos l bs.head?) := by
  have hring := hr.ring l
  obtain ⟨ns, hns⟩ := exists_nodes l bs
  rw [hl, nodes_append, hns, ← List.cons_append] at hring
  refine (List.isChain_append.mp hring).2.2 _ ?_ _ (by simp)
  rw [Option.mem_def, List.getLast?_cons, List.getLast?_map]
  cases as.getLast? <;> rfl

/-- An item that is on no list is in front of no node. -/
lemma Refines.prev_ne (hr : h.Refines σ) {l : L} {x : ListItem L ι} (hx : x ∈ nodes l (σ l)) {i : ι}
    (hi : ∀ l, i ∉ σ l) : h.links.prev x ≠ .item i := by
  have hmem := Links.prev_mem_of_isChain (hr.ring l) hx
  rw [nodes, List.dropLast_concat] at hmem
  intro he
  rw [he] at hmem
  simp only [List.mem_cons, reduceCtorEq, false_or, List.mem_map, ListItem.item.injEq,
    exists_eq_right] at hmem
  exact hi l hmem

lemma ne_item_of_mem {l : L} {x : ListItem L ι} (hx : x ∈ nodes l (σ l)) {i : ι}
    (hi : ∀ l, i ∉ σ l) : x ≠ .item i := by
  rintro rfl
  exact hi l (item_mem_nodes.mp hx)

end

/-- `ocoms_list_insert_pos` puts one item in. -/
lemma insertPos_links (h : Lists L ι) (list : L) {pos : ListItem L ι} {i : ι}
    (hpos : pos ≠ .item i) (hprev : h.links.prev pos ≠ .item i) :
    (h.insertPos list pos i).links = h.links.graft pos (.item i) (.item i) := by
  have hread : Function.update h.links.prev (.item i) (h.links.prev pos) pos = h.links.prev pos :=
    Function.update_of_ne hpos _ _
  ext1
  · simp only [insertPos, setNext, setPrev, setLength, prev, Links.graft, hread]
    exact Function.update_comm hprev.symm _ _ _
  · rfl

lemma append_links (h : Lists L ι) (list : L) {i : ι} :
    (h.append list i).links = h.links.graft (.sentinel list) (.item i) (.item i) := by
  have hread : Function.update h.links.prev (.item i) (h.links.prev (.sentinel list))
      (.sentinel list) = h.links.prev (.sentinel list) := by
    exact Function.update_of_ne (fun he => by cases he) _ _
  ext1
  · simp only [append, setNext, setPrev, setLength, prev, Links.graft, hread]
  · rfl

lemma prepend_links (h : Lists L ι) (list : L) {i : ι}
    (hprev : h.links.prev (h.links.next (.sentinel list)) = .sentinel list) :
    (h.prepend list i).links
      = h.links.graft (h.links.next (.sentinel list)) (.item i) (.item i) := by
  have hne : (ListItem.sentinel list : ListItem L ι) ≠ .item i := fun he => by cases he
  have hread : Function.update h.links.next (.item i) (h.links.next (.sentinel list))
      (.sentinel list) = h.links.next (.sentinel list) := Function.update_of_ne hne _ _
  ext1
  · simp only [prepend, setNext, setPrev, setLength, next, Links.graft, hread, hprev]
    exact Function.update_comm hne.symm _ _ _
  · simp only [prepend, setNext, setPrev, setLength, next, Links.graft, hread, hprev]

/-- `ocoms_list_insert` puts one item in behind the node its loop stops at. -/
lemma insert_links (h : Lists L ι) (list : L) {i : ι} {idx : ℤ} (hidx : 0 < idx)
    (hint : idx ≤ intMax + 1) (hlt : idx < h.length list) {ptr : ListItem L ι}
    (hptr : h.links.next^[(idx - 1).toNat] (h.links.next (.sentinel list)) = ptr)
    (hj : h.links.prev (h.links.next ptr) = ptr) (hne : ptr ≠ .item i) :
    ∃ h', h.insert list i idx = some (h', true) ∧
      h'.links = h.links.graft (h.links.next ptr) (.item i) (.item i) ∧
      h'.length = Function.update h.length list (h.length list + 1) := by
  have hrun : h.insert list i idx = some (((((h.setNext (.item i) (h.links.next ptr)).setPrev
      (.item i) ptr).setPrev (h.links.next ptr) (.item i)).setNext ptr (.item i)).setLength list
      (h.length list + 1), true) := by
    rw [insert, if_neg (by omega), if_neg (by omega), if_neg (by omega), ← hptr]
    rfl
  refine ⟨_, hrun, ?_, rfl⟩
  ext1
  · simp only [setNext, setPrev, setLength, Links.graft, hj]
    exact Function.update_comm hne.symm _ _ _
  · simp only [setNext, setPrev, setLength, Links.graft, hj]

/-- `ocoms_list_remove_item` takes one item out. -/
lemma removeItem_links (h : Lists L ι) (list : L) (i : ι) :
    (h.removeItem list i).1.links = h.links.excise (.item i) (h.links.next (.item i)) := by
  have hread : Function.update h.links.next (h.links.prev (.item i)) (h.links.next (.item i))
      (.item i) = h.links.next (.item i) := by
    by_cases he : ListItem.item i = h.links.prev (.item i)
    · rw [← he, Function.update_self]
    · exact Function.update_of_ne he _ _
  ext1
  · rfl
  · simp only [removeItem, setNext, setPrev, setLength, next, prev, Links.excise, hread]

/-- `ocoms_list_transfer` takes a range out, and puts it in again. -/
lemma transfer_links (h : Lists L ι) {pos start stop : ListItem L ι}
    (hpos : h.links.Joined (h.links.prev pos) pos)
    (hstart : h.links.Joined (h.links.prev start) start)
    (hstop : h.links.Joined (h.links.prev stop) stop) (hne : start ≠ stop) (hps : pos ≠ start) :
    (h.transfer pos start stop).links
      = (h.links.excise start stop).graft pos start (h.links.prev stop) := by
  have hlast : h.links.prev start ≠ h.links.prev stop := by
    intro he
    exact hne (by rw [← hstart.1, he, hstop.1])
  have hstart₁ : h.links.next (h.links.prev start) = start := hstart.1
  have hstop₁ : h.links.next (h.links.prev stop) = stop := hstop.1
  by_cases heq : pos = stop
  · -- the range is put in again where it was
    subst heq
    rw [transfer, if_pos rfl]
    ext1 <;> funext y <;> simp only [Links.graft, Links.excise, Function.update_apply] <;> grind
  · have hlast' : h.links.prev pos ≠ h.links.prev stop := by
      intro he
      exact heq (by rw [← hpos.1, he, hstop.1])
    rw [transfer, if_neg heq]
    ext1 <;> funext y <;>
      simp only [setNext, setPrev, prev, Links.graft, Links.excise, Function.update_apply] <;> grind

/-! ### The functions refine the operations on sequences -/

lemma Refines.append (hr : h.Refines σ) (list : L) {i : ι} (hi : ∀ l, i ∉ σ l) :
    (h.append list i).Refines (Function.update σ list (σ list ++ [i])) := by
  refine hr.graft_item (List.append_nil _).symm hi (h.append_links list) ?_
  rfl

lemma Refines.prepend (hr : h.Refines σ) (list : L) {i : ι} (hi : ∀ l, i ∉ σ l) :
    (h.prepend list i).Refines (Function.update σ list (i :: σ list)) := by
  have hj := hr.joined (l := list) (List.nil_append _).symm
  have hnext : h.links.next (.sentinel list) = .ofPos list (σ list).head? := hj.1
  have hlinks := h.prepend_links list (i := i) (by rw [hnext]; exact hj.2)
  rw [hnext] at hlinks
  exact hr.graft_item (List.nil_append _).symm hi hlinks rfl

lemma Refines.insertPos (hr : h.Refines σ) (list : L) {pos : Option ι} (hpos : ∀ p ∈ pos, p ∈ σ list)
    {i : ι} (hi : ∀ l, i ∉ σ l) :
    (h.insertPos list (.ofPos list pos) i).Refines
      (Function.update σ list (upTo pos (σ list) ++ i :: onward pos (σ list))) := by
  have hmem : ListItem.ofPos list pos ∈ nodes list (σ list) := ofPos_mem_nodes hpos
  refine hr.graft_item (upTo_append_onward pos (σ list)).symm hi ?_ rfl
  rw [head?_onward hpos]
  exact h.insertPos_links list (ne_item_of_mem hmem hi) (hr.prev_ne hmem hi)

/-- The loop of `ocoms_list_insert` stops at the item in front of the index. -/
lemma Refines.insert (hr : h.Refines σ) (list : L) {i : ι} (hi : ∀ l, i ∉ σ l) {idx : ℤ}
    (hidx : 0 < idx) (hint : idx ≤ intMax + 1) (hlt : idx < (σ list).length) :
    ∃ h', h.insert list i idx = some (h', true) ∧ h'.Refines (Function.update σ list
      ((σ list).take idx.toNat ++ i :: (σ list).drop idx.toNat)) := by
  obtain ⟨k, rfl⟩ : ∃ k : ℕ, idx = k + 1 := ⟨(idx - 1).toNat, by omega⟩
  have hk : k + 1 < (σ list).length := by omega
  have hk₀ : k < (σ list).length := by omega
  have hnat : ((k : ℤ) + 1).toNat = k + 1 := by omega
  have hsplit := (List.take_append_drop (k + 1) (σ list)).symm
  have hj := hr.joined hsplit
  have hlast : ((σ list).take (k + 1)).getLast? = some (σ list)[k] := by
    rw [List.getLast?_take, if_neg (Nat.succ_ne_zero k), Nat.add_sub_cancel,
      List.getElem?_eq_getElem hk₀, Option.some_or]
  -- the loop counter has run to `idx - 1`
  have hptr : h.links.next^[k] (h.links.next (.sentinel list))
      = .ofPos list ((σ list).take (k + 1)).getLast? := by
    have hnode : k < (nodes list (σ list)).length := by
      rw [nodes, List.length_append, List.length_map]
      omega
    rw [← Function.iterate_succ_apply, Links.iterate_next (hr.ring list) hnode, hlast]
    simp only [nodes, List.getElem_append, List.length_map, hk₀, dite_true, List.getElem_map]
    rfl
  have hnext : h.links.next (.ofPos list ((σ list).take (k + 1)).getLast?)
      = .ofPos list ((σ list).drop (k + 1)).head? := hj.1
  have hmem : ListItem.ofPos list ((σ list).drop (k + 1)).head? ∈ nodes list (σ list) :=
    ofPos_mem_nodes fun p hp => List.mem_of_mem_drop (List.mem_of_head? hp)
  have hne := hr.prev_ne hmem hi
  rw [hj.2] at hne
  obtain ⟨h', hrun, hlinks, hlen⟩ := h.insert_links list hidx hint (by rwa [hr.length])
    (by rwa [Int.add_sub_cancel, Int.toNat_natCast]) (by rw [hnext, hj.2]) hne
  rw [hnext] at hlinks
  rw [hnat]
  exact ⟨h', hrun, hr.graft_item hsplit hi hlinks hlen⟩

lemma Refines.removeItem (hr : h.Refines σ) {list : L} {as bs : List ι} {i : ι}
    (hl : σ list = as ++ ([i] ++ bs)) :
    (h.removeItem list i).1.Refines (Function.update σ list (as ++ bs)) ∧
      (h.removeItem list i).2 = .ofPos list as.getLast? := by
  have hin := hr.joined hl
  have hout := hr.joined (hl.trans (List.append_assoc _ _ _).symm)
  rw [List.getLast?_concat] at hout
  have hnext : h.links.next (.item i) = .ofPos list bs.head? := hout.1
  have hlinks := h.removeItem_links list i
  rw [hnext] at hlinks
  refine ⟨(hr.excise hl hlinks rfl).1, ?_⟩
  -- the pointer that is returned is read behind the writes
  have hread : ∀ y, Function.update h.links.prev y (h.links.prev (.item i)) (.item i)
      = h.links.prev (.item i) := by
    intro y
    rw [Function.update_apply]
    split <;> rfl
  exact (hread _).trans hin.2

lemma Refines.removeFirst (hr : h.Refines σ) (list : L) :
    (h.removeFirst list).1.Refines (Function.update σ list (σ list).tail) ∧
      (h.removeFirst list).2 = (σ list).head?.map .item := by
  cases hl : σ list with
  | nil =>
      have hlen : h.length list = 0 := by rw [hr.length, hl, List.length_nil]
      rw [Lists.removeFirst, if_pos hlen, List.tail_nil, ← hl, Function.update_eq_self, hl]
      exact ⟨hr, rfl⟩
  | cons i bs =>
      have hlen : h.length list ≠ 0 := by
        rw [hr.length, hl]
        exact Nat.succ_ne_zero _
      have hin := hr.joined (l := list) (List.nil_append _).symm
      rw [hl] at hin
      have hnext : h.links.next (.sentinel list) = .item i := hin.1
      have hprev : h.links.prev (.item i) = .sentinel list := hin.2
      have hl' : σ list = [] ++ ([i] ++ bs) := hl
      have hout := hr.joined (hl'.trans (List.append_assoc _ _ _).symm)
      have hbehind : h.links.next (.item i) = .ofPos list bs.head? := hout.1
      rw [Lists.removeFirst, if_neg hlen]
      refine ⟨(hr.excise hl' ?_ rfl).1, congrArg some hnext⟩
      ext1
      · simp only [setNext, setPrev, setLength, next, prev, Links.excise, hnext, hprev, hbehind]
      · simp only [setNext, setPrev, setLength, next, prev, Links.excise, hnext, hprev, hbehind]

lemma Refines.removeLast (hr : h.Refines σ) (list : L) :
    (h.removeLast list).1.Refines (Function.update σ list (σ list).dropLast) ∧
      (h.removeLast list).2 = (σ list).getLast?.map .item := by
  rcases List.eq_nil_or_concat (σ list) with hl | ⟨as, i, hl⟩
  · have hlen : h.length list = 0 := by rw [hr.length, hl, List.length_nil]
    rw [Lists.removeLast, if_pos hlen, hl, List.dropLast_nil, ← hl, Function.update_eq_self, hl]
    exact ⟨hr, rfl⟩
  · rw [List.concat_eq_append] at hl
    have hlen : h.length list ≠ 0 := by
      rw [hr.length, hl, List.length_append]
      exact Nat.succ_ne_zero _
    have hl' : σ list = as ++ ([i] ++ []) := hl
    have hin := hr.joined hl'
    have hout := hr.joined (hl'.trans (List.append_assoc _ _ _).symm)
    rw [List.getLast?_concat] at hout
    have hnext : h.links.next (.item i) = .sentinel list := hout.1
    have hlast : h.links.prev (.sentinel list) = .item i := hout.2
    rw [Lists.removeLast, if_neg hlen, hl, List.dropLast_concat, List.getLast?_concat]
    refine ⟨?_, congrArg some hlast⟩
    rw [← List.append_nil as]
    refine (hr.excise hl' ?_ rfl).1
    ext1
    · simp only [setNext, setPrev, setLength, next, prev, Links.excise, hnext, hlast]
      rfl
    · simp only [setNext, setPrev, setLength, next, prev, Links.excise, hnext, hlast]
      rfl

/-- The range `m :: ms` of the list `x` comes to stand in front of `ds` on the list `t`. -/
lemma Refines.transfer (hr : h.Refines σ) {x t : L} {as ms bs cs ds : List ι} {m : ι}
    (hx : σ x = as ++ (m :: ms ++ bs)) (ht : Function.update σ x (as ++ bs) t = cs ++ ds)
    (hlinks : h'.links
      = (h.transfer (.ofPos t ds.head?) (.item m) (.ofPos x bs.head?)).links)
    (hlen : h'.length = Function.update
      (Function.update h.length x (h.length x - (m :: ms).length)) t
      (Function.update h.length x (h.length x - (m :: ms).length) t + (m :: ms).length)) :
    h'.Refines (Function.update (Function.update σ x (as ++ bs)) t (cs ++ (m :: ms ++ ds))) := by
  set τ := Function.update σ x (as ++ bs) with hτ
  obtain ⟨last, hlast⟩ : ∃ last, (m :: ms).getLast? = some last := ⟨_, List.getLast?_cons⟩
  have hnodup : (as ++ (m :: ms ++ bs)).Nodup := hx ▸ hr.nodup x
  -- what is moved is on no list in between
  have hnew : ∀ i ∈ m :: ms, ∀ l, i ∉ τ l := by
    intro i hi l
    by_cases hl : l = x
    · subst hl
      rw [hτ, Function.update_self]
      rw [(List.perm_append_comm_assoc as (m :: ms) bs).nodup_iff] at hnodup
      intro hmem
      exact (List.nodup_append.mp hnodup).2.2 i hi i hmem rfl
    · rw [hτ, Function.update_of_ne hl]
      exact hr.disjoint x l (Ne.symm hl) i (by rw [hx]; exact List.mem_append_right _ (List.mem_append_left _ hi))
  have hsub : ∀ l, τ l ⊆ σ l := fun l => (sublist_update hx l).subset
  have hds : ∀ p ∈ ds.head?, p ∈ τ t := fun p hp => by
    rw [ht]
    exact List.mem_append_right _ (List.mem_of_head? hp)
  have hbs : ∀ p ∈ bs.head?, p ∈ τ x := fun p hp => by
    rw [hτ, Function.update_self]
    exact List.mem_append_right _ (List.mem_of_head? hp)
  have hstart : ListItem.item m ∈ nodes x (σ x) := by
    rw [hx]
    simp
  have hstop := hr.joined (hx.trans (List.append_assoc as (m :: ms) bs).symm)
  rw [List.getLast?_append, hlast, Option.some_or] at hstop
  have hprev : h.links.prev (.ofPos x bs.head?) = .item last := hstop.2
  have hpos : ListItem.ofPos t ds.head? ∈ nodes t (σ t) :=
    ofPos_mem_nodes fun p hp => hsub t (hds p hp)
  have hlinks' := h.transfer_links (hr.joined_prev hpos) (hr.joined_prev hstart)
    (hr.joined_prev (ofPos_mem_nodes fun p hp => hsub x (hbs p hp)))
    (ne_item_of_mem (ofPos_mem_nodes hbs) (hnew m List.mem_cons_self)).symm
    (ne_item_of_mem (ofPos_mem_nodes hds) (hnew m List.mem_cons_self))
  rw [hprev] at hlinks'
  let h₁ : Lists L ι := ⟨h.links.excise (.item m) (.ofPos x bs.head?),
    Function.update h.length x (h.length x - (m :: ms).length)⟩
  have hlinks₁ : h₁.links = h.links.excise (.item m) (.ofPos x bs.head?) := rfl
  obtain ⟨hr', hms⟩ := hr.excise hx hlinks₁ rfl
  have hmsnodup : (m :: ms).Nodup := (List.nodup_append.mp (List.nodup_append.mp hnodup).2.1).1
  exact hr'.graft ht hms hmsnodup hnew hlast (hlinks.trans hlinks') hlen

lemma Refines.join (hr : h.Refines σ) {t x : L} {pos : Option ι} (hpos : ∀ p ∈ pos, p ∈ σ t)
    (hself : t = x → σ x = []) :
    (h.join t (.ofPos t pos) x).Refines (ListOp.apply σ (.join t pos x)).1 := by
  cases hx : σ x with
  | nil =>
      have hlen : h.length x = 0 := by rw [hr.length, hx, List.length_nil]
      have hsame : Function.update σ x [] = σ := by rw [← hx, Function.update_eq_self]
      rw [Lists.join, if_pos hlen]
      simp only [ListOp.apply, hx, hsame, List.append_nil, upTo_append_onward,
        Function.update_eq_self]
      exact hr
  | cons m ms =>
      have hlen : h.length x ≠ 0 := by
        rw [hr.length, hx]
        exact Nat.succ_ne_zero _
      have hne : t ≠ x := fun he => by
        rw [hself he] at hx
        cases hx
      have hx' : σ x = [] ++ (m :: ms ++ []) := by rw [hx, List.nil_append, List.append_nil]
      have hfirst := hr.joined (l := x) (List.nil_append _).symm
      rw [hx] at hfirst
      have hnext : h.links.next (.sentinel x) = .item m := hfirst.1
      have hτ : Function.update σ x ([] ++ []) t = upTo pos (σ t) ++ onward pos (σ t) := by
        rw [Function.update_of_ne hne, upTo_append_onward]
      have hd := head?_onward hpos
      simp only [ListOp.apply, hx, Function.update_of_ne hne, List.append_assoc]
      refine hr.transfer hx' hτ ?_ ?_
      · rw [Lists.join, if_neg hlen, hd]
        simp only [next, hnext]
        rfl
      · have hcount : h.length x = (m :: ms).length := by rw [hr.length, hx]
        rw [Lists.join, if_neg hlen]
        simp only [setLength, transfer_length]
        rw [Function.update_of_ne hne, ← hcount, Nat.sub_self, Function.update_comm hne]

/-- The loop of `ocoms_list_splice` counts a chain. -/
lemma countRange_of_isChain {x stop : ListItem L ι} {xs : List (ListItem L ι)}
    (hc : (x :: xs ++ [stop]).IsChain h.links.Joined) (hstop : stop ∉ x :: xs) {fuel : ℕ}
    (hfuel : xs.length + 1 < fuel) : h.countRange fuel x stop = some (xs.length + 1) := by
  induction xs generalizing x fuel with
  | nil =>
      obtain ⟨fuel, rfl⟩ : ∃ n, fuel = n + 2 := ⟨fuel - 2, by simp at hfuel; omega⟩
      have hne : x ≠ stop := fun he => hstop (by simp [he])
      have hnext : h.next x = stop := (List.isChain_cons_cons.mp hc).1.1
      rw [countRange, if_neg hne, hnext, countRange, if_pos rfl]
      rfl
  | cons y ys ih =>
      obtain ⟨fuel, rfl⟩ : ∃ n, fuel = n + 1 := ⟨fuel - 1, by omega⟩
      obtain ⟨hj, hys⟩ := List.isChain_cons_cons.mp hc
      obtain ⟨hne, hrest⟩ := List.ne_and_not_mem_of_not_mem_cons hstop
      have hnext : h.next x = y := hj.1
      rw [countRange, if_neg hne.symm, hnext, ih hys hrest (by simpa using hfuel)]
      rfl

/-- The loop counts a range of a list. -/
lemma Refines.countRange (hr : h.Refines σ) {x : L} {as ms bs : List ι} {m : ι}
    (hx : σ x = as ++ (m :: ms ++ bs)) {fuel : ℕ} (hfuel : (σ x).length < fuel) :
    ListItem.item m ≠ .ofPos x bs.head? ∧
      h.countRange fuel (.item m) (.ofPos x bs.head?) = some (m :: ms).length := by
  obtain ⟨ns, hns⟩ := exists_nodes x bs
  have hring := hr.ring x
  have hnodup := nodup_nodes x (hr.nodup x)
  rw [hx, nodes_append, nodes_append, hns, ← List.cons_append] at hring
  rw [hx, nodes_append, nodes_append, hns] at hnodup
  have hchain := (List.isChain_split.mp (List.isChain_append.mp hring).2.1).1
  have hstop : ListItem.ofPos x bs.head? ∉ (m :: ms).map ListItem.item := fun hmem =>
    (List.nodup_append.mp (List.nodup_append.mp hnodup).2.1).2.2 _ hmem _ List.mem_cons_self rfl
  have hle : (m :: ms).length ≤ (σ x).length := by
    rw [hx, List.length_append, List.length_append]
    omega
  have hcount := countRange_of_isChain hchain hstop
    (by rw [List.length_map]; exact hle.trans_lt hfuel)
  rw [List.length_map] at hcount
  exact ⟨fun he => hstop (he ▸ List.mem_cons_self), hcount⟩

lemma Refines.splice (hr : h.Refines σ) {t x : L} {pos first last : Option ι}
    (hpos : ∀ p ∈ pos, p ∈ σ t) (hfirst : ∀ p ∈ first, p ∈ σ x)
    (hlast : ∀ p ∈ last, p ∈ onward first (σ x))
    (hout : ∀ p ∈ pos, p ∉ upTo last (onward first (σ x))) {fuel : ℕ}
    (hfuel : (σ x).length < fuel) :
    ∃ h', h.splice fuel t (.ofPos t pos) x (.ofPos x first) (.ofPos x last) = some h' ∧
      h'.Refines (ListOp.apply σ (.splice t pos x first last)).1 := by
  have hmove := upTo_append_onward last (onward first (σ x))
  have hsplit : σ x = upTo first (σ x) ++
      (upTo last (onward first (σ x)) ++ onward last (onward first (σ x))) := by
    rw [hmove, upTo_append_onward]
  have hheadFirst := head?_onward hfirst
  have hheadLast := head?_onward hlast
  simp only [ListOp.apply]
  generalize upTo first (σ x) = as at hsplit ⊢
  generalize onward last (onward first (σ x)) = bs at hmove hsplit hheadLast ⊢
  generalize upTo last (onward first (σ x)) = moved at hmove hout hsplit ⊢
  cases moved with
  | nil =>
      -- nothing is moved
      rw [List.nil_append] at hmove hsplit
      have heq : first = last := by rw [← hheadFirst, ← hmove, hheadLast]
      refine ⟨h, by rw [Lists.splice, if_pos (by rw [heq])], ?_⟩
      rw [← hsplit, Function.update_eq_self, List.append_nil, upTo_append_onward,
        Function.update_eq_self]
      exact hr
  | cons m ms =>
      have hhead : first = some m := by rw [← hheadFirst, ← hmove, List.cons_append, List.head?_cons]
      subst hhead
      obtain ⟨hne, hcount⟩ := hr.countRange hsplit hfuel
      rw [hheadLast] at hne hcount
      -- the position stays on its list
      have hpos' : ∀ p ∈ pos, p ∈ Function.update σ x (as ++ bs) t := by
        intro p hp
        by_cases ht : t = x
        · subst ht
          have hmem := hpos p hp
          rw [hsplit] at hmem
          rw [Function.update_self]
          simp only [List.mem_append] at hmem ⊢
          exact hmem.imp_right fun h => h.resolve_left (hout p hp)
        · rw [Function.update_of_ne ht]
          exact hpos p hp
      have hne' : ListItem.ofPos x (some m) ≠ .ofPos x last := hne
      have hcount' : h.countRange fuel (.ofPos x (some m)) (.ofPos x last)
        = some (m :: ms).length := hcount
      refine ⟨_, by rw [Lists.splice, if_neg hne', hcount']; rfl, ?_⟩
      rw [List.append_assoc]
      refine hr.transfer hsplit (upTo_append_onward pos _).symm ?_ ?_
      · rw [head?_onward hpos', hheadLast]
        rfl
      · have hle : (m :: ms).length ≤ h.length x := by
          rw [hr.length, hsplit, List.length_append, List.length_append]
          omega
        simp only [setLength, transfer_length]
        by_cases ht : t = x
        · subst ht
          simp only [Function.update_self, Function.update_idem]
          rw [Nat.add_sub_cancel, Nat.sub_add_cancel hle]
        · rw [Function.update_of_ne ht, Function.update_of_ne (Ne.symm ht),
            Function.update_comm ht]

/-! ### Runs -/

/-- **One operation** does to the memory what it means for the sequences. -/
lemma Refines.exec (hr : h.Refines σ) (op : ListOp L ι) (hvalid : op.Valid σ)
    (hkeeps : op.KeepsCount σ) {fuel : ℕ} (hfuel : ∀ l, (σ l).length < fuel) :
    ∃ h', op.exec fuel h = some (h', (op.apply σ).2) ∧ h'.Refines (op.apply σ).1 := by
  cases op with
  | append list item => exact ⟨_, rfl, hr.append list hvalid⟩
  | prepend list item => exact ⟨_, rfl, hr.prepend list hvalid⟩
  | insert list item idx =>
      simp only [ListOp.exec, ListOp.apply]
      by_cases hlt : idx < (σ list).length
      · obtain ⟨hpos, hint⟩ := hkeeps.resolve_right (by omega)
        obtain ⟨h', hrun, hr'⟩ := hr.insert list hvalid hpos hint hlt
        rw [if_pos ⟨hpos.le, hlt⟩, hrun]
        exact ⟨h', rfl, hr'⟩
      · rw [if_neg fun hand => hlt hand.2, Lists.insert, hr.length, if_pos (by omega)]
        exact ⟨h, rfl, hr⟩
  | insertPos list pos item => exact ⟨_, rfl, hr.insertPos list hvalid.1 hvalid.2⟩
  | removeFirst list =>
      obtain ⟨hr', hret⟩ := hr.removeFirst list
      simp only [ListOp.exec, ListOp.apply, ← hret]
      exact ⟨_, rfl, hr'⟩
  | removeLast list =>
      obtain ⟨hr', hret⟩ := hr.removeLast list
      simp only [ListOp.exec, ListOp.apply, ← hret]
      exact ⟨_, rfl, hr'⟩
  | removeItem list item =>
      obtain ⟨as, bs, hl, has⟩ := List.eq_append_cons_of_mem hvalid
      obtain ⟨hr', hret⟩ := hr.removeItem hl
      have herase : (σ list).erase item = as ++ bs := by
        rw [hl, List.erase_append_right _ has, List.erase_cons_head]
      have hup : upTo (some item) (σ list) = as := by rw [hl, upTo_append_cons bs has]
      simp only [ListOp.exec, ListOp.apply, herase, hup, ← hret]
      exact ⟨_, rfl, hr'⟩
  | join thislist pos xlist => exact ⟨_, rfl, hr.join hvalid.1 hkeeps⟩
  | splice thislist pos xlist first last =>
      obtain ⟨hpos, hfirst, hlast, hout⟩ := hvalid
      obtain ⟨h', hrun, hr'⟩ := hr.splice hpos hfirst hlast hout (hfuel xlist)
      exact ⟨h', by rw [ListOp.exec, hrun]; rfl, hr'⟩

omit [DecidableEq L] [DecidableEq ι] in
/-- No list is longer than a list of all items. -/
lemma Refines.length_le (hr : h.Refines σ) {all : List ι} (hall : ∀ l, σ l ⊆ all) (l : L) :
    (σ l).length ≤ all.length :=
  ((hr.nodup l).subperm (hall l)).length_le

omit [DecidableEq ι] in
lemma update_subset {all : List ι} (hall : ∀ l, σ l ⊆ all) (x : L) {xs : List ι} (hxs : xs ⊆ all)
    (l : L) : Function.update σ x xs l ⊆ all := by
  by_cases hl : l = x
  · subst hl
    rwa [Function.update_self]
  · rw [Function.update_of_ne hl]
    exact hall l

/-- Moving items from list to list brings none. -/
lemma update_move_subset {all : List ι} (hall : ∀ l, σ l ⊆ all) (x t : L) (pos : Option ι)
    {xs ms : List ι} (hxs : xs ⊆ all) (hms : ms ⊆ all) (l : L) :
    Function.update (Function.update σ x xs) t (upTo pos (Function.update σ x xs t) ++ ms
      ++ onward pos (Function.update σ x xs t)) l ⊆ all := by
  have hτ := update_subset hall x hxs
  refine update_subset hτ t (List.append_subset.mpr ⟨List.append_subset.mpr ⟨?_, hms⟩, ?_⟩) l
  · exact List.Subset.trans (upTo_subset pos _) (hτ t)
  · exact List.Subset.trans (onward_subset pos _) (hτ t)

/-- An operation brings at most one new item. -/
lemma exists_all_apply (op : ListOp L ι) {all : List ι} (hall : ∀ l, σ l ⊆ all) :
    ∃ all' : List ι, all'.length ≤ all.length + 1 ∧ ∀ l, (op.apply σ).1 l ⊆ all' := by
  have hcons : ∀ i l, σ l ⊆ i :: all := fun i l => List.subset_cons_of_subset i (hall l)
  cases op with
  | append list i =>
      refine ⟨i :: all, le_rfl, update_subset (hcons i) list ?_⟩
      exact List.append_subset.mpr ⟨hcons i list, by simp⟩
  | prepend list i =>
      exact ⟨i :: all, le_rfl, update_subset (hcons i) list (List.cons_subset_cons i (hall list))⟩
  | insert list i idx =>
      refine ⟨i :: all, le_rfl, fun l => ?_⟩
      simp only [ListOp.apply]
      split
      · refine update_subset (hcons i) list (List.append_subset.mpr ⟨?_, ?_⟩) l
        · exact List.Subset.trans (List.take_subset _ _) (hcons i list)
        · exact List.cons_subset_cons i (List.Subset.trans (List.drop_subset _ _) (hall list))
      · exact hcons i l
  | insertPos list pos i =>
      refine ⟨i :: all, le_rfl, update_subset (hcons i) list (List.append_subset.mpr ⟨?_, ?_⟩)⟩
      · exact List.Subset.trans (upTo_subset pos _) (hcons i list)
      · exact List.cons_subset_cons i (List.Subset.trans (onward_subset pos _) (hall list))
  | removeFirst list =>
      refine ⟨all, Nat.le_succ _, update_subset hall list ?_⟩
      exact List.Subset.trans (List.tail_subset _) (hall list)
  | removeLast list =>
      refine ⟨all, Nat.le_succ _, update_subset hall list ?_⟩
      exact List.Subset.trans (List.dropLast_subset _) (hall list)
  | removeItem list i =>
      refine ⟨all, Nat.le_succ _, update_subset hall list ?_⟩
      exact List.Subset.trans List.erase_subset (hall list)
  | join thislist pos xlist =>
      exact ⟨all, Nat.le_succ _,
        update_move_subset hall xlist thislist pos (List.nil_subset _) (hall xlist)⟩
  | splice thislist pos xlist first last =>
      have hfirst := List.Subset.trans (onward_subset first (σ xlist)) (hall xlist)
      refine ⟨all, Nat.le_succ _, update_move_subset hall xlist thislist pos
        (List.append_subset.mpr ⟨?_, ?_⟩) (List.Subset.trans (upTo_subset last _) hfirst)⟩
      · exact List.Subset.trans (upTo_subset first _) (hall xlist)
      · exact List.Subset.trans (onward_subset last _) hfirst

/-- **A run**: the memory refines the sequences after any operations. -/
lemma Refines.run {ops : List (ListOp L ι)} {all : List ι} (hr : h.Refines σ)
    (hall : ∀ l, σ l ⊆ all) (hvalid : ListOp.All ListOp.Valid ops σ)
    (hkeeps : ListOp.All ListOp.KeepsCount ops σ) {fuel : ℕ}
    (hfuel : all.length + ops.length ≤ fuel) :
    ∃ h', runListOps fuel ops h = some (h', (applyListOps ops σ).2) ∧
      h'.Refines (applyListOps ops σ).1 := by
  induction ops generalizing h σ all with
  | nil => exact ⟨h, rfl, hr⟩
  | cons op ops ih =>
      rw [List.length_cons] at hfuel
      have hlt : ∀ l, (σ l).length < fuel := fun l => (hr.length_le hall l).trans_lt (by omega)
      obtain ⟨h₁, hrun₁, hr₁⟩ := hr.exec op hvalid.1 hkeeps.1 hlt
      obtain ⟨all₁, hlen₁, hall₁⟩ := exists_all_apply op hall
      obtain ⟨h₂, hrun₂, hr₂⟩ := ih hr₁ hall₁ hvalid.2 hkeeps.2 (by omega)
      refine ⟨h₂, ?_, hr₂⟩
      rw [runListOps, hrun₁, Option.bind_some, hrun₂]
      rfl

end Lists

/-! ### What the memory shows -/

/-- **The memory shows the sequences**: the pointers are inverse to each other on every ring, they
lead through the items in order and back to the sentinel, the counter is the number of the items
that they reach, and every item is at one place. -/
structure Lists.Shows (h : Lists L ι) (σ : L → List ι) : Prop where
  inverse : ∀ l, ∀ x ∈ .sentinel l :: (σ l).map ListItem.item,
    h.prev (h.next x) = x ∧ h.next (h.prev x) = x
  order : ∀ l k (hk : k < (σ l).length), h.next^[k + 1] (.sentinel l) = .item (σ l)[k]
  closed : ∀ l, h.next^[(σ l).length + 1] (.sentinel l) = .sentinel l
  count : ∀ l, h.length l = {i | ∃ k, h.next^[k] (.sentinel l) = .item i}.ncard
  nodup : ∀ l, (σ l).Nodup
  disjoint : ∀ l l', l ≠ l' → ∀ i ∈ σ l, i ∉ σ l'

section Shows

omit [DecidableEq L] [DecidableEq ι]

variable {h : Lists L ι} {σ : L → List ι}

/-- The items that the pointers reach are the items of the sequence. -/
lemma reached_eq {l : L} {xs : List ι}
    (horder : ∀ k (hk : k < xs.length), h.next^[k + 1] (.sentinel l) = .item xs[k])
    (hclosed : h.next^[xs.length + 1] (.sentinel l) = .sentinel l) :
    {i | ∃ k, h.next^[k] (.sentinel l) = .item i} = {i | i ∈ xs} := by
  ext i
  constructor
  · rintro ⟨k, hk⟩
    have hperiod : Function.IsPeriodicPt h.next (xs.length + 1) (.sentinel l) := hclosed
    rw [← hperiod.iterate_mod_apply k] at hk
    have hlt : k % (xs.length + 1) < xs.length + 1 := Nat.mod_lt _ (Nat.succ_pos _)
    cases hm : k % (xs.length + 1) with
    | zero =>
        rw [hm] at hk
        cases hk
    | succ m =>
        rw [hm] at hk hlt
        rw [horder m (by omega)] at hk
        obtain rfl := ListItem.item.inj hk
        exact List.getElem_mem _
  · intro hi
    obtain ⟨k, hk, rfl⟩ := List.getElem_of_mem hi
    exact ⟨k + 1, horder k hk⟩

lemma ncard_reached {l : L} {xs : List ι} (hnodup : xs.Nodup)
    (horder : ∀ k (hk : k < xs.length), h.next^[k + 1] (.sentinel l) = .item xs[k])
    (hclosed : h.next^[xs.length + 1] (.sentinel l) = .sentinel l) :
    {i | ∃ k, h.next^[k] (.sentinel l) = .item i}.ncard = xs.length := by
  classical
  rw [reached_eq horder hclosed, ← List.coe_toFinset, Set.ncard_coe_finset,
    List.toFinset_card_of_nodup hnodup]

/-- What the invariant says to the one who follows the pointers. -/
lemma Lists.Refines.shows (hr : h.Refines σ) : h.Shows σ := by
  have horder : ∀ l k (hk : k < (σ l).length), h.next^[k + 1] (.sentinel l) = .item (σ l)[k] := by
    intro l k hk
    have hnode : k < (nodes l (σ l)).length := by
      rw [nodes, List.length_append, List.length_map]
      omega
    refine (Links.iterate_next (hr.ring l) hnode).trans ?_
    simp [nodes, hk]
  have hclosed : ∀ l, h.next^[(σ l).length + 1] (.sentinel l) = .sentinel l := by
    intro l
    have hnode : (σ l).length < (nodes l (σ l)).length := by simp [nodes]
    refine (Links.iterate_next (hr.ring l) hnode).trans ?_
    simp [nodes]
  refine ⟨fun l x hx => Links.next_prev_of_ring (hr.ring l) hx, horder, hclosed, fun l => ?_,
    hr.nodup, hr.disjoint⟩
  rw [ncard_reached (hr.nodup l) (horder l) (hclosed l), hr.length]

end Shows

/-- **The lists refine sequences.** Any operations on the lists, each with an item that is on no
list and positions on their lists outside the moved range, run to the end and return what they
mean, and the memory shows the sequences, as long as none of them breaks the counter. -/
theorem lists_refine_sequences (ops : List (ListOp L ι))
    (hvalid : ListOp.All ListOp.Valid ops fun _ => [])
    (hkeeps : ListOp.All ListOp.KeepsCount ops fun _ => []) {fuel : ℕ}
    (hfuel : ops.length ≤ fuel) :
    ∃ h, runListOps fuel ops Lists.construct = some (h, (applyListOps ops fun _ => []).2) ∧
      h.Shows (applyListOps ops fun _ => []).1 := by
  obtain ⟨h, hrun, hr⟩ := Lists.refines_construct.run (fun _ => List.Subset.refl [])
    hvalid hkeeps (by simpa using hfuel)
  exact ⟨h, hrun, hr.shows⟩

theorem lists_refine_sequences_between :
    ∃ h : Lists Unit ℕ,
      runListOps 4 [.append () 0, .append () 1, .insert () 2 1, .removeFirst ()] Lists.construct
        = some (h, [.void, .void, .bool true, .pointer (some (.item 0))]) ∧
      h.Shows fun _ => [2, 1] := by
  have hvalid : ListOp.All ListOp.Valid
      [.append () 0, .append () 1, .insert () 2 1, .removeFirst ()]
      (fun _ : Unit => ([] : List ℕ)) := by
    simp [ListOp.All, ListOp.Valid, ListOp.apply]
  have hkeeps : ListOp.All ListOp.KeepsCount
      [.append () 0, .append () 1, .insert () 2 1, .removeFirst ()]
      (fun _ : Unit => ([] : List ℕ)) := by
    simp [ListOp.All, ListOp.KeepsCount, intMax]
  have happly : (applyListOps [.append () 0, .append () 1, .insert () 2 1, .removeFirst ()]
      (fun _ : Unit => ([] : List ℕ))).1 = fun _ => [2, 1] := by
    funext u
    rfl
  obtain ⟨h, hrun, hshows⟩ := lists_refine_sequences _ hvalid hkeeps (le_refl 4)
  rw [happly] at hshows
  exact ⟨h, hrun, hshows⟩

/-- Insertion at index 0 counts the item twice. -/
theorem insert_at_front_miscounts :
    ListOp.All ListOp.Valid [.append () 0, .insert () 1 0] (fun _ : Unit => ([] : List ℕ)) ∧
      ¬ ∃ h : Lists Unit ℕ, runListOps 2 [.append () 0, .insert () 1 0] Lists.construct
          = some (h, (applyListOps [.append () 0, .insert () 1 0] fun _ => []).2) ∧
        h.Shows (applyListOps [.append () 0, .insert () 1 0] fun _ => []).1 := by
  refine ⟨by simp [ListOp.All, ListOp.Valid, ListOp.apply], ?_⟩
  rintro ⟨h, hrun, hshows⟩
  have hlen : (runListOps 2 [.append () 0, .insert () 1 0] Lists.construct).map
      (fun r => r.1.length ()) = some 3 := by decide
  rw [hrun] at hlen
  have hcount := hshows.count ()
  rw [ncard_reached (hshows.nodup ()) (hshows.order ()) (hshows.closed ())] at hcount
  have hthree : h.length () = 3 := Option.some.inj hlen
  rw [hthree] at hcount
  exact absurd hcount (by decide)

end Ocoms
