import Ocoms.Lib.Greedy
import Ocoms.Datatype.Internal

/-!
Loop nests, the tree behind a description.

* `Nest` is a description read as a tree: a sequence of elements and loops, a loop carrying its
  body and the data of its `END_LOOP`. `Nest.flatten` writes it as the entries of a description;
  `flatten_injective` says that the entries determine the tree.
* `Nest.blocks d` is the sequence of basic elements the nest describes at displacement `d`,
  `Nest.bytes d` the sequence of their byte displacements: the typemap in description order.
  Both move with `d` (`blocks_shift`, `bytes_shift`).
* `Nest.Wf` says that counts are positive, that element types have a size and that no loop body
  is empty; `Nest.Matches` that a `CONTIGUOUS` loop has an `END_LOOP` that describes its body:
  one pass of it is the run of `size` bytes from `firstElemDisp`. A nest with both is
  `Nest.Valid`.
* `Nest.Emits d as` says that a walk which may copy any number of first passes of a
  `CONTIGUOUS` loop through its `END_LOOP` and go through the remaining ones entry by entry can
  read the addresses `as`. On matching ends `as` is `bytes d` (`Matches.emits_iff`).
-/

namespace Ocoms

open Layout

/-! ### Blocks -/

/-- One basic element in memory. -/
structure Block where
  type : TypeId
  disp : ℤ
  deriving DecidableEq, Repr

namespace Block

/-- Its length. -/
def len (b : Block) : ℕ := basicSize b.type

/-- Its byte displacements. -/
def bytes (b : Block) : List ℤ := run b.disp b.len

/-- The block `x` bytes further on. -/
def shift (x : ℤ) (b : Block) : Block := { b with disp := b.disp + x }

@[simp] lemma length_bytes (b : Block) : b.bytes.length = b.len := length_run _ _

@[simp] lemma len_shift (x : ℤ) (b : Block) : (b.shift x).len = b.len := rfl

lemma bytes_shift (x : ℤ) (b : Block) : (b.shift x).bytes = b.bytes.map (· + x) :=
  (map_add_run _ _ _).symm

end Block

/-- The byte displacements of a sequence of blocks, in order. -/
def blocksBytes (bs : List Block) : List ℤ := bs.flatMap Block.bytes

@[simp] lemma blocksBytes_nil : blocksBytes [] = [] := rfl

@[simp] lemma blocksBytes_cons (b : Block) (bs : List Block) :
    blocksBytes (b :: bs) = b.bytes ++ blocksBytes bs := rfl

@[simp] lemma blocksBytes_append (as bs : List Block) :
    blocksBytes (as ++ bs) = blocksBytes as ++ blocksBytes bs := List.flatMap_append

lemma length_blocksBytes (bs : List Block) :
    (blocksBytes bs).length = Greedy.weight Block.len bs := by
  induction bs with
  | nil => rfl
  | cons b bs ih => simp [ih]

lemma blocksBytes_shift (x : ℤ) (bs : List Block) :
    blocksBytes (bs.map (Block.shift x)) = (blocksBytes bs).map (· + x) := by
  induction bs with
  | nil => rfl
  | cons b bs ih => simp [ih, Block.bytes_shift]

/-- The `count` elements of an entry, the first at `d + disp`. -/
def elemBlocks (e : ElemDesc) (count : ℕ) (d : ℤ) : List Block :=
  stride count e.extent (fun x => [⟨e.type, x⟩]) (d + e.disp)

@[simp] lemma elemBlocks_zero (e : ElemDesc) (d : ℤ) : elemBlocks e 0 d = [] := rfl

lemma elemBlocks_split (e : ElemDesc) {m n : ℕ} (h : m ≤ n) (d : ℤ) :
    elemBlocks e n d = elemBlocks e m d ++ elemBlocks e (n - m) (d + m * e.extent) := by
  rw [elemBlocks, stride_split h, elemBlocks, elemBlocks,
    show d + e.disp + m * e.extent = d + m * e.extent + e.disp by ring]

lemma elemBlocks_succ (e : ElemDesc) (n : ℕ) (d : ℤ) :
    elemBlocks e (n + 1) d = ⟨e.type, d + e.disp⟩ :: elemBlocks e n (d + e.extent) := by
  rw [elemBlocks, stride_succ, elemBlocks, show d + e.disp + e.extent = d + e.extent + e.disp by ring]
  rfl

@[simp] lemma length_elemBlocks (e : ElemDesc) (n : ℕ) (d : ℤ) :
    (elemBlocks e n d).length = n := by
  rw [elemBlocks, length_stride (k := 1) _ _ _ _ fun _ => rfl, mul_one]

lemma type_of_mem_elemBlocks {e : ElemDesc} {n : ℕ} {d : ℤ} {b : Block}
    (h : b ∈ elemBlocks e n d) : b.type = e.type := by
  obtain ⟨k, -, hk⟩ := mem_stride.mp h
  rw [List.mem_singleton.mp hk]

lemma elemBlocks_shift (e : ElemDesc) (n : ℕ) (d x : ℤ) :
    elemBlocks e n (d + x) = (elemBlocks e n d).map (Block.shift x) := by
  induction n generalizing d with
  | zero => rfl
  | succ n ih =>
      rw [elemBlocks_succ, elemBlocks_succ, List.map_cons, ← ih,
        show d + x + e.extent = d + e.extent + x by ring, Block.shift,
        show d + x + e.disp = d + e.disp + x by ring]

/-- The bytes of `count` elements, read element by element. -/
lemma blocksBytes_elemBlocks (e : ElemDesc) (count : ℕ) (d : ℤ) :
    blocksBytes (elemBlocks e count d)
      = stride count e.extent (fun x => run x (basicSize e.type)) (d + e.disp) := by
  rw [blocksBytes, elemBlocks, flatMap_stride]
  exact stride_congr _ _ _ fun x => by simp [Block.bytes, Block.len]

/-- Elements as far apart as they are long are one run. -/
lemma blocksBytes_elemBlocks_dense {e : ElemDesc} (h : (basicSize e.type : ℤ) = e.extent)
    (count : ℕ) (d : ℤ) :
    blocksBytes (elemBlocks e count d) = run (d + e.disp) (count * basicSize e.type) := by
  rw [blocksBytes_elemBlocks, ← h, stride_run]

lemma length_blocksBytes_elemBlocks (e : ElemDesc) (count : ℕ) (d : ℤ) :
    (blocksBytes (elemBlocks e count d)).length = count * basicSize e.type := by
  rw [blocksBytes_elemBlocks, length_stride _ _ _ _ fun _ => length_run _ _]

/-- There are gaps between the elements. -/
def ElemDesc.Gapped (p : ElemDesc) : Prop := 1 < p.count ∧ p.extent ≠ basicSize p.type

lemma ElemDesc.bytes_of_not_gapped {p : ElemDesc} (h : ¬ p.Gapped) (d : ℤ) :
    blocksBytes (elemBlocks p p.count d) = run (d + p.disp) (p.count * basicSize p.type) := by
  rcases Nat.lt_or_ge 1 p.count with hc | hc
  · exact blocksBytes_elemBlocks_dense (not_not.mp fun hne => h ⟨hc, fun he => hne he.symm⟩) _ _
  · interval_cases hcount : p.count
    · simp
    · rw [elemBlocks_succ]
      simp [Block.bytes, Block.len]

/-- Data with gaps is not the run of its bytes. -/
lemma ElemDesc.Gapped.not_starts {p : ElemDesc} (h : p.Gapped) (hsize : 0 < basicSize p.type)
    {n : ℕ} (hn : p.count * basicSize p.type ≤ n) (d : ℤ) (as bs : List ℤ) :
    run (d + p.disp) n ++ as ≠ blocksBytes (elemBlocks p p.count d) ++ bs := by
  intro heq
  obtain ⟨m, hm⟩ : ∃ m, p.count = m + 2 := ⟨p.count - 2, by have := h.1; omega⟩
  have hlen : basicSize p.type < n := by
    rw [hm, Nat.add_mul] at hn
    have : 0 ≤ m * basicSize p.type := Nat.zero_le _
    omega
  -- the first byte of the second element
  have hget : (run (d + p.disp) n ++ as)[basicSize p.type]?
      = (blocksBytes (elemBlocks p p.count d) ++ bs)[basicSize p.type]? := by rw [heq]
  rw [List.getElem?_append_left (by rwa [length_run]), getElem?_run, if_pos hlen, hm,
    elemBlocks_succ, elemBlocks_succ, blocksBytes_cons, blocksBytes_cons, List.append_assoc,
    List.getElem?_append_right (by simp [Block.len]), Block.length_bytes, Block.len, Nat.sub_self,
    List.append_assoc, Block.bytes, List.getElem?_append_left (by simpa [Block.len] using hsize),
    getElem?_run] at hget
  simp only [Block.len, hsize, if_true, Option.some.injEq, Nat.cast_zero, add_zero] at hget
  exact h.2 (by omega)

/-! ### Nests -/

/-- What a loop and its `END_LOOP` hold, `items` apart. -/
structure LoopInfo where
  flags : Flags
  loops : ℕ
  extent : ℤ
  endFlags : Flags
  size : ℕ
  firstElemDisp : ℤ
  deriving DecidableEq, Repr

/-- A description as a tree. -/
inductive Nest
  | done
  | elem (e : ElemDesc) (rest : Nest)
  | loop (l : LoopInfo) (body rest : Nest)
  deriving DecidableEq, Repr

namespace Nest

/-- The `LOOP` entry of a loop whose body has `n` entries. -/
def loopDesc (l : LoopInfo) (n : ℕ) : LoopDesc :=
  { flags := l.flags, loops := l.loops, items := n + 1, extent := l.extent }

/-- Its `END_LOOP` entry. -/
def endLoopDesc (l : LoopInfo) (n : ℕ) : EndLoopDesc :=
  { flags := l.endFlags, items := n + 1, size := l.size, firstElemDisp := l.firstElemDisp }

/-- The entries of the description. -/
def flatten : Nest → List DtElemDesc
  | done => []
  | elem e rest => .elem e :: rest.flatten
  | loop l body rest =>
      .loop (loopDesc l body.flatten.length) ::
        (body.flatten ++ .endLoop (endLoopDesc l body.flatten.length) :: rest.flatten)

/-- The description of the nest: its entries and the fake `END_LOOP`. -/
def desc (D : Nest) (fake : EndLoopDesc) : List DtElemDesc := D.flatten ++ [.endLoop fake]

/-- The basic elements at displacement `d`, in description order. -/
def blocks : Nest → ℤ → List Block
  | done, _ => []
  | elem e rest, d => elemBlocks e e.count d ++ rest.blocks d
  | loop l body rest, d => stride l.loops l.extent body.blocks d ++ rest.blocks d

/-- The typemap: the byte displacements in description order. -/
def bytes (t : Nest) (d : ℤ) : List ℤ := blocksBytes (t.blocks d)

/-- One nest after the other. -/
def append : Nest → Nest → Nest
  | done, t => t
  | elem e rest, t => elem e (rest.append t)
  | loop l body rest, t => loop l body (rest.append t)

instance : Append Nest := ⟨append⟩

@[simp] lemma done_append (t : Nest) : done ++ t = t := rfl

@[simp] lemma elem_append (e : ElemDesc) (r t : Nest) : elem e r ++ t = elem e (r ++ t) := rfl

@[simp] lemma loop_append (l : LoopInfo) (b r t : Nest) :
    loop l b r ++ t = loop l b (r ++ t) := rfl

@[simp] lemma append_done (t : Nest) : t ++ done = t := by
  induction t with
  | done => rfl
  | elem e r ih => rw [elem_append, ih]
  | loop l b r _ ih => rw [loop_append, ih]

lemma append_assoc (s t u : Nest) : s ++ t ++ u = s ++ (t ++ u) := by
  induction s with
  | done => rfl
  | elem e r ih => simp [ih]
  | loop l b r _ ih => simp [ih]

@[simp] lemma flatten_append (s t : Nest) : (s ++ t).flatten = s.flatten ++ t.flatten := by
  induction s with
  | done => rfl
  | elem e r ih => simp [flatten, ih]
  | loop l b r _ ih => simp [flatten, ih]

lemma length_flatten_loop (l : LoopInfo) (b r : Nest) :
    (loop l b r).flatten.length = b.flatten.length + r.flatten.length + 2 := by
  simp only [flatten, List.length_cons, List.length_append]
  ring

lemma length_flatten_pos {t : Nest} (ht : t ≠ done) : 0 < t.flatten.length := by
  cases t with
  | done => exact absurd rfl ht
  | elem e r => simp [flatten]
  | loop l b r => simp [length_flatten_loop]

@[simp] lemma blocks_append (s t : Nest) (d : ℤ) :
    (s ++ t).blocks d = s.blocks d ++ t.blocks d := by
  induction s with
  | done => rfl
  | elem e r ih => simp [blocks, ih]
  | loop l b r _ ih => simp [blocks, ih]

@[simp] lemma bytes_append (s t : Nest) (d : ℤ) :
    (s ++ t).bytes d = s.bytes d ++ t.bytes d := by simp [bytes]

@[simp] lemma bytes_done (d : ℤ) : bytes done d = [] := rfl

@[simp] lemma bytes_elem (e : ElemDesc) (r : Nest) (d : ℤ) :
    bytes (elem e r) d = blocksBytes (elemBlocks e e.count d) ++ r.bytes d := by
  simp [bytes, blocks]

@[simp] lemma bytes_loop (l : LoopInfo) (b r : Nest) (d : ℤ) :
    bytes (loop l b r) d = stride l.loops l.extent b.bytes d ++ r.bytes d := by
  rw [bytes, blocks, blocksBytes_append, blocksBytes, flatMap_stride]
  rfl

lemma blocks_shift (t : Nest) (d x : ℤ) :
    t.blocks (d + x) = (t.blocks d).map (Block.shift x) := by
  induction t generalizing d with
  | done => rfl
  | elem e r ih => rw [blocks, blocks, List.map_append, ih, elemBlocks_shift]
  | loop l b r ihb ih =>
      rw [blocks, blocks, List.map_append, ih, stride_shift _ _ _ _ ihb]

lemma bytes_shift (t : Nest) (d x : ℤ) : t.bytes (d + x) = (t.bytes d).map (· + x) := by
  rw [bytes, blocks_shift, blocksBytes_shift, bytes]

lemma bytes_eq_map (t : Nest) (d : ℤ) : t.bytes d = (t.bytes 0).map (· + d) := by
  rw [← bytes_shift, zero_add]

@[simp] lemma length_blocks (t : Nest) (d : ℤ) : (t.blocks d).length = (t.blocks 0).length := by
  rw [← zero_add d, blocks_shift, List.length_map]

lemma length_bytes (t : Nest) (d : ℤ) : (t.bytes d).length = (t.bytes 0).length := by
  rw [bytes_eq_map, List.length_map]

/-- The nest `x` bytes further on. -/
def shift (x : ℤ) : Nest → Nest
  | done => done
  | elem e rest => elem { e with disp := e.disp + x } (shift x rest)
  | loop l body rest =>
      loop { l with firstElemDisp := l.firstElemDisp + x } (shift x body) (shift x rest)

@[simp] lemma blocks_shift_eq (x : ℤ) (t : Nest) (d : ℤ) :
    (t.shift x).blocks d = t.blocks (d + x) := by
  induction t generalizing d with
  | done => rfl
  | elem e r ih =>
      have hdisp : d + (e.disp + x) = d + x + e.disp := by ring
      rw [shift, blocks, blocks, ih, elemBlocks, elemBlocks, hdisp]
  | loop l b r ihb ih =>
      rw [shift, blocks, blocks, ih, stride_add_right]
      congr 1
      exact stride_congr _ _ _ ihb

@[simp] lemma bytes_shift_eq (x : ℤ) (t : Nest) (d : ℤ) :
    (t.shift x).bytes d = t.bytes (d + x) := by rw [bytes, blocks_shift_eq, bytes]

/-- The nesting depth of the loops. -/
def depth : Nest → ℕ
  | done => 0
  | elem _ rest => rest.depth
  | loop _ body rest => max (body.depth + 1) rest.depth

@[simp] lemma depth_append (s t : Nest) : (s ++ t).depth = max s.depth t.depth := by
  induction s with
  | done => simp [depth]
  | elem e r ih => simp [depth, ih]
  | loop l b r _ ih => simp [depth, ih, max_assoc]

@[simp] lemma depth_shift (x : ℤ) (t : Nest) : (t.shift x).depth = t.depth := by
  induction t with
  | done => rfl
  | elem e r ih => exact ih
  | loop l b r ihb ih => rw [shift, depth, depth, ihb, ih]

@[simp] lemma length_flatten_shift (x : ℤ) (t : Nest) :
    (t.shift x).flatten.length = t.flatten.length := by
  induction t with
  | done => rfl
  | elem e r ih => simp [shift, flatten, ih]
  | loop l b r ihb ih => simp [shift, flatten, ihb, ih]

/-! ### The entries determine the nest -/

/-- What can follow a nest in a description: an `END_LOOP`, or nothing. -/
def Closes : List DtElemDesc → Prop
  | [] => True
  | .endLoop _ :: _ => True
  | _ => False

/-- A description can be read back: the entries determine the nest and what follows it. -/
theorem flatten_append_inj (s t : Nest) (u v : List DtElemDesc) (hu : Closes u) (hv : Closes v)
    (h : s.flatten ++ u = t.flatten ++ v) : s = t ∧ u = v := by
  induction s generalizing t u v with
  | done =>
      cases t with
      | done => exact ⟨rfl, h⟩
      | elem e r => subst h; exact hu.elim
      | loop l b r => subst h; exact hu.elim
  | elem e r ih =>
      cases t with
      | done => subst h; exact hv.elim
      | elem e' r' =>
          simp only [flatten, List.cons_append, List.cons.injEq, DtElemDesc.elem.injEq] at h
          obtain ⟨rfl, hr⟩ := h
          obtain ⟨rfl, rfl⟩ := ih r' u v hu hv hr
          exact ⟨rfl, rfl⟩
      | loop l b r' => simp [flatten] at h
  | loop l b r ihb ih =>
      cases t with
      | done => subst h; exact hv.elim
      | elem e r' => simp [flatten] at h
      | loop l' b' r' =>
          simp only [flatten, List.cons_append, List.cons.injEq, List.append_assoc] at h
          obtain ⟨hl, hr⟩ := h
          obtain ⟨rfl, hr⟩ := ihb b' (.endLoop _ :: _) (.endLoop _ :: _) trivial trivial hr
          obtain ⟨he, hr⟩ := List.cons.inj hr
          obtain ⟨rfl, rfl⟩ := ih r' u v hu hv hr
          refine ⟨?_, rfl⟩
          simp only [loopDesc, endLoopDesc, DtElemDesc.loop.injEq, DtElemDesc.endLoop.injEq,
            LoopDesc.mk.injEq, EndLoopDesc.mk.injEq] at hl he
          cases l; cases l'
          simp_all

lemma flatten_injective : Function.Injective flatten := fun s t h =>
  (flatten_append_inj s t [] [] trivial trivial (by rw [h])).1

/-! ### Valid nests -/

/-- The end of a `CONTIGUOUS` loop describes one pass of its body. -/
def LoopMatches (l : LoopInfo) (body : Nest) : Prop :=
  l.flags.contiguous = true → body.bytes 0 = run l.firstElemDisp l.size

/-- The shape of a description: positive counts, elements that have a size, no empty loop
body. -/
def Wf : Nest → Prop
  | done => True
  | elem e rest => 0 < e.count ∧ 0 < basicSize e.type ∧ rest.Wf
  | loop l body rest => 0 < l.loops ∧ body ≠ done ∧ body.Wf ∧ rest.Wf

/-- Every `CONTIGUOUS` loop has an `END_LOOP` that describes its body. -/
def Matches : Nest → Prop
  | done => True
  | elem _ rest => rest.Matches
  | loop l body rest => LoopMatches l body ∧ body.Matches ∧ rest.Matches

/-- A well-formed description. -/
structure Valid (t : Nest) : Prop where
  wf : t.Wf
  ends : t.Matches

lemma wf_append {s t : Nest} : (s ++ t).Wf ↔ s.Wf ∧ t.Wf := by
  induction s with
  | done => simp [Wf]
  | elem e r ih => simp [Wf, ih, and_assoc]
  | loop l b r _ ih => simp [Wf, ih, and_assoc]

lemma matches_append {s t : Nest} : (s ++ t).Matches ↔ s.Matches ∧ t.Matches := by
  induction s with
  | done => simp [Matches]
  | elem e r ih => simp [Matches, ih]
  | loop l b r _ ih => simp [Matches, ih, and_assoc]

lemma shift_ne_done {x : ℤ} {t : Nest} : t.shift x ≠ done ↔ t ≠ done := by
  cases t <;> simp [shift]

lemma Wf.shift {t : Nest} (h : t.Wf) (x : ℤ) : (t.shift x).Wf := by
  induction t with
  | done => trivial
  | elem e r ih => exact ⟨h.1, h.2.1, ih h.2.2⟩
  | loop l b r ihb ih => exact ⟨h.1, shift_ne_done.mpr h.2.1, ihb h.2.2.1, ih h.2.2.2⟩

lemma Matches.shift {t : Nest} (h : t.Matches) (x : ℤ) : (t.shift x).Matches := by
  induction t with
  | done => trivial
  | elem e r ih => exact ih h
  | loop l b r ihb ih =>
      refine ⟨fun hc => ?_, ihb h.2.1, ih h.2.2⟩
      rw [bytes_shift_eq, bytes_eq_map, h.1 hc, map_add_run, zero_add]

/-- One pass of a matching `CONTIGUOUS` loop, wherever it stands. -/
lemma LoopMatches.bytes_eq {l : LoopInfo} {body : Nest} (h : LoopMatches l body)
    (hc : l.flags.contiguous = true) (d : ℤ) :
    body.bytes d = run (d + l.firstElemDisp) l.size := by
  rw [bytes_eq_map, h hc, map_add_run, add_comm]

/-- The passes of a matching `CONTIGUOUS` loop, read through its `END_LOOP`. -/
lemma LoopMatches.stride_eq {l : LoopInfo} {body : Nest} (h : LoopMatches l body)
    (hc : l.flags.contiguous = true) (n : ℕ) (d : ℤ) :
    stride n l.extent body.bytes d
      = stride n l.extent (fun x => run (x + l.firstElemDisp) l.size) d :=
  stride_congr _ _ _ fun x => h.bytes_eq hc x

lemma Wf.length_pos {t : Nest} (h : t.Wf) (ht : t ≠ done) (d : ℤ) :
    0 < (t.bytes d).length := by
  induction t generalizing d with
  | done => exact absurd rfl ht
  | elem e r _ =>
      rw [bytes_elem, List.length_append, length_blocksBytes_elemBlocks]
      have := Nat.mul_pos h.1 h.2.1
      omega
  | loop l b r ihb _ =>
      obtain ⟨n, hn⟩ := Nat.exists_eq_succ_of_ne_zero h.1.ne'
      have := ihb h.2.2.1 h.2.1 d
      rw [bytes_loop, hn, stride_succ]
      simp only [List.length_append]
      omega

/-- The first displacement of a nest. -/
def firstDisp : Nest → ℤ
  | done => 0
  | elem e _ => e.disp
  | loop _ body _ => body.firstDisp

/-- The first byte of a nest. -/
lemma Wf.head?_bytes {t : Nest} (h : t.Wf) (ht : t ≠ .done) (d : ℤ) :
    (t.bytes d).head? = some (d + t.firstDisp) := by
  induction t generalizing d with
  | done => exact absurd rfl ht
  | elem e r _ =>
      obtain ⟨n, hn⟩ := Nat.exists_eq_succ_of_ne_zero h.1.ne'
      obtain ⟨k, hk⟩ := Nat.exists_eq_succ_of_ne_zero h.2.1.ne'
      rw [bytes_elem, hn, elemBlocks_succ, blocksBytes_cons, Block.bytes, Block.len, hk]
      rfl
  | loop l b r ihb _ =>
      obtain ⟨n, hn⟩ := Nat.exists_eq_succ_of_ne_zero h.1.ne'
      rw [bytes_loop, hn, stride_succ, List.append_assoc, List.head?_append, ihb h.2.2.1 h.2.1]
      rfl

/-- The first element of a matching `CONTIGUOUS` loop is where its end says. -/
lemma LoopMatches.firstDisp_eq {l : LoopInfo} {b : Nest} (h : LoopMatches l b) (hc : l.flags.contiguous = true)
    (hwf : b.Wf) (hb : b ≠ .done) : b.firstDisp = l.firstElemDisp ∧ 0 < l.size := by
  have hlen := hwf.length_pos hb 0
  have hhead := hwf.head?_bytes hb 0
  rw [h hc, length_run] at hlen
  obtain ⟨n, hn⟩ := Nat.exists_eq_succ_of_ne_zero hlen.ne'
  rw [h hc, hn, run, List.head?_cons] at hhead
  refine ⟨?_, hlen⟩
  have := Option.some.inj hhead
  omega

/-! ### Walks through the shortcut -/

/-- The addresses a walk of the nest at displacement `d` can read: of a `CONTIGUOUS` loop it may
copy any number `m` of first passes through the `END_LOOP`; it goes through the others entry by
entry. -/
def Emits : Nest → ℤ → List ℤ → Prop
  | done, _, as => as = []
  | elem e rest, d, as =>
      ∃ bs, rest.Emits d bs ∧ as = blocksBytes (elemBlocks e e.count d) ++ bs
  | loop l body rest, d, as =>
      ∃ m ≤ l.loops, (l.flags.contiguous = false → m = 0) ∧
        ∃ pass : ℕ → List ℤ, (∀ k < l.loops - m, body.Emits (d + (m + k : ℕ) * l.extent) (pass k)) ∧
          ∃ bs, rest.Emits d bs ∧
            as = stride m l.extent (fun x => run (x + l.firstElemDisp) l.size) d
              ++ (List.range (l.loops - m)).flatMap pass ++ bs

lemma flatMap_range_eq_stride {pass : ℕ → List ℤ} {f : ℤ → List ℤ} {ext d : ℤ} {n : ℕ}
    (h : ∀ k < n, pass k = f (d + k * ext)) :
    (List.range n).flatMap pass = stride n ext f d := by
  induction n with
  | zero => rfl
  | succ n ih =>
      rw [List.range_succ, List.flatMap_append, ih fun k hk => h k (by omega), stride_add]
      simp [h n (by omega)]

/-- A loop emits its passes, when its body emits only one list and the end of a `CONTIGUOUS` loop
describes that list. -/
lemma emits_loop_iff {l : LoopInfo} {body : Nest} {f : ℤ → List ℤ}
    (hm : l.flags.contiguous = true → ∀ d, f d = run (d + l.firstElemDisp) l.size)
    (hb : ∀ d as, body.Emits d as ↔ as = f d) (rest : Nest) (d : ℤ) (as : List ℤ) :
    (loop l body rest).Emits d as ↔
      ∃ bs, rest.Emits d bs ∧ as = stride l.loops l.extent f d ++ bs := by
  simp only [Emits, hb]
  constructor
  · rintro ⟨m, hml, hc, pass, hpass, bs, hbs, rfl⟩
    refine ⟨bs, hbs, ?_⟩
    congr 1
    have htail : (List.range (l.loops - m)).flatMap pass
        = stride (l.loops - m) l.extent f (d + m * l.extent) := by
      refine flatMap_range_eq_stride fun k hk => ?_
      rw [hpass k hk]
      congr 1; push_cast; ring
    rw [htail, stride_split hml]
    congr 1
    cases hcf : l.flags.contiguous with
    | false => rw [hc hcf]; rfl
    | true => exact (stride_congr _ _ _ (hm hcf)).symm
  · rintro ⟨bs, hbs, rfl⟩
    refine ⟨0, Nat.zero_le _, fun _ => rfl, fun k => f (d + (0 + k : ℕ) * l.extent),
      fun k _ => rfl, bs, hbs, ?_⟩
    rw [stride_zero, List.nil_append, Nat.sub_zero]
    congr 1
    exact (flatMap_range_eq_stride fun k _ => by simp).symm

/-- **A nest with matching ends denotes its typemap**, however often the shortcut is taken. -/
theorem Matches.emits_iff {t : Nest} (h : t.Matches) (d : ℤ) (as : List ℤ) :
    t.Emits d as ↔ as = t.bytes d := by
  induction t generalizing d as with
  | done => simp [Emits]
  | elem e r ih => simp [Emits, ih h, bytes_elem]
  | loop l b r ihb ih =>
      obtain ⟨hm, hb, hr⟩ := h
      simp [emits_loop_iff hm.bytes_eq (ihb hb), ih hr, bytes_loop]

end Nest

end Ocoms
