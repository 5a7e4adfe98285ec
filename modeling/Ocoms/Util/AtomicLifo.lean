import Mathlib.Data.Int.Notation
import Mathlib.Data.List.Nodup
import Mathlib.Logic.Function.Basic

/-!
The lock-free stack: `ocoms_atomic_lifo.h`, in the build with `OCOMS_ENABLE_MULTI_THREADS`.

* `Lifo` is the memory, with the place at which every thread is in its call. `Lifo.step` is one
  atomic step of one thread: a read, a write or a compare-and-swap. Any number of threads takes steps
  in any order.
* `owner` says which items are outside, and whose they are. A thread pushes items that it owns.
* `Leads` is the chain from a pointer. `Lifo.Inv` is the invariant: `item_free` is 0 exactly for the
  items on the chain that no thread has claimed.
* `atomic_lifo_safe` is the theorem about all interleavings.
-/

namespace Ocoms

/-! ### Chains -/

section Chains

variable {π ι : Type*} {node next : ι → π} {stop p : π} {l : List ι} {i : ι}

/-- The pointers lead from `p` through the nodes `l` to the end. -/
def Leads (node next : ι → π) (stop : π) : π → List ι → Prop
  | p, [] => p = stop
  | p, i :: l => p = node i ∧ Leads node next stop (next i) l

/-- A node that is not on the chain may change. -/
lemma Leads.update [DecidableEq ι] (h : Leads node next stop p l) (hi : i ∉ l) (q : π) :
    Leads node (Function.update next i q) stop p l := by
  induction l generalizing p with
  | nil => exact h
  | cons j l ih =>
      obtain ⟨hj, hl⟩ := not_or.mp fun h => hi (List.mem_cons.mpr h)
      refine ⟨h.1, ?_⟩
      rw [Function.update_of_ne (Ne.symm hj)]
      exact ih h.2 hl

/-- The first node of a chain. -/
lemma Leads.of_node (hnode : Function.Injective node) (hstop : node i ≠ stop)
    (h : Leads node next stop (node i) l) :
    ∃ l', l = i :: l' ∧ Leads node next stop (next i) l' := by
  cases l with
  | nil => exact absurd h hstop
  | cons j l' =>
      obtain rfl := hnode h.1
      exact ⟨l', rfl, h.2⟩

end Chains

/-! ### The code -/

/-- A pointer to an item. -/
inductive LifoPtr (ι : Type*)
  | null
  | ghost
  | item (i : ι)
  deriving DecidableEq

/-- Where a thread is: the next step that it takes. -/
inductive LifoPc (ι : Type*)
  | idle
  /-- Reads `ocoms_lifo_head`. -/
  | pushRead (i : ι)
  /-- Writes it to `item->ocoms_list_next`. -/
  | pushWrite (i : ι) (head : LifoPtr ι)
  /-- Reads `item->ocoms_list_next`. -/
  | pushNext (i : ι)
  /-- Compares the head with it, and swaps. -/
  | pushCas (i : ι) (next : LifoPtr ι)
  /-- Swaps `item_free` from 1 to 0. -/
  | pushFree (i : ι)
  /-- Reads `item->ocoms_list_next` once more, and returns it. -/
  | pushReturn (i : ι)
  /-- Reads `ocoms_lifo_head`. -/
  | popRead
  /-- Swaps `item_free` from 0 to 1. -/
  | popClaim (i : ι)
  /-- Reads `item->ocoms_list_next`. -/
  | popNext (i : ι)
  /-- Compares the head with the item, and swaps. -/
  | popCas (i : ι) (next : LifoPtr ι)
  /-- Swaps `item_free` back from 1 to 0. -/
  | popRelease (i : ι)
  /-- Writes `NULL` to `item->ocoms_list_next`, and returns the item. -/
  | popClear (i : ι)

/-- What the history of the stack records: an item is on the chain, and an item is returned. -/
inductive LifoEvent (τ ι : Type*)
  | pushed (t : τ) (i : ι)
  | popped (t : τ) (i : ι)

/-- A thread calls one of the functions, or goes on with its call. -/
inductive LifoAction (τ ι : Type*)
  | push (t : τ) (i : ι)
  | pop (t : τ)
  | run (t : τ)

/-- `ocoms_atomic_lifo_t` with the items, the threads, and the owners of the items outside. -/
structure Lifo (τ ι : Type*) where
  head : LifoPtr ι
  next : ι → LifoPtr ι
  free : ι → ℤ
  pc : τ → LifoPc ι
  owner : ι → Option τ

namespace Lifo

variable {τ ι : Type*} [DecidableEq τ] [DecidableEq ι]

/-- The thread is at another place. -/
def setPc (s : Lifo τ ι) (t : τ) (pc : LifoPc ι) : Lifo τ ι :=
  { s with pc := Function.update s.pc t pc }

/-- `ocoms_atomic_cmpset_32` on `item_free`, with what it returns. -/
def cmpsetFree (s : Lifo τ ι) (i : ι) (old new : ℤ) : Bool × Lifo τ ι :=
  if s.free i = old then (true, { s with free := Function.update s.free i new }) else (false, s)

/-- One step of `ocoms_atomic_lifo_push` or `ocoms_atomic_lifo_pop`, and what is recorded. `none` is
the use of a null pointer. -/
def stepThread (s : Lifo τ ι) (t : τ) : Option (Lifo τ ι × Option (LifoEvent τ ι)) :=
  match s.pc t with
  | .idle => none
  | .pushRead i => some (s.setPc t (.pushWrite i s.head), none)
  | .pushWrite i head =>
      some ({ s with next := Function.update s.next i head }.setPc t (.pushNext i), none)
  | .pushNext i => some (s.setPc t (.pushCas i (s.next i)), none)
  | .pushCas i next =>
      if s.head = next then
        some ({ s with head := .item i }.setPc t (.pushFree i), some (.pushed t i))
      else some (s.setPc t (.pushRead i), none)
  | .pushFree i => some ((s.cmpsetFree i 1 0).2.setPc t (.pushReturn i), none)
  | .pushReturn _ => some (s.setPc t .idle, none)
  | .popRead =>
      match s.head with
      | .null => none
      | .ghost => some (s.setPc t .idle, none)
      | .item i => some (s.setPc t (.popClaim i), none)
  | .popClaim i =>
      let (swapped, s) := s.cmpsetFree i 0 1
      some (s.setPc t (if swapped then .popNext i else .popRead), none)
  | .popNext i => some (s.setPc t (.popCas i (s.next i)), none)
  | .popCas i next =>
      if s.head = .item i then some ({ s with head := next }.setPc t (.popClear i), none)
      else some (s.setPc t (.popRelease i), none)
  | .popRelease i => some ((s.cmpsetFree i 1 0).2.setPc t .popRead, none)
  | .popClear i =>
      some ({ s with
        next := Function.update s.next i .null
        owner := Function.update s.owner i (some t) }.setPc t .idle, some (.popped t i))

/-- One atomic step. A thread pushes an item that it owns. -/
def step (s : Lifo τ ι) : LifoAction τ ι → Option (Lifo τ ι × Option (LifoEvent τ ι))
  | .push t i =>
      match s.pc t with
      | .idle =>
          if s.owner i = some t then
            some ({ s with owner := Function.update s.owner i none }.setPc t (.pushRead i), none)
          else none
      | _ => none
  | .pop t =>
      match s.pc t with
      | .idle => some (s.setPc t .popRead, none)
      | _ => none
  | .run t => s.stepThread t

/-- `ocoms_atomic_lifo_construct`, with items that `ocoms_list_item_construct` has made and that are
all owned by threads. -/
structure IsInitial (s : Lifo τ ι) : Prop where
  head : s.head = .ghost
  free : ∀ i, s.free i = 1
  pc : ∀ t, s.pc t = .idle
  owner : ∀ i, ∃ t, s.owner i = some t

end Lifo

/-- **The runs**: any threads take steps in any order. The history begins with the last event. -/
inductive LifoRun {τ ι : Type*} [DecidableEq τ] [DecidableEq ι] (s₀ : Lifo τ ι) :
    List (LifoEvent τ ι) → Lifo τ ι → Prop
  | start : LifoRun s₀ [] s₀
  | step {log : List (LifoEvent τ ι)} {s s' : Lifo τ ι} {e : Option (LifoEvent τ ι)}
      (a : LifoAction τ ι) : LifoRun s₀ log s → s.step a = some (s', e) →
      LifoRun s₀ (e.toList ++ log) s'

/-! ### The invariant -/

/-- The item that a thread has to itself. -/
def LifoPc.held {ι : Type*} : LifoPc ι → Option ι
  | .pushRead i | .pushWrite i _ | .pushNext i | .pushCas i _ | .pushFree i => some i
  | .popNext i | .popCas i _ | .popRelease i | .popClear i => some i
  | .idle | .pushReturn _ | .popRead | .popClaim _ => none

/-- The item that a thread has to itself is on the chain. -/
def LifoPc.linked {ι : Type*} : LifoPc ι → Bool
  | .pushFree _ | .popNext _ | .popCas _ _ | .popRelease _ => true
  | _ => false

/-- The item that a thread has taken off the chain, and is going to return. -/
def LifoPc.taken {ι : Type*} : LifoPc ι → Option ι
  | .popClear i => some i
  | _ => none

/-- What a thread has read from `ocoms_list_next` of its item is still there. -/
def LifoPc.Knows {ι : Type*} (next : ι → LifoPtr ι) : LifoPc ι → Prop
  | .pushCas i q | .popCas i q => next i = q
  | _ => True

/-- It stays there when another item changes. -/
lemma LifoPc.knows_update {ι : Type*} [DecidableEq ι] {pc : LifoPc ι} {next : ι → LifoPtr ι} {i : ι}
    (hknows : pc.Knows next) (hi : pc.held ≠ some i) (q : LifoPtr ι) :
    pc.Knows (Function.update next i q) := by
  cases pc with
  | pushCas j q' =>
      have hne : j ≠ i := fun h => hi (congrArg some h)
      exact (Function.update_of_ne hne _ _).trans hknows
  | popCas j q' =>
      have hne : j ≠ i := fun h => hi (congrArg some h)
      exact (Function.update_of_ne hne _ _).trans hknows
  | _ => trivial

/-- The item of an event. -/
def LifoEvent.item {τ ι : Type*} : LifoEvent τ ι → ι
  | .pushed _ i | .popped _ i => i

/-- The last event of an item. -/
def lastEvent {τ ι : Type*} [DecidableEq ι] (i : ι) (log : List (LifoEvent τ ι)) :
    Option (LifoEvent τ ι) :=
  log.find? fun e => e.item = i

/-- **No item is returned twice** without a push of it in between. -/
def PushedBetweenPops {τ ι : Type*} (log : List (LifoEvent τ ι)) : Prop :=
  ∀ i t t' later between earlier,
    log = later ++ .popped t i :: (between ++ .popped t' i :: earlier) → ∃ t'', .pushed t'' i ∈ between

namespace Lifo

variable {τ ι : Type*} [DecidableEq ι]

/-- Where an item is. It is outside and has an owner, or it is free on the chain, or one thread has
it to itself: to push it, or because it has claimed it. -/
inductive ItemInv (s : Lifo τ ι) (log : List (LifoEvent τ ι)) (l : List ι) (i : ι) : Prop
  | outside (t : τ) (owner : s.owner i = some t) (held : ∀ t', (s.pc t').held ≠ some i)
      (free : s.free i = 1) (chain : i ∉ l)
      (last : lastEvent i log = none ∨ lastEvent i log = some (.popped t i))
  | free (owner : s.owner i = none) (held : ∀ t, (s.pc t).held ≠ some i)
      (free : s.free i = 0) (chain : i ∈ l) (last : ∃ t, lastEvent i log = some (.pushed t i))
  | held (t : τ) (owner : s.owner i = none) (held : ∀ t', (s.pc t').held = some i ↔ t' = t)
      (free : s.free i = 1) (chain : i ∈ l ↔ (s.pc t).linked = true)
      (last : i ∈ l ∨ (s.pc t).taken = some i → ∃ t', lastEvent i log = some (.pushed t' i))

/-- **The invariant.** The chain from the head consists of the items `l`. -/
structure Inv (s : Lifo τ ι) (log : List (LifoEvent τ ι)) (l : List ι) : Prop where
  chain : Leads LifoPtr.item s.next .ghost s.head l
  nodup : l.Nodup
  item : ∀ i, s.ItemInv log l i
  knows : ∀ t, (s.pc t).Knows s.next
  between : PushedBetweenPops log

variable {s s' : Lifo τ ι} {log log' : List (LifoEvent τ ι)} {l l' : List ι} {t : τ} {i j : ι}
  {pc : LifoPc ι}

lemma IsInitial.inv (h : s.IsInitial) : s.Inv [] [] where
  chain := h.head
  nodup := .nil
  item := fun i => by
    obtain ⟨t, ht⟩ := h.owner i
    refine .outside t ht (fun t' => ?_) (h.free i) List.not_mem_nil (.inl rfl)
    rw [h.pc t']
    exact Option.some_ne_none i |>.symm
  knows := fun t => by
    rw [h.pc t]
    trivial
  between := fun _ _ _ later _ _ hlog => by
    cases later <;> cases hlog

/-- The item of a thread. -/
lemma ItemInv.of_held (h : s.ItemInv log l i) (ht : (s.pc t).held = some i) :
    s.owner i = none ∧ (∀ t', (s.pc t').held = some i ↔ t' = t) ∧ s.free i = 1 ∧
      (i ∈ l ↔ (s.pc t).linked = true) ∧
      (i ∈ l ∨ (s.pc t).taken = some i → ∃ t', lastEvent i log = some (.pushed t' i)) := by
  cases h with
  | outside t' owner held => exact absurd ht (held t)
  | free owner held => exact absurd ht (held t)
  | held t' owner held free chain last =>
      obtain rfl := (held t).mp ht
      exact ⟨owner, held, free, chain, last⟩

/-- An item that can be claimed. -/
lemma ItemInv.of_free (h : s.ItemInv log l i) (hfree : s.free i = 0) :
    s.owner i = none ∧ (∀ t, (s.pc t).held ≠ some i) ∧ i ∈ l ∧
      ∃ t, lastEvent i log = some (.pushed t i) := by
  cases h with
  | outside t owner held free => exact absurd (hfree.symm.trans free) (by decide)
  | free owner held free chain last => exact ⟨owner, held, chain, last⟩
  | held t owner held free => exact absurd (hfree.symm.trans free) (by decide)

/-- An item that a thread can push. -/
lemma ItemInv.of_owner (h : s.ItemInv log l i) (howner : s.owner i = some t) :
    (∀ t', (s.pc t').held ≠ some i) ∧ s.free i = 1 ∧ i ∉ l := by
  cases h with
  | outside t' owner held free chain => exact ⟨held, free, chain⟩
  | free owner => exact absurd (owner.symm.trans howner) (Option.some_ne_none t).symm
  | held t' owner => exact absurd (owner.symm.trans howner) (Option.some_ne_none t).symm

/-- **An item that a step does not touch.** -/
lemma ItemInv.congr (h : s.ItemInv log l i) (howner : s'.owner i = s.owner i)
    (hfree : s'.free i = s.free i) (hchain : i ∈ l' ↔ i ∈ l)
    (hlast : lastEvent i log' = lastEvent i log)
    (hheld : ∀ t, (s'.pc t).held = some i ↔ (s.pc t).held = some i)
    (hpc : ∀ t, (s.pc t).held = some i →
      (s'.pc t).linked = (s.pc t).linked ∧ (s'.pc t).taken = (s.pc t).taken) :
    s'.ItemInv log' l' i := by
  have hheldne : (∀ t, (s.pc t).held ≠ some i) → ∀ t, (s'.pc t).held ≠ some i := by
    intro hne t ht
    exact hne t ((hheld t).mp ht)
  cases h with
  | outside t owner held free chain last =>
      refine .outside t (howner.trans owner) (hheldne held) (hfree.trans free) ?_ ?_
      · rwa [hchain]
      · rwa [hlast]
  | free owner held free chain last =>
      refine .free (howner.trans owner) (hheldne held) (hfree.trans free) ?_ ?_
      · rwa [hchain]
      · rwa [hlast]
  | held t owner held free chain last =>
      obtain ⟨hlinked, htaken⟩ := hpc t ((held t).mpr rfl)
      refine .held t (howner.trans owner) (fun t' => ?_) (hfree.trans free) ?_ ?_
      · rw [hheld, held]
      · rwa [hchain, hlinked]
      · rwa [hchain, htaken, hlast]

/-- An item that no thread but one has. -/
lemma ItemInv.others (h : s.ItemInv log l i)
    (ht : (s.pc t).held = some i ∨ ∀ t', (s.pc t').held ≠ some i) {t' : τ} (hne : t' ≠ t) :
    (s.pc t').held ≠ some i := by
  rcases ht with ht | hno
  · intro ht'
    exact hne (((h.of_held ht).2.1 t').mp ht')
  · exact hno t'

/-- The last event of an item. -/
lemma lastEvent_cons (e : LifoEvent τ ι) (h : e.item = i) :
    lastEvent i (e :: log) = some e :=
  List.find?_cons_of_pos (decide_eq_true h)

lemma lastEvent_cons_of_ne (e : LifoEvent τ ι) (h : e.item ≠ i) :
    lastEvent i (e :: log) = lastEvent i log :=
  List.find?_cons_of_neg (by simpa using h)

omit [DecidableEq ι] in
/-- A push does not return an item. -/
lemma pushedBetweenPops_pushed (h : PushedBetweenPops log) (t : τ) (i : ι) :
    PushedBetweenPops (.pushed t i :: log) := by
  intro j t₁ t₂ later between earlier hlog
  cases later with
  | nil => cases hlog
  | cons e later => exact h j t₁ t₂ later between earlier (List.cons_eq_cons.mp hlog).2

/-- An item is returned that was pushed after it was last returned. -/
lemma pushedBetweenPops_popped (h : PushedBetweenPops log)
    (hlast : ∃ t', lastEvent i log = some (.pushed t' i)) (t : τ) :
    PushedBetweenPops (.popped t i :: log) := by
  intro j t₁ t₂ later between earlier hlog
  cases later with
  | cons e later => exact h j t₁ t₂ later between earlier (List.cons_eq_cons.mp hlog).2
  | nil =>
      obtain ⟨hhead, rfl⟩ := List.cons_eq_cons.mp hlog
      obtain ⟨-, rfl⟩ := LifoEvent.popped.inj hhead
      obtain ⟨t', hlast⟩ := hlast
      -- the last event is not the older return, so it comes after that
      unfold lastEvent at hlast
      rw [List.find?_append, Option.or_eq_some_iff] at hlast
      rcases hlast with hlast | ⟨-, hlast⟩
      · exact ⟨t', List.mem_of_find?_eq_some hlast⟩
      · have hpop := hlast.symm.trans (lastEvent_cons (.popped t₂ i) rfl)
        cases hpop

variable [DecidableEq τ]

omit [DecidableEq ι] in
@[simp]
lemma setPc_pc_self : (s.setPc t pc).pc t = pc :=
  Function.update_self _ _ _

omit [DecidableEq ι] in
lemma setPc_pc_of_ne {t' : τ} (h : t' ≠ t) : (s.setPc t pc).pc t' = s.pc t' :=
  Function.update_of_ne h _ _

/-- **A step that only reads**, or that fails. -/
lemma Inv.setPc (h : s.Inv log l) (hheld : pc.held = (s.pc t).held)
    (hlinked : pc.linked = (s.pc t).linked) (htaken : pc.taken = (s.pc t).taken)
    (hknows : pc.Knows s.next) : (s.setPc t pc).Inv log l := by
  refine ⟨h.chain, h.nodup, fun i => ?_, fun t' => ?_, h.between⟩
  · refine (h.item i).congr rfl rfl Iff.rfl rfl (fun t' => ?_) fun t' _ => ?_
    · by_cases ht : t' = t
      · subst ht
        rw [setPc_pc_self, hheld]
      · rw [setPc_pc_of_ne ht]
    · by_cases ht : t' = t
      · subst ht
        rw [setPc_pc_self]
        exact ⟨hlinked, htaken⟩
      · rw [setPc_pc_of_ne ht]
        exact ⟨rfl, rfl⟩
  · by_cases ht : t' = t
    · subst ht
      rw [setPc_pc_self]
      exact hknows
    · rw [setPc_pc_of_ne ht]
      exact h.knows t'

/-- **A step that changes one item**: only the thread that takes it has the item, before and after
the step. -/
lemma Inv.change (h : s.Inv log l) (t : τ) (pc : LifoPc ι) (i : ι)
    (hhave : (s.pc t).held = some i ∨ (s.pc t).held = none ∧ ∀ t', (s.pc t').held ≠ some i)
    (hheld : pc.held = some i ∨ pc.held = none)
    (hpc : ∀ t', s'.pc t' = (s.setPc t pc).pc t')
    (howner : ∀ j ≠ i, s'.owner j = s.owner j) (hfree : ∀ j ≠ i, s'.free j = s.free j)
    (hmem : ∀ j ≠ i, j ∈ l' ↔ j ∈ l) (hlast : ∀ j ≠ i, lastEvent j log' = lastEvent j log)
    (hchain : Leads LifoPtr.item s'.next .ghost s'.head l') (hnodup : l'.Nodup)
    (hitem : s'.pc t = pc → (∀ t', (s'.pc t').held = some i ↔ pc.held = some i ∧ t' = t) →
      s'.ItemInv log' l' i)
    (hnext : s'.next = s.next ∨ ∃ q, s'.next = Function.update s.next i q)
    (hknows : pc.Knows s'.next) (hbetween : PushedBetweenPops log') : s'.Inv log' l' := by
  have hothers : ∀ t' ≠ t, (s.pc t').held ≠ some i := fun t' ht =>
    (h.item i).others (hhave.imp_right And.right) ht
  have hself : s'.pc t = pc := by
    rw [hpc, setPc_pc_self]
  have hrest : ∀ t' ≠ t, s'.pc t' = s.pc t' := fun t' ht => by
    rw [hpc, setPc_pc_of_ne ht]
  have hnew : ∀ j ≠ i, pc.held ≠ some j := by
    rintro j hj hp
    rcases hheld with hheld | hheld <;> rw [hheld] at hp
    · exact hj (Option.some.inj hp).symm
    · cases hp
  have hold : ∀ j ≠ i, (s.pc t).held ≠ some j := by
    rintro j hj hp
    rcases hhave with hhave | ⟨hhave, -⟩ <;> rw [hhave] at hp
    · exact hj (Option.some.inj hp).symm
    · cases hp
  refine ⟨hchain, hnodup, fun j => ?_, fun t' => ?_, hbetween⟩
  · by_cases hj : j = i
    · subst hj
      refine hitem hself fun t' => ?_
      by_cases ht : t' = t
      · subst ht
        rw [hself]
        exact (and_iff_left rfl).symm
      · rw [hrest t' ht]
        exact iff_of_false (hothers t' ht) fun hp => ht hp.2
    · refine (h.item j).congr (howner j hj) (hfree j hj) (hmem j hj) (hlast j hj)
        (fun t' => ?_) fun t' ht' => ?_
      · by_cases ht : t' = t
        · subst ht
          rw [hself]
          exact iff_of_false (hnew j hj) (hold j hj)
        · rw [hrest t' ht]
      · have ht : t' ≠ t := by
          rintro rfl
          exact hold j hj ht'
        rw [hrest t' ht]
        exact ⟨rfl, rfl⟩
  · by_cases ht : t' = t
    · subst ht
      rw [hself]
      exact hknows
    · rw [hrest t' ht]
      rcases hnext with hnext | ⟨q, hnext⟩ <;> rw [hnext]
      · exact h.knows t'
      · exact LifoPc.knows_update (h.knows t') (hothers t' ht) q

/-- A thread begins to push an item that it owns. -/
lemma Inv.callPush (h : s.Inv log l) (hpc : s.pc t = .idle) (howner : s.owner i = some t) :
    ({ s with owner := Function.update s.owner i none }.setPc t (.pushRead i)).Inv log l := by
  obtain ⟨hno, hfree, hnot⟩ := (h.item i).of_owner howner
  refine h.change t (.pushRead i) i (.inr ⟨?_, hno⟩) (.inl rfl) (fun _ => rfl)
    (fun j hj => Function.update_of_ne hj _ _) (fun _ _ => rfl) (fun _ _ => Iff.rfl) (fun _ _ => rfl)
    h.chain h.nodup (fun hself hwho => ?_) (.inl rfl) trivial h.between
  · rw [hpc]
    rfl
  · refine .held t (Function.update_self _ _ _) (fun t' => ?_) hfree ?_ ?_
    · exact (hwho t').trans (and_iff_right rfl)
    · rw [hself]
      exact iff_of_false hnot Bool.false_ne_true
    · rw [hself]
      rintro (hi | hi)
      · exact absurd hi hnot
      · cases hi

/-- The thread writes the next pointer of its item, which is not on the chain. -/
lemma Inv.pushWrite {q : LifoPtr ι} (h : s.Inv log l) (hpc : s.pc t = .pushWrite i q) :
    ({ s with next := Function.update s.next i q }.setPc t (.pushNext i)).Inv log l := by
  have hheld : (s.pc t).held = some i := by
    rw [hpc]
    rfl
  obtain ⟨howner, -, hfree, hchain, -⟩ := (h.item i).of_held hheld
  have hnot : i ∉ l := fun hi => by
    rw [hpc] at hchain
    exact absurd (hchain.mp hi) Bool.false_ne_true
  refine h.change t (.pushNext i) i (.inl hheld) (.inl rfl) (fun _ => rfl)
    (fun _ _ => rfl) (fun _ _ => rfl) (fun _ _ => Iff.rfl) (fun _ _ => rfl)
    (h.chain.update hnot q) h.nodup (fun hself hwho => ?_) (.inr ⟨q, rfl⟩) trivial h.between
  refine .held t howner (fun t' => ?_) hfree ?_ ?_
  · exact (hwho t').trans (and_iff_right rfl)
  · rw [hself]
    exact iff_of_false hnot Bool.false_ne_true
  · rw [hself]
    rintro (hi | hi)
    · exact absurd hi hnot
    · cases hi

/-- **The item is on the chain** from here on. -/
lemma Inv.pushCas (h : s.Inv log l) (hpc : s.pc t = .pushCas i s.head) :
    ({ s with head := .item i }.setPc t (.pushFree i)).Inv (.pushed t i :: log) (i :: l) := by
  have hheld : (s.pc t).held = some i := by
    rw [hpc]
    rfl
  obtain ⟨howner, -, hfree, hchain, -⟩ := (h.item i).of_held hheld
  have hnot : i ∉ l := fun hi => by
    rw [hpc] at hchain
    exact absurd (hchain.mp hi) Bool.false_ne_true
  have hnext : s.next i = s.head := by
    have hknows := h.knows t
    rw [hpc] at hknows
    exact hknows
  have hleads : Leads LifoPtr.item s.next .ghost (s.next i) l := by
    rw [hnext]
    exact h.chain
  refine h.change t (.pushFree i) i (.inl hheld) (.inl rfl) (fun _ => rfl)
    (fun _ _ => rfl) (fun _ _ => rfl) (fun j hj => ?_) (fun j hj => lastEvent_cons_of_ne _ hj.symm)
    ⟨rfl, hleads⟩ (List.nodup_cons.mpr ⟨hnot, h.nodup⟩) (fun hself hwho => ?_) (.inl rfl) trivial
    (pushedBetweenPops_pushed h.between t i)
  · rw [List.mem_cons]
    exact or_iff_right hj
  · refine .held t howner (fun t' => ?_) hfree ?_ fun _ => ⟨t, lastEvent_cons _ rfl⟩
    · exact (hwho t').trans (and_iff_right rfl)
    · rw [hself]
      exact iff_of_true List.mem_cons_self rfl

/-- **The item is free**: it has been pushed, or the thread gives it up. -/
lemma Inv.release (h : s.Inv log l) (pc : LifoPc ι) (hheld : (s.pc t).held = some i)
    (hlinked : (s.pc t).linked = true) (hnone : pc.held = none) (hknows : pc.Knows s.next) :
    ((s.cmpsetFree i 1 0).2.setPc t pc).Inv log l := by
  obtain ⟨howner, -, hfree, hchain, hlast⟩ := (h.item i).of_held hheld
  have hi : i ∈ l := hchain.mpr hlinked
  have hcmp : (s.cmpsetFree i 1 0).2 = { s with free := Function.update s.free i 0 } := by
    unfold cmpsetFree
    rw [if_pos hfree]
  rw [hcmp]
  refine h.change t pc i (.inl hheld) (.inr hnone) (fun _ => rfl)
    (fun _ _ => rfl) (fun j hj => Function.update_of_ne hj _ _) (fun _ _ => Iff.rfl)
    (fun _ _ => rfl) h.chain h.nodup (fun _ hwho => ?_) (.inl rfl) hknows h.between
  refine .free howner (fun t' ht' => ?_) (Function.update_self _ _ _) hi (hlast (.inl hi))
  have hsome := ((hwho t').mp ht').1
  rw [hnone] at hsome
  cases hsome

/-- **The thread claims the item**: it is free, on the chain, and no other thread has it. -/
lemma Inv.claim (h : s.Inv log l) (hnone : (s.pc t).held = none) (hfree : s.free i = 0) :
    ({ s with free := Function.update s.free i 1 }.setPc t (.popNext i)).Inv log l := by
  obtain ⟨howner, hno, hi, hlast⟩ := (h.item i).of_free hfree
  refine h.change t (.popNext i) i (.inr ⟨hnone, hno⟩) (.inl rfl) (fun _ => rfl)
    (fun _ _ => rfl) (fun j hj => Function.update_of_ne hj _ _) (fun _ _ => Iff.rfl)
    (fun _ _ => rfl) h.chain h.nodup (fun hself hwho => ?_) (.inl rfl) trivial h.between
  refine .held t howner (fun t' => ?_) (Function.update_self _ _ _) ?_ fun _ => hlast
  · exact (hwho t').trans (and_iff_right rfl)
  · rw [hself]
    exact iff_of_true hi rfl

/-- **The head is swapped**: the item that the thread has claimed is off the chain. The next pointer
that it has read is still there, because nobody else writes it. -/
lemma Inv.popCas {q : LifoPtr ι} (h : s.Inv log l) (hpc : s.pc t = .popCas i q)
    (hhead : s.head = .item i) :
    ∃ l', ({ s with head := q }.setPc t (.popClear i)).Inv log l' := by
  have hheld : (s.pc t).held = some i := by
    rw [hpc]
    rfl
  obtain ⟨howner, -, hfree, hchain, hlast⟩ := (h.item i).of_held hheld
  have hnext : s.next i = q := by
    have hknows := h.knows t
    rw [hpc] at hknows
    exact hknows
  have hleads : Leads LifoPtr.item s.next .ghost (.item i) l := by
    rw [← hhead]
    exact h.chain
  obtain ⟨l', rfl, hrest⟩ := hleads.of_node (fun _ _ => LifoPtr.item.inj)
    (fun hp => by cases hp)
  rw [hnext] at hrest
  obtain ⟨hnot, hnodup⟩ := List.nodup_cons.mp h.nodup
  refine ⟨l', h.change t (.popClear i) i (.inl hheld) (.inl rfl) (fun _ => rfl)
    (fun _ _ => rfl) (fun _ _ => rfl) (fun j hj => ?_) (fun _ _ => rfl) hrest hnodup
    (fun hself hwho => ?_) (.inl rfl) trivial h.between⟩
  · rw [List.mem_cons]
    exact (or_iff_right hj).symm
  · refine .held t howner (fun t' => ?_) hfree ?_ fun _ => hlast (.inl List.mem_cons_self)
    · exact (hwho t').trans (and_iff_right rfl)
    · rw [hself]
      exact iff_of_false hnot Bool.false_ne_true

/-- **The item is returned**, and the thread owns it. -/
lemma Inv.popClear (h : s.Inv log l) (hpc : s.pc t = .popClear i) :
    ({ s with
      next := Function.update s.next i .null
      owner := Function.update s.owner i (some t) }.setPc t .idle).Inv (.popped t i :: log) l := by
  have hheld : (s.pc t).held = some i := by
    rw [hpc]
    rfl
  obtain ⟨howner, -, hfree, hchain, hlast⟩ := (h.item i).of_held hheld
  have hnot : i ∉ l := fun hi => by
    rw [hpc] at hchain
    exact absurd (hchain.mp hi) Bool.false_ne_true
  have hpushed : ∃ t', lastEvent i log = some (.pushed t' i) := by
    refine hlast (.inr ?_)
    rw [hpc]
    rfl
  refine h.change t .idle i (.inl hheld) (.inr rfl) (fun _ => rfl)
    (fun j hj => Function.update_of_ne hj _ _) (fun _ _ => rfl) (fun _ _ => Iff.rfl)
    (fun j hj => lastEvent_cons_of_ne _ hj.symm) (h.chain.update hnot .null) h.nodup
    (fun _ hwho => ?_) (.inr ⟨.null, rfl⟩) trivial (pushedBetweenPops_popped h.between hpushed t)
  refine .outside t (Function.update_self _ _ _) (fun t' ht' => ?_) hfree hnot
    (.inr (lastEvent_cons _ rfl))
  have hsome := ((hwho t').mp ht').1
  cases hsome

omit [DecidableEq τ] in
/-- A pointer of the chain is not null. -/
lemma Inv.head_ne_null (h : s.Inv log l) : s.head ≠ .null := by
  intro hnull
  have hchain := h.chain
  rw [hnull] at hchain
  cases l with
  | nil => cases hchain
  | cons i l => cases hchain.1

/-- **A step of a call** never uses a null pointer, and keeps the invariant. -/
lemma Inv.stepThread (h : s.Inv log l) (hpc : s.pc t ≠ .idle) :
    ∃ s' e, s.stepThread t = some (s', e) ∧ ∃ l', s'.Inv (e.toList ++ log) l' := by
  have hread : ∀ pc : LifoPc ι, pc.held = (s.pc t).held → pc.linked = (s.pc t).linked →
      pc.taken = (s.pc t).taken → pc.Knows s.next →
      ∃ l', (s.setPc t pc).Inv log l' := fun _ hheld hlinked htaken hknows =>
    ⟨l, h.setPc hheld hlinked htaken hknows⟩
  unfold Lifo.stepThread
  cases hat : s.pc t with
  | idle => exact absurd hat hpc
  | pushRead i =>
      refine ⟨_, _, rfl, hread _ ?_ ?_ ?_ trivial⟩ <;> rw [hat] <;> rfl
  | pushWrite i q => exact ⟨_, _, rfl, l, h.pushWrite hat⟩
  | pushNext i =>
      refine ⟨_, _, rfl, hread _ ?_ ?_ ?_ rfl⟩ <;> rw [hat] <;> rfl
  | pushCas i q =>
      dsimp only
      by_cases hhead : s.head = q
      · subst hhead
        rw [if_pos rfl]
        exact ⟨_, _, rfl, _, h.pushCas hat⟩
      · rw [if_neg hhead]
        refine ⟨_, _, rfl, hread _ ?_ ?_ ?_ trivial⟩ <;> rw [hat] <;> rfl
  | pushFree i =>
      refine ⟨_, _, rfl, l, h.release (.pushReturn i) ?_ ?_ rfl trivial⟩ <;> rw [hat] <;> rfl
  | pushReturn i =>
      refine ⟨_, _, rfl, hread _ ?_ ?_ ?_ trivial⟩ <;> rw [hat] <;> rfl
  | popRead =>
      dsimp only
      cases hhead : s.head with
      | null => exact absurd hhead h.head_ne_null
      | ghost => refine ⟨_, _, rfl, hread _ ?_ ?_ ?_ trivial⟩ <;> rw [hat] <;> rfl
      | item i => refine ⟨_, _, rfl, hread _ ?_ ?_ ?_ trivial⟩ <;> rw [hat] <;> rfl
  | popClaim i =>
      dsimp only [cmpsetFree]
      by_cases hfree : s.free i = 0
      · rw [if_pos hfree]
        refine ⟨_, _, rfl, l, h.claim ?_ hfree⟩
        rw [hat]
        rfl
      · rw [if_neg hfree]
        refine ⟨_, _, rfl, hread _ ?_ ?_ ?_ trivial⟩ <;> rw [hat] <;> rfl
  | popNext i =>
      refine ⟨_, _, rfl, hread _ ?_ ?_ ?_ rfl⟩ <;> rw [hat] <;> rfl
  | popCas i q =>
      dsimp only
      by_cases hhead : s.head = .item i
      · rw [if_pos hhead]
        exact ⟨_, _, rfl, h.popCas hat hhead⟩
      · rw [if_neg hhead]
        refine ⟨_, _, rfl, hread _ ?_ ?_ ?_ trivial⟩ <;> rw [hat] <;> rfl
  | popRelease i =>
      refine ⟨_, _, rfl, l, h.release .popRead ?_ ?_ rfl trivial⟩ <;> rw [hat] <;> rfl
  | popClear i => exact ⟨_, _, rfl, l, h.popClear hat⟩

/-- **One step** of any thread keeps the invariant. -/
lemma Inv.step {a : LifoAction τ ι} {e : Option (LifoEvent τ ι)} (h : s.Inv log l)
    (hstep : s.step a = some (s', e)) : ∃ l', s'.Inv (e.toList ++ log) l' := by
  cases a with
  | push t i =>
      dsimp only [Lifo.step] at hstep
      cases hpc : s.pc t with
      | idle =>
          rw [hpc] at hstep
          by_cases howner : s.owner i = some t
          · rw [if_pos howner] at hstep
            obtain ⟨rfl, rfl⟩ := Prod.mk.inj (Option.some.inj hstep)
            exact ⟨l, h.callPush hpc howner⟩
          · rw [if_neg howner] at hstep
            cases hstep
      | _ =>
          rw [hpc] at hstep
          cases hstep
  | pop t =>
      dsimp only [Lifo.step] at hstep
      cases hpc : s.pc t with
      | idle =>
          rw [hpc] at hstep
          obtain ⟨rfl, rfl⟩ := Prod.mk.inj (Option.some.inj hstep)
          refine ⟨l, h.setPc ?_ ?_ ?_ trivial⟩ <;> rw [hpc] <;> rfl
      | _ =>
          rw [hpc] at hstep
          cases hstep
  | run t =>
      have hpc : s.pc t ≠ .idle := by
        intro hpc
        dsimp only [Lifo.step, Lifo.stepThread] at hstep
        rw [hpc] at hstep
        cases hstep
      obtain ⟨s'', e', hrun, hinv⟩ := h.stepThread hpc
      obtain ⟨rfl, rfl⟩ := Prod.mk.inj (Option.some.inj (hrun.symm.trans hstep))
      exact hinv

end Lifo

/-- **The invariant holds in every state** that a run reaches. -/
lemma LifoRun.inv {τ ι : Type*} [DecidableEq τ] [DecidableEq ι] {s₀ s : Lifo τ ι}
    {log : List (LifoEvent τ ι)} (hrun : LifoRun s₀ log s) (h₀ : s₀.IsInitial) :
    ∃ l, s.Inv log l := by
  induction hrun with
  | start => exact ⟨[], h₀.inv⟩
  | step a _ hstep ih =>
      obtain ⟨l, hinv⟩ := ih
      exact hinv.step hstep

/-- **The stack is safe**, for every interleaving of the steps of any number of threads. The chain
from the head leads through distinct items to the ghost. No item is returned twice without a push in
between. No item is lost: one that has been pushed is on the chain, or exactly one thread has it in
the middle of an operation, or it belongs to the thread that returned it last. -/
theorem atomic_lifo_safe {τ ι : Type*} [DecidableEq τ] [DecidableEq ι] {s₀ s : Lifo τ ι}
    {log : List (LifoEvent τ ι)} (h₀ : s₀.IsInitial) (hrun : LifoRun s₀ log s) :
    (∃ l : List ι, Leads LifoPtr.item s.next .ghost s.head l ∧ l.Nodup ∧
      ∀ i, (∃ t, .pushed t i ∈ log) →
        (i ∈ l ∧ s.owner i = none) ∨
        (i ∉ l ∧ s.owner i = none ∧ ∃! t, (s.pc t).held = some i) ∨
        (i ∉ l ∧ (∀ t, (s.pc t).held ≠ some i) ∧
          ∃ t, s.owner i = some t ∧ lastEvent i log = some (.popped t i))) ∧
      PushedBetweenPops log := by
  obtain ⟨l, h⟩ := hrun.inv h₀
  refine ⟨⟨l, h.chain, h.nodup, ?_⟩, h.between⟩
  rintro i ⟨t₀, hpushed⟩
  cases h.item i with
  | outside t owner held free chain last =>
      refine .inr (.inr ⟨chain, held, t, owner, last.resolve_left fun hnone => ?_⟩)
      have hnot := List.find?_eq_none.mp hnone _ hpushed
      exact hnot (decide_eq_true rfl)
  | free owner held free chain => exact .inl ⟨chain, owner⟩
  | held t owner held =>
      by_cases hi : i ∈ l
      · exact .inl ⟨hi, owner⟩
      · exact .inr (.inl ⟨hi, owner, t, (held t).mpr rfl, fun t' ht' => (held t').mp ht'⟩)

/-- Two threads, and an item for each. -/
def twoThreads : Lifo Bool Bool where
  head := .ghost
  next := fun _ => .null
  free := fun _ => 1
  pc := fun _ => .idle
  owner := fun i => some i

/-- While one thread pushes its item, the other one finds it on the chain, cannot claim it yet, tries
again, and then gets it. -/
theorem atomic_lifo_safe_push_pop : ∃ s : Lifo Bool Bool,
    LifoRun twoThreads [.popped true false, .pushed false false] s ∧
    s.owner false = some true ∧
    (∃ l : List Bool, Leads LifoPtr.item s.next .ghost s.head l ∧ l.Nodup) ∧
    PushedBetweenPops [LifoEvent.popped true false, .pushed false false] := by
  have h₀ : twoThreads.IsInitial := ⟨rfl, fun _ => rfl, fun _ => rfl, fun i => ⟨i, rfl⟩⟩
  have hstart : LifoRun twoThreads [] twoThreads := .start
  have hpush := hstart
    |>.step (.push false false) rfl |>.step (.run false) rfl |>.step (.run false) rfl
    |>.step (.run false) rfl |>.step (.run false) rfl
  have hclaim := hpush
    |>.step (.pop true) rfl |>.step (.run true) rfl |>.step (.run true) rfl
    |>.step (.run false) rfl |>.step (.run true) rfl |>.step (.run true) rfl
  have hrun := hclaim |>.step (.run true) rfl |>.step (.run true) rfl |>.step (.run true) rfl
  obtain ⟨⟨l, hl, hnodup, -⟩, hbetween⟩ := atomic_lifo_safe h₀ hrun
  exact ⟨_, hrun, rfl, ⟨l, hl, hnodup⟩, hbetween⟩

end Ocoms
