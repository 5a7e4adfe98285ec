import Ocoms.Lib.Linearizable
import Ocoms.Util.AtomicLifo

/-!
The lock-free stack is a stack: each push and each pop takes effect at one moment.

* `StackOp.apply` is what the operations do on a list of items when no other thread runs.
* `LifoHistory` are the runs of `Lifo.step` again, with the calls, effects and returns that they show.
* `Lifo.Turn` is what a step does to the chain, and `Lifo.Inv.turn` says that every step does one of
  these things. `atomic_lifo_linearizes` is the theorem about all interleavings. What a push returns
  is right as long as its item is on the chain.
-/

namespace Ocoms

open Interleaving

/-! ### Stacks -/

/-- The operations on a stack. -/
inductive StackOp (ι : Type*)
  | push (i : ι)
  | pop

/-- What an operation does and returns when no other thread runs. The first item of the list is the
head. -/
def StackOp.apply {ι : Type*} : StackOp ι → List ι → List ι × Option ι
  | .push i, l => (i :: l, none)
  | .pop, [] => ([], none)
  | .pop, i :: l => (l, some i)

/-- What a thread has done of its call. -/
def LifoPc.phase {ι : Type*} : LifoPc ι → CallPhase (StackOp ι) (Option ι)
  | .idle => .idle
  | .pushRead i | .pushWrite i _ | .pushNext i | .pushCas i _ => .pending (.push i)
  | .pushFree i | .pushReturn i => .done (.push i) none
  | .popRead | .popClaim _ | .popNext _ | .popCas _ _ | .popRelease _ => .pending .pop
  | .popClear i => .done .pop (some i)

/-- The thread that takes the step. -/
def LifoAction.thread {τ ι : Type*} : LifoAction τ ι → τ
  | .push t _ | .pop t | .run t => t

namespace Lifo

variable {τ ι : Type*} [DecidableEq ι]

/-- What a step of a call shows: a push takes effect when the head is swapped, and so does a pop that
returns an item; one that returns `NULL` does when it reads the head. -/
def runEvents (s : Lifo τ ι) (t : τ) : List (CallEvent (StackOp ι) (Option ι)) :=
  match s.pc t with
  | .pushCas i next => if s.head = next then [.effect (.push i) none] else []
  | .pushReturn i => [.ret (.push i) none]
  | .popRead => if s.head = .ghost then [.effect .pop none, .ret .pop none] else []
  | .popCas i _ => if s.head = .item i then [.effect .pop (some i)] else []
  | .popClear i => [.ret .pop (some i)]
  | _ => []

/-- What a step shows. -/
def callEvents (s : Lifo τ ι) : LifoAction τ ι → List (CallEvent (StackOp ι) (Option ι))
  | .push _ i => [.call (.push i)]
  | .pop _ => [.call .pop]
  | .run t => s.runEvents t

end Lifo

/-- The runs, with what they show. -/
inductive LifoHistory {τ ι : Type*} [DecidableEq τ] [DecidableEq ι] (s₀ : Lifo τ ι) :
    List (τ × CallEvent (StackOp ι) (Option ι)) → Lifo τ ι → Prop
  | start : LifoHistory s₀ [] s₀
  | step {hist : List (τ × CallEvent (StackOp ι) (Option ι))} {s s' : Lifo τ ι}
      {e : Option (LifoEvent τ ι)} (a : LifoAction τ ι) : LifoHistory s₀ hist s →
      s.step a = some (s', e) →
      LifoHistory s₀ (hist ++ (s.callEvents a).map (Prod.mk a.thread)) s'

/-! ### The chain -/

section Chains

variable {π ι : Type*} {node next : ι → π} {stop p : π} {l l' : List ι} {i : ι}

/-- There is one chain from a pointer. -/
lemma Leads.unique (hnode : Function.Injective node) (hstop : ∀ i, node i ≠ stop)
    (h : Leads node next stop p l) (h' : Leads node next stop p l') : l = l' := by
  induction l generalizing p l' with
  | nil =>
      cases l' with
      | nil => rfl
      | cons j l' => exact absurd (h'.1.symm.trans h) (hstop j)
  | cons i l ih =>
      cases l' with
      | nil => exact absurd (h.1.symm.trans h') (hstop i)
      | cons j l' =>
          obtain rfl := hnode (h.1.symm.trans h'.1)
          rw [ih h.2 h'.2]

/-- The next pointer of a node leads on behind it. -/
lemma Leads.of_mem (h : Leads node next stop p l) (hi : i ∈ l) :
    ∃ above below, l = above ++ i :: below ∧ Leads node next stop (next i) below := by
  induction l generalizing p with
  | nil => exact absurd hi List.not_mem_nil
  | cons j l ih =>
      rcases List.mem_cons.mp hi with rfl | hi
      · exact ⟨[], l, rfl, h.2⟩
      · obtain ⟨above, below, rfl, hnext⟩ := ih h.2 hi
        exact ⟨j :: above, below, rfl, hnext⟩

end Chains

namespace Lifo

variable {τ ι : Type*} [DecidableEq τ] [DecidableEq ι] {s s' : Lifo τ ι}
  {log log' : List (LifoEvent τ ι)} {l l' : List ι} {t : τ} {i : ι}

omit [DecidableEq τ] in
/-- The chain of a state. -/
lemma Inv.chain_unique (h : s.Inv log l) (hl : Leads LifoPtr.item s.next .ghost s.head l') :
    l' = l :=
  hl.unique (fun _ _ => LifoPtr.item.inj) (fun _ hp => by cases hp) h.chain

omit [DecidableEq τ] in
/-- An item that a thread has to itself off the chain. -/
lemma Inv.notMem_of_held (h : s.Inv log l) (hheld : (s.pc t).held = some i)
    (hlinked : (s.pc t).linked = false) : i ∉ l := by
  obtain ⟨-, -, -, hchain, -⟩ := (h.item i).of_held hheld
  rw [hchain, hlinked]
  exact Bool.false_ne_true

omit [DecidableEq τ] in
@[simp]
lemma cmpsetFree_pc (s : Lifo τ ι) (i : ι) (old new : ℤ) : (s.cmpsetFree i old new).2.pc = s.pc := by
  unfold cmpsetFree
  split_ifs <;> rfl

omit [DecidableEq τ] in
@[simp]
lemma cmpsetFree_head (s : Lifo τ ι) (i : ι) (old new : ℤ) :
    (s.cmpsetFree i old new).2.head = s.head := by
  unfold cmpsetFree
  split_ifs <;> rfl

omit [DecidableEq τ] in
@[simp]
lemma cmpsetFree_next (s : Lifo τ ι) (i : ι) (old new : ℤ) :
    (s.cmpsetFree i old new).2.next = s.next := by
  unfold cmpsetFree
  split_ifs <;> rfl

/-- **What a step of a call does to the chain**: a push puts its item in front when it swaps the head,
a pop takes the first item, and every other step leaves the chain as it is. -/
inductive Turn : List ι → LifoPc ι → List (CallEvent (StackOp ι) (Option ι)) → List ι → LifoPc ι → Prop
  | internal (l : List ι) {p p' : LifoPc ι} : p'.phase = p.phase → Turn l p [] l p'
  | push (l : List ι) (i : ι) (q : LifoPtr ι) :
      Turn l (.pushCas i q) [.effect (.push i) none] (i :: l) (.pushFree i)
  | pushed (l : List ι) (i : ι) : Turn l (.pushReturn i) [.ret (.push i) none] l .idle
  | empty : Turn [] .popRead [.effect .pop none, .ret .pop none] [] .idle
  | pop (l : List ι) (i : ι) (q : LifoPtr ι) :
      Turn (i :: l) (.popCas i q) [.effect .pop (some i)] l (.popClear i)
  | popped (l : List ι) (i : ι) : Turn l (.popClear i) [.ret .pop (some i)] l .idle

/-- A step that at most writes `item_free`. -/
lemma Inv.turn_cmpsetFree {p pc : LifoPc ι} {old new : ℤ} (h : s.Inv log l)
    (hs' : s' = (s.cmpsetFree i old new).2.setPc t pc) (hinv : s'.Inv log' l')
    (hphase : pc.phase = p.phase) :
    ∃ pc, s'.pc = Function.update s.pc t pc ∧ Turn l p [] l' pc := by
  subst hs'
  have hchain : Leads LifoPtr.item s.next .ghost s.head l' := by
    simpa [Lifo.setPc] using hinv.chain
  obtain rfl := h.chain_unique hchain
  exact ⟨pc, by rw [Lifo.setPc, cmpsetFree_pc], .internal l' hphase⟩

/-- **Every step** of a call is one of these. -/
lemma Inv.turn {e : Option (LifoEvent τ ι)} (h : s.Inv log l) (hstep : s.stepThread t = some (s', e))
    (hinv : s'.Inv log' l') :
    ∃ pc, s'.pc = Function.update s.pc t pc ∧ Turn l (s.pc t) (s.runEvents t) l' pc := by
  unfold Lifo.stepThread at hstep
  unfold runEvents
  cases hat : s.pc t with
  | idle =>
      rw [hat] at hstep
      cases hstep
  | pushRead i =>
      rw [hat] at hstep
      obtain ⟨rfl, -⟩ := Prod.mk.inj (Option.some.inj hstep)
      obtain rfl := h.chain_unique hinv.chain
      exact ⟨_, rfl, .internal _ rfl⟩
  | pushWrite i q =>
      rw [hat] at hstep
      obtain ⟨rfl, -⟩ := Prod.mk.inj (Option.some.inj hstep)
      have hnot : i ∉ l := h.notMem_of_held (t := t) (by rw [hat]; rfl) (by rw [hat]; rfl)
      obtain rfl := hinv.chain_unique (h.chain.update hnot q)
      exact ⟨_, rfl, .internal _ rfl⟩
  | pushNext i =>
      rw [hat] at hstep
      obtain ⟨rfl, -⟩ := Prod.mk.inj (Option.some.inj hstep)
      obtain rfl := h.chain_unique hinv.chain
      exact ⟨_, rfl, .internal _ rfl⟩
  | pushCas i q =>
      rw [hat] at hstep
      dsimp only at hstep ⊢
      by_cases hhead : s.head = q
      · rw [if_pos hhead] at hstep ⊢
        obtain ⟨rfl, -⟩ := Prod.mk.inj (Option.some.inj hstep)
        -- the next pointer of the item is still the head
        have hnext : s.next i = s.head := by
          have hknows := h.knows t
          rw [hat] at hknows
          exact hknows.trans hhead.symm
        have hcons : Leads LifoPtr.item s.next .ghost (.item i) (i :: l) := by
          refine ⟨rfl, ?_⟩
          rw [hnext]
          exact h.chain
        obtain rfl := hinv.chain_unique hcons
        exact ⟨_, rfl, .push l i q⟩
      · rw [if_neg hhead] at hstep ⊢
        obtain ⟨rfl, -⟩ := Prod.mk.inj (Option.some.inj hstep)
        obtain rfl := h.chain_unique hinv.chain
        exact ⟨_, rfl, .internal _ rfl⟩
  | pushFree i =>
      rw [hat] at hstep
      exact h.turn_cmpsetFree (Prod.mk.inj (Option.some.inj hstep)).1.symm hinv rfl
  | pushReturn i =>
      rw [hat] at hstep
      obtain ⟨rfl, -⟩ := Prod.mk.inj (Option.some.inj hstep)
      obtain rfl := h.chain_unique hinv.chain
      exact ⟨_, rfl, .pushed _ i⟩
  | popRead =>
      rw [hat] at hstep
      dsimp only at hstep ⊢
      cases hhead : s.head with
      | null => exact absurd hhead h.head_ne_null
      | ghost =>
          rw [hhead] at hstep
          obtain ⟨rfl, -⟩ := Prod.mk.inj (Option.some.inj hstep)
          obtain rfl := h.chain_unique hinv.chain
          -- nothing is on the chain
          have hchain : Leads LifoPtr.item s.next .ghost s.head [] := hhead
          obtain rfl := h.chain_unique hchain
          exact ⟨_, rfl, .empty⟩
      | item i =>
          rw [hhead] at hstep
          obtain ⟨rfl, -⟩ := Prod.mk.inj (Option.some.inj hstep)
          obtain rfl := h.chain_unique hinv.chain
          rw [if_neg (fun hp => by cases hp)]
          exact ⟨_, rfl, .internal _ rfl⟩
  | popClaim i =>
      rw [hat] at hstep
      have hs' : s' = (s.cmpsetFree i 0 1).2.setPc t
          (if (s.cmpsetFree i 0 1).1 = true then .popNext i else .popRead) :=
        (Prod.mk.inj (Option.some.inj hstep)).1.symm
      refine h.turn_cmpsetFree hs' hinv ?_
      split_ifs <;> rfl
  | popNext i =>
      rw [hat] at hstep
      obtain ⟨rfl, -⟩ := Prod.mk.inj (Option.some.inj hstep)
      obtain rfl := h.chain_unique hinv.chain
      exact ⟨_, rfl, .internal _ rfl⟩
  | popCas i q =>
      rw [hat] at hstep
      dsimp only at hstep ⊢
      by_cases hhead : s.head = .item i
      · rw [if_pos hhead] at hstep ⊢
        obtain ⟨rfl, -⟩ := Prod.mk.inj (Option.some.inj hstep)
        have hnext : s.next i = q := by
          have hknows := h.knows t
          rw [hat] at hknows
          exact hknows
        have hcons : Leads LifoPtr.item s.next .ghost s.head (i :: l') := by
          rw [hhead]
          refine ⟨rfl, ?_⟩
          rw [hnext]
          exact hinv.chain
        obtain rfl := h.chain_unique hcons
        exact ⟨_, rfl, .pop l' i q⟩
      · rw [if_neg hhead] at hstep ⊢
        obtain ⟨rfl, -⟩ := Prod.mk.inj (Option.some.inj hstep)
        obtain rfl := h.chain_unique hinv.chain
        exact ⟨_, rfl, .internal _ rfl⟩
  | popRelease i =>
      rw [hat] at hstep
      exact h.turn_cmpsetFree (Prod.mk.inj (Option.some.inj hstep)).1.symm hinv rfl
  | popClear i =>
      rw [hat] at hstep
      obtain ⟨rfl, -⟩ := Prod.mk.inj (Option.some.inj hstep)
      have hnot : i ∉ l := h.notMem_of_held (t := t) (by rw [hat]; rfl) (by rw [hat]; rfl)
      obtain rfl := hinv.chain_unique (h.chain.update hnot .null)
      exact ⟨_, rfl, .popped _ i⟩

/-- A call leaves the chain as it is. -/
lemma Inv.call {a : LifoAction τ ι} {e : Option (LifoEvent τ ι)} (h : s.Inv log l)
    (hstep : s.step a = some (s', e)) (hinv : s'.Inv log' l') (ha : ∀ t, a ≠ .run t) :
    l' = l ∧ s.pc a.thread = .idle ∧ ∃ o pc, s'.pc = Function.update s.pc a.thread pc ∧
      pc.phase = .pending o ∧ s.callEvents a = [.call o] ∧
        ((∃ i, a = .push a.thread i ∧ o = .push i) ∨ a = .pop a.thread ∧ o = .pop) := by
  cases a with
  | run t => exact absurd rfl (ha t)
  | push t i =>
      dsimp only [Lifo.step] at hstep
      cases hat : s.pc t with
      | idle =>
          rw [hat] at hstep
          by_cases howner : s.owner i = some t
          · rw [if_pos howner] at hstep
            obtain ⟨rfl, -⟩ := Prod.mk.inj (Option.some.inj hstep)
            obtain rfl := h.chain_unique hinv.chain
            exact ⟨rfl, hat, .push i, .pushRead i, rfl, rfl, rfl, .inl ⟨i, rfl, rfl⟩⟩
          · rw [if_neg howner] at hstep
            cases hstep
      | _ =>
          rw [hat] at hstep
          cases hstep
  | pop t =>
      dsimp only [Lifo.step] at hstep
      cases hat : s.pc t with
      | idle =>
          rw [hat] at hstep
          obtain ⟨rfl, -⟩ := Prod.mk.inj (Option.some.inj hstep)
          obtain rfl := h.chain_unique hinv.chain
          exact ⟨rfl, hat, .pop, .popRead, rfl, rfl, rfl, .inr ⟨rfl, rfl⟩⟩
      | _ =>
          rw [hat] at hstep
          cases hstep

omit [DecidableEq ι] in
/-- The phases of the threads behind a step. -/
lemma phase_update {pc : LifoPc ι} (hpc : s'.pc = Function.update s.pc t pc) :
    (fun u => (s'.pc u).phase) = Function.update (fun u => (s.pc u).phase) t pc.phase := by
  rw [hpc]
  exact funext fun u => Function.apply_update (fun _ => LifoPc.phase) s.pc t pc u

/-- **Every step** is one of the stack's. -/
lemma Inv.linearizes_step {hist : List (τ × CallEvent (StackOp ι) (Option ι))} {a : LifoAction τ ι}
    {e : Option (LifoEvent τ ι)} (h : s.Inv log l) (hstep : s.step a = some (s', e))
    (hinv : s'.Inv log' l') (hlin : Linearizes StackOp.apply [] hist l fun u => (s.pc u).phase) :
    Linearizes StackOp.apply [] (hist ++ (s.callEvents a).map (Prod.mk a.thread)) l'
      fun u => (s'.pc u).phase := by
  by_cases ha : ∃ t, a = .run t
  · obtain ⟨t, rfl⟩ := ha
    obtain ⟨pc, hpc, hturn⟩ := h.turn hstep hinv
    rw [phase_update hpc]
    generalize hat : s.pc t = p at hturn
    have hphase : (s.pc t).phase = p.phase := congrArg LifoPc.phase hat
    rw [callEvents, LifoAction.thread]
    generalize s.runEvents t = es at hturn
    cases hturn with
    | empty => exact hlin.effect_ret hphase
    | internal l hsame =>
        refine hlin.next ?_
        rw [hphase, hsame]
        exact .internal _
    | push l i q =>
        refine hlin.next ?_
        rw [hphase]
        exact .effect (StackOp.push i)
    | pushed l i =>
        refine hlin.next ?_
        rw [hphase]
        exact .ret _ _
    | pop l i q =>
        refine hlin.next ?_
        rw [hphase]
        exact .effect StackOp.pop
    | popped l i =>
        refine hlin.next ?_
        rw [hphase]
        exact .ret _ _
  · obtain ⟨rfl, hat, o, pc, hpc, hphase, hevents, -⟩ := h.call hstep hinv fun t ht => ha ⟨t, ht⟩
    rw [phase_update hpc, hevents]
    refine hlin.next ?_
    rw [hat, hphase]
    exact .call o

end Lifo

/-- **The stack is one of atomic operations.** Under every interleaving of any number of threads that
push and pop, with the items in any owners' hands at first, each push and each pop takes effect at one
moment between its call and its return: a push puts its item in front, a pop takes the first item and
returns it, or returns `NULL` where there is none. The pointer that a push is about to return is the
ghost if and only if nothing is below its item, as long as this is on the chain. -/
theorem atomic_lifo_linearizes {τ ι : Type*} [DecidableEq τ] [DecidableEq ι] {s₀ s : Lifo τ ι}
    {hist : List (τ × CallEvent (StackOp ι) (Option ι))} (h₀ : s₀.IsInitial)
    (hrun : LifoHistory s₀ hist s) :
    ∃ l : List ι, Leads LifoPtr.item s.next .ghost s.head l ∧
      Linearizes StackOp.apply [] hist l (fun t => (s.pc t).phase) ∧
      ∀ t i, s.pc t = .pushReturn i → i ∈ l →
        ∃ above below, l = above ++ i :: below ∧ (s.next i = .ghost ↔ below = []) := by
  obtain ⟨l, log, hinv, hlin⟩ : ∃ l log, s.Inv log l ∧
      Linearizes StackOp.apply [] hist l (fun t => (s.pc t).phase) := by
    induction hrun with
    | start =>
        refine ⟨[], [], h₀.inv, .nil, fun t => ?_⟩
        rw [h₀.pc t]
        exact .idle
    | step a _ hstep ih =>
        obtain ⟨l, log, hinv, hlin⟩ := ih
        obtain ⟨l', hinv'⟩ := hinv.step hstep
        exact ⟨l', _, hinv', hinv.linearizes_step hstep hinv' hlin⟩
  refine ⟨l, hinv.chain, hlin, fun t i _ hi => ?_⟩
  obtain ⟨above, below, rfl, hnext⟩ := hinv.chain.of_mem hi
  refine ⟨above, below, rfl, fun hghost => ?_, fun hnil => ?_⟩
  · rw [hghost] at hnext
    cases below with
    | nil => rfl
    | cons j below => cases hnext.1
  · rw [hnil] at hnext
    exact hnext

/-- While one thread pushes its item, the other one finds nothing, tries again, and gets it before the
push returns. -/
theorem atomic_lifo_linearizes_overtaken : ∃ s : Lifo Bool Bool,
    LifoHistory twoThreads [(false, .call (.push false)), (true, .call .pop), (true, .effect .pop none),
      (true, .ret .pop none), (false, .effect (.push false) none), (true, .call .pop),
      (true, .effect .pop (some false)), (true, .ret .pop (some false)),
      (false, .ret (.push false) none)] s ∧
    ∃ l : List Bool, Leads LifoPtr.item s.next .ghost s.head l := by
  have h₀ : twoThreads.IsInitial := ⟨rfl, fun _ => rfl, fun _ => rfl, fun i => ⟨i, rfl⟩⟩
  have hstart : LifoHistory twoThreads [] twoThreads := .start
  have hempty := hstart
    |>.step (.push false false) rfl |>.step (.run false) rfl |>.step (.pop true) rfl
    |>.step (.run true) rfl
  have hpush := hempty
    |>.step (.run false) rfl |>.step (.run false) rfl |>.step (.run false) rfl |>.step (.run false) rfl
  have hpop := hpush
    |>.step (.pop true) rfl |>.step (.run true) rfl |>.step (.run true) rfl |>.step (.run true) rfl
    |>.step (.run true) rfl |>.step (.run true) rfl
  have hrun := hpop |>.step (.run false) rfl
  obtain ⟨l, hl, -⟩ := atomic_lifo_linearizes h₀ hrun
  exact ⟨_, hrun, l, hl⟩

end Ocoms
