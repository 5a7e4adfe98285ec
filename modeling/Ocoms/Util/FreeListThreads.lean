import Mathlib.Data.Finset.Card
import Ocoms.Util.FreeList
import Ocoms.Util.LifoStack

/-!
The free list with several threads: `ocoms_free_list.h` in the build with `OCOMS_ENABLE_MULTI_THREADS`
and POSIX threads, where `ocoms_using_threads()` is true.

* `FlPc.run` is one step of a thread in `OCOMS_FREE_LIST_GET`, `OCOMS_FREE_LIST_WAIT` or
  `OCOMS_FREE_LIST_RETURN`. The stack is the one of `Lifo.step`, so that the steps of its calls are
  interleaved too. `FlChoice` is what the memory manager and the scheduler choose.
* `FlPc.Moves` says what a step can be, for the proofs.
* `free_list_threads` is the theorem about all interleavings; `FlEvent` are the two ways in which a
  thread that waits can be left asleep.
-/

namespace Ocoms

open Interleaving

/-! ### The code -/

/-- Where a thread is. A growth is one of `OCOMS_FREE_LIST_WAIT` or of `OCOMS_FREE_LIST_GET`; it has
the number of items to carve, and how many of them are left. -/
inductive FlPc
  | idle
  /-- The two pops of `OCOMS_FREE_LIST_GET`, and what is in between. -/
  | getPop
  | getLock
  | getUnlock
  | getPopAgain
  | getAgain
  /-- The pop of `__ocoms_free_list_wait`. -/
  | waitPop
  | waitTrylock
  | waitLock
  /-- Compares `fl_max_to_alloc` with `fl_num_allocated`. -/
  | waitCheck
  /-- Increments `fl_num_waiting`, and calls `ocoms_condition_wait`. -/
  | waitSleep
  /-- In `pthread_cond_wait`. -/
  | waitCond
  | waitNotify
  | waitUnlock
  | waitPopAgain
  /-- The push of `OCOMS_FREE_LIST_RETURN`. -/
  | retPush
  | retLock
  | retNotify
  | retUnlock
  /-- In `ocoms_free_list_grow`. -/
  | growStart (wait : Bool)
  | grow (wait : Bool) (numElements left : ℕ)
  | growPush (wait : Bool) (numElements left : ℕ)
  deriving DecidableEq

/-- The two steps that can leave a thread asleep: it goes to sleep although there is an item on the
list, or `OCOMS_FREE_LIST_GET` puts new items on the list while a thread sleeps, and wakes nobody. -/
inductive FlEvent
  | missesItem
  | growsUnseen

/-- What is outside: `malloc` gives memory, the item that is carved next, or the thread that a signal
wakes. -/
inductive FlChoice (τ ι : Type*)
  | go
  | memory
  | item (i : ι)
  | wakes (u : τ)

/-- `ocoms_free_list_t`: the stack, `fl_lock`, the counters, `c_waiting` of `fl_condition` with the
threads that sleep on it, and the items that were made. An item that was not made yet belongs to the
thread that `malloc` will give it to. -/
structure FlShared (τ ι : Type*) where
  lifo : Lifo τ ι
  flLock : Bool
  numAllocated : ℕ
  numWaiting : ℕ
  cWaiting : ℤ
  sleepers : Finset τ
  made : List ι

/-- What the call of a thread returns at its last step. -/
def Lifo.result {τ ι : Type*} (s : Lifo τ ι) (t : τ) : LifoPtr ι :=
  match s.pc t with
  | .pushReturn i => s.next i
  | .popClear i => .item i
  | _ => .null

/-- Where a thread goes on behind a call that has returned `r`. -/
def FlPc.after {ι : Type*} (r : LifoPtr ι) : FlPc → FlPc
  | .getPop => match r with
    | .null => .getLock
    | _ => .idle
  | .getAgain => .idle
  | .waitPop => match r with
    | .null => .waitTrylock
    | _ => .idle
  | .retPush => match r with
    | .ghost => .retLock
    | _ => .idle
  | .growPush wait numElements left => .grow wait numElements left
  | pc => pc

section Code

variable {τ ι : Type*} [DecidableEq τ] [DecidableEq ι]

/-- A thread calls a function of the stack. -/
def FlShared.callLifo (g : FlShared τ ι) (a : LifoAction τ ι) (pc : FlPc) :
    Option (List FlEvent × FlShared τ ι × FlPc) :=
  (g.lifo.step a).map fun r => ([], { g with lifo := r.1 }, pc)

/-- A thread goes on with its call. -/
def FlShared.runLifo (g : FlShared τ ι) (t : τ) (pc : FlPc) :
    Option (List FlEvent × FlShared τ ι × FlPc) :=
  (g.lifo.step (.run t)).map fun r => ([], { g with lifo := r.1 },
    match r.1.pc t with
    | .idle => pc.after (g.lifo.result t)
    | _ => pc)

/-- `OCOMS_THREAD_LOCK` at `pc`. -/
def FlShared.takeLock (g : FlShared τ ι) (pc pc' : FlPc) : List FlEvent × FlShared τ ι × FlPc :=
  if g.flLock then ([], g, pc) else ([], { g with flLock := true }, pc')

/-- `ocoms_condition_signal`: the threads that sleep afterwards. -/
def FlShared.signal (g : FlShared τ ι) (c : FlChoice τ ι) : Option (Finset τ) :=
  if g.cWaiting = 0 ∨ g.sleepers = ∅ then some g.sleepers
  else match c with
    | .wakes u => if u ∈ g.sleepers then some (g.sleepers.erase u) else none
    | _ => none

/-- The signal or broadcast to the threads that wait: the threads that sleep afterwards. -/
def FlShared.notify (g : FlShared τ ι) (c : FlChoice τ ι) : Option (Finset τ) :=
  if g.numWaiting = 0 then some g.sleepers
  else if g.numWaiting = 1 then g.signal c
  else some ∅

/-- Where a thread goes on behind a growth that has failed. -/
def FlPc.growFailed (wait : Bool) : FlPc := if wait then .waitSleep else .getUnlock

/-- The next step of a thread. -/
def FlPc.run (p : FreeList.Params) (t : τ) (c : FlChoice τ ι) (g : FlShared τ ι) (pc : FlPc) :
    Option (List FlEvent × FlShared τ ι × FlPc) :=
  match pc with
  | .idle => none
  | .getPop | .getAgain | .waitPop | .retPush | .growPush _ _ _ => g.runLifo t pc
  | .getLock => some (g.takeLock pc (.growStart false))
  | .growStart wait =>
      let numElements := p.wanted g.numAllocated p.numPerAlloc
      match c with
      | .memory =>
          if numElements = 0 then some ([], g, .growFailed wait)
          else some (if wait ∨ g.sleepers = ∅ then [] else [.growsUnseen], g,
            .grow wait numElements numElements)
      | _ => some ([], g, .growFailed wait)
  | .grow wait numElements 0 =>
      some ([], { g with numAllocated := g.numAllocated + numElements },
        if wait then .waitNotify else .getUnlock)
  | .grow wait numElements (left + 1) =>
      match c with
      | .item i =>
          if i ∈ g.made then none
          else ({ g with made := i :: g.made } : FlShared τ ι).callLifo (.push t i)
            (.growPush wait numElements left)
      | _ => none
  | .getUnlock => some ([], { g with flLock := false }, .getPopAgain)
  | .getPopAgain => g.callLifo (.pop t) .getAgain
  | .waitTrylock => some (if g.flLock then ([], g, .waitLock)
      else ([], { g with flLock := true }, .waitCheck))
  | .waitLock => some (g.takeLock pc .waitUnlock)
  | .waitCheck =>
      some ([], g, if p.maxToAlloc ≤ g.numAllocated then .waitSleep else .growStart true)
  | .waitSleep =>
      some (if g.lifo.head = .ghost then [] else [.missesItem],
        { g with
          flLock := false
          numWaiting := g.numWaiting + 1
          cWaiting := g.cWaiting + 1
          sleepers := insert t g.sleepers }, .waitCond)
  | .waitCond =>
      some (if t ∈ g.sleepers ∨ g.flLock then ([], g, pc)
        else ([], { g with
          flLock := true
          numWaiting := g.numWaiting - 1
          cWaiting := g.cWaiting - 1 }, .waitUnlock))
  | .waitNotify => (g.notify c).map fun s => ([], { g with sleepers := s }, .waitUnlock)
  | .waitUnlock => some ([], { g with flLock := false }, .waitPopAgain)
  | .waitPopAgain => g.callLifo (.pop t) .waitPop
  | .retLock => some (g.takeLock pc .retNotify)
  | .retNotify => (g.notify c).map fun s => ([], { g with sleepers := s }, .retUnlock)
  | .retUnlock => some ([], { g with flLock := false }, .idle)

/-- A thread uses one of the macros, or goes on with it; one that sleeps may wake up by itself. It
returns an item that it owns. -/
inductive FlStep (p : FreeList.Params) :
    τ → FlShared τ ι → FlPc → List FlEvent → FlShared τ ι → FlPc → Prop
  | get {t : τ} {g g' : FlShared τ ι} {es : List FlEvent} {pc : FlPc} :
      g.callLifo (.pop t) .getPop = some (es, g', pc) → FlStep p t g .idle es g' pc
  | wait {t : τ} {g g' : FlShared τ ι} {es : List FlEvent} {pc : FlPc} :
      g.callLifo (.pop t) .waitPop = some (es, g', pc) → FlStep p t g .idle es g' pc
  | ret {t : τ} {g g' : FlShared τ ι} {es : List FlEvent} {pc : FlPc} (i : ι) : i ∈ g.made →
      g.callLifo (.push t i) .retPush = some (es, g', pc) → FlStep p t g .idle es g' pc
  | run {t : τ} {g g' : FlShared τ ι} {es : List FlEvent} {pc pc' : FlPc} (c : FlChoice τ ι) :
      pc.run p t c g = some (es, g', pc') → FlStep p t g pc es g' pc'
  | spurious {t : τ} {g : FlShared τ ι} : t ∈ g.sleepers →
      FlStep p t g .waitCond [] { g with sleepers := g.sleepers.erase t } .waitCond

/-- The list behind `ocoms_free_list_init_ex` without first items. -/
structure FlShared.IsInitial (g : FlShared τ ι) : Prop where
  lifo : g.lifo.IsInitial
  flLock : g.flLock = false
  numAllocated : g.numAllocated = 0
  numWaiting : g.numWaiting = 0
  cWaiting : g.cWaiting = 0
  sleepers : g.sleepers = ∅
  made : g.made = []

end Code

/-! ### What a step can be -/

/-- The step of a thread at `pc` inside a call of the stack. -/
def FlPc.InCall : FlPc → Prop
  | .getPop | .getAgain | .waitPop | .retPush | .growPush _ _ _ => True
  | _ => False

/-- The thread has `fl_lock`. -/
def FlPc.HoldsLock : FlPc → Prop
  | .growStart _ | .grow _ _ _ | .growPush _ _ _ | .getUnlock | .waitCheck | .waitSleep | .waitNotify
  | .waitUnlock | .retNotify | .retUnlock => True
  | _ => False

section Moves

variable {τ ι : Type*} [DecidableEq τ] [DecidableEq ι]

/-- What a step can be. -/
inductive FlPc.Moves (p : FreeList.Params) (t : τ) (g : FlShared τ ι) :
    FlPc → List FlEvent → FlShared τ ι → FlPc → Prop
  | pop (pc pc' : FlPc) {s : Lifo τ ι} {e : Option (LifoEvent τ ι)} :
      (pc = .idle ∧ (pc' = .getPop ∨ pc' = .waitPop)) ∨ (pc = .getPopAgain ∧ pc' = .getAgain) ∨
        (pc = .waitPopAgain ∧ pc' = .waitPop) →
      g.lifo.step (.pop t) = some (s, e) → Moves p t g pc [] { g with lifo := s } pc'
  | ret (i : ι) {s : Lifo τ ι} {e : Option (LifoEvent τ ι)} : i ∈ g.made →
      g.lifo.step (.push t i) = some (s, e) → Moves p t g .idle [] { g with lifo := s } .retPush
  | carve (wait : Bool) (n left : ℕ) (i : ι) {s : Lifo τ ι} {e : Option (LifoEvent τ ι)} :
      i ∉ g.made → g.lifo.step (.push t i) = some (s, e) →
      Moves p t g (.grow wait n (left + 1)) [] { g with lifo := s, made := i :: g.made }
        (.growPush wait n left)
  | stack (pc : FlPc) {s : Lifo τ ι} {e : Option (LifoEvent τ ι)} : pc.InCall →
      g.lifo.step (.run t) = some (s, e) → s.pc t ≠ .idle →
      Moves p t g pc [] { g with lifo := s } pc
  | stackEnd (pc : FlPc) {s : Lifo τ ι} {e : Option (LifoEvent τ ι)} : pc.InCall →
      g.lifo.step (.run t) = some (s, e) → s.pc t = .idle →
      Moves p t g pc [] { g with lifo := s } (pc.after (g.lifo.result t))
  | stay (pc : FlPc) : Moves p t g pc [] g pc
  | lock (pc pc' : FlPc) :
      (pc = .getLock ∧ pc' = .growStart false) ∨ (pc = .waitTrylock ∧ pc' = .waitCheck) ∨
        (pc = .waitLock ∧ pc' = .waitUnlock) ∨ (pc = .retLock ∧ pc' = .retNotify) →
      g.flLock = false → Moves p t g pc [] { g with flLock := true } pc'
  | unlock (pc pc' : FlPc) :
      (pc = .getUnlock ∧ pc' = .getPopAgain) ∨ (pc = .waitUnlock ∧ pc' = .waitPopAgain) ∨
        (pc = .retUnlock ∧ pc' = .idle) →
      Moves p t g pc [] { g with flLock := false } pc'
  | tryFails : Moves p t g .waitTrylock [] g .waitLock
  | growFails (wait : Bool) : Moves p t g (.growStart wait) [] g (.growFailed wait)
  | growStart (wait : Bool) (n : ℕ) : n = p.wanted g.numAllocated p.numPerAlloc → n ≠ 0 →
      Moves p t g (.growStart wait) (if wait ∨ g.sleepers = ∅ then [] else [.growsUnseen]) g
        (.grow wait n n)
  | growEnd (wait : Bool) (n : ℕ) :
      Moves p t g (.grow wait n 0) [] { g with numAllocated := g.numAllocated + n }
        (if wait then .waitNotify else .getUnlock)
  | full : p.maxToAlloc ≤ g.numAllocated → Moves p t g .waitCheck [] g .waitSleep
  | notFull : Moves p t g .waitCheck [] g (.growStart true)
  | sleep : Moves p t g .waitSleep (if g.lifo.head = .ghost then [] else [.missesItem])
      { g with
        flLock := false
        numWaiting := g.numWaiting + 1
        cWaiting := g.cWaiting + 1
        sleepers := insert t g.sleepers } .waitCond
  | awake : t ∉ g.sleepers → g.flLock = false →
      Moves p t g .waitCond []
        { g with
          flLock := true
          numWaiting := g.numWaiting - 1
          cWaiting := g.cWaiting - 1 } .waitUnlock
  | notify (pc pc' : FlPc) (c : FlChoice τ ι) (sleepers : Finset τ) :
      (pc = .waitNotify ∧ pc' = .waitUnlock) ∨ (pc = .retNotify ∧ pc' = .retUnlock) →
      g.notify c = some sleepers → Moves p t g pc [] { g with sleepers } pc'
  | spurious : t ∈ g.sleepers →
      Moves p t g .waitCond [] { g with sleepers := g.sleepers.erase t } .waitCond

variable {p : FreeList.Params} {t : τ} {g g' : FlShared τ ι} {pc pc' : FlPc} {es : List FlEvent}

/-- A call of the stack. -/
lemma FlShared.callLifo_eq_some {a : LifoAction τ ι}
    (h : g.callLifo a pc = some (es, g', pc')) :
    ∃ s e, g.lifo.step a = some (s, e) ∧ es = [] ∧ g' = { g with lifo := s } ∧ pc' = pc := by
  obtain ⟨⟨s, e⟩, hstep, heq⟩ := Option.map_eq_some_iff.mp h
  cases heq
  exact ⟨s, e, hstep, rfl, rfl, rfl⟩

/-- A step of a call. -/
lemma FlShared.moves_runLifo (hcall : pc.InCall) (h : g.runLifo t pc = some (es, g', pc')) :
    pc.Moves p t g es g' pc' := by
  obtain ⟨⟨s, e⟩, hstep, heq⟩ := Option.map_eq_some_iff.mp h
  cases heq
  by_cases hidle : s.pc t = .idle
  · simp only [hidle]
    exact .stackEnd pc hcall hstep hidle
  · have hsame : (match s.pc t with
        | .idle => pc.after (g.lifo.result t)
        | _ => pc) = pc := by
      split
      · next h => exact absurd h hidle
      · rfl
    rw [hsame]
    exact .stack pc hcall hstep hidle

/-- A step at a lock. -/
lemma FlShared.moves_takeLock {pc'' : FlPc} (hpc : (pc = .getLock ∧ pc' = .growStart false) ∨
      (pc = .waitTrylock ∧ pc' = .waitCheck) ∨ (pc = .waitLock ∧ pc' = .waitUnlock) ∨
      (pc = .retLock ∧ pc' = .retNotify))
    (h : some (g.takeLock pc pc') = some (es, g', pc'')) : pc.Moves p t g es g' pc'' := by
  unfold FlShared.takeLock at h
  split at h
  · cases h
    exact .stay pc
  · next hfree =>
      cases h
      exact .lock pc pc' hpc (Bool.eq_false_of_not_eq_true hfree)

omit [DecidableEq ι] in
/-- A thread keeps the lock that it has during a call. -/
lemma FlPc.holdsLock_after (hcall : pc.InCall) (r : LifoPtr ι) :
    (pc.after r).HoldsLock ↔ pc.HoldsLock := by
  cases pc <;> first
    | exact absurd hcall not_false
    | cases r <;> exact Iff.rfl

/-- **Every step** is one of these. -/
lemma FlStep.moves (h : FlStep p t g pc es g' pc') : pc.Moves p t g es g' pc' := by
  cases h with
  | get h =>
      obtain ⟨s, e, hstep, rfl, rfl, rfl⟩ := FlShared.callLifo_eq_some h
      exact .pop _ _ (.inl ⟨rfl, .inl rfl⟩) hstep
  | wait h =>
      obtain ⟨s, e, hstep, rfl, rfl, rfl⟩ := FlShared.callLifo_eq_some h
      exact .pop _ _ (.inl ⟨rfl, .inr rfl⟩) hstep
  | ret i hi h =>
      obtain ⟨s, e, hstep, rfl, rfl, rfl⟩ := FlShared.callLifo_eq_some h
      exact .ret i hi hstep
  | spurious h => exact .spurious h
  | run c h =>
      cases pc with
      | idle => cases h
      | getPop => exact FlShared.moves_runLifo trivial h
      | getAgain => exact FlShared.moves_runLifo trivial h
      | waitPop => exact FlShared.moves_runLifo trivial h
      | retPush => exact FlShared.moves_runLifo trivial h
      | growPush wait n left => exact FlShared.moves_runLifo trivial h
      | getLock => exact FlShared.moves_takeLock (.inl ⟨rfl, rfl⟩) h
      | waitLock => exact FlShared.moves_takeLock (.inr (.inr (.inl ⟨rfl, rfl⟩))) h
      | retLock => exact FlShared.moves_takeLock (.inr (.inr (.inr ⟨rfl, rfl⟩))) h
      | waitTrylock =>
          dsimp only [FlPc.run] at h
          split at h
          · cases h
            exact .tryFails
          · next hfree =>
              cases h
              exact .lock _ _ (.inr (.inl ⟨rfl, rfl⟩)) (Bool.eq_false_of_not_eq_true hfree)
      | getUnlock =>
          cases h
          exact .unlock _ _ (.inl ⟨rfl, rfl⟩)
      | waitUnlock =>
          cases h
          exact .unlock _ _ (.inr (.inl ⟨rfl, rfl⟩))
      | retUnlock =>
          cases h
          exact .unlock _ _ (.inr (.inr ⟨rfl, rfl⟩))
      | getPopAgain =>
          obtain ⟨s, e, hstep, rfl, rfl, rfl⟩ := FlShared.callLifo_eq_some h
          exact .pop _ _ (.inr (.inl ⟨rfl, rfl⟩)) hstep
      | waitPopAgain =>
          obtain ⟨s, e, hstep, rfl, rfl, rfl⟩ := FlShared.callLifo_eq_some h
          exact .pop _ _ (.inr (.inr ⟨rfl, rfl⟩)) hstep
      | waitCheck =>
          cases h
          split
          · next hfull => exact .full hfull
          · exact .notFull
      | waitSleep =>
          cases h
          exact .sleep
      | waitCond =>
          dsimp only [FlPc.run] at h
          split at h
          · cases h
            exact .stay _
          · next hawake =>
              cases h
              obtain ⟨hno, hfree⟩ := not_or.mp hawake
              exact .awake hno (Bool.eq_false_of_not_eq_true hfree)
      | waitNotify =>
          obtain ⟨sleepers, hnotify, heq⟩ := Option.map_eq_some_iff.mp h
          cases heq
          exact .notify _ _ c sleepers (.inl ⟨rfl, rfl⟩) hnotify
      | retNotify =>
          obtain ⟨sleepers, hnotify, heq⟩ := Option.map_eq_some_iff.mp h
          cases heq
          exact .notify _ _ c sleepers (.inr ⟨rfl, rfl⟩) hnotify
      | growStart wait =>
          cases c with
          | memory =>
              dsimp only [FlPc.run] at h
              by_cases hnone : p.wanted g.numAllocated p.numPerAlloc = 0
              · rw [if_pos hnone] at h
                cases h
                exact .growFails wait
              · rw [if_neg hnone] at h
                cases h
                exact .growStart wait _ rfl hnone
          | _ =>
              cases h
              exact .growFails wait
      | grow wait n left =>
          cases left with
          | zero =>
              cases h
              exact .growEnd wait n
          | succ left =>
              cases c with
              | item i =>
                  dsimp only [FlPc.run] at h
                  by_cases hmade : i ∈ g.made
                  · rw [if_pos hmade] at h
                    cases h
                  · rw [if_neg hmade] at h
                    obtain ⟨s, e, hstep, rfl, rfl, rfl⟩ := FlShared.callLifo_eq_some h
                    exact .carve wait n left i hmade hstep
              | _ => cases h

/-- `fl_lock` is a lock. -/
lemma FlStep.testAndSet (p : FreeList.Params) :
    TestAndSet (FlStep (τ := τ) (ι := ι) p) (fun g => g.flLock = true) FlPc.HoldsLock := by
  intro t g pc es g' pc' h
  cases h.moves with
  | pop pc pc' hpc _ =>
      refine .keep Iff.rfl ?_
      rcases hpc with ⟨rfl, rfl | rfl⟩ | ⟨rfl, rfl⟩ | ⟨rfl, rfl⟩ <;> exact Iff.rfl
  | ret i hi _ => exact .keep Iff.rfl Iff.rfl
  | carve wait n left i hi _ => exact .keep Iff.rfl Iff.rfl
  | stack pc hcall _ _ => exact .keep Iff.rfl Iff.rfl
  | stackEnd pc hcall _ _ => exact .keep Iff.rfl (FlPc.holdsLock_after hcall _)
  | stay pc => exact .keep Iff.rfl Iff.rfl
  | lock pc pc' hpc hfree =>
      refine .take (by rw [hfree]; exact Bool.false_ne_true) ?_ rfl ?_
      · rcases hpc with ⟨rfl, -⟩ | ⟨rfl, -⟩ | ⟨rfl, -⟩ | ⟨rfl, -⟩ <;> exact not_false
      · rcases hpc with ⟨-, rfl⟩ | ⟨-, rfl⟩ | ⟨-, rfl⟩ | ⟨-, rfl⟩ <;> trivial
  | unlock pc pc' hpc =>
      refine .give ?_ ?_ Bool.false_ne_true
      · rcases hpc with ⟨rfl, -⟩ | ⟨rfl, -⟩ | ⟨rfl, -⟩ <;> trivial
      · rcases hpc with ⟨-, rfl⟩ | ⟨-, rfl⟩ | ⟨-, rfl⟩ <;> exact not_false
  | tryFails => exact .keep Iff.rfl Iff.rfl
  | growFails wait => cases wait <;> exact .keep Iff.rfl Iff.rfl
  | growStart wait n hn hne => exact .keep Iff.rfl Iff.rfl
  | growEnd wait n => cases wait <;> exact .keep Iff.rfl Iff.rfl
  | full hfull => exact .keep Iff.rfl Iff.rfl
  | notFull => exact .keep Iff.rfl Iff.rfl
  | sleep => exact .give trivial not_false Bool.false_ne_true
  | awake hno hfree => exact .take (by rw [hfree]; exact Bool.false_ne_true) not_false rfl trivial
  | notify pc pc' c sleepers hpc _ =>
      refine .keep Iff.rfl ?_
      rcases hpc with ⟨rfl, rfl⟩ | ⟨rfl, rfl⟩ <;> exact Iff.rfl
  | spurious ht => exact .keep Iff.rfl Iff.rfl

/-! ### The counters -/

/-- Who waits: the counters are the number of threads in `pthread_cond_wait`. -/
def FlShared.Counts (g : FlShared τ ι) (pcs : τ → FlPc) : Prop :=
  ∃ waiting : Finset τ, (∀ t, t ∈ waiting ↔ pcs t = .waitCond) ∧ g.numWaiting = waiting.card ∧
    g.cWaiting = waiting.card ∧ g.sleepers ⊆ waiting

/-- A step that is neither into the wait nor out of it. -/
lemma FlShared.Counts.of_iff {pcs : τ → FlPc} (h : g.Counts pcs)
    (hnum : g'.numWaiting = g.numWaiting) (hcond : g'.cWaiting = g.cWaiting)
    (hsleep : g'.sleepers ⊆ g.sleepers) (hpc : pc' = .waitCond ↔ pcs t = .waitCond) :
    g'.Counts (Function.update pcs t pc') := by
  obtain ⟨waiting, hmem, hn, hc, hs⟩ := h
  refine ⟨waiting, fun u => ?_, hnum.trans hn, hcond.trans hc, hsleep.trans hs⟩
  rw [hmem]
  rcases eq_or_ne u t with rfl | hne
  · rw [Function.update_self, hpc]
  · rw [Function.update_of_ne hne]

omit [DecidableEq ι] in
lemma FlPc.after_ne_waitCond (hcall : pc.InCall) (r : LifoPtr ι) : pc.after r ≠ .waitCond := by
  cases pc <;> first
    | exact absurd hcall not_false
    | cases r <;> exact FlPc.noConfusion

/-- A signal or a broadcast wakes threads. -/
lemma FlShared.notify_subset {c : FlChoice τ ι} {s : Finset τ} (h : g.notify c = some s) :
    s ⊆ g.sleepers := by
  unfold FlShared.notify FlShared.signal at h
  split_ifs at h
  · cases h
    exact subset_rfl
  · cases h
    exact subset_rfl
  · cases c with
    | wakes u =>
        dsimp only at h
        split_ifs at h
        cases h
        exact Finset.erase_subset u _
    | _ => cases h
  · cases h
    exact Finset.empty_subset _

/-- A step keeps the counters. -/
lemma FlShared.Counts.next {pcs : τ → FlPc} (h : g.Counts pcs) (hstep : (pcs t).Moves p t g es g' pc') :
    g'.Counts (Function.update pcs t pc') := by
  generalize hpc : pcs t = pc at hstep
  cases hstep with
  | pop pc pc' hfrom _ =>
      refine h.of_iff rfl rfl subset_rfl ?_
      rw [hpc]
      rcases hfrom with ⟨rfl, rfl | rfl⟩ | ⟨rfl, rfl⟩ | ⟨rfl, rfl⟩ <;> simp
  | ret i hi _ => exact h.of_iff rfl rfl subset_rfl (by simp [hpc])
  | carve wait n left i hi _ => exact h.of_iff rfl rfl subset_rfl (by simp [hpc])
  | stack pc hcall _ _ => exact h.of_iff rfl rfl subset_rfl (by rw [hpc])
  | stackEnd pc hcall _ _ =>
      refine h.of_iff rfl rfl subset_rfl (iff_of_false (FlPc.after_ne_waitCond hcall _) ?_)
      rw [hpc]
      rintro rfl
      exact hcall
  | stay pc => exact h.of_iff rfl rfl subset_rfl (by rw [hpc])
  | lock pc pc' hfrom hfree =>
      refine h.of_iff rfl rfl subset_rfl ?_
      rw [hpc]
      rcases hfrom with ⟨rfl, rfl⟩ | ⟨rfl, rfl⟩ | ⟨rfl, rfl⟩ | ⟨rfl, rfl⟩ <;> simp
  | unlock pc pc' hfrom =>
      refine h.of_iff rfl rfl subset_rfl ?_
      rw [hpc]
      rcases hfrom with ⟨rfl, rfl⟩ | ⟨rfl, rfl⟩ | ⟨rfl, rfl⟩ <;> simp
  | tryFails => exact h.of_iff rfl rfl subset_rfl (by simp [hpc])
  | growFails wait => exact h.of_iff rfl rfl subset_rfl (by cases wait <;> simp [hpc, FlPc.growFailed])
  | growStart wait n hn hne => exact h.of_iff rfl rfl subset_rfl (by simp [hpc])
  | growEnd wait n => exact h.of_iff rfl rfl subset_rfl (by cases wait <;> simp [hpc])
  | full hfull => exact h.of_iff rfl rfl subset_rfl (by simp [hpc])
  | notFull => exact h.of_iff rfl rfl subset_rfl (by simp [hpc])
  | notify pc pc' c sleepers hfrom hnotify =>
      refine h.of_iff rfl rfl (FlShared.notify_subset hnotify) ?_
      rw [hpc]
      rcases hfrom with ⟨rfl, rfl⟩ | ⟨rfl, rfl⟩ <;> simp
  | spurious ht => exact h.of_iff rfl rfl (Finset.erase_subset _ _) (by rw [hpc])
  | sleep =>
      obtain ⟨waiting, hmem, hn, hc, hs⟩ := h
      have hnot : t ∉ waiting := by
        rw [hmem, hpc]
        exact FlPc.noConfusion
      refine ⟨insert t waiting, fun u => ?_, ?_, ?_, Finset.insert_subset_insert t hs⟩
      · rw [Finset.mem_insert, hmem]
        rcases eq_or_ne u t with rfl | hne
        · simp
        · rw [Function.update_of_ne hne, or_iff_right hne]
      · rw [Finset.card_insert_of_notMem hnot]
        exact congrArg (· + 1) hn
      · rw [Finset.card_insert_of_notMem hnot]
        push_cast
        exact congrArg (· + 1) hc
  | awake hno hfree =>
      obtain ⟨waiting, hmem, hn, hc, hs⟩ := h
      have hin : t ∈ waiting := (hmem t).mpr hpc
      have hcard := Finset.card_erase_add_one hin
      refine ⟨waiting.erase t, fun u => ?_, ?_, ?_, fun u hu => ?_⟩
      · rw [Finset.mem_erase, hmem]
        rcases eq_or_ne u t with rfl | hne
        · simp
        · rw [Function.update_of_ne hne, and_iff_right hne]
      · dsimp only
        omega
      · dsimp only
        omega
      · exact Finset.mem_erase.mpr ⟨fun heq => hno (heq ▸ hu), hs hu⟩

end Moves

end Ocoms
