import Ocoms.Lib.Linearizable
import Mathlib.Data.BitVec

/-!
The atomic arithmetic of `atomic_impl.h` and `asm.c`, called by any number of threads.

* `MathCall.apply` is what a call does to the memory when no other thread runs.
* `CasPc.run` is one step of the loops around `ocoms_atomic_cmpset_32` and `ocoms_atomic_cmpset_64`,
  with which `atomic_impl.h` defines the additions, subtractions and swaps that a platform lacks.
* `TablePc.run` is one step of the functions of `asm.c`, for a platform with nothing but a lock: they
  take the lock that the table has for the address.
* `cmpset_math_linearizes` and `lock_table_math_linearizes` say that under every interleaving each call
  takes effect at one moment; `sum_of_effects` that no addition is lost.
-/

namespace Ocoms

open Interleaving

/-! ### The operations -/

/-- The operations on a word of `w` bits. Arithmetic wraps around. -/
inductive MathOp (w : ℕ)
  | add (delta : BitVec w)
  | sub (delta : BitVec w)
  | swap (newval : BitVec w)
  deriving DecidableEq

/-- The word that is written. -/
def MathOp.newval {w : ℕ} (oldval : BitVec w) : MathOp w → BitVec w
  | .add delta => oldval + delta
  | .sub delta => oldval - delta
  | .swap newval => newval

/-- What is returned: the new word, and for a swap the old one. -/
def MathOp.result {w : ℕ} (oldval : BitVec w) : MathOp w → BitVec w
  | .add delta => oldval + delta
  | .sub delta => oldval - delta
  | .swap _ => oldval

/-- A call of `ocoms_atomic_add_32`, `ocoms_atomic_sub_32`, `ocoms_atomic_swap_32` or of those for 64
bits on the word at `addr`. -/
structure MathCall (w : ℕ) where
  addr : ℕ
  op : MathOp w
  deriving DecidableEq

/-- The words of the memory. -/
abbrev Words (w : ℕ) := ℕ → BitVec w

/-- What a call does and returns when no other thread runs. -/
def MathCall.apply {w : ℕ} (c : MathCall w) (mem : Words w) : Words w × BitVec w :=
  (Function.update mem c.addr (c.op.newval (mem c.addr)), c.op.result (mem c.addr))

lemma MathCall.apply_fst {w : ℕ} (c : MathCall w) (mem : Words w) :
    (c.apply mem).1 = Function.update mem c.addr (c.op.newval (mem c.addr)) := rfl

/-! ### The loops around compare-and-set -/

/-- `ocoms_atomic_cmpset_32` and `ocoms_atomic_cmpset_64`, which the hardware does at once. -/
def cmpset {w : ℕ} (mem : Words w) (addr : ℕ) (oldval newval : BitVec w) : Bool × Words w :=
  if mem addr = oldval then (true, Function.update mem addr newval) else (false, mem)

/-- Where a thread is in `do oldval = *addr; while (0 == cmpset(addr, oldval, …))`. -/
inductive CasPc (w : ℕ)
  | idle
  /-- Reads the word. -/
  | read (c : MathCall w)
  /-- Compares it with what was read, and sets it. -/
  | cmpset (c : MathCall w) (oldval : BitVec w)
  | ret (c : MathCall w) (result : BitVec w)
  deriving DecidableEq

/-- The next step of a thread in a call. -/
def CasPc.run {w : ℕ} (mem : Words w) :
    CasPc w → Option (Words w × CasPc w × List (CallEvent (MathCall w) (BitVec w)))
  | .idle => none
  | .read c => some (mem, .cmpset c (mem c.addr), [])
  | .cmpset c oldval =>
      let (set, mem) := Ocoms.cmpset mem c.addr oldval (c.op.newval oldval)
      if set then some (mem, .ret c (c.op.result oldval), [.effect c (c.op.result oldval)])
      else some (mem, .read c, [])
  | .ret c result => some (mem, .idle, [.ret c result])

/-- A thread calls one of the functions, or goes on with its call. -/
inductive CasStep {τ : Type*} {w : ℕ} (t : τ) (mem : Words w) : CasPc w →
    List (CallEvent (MathCall w) (BitVec w)) → Words w → CasPc w → Prop
  | call (c : MathCall w) : CasStep t mem .idle [.call c] mem (.read c)
  | run {pc pc' : CasPc w} {mem' : Words w} {es : List (CallEvent (MathCall w) (BitVec w))} :
      pc.run mem = some (mem', pc', es) → CasStep t mem pc es mem' pc'

/-- What a thread has done of its call. -/
def CasPc.phase {w : ℕ} : CasPc w → CallPhase (MathCall w) (BitVec w)
  | .idle => .idle
  | .read c | .cmpset c _ => .pending c
  | .ret c result => .done c result

section Cas

variable {τ : Type*} {w : ℕ} {mem₀ mem mem' : Words w}

/-- A word that is set has the value that was read. -/
lemma cmpset_eq {addr : ℕ} {oldval newval : BitVec w} :
    cmpset mem addr oldval newval = if mem addr = oldval then
      (true, Function.update mem addr newval) else (false, mem) := rfl

/-- **A step of a loop** is nothing to the others, until the compare-and-set succeeds. -/
lemma CasStep.objectStep {t : τ} {pc pc' : CasPc w} {es : List (CallEvent (MathCall w) (BitVec w))}
    (h : CasStep t mem pc es mem' pc') :
    ObjectStep MathCall.apply mem pc.phase es mem' pc'.phase := by
  cases h with
  | call c => exact .call c
  | run h =>
      cases pc with
      | idle => cases h
      | read c =>
          obtain ⟨rfl, rfl, rfl⟩ : mem = mem' ∧ .cmpset c (mem c.addr) = pc' ∧ [] = es := by
            simpa [CasPc.run] using h
          exact .internal _
      | cmpset c oldval =>
          rw [CasPc.run, cmpset_eq] at h
          by_cases hold : mem c.addr = oldval
          · rw [if_pos hold] at h
            obtain ⟨rfl, rfl, rfl⟩ : Function.update mem c.addr (c.op.newval oldval) = mem' ∧
                .ret c (c.op.result oldval) = pc' ∧ [.effect c (c.op.result oldval)] = es := by
              simpa using h
            rw [← hold]
            exact .effect c
          · rw [if_neg hold] at h
            obtain ⟨rfl, rfl, rfl⟩ : mem = mem' ∧ .read c = pc' ∧ [] = es := by simpa using h
            exact .internal _
      | ret c result =>
          obtain ⟨rfl, rfl, rfl⟩ : mem = mem' ∧ .idle = pc' ∧ [.ret c result] = es := by
            simpa [CasPc.run] using h
          exact .ret c result

end Cas

/-! ### No addition is lost -/

/-- What is added to the word. -/
def MathOp.amount {w : ℕ} : MathOp w → BitVec w
  | .add delta => delta
  | .sub delta => -delta
  | .swap _ => 0

/-- What the effects of a history add to a word. -/
def amountAt {w : ℕ} (addr : ℕ) (ops : List (MathCall w × BitVec w)) : BitVec w :=
  ((ops.filter fun o => o.1.addr = addr).map fun o => o.1.op.amount).sum

lemma amountAt_append {w : ℕ} (addr : ℕ) (ops ops' : List (MathCall w × BitVec w)) :
    amountAt addr (ops ++ ops') = amountAt addr ops + amountAt addr ops' := by
  rw [amountAt, List.filter_append, List.map_append, List.sum_append, amountAt, amountAt]

/-- **No addition is lost.** A word that is not swapped has been added all amounts. -/
lemma sum_of_effects {w : ℕ} {mem₀ mem : Words w} {ops : List (MathCall w × BitVec w)}
    (h : Sequential MathCall.apply mem₀ ops mem) {addr : ℕ}
    (hops : ∀ o ∈ ops, o.1.addr = addr → ∀ v, o.1.op ≠ .swap v) :
    mem addr = mem₀ addr + amountAt addr ops := by
  induction h with
  | nil => exact (add_zero _).symm
  | @snoc ops mem c _ ih =>
      have ih := ih fun o ho => hops o (List.mem_append_left _ ho)
      rw [amountAt_append, ← add_assoc, ← ih, MathCall.apply_fst]
      by_cases haddr : c.addr = addr
      · subst haddr
        have hnot := hops (c, (c.apply mem).2) (by simp) rfl
        have hone : amountAt c.addr [(c, (c.apply mem).2)] = c.op.amount := by
          simp [amountAt]
        rw [Function.update_self, hone]
        cases hop : c.op with
        | add delta => rfl
        | sub delta => exact sub_eq_add_neg _ _
        | swap v => exact absurd hop (hnot v)
      · have hnone : amountAt addr [(c, (c.apply mem).2)] = 0 := by
          simp [amountAt, haddr]
        rw [Function.update_of_ne (Ne.symm haddr), hnone, add_zero]

/-! ### The runs of the loops -/

/-- **The loops are atomic.** Under every interleaving of any number of threads that add, subtract and
swap through compare-and-set, on any words, each call takes effect at one moment between its call and
its return, with the result that it has at that moment; and a word that none of them swaps has been
added all their amounts. -/
theorem cmpset_math_linearizes {τ : Type*} [DecidableEq τ] {w : ℕ} {mem₀ mem : Words w}
    {pc : τ → CasPc w} {log : List (τ × CallEvent (MathCall w) (BitVec w))}
    (h : Run CasStep mem₀ (fun _ => .idle) log mem pc) :
    Linearizes MathCall.apply mem₀ log mem (fun t => (pc t).phase) ∧
      ∀ addr, (∀ o ∈ effects log, o.1.addr = addr → ∀ v, o.1.op ≠ .swap v) →
        mem addr = mem₀ addr + amountAt addr (effects log) := by
  have hlin : Linearizes MathCall.apply mem₀ log mem fun t => (pc t).phase :=
    h.linearizes id CasPc.phase (fun _ => rfl) fun _ _ _ _ _ _ _ _ hs => hs.objectStep
  exact ⟨hlin, fun addr hops => sum_of_effects hlin.sequential hops⟩

/-- Two threads add to one word; the first one reads it before the second one writes it, and tries
again. -/
theorem cmpset_math_linearizes_retry :
    ∃ log mem pc, Run CasStep (fun _ => (0 : BitVec 32)) (fun _ : Bool => .idle) log mem pc ∧
      log = [(false, .call ⟨0, .add 5⟩), (true, .call ⟨0, .add 3⟩), (true, .effect ⟨0, .add 3⟩ 3),
        (false, .effect ⟨0, .add 5⟩ 8)] ∧ mem 0 = 8 := by
  have hstart : Run CasStep (fun _ => (0 : BitVec 32)) (fun _ : Bool => .idle) [] _ (both .idle .idle) :=
    .startBoth _
  have hread := ((hstart.first (.call ⟨0, .add 5⟩)).first (.run rfl)).second (.call ⟨0, .add 3⟩)
  have hother := ((hread.second (.run rfl)).second (.run rfl)).first (.run rfl)
  have hretry : Run CasStep _ _ [(false, .call ⟨0, .add 5⟩), (true, .call ⟨0, .add 3⟩),
      (true, .effect ⟨0, .add 3⟩ 3), (false, .effect ⟨0, .add 5⟩ 8)]
      (Function.update (Function.update (fun _ => 0) 0 3) 0 8) _ :=
    (hother.first (.run rfl)).first (.run rfl)
  have hsum := (cmpset_math_linearizes hretry).2 0 fun o ho _ v => by
    have ho : o = (⟨0, .add 3⟩, 3) ∨ o = (⟨0, .add 5⟩, 8) := by simpa [effects, effectOf, eq_comm] using ho
    rcases ho with rfl | rfl <;> simp
  exact ⟨_, _, _, hretry, rfl, hsum.trans (by decide)⟩

/-! ### The lock table -/

/-- `LOCKS_TABLE_SIZE`, where the platform has more than one processor. -/
def locksTableSize : ℕ := 8

/-- `FIND_LOCK`; `smp` is `OCOMS_WANT_SMP_LOCKS`. -/
def findLock (smp : Bool) (addr : ℕ) : ℕ :=
  if smp then (addr >>> 8) &&& (locksTableSize - 1) else 0

/-- The words, and the lock bytes of `locks_table`. -/
structure LockTable where
  mem : Words 32
  locks : ℕ → BitVec 8

/-- A lock byte is written. -/
def LockTable.setLock (g : LockTable) (i : ℕ) (b : BitVec 8) : LockTable :=
  { g with locks := Function.update g.locks i b }

/-- A word is written. -/
def LockTable.setWord (g : LockTable) (addr : ℕ) (v : BitVec 32) : LockTable :=
  { g with mem := Function.update g.mem addr v }

/-- Where a thread is in `ocoms_atomic_add_32` or `ocoms_atomic_sub_32` of `asm.c`. -/
inductive TablePc
  | idle
  /-- `ldstub`: loads the lock byte and sets all its bits. -/
  | tryLock (c : MathCall 32)
  /-- `ldub`: loads it, while it is not 0. -/
  | spin (c : MathCall 32)
  /-- Reads the word. -/
  | load (c : MathCall 32)
  /-- Writes it. -/
  | store (c : MathCall 32) (old : BitVec 32)
  /-- Writes 0 to the lock byte. -/
  | unlock (c : MathCall 32) (result : BitVec 32)
  | ret (c : MathCall 32) (result : BitVec 32)

/-- The next step of a thread in a call. -/
def TablePc.run (smp : Bool) (g : LockTable) :
    TablePc → Option (LockTable × TablePc × List (CallEvent (MathCall 32) (BitVec 32)))
  | .idle => none
  | .tryLock c =>
      let i := findLock smp c.addr
      some (g.setLock i 255, if g.locks i = 0 then .load c else .spin c, [])
  | .spin c => some (g, if g.locks (findLock smp c.addr) = 0 then .tryLock c else .spin c, [])
  | .load c => some (g, .store c (g.mem c.addr), [])
  | .store c old =>
      some (g.setWord c.addr (c.op.newval old), .unlock c (c.op.result old),
        [.effect c (c.op.result old)])
  | .unlock c result =>
      some (g.setLock (findLock smp c.addr) 0, .ret c result, [])
  | .ret c result => some (g, .idle, [.ret c result])

/-- A thread calls one of the two functions, or goes on with its call. -/
inductive TableStep {τ : Type*} (smp : Bool) (t : τ) (g : LockTable) :
    TablePc → List (CallEvent (MathCall 32) (BitVec 32)) → LockTable → TablePc → Prop
  | call (c : MathCall 32) : (∀ v, c.op ≠ .swap v) → TableStep smp t g .idle [.call c] g (.tryLock c)
  | run {pc pc' : TablePc} {g' : LockTable} {es : List (CallEvent (MathCall 32) (BitVec 32))} :
      pc.run smp g = some (g', pc', es) → TableStep smp t g pc es g' pc'

/-- What a thread has done of its call. -/
def TablePc.phase : TablePc → CallPhase (MathCall 32) (BitVec 32)
  | .idle => .idle
  | .tryLock c | .spin c | .load c | .store c _ => .pending c
  | .unlock c result | .ret c result => .done c result

/-- The thread holds the lock `i`. -/
def TablePc.Holds (smp : Bool) (i : ℕ) : TablePc → Prop
  | .load c | .store c _ | .unlock c _ => findLock smp c.addr = i
  | _ => False

/-- The lock `i` is taken. -/
def LockTable.Locked (i : ℕ) (g : LockTable) : Prop := g.locks i ≠ 0

@[simp] lemma LockTable.setLock_locks (g : LockTable) (i : ℕ) (b : BitVec 8) :
    (g.setLock i b).locks = Function.update g.locks i b := rfl

@[simp] lemma LockTable.setWord_mem (g : LockTable) (addr : ℕ) (v : BitVec 32) :
    (g.setWord addr v).mem = Function.update g.mem addr v := rfl

lemma LockTable.locked_setLock_self {i : ℕ} {g : LockTable} {b : BitVec 8} :
    (g.setLock i b).Locked i ↔ b ≠ 0 := by
  rw [Locked, setLock_locks, Function.update_self]

lemma LockTable.locked_setLock_of_ne {i j : ℕ} (h : i ≠ j) {g : LockTable} {b : BitVec 8} :
    (g.setLock j b).Locked i ↔ g.Locked i := by
  rw [Locked, setLock_locks, Function.update_of_ne h, Locked]

/-- What a thread has read is still there. -/
def TablePc.Knows (g : LockTable) : TablePc → Prop
  | .store c old => g.mem c.addr = old
  | _ => True

section Table

variable {τ : Type*} {smp : Bool} {g g' : LockTable}

/-- What a step can be. -/
inductive TablePc.Moves (smp : Bool) (g : LockTable) :
    TablePc → List (CallEvent (MathCall 32) (BitVec 32)) → LockTable → TablePc → Prop
  | call (c : MathCall 32) : (∀ v, c.op ≠ .swap v) → Moves smp g .idle [.call c] g (.tryLock c)
  | take (c : MathCall 32) : g.locks (findLock smp c.addr) = 0 → Moves smp g (.tryLock c) []
      (g.setLock (findLock smp c.addr) 255) (.load c)
  | fail (c : MathCall 32) : g.locks (findLock smp c.addr) ≠ 0 → Moves smp g (.tryLock c) []
      (g.setLock (findLock smp c.addr) 255) (.spin c)
  | spin (c : MathCall 32) (pc : TablePc) : pc = .tryLock c ∨ pc = .spin c →
      Moves smp g (.spin c) [] g pc
  | load (c : MathCall 32) : Moves smp g (.load c) [] g (.store c (g.mem c.addr))
  | store (c : MathCall 32) (old : BitVec 32) :
      Moves smp g (.store c old) [.effect c (c.op.result old)]
        (g.setWord c.addr (c.op.newval old)) (.unlock c (c.op.result old))
  | unlock (c : MathCall 32) (result : BitVec 32) : Moves smp g (.unlock c result) []
      (g.setLock (findLock smp c.addr) 0) (.ret c result)
  | ret (c : MathCall 32) (result : BitVec 32) : Moves smp g (.ret c result) [.ret c result] g .idle

lemma TableStep.moves {t : τ} {pc pc' : TablePc} {es : List (CallEvent (MathCall 32) (BitVec 32))}
    (h : TableStep smp t g pc es g' pc') : pc.Moves smp g es g' pc' := by
  cases h with
  | call c hc => exact .call c hc
  | run h =>
      cases pc with
      | idle => cases h
      | tryLock c =>
          obtain ⟨rfl, hpc⟩ := Prod.mk.inj (Option.some.inj h)
          obtain ⟨rfl, rfl⟩ := Prod.mk.inj hpc
          split
          · next hfree => exact .take c hfree
          · next htaken => exact .fail c htaken
      | spin c =>
          obtain ⟨rfl, hpc⟩ := Prod.mk.inj (Option.some.inj h)
          obtain ⟨rfl, rfl⟩ := Prod.mk.inj hpc
          refine .spin c _ ?_
          split
          · exact Or.inl rfl
          · exact Or.inr rfl
      | load c =>
          obtain ⟨rfl, hpc⟩ := Prod.mk.inj (Option.some.inj h)
          obtain ⟨rfl, rfl⟩ := Prod.mk.inj hpc
          exact .load c
      | store c old =>
          obtain ⟨rfl, hpc⟩ := Prod.mk.inj (Option.some.inj h)
          obtain ⟨rfl, rfl⟩ := Prod.mk.inj hpc
          exact .store c old
      | unlock c result =>
          obtain ⟨rfl, hpc⟩ := Prod.mk.inj (Option.some.inj h)
          obtain ⟨rfl, rfl⟩ := Prod.mk.inj hpc
          exact .unlock c result
      | ret c result =>
          obtain ⟨rfl, hpc⟩ := Prod.mk.inj (Option.some.inj h)
          obtain ⟨rfl, rfl⟩ := Prod.mk.inj hpc
          exact .ret c result

/-- What a thread has read is there after its own step. -/
lemma TablePc.Moves.knows {pc pc' : TablePc} {es : List (CallEvent (MathCall 32) (BitVec 32))}
    (h : pc.Moves smp g es g' pc') : pc'.Knows g' := by
  cases h with
  | load c => rfl
  | spin c _ hpc => rcases hpc with rfl | rfl <;> trivial
  | _ => trivial

/-- **Each lock of the table** is a test-and-set lock. -/
lemma TableStep.testAndSet (smp : Bool) (i : ℕ) :
    TestAndSet (TableStep (τ := τ) smp) (LockTable.Locked i) (TablePc.Holds smp i) := by
  intro t g pc es g' pc' h
  cases h.moves with
  | call c _ => exact .keep Iff.rfl Iff.rfl
  | take c hfree =>
      by_cases hi : i = findLock smp c.addr
      · subst hi
        exact .take (not_not.mpr hfree) not_false
          (LockTable.locked_setLock_self.mpr (by decide)) rfl
      · exact .keep (LockTable.locked_setLock_of_ne hi) (iff_of_false (Ne.symm hi) not_false)
  | fail c htaken =>
      refine .keep ?_ Iff.rfl
      by_cases hi : i = findLock smp c.addr
      · subst hi
        exact iff_of_true (LockTable.locked_setLock_self.mpr (by decide)) htaken
      · exact LockTable.locked_setLock_of_ne hi
  | spin c pc hpc =>
      refine .keep Iff.rfl ?_
      rcases hpc with rfl | rfl <;> exact Iff.rfl
  | load c => exact .keep Iff.rfl Iff.rfl
  | store c old => exact .keep Iff.rfl Iff.rfl
  | unlock c result =>
      by_cases hi : i = findLock smp c.addr
      · subst hi
        exact .give rfl not_false fun h => LockTable.locked_setLock_self.mp h rfl
      · exact .keep (LockTable.locked_setLock_of_ne hi) (iff_of_false not_false (Ne.symm hi))
  | ret c result => exact .keep Iff.rfl Iff.rfl

/-- **What it protects** are the words whose lock it is: what the thread that holds it has read is
still there when it writes. -/
lemma TableStep.protects (smp : Bool) (i : ℕ) :
    Protects (TableStep (τ := τ) smp) (LockTable.Locked i) (TablePc.Holds smp i) (fun _ => True)
      fun g pc => pc.Knows g where
  take := fun _ _ _ _ _ _ h _ _ _ _ => h.moves.knows
  hold := fun _ _ _ _ _ _ h _ _ _ => h.moves.knows
  give := fun _ _ _ _ _ _ _ _ _ _ => trivial
  free := fun _ _ _ _ _ _ _ _ _ _ => trivial
  other := fun t g pc es g' pc' u h hno hno' hheld hknows => by
    cases u with
    | store c old =>
        cases h.moves with
        | store c' old' =>
            -- a thread that writes the same word holds the same lock
            have haddr : c.addr ≠ c'.addr := fun heq => hno (by rw [TablePc.Holds, ← heq]; exact hheld)
            rw [TablePc.Knows, LockTable.setWord_mem, Function.update_of_ne haddr]
            exact hknows
        | _ => exact hknows
    | _ => trivial

/-- **A step is nothing to the others**, until the word is written. -/
lemma TableStep.objectStep {t : τ} {pc pc' : TablePc}
    {es : List (CallEvent (MathCall 32) (BitVec 32))} (h : TableStep smp t g pc es g' pc')
    (hknows : pc.Knows g) :
    ObjectStep MathCall.apply g.mem pc.phase es g'.mem pc'.phase := by
  cases h.moves with
  | call c _ => exact .call c
  | take c _ => exact .internal _
  | fail c _ => exact .internal _
  | spin c pc hpc => rcases hpc with rfl | rfl <;> exact .internal _
  | load c => exact .internal _
  | store c old =>
      obtain rfl : g.mem c.addr = old := hknows
      exact .effect c
  | unlock c result => exact .internal _
  | ret c result => exact .ret c result

/-- `asm.c` has no swap. -/
lemma Interleaving.Run.call_ne_swap [DecidableEq τ] {g₀ : LockTable} {pc : τ → TablePc}
    {log : List (τ × CallEvent (MathCall 32) (BitVec 32))}
    (h : Run (TableStep smp) g₀ (fun _ => .idle) log g pc) {t : τ} {c : MathCall 32}
    (hc : (t, .call c) ∈ log) (v : BitVec 32) : c.op ≠ .swap v := by
  refine h.invariant (I := fun log _ _ => ∀ t c, (t, .call c) ∈ log → ∀ v, c.op ≠ .swap v)
    (fun t c hc => by cases hc) ?_ t c hc v
  intro log g l t es g' pc _ ih hs t' c' hc'
  rw [List.mem_append] at hc'
  rcases hc' with hc' | hc'
  · exact ih t' c' hc'
  · obtain ⟨e, he, heq⟩ := List.mem_map.mp hc'
    obtain ⟨-, rfl⟩ := Prod.mk.inj heq
    have hmoves := hs.moves
    generalize l t = pc₀ at hmoves
    cases hmoves with
    | call c hnot =>
        obtain rfl : c' = c := by simpa using he
        exact hnot
    | _ => simp at he

end Table

/-- **The lock table is as good as compare-and-set.** Under every interleaving of any number of threads
that add and subtract through the locks of the table, each call takes effect at one moment between its
call and its return, with the result that it has at that moment, and every word has been added all
amounts. -/
theorem lock_table_math_linearizes {τ : Type*} [DecidableEq τ] {smp : Bool} {g₀ g : LockTable}
    (hfree : ∀ i, g₀.locks i = 0) {pc : τ → TablePc}
    {log : List (τ × CallEvent (MathCall 32) (BitVec 32))}
    (h : Run (TableStep smp) g₀ (fun _ => .idle) log g pc) :
    Linearizes MathCall.apply g₀.mem log g.mem (fun t => (pc t).phase) ∧
      ∀ addr, g.mem addr = g₀.mem addr + amountAt addr (effects log) := by
  have hlin : Linearizes MathCall.apply g₀.mem log g.mem fun t => (pc t).phase := by
    refine h.linearizes LockTable.mem TablePc.phase (fun _ => rfl) fun log g l t es g' s hrun hs => ?_
    refine hs.objectStep ?_
    -- a thread that has read a word holds the lock for it
    cases hpc : l t with
    | store c old =>
        obtain ⟨-, hknows⟩ := hrun.protects (TableStep.testAndSet smp (findLock smp c.addr))
          (not_not.mpr (hfree _)) (fun _ => by exact not_false) trivial
          (TableStep.protects smp (findLock smp c.addr))
        rw [← hpc]
        exact hknows t (by rw [hpc]; rfl)
    | _ => trivial
  refine ⟨hlin, fun addr => sum_of_effects hlin.sequential fun o ho _ => ?_⟩
  obtain ⟨t, ht⟩ := hlin.call_of_effect (show (o.1, o.2) ∈ _ from ho)
  exact h.call_ne_swap ht

/-- Two threads add to one word and subtract from it; the second one waits for the lock. -/
theorem lock_table_math_linearizes_wait :
    ∃ log g pc, Run (TableStep true) ⟨fun _ => 0, fun _ => 0⟩ (fun _ : Bool => .idle) log g pc ∧
      log = [(false, .call ⟨0, .add 5⟩), (true, .call ⟨0, .sub 3⟩), (false, .effect ⟨0, .add 5⟩ 5),
        (true, .effect ⟨0, .sub 3⟩ 2)] ∧ g.mem 0 = 2 := by
  have hstart : Run (TableStep true) ⟨fun _ => 0, fun _ => 0⟩ (fun _ : Bool => .idle) [] _
      (both .idle .idle) := .startBoth _
  have htaken := ((hstart.first (.call ⟨0, .add 5⟩ (by simp))).first (.run rfl)).second
    (.call ⟨0, .sub 3⟩ (by simp))
  have hwait := ((htaken.second (.run rfl)).first (.run rfl)).second (.run rfl)
  have hgiven := (hwait.first (.run rfl)).first (.run rfl)
  have hdone : Run (TableStep true) _ _ [(false, .call ⟨0, .add 5⟩), (true, .call ⟨0, .sub 3⟩),
      (false, .effect ⟨0, .add 5⟩ 5), (true, .effect ⟨0, .sub 3⟩ 2)] _ _ :=
    (((hgiven.second (.run rfl)).second (.run rfl)).second (.run rfl)).second (.run rfl)
  have hsum := (lock_table_math_linearizes (fun _ => rfl) hdone).2 0
  exact ⟨_, _, _, hdone, rfl, hsum.trans (by decide)⟩

end Ocoms
