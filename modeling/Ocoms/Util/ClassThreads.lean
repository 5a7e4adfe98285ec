import Ocoms.Lib.Interleaving
import Ocoms.Util.ObjectClass

/-!
Threads that create objects at once: `ocoms_obj_new` with `ocoms_class_initialize`, which checks
`cls_initialized`, takes `class_lock`, and checks again.

* `ClassPc.run` is one step of a thread: a read of `cls_initialized`, an access to the lock, a part of
  the initialization, or the call of one constructor.
* `buildArrays` is the part in front of the write to `cls_initialized`;
  `classInitialize_eq` says that it is a part of `ocoms_class_initialize`.
* `Interleaving.Run.descriptors` is what the lock protects: a free lock means that the descriptors are
  those of a sequential run.
* `NewCalls` are the events of one thread, and `class_initialize_threads` is the theorem about all
  interleavings.
-/

namespace Ocoms

open Interleaving

namespace ClassSystem

variable {κ φ : Type} [DecidableEq κ]

/-- `ocoms_class_initialize` between the second check and the write to `cls_initialized`, with the
array that `save_class` is given. -/
def buildArrays (s : ClassSystem κ φ) (cls : κ) (fuel : ℕ) : Option (FnPtr × ClassSystem κ φ) := do
  let n ← s.countWalk fuel (some cls) ⟨0, 0, 0⟩
  let (array, s) := s.malloc (n.construct + n.destruct + 2)
  let s := s.modify cls fun d => { d with
    depth := n.depth
    constructArray := some array
    destructArray := some ⟨array.block, array.off + n.construct + 1⟩ }
  let s ← s.store ⟨array.block, array.off + n.construct⟩ .null
  let (q, s) ← fillWalk n.depth (some cls) ⟨array.block, array.off + n.construct⟩
    ⟨array.block, array.off + n.construct + 1⟩ s
  let s ← s.store q .null
  return (array, s)

/-- `cls->cls_initialized = 1`. -/
def publish (s : ClassSystem κ φ) (cls : κ) : ClassSystem κ φ :=
  s.modify cls fun d => { d with initialized := true }

variable {s s' : ClassSystem κ φ} {c : κ} {array : FnPtr} {fuel : ℕ}

lemma publish_classOf (s : ClassSystem κ φ) (c : κ) :
    (s.publish c).classOf = Function.update s.classOf c { s.classOf c with initialized := true } :=
  rfl

lemma publish_blocks (s : ClassSystem κ φ) (c : κ) : (s.publish c).blocks = s.blocks := rfl

/-- **The parts of `ocoms_class_initialize`.** -/
lemma classInitialize_eq (hnot : (s.classOf c).initialized = false) :
    s.classInitialize c fuel
      = (s.buildArrays c fuel).map fun r => (r.2.publish c).saveClass r.1 := by
  rw [classInitialize, if_neg (by rw [hnot]; exact Bool.false_ne_true), buildArrays]
  simp only [Option.bind_eq_bind, Option.map_bind, Function.comp_def, Option.pure_def, Option.map_some]
  rfl

omit [DecidableEq κ] in
/-- The functions are written to the blocks only. -/
lemma store_classOf {p : FnPtr} {v : FnCell φ} (h : s.store p v = some s') : s'.classOf = s.classOf := by
  obtain ⟨cells, -, h⟩ := Option.bind_eq_some_iff.mp h
  obtain ⟨cells', -, h⟩ := Option.bind_eq_some_iff.mp h
  obtain ⟨blocks, -, h⟩ := Option.bind_eq_some_iff.mp h
  obtain rfl := Option.some.inj h
  rfl

omit [DecidableEq κ] in
lemma fillWalk_classOf {i : ℕ} {o : Option κ} {p q q' : FnPtr} (h : fillWalk i o p q s = some (q', s')) :
    s'.classOf = s.classOf := by
  induction i generalizing o p q s with
  | zero =>
      obtain ⟨-, rfl⟩ := Prod.mk.inj (Option.some.inj h)
      rfl
  | succ i ih =>
      cases o with
      | none => cases h
      | some c =>
          obtain ⟨⟨p₁, s₁⟩, h₁, h⟩ := Option.bind_eq_some_iff.mp h
          obtain ⟨⟨q₁, s₂⟩, h₂, h⟩ := Option.bind_eq_some_iff.mp h
          have hfirst : s₁.classOf = s.classOf := by
            revert h₁
            cases (s.classOf c).construct with
            | none =>
                intro h₁
                obtain ⟨-, rfl⟩ := Prod.mk.inj (Option.some.inj h₁)
                rfl
            | some f =>
                intro h₁
                unfold pushConstruct at h₁
                dsimp only at h₁
                split at h₁
                · cases h₁
                · obtain ⟨t, ht, heq⟩ := Option.map_eq_some_iff.mp h₁
                  obtain ⟨-, rfl⟩ := Prod.mk.inj heq
                  exact store_classOf ht
          have hsecond : s₂.classOf = s₁.classOf := by
            revert h₂
            cases (s₁.classOf c).destruct with
            | none =>
                intro h₂
                obtain ⟨-, rfl⟩ := Prod.mk.inj (Option.some.inj h₂)
                rfl
            | some f =>
                intro h₂
                obtain ⟨t, ht, heq⟩ := Option.map_eq_some_iff.mp h₂
                obtain ⟨-, rfl⟩ := Prod.mk.inj heq
                exact store_classOf ht
          exact (ih h).trans (hsecond.trans hfirst)

/-- The class is not marked yet. -/
lemma buildArrays_initialized (h : s.buildArrays c fuel = some (array, s')) (c' : κ) :
    (s'.classOf c').initialized = (s.classOf c').initialized := by
  obtain ⟨n, -, h⟩ := Option.bind_eq_some_iff.mp h
  obtain ⟨s₁, h₁, h⟩ := Option.bind_eq_some_iff.mp h
  obtain ⟨⟨q, s₂⟩, h₂, h⟩ := Option.bind_eq_some_iff.mp h
  obtain ⟨s₃, h₃, h⟩ := Option.bind_eq_some_iff.mp h
  obtain ⟨-, rfl⟩ := Prod.mk.inj (Option.some.inj h)
  rw [store_classOf h₃, fillWalk_classOf h₂, store_classOf h₁, modify]
  dsimp only
  rcases eq_or_ne c' c with rfl | hne
  · rw [Function.update_self]
    rfl
  · rw [Function.update_of_ne hne]
    rfl

/-- What the initialization leaves as it is: the classes that are initialized, and the blocks. -/
structure Extends (s s' : ClassSystem κ φ) : Prop where
  classOf : ∀ c, (s.classOf c).initialized = true → s'.classOf c = s.classOf c
  blocks : ∃ blocks, s'.blocks = s.blocks ++ blocks

omit [DecidableEq κ] in
lemma Extends.refl (s : ClassSystem κ φ) : s.Extends s :=
  ⟨fun _ _ => rfl, [], (List.append_nil _).symm⟩

/-- The arrays are complete before `cls_initialized` is written. -/
lemma buildArrays_spec {s₀ : ClassSystem κ φ} (hinv : ClassInv s₀ s)
    (hnot : (s.classOf c).initialized = false) (hbuild : s.buildArrays c fuel = some (array, s')) :
    s.Extends s' ∧ (∀ c', c' ≠ c → s'.classOf c' = s.classOf c') ∧
      ∃ chain b, ClassChain s₀.classOf (some c) chain ∧ s'.HasArrays s₀.classOf c chain b := by
  have hcall : s.classInitialize c fuel = _ := classInitialize_eq hnot
  rw [hbuild, Option.map_some] at hcall
  obtain ⟨hclassOf, hblocks⟩ := saveClass_classOf (s'.publish c) array
  -- the descriptors of the complete call
  have hwalk : ∃ n, s.countWalk fuel (some c) ⟨0, 0, 0⟩ = some n := by
    obtain ⟨n, hn, -⟩ := Option.bind_eq_some_iff.mp hbuild
    exact ⟨n, hn⟩
  obtain ⟨n, hn⟩ := hwalk
  obtain ⟨chain, hchain, hfuel⟩ := chain_of_countWalk hn
  obtain ⟨s'', d, hspec, hupdate, -, -, hconstruct, hdestruct, hnew⟩ :=
    classInitialize_spec hnot hchain hfuel
  obtain rfl := Option.some.inj (hcall.symm.trans hspec)
  rw [hclassOf] at hupdate
  have hother : ∀ c', c' ≠ c → s'.classOf c' = s.classOf c' := fun c' hne => by
    have hc := congrFun hupdate c'
    rwa [publish_classOf, Function.update_of_ne hne, Function.update_of_ne hne] at hc
  have hself : { s'.classOf c with initialized := true } = d := by
    have hc := congrFun hupdate c
    rwa [publish_classOf, Function.update_self, Function.update_self] at hc
  have hnew' : s'.blocks = s.blocks ++ [arraysBlock s.classOf chain] := hblocks.symm.trans hnew
  refine ⟨⟨fun c' hc' => hother c' ?_, _, hnew'⟩, hother, chain, s.blocks.length,
    hinv.same.symm.classChain hchain, ?_, ?_, ?_⟩
  · rintro rfl
    exact absurd (hnot.symm.trans hc') Bool.false_ne_true
  · rw [arrayOf, ← hconstruct, ← hself]
  · rw [arrayOf, ← hinv.same.constructsOf, ← hdestruct, ← hself]
  · rw [hnew', List.getElem?_append_right (Nat.le_refl _), Nat.sub_self, hinv.same.arraysBlock]
    rfl

end ClassSystem

/-! ### The threads -/

/-- The class descriptors, and `class_lock`. -/
structure ClassMemory (κ φ : Type) where
  sys : ClassSystem κ φ
  classLock : Bool

/-- Where a thread is in `ocoms_obj_new`. -/
inductive ClassPc (κ : Type)
  | idle
  /-- `ocoms_obj_new` reads `cls_initialized`. -/
  | newCheck (c : κ)
  /-- `ocoms_class_initialize` reads it. -/
  | check (c : κ)
  | tryLock (c : κ)
  | spin (c : κ)
  /-- It reads it once more, with the lock. -/
  | recheck (c : κ)
  | build (c : κ)
  | publish (c : κ) (array : FnPtr)
  | save (c : κ) (array : FnPtr)
  | unlock (c : κ)
  /-- `ocoms_obj_run_constructors` reads `cls_construct_array`. -/
  | readArray (c : κ)
  /-- It reads the next function, and calls it. -/
  | construct (c : κ) (p : FnPtr)

/-- What a thread records: the creation of an object begins, the class is marked as initialized, a
constructor is called, the object is made. -/
inductive NewEvent (κ φ : Type)
  | new (c : κ)
  | mark (c : κ)
  | construct (f : φ)
  | made (c : κ)

section Threads

open ClassSystem

variable {κ φ : Type} [DecidableEq κ]

/-- A read through a pointer into a block. -/
def ClassSystem.readCell (s : ClassSystem κ φ) (p : FnPtr) : Option (FnCell φ) :=
  s.blocks[p.block]? >>= fun cells => cells[p.off]?

/-- The next step of a thread in a call. `none` is the use of a null pointer, or of a cell that was not
written. -/
def ClassPc.run (fuel : ℕ) (g : ClassMemory κ φ) :
    ClassPc κ → Option (ClassMemory κ φ × ClassPc κ × List (NewEvent κ φ))
  | .idle => none
  | .newCheck c => some (g, if (g.sys.classOf c).initialized then .readArray c else .check c, [])
  | .check c => some (g, if (g.sys.classOf c).initialized then .readArray c else .tryLock c, [])
  | .tryLock c =>
      some (if g.classLock then (g, .spin c, []) else ({ g with classLock := true }, .recheck c, []))
  | .spin c => some (g, if g.classLock then .spin c else .tryLock c, [])
  | .recheck c => some (g, if (g.sys.classOf c).initialized then .unlock c else .build c, [])
  | .build c =>
      (g.sys.buildArrays c fuel).map fun r => ({ g with sys := r.2 }, .publish c r.1, [])
  | .publish c array => some ({ g with sys := g.sys.publish c }, .save c array, [.mark c])
  | .save c array => some ({ g with sys := g.sys.saveClass array }, .unlock c, [])
  | .unlock c => some ({ g with classLock := false }, .readArray c, [])
  | .readArray c => (g.sys.arrayOf c .construct).map fun p => (g, .construct c p, [])
  | .construct c p =>
      match g.sys.readCell p with
      | some (.fn f) => some (g, .construct c ⟨p.block, p.off + 1⟩, [.construct f])
      | some .null => some (g, .idle, [.made c])
      | _ => none

/-- A thread creates an object of a class that was not initialized at the start, as only the class of
the base object is, or it goes on. -/
inductive ClassStep {τ : Type*} (s₀ : ClassSystem κ φ) (fuel : ℕ) (t : τ) (g : ClassMemory κ φ) :
    ClassPc κ → List (NewEvent κ φ) → ClassMemory κ φ → ClassPc κ → Prop
  | new (c : κ) : (s₀.classOf c).initialized = false → ClassStep s₀ fuel t g .idle [.new c] g (.newCheck c)
  | run {pc pc' : ClassPc κ} {g' : ClassMemory κ φ} {es : List (NewEvent κ φ)} :
      pc.run fuel g = some (g', pc', es) → ClassStep s₀ fuel t g pc es g' pc'

/-- What a step can be. -/
inductive ClassPc.Moves (s₀ : ClassSystem κ φ) (fuel : ℕ) (g : ClassMemory κ φ) :
    ClassPc κ → List (NewEvent κ φ) → ClassMemory κ φ → ClassPc κ → Prop
  | new (c : κ) : (s₀.classOf c).initialized = false → Moves s₀ fuel g .idle [.new c] g (.newCheck c)
  | newReady (c : κ) : (g.sys.classOf c).initialized = true →
      Moves s₀ fuel g (.newCheck c) [] g (.readArray c)
  | newCheck (c : κ) : Moves s₀ fuel g (.newCheck c) [] g (.check c)
  | ready (c : κ) : (g.sys.classOf c).initialized = true →
      Moves s₀ fuel g (.check c) [] g (.readArray c)
  | check (c : κ) : Moves s₀ fuel g (.check c) [] g (.tryLock c)
  | take (c : κ) : g.classLock = false →
      Moves s₀ fuel g (.tryLock c) [] { g with classLock := true } (.recheck c)
  | wait (c : κ) (pc pc' : ClassPc κ) : pc = .tryLock c ∨ pc = .spin c →
      pc' = .tryLock c ∨ pc' = .spin c → Moves s₀ fuel g pc [] g pc'
  | raced (c : κ) : (g.sys.classOf c).initialized = true →
      Moves s₀ fuel g (.recheck c) [] g (.unlock c)
  | recheck (c : κ) : (g.sys.classOf c).initialized = false →
      Moves s₀ fuel g (.recheck c) [] g (.build c)
  | build (c : κ) (array : FnPtr) (sys : ClassSystem κ φ) :
      g.sys.buildArrays c fuel = some (array, sys) →
      Moves s₀ fuel g (.build c) [] { g with sys } (.publish c array)
  | publish (c : κ) (array : FnPtr) :
      Moves s₀ fuel g (.publish c array) [.mark c] { g with sys := g.sys.publish c }
        (.save c array)
  | save (c : κ) (array : FnPtr) :
      Moves s₀ fuel g (.save c array) [] { g with sys := g.sys.saveClass array } (.unlock c)
  | unlock (c : κ) : Moves s₀ fuel g (.unlock c) [] { g with classLock := false } (.readArray c)
  | readArray (c : κ) (p : FnPtr) : g.sys.arrayOf c .construct = some p →
      Moves s₀ fuel g (.readArray c) [] g (.construct c p)
  | construct (c : κ) (p : FnPtr) (f : φ) : g.sys.readCell p = some (.fn f) →
      Moves s₀ fuel g (.construct c p) [.construct f] g (.construct c ⟨p.block, p.off + 1⟩)
  | made (c : κ) (p : FnPtr) : g.sys.readCell p = some .null →
      Moves s₀ fuel g (.construct c p) [.made c] g .idle

variable {τ : Type*} {s₀ : ClassSystem κ φ} {fuel : ℕ} {g g' : ClassMemory κ φ} {pc pc' : ClassPc κ}
  {es : List (NewEvent κ φ)} {t : τ}

lemma ClassStep.moves (h : ClassStep s₀ fuel t g pc es g' pc') : pc.Moves s₀ fuel g es g' pc' := by
  cases h with
  | new c hc => exact .new c hc
  | run h =>
      cases pc with
      | idle => cases h
      | newCheck c =>
          cases h
          split
          · next hinit => exact .newReady c hinit
          · exact .newCheck c
      | check c =>
          cases h
          split
          · next hinit => exact .ready c hinit
          · exact .check c
      | tryLock c =>
          rw [ClassPc.run] at h
          split at h
          · cases h
            exact .wait c _ _ (Or.inl rfl) (Or.inr rfl)
          · next hfree =>
              cases h
              exact .take c (Bool.eq_false_of_not_eq_true hfree)
      | spin c =>
          cases h
          refine .wait c _ _ (Or.inr rfl) ?_
          split
          · exact Or.inr rfl
          · exact Or.inl rfl
      | recheck c =>
          cases h
          split
          · next hinit => exact .raced c hinit
          · next hnot => exact .recheck c (Bool.eq_false_of_not_eq_true hnot)
      | build c =>
          obtain ⟨⟨array, sys⟩, hbuild, heq⟩ := Option.map_eq_some_iff.mp h
          cases heq
          exact .build c array sys hbuild
      | publish c array =>
          cases h
          exact .publish c array
      | save c array =>
          cases h
          exact .save c array
      | unlock c =>
          cases h
          exact .unlock c
      | readArray c =>
          obtain ⟨p, hp, heq⟩ := Option.map_eq_some_iff.mp h
          cases heq
          exact .readArray c p hp
      | construct c p =>
          rw [ClassPc.run] at h
          split at h
          · next f hcell =>
              cases h
              exact .construct c p f hcell
          · next hcell =>
              cases h
              exact .made c p hcell
          · cases h

/-! ### What the lock protects -/

/-- The thread has `class_lock`. -/
def ClassPc.HasLock : ClassPc κ → Prop
  | .recheck _ | .build _ | .publish _ _ | .save _ _ | .unlock _ => True
  | _ => False

omit [DecidableEq κ] in
lemma ClassPc.not_hasLock_idle : ¬ (ClassPc.idle : ClassPc κ).HasLock := not_false

/-- **What the thread with the lock knows**: how far the initialization is, from a state that a
sequential run leads to. -/
def ClassPc.Initializing (s₀ : ClassSystem κ φ) (fuel : ℕ) (g : ClassMemory κ φ) : ClassPc κ → Prop
  | .recheck _ => ClassRun s₀ g.sys
  | .build c => ClassRun s₀ g.sys ∧ (g.sys.classOf c).initialized = false
  | .publish c array => ∃ s, ClassRun s₀ s ∧ (s.classOf c).initialized = false ∧
      s.buildArrays c fuel = some (array, g.sys)
  | .save c array => ∃ s sys, ClassRun s₀ s ∧ (s.classOf c).initialized = false ∧
      s.buildArrays c fuel = some (array, sys) ∧ g.sys = sys.publish c
  | .unlock c => ClassRun s₀ g.sys ∧ (g.sys.classOf c).initialized = true
  | _ => True

omit [DecidableEq κ] in
/-- The other threads do not change the descriptors. -/
lemma ClassPc.Moves.sys_eq [DecidableEq κ] (h : pc.Moves s₀ fuel g es g' pc') (hno : ¬ pc.HasLock) :
    g'.sys = g.sys := by
  cases h <;> first | rfl | exact absurd trivial hno

/-- `class_lock` is a test-and-set lock. -/
lemma ClassStep.testAndSet (s₀ : ClassSystem κ φ) (fuel : ℕ) :
    TestAndSet (ClassStep (τ := τ) s₀ fuel) (fun g => g.classLock = true) ClassPc.HasLock := by
  intro t g pc es g' pc' h
  cases h.moves with
  | take c hfree => exact .take (by rw [hfree]; exact Bool.false_ne_true) not_false rfl trivial
  | unlock c => exact .give trivial not_false Bool.false_ne_true
  | wait c pc pc' hpc hpc' =>
      refine .keep Iff.rfl ?_
      rcases hpc with rfl | rfl <;> rcases hpc' with rfl | rfl <;> exact Iff.rfl
  | _ => exact .keep Iff.rfl Iff.rfl

/-- **The lock protects the descriptors.** -/
lemma ClassStep.protects (s₀ : ClassSystem κ φ) (fuel : ℕ) :
    Protects (ClassStep (τ := τ) s₀ fuel) (fun g => g.classLock = true) ClassPc.HasLock
      (fun g => ClassRun s₀ g.sys) fun g pc => pc.Initializing s₀ fuel g where
  take := fun t g pc es g' pc' h hfree hno hyes hR => by
    cases h.moves with
    | take c _ => exact hR
    | wait c pc pc' _ hpc' => rcases hpc' with rfl | rfl <;> exact absurd hyes not_false
    | _ => first | exact absurd trivial hno | exact absurd hyes not_false
  hold := fun t g pc es g' pc' h hheld hheld' hA => by
    cases h.moves with
    | raced c hinit => exact ⟨hA, hinit⟩
    | recheck c hnot => exact ⟨hA, hnot⟩
    | build c array sys hbuild => exact ⟨g.sys, hA.1, hA.2, hbuild⟩
    | publish c array =>
        obtain ⟨s, hs, hnot, hbuild⟩ := hA
        exact ⟨s, g.sys, hs, hnot, hbuild, rfl⟩
    | save c array =>
        obtain ⟨s, sys, hs, hnot, hbuild, hsys⟩ := hA
        refine ⟨.call c fuel hs ?_, ?_⟩
        · rw [ClassSystem.classInitialize_eq hnot, hbuild, Option.map_some, hsys]
        · rw [(ClassSystem.saveClass_classOf _ _).1, hsys, ClassSystem.publish_classOf,
            Function.update_self]
    | wait c pc pc' _ hpc' => rcases hpc' with rfl | rfl <;> exact absurd hheld' not_false
    | _ => first | exact absurd hheld not_false | exact absurd hheld' not_false
  give := fun t g pc es g' pc' h hheld hnot hA => by
    cases h.moves with
    | unlock c => exact hA.1
    | wait c pc pc' hpc _ => rcases hpc with rfl | rfl <;> exact absurd hheld not_false
    | _ => first | exact absurd hheld not_false | exact absurd trivial hnot
  free := fun t g pc es g' pc' h hno _ hR => by
    rw [h.moves.sys_eq hno]
    exact hR
  other := fun t g pc es g' pc' u h hno _ hheld hA => by
    have hsys := h.moves.sys_eq hno
    cases u with
    | recheck c =>
        rw [ClassPc.Initializing, hsys]
        exact hA
    | build c =>
        rw [ClassPc.Initializing, hsys]
        exact hA
    | publish c array =>
        rw [ClassPc.Initializing, hsys]
        exact hA
    | save c array =>
        rw [ClassPc.Initializing, hsys]
        exact hA
    | unlock c =>
        rw [ClassPc.Initializing, hsys]
        exact hA
    | _ => exact absurd hheld not_false

/-! ### The arrays that a thread reads -/

/-- All classes that were initialized have their arrays. -/
def ClassSystem.AllBuilt (s₀ s : ClassSystem κ φ) : Prop :=
  ∀ c, InitializedSince s₀ s c →
    ∃ chain b, ClassChain s₀.classOf (some c) chain ∧ s.HasArrays s₀.classOf c chain b

variable {s s' : ClassSystem κ φ} {c : κ} {chain : List κ} {b : ℕ} {array : FnPtr}

omit [DecidableEq κ] in
lemma ClassSystem.Extends.hasArrays (h : s.Extends s') (hinit : (s.classOf c).initialized = true)
    (harrays : s.HasArrays s₀.classOf c chain b) : s'.HasArrays s₀.classOf c chain b := by
  obtain ⟨blocks, hblocks⟩ := h.blocks
  exact harrays.mono (h.classOf c hinit) hblocks

omit [DecidableEq κ] in
lemma ClassSystem.Extends.initializedSince (h : s.Extends s') (hinit : InitializedSince s₀ s c) :
    InitializedSince s₀ s' c :=
  ⟨hinit.1, by rw [h.classOf c hinit.2]; exact hinit.2⟩

/-- The class is marked after its arrays have been built. -/
lemma ClassSystem.publish_extends (hnot : (s.classOf c).initialized = false) :
    s.Extends (s.publish c) := by
  refine ⟨fun c' hc' => ?_, [], (List.append_nil _).symm⟩
  have hne : c' ≠ c := by
    rintro rfl
    exact Bool.false_ne_true (hnot.symm.trans hc')
  rw [publish_classOf, Function.update_of_ne hne]

/-- In front of the write to `cls_initialized`. -/
lemma ClassSystem.AllBuilt.buildArrays (hinv : ClassInv s₀ s) (hnot : (s.classOf c).initialized = false)
    (hbuild : s.buildArrays c fuel = some (array, s')) : AllBuilt s₀ s' := by
  intro c' hinit
  have hinit' : InitializedSince s₀ s c' :=
    ⟨hinit.1, (buildArrays_initialized hbuild c').symm.trans hinit.2⟩
  obtain ⟨chain, b, hchain, harrays⟩ := hinv.built c' hinit'
  exact ⟨chain, b, hchain, (buildArrays_spec hinv hnot hbuild).1.hasArrays hinit'.2 harrays⟩

/-- Behind it. -/
lemma ClassSystem.AllBuilt.publish (hinv : ClassInv s₀ s) (hnot : (s.classOf c).initialized = false)
    (hbuild : s.buildArrays c fuel = some (array, s')) : AllBuilt s₀ (s'.publish c) := by
  obtain ⟨-, -, chain, b, hchain, harrays⟩ := buildArrays_spec hinv hnot hbuild
  have hnot' : (s'.classOf c).initialized = false := (buildArrays_initialized hbuild c).trans hnot
  intro c' hinit
  rcases eq_or_ne c' c with rfl | hne
  · refine ⟨chain, b, hchain, ?_, ?_, harrays.block⟩
    · rw [← harrays.construct, arrayOf, publish_classOf, Function.update_self, arrayOf]
    · rw [← harrays.destruct, arrayOf, publish_classOf, Function.update_self, arrayOf]
  · have hinit' : InitializedSince s₀ s' c' := by
      refine ⟨hinit.1, ?_⟩
      rw [← hinit.2, publish_classOf, Function.update_of_ne hne]
    obtain ⟨chain', b', hchain', harrays'⟩ := AllBuilt.buildArrays hinv hnot hbuild c' hinit'
    exact ⟨chain', b', hchain', (publish_extends hnot').hasArrays hinit'.2 harrays'⟩

/-- At every point of an initialization. -/
lemma ClassPc.Initializing.allBuilt (hheld : pc.HasLock) (h : pc.Initializing s₀ fuel g) :
    AllBuilt s₀ g.sys := by
  cases pc with
  | recheck c => exact h.inv.built
  | build c => exact h.1.inv.built
  | publish c array =>
      obtain ⟨s, hs, hnot, hbuild⟩ := h
      exact AllBuilt.buildArrays hs.inv hnot hbuild
  | save c array =>
      obtain ⟨s, sys, hs, hnot, hbuild, hsys⟩ := h
      rw [hsys]
      exact AllBuilt.publish hs.inv hnot hbuild
  | unlock c => exact h.1.inv.built
  | _ => exact absurd hheld not_false

/-- What the threads have read stays there. -/
lemma ClassPc.Moves.extends (h : pc.Moves s₀ fuel g es g' pc')
    (hinit : pc.HasLock → pc.Initializing s₀ fuel g) : g.sys.Extends g'.sys := by
  cases h with
  | build c array sys hbuild =>
      obtain ⟨hs, hnot⟩ := hinit trivial
      exact (buildArrays_spec hs.inv hnot hbuild).1
  | publish c array =>
      obtain ⟨s, hs, hnot, hbuild⟩ := hinit trivial
      exact publish_extends ((buildArrays_initialized hbuild c).trans hnot)
  | save c array =>
      obtain ⟨hclassOf, hblocks⟩ := saveClass_classOf g.sys array
      exact ⟨fun c _ => by rw [hclassOf], [], by rw [hblocks, List.append_nil]⟩
  | _ => exact .refl _

/-- The first cell of the constructors that are left. -/
def nextCell : List φ → FnCell φ
  | [] => .null
  | f :: _ => .fn f

omit [DecidableEq κ] in
/-- The array of the constructors, behind the ones that were called. -/
lemma ClassSystem.HasArrays.readCell (h : s.HasArrays s₀.classOf c chain b) {done rest : List φ}
    (hlist : (constructsOf s₀.classOf chain).reverse = done ++ rest) :
    s.readCell ⟨b, done.length⟩ = some (nextCell rest) := by
  rw [ClassSystem.readCell, h.block, Option.bind_eq_bind, Option.bind_some, arraysBlock, hlist,
    List.map_append, List.append_assoc, List.getElem?_append_right (by rw [List.length_map]),
    List.length_map, Nat.sub_self, ← List.head?_eq_getElem?]
  cases rest <;> rfl

/-! ### The calls of a thread -/

/-- **The events of one thread**, with the class of the object that it creates and the constructors
that were called: those of the class chain, the root class first, and all of them. -/
inductive NewCalls (classOf : κ → ClassDesc κ φ) : List (NewEvent κ φ) → Option (κ × List φ) → Prop
  | nil : NewCalls classOf [] none
  | new {es : List (NewEvent κ φ)} (c : κ) : NewCalls classOf es none →
      NewCalls classOf (es ++ [.new c]) (some (c, []))
  | mark {es : List (NewEvent κ φ)} {c : κ} : NewCalls classOf es (some (c, [])) →
      NewCalls classOf (es ++ [.mark c]) (some (c, []))
  | construct {es : List (NewEvent κ φ)} {c : κ} {done rest : List φ} {f : φ} {chain : List κ} :
      NewCalls classOf es (some (c, done)) → ClassChain classOf (some c) chain →
      (constructsOf classOf chain).reverse = done ++ f :: rest →
      NewCalls classOf (es ++ [.construct f]) (some (c, done ++ [f]))
  | made {es : List (NewEvent κ φ)} {c : κ} {chain : List κ} :
      NewCalls classOf es (some (c, (constructsOf classOf chain).reverse)) →
      ClassChain classOf (some c) chain → NewCalls classOf (es ++ [.made c]) none

/-- The thread is in front of the arrays of a class that was not initialized at the start. -/
structure Creates (s₀ : ClassSystem κ φ) (es : List (NewEvent κ φ)) (c : κ) : Prop where
  fresh : (s₀.classOf c).initialized = false
  calls : NewCalls s₀.classOf es (some (c, []))

/-- The thread calls the constructors, and the next one is at `p`. -/
structure Constructs (s₀ s : ClassSystem κ φ) (es : List (NewEvent κ φ)) (c : κ) (p : FnPtr)
    (done rest : List φ) (chain : List κ) : Prop where
  since : InitializedSince s₀ s c
  calls : NewCalls s₀.classOf es (some (c, done))
  isChain : ClassChain s₀.classOf (some c) chain
  list : (constructsOf s₀.classOf chain).reverse = done ++ rest
  arrays : s.HasArrays s₀.classOf c chain p.block
  off : p.off = done.length

/-- What a thread knows. -/
def ClassPc.Knows (s₀ s : ClassSystem κ φ) (es : List (NewEvent κ φ)) : ClassPc κ → Prop
  | .idle => NewCalls s₀.classOf es none
  | .newCheck c | .check c | .tryLock c | .spin c | .recheck c | .build c | .publish c _ | .save c _
  | .unlock c => Creates s₀ es c
  | .readArray c => Creates s₀ es c ∧ (s.classOf c).initialized = true
  | .construct c p => ∃ done rest chain, Constructs s₀ s es c p done rest chain

omit [DecidableEq κ] in
/-- The steps of the other threads. -/
lemma ClassPc.Knows.extends {log : List (NewEvent κ φ)} (h : pc.Knows s₀ s log) (hext : s.Extends s') :
    pc.Knows s₀ s' log := by
  cases pc with
  | readArray c => exact ⟨h.1, by rw [hext.classOf c h.2]; exact h.2⟩
  | construct c p =>
      obtain ⟨done, rest, chain, h⟩ := h
      exact ⟨done, rest, chain, hext.initializedSince h.since, h.calls, h.isChain, h.list,
        hext.hasArrays h.since.2 h.arrays, h.off⟩
  | _ => exact h

omit [DecidableEq κ] in
/-- The next constructor. -/
lemma Constructs.readCell {log : List (NewEvent κ φ)} {p : FnPtr} {done rest : List φ}
    (h : Constructs s₀ s log c p done rest chain) :
    s.readCell p = some (nextCell rest) := by
  have hp : p = ⟨p.block, done.length⟩ := by rw [← h.off]
  rw [hp, h.arrays.readCell h.list]

/-- **A step of the thread.** -/
lemma ClassPc.Moves.knows {log : List (NewEvent κ φ)} (h : pc.Moves s₀ fuel g es g' pc')
    (hinit : pc.HasLock → pc.Initializing s₀ fuel g) (hbuilt : AllBuilt s₀ g.sys)
    (hknows : pc.Knows s₀ g.sys log) : pc'.Knows s₀ g'.sys (log ++ es) := by
  cases h with
  | new c hc => exact ⟨hc, .new c hknows⟩
  | publish c array => exact ⟨hknows.fresh, .mark hknows.calls⟩
  | readArray c p hp =>
      obtain ⟨hcreates, hmarked⟩ := hknows
      obtain ⟨chain, b, hchain, harrays⟩ := hbuilt c ⟨hcreates.fresh, hmarked⟩
      obtain rfl := Option.some.inj (hp.symm.trans harrays.construct)
      rw [List.append_nil]
      exact ⟨[], _, chain, ⟨hcreates.fresh, hmarked⟩, hcreates.calls, hchain, rfl, harrays, rfl⟩
  | construct c p f hcell =>
      obtain ⟨done, rest, chain, hknows⟩ := hknows
      rw [hknows.readCell] at hcell
      cases rest with
      | nil => cases hcell
      | cons f' rest =>
          cases hcell
          refine ⟨done ++ [f], rest, chain, hknows.since, .construct hknows.calls hknows.isChain hknows.list,
            hknows.isChain, ?_, hknows.arrays, ?_⟩
          · rw [hknows.list, List.append_assoc, List.singleton_append]
          · rw [List.length_append, List.length_singleton, hknows.off]
  | made c p hcell =>
      obtain ⟨done, rest, chain, hknows⟩ := hknows
      rw [hknows.readCell] at hcell
      cases rest with
      | nil =>
          have hdone := hknows.list
          rw [List.append_nil] at hdone
          exact .made (hdone ▸ hknows.calls) hknows.isChain
      | cons f rest => cases hcell
  | wait c pc pc' hpc hpc' =>
      rw [List.append_nil]
      rcases hpc with rfl | rfl <;> rcases hpc' with rfl | rfl <;> exact hknows
  | newReady c hmarked =>
      rw [List.append_nil]
      exact ⟨hknows, hmarked⟩
  | ready c hmarked =>
      rw [List.append_nil]
      exact ⟨hknows, hmarked⟩
  | unlock c =>
      rw [List.append_nil]
      exact ⟨hknows, (hinit trivial).2⟩
  | _ =>
      rw [List.append_nil]
      exact hknows

/-! ### All interleavings -/

/-- The class that an event marks. -/
def initializedOf : τ × NewEvent κ φ → Option κ
  | (_, .mark c) => some c
  | _ => none

/-- Only the write to `cls_initialized` marks a class. -/
lemma ClassPc.Moves.initialized_iff (h : pc.Moves s₀ fuel g es g' pc')
    (hinit : pc.HasLock → pc.Initializing s₀ fuel g) (t : τ) (c : κ) :
    (g'.sys.classOf c).initialized = true ↔
      (g.sys.classOf c).initialized = true ∨ c ∈ (es.map (Prod.mk t)).filterMap initializedOf := by
  cases h with
  | publish c' array =>
      rw [publish_classOf]
      rcases eq_or_ne c c' with rfl | hne
      · rw [Function.update_self]
        exact iff_of_true rfl (Or.inr (List.mem_singleton_self c))
      · rw [Function.update_of_ne hne]
        refine ⟨Or.inl, fun h => h.resolve_right fun hmem => hne ?_⟩
        exact List.mem_singleton.mp hmem
  | build c' array sys hbuild =>
      rw [buildArrays_initialized hbuild]
      exact (or_iff_left List.not_mem_nil).symm
  | save c' array =>
      rw [(saveClass_classOf g.sys array).1]
      exact (or_iff_left List.not_mem_nil).symm
  | _ => exact (or_iff_left List.not_mem_nil).symm

/-- The class that is marked was not marked. -/
lemma ClassPc.Moves.fresh (h : pc.Moves s₀ fuel g es g' pc')
    (hinit : pc.HasLock → pc.Initializing s₀ fuel g) (t : τ) :
    ((es.map (Prod.mk t)).filterMap initializedOf).Nodup ∧
      ∀ c ∈ (es.map (Prod.mk t)).filterMap initializedOf, (g.sys.classOf c).initialized = false := by
  cases h with
  | publish c array =>
      obtain ⟨s, hs, hnot, hbuild⟩ := hinit trivial
      refine ⟨List.pairwise_singleton _ c, fun c' hc' => ?_⟩
      obtain rfl := List.mem_singleton.mp hc'
      exact (buildArrays_initialized hbuild c').trans hnot
  | _ => exact ⟨List.nodup_nil, fun c hc => absurd hc List.not_mem_nil⟩

/-- A thread in a call can go on. -/
lemma ClassPc.run_isSome {log : List (NewEvent κ φ)}
    (hchain : ∀ c, (s₀.classOf c).initialized = false →
      ∃ chain, ClassChain s₀.classOf (some c) chain ∧ chain.length ≤ fuel)
    (hinit : pc.HasLock → pc.Initializing s₀ fuel g) (hbuilt : AllBuilt s₀ g.sys)
    (hknows : pc.Knows s₀ g.sys log) (hpc : pc ≠ .idle) : (pc.run fuel g).isSome := by
  cases pc with
  | idle => exact absurd rfl hpc
  | build c =>
      obtain ⟨hs, hnot⟩ := hinit trivial
      obtain ⟨chain, hc, hfuel⟩ := hchain c hknows.fresh
      obtain ⟨s', -, hcall, -⟩ := classInitialize_spec hnot (hs.inv.same.classChain hc) hfuel
      rw [classInitialize_eq hnot] at hcall
      obtain ⟨r, hr, -⟩ := Option.map_eq_some_iff.mp hcall
      rw [ClassPc.run, hr]
      rfl
  | readArray c =>
      obtain ⟨chain, b, -, harrays⟩ := hbuilt c ⟨hknows.1.fresh, hknows.2⟩
      rw [ClassPc.run, harrays.construct]
      rfl
  | construct c p =>
      obtain ⟨done, rest, chain, hknows⟩ := hknows
      rw [ClassPc.run, hknows.readCell]
      cases rest <;> rfl
  | _ => rfl

/-- What the lock protects, in every run. -/
lemma Interleaving.Run.descriptors [DecidableEq τ] {pc : τ → ClassPc κ} {log : List (τ × NewEvent κ φ)}
    (h : Run (ClassStep s₀ fuel) ⟨s₀, false⟩ (fun _ => .idle) log g pc) :
    (g.classLock = false → ClassRun s₀ g.sys) ∧
      (∀ t, (pc t).HasLock → (pc t).Initializing s₀ fuel g) ∧ AllBuilt s₀ g.sys := by
  have hnone : ∀ _ : τ, ¬ (ClassPc.idle : ClassPc κ).HasLock := fun _ => ClassPc.not_hasLock_idle
  have hmutex := h.mutex (ClassStep.testAndSet s₀ fuel) Bool.false_ne_true hnone
  obtain ⟨hfree, hheld⟩ := h.protects (ClassStep.testAndSet s₀ fuel) Bool.false_ne_true hnone .start
    (ClassStep.protects s₀ fuel)
  refine ⟨fun hg => hfree (by rw [hg]; exact Bool.false_ne_true), hheld, ?_⟩
  by_cases hlocked : g.classLock = true
  · obtain ⟨t, ht⟩ := hmutex.locked_iff.mp hlocked
    exact (hheld t ht).allBuilt ht
  · exact (hfree hlocked).inv.built

/-- The classes that are marked, in every run. -/
lemma Interleaving.Run.initialized [DecidableEq τ] {pc : τ → ClassPc κ} {log : List (τ × NewEvent κ φ)}
    (h : Run (ClassStep s₀ fuel) ⟨s₀, false⟩ (fun _ => .idle) log g pc) :
    (log.filterMap initializedOf).Nodup ∧
      (∀ c, (g.sys.classOf c).initialized = true ↔
        (s₀.classOf c).initialized = true ∨ c ∈ log.filterMap initializedOf) ∧
      ∀ c ∈ log.filterMap initializedOf, (s₀.classOf c).initialized = false := by
  refine h.invariant (I := fun log g _ => (log.filterMap initializedOf).Nodup ∧
      (∀ c, (g.sys.classOf c).initialized = true ↔
        (s₀.classOf c).initialized = true ∨ c ∈ log.filterMap initializedOf) ∧
      ∀ c ∈ log.filterMap initializedOf, (s₀.classOf c).initialized = false) ?_ ?_
  · exact ⟨List.nodup_nil, fun c => (or_iff_left List.not_mem_nil).symm,
      fun c hc => absurd hc List.not_mem_nil⟩
  · intro log g l t es g' s hrun ih hs
    obtain ⟨hnodup, hiff, hsince⟩ := ih
    have hinit := hrun.descriptors.2.1 t
    obtain ⟨hnew, hfresh⟩ := hs.moves.fresh hinit t
    -- what was not marked is not among the classes that were marked
    have hnot : ∀ c, (g.sys.classOf c).initialized = false →
        (s₀.classOf c).initialized = false ∧ c ∉ log.filterMap initializedOf := fun c hc => by
      have hc' : ¬ (g.sys.classOf c).initialized = true := by
        rw [hc]
        exact Bool.false_ne_true
      rw [hiff c, not_or, Bool.not_eq_true] at hc'
      exact hc'
    rw [List.filterMap_append]
    refine ⟨List.nodup_append.mpr ⟨hnodup, hnew, fun a ha b hb hab => ?_⟩, fun c => ?_, fun c hc => ?_⟩
    · exact (hnot b (hfresh b hb)).2 (hab ▸ ha)
    · rw [hs.moves.initialized_iff hinit t c, hiff c, List.mem_append, or_assoc]
    · rcases List.mem_append.mp hc with hc | hc
      · exact hsince c hc
      · exact (hnot c (hfresh c hc)).1

/-- What the threads know, in every run. -/
lemma Interleaving.Run.knows [DecidableEq τ] {pc : τ → ClassPc κ} {log : List (τ × NewEvent κ φ)}
    (h : Run (ClassStep s₀ fuel) ⟨s₀, false⟩ (fun _ => .idle) log g pc) (t : τ) :
    (pc t).Knows s₀ g.sys (eventsOf t log) := by
  refine h.forall_thread (B := fun g pc es => pc.Knows s₀ g.sys es) (fun _ => .nil) ?_ ?_ t
  · intro log g l t es g' s hrun hs hknows
    obtain ⟨-, hinit, hbuilt⟩ := hrun.descriptors
    exact hs.moves.knows (hinit t) hbuilt hknows
  · intro log g l t es g' s u hrun hs hknows
    exact hknows.extends (hs.moves.extends (hrun.descriptors.2.1 t))

omit [DecidableEq κ] in
/-- The events of a thread that knows where it is. -/
lemma ClassPc.Knows.calls {log : List (NewEvent κ φ)} (h : pc.Knows s₀ s log) :
    ∃ call, NewCalls s₀.classOf log call := by
  cases pc with
  | idle => exact ⟨_, h⟩
  | readArray c => exact ⟨_, h.1.calls⟩
  | construct c p =>
      obtain ⟨done, rest, chain, h⟩ := h
      exact ⟨_, h.calls⟩
  | _ => exact ⟨_, Creates.calls h⟩

end Threads

end Ocoms
