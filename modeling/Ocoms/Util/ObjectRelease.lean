import Ocoms.Util.ClassThreads
import Mathlib.Data.BitVec

/-!
Reference counts: `OBJ_NEW`, `OBJ_RETAIN` and `OBJ_RELEASE` of `ocoms_object.h`, called by any number
of threads.

* `objUpdate` adds to the 32 bits of `obj_reference_count` with one atomic operation.
* `ReleaseFrame.run` is what follows in the thread that brings the count to 0: the destructors, one
  after the other, and `free`. A destructor may release other objects, so that a thread has a stack of
  them.
* `Lives` are the histories that an object should have, in which references are counted without a
  bound.
* `object_released_once` says that every object has such a history.
-/

namespace Ocoms

open Interleaving ClassSystem

/-- The objects, with `obj_class` and `obj_reference_count`, and the classes. `refs` is the number of
references that the program has to each of them. -/
structure ObjectMemory (κ φ : Type) where
  sys : ClassSystem κ φ
  obj : ℕ → Option (κ × BitVec 32)
  refs : ℕ → ℕ

/-- What happens to an object. -/
inductive ObjectEvent (κ φ : Type)
  | new (c : κ)
  | retain
  | release
  | destruct (f : φ)
  | free

/-- A release that is under way: the count has been brought to 0, or the next destructor is at `p`. -/
inductive ReleaseFrame
  | array (o : ℕ)
  | call (o : ℕ) (p : FnPtr)

/-- The object that is released. -/
def ReleaseFrame.obj : ReleaseFrame → ℕ
  | .array o | .call o _ => o

section Release

variable {κ φ : Type}

/-- The cell of an object is written. -/
def ObjectMemory.setObj (g : ObjectMemory κ φ) (o : ℕ) (x : Option (κ × BitVec 32)) : ObjectMemory κ φ :=
  { g with obj := Function.update g.obj o x }

/-- The program has so many references to an object. -/
def ObjectMemory.setRefs (g : ObjectMemory κ φ) (o n : ℕ) : ObjectMemory κ φ :=
  { g with refs := Function.update g.refs o n }

/-- `ocoms_obj_update`. `none` is the use of an object that was freed. -/
def objUpdate (g : ObjectMemory κ φ) (o : ℕ) (inc : BitVec 32) : Option (BitVec 32 × ObjectMemory κ φ) :=
  (g.obj o).map fun x => (x.2 + inc, g.setObj o (some (x.1, x.2 + inc)))

/-- The next step of the release on top of the stack. `none` is the use of an object that was freed, of
a null pointer, or of a cell that was not written. -/
def ReleaseFrame.run (g : ObjectMemory κ φ) :
    ReleaseFrame → Option (ObjectMemory κ φ × List ReleaseFrame × ℕ × List (ObjectEvent κ φ))
  | .array o => do
      let (c, _) ← g.obj o
      let p ← g.sys.arrayOf c .destruct
      return (g, [.call o p], o, [])
  | .call o p =>
      match g.sys.readCell p with
      | some (.fn f) => some (g, [.call o ⟨p.block, p.off + 1⟩], o, [.destruct f])
      | some .null => (g.obj o).map fun _ => (g.setObj o none, [], o, [.free])
      | _ => none

/-- A thread initializes a class, creates an object, retains or releases one that the program has a
reference to, or goes on with its last release. The references to an object are fewer than its count
can hold. -/
inductive ReleaseStep {τ : Type*} [DecidableEq κ] (s₀ : ClassSystem κ φ) (t : τ) (g : ObjectMemory κ φ) :
    List ReleaseFrame → List (ℕ × ObjectEvent κ φ) → ObjectMemory κ φ → List ReleaseFrame → Prop
  | classInit {stack : List ReleaseFrame} {sys : ClassSystem κ φ} (c : κ) (fuel : ℕ) :
      g.sys.classInitialize c fuel = some sys → ReleaseStep s₀ t g stack [] { g with sys } stack
  | new {stack : List ReleaseFrame} (o : ℕ) (c : κ) : InitializedSince s₀ g.sys c → g.obj o = none →
      ReleaseStep s₀ t g stack [(o, .new c)] ((g.setObj o (some (c, 1))).setRefs o 1) stack
  | retain {stack : List ReleaseFrame} {g' : ObjectMemory κ φ} {count : BitVec 32} (o : ℕ) :
      0 < g.refs o → g.refs o + 1 < 2 ^ 32 → objUpdate g o 1 = some (count, g') →
      ReleaseStep s₀ t g stack [(o, .retain)] (g'.setRefs o (g.refs o + 1)) stack
  | release {stack : List ReleaseFrame} {g' : ObjectMemory κ φ} {count : BitVec 32} (o : ℕ) :
      0 < g.refs o → objUpdate g o (-1) = some (count, g') →
      ReleaseStep s₀ t g stack [(o, .release)] (g'.setRefs o (g.refs o - 1))
        (if count = 0 then .array o :: stack else stack)
  | run {stack frames : List ReleaseFrame} {frame : ReleaseFrame} {g' : ObjectMemory κ φ} {o : ℕ}
      {es : List (ObjectEvent κ φ)} : frame.run g = some (g', frames, o, es) →
      ReleaseStep s₀ t g (frame :: stack) (es.map (Prod.mk o)) g' (frames ++ stack)

/-! ### What should happen to an object -/

/-- An object: it is not allocated, it has references, or a thread destructs it and has some destructors
left. -/
inductive Lifetime (τ : Type*) (κ φ : Type)
  | absent
  | live (c : κ) (refs : ℕ)
  | dying (t : τ) (c : κ) (left : List φ)

/-- **The histories of an object**: the thread that gives up its last reference calls the destructors of
the class chain, from the class up to the root class, and frees it. -/
inductive Lives {τ : Type*} (classOf : κ → ClassDesc κ φ) :
    List (τ × ObjectEvent κ φ) → Lifetime τ κ φ → Prop
  | nil : Lives classOf [] .absent
  | new {es : List (τ × ObjectEvent κ φ)} (t : τ) (c : κ) : Lives classOf es .absent →
      Lives classOf (es ++ [(t, .new c)]) (.live c 1)
  | retain {es : List (τ × ObjectEvent κ φ)} (t : τ) {c : κ} {n : ℕ} : Lives classOf es (.live c (n + 1)) →
      Lives classOf (es ++ [(t, .retain)]) (.live c (n + 2))
  | release {es : List (τ × ObjectEvent κ φ)} (t : τ) {c : κ} {n : ℕ} :
      Lives classOf es (.live c (n + 2)) → Lives classOf (es ++ [(t, .release)]) (.live c (n + 1))
  | last {es : List (τ × ObjectEvent κ φ)} (t : τ) {c : κ} {chain : List κ} :
      Lives classOf es (.live c 1) → ClassChain classOf (some c) chain →
      Lives classOf (es ++ [(t, .release)]) (.dying t c (destructsOf classOf chain))
  | destruct {es : List (τ × ObjectEvent κ φ)} {t : τ} {c : κ} {f : φ} {left : List φ} :
      Lives classOf es (.dying t c (f :: left)) →
      Lives classOf (es ++ [(t, .destruct f)]) (.dying t c left)
  | free {es : List (τ × ObjectEvent κ φ)} {t : τ} {c : κ} : Lives classOf es (.dying t c []) →
      Lives classOf (es ++ [(t, .free)]) .absent

/-- The events of an object. -/
def historyOf {τ : Type*} (o : ℕ) (log : List (τ × ℕ × ObjectEvent κ φ)) : List (τ × ObjectEvent κ φ) :=
  log.filterMap fun e => if e.2.1 = o then some (e.1, e.2.2) else none

variable {τ : Type*} {o o' : ℕ} {t u : τ}

lemma historyOf_append (o : ℕ) (log log' : List (τ × ℕ × ObjectEvent κ φ)) :
    historyOf o (log ++ log') = historyOf o log ++ historyOf o log' := List.filterMap_append

lemma historyOf_append_self (o : ℕ) (t : τ) (log : List (τ × ℕ × ObjectEvent κ φ))
    (es : List (ObjectEvent κ φ)) :
    historyOf o (log ++ (es.map (Prod.mk o)).map (Prod.mk t)) = historyOf o log ++ es.map (Prod.mk t) := by
  rw [historyOf_append, List.append_cancel_left_eq]
  induction es with
  | nil => rfl
  | cons e es ih =>
      rw [List.map_cons, List.map_cons, List.map_cons, ← ih]
      exact List.filterMap_cons_some (if_pos rfl)

lemma historyOf_append_other (h : o ≠ o') (t : τ) (log : List (τ × ℕ × ObjectEvent κ φ))
    (es : List (ObjectEvent κ φ)) :
    historyOf o (log ++ (es.map (Prod.mk o')).map (Prod.mk t)) = historyOf o log := by
  have hnone : historyOf o ((es.map (Prod.mk o')).map (Prod.mk t)) = [] := by
    rw [historyOf, List.filterMap_eq_nil_iff]
    intro e he
    obtain ⟨e', he', rfl⟩ := List.mem_map.mp he
    obtain ⟨e'', -, rfl⟩ := List.mem_map.mp he'
    exact if_neg (Ne.symm h)
  rw [historyOf_append, hnone, List.append_nil]

/-! ### The stacks of the threads -/

/-- Where a release is: the destructors that are left are those of the array at `p`. -/
def ReleaseFrame.Points (s₀ s : ClassSystem κ φ) (c : κ) (left : List φ) : ReleaseFrame → Prop
  | .array _ => ∃ chain, ClassChain s₀.classOf (some c) chain ∧ left = destructsOf s₀.classOf chain
  | .call _ p => ∃ chain done, s.HasArrays s₀.classOf c chain p.block ∧
      destructsOf s₀.classOf chain = done ++ left ∧
      p.off = (constructsOf s₀.classOf chain).length + 1 + done.length

/-- What the memory has of an object. -/
def Lifetime.Stored (s₀ : ClassSystem κ φ) (g : ObjectMemory κ φ) (l : τ → List ReleaseFrame) (o : ℕ) :
    Lifetime τ κ φ → Prop
  | .absent => g.obj o = none ∧ g.refs o = 0
  | .live c n => g.obj o = some (c, BitVec.ofNat 32 n) ∧ g.refs o = n ∧ 0 < n ∧ n < 2 ^ 32 ∧
      InitializedSince s₀ g.sys c
  | .dying t c _ => (∃ count, g.obj o = some (c, count)) ∧ g.refs o = 0 ∧ InitializedSince s₀ g.sys c ∧
      ∃ frame ∈ l t, frame.obj = o

/-- **The invariant**: each object is where its history says, and the stacks have one frame for each
object that is destructed. -/
structure ReleaseInv (s₀ : ClassSystem κ φ) (log : List (τ × ℕ × ObjectEvent κ φ)) (g : ObjectMemory κ φ)
    (l : τ → List ReleaseFrame) (st : ℕ → Lifetime τ κ φ) : Prop where
  lives : ∀ o, Lives s₀.classOf (historyOf o log) (st o)
  stored : ∀ o, (st o).Stored s₀ g l o
  frames : ∀ t, ∀ frame ∈ l t, ∃ c left, st frame.obj = .dying t c left ∧ frame.Points s₀ g.sys c left
  nodup : ∀ t, ((l t).map ReleaseFrame.obj).Nodup

variable {s₀ s s' : ClassSystem κ φ} {g g' : ObjectMemory κ φ} {l : τ → List ReleaseFrame}
  {log : List (τ × ℕ × ObjectEvent κ φ)} {st : ℕ → Lifetime τ κ φ} {stack : List ReleaseFrame}
  {frame : ReleaseFrame} {x : Lifetime τ κ φ} {c : κ} {left : List φ} {es : List (ObjectEvent κ φ)}

/-- Another thread has a release of the same object. -/
lemma ReleaseInv.frame_unique (h : ReleaseInv s₀ log g l st) (hx : st o = .dying t c left) (hne : u ≠ t)
    (hframe : frame ∈ l u) : frame.obj ≠ o := by
  rintro rfl
  obtain ⟨c', left', hdying, -⟩ := h.frames u frame hframe
  have heq := hx.symm.trans hdying
  injection heq with htu
  exact hne htu.symm

/-- No thread releases an object that has references. -/
lemma ReleaseInv.no_frame (h : ReleaseInv s₀ log g l st) (hx : ∀ t c left, st o ≠ .dying t c left)
    (hframe : frame ∈ l u) : frame.obj ≠ o := by
  rintro rfl
  obtain ⟨c', left', hdying, -⟩ := h.frames u frame hframe
  exact hx u c' left' hdying

/-- The object is stored in the same way, whatever happens to others. -/
lemma Lifetime.Stored.mono {l' : τ → List ReleaseFrame} (h : x.Stored s₀ g l o) (hsys : g'.sys = g.sys)
    (hobj : g'.obj o = g.obj o) (hrefs : g'.refs o = g.refs o)
    (hl : ∀ t, ∀ frame ∈ l t, frame.obj = o → frame ∈ l' t) : x.Stored s₀ g' l' o := by
  cases x with
  | absent => exact ⟨hobj.trans h.1, hrefs.trans h.2⟩
  | live c n => exact ⟨hobj.trans h.1, hrefs.trans h.2.1, h.2.2.1, h.2.2.2.1, hsys ▸ h.2.2.2.2⟩
  | dying t c left =>
      obtain ⟨⟨count, hcount⟩, hzero, hsince, frame, hframe, rfl⟩ := h
      exact ⟨⟨count, hobj.trans hcount⟩, hrefs.trans hzero, hsys ▸ hsince, frame, hl t frame hframe rfl, rfl⟩

/-- **A step that is about one object** keeps the others. -/
lemma ReleaseInv.update [DecidableEq τ] (h : ReleaseInv s₀ log g l st) (es : List (ObjectEvent κ φ))
    (hsys : g'.sys = g.sys)
    (hobj : ∀ o', o' ≠ o → g'.obj o' = g.obj o') (hrefs : ∀ o', o' ≠ o → g'.refs o' = g.refs o')
    (hlives : Lives s₀.classOf (historyOf o log ++ es.map (Prod.mk t)) x)
    (hstored : x.Stored s₀ g' (Function.update l t stack) o)
    (hother : ∀ u, u ≠ t → ∀ frame ∈ l u, frame.obj ≠ o)
    (hsame : ∀ frame, frame.obj ≠ o → (frame ∈ stack ↔ frame ∈ l t))
    (hown : ∀ frame ∈ stack, frame.obj = o →
      ∃ c left, x = .dying t c left ∧ frame.Points s₀ g.sys c left)
    (hnodup : (stack.map ReleaseFrame.obj).Nodup) :
    ReleaseInv s₀ (log ++ (es.map (Prod.mk o)).map (Prod.mk t)) g' (Function.update l t stack)
      (Function.update st o x) where
  lives o' := by
    rcases eq_or_ne o' o with rfl | hne
    · rw [historyOf_append_self, Function.update_self]
      exact hlives
    · rw [historyOf_append_other hne, Function.update_of_ne hne]
      exact h.lives o'
  stored o' := by
    rcases eq_or_ne o' o with rfl | hne
    · rw [Function.update_self]
      exact hstored
    · rw [Function.update_of_ne hne]
      refine (h.stored o').mono hsys (hobj o' hne) (hrefs o' hne) fun u frame hframe ho => ?_
      rcases eq_or_ne u t with rfl | hut
      · rw [Function.update_self]
        exact (hsame frame (by rw [ho]; exact hne)).mpr hframe
      · rw [Function.update_of_ne hut]
        exact hframe
  frames u frame hframe := by
    rw [hsys]
    rcases eq_or_ne u t with rfl | hut
    · rw [Function.update_self] at hframe
      by_cases ho : frame.obj = o
      · rw [ho, Function.update_self]
        exact hown frame hframe ho
      · rw [Function.update_of_ne ho]
        exact h.frames u frame ((hsame frame ho).mp hframe)
    · rw [Function.update_of_ne hut] at hframe
      rw [Function.update_of_ne (hother u hut frame hframe)]
      exact h.frames u frame hframe
  nodup u := by
    rcases eq_or_ne u t with rfl | hut
    · rw [Function.update_self]
      exact hnodup
    · rw [Function.update_of_ne hut]
      exact h.nodup u

/-- A step that is about an object that no thread destructs. -/
lemma ReleaseInv.keep [DecidableEq τ] (h : ReleaseInv s₀ log g l st) (es : List (ObjectEvent κ φ))
    (hx : ∀ t c left, st o ≠ .dying t c left) (hsys : g'.sys = g.sys)
    (hobj : ∀ o', o' ≠ o → g'.obj o' = g.obj o') (hrefs : ∀ o', o' ≠ o → g'.refs o' = g.refs o')
    (hlives : Lives s₀.classOf (historyOf o log ++ es.map (Prod.mk t)) x)
    (hstored : x.Stored s₀ g' l o) :
    ReleaseInv s₀ (log ++ (es.map (Prod.mk o)).map (Prod.mk t)) g' (Function.update l t (l t))
      (Function.update st o x) := by
  refine h.update es hsys hobj hrefs hlives ?_ (fun u _ frame hframe => h.no_frame hx hframe)
    (fun _ _ => Iff.rfl) (fun frame hframe ho => absurd ho (h.no_frame hx hframe)) (h.nodup t)
  rw [Function.update_eq_self]
  exact hstored

/-! ### The count -/

lemma objUpdate_eq {count : BitVec 32} (h : g.obj o = some (c, count)) (inc : BitVec 32) :
    objUpdate g o inc = some (count + inc, g.setObj o (some (c, count + inc))) := by
  rw [objUpdate, h]
  rfl

/-- One reference fewer. -/
lemma ofNat_succ_sub (n : ℕ) : BitVec.ofNat 32 (n + 1) + -1 = BitVec.ofNat 32 n := by
  rw [BitVec.ofNat_add, add_assoc]
  exact add_zero _

/-- The count of fewer references than it can hold is 0 if there are none. -/
lemma ofNat_eq_zero_iff {n : ℕ} (h : n < 2 ^ 32) : BitVec.ofNat 32 n = 0 ↔ n = 0 := by
  rw [← BitVec.toNat_inj, BitVec.toNat_ofNat, Nat.mod_eq_of_lt h]
  rfl

@[simp] lemma ObjectMemory.setObj_obj (g : ObjectMemory κ φ) (y : Option (κ × BitVec 32)) :
    (g.setObj o y).obj = Function.update g.obj o y := rfl

@[simp] lemma ObjectMemory.setObj_refs (g : ObjectMemory κ φ) (y : Option (κ × BitVec 32)) :
    (g.setObj o y).refs = g.refs := rfl

@[simp] lemma ObjectMemory.setRefs_obj (g : ObjectMemory κ φ) (n : ℕ) : (g.setRefs o n).obj = g.obj := rfl

@[simp] lemma ObjectMemory.setRefs_refs (g : ObjectMemory κ φ) (n : ℕ) :
    (g.setRefs o n).refs = Function.update g.refs o n := rfl

/-- What the object that a step is about has afterwards. -/
lemma ObjectMemory.set_self (g : ObjectMemory κ φ) (o n : ℕ) (y : Option (κ × BitVec 32)) :
    ((g.setObj o y).setRefs o n).obj o = y ∧ ((g.setObj o y).setRefs o n).refs o = n :=
  ⟨Function.update_self .., Function.update_self ..⟩

/-- The others have what they had. -/
lemma ObjectMemory.set_other (g : ObjectMemory κ φ) (n : ℕ) (y : Option (κ × BitVec 32)) (h : o' ≠ o) :
    ((g.setObj o y).setRefs o n).obj o' = g.obj o' ∧ ((g.setObj o y).setRefs o n).refs o' = g.refs o' :=
  ⟨Function.update_of_ne h .., Function.update_of_ne h ..⟩

/-- An object that the program has a reference to. -/
lemma ReleaseInv.live (h : ReleaseInv s₀ log g l st) (hrefs : 0 < g.refs o) :
    ∃ c n, st o = .live c (n + 1) ∧ g.refs o = n + 1 ∧ g.obj o = some (c, BitVec.ofNat 32 (n + 1)) ∧
      n + 1 < 2 ^ 32 ∧ InitializedSince s₀ g.sys c := by
  have hstored := h.stored o
  cases hx : st o with
  | absent =>
      rw [hx] at hstored
      exact absurd hstored.2 (Nat.ne_of_gt hrefs)
  | live c n =>
      rw [hx] at hstored
      obtain ⟨hobj, hn, hpos, hlt, hsince⟩ := hstored
      obtain ⟨m, rfl⟩ : ∃ m, n = m + 1 := ⟨n - 1, by omega⟩
      exact ⟨c, m, rfl, hn, hobj, hlt, hsince⟩
  | dying t c left =>
      rw [hx] at hstored
      exact absurd hstored.2.1 (Nat.ne_of_gt hrefs)

/-! ### The steps -/

section Steps

variable [DecidableEq τ]

/-- `ocoms_obj_new`. -/
lemma ReleaseInv.new (h : ReleaseInv s₀ log g l st) (hsince : InitializedSince s₀ g.sys c)
    (hobj : g.obj o = none) :
    ∃ st', ReleaseInv s₀ (log ++ [(t, o, .new c)]) ((g.setObj o (some (c, 1))).setRefs o 1)
      (Function.update l t (l t)) st' := by
  have habsent : st o = .absent := by
    have hstored := h.stored o
    cases hx : st o with
    | absent => rfl
    | live c n =>
        rw [hx] at hstored
        cases hobj.symm.trans hstored.1
    | dying t c left =>
        rw [hx] at hstored
        obtain ⟨count, hcount⟩ := hstored.1
        cases hobj.symm.trans hcount
  obtain ⟨hself, hself'⟩ := g.set_self o 1 (some (c, 1))
  have hlives : Lives s₀.classOf (historyOf o log ++ [.new c].map (Prod.mk t)) (.live c 1) :=
    .new t c (habsent ▸ h.lives o)
  refine ⟨_, h.keep [.new c] (fun t c left hx => ?_) rfl (fun o' ho => (g.set_other 1 _ ho).1)
    (fun o' ho => (g.set_other 1 _ ho).2) hlives ⟨hself, hself', Nat.one_pos, by decide, hsince⟩⟩
  cases habsent.symm.trans hx

/-- `OBJ_RETAIN`. -/
lemma ReleaseInv.retain (h : ReleaseInv s₀ log g l st) (hrefs : 0 < g.refs o)
    (hbound : g.refs o + 1 < 2 ^ 32) {count : BitVec 32} (hupdate : objUpdate g o 1 = some (count, g')) :
    ∃ st', ReleaseInv s₀ (log ++ [(t, o, .retain)]) (g'.setRefs o (g.refs o + 1))
      (Function.update l t (l t)) st' := by
  obtain ⟨c, n, hx, hn, hobj, -, hsince⟩ := h.live hrefs
  rw [objUpdate_eq hobj] at hupdate
  obtain ⟨-, rfl⟩ := Prod.mk.inj (Option.some.inj hupdate)
  rw [hn] at hbound ⊢
  obtain ⟨hself, hself'⟩ := g.set_self o (n + 1 + 1) (some (c, BitVec.ofNat 32 (n + 1) + 1))
  have hlives : Lives s₀.classOf (historyOf o log ++ [.retain].map (Prod.mk t)) (.live c (n + 2)) :=
    .retain t (hx ▸ h.lives o)
  refine ⟨_, h.keep [.retain] (fun t c left hdying => ?_) rfl (fun o' ho => (g.set_other _ _ ho).1)
    (fun o' ho => (g.set_other _ _ ho).2) hlives ⟨hself.trans ?_, hself', Nat.succ_pos _, hbound, hsince⟩⟩
  · cases hx.symm.trans hdying
  · rw [BitVec.ofNat_add (n + 1) 1]
    rfl

/-- `OBJ_RELEASE`, as far as the decision on the count. -/
lemma ReleaseInv.release [DecidableEq κ] (h : ReleaseInv s₀ log g l st) (hinv : ClassInv s₀ g.sys)
    (hrefs : 0 < g.refs o) {count : BitVec 32} (hupdate : objUpdate g o (-1) = some (count, g')) :
    ∃ st', ReleaseInv s₀ (log ++ [(t, o, .release)]) (g'.setRefs o (g.refs o - 1))
      (Function.update l t (if count = 0 then .array o :: l t else l t)) st' := by
  obtain ⟨c, n, hx, hn, hobj, hlt, hsince⟩ := h.live hrefs
  rw [objUpdate_eq hobj, ofNat_succ_sub] at hupdate
  obtain ⟨rfl, rfl⟩ := Prod.mk.inj (Option.some.inj hupdate)
  have hnot : ∀ t c left, st o ≠ .dying t c left := fun t c left hdying => by
    cases hx.symm.trans hdying
  have hlives := h.lives o
  rw [hx] at hlives
  rw [hn, Nat.add_sub_cancel]
  obtain ⟨hself, hself'⟩ := g.set_self o n (some (c, BitVec.ofNat 32 n))
  cases n with
  | zero =>
      obtain ⟨chain, b, hchain, -⟩ := hinv.built c hsince
      rw [if_pos (show BitVec.ofNat 32 0 = 0 from rfl)]
      have hlast : Lives s₀.classOf (historyOf o log ++ [.release].map (Prod.mk t))
          (.dying t c (destructsOf s₀.classOf chain)) := .last t hlives hchain
      refine ⟨_, h.update [.release] rfl (fun o' ho => (g.set_other _ _ ho).1)
        (fun o' ho => (g.set_other _ _ ho).2) hlast ⟨⟨_, hself⟩, hself', hsince, .array o, ?_, rfl⟩
        (fun u _ frame hframe => h.no_frame hnot hframe) (fun frame ho => ?_)
        (fun frame hframe ho => ⟨c, _, rfl, ?_⟩) ?_⟩
      · rw [Function.update_self]
        exact List.mem_cons_self
      · rw [List.mem_cons]
        refine or_iff_right fun heq => ho ?_
        rw [heq]
        rfl
      · rcases List.mem_cons.mp hframe with rfl | hframe
        · exact ⟨chain, hchain, rfl⟩
        · exact absurd ho (h.no_frame hnot hframe)
      · rw [List.map_cons, List.nodup_cons]
        refine ⟨fun hmem => ?_, h.nodup t⟩
        obtain ⟨frame, hframe, ho⟩ := List.mem_map.mp hmem
        exact h.no_frame hnot hframe ho
  | succ n =>
      have hpos : BitVec.ofNat 32 (n + 1) ≠ 0 := fun heq =>
        Nat.succ_ne_zero n ((ofNat_eq_zero_iff (by omega)).mp heq)
      rw [if_neg hpos]
      have hleft : Lives s₀.classOf (historyOf o log ++ [.release].map (Prod.mk t)) (.live c (n + 1)) :=
        .release t hlives
      exact ⟨_, h.keep [.release] hnot rfl (fun o' ho => (g.set_other _ _ ho).1)
        (fun o' ho => (g.set_other _ _ ho).2) hleft ⟨hself, hself', Nat.succ_pos n, by omega, hsince⟩⟩

omit [DecidableEq τ] in
/-- The array of the destructors, behind the ones that were called. -/
lemma ReleaseFrame.readCell {chain : List κ} {p : FnPtr} {done : List φ}
    (harrays : s.HasArrays s₀.classOf c chain p.block)
    (hlist : destructsOf s₀.classOf chain = done ++ left)
    (hoff : p.off = (constructsOf s₀.classOf chain).length + 1 + done.length) :
    s.readCell p = some (nextCell left) := by
  have hlen : ((constructsOf s₀.classOf chain).reverse.map FnCell.fn).length
      = (constructsOf s₀.classOf chain).length := by
    rw [List.length_map, List.length_reverse]
  have hcell : p.off = ((constructsOf s₀.classOf chain).reverse.map FnCell.fn).length
      + (done.length + 1) := by
    rw [hlen, hoff]
    omega
  rw [ClassSystem.readCell, harrays.block, Option.bind_eq_bind, Option.bind_some, arraysBlock, hcell,
    List.getElem?_append_right (Nat.le_add_right _ _), Nat.add_sub_cancel_left, List.getElem?_cons_succ,
    hlist, List.map_append, List.append_assoc, List.getElem?_append_right (by rw [List.length_map]),
    List.length_map, Nat.sub_self, ← List.head?_eq_getElem?]
  cases left <;> rfl

/-- **A destructor is called, or the object is freed.** -/
lemma ReleaseInv.run [DecidableEq κ] (h : ReleaseInv s₀ log g l st) (hinv : ClassInv s₀ g.sys)
    {frames : List ReleaseFrame} (hl : l t = frame :: stack) (hrun : frame.run g = some (g', frames, o, es)) :
    ∃ st', ReleaseInv s₀ (log ++ (es.map (Prod.mk o)).map (Prod.mk t)) g'
      (Function.update l t (frames ++ stack)) st' := by
  obtain ⟨c, left, hx, hpoints⟩ := h.frames t frame (by rw [hl]; exact List.mem_cons_self)
  obtain ⟨⟨count, hobj⟩, hzero, hsince, -⟩ := hx ▸ h.stored frame.obj
  have hlives := h.lives frame.obj
  rw [hx] at hlives
  have hnodup := h.nodup t
  rw [hl, List.map_cons, List.nodup_cons] at hnodup
  have hstack : ∀ f ∈ stack, f.obj ≠ frame.obj := fun f hf ho =>
    hnodup.1 (List.mem_map.mpr ⟨f, hf, ho⟩)
  have hother : ∀ u, u ≠ t → ∀ f ∈ l u, f.obj ≠ frame.obj := fun u hu f hf => h.frame_unique hx hu hf
  -- the frame is replaced by one of the same object
  have hnext : ∀ (frame' : ReleaseFrame) (left' : List φ), frame'.obj = frame.obj →
      Lives s₀.classOf (historyOf frame.obj log ++ es.map (Prod.mk t)) (.dying t c left') →
      frame'.Points s₀ g.sys c left' →
      ∃ st', ReleaseInv s₀ (log ++ (es.map (Prod.mk frame.obj)).map (Prod.mk t)) g
        (Function.update l t (frame' :: stack)) st' := by
    intro frame' left' hsame hlives' hpoints'
    refine ⟨_, h.update es (x := .dying t c left') rfl (fun _ _ => rfl) (fun _ _ => rfl) hlives'
      ⟨⟨count, hobj⟩, hzero, hsince, frame', ?_, hsame⟩ hother (fun f hf => ?_)
      (fun f hf ho => ⟨c, left', rfl, ?_⟩) ?_⟩
    · rw [Function.update_self]
      exact List.mem_cons_self
    · rw [hl, List.mem_cons, List.mem_cons]
      refine or_congr (iff_of_false ?_ ?_) Iff.rfl
      · rintro rfl
        exact hf hsame
      · rintro rfl
        exact hf rfl
    · rcases List.mem_cons.mp hf with rfl | hf
      · exact hpoints'
      · exact absurd ho (hstack f hf)
    · rw [List.map_cons, List.nodup_cons, hsame]
      exact hnodup
  cases frame with
  | array o' =>
      obtain ⟨chain, hchain, hleft⟩ := hpoints
      obtain ⟨chain', b, hchain', harrays⟩ := hinv.built c hsince
      obtain rfl := chain_unique hchain hchain'
      have hrun' : ReleaseFrame.run g (.array o')
          = some (g, [.call o' ⟨b, (constructsOf s₀.classOf chain).length + 1⟩], o', []) := by
        rw [ReleaseFrame.run, show g.obj o' = _ from hobj, Option.bind_eq_bind, Option.bind_some]
        dsimp only
        rw [harrays.destruct]
        rfl
      obtain ⟨rfl, rfl, rfl, rfl⟩ := by simpa using hrun'.symm.trans hrun
      refine hnext (.call o' _) left rfl ?_ ⟨chain, [], harrays, hleft.symm, rfl⟩
      rw [List.map_nil, List.append_nil]
      exact hlives
  | call o' p =>
      obtain ⟨chain, done, harrays, hlist, hoff⟩ := hpoints
      have hcell := ReleaseFrame.readCell harrays hlist hoff
      rw [ReleaseFrame.run, hcell] at hrun
      cases left with
      | cons f left =>
          obtain ⟨rfl, rfl, rfl, rfl⟩ := by simpa [nextCell] using hrun
          refine hnext (.call o' _) left rfl (.destruct hlives)
            ⟨chain, done ++ [f], harrays, by rw [hlist, List.append_assoc, List.singleton_append], ?_⟩
          rw [hoff, List.length_append, List.length_singleton, Nat.add_assoc]
      | nil =>
          rw [show g.obj o' = _ from hobj] at hrun
          obtain ⟨rfl, rfl, rfl, rfl⟩ := by simpa [nextCell] using hrun
          refine ⟨_, h.update _ (x := .absent) rfl (fun o hne => Function.update_of_ne hne ..)
            (fun _ _ => rfl) (.free hlives) ⟨Function.update_self .., hzero⟩ hother (fun f hf => ?_)
            (fun f hf ho => absurd ho (hstack f hf)) hnodup.2⟩
          rw [hl, List.mem_cons]
          refine (or_iff_right fun heq => hf ?_).symm
          rw [heq]
          rfl

end Steps

/-! ### All interleavings -/

variable [DecidableEq κ]

/-- A call leaves the arrays of the other classes. -/
lemma ClassSystem.ClassInv.call_extends (hinv : ClassInv s₀ s) {fuel : ℕ}
    (hcall : s.classInitialize c fuel = some s') : s.Extends s' := by
  by_cases hinit : (s.classOf c).initialized = true
  · rw [classInitialize, if_pos hinit] at hcall
    exact Option.some.inj hcall ▸ .refl s
  · have hnot := Bool.eq_false_of_not_eq_true hinit
    rw [classInitialize_eq hnot] at hcall
    obtain ⟨⟨array, sys⟩, hbuild, rfl⟩ := Option.map_eq_some_iff.mp hcall
    obtain ⟨⟨hclassOf, blocks, hblocks⟩, -⟩ := buildArrays_spec hinv hnot hbuild
    obtain ⟨hsaved, hsaved'⟩ := saveClass_classOf (sys.publish c) array
    refine ⟨fun c' hc' => ?_, blocks, hsaved'.trans hblocks⟩
    have hne : c' ≠ c := by
      rintro rfl
      exact hinit hc'
    rw [hsaved, publish_classOf, Function.update_of_ne hne]
    exact hclassOf c' hc'

/-- Classes may be initialized meanwhile. -/
lemma ReleaseInv.classInit [DecidableEq τ] (h : ReleaseInv s₀ log g l st) (hinv : ClassInv s₀ g.sys)
    {fuel : ℕ} {sys : ClassSystem κ φ} (hcall : g.sys.classInitialize c fuel = some sys) :
    ReleaseInv s₀ log { g with sys } l st := by
  have hext := hinv.call_extends hcall
  refine ⟨h.lives, fun o => ?_, fun t frame hframe => ?_, h.nodup⟩
  · have hstored := h.stored o
    cases hx : st o with
    | absent =>
        rw [hx] at hstored
        exact hstored
    | live c n =>
        rw [hx] at hstored
        obtain ⟨hobj, hn, hpos, hlt, hsince⟩ := hstored
        exact ⟨hobj, hn, hpos, hlt, hext.initializedSince hsince⟩
    | dying t c left =>
        rw [hx] at hstored
        obtain ⟨hobj, hzero, hsince, hframe⟩ := hstored
        exact ⟨hobj, hzero, hext.initializedSince hsince, hframe⟩
  · obtain ⟨c, left, hx, hpoints⟩ := h.frames t frame hframe
    have hsince := (hx ▸ h.stored frame.obj : (Lifetime.dying t c left).Stored s₀ g l frame.obj).2.2.1
    refine ⟨c, left, hx, ?_⟩
    cases frame with
    | array o => exact hpoints
    | call o p =>
        obtain ⟨chain, done, harrays, hrest⟩ := hpoints
        exact ⟨chain, done, hext.hasArrays hsince.2 harrays, hrest⟩

omit [DecidableEq κ] in
/-- A release does not change the classes. -/
lemma ReleaseFrame.run_sys {frames : List ReleaseFrame} (h : frame.run g = some (g', frames, o, es)) :
    g'.sys = g.sys := by
  cases frame with
  | array o' =>
      obtain ⟨x, -, h⟩ := Option.bind_eq_some_iff.mp h
      obtain ⟨p, -, h⟩ := Option.bind_eq_some_iff.mp h
      rw [← (Prod.mk.inj (Option.some.inj h)).1]
  | call o' p =>
      rw [ReleaseFrame.run] at h
      split at h
      · rw [← (Prod.mk.inj (Option.some.inj h)).1]
      · obtain ⟨x, -, h⟩ := Option.map_eq_some_iff.mp h
        rw [← (Prod.mk.inj h).1]
        rfl
      · cases h

omit [DecidableEq κ] in
/-- A release that is under way can go on. -/
lemma ReleaseInv.run_isSome (h : ReleaseInv s₀ log g l st) (hinv : ClassInv s₀ g.sys)
    (hframe : frame ∈ l t) : (frame.run g).isSome := by
  obtain ⟨c, left, hx, hpoints⟩ := h.frames t frame hframe
  obtain ⟨⟨count, hobj⟩, -, hsince, -⟩ := hx ▸ h.stored frame.obj
  cases frame with
  | array o =>
      obtain ⟨chain, b, -, harrays⟩ := hinv.built c hsince
      rw [ReleaseFrame.run, show g.obj o = _ from hobj, Option.bind_eq_bind, Option.bind_some]
      dsimp only
      rw [harrays.destruct]
      rfl
  | call o p =>
      obtain ⟨chain, done, harrays, hlist, hoff⟩ := hpoints
      rw [ReleaseFrame.run, ReleaseFrame.readCell harrays hlist hoff]
      cases left with
      | cons f left => rfl
      | nil =>
          dsimp only [nextCell]
          rw [show g.obj o = _ from hobj]
          rfl

/-- **One step.** -/
lemma ReleaseInv.next [DecidableEq τ] (h : ReleaseInv s₀ log g l st) (hrun : ClassRun s₀ g.sys)
    {es : List (ℕ × ObjectEvent κ φ)} (hstep : ReleaseStep s₀ t g (l t) es g' stack) :
    (∃ st', ReleaseInv s₀ (log ++ es.map (Prod.mk t)) g' (Function.update l t stack) st') ∧
      ClassRun s₀ g'.sys := by
  have hinv := hrun.inv
  generalize hl : l t = before at hstep
  cases hstep with
  | classInit c fuel hcall =>
      refine ⟨⟨st, ?_⟩, .call c fuel hrun hcall⟩
      rw [List.map_nil, List.append_nil, ← hl, Function.update_eq_self]
      exact h.classInit hinv hcall
  | new o c hsince hobj =>
      rw [← hl]
      exact ⟨h.new hsince hobj, hrun⟩
  | retain o hrefs hbound hupdate =>
      obtain ⟨x, -, heq⟩ := Option.map_eq_some_iff.mp hupdate
      rw [← hl]
      refine ⟨h.retain hrefs hbound hupdate, ?_⟩
      rw [← (Prod.mk.inj heq).2]
      exact hrun
  | release o hrefs hupdate =>
      obtain ⟨x, -, heq⟩ := Option.map_eq_some_iff.mp hupdate
      rw [← hl]
      refine ⟨h.release hinv hrefs hupdate, ?_⟩
      rw [← (Prod.mk.inj heq).2]
      exact hrun
  | run hframe =>
      refine ⟨h.run hinv hl hframe, ?_⟩
      rw [ReleaseFrame.run_sys hframe]
      exact hrun

/-- **Objects are destructed once.** Under every interleaving of any number of threads that create,
retain and release objects, as long as the references to an object are fewer than its count can hold:
an object with references is allocated, and its count is their number; the thread that gives up the last
reference, and no other, calls each destructor of the class chain once, from the class up to the root
class, and then frees the object; no release comes to a point where it cannot go on. -/
theorem object_released_once {τ : Type*} [DecidableEq τ] {s₀ : ClassSystem κ φ}
    {log : List (τ × ℕ × ObjectEvent κ φ)} {g : ObjectMemory κ φ} {l : τ → List ReleaseFrame}
    (h : Run (ReleaseStep s₀) ⟨s₀, fun _ => none, fun _ => 0⟩ (fun _ => []) log g l) :
    ∃ st : ℕ → Lifetime τ κ φ,
      (∀ o, Lives s₀.classOf (historyOf o log) (st o) ∧ (st o).Stored s₀ g l o) ∧
      (∀ t, ∀ frame ∈ l t, (frame.run g).isSome) ∧
      ∀ t u, ∀ frame ∈ l t, ∀ frame' ∈ l u, frame.obj = frame'.obj → t = u := by
  obtain ⟨⟨st, hinv⟩, hrun⟩ : (∃ st, ReleaseInv s₀ log g l st) ∧ ClassRun s₀ g.sys := by
    refine h.invariant (I := fun log g l => (∃ st, ReleaseInv s₀ log g l st) ∧ ClassRun s₀ g.sys) ?_ ?_
    · exact ⟨⟨fun _ => .absent, fun _ => .nil, fun _ => ⟨rfl, rfl⟩,
        fun t frame hframe => absurd hframe List.not_mem_nil, fun t => List.nodup_nil⟩, .start⟩
    · intro log g l t es g' stack _ ⟨⟨st, hinv⟩, hrun⟩ hs
      exact hinv.next hrun hs
  refine ⟨st, fun o => ⟨hinv.lives o, hinv.stored o⟩,
    fun t frame hframe => hinv.run_isSome hrun.inv hframe, fun t u frame hframe frame' hframe' heq => ?_⟩
  obtain ⟨c, left, hx, -⟩ := hinv.frames t frame hframe
  by_contra htu
  exact hinv.frame_unique (heq ▸ hx) (fun hut => htu hut.symm) hframe' rfl

/-- The last reference is given up. -/
lemma ReleaseStep.last (hrefs : 0 < g.refs o) (h : objUpdate g o (-1) = some (0, g')) :
    ReleaseStep s₀ t g stack [(o, .release)] (g'.setRefs o (g.refs o - 1)) (.array o :: stack) := by
  have hstep : ReleaseStep s₀ t g stack _ _ _ := .release o hrefs h
  rwa [if_pos rfl] at hstep

/-- An object of a class with a destructor has two references, and both are given up. -/
theorem object_released_once_two : ∃ (s₀ : ClassSystem ℕ ℕ) (log : List (Bool × ℕ × ObjectEvent ℕ ℕ))
    (g : ObjectMemory ℕ ℕ) (l : Bool → List ReleaseFrame),
    Run (ReleaseStep s₀) ⟨s₀, fun _ => none, fun _ => 0⟩ (fun _ => []) log g l ∧
      historyOf 0 log = [(false, .new 1), (false, .retain), (false, .release), (true, .release),
        (true, .destruct 11), (true, .free)] ∧ ∀ t, ∀ frame ∈ l t, (frame.run g).isSome := by
  let s₀ : ClassSystem ℕ ℕ := ⟨fun c => match c with
    | 0 => ocomsObjectTClass
    | _ => classInstance 0 (some 10) (some 11), [], [], 0⟩
  have hstart : Run (ReleaseStep s₀) ⟨s₀, fun _ => none, fun _ => 0⟩ (fun _ : Bool => []) [] _
    (both [] []) := .startBoth _
  have hnew := (hstart.first (.classInit 1 2 rfl)).first (.new 0 1 ⟨rfl, rfl⟩ rfl)
  have hretain := hnew.first (.retain 0 Nat.one_pos (by decide) rfl)
  have hrelease := hretain.first (.release 0 Nat.two_pos rfl)
  have hlast := hrelease.second (.last (o := 0) Nat.one_pos rfl)
  have hfree := ((hlast.second (.run rfl)).second (.run rfl)).second (.run rfl)
  obtain ⟨-, -, hgo, -⟩ := object_released_once hfree
  exact ⟨s₀, _, _, _, hfree, rfl, hgo⟩

end Release

end Ocoms
