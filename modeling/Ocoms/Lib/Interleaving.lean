import Mathlib.Data.List.Basic
import Mathlib.Logic.Function.Basic

/-!
Threads with a shared memory whose steps are interleaved in any order.

* `Run` are the runs of any number of threads: one of them takes a step, which reads and writes the
  memory and its own state, and may record events. `Run.invariant` is the induction over them, and
  `Run.forall_thread` the one for what each thread knows and has recorded.
* `TestAndSet` says how the steps treat a lock: a thread comes to hold it only where it is free.
  `Run.mutex` says that one thread at most holds it, and that it is free otherwise.
* `Protects` are the conditions under which the lock protects a part of the memory, and
  `Run.protects` is the rule: the free lock has it in order, and so has the thread that holds it.
-/

namespace Ocoms.Interleaving

variable {τ γ σ ε : Type*} [DecidableEq τ]

/-- **The runs** from the memory `g₀` with the threads in the states `l₀`. A step is given by the
thread, the memory and the state of the thread before, what it records, and both after it. -/
inductive Run (step : τ → γ → σ → List ε → γ → σ → Prop) (g₀ : γ) (l₀ : τ → σ) :
    List (τ × ε) → γ → (τ → σ) → Prop
  | start : Run step g₀ l₀ [] g₀ l₀
  | step {log : List (τ × ε)} {g g' : γ} {l : τ → σ} {es : List ε} {s : σ} (t : τ) :
      Run step g₀ l₀ log g l → step t g (l t) es g' s →
      Run step g₀ l₀ (log ++ es.map (Prod.mk t)) g' (Function.update l t s)

/-- The events of a thread. -/
def eventsOf (t : τ) (log : List (τ × ε)) : List ε :=
  (log.filter fun e => e.1 = t).map Prod.snd

section Rules

variable {step : τ → γ → σ → List ε → γ → σ → Prop} {g₀ g : γ} {l₀ l : τ → σ}
  {log : List (τ × ε)}

/-- What holds at the start and is kept by every step of a run holds in every run. -/
lemma Run.invariant {I : List (τ × ε) → γ → (τ → σ) → Prop} (h₀ : I [] g₀ l₀)
    (hstep : ∀ log g l t es g' s, Run step g₀ l₀ log g l → I log g l → step t g (l t) es g' s →
      I (log ++ es.map (Prod.mk t)) g' (Function.update l t s))
    (h : Run step g₀ l₀ log g l) : I log g l := by
  induction h with
  | start => exact h₀
  | step t hrun hs ih => exact hstep _ _ _ t _ _ _ hrun ih hs

/-- A step of one thread, seen from the states of all threads. -/
lemma forall_update_iff {P : τ → σ → Prop} (t : τ) (s : σ) :
    (∀ u, P u (Function.update l t s u)) ↔ P t s ∧ ∀ u, u ≠ t → P u (l u) := by
  constructor
  · intro h
    refine ⟨?_, fun u hu => ?_⟩
    · have := h t
      rwa [Function.update_self] at this
    · have := h u
      rwa [Function.update_of_ne hu] at this
  · rintro ⟨ht, hother⟩ u
    rcases eq_or_ne u t with rfl | hu
    · rwa [Function.update_self]
    · rw [Function.update_of_ne hu]
      exact hother u hu

lemma eventsOf_append_self (t : τ) (log : List (τ × ε)) (es : List ε) :
    eventsOf t (log ++ es.map (Prod.mk t)) = eventsOf t log ++ es := by
  rw [eventsOf, List.filter_append, List.map_append, eventsOf, List.append_cancel_left_eq]
  induction es with
  | nil => rfl
  | cons e es ih =>
      rw [List.map_cons, List.filter_cons_of_pos (by simp), List.map_cons, ih]

lemma eventsOf_append_other {t u : τ} (h : u ≠ t) (log : List (τ × ε)) (es : List ε) :
    eventsOf u (log ++ es.map (Prod.mk t)) = eventsOf u log := by
  have hnone : (es.map (Prod.mk t)).filter (fun e => decide (e.1 = u)) = [] := by
    rw [List.filter_eq_nil_iff]
    intro e he
    obtain ⟨e', -, rfl⟩ := List.mem_map.mp he
    simpa using Ne.symm h
  rw [eventsOf, List.filter_append, hnone, List.append_nil, eventsOf]

/-- What each thread knows, in terms of what it has recorded: its own steps keep it, and so do the
steps of the others. -/
lemma Run.forall_thread {B : γ → σ → List ε → Prop} (h₀ : ∀ t, B g₀ (l₀ t) [])
    (hown : ∀ log g l t es g' s, Run step g₀ l₀ log g l → step t g (l t) es g' s →
      B g (l t) (eventsOf t log) → B g' s (eventsOf t log ++ es))
    (hother : ∀ log g l t es g' s u, Run step g₀ l₀ log g l → step t g (l t) es g' s →
      B g (l u) (eventsOf u log) → B g' (l u) (eventsOf u log))
    (h : Run step g₀ l₀ log g l) : ∀ t, B g (l t) (eventsOf t log) := by
  refine h.invariant (I := fun log g l => ∀ t, B g (l t) (eventsOf t log)) h₀ ?_
  intro log g l t es g' s hrun ih hs u
  rcases eq_or_ne u t with rfl | hne
  · rw [Function.update_self, eventsOf_append_self]
    exact hown _ _ _ _ _ _ _ hrun hs (ih u)
  · rw [Function.update_of_ne hne, eventsOf_append_other hne]
    exact hother _ _ _ _ _ _ _ u hrun hs (ih u)

/-! ### A lock -/

/-- **The steps treat a lock** as a test-and-set lock: a thread takes it where it is free, the thread
that holds it gives it back, and no other step changes who holds it or whether it is free. -/
inductive LockStep (locked : γ → Prop) (held : σ → Prop) (g : γ) (s : σ) (g' : γ) (s' : σ) : Prop
  | take : ¬ locked g → ¬ held s → locked g' → held s' → LockStep locked held g s g' s'
  | give : held s → ¬ held s' → ¬ locked g' → LockStep locked held g s g' s'
  | keep : (locked g' ↔ locked g) → (held s' ↔ held s) → LockStep locked held g s g' s'

/-- All steps treat it so. -/
def TestAndSet (step : τ → γ → σ → List ε → γ → σ → Prop) (locked : γ → Prop) (held : σ → Prop) :
    Prop :=
  ∀ t g s es g' s', step t g s es g' s' → LockStep locked held g s g' s'

variable {locked : γ → Prop} {held : σ → Prop}

/-- Who holds the lock. -/
structure Mutex (locked : γ → Prop) (held : σ → Prop) (g : γ) (l : τ → σ) : Prop where
  locked_iff : locked g ↔ ∃ t, held (l t)
  unique : ∀ t u, held (l t) → held (l u) → t = u

/-- A step keeps it. -/
lemma Mutex.next (h : Mutex locked held g l) {t : τ} {g' : γ} {s : σ}
    (hstep : LockStep locked held g (l t) g' s) :
    Mutex locked held g' (Function.update l t s) := by
  have hself : Function.update l t s t = s := Function.update_self ..
  have hother : ∀ u, u ≠ t → Function.update l t s u = l u := fun u hu => Function.update_of_ne hu ..
  cases hstep with
  | take hfree _ hlocked hheld =>
      have hnone : ∀ u, ¬ held (l u) := fun u hu => hfree (h.locked_iff.mpr ⟨u, hu⟩)
      have honly : ∀ u, held (Function.update l t s u) → u = t := fun u hu => by
        by_contra hne
        rw [hother u hne] at hu
        exact hnone u hu
      refine ⟨iff_of_true hlocked ⟨t, by rwa [hself]⟩, fun u v hu hv => ?_⟩
      rw [honly u hu, honly v hv]
  | give hheld hnot hfree =>
      have hnone : ∀ u, ¬ held (Function.update l t s u) := fun u hu => by
        rcases eq_or_ne u t with rfl | hne
        · rw [hself] at hu
          exact hnot hu
        · rw [hother u hne] at hu
          exact hne (h.unique u t hu hheld)
      exact ⟨iff_of_false hfree fun ⟨u, hu⟩ => hnone u hu, fun u _ hu => absurd hu (hnone u)⟩
  | keep hlocked hheld =>
      have hsame : ∀ u, held (Function.update l t s u) ↔ held (l u) := fun u => by
        rcases eq_or_ne u t with rfl | hne
        · rw [hself]
          exact hheld
        · rw [hother u hne]
      refine ⟨?_, fun u v hu hv => h.unique u v ((hsame u).mp hu) ((hsame v).mp hv)⟩
      rw [hlocked, h.locked_iff]
      exact exists_congr fun u => (hsame u).symm

/-- **Mutual exclusion.** One thread at most holds the lock, and it is free if and only if none
does. -/
lemma Run.mutex (hlock : TestAndSet step locked held) (hfree : ¬ locked g₀)
    (hnone : ∀ t, ¬ held (l₀ t)) (h : Run step g₀ l₀ log g l) : Mutex locked held g l := by
  refine h.invariant (I := fun _ g l => Mutex locked held g l) ?_ ?_
  · exact ⟨iff_of_false hfree fun ⟨t, ht⟩ => hnone t ht, fun t _ ht => absurd ht (hnone t)⟩
  · intro _ _ _ t _ _ _ _ hm hs
    exact hm.next (hlock t _ _ _ _ _ hs)

/-- **What a lock protects.** `R` is in order while the lock is free, and `A` is what the thread that
holds it knows. The step that takes the lock turns the one into the other, the step that gives it
back turns it back, and the steps of threads that do not hold it keep both. -/
structure Protects (step : τ → γ → σ → List ε → γ → σ → Prop) (locked : γ → Prop)
    (held : σ → Prop) (R : γ → Prop) (A : γ → σ → Prop) : Prop where
  take : ∀ t g s es g' s', step t g s es g' s' → ¬ locked g → ¬ held s → held s' → R g → A g' s'
  hold : ∀ t g s es g' s', step t g s es g' s' → held s → held s' → A g s → A g' s'
  give : ∀ t g s es g' s', step t g s es g' s' → held s → ¬ held s' → A g s → R g'
  free : ∀ t g s es g' s', step t g s es g' s' → ¬ held s → ¬ held s' → R g → R g'
  other : ∀ t g s es g' s' u, step t g s es g' s' → ¬ held s → ¬ held s' → held u → A g u → A g' u

/-- **The rule for a lock.** In every run, what it protects is in order while it is free, and the
thread that holds it knows what it may. -/
lemma Run.protects {R : γ → Prop} {A : γ → σ → Prop} (hlock : TestAndSet step locked held)
    (hfree : ¬ locked g₀) (hnone : ∀ t, ¬ held (l₀ t)) (hR : R g₀)
    (hprot : Protects step locked held R A) (h : Run step g₀ l₀ log g l) :
    (¬ locked g → R g) ∧ ∀ t, held (l t) → A g (l t) := by
  induction h with
  | start => exact ⟨fun _ => hR, fun t ht => absurd ht (hnone t)⟩
  | @step log g g' l es s t hrun hs ih =>
      obtain ⟨ihR, ihA⟩ := ih
      have hm := hrun.mutex hlock hfree hnone
      rw [forall_update_iff (P := fun _ s => held s → A g' s)]
      rcases hlock t _ _ _ _ _ hs with ⟨hf, hns, hl', hs'⟩ | ⟨hheld, hns', hf'⟩ | ⟨hl, hh⟩
      · refine ⟨fun hf' => absurd hl' hf', fun _ => hprot.take t _ _ _ _ _ hs hf hns hs' (ihR hf),
          fun u _ hu => ?_⟩
        exact absurd (hm.locked_iff.mpr ⟨u, hu⟩) hf
      · refine ⟨fun _ => hprot.give t _ _ _ _ _ hs hheld hns' (ihA t hheld),
          fun hs' => absurd hs' hns', fun u hne hu => ?_⟩
        exact absurd (hm.unique u t hu hheld) hne
      · by_cases hheld : held (l t)
        · refine ⟨fun hf' => ?_, fun hs' => hprot.hold t _ _ _ _ _ hs hheld hs' (ihA t hheld),
            fun u hne hu => absurd (hm.unique u t hu hheld) hne⟩
          exact absurd (hm.locked_iff.mpr ⟨t, hheld⟩) (fun h => hf' (hl.mpr h))
        · have hheld' : ¬ held s := fun h => hheld (hh.mp h)
          refine ⟨fun hf' => ?_, fun hs' => absurd hs' hheld', fun u _ hu => ?_⟩
          · exact hprot.free t _ _ _ _ _ hs hheld hheld' (ihR fun h => hf' (hl.mpr h))
          · exact hprot.other t _ _ _ _ _ _ hs hheld hheld' hu (ihA u hu)

end Rules

/-! ### Two threads -/

section Both

variable {step : Bool → γ → σ → List ε → γ → σ → Prop} {g₀ g g' : γ} {l₀ : Bool → σ}
  {log : List (Bool × ε)} {a b s : σ} {es : List ε}

/-- The states of two threads. -/
def both (a b : σ) : Bool → σ := fun t => cond t b a

/-- Both start in the same state. -/
lemma Run.startBoth (a : σ) : Run step g₀ (fun _ => a) [] g₀ (both a a) := by
  have hsame : both a a = fun _ => a := by
    funext t
    cases t <;> rfl
  rw [hsame]
  exact .start

/-- The first one takes a step. -/
lemma Run.first (h : Run step g₀ l₀ log g (both a b)) (hs : step false g a es g' s) :
    Run step g₀ l₀ (log ++ es.map (Prod.mk false)) g' (both s b) := by
  have hnext : Function.update (both a b) false s = both s b := by
    funext t
    cases t <;> rfl
  rw [← hnext]
  exact h.step false hs

/-- The second one takes a step. -/
lemma Run.second (h : Run step g₀ l₀ log g (both a b)) (hs : step true g b es g' s) :
    Run step g₀ l₀ (log ++ es.map (Prod.mk true)) g' (both a s) := by
  have hnext : Function.update (both a b) true s = both a s := by
    funext t
    cases t <;> rfl
  rw [← hnext]
  exact h.step true hs

end Both

end Ocoms.Interleaving
