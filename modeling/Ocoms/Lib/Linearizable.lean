import Ocoms.Lib.Interleaving

/-!
Objects that several threads use at once, and what it means that each operation takes effect at one
moment between its call and its return.

* `CallEvent` is what a history records. `Calls` are the events of one thread: it calls, the operation
  takes effect, it returns with the result.
* `Sequential` are the operations one after the other, each with its result.
* `Linearizes` says that the effects of a history are sequential, and that the calls of each thread
  have their effect in between.
* `Run.linearizes` is the rule: it is enough that each step of a run is one of `ObjectStep`.
-/

namespace Ocoms.Interleaving

variable {τ γ σ α ο β : Type*}

/-- What a history records of an operation: its call, the moment at which it takes effect, and its
return. -/
inductive CallEvent (ο β : Type*)
  | call (o : ο)
  | effect (o : ο) (b : β)
  | ret (o : ο) (b : β)

/-- Where a thread is between its calls. -/
inductive CallPhase (ο β : Type*)
  | idle
  | pending (o : ο)
  | done (o : ο) (b : β)

/-- **The events of one thread**: calls, each with one effect and a return that gives its result; the
last one may be under way. -/
inductive Calls : List (CallEvent ο β) → CallPhase ο β → Prop
  | idle : Calls [] .idle
  | call {es : List (CallEvent ο β)} (o : ο) : Calls es .idle → Calls (es ++ [.call o]) (.pending o)
  | effect {es : List (CallEvent ο β)} {o : ο} (b : β) : Calls es (.pending o) →
      Calls (es ++ [.effect o b]) (.done o b)
  | ret {es : List (CallEvent ο β)} {o : ο} {b : β} : Calls es (.done o b) →
      Calls (es ++ [.ret o b]) .idle

/-- **Operations one after the other** on an object in the state `a₀`, with their results. -/
inductive Sequential (apply : ο → α → α × β) (a₀ : α) : List (ο × β) → α → Prop
  | nil : Sequential apply a₀ [] a₀
  | snoc {ops : List (ο × β)} {a : α} (o : ο) : Sequential apply a₀ ops a →
      Sequential apply a₀ (ops ++ [(o, (apply o a).2)]) (apply o a).1

/-- The operation that takes effect. -/
def effectOf : τ × CallEvent ο β → Option (ο × β)
  | (_, .effect o b) => some (o, b)
  | _ => none

/-- The effects of a history, in order. -/
def effects (log : List (τ × CallEvent ο β)) : List (ο × β) := log.filterMap effectOf

/-- **The history is one of an object whose operations are atomic.** The effects are sequential, and
each lies between the call and the return of its operation. -/
structure Linearizes [DecidableEq τ] (apply : ο → α → α × β) (a₀ : α) (log : List (τ × CallEvent ο β))
    (a : α) (phase : τ → CallPhase ο β) : Prop where
  sequential : Sequential apply a₀ (effects log) a
  calls : ∀ t, Calls (eventsOf t log) (phase t)

/-- A step of a thread, seen from the object. -/
inductive ObjectStep (apply : ο → α → α × β) (a : α) :
    CallPhase ο β → List (CallEvent ο β) → α → CallPhase ο β → Prop
  | internal (p : CallPhase ο β) : ObjectStep apply a p [] a p
  | call (o : ο) : ObjectStep apply a .idle [.call o] a (.pending o)
  | effect (o : ο) : ObjectStep apply a (.pending o) [.effect o (apply o a).2] (apply o a).1
      (.done o (apply o a).2)
  | ret (o : ο) (b : β) : ObjectStep apply a (.done o b) [.ret o b] a .idle

section Rules

variable [DecidableEq τ] {apply : ο → α → α × β} {a₀ a a' : α} {log : List (τ × CallEvent ο β)}
  {phase : τ → CallPhase ο β}

omit [DecidableEq τ] in
@[simp] lemma effects_append (log log' : List (τ × CallEvent ο β)) :
    effects (log ++ log') = effects log ++ effects log' :=
  List.filterMap_append

/-- A step keeps it. -/
lemma Linearizes.next (h : Linearizes apply a₀ log a phase) {t : τ} {es : List (CallEvent ο β)}
    {p : CallPhase ο β} (hstep : ObjectStep apply a (phase t) es a' p) :
    Linearizes apply a₀ (log ++ es.map (Prod.mk t)) a' (Function.update phase t p) := by
  have hown := h.calls t
  have hcalls : Sequential apply a₀ (effects log ++ effects (es.map (Prod.mk t))) a' ∧
      Calls (eventsOf t log ++ es) p := by
    generalize phase t = q at hown hstep
    cases hstep with
    | internal =>
        rw [List.append_nil]
        refine ⟨?_, hown⟩
        have hsame := h.sequential
        rwa [← List.append_nil (effects log)] at hsame
    | call o =>
        refine ⟨?_, .call o hown⟩
        have hsame := h.sequential
        rwa [← List.append_nil (effects log)] at hsame
    | effect o => exact ⟨.snoc o h.sequential, .effect _ hown⟩
    | ret o b =>
        refine ⟨?_, .ret hown⟩
        have hsame := h.sequential
        rwa [← List.append_nil (effects log)] at hsame
  refine ⟨by rw [effects_append]; exact hcalls.1, fun u => ?_⟩
  rcases eq_or_ne u t with rfl | hne
  · rw [eventsOf_append_self, Function.update_self]
    exact hcalls.2
  · rw [eventsOf_append_other hne, Function.update_of_ne hne]
    exact h.calls u

/-- A step with which an operation takes effect and returns. -/
lemma Linearizes.effect_ret (h : Linearizes apply a₀ log a phase) {t : τ} {o : ο}
    (hphase : phase t = .pending o) :
    Linearizes apply a₀
      (log ++ [.effect o (apply o a).2, .ret o (apply o a).2].map (Prod.mk t)) (apply o a).1
      (Function.update phase t .idle) := by
  have heffect : ObjectStep apply a (phase t) [.effect o (apply o a).2] (apply o a).1
      (.done o (apply o a).2) := by
    rw [hphase]
    exact .effect o
  have hdone := h.next heffect
  have hret : ObjectStep apply (apply o a).1 (Function.update phase t (.done o (apply o a).2) t)
      [.ret o (apply o a).2] (apply o a).1 .idle := by
    rw [Function.update_self]
    exact .ret o _
  have hboth := hdone.next hret
  rw [Function.update_idem, List.append_assoc] at hboth
  exact hboth

/-- The call of an effect, or of an operation under way. -/
lemma Calls.call_mem {es : List (CallEvent ο β)} {p : CallPhase ο β} (h : Calls es p) :
    (∀ o b, .effect o b ∈ es → .call o ∈ es) ∧
      ∀ o, (p = .pending o ∨ ∃ b, p = .done o b) → .call o ∈ es := by
  induction h with
  | idle => simp
  | @call es o _ ih =>
      refine ⟨fun o' b' h' => ?_, fun o' h' => ?_⟩
      · have hmem : CallEvent.effect o' b' ∈ es := by simpa using h'
        exact List.mem_append_left _ (ih.1 o' b' hmem)
      · obtain rfl : o = o' := by simpa using h'
        exact List.mem_append_right _ List.mem_cons_self
  | @effect es o b _ ih =>
      have ho := ih.2 o (Or.inl rfl)
      refine ⟨fun o' b' h' => ?_, fun o' h' => ?_⟩
      · rw [List.mem_append, List.mem_singleton] at h'
        rcases h' with h' | h'
        · exact List.mem_append_left _ (ih.1 o' b' h')
        · cases h'
          exact List.mem_append_left _ ho
      · obtain ⟨b', hb'⟩ : ∃ b', CallPhase.done o b = CallPhase.done o' b' := by simpa using h'
        cases hb'
        exact List.mem_append_left _ ho
  | ret _ ih =>
      refine ⟨fun o' b' h' => ?_, fun o' h' => ?_⟩
      · rw [List.mem_append, List.mem_singleton] at h'
        rcases h' with h' | h'
        · exact List.mem_append_left _ (ih.1 o' b' h')
        · cases h'
      · simp at h'

/-- Every operation that takes effect was called. -/
lemma Linearizes.call_of_effect (h : Linearizes apply a₀ log a phase) {o : ο} {b : β}
    (ho : (o, b) ∈ effects log) : ∃ t, (t, .call o) ∈ log := by
  obtain ⟨⟨t, e⟩, he, heq⟩ := List.mem_filterMap.mp ho
  have hown : ∀ e', e' ∈ eventsOf t log ↔ (t, e') ∈ log := by
    intro e'
    simp [eventsOf]
  cases e with
  | effect o' b' =>
      obtain ⟨rfl, rfl⟩ := Prod.mk.inj (Option.some.inj heq)
      exact ⟨t, (hown _).mp ((h.calls t).call_mem.1 o' b' ((hown _).mpr he))⟩
  | _ => cases heq

/-- **The rule.** If each step of the runs is one of the object's, in terms of what it is in a memory
and of the phase that a thread is in, then every run has the history of an atomic object. -/
lemma Run.linearizes {step : τ → γ → σ → List (CallEvent ο β) → γ → σ → Prop} {g₀ g : γ}
    {l₀ l : τ → σ} (abs : γ → α) (phase : σ → CallPhase ο β) (hidle : ∀ t, phase (l₀ t) = .idle)
    (hstep : ∀ log g l t es g' s, Run step g₀ l₀ log g l → step t g (l t) es g' s →
      ObjectStep apply (abs g) (phase (l t)) es (abs g') (phase s))
    (h : Run step g₀ l₀ log g l) :
    Linearizes apply (abs g₀) log (abs g) fun t => phase (l t) := by
  refine h.invariant (I := fun log g l => Linearizes apply (abs g₀) log (abs g) fun t => phase (l t))
    ⟨.nil, fun t => ?_⟩ ?_
  · rw [hidle t]
    exact .idle
  · intro log g l t es g' s hrun hlin hs
    have hphase : (fun u => phase (Function.update l t s u))
        = Function.update (fun u => phase (l u)) t (phase s) :=
      funext fun u => Function.apply_update (fun _ => phase) l t s u
    rw [hphase]
    exact hlin.next (hstep log g l t es g' s hrun hs)

end Rules

end Ocoms.Interleaving
