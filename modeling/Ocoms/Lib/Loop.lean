import Mathlib.Data.Nat.Notation
import Mathlib.Order.Basic

/-!
Loops with a fuel argument, and the rule for them.

* `loop`: a round goes on with another state, or leaves the loop with a result. `none` says that the
  fuel has run out.
* `loop_rule`: an invariant with a bound on the rounds that are left gives a result for every fuel
  above the bound. `loop_inv` says what holds at the end of a loop that has ended.
-/

namespace Ocoms

section Loop

variable {σ ρ : Type*} {body : σ → σ ⊕ ρ}

/-- The rounds of a loop, from the state `s`. -/
def loop (body : σ → σ ⊕ ρ) : ℕ → σ → Option ρ
  | 0, _ => none
  | fuel + 1, s => (body s).elim (loop body fuel) some

/-- More fuel does not change the result. -/
lemma loop_mono {fuel fuel' : ℕ} {s : σ} {r : ρ} (h : loop body fuel s = some r)
    (hle : fuel ≤ fuel') : loop body fuel' s = some r := by
  induction fuel generalizing fuel' s with
  | zero => cases h
  | succ fuel ih =>
      obtain ⟨fuel', rfl⟩ : ∃ n, fuel' = n + 1 := ⟨fuel' - 1, by omega⟩
      unfold loop at h ⊢
      cases hbody : body s with
      | inl s' =>
          rw [hbody] at h
          exact ih h (by omega)
      | inr r' =>
          rw [hbody] at h
          exact h

/-- An invariant without a bound says what holds at the end of a loop that has ended. -/
lemma loop_inv (Inv : σ → Prop) (Post : ρ → Prop)
    (hround : ∀ s, Inv s → (body s).elim Inv Post) {fuel : ℕ} {s : σ} {r : ρ} (h : Inv s)
    (hr : loop body fuel s = some r) : Post r := by
  induction fuel generalizing s with
  | zero => cases hr
  | succ fuel ih =>
      have hstep := hround s h
      unfold loop at hr
      cases hbody : body s with
      | inl s' =>
          rw [hbody] at hstep hr
          exact ih hstep hr
      | inr r' =>
          rw [hbody] at hstep hr
          obtain rfl := Option.some.inj hr
          exact hstep

variable (Inv : ℕ → σ → Prop) (Post : ρ → Prop)

/-- **The rule for a loop.** In `Inv n s` at most `n` rounds are left before the last one. -/
theorem loop_rule (hround : ∀ n s, Inv n s → (body s).elim (fun s' => ∃ m < n, Inv m s') Post)
    {n fuel : ℕ} {s : σ} (h : Inv n s) (hfuel : n < fuel) :
    ∃ r, loop body fuel s = some r ∧ Post r := by
  induction fuel generalizing n s with
  | zero => omega
  | succ fuel ih =>
      have hstep := hround n s h
      unfold loop
      cases hbody : body s with
      | inl s' =>
          rw [hbody] at hstep
          obtain ⟨m, hm, hinv⟩ := hstep
          exact ih hinv (by omega)
      | inr r =>
          rw [hbody] at hstep
          exact ⟨r, rfl, hstep⟩

end Loop

end Ocoms
