import Ocoms.Lib.CInt
import Ocoms.Mca.VarGroup
import Mathlib.Data.List.MinMax

/-!
Selecting a component: `mca_base_components_select.c`, `mca_base_components_close.c`.

* `select` queries the available components in turn. The variables for the module and the priority
  are shared: a query function that does not write them leaves what an earlier one has written.
* `PicksBest` is what a selection is for: the best component by what each query function writes
  itself (`bestComponent`).
* `lastModule` and `lastPriority` are what is in the shared variables after a number of queries.
  `selectScan_foldl` says which component the loop ends with, and `select_picks_best_iff` when it is
  the best one.
-/

namespace Ocoms

/-- The values of an `int`. -/
abbrev Priority := {p : ℤ // -2 ^ 31 ≤ p ∧ p ≤ CInt.max}

/-- The order of the integers, by the instance that can be computed. -/
instance : Preorder Priority :=
  @Subtype.preorder ℤ Int.instLinearOrder.toPartialOrder.toPreorder _

instance : DecidableLT Priority := fun a b => Int.decLt a b

/-- `INT32_MIN`. -/
def int32Min : Priority := ⟨-2 ^ 31, by decide⟩

/-- The value that `priority` starts with. -/
def Priority.zero : Priority := ⟨0, by decide⟩

lemma int32Min_le (p : Priority) : int32Min ≤ p := p.2.1

/-- What a query function writes to its two arguments; `none` leaves the argument as it is. The
module that is written may be `NULL`. -/
structure Query (M : Type*) where
  module : Option (Option M)
  priority : Option Priority

/-- The variables of the loop. -/
structure SelectState (C M : Type*) where
  module : Option M
  priority : Priority
  best : Option (C × M)
  bestPriority : Priority

/-- What is left of a call: the two results, the components that were closed, in their order, and
the list of the available components. -/
structure Selection (C M : Type*) where
  ret : Except Rc Unit
  bestModule : Option M
  bestComponent : Option C
  closed : List C
  available : List C

/-! ### The functions -/

section Functions

variable {C M : Type*} [DecidableEq C] (query : C → Option (Query M))

/-- `components_close`: closes and removes every component but `skip`. -/
def componentsClose (skip : Option C) : List C → List C × List C
  | [] => ([], [])
  | cli :: components =>
      let (closed, left) := componentsClose skip components
      if skip = some cli then (closed, cli :: left) else (cli :: closed, left)

/-- The body of the loop. A component without a query function is skipped. -/
def selectStep (s : SelectState C M) (component : C) : SelectState C M :=
  match query component with
  | none => s
  | some q =>
      let module := q.module.getD s.module
      let priority := q.priority.getD s.priority
      match module with
      | none => { s with module, priority }
      | some m =>
          if s.bestPriority < priority then
            { module, priority, best := some (component, m), bestPriority := priority }
          else { s with module, priority }

/-- The variables before the loop. -/
def SelectState.init : SelectState C M :=
  { module := none, priority := Priority.zero, best := none, bestPriority := int32Min }

/-- `mca_base_select`. -/
def select (available : List C) : Selection C M :=
  match (available.foldl (selectStep query) .init).best with
  | none =>
      let (closed, available) := componentsClose none available
      { ret := .error .notFound, bestModule := none, bestComponent := none, closed, available }
  | some (component, m) =>
      let (closed, available) := componentsClose (some component) available
      { ret := .ok (), bestModule := some m, bestComponent := some component, closed, available }

end Functions

/-! ### What a selection is for -/

section Best

variable {C M : Type*} [DecidableEq C] (query : C → Option (Query M))

/-- The module that the query function of a component returns itself. -/
def ownModule (component : C) : Option M := ((query component).bind Query.module).join

/-- The priority that the query function of a component sets itself, from `0`. -/
def ownPriority (component : C) : Priority :=
  ((query component).bind Query.priority).getD Priority.zero

/-- The first component of greatest priority among those that return a module. -/
def bestComponent (available : List C) : Option C :=
  (available.filter fun c => (ownModule query c).isSome).argmax (ownPriority query)

/-- The best component is selected with its own module, and the others are closed. -/
structure PicksBest (available : List C) (r : Selection C M) : Prop where
  notFound : r.ret = .error .notFound ↔ ∀ c ∈ available, ownModule query c = none
  best : ∀ c ∈ bestComponent query available,
    r.ret = .ok () ∧ r.bestComponent = some c ∧ r.bestModule = ownModule query c
  closed : r.closed = available.filter fun c => r.bestComponent ≠ some c
  left : r.available = available.filter fun c => r.bestComponent = some c

/-- The module in the shared variable after some queries: the last one that was written. -/
def lastModule (asked : List C) : Option M :=
  (asked.filterMap fun c => (query c).bind Query.module).getLast?.join

/-- The priority in the shared variable after some queries. -/
def lastPriority (asked : List C) : Priority :=
  (asked.filterMap fun c => (query c).bind Query.priority).getLastD Priority.zero

/-- The `i`-th component is considered: it has a query function, and there is a module in the shared
variable after it, whoever has written it. -/
def Considered (available : List C) (i : ℕ) : Prop :=
  (∃ c, available[i]? = some c ∧ (query c).isSome) ∧
    (lastModule query (available.take (i + 1))).isSome

/-- With the priorities in the shared variable, the `i`-th component is before all others. -/
structure Outranks (available : List C) (i : ℕ) : Prop where
  above : int32Min < lastPriority query (available.take (i + 1))
  earlier : ∀ j < i, Considered query available j →
    lastPriority query (available.take (j + 1)) < lastPriority query (available.take (i + 1))
  later : ∀ j > i, Considered query available j →
    lastPriority query (available.take (j + 1)) ≤ lastPriority query (available.take (i + 1))

end Best

section Scan

variable {C M : Type*} (query : C → Option (Query M))

lemma componentsClose_eq [DecidableEq C] (skip : Option C) (components : List C) :
    componentsClose skip components =
      (components.filter (skip ≠ some ·), components.filter (skip = some ·)) := by
  induction components with
  | nil => rfl
  | cons cli components ih =>
      rw [componentsClose, ih]
      by_cases h : skip = some cli <;> simp [h]

/-! ### The shared variables -/

lemma lastModule_concat (asked : List C) (c : C) :
    lastModule query (asked ++ [c]) =
      ((query c).bind Query.module).getD (lastModule query asked) := by
  cases h : (query c).bind Query.module <;> simp [lastModule, h]

lemma lastPriority_concat (asked : List C) (c : C) :
    lastPriority query (asked ++ [c]) =
      ((query c).bind Query.priority).getD (lastPriority query asked) := by
  cases h : (query c).bind Query.priority <;> simp [lastPriority, h]

variable {query} {available : List C}

lemma Considered.lt_length {i : ℕ} (h : Considered query available i) : i < available.length := by
  obtain ⟨⟨c, hc, -⟩, -⟩ := h
  exact (List.getElem?_eq_some_iff.mp hc).1

/-- Another component behind the list changes nothing for those in front of it. -/
lemma considered_concat_of_lt {i : ℕ} (c : C) (h : i < available.length) :
    Considered query (available ++ [c]) i ↔ Considered query available i := by
  rw [Considered, Considered, List.getElem?_append_left h, List.take_append_of_le_length (by omega)]

lemma considered_concat_length (c : C) :
    Considered query (available ++ [c]) available.length ↔
      (query c).isSome ∧ (lastModule query (available ++ [c])).isSome := by
  simp [Considered, List.take_of_length_le]

/-- What is considered behind one more component. -/
lemma considered_concat {c : C} {i : ℕ} (h : Considered query (available ++ [c]) i) :
    (i < available.length ∧ Considered query available i) ∨
      (i = available.length ∧ (query c).isSome ∧
        (lastModule query (available ++ [c])).isSome) := by
  have hlt := h.lt_length
  rw [List.length_append, List.length_singleton] at hlt
  rcases Nat.lt_succ_iff_lt_or_eq.mp hlt with hlt | rfl
  · exact .inl ⟨hlt, (considered_concat_of_lt c hlt).mp h⟩
  · exact .inr ⟨rfl, (considered_concat_length c).mp h⟩

/-- There is at most one leading component. -/
lemma Outranks.eq {i j : ℕ} (hi : Outranks query available i) (hj : Outranks query available j)
    (hci : Considered query available i) (hcj : Considered query available j) : i = j := by
  rcases Nat.lt_trichotomy i j with h | h | h
  · exact absurd (hi.later j h hcj) (not_le.mpr (hj.earlier i h hci))
  · exact h
  · exact absurd (hj.later i h hci) (not_le.mpr (hi.earlier j h hcj))

variable (query available)

/-- The variables of the loop after some components. -/
structure SelectScan (s : SelectState C M) : Prop where
  module : s.module = lastModule query available
  priority : s.priority = lastPriority query available
  none : s.best = none → s.bestPriority = int32Min ∧ ∀ j, Considered query available j →
    lastPriority query (available.take (j + 1)) ≤ int32Min
  some : ∀ c m, s.best = some (c, m) → ∃ i, available[i]? = some c ∧ (query c).isSome ∧
    lastModule query (available.take (i + 1)) = some m ∧
    lastPriority query (available.take (i + 1)) = s.bestPriority ∧ Outranks query available i

lemma selectScan_init : SelectScan query [] (SelectState.init : SelectState C M) where
  module := rfl
  priority := rfl
  none _ := ⟨rfl, fun j h => absurd h.lt_length (Nat.not_lt_zero j)⟩
  some c m h := by cases h

variable {query available}

/-- What leads in front of one more component that is not considered, or has no greater priority,
still leads. -/
lemma Outranks.concat {i : ℕ} {c : C} (h : Outranks query available i) (hi : i < available.length)
    (hc : Considered query (available ++ [c]) available.length →
      lastPriority query (available ++ [c]) ≤ lastPriority query (available.take (i + 1))) :
    Outranks query (available ++ [c]) i := by
  have htake {j : ℕ} (hj : j < available.length) :
      (available ++ [c]).take (j + 1) = available.take (j + 1) :=
    List.take_append_of_le_length (by omega)
  constructor
  · rw [htake hi]
    exact h.above
  · intro j hj hcj
    rw [htake hi, htake (by omega)]
    exact h.earlier j hj ((considered_concat_of_lt c (by omega)).mp hcj)
  · intro j hj hcj
    rw [htake hi]
    rcases considered_concat hcj with ⟨hlt, hcj'⟩ | ⟨rfl, -⟩
    · rw [htake hlt]
      exact h.later j hj hcj'
    · rw [List.take_of_length_le (by simp)]
      exact hc hcj

/-- A component that is considered and has a greater priority than all in front of it leads. -/
lemma outranks_concat {c : C} (habove : int32Min < lastPriority query (available ++ [c]))
    (hearlier : ∀ j, Considered query available j →
      lastPriority query (available.take (j + 1)) < lastPriority query (available ++ [c])) :
    Outranks query (available ++ [c]) available.length := by
  have htake : (available ++ [c]).take (available.length + 1) = available ++ [c] :=
    List.take_of_length_le (by simp)
  constructor
  · rwa [htake]
  · intro j hj hcj
    rw [htake, List.take_append_of_le_length (by omega)]
    exact hearlier j ((considered_concat_of_lt c hj).mp hcj)
  · intro j hj hcj
    have hlt := hcj.lt_length
    rw [List.length_append, List.length_singleton] at hlt
    omega

/-- The best priority so far bounds the priorities of what was considered. -/
lemma SelectScan.le_bestPriority {s : SelectState C M} (h : SelectScan query available s) {j : ℕ}
    (hj : Considered query available j) :
    lastPriority query (available.take (j + 1)) ≤ s.bestPriority := by
  cases hbest : s.best with
  | none =>
      obtain ⟨heq, hle⟩ := h.none hbest
      exact heq ▸ hle j hj
  | some best =>
      obtain ⟨i, -, -, -, hpriority, hleads⟩ := h.some best.1 best.2 hbest
      rw [← hpriority]
      rcases Nat.lt_trichotomy j i with hlt | rfl | hlt
      · exact (hleads.earlier j hlt hj).le
      · exact le_rfl
      · exact hleads.later j hlt hj

/-- A component that changes nothing in what is the best so far. -/
lemma SelectScan.keep {s s' : SelectState C M} {c : C} (h : SelectScan query available s)
    (hmodule : s'.module = lastModule query (available ++ [c]))
    (hpriority : s'.priority = lastPriority query (available ++ [c]))
    (hbest : s'.best = s.best) (hbestPriority : s'.bestPriority = s.bestPriority)
    (hc : Considered query (available ++ [c]) available.length →
      lastPriority query (available ++ [c]) ≤ s.bestPriority) :
    SelectScan query (available ++ [c]) s' where
  module := hmodule
  priority := hpriority
  none hnone := by
    obtain ⟨heq, hle⟩ := h.none (hbest ▸ hnone)
    refine ⟨hbestPriority.trans heq, fun j hj => ?_⟩
    rcases considered_concat hj with ⟨hlt, hj'⟩ | ⟨rfl, -⟩
    · rw [List.take_append_of_le_length (by omega)]
      exact hle j hj'
    · rw [List.take_of_length_le (by simp)]
      exact heq ▸ hc hj
  some b m hsome := by
    obtain ⟨i, hget, hquery, hlast, hlead, hleads⟩ := h.some b m (hbest ▸ hsome)
    have hi := (List.getElem?_eq_some_iff.mp hget).1
    have htake : (available ++ [c]).take (i + 1) = available.take (i + 1) :=
      List.take_append_of_le_length (by omega)
    refine ⟨i, ?_, hquery, ?_, ?_, ?_⟩
    · rwa [List.getElem?_append_left hi]
    · rwa [htake]
    · rw [htake, hlead, hbestPriority]
    · exact hleads.concat hi (hlead ▸ hc)

/-- One more component. -/
lemma SelectScan.step {s : SelectState C M} (h : SelectScan query available s) (c : C) :
    SelectScan query (available ++ [c]) (selectStep query s c) := by
  have hmodule := lastModule_concat query available c
  have hpriority := lastPriority_concat query available c
  rw [← h.module] at hmodule
  rw [← h.priority] at hpriority
  unfold selectStep
  cases hq : query c with
  | none =>
      rw [hq] at hmodule hpriority
      refine h.keep hmodule.symm hpriority.symm rfl rfl fun hc => ?_
      rw [considered_concat_length, hq] at hc
      cases hc.1
  | some q =>
      rw [hq] at hmodule hpriority
      simp only [Option.bind_some] at hmodule hpriority ⊢
      cases hm : q.module.getD s.module with
      | none =>
          refine h.keep (hmodule.trans hm).symm hpriority.symm rfl rfl fun hc => ?_
          rw [considered_concat_length, hmodule, hm] at hc
          cases hc.2
      | some m =>
          rw [hm] at hmodule
          simp only [← hpriority, ← hmodule]
          split
          case isTrue hlt =>
            have hearlier (j : ℕ) (hj : Considered query available j) :
                lastPriority query (available.take (j + 1)) < lastPriority query (available ++ [c]) :=
              (h.le_bestPriority hj).trans_lt hlt
            refine ⟨rfl, rfl, nofun, ?_⟩
            rintro b m' ⟨rfl, rfl⟩
            have htake : (available ++ [c]).take (available.length + 1) = available ++ [c] :=
              List.take_of_length_le (by simp)
            refine ⟨available.length, by simp, by simp [hq], by rw [htake, hmodule],
              by rw [htake], outranks_concat ((int32Min_le _).trans_lt hlt) hearlier⟩
          case isFalse hle =>
            exact h.keep rfl rfl rfl rfl fun _ => not_lt.mp hle

/-- The variables at the end of the loop. -/
lemma selectScan_foldl (query : C → Option (Query M)) (available : List C) :
    SelectScan query available (available.foldl (selectStep query) .init) := by
  induction available using List.reverseRecOn with
  | nil => exact selectScan_init query
  | append_singleton available c ih =>
      rw [List.foldl_append]
      exact ih.step c

end Scan

/-! ### When the best component is selected -/

section Theorem

variable {C M : Type*} {query : C → Option (Query M)} {available : List C}

/-- A module that a query function has returned is in the shared variable behind it. -/
lemma lastModule_take_of_ownModule {i : ℕ} {c : C} {m : M} (hget : available[i]? = some c)
    (hown : ownModule query c = some m) :
    lastModule query (available.take (i + 1)) = some m := by
  have hset : (query c).bind Query.module = some (some m) := by
    rw [ownModule] at hown
    exact Option.join_eq_some_iff.mp hown
  rw [List.take_add_one, hget, Option.toList_some, lastModule_concat, hset, Option.getD_some]

/-- A component that returns a module is considered. -/
lemma considered_of_ownModule {i : ℕ} {c : C} {m : M} (hget : available[i]? = some c)
    (hown : ownModule query c = some m) : Considered query available i := by
  refine ⟨⟨c, hget, ?_⟩, by rw [lastModule_take_of_ownModule hget hown, Option.isSome_some]⟩
  cases hq : query c with
  | none => simp [ownModule, hq] at hown
  | some q => rfl

/-- Without a query function that returns a module there is none in the shared variable. -/
lemma lastModule_eq_none (h : ∀ c ∈ available, ownModule query c = none) :
    lastModule query available = none := by
  induction available using List.reverseRecOn with
  | nil => rfl
  | append_singleton available c ih =>
      have hc := h c (by simp)
      rw [ownModule] at hc
      rw [lastModule_concat, ih fun c hc => h c (by simp [hc])]
      cases hset : (query c).bind Query.module with
      | none => rfl
      | some m => simpa [hset] using hc

/-- Where some query function returns a module, there is a best component, and it returns one. -/
lemma exists_bestComponent {c : C} (hc : c ∈ available) (hown : ownModule query c ≠ none) :
    ∃ best ∈ available, bestComponent query available = some best := by
  have hmem : c ∈ available.filter fun c => (ownModule query c).isSome :=
    List.mem_filter.mpr ⟨hc, Option.isSome_iff_ne_none.mpr hown⟩
  cases hbest : bestComponent query available with
  | none =>
      rw [bestComponent, List.argmax_eq_none] at hbest
      rw [hbest] at hmem
      cases hmem
  | some best => exact ⟨best, (List.mem_filter.mp (List.argmax_mem hbest)).1, rfl⟩

lemma ownModule_of_bestComponent {best : C} (h : best ∈ bestComponent query available) :
    ∃ m, ownModule query best = some m :=
  Option.isSome_iff_exists.mp (List.mem_filter.mp (List.argmax_mem h)).2

/-- What leads and returns a module is what the loop ends with. -/
lemma best_of_outranks {i : ℕ} {c : C} {m : M} (hget : available[i]? = some c)
    (hown : ownModule query c = some m) (hleads : Outranks query available i) :
    (available.foldl (selectStep query) .init).best = some (c, m) := by
  have hscan := selectScan_foldl query available
  have hci := considered_of_ownModule hget hown
  cases hbest : (available.foldl (selectStep query) .init).best with
  | none => exact absurd hleads.above (not_lt.mpr ((hscan.none hbest).2 i hci))
  | some best =>
      obtain ⟨j, hgetj, hqueryj, hlast, -, hleadsj⟩ := hscan.some best.1 best.2 hbest
      have hcj : Considered query available j :=
        ⟨⟨best.1, hgetj, hqueryj⟩, by rw [hlast, Option.isSome_some]⟩
      obtain rfl := hleads.eq hleadsj hci hcj
      obtain rfl : c = best.1 := Option.some.inj (hget.symm.trans hgetj)
      rw [lastModule_take_of_ownModule hget hown] at hlast
      rw [Option.some.inj hlast]

variable [DecidableEq C]

lemma select_of_none (h : (available.foldl (selectStep query) .init).best = none) :
    select query available =
      { ret := .error .notFound, bestModule := none, bestComponent := none, closed := available,
        available := [] } := by
  simp [select, h, componentsClose_eq]

lemma select_of_some {c : C} {m : M}
    (h : (available.foldl (selectStep query) .init).best = some (c, m)) :
    select query available =
      { ret := .ok (), bestModule := some m, bestComponent := some c,
        closed := available.filter (some c ≠ some ·),
        available := available.filter (some c = some ·) } := by
  simp only [select, h, componentsClose_eq]

/-- **When the best component is selected.** It is exactly when, with the priorities that are in
the shared variable, the best component has one above `INT32_MIN`, a greater one than everything
that is considered before it, and at least the one of everything that is considered behind it. -/
theorem select_picks_best_iff (query : C → Option (Query M)) (available : List C) :
    PicksBest query available (select query available) ↔
      ∀ best ∈ bestComponent query available,
        ∃ i, available[i]? = some best ∧ Outranks query available i := by
  have hscan := selectScan_foldl query available
  constructor
  · intro h best hmem
    obtain ⟨hret, hcomponent, -⟩ := h.best best hmem
    cases hbest : (available.foldl (selectStep query) .init).best with
    | none =>
        rw [select_of_none hbest] at hret
        cases hret
    | some b =>
        rw [select_of_some hbest] at hcomponent
        obtain rfl : b.1 = best := Option.some.inj hcomponent
        obtain ⟨i, hget, -, -, -, hleads⟩ := hscan.some b.1 b.2 hbest
        exact ⟨i, hget, hleads⟩
  · intro h
    have hselected (best : C) (hmem : best ∈ bestComponent query available) :
        ∃ m, ownModule query best = some m ∧
          (available.foldl (selectStep query) .init).best = some (best, m) := by
      obtain ⟨i, hget, hleads⟩ := h best hmem
      obtain ⟨m, hown⟩ := ownModule_of_bestComponent hmem
      exact ⟨m, hown, best_of_outranks hget hown hleads⟩
    refine ⟨⟨fun hret c hc => ?_, fun hnone => ?_⟩, fun best hmem => ?_, ?_, ?_⟩
    · by_contra hown
      obtain ⟨best, -, hmem⟩ := exists_bestComponent hc hown
      obtain ⟨m, -, hbest⟩ := hselected best hmem
      rw [select_of_some hbest] at hret
      cases hret
    · cases hbest : (available.foldl (selectStep query) .init).best with
      | none => rw [select_of_none hbest]
      | some b =>
          -- Whatever is in the shared variable has been written by some query function.
          obtain ⟨i, -, -, hlast, -, -⟩ := hscan.some b.1 b.2 hbest
          rw [lastModule_eq_none fun c hc => hnone c (List.mem_of_mem_take hc)] at hlast
          cases hlast
    · obtain ⟨m, hown, hbest⟩ := hselected best hmem
      rw [select_of_some hbest, hown]
      exact ⟨rfl, rfl, rfl⟩
    all_goals
      cases hbest : (available.foldl (selectStep query) .init).best with
      | none => simp [select_of_none hbest]
      | some b => simp [select_of_some hbest]

/-- The first of two components returns a module, the other only sets a higher priority. -/
def twoQueries (second : Bool) : Option (Query Unit) :=
  if second then some ⟨none, some ⟨2, by decide⟩⟩
  else some ⟨some (some ()), some ⟨1, by decide⟩⟩

/-- The second component is selected with the module of the first. -/
theorem select_picks_best_twoQueries_fails :
    (select twoQueries [false, true]).bestComponent = some true ∧
      ownModule twoQueries true = none ∧
      ¬ PicksBest twoQueries [false, true] (select twoQueries [false, true]) := by
  have hbest : bestComponent twoQueries [false, true] = some false := by decide
  refine ⟨by decide, by decide, fun h => ?_⟩
  obtain ⟨-, hcomponent, -⟩ := h.best false hbest
  revert hcomponent
  decide

end Theorem
end Ocoms
