import Mathlib.Data.List.Nodup
import Mathlib.Data.List.Perm.Basic
import Mathlib.Order.Bounds.Basic
import Mathlib.Tactic.Common

/-!
Shortest paths in directed graphs with weights, and the greedy search for them.

* `Path arc u v p n`: `p` lists the vertices of a path from `u` to `v` of weight `n`, over the arcs
  `arc a b n` from `a` to `b` of weight `n`. `Path.exists_simple` makes a path simple.
* `Distance arc inf u v d`: the least weight of a path is `d`, or there is no path and `d = inf`.
* `Walk w s v n` is a walk that may take any pair of vertices, at the price `w`; `IsDist` is the
  distance cut off at `inf`. Over arcs whose weights are given by `w` it is `Distance`
  (`IsDist.distance`).
* `Search w inf s done queue` is the invariant of a search that has settled `done` and still has
  `queue`; `Search.start` begins it, `Search.settle` settles an entry of least weight, and `relax`
  lowers the others.
-/

namespace Ocoms.ShortestPaths

variable {V : Type*}

/-! ### Paths -/

/-- A path from `u` to `v` of weight `n` through the vertices `p`. -/
inductive Path (arc : V → V → ℕ → Prop) : V → V → List V → ℕ → Prop
  | nil (v : V) : Path arc v v [v] 0
  | cons {u x v : V} {p : List V} {n m : ℕ} :
      arc u x n → Path arc x v p m → Path arc u v (u :: p) (n + m)

/-- The least weight of a path from `u` to `v`; `inf` where there is no path. -/
def Distance (arc : V → V → ℕ → Prop) (inf : ℕ) (u v : V) (d : ℕ) : Prop :=
  IsLeast {n | ∃ p, Path arc u v p n} d ∨ (∀ p n, ¬ Path arc u v p n) ∧ d = inf

section Path

variable {arc arc' : V → V → ℕ → Prop} {u v x : V} {p : List V} {n m inf : ℕ}

lemma Path.snoc (h : Path arc u v p n) (hx : arc v x m) : Path arc u x (p ++ [x]) (n + m) := by
  induction h with
  | nil v =>
      rw [Nat.zero_add]
      exact .cons hx (.nil x)
  | cons ha _ ih =>
      rw [Nat.add_assoc]
      exact .cons ha (ih hx)

lemma Path.mono (h : Path arc u v p n) (harc : ∀ a b k, arc a b k → arc' a b k) :
    Path arc' u v p n := by
  induction h with
  | nil v => exact .nil v
  | cons ha _ ih => exact .cons (harc _ _ _ ha) ih

lemma Path.head_mem (h : Path arc u v p n) : u ∈ p := by
  cases h with
  | nil => exact List.mem_cons_self
  | cons => exact List.mem_cons_self

/-- A simple path has no arc from a vertex to itself. -/
lemma Path.mono_of_nodup (h : Path arc u v p n) (hnodup : p.Nodup)
    (harc : ∀ a b k, a ≠ b → arc a b k → arc' a b k) : Path arc' u v p n := by
  induction h with
  | nil v => exact .nil v
  | @cons u x v p n m ha hpath ih =>
      obtain ⟨hu, hnodup⟩ := List.nodup_cons.mp hnodup
      have hne : u ≠ x := fun hux => hu (hux ▸ hpath.head_mem)
      exact .cons (harc u x n hne ha) (ih hnodup)

/-- A path goes on from each of its vertices. -/
lemma Path.suffix (h : Path arc u v p n) (hx : x ∈ p) :
    ∃ q m, Path arc x v q m ∧ q.Sublist p ∧ m ≤ n := by
  induction h with
  | nil v =>
      obtain rfl := List.mem_singleton.mp hx
      exact ⟨[x], 0, .nil x, .refl _, le_rfl⟩
  | @cons u y v p n m ha hpath ih =>
      rcases List.mem_cons.mp hx with rfl | htail
      · exact ⟨_, _, .cons ha hpath, .refl _, le_rfl⟩
      · obtain ⟨q, k, hq, hsub, hle⟩ := ih htail
        exact ⟨q, k, hq, hsub.cons u, by omega⟩

/-- **A path can be made simple**, and does not get heavier. -/
lemma Path.exists_simple (h : Path arc u v p n) :
    ∃ q m, Path arc u v q m ∧ q.Nodup ∧ m ≤ n := by
  induction h with
  | nil v => exact ⟨[v], 0, .nil v, List.nodup_singleton v, le_rfl⟩
  | @cons u y v p n m ha hpath ih =>
      obtain ⟨q, k, hq, hnodup, hle⟩ := ih
      by_cases hu : u ∈ q
      · obtain ⟨q', k', hq', hsub, hle'⟩ := hq.suffix hu
        exact ⟨q', k', hq', hnodup.sublist hsub, by omega⟩
      · exact ⟨u :: q, n + k, .cons ha hq, List.nodup_cons.mpr ⟨hu, hnodup⟩, by omega⟩

/-- Only one number is the distance. -/
lemma Distance.unique {d d' : ℕ} (h : Distance arc inf u v d) (h' : Distance arc inf u v d') :
    d = d' := by
  rcases h with hleast | ⟨hnone, rfl⟩ <;> rcases h' with hleast' | ⟨hnone', rfl⟩
  · exact hleast.unique hleast'
  · obtain ⟨p, hp⟩ := hleast.1
    exact absurd hp (hnone' p _)
  · obtain ⟨p, hp⟩ := hleast'.1
    exact absurd hp (hnone p _)
  · rfl

end Path

/-! ### Walks -/

/-- A walk from `s` over any pairs of vertices. -/
inductive Walk (w : V → V → ℕ) (s : V) : V → ℕ → Prop
  | nil : Walk w s s 0
  | snoc {v : V} {n : ℕ} (x : V) : Walk w s v n → Walk w s x (n + w v x)

/-- The least weight of a walk to `v`, cut off at `inf`. -/
structure IsDist (w : V → V → ℕ) (inf : ℕ) (s v : V) (d : ℕ) : Prop where
  le_inf : d ≤ inf
  le_walk : ∀ n, Walk w s v n → d ≤ n
  walk : d < inf → Walk w s v d

section Walk

variable {w : V → V → ℕ} {arc : V → V → ℕ → Prop} {inf : ℕ} {s u v : V} {p : List V} {n m d : ℕ}

lemma Walk.append_path (h : Walk w s u n) (hpath : Path arc u v p m)
    (harc : ∀ a b k, arc a b k → k = w a b) : Walk w s v (n + m) := by
  induction hpath generalizing n with
  | nil v => exact h
  | @cons u x v p k m ha _ ih =>
      obtain rfl := harc _ _ _ ha
      rw [← Nat.add_assoc]
      exact ih (h.snoc x)

/-- A walk of weight below `inf` takes arcs only, or stays where it is. -/
lemma Walk.exists_path (h : Walk w s v n) (hlt : n < inf)
    (harc : ∀ a b, w a b < inf → arc a b (w a b) ∨ a = b ∧ w a b = 0) :
    ∃ p, Path arc s v p n := by
  induction h with
  | nil => exact ⟨_, .nil s⟩
  | @snoc v n x _ ih =>
      obtain ⟨p, hp⟩ := ih (by omega)
      rcases harc v x (by omega) with ha | ⟨rfl, hzero⟩
      · exact ⟨_, hp.snoc ha⟩
      · rw [hzero]
        exact ⟨p, hp⟩

/-- **The distance cut off at `inf`** is the distance, where simple paths weigh less than `inf`. -/
lemma IsDist.distance (h : IsDist w inf s v d) (harc : ∀ a b k, arc a b k → k = w a b)
    (hfree : ∀ a b, w a b < inf → arc a b (w a b) ∨ a = b ∧ w a b = 0)
    (hsimple : ∀ p n, Path arc s v p n → p.Nodup → n < inf) : Distance arc inf s v d := by
  have hle : ∀ p n, Path arc s v p n → d ≤ n := by
    intro p n hp
    have hwalk := Walk.append_path (w := w) .nil hp harc
    rw [Nat.zero_add] at hwalk
    exact h.le_walk n hwalk
  by_cases hpath : ∃ p n, Path arc s v p n
  · obtain ⟨p, n, hp⟩ := hpath
    obtain ⟨q, m, hq, hnodup, -⟩ := hp.exists_simple
    have hlt : d < inf := (hle q m hq).trans_lt (hsimple q m hq hnodup)
    refine .inl ⟨(h.walk hlt).exists_path hlt hfree, fun k hk => ?_⟩
    obtain ⟨p', hp'⟩ := hk
    exact hle p' k hp'
  · refine .inr ⟨fun p n hp => hpath ⟨p, n, hp⟩, le_antisymm h.le_inf (not_lt.mp fun hlt => ?_)⟩
    obtain ⟨p, hp⟩ := (h.walk hlt).exists_path hlt hfree
    exact hpath ⟨p, d, hp⟩

end Walk

/-! ### The search -/

/-- A vertex with a weight is lowered to a walk through `cur`. -/
def relax (w : V → V → ℕ) (cur q : V × ℕ) : V × ℕ :=
  if cur.2 + w cur.1 q.1 < q.2 then (q.1, cur.2 + w cur.1 q.1) else q

/-- What a search knows: the settled entries are distances, the others are walks or `inf`, and no
entry of the queue is above a walk that leaves the settled entries by one step. -/
structure Search (w : V → V → ℕ) (inf : ℕ) (s : V) (done queue : List (V × ℕ)) : Prop where
  nodup : ((done ++ queue).map Prod.fst).Nodup
  outside : ∀ v, v ∉ (done ++ queue).map Prod.fst → ∀ x, inf ≤ w x v
  source : (s, 0) ∈ done ++ queue
  final : ∀ p ∈ done, IsDist w inf s p.1 p.2
  le_inf : ∀ q ∈ queue, q.2 ≤ inf
  walk : ∀ q ∈ queue, q.2 < inf → Walk w s q.1 q.2
  relaxed : ∀ p ∈ done, ∀ q ∈ queue, q.2 ≤ p.2 + w p.1 q.1
  below : ∀ p ∈ done, ∀ q ∈ queue, p.2 ≤ q.2
  sorted : done.Pairwise fun p q => p.2 ≤ q.2

section Search

variable {w : V → V → ℕ} {inf : ℕ} {s : V} {done queue queue' : List (V × ℕ)} {cur : V × ℕ}

lemma relax_fst (w : V → V → ℕ) (cur q : V × ℕ) : (relax w cur q).1 = q.1 := by
  rw [relax]
  split <;> rfl

lemma relax_snd (w : V → V → ℕ) (cur q : V × ℕ) :
    (relax w cur q).2 = min q.2 (cur.2 + w cur.1 q.1) := by
  rw [relax]
  split <;> omega

/-- Before the search only the source has a weight. -/
lemma Search.start [DecidableEq V] {vs : List V} (hnodup : vs.Nodup) (hs : s ∈ vs)
    (hout : ∀ v, v ∉ vs → ∀ x, inf ≤ w x v) :
    Search w inf s [] (vs.map fun v => (v, if v = s then 0 else inf)) := by
  have hfst : (vs.map fun v => (v, if v = s then 0 else inf)).map Prod.fst = vs := by
    rw [List.map_map]
    exact List.map_id' vs
  refine ⟨?_, fun v hv => hout v ?_, ?_, fun p hp => absurd hp List.not_mem_nil, fun q hq => ?_,
    fun q hq hlt => ?_, fun p hp => absurd hp List.not_mem_nil,
    fun p hp => absurd hp List.not_mem_nil, .nil⟩
  · rw [List.nil_append, hfst]
    exact hnodup
  · rwa [List.nil_append, hfst] at hv
  · exact List.mem_map.mpr ⟨s, hs, by rw [if_pos rfl]⟩
  · obtain ⟨v, -, rfl⟩ := List.mem_map.mp hq
    dsimp only
    split <;> omega
  · obtain ⟨v, -, rfl⟩ := List.mem_map.mp hq
    by_cases hv : v = s
    · rw [if_pos hv, hv]
      exact .nil
    · rw [if_neg hv] at hlt
      exact absurd hlt (lt_irrefl inf)

lemma Search.perm (h : Search w inf s done queue) (hperm : queue.Perm queue') :
    Search w inf s done queue' where
  nodup := ((hperm.append_left done).map _).nodup_iff.mp h.nodup
  outside v hv := h.outside v fun hmem =>
    hv (((hperm.append_left done).map _).mem_iff.mp hmem)
  source := (hperm.append_left done).mem_iff.mp h.source
  final := h.final
  le_inf q hq := h.le_inf q (hperm.mem_iff.mpr hq)
  walk q hq := h.walk q (hperm.mem_iff.mpr hq)
  relaxed p hp q hq := h.relaxed p hp q (hperm.mem_iff.mpr hq)
  below p hp q hq := h.below p hp q (hperm.mem_iff.mpr hq)
  sorted := h.sorted

/-- **The greedy step.** A walk ends in a settled entry that is not heavier, or is not lighter than
the least entry of the queue. -/
lemma Search.walk_le (h : Search w inf s done (cur :: queue)) (hmin : ∀ q ∈ queue, cur.2 ≤ q.2)
    {v : V} {n : ℕ} (hwalk : Walk w s v n) : (∃ d ≤ n, (v, d) ∈ done) ∨ cur.2 ≤ n := by
  have hqueue : ∀ q ∈ cur :: queue, cur.2 ≤ q.2 := by
    intro q hq
    rcases List.mem_cons.mp hq with rfl | hq
    · exact le_rfl
    · exact hmin q hq
  induction hwalk with
  | nil =>
      rcases List.mem_append.mp h.source with hdone | hqueued
      · exact .inl ⟨0, le_rfl, hdone⟩
      · exact .inr (hqueue _ hqueued)
  | @snoc v n x hwalk ih =>
      rcases ih with ⟨d, hle, hdone⟩ | hle
      · by_cases hx : x ∈ (done ++ cur :: queue).map Prod.fst
        · obtain ⟨q, hq, rfl⟩ := List.mem_map.mp hx
          rcases List.mem_append.mp hq with hq | hq
          · exact .inl ⟨q.2, (h.final q hq).le_walk _ (hwalk.snoc q.1), hq⟩
          · -- the first step out of the settled entries
            have hrelaxed := h.relaxed _ hdone q hq
            have hcur := hqueue q hq
            dsimp only at hrelaxed
            exact .inr (by omega)
        · have hout := h.outside x hx v
          have hinf := h.le_inf cur List.mem_cons_self
          exact .inr (by omega)
      · exact .inr (by omega)

/-- **The least entry of the queue is settled**, and the others are relaxed. -/
lemma Search.settle (h : Search w inf s done (cur :: queue)) (hmin : ∀ q ∈ queue, cur.2 ≤ q.2) :
    Search w inf s (done ++ [cur]) (queue.map (relax w cur)) := by
  have hfst : (done ++ [cur] ++ queue.map (relax w cur)).map Prod.fst
      = (done ++ cur :: queue).map Prod.fst := by
    rw [List.append_assoc, List.singleton_append, List.map_append, List.map_append, List.map_cons,
      List.map_cons, List.map_map]
    congr 2
    exact List.map_congr_left fun q _ => relax_fst w cur q
  have hnew : cur.1 ∉ done.map Prod.fst := by
    intro hmem
    have hnodup := h.nodup
    rw [List.map_append, List.map_cons] at hnodup
    exact List.disjoint_of_nodup_append hnodup hmem List.mem_cons_self
  have hcur : IsDist w inf s cur.1 cur.2 := by
    refine ⟨h.le_inf cur List.mem_cons_self, fun n hwalk => ?_, h.walk cur List.mem_cons_self⟩
    rcases h.walk_le hmin hwalk with ⟨d, -, hdone⟩ | hle
    · exact absurd (List.mem_map_of_mem hdone) hnew
    · exact hle
  refine ⟨hfst ▸ h.nodup, fun v hv => h.outside v (hfst ▸ hv), ?_, fun p hp => ?_, fun q' hq' => ?_,
    fun q' hq' hlt => ?_, fun p hp q' hq' => ?_, fun p hp q' hq' => ?_, ?_⟩
  · have hsame : relax w cur (s, 0) = (s, 0) := if_neg (Nat.not_lt_zero _)
    rw [List.append_assoc, List.singleton_append]
    rcases List.mem_append.mp h.source with hs | hs
    · exact List.mem_append_left _ hs
    · rcases List.mem_cons.mp hs with hs | hs
      · rw [hs]
        exact List.mem_append_right _ List.mem_cons_self
      · exact List.mem_append_right _ (List.mem_cons_of_mem _ (hsame ▸ List.mem_map_of_mem hs))
  · rcases List.mem_append.mp hp with hp | hp
    · exact h.final p hp
    · rw [List.mem_singleton.mp hp]
      exact hcur
  · obtain ⟨q, hq, rfl⟩ := List.mem_map.mp hq'
    have hle := h.le_inf q (List.mem_cons_of_mem cur hq)
    rw [relax_snd]
    omega
  · obtain ⟨q, hq, rfl⟩ := List.mem_map.mp hq'
    by_cases hlower : cur.2 + w cur.1 q.1 < q.2
    · rw [relax, if_pos hlower] at hlt ⊢
      dsimp only at hlt
      exact (hcur.walk (by omega)).snoc q.1
    · rw [relax, if_neg hlower] at hlt ⊢
      exact h.walk q (List.mem_cons_of_mem cur hq) hlt
  · obtain ⟨q, hq, rfl⟩ := List.mem_map.mp hq'
    rw [relax_fst, relax_snd]
    rcases List.mem_append.mp hp with hp | hp
    · have hle := h.relaxed p hp q (List.mem_cons_of_mem cur hq)
      omega
    · rw [List.mem_singleton.mp hp]
      exact Nat.min_le_right _ _
  · obtain ⟨q, hq, rfl⟩ := List.mem_map.mp hq'
    rw [relax_snd]
    have hle := hmin q hq
    rcases List.mem_append.mp hp with hp | hp
    · have hbelow := h.below p hp cur List.mem_cons_self
      omega
    · rw [List.mem_singleton.mp hp]
      omega
  · refine List.pairwise_append.mpr ⟨h.sorted, List.pairwise_singleton _ _, fun p hp q hq => ?_⟩
    rw [List.mem_singleton.mp hq]
    exact h.below p hp cur List.mem_cons_self

end Search

end Ocoms.ShortestPaths
