import Mathlib.Data.List.Find
import Ocoms.Lib.Qsort
import Ocoms.Lib.ShortestPaths
import Ocoms.Util.Graph

/-!
Distances in graphs: `ocoms_graph_adjacent`, `ocoms_graph_dijkstra` and `ocoms_graph_spf`.

* `Graph.Arc` are the arcs with the weights of `ocoms_graph_adjacent`, `Graph.EdgeArc` those of all
  edges, `Graph.FirstArc` those of the edges that stand first between their ends.
* `Graph.Ordered.dijkstraLoop`: the loop of `ocoms_graph_dijkstra` is a search.
* `dijkstra_distances`: the entries of `ocoms_graph_dijkstra` are the distances.
* `spf_iff`: when `ocoms_graph_spf` is the distance over all edges.
-/

namespace Ocoms

open ShortestPaths

/-- `DISTANCE_INFINITY`. -/
def distanceInfinity : UInt32 := 0x7fffffff

/-- `vertex_distance_from_t`. -/
structure VertexDistance (V : Type*) where
  vertex : V
  weight : UInt32
  deriving DecidableEq

/-- `compare_vertex_distance`. -/
def compareVertexDistance {V : Type*} (a b : VertexDistance V) : ℤ :=
  if b.weight < a.weight then 1 else if a.weight = b.weight then 0 else -1

/-- `qsort` as it is used here. -/
abbrev VertexSort (V : Type*) := Qsort (VertexDistance V) compareVertexDistance

namespace Graph

variable {V : Type*}

section Functions

variable [DecidableEq V]

/-! ### The functions -/

/-- The edges of `vertex->in_adj_list`. -/
def edgesOf (g : Graph V) (vertex : V) : List (Edge V) :=
  (g.adjacencyList.find? (·.vertex = vertex)).elim [] AdjacencyList.edges

/-- `ocoms_graph_adjacent`. -/
def adjacent (g : Graph V) (vertex1 vertex2 : V) : UInt32 :=
  if vertex1 ∉ g.vertices then distanceInfinity
  else if vertex2 ∉ g.vertices then distanceInfinity
  else if vertex1 = vertex2 then 0
  else match (g.edgesOf vertex1).find? (·.endVertex = vertex2) with
    | some edge => edge.weight
    | none => distanceInfinity

/-- The body of the inner loop of `ocoms_graph_dijkstra`. -/
def lower (g : Graph V) (current q : VertexDistance V) : VertexDistance V :=
  let weight := g.adjacent current.vertex q.vertex
  if current.weight + weight < q.weight then { q with weight := weight + current.weight } else q

/-- The loop of `ocoms_graph_dijkstra` over the queue, which is sorted again after every vertex. -/
def dijkstraLoop (qsort : VertexSort V) (g : Graph V) :
    ℕ → List (VertexDistance V) → List (VertexDistance V)
  | 0, q => q
  | _ + 1, [] => []
  | numberOfItemsInQ + 1, current :: q =>
      current :: dijkstraLoop qsort g numberOfItemsInQ (qsort.sort (q.map (g.lower current)))

/-- `ocoms_graph_dijkstra`: the size of the answer, and the distance array with the answer behind
it. The working queue has room for `number_of_vertices` entries, and all of them are read. -/
def dijkstra (qsort : VertexSort V) (g : Graph V) (vertex : V)
    (distanceArray : List (VertexDistance V)) : Option (ℕ × List (VertexDistance V)) :=
  if vertex ∉ g.vertices then some (0, distanceArray)
  else if g.numberOfVertices ≠ g.adjacencyList.length then none
  else
    let start := g.vertices.map fun v => ⟨v, if v = vertex then 0 else distanceInfinity⟩
    let q := dijkstraLoop qsort g start.length (qsort.sort start)
    some ((g.numberOfVertices - 1).toNat, distanceArray ++ q.tail)

/-- `ocoms_graph_spf`. -/
def spf (qsort : VertexSort V) (g : Graph V) (vertex1 vertex2 : V) : Option UInt32 :=
  if vertex1 ∉ g.vertices then some distanceInfinity
  else if vertex2 ∉ g.vertices then some distanceInfinity
  else (g.dijkstra qsort vertex1 []).map fun (items, distanceArray) =>
    ((distanceArray.take items).find? (·.vertex = vertex2)).elim distanceInfinity
      VertexDistance.weight

/-! ### Arcs -/

/-- The edge from `a` to `b` that was added first. -/
def firstEdge (g : Graph V) (a b : V) : Option (Edge V) :=
  g.edges.find? fun e => e.startVertex = a ∧ e.endVertex = b

/-- The arcs between vertices of the graph that an edge joins, with the weight that
`ocoms_graph_adjacent` gives them. -/
def Arc (g : Graph V) (a b : V) (n : ℕ) : Prop :=
  b ∈ g.vertices ∧ (∃ e ∈ g.edges, e.startVertex = a ∧ e.endVertex = b) ∧
    n = (g.adjacent a b).toNat

/-- All edges between vertices of the graph. -/
def EdgeArc (g : Graph V) (a b : V) (n : ℕ) : Prop :=
  b ∈ g.vertices ∧ ∃ e ∈ g.edges, e.startVertex = a ∧ e.endVertex = b ∧ e.weight.toNat = n

/-- The edges that stand first between their ends. -/
def FirstArc (g : Graph V) (a b : V) (n : ℕ) : Prop :=
  b ∈ g.vertices ∧ ∃ e, g.firstEdge a b = some e ∧ e.weight.toNat = n

end Functions

section Arcs

variable [DecidableEq V] {g : Graph V} {a b : V}

lemma find?_flatMap_of_ne (h : g.Ordered) {ajs : List (AdjacencyList V)}
    (hsub : ∀ aj ∈ ajs, aj ∈ g.adjacencyList) (hne : ∀ aj ∈ ajs, aj.vertex ≠ a) :
    (ajs.flatMap AdjacencyList.edges).find? (fun e => e.startVertex = a ∧ e.endVertex = b)
      = none := by
  refine List.find?_eq_none.mpr fun e he => ?_
  obtain ⟨aj, haj, he⟩ := List.mem_flatMap.mp he
  have hstart := h.start aj (hsub aj haj) e he
  have hvertex := hne aj haj
  rw [← hstart] at hvertex
  simp [hvertex]

/-- The first edge is found in the adjacency list of its start vertex. -/
lemma Ordered.firstEdge_eq (h : g.Ordered) (ha : a ∈ g.vertices) (b : V) :
    g.firstEdge a b = (g.edgesOf a).find? (·.endVertex = b) := by
  obtain ⟨l₁, aj, l₂, hsplit, rfl, h₁, h₂⟩ := exists_split h.nodup ha
  have hfind : g.adjacencyList.find? (·.vertex = aj.vertex) = some aj := by
    rw [hsplit, List.find?_append, List.find?_eq_none.mpr fun x hx => by simpa using h₁ x hx,
      Option.none_or, List.find?_cons_of_pos (by simp)]
  have hown : aj.edges.find? (fun e => e.startVertex = aj.vertex ∧ e.endVertex = b)
      = aj.edges.find? (·.endVertex = b) := by
    refine List.find?_congr fun e he => ?_
    have hstart := h.start aj (by rw [hsplit]; simp) e he
    simp [hstart]
  rw [firstEdge, edges, hsplit, List.flatMap_append, List.flatMap_cons, List.find?_append,
    List.find?_append, find?_flatMap_of_ne h (fun x hx => by rw [hsplit]; simp [hx]) h₁,
    find?_flatMap_of_ne h (fun x hx => by rw [hsplit]; simp [hx]) h₂, Option.none_or,
    Option.or_none, hown, edgesOf, hfind, Option.elim_some]

lemma Ordered.adjacent_eq (h : g.Ordered) (ha : a ∈ g.vertices) (hb : b ∈ g.vertices)
    (hne : a ≠ b) : g.adjacent a b = (g.firstEdge a b).elim distanceInfinity Edge.weight := by
  rw [adjacent, if_neg (not_not.mpr ha), if_neg (not_not.mpr hb), if_neg hne, h.firstEdge_eq ha]
  cases (g.edgesOf a).find? (·.endVertex = b) <;> rfl

lemma adjacent_self (ha : a ∈ g.vertices) : g.adjacent a a = 0 := by
  rw [adjacent, if_neg (not_not.mpr ha), if_neg (not_not.mpr ha), if_pos rfl]

lemma adjacent_of_notMem (hb : b ∉ g.vertices) (a : V) : g.adjacent a b = distanceInfinity := by
  rw [adjacent, if_pos hb, ite_self]

lemma exists_firstEdge {e : Edge V} (he : e ∈ g.edges) :
    ∃ e', g.firstEdge e.startVertex e.endVertex = some e' := by
  refine Option.isSome_iff_exists.mp (List.find?_isSome.mpr ⟨e, he, ?_⟩)
  simp

lemma firstEdge_some {e : Edge V} (h : g.firstEdge a b = some e) :
    e ∈ g.edges ∧ e.startVertex = a ∧ e.endVertex = b := by
  have hends := List.find?_some h
  exact ⟨List.mem_of_find?_eq_some h, of_decide_eq_true hends⟩

lemma FirstArc.edgeArc {n : ℕ} (h : g.FirstArc a b n) : g.EdgeArc a b n := by
  obtain ⟨hb, e, hfirst, hweight⟩ := h
  obtain ⟨he, hstart, hend⟩ := firstEdge_some hfirst
  exact ⟨hb, e, he, hstart, hend, hweight⟩

/-- Between two vertices the weight that counts is that of the first edge. -/
lemma Ordered.arc_iff (h : g.Ordered) (hne : a ≠ b) {n : ℕ} : g.Arc a b n ↔ g.FirstArc a b n := by
  constructor
  · rintro ⟨hb, ⟨e, he, rfl, rfl⟩, rfl⟩
    obtain ⟨e', hfirst⟩ := exists_firstEdge he
    refine ⟨hb, e', hfirst, ?_⟩
    rw [h.adjacent_eq (h.start_mem he) hb hne, hfirst]
    rfl
  · rintro ⟨hb, e, hfirst, rfl⟩
    obtain ⟨he, rfl, rfl⟩ := firstEdge_some hfirst
    refine ⟨hb, ⟨e, he, rfl, rfl⟩, ?_⟩
    rw [h.adjacent_eq (h.start_mem he) hb hne, hfirst]
    rfl

end Arcs

/-! ### The search -/

/-- An entry of the queue, as the search sees it. -/
def entry (q : VertexDistance V) : V × ℕ := (q.vertex, q.weight.toNat)

lemma compareVertexDistance_le {a b : VertexDistance V} :
    compareVertexDistance a b ≤ 0 ↔ a.weight.toNat ≤ b.weight.toNat := by
  rw [compareVertexDistance]
  simp only [UInt32.lt_iff_toNat_lt, ← UInt32.toNat_inj]
  split_ifs <;> omega

section Search

variable [DecidableEq V] {g : Graph V} {u : V}

/-- The weights that the search uses. -/
def price (g : Graph V) (a b : V) : ℕ := (g.adjacent a b).toNat

/-- Simple paths weigh less than `DISTANCE_INFINITY`. -/
def Light (arc : V → V → ℕ → Prop) : Prop :=
  ∀ a b p n, Path arc a b p n → p.Nodup → n < distanceInfinity.toNat

lemma arc_eq_price {a b : V} {n : ℕ} (h : g.Arc a b n) : n = g.price a b := h.2.2

/-- A price is that of an arc, or `DISTANCE_INFINITY`, or that of staying. -/
lemma Ordered.price_cases (h : g.Ordered) (a b : V) :
    g.Arc a b (g.price a b) ∨ g.price a b = distanceInfinity.toNat ∨ a = b ∧ g.price a b = 0 := by
  by_cases ha : a ∈ g.vertices
  · by_cases hb : b ∈ g.vertices
    · by_cases hab : a = b
      · refine .inr (.inr ⟨hab, ?_⟩)
        rw [price, ← hab, adjacent_self ha]
        rfl
      · cases hfirst : g.firstEdge a b with
        | none =>
            refine .inr (.inl ?_)
            rw [price, h.adjacent_eq ha hb hab, hfirst, Option.elim_none]
        | some e =>
            obtain ⟨he, hstart, hend⟩ := firstEdge_some hfirst
            exact .inl ⟨hb, ⟨e, he, hstart, hend⟩, rfl⟩
    · exact .inr (.inl (by rw [price, adjacent_of_notMem hb]))
  · refine .inr (.inl ?_)
    rw [price, adjacent, if_pos ha]

lemma Ordered.price_le (h : g.Ordered) (hlight : Light g.Arc) {a b : V} :
    g.price a b ≤ distanceInfinity.toNat := by
  rcases h.price_cases a b with harc | hinf | ⟨-, hzero⟩
  · by_cases hab : a = b
    · have hself := g.adjacent_self (hab ▸ harc.1)
      rw [price, ← hab, hself]
      exact Nat.zero_le _
    · have hpath : Path g.Arc a b [a, b] (g.price a b) := .cons harc (.nil b)
      exact (hlight a b _ _ hpath (by simp [hab])).le
  · exact hinf.le
  · rw [hzero]
    exact Nat.zero_le _

/-- Lowering an entry does not overflow. -/
lemma Ordered.entry_lower (h : g.Ordered) (hlight : Light g.Arc) {current q : VertexDistance V}
    (hcurrent : current.weight.toNat ≤ distanceInfinity.toNat) :
    entry (g.lower current q) = relax g.price (entry current) (entry q) := by
  have hle := h.price_le hlight (a := current.vertex) (b := q.vertex)
  have hinf : distanceInfinity.toNat = 2 ^ 31 - 1 := rfl
  have hsum : (current.weight + g.adjacent current.vertex q.vertex).toNat
      = current.weight.toNat + g.price current.vertex q.vertex := by
    rw [UInt32.toNat_add, ← price, Nat.mod_eq_of_lt (by omega)]
  by_cases hlt : current.weight.toNat + g.price current.vertex q.vertex < q.weight.toNat
  · have hlt' : current.weight + g.adjacent current.vertex q.vertex < q.weight := by
      rwa [UInt32.lt_iff_toNat_lt, hsum]
    have hrelax : relax g.price (entry current) (entry q)
        = (q.vertex, current.weight.toNat + g.price current.vertex q.vertex) := if_pos hlt
    rw [hrelax, lower, if_pos hlt', entry, UInt32.add_comm, hsum]
  · have hlt' : ¬ current.weight + g.adjacent current.vertex q.vertex < q.weight := by
      rwa [UInt32.lt_iff_toNat_lt, hsum]
    have hrelax : relax g.price (entry current) (entry q) = entry q := if_neg hlt
    rw [hrelax, lower, if_neg hlt']

/-- **The loop of `ocoms_graph_dijkstra`** is a search: the entries that it takes from the queue are
settled in order. -/
lemma Ordered.dijkstraLoop (h : g.Ordered) (hlight : Light g.Arc) (qsort : VertexSort V) {n : ℕ}
    {done q : List (VertexDistance V)} (hlen : q.length = n)
    (hsorted : q.Pairwise fun a b => a.weight.toNat ≤ b.weight.toNat)
    (hsearch : Search g.price distanceInfinity.toNat u (done.map entry) (q.map entry)) :
    ∃ rest, g.dijkstraLoop qsort n q = rest ∧
      (rest.map VertexDistance.vertex).Perm (q.map VertexDistance.vertex) ∧
      Search g.price distanceInfinity.toNat u ((done ++ rest).map entry) [] := by
  induction n generalizing done q with
  | zero =>
      obtain rfl := List.length_eq_zero_iff.mp hlen
      exact ⟨[], rfl, .refl _, by rwa [List.append_nil]⟩
  | succ n ih =>
      cases q with
      | nil => cases hlen
      | cons current q =>
          have hcurrent := hsearch.le_inf (entry current) (List.mem_map_of_mem List.mem_cons_self)
          have hmin : ∀ x ∈ q.map entry, (entry current).2 ≤ x.2 := by
            intro x hx
            obtain ⟨y, hy, rfl⟩ := List.mem_map.mp hx
            exact (List.pairwise_cons.mp hsorted).1 y hy
          have hlower : (q.map (g.lower current)).map entry
              = (q.map entry).map (relax g.price (entry current)) := by
            rw [List.map_map, List.map_map]
            exact List.map_congr_left fun x _ => h.entry_lower hlight hcurrent
          have hperm := qsort.perm (q.map (g.lower current))
          have hvertices : ((q.map (g.lower current)).map VertexDistance.vertex)
              = q.map VertexDistance.vertex := by
            rw [List.map_map]
            refine List.map_congr_left fun x _ => ?_
            rw [Function.comp_apply, lower]
            split <;> rfl
          have hsettle : Search g.price distanceInfinity.toNat u ((done ++ [current]).map entry)
              ((qsort.sort (q.map (g.lower current))).map entry) := by
            rw [List.map_append]
            exact (hsearch.settle hmin).perm (hlower ▸ (hperm.map entry).symm)
          have hlen' : (qsort.sort (q.map (g.lower current))).length = n := by
            rw [hperm.length_eq, List.length_map]
            exact Nat.succ.inj hlen
          obtain ⟨rest, hrest, hrestPerm, hfinal⟩ :=
            ih hlen' ((qsort.sorted _).imp compareVertexDistance_le.mp) hsettle
          refine ⟨current :: rest, ?_, ?_, ?_⟩
          · rw [Graph.dijkstraLoop, hrest]
          · rw [List.map_cons, List.map_cons]
            refine List.Perm.cons _ (hrestPerm.trans ?_)
            rw [← hvertices]
            exact hperm.map _
          · rwa [List.append_assoc, List.singleton_append] at hfinal

/-- The queue before the first sort. -/
lemma map_entry_start (g : Graph V) (u : V) :
    (g.vertices.map fun v => VertexDistance.mk v (if v = u then 0 else distanceInfinity)).map entry
      = g.vertices.map fun v => (v, if v = u then 0 else distanceInfinity.toNat) := by
  rw [List.map_map]
  refine List.map_congr_left fun v _ => ?_
  rw [Function.comp_apply, entry]
  dsimp only
  split <;> rfl

/-- **`ocoms_graph_dijkstra`**: the source comes first, and the other entries are distances. -/
lemma Ordered.dijkstra (h : g.Ordered) (hlight : Light g.Arc) (qsort : VertexSort V)
    (hu : u ∈ g.vertices) (distanceArray : List (VertexDistance V)) :
    ∃ ds, g.dijkstra qsort u distanceArray = some (ds.length, distanceArray ++ ds) ∧
      (u :: ds.map VertexDistance.vertex).Perm g.vertices ∧
      (ds.Pairwise fun a b => a.weight ≤ b.weight) ∧
      ∀ x ∈ ds, Distance g.Arc distanceInfinity.toNat u x.vertex x.weight.toNat := by
  obtain ⟨start, hstart⟩ : ∃ start, start
      = g.vertices.map fun v => VertexDistance.mk v (if v = u then 0 else distanceInfinity) :=
    ⟨_, rfl⟩
  have hperm := qsort.perm start
  have hsorted := (qsort.sorted start).imp compareVertexDistance_le.mp
  have hvertices : start.map VertexDistance.vertex = g.vertices := by
    rw [hstart, List.map_map]
    exact List.map_id' _
  have hsearch : Search g.price distanceInfinity.toNat u (List.map entry [])
      ((qsort.sort start).map entry) := by
    refine Search.perm ?_ (hperm.map entry).symm
    rw [hstart, map_entry_start]
    refine Search.start h.nodup hu fun v hv x => ?_
    rw [price, adjacent_of_notMem hv]
  obtain ⟨rest, hrest, hrestPerm, hfinal⟩ :=
    h.dijkstraLoop hlight qsort hperm.length_eq hsorted hsearch
  rw [List.nil_append] at hfinal
  have hrestVertices : (rest.map VertexDistance.vertex).Perm g.vertices := by
    rw [← hvertices]
    exact hrestPerm.trans (hperm.map _)
  -- the entry of the source is the only one of weight 0, so it comes first
  have hzero : (⟨u, 0⟩ : VertexDistance V) ∈ qsort.sort start := by
    rw [hperm.mem_iff, hstart]
    exact List.mem_map.mpr ⟨u, hu, by rw [if_pos rfl]⟩
  obtain ⟨current, q, hq⟩ : ∃ current q, qsort.sort start = current :: q :=
    List.exists_cons_of_ne_nil (List.ne_nil_of_mem hzero)
  have hcurrent : current.vertex = u := by
    have hle : current.weight.toNat ≤ (0 : UInt32).toNat := by
      rw [hq] at hsorted hzero
      rcases List.mem_cons.mp hzero with hfirst | hlater
      · rw [← hfirst]
      · exact (List.pairwise_cons.mp hsorted).1 _ hlater
    have hmem : current ∈ start := hperm.mem_iff.mp (hq ▸ List.mem_cons_self)
    rw [hstart] at hmem
    obtain ⟨v, -, rfl⟩ := List.mem_map.mp hmem
    have hpos : ¬ distanceInfinity.toNat ≤ (0 : UInt32).toNat := by decide
    by_contra hv
    rw [if_neg hv] at hle
    exact hpos hle
  obtain ⟨n, hn⟩ : ∃ n, start.length = n + 1 := by
    refine ⟨q.length, ?_⟩
    rw [← hperm.length_eq, hq, List.length_cons]
  obtain ⟨ds, rfl⟩ : ∃ ds, rest = current :: ds := by
    rw [← hrest, hq, hn]
    exact ⟨_, rfl⟩
  have hcount : ((g.numberOfVertices - 1).toNat : ℕ) = ds.length := by
    have hlen := hrestVertices.length_eq
    rw [List.length_map, List.length_cons, vertices, List.length_map] at hlen
    rw [h.numberOfVertices, ← hlen]
    omega
  refine ⟨ds, ?_, ?_, ?_, fun x hx => ?_⟩
  · rw [Graph.dijkstra, if_neg (not_not.mpr hu), if_neg (not_not.mpr h.numberOfVertices)]
    dsimp only
    rw [← hstart, hrest, List.tail_cons, hcount]
  · rwa [List.map_cons, hcurrent] at hrestVertices
  · have hpairs := hfinal.sorted
    rw [List.map_cons, List.pairwise_cons, List.pairwise_map] at hpairs
    exact hpairs.2.imp UInt32.le_iff_toNat_le.mpr
  · have hdist := hfinal.final (entry x)
      (List.mem_map_of_mem (List.mem_cons_of_mem current hx))
    refine hdist.distance (fun a b k => arc_eq_price) (fun a b hlt => ?_)
      fun p n hp hnodup => hlight _ _ p n hp hnodup
    rcases h.price_cases a b with harc | hinf | hself
    · exact .inl harc
    · omega
    · exact .inr hself

end Search

end Graph

/-- Insertion sort is a `qsort`. -/
def VertexSort.insertion {V : Type*} : VertexSort V where
  sort := List.insertionSort fun a b => a.weight.toNat ≤ b.weight.toNat
  perm := List.perm_insertionSort _
  sorted l := by
    have htotal : Std.Total fun a b : VertexDistance V => a.weight.toNat ≤ b.weight.toNat :=
      ⟨fun a b => Nat.le_total _ _⟩
    have htrans : IsTrans (VertexDistance V) fun a b => a.weight.toNat ≤ b.weight.toNat :=
      ⟨fun a b c => Nat.le_trans⟩
    exact (List.pairwise_insertionSort _ l).imp Graph.compareVertexDistance_le.mpr

/-- **`ocoms_graph_dijkstra`** appends one entry for each vertex other than the source, in the order
of the weights, and the weight of an entry is the distance of its vertex. -/
theorem dijkstra_distances {V : Type*} [DecidableEq V] (qsort : VertexSort V) {g : Graph V}
    (hg : g.Consistent) (hlight : Graph.Light g.Arc) {u : V} (hu : u ∈ g.vertices)
    (distanceArray : List (VertexDistance V)) :
    ∃ ds, g.dijkstra qsort u distanceArray = some (ds.length, distanceArray ++ ds) ∧
      (ds.map VertexDistance.vertex).Perm (g.vertices.erase u) ∧
      (ds.Pairwise fun a b => a.weight ≤ b.weight) ∧
      ∀ x ∈ ds, Distance g.Arc distanceInfinity.toNat u x.vertex x.weight.toNat := by
  obtain ⟨ds, hds, hperm, hsorted, hdist⟩ := hg.ordered.dijkstra hlight qsort hu distanceArray
  exact ⟨ds, hds, (List.cons_perm_iff_perm_erase.mp hperm).2, hsorted, hdist⟩

/-- The only arc of `Graph.one`. -/
lemma Graph.light_one {arc : Bool → Bool → ℕ → Prop}
    (harc : ∀ a b n, arc a b n → a = false ∧ b = true ∧ n = 5) : Graph.Light arc := by
  have hlt : ∀ c b q m, Path arc c b q m → m ≤ if c then 0 else 5 := by
    intro c b q m hq
    induction hq with
    | nil v => exact Nat.zero_le _
    | cons ha _ ih =>
        obtain ⟨rfl, rfl, rfl⟩ := harc _ _ _ ha
        exact Nat.add_le_add_left ih 5
  intro a b p n hpath _
  have hle := hlt a b p n hpath
  have hinf : distanceInfinity.toNat = 2 ^ 31 - 1 := rfl
  split at hle <;> omega

theorem dijkstra_distances_one :
    ∃ ds, Graph.one.dijkstra .insertion false [] = some (ds.length, [] ++ ds) ∧
      (ds.map VertexDistance.vertex).Perm (Graph.one.vertices.erase false) ∧
      (ds.Pairwise fun a b => a.weight ≤ b.weight) ∧
      ∀ x ∈ ds, Distance Graph.one.Arc distanceInfinity.toNat false x.vertex x.weight.toNat := by
  refine dijkstra_distances .insertion ?_ (Graph.light_one fun a b n harc => ?_) (by decide) []
  · exact ⟨rfl, rfl, by decide, by decide, by decide⟩
  · obtain ⟨-, ⟨e, he, rfl, rfl⟩, rfl⟩ := harc
    obtain rfl := List.mem_singleton.mp he
    exact ⟨rfl, rfl, rfl⟩

/-! ### One pair of vertices -/

namespace Graph

variable {V : Type*} [DecidableEq V] {g : Graph V} {u v : V}

/-- The graphs that `ocoms_graph_add_vertex` and `ocoms_graph_add_edge` build. -/
inductive Built : Graph V → Prop
  | construct : Built construct
  | addVertex {g : Graph V} (vertex : V) : Built g → Built (g.addVertex vertex)
  | addEdge {g g' : Graph V} {edge : Edge V} {rc : GraphRc} :
      Built g → edge ∉ g.edges → g.addEdge edge = some (rc, g') → Built g'

lemma Built.ordered (h : g.Built) : g.Ordered := by
  induction h with
  | construct => exact ⟨rfl, List.nodup_nil, fun _ haj => absurd haj List.not_mem_nil⟩
  | addVertex vertex _ ih => exact ih.addVertex vertex
  | addEdge _ _ hadd ih => exact ih.addEdge hadd

/-- A simple path over the weights of `ocoms_graph_adjacent` takes the first edges. -/
lemma Ordered.firstPath (h : g.Ordered) {p : List V} {n : ℕ} (hpath : Path g.Arc u v p n)
    (hnodup : p.Nodup) : Path g.FirstArc u v p n :=
  hpath.mono_of_nodup hnodup fun _ _ _ hne => (h.arc_iff hne).mp

lemma Ordered.arcPath (h : g.Ordered) {p : List V} {n : ℕ} (hpath : Path g.FirstArc u v p n)
    (hnodup : p.Nodup) : Path g.Arc u v p n :=
  hpath.mono_of_nodup hnodup fun _ _ _ hne => (h.arc_iff hne).mpr

lemma Ordered.light_arc (h : g.Ordered) (hlight : Light g.EdgeArc) : Light g.Arc := by
  intro a b p n hpath hnodup
  exact hlight a b p n ((h.firstPath hpath hnodup).mono fun _ _ _ => FirstArc.edgeArc) hnodup

/-- **`ocoms_graph_spf`** of two vertices is the distance over the first edges. -/
lemma Ordered.spf (h : g.Ordered) (hlight : Light g.Arc) (qsort : VertexSort V)
    (hu : u ∈ g.vertices) (hv : v ∈ g.vertices) (hne : u ≠ v) :
    ∃ d, g.spf qsort u v = some d ∧ Distance g.Arc distanceInfinity.toNat u v d.toNat := by
  obtain ⟨ds, hds, hperm, -, hdist⟩ := h.dijkstra hlight qsort hu []
  obtain ⟨x, hx⟩ : ∃ x, ds.find? (·.vertex = v) = some x := by
    rcases List.mem_cons.mp (hperm.mem_iff.mpr hv) with hvu | hmem
    · exact absurd hvu.symm hne
    · obtain ⟨y, hy, rfl⟩ := List.mem_map.mp hmem
      exact Option.isSome_iff_exists.mp (List.find?_isSome.mpr ⟨y, hy, by simp⟩)
  have hvertex : x.vertex = v := by
    have hfound := List.find?_some hx
    exact of_decide_eq_true hfound
  refine ⟨x.weight, ?_, hvertex ▸ hdist x (List.mem_of_find?_eq_some hx)⟩
  rw [Graph.spf, if_neg (not_not.mpr hu), if_neg (not_not.mpr hv), hds, Option.map_some]
  dsimp only
  rw [List.nil_append, List.take_length, hx, Option.elim_some]

/-- The source is not in the answer of `ocoms_graph_dijkstra`. -/
lemma Ordered.spf_self (h : g.Ordered) (hlight : Light g.Arc) (qsort : VertexSort V)
    (hu : u ∈ g.vertices) : g.spf qsort u u = some distanceInfinity := by
  obtain ⟨ds, hds, hperm, -, -⟩ := h.dijkstra hlight qsort hu []
  have hnone : ds.find? (·.vertex = u) = none := by
    have hnodup := hperm.nodup_iff.mpr h.nodup
    refine List.find?_eq_none.mpr fun x hx hxu => ?_
    have hxu' : x.vertex = u := of_decide_eq_true hxu
    exact (List.nodup_cons.mp hnodup).1 (hxu' ▸ List.mem_map_of_mem hx)
  rw [Graph.spf, if_neg (not_not.mpr hu), if_neg (not_not.mpr hu), hds, Option.map_some]
  dsimp only
  rw [List.nil_append, List.take_length, hnone, Option.elim_none]

/-- The distances over the first edges and over all edges agree. -/
lemma Ordered.distance_edgeArc_iff (h : g.Ordered) (hlight : Light g.EdgeArc) {d : ℕ}
    (hd : Distance g.Arc distanceInfinity.toNat u v d) :
    Distance g.EdgeArc distanceInfinity.toNat u v d ↔
      ∀ p n, Path g.EdgeArc u v p n → ∃ q m, Path g.FirstArc u v q m ∧ m ≤ n := by
  -- what the paths over the first edges weigh
  have hfirst : ∀ q m, Path g.FirstArc u v q m → ∃ p n, Path g.Arc u v p n ∧ n ≤ m := by
    intro q m hq
    obtain ⟨q', m', hq', hnodup, hle⟩ := hq.exists_simple
    exact ⟨q', m', h.arcPath hq' hnodup, hle⟩
  have harc : ∀ q m, Path g.Arc u v q m → ∃ p n, Path g.FirstArc u v p n ∧ n ≤ m := by
    intro q m hq
    obtain ⟨q', m', hq', hnodup, hle⟩ := hq.exists_simple
    exact ⟨q', m', h.firstPath hq' hnodup, hle⟩
  constructor
  · intro hedge p n hp
    rcases hd with ⟨⟨q, hq⟩, hleast⟩ | ⟨hnone, hinf⟩
    · obtain ⟨q', m, hq', hle⟩ := harc q d hq
      rcases hedge with ⟨-, hleast'⟩ | ⟨hnone, -⟩
      · exact ⟨q', m, hq', hle.trans (hleast' ⟨p, hp⟩)⟩
      · exact absurd hp (hnone p n)
    · -- without a path over the first edges the distance is not that of a path
      rcases hedge with ⟨⟨q, hq⟩, hleast'⟩ | ⟨hnone', -⟩
      · obtain ⟨q', m, hq', hnodup, hle⟩ := hq.exists_simple
        have hlt := hlight u v q' m hq' hnodup
        have hge := hleast' ⟨q', hq'⟩
        omega
      · exact absurd hp (hnone' p n)
  · intro hall
    rcases hd with ⟨⟨q, hq⟩, hleast⟩ | ⟨hnone, hinf⟩
    · obtain ⟨q', m, hq', hle⟩ := harc q d hq
      obtain ⟨p, n, hp, hle'⟩ := hfirst q' m hq'
      have hge := hleast ⟨p, hp⟩
      obtain rfl : m = d := by omega
      refine .inl ⟨⟨q', hq'.mono fun _ _ _ => FirstArc.edgeArc⟩, ?_⟩
      rintro k ⟨p', hp'⟩
      obtain ⟨q₁, m₁, hq₁, hle₁⟩ := hall p' k hp'
      obtain ⟨p₂, n₂, hp₂, hle₂⟩ := hfirst q₁ m₁ hq₁
      exact (hleast ⟨p₂, hp₂⟩).trans (hle₂.trans hle₁)
    · refine .inr ⟨fun p n hp => ?_, hinf⟩
      obtain ⟨q, m, hq, -⟩ := hall p n hp
      obtain ⟨p', n', hp', -⟩ := hfirst q m hq
      exact hnone p' n' hp'

end Graph

/-- **`ocoms_graph_spf`** is the distance over all edges if and only if the vertices differ and each
path has one over first edges that is not heavier. -/
theorem spf_iff {V : Type*} [DecidableEq V] (qsort : VertexSort V) {g : Graph V} (hg : g.Built)
    (hlight : Graph.Light g.EdgeArc) {u v : V} (hu : u ∈ g.vertices) (hv : v ∈ g.vertices) :
    (∃ d, g.spf qsort u v = some d ∧
      Distance g.EdgeArc distanceInfinity.toNat u v d.toNat) ↔
    u ≠ v ∧ ∀ p n, Path g.EdgeArc u v p n → ∃ q m, Path g.FirstArc u v q m ∧ m ≤ n := by
  have hlight' := hg.ordered.light_arc hlight
  by_cases huv : u = v
  · subst huv
    refine iff_of_false ?_ fun hne => hne.1 rfl
    rintro ⟨d, hspf, hd⟩
    rw [hg.ordered.spf_self hlight' qsort hu] at hspf
    obtain rfl := Option.some.inj hspf
    have hnil : Path g.EdgeArc u u [u] 0 := .nil u
    rcases hd with ⟨-, hleast⟩ | ⟨hnone, -⟩
    · have hle := hleast ⟨[u], hnil⟩
      exact absurd hle (by decide)
    · exact hnone _ _ hnil
  · obtain ⟨d, hspf, hd⟩ := hg.ordered.spf hlight' qsort hu hv huv
    have hiff := hg.ordered.distance_edgeArc_iff hlight hd
    constructor
    · rintro ⟨d', hspf', hd'⟩
      obtain rfl := Option.some.inj (hspf.symm.trans hspf')
      exact ⟨huv, hiff.mp hd'⟩
    · rintro ⟨-, hall⟩
      exact ⟨d, hspf, hiff.mpr hall⟩

lemma Graph.edgeArc_one {a b : Bool} {n : ℕ} (h : Graph.one.EdgeArc a b n) :
    a = false ∧ b = true ∧ n = 5 := by
  obtain ⟨-, e, he, rfl, rfl, rfl⟩ := h
  obtain rfl := List.mem_singleton.mp he
  exact ⟨rfl, rfl, rfl⟩

theorem spf_iff_one :
    (∃ d, Graph.one.spf .insertion false true = some d ∧
      Distance Graph.one.EdgeArc distanceInfinity.toNat false true d.toNat) ↔
    false ≠ true ∧ ∀ p n, Path Graph.one.EdgeArc false true p n →
      ∃ q m, Path Graph.one.FirstArc false true q m ∧ m ≤ n := by
  refine spf_iff .insertion ?_ (Graph.light_one fun a b n => Graph.edgeArc_one) (by decide)
    (by decide)
  have hvertices := (Graph.Built.construct.addVertex false).addVertex true
  have hedge : ((Graph.construct.addVertex false).addVertex true).addEdge ⟨0, false, true, 5⟩
      = some (.success, Graph.one) := rfl
  exact hvertices.addEdge (by decide) hedge

/-- From a vertex to itself `ocoms_graph_spf` answers `DISTANCE_INFINITY`, and the distance is 0; and
of two parallel edges it takes the one that was added first. -/
theorem spf_fails :
    (Graph.one.spf .insertion false false = some distanceInfinity ∧
      ¬ Distance Graph.one.EdgeArc distanceInfinity.toNat false false distanceInfinity.toNat) ∧
    ∃ g, Graph.one.addEdge ⟨1, false, true, 3⟩ = some (.success, g) ∧
      g.spf .insertion false true = some 5 ∧ ∃ p, Path g.EdgeArc false true p 3 := by
  have hnil : Path Graph.one.EdgeArc false false [false] 0 := .nil false
  refine ⟨⟨by decide, ?_⟩, _, rfl, by decide, [false, true], ?_⟩
  · rintro (⟨-, hleast⟩ | ⟨hnone, -⟩)
    · have hle := hleast ⟨[false], hnil⟩
      exact absurd hle (by decide)
    · exact hnone _ _ hnil
  · exact .cons ⟨by decide, ⟨1, false, true, 3⟩, by decide, rfl, rfl, rfl⟩ (.nil true)

end Ocoms
