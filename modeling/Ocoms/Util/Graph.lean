import Mathlib.Data.Int.Notation
import Mathlib.Data.List.Basic
import Mathlib.Data.List.Nodup
import Mathlib.Logic.Relation
import Mathlib.Tactic.Common

/-!
Directed weighted graphs: `ocoms_graph.c`.

* `Graph` is `ocoms_graph_t`, over any type `V` of vertices; a vertex has one adjacency list, so the
  list stands for the pointer `in_adj_list`. `none` is an access through a null pointer, or through
  the list links of an edge or a vertex that is in no list.
* `Graph.Consistent` is the invariant: the two counters, and the ends of the edges.
* `edges_addEdge`, `edges_removeEdge` and `edges_removeVertex`: what each function does to the edges
  of the graph.
* `Graph.Consistent.keeps_iff`: when one call keeps the invariant.
* `graph_consistent`: every run of such calls does.
-/

namespace Ocoms

/-- `ocoms_graph_edge_t`. Edges that differ in `id` are different objects. -/
structure Edge (V : Type*) where
  id : ℕ
  startVertex : V
  endVertex : V
  weight : UInt32
  deriving DecidableEq

/-- `ocoms_adjacency_list_t`. -/
structure AdjacencyList (V : Type*) where
  vertex : V
  edges : List (Edge V)
  deriving DecidableEq

/-- `ocoms_graph_t`. -/
structure Graph (V : Type*) where
  adjacencyList : List (AdjacencyList V)
  numberOfEdges : ℤ
  numberOfVertices : ℤ
  deriving DecidableEq

/-- `OCOMS_SUCCESS` and `OCOMS_ERROR`. -/
inductive GraphRc
  | success | error
  deriving DecidableEq, Repr

namespace Graph

variable {V : Type*}

/-! ### The functions -/

/-- `ocoms_graph_construct`. -/
def construct : Graph V := { adjacencyList := [], numberOfEdges := 0, numberOfVertices := 0 }

/-- The vertices, in the order of their adjacency lists. -/
def vertices (g : Graph V) : List V := g.adjacencyList.map AdjacencyList.vertex

/-- The edges of all adjacency lists. -/
def edges (g : Graph V) : List (Edge V) := g.adjacencyList.flatMap AdjacencyList.edges

variable [DecidableEq V]

/-- `ocoms_graph_add_vertex`. -/
def addVertex (g : Graph V) (vertex : V) : Graph V :=
  if vertex ∈ g.vertices then g
  else { g with
    adjacencyList := g.adjacencyList ++ [{ vertex := vertex, edges := [] }]
    numberOfVertices := g.numberOfVertices + 1 }

/-- The adjacency list of one vertex is changed. -/
def modify (ajs : List (AdjacencyList V)) (vertex : V) (f : List (Edge V) → List (Edge V)) :
    List (AdjacencyList V) :=
  ajs.map fun aj => if aj.vertex = vertex then { aj with edges := f aj.edges } else aj

/-- `ocoms_graph_add_edge`. The list of the start vertex is a null pointer where only the end vertex
was found. -/
def addEdge (g : Graph V) (edge : Edge V) : Option (GraphRc × Graph V) :=
  if edge.startVertex ∉ g.vertices ∧ edge.endVertex ∉ g.vertices then some (.error, g)
  else if edge.startVertex ∈ g.vertices then
    some (.success, { g with
      adjacencyList := modify g.adjacencyList edge.startVertex (· ++ [edge])
      numberOfEdges := g.numberOfEdges + 1 })
  else none

/-- `ocoms_graph_remove_edge`. -/
def removeEdge (g : Graph V) (edge : Edge V) : Option (Graph V) :=
  if edge ∈ g.edges then
    some { g with
      adjacencyList := modify g.adjacencyList edge.startVertex (·.erase edge)
      numberOfEdges := g.numberOfEdges - 1 }
  else none

/-- `delete_all_edges_conceded_to_vertex`. -/
def deleteAllEdgesConcededToVertex (ajs : List (AdjacencyList V)) (vertex : V) :
    List (AdjacencyList V) :=
  ajs.map fun aj => { aj with edges := aj.edges.filter (·.endVertex ≠ vertex) }

/-- `ocoms_graph_remove_vertex`: its edges go with its adjacency list. -/
def removeVertex (g : Graph V) (vertex : V) : Option (Graph V) :=
  if vertex ∈ g.vertices then
    some { g with
      adjacencyList := deleteAllEdgesConcededToVertex
        (g.adjacencyList.eraseP (·.vertex = vertex)) vertex
      numberOfVertices := g.numberOfVertices - 1 }
  else none

end Graph

namespace Graph

variable {V : Type*} {g : Graph V}

/-! ### The invariant -/

/-- The counters are those of the lists, a vertex has one list, an edge is in the list of its start
vertex, and its end vertex is in the graph. -/
structure Consistent (g : Graph V) : Prop where
  numberOfVertices : g.numberOfVertices = g.adjacencyList.length
  numberOfEdges : g.numberOfEdges = g.edges.length
  nodup : g.vertices.Nodup
  start : ∀ aj ∈ g.adjacencyList, ∀ e ∈ aj.edges, e.startVertex = aj.vertex
  finish : ∀ e ∈ g.edges, e.endVertex ∈ g.vertices

/-- A graph as `ocoms_graph_add_vertex` and `ocoms_graph_add_edge` leave it: of the invariant, what
does not depend on the ends of the edges. -/
structure Ordered (g : Graph V) : Prop where
  numberOfVertices : g.numberOfVertices = g.adjacencyList.length
  nodup : g.vertices.Nodup
  start : ∀ aj ∈ g.adjacencyList, ∀ e ∈ aj.edges, e.startVertex = aj.vertex

lemma Consistent.ordered (h : g.Consistent) : g.Ordered := ⟨h.numberOfVertices, h.nodup, h.start⟩

lemma mem_edges {e : Edge V} : e ∈ g.edges ↔ ∃ aj ∈ g.adjacencyList, e ∈ aj.edges :=
  List.mem_flatMap

lemma mem_vertices {v : V} : v ∈ g.vertices ↔ ∃ aj ∈ g.adjacencyList, aj.vertex = v :=
  List.mem_map

lemma consistent_construct : (construct : Graph V).Consistent where
  numberOfVertices := rfl
  numberOfEdges := rfl
  nodup := List.nodup_nil
  start _ haj := absurd haj List.not_mem_nil
  finish _ he := absurd he List.not_mem_nil

lemma Ordered.start_mem (h : g.Ordered) {e : Edge V} (he : e ∈ g.edges) :
    e.startVertex ∈ g.vertices := by
  obtain ⟨aj, haj, he⟩ := mem_edges.mp he
  rw [h.start aj haj e he]
  exact List.mem_map_of_mem haj

/-- The adjacency list of a vertex, and the lists around it. -/
lemma exists_split (hnodup : g.vertices.Nodup) {v : V} (hv : v ∈ g.vertices) :
    ∃ l₁ aj l₂, g.adjacencyList = l₁ ++ aj :: l₂ ∧ aj.vertex = v ∧
      (∀ b ∈ l₁, b.vertex ≠ v) ∧ ∀ b ∈ l₂, b.vertex ≠ v := by
  obtain ⟨aj, haj, rfl⟩ := mem_vertices.mp hv
  obtain ⟨l₁, l₂, hsplit⟩ := List.append_of_mem haj
  rw [vertices, hsplit, List.map_append, List.map_cons, List.nodup_append] at hnodup
  obtain ⟨-, hcons, hdisjoint⟩ := hnodup
  refine ⟨l₁, aj, l₂, hsplit, rfl, fun b hb => ?_, fun b hb heq => ?_⟩
  · exact hdisjoint _ (List.mem_map_of_mem hb) _ List.mem_cons_self
  · exact (List.nodup_cons.mp hcons).1 (heq ▸ List.mem_map_of_mem hb)

section Modify

variable [DecidableEq V] {l₁ l₂ : List (AdjacencyList V)} {aj : AdjacencyList V}

lemma modify_eq_self {ajs : List (AdjacencyList V)} {v : V} (h : ∀ b ∈ ajs, b.vertex ≠ v)
    (f : List (Edge V) → List (Edge V)) : modify ajs v f = ajs := by
  conv_rhs => rw [← List.map_id ajs]
  exact List.map_congr_left fun b hb => if_neg (h b hb)

lemma modify_split (h₁ : ∀ b ∈ l₁, b.vertex ≠ aj.vertex) (h₂ : ∀ b ∈ l₂, b.vertex ≠ aj.vertex)
    (f : List (Edge V) → List (Edge V)) :
    modify (l₁ ++ aj :: l₂) aj.vertex f = l₁ ++ { aj with edges := f aj.edges } :: l₂ := by
  have hcons : modify (aj :: l₂) aj.vertex f
      = { aj with edges := f aj.edges } :: modify l₂ aj.vertex f := by
    rw [modify, List.map_cons, if_pos rfl, modify]
  rw [modify, List.map_append, ← modify, ← modify, modify_eq_self h₁, hcons, modify_eq_self h₂]

lemma vertices_modify (g : Graph V) (v : V) (f : List (Edge V) → List (Edge V)) (ne nv : ℤ) :
    (Graph.mk (modify g.adjacencyList v f) ne nv).vertices = g.vertices := by
  rw [vertices, modify, List.map_map, vertices]
  refine List.map_congr_left fun b _ => ?_
  rw [Function.comp_apply]
  split <;> rfl

/-- The edges of the other lists stay. -/
lemma edges_modify (hnodup : g.vertices.Nodup) {v : V} (hv : v ∈ g.vertices) :
    ∃ aj ∈ g.adjacencyList, aj.vertex = v ∧ ∃ rest : List (Edge V),
      g.edges.Perm (aj.edges ++ rest) ∧ ∀ f,
        ((modify g.adjacencyList v f).flatMap AdjacencyList.edges).Perm (f aj.edges ++ rest) := by
  obtain ⟨l₁, aj, l₂, hsplit, rfl, h₁, h₂⟩ := exists_split hnodup hv
  refine ⟨aj, by rw [hsplit]; simp, rfl,
    l₁.flatMap AdjacencyList.edges ++ l₂.flatMap AdjacencyList.edges, ?_, fun f => ?_⟩
  · rw [edges, hsplit, List.flatMap_append, List.flatMap_cons]
    exact List.perm_append_comm_assoc _ _ _
  · rw [hsplit, modify_split h₁ h₂, List.flatMap_append, List.flatMap_cons]
    exact List.perm_append_comm_assoc _ _ _

lemma start_modify {ajs : List (AdjacencyList V)} {v : V} {f : List (Edge V) → List (Edge V)}
    (hf : ∀ es, ∀ e ∈ f es, e ∈ es ∨ e.startVertex = v)
    (h : ∀ aj ∈ ajs, ∀ e ∈ aj.edges, e.startVertex = aj.vertex) :
    ∀ aj ∈ modify ajs v f, ∀ e ∈ aj.edges, e.startVertex = aj.vertex := by
  intro aj haj e he
  obtain ⟨b, hb, rfl⟩ := List.mem_map.mp haj
  split at he
  · rename_i hbv
    rw [if_pos hbv]
    rcases hf _ e he with hold | hnew
    · exact h b hb e hold
    · exact hnew.trans hbv.symm
  · rename_i hbv
    rw [if_neg hbv]
    exact h b hb e he

end Modify

section Calls

variable [DecidableEq V]

lemma edges_addVertex (g : Graph V) (v : V) : (g.addVertex v).edges = g.edges := by
  rw [addVertex]
  split
  · rfl
  · rw [edges, List.flatMap_append, List.flatMap_singleton, List.append_nil, edges]

lemma vertices_addVertex (g : Graph V) (v : V) :
    (g.addVertex v).vertices = if v ∈ g.vertices then g.vertices else g.vertices ++ [v] := by
  rw [addVertex]
  split
  · rfl
  · rw [vertices, List.map_append, List.map_singleton, vertices]

lemma Ordered.addVertex (h : g.Ordered) (v : V) : (g.addVertex v).Ordered := by
  refine ⟨?_, ?_, fun aj haj e he => ?_⟩
  · rw [Graph.addVertex]
    split
    · exact h.numberOfVertices
    · rw [List.length_append, List.length_singleton, h.numberOfVertices, Int.natCast_succ]
  · rw [vertices_addVertex]
    split
    · exact h.nodup
    · rename_i hv
      exact List.nodup_append.mpr ⟨h.nodup, List.nodup_singleton v, by
        rintro a ha b hb rfl
        exact hv (List.mem_singleton.mp hb ▸ ha)⟩
  · rw [Graph.addVertex] at haj
    split at haj
    · exact h.start aj haj e he
    · rcases List.mem_append.mp haj with hold | hnew
      · exact h.start aj hold e he
      · rw [List.mem_singleton.mp hnew] at he
        exact absurd he List.not_mem_nil

/-- `ocoms_graph_add_vertex` keeps the invariant. -/
lemma Consistent.addVertex (h : g.Consistent) (v : V) : (g.addVertex v).Consistent := by
  have hordered := h.ordered.addVertex v
  refine ⟨hordered.numberOfVertices, ?_, hordered.nodup, hordered.start, fun e he => ?_⟩
  · rw [edges_addVertex, ← h.numberOfEdges, Graph.addVertex]
    split <;> rfl
  · rw [edges_addVertex] at he
    rw [vertices_addVertex]
    split
    · exact h.finish e he
    · exact List.mem_append_left _ (h.finish e he)

/-- `ocoms_graph_add_edge`, where the start vertex is in the graph. -/
lemma edges_addEdge (hnodup : g.vertices.Nodup) {e : Edge V} (hstart : e.startVertex ∈ g.vertices) :
    ∃ g', g.addEdge e = some (.success, g') ∧ g'.edges.Perm (e :: g.edges) ∧
      g'.vertices = g.vertices ∧ g'.numberOfEdges = g.numberOfEdges + 1 ∧
      g'.numberOfVertices = g.numberOfVertices ∧
      g'.adjacencyList = modify g.adjacencyList e.startVertex (· ++ [e]) := by
  obtain ⟨aj, -, -, rest, hedges, hmodify⟩ := edges_modify hnodup hstart
  rw [Graph.addEdge, if_neg fun hnone => hnone.1 hstart, if_pos hstart]
  refine ⟨_, rfl, ?_, vertices_modify _ _ _ _ _, rfl, rfl, rfl⟩
  have hfront : (aj.edges ++ [e] ++ rest).Perm (e :: (aj.edges ++ rest)) := by
    rw [List.append_assoc]
    exact List.perm_middle
  exact (hmodify (· ++ [e])).trans (hfront.trans (hedges.symm.cons e))

lemma Ordered.addEdge (h : g.Ordered) {e : Edge V} {rc : GraphRc} {g' : Graph V}
    (hadd : g.addEdge e = some (rc, g')) : g'.Ordered := by
  by_cases hstart : e.startVertex ∈ g.vertices
  · obtain ⟨g'', hadd', -, hvertices, -, hnv, hlists⟩ := edges_addEdge h.nodup hstart
    obtain ⟨-, rfl⟩ := Prod.mk.inj (Option.some.inj (hadd.symm.trans hadd'))
    refine ⟨?_, hvertices ▸ h.nodup, ?_⟩
    · rw [hnv, h.numberOfVertices, hlists, modify, List.length_map]
    · rw [hlists]
      refine start_modify (fun es x hx => ?_) h.start
      rcases List.mem_append.mp hx with hold | hnew
      · exact .inl hold
      · exact .inr (by rw [List.mem_singleton.mp hnew])
  · rw [Graph.addEdge, if_neg hstart] at hadd
    split at hadd
    · obtain ⟨-, rfl⟩ := Prod.mk.inj (Option.some.inj hadd)
      exact h
    · cases hadd

lemma Consistent.addEdge (h : g.Consistent) {e : Edge V} (hstart : e.startVertex ∈ g.vertices)
    (hend : e.endVertex ∈ g.vertices) :
    ∃ g', g.addEdge e = some (.success, g') ∧ g'.Consistent := by
  obtain ⟨g', hadd, hedges, hvertices, hne, -, -⟩ := edges_addEdge h.nodup hstart
  have hordered := h.ordered.addEdge hadd
  refine ⟨g', hadd, hordered.numberOfVertices, ?_, hordered.nodup, hordered.start, fun x hx => ?_⟩
  · rw [hne, h.numberOfEdges, hedges.length_eq, List.length_cons, Int.natCast_succ]
  · rw [hvertices]
    rcases List.mem_cons.mp (hedges.mem_iff.mp hx) with rfl | hold
    · exact hend
    · exact h.finish x hold

/-- `ocoms_graph_remove_edge` keeps the invariant. -/
lemma Consistent.removeEdge (h : g.Consistent) {e : Edge V} (he : e ∈ g.edges) :
    ∃ g', g.removeEdge e = some g' ∧ g'.Consistent := by
  obtain ⟨aj, haj, hvertex, rest, hedges, hmodify⟩ := edges_modify h.nodup (h.ordered.start_mem he)
  have hmem : e ∈ aj.edges := by
    obtain ⟨b, hb, heb⟩ := mem_edges.mp he
    have hsame : b = aj :=
      List.inj_on_of_nodup_map h.nodup hb haj ((h.start b hb e heb).symm.trans hvertex.symm)
    exact hsame ▸ heb
  have herase := hmodify (·.erase e)
  have hperm : g.edges.Perm (e :: ((aj.edges.erase e) ++ rest)) :=
    hedges.trans ((List.perm_cons_erase hmem).append_right rest)
  rw [Graph.removeEdge, if_pos he]
  refine ⟨_, rfl, ?_, ?_, ?_, ?_, fun x hx => ?_⟩
  · rw [modify, List.length_map]
    exact h.numberOfVertices
  · have hlen := hperm.length_eq
    rw [List.length_cons] at hlen
    rw [edges, herase.length_eq, h.numberOfEdges, hlen, Int.natCast_succ, Int.add_sub_cancel]
  · rw [vertices_modify]
    exact h.nodup
  · exact start_modify (fun es x hx => .inl (List.mem_of_mem_erase hx)) h.start
  · rw [vertices_modify]
    refine h.finish x (hperm.mem_iff.mpr (List.mem_cons_of_mem e ?_))
    exact herase.mem_iff.mp hx

lemma edges_deleteAllEdgesConcededToVertex (ajs : List (AdjacencyList V)) (v : V) :
    (deleteAllEdgesConcededToVertex ajs v).flatMap AdjacencyList.edges
      = (ajs.flatMap AdjacencyList.edges).filter (·.endVertex ≠ v) := by
  rw [deleteAllEdgesConcededToVertex, List.flatMap_map, List.filter_flatMap]

/-- `ocoms_graph_remove_vertex` removes the edges from and to the vertex, and counts the vertex
only. -/
lemma edges_removeVertex (h : g.Consistent) {v : V} (hv : v ∈ g.vertices) :
    ∃ g', g.removeVertex v = some g' ∧
      g'.edges = g.edges.filter (fun e => e.startVertex ≠ v ∧ e.endVertex ≠ v) ∧
      g'.numberOfEdges = g.numberOfEdges ∧
      (g'.numberOfEdges = g'.edges.length → g'.Consistent) := by
  obtain ⟨l₁, aj, l₂, hsplit, rfl, h₁, h₂⟩ := exists_split h.nodup hv
  have herase : g.adjacencyList.eraseP (·.vertex = aj.vertex) = l₁ ++ l₂ := by
    rw [hsplit, List.eraseP_append_right _ fun b hb => by simpa using h₁ b hb,
      List.eraseP_cons_of_pos (by simp)]
  -- in the other lists every edge starts elsewhere
  have hother : ∀ ajs : List (AdjacencyList V), (∀ b ∈ ajs, b ∈ g.adjacencyList) →
      (∀ b ∈ ajs, b.vertex ≠ aj.vertex) →
      (ajs.flatMap AdjacencyList.edges).filter
          (fun e => e.startVertex ≠ aj.vertex ∧ e.endVertex ≠ aj.vertex)
        = (ajs.flatMap AdjacencyList.edges).filter (·.endVertex ≠ aj.vertex) := by
    intro ajs hsub hne
    refine List.filter_congr fun e he => ?_
    obtain ⟨b, hb, heb⟩ := List.mem_flatMap.mp he
    have hstart : e.startVertex ≠ aj.vertex := by
      rw [h.start b (hsub b hb) e heb]
      exact hne b hb
    simp [hstart]
  have hown : aj.edges.filter
      (fun e => e.startVertex ≠ aj.vertex ∧ e.endVertex ≠ aj.vertex) = [] := by
    refine List.filter_eq_nil_iff.mpr fun e he => ?_
    have hstart := h.start aj (by rw [hsplit]; simp) e he
    simp [hstart]
  have hedges : (deleteAllEdgesConcededToVertex (l₁ ++ l₂) aj.vertex).flatMap AdjacencyList.edges
      = g.edges.filter (fun e => e.startVertex ≠ aj.vertex ∧ e.endVertex ≠ aj.vertex) := by
    rw [edges_deleteAllEdgesConcededToVertex, edges, hsplit, List.flatMap_append,
      List.flatMap_append, List.flatMap_cons, List.filter_append, List.filter_append,
      List.filter_append, hown, List.nil_append,
      hother l₁ (fun b hb => by rw [hsplit]; simp [hb]) h₁,
      hother l₂ (fun b hb => by rw [hsplit]; simp [hb]) h₂]
  have hvertices : (deleteAllEdgesConcededToVertex (l₁ ++ l₂) aj.vertex).map AdjacencyList.vertex
      = (l₁ ++ l₂).map AdjacencyList.vertex := by
    rw [deleteAllEdgesConcededToVertex, List.map_map]
    rfl
  have hsub : (l₁ ++ l₂).Sublist g.adjacencyList := by
    rw [hsplit]
    exact (List.Sublist.refl l₁).append (List.sublist_cons_self aj l₂)
  rw [Graph.removeVertex, if_pos hv, herase]
  refine ⟨_, rfl, hedges, rfl, fun hcount => ⟨?_, hcount, ?_, fun b hb e he => ?_, fun e he => ?_⟩⟩
  · have hlen := h.numberOfVertices
    rw [hsplit, List.length_append, List.length_cons] at hlen
    rw [deleteAllEdgesConcededToVertex, List.length_map, List.length_append]
    dsimp only
    omega
  · rw [vertices, hvertices]
    exact h.nodup.sublist (hsub.map _)
  · obtain ⟨b', hb', rfl⟩ := List.mem_map.mp hb
    exact h.start b' (hsub.subset hb') e (List.mem_of_mem_filter he)
  · rw [edges, hedges, List.mem_filter] at he
    obtain ⟨he, hne⟩ := he
    obtain ⟨b, hb, hbv⟩ := mem_vertices.mp (h.finish e he)
    rw [vertices, hvertices]
    refine List.mem_map.mpr ⟨b, ?_, hbv⟩
    have hne' : b.vertex ≠ aj.vertex := hbv ▸ (of_decide_eq_true hne).2
    rw [hsplit] at hb
    rcases List.mem_append.mp hb with hb | hb
    · exact List.mem_append_left _ hb
    · rcases List.mem_cons.mp hb with rfl | hb
      · exact absurd rfl hne'
      · exact List.mem_append_right _ hb

end Calls

/-! ### Runs -/

/-- A call on a graph. -/
inductive Call (V : Type*)
  | addVertex (vertex : V)
  | addEdge (edge : Edge V)
  | removeEdge (edge : Edge V)
  | removeVertex (vertex : V)

section Run

variable [DecidableEq V]

/-- One call; the functions without a return value count as successful. -/
def call (g : Graph V) : Call V → Option (GraphRc × Graph V)
  | .addVertex vertex => some (.success, g.addVertex vertex)
  | .addEdge edge => g.addEdge edge
  | .removeEdge edge => (g.removeEdge edge).map fun g' => (.success, g')
  | .removeVertex vertex => (g.removeVertex vertex).map fun g' => (.success, g')

/-- An edge is in one list at a time, and only what is in the graph is removed. -/
def Call.Valid (g : Graph V) : Call V → Prop
  | .addVertex _ => True
  | .addEdge edge => edge ∉ g.edges
  | .removeEdge edge => edge ∈ g.edges
  | .removeVertex vertex => vertex ∈ g.vertices

/-- An edge is added with both its ends in the graph or with both outside, and a vertex is removed
without edges. -/
def Call.Fits (g : Graph V) : Call V → Prop
  | .addVertex _ => True
  | .addEdge edge => edge.startVertex ∈ g.vertices ↔ edge.endVertex ∈ g.vertices
  | .removeEdge _ => True
  | .removeVertex vertex => ∀ e ∈ g.edges, e.startVertex ≠ vertex ∧ e.endVertex ≠ vertex

instance (g : Graph V) : DecidablePred (Call.Valid g)
  | .addVertex _ => inferInstanceAs (Decidable True)
  | .addEdge edge => inferInstanceAs (Decidable (edge ∉ g.edges))
  | .removeEdge edge => inferInstanceAs (Decidable (edge ∈ g.edges))
  | .removeVertex vertex => inferInstanceAs (Decidable (vertex ∈ g.vertices))

instance (g : Graph V) : DecidablePred (Call.Fits g)
  | .addVertex _ => inferInstanceAs (Decidable True)
  | .addEdge edge =>
      inferInstanceAs (Decidable (edge.startVertex ∈ g.vertices ↔ edge.endVertex ∈ g.vertices))
  | .removeEdge _ => inferInstanceAs (Decidable True)
  | .removeVertex vertex => inferInstanceAs
      (Decidable (∀ e ∈ g.edges, e.startVertex ≠ vertex ∧ e.endVertex ≠ vertex))

/-- An edge with an end outside the graph. -/
def Call.Outside (g : Graph V) : Call V → Prop
  | .addEdge edge => edge.startVertex ∉ g.vertices ∨ edge.endVertex ∉ g.vertices
  | _ => False

/-- The call returns, keeps the invariant, and rejects an edge with an end outside the graph. -/
def Keeps (g : Graph V) (c : Call V) : Prop :=
  ∃ rc g', g.call c = some (rc, g') ∧ g'.Consistent ∧ (c.Outside g → rc = .error ∧ g' = g)

/-- **One call** of `ocoms_graph_add_edge`. -/
lemma Consistent.keeps_addEdge_iff (h : g.Consistent) (e : Edge V) :
    g.Keeps (.addEdge e) ↔ (e.startVertex ∈ g.vertices ↔ e.endVertex ∈ g.vertices) := by
  by_cases hstart : e.startVertex ∈ g.vertices
  · by_cases hend : e.endVertex ∈ g.vertices
    · obtain ⟨g', hadd, hcons⟩ := h.addEdge hstart hend
      refine iff_of_true ⟨_, g', hadd, hcons, fun hout => ?_⟩ (iff_of_true hstart hend)
      exact absurd hout (not_or.mpr ⟨not_not.mpr hstart, not_not.mpr hend⟩)
    · -- the edge is added although its end vertex is not in the graph
      obtain ⟨g', hadd, -⟩ := edges_addEdge h.nodup hstart
      refine iff_of_false ?_ fun hiff => hend (hiff.mp hstart)
      rintro ⟨rc, g'', hcall, -, hout⟩
      obtain ⟨rfl, -⟩ := Prod.mk.inj (Option.some.inj (hcall.symm.trans hadd))
      cases (hout (.inr hend)).1
  · by_cases hend : e.endVertex ∈ g.vertices
    · refine iff_of_false ?_ fun hiff => hstart (hiff.mpr hend)
      rintro ⟨rc, g', hcall, -⟩
      rw [call, Graph.addEdge, if_neg fun hnone => hnone.2 hend, if_neg hstart] at hcall
      cases hcall
    · refine iff_of_true ⟨.error, g, ?_, h, fun _ => ⟨rfl, rfl⟩⟩ (iff_of_false hstart hend)
      rw [call, Graph.addEdge, if_pos ⟨hstart, hend⟩]

/-- **One call** of `ocoms_graph_remove_vertex`. -/
lemma Consistent.keeps_removeVertex_iff (h : g.Consistent) {v : V} (hv : v ∈ g.vertices) :
    g.Keeps (.removeVertex v) ↔ ∀ e ∈ g.edges, e.startVertex ≠ v ∧ e.endVertex ≠ v := by
  obtain ⟨g', hremove, hedges, hcount, hcons⟩ := edges_removeVertex h hv
  have hcall : g.call (.removeVertex v) = some (.success, g') := by
    rw [call, hremove, Option.map_some]
  constructor
  · rintro ⟨rc, g'', hcall', hcons', -⟩
    obtain ⟨-, rfl⟩ := Prod.mk.inj (Option.some.inj (hcall'.symm.trans hcall))
    have hlen := hcons'.numberOfEdges
    rw [hcount, h.numberOfEdges, hedges, Int.natCast_inj] at hlen
    intro e he
    exact of_decide_eq_true (List.length_filter_eq_length_iff.mp hlen.symm e he)
  · intro hnone
    refine ⟨_, g', hcall, hcons ?_, fun hout => hout.elim⟩
    rw [hcount, h.numberOfEdges, hedges, List.filter_eq_self.mpr fun e he =>
      decide_eq_true (hnone e he)]

/-- **One call** keeps the invariant if and only if it fits. -/
lemma Consistent.keeps_iff (h : g.Consistent) {c : Call V} (hvalid : c.Valid g) :
    g.Keeps c ↔ c.Fits g := by
  cases c with
  | addVertex v =>
      exact iff_of_true ⟨_, _, rfl, h.addVertex v, fun hout => hout.elim⟩ trivial
  | addEdge e => exact h.keeps_addEdge_iff e
  | removeEdge e =>
      obtain ⟨g', hremove, hcons⟩ := h.removeEdge hvalid
      refine iff_of_true ⟨.success, g', ?_, hcons, fun hout => hout.elim⟩ trivial
      rw [call, hremove, Option.map_some]
  | removeVertex v => exact h.keeps_removeVertex_iff hvalid

/-- A call that fits. -/
def Step (g g' : Graph V) : Prop := ∃ c rc, c.Valid g ∧ c.Fits g ∧ g.call c = some (rc, g')

lemma Step.consistent {g' : Graph V} (hstep : Step g g') (h : g.Consistent) : g'.Consistent := by
  obtain ⟨c, rc, hvalid, hfits, hcall⟩ := hstep
  obtain ⟨rc', g'', hcall', hcons, -⟩ := (h.keeps_iff hvalid).mpr hfits
  obtain ⟨-, rfl⟩ := Prod.mk.inj (Option.some.inj (hcall.symm.trans hcall'))
  exact hcons

end Run

end Graph

/-- **The counters and the edges of a graph** are consistent after every run of calls that fit, and
a further call keeps them so if and only if it fits. -/
theorem graph_consistent {V : Type*} [DecidableEq V] {g : Graph V}
    (hrun : Relation.ReflTransGen Graph.Step .construct g) :
    g.Consistent ∧ ∀ c : Graph.Call V, c.Valid g → (g.Keeps c ↔ c.Fits g) := by
  have hcons : g.Consistent := by
    induction hrun with
    | refl => exact Graph.consistent_construct
    | tail _ hstep ih => exact hstep.consistent ih
  exact ⟨hcons, fun c hvalid => hcons.keeps_iff hvalid⟩

/-- Two vertices and an edge between them. -/
def Graph.one : Graph Bool where
  adjacencyList := [⟨false, [⟨0, false, true, 5⟩]⟩, ⟨true, []⟩]
  numberOfEdges := 1
  numberOfVertices := 2

theorem graph_consistent_one :
    Graph.one.Consistent ∧ ∀ c : Graph.Call Bool, c.Valid .one → (Graph.one.Keeps c ↔ c.Fits .one) :=
  graph_consistent (.tail (.tail (.tail .refl
    ⟨.addVertex false, .success, trivial, trivial, rfl⟩)
    ⟨.addVertex true, .success, trivial, trivial, rfl⟩)
    ⟨.addEdge ⟨0, false, true, 5⟩, .success, by decide, by decide, by decide⟩)

/-- An edge to a vertex that was not added is accepted; and when a vertex is removed, its edges stay
counted. -/
theorem graph_counters_fail :
    (∃ g, (Graph.construct.addVertex false).addEdge ⟨0, false, true, 5⟩ = some (.success, g) ∧
      true ∉ g.vertices) ∧
    ∃ g, Graph.one.removeVertex false = some g ∧ g.edges.length = 0 ∧ g.numberOfEdges = 1 :=
  ⟨⟨_, rfl, by decide⟩, _, rfl, rfl, rfl⟩

end Ocoms
