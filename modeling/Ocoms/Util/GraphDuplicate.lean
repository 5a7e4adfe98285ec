import Mathlib.Data.Set.Function
import Ocoms.Util.Graph

/-!
The duplicate of a graph: `ocoms_graph_duplicate`.

* `GraphStore` has the graphs by their addresses, and the objects of the vertices, with the pointers
  and functions that they keep. A null pointer is `none`. The list that a vertex points to is known
  by its graph and its vertex.
* `GraphStore.duplicate` makes the new vertices in one pass and the new edges in another one, which
  goes through the pointers `sibling`. What `OBJ_NEW` returns are the next of `newVertex` and of
  `newEdge`. `none` is an edge with a null pointer as its end.
* `Graph.ofEdges` is the graph with given vertices and edges, which the passes build step by step.
* `graph_duplicate_isomorphic` is the theorem about both passes.
-/

namespace Ocoms

/-- `ocoms_graph_vertex_t`. The functions about the data may have an effect on the world; those that
are only copied are known by their addresses. -/
structure VertexObject (V D W : Type*) where
  inGraph : Option ℕ
  inAdjList : Option (ℕ × V)
  vertexData : Option D
  sibling : Option V
  copyVertexData : Option (Option D → Option D → W → Option D × W)
  freeVertexData : Option ℕ
  allocVertexData : Option (W → Option D × W)
  compareVertex : Option ℕ
  printVertex : Option ℕ

/-- `ocoms_graph_vertex_construct`. -/
def VertexObject.construct {V D W : Type*} : VertexObject V D W where
  inGraph := none
  inAdjList := none
  vertexData := none
  sibling := none
  copyVertexData := none
  freeVertexData := none
  allocVertexData := none
  compareVertex := none
  printVertex := none

/-- The graphs, the vertices, and the world that the functions about the data act on. -/
structure GraphStore (V D W : Type*) where
  graph : ℕ → Graph V
  vertex : V → VertexObject V D W
  world : W

variable {V D W : Type*} [DecidableEq V]

namespace GraphStore

/-! ### The functions -/

/-- One vertex is changed. -/
def modifyVertex (s : GraphStore V D W) (v : V) (f : VertexObject V D W → VertexObject V D W) :
    GraphStore V D W :=
  { s with vertex := Function.update s.vertex v (f (s.vertex v)) }

/-- `ocoms_graph_add_vertex`, with the pointers that it sets. -/
def addVertex (s : GraphStore V D W) (graph : ℕ) (vertex : V) : GraphStore V D W :=
  if vertex ∈ (s.graph graph).vertices then s
  else
    { s with
      graph := Function.update s.graph graph ((s.graph graph).addVertex vertex)
      vertex := Function.update s.vertex vertex
        { s.vertex vertex with inAdjList := some (graph, vertex), inGraph := some graph } }

/-- The new vertex gets data of its own. -/
def allocData (s : GraphStore V D W) (new original : V) : GraphStore V D W :=
  match (s.vertex original).allocVertexData with
  | none => s
  | some alloc =>
      { s with
        vertex := Function.update s.vertex new
          { s.vertex new with vertexData := (alloc s.world).1, allocVertexData := some alloc }
        world := (alloc s.world).2 }

/-- The data of the original is copied to the new vertex. -/
def copyData (s : GraphStore V D W) (new original : V) : GraphStore V D W :=
  match (s.vertex original).copyVertexData with
  | none => s
  | some copy =>
      let result := copy (s.vertex new).vertexData (s.vertex original).vertexData s.world
      { s with
        vertex := Function.update s.vertex new
          { s.vertex new with vertexData := result.1, copyVertexData := some copy }
        world := result.2 }

/-- The loop body of the first pass. -/
def duplicateVertex (s : GraphStore V D W) (dest : ℕ) (new original : V) : GraphStore V D W :=
  let s := s.modifyVertex new fun _ => { VertexObject.construct with sibling := some original }
  let s := s.modifyVertex original fun x => { x with sibling := some new }
  let s := (s.allocData new original).copyData new original
  let s := s.modifyVertex new fun x =>
    { x with
      freeVertexData := (s.vertex original).freeVertexData
      printVertex := (s.vertex original).printVertex
      compareVertex := (s.vertex original).compareVertex
      inGraph := some dest }
  s.addVertex dest new

/-- The first pass, from the `n`-th new vertex on. -/
def duplicateVertices (newVertex : ℕ → V) (dest : ℕ) :
    ℕ → List V → GraphStore V D W → GraphStore V D W
  | _, [], s => s
  | n, v :: vs, s =>
      duplicateVertices newVertex dest (n + 1) vs (s.duplicateVertex dest (newVertex n) v)

/-- The loop body of the second pass. -/
def duplicateEdge (s : GraphStore V D W) (dest : ℕ) (id : ℕ) (edge : Edge V) :
    Option (GraphStore V D W) :=
  match (s.vertex edge.startVertex).sibling, (s.vertex edge.endVertex).sibling with
  | some startVertex, some endVertex =>
      ((s.graph dest).addEdge ⟨id, startVertex, endVertex, edge.weight⟩).map fun r =>
        { s with graph := Function.update s.graph dest r.2 }
  | _, _ => none

/-- The second pass, from the `n`-th new edge on. -/
def duplicateEdges (newEdge : ℕ → ℕ) (dest : ℕ) :
    ℕ → List (Edge V) → GraphStore V D W → Option (GraphStore V D W)
  | _, [], s => some s
  | n, e :: es, s =>
      (s.duplicateEdge dest (newEdge n) e).bind (duplicateEdges newEdge dest (n + 1) es)

/-- `ocoms_graph_duplicate`. The passes go through the adjacency lists of `src` and through the edges
of each of them. -/
def duplicate (s : GraphStore V D W) (newVertex : ℕ → V) (newEdge : ℕ → ℕ) (dest src : ℕ) :
    Option (GraphStore V D W) :=
  let s := { s with graph := Function.update s.graph dest Graph.construct }
  let s := duplicateVertices newVertex dest 0 (s.graph src).vertices s
  duplicateEdges newEdge dest 0 (s.graph src).edges s

end GraphStore

namespace Graph

/-! ### Graphs by their vertices and edges -/

/-- The graph with these vertices and edges. -/
def ofEdges (vs : List V) (es : List (Edge V)) : Graph V where
  adjacencyList := vs.map fun v => ⟨v, es.filter (·.startVertex = v)⟩
  numberOfEdges := es.length
  numberOfVertices := vs.length

/-- An edge is in the list of its start vertex, its end vertex is in the graph, and a vertex has one
list. -/
structure Closed (g : Graph V) : Prop where
  nodup : g.vertices.Nodup
  start : ∀ aj ∈ g.adjacencyList, ∀ e ∈ aj.edges, e.startVertex = aj.vertex
  finish : ∀ e ∈ g.edges, e.endVertex ∈ g.vertices

/-- The ends and the weight of an edge. -/
def ends (e : Edge V) : V × V × UInt32 := (e.startVertex, e.endVertex, e.weight)

/-- The weights of the edges from one vertex to another one. -/
def weights (g : Graph V) (u v : V) : List UInt32 :=
  (g.edges.filter fun e => e.startVertex = u ∧ e.endVertex = v).map Edge.weight

variable {g : Graph V} {vs : List V} {es : List (Edge V)}

omit [DecidableEq V] in
lemma Consistent.closed (h : g.Consistent) : g.Closed := ⟨h.nodup, h.start, h.finish⟩

lemma vertices_ofEdges (vs : List V) (es : List (Edge V)) : (ofEdges vs es).vertices = vs := by
  rw [vertices, ofEdges, List.map_map]
  exact List.map_id vs

/-- A vertex that is not there is added. -/
lemma addVertex_ofEdges {v : V} (hv : v ∉ vs) :
    (ofEdges vs []).addVertex v = ofEdges (vs ++ [v]) [] := by
  rw [addVertex, vertices_ofEdges, if_neg hv, ofEdges, ofEdges, List.map_append, List.map_singleton,
    List.filter_nil, List.length_append, List.length_singleton, Int.natCast_succ]

/-- An edge with its start vertex in the graph is added. -/
lemma addEdge_ofEdges {e : Edge V} (he : e.startVertex ∈ vs) :
    (ofEdges vs es).addEdge e = some (.success, ofEdges vs (es ++ [e])) := by
  have hlists : modify (ofEdges vs es).adjacencyList e.startVertex (· ++ [e])
      = (ofEdges vs (es ++ [e])).adjacencyList := by
    rw [modify, ofEdges, ofEdges, List.map_map]
    refine List.map_congr_left fun v _ => ?_
    rw [Function.comp_apply, List.filter_append]
    dsimp only
    by_cases hv : v = e.startVertex
    · have hown : [e].filter (·.startVertex = v) = [e] := by simp [hv]
      rw [if_pos hv, hown]
    · have hother : [e].filter (·.startVertex = v) = [] := by simpa using Ne.symm hv
      rw [if_neg hv, hother, List.append_nil]
  rw [addEdge, vertices_ofEdges, if_neg fun hnone => hnone.1 he, if_pos he, hlists]
  refine congrArg (fun g => some (GraphRc.success, g)) ?_
  rw [ofEdges, ofEdges, List.length_append, List.length_singleton, Int.natCast_succ]

/-- **A closed graph is the one with its vertices and edges**, but for its counters. -/
lemma Closed.adjacencyList_eq (h : g.Closed) :
    g.adjacencyList = (ofEdges g.vertices g.edges).adjacencyList := by
  have hown : ∀ aj ∈ g.adjacencyList, g.edges.filter (·.startVertex = aj.vertex) = aj.edges := by
    intro aj haj
    obtain ⟨l₁, aj', l₂, hsplit, hvertex, h₁, h₂⟩ :=
      exists_split h.nodup (List.mem_map_of_mem (f := AdjacencyList.vertex) haj)
    have hmem' : aj' ∈ g.adjacencyList := by
      rw [hsplit]
      exact List.mem_append_right _ List.mem_cons_self
    obtain rfl : aj' = aj := List.inj_on_of_nodup_map h.nodup hmem' haj hvertex
    have hother : ∀ l : List (AdjacencyList V), (∀ b ∈ l, b ∈ g.adjacencyList) →
        (∀ b ∈ l, b.vertex ≠ aj'.vertex) →
        (l.flatMap AdjacencyList.edges).filter (·.startVertex = aj'.vertex) = [] := by
      intro l hsub hne
      refine List.filter_eq_nil_iff.mpr fun e he => ?_
      obtain ⟨b, hb, heb⟩ := List.mem_flatMap.mp he
      rw [h.start b (hsub b hb) e heb]
      simpa using hne b hb
    have hself : aj'.edges.filter (·.startVertex = aj'.vertex) = aj'.edges :=
      List.filter_eq_self.mpr fun e he => decide_eq_true (h.start aj' haj e he)
    rw [edges, hsplit, List.flatMap_append, List.flatMap_cons, List.filter_append,
      List.filter_append, hself,
      hother l₁ (fun b hb => by rw [hsplit]; exact List.mem_append_left _ hb) h₁,
      hother l₂ (fun b hb => by
        rw [hsplit]; exact List.mem_append_right _ (List.mem_cons_of_mem _ hb)) h₂,
      List.nil_append, List.append_nil]
  rw [ofEdges, vertices, List.map_map]
  conv_lhs => rw [← List.map_id g.adjacencyList]
  refine List.map_congr_left fun aj haj => ?_
  rw [Function.comp_apply, hown aj haj]
  rfl

omit [DecidableEq V] in
lemma ends_edges (g : Graph V) :
    g.edges.map ends = (g.adjacencyList.map fun aj => aj.edges.map ends).flatten := by
  rw [edges, List.map_flatMap, List.flatMap_def]

lemma weights_eq (g : Graph V) (u v : V) :
    g.weights u v
      = ((g.edges.map ends).filter fun k => k.1 = u ∧ k.2.1 = v).map fun k => k.2.2 := by
  rw [weights, List.filter_map, List.map_map]
  rfl

end Graph

namespace GraphStore

variable {s s' : GraphStore V D W} {dest : ℕ} {new v : V}

/-! ### The first pass -/

/-- **A new vertex** `new` of the graph `dest`: its sibling is the vertex `v`, whose functions it
has. -/
structure Mirrors (s : GraphStore V D W) (dest : ℕ) (new v : V) : Prop where
  sibling : (s.vertex new).sibling = some v
  inGraph : (s.vertex new).inGraph = some dest
  inAdjList : (s.vertex new).inAdjList = some (dest, new)
  allocVertexData : (s.vertex new).allocVertexData = (s.vertex v).allocVertexData
  copyVertexData : (s.vertex new).copyVertexData = (s.vertex v).copyVertexData
  freeVertexData : (s.vertex new).freeVertexData = (s.vertex v).freeVertexData
  compareVertex : (s.vertex new).compareVertex = (s.vertex v).compareVertex
  printVertex : (s.vertex new).printVertex = (s.vertex v).printVertex

lemma vertex_modifyVertex (s : GraphStore V D W) (v : V)
    (f : VertexObject V D W → VertexObject V D W) :
    (s.modifyVertex v f).vertex v = f (s.vertex v) :=
  Function.update_self ..

lemma vertex_modifyVertex_of_ne (s : GraphStore V D W) {x : V} (hne : x ≠ v)
    (f : VertexObject V D W → VertexObject V D W) :
    (s.modifyVertex v f).vertex x = s.vertex x :=
  Function.update_of_ne hne ..

lemma graph_allocData (s : GraphStore V D W) (new v : V) : (s.allocData new v).graph = s.graph := by
  rw [allocData]
  split <;> rfl

lemma graph_copyData (s : GraphStore V D W) (new v : V) : (s.copyData new v).graph = s.graph := by
  rw [copyData]
  split <;> rfl

lemma vertex_allocData_of_ne (s : GraphStore V D W) {x : V} (hne : x ≠ new) (v : V) :
    (s.allocData new v).vertex x = s.vertex x := by
  rw [allocData]
  split
  · rfl
  · exact Function.update_of_ne hne ..

lemma vertex_copyData_of_ne (s : GraphStore V D W) {x : V} (hne : x ≠ new) (v : V) :
    (s.copyData new v).vertex x = s.vertex x := by
  rw [copyData]
  split
  · rfl
  · exact Function.update_of_ne hne ..

lemma vertex_allocData (h : (s.vertex new).allocVertexData = none) (v : V) :
    ∃ data, (s.allocData new v).vertex new
      = { s.vertex new with
          vertexData := data, allocVertexData := (s.vertex v).allocVertexData } := by
  cases halloc : (s.vertex v).allocVertexData with
  | none =>
      refine ⟨(s.vertex new).vertexData, ?_⟩
      rw [allocData, halloc]
      dsimp only
      rw [← h]
  | some alloc =>
      refine ⟨(alloc s.world).1, ?_⟩
      rw [allocData, halloc]
      exact Function.update_self ..

lemma vertex_copyData (h : (s.vertex new).copyVertexData = none) (v : V) :
    ∃ data, (s.copyData new v).vertex new
      = { s.vertex new with
          vertexData := data, copyVertexData := (s.vertex v).copyVertexData } := by
  cases hcopy : (s.vertex v).copyVertexData with
  | none =>
      refine ⟨(s.vertex new).vertexData, ?_⟩
      rw [copyData, hcopy]
      dsimp only
      rw [← h]
  | some copy =>
      refine ⟨(copy (s.vertex new).vertexData (s.vertex v).vertexData s.world).1, ?_⟩
      rw [copyData, hcopy]
      exact Function.update_self ..

/-- **The loop body of the first pass.** -/
lemma duplicateVertex_spec (hne : new ≠ v) (hnew : new ∉ (s.graph dest).vertices)
    (hs' : s.duplicateVertex dest new v = s') :
    s'.graph = Function.update s.graph dest ((s.graph dest).addVertex new) ∧
      s'.vertex v = { s.vertex v with sibling := some new } ∧ s'.Mirrors dest new v ∧
      ∀ x, x ≠ v → x ≠ new → s'.vertex x = s.vertex x := by
  rw [duplicateVertex] at hs'
  set s₁ := s.modifyVertex new fun _ => { VertexObject.construct with sibling := some v } with hs₁
  set s₂ := s₁.modifyVertex v fun x => { x with sibling := some new } with hs₂
  have hnew₂ : s₂.vertex new = { VertexObject.construct with sibling := some v } :=
    (vertex_modifyVertex_of_ne s₁ hne _).trans (vertex_modifyVertex s new _)
  have hv₂ : s₂.vertex v = { s.vertex v with sibling := some new } := by
    rw [hs₂, vertex_modifyVertex, hs₁, vertex_modifyVertex_of_ne s hne.symm]
  have hnone : (s₂.vertex new).allocVertexData = none := by rw [hnew₂]; rfl
  obtain ⟨data, halloc⟩ := vertex_allocData hnone v
  have hnone' : ((s₂.allocData new v).vertex new).copyVertexData = none := by
    rw [halloc, hnew₂]
    rfl
  obtain ⟨data', hcopy⟩ := vertex_copyData hnone' v
  set s₃ := (s₂.allocData new v).copyData new v with hs₃
  have hother₃ : ∀ x, x ≠ new → s₃.vertex x = s₂.vertex x := fun x hx =>
    (vertex_copyData_of_ne _ hx v).trans (vertex_allocData_of_ne s₂ hx v)
  have hv₃ : s₃.vertex v = { s.vertex v with sibling := some new } :=
    (hother₃ v hne.symm).trans hv₂
  have hgraph₃ : s₃.graph = s.graph :=
    (graph_copyData _ new v).trans (graph_allocData s₂ new v)
  set s₄ := s₃.modifyVertex new fun x =>
    { x with
      freeVertexData := (s₃.vertex v).freeVertexData
      printVertex := (s₃.vertex v).printVertex
      compareVertex := (s₃.vertex v).compareVertex
      inGraph := some dest } with hs₄
  have hnew₄ : new ∉ (s₄.graph dest).vertices := by
    rw [hs₄, modifyVertex]
    dsimp only
    rw [hgraph₃]
    exact hnew
  have hmirror : s₄.vertex new = _ := vertex_modifyVertex s₃ new _
  rw [hcopy, vertex_allocData_of_ne s₂ hne.symm v, halloc, hnew₂, hother₃ v hne.symm, hv₂]
    at hmirror
  rw [addVertex, if_neg hnew₄] at hs'
  have hothers : ∀ x, x ≠ new → s'.vertex x = s₂.vertex x := fun x hx => by
    rw [← hs']
    exact (Function.update_of_ne hx ..).trans
      ((vertex_modifyVertex_of_ne s₃ hx _).trans (hother₃ x hx))
  have hv' := (hothers v hne.symm).trans hv₂
  have hnew' : s'.vertex new
      = { s₄.vertex new with inAdjList := some (dest, new), inGraph := some dest } := by
    rw [← hs']
    exact Function.update_self ..
  refine ⟨?_, hv', ?_, fun x hxv hxnew => ?_⟩
  · rw [← hs', hs₄, modifyVertex]
    dsimp only
    rw [hgraph₃]
  · rw [hmirror] at hnew'
    exact ⟨by rw [hnew'], by rw [hnew'], by rw [hnew'], by rw [hnew', hv'], by rw [hnew', hv'],
      by rw [hnew', hv'], by rw [hnew', hv'], by rw [hnew', hv']⟩
  · exact (hothers x hxnew).trans ((vertex_modifyVertex_of_ne s₁ hxv _).trans
      (vertex_modifyVertex_of_ne s hxnew _))

omit [DecidableEq V] in
/-- What is new for one vertex is so for the objects of two stores that agree. -/
lemma Mirrors.congr (h : s.Mirrors dest new v) (hnew : s'.vertex new = s.vertex new)
    (hv : s'.vertex v = s.vertex v) : s'.Mirrors dest new v :=
  ⟨by rw [hnew, h.sibling], by rw [hnew, h.inGraph], by rw [hnew, h.inAdjList],
    by rw [hnew, hv, h.allocVertexData], by rw [hnew, hv, h.copyVertexData],
    by rw [hnew, hv, h.freeVertexData], by rw [hnew, hv, h.compareVertex],
    by rw [hnew, hv, h.printVertex]⟩

/-- **The first pass**: the new vertices in their order, one for each vertex, and the pointers between
them. -/
lemma duplicateVertices_spec {newVertex : ℕ → V} (hinj : Function.Injective newVertex) {vs : List V}
    (hnodup : vs.Nodup) (hnew : ∀ k, newVertex k ∉ vs) {ws : List V} {n : ℕ}
    (hgraph : s.graph dest = Graph.ofEdges ws []) (hws : ∀ k, n ≤ k → newVertex k ∉ ws)
    (hs' : duplicateVertices newVertex dest n vs s = s') :
    s'.graph = Function.update s.graph dest
        (Graph.ofEdges (ws ++ (List.range' n vs.length).map newVertex) []) ∧
      (∀ k (hk : k < vs.length), s'.vertex vs[k]
        = { s.vertex vs[k] with sibling := some (newVertex (n + k)) } ∧
        s'.Mirrors dest (newVertex (n + k)) vs[k]) ∧
      ∀ x, x ∉ vs → (∀ k, k < vs.length → x ≠ newVertex (n + k)) → s'.vertex x = s.vertex x := by
  induction vs generalizing n s ws with
  | nil =>
      rw [duplicateVertices] at hs'
      subst hs'
      refine ⟨?_, fun k hk => absurd hk (Nat.not_lt_zero k), fun _ _ _ => rfl⟩
      rw [List.length_nil, List.range'_zero, List.map_nil, List.append_nil, ← hgraph,
        Function.update_eq_self]
  | cons v vs ih =>
      obtain ⟨hv, hnodup⟩ := List.nodup_cons.mp hnodup
      have hfresh : ∀ k, newVertex k ≠ v := fun k heq => hnew k (heq ▸ List.mem_cons_self)
      have hrest : ∀ k, newVertex k ∉ vs := fun k hk => hnew k (List.mem_cons_of_mem v hk)
      have hmem : newVertex n ∉ (s.graph dest).vertices := by
        rw [hgraph, Graph.vertices_ofEdges]
        exact hws n le_rfl
      rw [duplicateVertices] at hs'
      obtain ⟨hgraph₁, hv₁, hmirror₁, hothers₁⟩ := duplicateVertex_spec (hfresh n) hmem rfl
      set s₁ := s.duplicateVertex dest (newVertex n) v with hs₁
      have hdest₁ : s₁.graph dest = Graph.ofEdges (ws ++ [newVertex n]) [] := by
        rw [hgraph₁, Function.update_self, hgraph, Graph.addVertex_ofEdges (hws n le_rfl)]
      have hws₁ : ∀ k, n + 1 ≤ k → newVertex k ∉ ws ++ [newVertex n] := by
        intro k hk hcontra
        rcases List.mem_append.mp hcontra with hold | hlast
        · exact hws k (by omega) hold
        · have heq := hinj (List.mem_singleton.mp hlast)
          omega
      obtain ⟨hgraph₂, hvs₂, hothers₂⟩ := ih hnodup hrest hdest₁ hws₁ hs'
      have hlater : ∀ k, newVertex n ≠ newVertex (n + 1 + k) := fun k heq => by
        have hk := hinj heq
        omega
      have hnew₂ : s'.vertex (newVertex n) = s₁.vertex (newVertex n) :=
        hothers₂ _ (hrest n) fun k _ => hlater k
      have hv₂ : s'.vertex v = s₁.vertex v := hothers₂ v hv fun k _ => (hfresh _).symm
      refine ⟨?_, fun k hk => ?_, fun x hx hxnew => ?_⟩
      · rw [hgraph₂, hgraph₁, Function.update_idem, List.length_cons, List.range'_succ,
          List.map_cons, List.append_assoc, List.singleton_append]
      · cases k with
        | zero => exact ⟨hv₂.trans hv₁, hmirror₁.congr hnew₂ hv₂⟩
        | succ k =>
            have hk : k < vs.length := Nat.lt_of_succ_lt_succ hk
            obtain ⟨hvertex, hmirror⟩ := hvs₂ k hk
            have hne : vs[k] ≠ v := fun heq => hv (heq ▸ List.getElem_mem hk)
            have hnotnew : vs[k] ≠ newVertex n := fun heq => hrest n (heq ▸ List.getElem_mem hk)
            rw [List.getElem_cons_succ, ← Nat.add_assoc, Nat.add_right_comm]
            rw [hothers₁ _ hne hnotnew] at hvertex
            exact ⟨hvertex, hmirror⟩
      · have hvs : x ∉ vs := fun hmem => hx (List.mem_cons_of_mem v hmem)
        have hlaternew : ∀ k, k < vs.length → x ≠ newVertex (n + 1 + k) := fun k hk => by
          have hne := hxnew (k + 1) (Nat.succ_lt_succ hk)
          rwa [← Nat.add_assoc, Nat.add_right_comm] at hne
        have hxv : x ≠ v := fun heq => hx (heq ▸ List.mem_cons_self)
        exact (hothers₂ x hvs hlaternew).trans (hothers₁ x hxv (hxnew 0 (Nat.succ_pos _)))

/-! ### The second pass -/

/-- The new edges, from the `n`-th on. -/
def copyEdges (newEdge : ℕ → ℕ) (φ : V → V) : ℕ → List (Edge V) → List (Edge V)
  | _, [] => []
  | n, e :: es =>
      ⟨newEdge n, φ e.startVertex, φ e.endVertex, e.weight⟩ :: copyEdges newEdge φ (n + 1) es

omit [DecidableEq V] in
lemma ends_copyEdges (newEdge : ℕ → ℕ) (φ : V → V) (n : ℕ) (es : List (Edge V)) :
    (copyEdges newEdge φ n es).map Graph.ends
      = es.map fun e => (φ e.startVertex, φ e.endVertex, e.weight) := by
  induction es generalizing n with
  | nil => rfl
  | cons e es ih =>
      rw [copyEdges, List.map_cons, List.map_cons, ih]
      rfl

/-- **The loop body of the second pass.** -/
lemma duplicateEdge_spec {φ : V → V} {ws : List V} {made : List (Edge V)} {e : Edge V} {id : ℕ}
    (hgraph : s.graph dest = Graph.ofEdges ws made)
    (hstart : (s.vertex e.startVertex).sibling = some (φ e.startVertex))
    (hend : (s.vertex e.endVertex).sibling = some (φ e.endVertex)) (hmem : φ e.startVertex ∈ ws) :
    s.duplicateEdge dest id e
      = some { s with
          graph := Function.update s.graph dest
            (Graph.ofEdges ws (made ++ [⟨id, φ e.startVertex, φ e.endVertex, e.weight⟩])) } := by
  have hadd : (Graph.ofEdges ws made).addEdge ⟨id, φ e.startVertex, φ e.endVertex, e.weight⟩
      = some (.success, _) := Graph.addEdge_ofEdges hmem
  rw [duplicateEdge, hstart, hend]
  dsimp only
  rw [hgraph, hadd, Option.map_some]

/-- **The second pass**: the new edges in their order. -/
lemma duplicateEdges_spec (newEdge : ℕ → ℕ) {φ : V → V} {ws : List V} (es : List (Edge V))
    {made : List (Edge V)} {n : ℕ} (hgraph : s.graph dest = Graph.ofEdges ws made)
    (hsibling : ∀ e ∈ es, (s.vertex e.startVertex).sibling = some (φ e.startVertex) ∧
      (s.vertex e.endVertex).sibling = some (φ e.endVertex))
    (hmem : ∀ e ∈ es, φ e.startVertex ∈ ws) :
    duplicateEdges newEdge dest n es s
      = some { s with
          graph := Function.update s.graph dest
            (Graph.ofEdges ws (made ++ copyEdges newEdge φ n es)) } := by
  induction es generalizing n s made with
  | nil => rw [duplicateEdges, copyEdges, List.append_nil, ← hgraph, Function.update_eq_self]
  | cons e es ih =>
      obtain ⟨⟨hstart, hend⟩, hrest⟩ := List.forall_mem_cons.mp hsibling
      obtain ⟨hfirst, hmem⟩ := List.forall_mem_cons.mp hmem
      rw [duplicateEdges, duplicateEdge_spec hgraph hstart hend hfirst, Option.bind_some]
      have hlater := ih (s := { s with
        graph := Function.update s.graph dest (Graph.ofEdges ws
          (made ++ [⟨newEdge n, φ e.startVertex, φ e.endVertex, e.weight⟩])) }) (n := n + 1)
        (Function.update_self ..) hrest hmem
      rw [hlater, Function.update_idem, copyEdges, List.append_assoc, List.singleton_append]

/-- **The graph `dest` is a duplicate of `src`**, by the bijection `φ` of the vertices, and nothing
else has changed but for the siblings of the vertices of `src`. -/
structure IsDuplicate (s s' : GraphStore V D W) (dest src : ℕ) (φ : V → V) : Prop where
  siblings : ∀ v ∈ (s.graph src).vertices,
    (s'.vertex v).sibling = some (φ v) ∧ (s'.vertex (φ v)).sibling = some v
  bijection : Set.BijOn φ {v | v ∈ (s.graph src).vertices} {w | w ∈ (s'.graph dest).vertices}
  vertices : (s'.graph dest).vertices = (s.graph src).vertices.map φ
  order : (s'.graph dest).adjacencyList.map (fun aj => aj.edges.map Graph.ends)
    = (s.graph src).adjacencyList.map fun aj =>
        aj.edges.map fun e => (φ e.startVertex, φ e.endVertex, e.weight)
  weights : ∀ u ∈ (s.graph src).vertices, ∀ v ∈ (s.graph src).vertices,
    (s'.graph dest).weights (φ u) (φ v) = (s.graph src).weights u v
  consistent : (s'.graph dest).Consistent
  mirrors : ∀ v ∈ (s.graph src).vertices, s'.Mirrors dest (φ v) v
  graphs : ∀ k, k ≠ dest → s'.graph k = s.graph k
  originals : ∀ v ∈ (s.graph src).vertices,
    s'.vertex v = { s.vertex v with sibling := some (φ v) }
  others : ∀ x, x ∉ (s.graph src).vertices → x ∉ (s'.graph dest).vertices →
    s'.vertex x = s.vertex x

end GraphStore

namespace Graph

/-! ### The graph with new vertices -/

section Image

variable {g : Graph V} {φ : V → V}

/-- The graph with the vertices and edges that the passes make. -/
def image (g : Graph V) (φ : V → V) (newEdge : ℕ → ℕ) : Graph V :=
  ofEdges (g.vertices.map φ) (GraphStore.copyEdges newEdge φ 0 g.edges)

omit [DecidableEq V] in
lemma Closed.start_mem (h : g.Closed) {e : Edge V} (he : e ∈ g.edges) :
    e.startVertex ∈ g.vertices := by
  obtain ⟨aj, haj, he⟩ := mem_edges.mp he
  rw [h.start aj haj e he]
  exact List.mem_map_of_mem haj

/-- **The adjacency lists keep their order.** -/
lemma Closed.order_image (h : g.Closed) (newEdge : ℕ → ℕ)
    (hinj : ∀ u ∈ g.vertices, ∀ v ∈ g.vertices, φ u = φ v → u = v) :
    (g.image φ newEdge).adjacencyList.map (fun aj => aj.edges.map ends)
      = g.adjacencyList.map fun aj =>
          aj.edges.map fun e => (φ e.startVertex, φ e.endVertex, e.weight) := by
  rw [h.adjacencyList_eq, image, ofEdges, ofEdges, List.map_map, List.map_map, List.map_map]
  refine List.map_congr_left fun v hv => ?_
  rw [Function.comp_apply, Function.comp_apply, Function.comp_apply]
  have hkeep : (g.edges.filter fun e => φ e.startVertex = φ v)
      = g.edges.filter fun e => e.startVertex = v := by
    refine List.filter_congr fun e he => decide_eq_decide.mpr ⟨fun heq => ?_, congrArg φ⟩
    exact hinj _ (h.start_mem he) v hv heq
  calc ((GraphStore.copyEdges newEdge φ 0 g.edges).filter fun e => e.startVertex = φ v).map ends
      = ((GraphStore.copyEdges newEdge φ 0 g.edges).map ends).filter fun k => k.1 = φ v := by
        rw [List.filter_map]
        rfl
    _ = (g.edges.filter fun e => φ e.startVertex = φ v).map
          fun e => (φ e.startVertex, φ e.endVertex, e.weight) := by
        rw [GraphStore.ends_copyEdges, List.filter_map]
        rfl
    _ = (g.edges.filter fun e => e.startVertex = v).map
          fun e => (φ e.startVertex, φ e.endVertex, e.weight) := by rw [hkeep]

/-- The ends and weights of the edges of the graph. -/
lemma Closed.ends_image (h : g.Closed) (newEdge : ℕ → ℕ)
    (hinj : ∀ u ∈ g.vertices, ∀ v ∈ g.vertices, φ u = φ v → u = v) :
    (g.image φ newEdge).edges.map ends
      = g.edges.map fun e => (φ e.startVertex, φ e.endVertex, e.weight) := by
  rw [ends_edges, h.order_image newEdge hinj, edges, List.map_flatMap, List.flatMap_def]

/-- **The weights from one vertex to another one.** -/
lemma Closed.weights_image (h : g.Closed) (newEdge : ℕ → ℕ)
    (hinj : ∀ u ∈ g.vertices, ∀ v ∈ g.vertices, φ u = φ v → u = v) {u v : V}
    (hu : u ∈ g.vertices) (hv : v ∈ g.vertices) :
    (g.image φ newEdge).weights (φ u) (φ v) = g.weights u v := by
  have hsame : ∀ e ∈ g.edges, decide (φ e.startVertex = φ u ∧ φ e.endVertex = φ v)
      = decide (e.startVertex = u ∧ e.endVertex = v) := fun e he =>
    decide_eq_decide.mpr ⟨fun heq => ⟨hinj _ (h.start_mem he) u hu heq.1,
      hinj _ (h.finish e he) v hv heq.2⟩, fun heq => ⟨congrArg φ heq.1, congrArg φ heq.2⟩⟩
  rw [weights_eq, h.ends_image newEdge hinj, List.filter_map, List.map_map, weights]
  have hfilter := List.filter_congr hsame
  exact congrArg (List.map Edge.weight) hfilter

/-- **The counters are right**, and the edges have their ends in the graph. -/
lemma Closed.consistent_image (h : g.Closed) (newEdge : ℕ → ℕ)
    (hinj : ∀ u ∈ g.vertices, ∀ v ∈ g.vertices, φ u = φ v → u = v) :
    (g.image φ newEdge).Consistent := by
  have hends := h.ends_image newEdge hinj
  have hvertices : (g.image φ newEdge).vertices = g.vertices.map φ := vertices_ofEdges _ _
  refine ⟨?_, ?_, ?_, fun aj haj e he => ?_, fun e he => ?_⟩
  · rw [image, ofEdges]
    dsimp only
    rw [List.length_map, List.length_map, List.length_map]
  · have hlength := congrArg List.length hends
    have hcopies := congrArg List.length (GraphStore.ends_copyEdges newEdge φ 0 g.edges)
    rw [List.length_map, List.length_map] at hlength hcopies
    rw [hlength, ← hcopies]
    rfl
  · rw [hvertices]
    exact h.nodup.map_on hinj
  · obtain ⟨w, -, rfl⟩ := List.mem_map.mp haj
    exact of_decide_eq_true (List.mem_filter.mp he).2
  · have hmem : ends e ∈ (g.image φ newEdge).edges.map ends := List.mem_map_of_mem he
    rw [hends] at hmem
    obtain ⟨e₀, he₀, heq⟩ := List.mem_map.mp hmem
    have hend : φ e₀.endVertex = e.endVertex := congrArg (fun k => k.2.1) heq
    rw [hvertices, ← hend]
    exact List.mem_map_of_mem (h.finish e₀ he₀)

end Image

end Graph

/-- **Both passes.** -/
lemma GraphStore.duplicate_spec (s : GraphStore V D W) {dest src : ℕ} {newVertex : ℕ → V}
    (newEdge : ℕ → ℕ) (hclosed : (s.graph src).Closed) (hdest : dest ≠ src)
    (hinj : Function.Injective newVertex) (hnew : ∀ k, newVertex k ∉ (s.graph src).vertices) :
    ∃ s' φ, s.duplicate newVertex newEdge dest src = some s' ∧
      (∀ u ∈ (s.graph src).vertices, ∀ v ∈ (s.graph src).vertices, φ u = φ v → u = v) ∧
      s'.graph = Function.update s.graph dest ((s.graph src).image φ newEdge) ∧
      (∀ v ∈ (s.graph src).vertices,
        s'.vertex v = { s.vertex v with sibling := some (φ v) } ∧ s'.Mirrors dest (φ v) v) ∧
      ∀ x, x ∉ (s.graph src).vertices → x ∉ (s.graph src).vertices.map φ →
        s'.vertex x = s.vertex x := by
  set g := s.graph src with hg
  let φ : V → V := fun v => newVertex (g.vertices.idxOf v)
  have hφ : ∀ k (hk : k < g.vertices.length), φ g.vertices[k] = newVertex k := fun k hk =>
    congrArg newVertex (hclosed.nodup.idxOf_getElem k hk)
  -- the first pass
  let s₀ : GraphStore V D W :=
    { s with graph := Function.update s.graph dest Graph.construct }
  have hsrc : s₀.graph src = g := Function.update_of_ne hdest.symm ..
  have hempty : s₀.graph dest = Graph.ofEdges [] [] := Function.update_self ..
  obtain ⟨hgraph₁, hvertices₁, hothers₁⟩ := duplicateVertices_spec hinj hclosed.nodup hnew hempty
    (fun _ _ => List.not_mem_nil) (n := 0) rfl
  set s₁ := duplicateVertices newVertex dest 0 g.vertices s₀ with hs₁
  have hmap : (List.range' 0 g.vertices.length).map newVertex = g.vertices.map φ := by
    refine List.ext_getElem (by simp) fun k hk hk' => ?_
    rw [List.length_map] at hk'
    rw [List.getElem_map, List.getElem_map, List.getElem_range', hφ k hk', Nat.one_mul,
      Nat.zero_add]
  rw [hmap, List.nil_append] at hgraph₁
  have hoff : ∀ v ∈ g.vertices,
      s₁.vertex v = { s.vertex v with sibling := some (φ v) } ∧ s₁.Mirrors dest (φ v) v := by
    intro v hv
    obtain ⟨k, hk, rfl⟩ := List.mem_iff_getElem.mp hv
    obtain ⟨hvertex, hmirror⟩ := hvertices₁ k hk
    rw [Nat.zero_add] at hvertex hmirror
    rw [hφ k hk]
    exact ⟨hvertex, hmirror⟩
  -- the second pass
  have hsrc₁ : s₁.graph src = g := by
    rw [hgraph₁, Function.update_of_ne hdest.symm, hsrc]
  have hdest₁ : s₁.graph dest = Graph.ofEdges (g.vertices.map φ) [] := by
    rw [hgraph₁, Function.update_self]
  have hsibling : ∀ v ∈ g.vertices, (s₁.vertex v).sibling = some (φ v) := fun v hv => by
    rw [(hoff v hv).1]
  have hsecond := duplicateEdges_spec newEdge g.edges (n := 0) hdest₁
    (fun e he => ⟨hsibling _ (hclosed.start_mem he), hsibling _ (hclosed.finish e he)⟩)
    fun e he => List.mem_map_of_mem (hclosed.start_mem he)
  rw [List.nil_append, hgraph₁, Function.update_idem, Function.update_idem] at hsecond
  refine ⟨{ s₁ with graph := Function.update s.graph dest (g.image φ newEdge) }, φ, ?_,
    fun u hu v _ heq => (List.idxOf_inj hu).mp (hinj heq), rfl,
    fun v hv => ⟨(hoff v hv).1, (hoff v hv).2.congr rfl rfl⟩, ?_⟩
  · have hunfold : s.duplicate newVertex newEdge dest src
        = duplicateEdges newEdge dest 0
          ((duplicateVertices newVertex dest 0 (s₀.graph src).vertices s₀).graph src).edges
          (duplicateVertices newVertex dest 0 (s₀.graph src).vertices s₀) := rfl
    rw [hunfold, hsrc, ← hs₁, hsrc₁]
    exact hsecond
  · intro x hx hxnew
    refine hothers₁ x hx fun k hk heq => hxnew ?_
    rw [heq, Nat.zero_add, ← hφ k hk]
    exact List.mem_map_of_mem (List.getElem_mem hk)

/-- **A duplicate is isomorphic to its original, which stays as it is.** What `OBJ_NEW` returns is
not in use: the graph `dest` and the new vertices are none of the original. -/
theorem graph_duplicate_isomorphic (s : GraphStore V D W) (dest src : ℕ) (newVertex : ℕ → V)
    (newEdge : ℕ → ℕ) (hclosed : (s.graph src).Closed) (hdest : dest ≠ src)
    (hinj : Function.Injective newVertex) (hnew : ∀ k, newVertex k ∉ (s.graph src).vertices) :
    ∃ s' φ, s.duplicate newVertex newEdge dest src = some s' ∧ s.IsDuplicate s' dest src φ := by
  obtain ⟨s', φ, hrun, hφ, hgraph, hoff, hothers⟩ :=
    s.duplicate_spec newEdge hclosed hdest hinj hnew
  have hcopy : s'.graph dest = (s.graph src).image φ newEdge := by
    rw [hgraph, Function.update_self]
  have hvertices : (s'.graph dest).vertices = (s.graph src).vertices.map φ := by
    rw [hcopy]
    exact Graph.vertices_ofEdges _ _
  refine ⟨s', φ, hrun, ?_⟩
  exact {
    siblings := fun v hv => ⟨by rw [(hoff v hv).1], (hoff v hv).2.sibling⟩
    bijection := by
      refine ⟨fun v hv => ?_, fun u hu v hv => hφ u hu v hv, fun w hw => ?_⟩
      · rw [Set.mem_ofPred_eq, hvertices]
        exact List.mem_map_of_mem hv
      · rw [Set.mem_ofPred_eq, hvertices] at hw
        exact List.mem_map.mp hw
    vertices := hvertices
    order := by
      rw [hcopy]
      exact hclosed.order_image newEdge hφ
    weights := fun u hu v hv => by
      rw [hcopy]
      exact hclosed.weights_image newEdge hφ hu hv
    consistent := by
      rw [hcopy]
      exact hclosed.consistent_image newEdge hφ
    mirrors := fun v hv => (hoff v hv).2
    graphs := fun k hk => by rw [hgraph, Function.update_of_ne hk]
    originals := fun v hv => (hoff v hv).1
    others := fun x hx hxnew => hothers x hx (hvertices ▸ hxnew) }

/-! ### A loop and two parallel edges -/

/-- Two vertices, with a loop at the first and two edges to the second. -/
def loopAndParallel : Graph ℕ where
  adjacencyList := [⟨0, [⟨0, 0, 0, 4⟩, ⟨1, 0, 1, 5⟩, ⟨2, 0, 1, 6⟩]⟩, ⟨1, []⟩]
  numberOfEdges := 3
  numberOfVertices := 2

/-- The store with this graph, whose vertices have stale siblings. -/
def staleStore : GraphStore ℕ ℕ Unit where
  graph := fun _ => loopAndParallel
  vertex := fun _ => { VertexObject.construct with sibling := some 1 }
  world := ()

theorem graph_duplicate_isomorphic_loop :
    ∃ s' φ, staleStore.duplicate (· + 10) id 1 0 = some s' ∧ staleStore.IsDuplicate s' 1 0 φ ∧
      (s'.graph 1).adjacencyList
        = [⟨10, [⟨0, 10, 10, 4⟩, ⟨1, 10, 11, 5⟩, ⟨2, 10, 11, 6⟩]⟩, ⟨11, []⟩] := by
  have hcons : loopAndParallel.Consistent := ⟨rfl, rfl, by decide, by decide, by decide⟩
  have hnew : ∀ k : ℕ, k + 10 ∉ loopAndParallel.vertices := fun k hk => by
    have hvertices : loopAndParallel.vertices = [0, 1] := rfl
    rw [hvertices, List.mem_cons, List.mem_singleton] at hk
    omega
  obtain ⟨s', φ, hrun, hdup⟩ := graph_duplicate_isomorphic staleStore 1 0 (· + 10) id hcons.closed
    Nat.one_ne_zero
    (fun a b heq => Nat.add_right_cancel heq) hnew
  refine ⟨s', φ, hrun, hdup, ?_⟩
  cases hrun
  rfl

end Ocoms
