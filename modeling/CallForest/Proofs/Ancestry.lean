import CallForest.Proofs.Layout

/-!
# The way from a root to a node

A node of a graph is reached from a root by going down call edges. In the graph of a forest there is
one way to each node: the nodes of the frames of the execution that made it. The definitions on this
way are the path at whose end the node's code was unrolled, and no definition stands on it twice.
-/

namespace CallForest
namespace Graph

def definition (g : Graph) (n : NodeId) : Except Fault Definition := do
  let node ← g.node n
  pure node.definition

/-- The nodes on a way from a root down the call edges, the last one first. -/
inductive RootPath (g : Graph) : NodeId -> List NodeId -> Prop where
  | root {r : NodeId} :
      r ∈ g.roots -> RootPath g r [r]
  | callee {n c : NodeId} {path : List NodeId} {node : Node} :
      RootPath g n path -> g.node n = .ok node -> Edge.call c ∈ node.calls ->
      RootPath g c (c :: path)

end Graph

namespace Execution

theorem lineage_of_outer_eq_nil {e : Execution} (h : e.outer = []) : e.lineage = [e.id] := by
  rw [lineage, frames, h]
  rfl

theorem path_of_outer_eq_nil {e : Execution} (h : e.outer = []) : e.path = [e.definition] := by
  rw [path, frames, h]
  rfl

theorem call_mem_node_calls {e c : Execution} (h : c ∈ e.callees) :
    Edge.call c.id ∈ e.node.calls := by
  have hmem : c.id ∈ e.node.callees := by
    rw [callees_node]
    exact List.mem_map_of_mem h
  rcases List.mem_filterMap.mp hmem with ⟨edge, hedge, heq⟩
  cases edge with
  | call target =>
      cases heq
      exact hedge
  | recursive target =>
      cases heq

end Execution

namespace Graph

/-!
# Ways through a forest

Going down a call edge adds the frame of the callee to the frames of the caller.
-/

theorem rootPath_lineage {roots : List Execution} (h : Rooted roots) :
    forall e, e ∈ forest roots -> (ofExecutions roots).RootPath e.id e.lineage := by
  refine forall_mem_forest ?_ ?_
  · intro e he
    rw [Execution.lineage_of_outer_eq_nil (h.outer_eq_nil e he)]
    exact RootPath.root (mem_roots_ofExecutions.mpr ⟨e, he, rfl⟩)
  · intro e he hpath c hc
    rw [Execution.lineage_of_mem_callees hc]
    exact RootPath.callee hpath (node_ofExecutions h he) (Execution.call_mem_node_calls hc)

theorem exists_execution_of_rootPath {roots : List Execution} (h : Rooted roots) {n : NodeId}
    {path : List NodeId} (hpath : (ofExecutions roots).RootPath n path) :
    exists e, e ∈ forest roots ∧ e.id = n ∧ e.lineage = path := by
  induction hpath with
  | root hr =>
      rcases mem_roots_ofExecutions.mp hr with ⟨e, he, rfl⟩
      exact ⟨e, mem_forest_of_mem he, rfl,
        Execution.lineage_of_outer_eq_nil (h.outer_eq_nil e he)⟩
  | callee _ hnode hc ih =>
      rcases ih with ⟨e, he, rfl, rfl⟩
      rw [node_ofExecutions h he] at hnode
      cases hnode
      rcases Course.exists_callee_of_mem_edges hc with ⟨d, hd, rfl⟩
      exact ⟨d, callees_mem_forest he hd, rfl, Execution.lineage_of_mem_callees hd⟩

theorem rootPath_iff_eq_lineage {roots : List Execution} (h : Rooted roots) {e : Execution}
    (he : e ∈ forest roots) {path : List NodeId} :
    (ofExecutions roots).RootPath e.id path <-> path = e.lineage := by
  constructor
  · intro hpath
    rcases exists_execution_of_rootPath h hpath with ⟨d, hd, hid, rfl⟩
    rw [eq_of_id_eq h hd he hid]
  · intro hpath
    rw [hpath]
    exact rootPath_lineage h e he

/-!
# Definitions on the way
-/

theorem definition_ofExecutions {roots : List Execution} (h : Rooted roots) {e : Execution}
    (he : e ∈ forest roots) : (ofExecutions roots).definition e.id = .ok e.definition := by
  rw [Graph.definition, node_ofExecutions h he]
  rfl

theorem definition_of_mem_frames {roots : List Execution} (h : Rooted roots) {e : Execution}
    (he : e ∈ forest roots) {frame : Frame} (hframe : frame ∈ e.frames) :
    (ofExecutions roots).definition frame.node = .ok frame.definition := by
  rcases exists_mem_forest_of_mem_frames h he frame hframe with ⟨d, hd, rfl⟩
  exact definition_ofExecutions h hd

theorem map_definition_lineage {roots : List Execution} (h : Rooted roots) {e : Execution}
    (he : e ∈ forest roots) :
    e.lineage.map (ofExecutions roots).definition = e.path.map .ok := by
  rw [Execution.lineage, Execution.path, List.map_map, List.map_map]
  apply List.map_congr_left
  intro frame hframe
  exact definition_of_mem_frames h he hframe

theorem length_lineage (e : Execution) : e.lineage.length = e.path.length := by
  rw [Execution.lineage, Execution.path, List.length_map, List.length_map]

theorem definition_ne_of_not_mem_path {roots : List Execution} (h : Rooted roots) {e : Execution}
    (he : e ∈ forest roots) {d : Definition} (hfresh : d ∉ e.path) {m : NodeId}
    (hm : m ∈ e.lineage) : (ofExecutions roots).definition m ≠ .ok d := by
  intro hd
  rcases List.mem_map.mp hm with ⟨frame, hframe, rfl⟩
  rw [definition_of_mem_frames h he hframe, Except.ok.injEq] at hd
  exact hfresh (hd ▸ List.mem_map_of_mem hframe)

theorem nodup_path_of_mem_forest {s : Store} {config : Config}
    {linearization : List ContractId} {roots : List Execution} (h : Rooted roots)
    (hunrolled : forall e, e ∈ roots -> e.Unrolled s config linearization) :
    forall e, e ∈ forest roots -> e.path.Nodup := by
  refine forall_mem_forest ?_ ?_
  · intro e he
    rw [Execution.path_of_outer_eq_nil (h.outer_eq_nil e he)]
    exact List.nodup_singleton _
  · intro e he hnodup c hc
    have hfresh := ((unrolled_of_mem_forest hunrolled e he).of_mem_callees hc).2.1
    rw [Execution.path_of_mem_callees hc]
    exact List.nodup_cons.mpr ⟨hfresh, hnodup⟩

theorem eq_of_definition_eq {e : Execution} (hnodup : e.path.Nodup) {frame frame' : Frame}
    (hframe : frame ∈ e.frames) (hframe' : frame' ∈ e.frames)
    (heq : frame.definition = frame'.definition) : frame = frame' :=
  List.inj_on_of_nodup_map hnodup hframe hframe' heq

end Graph
end CallForest
