import CallForest.Proofs.BackEdges

/-!
# Functions called below a node

A graph finds a function below a node if a node strictly below executes it. A call that goes back
has no node of its own. As long as it goes back to a node strictly below, this node is found
instead, so every call of a function counts that is executed nowhere on the way from the root to the
node. The function of the node itself is never found, even if it is called back.
-/

namespace CallForest

namespace Graph

def CallsBelowNode (g : Graph) (n : NodeId) (f : FunctionId) : Prop :=
  exists ids m node edge, g.reachable n = .ok ids ∧ m ∈ ids ∧ g.node m = .ok node ∧
    edge ∈ node.calls ∧ g.definition edge.target = .ok (.function f)

/-- Each function that is found at a node is called there, and the function of the node is not
found. All functions that are executed nowhere on the way to the node are found if they are
called. -/
structure FindsCalls (g : Graph) (n : NodeId) : Prop where
  answers : forall f, exists b, g.callsFunction n f = .ok b
  called : forall f, g.callsFunction n f = .ok true -> g.CallsBelowNode n f
  not_itself : forall f, g.definition n = .ok (.function f) -> g.callsFunction n f = .ok false
  found : forall f path, g.RootPath n path ->
    (forall m, m ∈ path -> g.definition m ≠ .ok (.function f)) ->
    g.CallsBelowNode n f -> g.callsFunction n f = .ok true

end Graph

/-!
# Executions strictly inside
-/

theorem Execution.mem_inside_iff {e c : Execution} :
    c ∈ e.inside <-> exists p, p ∈ e.subtree ∧ c ∈ p.callees := by
  constructor
  · intro hc
    rcases Course.mem_callees_or_of_mem_executions hc with hcallee | ⟨p, hp, hcallee⟩
    · exact ⟨e, e.self_mem_subtree, hcallee⟩
    · exact ⟨p, mem_subtree_iff.mpr (Or.inr hp), hcallee⟩
  · intro h
    rcases h with ⟨p, hp, hc⟩
    rcases mem_subtree_iff.mp hp with rfl | hp
    · exact Course.mem_executions_of_mem_callees hc
    · exact Course.callees_mem_executions hp hc

namespace Graph

section

variable {s : Store} {config : Config} {linearization : List ContractId}
  {roots : List Execution}

theorem callsFunction_ofExecutions (h : Rooted roots) {e : Execution} (he : e ∈ forest roots)
    (f : FunctionId) :
    (ofExecutions roots).callsFunction e.id f =
      .ok (e.inside.any fun c => c.definition = .function f) := by
  rw [callsFunction, reachableNodes_ofExecutions h he]
  show Except.ok (((e.inside.map Execution.node)).any _) = Except.ok _
  rw [List.any_map]
  rfl

theorem callsFunction_iff (h : Rooted roots) {e : Execution} (he : e ∈ forest roots)
    {f : FunctionId} :
    (ofExecutions roots).callsFunction e.id f = .ok true <->
      exists c, c ∈ e.inside ∧ c.definition = .function f := by
  rw [callsFunction_ofExecutions h he, Except.ok.injEq]
  simp only [List.any_eq_true, decide_eq_true_eq]

theorem callsBelowNode_iff (h : Rooted roots) {e : Execution} (he : e ∈ forest roots)
    {f : FunctionId} :
    (ofExecutions roots).CallsBelowNode e.id f <->
      exists p edge, p ∈ e.subtree ∧ edge ∈ p.node.calls ∧
        (ofExecutions roots).definition edge.target = .ok (.function f) := by
  constructor
  · intro hcalls
    rcases hcalls with ⟨ids, m, node, edge, hids, hm, hnode, hedge, hf⟩
    rw [reachable_ofExecutions h he, Except.ok.injEq] at hids
    rw [← hids] at hm
    rcases List.mem_map.mp hm with ⟨p, hp, rfl⟩
    rw [node_ofExecutions h (subtree_mem_forest he p hp)] at hnode
    cases hnode
    exact ⟨p, edge, hp, hedge, hf⟩
  · intro hcalls
    rcases hcalls with ⟨p, edge, hp, hedge, hf⟩
    exact ⟨_, p.id, p.node, edge, reachable_ofExecutions h he, List.mem_map_of_mem hp,
      node_ofExecutions h (subtree_mem_forest he p hp), hedge, hf⟩

theorem callsBelowNode_of_mem_inside (h : Rooted roots) {e c : Execution} (he : e ∈ forest roots)
    (hc : c ∈ e.inside) {f : FunctionId} (hf : c.definition = .function f) :
    (ofExecutions roots).CallsBelowNode e.id f := by
  rcases Execution.mem_inside_iff.mp hc with ⟨p, hp, hcallee⟩
  have hforest := callees_mem_forest (subtree_mem_forest he p hp) hcallee
  have hdefinition := definition_ofExecutions h hforest
  rw [hf] at hdefinition
  exact (callsBelowNode_iff h he).mpr
    ⟨p, .call c.id, hp, Execution.call_mem_node_calls hcallee, hdefinition⟩

theorem exists_inside_of_callsBelowNode (h : Rooted roots) {e : Execution}
    (he : e ∈ forest roots) {f : FunctionId} (hfresh : Definition.function f ∉ e.path)
    (hcalls : (ofExecutions roots).CallsBelowNode e.id f) :
    exists c, c ∈ e.inside ∧ c.definition = .function f := by
  rcases (callsBelowNode_iff h he).mp hcalls with ⟨p, edge, hp, hedge, hf⟩
  cases edge with
  | call id =>
      rcases Course.exists_callee_of_mem_edges hedge with ⟨c, hc, rfl⟩
      have hforest := callees_mem_forest (subtree_mem_forest he p hp) hc
      have hdefinition := (definition_ofExecutions h hforest).symm.trans hf
      exact ⟨c, Execution.mem_inside_iff.mpr ⟨p, hp, hc⟩, Except.ok.inj hdefinition⟩
  | recursive id =>
      rcases Course.exists_frame_of_mem_edges hedge with ⟨frame, _, hframe, rfl, _⟩
      have hdefinition := definition_of_mem_frames h (subtree_mem_forest he p hp) hframe
      have heq : frame.definition = .function f := Except.ok.inj (hdefinition.symm.trans hf)
      rcases Execution.exists_mem_inside_or_mem_frames hp hframe with ⟨c, hc, rfl⟩ | hmem
      · exact ⟨c, hc, heq⟩
      · rw [← heq] at hfresh
        exact absurd (List.mem_map_of_mem hmem) hfresh

theorem not_mem_path_of_mem_inside (h : Rooted roots)
    (hunrolled : forall e, e ∈ roots -> e.Unrolled s config linearization) {e c : Execution}
    (he : e ∈ forest roots) (hc : c ∈ e.inside) : c.definition ∉ e.path := by
  have hforest := subtree_mem_forest he c (Execution.mem_subtree_iff.mpr (Or.inr hc))
  have hnodup := nodup_path_of_mem_forest h hunrolled c hforest
  have hfresh : c.definition ∉ c.outer.map (·.definition) := (List.nodup_cons.mp hnodup).1
  intro hmem
  exact hfresh (List.map_subset _ (Execution.frames_subset_of_mem_inside hc) hmem)

theorem findsCalls_ofExecutions (h : Rooted roots)
    (hunrolled : forall e, e ∈ roots -> e.Unrolled s config linearization) {e : Execution}
    (he : e ∈ forest roots) : (ofExecutions roots).FindsCalls e.id where
  answers f := ⟨_, callsFunction_ofExecutions h he f⟩
  called := by
    intro f hcalls
    rcases (callsFunction_iff h he).mp hcalls with ⟨c, hc, hf⟩
    exact callsBelowNode_of_mem_inside h he hc hf
  not_itself := by
    intro f hf
    rw [definition_ofExecutions h he, Except.ok.injEq] at hf
    rw [callsFunction_ofExecutions h he, Except.ok.injEq, List.any_eq_false]
    intro c hc hdefinition
    apply not_mem_path_of_mem_inside h hunrolled he hc
    rw [of_decide_eq_true hdefinition, ← hf]
    exact List.mem_cons_self
  found := by
    intro f path hpath hfresh hcalls
    rw [(rootPath_iff_eq_lineage h he).mp hpath] at hfresh
    refine (callsFunction_iff h he).mpr (exists_inside_of_callsBelowNode h he ?_ hcalls)
    intro hmem
    rcases List.mem_map.mp hmem with ⟨frame, hframe, hf⟩
    have hdefinition := definition_of_mem_frames h he hframe
    rw [hf] at hdefinition
    exact hfresh frame.node (List.mem_map_of_mem hframe) hdefinition

end

end Graph

theorem calls_are_found_off_the_way {create : Text.Path -> Except String Unit}
    {s : Store} {config : Config} {id : ContractId} {a : Analysis}
    (h : Analyzes create s config id a) {n : NodeId} (hn : n.index < a.graph.size) :
    a.graph.FindsCalls n := by
  rcases exists_roots_of_analyzes h with ⟨contract, roots, _, hrooted, hgraph, hunrolled⟩
  rw [hgraph] at hn ⊢
  rcases (Graph.lt_size_ofExecutions_iff hrooted).mp hn with ⟨e, he, rfl⟩
  exact Graph.findsCalls_ofExecutions hrooted hunrolled he

theorem findsCalls_cycle :
    exists a, Analyzes (fun _ => .ok ()) Cycle.store {} ⟨0⟩ a ∧ a.graph = Cycle.graph ∧
      1 < a.graph.size ∧ a.graph.FindsCalls ⟨1⟩ := by
  rcases Cycle.exists_analyzes with ⟨a, h, hgraph⟩
  have hlt : 1 < a.graph.size := by
    rw [hgraph]
    decide
  exact ⟨a, h, hgraph, hlt, calls_are_found_off_the_way h hlt⟩

/-- Node 2, below node 1, calls the function of node 1 back. -/
theorem call_back_is_not_found :
    exists a, Analyzes (fun _ => .ok ()) Cycle.store {} ⟨0⟩ a ∧
      a.graph.node ⟨2⟩ = .ok ⟨.function ⟨3⟩, [.recursive ⟨1⟩], [], [⟨1⟩]⟩ ∧
      a.graph.definition ⟨1⟩ = .ok (.function ⟨2⟩) ∧
      a.graph.CallsBelowNode ⟨1⟩ ⟨2⟩ ∧ a.graph.callsFunction ⟨1⟩ ⟨2⟩ = .ok false := by
  rcases Cycle.exists_analyzes with ⟨a, h, hgraph⟩
  refine ⟨a, h, ?_⟩
  rw [hgraph]
  have hreachable : Cycle.graph.reachable ⟨1⟩ = .ok [⟨1⟩, ⟨2⟩] := by
    rw [Graph.reachable_eq_preorderWithin]
    rfl
  refine ⟨rfl, rfl, ?_, ?_⟩
  · exact ⟨_, ⟨2⟩, _, .recursive ⟨1⟩, hreachable, by decide, rfl, List.mem_cons_self, rfl⟩
  · rw [Graph.callsFunction, Graph.reachableNodes, hreachable]
    rfl

end CallForest
