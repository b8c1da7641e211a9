import CallForest.Proofs.Ancestry

/-!
# Cycles

A call goes back exactly if the function that it runs is being executed already. So a recursive
edge leads to the one node on the way from the root that executes this function, and a call edge
leads to a function that no node on the way executes.
-/

namespace CallForest
namespace Graph

/-- Cycles are cut at the first return to a function on the way from the root, and nowhere else. -/
structure ExactCuts (g : Graph) : Prop where
  one_rootPath : forall n, n.index < g.size ->
    exists path, forall p, g.RootPath n p <-> p = path
  recursive_target : forall n path node a, g.RootPath n path -> g.node n = .ok node ->
    Edge.recursive a ∈ node.calls ->
    a ∈ path ∧ exists f, g.definition a = .ok (.function f) ∧
      forall m, m ∈ path -> g.definition m = .ok (.function f) -> m = a
  call_target : forall n path node c, g.RootPath n path -> g.node n = .ok node ->
    Edge.call c ∈ node.calls ->
    exists f, g.definition c = .ok (.function f) ∧
      forall m, m ∈ path -> g.definition m ≠ .ok (.function f)
  nodup_definitions : forall n path, g.RootPath n path -> (path.map g.definition).Nodup
  function_of_not_mem_roots : forall n, n.index < g.size -> n ∉ g.roots ->
    exists f, g.definition n = .ok (.function f)
  stateVariable_mem_roots : forall n v, g.definition n = .ok (.stateVariable v) -> n ∈ g.roots
  implicitConstructor_mem_roots : forall n id,
    g.definition n = .ok (.implicitConstructor id) -> n ∈ g.roots

/-!
# Edges of an execution

No definition stands twice on the path of an execution, and a frame that is found on it is the only
one with its definition.
-/

section

variable {s : Store} {config : Config} {linearization : List ContractId}
  {roots : List Execution}

theorem recursive_target_of_mem_forest (h : Rooted roots)
    (hunrolled : forall e, e ∈ roots -> e.Unrolled s config linearization) {e : Execution}
    (he : e ∈ forest roots) {a : NodeId} (ha : Edge.recursive a ∈ e.node.calls) :
    a ∈ e.lineage ∧ exists f, (ofExecutions roots).definition a = .ok (.function f) ∧
      forall m, m ∈ e.lineage -> (ofExecutions roots).definition m = .ok (.function f) ->
        m = a := by
  have hnodup := nodup_path_of_mem_forest h hunrolled e he
  rcases Course.exists_frame_of_mem_edges ha with ⟨frame, f, hframe, rfl, hf⟩
  have hdefinition := definition_of_mem_frames h he hframe
  rw [hf] at hdefinition
  refine ⟨List.mem_map_of_mem hframe, f, hdefinition, ?_⟩
  intro m hm hmf
  rcases List.mem_map.mp hm with ⟨other, hother, rfl⟩
  rw [definition_of_mem_frames h he hother, Except.ok.injEq] at hmf
  rw [eq_of_definition_eq hnodup hother hframe (hmf.trans hf.symm)]

theorem call_target_of_mem_forest (h : Rooted roots)
    (hunrolled : forall e, e ∈ roots -> e.Unrolled s config linearization) {e : Execution}
    (he : e ∈ forest roots) {c : NodeId} (hc : Edge.call c ∈ e.node.calls) :
    exists f, (ofExecutions roots).definition c = .ok (.function f) ∧
      forall m, m ∈ e.lineage -> (ofExecutions roots).definition m ≠ .ok (.function f) := by
  rcases Course.exists_callee_of_mem_edges hc with ⟨d, hd, rfl⟩
  rcases (unrolled_of_mem_forest hunrolled e he).of_mem_callees hd with ⟨_, hfresh, f, hf⟩
  have hdefinition := definition_ofExecutions h (callees_mem_forest he hd)
  rw [hf] at hdefinition hfresh
  exact ⟨f, hdefinition, fun m hm => definition_ne_of_not_mem_path h he hfresh hm⟩

theorem function_of_mem_forest
    (hunrolled : forall e, e ∈ roots -> e.Unrolled s config linearization) {e : Execution}
    (he : e ∈ forest roots) (hroot : e.id ∉ (ofExecutions roots).roots) :
    exists f, e.definition = .function f := by
  rcases mem_roots_or_exists_parent he with hmem | ⟨p, hp, hcallee⟩
  · exact absurd (mem_roots_ofExecutions.mpr ⟨e, hmem, rfl⟩) hroot
  · exact ((unrolled_of_mem_forest hunrolled p hp).of_mem_callees hcallee).2.2

theorem mem_roots_of_definition_ne_function (h : Rooted roots)
    (hunrolled : forall e, e ∈ roots -> e.Unrolled s config linearization) {n : NodeId}
    {d : Definition} (hd : (ofExecutions roots).definition n = .ok d)
    (hne : forall f, d ≠ .function f) : n ∈ (ofExecutions roots).roots := by
  rw [Graph.definition, bind_pure_eq_ok_iff] at hd
  rcases hd with ⟨node, hnode, rfl⟩
  rcases (node_ofExecutions_eq_ok_iff h).mp hnode with ⟨e, he, rfl, rfl⟩
  by_contra hroot
  rcases function_of_mem_forest hunrolled he hroot with ⟨f, hf⟩
  exact hne f hf

theorem exactCuts_ofExecutions (h : Rooted roots)
    (hunrolled : forall e, e ∈ roots -> e.Unrolled s config linearization) :
    (ofExecutions roots).ExactCuts where
  one_rootPath := by
    intro n hn
    rcases (lt_size_ofExecutions_iff h).mp hn with ⟨e, he, rfl⟩
    exact ⟨e.lineage, fun p => rootPath_iff_eq_lineage h he⟩
  recursive_target := by
    intro n path node a hpath hnode ha
    rcases exists_execution_of_rootPath h hpath with ⟨e, he, rfl, rfl⟩
    rw [node_ofExecutions h he] at hnode
    cases hnode
    exact recursive_target_of_mem_forest h hunrolled he ha
  call_target := by
    intro n path node c hpath hnode hc
    rcases exists_execution_of_rootPath h hpath with ⟨e, he, rfl, rfl⟩
    rw [node_ofExecutions h he] at hnode
    cases hnode
    exact call_target_of_mem_forest h hunrolled he hc
  nodup_definitions := by
    intro n path hpath
    rcases exists_execution_of_rootPath h hpath with ⟨e, he, rfl, rfl⟩
    rw [map_definition_lineage h he]
    refine (nodup_path_of_mem_forest h hunrolled e he).map ?_
    intro d d' heq
    exact Except.ok.inj heq
  function_of_not_mem_roots := by
    intro n hn hroot
    rcases (lt_size_ofExecutions_iff h).mp hn with ⟨e, he, rfl⟩
    rcases function_of_mem_forest hunrolled he hroot with ⟨f, hf⟩
    exact ⟨f, by rw [definition_ofExecutions h he, hf]⟩
  stateVariable_mem_roots := by
    intro n v hd
    exact mem_roots_of_definition_ne_function h hunrolled hd (by intro f heq; cases heq)
  implicitConstructor_mem_roots := by
    intro n id hd
    exact mem_roots_of_definition_ne_function h hunrolled hd (by intro f heq; cases heq)

end

end Graph

theorem cycles_are_cut_exactly {create : Text.Path -> Except String Unit}
    {s : Store} {config : Config} {id : ContractId} {a : Analysis}
    (h : Analyzes create s config id a) : a.graph.ExactCuts := by
  rcases exists_roots_of_analyzes h with ⟨contract, roots, _, hrooted, hgraph, hunrolled⟩
  rw [hgraph]
  exact Graph.exactCuts_ofExecutions hrooted hunrolled

theorem exactCuts_cycle :
    exists a, Analyzes (fun _ => .ok ()) Cycle.store {} ⟨0⟩ a ∧ a.graph = Cycle.graph ∧
      a.graph.ExactCuts := by
  rcases Cycle.exists_analyzes with ⟨a, h, hgraph⟩
  exact ⟨a, h, hgraph, cycles_are_cut_exactly h⟩

end CallForest
