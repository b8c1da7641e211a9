import CallForest.Proofs.Completeness
import CallForest.Proofs.Nesting
import CallForest.Proofs.Records

/-!
# Effects behind recursive edges

Whether a state variable is accessed below a node is answered along the call edges alone. A
recursive edge leads above the node that holds it. So at a root, where nothing is above, the answer
takes the recursion into account, and at an inner node it may not: what is accessed behind the
recursive edges, too, is what the same question finds at the outermost node that they lead back to.
-/

namespace CallForest

open Relation

def Access.transitively : Access -> Graph -> NodeId -> StateVariableId -> Except Fault Bool
  | .read, g, n, v => g.readsTransitively n v
  | .write, g, n, v => g.writesTransitively n v

namespace Graph

def AccessesAlong (g : Graph) (step : NodeId -> NodeId -> Prop) (access : Access) (n : NodeId)
    (v : StateVariableId) : Prop :=
  exists m node, ReflTransGen step n m ∧ g.node m = .ok node ∧ v ∈ access.ofNode node

/-- The answers at a node tell what is accessed along the call edges. They tell what is accessed
along all edges if no edge leads out of the nodes below, and in particular at a root. In any case
the answers at a node on the way from the root tell it. -/
structure AnswersAlongCalls (g : Graph) (access : Access) (n : NodeId) : Prop where
  answer : forall v, exists b, access.transitively g n v = .ok b ∧
    (b = true <-> g.AccessesAlong g.Owns access n v)
  answer_of_stays :
    (forall m a, ReflTransGen g.Owns n m -> g.LeadsTo m a -> ReflTransGen g.Owns n a) ->
    forall v, access.transitively g n v = .ok true <-> g.AccessesAlong g.LeadsTo access n v
  answer_of_root : n ∈ g.roots ->
    forall v, access.transitively g n v = .ok true <-> g.AccessesAlong g.LeadsTo access n v
  exists_top : exists path top, g.RootPath n path ∧ top ∈ path ∧
    ReflTransGen g.LeadsTo n top ∧
    forall v, access.transitively g top v = .ok true <-> g.AccessesAlong g.LeadsTo access n v

section

variable {access : Access} {roots : List Execution}

theorem transitively_ofExecutions (h : Rooted roots) {e : Execution} (he : e ∈ forest roots)
    (v : StateVariableId) :
    access.transitively (ofExecutions roots) e.id v =
      .ok (e.subtree.any fun c => (access.ofNode c.node).contains v) := by
  have hnodes := reachableNodes_ofExecutions h he
  cases access with
  | read =>
      rw [Access.transitively, readsTransitively, hnodes]
      show Except.ok _ = Except.ok _
      rw [List.any_map]
      rfl
  | write =>
      rw [Access.transitively, writesTransitively, hnodes]
      show Except.ok _ = Except.ok _
      rw [List.any_map]
      rfl

theorem any_accesses_iff {e : Execution} {v : StateVariableId} :
    (e.subtree.any fun c => (access.ofNode c.node).contains v) = true <->
      exists c, c ∈ e.subtree ∧ v ∈ access.ofNode c.node := by
  simp only [List.any_eq_true, List.contains_iff_mem]

theorem transitively_iff_of_reaches (h : Rooted roots) {step : NodeId -> NodeId -> Prop}
    {n : NodeId} {top : Execution} (htop : top ∈ forest roots)
    (hreaches : forall m, ReflTransGen step n m <-> exists c, c ∈ top.subtree ∧ c.id = m)
    (v : StateVariableId) :
    access.transitively (ofExecutions roots) top.id v = .ok true <->
      (ofExecutions roots).AccessesAlong step access n v := by
  rw [transitively_ofExecutions h htop, Except.ok.injEq, any_accesses_iff]
  constructor
  · intro hv
    rcases hv with ⟨c, hc, hv⟩
    exact ⟨c.id, c.node, (hreaches c.id).mpr ⟨c, hc, rfl⟩,
      node_ofExecutions h (subtree_mem_forest htop c hc), hv⟩
  · intro hv
    rcases hv with ⟨m, node, hm, hnode, hv⟩
    rcases (hreaches m).mp hm with ⟨c, hc, rfl⟩
    rw [node_ofExecutions h (subtree_mem_forest htop c hc)] at hnode
    cases hnode
    exact ⟨c, hc, hv⟩

theorem answersAlongCalls_ofExecutions (h : Rooted roots) {e : Execution}
    (he : e ∈ forest roots) : (ofExecutions roots).AnswersAlongCalls access e.id where
  answer := by
    intro v
    refine ⟨_, transitively_ofExecutions h he v, ?_⟩
    rw [← transitively_iff_of_reaches h he (fun _ => reflTransGen_owns_iff h he),
      transitively_ofExecutions h he, Except.ok.injEq]
  answer_of_stays := by
    intro hstays
    apply transitively_iff_of_reaches h he
    intro m
    rw [← reflTransGen_owns_iff h he]
    constructor
    · intro hway
      induction hway with
      | refl => exact ReflTransGen.refl
      | tail _ hleads ih => exact hstays _ _ ih hleads
    · exact ReflTransGen.mono (fun _ _ => Owns.leadsTo) _ _
  answer_of_root := by
    intro hroot
    rcases mem_roots_ofExecutions.mp hroot with ⟨root, hmem, hid⟩
    have heq := eq_of_id_eq h (mem_forest_of_mem hmem) he hid
    subst heq
    apply transitively_iff_of_reaches h he
    intro m
    apply reflTransGen_leadsTo_iff_of_stays h he
    intro c _ frame hframe
    rw [h.outer_eq_nil root hmem] at hframe
    cases hframe
  exists_top := by
    rcases exists_top h he with ⟨top, htop, hframe, hreaches⟩
    exact ⟨e.lineage, top.id, rootPath_lineage h e he, List.mem_map_of_mem hframe,
      (hreaches top.id).mpr ⟨top, top.self_mem_subtree, rfl⟩,
      transitively_iff_of_reaches h htop hreaches⟩

end

end Graph

theorem effects_are_answered_along_calls
    {create : Text.Path -> Except String Unit} {s : Store} {config : Config}
    {id : ContractId} {a : Analysis} (h : Analyzes create s config id a) (access : Access)
    {n : NodeId} (hn : n.index < a.graph.size) : a.graph.AnswersAlongCalls access n := by
  rcases exists_roots_of_analyzes h with ⟨contract, roots, _, hrooted, hgraph, _⟩
  rw [hgraph] at hn ⊢
  rcases (Graph.lt_size_ofExecutions_iff hrooted).mp hn with ⟨e, he, rfl⟩
  exact Graph.answersAlongCalls_ofExecutions hrooted he

theorem answersAlongCalls_cycle :
    exists a, Analyzes (fun _ => .ok ()) Cycle.store {} ⟨0⟩ a ∧ a.graph = Cycle.graph ∧
      2 < a.graph.size ∧ a.graph.AnswersAlongCalls .read ⟨2⟩ := by
  rcases Cycle.exists_analyzes with ⟨a, h, hgraph⟩
  have hlt : 2 < a.graph.size := by
    rw [hgraph]
    decide
  exact ⟨a, h, hgraph, hlt, effects_are_answered_along_calls h .read hlt⟩

namespace Cycle

theorem reachableNodes_two :
    graph.reachableNodes ⟨2⟩ = .ok [⟨.function ⟨3⟩, [.recursive ⟨1⟩], [], [⟨1⟩]⟩] := by
  have hreachable : graph.reachable ⟨2⟩ = .ok [⟨2⟩] := by
    rw [Graph.reachable_eq_preorderWithin]
    rfl
  rw [Graph.reachableNodes, hreachable]
  rfl

theorem reachableNodes_six :
    graph.reachableNodes ⟨6⟩ = .ok [⟨.function ⟨2⟩, [.recursive ⟨5⟩], [⟨0⟩], []⟩] := by
  have hreachable : graph.reachable ⟨6⟩ = .ok [⟨6⟩] := by
    rw [Graph.reachable_eq_preorderWithin]
    rfl
  rw [Graph.reachableNodes, hreachable]
  rfl

end Cycle

/-- The function `g` of node 2 calls `f` back, which reads `x`, and the function `f` of node 6 calls
`g` back, which writes `y`. -/
theorem recursive_effects_are_missed :
    exists a, Analyzes (fun _ => .ok ()) Cycle.store {} ⟨0⟩ a ∧
      ({} : Config).maxCallDepth = none ∧
      a.graph.readsTransitively ⟨2⟩ ⟨0⟩ = .ok false ∧
      a.graph.AccessesAlong a.graph.LeadsTo .read ⟨2⟩ ⟨0⟩ ∧
      a.graph.writesTransitively ⟨6⟩ ⟨1⟩ = .ok false ∧
      a.graph.AccessesAlong a.graph.LeadsTo .write ⟨6⟩ ⟨1⟩ := by
  rcases Cycle.exists_analyzes with ⟨a, h, hgraph⟩
  have hread : Cycle.graph.LeadsTo ⟨2⟩ ⟨1⟩ := ⟨_, _, rfl, List.mem_cons_self, rfl⟩
  have hwrite : Cycle.graph.LeadsTo ⟨6⟩ ⟨5⟩ := ⟨_, _, rfl, List.mem_cons_self, rfl⟩
  refine ⟨a, h, rfl, ?_⟩
  rw [hgraph]
  refine ⟨?_, ?_, ?_, ?_⟩
  · rw [Graph.readsTransitively, Cycle.reachableNodes_two]
    rfl
  · exact ⟨⟨1⟩, _, ReflTransGen.single hread, rfl, List.mem_cons_self⟩
  · rw [Graph.writesTransitively, Cycle.reachableNodes_six]
    rfl
  · exact ⟨⟨5⟩, _, ReflTransGen.single hwrite, rfl, List.mem_cons_self⟩

end CallForest
