import CallForest.Proofs.Outcome
import CallForest.Proofs.Walking

/-!
# The layout of a call graph

The call edges of every graph that an analysis makes form a forest, and the nodes stand in the arena
in the order in which the walks from the roots meet them: the nodes below a root fill the places from
the root up to the next root. So the walk needs no record of visited nodes.
-/

namespace CallForest
namespace Graph

def callTargets (g : Graph) : List NodeId :=
  g.nodes.toList.flatMap Node.callees

/-- The first number behind the nodes of the root at position `i`. -/
def rootEnd (g : Graph) (i : Nat) : Nat :=
  match g.roots[i + 1]? with
  | some next => next.index
  | none => g.size

/-- The call edges form a forest that is laid out in pre-order. -/
structure PreorderForest (g : Graph) : Prop where
  roots_increasing : g.roots.Pairwise fun r t => r.index < t.index
  first_root : 0 < g.size -> g.roots.head? = some ⟨0⟩
  reachable_root : forall i r, g.roots[i]? = some r ->
    r.index < g.rootEnd i ∧ g.reachable r = .ok (nodesFrom r.index (g.rootEnd i - r.index))
  reachable_roots : exists lists, g.roots.mapM g.reachable = .ok lists ∧
    lists.flatten = nodesFrom 0 g.size
  count_callTargets : forall n, n.index < g.size -> n ∉ g.roots -> g.callTargets.count n = 1
  not_mem_callTargets : forall r, r ∈ g.roots -> r ∉ g.callTargets
  caller_lt : forall m node c, g.node m = .ok node -> Edge.call c ∈ node.calls ->
    m.index < c.index
  target_lt_size : forall m node edge, g.node m = .ok node -> edge ∈ node.calls ->
    edge.target.index < g.size

end Graph

/-!
# The places of the roots

The nodes of a root fill as many places as its execution makes nodes, and the next root follows.
-/

theorem forest_cons (e : Execution) (roots : List Execution) :
    forest (e :: roots) = e.subtree ++ forest roots :=
  rfl

theorem id_and_tail_of_map_id_forest {e : Execution} {roots : List Execution} {start : Nat}
    (h : (forest (e :: roots)).map Execution.id =
      nodesFrom start (forest (e :: roots)).length) :
    e.id = ⟨start⟩ ∧
      (forest roots).map Execution.id = nodesFrom (start + e.size) (forest roots).length := by
  rw [forest_cons, List.map_append, List.length_append, Execution.length_subtree,
    ← nodesFrom_append] at h
  have hsplit := List.append_inj h (by simp [Execution.length_subtree])
  refine ⟨?_, hsplit.2⟩
  have hhead := hsplit.1
  rw [Execution.size, nodesFrom_succ, Execution.subtree, List.map_cons] at hhead
  exact (List.cons.inj hhead).1

theorem le_index_of_map_id_forest {roots : List Execution} {start : Nat}
    (h : (forest roots).map Execution.id = nodesFrom start (forest roots).length)
    {e : Execution} (he : e ∈ roots) : start ≤ e.id.index := by
  have hmem : e.id ∈ nodesFrom start (forest roots).length := by
    rw [← h]
    exact List.mem_map_of_mem (mem_forest_of_mem he)
  exact (mem_nodesFrom.mp hmem).1

theorem pairwise_of_map_id_forest {roots : List Execution} {start : Nat}
    (h : (forest roots).map Execution.id = nodesFrom start (forest roots).length) :
    (roots.map Execution.id).Pairwise fun r t => r.index < t.index := by
  induction roots generalizing start with
  | nil => exact List.Pairwise.nil
  | cons e roots ih =>
      rcases id_and_tail_of_map_id_forest h with ⟨hid, htail⟩
      rw [List.map_cons, List.pairwise_cons]
      refine ⟨?_, ih htail⟩
      intro t ht
      rcases List.mem_map.mp ht with ⟨e', he', rfl⟩
      have hle := le_index_of_map_id_forest htail he'
      rw [Execution.size] at hle
      rw [hid]
      show start < e'.id.index
      omega

theorem end_of_map_id_forest {roots : List Execution} {start : Nat}
    (h : (forest roots).map Execution.id = nodesFrom start (forest roots).length)
    {i : Nat} {e : Execution} (he : roots[i]? = some e) :
    (match (roots.map Execution.id)[i + 1]? with
      | some next => next.index
      | none => start + (forest roots).length) = e.id.index + e.size := by
  induction roots generalizing start i with
  | nil => cases he
  | cons root roots ih =>
      rcases id_and_tail_of_map_id_forest h with ⟨hid, htail⟩
      have hlength : start + (forest (root :: roots)).length =
          start + root.size + (forest roots).length := by
        rw [forest_cons, List.length_append, Execution.length_subtree, Nat.add_assoc]
      cases i with
      | zero =>
          cases he
          cases roots with
          | nil =>
              rw [hid, hlength]
              rfl
          | cons next roots =>
              rw [hid]
              exact congrArg NodeId.index (id_and_tail_of_map_id_forest htail).1
      | succ i =>
          rw [hlength, List.map_cons, List.getElem?_cons_succ]
          exact ih htail he

/-!
# Call edges

Every execution is either at a root or started by exactly one call. A call edge leads to a node that
was made later, a recursive edge to a node on the way to the root.
-/

theorem Course.count_callees (course : Course) (frames : List Frame) (next : Nat) (n : NodeId) :
    ((course.executions frames next).flatMap fun e => e.callees.map Execution.id).count n +
        ((course.callees frames next).map Execution.id).count n =
      ((course.executions frames next).map Execution.id).count n := by
  induction course generalizing frames next with
  | done => rfl
  | read v rest ih => exact ih frames next
  | write v rest ih => exact ih frames next
  | call site body rest ihBody ihRest =>
      have hbody := ihBody (entered frames next site body).frames (next + 1)
      have hrest := ihRest frames (next + (body.size + 1))
      have hentered : (entered frames next site body).callees =
          body.callees (entered frames next site body).frames (next + 1) := rfl
      simp only [executions, callees, List.flatMap_cons, List.flatMap_append, List.map_cons,
        List.map_append, List.count_cons, List.count_append, hentered]
      omega
  | back site rest ih => exact ih frames next
  | cut site depth rest ih => exact ih frames next

theorem Execution.count_callees (e : Execution) (n : NodeId) :
    (e.subtree.flatMap fun d => d.callees.map Execution.id).count n + [e.id].count n =
      (e.subtree.map Execution.id).count n := by
  have h := e.course.count_callees e.frames e.next n
  rw [subtree, List.flatMap_cons, List.map_cons, List.count_append, List.count_cons,
    List.count_cons, ← h]
  simp only [List.count_nil]
  rw [callees]
  omega

theorem count_callees_forest (roots : List Execution) (n : NodeId) :
    ((forest roots).flatMap fun e => e.callees.map Execution.id).count n +
        (roots.map Execution.id).count n =
      ((forest roots).map Execution.id).count n := by
  induction roots with
  | nil => rfl
  | cons e roots ih =>
      have h := e.count_callees n
      rw [List.count_cons, List.count_nil] at h
      rw [forest_cons, List.flatMap_append, List.map_append, List.map_cons, List.count_append,
        List.count_append, List.count_cons, ← ih, ← h]
      omega

theorem Course.exists_callee_of_mem_edges {course : Course} {frames : List Frame} {next : Nat}
    {c : NodeId} (h : Edge.call c ∈ course.edges frames next) :
    exists e, e ∈ course.callees frames next ∧ e.id = c := by
  have hmem : c ∈ (course.edges frames next).filterMap Edge.callee? :=
    List.mem_filterMap.mpr ⟨_, h, rfl⟩
  rw [filterMap_callee_edges] at hmem
  exact List.mem_map.mp hmem

theorem Course.exists_frame_of_mem_edges {course : Course} {frames : List Frame} {next : Nat}
    {a : NodeId} (h : Edge.recursive a ∈ course.edges frames next) :
    exists frame f, frame ∈ frames ∧ frame.node = a ∧ frame.definition = .function f := by
  induction course generalizing next with
  | done => cases h
  | read v rest ih => exact ih h
  | write v rest ih => exact ih h
  | call site body rest ihBody ihRest =>
      rcases List.mem_cons.mp h with heq | hrest
      · cases heq
      · exact ihRest hrest
  | back site rest ih =>
      rcases List.mem_append.mp h with hfound | hrest
      · rw [Option.mem_toList, Option.map_eq_some_iff] at hfound
        rcases hfound with ⟨frame, hfind, heq⟩
        cases heq
        have hdefinition : frame.definition = .function site.target := by
          simpa using List.find?_some hfind
        exact ⟨frame, site.target, List.mem_of_find?_eq_some hfind, rfl, hdefinition⟩
      · exact ih hrest
  | cut site depth rest ih => exact ih h

theorem Execution.id_lt_of_mem_callees {e c : Execution} (h : c ∈ e.callees) :
    e.id.index < c.id.index := by
  have hmem : c.id ∈ nodesFrom e.next e.course.size := by
    rw [← Course.map_id_executions e.course e.frames e.next]
    exact List.mem_map_of_mem (Course.mem_executions_of_mem_callees h)
  exact Nat.lt_of_succ_le (mem_nodesFrom.mp hmem).1

namespace Graph

theorem callTargets_ofExecutions (roots : List Execution) :
    (ofExecutions roots).callTargets =
      (forest roots).flatMap fun e => e.callees.map Execution.id := by
  show (((forest roots).map Execution.node).toArray.toList).flatMap Node.callees = _
  rw [List.flatMap_map]
  simp only [Execution.callees_node]

theorem count_callTargets_add_count_roots {roots : List Execution} (h : Rooted roots)
    {n : NodeId} (hn : n.index < (ofExecutions roots).size) :
    (ofExecutions roots).callTargets.count n + (ofExecutions roots).roots.count n = 1 := by
  rw [callTargets_ofExecutions]
  show _ + (roots.map Execution.id).count n = 1
  rw [count_callees_forest, h.map_id_forest]
  apply List.count_eq_one_of_mem (nodup_nodesFrom _ _)
  rw [size_ofExecutions] at hn
  exact mem_nodesFrom.mpr ⟨Nat.zero_le _, by omega⟩

theorem rootEnd_ofExecutions {roots : List Execution} (h : Rooted roots) {i : Nat}
    {e : Execution} (he : roots[i]? = some e) :
    (ofExecutions roots).rootEnd i = e.id.index + e.size := by
  rw [← end_of_map_id_forest h.map_id_forest he, rootEnd, size_ofExecutions, Nat.zero_add]
  rfl

theorem preorderForest_ofExecutions {roots : List Execution} (h : Rooted roots) :
    (ofExecutions roots).PreorderForest where
  roots_increasing := pairwise_of_map_id_forest h.map_id_forest
  first_root := by
    intro hpos
    cases roots with
    | nil => cases hpos
    | cons e roots =>
        exact congrArg some (id_and_tail_of_map_id_forest h.map_id_forest).1
  reachable_root := by
    intro i r hr
    rw [ofExecutions, List.getElem?_map, Option.map_eq_some_iff] at hr
    rcases hr with ⟨e, he, rfl⟩
    have hmem := mem_forest_of_mem (List.mem_of_getElem? he)
    rw [rootEnd_ofExecutions h he, Nat.add_sub_cancel_left, reachable_ofExecutions h hmem,
      Execution.map_id_subtree]
    exact ⟨Nat.lt_add_of_pos_right (Nat.succ_pos _), rfl⟩
  reachable_roots := by
    refine ⟨roots.map fun e => e.subtree.map Execution.id, ?_, ?_⟩
    · apply mapM_map_eq_ok
      intro e he
      exact reachable_ofExecutions h (mem_forest_of_mem he)
    · rw [← List.flatMap_def, ← List.map_flatMap, size_ofExecutions]
      exact h.map_id_forest
  count_callTargets := by
    intro n hn hroot
    have hcount := count_callTargets_add_count_roots h hn
    rw [List.count_eq_zero_of_not_mem hroot] at hcount
    exact hcount
  not_mem_callTargets := by
    intro r hr hmem
    rcases mem_roots_ofExecutions.mp hr with ⟨e, he, hid⟩
    have hlt := (lt_size_ofExecutions_iff h).mpr ⟨e, mem_forest_of_mem he, hid⟩
    have hcount := count_callTargets_add_count_roots h hlt
    have hfirst := List.count_pos_iff.mpr hmem
    have hsecond := List.count_pos_iff.mpr hr
    omega
  caller_lt := by
    intro m node c hnode hc
    rcases (node_ofExecutions_eq_ok_iff h).mp hnode with ⟨e, he, rfl, rfl⟩
    rcases Course.exists_callee_of_mem_edges hc with ⟨d, hd, rfl⟩
    exact Execution.id_lt_of_mem_callees hd
  target_lt_size := by
    intro m node edge hnode hedge
    rcases (node_ofExecutions_eq_ok_iff h).mp hnode with ⟨e, he, rfl, rfl⟩
    rw [lt_size_ofExecutions_iff h]
    cases edge with
    | call c =>
        rcases Course.exists_callee_of_mem_edges hedge with ⟨d, hd, rfl⟩
        exact ⟨d, callees_mem_forest he hd, rfl⟩
    | recursive a =>
        rcases Course.exists_frame_of_mem_edges hedge with ⟨frame, f, hframe, rfl, _⟩
        rcases exists_mem_forest_of_mem_frames h he frame hframe with ⟨d, hd, rfl⟩
        exact ⟨d, hd, rfl⟩

end Graph

/-!
# The layout of an analysis
-/

theorem call_edges_form_preorder_forest {create : Text.Path -> Except String Unit}
    {s : Store} {config : Config} {id : ContractId} {a : Analysis}
    (h : Analyzes create s config id a) : a.graph.PreorderForest := by
  rcases exists_roots_of_analyzes h with ⟨contract, roots, _, hrooted, hgraph, _⟩
  rw [hgraph]
  exact Graph.preorderForest_ofExecutions hrooted

theorem preorderForest_cycle :
    exists a, Analyzes (fun _ => .ok ()) Cycle.store {} ⟨0⟩ a ∧ a.graph = Cycle.graph ∧
      a.graph.PreorderForest := by
  rcases Cycle.exists_analyzes with ⟨a, h, hgraph⟩
  exact ⟨a, h, hgraph, call_edges_form_preorder_forest h⟩

end CallForest
