import CallForest.Graph.Query
import CallForest.Proofs.Faults
import CallForest.Proofs.Forest

/-!
# The walk below a node

The walk keeps a list of nodes that wait. It visits them as a recursion on the callees does that may
go down as many levels: a node first, then what is below each of its callees, in order. On the graph
of a forest the walk never runs out of levels, and from a node it meets the nodes of the executions
inside the execution that made it.
-/

namespace CallForest
namespace Graph

/-- A node and the nodes below it that are no more than `level` levels down, by recursion. -/
def preorderWithin (g : Graph) : Nat -> NodeId -> Except Fault (List NodeId)
  | 0, _ => .error .endlessWalk
  | level + 1, id => do
      let n ← g.node id
      let below ← n.callees.mapM (g.preorderWithin level)
      pure (id :: below.flatten)

/-!
# Waiting nodes
-/

theorem visitPending_cons_of_node {g : Graph} {id : NodeId} {n : Node} (h : g.node id = .ok n)
    (level : Nat) (rest : List (NodeId × Nat)) :
    g.visitPending ((id, level + 1) :: rest) = (do
      let later ← g.visitPending (n.callees.map (fun callee => (callee, level)) ++ rest)
      pure (id :: later)) := by
  rw [visitPending]
  split
  · next fault hfault =>
      rw [h] at hfault
      cases hfault
  · next found hfound =>
      rw [h] at hfound
      cases hfound
      rfl

theorem visitPending_cons_of_fault {g : Graph} {id : NodeId} {fault : Fault}
    (h : g.node id = .error fault) (level : Nat) (rest : List (NodeId × Nat)) :
    g.visitPending ((id, level + 1) :: rest) = .error fault := by
  rw [visitPending]
  split
  · next found hfound =>
      rw [h] at hfound
      cases hfound
      rfl
  · next n hn =>
      rw [h] at hn
      cases hn

theorem visitPending_append (g : Graph) (level : Nat) (ids : List NodeId)
    (rest : List (NodeId × Nat)) :
    g.visitPending (ids.map (fun id => (id, level)) ++ rest) = (do
      let below ← ids.mapM (g.preorderWithin level)
      let later ← g.visitPending rest
      pure (below.flatten ++ later)) := by
  induction level generalizing ids rest with
  | zero =>
      cases ids with
      | nil =>
          simp
      | cons id ids =>
          rw [List.map_cons, List.cons_append, visitPending, List.mapM_cons]
          rfl
  | succ level ih =>
      induction ids generalizing rest with
      | nil =>
          simp
      | cons id ids ihIds =>
          rw [List.map_cons, List.cons_append, List.mapM_cons, preorderWithin]
          cases hnode : g.node id with
          | error fault =>
              rw [visitPending_cons_of_fault hnode]
              rfl
          | ok n =>
              rw [visitPending_cons_of_node hnode, ih, ihIds]
              show _ = ((do
                let below ← n.callees.mapM (g.preorderWithin level)
                pure (id :: below.flatten) : Except Fault (List NodeId)) >>= _) >>= _
              simp only [bind_assoc, pure_bind, List.flatten_cons, List.cons_append,
                List.append_assoc]

theorem reachable_eq_preorderWithin (g : Graph) (start : NodeId) :
    g.reachable start = g.preorderWithin (g.size + 1) start := by
  have h := g.visitPending_append (g.size + 1) [start] []
  rw [List.mapM_cons, List.mapM_nil, visitPending] at h
  rw [reachable]
  refine h.trans ?_
  cases g.preorderWithin (g.size + 1) start with
  | error fault => rfl
  | ok ids =>
      show Except.ok _ = Except.ok _
      simp

end Graph

/-!
# Sizes
-/

theorem Course.size_le_of_mem_callees {course : Course} {frames : List Frame} {next : Nat}
    {c : Execution} (h : c ∈ course.callees frames next) : c.size ≤ course.size := by
  induction course generalizing next with
  | done => cases h
  | read v rest ih => exact ih h
  | write v rest ih => exact ih h
  | call site body rest ihBody ihRest =>
      rw [size]
      rcases List.mem_cons.mp h with rfl | hrest
      · exact Nat.le_add_right (body.size + 1) rest.size
      · exact Nat.le_trans (ihRest hrest) (Nat.le_add_left rest.size (body.size + 1))
  | back site rest ih => exact ih h
  | cut site depth rest ih => exact ih h

theorem Execution.size_lt_of_mem_callees {e c : Execution} (h : c ∈ e.callees) :
    c.size < e.size :=
  Nat.lt_succ_of_le (Course.size_le_of_mem_callees h)

theorem Execution.length_subtree (e : Execution) : e.subtree.length = e.size := by
  simp [subtree, size]

theorem size_le_length_forest {roots : List Execution} :
    forall e, e ∈ forest roots -> e.size ≤ (forest roots).length := by
  refine forall_mem_forest ?_ ?_
  · intro root hroot
    rw [← root.length_subtree]
    have hmem : root.subtree ∈ roots.map Execution.subtree := List.mem_map_of_mem hroot
    rw [forest, List.flatMap_def]
    exact (List.sublist_flatten_of_mem hmem).length_le
  · intro e _ he c hc
    exact Nat.le_trans (Nat.le_of_lt (Execution.size_lt_of_mem_callees hc)) he

namespace Graph

/-!
# The walk through a forest
-/

theorem preorderWithin_ofExecutions {roots : List Execution} (h : Rooted roots) (level : Nat) :
    forall e, e ∈ forest roots -> e.size ≤ level ->
      (ofExecutions roots).preorderWithin level e.id = .ok (e.subtree.map Execution.id) := by
  induction level with
  | zero =>
      intro e _ hsize
      cases hsize
  | succ level ih =>
      intro e he hsize
      have hbelow : (e.callees.map Execution.id).mapM
          ((ofExecutions roots).preorderWithin level) =
            .ok (e.callees.map fun c => c.subtree.map Execution.id) := by
        apply mapM_map_eq_ok
        intro c hc
        have hlt := Execution.size_lt_of_mem_callees hc
        exact ih c (callees_mem_forest he hc) (by omega)
      rw [preorderWithin, node_ofExecutions h he]
      show (e.node.callees.mapM ((ofExecutions roots).preorderWithin level) >>= _) = _
      rw [Execution.callees_node, hbelow, Execution.subtree_eq_cons, List.map_cons,
        List.map_flatMap]
      rfl

theorem reachable_ofExecutions {roots : List Execution} (h : Rooted roots) {e : Execution}
    (he : e ∈ forest roots) :
    (ofExecutions roots).reachable e.id = .ok (e.subtree.map Execution.id) := by
  rw [reachable_eq_preorderWithin]
  apply preorderWithin_ofExecutions h _ e he
  rw [size_ofExecutions]
  exact Nat.le_succ_of_le (size_le_length_forest e he)

end Graph
end CallForest
