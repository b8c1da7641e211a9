import CallForest.Graph.Basic

/-!
# Questions about a call graph

Everything that is asked of a node is answered by a walk along the call edges below it. The walk
keeps no record of visited nodes: below a root of a built graph the call edges form a tree. On other
graphs a node is met once for every way that leads to it. A walk that goes deeper than the graph has
nodes has come back to a node it is still below, and would never end.
-/

namespace CallForest
namespace Graph

/-!
# Roots
-/

def rootNodes (g : Graph) : Except Fault (List Node) :=
  g.roots.mapM g.node

def findDefinition (g : Graph) (definition : Definition) :
    List NodeId -> Except Fault (Option NodeId)
  | [] => .ok none
  | id :: ids => do
      let n ← g.node id
      if n.definition = definition then pure (some id) else g.findDefinition definition ids

def rootFor (g : Graph) (definition : Definition) : Except Fault (Option NodeId) :=
  g.findDefinition definition g.roots

/-!
# The walk
-/

def maxCallees (g : Graph) : Nat :=
  (g.nodes.toList.map fun n => n.callees.length).foldl max 0

/-- How much a node weighs that may still go down some levels: more than all nodes that it can put
in its place, one level further down. -/
def levelWeight (g : Graph) : Nat -> Nat
  | 0 => 1
  | level + 1 => (g.maxCallees + 1) * g.levelWeight level

theorem levelWeight_pos (g : Graph) (level : Nat) : 0 < g.levelWeight level := by
  induction level with
  | zero => exact Nat.one_pos
  | succ level ih => exact Nat.mul_pos (Nat.succ_pos _) ih

def pendingWork (g : Graph) : List (NodeId × Nat) -> Nat
  | [] => 0
  | (_, level) :: rest => g.levelWeight level + g.pendingWork rest

theorem le_foldl_max (xs : List Nat) (start : Nat) :
    start ≤ xs.foldl max start ∧ forall x, x ∈ xs -> x ≤ xs.foldl max start := by
  induction xs generalizing start with
  | nil => simp
  | cons x xs ih =>
      obtain ⟨hstart, hrest⟩ := ih (max start x)
      simp only [List.foldl_cons, List.mem_cons, forall_eq_or_imp]
      exact ⟨by omega, by omega, hrest⟩

theorem length_callees_le {g : Graph} {id : NodeId} {n : Node} (h : g.node id = .ok n) :
    n.callees.length ≤ g.maxCallees := by
  have hget : g.nodes[id.index]? = some n := by
    unfold node get? at h
    split at h
    · next found => cases h; exact found
    · cases h
  refine (le_foldl_max _ 0).2 _ (List.mem_map.mpr ⟨n, ?_, rfl⟩)
  exact Array.mem_toList_iff.mpr (Array.mem_of_getElem? hget)

theorem pendingWork_append (g : Graph) (xs ys : List (NodeId × Nat)) :
    g.pendingWork (xs ++ ys) = g.pendingWork xs + g.pendingWork ys := by
  induction xs with
  | nil => exact (Nat.zero_add _).symm
  | cons x xs ih =>
      rw [List.cons_append, pendingWork, pendingWork, ih, Nat.add_assoc]

theorem pendingWork_level (g : Graph) (ids : List NodeId) (level : Nat) :
    g.pendingWork (ids.map fun id => (id, level)) = ids.length * g.levelWeight level := by
  induction ids with
  | nil => exact (Nat.zero_mul _).symm
  | cons id ids ih =>
      rw [List.map_cons, pendingWork, ih, List.length_cons, Nat.succ_mul, Nat.add_comm]

theorem pendingWork_lt {g : Graph} {id : NodeId} {n : Node} {level : Nat}
    {rest : List (NodeId × Nat)} (h : g.node id = .ok n) :
    g.pendingWork (n.callees.map (fun callee => (callee, level)) ++ rest) <
      g.pendingWork ((id, level + 1) :: rest) := by
  rw [pendingWork_append, pendingWork_level, pendingWork]
  have bound := Nat.mul_le_mul_right (g.levelWeight level) (length_callees_le h)
  have expand : g.levelWeight (level + 1) = g.maxCallees * g.levelWeight level
      + g.levelWeight level := Nat.succ_mul _ _
  have positive := g.levelWeight_pos level
  omega

set_option linter.unusedVariables false in
/-- Visits the nodes that wait, the first of them first, and puts the callees of a visited node in
its place. -/
def visitPending (g : Graph) : List (NodeId × Nat) -> Except Fault (List NodeId)
  | [] => .ok []
  | (_, 0) :: _ => .error .endlessWalk
  | (id, level + 1) :: rest =>
      match found : g.node id with
      | .error fault => .error fault
      | .ok n => do
          let later ← g.visitPending (n.callees.map (fun callee => (callee, level)) ++ rest)
          pure (id :: later)
termination_by pending => g.pendingWork pending
decreasing_by exact pendingWork_lt found

def reachable (g : Graph) (start : NodeId) : Except Fault (List NodeId) :=
  g.visitPending [(start, g.size + 1)]

def reachableNodes (g : Graph) (start : NodeId) : Except Fault (List Node) := do
  let ids ← g.reachable start
  ids.mapM g.node

/-!
# Effects
-/

def transitiveReads (g : Graph) (start : NodeId) : Except Fault (List StateVariableId) := do
  let nodes ← g.reachableNodes start
  pure (nodes.flatMap (·.reads)).eraseDups

def transitiveWrites (g : Graph) (start : NodeId) : Except Fault (List StateVariableId) := do
  let nodes ← g.reachableNodes start
  pure (nodes.flatMap (·.writes)).eraseDups

def readsTransitively (g : Graph) (start : NodeId) (v : StateVariableId) : Except Fault Bool := do
  let nodes ← g.reachableNodes start
  pure (nodes.any (·.reads.contains v))

def writesTransitively (g : Graph) (start : NodeId) (v : StateVariableId) : Except Fault Bool := do
  let nodes ← g.reachableNodes start
  pure (nodes.any (·.writes.contains v))

def callsFunction (g : Graph) (start : NodeId) (f : FunctionId) : Except Fault Bool := do
  let nodes ← g.reachableNodes start
  pure ((nodes.drop 1).any (·.definition = .function f))

/-!
# Depth
-/

/-- The largest number of call edges on a way down from a node that goes no deeper than `level`. -/
def depthWithin (g : Graph) : Nat -> NodeId -> Except Fault Nat
  | 0, _ => .error .endlessWalk
  | level + 1, id => do
      let n ← g.node id
      let depths ← n.callees.mapM (g.depthWithin level)
      pure ((depths.map (· + 1)).foldl max 0)

def depth (g : Graph) (start : NodeId) : Except Fault Nat :=
  g.depthWithin (g.size + 1) start

end Graph
end CallForest
