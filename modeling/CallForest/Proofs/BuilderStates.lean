import CallForest.Proofs.DrawingText
import CallForest.Proofs.OnePass

/-!
# The builders of a run

A run starts with an empty builder. Definitions are entered and left, and what happens in the
innermost frame is recorded, a call that goes back among it. Each of these steps keeps the frames
and the edges in the arena: a frame stands for a node, and an edge leads to one.
-/

namespace CallForest

namespace Graph

def HasEdge (g : Graph) (id : NodeId) (edge : Edge) : Prop :=
  exists node, g.node id = .ok node ∧ edge ∈ node.calls

theorem TargetsInRange.lt_size {g : Graph} (h : g.TargetsInRange) {id : NodeId} {edge : Edge}
    (hedge : g.HasEdge id edge) : edge.target.index < g.size := by
  rcases hedge with ⟨node, hnode, hmem⟩
  exact h id node edge hnode hmem

end Graph

namespace Builder

/-!
# Nodes and edges after one step
-/

theorem node_modifyNode_of_ne {b : Builder} {top id : NodeId} (hne : id ≠ top)
    (change : Node -> Node) {node : Node} :
    (b.modifyNode top change).graph.node id = .ok node <-> b.graph.node id = .ok node := by
  have hindex : top.index ≠ id.index := by
    intro heq
    exact hne (congrArg NodeId.mk heq.symm)
  rw [Graph.node_eq_ok_iff, Graph.node_eq_ok_iff]
  show (b.nodes.modify top.index change)[id.index]? = _ <-> b.nodes[id.index]? = _
  rw [Array.getElem?_modify, if_neg hindex]

theorem node_modifyNode_self {b : Builder} {top : NodeId} {node : Node}
    (h : b.graph.node top = .ok node) (change : Node -> Node) :
    (b.modifyNode top change).graph.node top = .ok (change node) := by
  rw [Graph.node_eq_ok_iff] at h ⊢
  show (b.nodes.modify top.index change)[top.index]? = _
  have hget : b.nodes[top.index]? = some node := h
  rw [Array.getElem?_modify, if_pos rfl, hget]
  rfl

theorem hasEdge_modifyNode_iff {b : Builder} {top : NodeId} (htop : top.index < b.nodes.size)
    {edges : List Edge} {reads writes : List StateVariableId} {id : NodeId} {edge : Edge} :
    (b.modifyNode top (Node.extend edges reads writes)).graph.HasEdge id edge <->
      b.graph.HasEdge id edge ∨ id = top ∧ edge ∈ edges := by
  by_cases heq : id = top
  · rcases (Graph.exists_node_iff (g := b.graph)).mpr htop with ⟨node, hnode⟩
    have hextended := node_modifyNode_self hnode (Node.extend edges reads writes)
    rw [heq, Graph.HasEdge, Graph.HasEdge, hextended, hnode]
    simp [Node.extend]
  · simp only [Graph.HasEdge, node_modifyNode_of_ne heq, heq, false_and, or_false]

theorem modifyTop_eq {b : Builder} {frame : Frame} {outer : List Frame}
    (h : b.frames = frame :: outer) (change : Node -> Node) :
    b.modifyTop change = b.modifyNode frame.node change := by
  rw [modifyTop, h]

theorem size_enter (b : Builder) (definition : Definition) :
    (b.enter definition).nodes.size = b.nodes.size + 1 :=
  Array.size_push _

theorem lt_size_enter (b : Builder) (definition : Definition) :
    (⟨b.nodes.size⟩ : NodeId).index < (b.enter definition).nodes.size := by
  rw [size_enter]
  exact Nat.lt_succ_self _

theorem node_enter_iff {b : Builder} {definition : Definition} {id : NodeId} {node : Node} :
    (b.enter definition).graph.node id = .ok node <->
      b.graph.node id = .ok node ∨ id = ⟨b.nodes.size⟩ ∧ node = { definition := definition } := by
  rw [Graph.node_eq_ok_iff, Graph.node_eq_ok_iff]
  show (b.nodes.push { definition := definition })[id.index]? = _ <-> b.nodes[id.index]? = _ ∨ _
  rw [Array.getElem?_push]
  rcases id with ⟨index⟩
  by_cases heq : index = b.nodes.size
  · simp [heq, eq_comm]
  · simp [heq]

theorem hasEdge_enter_iff {b : Builder} {definition : Definition} {id : NodeId} {edge : Edge} :
    (b.enter definition).graph.HasEdge id edge <-> b.graph.HasEdge id edge := by
  constructor
  · intro h
    rcases h with ⟨node, hnode, hedge⟩
    rcases node_enter_iff.mp hnode with hold | ⟨_, rfl⟩
    · exact ⟨node, hold, hedge⟩
    · cases hedge
  · intro h
    rcases h with ⟨node, hnode, hedge⟩
    exact ⟨node, node_enter_iff.mpr (Or.inl hnode), hedge⟩

theorem leave_eq {b : Builder} {inner frame : Frame} {outer : List Frame}
    (h : b.frames = inner :: frame :: outer) :
    b.leave = ({ b with frames := frame :: outer } : Builder).modifyNode frame.node
      (Node.extend [.call inner.node] [] []) := by
  rw [leave, h]
  simp [recordEdge, modifyTop, Node.extend_edge]

/-!
# Frames and edges in the arena
-/

structure InRange (b : Builder) : Prop where
  frames : forall frame, frame ∈ b.frames -> frame.node.index < b.nodes.size
  edges : b.graph.TargetsInRange

namespace InRange

variable {b : Builder}

theorem start : InRange {} where
  frames := List.forall_mem_nil _
  edges _ node _ hnode := absurd (Graph.exists_node_iff.mp ⟨node, hnode⟩) (Nat.not_lt_zero _)

theorem enter (h : b.InRange) (definition : Definition) : (b.enter definition).InRange where
  frames frame hframe := by
    rcases List.mem_cons.mp hframe with rfl | hframe
    · exact lt_size_enter b definition
    · exact Nat.lt_trans (h.frames frame hframe) (lt_size_enter b definition)
  edges id node edge hnode hmem := by
    have hold := hasEdge_enter_iff.mp ⟨node, hnode, hmem⟩
    exact Nat.lt_trans (h.edges.lt_size hold) (lt_size_enter b definition)

theorem modifyTop (h : b.InRange) {edges : List Edge}
    (hedges : forall edge, edge ∈ edges -> edge.target.index < b.nodes.size)
    (reads writes : List StateVariableId) :
    (b.modifyTop (Node.extend edges reads writes)).InRange := by
  have hsize := size_modifyTop b (Node.extend edges reads writes)
  constructor
  · rw [frames_modifyTop, hsize]
    exact h.frames
  · intro id node edge hnode hmem
    show edge.target.index < (b.modifyTop _).nodes.size
    rw [hsize]
    cases hframes : b.frames with
    | nil =>
        rw [Builder.modifyTop, hframes] at hnode
        exact h.edges id node edge hnode hmem
    | cons frame outer =>
        have htop := h.frames frame (hframes ▸ List.mem_cons_self)
        rw [modifyTop_eq hframes] at hnode
        rcases (hasEdge_modifyNode_iff htop).mp ⟨node, hnode, hmem⟩ with hold | ⟨_, hnew⟩
        · exact h.edges.lt_size hold
        · exact hedges edge hnew

theorem recordRead (h : b.InRange) (v : StateVariableId) : (b.recordRead v).InRange := by
  rw [Builder.recordRead, ← Node.extend_read]
  exact h.modifyTop (List.forall_mem_nil _) _ _

theorem recordWrite (h : b.InRange) (v : StateVariableId) : (b.recordWrite v).InRange := by
  rw [Builder.recordWrite, ← Node.extend_write]
  exact h.modifyTop (List.forall_mem_nil _) _ _

theorem recordEdge (h : b.InRange) {edge : Edge} (hedge : edge.target.index < b.nodes.size) :
    (b.recordEdge edge).InRange := by
  rw [Builder.recordEdge, ← Node.extend_edge]
  exact h.modifyTop (List.forall_mem_singleton.mpr hedge) _ _

theorem leave (h : b.InRange) : b.leave.InRange := by
  unfold Builder.leave
  split
  · exact h
  · exact ⟨List.forall_mem_nil _, h.edges⟩
  · next top rest _ hframes =>
      have houter : ({ b with frames := rest } : Builder).InRange :=
        ⟨fun frame hframe => h.frames frame (hframes ▸ List.mem_cons_of_mem _ hframe), h.edges⟩
      exact houter.recordEdge (h.frames top (hframes ▸ List.mem_cons_self))

end InRange

/-!
# Runs
-/

/-- What holds of a builder holds after each step. A call goes back to an open frame only. -/
structure KeptBySteps (P : Builder -> Prop) : Prop where
  enter : forall b definition, P b -> P (b.enter definition)
  read : forall b v, P b -> P (b.recordRead v)
  write : forall b v, P b -> P (b.recordWrite v)
  back : forall b frame, frame ∈ b.frames -> P b -> P (b.recordEdge (.recursive frame.node))
  leave : forall b, P b -> P b.leave

theorem InRange.keptBySteps : KeptBySteps InRange where
  enter _ definition h := h.enter definition
  read _ v h := h.recordRead v
  write _ v h := h.recordWrite v
  back _ frame hframe h := h.recordEdge (h.frames frame hframe)
  leave _ h := h.leave

/-- The builders that a run comes to. -/
inductive Reached : Builder -> Prop where
  | start : Reached {}
  | enter {b : Builder} (definition : Definition) : Reached b -> Reached (b.enter definition)
  | read {b : Builder} (v : StateVariableId) : Reached b -> Reached (b.recordRead v)
  | write {b : Builder} (v : StateVariableId) : Reached b -> Reached (b.recordWrite v)
  | back {b : Builder} {frame : Frame} :
      frame ∈ b.frames -> Reached b -> Reached (b.recordEdge (.recursive frame.node))
  | leave {b : Builder} : Reached b -> Reached b.leave

namespace Reached

theorem of_keptBySteps {P : Builder -> Prop} (hkept : KeptBySteps P) (hstart : P {}) {b : Builder}
    (h : Reached b) : P b := by
  induction h with
  | start => exact hstart
  | enter definition _ ih => exact hkept.enter _ definition ih
  | read v _ ih => exact hkept.read _ v ih
  | write v _ ih => exact hkept.write _ v ih
  | back hframe _ ih => exact hkept.back _ _ hframe ih
  | leave _ ih => exact hkept.leave _ ih

theorem inRange {b : Builder} (h : Reached b) : b.InRange :=
  h.of_keptBySteps InRange.keptBySteps .start

theorem keptBySteps : KeptBySteps Reached where
  enter _ definition h := h.enter definition
  read _ v h := h.read v
  write _ v h := h.write v
  back _ _ hframe h := h.back hframe
  leave _ h := h.leave

theorem recordBack {b : Builder} (h : Reached b) (f : FunctionId) : Reached (b.recordBack f) := by
  rw [Builder.recordBack]
  split
  · exact h
  · next hfound => exact h.back (List.mem_of_find?_eq_some hfound)

theorem follow (course : Course) {b : Builder} (h : Reached b) : Reached (follow course b) := by
  induction course generalizing b with
  | done => exact h
  | read v _ ih => exact ih (h.read v)
  | write v _ ih => exact ih (h.write v)
  | call site _ _ ihBody ihRest => exact ihRest (ihBody (h.enter (.function site.target))).leave
  | back site _ ih => exact ih (h.recordBack site.target)
  | cut _ _ _ ih => exact ih h

theorem addEntryPoint {b : Builder} (h : Reached b) (entry : EntryPoint) :
    Reached (b.addEntryPoint entry) := by
  rw [Builder.addEntryPoint]
  split
  · next root _ => exact ((h.enter root.1).follow root.2).leave
  · exact h

end Reached

/-- The graph of some entry points is left by a run that has come to its end. -/
theorem exists_reached_ofEntryPoints (entries : List EntryPoint) :
    exists b, Reached b ∧ b.frames = [] ∧ b.graph = Graph.ofEntryPoints entries := by
  have hend : Reached (entries.foldl addEntryPoint {}) ∧
      (entries.foldl addEntryPoint {}).frames = [] :=
    List.foldlRecOn (motive := fun b => Reached b ∧ b.frames = []) entries _ ⟨.start, rfl⟩
      fun b hb entry _ => ⟨hb.1.addEntryPoint entry, (b.frames_addEntryPoint entry).trans hb.2⟩
  exact ⟨_, hend.1, hend.2, (Graph.ofEntryPoints_eq_foldl entries).symm⟩

end Builder
end CallForest
