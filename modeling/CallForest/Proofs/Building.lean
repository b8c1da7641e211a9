import CallForest.Analysis.Plan
import CallForest.Proofs.Execution

/-!
# What a builder makes of a course

Following a course leaves the frames and the roots of a builder alone. It adds to the node of the
innermost frame what the course does at its outermost level, and puts the nodes of the executions in
the course behind the nodes made before, in order. So the graph of some entry points consists of the
nodes of their executions.
-/

namespace CallForest

/-!
# Changing one node of an arena
-/

namespace Node

def extend (edges : List Edge) (reads writes : List StateVariableId) (n : Node) : Node :=
  { n with
    calls := n.calls ++ edges
    reads := n.reads ++ reads
    writes := n.writes ++ writes }

@[simp] theorem extend_nil (n : Node) : n.extend [] [] [] = n := by
  simp [extend]

theorem extend_extend (edges edges' : List Edge)
    (reads reads' writes writes' : List StateVariableId) (n : Node) :
    (n.extend edges reads writes).extend edges' reads' writes' =
      n.extend (edges ++ edges') (reads ++ reads') (writes ++ writes') := by
  simp [extend]

theorem extend_read (v : StateVariableId) :
    extend [] [v] [] = fun n => { n with reads := n.reads ++ [v] } := by
  funext n
  simp [extend]

theorem extend_write (v : StateVariableId) :
    extend [] [] [v] = fun n => { n with writes := n.writes ++ [v] } := by
  funext n
  simp [extend]

theorem extend_edge (edge : Edge) :
    extend [edge] [] [] = fun n => { n with calls := n.calls ++ [edge] } := by
  funext n
  simp [extend]

end Node

theorem modify_extend_nil (nodes : Array Node) (i : Nat) :
    nodes.modify i (Node.extend [] [] []) = nodes := by
  apply Array.ext
  · simp
  · intro j hj hj'
    simp [Array.getElem_modify]

theorem modify_modify {alpha : Type} (xs : Array alpha) (i : Nat) (f g : alpha -> alpha) :
    (xs.modify i f).modify i g = xs.modify i (fun x => g (f x)) := by
  apply Array.ext
  · simp
  · intro j hj hj'
    simp only [Array.getElem_modify]
    split
    · rfl
    · rfl

theorem modify_append_of_lt {alpha : Type} (xs ys : Array alpha) {i : Nat} (f : alpha -> alpha)
    (h : i < xs.size) :
    (xs ++ ys).modify i f = xs.modify i f ++ ys := by
  apply Array.ext
  · simp
  · intro j hj hj'
    simp only [Array.getElem_modify, Array.getElem_append, Array.size_modify]
    by_cases hj : j < xs.size
    · simp [hj]
    · have hne : i ≠ j := by omega
      simp [hj, hne]

theorem push_modify_size {alpha : Type} (xs : Array alpha) (x : alpha) (f : alpha -> alpha) :
    (xs.push x).modify xs.size f = xs.push (f x) := by
  apply Array.ext
  · simp
  · intro j hj hj'
    simp only [Array.getElem_modify, Array.getElem_push]
    by_cases hj : j < xs.size
    · have hne : xs.size ≠ j := by omega
      simp [hj, hne]
    · have heq : xs.size = j := by
        simp at hj'
        omega
      simp [heq]

namespace Builder

/-!
# Following a course
-/

def nodesAfter (nodes : Array Node) (top : NodeId) (frames : List Frame) (course : Course) :
    Array Node :=
  nodes.modify top.index
      (Node.extend (course.edges frames nodes.size) course.reads course.writes) ++
    ((course.executions frames nodes.size).map Execution.node).toArray

theorem nodesAfter_modify (nodes : Array Node) (top : NodeId) (frames : List Frame)
    (course : Course) (edges : List Edge) (reads writes : List StateVariableId) :
    nodesAfter (nodes.modify top.index (Node.extend edges reads writes)) top frames course =
      nodes.modify top.index
          (Node.extend (edges ++ course.edges frames nodes.size) (reads ++ course.reads)
            (writes ++ course.writes)) ++
        ((course.executions frames nodes.size).map Execution.node).toArray := by
  rw [nodesAfter, modify_modify, Array.size_modify]
  simp only [Node.extend_extend]

theorem nodesAfter_push (nodes : Array Node) (e : Execution) (hid : e.id = ⟨nodes.size⟩) :
    nodesAfter (nodes.push { definition := e.definition }) e.id e.frames e.course =
      nodes ++ (e.subtree.map Execution.node).toArray := by
  have hnext : e.next = nodes.size + 1 := by
    rw [Execution.next, hid]
  have hnode : Node.extend (e.course.edges e.frames (nodes.size + 1)) e.course.reads
      e.course.writes { definition := e.definition } = e.node := by
    rw [Execution.node, hnext]
    simp [Node.extend]
  rw [nodesAfter, hid, push_modify_size, Array.size_push, hnode, Execution.subtree, hnext]
  simp

theorem recordRead_eq (nodes : Array Node) (roots : List NodeId) (top : Frame)
    (outer : List Frame) (v : StateVariableId) :
    recordRead ⟨nodes, roots, top :: outer⟩ v =
      ⟨nodes.modify top.node.index (Node.extend [] [v] []), roots, top :: outer⟩ := by
  simp [recordRead, modifyTop, modifyNode, Node.extend_read]

theorem recordWrite_eq (nodes : Array Node) (roots : List NodeId) (top : Frame)
    (outer : List Frame) (v : StateVariableId) :
    recordWrite ⟨nodes, roots, top :: outer⟩ v =
      ⟨nodes.modify top.node.index (Node.extend [] [] [v]), roots, top :: outer⟩ := by
  simp [recordWrite, modifyTop, modifyNode, Node.extend_write]

theorem recordEdge_eq (nodes : Array Node) (roots : List NodeId) (top : Frame)
    (outer : List Frame) (edge : Edge) :
    recordEdge ⟨nodes, roots, top :: outer⟩ edge =
      ⟨nodes.modify top.node.index (Node.extend [edge] [] []), roots, top :: outer⟩ := by
  simp [recordEdge, modifyTop, modifyNode, Node.extend_edge]

theorem recordBack_eq (nodes : Array Node) (roots : List NodeId) (top : Frame)
    (outer : List Frame) (f : FunctionId) :
    recordBack ⟨nodes, roots, top :: outer⟩ f =
      ⟨nodes.modify top.node.index
          (Node.extend (((top :: outer).find? fun frame => frame.definition = .function f).map
            fun frame => Edge.recursive frame.node).toList [] []),
        roots, top :: outer⟩ := by
  rw [recordBack]
  cases (top :: outer).find? fun frame => frame.definition = .function f with
  | none =>
      simp [modify_extend_nil]
  | some frame =>
      exact recordEdge_eq nodes roots top outer (.recursive frame.node)

theorem follow_eq (course : Course) (nodes : Array Node) (roots : List NodeId) (top : Frame)
    (outer : List Frame) (htop : top.node.index < nodes.size) :
    follow course ⟨nodes, roots, top :: outer⟩ =
      ⟨nodesAfter nodes top.node (top :: outer) course, roots, top :: outer⟩ := by
  induction course generalizing nodes top outer with
  | done =>
      simp [follow, nodesAfter, Course.edges, Course.reads, Course.writes, Course.executions,
        modify_extend_nil]
  | read v rest ih =>
      rw [follow, recordRead_eq, ih _ _ _ (by simpa using htop), nodesAfter_modify]
      rfl
  | write v rest ih =>
      rw [follow, recordWrite_eq, ih _ _ _ (by simpa using htop), nodesAfter_modify]
      rfl
  | call site body rest ihBody ihRest =>
      let e : Execution := Course.entered (top :: outer) nodes.size site body
      have hbody : follow body (enter ⟨nodes, roots, top :: outer⟩ (.function site.target)) =
          ⟨nodes ++ (e.subtree.map Execution.node).toArray, roots, e.frames⟩ := by
        rw [← nodesAfter_push nodes e rfl]
        exact ihBody (nodes.push { definition := e.definition }) e.frame (top :: outer)
          (by simp [e, Course.entered])
      have hleave : leave ⟨nodes ++ (e.subtree.map Execution.node).toArray, roots, e.frames⟩ =
          ⟨(nodes ++ (e.subtree.map Execution.node).toArray).modify top.node.index
            (Node.extend [.call ⟨nodes.size⟩] [] []), roots, top :: outer⟩ :=
        recordEdge_eq _ roots top outer (.call ⟨nodes.size⟩)
      have hsize : (nodes ++ (e.subtree.map Execution.node).toArray).size =
          nodes.size + (body.size + 1) := by
        simp [Execution.subtree, e, Course.entered]
      rw [follow, hbody, hleave, ihRest _ _ _ (by simp; omega), nodesAfter_modify, hsize,
        modify_append_of_lt _ _ _ htop]
      simp [nodesAfter, Course.edges, Course.reads, Course.writes, Course.executions,
        Execution.subtree, e, Execution.next, Execution.id, Course.entered]
  | back site rest ih =>
      rw [follow, recordBack_eq, ih _ _ _ (by simpa using htop), nodesAfter_modify]
      rfl
  | cut site depth rest ih =>
      exact ih nodes top outer htop

/-!
# Whole executions
-/

theorem execute_eq (nodes : Array Node) (roots : List NodeId) (e : Execution)
    (hid : e.id = ⟨nodes.size⟩) (houter : e.outer = []) :
    execute ⟨nodes, roots, []⟩ e.definition e.course =
      ⟨nodes ++ (e.subtree.map Execution.node).toArray, roots ++ [e.id], []⟩ := by
  have hframe : (⟨e.definition, ⟨nodes.size⟩⟩ : Frame) = e.frame := by
    rw [← hid]
    rfl
  have henter : enter ⟨nodes, roots, []⟩ e.definition =
      ⟨nodes.push { definition := e.definition }, roots, [e.frame]⟩ := by
    rw [enter, hframe]
  have hframes : [e.frame] = e.frames := by
    rw [Execution.frames, houter]
  have hlt : e.frame.node.index < (nodes.push { definition := e.definition }).size := by
    rw [Array.size_push, ← hframe]
    exact Nat.lt_succ_self nodes.size
  have hnodes : nodesAfter (nodes.push { definition := e.definition }) e.frame.node [e.frame]
      e.course = nodes ++ (e.subtree.map Execution.node).toArray := by
    rw [hframes]
    exact nodesAfter_push nodes e hid
  rw [execute, henter, follow_eq _ _ _ _ _ hlt, hnodes]
  rfl

end Builder

/-- The executions of some definitions one after the other, where `next` nodes were made before. -/
def rootExecutions : Nat -> List (Definition × Course) -> List Execution
  | _, [] => []
  | next, (definition, course) :: plan =>
      let root : Execution := ⟨⟨definition, ⟨next⟩⟩, [], course⟩
      root :: rootExecutions (next + root.size) plan

theorem rootExecutions_cons (next : Nat) (definition : Definition) (course : Course)
    (plan : List (Definition × Course)) :
    rootExecutions next ((definition, course) :: plan) =
      ⟨⟨definition, ⟨next⟩⟩, [], course⟩ :: rootExecutions (next + (course.size + 1)) plan :=
  rfl

namespace Graph

def ofExecutions (roots : List Execution) : Graph where
  nodes := ((roots.flatMap Execution.subtree).map Execution.node).toArray
  roots := roots.map Execution.id

theorem foldl_execute_eq (plan : List (Definition × Course)) (nodes : Array Node)
    (roots : List NodeId) :
    plan.foldl (fun b root => b.execute root.1 root.2) (⟨nodes, roots, []⟩ : Builder) =
      ⟨nodes ++ (ofExecutions (rootExecutions nodes.size plan)).nodes,
        roots ++ (ofExecutions (rootExecutions nodes.size plan)).roots, []⟩ := by
  induction plan generalizing nodes roots with
  | nil =>
      simp [rootExecutions, ofExecutions]
  | cons root plan ih =>
      rcases root with ⟨definition, course⟩
      let e : Execution := ⟨⟨definition, ⟨nodes.size⟩⟩, [], course⟩
      have hexecute := Builder.execute_eq nodes roots e rfl rfl
      have hsize : (nodes ++ (e.subtree.map Execution.node).toArray).size =
          nodes.size + (course.size + 1) := by
        simp [Execution.subtree, e]
      rw [List.foldl_cons]
      show plan.foldl _ (Builder.execute ⟨nodes, roots, []⟩ e.definition e.course) = _
      rw [hexecute, ih, hsize, rootExecutions_cons]
      simp [ofExecutions, e]

theorem ofEntryPoints_eq (entries : List EntryPoint) :
    Graph.ofEntryPoints entries =
      ofExecutions (rootExecutions 0 (entries.filterMap EntryPoint.root?)) := by
  have h := foldl_execute_eq (entries.filterMap EntryPoint.root?) #[] []
  rw [Graph.ofEntryPoints]
  show Builder.graph (List.foldl _ ⟨#[], [], []⟩ _) = _
  rw [h]
  simp [Builder.graph]

end Graph
end CallForest
