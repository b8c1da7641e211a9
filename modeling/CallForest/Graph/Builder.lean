import CallForest.Course.Basic
import CallForest.Graph.Basic

/-!
# Building a graph from courses

A builder holds the nodes and roots made so far and the frames of the definitions that are being
executed, the innermost first. Reads, writes and back edges go to the node of the innermost frame.
Entering a definition adds a node and a frame; leaving it hands the node to the frame around it, as
the callee of a call, or makes it a root if there is none.
-/

namespace CallForest

structure Frame where
  definition : Definition
  node : NodeId
  deriving DecidableEq, Repr

structure Builder where
  nodes : Array Node := #[]
  roots : List NodeId := []
  frames : List Frame := []
  deriving DecidableEq, Repr

namespace Builder

def path (b : Builder) : List Definition :=
  b.frames.map (·.definition)

def modifyNode (b : Builder) (id : NodeId) (change : Node -> Node) : Builder :=
  { b with nodes := b.nodes.modify id.index change }

def modifyTop (b : Builder) (change : Node -> Node) : Builder :=
  match b.frames with
  | [] => b
  | top :: _ => b.modifyNode top.node change

def recordRead (b : Builder) (v : StateVariableId) : Builder :=
  b.modifyTop fun n => { n with reads := n.reads ++ [v] }

def recordWrite (b : Builder) (v : StateVariableId) : Builder :=
  b.modifyTop fun n => { n with writes := n.writes ++ [v] }

def recordEdge (b : Builder) (e : Edge) : Builder :=
  b.modifyTop fun n => { n with calls := n.calls ++ [e] }

def recordBack (b : Builder) (f : FunctionId) : Builder :=
  match b.frames.find? fun frame => frame.definition = .function f with
  | none => b
  | some frame => b.recordEdge (.recursive frame.node)

def enter (b : Builder) (definition : Definition) : Builder :=
  { b with
    nodes := b.nodes.push { definition := definition }
    frames := ⟨definition, ⟨b.nodes.size⟩⟩ :: b.frames }

def leave (b : Builder) : Builder :=
  match b.frames with
  | [] => b
  | [top] => { b with frames := [], roots := b.roots ++ [top.node] }
  | top :: rest => { b with frames := rest }.recordEdge (.call top.node)

/-- Follows a course in the innermost frame. A call that is cut leaves no trace. -/
def follow : Course -> Builder -> Builder
  | .done, b => b
  | .read v rest, b => follow rest (b.recordRead v)
  | .write v rest, b => follow rest (b.recordWrite v)
  | .call site body rest, b =>
      follow rest (follow body (b.enter (.function site.target))).leave
  | .back site rest, b => follow rest (b.recordBack site.target)
  | .cut _ _ rest, b => follow rest b

def execute (b : Builder) (definition : Definition) (course : Course) : Builder :=
  (follow course (b.enter definition)).leave

def graph (b : Builder) : Graph where
  nodes := b.nodes
  roots := b.roots

end Builder
end CallForest
