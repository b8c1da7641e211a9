import CallForest.Graph.Basic

/-!
# Drawing a call graph

The drawing is a text in the DOT language of GraphViz: a line for each node, in the order of the
arena, and then a line for each edge, in the order of the nodes and of each node's calls. Roots are
boxes and recursive edges are dashed. A label names what the node executes and lists the state
variables that it reads and writes itself.
-/

namespace CallForest

def Definition.friendlyName (s : Store) : Definition -> Except Fault String
  | .function id => do
      let f ← s.function id
      pure f.signature
  | .stateVariable id => do
      let v ← s.stateVariable id
      pure ("state variable " ++ v.name.text)
  | .implicitConstructor id => do
      let c ← s.contract id
      pure ("implicit constructor of " ++ c.name.text)

def Store.variableNames (s : Store) (ids : List StateVariableId) : Except Fault (List String) :=
  ids.mapM fun id => do
    let v ← s.stateVariable id
    pure v.name.text

namespace Node

def labelLine (title : String) (names : List String) : String :=
  let listed := ", ".intercalate names
  if listed.isEmpty then "" else "\n" ++ title ++ ": " ++ listed

def label (s : Store) (n : Node) : Except Fault String := do
  let name ← n.definition.friendlyName s
  let reads ← s.variableNames n.reads
  let writes ← s.variableNames n.writes
  pure (name ++ labelLine "reads" reads ++ labelLine "writes" writes)

end Node

namespace Graph

def dotNodeLine (g : Graph) (id : NodeId) (label : String) : String :=
  let shape := if g.roots.contains id then "shape = box" else ""
  "    " ++ toString id.index ++ " [ " ++ shape ++ " label = " ++ Text.quote label ++ "]\n"

def dotEdgeLine (source : NodeId) (e : Edge) : String :=
  let style := if e.isRecursive then "style = dashed" else ""
  "    " ++ toString source.index ++ " -> " ++ toString e.target.index ++ " [ " ++ style ++ "]\n"

def checkedEdgeLine (g : Graph) (source : NodeId) (e : Edge) : Except Fault String := do
  let _ ← g.node e.target
  pure (dotEdgeLine source e)

/-- The drawing of a graph. All labels are made before the first edge is looked at. -/
def toDot (g : Graph) (s : Store) : Except Fault String := do
  let nodeLines ← g.entries.mapM fun (id, n) => do
    let label ← n.label s
    pure (g.dotNodeLine id label)
  let edgeLines ← g.entries.mapM fun (id, n) => n.calls.mapM (g.checkedEdgeLine id)
  pure ("digraph \x7b\n" ++ String.join nodeLines ++ String.join edgeLines.flatten ++ "\x7d\n")

end Graph
end CallForest
