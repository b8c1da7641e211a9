import CallForest.Graph.Basic
import CallForest.Json.Printer
import CallForest.Json.Reader

/-!
# Call graphs as JSON

Identifiers and positions are plain numbers, definitions and edges are objects with one member that
names the variant, nodes and graphs are records.
-/

namespace CallForest

/-!
# Writing
-/

def Definition.toJson : Definition -> Json
  | .function id => .ofFields [("Function", .natural id.index)]
  | .stateVariable id => .ofFields [("StateVariable", .natural id.index)]
  | .implicitConstructor id => .ofFields [("ImplicitConstructor", .natural id.index)]

def Edge.toJson : Edge -> Json
  | .call id => .ofFields [("Call", .natural id.index)]
  | .recursive id => .ofFields [("Recursive", .natural id.index)]

def Node.toJson (n : Node) : Json :=
  .ofFields [
    ("definition", n.definition.toJson),
    ("calls", .array (n.calls.map Edge.toJson)),
    ("reads", .ofNats (n.reads.map (·.index))),
    ("writes", .ofNats (n.writes.map (·.index)))]

def Graph.toJson (g : Graph) : Json :=
  .ofFields [
    ("nodes", .array (g.nodes.toList.map Node.toJson)),
    ("roots", .ofNats (g.roots.map (·.index)))]

def Graph.serialize (g : Graph) : String :=
  g.toJson.render

/-!
# Reading
-/

def DeclId.ofJson? {kind : DeclKind} (j : Json) : Option (DeclId kind) :=
  j.word?.map .mk

def NodeId.ofJson? (j : Json) : Option NodeId :=
  j.word?.map .mk

def Definition.ofJson? (j : Json) : Option Definition := do
  let (name, value) ← j.variant?
  match name with
  | "Function" => (DeclId.ofJson? value).map .function
  | "StateVariable" => (DeclId.ofJson? value).map .stateVariable
  | "ImplicitConstructor" => (DeclId.ofJson? value).map .implicitConstructor
  | _ => none

def Edge.ofJson? (j : Json) : Option Edge := do
  let (name, value) ← j.variant?
  match name with
  | "Call" => (NodeId.ofJson? value).map .call
  | "Recursive" => (NodeId.ofJson? value).map .recursive
  | _ => none

def Node.ofJson? (j : Json) : Option Node := do
  match ← j.fields? ["definition", "calls", "reads", "writes"] with
  | [definition, calls, reads, writes] =>
      let definition ← Json.required Definition.ofJson? definition
      let calls ← Json.required (Json.list? Edge.ofJson?) calls
      let reads ← Json.required (Json.list? DeclId.ofJson?) reads
      let writes ← Json.required (Json.list? DeclId.ofJson?) writes
      some { definition, calls, reads, writes }
  | _ => none

def Graph.ofJson? (j : Json) : Option Graph := do
  match ← j.fields? ["nodes", "roots"] with
  | [nodes, roots] =>
      let nodes ← Json.required (Json.list? Node.ofJson?) nodes
      let roots ← Json.required (Json.list? NodeId.ofJson?) roots
      some { nodes := nodes.toArray, roots }
  | _ => none

def Graph.deserialize? (text : String) : Option Graph :=
  (Json.parse? text).bind Graph.ofJson?

end CallForest
