import CallForest.Store.Basic

/-!
# Call graphs

A call graph keeps its nodes in an arena and refers to them by position. A node stands for one
execution of a definition. The call edges below the roots form a forest: a call edge owns the node
that was made for the callee. A recursive edge points back at a node on the path to the root.
-/

namespace CallForest

structure NodeId where
  index : Nat
  deriving DecidableEq, Hashable, Ord, Repr

/-- What a node executes: a function, the initialization of a state variable, or the constructor of
a contract that declares none. -/
inductive Definition where
  | function (id : FunctionId)
  | stateVariable (id : StateVariableId)
  | implicitConstructor (id : ContractId)
  deriving DecidableEq, Hashable, Repr

namespace Definition

def function? : Definition -> Option FunctionId
  | function id => some id
  | _ => none

end Definition

inductive Edge where
  | call (callee : NodeId)
  | recursive (ancestor : NodeId)
  deriving DecidableEq, Hashable, Repr

namespace Edge

def target : Edge -> NodeId
  | call id => id
  | recursive id => id

def isRecursive : Edge -> Bool
  | call _ => false
  | recursive _ => true

def callee? : Edge -> Option NodeId
  | call id => some id
  | recursive _ => none

end Edge

/-- One execution of a definition: its call sites, and the state variables that it reads and writes
itself, all in the order in which they are met and with repetitions. -/
structure Node where
  definition : Definition
  calls : List Edge := []
  reads : List StateVariableId := []
  writes : List StateVariableId := []
  deriving DecidableEq, Repr

namespace Node

def callees (n : Node) : List NodeId :=
  n.calls.filterMap Edge.callee?

end Node

structure Graph where
  nodes : Array Node := #[]
  roots : List NodeId := []
  deriving DecidableEq, Repr

namespace Graph

def size (g : Graph) : Nat :=
  g.nodes.size

def isEmpty (g : Graph) : Bool :=
  g.nodes.isEmpty

def get? (g : Graph) (id : NodeId) : Option Node :=
  g.nodes[id.index]?

def node (g : Graph) (id : NodeId) : Except Fault Node :=
  match g.get? id with
  | some n => .ok n
  | none => .error (.outOfRange g.size id.index)

def entries (g : Graph) : List (NodeId × Node) :=
  g.nodes.toList.zipIdx.map fun (n, i) => (⟨i⟩, n)

end Graph
end CallForest
