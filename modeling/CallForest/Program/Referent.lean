import CallForest.Program.DeclId
import CallForest.Source.Ident

/-!
# Referents

What an identifier, or the type of a callable, refers to once names are resolved.
-/

namespace CallForest

/-- The declaration behind a resolved name. `builtin` covers `this`, `super`, `msg`, `block`, `tx`
and the global functions. -/
inductive Referent where
  | stateVariable (id : StateVariableId)
  | function (id : FunctionId)
  | contract (id : ContractId)
  | localVariable (name : Ident)
  | parameter (name : Ident)
  | builtin (name : Ident)
  deriving BEq, Hashable

namespace Referent

def stateVariable? : Referent -> Option StateVariableId
  | stateVariable id => some id
  | _ => none

def function? : Referent -> Option FunctionId
  | function id => some id
  | _ => none

end Referent
end CallForest
