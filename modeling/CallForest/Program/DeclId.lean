/-!
# Declaration identifiers

Declarations of each kind are numbered from zero in the order in which they are stored. The kind is
part of an identifier's type, so the number of a function never passes for that of a contract.
-/

namespace CallForest

inductive DeclKind where
  | function
  | stateVariable
  | contract
  deriving DecidableEq, Repr

structure DeclId (kind : DeclKind) where
  index : Nat
  deriving DecidableEq, Hashable, Ord, Repr

abbrev FunctionId := DeclId .function
abbrev StateVariableId := DeclId .stateVariable
abbrev ContractId := DeclId .contract

namespace DeclId

def describe {kind : DeclKind} (id : DeclId kind) : String :=
  "DeclId(" ++ toString id.index ++ ")"

end DeclId
end CallForest
