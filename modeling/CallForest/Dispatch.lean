import CallForest.Store.Basic

/-!
# Dispatch

A call to a function that dispatches virtually runs the most derived override: the first function,
along the linearization of the contract, with the same name, parameter types and return types. Any
other call runs the function itself.
-/

namespace CallForest

def FunctionDecl.overrides (candidate f : FunctionDecl) : Bool :=
  candidate.name == f.name
    && candidate.functionType.sameParameters f.functionType
    && candidate.functionType.sameReturns f.functionType

namespace Store

def findOverride (s : Store) (f : FunctionDecl) :
    List FunctionId -> Except Fault (Option FunctionId)
  | [] => .ok none
  | id :: ids => do
      let candidate ← s.function id
      if candidate.overrides f then pure (some id) else s.findOverride f ids

def findOverrideAlong (s : Store) (f : FunctionDecl) :
    List ContractId -> Except Fault (Option FunctionId)
  | [] => .ok none
  | id :: ids => do
      let contract ← s.contract id
      match ← s.findOverride f contract.functions with
      | some found => pure (some found)
      | none => s.findOverrideAlong f ids

/-- The function that runs when `id` is called and `linearization` belongs to the most derived
contract. -/
def finalOverride (s : Store) (linearization : List ContractId) (id : FunctionId) :
    Except Fault FunctionId := do
  let f ← s.function id
  if f.dispatchesVirtually then
    let found ← s.findOverrideAlong f linearization
    pure (found.getD id)
  else
    pure id

end Store
end CallForest
