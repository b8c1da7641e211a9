import CallForest.Store.Basic

/-!
# Courses

A course says what happens when a definition is executed: its events in order, with each call
followed into the callee. A call of a function that is being executed already goes back to it, and a
call that is nested too deeply is cut; neither is followed.
-/

namespace CallForest

/-- A call as it is met: the function that the callee's type declares, the function that the call is
dispatched to with its name and signature, and the place of the callee. -/
structure CallSite where
  declared : FunctionId
  target : FunctionId
  name : Ident
  signature : String
  span : Span

inductive Course where
  | done
  | read (v : StateVariableId) (rest : Course)
  | write (v : StateVariableId) (rest : Course)
  | call (site : CallSite) (body rest : Course)
  | back (site : CallSite) (rest : Course)
  | cut (site : CallSite) (depth : Nat) (rest : Course)

end CallForest
