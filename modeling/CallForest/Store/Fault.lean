/-!
# Faults

What can go wrong when a value is looked up by its number.
-/

namespace CallForest

/-- Why a lookup has no answer: nothing has this number, the entries of this kind are no longer
trusted, or a walk along calls came back to a node that it is still below. -/
inductive Fault where
  | outOfRange (size index : Nat)
  | poisoned
  | endlessWalk
  deriving DecidableEq, Repr

end CallForest
