import CallForest.Source.Ident

/-!
# Diagnostics

The errors and warnings of an analysis, as causes, with one wording for each.
-/

namespace CallForest

/-!
# Errors
-/

inductive Error where
  | invalidLinearization (contract : Ident) (span : Span)
  deriving BEq, Hashable

namespace Error

def span : Error -> Span
  | invalidLinearization _ span => span

def message : Error -> String
  | invalidLinearization contract _ =>
      "The linearization of contract \"" ++ contract.text
        ++ "\" must be non-empty and start with the contract itself."

end Error

/-!
# Warnings
-/

/-- What a warning is about. The chain of a recursive call lists the functions on the cycle, from
the function that is called again to the one that calls it. -/
inductive WarningCause where
  | recursiveCall (function : Ident) (chain : List Ident)
  | depthLimit (function : Ident) (depth : Nat)
  | missingConstructor (contract : Ident)
  deriving BEq, Hashable

structure Warning where
  span : Span
  cause : WarningCause
  deriving BEq, Hashable

def WarningCause.message : WarningCause -> String
  | recursiveCall function (first :: second :: rest) =>
      "Function \"" ++ function.text ++ "\" is recursive via "
        ++ " -> ".intercalate ((first :: second :: rest).map Ident.text)
        ++ ". The call graph records a back edge instead of expanding it again."
  | recursiveCall function _ =>
      "Function \"" ++ function.text
        ++ "\" is recursive. The call graph records a back edge instead of expanding it again."
  | depthLimit function depth =>
      "Call to \"" ++ function.text ++ "\" is nested " ++ toString depth
        ++ " calls deep, which exceeds the configured call depth limit. It was not expanded."
  | missingConstructor contract =>
      "Contract \"" ++ contract.text
        ++ "\" has no constructor, so no call graph root was created for it."

namespace Warning

def message (w : Warning) : String :=
  w.cause.message

end Warning
end CallForest
