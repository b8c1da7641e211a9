import CallForest.Program.Expr

/-!
# Statements
-/

namespace CallForest

structure LocalVariable where
  name : Ident
  type : Ty

/-- A typed statement. A declaration such as `(uint a, , bool c) = f();` has one slot for each
component; `emit` holds the call of the event. -/
inductive Stmt where
  | expr (value : Expr)
  | emit (event : Expr)
  | declare (locals : List (Option LocalVariable)) (value : Option Expr)
  | block (statements : List Stmt)
  | branch (condition : Expr) (thenBody : Stmt) (elseBody : Option Stmt)
  | whileLoop (condition : Expr) (body : Stmt)
  | doWhile (body : Stmt) (condition : Expr)
  | forLoop (first : Option Stmt) (condition next : Option Expr) (body : Stmt)
  | ret (value : Option Expr)
  | breakLoop
  | continueLoop

abbrev Block := List Stmt

end CallForest
