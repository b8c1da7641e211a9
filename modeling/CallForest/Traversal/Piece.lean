import CallForest.Program.Decl

/-!
# Pieces of code

A piece is a function, a statement or an expression: what a traversal stops at. Its children are the
pieces directly inside it, in the order in which they are visited. A block is no piece of its own;
its statements are children of the function or the statement around it.
-/

namespace CallForest

inductive Piece where
  | function (id : FunctionId) (decl : FunctionDecl)
  | stmt (s : Stmt)
  | expr (e : Expr)

def Expr.children : Expr -> List Expr
  | .literal _ _ => []
  | .name _ _ _ => []
  | .call callee arguments _ => callee :: arguments
  | .assign target _ value _ => [target, value]
  | .member base _ _ => [base]
  | .index base i _ => base :: i.toList
  | .binary _ left right _ => [left, right]
  | .unary _ operand _ => [operand]
  | .conditional condition thenValue elseValue _ => [condition, thenValue, elseValue]
  | .tuple components _ => components.filterMap id

def Stmt.children : Stmt -> List Piece
  | .expr value => [.expr value]
  | .emit event => [.expr event]
  | .declare _ value => value.toList.map .expr
  | .block statements => statements.map .stmt
  | .branch condition thenBody elseBody =>
      .expr condition :: .stmt thenBody :: elseBody.toList.map .stmt
  | .whileLoop condition body => [.expr condition, .stmt body]
  | .doWhile body condition => [.stmt body, .expr condition]
  | .forLoop first condition next body =>
      first.toList.map .stmt ++ condition.toList.map .expr ++ next.toList.map .expr ++ [.stmt body]
  | .ret value => value.toList.map .expr
  | .breakLoop => []
  | .continueLoop => []

namespace Piece

def ofBlock (statements : Block) : List Piece :=
  statements.map .stmt

def children : Piece -> List Piece
  | function _ decl => ofBlock (decl.body.getD [])
  | stmt s => s.children
  | expr e => e.children.map .expr

/-!
# Forms
-/

/-- The hooks of a visitor. Names, calls and assignments have hooks of their own; every other
expression shares one. -/
inductive Hook where
  | function
  | statement
  | identifier
  | call
  | assignment
  | expression
  deriving DecidableEq, Repr

def hook : Piece -> Hook
  | function _ _ => .function
  | stmt _ => .statement
  | expr (.name _ _ _) => .identifier
  | expr (.call _ _ _) => .call
  | expr (.assign _ _ _ _) => .assignment
  | expr _ => .expression

end Piece
end CallForest
