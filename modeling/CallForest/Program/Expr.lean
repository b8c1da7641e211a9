import CallForest.Program.Literal
import CallForest.Program.Operator
import CallForest.Program.Ty

/-!
# Expressions

Expressions after type checking: names are resolved, and each expression carries the type that it
evaluates to and its place in the source.
-/

namespace CallForest

structure Note where
  type : Ty
  span : Span

/-- A typed expression. An index access without an index is a type expression such as `uint[]`; an
omitted component of a tuple is `none`. -/
inductive Expr where
  | literal (value : Literal) (note : Note)
  | name (ident : Ident) (referent : Referent) (note : Note)
  | call (callee : Expr) (arguments : List Expr) (note : Note)
  | assign (target : Expr) (op : AssignOp) (value : Expr) (note : Note)
  | member (base : Expr) (field : Ident) (note : Note)
  | index (base : Expr) (index : Option Expr) (note : Note)
  | binary (op : BinaryOp) (left right : Expr) (note : Note)
  | unary (op : UnaryOp) (operand : Expr) (note : Note)
  | conditional (condition thenValue elseValue : Expr) (note : Note)
  | tuple (components : List (Option Expr)) (note : Note)

namespace Expr

def note : Expr -> Note
  | literal _ n => n
  | name _ _ n => n
  | call _ _ n => n
  | assign _ _ _ n => n
  | member _ _ n => n
  | index _ _ n => n
  | binary _ _ _ n => n
  | unary _ _ n => n
  | conditional _ _ _ n => n
  | tuple _ n => n

def type (e : Expr) : Ty :=
  e.note.type

def span (e : Expr) : Span :=
  e.note.span

def ident? : Expr -> Option Ident
  | name ident _ _ => some ident
  | _ => none

end Expr
end CallForest
