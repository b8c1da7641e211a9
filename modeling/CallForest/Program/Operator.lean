/-!
# Operators
-/

namespace CallForest

inductive BinaryOp where
  | add | sub | mul | div | mod | exp
  | and | or
  | eq | ne | lt | gt | le | ge
  | bitAnd | bitOr | bitXor | shl | shr
  deriving DecidableEq, Hashable, Repr

/-- An operator on one operand. Increment and decrement stand before the operand or after it, and
yield the new value or the old one accordingly. -/
inductive UnaryOp where
  | not
  | neg
  | bitNot
  | increment (before : Bool)
  | decrement (before : Bool)
  | delete
  deriving DecidableEq, Hashable, Repr

/-- How an assignment stores: the value itself, or the result of an operator on the old value. -/
inductive AssignOp where
  | plain
  | compound (op : BinaryOp)
  deriving DecidableEq, Hashable, Repr

end CallForest
