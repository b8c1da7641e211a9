import CallForest.Traversal.Piece

/-!
# Visitors

A visitor is shown every piece of some code, each before its children. For each piece it leaves
entries in a record and says how often the children are gone through afterwards: once to go on, not
at all to leave them out, and more often to have them visited again.
-/

namespace CallForest

structure Response (alpha : Type) where
  entries : List alpha := []
  rounds : Nat := 1

/-- A visitor answers each piece as a function of the piece alone. -/
structure Visitor (alpha : Type) where
  respond : Piece -> Response alpha

namespace Visitor

variable {alpha : Type}

def record (v : Visitor alpha) (p : Piece) (children : List alpha) : List alpha :=
  let response := v.respond p
  response.entries ++ (List.replicate response.rounds children).flatten

mutual

def ofExpr (v : Visitor alpha) : Expr -> List alpha
  | .literal value n => v.record (.expr (.literal value n)) []
  | .name ident referent n => v.record (.expr (.name ident referent n)) []
  | .call callee arguments n =>
      v.record (.expr (.call callee arguments n)) (v.ofExpr callee ++ v.ofExprs arguments)
  | .assign target op value n =>
      v.record (.expr (.assign target op value n)) (v.ofExpr target ++ v.ofExpr value)
  | .member base field n => v.record (.expr (.member base field n)) (v.ofExpr base)
  | .index base i n =>
      v.record (.expr (.index base i n)) (v.ofExpr base ++ v.ofExpr? i)
  | .binary op left right n =>
      v.record (.expr (.binary op left right n)) (v.ofExpr left ++ v.ofExpr right)
  | .unary op operand n => v.record (.expr (.unary op operand n)) (v.ofExpr operand)
  | .conditional condition thenValue elseValue n =>
      v.record (.expr (.conditional condition thenValue elseValue n))
        (v.ofExpr condition ++ v.ofExpr thenValue ++ v.ofExpr elseValue)
  | .tuple components n => v.record (.expr (.tuple components n)) (v.ofSlots components)

def ofExprs (v : Visitor alpha) : List Expr -> List alpha
  | [] => []
  | e :: es => v.ofExpr e ++ v.ofExprs es

def ofExpr? (v : Visitor alpha) : Option Expr -> List alpha
  | none => []
  | some e => v.ofExpr e

def ofSlots (v : Visitor alpha) : List (Option Expr) -> List alpha
  | [] => []
  | none :: slots => v.ofSlots slots
  | some e :: slots => v.ofExpr e ++ v.ofSlots slots

end

mutual

def ofStmt (v : Visitor alpha) : Stmt -> List alpha
  | .expr value => v.record (.stmt (.expr value)) (v.ofExpr value)
  | .emit event => v.record (.stmt (.emit event)) (v.ofExpr event)
  | .declare locals value =>
      v.record (.stmt (.declare locals value)) (v.ofExpr? value)
  | .block statements => v.record (.stmt (.block statements)) (v.ofStmts statements)
  | .branch condition thenBody elseBody =>
      v.record (.stmt (.branch condition thenBody elseBody))
        (v.ofExpr condition ++ v.ofStmt thenBody ++ v.ofStmt? elseBody)
  | .whileLoop condition body =>
      v.record (.stmt (.whileLoop condition body)) (v.ofExpr condition ++ v.ofStmt body)
  | .doWhile body condition =>
      v.record (.stmt (.doWhile body condition)) (v.ofStmt body ++ v.ofExpr condition)
  | .forLoop first condition next body =>
      v.record (.stmt (.forLoop first condition next body))
        (v.ofStmt? first ++ v.ofExpr? condition ++ v.ofExpr? next ++ v.ofStmt body)
  | .ret value => v.record (.stmt (.ret value)) (v.ofExpr? value)
  | .breakLoop => v.record (.stmt .breakLoop) []
  | .continueLoop => v.record (.stmt .continueLoop) []

def ofStmts (v : Visitor alpha) : List Stmt -> List alpha
  | [] => []
  | s :: ss => v.ofStmt s ++ v.ofStmts ss

def ofStmt? (v : Visitor alpha) : Option Stmt -> List alpha
  | none => []
  | some s => v.ofStmt s

end

def ofPiece (v : Visitor alpha) : Piece -> List alpha
  | .function id decl => v.record (.function id decl) (v.ofStmts (decl.body.getD []))
  | .stmt s => v.ofStmt s
  | .expr e => v.ofExpr e

def ofChildren (v : Visitor alpha) (p : Piece) : List alpha :=
  p.children.flatMap v.ofPiece

/-!
# Records of rows
-/

theorem ofExprs_eq_flatMap (v : Visitor alpha) (es : List Expr) :
    v.ofExprs es = es.flatMap v.ofExpr := by
  induction es with
  | nil => rfl
  | cons e es ih => simp [ofExprs, ih]

theorem ofSlots_eq_flatMap (v : Visitor alpha) (slots : List (Option Expr)) :
    v.ofSlots slots = (slots.filterMap id).flatMap v.ofExpr := by
  induction slots with
  | nil => rfl
  | cons slot slots ih => cases slot <;> simp [ofSlots, ih]

theorem ofStmts_eq_flatMap (v : Visitor alpha) (ss : List Stmt) :
    v.ofStmts ss = ss.flatMap v.ofStmt := by
  induction ss with
  | nil => rfl
  | cons s ss ih => simp [ofStmts, ih]

theorem ofExpr_eq_record (v : Visitor alpha) (e : Expr) :
    v.ofExpr e = v.record (.expr e) (v.ofChildren (.expr e)) := by
  cases e with
  | index base i n => cases i <;> simp [ofExpr, ofExpr?, ofChildren, Piece.children,
      Expr.children, ofPiece]
  | _ => simp [ofExpr, ofChildren, Piece.children, Expr.children, ofPiece, ofExprs_eq_flatMap,
      ofSlots_eq_flatMap, List.flatMap_map]

theorem ofStmt_eq_record (v : Visitor alpha) (s : Stmt) :
    v.ofStmt s = v.record (.stmt s) (v.ofChildren (.stmt s)) := by
  cases s with
  | declare locals value => cases value <;> simp [ofStmt, ofExpr?, ofChildren, Piece.children,
      Stmt.children, ofPiece]
  | branch condition thenBody elseBody => cases elseBody <;> simp [ofStmt, ofStmt?, ofChildren,
      Piece.children, Stmt.children, ofPiece]
  | forLoop first condition next body =>
      cases first <;> cases condition <;> cases next <;>
        simp [ofStmt, ofStmt?, ofExpr?, ofChildren, Piece.children, Stmt.children, ofPiece]
  | ret value => cases value <;> simp [ofStmt, ofExpr?, ofChildren, Piece.children,
      Stmt.children, ofPiece]
  | _ => simp [ofStmt, ofChildren, Piece.children, Stmt.children, ofPiece, ofStmts_eq_flatMap,
      List.flatMap_map]

theorem ofPiece_eq_record (v : Visitor alpha) (p : Piece) :
    v.ofPiece p = v.record p (v.ofChildren p) := by
  cases p with
  | function id decl =>
      simp [ofPiece, ofChildren, Piece.children, Piece.ofBlock, ofStmts_eq_flatMap,
        List.flatMap_map]
  | stmt s => exact v.ofStmt_eq_record s
  | expr e => exact v.ofExpr_eq_record e

theorem ofPiece_eq_append {v : Visitor alpha} {p : Piece} {entries : List alpha}
    (h : v.respond p = { entries := entries }) :
    v.ofPiece p = entries ++ p.children.flatMap v.ofPiece := by
  rw [ofPiece_eq_record, record, h]
  exact congrArg (entries ++ ·) (List.append_nil _)

end Visitor
end CallForest
