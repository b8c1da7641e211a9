import CallForest.Traversal.Piece

/-!
# Induction on code

The children of a piece of code are smaller than the piece. So what is handed on from the children of
each piece to the piece itself holds of all code.
-/

namespace CallForest
namespace Piece

theorem sizeOf_lt_of_mem_toList {alpha : Type} [SizeOf alpha] {x : alpha} {o : Option alpha}
    (h : x ∈ o.toList) : sizeOf x < sizeOf o := by
  cases Option.mem_toList.mp h
  rw [Option.some.sizeOf_spec]
  omega

theorem sizeOf_lt_of_mem_slots {e : Expr} {slots : List (Option Expr)}
    (h : e ∈ slots.filterMap id) : sizeOf e < sizeOf slots := by
  rcases List.mem_filterMap.mp h with ⟨slot, hslot, heq⟩
  cases heq
  have hlt := List.sizeOf_lt_of_mem hslot
  rw [Option.some.sizeOf_spec] at hlt
  omega

theorem sizeOf_lt_of_mem_exprChildren {e c : Expr} (h : c ∈ e.children) :
    sizeOf c < sizeOf e := by
  cases e with
  | literal value note => cases h
  | name ident referent note => cases h
  | call callee arguments note =>
      rcases List.mem_cons.mp h with rfl | h
      · simp
        omega
      · have hlt := List.sizeOf_lt_of_mem h
        simp
        omega
  | assign target op value note =>
      simp only [Expr.children, List.mem_cons, List.not_mem_nil, or_false] at h
      rcases h with rfl | rfl <;> simp <;> omega
  | member base field note =>
      simp only [Expr.children, List.mem_cons, List.not_mem_nil, or_false] at h
      subst h
      simp
      omega
  | index base i note =>
      rcases List.mem_cons.mp h with rfl | h
      · simp
        omega
      · have hlt := sizeOf_lt_of_mem_toList h
        simp
        omega
  | binary op left right note =>
      simp only [Expr.children, List.mem_cons, List.not_mem_nil, or_false] at h
      rcases h with rfl | rfl <;> simp <;> omega
  | unary op operand note =>
      simp only [Expr.children, List.mem_cons, List.not_mem_nil, or_false] at h
      subst h
      simp
      omega
  | conditional condition thenValue elseValue note =>
      simp only [Expr.children, List.mem_cons, List.not_mem_nil, or_false] at h
      rcases h with rfl | rfl | rfl <;> simp <;> omega
  | tuple components note =>
      have hlt := sizeOf_lt_of_mem_slots h
      simp
      omega

theorem sizeOf_le_of_mem_stmtChildren {s : Stmt} {c : Piece} (h : c ∈ s.children) :
    sizeOf c ≤ sizeOf s := by
  cases s with
  | expr value =>
      simp only [Stmt.children, List.mem_cons, List.not_mem_nil, or_false] at h
      subst h
      simp
  | emit event =>
      simp only [Stmt.children, List.mem_cons, List.not_mem_nil, or_false] at h
      subst h
      simp
  | declare locals value =>
      rcases List.mem_map.mp h with ⟨x, hx, rfl⟩
      have hlt := sizeOf_lt_of_mem_toList hx
      simp
      omega
  | block statements =>
      rcases List.mem_map.mp h with ⟨x, hx, rfl⟩
      have hlt := List.sizeOf_lt_of_mem hx
      simp
      omega
  | branch condition thenBody elseBody =>
      simp only [Stmt.children, List.mem_cons, List.mem_map] at h
      rcases h with rfl | rfl | ⟨x, hx, rfl⟩
      · simp
        omega
      · simp
        omega
      · have hlt := sizeOf_lt_of_mem_toList hx
        simp
        omega
  | whileLoop condition body =>
      simp only [Stmt.children, List.mem_cons, List.not_mem_nil, or_false] at h
      rcases h with rfl | rfl <;> simp
  | doWhile body condition =>
      simp only [Stmt.children, List.mem_cons, List.not_mem_nil, or_false] at h
      rcases h with rfl | rfl <;> simp
  | forLoop first condition next body =>
      simp only [Stmt.children, List.mem_append, List.mem_map, List.mem_singleton] at h
      rcases h with ((⟨x, hx, rfl⟩ | ⟨x, hx, rfl⟩) | ⟨x, hx, rfl⟩) | rfl
      · have hlt := sizeOf_lt_of_mem_toList hx
        simp
        omega
      · have hlt := sizeOf_lt_of_mem_toList hx
        simp
        omega
      · have hlt := sizeOf_lt_of_mem_toList hx
        simp
        omega
      · simp
        omega
  | ret value =>
      rcases List.mem_map.mp h with ⟨x, hx, rfl⟩
      have hlt := sizeOf_lt_of_mem_toList hx
      simp
      omega
  | breakLoop => cases h
  | continueLoop => cases h

theorem sizeOf_lt_of_mem_children {p c : Piece} (h : c ∈ p.children) : sizeOf c < sizeOf p := by
  cases p with
  | function id decl =>
      rcases List.mem_map.mp h with ⟨x, hx, rfl⟩
      have hlt := List.sizeOf_lt_of_mem hx
      rcases decl with ⟨name, kind, parameters, returns, isVirtual, body, span⟩
      cases body with
      | none => cases hx
      | some statements =>
          simp at hlt ⊢
          omega
  | stmt s =>
      have hle := sizeOf_le_of_mem_stmtChildren h
      simp
      omega
  | expr e =>
      rcases List.mem_map.mp h with ⟨x, hx, rfl⟩
      have hlt := sizeOf_lt_of_mem_exprChildren hx
      simp
      omega

/-- What is handed on from the children of a piece to the piece holds of all pieces. -/
theorem of_children {P : Piece -> Prop}
    (hstep : forall p, (forall c, c ∈ p.children -> P c) -> P p) (p : Piece) : P p :=
  hstep p fun c _ => of_children hstep c
termination_by sizeOf p
decreasing_by
  exact sizeOf_lt_of_mem_children (by assumption)

end Piece
end CallForest
