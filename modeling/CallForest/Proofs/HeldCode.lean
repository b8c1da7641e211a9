import CallForest.Proofs.Contents
import CallForest.Proofs.Parts

/-!
# Where events come from

Each event of a piece of code comes from an expression that stands somewhere in it: a read or a write
from the name of a state variable, a call from a call whose callee has the type of a function. So the
numbers that an execution can meet stand in its code.
-/

namespace CallForest

inductive Event.ComesFrom : Event -> Expr -> Prop where
  | read {v : StateVariableId} {ident : Ident} {note : Note} :
      ComesFrom (.read v) (.name ident (.stateVariable v) note)
  | write {v : StateVariableId} {ident : Ident} {note : Note} :
      ComesFrom (.write v) (.name ident (.stateVariable v) note)
  | call {f : FunctionId} {callee : Expr} {arguments : List Expr} {note : Note} :
      callee.type.declaredFunction? = some f ->
      ComesFrom (.call f callee.span) (.call callee arguments note)

/-!
# Events of an expression
-/

namespace Expr

theorem exists_contains_name {e : Expr} {v : StateVariableId} (h : e.baseVariable? = some v) :
    exists ident note, (Piece.expr e).Contains (.name ident (.stateVariable v) note) := by
  induction e using Expr.baseVariable?.induct with
  | case1 ident referent note =>
      cases referent with
      | stateVariable found =>
          cases h
          exact ⟨ident, note, .self⟩
      | _ => cases h
  | case2 base i note ih =>
      rcases ih h with ⟨ident, note, hcontains⟩
      exact ⟨ident, note, .child List.mem_cons_self hcontains⟩
  | case3 base field note ih =>
      rcases ih h with ⟨ident, note, hcontains⟩
      exact ⟨ident, note, .child List.mem_cons_self hcontains⟩
  | case4 e hname hindex hmember =>
      rw [baseVariable?] at h
      · cases h
      · exact hname
      · exact hindex
      · exact hmember

theorem exists_of_mem_writeOfBase {base : Expr} {role : Role} {event : Event}
    (h : event ∈ base.writeOfBase role) :
    exists c, (Piece.expr base).Contains c ∧ event.ComesFrom c := by
  unfold writeOfBase at h
  split at h
  · next v hbase =>
      cases List.mem_singleton.mp h
      rcases exists_contains_name hbase with ⟨ident, note, hcontains⟩
      exact ⟨_, hcontains, .write⟩
  · cases h

theorem exists_of_mem_ownEvents {e : Expr} {role : Role} {event : Event}
    (h : event ∈ e.ownEvents role) :
    exists c, (Piece.expr e).Contains c ∧ event.ComesFrom c := by
  cases e with
  | name ident referent note =>
      cases referent with
      | stateVariable v =>
          cases role with
          | value =>
              cases List.mem_singleton.mp h
              exact ⟨_, .self, .read⟩
          | target =>
              cases List.mem_singleton.mp h
              exact ⟨_, .self, .write⟩
          | location => cases h
      | _ => cases role <;> cases h
  | call callee arguments note =>
      rw [ownEvents, callEvents] at h
      split at h
      · next f hf =>
          cases List.mem_singleton.mp h
          exact ⟨_, .self, .call hf⟩
      · cases h
  | member base field note =>
      rcases exists_of_mem_writeOfBase h with ⟨c, hcontains, hevent⟩
      exact ⟨c, .child List.mem_cons_self hcontains, hevent⟩
  | index base i note =>
      rcases exists_of_mem_writeOfBase h with ⟨c, hcontains, hevent⟩
      exact ⟨c, .child List.mem_cons_self hcontains, hevent⟩
  | _ => cases h

theorem exists_of_mem_events {config : Config} {event : Event} (e : Expr) :
    forall role, event ∈ e.events config role ->
      exists c, (Piece.expr e).Contains c ∧ event.ComesFrom c := by
  generalize hp : Piece.expr e = p
  induction p using Piece.of_children generalizing e with
  | hstep p ih =>
      subst hp
      intro role h
      rw [events_eq_parts, List.mem_append, List.mem_flatMap] at h
      rcases h with ⟨⟨inner, part⟩, hpart, hevent⟩ | hown
      · have hchild : Piece.expr part ∈ (Piece.expr e).children :=
          List.mem_map_of_mem (mem_children_of_mem_parts hpart)
        rcases ih (.expr part) hchild part rfl inner hevent with ⟨c, hcontains, hcomes⟩
        exact ⟨c, .child hchild hcontains, hcomes⟩
      · exact exists_of_mem_ownEvents hown

end Expr

theorem Piece.exists_of_mem_events {config : Config} {event : Event} (p : Piece)
    (h : event ∈ p.events config) : exists c, p.Contains c ∧ event.ComesFrom c := by
  induction p using of_children with
  | hstep p ih =>
      rcases p.isExpr_or_events_eq_flatMap with ⟨e, rfl⟩ | hevents
      · exact e.exists_of_mem_events .value h
      · rw [hevents, List.mem_flatMap] at h
        rcases h with ⟨c, hchild, hevent⟩
        rcases ih c hchild hevent with ⟨inside, hcontains, hcomes⟩
        exact ⟨inside, .child hchild hcontains, hcomes⟩

/-!
# Events of a definition
-/

namespace Store

def Holds (s : Store) (d : Definition) (e : Expr) : Prop :=
  exists code p, s.code d = .ok code ∧ p ∈ code ∧ p.Contains e

theorem exists_of_mem_eventsOf {s : Store} {config : Config} {d : Definition}
    {events : List Event} (h : s.eventsOf config d = .ok events) {event : Event}
    (hevent : event ∈ events) :
    (exists v, d = .stateVariable v ∧ event = .write v) ∨
      exists e, s.Holds d e ∧ event.ComesFrom e := by
  rcases exists_code_of_eventsOf h with ⟨code, hcode, rfl⟩
  rcases List.mem_append.mp hevent with hwrite | hinside
  · rcases List.mem_map.mp hwrite with ⟨v, hv, rfl⟩
    exact Or.inl ⟨v, Definition.mem_stateVariable?.mp hv, rfl⟩
  · rcases List.mem_flatMap.mp hinside with ⟨p, hp, hevent⟩
    rcases p.exists_of_mem_events hevent with ⟨e, hcontains, hcomes⟩
    exact Or.inr ⟨e, ⟨code, p, hcode, hp, hcontains⟩, hcomes⟩

end Store
end CallForest
