import CallForest.Proofs.Tracking
import CallForest.Traversal.Visitor
import Mathlib.Data.List.Perm.Subperm

/-!
# Occurrences of state variables

A visitor that goes through everything meets each identifier of a piece of code once. With everything
tracked, an identifier of a state variable makes exactly one event: a read where it is evaluated, a
write where it is stored to. The base of an access chain that is stored to is passed over where it
stands, and written at the end of the chain. So the reads and writes of a node are the occurrences of
state variables in its code, in another order, and with less tracked they are some of them.
-/

namespace CallForest

def Piece.named? : Piece -> Option StateVariableId
  | .expr (.name _ referent _) => referent.stateVariable?
  | _ => none

def Visitor.occurrences : Visitor StateVariableId where
  respond p := { entries := p.named?.toList }

namespace Event

def accessed? : Event -> Option StateVariableId
  | .read v => some v
  | .write v => some v
  | .call _ _ => none

theorem filterMap_read?_append_write?_perm (events : List Event) :
    (events.filterMap read? ++ events.filterMap write?).Perm (events.filterMap accessed?) := by
  induction events with
  | nil => exact List.Perm.refl _
  | cons event events ih =>
      cases event with
      | read v => exact ih.cons v
      | write v => exact List.perm_middle.trans (ih.cons v)
      | call declared span => exact ih

end Event

def Node.writesOfCode (n : Node) : List StateVariableId :=
  match n.definition with
  | .stateVariable v => n.writes.erase v
  | _ => n.writes

namespace Visitor

theorem occurrences_ofPiece (p : Piece) :
    occurrences.ofPiece p = p.named?.toList ++ p.children.flatMap occurrences.ofPiece :=
  ofPiece_eq_append rfl

end Visitor

namespace Expr

/-!
# What a role passes over

An expression that is located keeps quiet about its base. What it keeps quiet about is written by the
access around it, or handed on to the access around that one.
-/

/-- The state variable that an expression names in a role without making an event of it. -/
def passedOver (role : Role) (e : Expr) : List StateVariableId :=
  match role with
  | .location => e.baseVariable?.toList
  | _ => []

theorem filterMap_accessed?_callEvents (callee : Expr) :
    callee.callEvents.filterMap Event.accessed? = [] := by
  unfold callEvents
  cases callee.type.declaredFunction? <;> rfl

theorem filterMap_accessed?_writeOfBase (role : Role) (base : Expr) :
    (base.writeOfBase role).filterMap Event.accessed? ++ passedOver role base =
      passedOver (baseRole role) base := by
  cases role with
  | value => rfl
  | target =>
      rw [writeOfBase_target, List.filterMap_map]
      show base.baseVariable?.toList.filterMap some ++ [] = base.baseVariable?.toList
      rw [List.filterMap_some, List.append_nil]
  | location => rfl

theorem passedOver_of_baseVariable?_eq_none {e : Expr} (h : e.baseVariable? = none)
    (role : Role) : e.passedOver role = [] := by
  cases role with
  | value => rfl
  | target => rfl
  | location =>
      show e.baseVariable?.toList = []
      rw [h]
      rfl

theorem flatMap_passedOver_value (es : List Expr) :
    (es.map (Role.value, ·)).flatMap (fun part => part.2.passedOver part.1) = [] := by
  rw [List.flatMap_map]
  exact List.flatMap_eq_nil_iff.mpr fun e _ => rfl

theorem flatMap_passedOver_parts (config : Config) (role : Role) (e : Expr) :
    (e.parts config role).flatMap (fun part => part.2.passedOver part.1) ++
        (Piece.expr e).named?.toList =
      (e.ownEvents role).filterMap Event.accessed? ++ e.passedOver role := by
  cases e with
  | name ident referent note =>
      cases referent with
      | stateVariable v => cases role <;> rfl
      | _ => cases role <;> rfl
  | call callee arguments note =>
      rw [passedOver_of_baseVariable?_eq_none rfl, parts, List.flatMap_cons,
        flatMap_passedOver_value, ownEvents, filterMap_accessed?_callEvents]
      rfl
  | assign target op value note =>
      rw [passedOver_of_baseVariable?_eq_none rfl, parts, List.flatMap_cons]
      split <;> rfl
  | member base field note =>
      rw [parts, List.flatMap_singleton, ← filterMap_accessed?_writeOfBase]
      exact List.append_nil _
  | index base i note =>
      rw [parts, List.flatMap_cons, flatMap_passedOver_value, ← filterMap_accessed?_writeOfBase]
      exact (List.append_nil _).trans (List.append_nil _)
  | tuple components note =>
      -- The components of a tuple are never located.
      have hparts : (tuple components note).parts config role =
          (components.filterMap id).map (componentRole role, ·) := rfl
      have hcomponents : (components.filterMap id).flatMap (passedOver (componentRole role)) =
          [] := by
        refine List.flatMap_eq_nil_iff.mpr ?_
        intro component _
        cases role <;> rfl
      rw [passedOver_of_baseVariable?_eq_none rfl, hparts, List.flatMap_map, hcomponents]
      rfl
  | _ => cases role <;> rfl

/-!
# Agreement with the visitor

What an expression does in a role and what it passes over there are together what the visitor meets,
by induction on the code.
-/

section

variable {config : Config} (hwrites : config.trackNestedWrites = true)
  (harguments : config.trackCallArguments = true)

include hwrites harguments

theorem accessed_append_passedOver_perm (e : Expr) :
    forall role, ((e.events config role).filterMap Event.accessed? ++ e.passedOver role).Perm
      (Visitor.occurrences.ofPiece (.expr e)) := by
  generalize hp : Piece.expr e = p
  induction p using Piece.of_children generalizing e with
  | hstep p ih =>
      subst hp
      intro role
      let accessed : Role × Expr -> List StateVariableId := fun part =>
        (part.2.events config part.1).filterMap Event.accessed?
      let passed : Role × Expr -> List StateVariableId := fun part => part.2.passedOver part.1
      let met : Expr -> List StateVariableId := fun c => Visitor.occurrences.ofPiece (.expr c)
      have hevents : (e.events config role).filterMap Event.accessed? =
          (e.parts config role).flatMap accessed ++
            (e.ownEvents role).filterMap Event.accessed? := by
        rw [events_eq_parts, List.filterMap_append, List.filterMap_flatMap]
      have hparts : ((e.parts config role).flatMap fun part => accessed part ++ passed part).Perm
          ((e.parts config role).flatMap fun part => met part.2) := by
        apply List.Perm.flatMap_left
        intro part hpart
        exact ih (.expr part.2) (List.mem_map_of_mem (mem_children_of_mem_parts hpart)) _ rfl part.1
      have hchildren : ((e.parts config role).flatMap fun part => met part.2).Perm
          (e.children.flatMap met) := by
        have hperm := map_snd_parts_perm hwrites harguments role e
        rw [← List.flatMap_map]
        exact hperm.flatMap_right met
      calc
        (e.events config role).filterMap Event.accessed? ++ e.passedOver role
        _ = (e.parts config role).flatMap accessed ++ (e.parts config role).flatMap passed ++
              (Piece.expr e).named?.toList := by
            rw [hevents, List.append_assoc, List.append_assoc, ← flatMap_passedOver_parts config]
        List.Perm _ (e.children.flatMap met ++ (Piece.expr e).named?.toList) :=
            ((List.flatMap_append_perm _ accessed passed).trans
              (hparts.trans hchildren)).append_right _
        List.Perm _ ((Piece.expr e).named?.toList ++ e.children.flatMap met) :=
            List.perm_append_comm
        _ = Visitor.occurrences.ofPiece (.expr e) := by
            rw [Visitor.occurrences_ofPiece, Piece.children, List.flatMap_map]

end

end Expr

namespace Piece

theorem accessed_perm_of_children {config : Config} {p : Piece} (hnamed : p.named? = none)
    (hevents : p.events config = p.children.flatMap (events config))
    (h : forall c, c ∈ p.children ->
      ((c.events config).filterMap Event.accessed?).Perm (Visitor.occurrences.ofPiece c)) :
    ((p.events config).filterMap Event.accessed?).Perm (Visitor.occurrences.ofPiece p) := by
  rw [hevents, List.filterMap_flatMap, Visitor.occurrences_ofPiece, hnamed]
  exact List.Perm.flatMap_left p.children h

theorem accessed_perm {config : Config} (hwrites : config.trackNestedWrites = true)
    (harguments : config.trackCallArguments = true) (p : Piece) :
    ((p.events config).filterMap Event.accessed?).Perm (Visitor.occurrences.ofPiece p) := by
  induction p using of_children with
  | hstep p ih =>
      cases p with
      | expr e =>
          have h := e.accessed_append_passedOver_perm hwrites harguments .value
          have hquiet : e.passedOver .value = [] := rfl
          rw [hquiet, List.append_nil] at h
          exact h
      | stmt s =>
          exact accessed_perm_of_children rfl
            (events_eq_flatMap_children config nofun nofun nofun) ih
      | function id decl =>
          exact accessed_perm_of_children rfl
            (events_eq_flatMap_children config nofun nofun nofun) ih

theorem accessed_code_perm {config : Config} (hwrites : config.trackNestedWrites = true)
    (harguments : config.trackCallArguments = true) (code : List Piece) :
    ((code.flatMap (events config)).filterMap Event.accessed?).Perm
      (code.flatMap Visitor.occurrences.ofPiece) := by
  rw [List.filterMap_flatMap]
  exact List.Perm.flatMap_left code fun p _ => p.accessed_perm hwrites harguments

theorem accessed_code_subperm (config : Config) (code : List Piece) :
    ((code.flatMap (events config)).filterMap Event.accessed?).Subperm
      (code.flatMap Visitor.occurrences.ofPiece) := by
  have hall : (code.flatMap (events config)).Sublist
      (code.flatMap (events config.trackingAll)) :=
    List.Sublist.flatMap_right code fun p _ => p.events_sublist config.trackedBy_trackingAll
  have hperm : ((code.flatMap (events config.trackingAll)).filterMap Event.accessed?).Perm
      (code.flatMap Visitor.occurrences.ofPiece) := accessed_code_perm rfl rfl code
  exact (hall.filterMap Event.accessed?).subperm.trans hperm.subperm

end Piece

/-!
# Nodes

A node records the reads and writes of its code apart from each other.
-/

theorem Graph.Describes.writesOfCode_eq {g : Graph} {s : Store} {config : Config}
    {linearization : List ContractId} {n : NodeId} {node : Node} {code : List Piece}
    {events : List Event} {path : List NodeId}
    (h : g.Describes s config linearization n node code events path) :
    node.writesOfCode = events.filterMap Event.write? := by
  have hwrites := h.writes_eq
  unfold Node.writesOfCode
  cases hd : node.definition with
  | stateVariable v =>
      rw [hd] at hwrites
      rw [hwrites]
      exact List.erase_cons_head v _
  | function f =>
      rw [hd] at hwrites
      exact hwrites
  | implicitConstructor id =>
      rw [hd] at hwrites
      exact hwrites

/-- The reads and writes of a node are what the visitor meets in its code, each once. -/
theorem occurrences_are_recorded_once {create : Text.Path -> Except String Unit}
    {s : Store} {config : Config} {id : ContractId} {a : Analysis}
    (h : Analyzes create s config id a) {n : NodeId} {node : Node}
    (hnode : a.graph.node n = .ok node) :
    exists code, s.code node.definition = .ok code ∧
      (node.reads ++ node.writesOfCode).Subperm (code.flatMap Visitor.occurrences.ofPiece) ∧
      (config.trackCallArguments = true -> config.trackNestedWrites = true ->
        (node.reads ++ node.writesOfCode).Perm (code.flatMap Visitor.occurrences.ofPiece)) := by
  rcases exists_roots_of_analyzes h with ⟨contract, roots, _, hrooted, hgraph, hunrolled⟩
  rw [hgraph] at hnode
  rcases (Graph.node_ofExecutions_eq_ok_iff hrooted).mp hnode with ⟨e, he, rfl, rfl⟩
  rcases describes_of_mem_forest hrooted hunrolled he with ⟨code, events, hdescribes⟩
  have hevents := walks_visitAll_iff.mp ((hdescribes.walks_iff events).mpr rfl)
  have hsplit := Event.filterMap_read?_append_write?_perm events
  rw [← hdescribes.reads_eq, ← hdescribes.writesOfCode_eq, hevents] at hsplit
  refine ⟨code, hdescribes.code_eq, ?_, ?_⟩
  · exact hsplit.subperm.trans (Piece.accessed_code_subperm config code)
  · intro harguments hwrites
    exact hsplit.trans (Piece.accessed_code_perm hwrites harguments code)

theorem occurrences_nested :
    exists a, Analyzes (fun _ => .ok ()) Nested.store Nested.tracking ⟨0⟩ a ∧
      a.graph.node ⟨0⟩ =
        .ok ⟨.function ⟨0⟩, [.call ⟨1⟩, .call ⟨2⟩, .call ⟨3⟩], [⟨1⟩], [⟨0⟩]⟩ ∧
      exists code, Nested.store.code (.function ⟨0⟩) = .ok code ∧
        [⟨1⟩, ⟨0⟩].Perm (code.flatMap Visitor.occurrences.ofPiece) := by
  rcases Nested.exists_analyzes_tracking with ⟨a, h, hgraph⟩
  have hnode : a.graph.node ⟨0⟩ =
      .ok ⟨.function ⟨0⟩, [.call ⟨1⟩, .call ⟨2⟩, .call ⟨3⟩], [⟨1⟩], [⟨0⟩]⟩ := by
    rw [hgraph]
    rfl
  rcases occurrences_are_recorded_once h hnode with ⟨code, hcode, _, hperm⟩
  exact ⟨a, h, hnode, code, hcode, hperm rfl rfl⟩

end CallForest
