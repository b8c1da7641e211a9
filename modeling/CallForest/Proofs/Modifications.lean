import CallForest.Proofs.Completeness
import CallForest.Proofs.HeldCode

/-!
# What modifies a state variable

With nested writes and call arguments tracked, nothing in a piece of code is passed over: what a part
of it does is among what the whole does. So every assignment below a root is recorded as a write of
what it stores to, and every write below a root comes from an assignment or from the initialization
of the variable. An operator that changes its operand in place is no assignment. It is recorded as a
read of its operand.
-/

namespace CallForest

/-- A target stores to a state variable: as a name of it, as a chain of accesses based on it, or by
one of the components of a tuple. -/
inductive Expr.StoresTo (v : StateVariableId) : Expr -> Prop where
  | base {target : Expr} :
      target.baseVariable? = some v -> StoresTo v target
  | component {target : Expr} {components : List (Option Expr)} {note : Note} :
      target ∈ components.filterMap id -> StoresTo v target -> StoresTo v (.tuple components note)

namespace Expr

/-!
# Targets
-/

theorem eq_assign_or_tuple_of_mem_parts {config : Config} {role : Role} {e c : Expr}
    (h : (Role.target, c) ∈ e.parts config role) :
    (exists op value note, e = .assign c op value note) ∨
      role = .target ∧ exists components note, e = .tuple components note ∧
        c ∈ components.filterMap id := by
  cases e with
  | literal value note => cases h
  | name ident referent note => cases h
  | call callee arguments note => simp [parts] at h
  | assign target op value note =>
      rcases List.mem_cons.mp h with heq | htarget
      · cases heq
      · split at htarget
        · cases List.mem_singleton.mp htarget
          exact Or.inl ⟨op, value, note, rfl⟩
        · cases htarget
  | member base field note => cases role <;> simp [parts, baseRole] at h
  | index base i note => cases role <;> simp [parts, baseRole] at h
  | binary op left right note => simp [parts] at h
  | unary op operand note => simp [parts] at h
  | conditional condition thenValue elseValue note => simp [parts] at h
  | tuple components note =>
      rcases List.mem_map.mp h with ⟨component, hcomponent, heq⟩
      cases role with
      | value => cases heq
      | location => cases heq
      | target =>
          cases heq
          exact Or.inr ⟨rfl, components, note, rfl, hcomponent⟩

theorem write_mem_writeOfBase_iff {role : Role} {base : Expr} {v : StateVariableId} :
    Event.write v ∈ base.writeOfBase role <-> role = .target ∧ base.baseVariable? = some v := by
  cases role with
  | value => simp [writeOfBase]
  | location => simp [writeOfBase]
  | target => simp [writeOfBase_target]

theorem write_mem_ownEvents {role : Role} {e : Expr} {v : StateVariableId}
    (h : Event.write v ∈ e.ownEvents role) : role = .target ∧ e.baseVariable? = some v := by
  cases e with
  | name ident referent note =>
      cases referent with
      | stateVariable found =>
          cases role with
          | value => cases List.mem_singleton.mp h
          | target =>
              cases List.mem_singleton.mp h
              exact ⟨rfl, rfl⟩
          | location => cases h
      | _ => cases role <;> cases h
  | call callee arguments note =>
      rw [ownEvents, callEvents] at h
      split at h
      · simp at h
      · cases h
  | member base field note => exact write_mem_writeOfBase_iff.mp h
  | index base i note => exact write_mem_writeOfBase_iff.mp h
  | _ => cases h

end Expr

/-!
# Code that contains an expression

What holds of the parts of an expression in some role is handed on to the expression.
-/

section

variable {config : Config} (hwrites : config.trackNestedWrites = true)
  (harguments : config.trackCallArguments = true)

include hwrites harguments

theorem Piece.Contains.exists_role_of_expr {e inside : Expr}
    (h : (Piece.expr e).Contains inside) (role : Role) :
    exists inner, inside.events config inner ⊆ e.events config role := by
  generalize hp : Piece.expr e = p at h
  induction h generalizing e role with
  | self =>
      cases hp
      exact ⟨role, List.Subset.refl _⟩
  | child hchild _ ih =>
      cases hp
      rcases List.mem_map.mp hchild with ⟨c, hc, rfl⟩
      rcases (Expr.mem_children_iff hwrites harguments role).mp hc with ⟨partRole, hpart⟩
      rcases ih partRole rfl with ⟨inner, hsubset⟩
      exact ⟨inner, List.Subset.trans hsubset (Expr.events_subset_of_mem_parts hpart)⟩

theorem Piece.Contains.exists_role {p : Piece} {e : Expr} (h : p.Contains e) :
    exists role, e.events config role ⊆ p.events config := by
  induction h with
  | self => exact ⟨.value, List.Subset.refl _⟩
  | @child p c e hchild hcontains ih =>
      rcases p.isExpr_or_events_eq_flatMap with ⟨whole, rfl⟩ | hevents
      · exact Piece.Contains.exists_role_of_expr hwrites harguments (.child hchild hcontains) .value
      · rcases ih with ⟨role, hsubset⟩
        have hwhole : c.events config ⊆ p.events config := by
          intro event hevent
          rw [hevents]
          exact List.mem_flatMap.mpr ⟨c, hchild, hevent⟩
        exact ⟨role, List.Subset.trans hsubset hwhole⟩

theorem Expr.exists_assign_of_write {v : StateVariableId} (e : Expr) :
    forall role, Event.write v ∈ e.events config role -> role = .target ∧ e.StoresTo v ∨
      exists target op value note,
        (Piece.expr e).Contains (.assign target op value note) ∧ target.StoresTo v := by
  generalize hp : Piece.expr e = p
  induction p using Piece.of_children generalizing e with
  | hstep p ih =>
      subst hp
      intro role hwrite
      rw [events_eq_parts, List.mem_append, List.mem_flatMap] at hwrite
      rcases hwrite with ⟨⟨inner, c⟩, hpart, hwrite⟩ | hown
      · have hchild : Piece.expr c ∈ (Piece.expr e).children :=
          List.mem_map_of_mem ((mem_children_iff hwrites harguments role).mpr ⟨inner, hpart⟩)
        rcases ih (.expr c) hchild c rfl inner hwrite with ⟨rfl, hstores⟩ | hinside
        · -- The part is a target, which makes the whole an assignment or a tuple in this role.
          rcases eq_assign_or_tuple_of_mem_parts hpart with
            ⟨op, value, note, rfl⟩ | ⟨hrole, components, note, rfl, hcomponent⟩
          · exact Or.inr ⟨c, op, value, note, .self, hstores⟩
          · exact Or.inl ⟨hrole, .component hcomponent hstores⟩
        · rcases hinside with ⟨target, op, value, note, hcontains, hstores⟩
          exact Or.inr ⟨target, op, value, note, .child hchild hcontains, hstores⟩
      · rcases write_mem_ownEvents hown with ⟨hrole, hbase⟩
        exact Or.inl ⟨hrole, .base hbase⟩

theorem Piece.exists_assign_of_write {v : StateVariableId} (p : Piece)
    (h : Event.write v ∈ p.events config) :
    exists target op value note,
      p.Contains (.assign target op value note) ∧ target.StoresTo v := by
  induction p using Piece.of_children with
  | hstep p ih =>
      rcases p.isExpr_or_events_eq_flatMap with ⟨e, rfl⟩ | hevents
      · rcases e.exists_assign_of_write hwrites harguments .value h with ⟨hrole, _⟩ | hinside
        · cases hrole
        · exact hinside
      · rw [hevents, List.mem_flatMap] at h
        rcases h with ⟨c, hchild, hwrite⟩
        rcases ih c hchild hwrite with ⟨target, op, value, note, hcontains, hstores⟩
        exact ⟨target, op, value, note, .child hchild hcontains, hstores⟩

end

/-!
# Stores and changes in place
-/

theorem Expr.StoresTo.write_mem_events {v : StateVariableId} {target : Expr}
    (h : target.StoresTo v) (config : Config) :
    Event.write v ∈ target.events config .target := by
  induction h with
  | @base target hbase =>
      by_cases haccess : target.isAccess = true
      · rw [Expr.events_target_of_isAccess haccess, hbase]
        exact List.mem_append_right _ List.mem_cons_self
      · cases target with
        | name ident referent note =>
            cases referent with
            | stateVariable found =>
                cases hbase
                exact List.mem_cons_self
            | _ => cases hbase
        | member base field note => exact absurd rfl haccess
        | index base i note => exact absurd rfl haccess
        | _ => cases hbase
  | component hmem _ ih =>
      rw [Expr.events, Expr.eventsOfSlots_eq_flatMap]
      exact List.mem_flatMap.mpr ⟨_, hmem, ih⟩

theorem Expr.read_mem_events {v : StateVariableId} {e : Expr} (h : e.baseVariable? = some v)
    (config : Config) : Event.read v ∈ e.events config .value := by
  induction e using Expr.baseVariable?.induct with
  | case1 ident referent note =>
      cases referent with
      | stateVariable found =>
          cases h
          exact List.mem_cons_self
      | _ => cases h
  | case2 base i note ih => exact List.mem_append_left _ (ih h)
  | case3 base field note ih => exact ih h
  | case4 e hname hindex hmember =>
      rw [Expr.baseVariable?] at h
      · cases h
      · exact hname
      · exact hindex
      · exact hmember

section

variable {config : Config} (hwrites : config.trackNestedWrites = true)
  (harguments : config.trackCallArguments = true)

include hwrites harguments

theorem Piece.write_mem_events_iff {v : StateVariableId} {p : Piece} :
    Event.write v ∈ p.events config <-> exists target op value note,
      p.Contains (.assign target op value note) ∧ target.StoresTo v := by
  constructor
  · exact p.exists_assign_of_write hwrites harguments
  · intro h
    rcases h with ⟨target, op, value, note, hcontains, hstores⟩
    rcases hcontains.exists_role hwrites harguments with ⟨role, hsubset⟩
    apply hsubset
    rw [Expr.events, if_pos (by rw [hwrites, Bool.or_true])]
    exact List.mem_append_right _ (hstores.write_mem_events config)

theorem Piece.read_mem_events_of_unary {v : StateVariableId} {p : Piece} {op : UnaryOp}
    {operand : Expr} {note : Note} (hcontains : p.Contains (.unary op operand note))
    (hbase : operand.baseVariable? = some v) : Event.read v ∈ p.events config := by
  rcases hcontains.exists_role hwrites harguments with ⟨role, hsubset⟩
  apply hsubset
  rw [Expr.events]
  exact Expr.read_mem_events hbase config

end

/-!
# Below a root
-/

namespace Store

variable {s : Store} {config : Config} {d : Definition} {v : StateVariableId}

theorem meets_iff_exists_piece {event : Event} :
    s.Meets config d event <->
      exists code p, s.code d = .ok code ∧ p ∈ code ∧ event ∈ p.events config := by
  constructor
  · intro h
    rcases h with ⟨code, events, hcode, hwalks, hmem⟩
    rw [walks_visitAll_iff] at hwalks
    rw [hwalks] at hmem
    rcases List.mem_flatMap.mp hmem with ⟨p, hp, hevent⟩
    exact ⟨code, p, hcode, hp, hevent⟩
  · intro h
    rcases h with ⟨code, p, hcode, hp, hevent⟩
    exact ⟨code, _, hcode, walks_visitAll_iff.mpr rfl, List.mem_flatMap.mpr ⟨p, hp, hevent⟩⟩

variable (hwrites : config.trackNestedWrites = true)
  (harguments : config.trackCallArguments = true)

include hwrites harguments

theorem meets_write_iff :
    s.Meets config d (.write v) <-> exists target op value note,
      s.Holds d (.assign target op value note) ∧ target.StoresTo v := by
  rw [meets_iff_exists_piece]
  constructor
  · intro h
    rcases h with ⟨code, p, hcode, hp, hwrite⟩
    rcases p.exists_assign_of_write hwrites harguments hwrite with
      ⟨target, op, value, note, hcontains, hstores⟩
    exact ⟨target, op, value, note, ⟨code, p, hcode, hp, hcontains⟩, hstores⟩
  · intro h
    rcases h with ⟨target, op, value, note, ⟨code, p, hcode, hp, hcontains⟩, hstores⟩
    exact ⟨code, p, hcode, hp, (Piece.write_mem_events_iff hwrites harguments).mpr
      ⟨target, op, value, note, hcontains, hstores⟩⟩

theorem meets_read_of_holds_unary {op : UnaryOp} {operand : Expr} {note : Note}
    (h : s.Holds d (.unary op operand note)) (hbase : operand.baseVariable? = some v) :
    s.Meets config d (.read v) := by
  rcases h with ⟨code, p, hcode, hp, hcontains⟩
  rw [meets_iff_exists_piece]
  exact ⟨code, p, hcode, hp,
    Piece.read_mem_events_of_unary hwrites harguments hcontains hbase⟩

end Store

namespace Graph

def Executes (g : Graph) (s : Store) (start : NodeId) (e : Expr) : Prop :=
  exists ids n d, g.reachable start = .ok ids ∧ n ∈ ids ∧ g.definition n = .ok d ∧ s.Holds d e

/-- What modifies a state variable below a root is recorded. A write is that of an assignment, or
that of an initialization, and no other. What an operator changes in place is recorded as read. -/
structure RecordsModifications (g : Graph) (s : Store) (r : NodeId) : Prop where
  writes : forall v, exists b, g.writesTransitively r v = .ok b ∧
    (b = true <-> g.definition r = .ok (.stateVariable v) ∨
      exists target op value note,
        g.Executes s r (.assign target op value note) ∧ target.StoresTo v)
  reads : forall op operand note v, g.Executes s r (.unary op operand note) ->
    operand.baseVariable? = some v -> g.readsTransitively r v = .ok true

section

variable {s : Store} {config : Config} {linearization : List ContractId}
  {roots : List Execution}

theorem executes_ofExecutions_iff (h : Rooted roots) {e : Execution} (he : e ∈ roots)
    (inside : Expr) :
    (ofExecutions roots).Executes s e.id inside <->
      exists c, c ∈ e.subtree ∧ s.Holds c.definition inside := by
  constructor
  · intro hexecutes
    rcases hexecutes with ⟨ids, n, d, hids, hn, hd, hholds⟩
    rw [reachable_ofExecutions h (mem_forest_of_mem he), Except.ok.injEq] at hids
    subst hids
    rcases (exists_definition_of_subtree_iff h he d).mp ⟨n, hn, hd⟩ with ⟨c, hc, rfl⟩
    exact ⟨c, hc, hholds⟩
  · intro hholds
    rcases hholds with ⟨c, hc, hholds⟩
    rcases (exists_definition_of_subtree_iff h he c.definition).mpr ⟨c, hc, rfl⟩ with ⟨n, hn, hd⟩
    exact ⟨_, n, _, reachable_ofExecutions h (mem_forest_of_mem he), hn, hd, hholds⟩

theorem definition_eq_of_stateVariable
    (hunrolled : forall e, e ∈ roots -> e.Unrolled s config linearization) {e c : Execution}
    (he : e ∈ roots) (hc : c ∈ e.subtree) {v : StateVariableId}
    (hv : c.definition = .stateVariable v) : e.definition = .stateVariable v := by
  have hboth : forall c, c ∈ e.subtree -> c ∈ forest roots ∧
      forall v, c.definition = .stateVariable v -> e.definition = .stateVariable v := by
    refine Execution.forall_mem_subtree ?_ ⟨mem_forest_of_mem he, fun _ => id⟩
    intro p hp c hc
    refine ⟨callees_mem_forest hp.1 hc, ?_⟩
    intro v hv
    rcases ((unrolled_of_mem_forest hunrolled p hp.1).of_mem_callees hc).2.2 with ⟨f, hf⟩
    cases hf.symm.trans hv
  exact (hboth c hc).2 v hv

theorem any_contains_iff {e : Execution} {effects : Node -> List StateVariableId}
    {v : StateVariableId} :
    ((e.subtree.map Execution.node).any fun n => (effects n).contains v) = true <->
      exists c, c ∈ e.subtree ∧ v ∈ effects c.node := by
  simp only [List.any_eq_true, List.mem_map, List.contains_iff_mem, exists_exists_and_eq_and]

variable (hwrites : config.trackNestedWrites = true)
  (harguments : config.trackCallArguments = true)

include hwrites harguments

theorem recordsModifications_ofExecutions (h : Rooted roots)
    (hunrolled : forall e, e ∈ roots -> e.Unrolled s config linearization) {e : Execution}
    (he : e ∈ roots) : (ofExecutions roots).RecordsModifications s e.id := by
  have hnodes := reachableNodes_ofExecutions h (mem_forest_of_mem he)
  have hroot := definition_ofExecutions h (mem_forest_of_mem he)
  constructor
  · intro v
    refine ⟨_, by rw [writesTransitively, hnodes]; rfl, ?_⟩
    rw [any_contains_iff, hroot]
    simp only [executes_ofExecutions_iff h he, Except.ok.injEq]
    constructor
    · intro hwrite
      rcases hwrite with ⟨c, hc, hwrite⟩
      rcases (mem_writes_node_iff h hunrolled he hc v).mp hwrite with hv | hmeets
      · exact Or.inl (definition_eq_of_stateVariable hunrolled he hc hv)
      · rcases (Store.meets_write_iff hwrites harguments).mp hmeets with
          ⟨target, op, value, note, hholds, hstores⟩
        exact Or.inr ⟨target, op, value, note, ⟨c, hc, hholds⟩, hstores⟩
    · intro hwrite
      rcases hwrite with hv | ⟨target, op, value, note, ⟨c, hc, hholds⟩, hstores⟩
      · exact ⟨e, e.self_mem_subtree,
          (mem_writes_node_iff h hunrolled he e.self_mem_subtree v).mpr (Or.inl hv)⟩
      · have hmeets := (Store.meets_write_iff hwrites harguments).mpr
          ⟨target, op, value, note, hholds, hstores⟩
        exact ⟨c, hc, (mem_writes_node_iff h hunrolled he hc v).mpr (Or.inr hmeets)⟩
  · intro op operand note v hexecutes hbase
    rcases (executes_ofExecutions_iff h he _).mp hexecutes with ⟨c, hc, hholds⟩
    have hmeets := Store.meets_read_of_holds_unary hwrites harguments hholds hbase
    have hread := (mem_reads_node_iff h hunrolled he hc v).mpr hmeets
    rw [readsTransitively, hnodes]
    exact congrArg Except.ok (any_contains_iff.mpr ⟨c, hc, hread⟩)

end

end Graph

/-- With nested writes and arguments tracked, the writes below a root are the stores of the
assignments there. -/
theorem modifications_are_recorded {create : Text.Path -> Except String Unit}
    {s : Store} {config : Config} {id : ContractId} {a : Analysis}
    (h : Analyzes create s config id a) (hwrites : config.trackNestedWrites = true)
    (harguments : config.trackCallArguments = true) {r : NodeId} (hr : r ∈ a.graph.roots) :
    a.graph.RecordsModifications s r := by
  rcases exists_roots_of_analyzes h with ⟨contract, roots, _, hrooted, hgraph, hunrolled⟩
  rw [hgraph] at hr ⊢
  rcases Graph.mem_roots_ofExecutions.mp hr with ⟨e, he, rfl⟩
  exact Graph.recordsModifications_ofExecutions hwrites harguments hrooted hunrolled he

/-!
# A change in place

The constructor of `C` increments `x` and adds to `y` by an assignment.
-/

namespace InPlace

def config : Config where
  trackNestedWrites := true
  trackCallArguments := true

def increment : Expr :=
  .unary (.increment false) (Cycle.stored ⟨0⟩) ⟨.uint 256, .dummy⟩

def addition : Expr :=
  .assign (Cycle.stored ⟨1⟩) (.compound .add) (.literal (.number "1") ⟨.uint 256, .dummy⟩)
    ⟨.uint 256, .dummy⟩

def store : Store where
  functions := { entries := #[
    Cycle.function "" .constructor false [.expr increment, .expr addition]] }
  stateVariables := { entries := #[
    ⟨.named "x", .uint 256, none, false, .dummy⟩,
    ⟨.named "y", .uint 256, none, false, .dummy⟩] }
  contracts := { entries := #[
    ⟨.named "C", [⟨0⟩], some ⟨0⟩, [], [⟨0⟩, ⟨1⟩], .dummy⟩] }

def entries : List EntryPoint := [
  .constructor (.named "C") ⟨0⟩ (.named "") (.read ⟨0⟩ (.write ⟨1⟩ .done)),
  .stateVariable (.named "x") ⟨0⟩ (.write ⟨0⟩ .done),
  .stateVariable (.named "y") ⟨1⟩ (.write ⟨1⟩ .done)]

def graph : Graph where
  nodes := #[
    ⟨.function ⟨0⟩, [], [⟨0⟩], [⟨1⟩]⟩,
    ⟨.stateVariable ⟨0⟩, [], [], [⟨0⟩]⟩,
    ⟨.stateVariable ⟨1⟩, [], [], [⟨1⟩]⟩]
  roots := [⟨0⟩, ⟨1⟩, ⟨2⟩]

theorem exists_analyzes :
    exists a, Analyzes (fun _ => .ok ()) store config ⟨0⟩ a ∧ a.graph = graph := by
  have hconstructor : store.constructorEntry config [⟨0⟩] ⟨0⟩ = .ok _ :=
    Store.constructorEntry_of_unrolls rfl rfl rfl (.read (.write .done))
  have hx : store.stateVariableEntry config [⟨0⟩] ⟨0⟩ = .ok _ :=
    Store.stateVariableEntry_of_unrolls rfl (.write .done)
  have hy : store.stateVariableEntry config [⟨0⟩] ⟨1⟩ = .ok _ :=
    Store.stateVariableEntry_of_unrolls rfl (.write .done)
  have hentries : store.entryPoints config [⟨0⟩] = .ok entries := by
    simp only [Store.entryPoints, bind_eq_ok_iff, mapM_eq_ok_iff, pure_eq_ok_iff]
    exact ⟨_, .cons hconstructor .nil, _, rfl, _, .cons hx (.cons hy .nil), rfl⟩
  have hfound : exists a, Analyzes (fun _ => .ok ()) store config ⟨0⟩ a ∧
      a.graph = Graph.ofEntryPoints entries :=
    exists_analyzes_of_entryPoints rfl rfl hentries rfl
  exact hfound

theorem reachable_constructor : graph.reachable ⟨0⟩ = .ok [⟨0⟩] := by
  rw [Graph.reachable_eq_preorderWithin]
  rfl

theorem writesTransitively_constructor (v : StateVariableId) :
    graph.writesTransitively ⟨0⟩ v = .ok ([⟨1⟩].contains v) := by
  rw [Graph.writesTransitively, Graph.reachableNodes, reachable_constructor]
  exact congrArg Except.ok (Bool.or_false _)

theorem executes_increment : graph.Executes store ⟨0⟩ increment :=
  ⟨_, ⟨0⟩, _, reachable_constructor, List.mem_singleton_self _, rfl, _, _, rfl,
    List.mem_cons_self, .child (List.mem_singleton_self _) .self⟩

end InPlace

theorem recordsModifications_inPlace :
    exists a, Analyzes (fun _ => .ok ()) InPlace.store InPlace.config ⟨0⟩ a ∧
      InPlace.config.trackNestedWrites = true ∧ InPlace.config.trackCallArguments = true ∧
      ⟨0⟩ ∈ a.graph.roots ∧ a.graph.RecordsModifications InPlace.store ⟨0⟩ := by
  rcases InPlace.exists_analyzes with ⟨a, h, hgraph⟩
  have hroot : ⟨0⟩ ∈ a.graph.roots := by
    rw [hgraph]
    exact List.mem_cons_self
  exact ⟨a, h, rfl, rfl, hroot, modifications_are_recorded h rfl rfl hroot⟩

/-- The increment modifies `x` below the root of the constructor, and `x` is not written there. -/
theorem increment_is_not_written :
    exists a, Analyzes (fun _ => .ok ()) InPlace.store
        { trackNestedWrites := true, trackCallArguments := true } ⟨0⟩ a ∧
      ⟨0⟩ ∈ a.graph.roots ∧
      a.graph.Executes InPlace.store ⟨0⟩
        (.unary (.increment false) (Cycle.stored ⟨0⟩) ⟨.uint 256, .dummy⟩) ∧
      (Cycle.stored ⟨0⟩).baseVariable? = some ⟨0⟩ ∧
      a.graph.writesTransitively ⟨0⟩ ⟨0⟩ = .ok false := by
  rcases InPlace.exists_analyzes with ⟨a, h, hgraph⟩
  refine ⟨a, h, ?_, ?_, rfl, ?_⟩
  · rw [hgraph]
    exact List.mem_cons_self
  · rw [hgraph]
    exact InPlace.executes_increment
  · rw [hgraph]
    exact InPlace.writesTransitively_constructor ⟨0⟩

end CallForest
