import CallForest.Proofs.Cycles
import CallForest.Proofs.Overriding
import CallForest.Proofs.Parts

/-!
# Call sites and their edges

Without a limit on the nesting, a node has one edge for each call in its code, in the order of
evaluation. The edge leads to a node of the final override of the function that the callee's type
declares. What the callee looks like makes no difference, so a call through `super` runs the declared
function only if that function is its own final override. Where an override calls the function that
it overrides, the call comes back to the override.
-/

namespace CallForest

structure Callee where
  expr : Expr
  declared : FunctionId

namespace Expr

def AccessesSuper (e : Expr) : Prop :=
  exists ident name note field note',
    e = .member (.name ident (.builtin name) note) field note' ∧ name.text = "super"

/-!
# Callees in code

The call of an expression follows the calls in its parts.
-/

def ownCallee? : Expr -> Option Callee
  | .call callee _ _ => callee.type.declaredFunction?.map fun f => ⟨callee, f⟩
  | _ => none

def callees (config : Config) (role : Role) (e : Expr) : List Callee :=
  (e.parts config role).attach.flatMap (fun part => callees config part.1.1 part.1.2) ++
    e.ownCallee?.toList
termination_by sizeOf e
decreasing_by
  exact Piece.sizeOf_lt_of_mem_exprChildren (mem_children_of_mem_parts part.2)

theorem callees_eq_parts (config : Config) (role : Role) (e : Expr) :
    e.callees config role =
      (e.parts config role).flatMap (fun part => part.2.callees config part.1) ++
        e.ownCallee?.toList := by
  rw [callees, List.flatMap_subtype (g := fun part => part.2.callees config part.1)
    fun _ _ => rfl, List.unattach_attach]

theorem filterMap_declared?_writeOfBase (role : Role) (base : Expr) :
    (base.writeOfBase role).filterMap Event.declared? = [] := by
  cases role with
  | value => rfl
  | location => rfl
  | target => rw [writeOfBase_target, filterMap_declared?_map_write]

theorem filterMap_declared?_ownEvents (role : Role) (e : Expr) :
    (e.ownEvents role).filterMap Event.declared? = e.ownCallee?.toList.map Callee.declared := by
  cases e with
  | name ident referent note => cases role <;> cases referent <;> rfl
  | call callee arguments note =>
      rw [ownEvents, callEvents, ownCallee?]
      cases callee.type.declaredFunction? with
      | none => rfl
      | some f => rfl
  | member base field note => exact filterMap_declared?_writeOfBase role base
  | index base i note => exact filterMap_declared?_writeOfBase role base
  | _ => rfl

theorem filterMap_declared?_events (config : Config) (role : Role) (e : Expr) :
    (e.events config role).filterMap Event.declared? =
      (e.callees config role).map Callee.declared := by
  induction role, e using callees.induct config with
  | case1 role e ih =>
      rw [events_eq_parts, callees_eq_parts, List.filterMap_append, List.map_append,
        filterMap_declared?_ownEvents, List.filterMap_flatMap, List.map_flatMap]
      congr 1
      apply List.flatMap_congr
      intro part hpart
      exact ih ⟨part, hpart⟩

end Expr

namespace Piece

def callees (config : Config) : Piece -> List Callee
  | .expr e => e.callees config .value
  | p => p.children.attach.flatMap fun c => callees config c.1
termination_by p => sizeOf p
decreasing_by
  exact sizeOf_lt_of_mem_children c.2

theorem callees_expr (config : Config) (e : Expr) :
    callees config (.expr e) = e.callees config .value := by
  rw [callees]

theorem callees_eq_children (config : Config) {p : Piece} (h : forall e, p ≠ .expr e) :
    p.callees config = p.children.flatMap (callees config) := by
  rw [callees, List.flatMap_subtype (g := callees config) fun _ _ => rfl, List.unattach_attach]
  exact h

theorem filterMap_declared?_events (config : Config) (p : Piece) :
    (p.events config).filterMap Event.declared? = (p.callees config).map Callee.declared := by
  induction p using callees.induct with
  | case1 e => rw [callees_expr, events, e.filterMap_declared?_events]
  | case2 p hexpr ih =>
      have hevents := (isExpr_or_events_eq_flatMap p).resolve_left fun h => h.elim hexpr
      rw [hevents, callees_eq_children config hexpr, List.filterMap_flatMap, List.map_flatMap]
      apply List.flatMap_congr
      intro c hc
      exact ih ⟨c, hc⟩

theorem filterMap_declared?_flatMap (config : Config) (code : List Piece) :
    (code.flatMap (events config)).filterMap Event.declared? =
      (code.flatMap (callees config)).map Callee.declared := by
  rw [List.filterMap_flatMap, List.map_flatMap]
  exact List.flatMap_congr fun p _ => p.filterMap_declared?_events config

end Piece

/-!
# Edges
-/

namespace Graph

/-- Where the call of a callee leads from the node `n`. -/
structure BindsCallee (g : Graph) (s : Store) (linearization : List ContractId) (n : NodeId)
    (callee : Callee) (edge : Edge) : Prop where
  dispatched : exists target, s.finalOverride linearization callee.declared = .ok target ∧
    g.definition edge.target = .ok (.function target)
  not_virtual : forall f, s.function callee.declared = .ok f -> f.dispatchesVirtually = false ->
    g.definition edge.target = .ok (.function callee.declared)
  super_iff : callee.expr.AccessesSuper ->
    (g.definition edge.target = .ok (.function callee.declared) <->
      s.finalOverride linearization callee.declared = .ok callee.declared)
  super_of_override : callee.expr.AccessesSuper -> forall f,
    g.definition n = .ok (.function f) ->
    s.finalOverride linearization callee.declared = .ok f -> edge = .recursive n

section

variable {s : Store} {config : Config} {linearization : List ContractId}

theorem RecordsCalls.forall₂_dispatched {g : Graph} {path : List NodeId}
    {calls : List FunctionId} {edges : List Edge}
    (h : g.RecordsCalls s config linearization path calls edges)
    (hdepth : config.maxCallDepth = none) :
    List.Forall₂ (fun declared edge => exists target,
      s.finalOverride linearization declared = .ok target ∧
        g.definition (Edge.target edge) = .ok (.function target)) calls edges := by
  induction h with
  | done => exact .nil
  | back hdispatch _ hdefinition _ ih => exact .cons ⟨_, hdispatch, hdefinition⟩ ih
  | cut _ _ hexceeds _ _ =>
      rw [Config.exceedsDepth_eq_false hdepth] at hexceeds
      cases hexceeds
  | call hdispatch _ _ hdefinition _ ih => exact .cons ⟨_, hdispatch, hdefinition⟩ ih

variable {roots : List Execution}

theorem eq_recursive_of_definition_target (h : Rooted roots)
    (hunrolled : forall e, e ∈ roots -> e.Unrolled s config linearization) {e : Execution}
    (he : e ∈ forest roots) {edge : Edge} (hedge : edge ∈ e.node.calls)
    (htarget : (ofExecutions roots).definition edge.target =
      (ofExecutions roots).definition e.id) : edge = .recursive e.id := by
  have hself : e.id ∈ e.lineage := List.mem_cons_self
  cases edge with
  | call c =>
      rcases call_target_of_mem_forest h hunrolled he hedge with ⟨f, hf, habsent⟩
      exact absurd (htarget.symm.trans hf) (habsent e.id hself)
  | recursive a =>
      rcases recursive_target_of_mem_forest h hunrolled he hedge with ⟨_, f, hf, hunique⟩
      rw [hunique e.id hself (htarget.symm.trans hf)]

theorem bindsCallee_of_dispatched (h : Rooted roots)
    (hunrolled : forall e, e ∈ roots -> e.Unrolled s config linearization) {e : Execution}
    (he : e ∈ forest roots) {callee : Callee} {edge : Edge} (hedge : edge ∈ e.node.calls)
    {target : FunctionId} (hdispatch : s.finalOverride linearization callee.declared = .ok target)
    (htarget : (ofExecutions roots).definition edge.target = .ok (.function target)) :
    (ofExecutions roots).BindsCallee s linearization e.id callee edge where
  dispatched := ⟨target, hdispatch, htarget⟩
  not_virtual := by
    intro f hf hvirtual
    cases hdispatch.symm.trans (Store.finalOverride_eq_self hf hvirtual)
    exact htarget
  super_iff := by
    intro _
    rw [htarget, hdispatch, Except.ok.injEq, Except.ok.injEq, Definition.function.injEq]
  super_of_override := by
    intro _ f hf hfound
    cases hdispatch.symm.trans hfound
    exact eq_recursive_of_definition_target h hunrolled he hedge (htarget.trans hf.symm)

theorem forall₂_bindsCallee_ofExecutions (h : Rooted roots)
    (hunrolled : forall e, e ∈ roots -> e.Unrolled s config linearization)
    (hdepth : config.maxCallDepth = none) {e : Execution} (he : e ∈ forest roots) :
    exists code, s.code e.definition = .ok code ∧
      List.Forall₂ ((ofExecutions roots).BindsCallee s linearization e.id)
        (code.flatMap (Piece.callees config)) e.node.calls := by
  rcases describes_of_mem_forest h hunrolled he with ⟨code, events, hdescribes⟩
  have hevents := (hdescribes.walks_iff _).mp (walks_visitAll_iff.mpr rfl)
  have hdispatched := hdescribes.recordsCalls.forall₂_dispatched hdepth
  rw [← hevents, Piece.filterMap_declared?_flatMap, List.forall₂_map_left_iff] at hdispatched
  have hedges := (List.forall₂_and_left (p := fun edge => edge ∈ e.node.calls) _ _).mpr
    ⟨fun _ hedge => hedge, hdispatched.flip⟩
  refine ⟨code, hdescribes.code_eq, hedges.flip.imp ?_⟩
  intro callee edge hboth
  rcases hboth with ⟨hedge, target, hdispatch, htarget⟩
  exact bindsCallee_of_dispatched h hunrolled he hedge hdispatch htarget

end

end Graph

/-- Every call in the code of a node, with its edge: a call through `super` is dispatched like any
other call, so it stays with the declared function exactly if that is its own final override. -/
theorem super_calls_are_dispatched {create : Text.Path -> Except String Unit}
    {s : Store} {config : Config} {id : ContractId} {a : Analysis}
    (h : Analyzes create s config id a) (hdepth : config.maxCallDepth = none) {n : NodeId}
    {node : Node} (hnode : a.graph.node n = .ok node) :
    exists contract code, s.contract id = .ok contract ∧ s.code node.definition = .ok code ∧
      List.Forall₂ (a.graph.BindsCallee s contract.linearization n)
        (code.flatMap (Piece.callees config)) node.calls := by
  rcases exists_roots_of_analyzes h with ⟨contract, roots, hcontract, hrooted, hgraph, hunrolled⟩
  rw [hgraph] at hnode ⊢
  rcases (Graph.node_ofExecutions_eq_ok_iff hrooted).mp hnode with ⟨e, he, rfl, rfl⟩
  rcases Graph.forall₂_bindsCallee_ofExecutions hrooted hunrolled hdepth he with
    ⟨code, hcode, hbinds⟩
  exact ⟨contract, code, hcontract, hcode, hbinds⟩

/-!
# An override that calls what it overrides

The function `f` of `B` writes `x`. In `C`, which inherits from `B`, an override of `f` calls `f`
through `super`, and the constructor of `C` calls the override.
-/

namespace SuperCall

def superMember : Expr :=
  .member (.name (.named "super") (.builtin (.named "super")) ⟨.magic (.named "super"), .dummy⟩)
    (.named "f") ⟨.function [] [] (some (.function ⟨0⟩)), .dummy⟩

def superCall : Expr :=
  .call superMember [] ⟨.unit, .dummy⟩

def store : Store where
  functions := { entries := #[
    Cycle.function "f" .function true
      [.expr (.assign (Cycle.stored ⟨0⟩) .plain (.literal (.number "1") ⟨.uint 256, .dummy⟩)
        ⟨.uint 256, .dummy⟩)],
    Cycle.function "f" .function false [.expr superCall],
    Cycle.function "" .constructor false [.expr (Cycle.call ⟨1⟩)]] }
  stateVariables := { entries := #[⟨.named "x", .uint 256, none, false, .dummy⟩] }
  contracts := { entries := #[
    ⟨.named "C", [⟨0⟩, ⟨1⟩], some ⟨2⟩, [⟨1⟩], [], .dummy⟩,
    ⟨.named "B", [⟨1⟩], none, [⟨0⟩], [⟨0⟩], .dummy⟩] }

def callOfF : CallSite :=
  ⟨⟨1⟩, ⟨1⟩, .named "f", "f()", .dummy⟩

def superCallOfF : CallSite :=
  ⟨⟨0⟩, ⟨1⟩, .named "f", "f()", .dummy⟩

def entries : List EntryPoint := [
  .implicitConstructor (.named "B") ⟨1⟩,
  .constructor (.named "C") ⟨2⟩ (.named "") (.call callOfF (.back superCallOfF .done) .done),
  .stateVariable (.named "x") ⟨0⟩ (.write ⟨0⟩ .done)]

def graph : Graph where
  nodes := #[
    ⟨.implicitConstructor ⟨1⟩, [], [], []⟩,
    ⟨.function ⟨2⟩, [.call ⟨2⟩], [], []⟩,
    ⟨.function ⟨1⟩, [.recursive ⟨2⟩], [], []⟩,
    ⟨.stateVariable ⟨0⟩, [], [], [⟨0⟩]⟩]
  roots := [⟨0⟩, ⟨1⟩, ⟨3⟩]

theorem unrolls_constructor :
    store.Unrolls {} [⟨0⟩, ⟨1⟩] [.function ⟨2⟩] [.call ⟨1⟩ .dummy]
      (.call callOfF (.back superCallOfF .done) .done) := by
  refine .call ⟨rfl, rfl, rfl, _, rfl, rfl, by decide⟩ (by decide) rfl rfl ?_ .done
  exact .back ⟨rfl, rfl, rfl, _, rfl, rfl, by decide⟩ (by decide) .done

theorem exists_analyzes :
    exists a, Analyzes (fun _ => .ok ()) store {} ⟨0⟩ a ∧ a.graph = graph := by
  have hconstructor : store.constructorEntry {} [⟨0⟩, ⟨1⟩] ⟨0⟩ = .ok _ :=
    Store.constructorEntry_of_unrolls rfl rfl rfl unrolls_constructor
  have hx : store.stateVariableEntry {} [⟨0⟩, ⟨1⟩] ⟨0⟩ = .ok _ :=
    Store.stateVariableEntry_of_unrolls rfl (.write .done)
  have hentries : store.entryPoints {} [⟨0⟩, ⟨1⟩] = .ok entries := by
    simp only [Store.entryPoints, bind_eq_ok_iff, mapM_eq_ok_iff, pure_eq_ok_iff]
    exact ⟨_, .cons rfl (.cons hconstructor .nil), _, rfl, _, .cons hx .nil, rfl⟩
  have hfound : exists a, Analyzes (fun _ => .ok ()) store {} ⟨0⟩ a ∧
      a.graph = Graph.ofEntryPoints entries :=
    exists_analyzes_of_entryPoints rfl rfl hentries rfl
  exact hfound

theorem callees_superCall : superCall.callees {} .value = [⟨superMember, ⟨0⟩⟩] := by
  rw [Expr.callees_eq_parts]
  show superMember.callees {} .value ++ [] ++ [_] = [_]
  rw [Expr.callees_eq_parts]
  show (Expr.callees {} .value (.name _ _ _) ++ []) ++ [] ++ [] ++ [_] = [_]
  rw [Expr.callees_eq_parts]
  rfl

theorem callees_code :
    [Piece.stmt (.expr superCall)].flatMap (Piece.callees {}) = [⟨superMember, ⟨0⟩⟩] := by
  have hstmt : forall e, Piece.stmt (.expr superCall) ≠ .expr e := by
    intro e h
    cases h
  rw [List.flatMap_singleton, Piece.callees_eq_children {} hstmt]
  show [Piece.expr superCall].flatMap _ = _
  rw [List.flatMap_singleton, Piece.callees_expr, callees_superCall]

theorem accessesSuper_superMember : superMember.AccessesSuper :=
  ⟨_, _, _, _, _, rfl, rfl⟩

theorem writesTransitively_constructor : graph.writesTransitively ⟨1⟩ ⟨0⟩ = .ok false := by
  have hreachable : graph.reachable ⟨1⟩ = .ok [⟨1⟩, ⟨2⟩] := by
    rw [Graph.reachable_eq_preorderWithin]
    rfl
  rw [Graph.writesTransitively, Graph.reachableNodes, hreachable]
  rfl

end SuperCall

theorem bindsCallee_superCall :
    exists a, Analyzes (fun _ => .ok ()) SuperCall.store {} ⟨0⟩ a ∧
      ({} : Config).maxCallDepth = none ∧
      a.graph.node ⟨2⟩ = .ok ⟨.function ⟨1⟩, [.recursive ⟨2⟩], [], []⟩ ∧
      exists contract code, SuperCall.store.contract ⟨0⟩ = .ok contract ∧
        SuperCall.store.code (.function ⟨1⟩) = .ok code ∧
        List.Forall₂ (a.graph.BindsCallee SuperCall.store contract.linearization ⟨2⟩)
          (code.flatMap (Piece.callees {})) [.recursive ⟨2⟩] := by
  rcases SuperCall.exists_analyzes with ⟨a, h, hgraph⟩
  have hnode : a.graph.node ⟨2⟩ = .ok ⟨.function ⟨1⟩, [.recursive ⟨2⟩], [], []⟩ := by
    rw [hgraph]
    rfl
  exact ⟨a, h, rfl, hnode, super_calls_are_dispatched h rfl hnode⟩

/-- The call through `super` leads to the override instead of the function of `B`, and the write of
`x` is lost. -/
theorem super_call_is_redirected :
    exists a code, Analyzes (fun _ => .ok ()) SuperCall.store {} ⟨0⟩ a ∧
      ({} : Config).maxCallDepth = none ∧
      a.graph.node ⟨2⟩ = .ok ⟨.function ⟨1⟩, [.recursive ⟨2⟩], [], []⟩ ∧
      SuperCall.store.code (.function ⟨1⟩) = .ok code ∧
      (¬ List.Forall₂ (fun callee edge => callee.expr.AccessesSuper ->
          a.graph.definition (Edge.target edge) = .ok (.function callee.declared))
        (code.flatMap (Piece.callees {})) [.recursive ⟨2⟩]) ∧
      a.graph.writesTransitively ⟨1⟩ ⟨0⟩ = .ok false := by
  rcases SuperCall.exists_analyzes with ⟨a, h, hgraph⟩
  refine ⟨a, [.stmt (.expr SuperCall.superCall)], h, rfl, ?_, rfl, ?_, ?_⟩
  · rw [hgraph]
    rfl
  · rw [hgraph, SuperCall.callees_code]
    intro hbound
    cases (List.forall₂_cons.mp hbound).1 SuperCall.accessesSuper_superMember
  · rw [hgraph]
    exact SuperCall.writesTransitively_constructor

end CallForest
