import CallForest.Proofs.Contents
import CallForest.Proofs.Warnings

/-!
# The roots of an analysis

The roots execute the entry points of a contract, in order: for each contract of the linearization,
the most basic one first, its constructor, and then the state variables of these contracts, those of
the most derived one first. A contract without a constructor has an empty root, or a warning and no
root.
-/

namespace CallForest

def Graph.rootDefinitions (g : Graph) : Except Fault (List Definition) :=
  g.roots.mapM g.definition

def Store.linearized (s : Store) (linearization : List ContractId) :
    Except Fault (List (ContractId × ContractDecl)) :=
  linearization.mapM fun id => do
    let contract ← s.contract id
    pure (id, contract)

namespace Config

def constructorRoot? (config : Config) (base : ContractId × ContractDecl) : Option Definition :=
  match base.2.constructor, config.missingConstructor with
  | some f, _ => some (.function f)
  | none, .synthesize => some (.implicitConstructor base.1)
  | none, .skip => none

def constructorWarning? (config : Config) (base : ContractId × ContractDecl) : Option Warning :=
  match base.2.constructor, config.missingConstructor with
  | none, .skip => some ⟨base.2.span, .missingConstructor base.2.name⟩
  | _, _ => none

end Config

/-- The roots of an analysis execute the entry points of some contracts, and what is missing among
them is warned about. -/
structure Store.RootedAtEntryPoints (s : Store) (config : Config)
    (linearization : List ContractId) (bases : List (ContractId × ContractDecl)) (a : Analysis) :
    Prop where
  linearized_eq : s.linearized linearization = .ok bases
  variables_eq : s.inheritedStateVariables linearization =
    .ok (bases.flatMap fun base => base.2.stateVariables)
  rootDefinitions_eq : a.graph.rootDefinitions =
    .ok (bases.reverse.filterMap config.constructorRoot? ++
      (bases.flatMap fun base => base.2.stateVariables).map .stateVariable)
  length_roots : config.missingConstructor = .synthesize ->
    a.graph.roots.length =
      linearization.length + (bases.flatMap fun base => base.2.stateVariables).length
  first_write : forall r v, r ∈ a.graph.roots -> a.graph.definition r = .ok (.stateVariable v) ->
    exists node, a.graph.node r = .ok node ∧ node.writes.head? = some v
  implicit_empty : forall r base, r ∈ a.graph.roots ->
    a.graph.definition r = .ok (.implicitConstructor base) ->
    a.graph.node r = .ok ⟨.implicitConstructor base, [], [], []⟩
  warnings_eq : a.warnings.filter Warning.isMissingConstructor =
    bases.reverse.filterMap config.constructorWarning?

/-!
# Linearized contracts
-/

section

variable {alpha beta gamma : Type}

theorem filterMap_eq_of_forall₂ {r : alpha -> beta -> Prop} {f : alpha -> Option gamma}
    {g : beta -> Option gamma} {xs : List alpha} {ys : List beta} (h : List.Forall₂ r xs ys)
    (hkey : forall x y, x ∈ xs -> r x y -> g y = f x) : ys.filterMap g = xs.filterMap f := by
  induction h with
  | nil => rfl
  | cons hhead _ ih =>
      have hrest := ih fun x y hx => hkey x y (List.mem_cons_of_mem _ hx)
      rw [List.filterMap_cons, List.filterMap_cons, hrest, hkey _ _ List.mem_cons_self hhead]

end

namespace Store

variable {s : Store} {config : Config} {linearization : List ContractId}
  {bases : List (ContractId × ContractDecl)}

theorem linearized_eq_ok_iff :
    s.linearized linearization = .ok bases <->
      linearization = bases.map Prod.fst ∧
        forall base, base ∈ bases -> s.contract base.1 = .ok base.2 := by
  rw [linearized, mapM_eq_ok_iff]
  simp only [bind_pure_eq_ok_iff]
  constructor
  · intro h
    induction h with
    | nil => exact ⟨rfl, nofun⟩
    | cons hhead _ ih =>
        rcases hhead with ⟨contract, hcontract, rfl⟩
        refine ⟨congrArg _ ih.1, List.forall_mem_cons.mpr ⟨hcontract, ih.2⟩⟩
  · intro h
    rcases h with ⟨rfl, hstored⟩
    rw [List.forall₂_map_left_iff, List.forall₂_same]
    intro base hbase
    exact ⟨base.2, hstored base hbase, rfl⟩

theorem inheritedStateVariables_of_linearized (h : s.linearized linearization = .ok bases) :
    s.inheritedStateVariables linearization =
      .ok (bases.flatMap fun base => base.2.stateVariables) := by
  rcases linearized_eq_ok_iff.mp h with ⟨rfl, hstored⟩
  rw [inheritedStateVariables, mapM_map_eq_ok hstored]
  exact congrArg Except.ok (List.flatMap_map _ _ _)

theorem exists_linearized_of_inheritedStateVariables {ids : List StateVariableId}
    (h : s.inheritedStateVariables linearization = .ok ids) :
    exists bases, s.linearized linearization = .ok bases ∧
      ids = bases.flatMap fun base => base.2.stateVariables := by
  rcases bind_pure_eq_ok_iff.mp h with ⟨contracts, hcontracts, _⟩
  have hbases : exists bases, s.linearized linearization = .ok bases := by
    refine exists_mapM_eq_ok_iff.mpr ?_
    intro id hid
    rcases exists_mapM_eq_ok_iff.mp ⟨contracts, hcontracts⟩ id hid with ⟨contract, hcontract⟩
    exact ⟨(id, contract), bind_pure_eq_ok_iff.mpr ⟨contract, hcontract, rfl⟩⟩
  rcases hbases with ⟨bases, hbases⟩
  rw [inheritedStateVariables_of_linearized hbases] at h
  cases h
  exact ⟨bases, hbases, rfl⟩

end Store

/-!
# Entry points
-/

namespace EntryPoint

def missing? : EntryPoint -> Option Warning
  | missingConstructor contract span => some ⟨span, .missingConstructor contract⟩
  | _ => none

theorem filter_isMissingConstructor_ownWarnings (entry : EntryPoint) :
    entry.ownWarnings.filter Warning.isMissingConstructor = entry.missing?.toList := by
  have hcourse : forall course : Course,
      course.cutWarnings.filter Warning.isMissingConstructor = [] := by
    intro course
    rw [List.filter_eq_nil_iff]
    intro w hw hmissing
    have hdepth := Course.isDepthLimit_of_mem_cutWarnings hw
    rcases w with ⟨span, cause⟩
    cases cause with
    | recursiveCall function chain => cases hdepth
    | depthLimit function depth => cases hmissing
    | missingConstructor contract => cases hdepth
  cases entry with
  | constructor contract id name course => exact hcourse course
  | implicitConstructor contract id => rfl
  | missingConstructor contract span => rfl
  | stateVariable name id course => exact hcourse course

theorem missingWarnings_storyOfList (owner : Ident) (told : List FunctionId)
    (entries : List EntryPoint) :
    warningsOf Warning.isMissingConstructor (storyOfList owner told entries) =
      entries.filterMap missing? := by
  rw [warningsOf_storyOfList (fun _ _ => rfl), List.filter_flatMap,
    List.filterMap_eq_flatMap_toList]
  simp only [filter_isMissingConstructor_ownWarnings]

end EntryPoint

namespace Store

variable {s : Store} {config : Config} {linearization : List ContractId}

theorem root?_and_missing?_of_constructorEntry {base : ContractId × ContractDecl}
    {entry : EntryPoint} (hstored : s.contract base.1 = .ok base.2)
    (h : s.constructorEntry config linearization base.1 = .ok entry) :
    entry.root?.map Prod.fst = config.constructorRoot? base ∧
      entry.missing? = config.constructorWarning? base := by
  rw [constructorEntry, hstored, bind_eq_ok_iff] at h
  rcases h with ⟨contract, hcontract, h⟩
  cases hcontract
  rw [Config.constructorRoot?, Config.constructorWarning?]
  split at h
  · next f hf =>
      rcases bind_eq_ok_iff.mp h with ⟨decl, _, hentry⟩
      rcases bind_pure_eq_ok_iff.mp hentry with ⟨course, _, rfl⟩
      rw [hf]
      exact ⟨rfl, rfl⟩
  · next hnone =>
      rw [hnone]
      split at h
      · next hmissing =>
          cases h
          rw [hmissing]
          exact ⟨rfl, rfl⟩
      · next hmissing =>
          cases h
          rw [hmissing]
          exact ⟨rfl, rfl⟩

theorem root?_and_missing?_of_stateVariableEntry {v : StateVariableId} {entry : EntryPoint}
    (h : s.stateVariableEntry config linearization v = .ok entry) :
    entry.root?.map Prod.fst = some (.stateVariable v) ∧ entry.missing? = none := by
  rcases bind_eq_ok_iff.mp h with ⟨decl, _, hentry⟩
  rcases bind_pure_eq_ok_iff.mp hentry with ⟨course, _, rfl⟩
  exact ⟨rfl, rfl⟩

theorem exists_linearized_of_entryPoints {entries : List EntryPoint}
    (h : s.entryPoints config linearization = .ok entries) :
    exists bases, s.linearized linearization = .ok bases ∧
      (entries.filterMap EntryPoint.root?).map Prod.fst =
        bases.reverse.filterMap config.constructorRoot? ++
          (bases.flatMap fun base => base.2.stateVariables).map .stateVariable ∧
      entries.filterMap EntryPoint.missing? =
        bases.reverse.filterMap config.constructorWarning? := by
  simp only [entryPoints, bind_eq_ok_iff, mapM_eq_ok_iff, pure_eq_ok_iff] at h
  rcases h with ⟨constructors, hconstructors, stored, hvariables, initializers, hinitializers, rfl⟩
  rcases exists_linearized_of_inheritedStateVariables hvariables with ⟨bases, hbases, rfl⟩
  rcases linearized_eq_ok_iff.mp hbases with ⟨rfl, hstored⟩
  rw [← List.map_reverse, List.forall₂_map_left_iff] at hconstructors
  have hconstructor : forall base entry, base ∈ bases.reverse ->
      s.constructorEntry config (bases.map Prod.fst) base.1 = .ok entry ->
      entry.root?.map Prod.fst = config.constructorRoot? base ∧
        entry.missing? = config.constructorWarning? base :=
    fun base entry hbase hentry => root?_and_missing?_of_constructorEntry
      (hstored base (List.mem_reverse.mp hbase)) hentry
  refine ⟨bases, hbases, ?_, ?_⟩
  · rw [List.map_filterMap, List.filterMap_append, ← List.filterMap_eq_map]
    congr 1
    · exact filterMap_eq_of_forall₂ hconstructors
        fun base entry hbase hentry => (hconstructor base entry hbase hentry).1
    · exact filterMap_eq_of_forall₂ hinitializers
        fun v entry _ hentry => (root?_and_missing?_of_stateVariableEntry hentry).1
  · have hnone : initializers.filterMap EntryPoint.missing? = [] :=
      (filterMap_eq_of_forall₂ hinitializers
        fun v entry _ hentry => (root?_and_missing?_of_stateVariableEntry hentry).2).trans
          (List.filterMap_eq_nil_iff.mpr fun _ _ => rfl)
    rw [List.filterMap_append, hnone, List.append_nil]
    exact filterMap_eq_of_forall₂ hconstructors
      fun base entry hbase hentry => (hconstructor base entry hbase hentry).2

end Store

theorem Config.length_filterMap_constructorRoot? {config : Config}
    (h : config.missingConstructor = .synthesize) (bases : List (ContractId × ContractDecl)) :
    (bases.filterMap config.constructorRoot?).length = bases.length := by
  rw [List.filterMap_length_eq_length]
  intro base _
  rw [constructorRoot?, h]
  cases base.2.constructor <;> rfl

/-!
# Roots
-/

theorem map_definition_rootExecutions (next : Nat) (plan : List (Definition × Course)) :
    (rootExecutions next plan).map Execution.definition = plan.map Prod.fst := by
  induction plan generalizing next with
  | nil => rfl
  | cons root plan ih =>
      rw [rootExecutions, List.map_cons, List.map_cons, ih]
      rfl

theorem Graph.rootDefinitions_ofExecutions {roots : List Execution} (h : Rooted roots) :
    (ofExecutions roots).rootDefinitions = .ok (roots.map Execution.definition) :=
  mapM_map_eq_ok fun _ he => definition_ofExecutions h (mem_forest_of_mem he)

theorem Graph.rootDefinitions_ofEntryPoints (entries : List EntryPoint) :
    (ofEntryPoints entries).rootDefinitions =
      .ok ((entries.filterMap EntryPoint.root?).map Prod.fst) := by
  rw [ofEntryPoints_eq, rootDefinitions_ofExecutions (rooted_rootExecutions _),
    map_definition_rootExecutions]

theorem Graph.length_roots_of_rootDefinitions {g : Graph} {definitions : List Definition}
    (h : g.rootDefinitions = .ok definitions) : g.roots.length = definitions.length :=
  (mapM_eq_ok_iff.mp h).length_eq

theorem Graph.exists_execution_of_mem_roots {roots : List Execution} (h : Rooted roots)
    {r : NodeId} (hr : r ∈ (ofExecutions roots).roots) {d : Definition}
    (hd : (ofExecutions roots).definition r = .ok d) :
    exists e, e ∈ roots ∧ e.definition = d ∧ (ofExecutions roots).node r = .ok e.node := by
  rcases mem_roots_ofExecutions.mp hr with ⟨e, he, rfl⟩
  rw [definition_ofExecutions h (mem_forest_of_mem he), Except.ok.injEq] at hd
  exact ⟨e, he, hd, node_ofExecutions h (mem_forest_of_mem he)⟩

theorem Execution.Unrolled.node_of_implicitConstructor {s : Store} {config : Config}
    {linearization : List ContractId} {e : Execution} {base : ContractId}
    (h : e.Unrolled s config linearization)
    (hdefinition : e.definition = .implicitConstructor base) :
    e.node = ⟨.implicitConstructor base, [], [], []⟩ := by
  rcases h with ⟨events, hevents, hunrolls⟩
  rw [hdefinition] at hevents
  cases hevents
  cases hcourse : e.course with
  | done =>
      rw [node, hdefinition, hcourse]
      rfl
  | _ =>
      rw [hcourse] at hunrolls
      cases hunrolls

theorem Execution.Unrolled.head?_writes_of_stateVariable {s : Store} {config : Config}
    {linearization : List ContractId} {e : Execution} {v : StateVariableId}
    (h : e.Unrolled s config linearization) (hdefinition : e.definition = .stateVariable v) :
    e.node.writes.head? = some v := by
  rcases h with ⟨events, hevents, hunrolls⟩
  rcases exists_code_of_eventsOf hevents with ⟨code, _, rfl⟩
  have hwrites : e.node.writes = _ := hunrolls.writes_eq
  rw [hwrites, hdefinition]
  rfl

/-- The roots are exactly the entry points, in order, and the handler receives a warning for each
constructor that is missing and not replaced. -/
theorem roots_are_entry_points {create : Text.Path -> Except String Unit}
    {s : Store} {config : Config} {id : ContractId} {a : Analysis} {before after : Handler}
    (h : Analyzing.runIn before (analyzeContract create s config id) =
      .ok ((.ok a.graph, after), a.toOutput)) :
    exists contract bases, s.contract id = .ok contract ∧
      after = { before with warnings := before.warnings ++ a.warnings } ∧
      s.RootedAtEntryPoints config contract.linearization bases a := by
  rcases run_and_after_of_runIn_analyzeContract h with ⟨hrun, hafter⟩
  rcases run_eq_ok_iff.mp hrun with
    ⟨contract, entries, drawing, hcontract, _, hentries, hdrawing, rfl⟩
  rcases exists_roots_of_analyzes ⟨before, after, h⟩ with
    ⟨contract', roots, hcontract', hrooted, hgraph, hunrolled⟩
  rcases Store.exists_linearized_of_entryPoints hentries with ⟨bases, hbases, hroots, hmissing⟩
  have hdefinitions := Graph.rootDefinitions_ofEntryPoints entries
  rw [hroots] at hdefinitions
  refine ⟨contract, bases, hcontract, hafter, ?_⟩
  exact {
    linearized_eq := hbases
    variables_eq := Store.inheritedStateVariables_of_linearized hbases
    rootDefinitions_eq := hdefinitions
    length_roots := by
      intro hsynthesize
      rw [Graph.length_roots_of_rootDefinitions hdefinitions, List.length_append,
        Config.length_filterMap_constructorRoot? hsynthesize, List.length_reverse,
        List.length_map, (Store.linearized_eq_ok_iff.mp hbases).1, List.length_map]
    first_write := by
      intro r v hr hdefinition
      rw [hgraph] at hr hdefinition ⊢
      rcases Graph.exists_execution_of_mem_roots hrooted hr hdefinition with ⟨e, he, hv, hnode⟩
      exact ⟨e.node, hnode, (hunrolled e he).head?_writes_of_stateVariable hv⟩
    implicit_empty := by
      intro r base hr hdefinition
      rw [hgraph] at hr hdefinition ⊢
      rcases Graph.exists_execution_of_mem_roots hrooted hr hdefinition with ⟨e, he, hv, hnode⟩
      rw [hnode, (hunrolled e he).node_of_implicitConstructor hv]
    warnings_eq := by
      rw [Analysis.warnings_eq hdrawing, ← hmissing]
      exact EntryPoint.missingWarnings_storyOfList contract.name [] entries }

example : Cycle.graph.rootDefinitions =
    .ok [.function ⟨0⟩, .implicitConstructor ⟨0⟩, .stateVariable ⟨0⟩, .stateVariable ⟨1⟩] := rfl

theorem rootedAtEntryPoints_cycle :
    exists (a : Analysis) (before after : Handler), Analyzing.runIn before
        (analyzeContract (fun _ => .ok ()) Cycle.store {} ⟨0⟩) =
          .ok ((.ok a.graph, after), a.toOutput) ∧
      exists contract bases, Cycle.store.contract ⟨0⟩ = .ok contract ∧
        after = { before with warnings := before.warnings ++ a.warnings } ∧
        Cycle.store.RootedAtEntryPoints {} contract.linearization bases a := by
  rcases Cycle.exists_analyzes with ⟨a, ⟨before, after, h⟩, _⟩
  exact ⟨a, before, after, h, roots_are_entry_points h⟩

end CallForest
