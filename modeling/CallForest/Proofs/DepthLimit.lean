import CallForest.Proofs.Contents
import CallForest.Proofs.Drawing
import CallForest.Proofs.Truncation
import CallForest.Proofs.Warnings

/-!
# What a depth limit changes

The events of a piece of code do not depend on the depth limit. So an analysis with a limit unrolls
the same events as one without, and its courses are the truncated courses. It ends well wherever the
analysis without a limit does, its graph is the truncated graph, and it warns once for each call
that leads from the lowest level that is left to a node that is not.
-/

namespace CallForest

def Config.limitedTo (config : Config) (limit : Nat) : Config :=
  { config with maxCallDepth := some limit }

/-!
# Events
-/

theorem Walks.limitedTo {config : Config} {task : Task} {es : List Event}
    (h : Walks config task es) (limit : Nat) : Walks (config.limitedTo limit) task es := by
  induction h with
  | nil => exact .nil
  | cons _ _ ihHead ihTail => exact .cons ihHead ihTail
  | readVariable => exact .readVariable
  | otherName hnone => exact .otherName hnone
  | callFunction htype _ _ ihCallee ihArguments => exact .callFunction htype ihCallee ihArguments
  | callOther htype _ _ ihCallee ihArguments => exact .callOther htype ihCallee ihArguments
  | assign htracked _ _ ihValue ihTarget => exact .assign htracked ihValue ihTarget
  | assignUntracked hname htracked _ ihValue => exact .assignUntracked hname htracked ihValue
  | other hname hcall hassign _ ih => exact .other hname hcall hassign ih
  | storeVariable => exact .storeVariable
  | storeOtherName hnone => exact .storeOtherName hnone
  | storeAccess haccess _ ih => exact .storeAccess haccess ih
  | storeTuple _ ih => exact .storeTuple ih
  | storeOther hname haccess htuple _ ih => exact .storeOther hname haccess htuple ih
  | storeNil => exact .storeNil
  | storeCons _ _ ihHead ihTail => exact .storeCons ihHead ihTail
  | locateName => exact .locateName
  | locateMember _ ih => exact .locateMember ih
  | locateIndex _ _ ihInner ihIndex => exact .locateIndex ihInner ihIndex
  | locateOther hname haccess _ ih => exact .locateOther hname haccess ih

theorem Piece.events_limitedTo (config : Config) (limit : Nat) :
    Piece.events (config.limitedTo limit) = Piece.events config := by
  funext p
  exact ((Piece.walked config p).visit.limitedTo limit).yields.symm

theorem FunctionDecl.events_limitedTo (f : FunctionDecl) (config : Config) (limit : Nat) :
    f.events (config.limitedTo limit) = f.events config := by
  rw [events_eq_flatMap, events_eq_flatMap, Piece.events_limitedTo]

theorem StateVariableDecl.events_limitedTo (d : StateVariableDecl) (config : Config)
    (limit : Nat) (v : StateVariableId) :
    d.events (config.limitedTo limit) v = d.events config v := by
  rw [events_eq_cons, events_eq_cons, Piece.events_limitedTo]

theorem Store.eventsOf_limitedTo (s : Store) (config : Config) (limit : Nat) (d : Definition) :
    s.eventsOf (config.limitedTo limit) d = s.eventsOf config d := by
  cases d with
  | function f => simp only [eventsOf, FunctionDecl.events_limitedTo]
  | stateVariable v => simp only [eventsOf, StateVariableDecl.events_limitedTo]
  | implicitConstructor id => rfl

/-!
# Courses and entry points

A path that is longer than the limit is where a truncated course is cut.
-/

namespace Config

theorem exceedsDepth_limitedTo (config : Config) (limit depth : Nat) :
    (config.limitedTo limit).exceedsDepth depth = decide (limit < depth) :=
  rfl

end Config

def EntryPoint.truncate (limit : Nat) : EntryPoint -> EntryPoint
  | .constructor contract id name course =>
      .constructor contract id name (course.truncate limit 1)
  | .implicitConstructor contract id => .implicitConstructor contract id
  | .missingConstructor contract span => .missingConstructor contract span
  | .stateVariable name id course => .stateVariable name id (course.truncate limit 1)

theorem EntryPoint.root?_truncate (limit : Nat) (entry : EntryPoint) :
    (entry.truncate limit).root? =
      entry.root?.map fun root => (root.1, root.2.truncate limit 1) := by
  cases entry <;> rfl

namespace Store

section

variable {s : Store} {config : Config} {linearization : List ContractId}
  (hdepth : config.maxCallDepth = none) (limit : Nat)

include hdepth

theorem Unrolls.truncate {path : List Definition} {events : List Event} {course : Course}
    (h : Unrolls s config linearization path events course) :
    Unrolls s (config.limitedTo limit) linearization path events
      (course.truncate limit path.length) := by
  induction h with
  | done => exact .done
  | read _ ih => exact .read ih
  | write _ ih => exact .write ih
  | back hsite hmem _ ih => exact .back hsite hmem ih
  | cut _ _ hexceeds _ _ =>
      rw [Config.exceedsDepth_eq_false hdepth] at hexceeds
      cases hexceeds
  | @call path _ _ _ _ site body rest hsite hfresh _ hinner _ _ ihBody ihRest =>
      by_cases hlevel : path.length ≤ limit
      · rw [Course.truncate_call_of_le hlevel]
        have hadmitted : (config.limitedTo limit).exceedsDepth path.length = false := by
          rw [Config.exceedsDepth_limitedTo, decide_eq_false_iff_not, Nat.not_lt]
          exact hlevel
        rw [← eventsOf_limitedTo s config limit] at hinner
        exact .call hsite hfresh hadmitted hinner ihBody ihRest
      · rw [Nat.not_le] at hlevel
        rw [Course.truncate_call_of_lt hlevel]
        have hexceeds : (config.limitedTo limit).exceedsDepth path.length = true := by
          rw [Config.exceedsDepth_limitedTo, decide_eq_true_eq]
          exact hlevel
        exact .cut hsite hfresh hexceeds ihRest

theorem unrollDefinition_limitedTo {definition : Definition} {events : List Event}
    {course : Course}
    (h : s.unrollDefinition config linearization definition events = .ok course) :
    s.unrollDefinition (config.limitedTo limit) linearization definition events =
      .ok (course.truncate limit 1) :=
  unroll_of_unrolls ((unrolls_of_unroll h).truncate hdepth limit)

theorem constructorEntry_limitedTo {id : ContractId} {entry : EntryPoint}
    (h : s.constructorEntry config linearization id = .ok entry) :
    s.constructorEntry (config.limitedTo limit) linearization id =
      .ok (entry.truncate limit) := by
  rw [constructorEntry, bind_eq_ok_iff] at h ⊢
  rcases h with ⟨contract, hcontract, h⟩
  refine ⟨contract, hcontract, ?_⟩
  cases hconstructor : contract.constructor with
  | some f =>
      rw [hconstructor] at h
      rcases bind_eq_ok_iff.mp h with ⟨decl, hdecl, hentry⟩
      rcases bind_pure_eq_ok_iff.mp hentry with ⟨course, hcourse, rfl⟩
      have hlimited := unrollDefinition_limitedTo hdepth limit hcourse
      rw [← decl.events_limitedTo config limit] at hlimited
      exact bind_eq_ok_iff.mpr ⟨decl, hdecl, bind_pure_eq_ok_iff.mpr ⟨_, hlimited, rfl⟩⟩
  | none =>
      have hsame : config.missingConstructor = (config.limitedTo limit).missingConstructor := rfl
      rw [hconstructor] at h
      dsimp only at h ⊢
      rw [hsame] at h
      cases hmissing : (config.limitedTo limit).missingConstructor <;> rw [hmissing] at h <;>
        cases h <;> rfl

theorem stateVariableEntry_limitedTo {id : StateVariableId} {entry : EntryPoint}
    (h : s.stateVariableEntry config linearization id = .ok entry) :
    s.stateVariableEntry (config.limitedTo limit) linearization id =
      .ok (entry.truncate limit) := by
  rw [stateVariableEntry, bind_eq_ok_iff] at h ⊢
  rcases h with ⟨decl, hdecl, h⟩
  rw [bind_pure_eq_ok_iff] at h
  rcases h with ⟨course, hcourse, rfl⟩
  have hlimited := unrollDefinition_limitedTo hdepth limit hcourse
  rw [← decl.events_limitedTo config limit] at hlimited
  exact ⟨decl, hdecl, bind_pure_eq_ok_iff.mpr ⟨_, hlimited, rfl⟩⟩

theorem entryPoints_limitedTo {entries : List EntryPoint}
    (h : s.entryPoints config linearization = .ok entries) :
    s.entryPoints (config.limitedTo limit) linearization =
      .ok (entries.map (EntryPoint.truncate limit)) := by
  simp only [entryPoints, bind_eq_ok_iff, mapM_eq_ok_iff, pure_eq_ok_iff] at h ⊢
  rcases h with ⟨constructors, hconstructors, stored, hstored, initializers, hinitializers, rfl⟩
  refine ⟨constructors.map (EntryPoint.truncate limit), ?_, stored, hstored,
    initializers.map (EntryPoint.truncate limit), ?_, List.map_append.symm⟩
  · rw [List.forall₂_map_right_iff]
    exact hconstructors.imp fun _ _ => constructorEntry_limitedTo hdepth limit
  · rw [List.forall₂_map_right_iff]
    exact hinitializers.imp fun _ _ => stateVariableEntry_limitedTo hdepth limit

end

end Store

theorem EntryPoint.filterMap_root?_truncate (limit : Nat) (entries : List EntryPoint) :
    (entries.map (truncate limit)).filterMap root? =
      (entries.filterMap root?).map fun root => (root.1, root.2.truncate limit 1) := by
  rw [List.filterMap_map, List.map_filterMap]
  exact List.filterMap_congr fun entry _ => entry.root?_truncate limit

theorem Graph.ofEntryPoints_truncate (entries : List EntryPoint) (limit : Nat) :
    ofEntryPoints (entries.map (EntryPoint.truncate limit)) =
      (ofEntryPoints entries).truncate limit := by
  rw [ofEntryPoints_eq, EntryPoint.filterMap_root?_truncate,
    ofExecutions_rootExecutions_truncate, ofEntryPoints_eq]

/-!
# Warnings

The warnings about the depth limit are told where a course is cut. In a truncated course a cut
stands in the place of each execution on the first level that is deleted.
-/

def depthWarnings (notices : List Notice) : List Warning :=
  (notices.filterMap Notice.warning?).filter Warning.isDepthLimit

theorem depthWarnings_append (first second : List Notice) :
    depthWarnings (first ++ second) = depthWarnings first ++ depthWarnings second :=
  warningsOf_append Warning.isDepthLimit first second

namespace EntryPoint

def cutWarnings (plan : List (Definition × Course)) : List Warning :=
  plan.flatMap fun root => root.2.cutWarnings

theorem filter_isDepthLimit_ownWarnings (entry : EntryPoint) :
    entry.ownWarnings.filter Warning.isDepthLimit = cutWarnings entry.root?.toList := by
  have hcourse : forall course : Course,
      course.cutWarnings.filter Warning.isDepthLimit = course.cutWarnings ++ [] := by
    intro course
    rw [List.append_nil, List.filter_eq_self]
    exact fun w => Course.isDepthLimit_of_mem_cutWarnings
  cases entry with
  | constructor contract id name course => exact hcourse course
  | implicitConstructor contract id => rfl
  | missingConstructor contract span => rfl
  | stateVariable name id course => exact hcourse course

theorem depthWarnings_storyOfList (owner : Ident) (told : List FunctionId)
    (entries : List EntryPoint) :
    depthWarnings (storyOfList owner told entries) = cutWarnings (entries.filterMap root?) := by
  refine (warningsOf_storyOfList (fun _ _ => rfl) owner told entries).trans ?_
  rw [List.filter_flatMap, cutWarnings, List.filterMap_eq_flatMap_toList, List.flatMap_assoc]
  simp only [filter_isDepthLimit_ownWarnings]
  rfl

end EntryPoint

theorem Graph.depthWarnings_draw {g : Graph} {s : Store}
    {create : Text.Path -> Except String Unit} {print : Option String}
    {drawing : Output} (h : g.draw s create print = .ok drawing) :
    depthWarnings drawing.notices = [] := by
  rw [depthWarnings, filterMap_warning?_draw h]
  rfl

def Warning.Names (s : Store) (depth : Nat) (w : Warning) (d : Definition) : Prop :=
  exists f decl, d = .function f ∧ s.function f = .ok decl ∧
    w.cause = .depthLimit decl.name depth

section

variable {s : Store} {config : Config} {linearization : List ContractId}
  (hdepth : config.maxCallDepth = none)

include hdepth

theorem Store.Unrolls.forall₂_cutWarnings (limit : Nat) {path : List Definition}
    {events : List Event} {course : Course}
    (h : s.Unrolls config linearization path events course) (frames : List Frame) (next : Nat)
    (hframes : frames.length = path.length) (hlevel : path.length ≤ limit + 1) :
    List.Forall₂ (fun e w => w.Names s (limit + 1) (Execution.definition e))
      ((course.executions frames next).filter (Execution.onLevel (limit + 1)))
      (course.truncate limit path.length).cutWarnings := by
  induction h generalizing frames next with
  | done => exact .nil
  | read _ ih => exact ih frames next hframes hlevel
  | write _ ih => exact ih frames next hframes hlevel
  | back _ _ _ ih => exact ih frames next hframes hlevel
  | cut _ _ hexceeds _ _ =>
      rw [Config.exceedsDepth_eq_false hdepth] at hexceeds
      cases hexceeds
  | @call path _ _ _ _ site body rest hsite _ _ _ _ _ ihBody ihRest =>
      have hentered : (Course.entered frames next site body).level = path.length := hframes
      have hrest := ihRest frames (next + (body.size + 1)) hframes hlevel
      rw [Course.executions]
      by_cases hle : path.length ≤ limit
      · -- The call is followed, and what it enters stands above the first deleted level.
        have habove : ¬ (Course.entered frames next site body).onLevel (limit + 1) = true := by
          rw [Execution.onLevel_iff, hentered]
          omega
        have hinside : (Course.entered frames next site body).frames.length =
            (Definition.function site.target :: path).length :=
          congrArg (· + 1) hframes
        have hbody := ihBody _ (next + 1) hinside (Nat.succ_le_succ hle)
        rw [Course.truncate_call_of_le hle, List.filter_cons_of_neg habove, List.filter_append]
        exact List.rel_append hbody hrest
      · -- The call is cut, and in its place stands one execution on this level.
        rw [Nat.not_le] at hle
        have heq : path.length = limit + 1 := Nat.le_antisymm hlevel hle
        have hon : (Course.entered frames next site body).onLevel (limit + 1) = true := by
          rw [Execution.onLevel_iff, hentered, heq]
        have hsubtree := (Course.entered frames next site body).filter_level_subtree
        rw [hentered, heq] at hsubtree
        rcases hsite.stored with ⟨f, hf, hname, _⟩
        have hnames : (site.depthWarning path.length).Names s (limit + 1)
            (.function site.target) := by
          refine ⟨site.target, f, rfl, hf, ?_⟩
          rw [CallSite.depthWarning, hname, heq]
        show List.Forall₂ _ (((Course.entered frames next site body).subtree ++ _).filter _) _
        rw [Course.truncate_call_of_lt hle, List.filter_append, hsubtree]
        exact .cons hnames hrest

theorem forall₂_cutWarnings_plan (limit : Nat) (plan : List (Definition × Course))
    (h : forall definition course, (definition, course) ∈ plan ->
      exists events, s.Unrolls config linearization [definition] events course) (next : Nat) :
    List.Forall₂ (fun e w => w.Names s (limit + 1) (Execution.definition e))
      ((forest (rootExecutions next plan)).filter (Execution.onLevel (limit + 1)))
      (EntryPoint.cutWarnings (plan.map fun root => (root.1, root.2.truncate limit 1))) := by
  induction plan generalizing next with
  | nil => exact .nil
  | cons root plan ih =>
      rcases root with ⟨definition, course⟩
      rcases h definition course List.mem_cons_self with ⟨events, hunrolls⟩
      have hroot := hunrolls.forall₂_cutWarnings hdepth limit [⟨definition, ⟨next⟩⟩] (next + 1) rfl
        (Nat.le_add_left 1 limit)
      have hrest := ih (fun definition course hmem => h definition course
        (List.mem_cons_of_mem _ hmem)) (next + (course.size + 1))
      rw [rootExecutions_cons, forest_cons, List.filter_append, List.map_cons]
      exact List.rel_append hroot hrest

end

/-- The depth warnings of an analysis with a limit name, in order, what the nodes on the first level
that is deleted execute. -/
theorem forall₂_depthWarnings {s : Store} {config : Config} {linearization : List ContractId}
    (hdepth : config.maxCallDepth = none) {entries : List EntryPoint}
    (h : s.entryPoints config linearization = .ok entries) (owner : Ident) (limit : Nat) :
    List.Forall₂ (fun c w => exists d, (Graph.ofEntryPoints entries).definition c = .ok d ∧
        w.Names s (limit + 1) d)
      ((Graph.ofEntryPoints entries).nodesAt (limit + 1))
      (depthWarnings (EntryPoint.storyOfList owner [] (entries.map (EntryPoint.truncate limit)))) := by
  let plan := entries.filterMap EntryPoint.root?
  have hrooted := rooted_rootExecutions plan
  have hwarnings := forall₂_cutWarnings_plan hdepth limit plan
    (fun definition course hmem => (unrolls_of_mem_entryPoints h hmem).imp fun _ => And.right) 0
  have hdefinition : forall e,
      e ∈ (forest (rootExecutions 0 plan)).filter (Execution.onLevel (limit + 1)) ->
      (Graph.ofEntryPoints entries).definition e.id = .ok e.definition := by
    intro e he
    rw [Graph.ofEntryPoints_eq]
    exact Graph.definition_ofExecutions hrooted (List.mem_of_mem_filter he)
  rw [EntryPoint.depthWarnings_storyOfList, EntryPoint.filterMap_root?_truncate,
    Graph.ofEntryPoints_eq, Graph.nodesAt_ofExecutions hrooted, List.forall₂_map_left_iff]
  rw [Graph.ofEntryPoints_eq] at hdefinition
  refine ((List.forall₂_and_left _ _).mpr ⟨hdefinition, hwarnings⟩).imp ?_
  intro e w hboth
  exact ⟨e.definition, hboth.1, hboth.2⟩

/-!
# Drawings

A label does not depend on the calls of its node. So a truncated graph can be drawn if the whole
graph can.
-/

namespace Graph

theorem exists_node_of_node_restrict {g : Graph} {keep : NodeId -> Bool} {id : NodeId} {n : Node}
    (h : (g.restrict keep).node id = .ok n) :
    exists m node, g.node m = .ok node ∧ n = node.restrict keep (renumber keep) := by
  rw [node_eq_ok_iff, restrict, List.getElem?_toArray] at h
  rcases List.mem_map.mp (List.mem_of_getElem? h) with ⟨entry, hentry, rfl⟩
  exact ⟨entry.1, entry.2, mem_entries_iff.mp (List.mem_of_mem_filter hentry), rfl⟩

theorem exists_draw_truncate {entries : List EntryPoint} {s : Store}
    {create : Text.Path -> Except String Unit} {print : Option String}
    {drawing : Output} (h : (ofEntryPoints entries).draw s create print = .ok drawing)
    (limit : Nat) :
    exists drawing, ((ofEntryPoints entries).truncate limit).draw s create print = .ok drawing := by
  cases print with
  | none => exact ⟨{}, rfl⟩
  | some path =>
      rw [draw, bind_eq_ok_iff] at h
      rcases h with ⟨dot, hdot, _⟩
      have hforest : ((ofEntryPoints entries).truncate limit).PreorderForest := by
        rw [← ofEntryPoints_truncate]
        exact preorderForest_ofEntryPoints _
      have hlabels := (exists_toDot_iff (preorderForest_ofEntryPoints entries)).mp ⟨dot, hdot⟩
      have htruncated : exists dot, ((ofEntryPoints entries).truncate limit).toDot s = .ok dot := by
        rw [exists_toDot_iff hforest]
        intro id n hnode
        rcases exists_node_of_node_restrict hnode with ⟨m, node, hfull, rfl⟩
        exact hlabels m node hfull
      exact exists_draw htruncated create (some path)

end Graph

/-!
# The analysis with a limit
-/

structure Truncates (s : Store) (limit : Nat) (full : Graph) (limited : Analysis) : Prop where
  graph_eq : limited.graph = full.truncate limit
  depth_root_le : forall r, r ∈ limited.graph.roots ->
    exists depth, limited.graph.depth r = .ok depth ∧ depth ≤ limit
  calls_increasing : (full.nodesAt (limit + 1)).Pairwise fun n m => n.index < m.index
  calls_warned : List.Forall₂
    (fun c w => exists f decl, full.definition c = .ok (.function f) ∧ s.function f = .ok decl ∧
      w.cause = .depthLimit decl.name (limit + 1))
    (full.nodesAt (limit + 1)) (limited.warnings.filter Warning.isDepthLimit)

/-- A depth limit deletes what is nested too deeply, warns about each call that leads there, and
changes nothing else. -/
theorem depth_limit_truncates {create : Text.Path -> Except String Unit} {s : Store}
    {config : Config} {id : ContractId} {a : Analysis} (h : Analyzes create s config id a)
    (hdepth : config.maxCallDepth = none) (limit : Nat) (before : Handler) :
    exists limited : Analysis, Analyzing.runIn before
        (analyzeContract create s { config with maxCallDepth := some limit } id) =
          .ok ((.ok limited.graph, { before with warnings := before.warnings ++ limited.warnings }),
            limited.toOutput) ∧
      Truncates s limit a.graph limited := by
  rcases run_eq_ok_iff.mp (analyzes_iff_run_eq_ok.mp h) with
    ⟨contract, entries, drawing, hcontract, hhead, hentries, hdrawing, rfl⟩
  have hentriesLimited := Store.entryPoints_limitedTo hdepth limit hentries
  rcases Graph.exists_draw_truncate hdrawing limit with ⟨drawingLimited, hdrawingLimited⟩
  rw [← Graph.ofEntryPoints_truncate] at hdrawingLimited
  have hrun := run_eq_ok_iff.mpr ⟨contract, _, _, hcontract, hhead, hentriesLimited,
    hdrawingLimited, rfl⟩
  refine ⟨_, runIn_analyzeContract_of_run_eq_ok hrun before, ?_⟩
  exact {
    graph_eq := Graph.ofEntryPoints_truncate entries limit
    depth_root_le := by
      intro r hr
      rw [Graph.ofEntryPoints_truncate, Graph.ofEntryPoints_eq] at hr ⊢
      exact Graph.depth_root_truncate_le _ limit hr
    calls_increasing := by
      rw [Graph.ofEntryPoints_eq]
      exact Graph.pairwise_nodesAt_ofExecutions (rooted_rootExecutions _) (limit + 1)
    calls_warned := by
      show List.Forall₂ _ _ (depthWarnings (_ ++ drawingLimited.notices))
      rw [depthWarnings_append, Graph.depthWarnings_draw hdrawingLimited, List.append_nil]
      refine (forall₂_depthWarnings hdepth hentries contract.name limit).imp ?_
      intro c w hnamed
      rcases hnamed with ⟨d, hd, f, decl, rfl, hdecl, hcause⟩
      exact ⟨f, decl, hd, hdecl, hcause⟩ }

theorem truncates_cycle :
    exists a, Analyzes (fun _ => .ok ()) Cycle.store {} ⟨0⟩ a ∧ a.graph = Cycle.graph ∧
      ({} : Config).maxCallDepth = none ∧
      exists limited : Analysis, Analyzing.runIn {}
          (analyzeContract (fun _ => .ok ()) Cycle.store { maxCallDepth := some 1 } ⟨0⟩) =
            .ok ((.ok limited.graph, { warnings := limited.warnings }), limited.toOutput) ∧
        Truncates Cycle.store 1 a.graph limited := by
  rcases Cycle.exists_analyzes with ⟨a, h, hgraph⟩
  exact ⟨a, h, hgraph, rfl, depth_limit_truncates h rfl 1 {}⟩

end CallForest
