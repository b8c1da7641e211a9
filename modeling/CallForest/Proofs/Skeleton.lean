import CallForest.Proofs.Drawing
import CallForest.Proofs.Occurrences
import CallForest.Proofs.Recoding
import CallForest.Proofs.Warnings

/-!
# What is left without reads and writes

Which calls an execution follows, cuts or sends back does not depend on what it reads and writes. So
where two stores differ in code with the same calls, their analyses have the same nodes, edges, roots
and warnings. They can differ in what the nodes read and write, which the code of each says.
-/

namespace CallForest

/-!
# Skeletons
-/

def Course.skeleton : Course -> Course
  | .done => .done
  | .read _ rest => skeleton rest
  | .write _ rest => skeleton rest
  | .call site body rest => .call site (skeleton body) (skeleton rest)
  | .back site rest => .back site (skeleton rest)
  | .cut site depth rest => .cut site depth (skeleton rest)

def Execution.skeleton (e : Execution) : Execution :=
  { e with course := e.course.skeleton }

def Node.skeleton (n : Node) : Node :=
  { n with reads := [], writes := [] }

def Graph.skeleton (g : Graph) : Graph :=
  { g with nodes := g.nodes.map Node.skeleton }

def EntryPoint.skeleton : EntryPoint -> EntryPoint
  | .constructor contract id name course => .constructor contract id name course.skeleton
  | .implicitConstructor contract id => .implicitConstructor contract id
  | .missingConstructor contract span => .missingConstructor contract span
  | .stateVariable name id course => .stateVariable name id course.skeleton

namespace Course

theorem size_skeleton (course : Course) : course.skeleton.size = course.size := by
  induction course with
  | done => rfl
  | read v rest ih => exact ih
  | write v rest ih => exact ih
  | call site body rest ihBody ihRest => rw [skeleton, size, size, ihBody, ihRest]
  | back site rest ih => exact ih
  | cut site depth rest ih => exact ih

theorem reads_skeleton (course : Course) : course.skeleton.reads = [] := by
  induction course with
  | done => rfl
  | read v rest ih => exact ih
  | write v rest ih => exact ih
  | call site body rest _ ihRest => exact ihRest
  | back site rest ih => exact ih
  | cut site depth rest ih => exact ih

theorem writes_skeleton (course : Course) : course.skeleton.writes = [] := by
  induction course with
  | done => rfl
  | read v rest ih => exact ih
  | write v rest ih => exact ih
  | call site body rest _ ihRest => exact ihRest
  | back site rest ih => exact ih
  | cut site depth rest ih => exact ih

theorem edges_skeleton (frames : List Frame) (next : Nat) (course : Course) :
    course.skeleton.edges frames next = course.edges frames next := by
  induction course generalizing next with
  | done => rfl
  | read v rest ih => exact ih next
  | write v rest ih => exact ih next
  | call site body rest _ ihRest => rw [skeleton, edges, edges, size_skeleton, ihRest]
  | back site rest ih => rw [skeleton, edges, edges, ih]
  | cut site depth rest ih => exact ih next

theorem executions_skeleton (frames : List Frame) (next : Nat) (course : Course) :
    course.skeleton.executions frames next =
      (course.executions frames next).map Execution.skeleton := by
  induction course generalizing frames next with
  | done => rfl
  | read v rest ih => exact ih frames next
  | write v rest ih => exact ih frames next
  | call site body rest ihBody ihRest =>
      rw [skeleton, executions, executions, size_skeleton, List.map_cons, List.map_append, ihRest,
        ← ihBody]
      rfl
  | back site rest ih => exact ih frames next
  | cut site depth rest ih => exact ih frames next

theorem story_skeleton (contract : Ident) (path : List (FunctionId × Ident))
    (told : List FunctionId) (course : Course) :
    (course.skeleton.story contract path told).2 = (course.story contract path told).2 ∧
      (course.skeleton.story contract path told).1.filterMap Notice.warning? =
        (course.story contract path told).1.filterMap Notice.warning? := by
  induction course generalizing path told with
  | done => exact ⟨rfl, rfl⟩
  | read v rest ih => exact ih path told
  | write v rest ih => exact ih path told
  | call site body rest ihBody ihRest =>
      have hbody := ihBody ((site.target, site.name) :: path) told
      have hrest := ihRest path
        (body.story contract ((site.target, site.name) :: path) told).2
      simp only [skeleton, story, List.filterMap_append, hbody.1, hbody.2, hrest.1, hrest.2,
        and_self]
  | back site rest ih =>
      by_cases htold : site.target ∈ told
      · simp only [skeleton, story, if_pos htold, List.filterMap_append, (ih path told).1,
          (ih path told).2, and_self]
      · have hrest := ih path (site.target :: told)
        simp only [skeleton, story, if_neg htold, List.filterMap_append, List.filterMap_cons,
          hrest.1, hrest.2, and_self]
  | cut site depth rest ih =>
      simp only [skeleton, story, List.filterMap_append, List.filterMap_cons, (ih path told).1,
        (ih path told).2, and_self]

end Course

namespace EntryPoint

theorem root?_skeleton (entry : EntryPoint) :
    entry.skeleton.root? = entry.root?.map fun root => (root.1, root.2.skeleton) := by
  cases entry <;> rfl

theorem filterMap_root?_skeleton (entries : List EntryPoint) :
    (entries.map skeleton).filterMap root? =
      (entries.filterMap root?).map fun root => (root.1, root.2.skeleton) := by
  rw [List.filterMap_map, List.map_filterMap]
  exact List.filterMap_congr fun entry _ => entry.root?_skeleton

theorem warnings_storyOfList_skeleton (owner : Ident) (told : List FunctionId)
    (entries : List EntryPoint) :
    (storyOfList owner told (entries.map skeleton)).filterMap Notice.warning? =
      (storyOfList owner told entries).filterMap Notice.warning? := by
  induction entries generalizing told with
  | nil => rfl
  | cons entry entries ih =>
      have hentry : (entry.skeleton.story owner told).2 = (entry.story owner told).2 ∧
          (entry.skeleton.story owner told).1.filterMap Notice.warning? =
            (entry.story owner told).1.filterMap Notice.warning? := by
        cases entry with
        | constructor contract id name course => exact course.story_skeleton owner [(id, name)] told
        | implicitConstructor contract id => exact ⟨rfl, rfl⟩
        | missingConstructor contract span => exact ⟨rfl, rfl⟩
        | stateVariable name id course => exact course.story_skeleton owner [] told
      simp only [List.map_cons, storyOfList, List.filterMap_append, hentry.1, hentry.2, ih]

end EntryPoint

theorem rootExecutions_skeleton (next : Nat) (plan : List (Definition × Course)) :
    rootExecutions next (plan.map fun root => (root.1, root.2.skeleton)) =
      (rootExecutions next plan).map Execution.skeleton := by
  induction plan generalizing next with
  | nil => rfl
  | cons root plan ih =>
      rw [List.map_cons, rootExecutions_cons, Course.size_skeleton, ih]
      rfl

namespace Graph

theorem node_skeleton (e : Execution) : e.skeleton.node = e.node.skeleton := by
  show (⟨_, e.course.skeleton.edges e.frames e.next, e.course.skeleton.reads,
    e.course.skeleton.writes⟩ : Node) = _
  rw [Course.edges_skeleton, Course.reads_skeleton, Course.writes_skeleton]
  rfl

theorem ofExecutions_skeleton (roots : List Execution) :
    ofExecutions (roots.map Execution.skeleton) = (ofExecutions roots).skeleton := by
  have hsubtree : forall e : Execution,
      e.skeleton.subtree = e.subtree.map Execution.skeleton := by
    intro e
    show e.skeleton :: e.course.skeleton.executions e.frames e.next = _
    rw [Course.executions_skeleton]
    rfl
  have hnodes : ((roots.map Execution.skeleton).flatMap Execution.subtree).map Execution.node =
      ((roots.flatMap Execution.subtree).map Execution.node).map Node.skeleton := by
    simp only [List.flatMap_map, List.map_flatMap, hsubtree, List.map_map, Function.comp_def,
      node_skeleton]
  have hroots : (roots.map Execution.skeleton).map Execution.id = roots.map Execution.id := by
    rw [List.map_map]
    rfl
  rw [ofExecutions, hnodes, hroots, skeleton, ofExecutions, List.map_toArray]

theorem ofEntryPoints_skeleton (entries : List EntryPoint) :
    ofEntryPoints (entries.map EntryPoint.skeleton) = (ofEntryPoints entries).skeleton := by
  rw [ofEntryPoints_eq, EntryPoint.filterMap_root?_skeleton, rootExecutions_skeleton,
    ofExecutions_skeleton, ← ofEntryPoints_eq]

end Graph
/-!
# Code with the same calls
-/

namespace Event

def isCall : Event -> Bool
  | .call _ _ => true
  | _ => false

end Event

def SameCalls (es es' : List Event) : Prop :=
  es'.filter Event.isCall = es.filter Event.isCall

namespace Store

theorem Unrolls.exists_append {s : Store} {config : Config} {linearization : List ContractId}
    {path : List Definition} {events : List Event} {course : Course}
    (h : s.Unrolls config linearization path events course) {first : List Event}
    (hfirst : forall event, event ∈ first -> ¬ event.isCall = true) :
    exists course', s.Unrolls config linearization path (first ++ events) course' ∧
      course'.skeleton = course.skeleton := by
  induction first with
  | nil => exact ⟨course, h, rfl⟩
  | cons event first ih =>
      rw [List.forall_mem_cons] at hfirst
      rcases ih hfirst.2 with ⟨course', hcourse', hskeleton⟩
      cases event with
      | read v => exact ⟨.read v course', .read hcourse', hskeleton⟩
      | write v => exact ⟨.write v course', .write hcourse', hskeleton⟩
      | call declared span => exact absurd rfl hfirst.1

namespace Recodes

section

variable {config : Config} {R : Definition -> List Event -> List Event -> Prop} {s s' : Store}
  (h : Recodes config R s s') (hcalls : forall d es es', R d es es' -> SameCalls es es')

include h

theorem resolves {linearization : List ContractId} {declared : FunctionId} {span : Span}
    {site : CallSite} (hsite : s.Resolves linearization declared span site) :
    s'.Resolves linearization declared span site := by
  rcases hsite.stored with ⟨f, hf, hname, hsignature⟩
  rcases h.exists_body hf with ⟨body, hbody, _⟩
  exact ⟨hsite.declared_eq, hsite.span_eq, (h.finalOverride_eq _ _).trans hsite.dispatch, _, hbody,
    hname, hsignature⟩

theorem exists_eventsOf {d : Definition} {events : List Event}
    (hevents : s.eventsOf config d = .ok events) :
    exists events', s'.eventsOf config d = .ok events' ∧ R d events events' := by
  cases d with
  | function f =>
      rcases bind_pure_eq_ok_iff.mp hevents with ⟨decl, hdecl, rfl⟩
      rcases h.exists_body hdecl with ⟨body, hbody, hR⟩
      exact ⟨_, bind_pure_eq_ok_iff.mpr ⟨_, hbody, rfl⟩, hR⟩
  | stateVariable v =>
      rcases bind_pure_eq_ok_iff.mp hevents with ⟨decl, hdecl, rfl⟩
      rcases h.exists_value hdecl with ⟨value, hvalue, hR⟩
      exact ⟨_, bind_pure_eq_ok_iff.mpr ⟨_, hvalue, rfl⟩, hR⟩
  | implicitConstructor c =>
      cases hevents
      exact ⟨[], rfl, h.implicitConstructor c⟩

include hcalls

theorem exists_unrolls {linearization : List ContractId} {path : List Definition}
    {events : List Event} {course : Course}
    (hunrolls : s.Unrolls config linearization path events course) :
    forall events', SameCalls events events' ->
      exists course', s'.Unrolls config linearization path events' course' ∧
        course'.skeleton = course.skeleton := by
  induction hunrolls with
  | done =>
      intro events' hsame
      have hnone := List.filter_eq_nil_iff.mp hsame
      rcases Unrolls.exists_append (.done (s := s')) hnone with ⟨course', hcourse', hskeleton⟩
      rw [List.append_nil] at hcourse'
      exact ⟨course', hcourse', hskeleton⟩
  | read _ ih => exact ih
  | write _ ih => exact ih
  | back hsite hmem _ ih =>
      intro events' hsame
      rcases List.filter_eq_cons_iff.mp hsame with ⟨first, last, rfl, hfirst, _, hlast⟩
      rcases ih last hlast with ⟨rest, hrest, hskeleton⟩
      rcases (Unrolls.back (h.resolves hsite) hmem hrest).exists_append hfirst with
        ⟨course', hcourse', hcourse⟩
      refine ⟨course', hcourse', hcourse.trans ?_⟩
      rw [Course.skeleton, Course.skeleton, hskeleton]
  | cut hsite hfresh hdepth _ ih =>
      intro events' hsame
      rcases List.filter_eq_cons_iff.mp hsame with ⟨first, last, rfl, hfirst, _, hlast⟩
      rcases ih last hlast with ⟨rest, hrest, hskeleton⟩
      rcases (Unrolls.cut (h.resolves hsite) hfresh hdepth hrest).exists_append hfirst with
        ⟨course', hcourse', hcourse⟩
      refine ⟨course', hcourse', hcourse.trans ?_⟩
      rw [Course.skeleton, Course.skeleton, hskeleton]
  | call hsite hfresh hdepth hinner _ _ ihBody ihRest =>
      intro events' hsame
      rcases List.filter_eq_cons_iff.mp hsame with ⟨first, last, rfl, hfirst, _, hlast⟩
      rcases ihRest last hlast with ⟨rest, hrest, hskeleton⟩
      rcases h.exists_eventsOf hinner with ⟨inner', hinner', hR⟩
      rcases ihBody inner' (hcalls _ _ _ hR) with ⟨body, hbody, hbodySkeleton⟩
      rcases (Unrolls.call (h.resolves hsite) hfresh hdepth hinner' hbody hrest).exists_append
        hfirst with ⟨course', hcourse', hcourse⟩
      refine ⟨course', hcourse', hcourse.trans ?_⟩
      rw [Course.skeleton, Course.skeleton, hskeleton, hbodySkeleton]

theorem exists_constructorEntry {linearization : List ContractId} {id : ContractId}
    {entry : EntryPoint} (hentry : s.constructorEntry config linearization id = .ok entry) :
    exists entry', s'.constructorEntry config linearization id = .ok entry' ∧
      entry'.skeleton = entry.skeleton := by
  rcases bind_eq_ok_iff.mp hentry with ⟨contract, hcontract, hrest⟩
  have hcontract' := (h.contract id).trans hcontract
  cases hconstructor : contract.constructor with
  | none =>
      rw [hconstructor] at hrest
      refine ⟨entry, bind_eq_ok_iff.mpr ⟨contract, hcontract', ?_⟩, rfl⟩
      rw [hconstructor]
      exact hrest
  | some f =>
      rw [hconstructor] at hrest
      rcases bind_eq_ok_iff.mp hrest with ⟨decl, hdecl, hrest⟩
      rcases bind_pure_eq_ok_iff.mp hrest with ⟨course, hcourse, rfl⟩
      rcases h.exists_body hdecl with ⟨body, hbody, hR⟩
      rcases h.exists_unrolls hcalls (unrolls_of_unroll hcourse) _ (hcalls _ _ _ hR) with
        ⟨course', hcourse', hskeleton⟩
      refine ⟨_, constructorEntry_of_unrolls hcontract' hconstructor hbody hcourse', ?_⟩
      rw [EntryPoint.skeleton, EntryPoint.skeleton, hskeleton]

theorem exists_stateVariableEntry {linearization : List ContractId} {id : StateVariableId}
    {entry : EntryPoint} (hentry : s.stateVariableEntry config linearization id = .ok entry) :
    exists entry', s'.stateVariableEntry config linearization id = .ok entry' ∧
      entry'.skeleton = entry.skeleton := by
  rcases bind_eq_ok_iff.mp hentry with ⟨decl, hdecl, hrest⟩
  rcases bind_pure_eq_ok_iff.mp hrest with ⟨course, hcourse, rfl⟩
  rcases h.exists_value hdecl with ⟨value, hvalue, hR⟩
  rcases h.exists_unrolls hcalls (unrolls_of_unroll hcourse) _ (hcalls _ _ _ hR) with
    ⟨course', hcourse', hskeleton⟩
  refine ⟨_, stateVariableEntry_of_unrolls hvalue hcourse', ?_⟩
  rw [EntryPoint.skeleton, EntryPoint.skeleton, hskeleton]

theorem exists_entryPoints {linearization : List ContractId} {entries : List EntryPoint}
    (hentries : s.entryPoints config linearization = .ok entries) :
    exists entries', s'.entryPoints config linearization = .ok entries' ∧
      entries'.map EntryPoint.skeleton = entries.map EntryPoint.skeleton := by
  simp only [entryPoints, bind_eq_ok_iff, pure_eq_ok_iff] at hentries ⊢
  rcases hentries with
    ⟨constructors, hconstructors, stored, hstored, initializers, hinitializers, rfl⟩
  rcases exists_mapM_of_step hconstructors fun _ _ hentry =>
    h.exists_constructorEntry hcalls hentry with ⟨constructors', hconstructors', hfirst⟩
  rcases exists_mapM_of_step hinitializers fun _ _ hentry =>
    h.exists_stateVariableEntry hcalls hentry with ⟨initializers', hinitializers', hlast⟩
  refine ⟨_, ⟨constructors', hconstructors', stored,
    (h.inheritedStateVariables_eq _).trans hstored, initializers', hinitializers', rfl⟩, ?_⟩
  rw [List.map_append, List.map_append, hfirst, hlast]

end

end Recodes
end Store
/-!
# Analyses with the same calls
-/

theorem exists_events_of_node {s : Store} {config : Config} {linearization : List ContractId}
    {entries : List EntryPoint} (h : s.entryPoints config linearization = .ok entries)
    {id : NodeId} {n : Node} (hnode : (Graph.ofEntryPoints entries).node id = .ok n) :
    exists events, s.eventsOf config n.definition = .ok events ∧
      n.reads = events.filterMap Event.read? ∧ n.writes = events.filterMap Event.write? := by
  rw [Graph.ofEntryPoints_eq] at hnode
  rcases (Graph.node_ofExecutions_eq_ok_iff (rooted_rootExecutions _)).mp hnode with
    ⟨e, he, rfl, rfl⟩
  rcases unrolled_of_mem_forest (fun _ => unrolled_of_mem_rootExecutions h) e he with
    ⟨events, hevents, hunrolls⟩
  exact ⟨events, hevents, hunrolls.reads_eq, hunrolls.writes_eq⟩

/-- An analysis makes the same calls as another one, and what the code of each node does is related
in the two. -/
structure Analysis.HasCallsOf (R : Definition -> List Event -> List Event -> Prop)
    (a a' : Analysis) : Prop where
  skeleton_eq : a'.graph.skeleton = a.graph.skeleton
  warnings_eq : a'.warnings = a.warnings
  effects : forall id n n', a.graph.node id = .ok n -> a'.graph.node id = .ok n' ->
    exists es es', R n.definition es es' ∧
      n.reads = es.filterMap Event.read? ∧ n.writes = es.filterMap Event.write? ∧
      n'.reads = es'.filterMap Event.read? ∧ n'.writes = es'.filterMap Event.write?

theorem Graph.exists_node_of_skeleton_eq {g g' : Graph} (h : g'.skeleton = g.skeleton)
    {id : NodeId} {n : Node} (hnode : g.node id = .ok n) :
    exists n', g'.node id = .ok n' ∧ n'.skeleton = n.skeleton := by
  have hnodes := congrArg (fun g => g.nodes[id.index]?) h
  simp only [skeleton, Array.getElem?_map, node_eq_ok_iff.mp hnode, Option.map_some,
    Option.map_eq_some_iff] at hnodes
  rcases hnodes with ⟨n', hn', hskeleton⟩
  exact ⟨n', node_eq_ok_iff.mpr hn', hskeleton⟩

theorem Node.skeleton_eq_iff {n n' : Node} :
    n'.skeleton = n.skeleton <-> n'.definition = n.definition ∧ n'.calls = n.calls := by
  simp [skeleton]

namespace Store.Recodes

section

variable {config : Config} {R : Definition -> List Event -> List Event -> Prop} {s s' : Store}
  (h : Recodes config R s s')

include h

theorem exists_events {linearization : List ContractId} {entries entries' : List EntryPoint}
    (hentries : s.entryPoints config linearization = .ok entries)
    (hentries' : s'.entryPoints config linearization = .ok entries') {id : NodeId} {n n' : Node}
    (hnode : (Graph.ofEntryPoints entries).node id = .ok n)
    (hnode' : (Graph.ofEntryPoints entries').node id = .ok n')
    (hdefinition : n'.definition = n.definition) :
    exists es es', R n.definition es es' ∧
      n.reads = es.filterMap Event.read? ∧ n.writes = es.filterMap Event.write? ∧
      n'.reads = es'.filterMap Event.read? ∧ n'.writes = es'.filterMap Event.write? := by
  rcases exists_events_of_node hentries hnode with ⟨es, hes, hreads, hwrites⟩
  rcases exists_events_of_node hentries' hnode' with ⟨es', hes', hreads', hwrites'⟩
  rcases h.exists_eventsOf hes with ⟨found, hfound, hR⟩
  rw [hdefinition] at hes'
  cases hfound.symm.trans hes'
  exact ⟨es, es', hR, hreads, hwrites, hreads', hwrites'⟩

variable (hvariables : forall d es es', R d es es' ->
  es'.filterMap Event.accessed? ⊆ es.filterMap Event.accessed?)

include hvariables

theorem exists_draw {linearization : List ContractId} {entries entries' : List EntryPoint}
    (hentries : s.entryPoints config linearization = .ok entries)
    (hentries' : s'.entryPoints config linearization = .ok entries')
    (hskeleton : (Graph.ofEntryPoints entries').skeleton = (Graph.ofEntryPoints entries).skeleton)
    {create : Text.Path -> Except String Unit} {print : Option String} {drawing : Output}
    (hdrawing : (Graph.ofEntryPoints entries).draw s create print = .ok drawing) :
    exists drawing', (Graph.ofEntryPoints entries').draw s' create print = .ok drawing' := by
  rw [h.draw_eq]
  cases print with
  | none => exact ⟨{}, rfl⟩
  | some path =>
      rw [Graph.draw, bind_eq_ok_iff] at hdrawing
      rcases hdrawing with ⟨dot, hdot, _⟩
      have hlabels := (Graph.exists_toDot_iff (Graph.preorderForest_ofEntryPoints _)).mp ⟨dot, hdot⟩
      refine Graph.exists_draw ?_ create (some path)
      rw [Graph.exists_toDot_iff (Graph.preorderForest_ofEntryPoints _)]
      intro id n' hnode'
      rcases Graph.exists_node_of_skeleton_eq hskeleton.symm hnode' with ⟨n, hnode, hsame⟩
      have hdefinition := (Node.skeleton_eq_iff.mp hsame).1.symm
      rcases h.exists_events hentries hentries' hnode hnode' hdefinition with
        ⟨es, es', hR, hreads, hwrites, hreads', hwrites'⟩
      rcases Node.exists_label_iff.mp (hlabels id n hnode) with ⟨hname, hstored⟩
      rw [Node.exists_label_iff, hdefinition]
      refine ⟨hname, ?_⟩
      intro v hv
      apply hstored
      rw [hreads', hwrites', (Event.filterMap_read?_append_write?_perm es').mem_iff] at hv
      rw [hreads, hwrites, (Event.filterMap_read?_append_write?_perm es).mem_iff]
      exact hvariables _ _ _ hR hv

variable (hcalls : forall d es es', R d es es' -> SameCalls es es')

include hcalls

/-- Code with the same calls and no other variables has an analysis with the same calls. -/
theorem exists_run {create : Text.Path -> Except String Unit} {id : ContractId}
    {a : Analysis} (hrun : Analysis.run create s config id = .ok (.ok a)) :
    exists a', Analysis.run create s' config id = .ok (.ok a') ∧ a.HasCallsOf R a' := by
  rcases run_eq_ok_iff.mp hrun with
    ⟨contract, entries, drawing, hcontract, hhead, hentries, hdrawing, rfl⟩
  rcases h.exists_entryPoints hcalls hentries with ⟨entries', hentries', hsame⟩
  have hskeleton : (Graph.ofEntryPoints entries').skeleton =
      (Graph.ofEntryPoints entries).skeleton := by
    rw [← Graph.ofEntryPoints_skeleton, hsame, Graph.ofEntryPoints_skeleton]
  rcases h.exists_draw hvariables hentries hentries' hskeleton hdrawing with
    ⟨drawing', hdrawing'⟩
  refine ⟨_, run_eq_ok_iff.mpr ⟨contract, entries', drawing', (h.contract id).trans hcontract,
    hhead, hentries', hdrawing', rfl⟩, ?_⟩
  refine {
    skeleton_eq := hskeleton
    warnings_eq := ?_
    effects := ?_ }
  · rw [Analysis.warnings_eq hdrawing', Analysis.warnings_eq hdrawing,
      ← EntryPoint.warnings_storyOfList_skeleton, hsame,
      EntryPoint.warnings_storyOfList_skeleton]
  · intro id n n' hnode hnode'
    rcases Graph.exists_node_of_skeleton_eq hskeleton hnode with ⟨found, hfound, hsame⟩
    cases hfound.symm.trans hnode'
    exact h.exists_events hentries hentries' hnode hnode' (Node.skeleton_eq_iff.mp hsame).1

end

end Store.Recodes
end CallForest
