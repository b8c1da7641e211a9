import CallForest.Proofs.Completeness
import CallForest.Proofs.Records

/-!
# The order of effects

The effects below a node are listed node by node: what the node accesses itself comes first, then
what is accessed below its callees, call by call. An access behind a call is recorded after those
inside the call, but it is listed before them. So the order of the list is the order in which the
variables are first accessed if no node accesses anything behind a call, and not in general.
-/

namespace CallForest

/-!
# First occurrences
-/

section

variable {alpha : Type} [DecidableEq alpha]

theorem nodup_eraseDups (xs : List alpha) : xs.eraseDups.Nodup := by
  induction hlength : xs.length using Nat.strongRecOn generalizing xs with
  | ind length ih =>
      cases xs with
      | nil => exact List.nodup_nil
      | cons x xs =>
          rw [List.eraseDups_cons, List.nodup_cons, List.mem_eraseDups, List.mem_filter]
          refine ⟨by simp, ih _ ?_ _ rfl⟩
          rw [← hlength, List.length_cons]
          exact Nat.lt_succ_of_le (List.length_filter_le _ _)

theorem filter_eraseDups (p : alpha -> Bool) (xs : List alpha) :
    xs.eraseDups.filter p = (xs.filter p).eraseDups := by
  induction hlength : xs.length using Nat.strongRecOn generalizing xs with
  | ind length ih =>
      cases xs with
      | nil => rfl
      | cons x xs =>
          have hlt : (xs.filter fun y => !y == x).length < length := by
            rw [← hlength, List.length_cons]
            exact Nat.lt_succ_of_le (List.length_filter_le _ _)
          rw [List.eraseDups_cons, List.filter_cons, List.filter_cons, ih _ hlt _ rfl]
          cases hx : p x with
          | true =>
              rw [if_pos rfl, if_pos rfl, List.eraseDups_cons, List.filter_filter,
                List.filter_filter]
              simp only [Bool.and_comm]
          | false =>
              rw [if_neg Bool.false_ne_true, if_neg Bool.false_ne_true, List.filter_filter]
              congr 1
              apply List.filter_congr
              intro y _
              by_cases hy : y = x
              · rw [hy, hx]
                rfl
              · simp [hy]

theorem eraseDups_eq_self {xs : List alpha} (h : xs.Nodup) : xs.eraseDups = xs := by
  induction xs with
  | nil => rfl
  | cons x xs ih =>
      rw [List.nodup_cons] at h
      have hkept : (xs.filter fun y => !y == x) = xs := by
        rw [List.filter_eq_self]
        intro y hy
        have hne : y ≠ x := ne_of_mem_of_not_mem hy h.1
        simp [hne]
      rw [List.eraseDups_cons, hkept, ih h.2]

theorem eraseDups_append_eraseDups_append (xs ys zs : List alpha) :
    (xs ++ (ys.eraseDups ++ zs)).eraseDups = (xs ++ (ys ++ zs)).eraseDups := by
  have hremove : forall us : List alpha, us.removeAll xs = us.filter fun u => !xs.elem u :=
    fun _ => rfl
  rw [List.eraseDups_append, List.eraseDups_append, hremove, hremove, List.filter_append,
    List.filter_append, filter_eraseDups, List.eraseDups_append, List.eraseDups_append,
    eraseDups_eq_self (nodup_eraseDups _)]
  congr 3
  apply List.filter_congr
  intro u _
  rw [Bool.eq_iff_iff]
  simp [List.mem_eraseDups]

theorem eraseDups_append_flatten_map_eraseDups (xs : List alpha) (yss : List (List alpha)) :
    (xs ++ (yss.map List.eraseDups).flatten).eraseDups = (xs ++ yss.flatten).eraseDups := by
  induction yss generalizing xs with
  | nil => rfl
  | cons ys yss ih =>
      rw [List.map_cons, List.flatten_cons, List.flatten_cons, eraseDups_append_eraseDups_append,
        ← List.append_assoc, ih, List.append_assoc]

end

/-!
# The log, root by root
-/

def Notice.startsRoot : Notice -> Bool
  | .constructorRoot _ => true
  | .implicitRoot _ => true
  | .variableRoot _ => true
  | _ => false

/-- What an analysis tells about each of its roots: the notices between the start of the root and the
start of the next one. -/
def Analysis.rootNotices (a : Analysis) : List (List Notice) :=
  (a.notices.splitOnP Notice.startsRoot).drop 1

def WithinRoot (notices : List Notice) : Prop :=
  forall notice, notice ∈ notices -> notice.startsRoot = false

theorem WithinRoot.append {first last : List Notice} (h : WithinRoot first)
    (h' : WithinRoot last) : WithinRoot (first ++ last) := by
  rw [WithinRoot, List.forall_mem_append]
  exact ⟨h, h'⟩

theorem WithinRoot.cons {notice : Notice} {notices : List Notice}
    (h : notice.startsRoot = false) (h' : WithinRoot notices) : WithinRoot (notice :: notices) := by
  rw [WithinRoot, List.forall_mem_cons]
  exact ⟨h, h'⟩

theorem withinRoot_nil : WithinRoot [] :=
  List.forall_mem_nil _

theorem CallSite.withinRoot_redirection (site : CallSite) (contract : Ident) :
    WithinRoot (site.redirection contract) := by
  rw [redirection]
  split
  · exact withinRoot_nil
  · exact withinRoot_nil.cons rfl

theorem Course.withinRoot_story (course : Course) (contract : Ident)
    (path : List (FunctionId × Ident)) (told : List FunctionId) :
    WithinRoot (course.story contract path told).1 := by
  induction course generalizing path told with
  | done => exact withinRoot_nil
  | read v rest ih => exact (ih path told).cons rfl
  | write v rest ih => exact (ih path told).cons rfl
  | call site body rest ihBody ihRest =>
      exact ((site.withinRoot_redirection contract).append (ihBody _ _)).append (ihRest _ _)
  | back site rest ih =>
      rw [story]
      split
      · exact (site.withinRoot_redirection contract).append (ih path told)
      · exact (site.withinRoot_redirection contract).append ((ih path _).cons rfl)
  | cut site depth rest ih =>
      exact (site.withinRoot_redirection contract).append ((ih path told).cons rfl)

theorem Graph.withinRoot_draw {g : Graph} {s : Store}
    {create : Text.Path -> Except String Unit} {print : Option String}
    {drawing : Output} (h : g.draw s create print = .ok drawing) :
    WithinRoot drawing.notices :=
  notices_of_draw h withinRoot_nil (fun _ => withinRoot_nil.cons rfl)
    fun _ _ => withinRoot_nil.cons rfl

theorem EntryPoint.story_cases (owner : Ident) (told : List FunctionId) (entry : EntryPoint) :
    (entry.root? = none ∧ WithinRoot (entry.story owner told).1 ∧
        recordsOf (entry.story owner told).1 = []) ∨
      exists root start inner, entry.root? = some root ∧ start.startsRoot = true ∧
        (entry.story owner told).1 = start :: inner ∧ WithinRoot inner ∧
        recordsOf inner = root.2.records := by
  cases entry with
  | constructor contract id name course =>
      exact Or.inr ⟨_, _, _, rfl, rfl, rfl, course.withinRoot_story _ _ _,
        course.recordsOf_story _ _ _⟩
  | implicitConstructor contract id =>
      exact Or.inr ⟨_, _, _, rfl, rfl, rfl, withinRoot_nil, rfl⟩
  | missingConstructor contract span => exact Or.inl ⟨rfl, withinRoot_nil.cons rfl, rfl⟩
  | stateVariable name id course =>
      exact Or.inr ⟨_, _, _, rfl, rfl, rfl, course.withinRoot_story _ _ _,
        course.recordsOf_story _ _ _⟩

theorem exists_splitOnP_story (owner : Ident) {last : List Notice} (hlast : WithinRoot last)
    (hrecords : recordsOf last = []) (entries : List EntryPoint) (told : List FunctionId)
    {first : List Notice} (hfirst : WithinRoot first) :
    exists part parts,
      (first ++ (EntryPoint.storyOfList owner told entries ++ last)).splitOnP Notice.startsRoot =
        part :: parts ∧ recordsOf part = recordsOf first ∧
      List.Forall₂ (fun root part => recordsOf part = root.2.records)
        (entries.filterMap EntryPoint.root?) parts := by
  induction entries generalizing told first with
  | nil =>
      refine ⟨first ++ last, [], List.splitOnP_eq_singleton (hfirst.append hlast), ?_, .nil⟩
      rw [recordsOf_append, hrecords, List.append_nil]
  | cons entry entries ih =>
      rw [EntryPoint.storyOfList]
      rcases entry.story_cases owner told with
        ⟨hnone, hwithin, hempty⟩ | ⟨root, start, inner, hroot, hstart, hstory, hwithin, hinner⟩
      · rcases ih (entry.story owner told).2 (hfirst.append hwithin) with
          ⟨part, parts, hsplit, hpart, hparts⟩
        refine ⟨part, parts, ?_, ?_, ?_⟩
        · rw [List.append_assoc, ← List.append_assoc first]
          exact hsplit
        · rw [hpart, recordsOf_append, hempty, List.append_nil]
        · rw [List.filterMap_cons_none hnone]
          exact hparts
      · rcases ih (entry.story owner told).2 hwithin with ⟨part, parts, hsplit, hpart, hparts⟩
        refine ⟨first, part :: parts, ?_, rfl, ?_⟩
        · rw [hstory, List.append_assoc, List.cons_append,
            List.splitOnP_append_cons_of_forall_mem hfirst start hstart, hsplit]
        · rw [List.filterMap_cons_some hroot]
          exact .cons (hpart.trans hinner) hparts

theorem forall₂_of_forall₂_mem {alpha beta : Type} {r r' : alpha -> beta -> Prop} {xs : List alpha}
    {ys : List beta} (h : List.Forall₂ r xs ys)
    (himp : forall x y, x ∈ xs -> r x y -> r' x y) : List.Forall₂ r' xs ys := by
  induction h with
  | nil => exact .nil
  | cons hhead _ ih =>
      refine .cons (himp _ _ List.mem_cons_self hhead) (ih ?_)
      intro x y hx
      exact himp x y (List.mem_cons_of_mem _ hx)

theorem forall₂_rootExecutions {alpha : Type} {r : Course -> alpha -> Prop}
    {plan : List (Definition × Course)} {xs : List alpha}
    (h : List.Forall₂ (fun root x => r root.2 x) plan xs) (next : Nat) :
    List.Forall₂ (fun e x => r (Execution.course e) x) (rootExecutions next plan) xs := by
  induction h generalizing next with
  | nil => exact .nil
  | cons hhead _ ih => exact .cons hhead (ih _)

theorem forall₂_rootNotices {a : Analysis} {contract owner : Ident} {entries : List EntryPoint}
    {last : List Notice} (hlast : WithinRoot last) (hrecords : recordsOf last = [])
    (hnotices : a.notices =
      .building contract :: (EntryPoint.storyOfList owner [] entries ++ last)) :
    List.Forall₂ (fun e notices => recordsOf notices = e.course.records)
      (rootExecutions 0 (entries.filterMap EntryPoint.root?)) a.rootNotices := by
  have hfirst : WithinRoot [.building contract] := withinRoot_nil.cons rfl
  rcases exists_splitOnP_story owner hlast hrecords entries [] hfirst with
    ⟨part, parts, hsplit, _, hparts⟩
  have hdrop : a.rootNotices = parts := by
    rw [Analysis.rootNotices, hnotices]
    exact congrArg (List.drop 1) hsplit
  rw [hdrop]
  exact forall₂_rootExecutions (r := fun course part => recordsOf part = course.records) hparts 0

/-!
# Effects, node by node
-/

namespace Access

def event : Access -> StateVariableId -> Event
  | .read, v => .read v
  | .write, v => .write v

def transitive : Access -> Graph -> NodeId -> Except Fault (List StateVariableId)
  | .read, g, n => g.transitiveReads n
  | .write, g, n => g.transitiveWrites n

theorem transitive_eq (access : Access) (g : Graph) (n : NodeId) :
    access.transitive g n = (do
      let nodes ← g.reachableNodes n
      pure (nodes.flatMap access.ofNode).eraseDups) := by
  cases access with
  | read => rfl
  | write => rfl

theorem mem_filterMap_recorded?_iff {access : Access} {notices : List Notice}
    {v : StateVariableId} :
    v ∈ notices.filterMap access.recorded? <-> access.notice v ∈ notices := by
  rw [List.mem_filterMap]
  simp only [recorded?_eq_some_iff, exists_eq_right]

theorem filterMap_recorded?_recordsOf (access : Access) (notices : List Notice) :
    (recordsOf notices).filterMap access.recorded? = notices.filterMap access.recorded? := by
  rw [recordsOf, List.filterMap_filter]
  apply List.filterMap_congr
  intro notice _
  cases access <;> cases notice <;> rfl

end Access

section

variable {roots : List Execution} {access : Access}

theorem transitive_ofExecutions (h : Rooted roots) {e : Execution} (he : e ∈ forest roots) :
    access.transitive (Graph.ofExecutions roots) e.id =
      .ok (e.subtree.flatMap fun c => access.ofCourse c.course).eraseDups := by
  rw [access.transitive_eq, Graph.reachableNodes_ofExecutions h he]
  show Except.ok ((e.subtree.map Execution.node).flatMap access.ofNode).eraseDups = _
  rw [List.flatMap_map]
  simp only [Access.ofNode_node]

theorem exists_transitive_callees (h : Rooted roots) {e : Execution} (he : e ∈ forest roots) :
    exists below,
      e.node.callees.mapM (access.transitive (Graph.ofExecutions roots)) = .ok below ∧
        access.transitive (Graph.ofExecutions roots) e.id =
          .ok (access.ofNode e.node ++ below.flatten).eraseDups := by
  let effects : Execution -> List StateVariableId := fun c =>
    c.subtree.flatMap fun d => access.ofCourse d.course
  refine ⟨(e.callees.map effects).map List.eraseDups, ?_, ?_⟩
  · rw [Execution.callees_node, List.map_map]
    exact mapM_map_eq_ok fun c hc => transitive_ofExecutions h (callees_mem_forest he hc)
  · rw [transitive_ofExecutions h he, eraseDups_append_flatten_map_eraseDups,
      Execution.subtree_eq_cons, List.flatMap_cons, List.flatMap_assoc, Access.ofNode_node,
      List.flatMap_def]

theorem filterMap_recorded?_perm (access : Access) (e : Execution) :
    (e.course.records.filterMap access.recorded?).Perm
      (e.subtree.flatMap fun c => access.ofCourse c.course) := by
  have hperm := e.records_perm.filterMap access.recorded?
  rw [List.filterMap_flatMap] at hperm
  simp only [Course.filterMap_recorded?_ownRecords] at hperm
  exact hperm

end

/-!
# Accesses before calls
-/

def Access.PrecedesCalls (access : Access) (events : List Event) : Prop :=
  forall first declared span last v, events = first ++ .call declared span :: last ->
    access.event v ∉ last

namespace Access.PrecedesCalls

variable {access : Access} {events : List Event}

theorem of_cons {event : Event} (h : access.PrecedesCalls (event :: events)) :
    access.PrecedesCalls events := by
  intro first declared span last v heq
  exact h (event :: first) declared span last v (by rw [heq, List.cons_append])

theorem map_write_append (h : access.PrecedesCalls events) (vs : List StateVariableId) :
    access.PrecedesCalls (vs.map .write ++ events) := by
  induction vs with
  | nil => exact h
  | cons w vs ih =>
      intro first declared span last v heq
      cases first with
      | nil => cases heq
      | cons event first =>
          rw [List.map_cons, List.cons_append, List.cons_append, List.cons.injEq] at heq
          exact ih first declared span last v heq.2

theorem ofCourse_eq_nil {declared : FunctionId} {span : Span}
    (h : access.PrecedesCalls (.call declared span :: events)) {s : Store} {config : Config}
    {linearization : List ContractId} {path : List Definition} {course : Course}
    (hunrolls : s.Unrolls config linearization path events course) :
    access.ofCourse course = [] := by
  have hnone := fun v => h [] declared span events v rfl
  cases access with
  | read =>
      show course.reads = []
      rw [hunrolls.reads_eq, List.filterMap_eq_nil_iff]
      intro event hevent
      cases event with
      | read v => exact absurd hevent (hnone v)
      | _ => rfl
  | write =>
      show course.writes = []
      rw [hunrolls.writes_eq, List.filterMap_eq_nil_iff]
      intro event hevent
      cases event with
      | write v => exact absurd hevent (hnone v)
      | _ => rfl

end Access.PrecedesCalls

/-- A course without accesses behind its calls, neither at its outermost level nor inside it, records
its accesses in the order of its executions. -/
theorem filterMap_records_of_precedesCalls {access : Access} {s : Store} {config : Config}
    {linearization : List ContractId} {path : List Definition} {events : List Event}
    {course : Course} (h : s.Unrolls config linearization path events course)
    (hevents : access.PrecedesCalls events) {frames : List Frame} {next : Nat}
    (hinside : forall c, c ∈ course.executions frames next ->
      forall es, s.eventsOf config c.definition = .ok es -> access.PrecedesCalls es) :
    course.records.filterMap access.recorded? =
      access.ofCourse course ++
        (course.executions frames next).flatMap fun c => access.ofCourse c.course := by
  induction h generalizing frames next with
  | done => cases access <;> rfl
  | read _ ih =>
      have hrest := ih hevents.of_cons hinside
      cases access with
      | read => exact congrArg _ hrest
      | write => exact hrest
  | write _ ih =>
      have hrest := ih hevents.of_cons hinside
      cases access with
      | read => exact hrest
      | write => exact congrArg _ hrest
  | back _ _ _ ih =>
      have hrest := ih hevents.of_cons hinside
      cases access <;> exact hrest
  | cut _ _ _ _ ih =>
      have hrest := ih hevents.of_cons hinside
      cases access <;> exact hrest
  | @call _ _ _ _ _ site body rest _ _ _ hinner _ hunrolls ihBody ihRest =>
      rw [Course.executions, List.forall_mem_cons, List.forall_mem_append] at hinside
      rcases hinside with ⟨hentered, hbody, hrest⟩
      have hnone := hevents.ofCourse_eq_nil hunrolls
      have hcall : access.ofCourse (.call site body rest) = access.ofCourse rest := by
        cases access <;> rfl
      rw [Course.records, List.filterMap_append, ihBody (hentered _ hinner) hbody,
        ihRest hevents.of_cons hrest, hcall, hnone, Course.executions, List.flatMap_cons,
        List.flatMap_append]
      simp only [List.nil_append, List.append_assoc]
      rfl

/-!
# Roots and their notices
-/

/-- The list of what is accessed below a root has each variable once, and it has those whose access
is told about the root. It has them in the order in which they are first told if no node below the
root accesses anything behind a call. -/
structure Analysis.ListsEffects (a : Analysis) (s : Store) (config : Config) (access : Access)
    (r : NodeId) (notices : List Notice) : Prop where
  listed : exists vs, access.transitive a.graph r = .ok vs ∧ vs.Nodup ∧
    forall v, v ∈ vs <-> access.notice v ∈ notices
  in_order : (forall ids n d code events, a.graph.reachable r = .ok ids -> n ∈ ids ->
      a.graph.definition n = .ok d -> s.code d = .ok code ->
      Walks config (.visitAll code) events -> access.PrecedesCalls events) ->
    access.transitive a.graph r = .ok (notices.filterMap access.recorded?).eraseDups

section

variable {s : Store} {config : Config} {linearization : List ContractId}
  {roots : List Execution} {access : Access}

theorem precedesCalls_of_mem_subtree (h : Rooted roots) {e : Execution} (he : e ∈ forest roots)
    (hcode : forall ids n d code events,
      (Graph.ofExecutions roots).reachable e.id = .ok ids -> n ∈ ids ->
      (Graph.ofExecutions roots).definition n = .ok d -> s.code d = .ok code ->
      Walks config (.visitAll code) events -> access.PrecedesCalls events) :
    forall c, c ∈ e.subtree -> forall events, s.eventsOf config c.definition = .ok events ->
      access.PrecedesCalls events := by
  intro c hc events hevents
  rcases exists_code_of_eventsOf hevents with ⟨code, hd, rfl⟩
  have hprecedes := hcode _ c.id c.definition code _ (Graph.reachable_ofExecutions h he)
    (List.mem_map_of_mem hc) (Graph.definition_ofExecutions h (subtree_mem_forest he c hc)) hd
    (walks_visitAll_iff.mpr rfl)
  exact hprecedes.map_write_append _

theorem listsEffects_of_recordsOf {a : Analysis} (hrooted : Rooted roots)
    (hunrolled : forall e, e ∈ roots -> e.Unrolled s config linearization)
    (hgraph : a.graph = Graph.ofExecutions roots) {e : Execution} (he : e ∈ roots)
    {notices : List Notice} (hrecords : recordsOf notices = e.course.records) :
    a.ListsEffects s config access e.id notices := by
  have hmem := mem_forest_of_mem he
  have hnotices : notices.filterMap access.recorded? =
      e.course.records.filterMap access.recorded? := by
    rw [← hrecords, Access.filterMap_recorded?_recordsOf]
  have htransitive : access.transitive (Graph.ofExecutions roots) e.id = _ :=
    transitive_ofExecutions hrooted hmem
  constructor
  · rw [hgraph]
    refine ⟨_, htransitive, nodup_eraseDups _, ?_⟩
    intro v
    rw [List.mem_eraseDups, ← (filterMap_recorded?_perm access e).mem_iff, ← hnotices,
      Access.mem_filterMap_recorded?_iff]
  · rw [hgraph]
    intro hcode
    have hprecedes := precedesCalls_of_mem_subtree hrooted hmem hcode
    rcases hunrolled e he with ⟨events, hevents, hunrolls⟩
    have hinside : forall c, c ∈ e.course.executions e.frames e.next -> forall es,
        s.eventsOf config c.definition = .ok es -> access.PrecedesCalls es :=
      fun c hc => hprecedes c (List.mem_cons_of_mem _ hc)
    rw [htransitive, hnotices, filterMap_records_of_precedesCalls hunrolls
      (hprecedes e e.self_mem_subtree events hevents) hinside]
    rfl

end

/-- Effects are listed node by node. Below a root they are those that are told about the root, and
their order is that of the first accesses if no node accesses anything behind a call. -/
theorem effects_are_listed_by_node {create : Text.Path -> Except String Unit} {s : Store}
    {config : Config} {id : ContractId} {a : Analysis} (h : Analyzes create s config id a)
    (access : Access) :
    List.Forall₂ (a.ListsEffects s config access) a.graph.roots a.rootNotices ∧
      forall n node, a.graph.node n = .ok node ->
        exists below, node.callees.mapM (access.transitive a.graph) = .ok below ∧
          access.transitive a.graph n = .ok (access.ofNode node ++ below.flatten).eraseDups := by
  rcases run_eq_ok_iff.mp (analyzes_iff_run_eq_ok.mp h) with
    ⟨contract, entries, drawing, _, _, hentries, hdrawing, ha⟩
  have hgraph := (congrArg Analysis.graph ha).trans (Graph.ofEntryPoints_eq entries)
  have hrooted := rooted_rootExecutions (entries.filterMap EntryPoint.root?)
  constructor
  · have hroots : a.graph.roots =
        (rootExecutions 0 (entries.filterMap EntryPoint.root?)).map Execution.id := by
      rw [hgraph]
      rfl
    rw [hroots, List.forall₂_map_left_iff]
    refine forall₂_of_forall₂_mem (forall₂_rootNotices (Graph.withinRoot_draw hdrawing)
      (Graph.recordsOf_draw hdrawing) (congrArg (fun b => b.notices) ha)) ?_
    intro e notices he hrecords
    exact listsEffects_of_recordsOf hrooted (fun _ => unrolled_of_mem_rootExecutions hentries)
      hgraph he hrecords
  · intro n node hnode
    rw [hgraph] at hnode ⊢
    rcases (Graph.node_ofExecutions_eq_ok_iff hrooted).mp hnode with ⟨e, he, rfl, rfl⟩
    exact exists_transitive_callees hrooted he

/-!
# Accesses behind a call

The constructor calls `g` and then stores `x` in itself. The function `g` stores `y` in itself.
-/

namespace Interleaved

def keep (v : StateVariableId) : Stmt :=
  .expr (.assign (Cycle.stored v) .plain (Cycle.stored v) ⟨.uint 256, .dummy⟩)

def store : Store where
  functions := { entries := #[
    Cycle.function "" .constructor false [.expr (Cycle.call ⟨1⟩), keep ⟨0⟩],
    Cycle.function "g" .function false [keep ⟨1⟩]] }
  stateVariables := { entries := #[
    ⟨.named "x", .uint 256, none, false, .dummy⟩,
    ⟨.named "y", .uint 256, none, false, .dummy⟩] }
  contracts := { entries := #[⟨.named "C", [⟨0⟩], some ⟨0⟩, [⟨1⟩], [⟨0⟩, ⟨1⟩], .dummy⟩] }

def construction : Course :=
  .call ⟨⟨1⟩, ⟨1⟩, .named "g", "g()", .dummy⟩ (.read ⟨1⟩ (.write ⟨1⟩ .done))
    (.read ⟨0⟩ (.write ⟨0⟩ .done))

def entries : List EntryPoint := [
  .constructor (.named "C") ⟨0⟩ (.named "") construction,
  .stateVariable (.named "x") ⟨0⟩ (.write ⟨0⟩ .done),
  .stateVariable (.named "y") ⟨1⟩ (.write ⟨1⟩ .done)]

def analysis : Analysis where
  graph := Graph.ofEntryPoints entries
  notices := .building (.named "C") :: (EntryPoint.storyOfList (.named "C") [] entries ++ [])
  file := none

theorem unrolls_construction :
    store.Unrolls {} [⟨0⟩] [.function ⟨0⟩] [.call ⟨1⟩ .dummy, .read ⟨0⟩, .write ⟨0⟩]
      construction :=
  .call ⟨rfl, rfl, rfl, _, rfl, rfl, by decide⟩ (by decide) rfl rfl (.read (.write .done))
    (.read (.write .done))

theorem analyzes : Analyzes (fun _ => .ok ()) store {} ⟨0⟩ analysis := by
  have hconstructor : store.constructorEntry {} [⟨0⟩] ⟨0⟩ = .ok _ :=
    Store.constructorEntry_of_unrolls rfl rfl rfl unrolls_construction
  have hx : store.stateVariableEntry {} [⟨0⟩] ⟨0⟩ = .ok _ :=
    Store.stateVariableEntry_of_unrolls rfl (.write .done)
  have hy : store.stateVariableEntry {} [⟨0⟩] ⟨1⟩ = .ok _ :=
    Store.stateVariableEntry_of_unrolls rfl (.write .done)
  have hentries : store.entryPoints {} [⟨0⟩] = .ok entries := by
    simp only [Store.entryPoints, bind_eq_ok_iff, mapM_eq_ok_iff, pure_eq_ok_iff]
    exact ⟨_, .cons hconstructor .nil, _, rfl, _, .cons hx (.cons hy .nil), rfl⟩
  exact analyzes_iff_run_eq_ok.mpr
    (run_eq_ok_iff.mpr ⟨_, entries, {}, rfl, rfl, hentries, rfl, rfl⟩)

theorem transitive_constructor (access : Access) :
    access.transitive analysis.graph ⟨0⟩ = .ok [⟨0⟩, ⟨1⟩] := by
  have hgraph : analysis.graph = _ := Graph.ofEntryPoints_eq entries
  have hrooted := rooted_rootExecutions (entries.filterMap EntryPoint.root?)
  rw [hgraph]
  refine (transitive_ofExecutions hrooted (mem_forest_of_mem List.mem_cons_self)).trans ?_
  cases access <;> rfl

theorem rootNotices_eq :
    analysis.rootNotices = [
      [.read ⟨1⟩, .write ⟨1⟩, .read ⟨0⟩, .write ⟨0⟩], [.write ⟨0⟩], [.write ⟨1⟩]] :=
  rfl

end Interleaved

theorem listsEffects_interleaved :
    exists a, Analyzes (fun _ => .ok ()) Interleaved.store {} ⟨0⟩ a ∧
      List.Forall₂ (a.ListsEffects Interleaved.store {} .read) a.graph.roots a.rootNotices ∧
      forall n node, a.graph.node n = .ok node ->
        exists below, node.callees.mapM (Access.read.transitive a.graph) = .ok below ∧
          Access.read.transitive a.graph n =
            .ok (Access.read.ofNode node ++ below.flatten).eraseDups :=
  ⟨Interleaved.analysis, Interleaved.analyzes,
    effects_are_listed_by_node Interleaved.analyzes .read⟩

/-- The constructor accesses `y` first, by the call, and `x` after it. Both lists have `x` first. -/
theorem effects_are_out_of_order :
    exists a, Analyzes (fun _ => .ok ()) Interleaved.store {} ⟨0⟩ a ∧
      a.graph.transitiveReads ⟨0⟩ = .ok [⟨0⟩, ⟨1⟩] ∧
      a.graph.transitiveWrites ⟨0⟩ = .ok [⟨0⟩, ⟨1⟩] ∧
      a.rootNotices.head? = some [.read ⟨1⟩, .write ⟨1⟩, .read ⟨0⟩, .write ⟨0⟩] ∧
      ¬ List.Forall₂ (fun r notices => a.graph.transitiveReads r =
        .ok (notices.filterMap Access.read.recorded?).eraseDups) a.graph.roots a.rootNotices ∧
      ¬ List.Forall₂ (fun r notices => a.graph.transitiveWrites r =
        .ok (notices.filterMap Access.write.recorded?).eraseDups) a.graph.roots a.rootNotices := by
  have hreads : Interleaved.analysis.graph.transitiveReads ⟨0⟩ = .ok [⟨0⟩, ⟨1⟩] :=
    Interleaved.transitive_constructor .read
  have hwrites : Interleaved.analysis.graph.transitiveWrites ⟨0⟩ = .ok [⟨0⟩, ⟨1⟩] :=
    Interleaved.transitive_constructor .write
  refine ⟨Interleaved.analysis, Interleaved.analyzes, hreads, hwrites, ?_, ?_, ?_⟩
  · rw [Interleaved.rootNotices_eq]
    rfl
  · intro h
    rw [Interleaved.rootNotices_eq] at h
    cases h with
    | cons hhead _ =>
        have heq := hreads.symm.trans hhead
        exact absurd (Except.ok.inj heq) (by decide)
  · intro h
    rw [Interleaved.rootNotices_eq] at h
    cases h with
    | cons hhead _ =>
        have heq := hwrites.symm.trans hhead
        exact absurd (Except.ok.inj heq) (by decide)

end CallForest
