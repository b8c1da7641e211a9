import CallForest.Proofs.Forest
import CallForest.Proofs.Running
import CallForest.Proofs.Unrolling

/-!
# What a successful analysis consists of

An analysis that ends well has found the contract and its entry points, and its graph is made by the
executions of the entry points. Each execution in their forest runs a stored definition from its
start, and its course is the unrolling of what the definition does.
-/

namespace CallForest

/-!
# Success
-/

theorem entryPoints_eq_ok_iff {s : Store} {config : Config} {id : ContractId}
    {contract : ContractDecl} {entries : List EntryPoint} :
    Analysis.entryPoints s config id = .ok (.ok (contract, entries)) <->
      s.contract id = .ok contract ∧ contract.linearization.head? = some id ∧
        s.entryPoints config contract.linearization = .ok entries := by
  rw [Analysis.entryPoints, bind_eq_ok_iff]
  constructor
  · intro h
    rcases h with ⟨found, hfound, h⟩
    split at h
    · next hhead =>
        rcases bind_pure_eq_ok_iff.mp h with ⟨entries, hentries, heq⟩
        cases heq
        exact ⟨hfound, hhead, hentries⟩
    · cases h
  · intro h
    rcases h with ⟨hcontract, hhead, hentries⟩
    refine ⟨contract, hcontract, ?_⟩
    rw [if_pos hhead, hentries]
    rfl

theorem run_eq_ok_iff {create : Text.Path -> Except String Unit} {s : Store}
    {config : Config} {id : ContractId} {a : Analysis} :
    Analysis.run create s config id = .ok (.ok a) <->
      exists contract entries drawing, s.contract id = .ok contract ∧
        contract.linearization.head? = some id ∧
        s.entryPoints config contract.linearization = .ok entries ∧
        (Graph.ofEntryPoints entries).draw s create config.printGraph = .ok drawing ∧
        a = ⟨⟨.building contract.name ::
          (EntryPoint.storyOfList contract.name [] entries ++ drawing.notices), drawing.file⟩,
          Graph.ofEntryPoints entries⟩ := by
  rw [Analysis.run, bind_eq_ok_iff]
  constructor
  · intro h
    rcases h with ⟨outcome, houtcome, hrun⟩
    cases outcome with
    | error e => cases hrun
    | ok found =>
        rcases found with ⟨contract, entries⟩
        rcases bind_pure_eq_ok_iff.mp hrun with ⟨drawing, hdrawing, hresult⟩
        cases hresult
        rcases entryPoints_eq_ok_iff.mp houtcome with ⟨hcontract, hhead, hentries⟩
        exact ⟨contract, entries, drawing, hcontract, hhead, hentries, hdrawing, rfl⟩
  · intro h
    rcases h with ⟨contract, entries, drawing, hcontract, hhead, hentries, hdrawing, rfl⟩
    have hfound := entryPoints_eq_ok_iff.mpr ⟨hcontract, hhead, hentries⟩
    exact ⟨_, hfound, bind_pure_eq_ok_iff.mpr ⟨drawing, hdrawing, rfl⟩⟩

theorem entryPoints_of_run_eq_ok {create : Text.Path -> Except String Unit} {s : Store}
    {config : Config} {id : ContractId} {a : Analysis}
    (h : Analysis.run create s config id = .ok (.ok a)) :
    exists contract entries, s.contract id = .ok contract ∧
      contract.linearization.head? = some id ∧
      s.entryPoints config contract.linearization = .ok entries ∧
      a.graph = Graph.ofEntryPoints entries := by
  rcases run_eq_ok_iff.mp h with ⟨contract, entries, _, hcontract, hhead, hentries, _, rfl⟩
  exact ⟨contract, entries, hcontract, hhead, hentries, rfl⟩

theorem exists_analyzes_of_entryPoints {create : Text.Path -> Except String Unit}
    {s : Store} {config : Config} {id : ContractId} {contract : ContractDecl}
    {entries : List EntryPoint} (hcontract : s.contract id = .ok contract)
    (hhead : contract.linearization.head? = some id)
    (hentries : s.entryPoints config contract.linearization = .ok entries)
    (hprint : config.printGraph = none) :
    exists a, Analyzes create s config id a ∧ a.graph = Graph.ofEntryPoints entries := by
  have hdrawing : (Graph.ofEntryPoints entries).draw s create config.printGraph = .ok {} := by
    rw [hprint]
    rfl
  have hrun := run_eq_ok_iff.mpr ⟨contract, entries, {}, hcontract, hhead, hentries, hdrawing, rfl⟩
  exact ⟨_, analyzes_iff_run_eq_ok.mpr hrun, rfl⟩

/-!
# The executions of an analysis

Each entry point unrolls the events of its definition at a path that holds the definition alone, and
its execution becomes a root of the graph.
-/

/-- An execution runs a stored definition, and its course is what the definition does. -/
def Execution.Unrolled (s : Store) (config : Config) (linearization : List ContractId)
    (e : Execution) : Prop :=
  exists events, s.eventsOf config e.definition = .ok events ∧
    s.Unrolls config linearization e.path events e.course

theorem unrolls_of_constructorEntry {s : Store} {config : Config}
    {linearization : List ContractId} {id : ContractId} {entry : EntryPoint}
    (h : s.constructorEntry config linearization id = .ok entry) {definition : Definition}
    {course : Course} (hroot : entry.root? = some (definition, course)) :
    exists events, s.eventsOf config definition = .ok events ∧
      s.Unrolls config linearization [definition] events course := by
  rw [Store.constructorEntry, bind_eq_ok_iff] at h
  rcases h with ⟨contract, hcontract, h⟩
  split at h
  · next f hf =>
      rw [bind_eq_ok_iff] at h
      rcases h with ⟨decl, hdecl, h⟩
      rw [bind_pure_eq_ok_iff] at h
      rcases h with ⟨found, hfound, rfl⟩
      cases hroot
      exact ⟨_, Store.eventsOf_function hdecl, Store.unrolls_of_unroll hfound⟩
  · split at h
    · cases h
      cases hroot
      exact ⟨[], rfl, Store.Unrolls.done⟩
    · cases h
      cases hroot

theorem unrolls_of_stateVariableEntry {s : Store} {config : Config}
    {linearization : List ContractId} {id : StateVariableId} {entry : EntryPoint}
    (h : s.stateVariableEntry config linearization id = .ok entry) {definition : Definition}
    {course : Course} (hroot : entry.root? = some (definition, course)) :
    exists events, s.eventsOf config definition = .ok events ∧
      s.Unrolls config linearization [definition] events course := by
  rw [Store.stateVariableEntry, bind_eq_ok_iff] at h
  rcases h with ⟨decl, hdecl, h⟩
  rw [bind_pure_eq_ok_iff] at h
  rcases h with ⟨found, hfound, rfl⟩
  cases hroot
  refine ⟨decl.events config id, ?_, Store.unrolls_of_unroll hfound⟩
  rw [Store.eventsOf, bind_pure_eq_ok_iff]
  exact ⟨decl, hdecl, rfl⟩

theorem Store.constructorEntry_of_unrolls {s : Store} {config : Config}
    {linearization : List ContractId} {id : ContractId} {contract : ContractDecl}
    {f : FunctionId} {decl : FunctionDecl} {course : Course}
    (hcontract : s.contract id = .ok contract) (hconstructor : contract.constructor = some f)
    (hdecl : s.function f = .ok decl)
    (h : s.Unrolls config linearization [.function f] (decl.events config) course) :
    s.constructorEntry config linearization id =
      .ok (.constructor contract.name f decl.name course) := by
  rw [constructorEntry, bind_eq_ok_iff]
  refine ⟨contract, hcontract, ?_⟩
  rw [hconstructor]
  exact bind_eq_ok_iff.mpr ⟨decl, hdecl,
    bind_pure_eq_ok_iff.mpr ⟨course, unroll_of_unrolls h, rfl⟩⟩

theorem Store.stateVariableEntry_of_unrolls {s : Store} {config : Config}
    {linearization : List ContractId} {id : StateVariableId} {decl : StateVariableDecl}
    {course : Course} (hdecl : s.stateVariable id = .ok decl)
    (h : s.Unrolls config linearization [.stateVariable id] (decl.events config id) course) :
    s.stateVariableEntry config linearization id = .ok (.stateVariable decl.name id course) :=
  bind_eq_ok_iff.mpr ⟨decl, hdecl, bind_pure_eq_ok_iff.mpr ⟨course, unroll_of_unrolls h, rfl⟩⟩

theorem unrolls_of_mem_entryPoints {s : Store} {config : Config}
    {linearization : List ContractId} {entries : List EntryPoint}
    (h : s.entryPoints config linearization = .ok entries) {definition : Definition}
    {course : Course} (hmem : (definition, course) ∈ entries.filterMap EntryPoint.root?) :
    exists events, s.eventsOf config definition = .ok events ∧
      s.Unrolls config linearization [definition] events course := by
  simp only [Store.entryPoints, bind_eq_ok_iff, pure_eq_ok_iff] at h
  rcases h with ⟨constructors, hconstructors, stored, hstored, initializers, hinitializers, rfl⟩
  rcases List.mem_filterMap.mp hmem with ⟨entry, hentry, hroot⟩
  rcases List.mem_append.mp hentry with hfirst | hsecond
  · rcases exists_of_mem_mapM hconstructors hfirst with ⟨id, hid⟩
    exact unrolls_of_constructorEntry hid hroot
  · rcases exists_of_mem_mapM hinitializers hsecond with ⟨id, hid⟩
    exact unrolls_of_stateVariableEntry hid hroot

theorem unrolled_of_mem_rootExecutions {s : Store} {config : Config}
    {linearization : List ContractId} {entries : List EntryPoint}
    (h : s.entryPoints config linearization = .ok entries) {e : Execution}
    (he : e ∈ rootExecutions 0 (entries.filterMap EntryPoint.root?)) :
    e.Unrolled s config linearization := by
  rcases unrolls_of_mem_entryPoints h (mem_plan_of_mem_rootExecutions he) with
    ⟨events, hevents, hunrolls⟩
  refine ⟨events, hevents, ?_⟩
  rw [Execution.path, Execution.frames, outer_of_mem_rootExecutions he]
  exact hunrolls

theorem exists_roots_of_analyzes {create : Text.Path -> Except String Unit} {s : Store}
    {config : Config} {id : ContractId} {a : Analysis}
    (h : Analyzes create s config id a) :
    exists contract roots, s.contract id = .ok contract ∧ Rooted roots ∧
      a.graph = Graph.ofExecutions roots ∧
      forall e, e ∈ roots -> e.Unrolled s config contract.linearization := by
  rcases entryPoints_of_run_eq_ok (analyzes_iff_run_eq_ok.mp h) with
    ⟨contract, entries, hcontract, _, hentries, hgraph⟩
  refine ⟨contract, rootExecutions 0 (entries.filterMap EntryPoint.root?), hcontract,
    rooted_rootExecutions _, ?_, ?_⟩
  · rw [hgraph, Graph.ofEntryPoints_eq]
  · exact fun e => unrolled_of_mem_rootExecutions hentries

/-!
# Calls inside an execution

A call is followed only to a function off the path, and its events are unrolled at the path of its
execution. So unrolling is handed on from the roots to the whole forest.
-/

theorem unrolled_of_mem_course_callees {s : Store} {config : Config}
    {linearization : List ContractId} {path : List Definition} {events : List Event}
    {course : Course} (h : s.Unrolls config linearization path events course)
    {frames : List Frame} (hframes : frames.map (·.definition) = path) {next : Nat}
    {c : Execution} (hc : c ∈ course.callees frames next) :
    c.Unrolled s config linearization ∧ c.definition ∉ path ∧
      exists f, c.definition = .function f := by
  induction h generalizing frames next with
  | done => cases hc
  | read _ ih => exact ih hframes hc
  | write _ ih => exact ih hframes hc
  | back _ _ _ ih => exact ih hframes hc
  | cut _ _ _ _ ih => exact ih hframes hc
  | call hsite hfresh hdepth hinner hbody hrest ihBody ihRest =>
      rcases List.mem_cons.mp hc with rfl | hc
      · refine ⟨⟨_, hinner, ?_⟩, hfresh, _, rfl⟩
        rw [← hframes] at hbody
        exact hbody
      · exact ihRest hframes hc

namespace Execution

theorem Unrolled.of_mem_callees {s : Store} {config : Config}
    {linearization : List ContractId} {e c : Execution}
    (h : e.Unrolled s config linearization) (hc : c ∈ e.callees) :
    c.Unrolled s config linearization ∧ c.definition ∉ e.path ∧
      exists f, c.definition = .function f := by
  rcases h with ⟨events, _, hunrolls⟩
  exact unrolled_of_mem_course_callees hunrolls rfl hc

end Execution

theorem unrolled_of_mem_forest {s : Store} {config : Config}
    {linearization : List ContractId} {roots : List Execution}
    (h : forall e, e ∈ roots -> e.Unrolled s config linearization) :
    forall e, e ∈ forest roots -> e.Unrolled s config linearization := by
  refine forall_mem_forest h ?_
  intro e _ he c hc
  exact (he.of_mem_callees hc).1

/-!
# A cycle through an override

The constructor of `B` calls `f`, which does nothing in `B`. In `C`, which inherits from `B`, `f` is
overridden. There `f` and `g` call each other, and the initial value of `x` calls `g`.
-/

namespace Cycle

def call (f : FunctionId) : Expr :=
  .call (.name (.named "") (.function f) ⟨.function [] [] (some (.function f)), .dummy⟩) []
    ⟨.unit, .dummy⟩

def stored (v : StateVariableId) : Expr :=
  .name (.named "") (.stateVariable v) ⟨.uint 256, .dummy⟩

def function (name : String) (kind : FunctionKind) (isVirtual : Bool) (body : Block) :
    FunctionDecl :=
  ⟨.named name, kind, [], [], isVirtual, some body, .dummy⟩

def store : Store where
  functions := { entries := #[
    function "" .constructor false [.expr (call ⟨1⟩)],
    function "f" .function true [],
    function "f" .function true [.expr (call ⟨3⟩), .expr (stored ⟨0⟩)],
    function "g" .function false
      [.expr (.assign (stored ⟨1⟩) .plain (call ⟨1⟩) ⟨.unit, .dummy⟩)]] }
  stateVariables := { entries := #[
    ⟨.named "x", .uint 256, some (call ⟨3⟩), false, .dummy⟩,
    ⟨.named "y", .uint 256, none, false, .dummy⟩] }
  contracts := { entries := #[
    ⟨.named "C", [⟨0⟩, ⟨1⟩], none, [⟨2⟩, ⟨3⟩], [⟨0⟩], .dummy⟩,
    ⟨.named "B", [⟨1⟩], some ⟨0⟩, [⟨1⟩], [⟨1⟩], .dummy⟩] }

def callOfF : CallSite :=
  ⟨⟨1⟩, ⟨2⟩, .named "f", "f()", .dummy⟩

def callOfG : CallSite :=
  ⟨⟨3⟩, ⟨3⟩, .named "g", "g()", .dummy⟩

def entries : List EntryPoint := [
  .constructor (.named "B") ⟨0⟩ (.named "")
    (.call callOfF (.call callOfG (.back callOfF (.write ⟨1⟩ .done)) (.read ⟨0⟩ .done)) .done),
  .implicitConstructor (.named "C") ⟨0⟩,
  .stateVariable (.named "x") ⟨0⟩
    (.write ⟨0⟩
      (.call callOfG (.call callOfF (.back callOfG (.read ⟨0⟩ .done)) (.write ⟨1⟩ .done)) .done)),
  .stateVariable (.named "y") ⟨1⟩ (.write ⟨1⟩ .done)]

def graph : Graph where
  nodes := #[
    ⟨.function ⟨0⟩, [.call ⟨1⟩], [], []⟩,
    ⟨.function ⟨2⟩, [.call ⟨2⟩], [⟨0⟩], []⟩,
    ⟨.function ⟨3⟩, [.recursive ⟨1⟩], [], [⟨1⟩]⟩,
    ⟨.implicitConstructor ⟨0⟩, [], [], []⟩,
    ⟨.stateVariable ⟨0⟩, [.call ⟨5⟩], [], [⟨0⟩]⟩,
    ⟨.function ⟨3⟩, [.call ⟨6⟩], [], [⟨1⟩]⟩,
    ⟨.function ⟨2⟩, [.recursive ⟨5⟩], [⟨0⟩], []⟩,
    ⟨.stateVariable ⟨1⟩, [], [], [⟨1⟩]⟩]
  roots := [⟨0⟩, ⟨3⟩, ⟨4⟩, ⟨7⟩]

theorem resolves_f : store.Resolves [⟨0⟩, ⟨1⟩] ⟨1⟩ .dummy callOfF :=
  ⟨rfl, rfl, rfl, _, rfl, rfl, by decide⟩

theorem resolves_g : store.Resolves [⟨0⟩, ⟨1⟩] ⟨3⟩ .dummy callOfG :=
  ⟨rfl, rfl, rfl, _, rfl, rfl, by decide⟩

theorem unrolls_constructor :
    store.Unrolls {} [⟨0⟩, ⟨1⟩] [.function ⟨0⟩] [.call ⟨1⟩ .dummy]
      (.call callOfF (.call callOfG (.back callOfF (.write ⟨1⟩ .done)) (.read ⟨0⟩ .done))
        .done) := by
  refine .call resolves_f (by decide) rfl rfl ?_ .done
  refine .call resolves_g (by decide) rfl rfl ?_ (.read .done)
  exact .back resolves_f (by decide) (.write .done)

theorem unrolls_x :
    store.Unrolls {} [⟨0⟩, ⟨1⟩] [.stateVariable ⟨0⟩] [.write ⟨0⟩, .call ⟨3⟩ .dummy]
      (.write ⟨0⟩
        (.call callOfG (.call callOfF (.back callOfG (.read ⟨0⟩ .done)) (.write ⟨1⟩ .done))
          .done)) := by
  refine .write (.call resolves_g (by decide) rfl rfl ?_ .done)
  refine .call resolves_f (by decide) rfl rfl ?_ (.write .done)
  exact .back resolves_g (by decide) (.read .done)

theorem unrolls_y :
    store.Unrolls {} [⟨0⟩, ⟨1⟩] [.stateVariable ⟨1⟩] [.write ⟨1⟩] (.write ⟨1⟩ .done) :=
  .write .done

theorem entryPoints_eq : store.entryPoints {} [⟨0⟩, ⟨1⟩] = .ok entries := by
  have hconstructor : store.constructorEntry {} [⟨0⟩, ⟨1⟩] ⟨1⟩ = .ok _ :=
    Store.constructorEntry_of_unrolls rfl rfl rfl unrolls_constructor
  have hx : store.stateVariableEntry {} [⟨0⟩, ⟨1⟩] ⟨0⟩ = .ok _ :=
    Store.stateVariableEntry_of_unrolls rfl unrolls_x
  have hy : store.stateVariableEntry {} [⟨0⟩, ⟨1⟩] ⟨1⟩ = .ok _ :=
    Store.stateVariableEntry_of_unrolls rfl unrolls_y
  simp only [Store.entryPoints, bind_eq_ok_iff, mapM_eq_ok_iff, pure_eq_ok_iff]
  exact ⟨_, .cons hconstructor (.cons rfl .nil), _, rfl, _, .cons hx (.cons hy .nil), rfl⟩

theorem exists_analyzes :
    exists a, Analyzes (fun _ => .ok ()) store {} ⟨0⟩ a ∧ a.graph = graph := by
  have hfound : exists a, Analyzes (fun _ => .ok ()) store {} ⟨0⟩ a ∧
      a.graph = Graph.ofEntryPoints entries :=
    exists_analyzes_of_entryPoints rfl rfl entryPoints_eq rfl
  exact hfound

end Cycle
end CallForest
