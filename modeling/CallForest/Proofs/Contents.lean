import CallForest.Proofs.Ancestry
import CallForest.Proofs.CodeWalk

/-!
# What a node records

A node describes the code of its definition. Its reads and writes are the ones that a walk through
the code meets, in order, and so are its edges: a call of a function on the way from the root goes
back to the node of this function, and every other call is followed unless the way is too long. The
walk depends on the code and the configuration alone, so two nodes of one definition differ at most
in their edges.
-/

namespace CallForest

namespace Event

def read? : Event -> Option StateVariableId
  | .read v => some v
  | _ => none

def write? : Event -> Option StateVariableId
  | .write v => some v
  | _ => none

def declared? : Event -> Option FunctionId
  | .call declared _ => some declared
  | _ => none

theorem read?_eq_some_iff {event : Event} {v : StateVariableId} :
    event.read? = some v <-> event = .read v := by
  cases event <;> simp [read?]

theorem write?_eq_some_iff {event : Event} {v : StateVariableId} :
    event.write? = some v <-> event = .write v := by
  cases event <;> simp [write?]

end Event

def Definition.stateVariable? : Definition -> Option StateVariableId
  | .stateVariable v => some v
  | _ => none

theorem Definition.mem_stateVariable? {d : Definition} {v : StateVariableId} :
    v ∈ d.stateVariable?.toList <-> d = .stateVariable v := by
  cases d <;> simp [Definition.stateVariable?, eq_comm]

def Store.code (s : Store) : Definition -> Except Fault (List Piece)
  | .function f => do
      let decl ← s.function f
      pure (Piece.ofBlock (decl.body.getD []))
  | .stateVariable v => do
      let decl ← s.stateVariable v
      pure (decl.value.toList.map .expr)
  | .implicitConstructor _ => pure []

namespace Graph

/-- The edges that a node owes to the calls that it meets in turn, at the end of a way from a root. -/
inductive RecordsCalls (g : Graph) (s : Store) (config : Config)
    (linearization : List ContractId) (path : List NodeId) : List FunctionId -> List Edge -> Prop
    where
  | done :
      RecordsCalls g s config linearization path [] []
  | back {declared target : FunctionId} {ancestor : NodeId} {calls : List FunctionId}
      {edges : List Edge} :
      s.finalOverride linearization declared = .ok target ->
      ancestor ∈ path -> g.definition ancestor = .ok (.function target) ->
      RecordsCalls g s config linearization path calls edges ->
      RecordsCalls g s config linearization path (declared :: calls)
        (.recursive ancestor :: edges)
  | cut {declared target : FunctionId} {calls : List FunctionId} {edges : List Edge} :
      s.finalOverride linearization declared = .ok target ->
      (forall m, m ∈ path -> g.definition m ≠ .ok (.function target)) ->
      config.exceedsDepth path.length = true ->
      RecordsCalls g s config linearization path calls edges ->
      RecordsCalls g s config linearization path (declared :: calls) edges
  | call {declared target : FunctionId} {callee : NodeId} {calls : List FunctionId}
      {edges : List Edge} :
      s.finalOverride linearization declared = .ok target ->
      (forall m, m ∈ path -> g.definition m ≠ .ok (.function target)) ->
      config.exceedsDepth path.length = false ->
      g.definition callee = .ok (.function target) ->
      RecordsCalls g s config linearization path calls edges ->
      RecordsCalls g s config linearization path (declared :: calls) (.call callee :: edges)

/-- A node records what a walk through its code meets. -/
structure Describes (g : Graph) (s : Store) (config : Config) (linearization : List ContractId)
    (n : NodeId) (node : Node) (code : List Piece) (events : List Event) (path : List NodeId) :
    Prop where
  code_eq : s.code node.definition = .ok code
  walks_iff : forall es, Walks config (.visitAll code) es <-> es = events
  rootPath_iff : forall p, g.RootPath n p <-> p = path
  reads_eq : node.reads = events.filterMap Event.read?
  writes_eq : node.writes =
    node.definition.stateVariable?.toList ++ events.filterMap Event.write?
  recordsCalls : g.RecordsCalls s config linearization path (events.filterMap Event.declared?)
    node.calls

end Graph

/-!
# Code and events

The events of a definition are the write of its variable, if it has one, and the events of its code.
This write is no read and no call.
-/

theorem FunctionDecl.events_eq_flatMap (f : FunctionDecl) (config : Config) :
    f.events config = (Piece.ofBlock (f.body.getD [])).flatMap (Piece.events config) := by
  unfold FunctionDecl.events
  cases f.body with
  | none => rfl
  | some body =>
      show Stmt.eventsOfBlock config body = (body.map Piece.stmt).flatMap (Piece.events config)
      rw [Stmt.eventsOfBlock_eq_flatMap, List.flatMap_map]
      rfl

theorem StateVariableDecl.events_eq_cons (d : StateVariableDecl) (config : Config)
    (v : StateVariableId) :
    d.events config v =
      .write v :: (d.value.toList.map Piece.expr).flatMap (Piece.events config) := by
  rw [StateVariableDecl.events, Expr.eventsOfOption_eq_flatMap, List.flatMap_map]
  rfl

theorem exists_code_of_eventsOf {s : Store} {config : Config} {d : Definition}
    {events : List Event} (h : s.eventsOf config d = .ok events) :
    exists code, s.code d = .ok code ∧
      events = d.stateVariable?.toList.map .write ++ code.flatMap (Piece.events config) := by
  cases d with
  | function f =>
      rw [Store.eventsOf, bind_pure_eq_ok_iff] at h
      rcases h with ⟨decl, hdecl, rfl⟩
      refine ⟨Piece.ofBlock (decl.body.getD []), ?_, decl.events_eq_flatMap config⟩
      rw [Store.code, bind_pure_eq_ok_iff]
      exact ⟨decl, hdecl, rfl⟩
  | stateVariable v =>
      rw [Store.eventsOf, bind_pure_eq_ok_iff] at h
      rcases h with ⟨decl, hdecl, rfl⟩
      refine ⟨decl.value.toList.map .expr, ?_, decl.events_eq_cons config v⟩
      rw [Store.code, bind_pure_eq_ok_iff]
      exact ⟨decl, hdecl, rfl⟩
  | implicitConstructor id =>
      cases h
      exact ⟨[], rfl, rfl⟩

theorem filterMap_read?_map_write (vs : List StateVariableId) :
    (vs.map Event.write).filterMap Event.read? = [] := by
  rw [List.filterMap_map]
  exact List.filterMap_eq_nil_iff.mpr fun v _ => rfl

theorem filterMap_write?_map_write (vs : List StateVariableId) :
    (vs.map Event.write).filterMap Event.write? = vs := by
  rw [List.filterMap_map]
  exact List.filterMap_some

theorem filterMap_declared?_map_write (vs : List StateVariableId) :
    (vs.map Event.write).filterMap Event.declared? = [] := by
  rw [List.filterMap_map]
  exact List.filterMap_eq_nil_iff.mpr fun v _ => rfl

/-!
# Courses and events

A course keeps the reads and writes of its events, whether the calls between them are followed or
not.
-/

namespace Store

variable {s : Store} {config : Config} {linearization : List ContractId}
  {path : List Definition} {events : List Event} {course : Course}

theorem Unrolls.reads_eq (h : Unrolls s config linearization path events course) :
    course.reads = events.filterMap Event.read? := by
  induction h with
  | done => rfl
  | read _ ih => exact congrArg _ ih
  | write _ ih => exact ih
  | back _ _ _ ih => exact ih
  | cut _ _ _ _ ih => exact ih
  | call _ _ _ _ _ _ _ ihRest => exact ihRest

theorem Unrolls.writes_eq (h : Unrolls s config linearization path events course) :
    course.writes = events.filterMap Event.write? := by
  induction h with
  | done => rfl
  | read _ ih => exact ih
  | write _ ih => exact congrArg _ ih
  | back _ _ _ ih => exact ih
  | cut _ _ _ _ ih => exact ih
  | call _ _ _ _ _ _ _ ihRest => exact ihRest

end Store

/-!
# Executions and their nodes

The frames of an execution mirror the way from the root to its node. So a call that goes back finds a
frame, and with it a node on the way, while a call that is followed or cut leads to a function that no
node on the way executes.
-/

theorem exists_find?_of_mem_path {frames : List Frame} {d : Definition}
    (h : d ∈ frames.map (·.definition)) :
    exists frame, frame ∈ frames ∧ frame.definition = d ∧
      (frames.find? fun frame => frame.definition = d) = some frame := by
  rcases List.mem_map.mp h with ⟨first, hfirst, hdefinition⟩
  have hsome : (frames.find? fun frame => frame.definition = d).isSome := by
    rw [List.find?_isSome]
    exact ⟨first, hfirst, by simpa using hdefinition⟩
  rcases Option.isSome_iff_exists.mp hsome with ⟨frame, hframe⟩
  exact ⟨frame, List.mem_of_find?_eq_some hframe, by simpa using List.find?_some hframe, hframe⟩

section

variable {s : Store} {config : Config} {linearization : List ContractId}
  {roots : List Execution}

theorem recordsCalls_of_unrolls (h : Rooted roots) {e : Execution} (he : e ∈ forest roots)
    {path : List Definition} {events : List Event} {course : Course}
    (hunrolls : s.Unrolls config linearization path events course) (hpath : path = e.path)
    {next : Nat} (hcallees : forall c, c ∈ course.callees e.frames next -> c ∈ forest roots) :
    (Graph.ofExecutions roots).RecordsCalls s config linearization e.lineage
      (events.filterMap Event.declared?) (course.edges e.frames next) := by
  induction hunrolls generalizing next with
  | done => exact Graph.RecordsCalls.done
  | read _ ih => exact ih hpath hcallees
  | write _ ih => exact ih hpath hcallees
  | back hsite hmem _ ih =>
      rw [hpath] at hmem
      rcases exists_find?_of_mem_path hmem with ⟨frame, hframe, hdefinition, hfind⟩
      have hancestor := Graph.definition_of_mem_frames h he hframe
      rw [hdefinition] at hancestor
      rw [Course.edges, hfind]
      exact Graph.RecordsCalls.back hsite.dispatch (List.mem_map_of_mem hframe) hancestor
        (ih hpath hcallees)
  | cut hsite hfresh hdepth _ ih =>
      rw [hpath] at hfresh hdepth
      rw [← Graph.length_lineage] at hdepth
      have habsent := fun m hm =>
        Graph.definition_ne_of_not_mem_path h he hfresh (m := m) hm
      exact Graph.RecordsCalls.cut hsite.dispatch habsent hdepth (ih hpath hcallees)
  | call hsite hfresh hdepth _ _ _ _ ihRest =>
      rw [hpath] at hfresh hdepth
      rw [← Graph.length_lineage] at hdepth
      rw [Course.callees, List.forall_mem_cons] at hcallees
      rcases hcallees with ⟨hentered, hrest⟩
      have habsent := fun m hm =>
        Graph.definition_ne_of_not_mem_path h he hfresh (m := m) hm
      have hcallee := Graph.definition_ofExecutions h hentered
      exact Graph.RecordsCalls.call hsite.dispatch habsent hdepth hcallee
        (ihRest hpath hrest)

theorem describes_of_mem_forest (h : Rooted roots)
    (hunrolled : forall e, e ∈ roots -> e.Unrolled s config linearization) {e : Execution}
    (he : e ∈ forest roots) :
    exists code events, (Graph.ofExecutions roots).Describes s config linearization e.id e.node
      code events e.lineage := by
  rcases unrolled_of_mem_forest hunrolled e he with ⟨events, hevents, hunrolls⟩
  rcases exists_code_of_eventsOf hevents with ⟨code, hcode, rfl⟩
  have hreads := hunrolls.reads_eq
  have hwrites := hunrolls.writes_eq
  have hrecords := recordsCalls_of_unrolls h he hunrolls rfl
    fun c hc => callees_mem_forest he hc
  rw [List.filterMap_append, filterMap_read?_map_write, List.nil_append] at hreads
  rw [List.filterMap_append, filterMap_write?_map_write] at hwrites
  rw [List.filterMap_append, filterMap_declared?_map_write, List.nil_append] at hrecords
  refine ⟨code, code.flatMap (Piece.events config), ?_⟩
  exact {
    code_eq := hcode
    walks_iff := fun es => walks_visitAll_iff
    rootPath_iff := fun p => Graph.rootPath_iff_eq_lineage h he
    reads_eq := hreads
    writes_eq := hwrites
    recordsCalls := hrecords }

end

/-- Every node describes the code of its definition, whatever the way that leads to it. -/
theorem nodes_describe_code {create : Text.Path -> Except String Unit}
    {s : Store} {config : Config} {id : ContractId} {a : Analysis}
    (h : Analyzes create s config id a) {n : NodeId} {node : Node}
    (hnode : a.graph.node n = .ok node) :
    exists contract code events path, s.contract id = .ok contract ∧
      a.graph.Describes s config contract.linearization n node code events path := by
  rcases exists_roots_of_analyzes h with ⟨contract, roots, hcontract, hrooted, hgraph, hunrolled⟩
  rw [hgraph] at hnode
  rcases (Graph.node_ofExecutions_eq_ok_iff hrooted).mp hnode with ⟨e, he, rfl, rfl⟩
  rcases describes_of_mem_forest hrooted hunrolled he with ⟨code, events, hdescribes⟩
  rw [hgraph]
  exact ⟨contract, code, events, e.lineage, hcontract, hdescribes⟩

theorem describes_cycle :
    exists a, Analyzes (fun _ => .ok ()) Cycle.store {} ⟨0⟩ a ∧
      a.graph.node ⟨5⟩ = .ok ⟨.function ⟨3⟩, [.call ⟨6⟩], [], [⟨1⟩]⟩ ∧
      exists contract code events path, Cycle.store.contract ⟨0⟩ = .ok contract ∧
        a.graph.Describes Cycle.store {} contract.linearization ⟨5⟩
          ⟨.function ⟨3⟩, [.call ⟨6⟩], [], [⟨1⟩]⟩ code events path := by
  rcases Cycle.exists_analyzes with ⟨a, h, hgraph⟩
  have hnode : a.graph.node ⟨5⟩ = .ok ⟨.function ⟨3⟩, [.call ⟨6⟩], [], [⟨1⟩]⟩ := by
    rw [hgraph]
    rfl
  exact ⟨a, h, hnode, nodes_describe_code h hnode⟩

end CallForest
