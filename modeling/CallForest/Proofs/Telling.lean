import CallForest.Proofs.Expansion

/-!
# The log and the graph

The log of an analysis shows its warnings and, on the lowest level, each read and each write when it
is recorded. The warnings are those that the handler receives. The records are the expansions of the
roots, one after the other, so their order is determined by the graph and the code.
-/

namespace CallForest

def Analysis.messages (a : Analysis) (level : LogLevel) : List String :=
  (a.notices.filter fun notice => notice.level = level).map Notice.message

/-!
# Messages
-/

theorem map_message_filter_warn (notices : List Notice) :
    (notices.filter fun notice => notice.level = .warn).map Notice.message =
      (notices.filterMap Notice.warning?).map Warning.message := by
  induction notices with
  | nil => rfl
  | cons notice notices ih =>
      cases notice with
      | warning w => exact congrArg (w.message :: ·) ih
      | _ => exact ih

theorem Analysis.messages_warn (a : Analysis) :
    a.messages .warn = a.warnings.map Warning.message :=
  map_message_filter_warn a.notices

theorem DeclId.describe_inj {kind : DeclKind} {id id' : DeclId kind} :
    id.describe = id'.describe <-> id = id' := by
  rcases id with ⟨index⟩
  rcases id' with ⟨index'⟩
  rw [describe, describe, String.append_left_inj, String.append_right_inj,
    Nat.toString_eq_ofList_toDigits, Nat.toString_eq_ofList_toDigits, String.ofList_inj,
    DeclId.mk.injEq]
  constructor
  · intro h
    rw [← Nat.ofDigitChars_ten_toDigits (n := index), h, Nat.ofDigitChars_ten_toDigits]
  · intro h
    rw [h]

namespace Notice

theorem message_read (v : StateVariableId) :
    (read v).message = "Recorded read of state variable " ++ v.describe :=
  rfl

theorem message_write (v : StateVariableId) :
    (write v).message = "Recorded write of state variable " ++ v.describe :=
  rfl

theorem message_read_ne_message_write (v w : StateVariableId) :
    (read v).message ≠ (write w).message := by
  intro h
  rw [message_read, message_write] at h
  have hchars := congrArg (fun text => text.toList.take 10) h
  simp only [String.toList_append] at hchars
  rw [List.take_append_of_le_length (by decide), List.take_append_of_le_length (by decide)]
    at hchars
  exact absurd hchars (by decide)

theorem message_eq_message_notice_iff {notice : Notice} (h : notice.level = .trace)
    {access : Access} {v : StateVariableId} :
    notice.message = (access.notice v).message <-> access.recorded? notice = some v := by
  have hread (w : StateVariableId) : (read w).message = (read v).message <-> w = v := by
    rw [message_read, message_read, String.append_right_inj, DeclId.describe_inj]
  have hwrite (w : StateVariableId) : (write w).message = (write v).message <-> w = v := by
    rw [message_write, message_write, String.append_right_inj, DeclId.describe_inj]
  cases notice with
  | read w =>
      cases access with
      | read => exact (hread w).trans Option.some_inj.symm
      | write =>
          exact iff_of_false (message_read_ne_message_write w v) (Option.some_ne_none v).symm
  | write w =>
      cases access with
      | read =>
          exact iff_of_false (message_read_ne_message_write v w).symm (Option.some_ne_none v).symm
      | write => exact (hwrite w).trans Option.some_inj.symm
  | _ => cases h

end Notice

theorem count_message_notice {notices : List Notice}
    (h : forall notice, notice ∈ notices -> notice.level = .trace) (access : Access)
    (v : StateVariableId) :
    (notices.map Notice.message).count (access.notice v).message =
      (notices.filterMap access.recorded?).count v := by
  rw [List.count_eq_countP, List.countP_map, List.count_filterMap]
  apply List.countP_congr
  intro notice hnotice
  simp only [Function.comp_apply, beq_iff_eq]
  exact Notice.message_eq_message_notice_iff (h notice hnotice)

/-!
# Expansions of executions
-/

section

variable {s : Store} {config : Config} {linearization : List ContractId}
  {roots : List Execution}

theorem expands_of_unrolls (h : Rooted roots) {path : List Definition} {events : List Event}
    {course : Course} (hunrolls : s.Unrolls config linearization path events course)
    {e : Execution} (he : e ∈ forest roots) (hpath : path = e.path) {next : Nat}
    (hinside : forall c, c ∈ course.executions e.frames next -> c ∈ forest roots) :
    (Graph.ofExecutions roots).Expands s config linearization e.lineage events
      (course.edges e.frames next) course.records := by
  induction hunrolls generalizing e next with
  | done => exact .done
  | read _ ih => exact .read (ih he hpath hinside)
  | write _ ih => exact .write (ih he hpath hinside)
  | back hsite hmem _ ih =>
      rw [hpath] at hmem
      rcases exists_find?_of_mem_path hmem with ⟨frame, hframe, hdefinition, hfind⟩
      have hancestor := Graph.definition_of_mem_frames h he hframe
      rw [hdefinition] at hancestor
      rw [Course.edges, hfind]
      exact .back hsite.dispatch (List.mem_map_of_mem hframe) hancestor (ih he hpath hinside)
  | cut hsite hfresh hdepth _ ih =>
      rw [hpath] at hfresh hdepth
      rw [← Graph.length_lineage] at hdepth
      exact .cut hsite.dispatch
        (fun m hm => Graph.definition_ne_of_not_mem_path h he hfresh (m := m) hm) hdepth
        (ih he hpath hinside)
  | call hsite hfresh hdepth hinner _ _ ihBody ihRest =>
      rw [hpath] at hfresh hdepth
      rw [← Graph.length_lineage] at hdepth
      rw [Course.executions, List.forall_mem_cons, List.forall_mem_append] at hinside
      rcases hinside with ⟨hentered, hbody, hrest⟩
      rcases exists_code_of_eventsOf hinner with ⟨code, hcode, hevents⟩
      have hbelow := ihBody hentered (congrArg _ hpath) hbody
      exact .call hsite.dispatch
        (fun m hm => Graph.definition_ne_of_not_mem_path h he hfresh (m := m) hm) hdepth
        (Graph.node_ofExecutions h hentered) rfl hcode (walks_visitAll_iff.mpr hevents) hbelow
        (ihRest he hpath hrest)

theorem expandsAt_of_mem_forest (h : Rooted roots)
    (hunrolled : forall e, e ∈ roots -> e.Unrolled s config linearization) {e : Execution}
    (he : e ∈ forest roots) :
    (Graph.ofExecutions roots).ExpandsAt s config linearization (e.outer.map Frame.node) e.id
      e.course.records := by
  rcases unrolled_of_mem_forest hunrolled e he with ⟨events, hevents, hunrolls⟩
  rcases exists_code_of_eventsOf hevents with ⟨code, hcode, rfl⟩
  refine ⟨e.node, code, _, Graph.node_ofExecutions h he, hcode, walks_visitAll_iff.mpr rfl, ?_⟩
  exact expands_of_unrolls h hunrolls he rfl
    fun c hc => subtree_mem_forest he c (List.mem_cons_of_mem _ hc)

end

/-!
# The log of an analysis
-/

/-- The log tells the warnings that an analysis emits, and the records of its roots in the order of
their expansions. -/
structure Analysis.LogAgrees (a : Analysis) (s : Store) (config : Config)
    (linearization : List ContractId) (emitted : List Warning) : Prop where
  warnings : a.messages .warn = emitted.map Warning.message
  records : exists expansions,
    List.Forall₂ (a.graph.ExpandsAt s config linearization []) a.graph.roots expansions ∧
      a.messages .trace = expansions.flatten.map Notice.message
  determined : forall path n notices notices',
    a.graph.ExpandsAt s config linearization path n notices ->
    a.graph.ExpandsAt s config linearization path n notices' -> notices = notices'
  nodes : forall n node, a.graph.node n = .ok node -> exists path notices,
    a.graph.RootPath n (n :: path) ∧
      a.graph.ExpandsAt s config linearization path n notices ∧
      notices.map Notice.message <:+: a.messages .trace
  assignments : forall path n notices d code p role target op value note,
    a.graph.ExpandsAt s config linearization path n notices -> a.graph.definition n = .ok d ->
    s.code d = .ok code -> p ∈ code ->
    p.ComesTo config role (.assign target op value note) ->
    a.graph.RecordsAssignment s config linearization (n :: path) target value notices
  counts : forall (access : Access) v, (a.messages .trace).count (access.notice v).message =
    (a.graph.nodes.toList.flatMap access.ofNode).count v

section

variable {s : Store} {config : Config} {linearization : List ContractId}
  {roots : List Execution}

theorem forall₂_expandsAt_roots (h : Rooted roots)
    (hunrolled : forall e, e ∈ roots -> e.Unrolled s config linearization) :
    List.Forall₂ ((Graph.ofExecutions roots).ExpandsAt s config linearization [])
      (Graph.ofExecutions roots).roots (roots.map fun e => e.course.records) := by
  show List.Forall₂ _ (roots.map Execution.id) _
  rw [List.forall₂_map_left_iff, List.forall₂_map_right_iff, List.forall₂_same]
  intro e he
  have hexpands := expandsAt_of_mem_forest h hunrolled (mem_forest_of_mem he)
  rw [h.outer_eq_nil e he] at hexpands
  exact hexpands

theorem exists_expandsAt_of_node (h : Rooted roots)
    (hunrolled : forall e, e ∈ roots -> e.Unrolled s config linearization) {n : NodeId}
    {node : Node} (hnode : (Graph.ofExecutions roots).node n = .ok node) :
    exists path notices, (Graph.ofExecutions roots).RootPath n (n :: path) ∧
      (Graph.ofExecutions roots).ExpandsAt s config linearization path n notices ∧
      notices <:+: roots.flatMap fun root => root.course.records := by
  rcases (Graph.node_ofExecutions_eq_ok_iff h).mp hnode with ⟨e, he, rfl, _⟩
  exact ⟨e.outer.map Frame.node, e.course.records, Graph.rootPath_lineage h e he,
    expandsAt_of_mem_forest h hunrolled he, isInfix_records_of_mem_forest e he⟩

theorem count_message_ofExecutions {notices : List Notice}
    (h : recordsOf notices = roots.flatMap fun e => e.course.records) (access : Access)
    (v : StateVariableId) :
    ((recordsOf notices).map Notice.message).count (access.notice v).message =
      ((Graph.ofExecutions roots).nodes.toList.flatMap access.ofNode).count v := by
  have hperm := flatMap_records_perm roots
  rw [← h] at hperm
  have hnodes : (Graph.ofExecutions roots).nodes.toList = (forest roots).map Execution.node := rfl
  rw [count_message_notice fun _ => level_of_mem_recordsOf,
    (hperm.filterMap access.recorded?).count_eq, List.filterMap_flatMap, hnodes,
    List.flatMap_map]
  simp only [Course.filterMap_recorded?_ownRecords, Access.ofNode_node]

theorem logAgrees_of_recordsOf {a : Analysis} (hrooted : Rooted roots)
    (hunrolled : forall e, e ∈ roots -> e.Unrolled s config linearization)
    (hgraph : a.graph = Graph.ofExecutions roots)
    (hrecords : recordsOf a.notices = roots.flatMap fun e => e.course.records) :
    a.LogAgrees s config linearization a.warnings where
  warnings := a.messages_warn
  records := by
    rw [hgraph]
    refine ⟨_, forall₂_expandsAt_roots hrooted hunrolled, ?_⟩
    show (recordsOf a.notices).map Notice.message = _
    rw [hrecords, List.flatMap_def]
  determined := by
    intro path n notices notices' h h'
    exact h.notices_eq h'
  nodes := by
    intro n node hnode
    rw [hgraph] at hnode ⊢
    rcases exists_expandsAt_of_node hrooted hunrolled hnode with
      ⟨path, notices, hpath, hexpands, hinfix⟩
    refine ⟨path, notices, hpath, hexpands, ?_⟩
    show _ <:+: (recordsOf a.notices).map Notice.message
    rw [hrecords]
    exact hinfix.map Notice.message
  assignments := by
    intro path n notices d code p role target op value note hexpands hd hcode hp hcomes
    exact hexpands.recordsAssignment hd hcode hp hcomes
  counts := by
    intro access v
    rw [hgraph]
    exact count_message_ofExecutions hrecords access v

end

/-- The log of an analysis tells its warnings as the handler receives them, and its reads and writes
in the order in which the roots are expanded. -/
theorem log_agrees {create : Text.Path -> Except String Unit} {s : Store}
    {config : Config} {id : ContractId} {a : Analysis} {before after : Handler}
    (h : Analyzing.runIn before (analyzeContract create s config id) =
      .ok ((.ok a.graph, after), a.toOutput)) :
    exists contract emitted, s.contract id = .ok contract ∧
      after = { before with warnings := before.warnings ++ emitted } ∧
      a.LogAgrees s config contract.linearization emitted := by
  rcases run_and_after_of_runIn_analyzeContract h with ⟨hrun, hafter⟩
  rcases run_eq_ok_iff.mp hrun with
    ⟨contract, entries, drawing, hcontract, _, hentries, hdrawing, rfl⟩
  refine ⟨contract, _, hcontract, hafter, ?_⟩
  exact logAgrees_of_recordsOf (rooted_rootExecutions _)
    (fun _ => unrolled_of_mem_rootExecutions hentries) (Graph.ofEntryPoints_eq entries)
    (recordsOf_run hdrawing _ _ entries)

theorem logAgrees_cycle :
    exists (a : Analysis) (after : Handler),
      Analyzing.runIn {} (analyzeContract (fun _ => .ok ()) Cycle.store {} ⟨0⟩) =
        .ok ((.ok a.graph, after), a.toOutput) ∧
      a.graph = Cycle.graph ∧
      exists contract emitted, Cycle.store.contract ⟨0⟩ = .ok contract ∧
        after = { ({} : Handler) with warnings := [] ++ emitted } ∧
        a.LogAgrees Cycle.store {} contract.linearization emitted := by
  rcases Cycle.exists_analyzes with ⟨a, h, hgraph⟩
  have hrun := runIn_analyzeContract_of_run_eq_ok (analyzes_iff_run_eq_ok.mp h) {}
  exact ⟨a, _, hrun, hgraph, log_agrees hrun⟩

end CallForest
