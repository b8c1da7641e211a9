import CallForest.Proofs.Recursion

/-!
# Recursive edges and their warnings

An analysis reports every function that a recursive edge leads to, once, along the cycle that the
first of these edges closes. If the nesting is not bounded, there is a report as soon as the calls
below the roots run in a cycle at all: an execution that calls a function on its path closes the
cycle, and as long as none does, every call leads one step further down.
-/

namespace CallForest

open Relation

namespace Graph

def IsNamed (g : Graph) (s : Store) (n : NodeId) (name : Ident) : Prop :=
  exists f decl, g.definition n = .ok (.function f) ∧ s.function f = .ok decl ∧ decl.name = name

def WayDown (g : Graph) (top bottom : NodeId) (way : List NodeId) : Prop :=
  exists below above, g.RootPath bottom (below ++ top :: above) ∧ way = top :: below.reverse

def IsFirstReturn (g : Graph) (edges : List (NodeId × NodeId)) (f : FunctionId)
    (holder ancestor : NodeId) : Prop :=
  g.definition ancestor = .ok (.function f) ∧
    exists earlier later, edges = earlier ++ (holder, ancestor) :: later ∧
      forall edge, edge ∈ earlier -> g.definition edge.2 ≠ .ok (.function f)

/-- A warning reports a function, and its chain names the functions on the way down from `ancestor`
to `holder`, the reported one first. -/
def SpellsCycle (g : Graph) (s : Store) (w : Warning) (f : FunctionId)
    (holder ancestor : NodeId) : Prop :=
  exists decl chain way, s.function f = .ok decl ∧ w.cause = .recursiveCall decl.name chain ∧
    chain.head? = some decl.name ∧ g.WayDown ancestor holder way ∧
    List.Forall₂ (g.IsNamed s) way chain

/-- Some warnings report each function that a recursive edge leads to once, along the cycle that its
first recursive edge closes, and report no other function. -/
structure ReportsRecursion (g : Graph) (s : Store) (edges : List (NodeId × NodeId))
    (reported : List FunctionId) (warnings : List Warning) : Prop where
  recursiveEdges_eq : g.recursiveEdges = .ok edges
  mem_edges_iff : forall holder ancestor, (holder, ancestor) ∈ edges <->
    exists node, g.node holder = .ok node ∧ Edge.recursive ancestor ∈ node.calls
  nodup_reported : reported.Nodup
  mem_reported_iff : forall f, f ∈ reported <->
    exists holder ancestor, (holder, ancestor) ∈ edges ∧
      g.definition ancestor = .ok (.function f)
  warned : List.Forall₂
    (fun f w => exists holder ancestor, g.IsFirstReturn edges f holder ancestor ∧
      g.SpellsCycle s w f holder ancestor)
    reported (warnings.filter Warning.isRecursiveCall)

section

variable {s : Store} {config : Config} {linearization : List ContractId}
  {roots : List Execution}

theorem exists_edge_of_mem_returnsIn (h : Rooted roots)
    (hunrolled : forall e, e ∈ roots -> e.Unrolled s config linearization) {r : Return}
    (hr : r ∈ returnsIn roots) :
    exists ancestor, r.edge? = some (r.holder.id, ancestor) ∧
      (ofExecutions roots).definition ancestor = .ok (.function r.target) := by
  rcases exists_frames_of_mem_returnsIn hunrolled hr with
    ⟨below, frame, above, hframes, hframe, _, hedge⟩
  have hmem : frame ∈ r.holder.frames := by
    rw [hframes]
    exact List.mem_append_right _ List.mem_cons_self
  refine ⟨frame.node, hedge, ?_⟩
  rw [definition_of_mem_frames h (mem_returnsIn_iff.mp hr).1 hmem, hframe]

theorem isFirstReturn_of_returnsIn_eq_append (h : Rooted roots)
    (hunrolled : forall e, e ∈ roots -> e.Unrolled s config linearization) {r : Return}
    {earlier later : List Return} (heq : returnsIn roots = earlier ++ r :: later)
    (hother : forall other, other ∈ earlier -> other.target ≠ r.target) {ancestor : NodeId}
    (hedge : r.edge? = some (r.holder.id, ancestor))
    (hancestor : (ofExecutions roots).definition ancestor = .ok (.function r.target)) :
    (ofExecutions roots).IsFirstReturn ((returnsIn roots).filterMap Return.edge?) r.target
      r.holder.id ancestor := by
  refine ⟨hancestor, earlier.filterMap Return.edge?, later.filterMap Return.edge?, ?_, ?_⟩
  · rw [heq, List.filterMap_append, List.filterMap_cons_some hedge]
  · intro edge hmem hsame
    rcases List.mem_filterMap.mp hmem with ⟨other, hearlier, hfound⟩
    have hreturn : other ∈ returnsIn roots := by
      rw [heq]
      exact List.mem_append_left _ hearlier
    rcases exists_edge_of_mem_returnsIn h hunrolled hreturn with ⟨_, hown, hdefinition⟩
    cases hown.symm.trans hfound
    rw [hdefinition, Except.ok.injEq, Definition.function.injEq] at hsame
    exact hother other hearlier hsame

theorem spellsCycle_of_mem_returnsIn (h : Rooted roots)
    (hunrolled : forall e, e ∈ roots -> e.Unrolled s config linearization) {r : Return}
    (hr : r ∈ returnsIn roots) {ancestor : NodeId}
    (hancestor : r.edge? = some (r.holder.id, ancestor)) :
    (ofExecutions roots).SpellsCycle s (r.warning s) r.target r.holder.id ancestor := by
  rcases mem_returnsIn_iff.mp hr with ⟨he, hsite⟩
  rcases exists_frames_of_mem_returnsIn hunrolled hr with
    ⟨below, frame, above, hframes, hframe, hother, hedge⟩
  cases hedge.symm.trans hancestor
  rcases unrolled_of_mem_forest hunrolled r.holder he with ⟨events, _, hunrolls⟩
  rcases (hunrolls.dispatches_of_mem_backSites hsite).2.2 with ⟨decl, hdecl, hname⟩
  have hstored := exists_decl_of_mem_below h hunrolled r.holder he below frame above hframes
  rcases Store.exists_names_of_namedPath hframe hdecl above hstored hother with
    ⟨names, hnames, htake⟩
  have hpath := rootPath_lineage h r.holder he
  rw [Execution.lineage, hframes, List.map_append, List.map_cons] at hpath
  have hdefinition : forall b, b ∈ r.holder.frames ->
      (ofExecutions roots).definition b.node = .ok b.definition :=
    fun b hb => definition_of_mem_frames h he hb
  rw [hframes] at hdefinition
  have hbelow : List.Forall₂ ((ofExecutions roots).IsNamed s) (below.map (·.node)) names := by
    rw [List.forall₂_map_left_iff]
    refine ((List.forall₂_and_left _ _).mpr
      ⟨fun b hb => hdefinition b (List.mem_append_left _ hb), hnames⟩).imp ?_
    intro b name hboth
    rcases hboth with ⟨hb, f, fdecl, hf, hfdecl, hfname⟩
    exact ⟨f, fdecl, hb.trans (congrArg _ hf), hfdecl, hfname⟩
  have htop : (ofExecutions roots).definition frame.node = .ok (.function r.target) := by
    rw [hdefinition frame (List.mem_append_right _ List.mem_cons_self), hframe]
  refine ⟨decl, decl.name :: names.reverse, frame.node :: (below.map (·.node)).reverse, hdecl,
    ?_, rfl, ⟨_, _, hpath, rfl⟩, .cons ⟨_, decl, htop, hdecl, rfl⟩ ?_⟩
  · rw [← htake, ← hname, ← hframes]
    rfl
  · exact List.forall₂_reverse_iff.mpr hbelow

theorem reportsRecursion_ofExecutions (h : Rooted roots)
    (hunrolled : forall e, e ∈ roots -> e.Unrolled s config linearization)
    {warnings : List Warning}
    (hwarnings : warnings.filter Warning.isRecursiveCall =
      (firstsBy Return.target [] (returnsIn roots)).map (Return.warning s)) :
    (ofExecutions roots).ReportsRecursion s ((returnsIn roots).filterMap Return.edge?)
      ((firstsBy Return.target [] (returnsIn roots)).map Return.target) warnings where
  recursiveEdges_eq := recursiveEdges_ofExecutions h
  mem_edges_iff _ _ := mem_recursiveEdges_iff h
  nodup_reported := nodup_map_firstsBy
  mem_reported_iff := by
    intro f
    rw [mem_map_firstsBy_iff, List.mem_map]
    constructor
    · intro hf
      rcases hf with ⟨_, r, hr, rfl⟩
      rcases exists_edge_of_mem_returnsIn h hunrolled hr with ⟨ancestor, hedge, hancestor⟩
      exact ⟨r.holder.id, ancestor, List.mem_filterMap.mpr ⟨r, hr, hedge⟩, hancestor⟩
    · intro hf
      rcases hf with ⟨holder, ancestor, hmem, hancestor⟩
      rcases List.mem_filterMap.mp hmem with ⟨r, hr, hedge⟩
      rcases exists_edge_of_mem_returnsIn h hunrolled hr with ⟨_, hown, hdefinition⟩
      cases hown.symm.trans hedge
      rw [hdefinition, Except.ok.injEq, Definition.function.injEq] at hancestor
      exact ⟨List.not_mem_nil, r, hr, hancestor⟩
  warned := by
    rw [hwarnings, List.forall₂_map_left_iff, List.forall₂_map_right_iff, List.forall₂_same]
    intro r hfirst
    rcases exists_append_of_mem_firstsBy hfirst with ⟨earlier, later, heq, hother⟩
    have hr : r ∈ returnsIn roots := by
      rw [heq]
      exact List.mem_append_right _ List.mem_cons_self
    rcases exists_edge_of_mem_returnsIn h hunrolled hr with ⟨ancestor, hedge, hancestor⟩
    exact ⟨r.holder.id, ancestor,
      isFirstReturn_of_returnsIn_eq_append h hunrolled heq hother hedge hancestor,
      spellsCycle_of_mem_returnsIn h hunrolled hr hedge⟩

end

end Graph

/-!
# Cycles of calls

A call that goes back closes a cycle through the functions on the path. If no call goes back, each
call starts an execution with a longer path, on which the caller stays.
-/

theorem Store.Unrolls.exists_mem_backSites {s : Store} {config : Config}
    {linearization : List ContractId} {path : List Definition} {events : List Event}
    {course : Course} (h : s.Unrolls config linearization path events course)
    {declared target : FunctionId} {span : Span} (hcall : Event.call declared span ∈ events)
    (hdispatch : s.finalOverride linearization declared = .ok target)
    (hmem : Definition.function target ∈ path) :
    exists site, site ∈ course.backSites := by
  induction h with
  | done => cases hcall
  | read _ ih =>
      rcases List.mem_cons.mp hcall with heq | hcall
      · cases heq
      · exact ih hcall hmem
  | write _ ih =>
      rcases List.mem_cons.mp hcall with heq | hcall
      · cases heq
      · exact ih hcall hmem
  | back _ _ _ _ => exact ⟨_, List.mem_cons_self⟩
  | cut hsite hfresh _ _ ih =>
      rcases List.mem_cons.mp hcall with heq | hcall
      · cases heq
        cases hsite.dispatch.symm.trans hdispatch
        exact absurd hmem hfresh
      · exact ih hcall hmem
  | call hsite hfresh _ _ _ _ _ ihRest =>
      rcases List.mem_cons.mp hcall with heq | hcall
      · cases heq
        cases hsite.dispatch.symm.trans hdispatch
        exact absurd hmem hfresh
      · exact ihRest hcall hmem

namespace Graph

def Reaches (g : Graph) (s : Store) (config : Config) (linearization : List ContractId)
    (d : Definition) : Prop :=
  exists r root, r ∈ g.roots ∧ g.definition r = .ok root ∧
    ReflTransGen (s.Calls config linearization) root d

def CallsBelow (g : Graph) (s : Store) (config : Config) (linearization : List ContractId)
    (caller callee : Definition) : Prop :=
  g.Reaches s config linearization caller ∧ s.Calls config linearization caller callee

end Graph

section

variable {s : Store} {config : Config} {linearization : List ContractId}
  {roots : List Execution}

theorem callsBelow_of_mem_path (h : Rooted roots)
    (hunrolled : forall e, e ∈ roots -> e.Unrolled s config linearization) :
    forall e, e ∈ forest roots ->
      (Graph.ofExecutions roots).Reaches s config linearization e.definition ∧
        forall d, d ∈ e.path ->
          ReflTransGen ((Graph.ofExecutions roots).CallsBelow s config linearization)
            d e.definition := by
  refine forall_mem_forest ?_ ?_
  · intro e he
    refine ⟨⟨e.id, e.definition, Graph.mem_roots_ofExecutions.mpr ⟨e, he, rfl⟩,
      Graph.definition_ofExecutions h (mem_forest_of_mem he), ReflTransGen.refl⟩, ?_⟩
    intro d hd
    rw [Execution.path_of_outer_eq_nil (h.outer_eq_nil e he), List.mem_singleton] at hd
    rw [hd]
  · intro e he ih c hc
    rcases ih with ⟨hreaches, hpath⟩
    have hcalls := (unrolled_of_mem_forest hunrolled e he).calls_of_mem_callees hc
    constructor
    · rcases hreaches with ⟨r, root, hr, hroot, hway⟩
      exact ⟨r, root, hr, hroot, hway.tail hcalls⟩
    · intro d hd
      rw [Execution.path_of_mem_callees hc] at hd
      rcases List.mem_cons.mp hd with rfl | hd
      · exact ReflTransGen.refl
      · exact (hpath d hd).tail ⟨hreaches, hcalls⟩

theorem exists_cycle_of_mem_returnsIn (h : Rooted roots)
    (hunrolled : forall e, e ∈ roots -> e.Unrolled s config linearization) {r : Return}
    (hr : r ∈ returnsIn roots) :
    exists d, TransGen ((Graph.ofExecutions roots).CallsBelow s config linearization) d d := by
  rcases mem_returnsIn_iff.mp hr with ⟨he, hsite⟩
  rcases callsBelow_of_mem_path h hunrolled r.holder he with ⟨hreaches, hpath⟩
  rcases unrolled_of_mem_forest hunrolled r.holder he with ⟨events, hevents, hunrolls⟩
  rcases hunrolls.dispatches_of_mem_backSites hsite with
    ⟨⟨declared, span, target, hcall, hdispatch, htarget⟩, hmem, _⟩
  have hmeets := (Store.meets_call_iff hevents declared span).mpr hcall
  have hcalls : s.Calls config linearization r.holder.definition (.function r.target) :=
    ⟨declared, span, target, hmeets, hdispatch, htarget⟩
  exact ⟨_, TransGen.tail' (hpath _ hmem) ⟨hreaches, hcalls⟩⟩

theorem exists_callee_of_returnsIn_eq_nil
    (hunrolled : forall e, e ∈ roots -> e.Unrolled s config linearization)
    (hdepth : config.maxCallDepth = none) (hnone : returnsIn roots = []) {e : Execution}
    (he : e ∈ forest roots) {d : Definition}
    (hcalls : s.Calls config linearization e.definition d) :
    exists c, c ∈ e.callees ∧ c.definition = d := by
  have hunrolledAt := unrolled_of_mem_forest hunrolled e he
  apply hunrolledAt.exists_callee_of_calls hdepth hcalls
  intro hmem
  rcases hunrolledAt with ⟨events, hevents, hunrolls⟩
  rcases hcalls with ⟨declared, span, target, hmeets, hdispatch, rfl⟩
  have hcall := (Store.meets_call_iff hevents declared span).mp hmeets
  rcases hunrolls.exists_mem_backSites hcall hdispatch hmem with ⟨site, hsite⟩
  have hr : (⟨e, site⟩ : Return) ∈ returnsIn roots := mem_returnsIn_iff.mpr ⟨he, hsite⟩
  rw [hnone] at hr
  cases hr

theorem exists_below_of_returnsIn_eq_nil
    (hunrolled : forall e, e ∈ roots -> e.Unrolled s config linearization)
    (hdepth : config.maxCallDepth = none) (hnone : returnsIn roots = []) {e : Execution}
    (he : e ∈ forest roots) {d : Definition}
    (hway : TransGen (s.Calls config linearization) e.definition d) :
    exists c, c ∈ forest roots ∧ c.definition = d ∧
      e.definition ∈ c.outer.map (·.definition) := by
  induction hway with
  | single hcalls =>
      rcases exists_callee_of_returnsIn_eq_nil hunrolled hdepth hnone he hcalls with ⟨c, hc, rfl⟩
      refine ⟨c, callees_mem_forest he hc, rfl, ?_⟩
      rw [Execution.outer_of_mem_callees hc]
      exact List.mem_cons_self
  | tail _ hcalls ih =>
      rcases ih with ⟨p, hp, rfl, hmem⟩
      rcases exists_callee_of_returnsIn_eq_nil hunrolled hdepth hnone hp hcalls with ⟨c, hc, rfl⟩
      refine ⟨c, callees_mem_forest hp hc, rfl, ?_⟩
      rw [Execution.outer_of_mem_callees hc]
      exact List.mem_cons_of_mem _ hmem

theorem returnsIn_eq_nil_iff (h : Rooted roots)
    (hunrolled : forall e, e ∈ roots -> e.Unrolled s config linearization)
    (hdepth : config.maxCallDepth = none) :
    returnsIn roots = [] <->
      forall d, ¬ TransGen ((Graph.ofExecutions roots).CallsBelow s config linearization) d d := by
  constructor
  · intro hnone d hcycle
    rcases TransGen.head'_iff.mp hcycle with ⟨_, ⟨⟨r, root, hr, hroot, hreaches⟩, _⟩, _⟩
    rcases Graph.mem_roots_ofExecutions.mp hr with ⟨start, hstart, rfl⟩
    rw [Graph.definition_ofExecutions h (mem_forest_of_mem hstart), Except.ok.injEq] at hroot
    rw [← hroot] at hreaches
    rcases ((hunrolled start hstart).exists_definition_iff (h.outer_eq_nil start hstart)
      hdepth d).mpr hreaches with ⟨e, he, rfl⟩
    have hforest := mem_forest_of_mem_subtree hstart he
    have hway : TransGen (s.Calls config linearization) e.definition e.definition :=
      TransGen.mono (fun _ _ hcalls => hcalls.2) _ _ hcycle
    rcases exists_below_of_returnsIn_eq_nil hunrolled hdepth hnone hforest hway with
      ⟨c, hc, hdefinition, hmem⟩
    have hnodup := Graph.nodup_path_of_mem_forest h hunrolled c hc
    rw [← hdefinition] at hmem
    exact (List.nodup_cons.mp hnodup).1 hmem
  · intro hacyclic
    rw [List.eq_nil_iff_forall_not_mem]
    intro r hr
    rcases exists_cycle_of_mem_returnsIn h hunrolled hr with ⟨d, hcycle⟩
    exact hacyclic d hcycle

end

/-- Each function that a recursive edge leads to is warned about once, along the cycle that is closed
first. Without a limit on the nesting nothing is warned about exactly if the calls below the roots
are acyclic. -/
theorem recursion_is_reported_exactly {create : Text.Path -> Except String Unit}
    {s : Store} {config : Config} {id : ContractId} {a : Analysis} {before after : Handler}
    (h : Analyzing.runIn before (analyzeContract create s config id) =
      .ok ((.ok a.graph, after), a.toOutput)) :
    exists contract own edges reported, s.contract id = .ok contract ∧
      after = { before with warnings := before.warnings ++ own } ∧
      a.graph.ReportsRecursion s edges reported own ∧
      (config.maxCallDepth = none ->
        ((forall w, w ∈ own -> w.isRecursiveCall = false) <->
          forall d, ¬ TransGen (a.graph.CallsBelow s config contract.linearization) d d)) := by
  rcases run_and_after_of_runIn_analyzeContract h with ⟨hrun, hafter⟩
  rcases run_eq_ok_iff.mp hrun with
    ⟨contract, entries, drawing, hcontract, _, hentries, hdrawing, rfl⟩
  let roots := rootExecutions 0 (entries.filterMap EntryPoint.root?)
  have hrooted : Rooted roots := rooted_rootExecutions _
  have hunrolled : forall e, e ∈ roots -> e.Unrolled s config contract.linearization :=
    fun e he => unrolled_of_mem_rootExecutions hentries he
  rw [Analysis.warnings_eq hdrawing] at hafter
  have hwarnings := recursionWarnings_storyOfList (unrolled_of_mem_entryPoints hentries)
    contract.name 0 []
  rw [warningsOf] at hwarnings
  rw [Graph.ofEntryPoints_eq]
  refine ⟨contract, _, _, _, hcontract, hafter,
    Graph.reportsRecursion_ofExecutions hrooted hunrolled hwarnings, ?_⟩
  intro hdepth
  rw [← returnsIn_eq_nil_iff hrooted hunrolled hdepth, ← firstsBy_eq_nil_iff Return.target,
    ← List.map_eq_nil_iff (f := Return.warning s), ← hwarnings, List.filter_eq_nil_iff]
  simp only [Bool.not_eq_true]

theorem reportsRecursion_cycle :
    exists a : Analysis, Analyzing.runIn {} (analyzeContract (fun _ => .ok ()) Cycle.store {} ⟨0⟩) =
        .ok ((.ok a.graph, { warnings := a.warnings }), a.toOutput) ∧
      a.graph.recursiveEdges = .ok [(⟨2⟩, ⟨1⟩), (⟨6⟩, ⟨5⟩)] ∧
      exists contract own edges reported, Cycle.store.contract ⟨0⟩ = .ok contract ∧
        ({ warnings := a.warnings } : Handler) = { warnings := own } ∧
        a.graph.ReportsRecursion Cycle.store edges reported own ∧
        (({} : Config).maxCallDepth = none ->
          ((forall w, w ∈ own -> w.isRecursiveCall = false) <->
            forall d,
              ¬ TransGen (a.graph.CallsBelow Cycle.store {} contract.linearization) d d)) := by
  rcases Cycle.exists_analyzes with ⟨a, h, hgraph⟩
  have hrun := runIn_analyzeContract_of_run_eq_ok (analyzes_iff_run_eq_ok.mp h) {}
  have hedges : a.graph.recursiveEdges = .ok [(⟨2⟩, ⟨1⟩), (⟨6⟩, ⟨5⟩)] := by
    rw [hgraph]
    rfl
  exact ⟨a, hrun, hedges, recursion_is_reported_exactly hrun⟩

end CallForest
