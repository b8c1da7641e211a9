import CallForest.Proofs.Contents
import CallForest.Proofs.Walking
import Mathlib.Logic.Relation

/-!
# What a root reaches

A graph cuts every call that returns to a function on the way from the root. Nothing is lost by this:
a function that can be reached at all can be reached without meeting any function twice, and a call
that leads to a new function is always followed, as long as the nesting is not bounded. So the nodes
below a root execute exactly the definitions that its definition leads to, and they read and write
exactly the state variables that the code of these definitions reads and writes.
-/

namespace CallForest

open Relation

/-!
# Simple ways

A way that meets no point twice can be left at each point on it. So what can be reached can be
reached on such a way: a step to a new point makes it longer, and a step back to a point on it leaves
it there.
-/

section

variable {alpha : Type} {r : alpha -> alpha -> Prop} {start : alpha}

/-- The points on a way that meets no point twice, the last one first. -/
inductive SimpleWay (r : alpha -> alpha -> Prop) (start : alpha) : List alpha -> Prop where
  | start :
      SimpleWay r start [start]
  | step {a b : alpha} {path : List alpha} :
      SimpleWay r start (a :: path) -> r a b -> b ∉ a :: path ->
      SimpleWay r start (b :: a :: path)

theorem SimpleWay.exists_of_mem {path : List alpha} (h : SimpleWay r start path) {b : alpha}
    (hb : b ∈ path) : exists rest, SimpleWay r start (b :: rest) := by
  induction h with
  | start =>
      cases List.mem_singleton.mp hb
      exact ⟨[], SimpleWay.start⟩
  | step hway hstep hnew ih =>
      rcases List.mem_cons.mp hb with rfl | hb
      · exact ⟨_, SimpleWay.step hway hstep hnew⟩
      · exact ih hb

theorem exists_simpleWay {b : alpha} (h : ReflTransGen r start b) :
    exists path, SimpleWay r start (b :: path) := by
  induction h with
  | refl => exact ⟨[], SimpleWay.start⟩
  | tail _ hstep ih =>
      rename_i a b _
      rcases ih with ⟨path, hway⟩
      by_cases hb : b ∈ a :: path
      · exact hway.exists_of_mem hb
      · exact ⟨a :: path, SimpleWay.step hway hstep hb⟩

end

/-!
# What code calls, reads and writes

Both ends of the comparison are relations between definitions and what walks through their code meet.
Neither mentions an execution.
-/

namespace Store

def Meets (s : Store) (config : Config) (d : Definition) (event : Event) : Prop :=
  exists code events, s.code d = .ok code ∧ Walks config (.visitAll code) events ∧
    event ∈ events

def Calls (s : Store) (config : Config) (linearization : List ContractId)
    (d d' : Definition) : Prop :=
  exists declared span target, s.Meets config d (.call declared span) ∧
    s.finalOverride linearization declared = .ok target ∧ d' = .function target

def Dispatches (s : Store) (linearization : List ContractId) (events : List Event)
    (d : Definition) : Prop :=
  exists declared span target, Event.call declared span ∈ events ∧
    s.finalOverride linearization declared = .ok target ∧ d = .function target

variable {s : Store} {config : Config} {linearization : List ContractId}

theorem Dispatches.cons {events : List Event} {d : Definition}
    (h : s.Dispatches linearization events d) (event : Event) :
    s.Dispatches linearization (event :: events) d := by
  rcases h with ⟨declared, span, target, hmem, hrest⟩
  exact ⟨declared, span, target, List.mem_cons_of_mem _ hmem, hrest⟩

theorem eq_stateVariable_of_reaches {d : Definition} {v : StateVariableId}
    (h : ReflTransGen (s.Calls config linearization) d (.stateVariable v)) :
    d = .stateVariable v := by
  rcases h.cases_tail with heq | ⟨caller, _, hcalls⟩
  · exact heq.symm
  · rcases hcalls with ⟨declared, span, target, _, _, heq⟩
    cases heq

theorem meets_iff {d : Definition} {code : List Piece} {events : List Event}
    (hcode : s.code d = .ok code)
    (hwalks : forall es, Walks config (.visitAll code) es <-> es = events) (event : Event) :
    s.Meets config d event <-> event ∈ events := by
  constructor
  · intro h
    rcases h with ⟨code', es, hcode', hes, hmem⟩
    rw [hcode] at hcode'
    cases hcode'
    rw [← (hwalks es).mp hes]
    exact hmem
  · intro hmem
    exact ⟨code, events, hcode, (hwalks events).mpr rfl, hmem⟩

theorem meets_call_iff {d : Definition} {events : List Event}
    (h : s.eventsOf config d = .ok events) (declared : FunctionId) (span : Span) :
    s.Meets config d (.call declared span) <-> Event.call declared span ∈ events := by
  rcases exists_code_of_eventsOf h with ⟨code, hcode, rfl⟩
  rw [meets_iff hcode fun es => walks_visitAll_iff, List.mem_append]
  constructor
  · exact Or.inr
  · intro hmem
    rcases hmem with hwrite | hmem
    · rcases List.mem_map.mp hwrite with ⟨v, _, heq⟩
      cases heq
    · exact hmem

/-!
# Following calls

A call that is followed is met and dispatched. Where the nesting is not bounded, a call of a function
off the path is followed: nothing else can keep it from being followed.
-/

theorem Unrolls.dispatches_of_mem_callees {path : List Definition} {events : List Event}
    {course : Course} (h : Unrolls s config linearization path events course)
    {frames : List Frame} {next : Nat} {c : Execution} (hc : c ∈ course.callees frames next) :
    s.Dispatches linearization events c.definition := by
  induction h generalizing next with
  | done => cases hc
  | read _ ih => exact (ih hc).cons _
  | write _ ih => exact (ih hc).cons _
  | back _ _ _ ih => exact (ih hc).cons _
  | cut _ _ _ _ ih => exact (ih hc).cons _
  | call hsite _ _ _ _ _ _ ihRest =>
      rcases List.mem_cons.mp hc with rfl | hc
      · exact ⟨_, _, _, List.mem_cons_self, hsite.dispatch, rfl⟩
      · exact (ihRest hc).cons _

theorem Unrolls.exists_callee {path : List Definition} {events : List Event}
    {course : Course} (h : Unrolls s config linearization path events course)
    (hdepth : config.maxCallDepth = none) {declared target : FunctionId} {span : Span}
    (hcall : Event.call declared span ∈ events)
    (hdispatch : s.finalOverride linearization declared = .ok target)
    (hfresh : Definition.function target ∉ path) (frames : List Frame) (next : Nat) :
    exists c, c ∈ course.callees frames next ∧ c.definition = .function target := by
  induction h generalizing next with
  | done => cases hcall
  | read _ ih =>
      rcases List.mem_cons.mp hcall with heq | hcall
      · cases heq
      · exact ih hcall hfresh next
  | write _ ih =>
      rcases List.mem_cons.mp hcall with heq | hcall
      · cases heq
      · exact ih hcall hfresh next
  | back hsite hmem _ ih =>
      rcases List.mem_cons.mp hcall with heq | hcall
      · cases heq
        rw [hsite.dispatch, Except.ok.injEq] at hdispatch
        rw [← hdispatch] at hfresh
        exact absurd hmem hfresh
      · exact ih hcall hfresh next
  | cut _ _ hexceeds _ _ =>
      rw [Config.exceedsDepth_eq_false hdepth] at hexceeds
      cases hexceeds
  | call hsite _ _ _ _ _ _ ihRest =>
      rcases List.mem_cons.mp hcall with heq | hcall
      · cases heq
        rw [hsite.dispatch, Except.ok.injEq] at hdispatch
        refine ⟨_, List.mem_cons_self, ?_⟩
        rw [← hdispatch]
        rfl
      · rcases ihRest hcall hfresh _ with ⟨c, hc, hdefinition⟩
        exact ⟨c, List.mem_cons_of_mem _ hc, hdefinition⟩

end Store

namespace Execution

variable {s : Store} {config : Config} {linearization : List ContractId} {e c : Execution}

theorem Unrolled.calls_of_mem_callees (h : e.Unrolled s config linearization)
    (hc : c ∈ e.callees) : s.Calls config linearization e.definition c.definition := by
  rcases h with ⟨events, hevents, hunrolls⟩
  rcases hunrolls.dispatches_of_mem_callees hc with
    ⟨declared, span, target, hmem, hdispatch, hdefinition⟩
  have hmeets := (Store.meets_call_iff hevents declared span).mpr hmem
  exact ⟨declared, span, target, hmeets, hdispatch, hdefinition⟩

theorem Unrolled.exists_callee_of_calls (h : e.Unrolled s config linearization)
    (hdepth : config.maxCallDepth = none) {d : Definition}
    (hcalls : s.Calls config linearization e.definition d) (hfresh : d ∉ e.path) :
    exists c, c ∈ e.callees ∧ c.definition = d := by
  rcases h with ⟨events, hevents, hunrolls⟩
  rcases hcalls with ⟨declared, span, target, hmeets, hdispatch, rfl⟩
  have hmem := (Store.meets_call_iff hevents declared span).mp hmeets
  exact hunrolls.exists_callee hdepth hmem hdispatch hfresh e.frames e.next

/-!
# Definitions below an execution

An execution is reached by the calls on its path. Conversely, every simple way from the definition of
a root is the path of an execution below the root, by induction on the way.
-/

theorem Unrolled.reaches_of_mem_subtree (h : e.Unrolled s config linearization)
    (hc : c ∈ e.subtree) :
    ReflTransGen (s.Calls config linearization) e.definition c.definition := by
  have hall : forall c, c ∈ e.subtree -> c.Unrolled s config linearization ∧
      ReflTransGen (s.Calls config linearization) e.definition c.definition := by
    refine forall_mem_subtree ?_ ⟨h, ReflTransGen.refl⟩
    intro d hd c hc
    exact ⟨(hd.1.of_mem_callees hc).1, hd.2.tail (hd.1.calls_of_mem_callees hc)⟩
  exact (hall c hc).2

theorem definition_of_path_eq_cons {d : Definition} {rest : List Definition}
    (h : c.path = d :: rest) : c.definition = d :=
  (List.cons.inj h).1

theorem Unrolled.exists_path_eq (h : e.Unrolled s config linearization) (hroot : e.outer = [])
    (hdepth : config.maxCallDepth = none) {way : List Definition}
    (hway : SimpleWay (s.Calls config linearization) e.definition way) :
    exists c, c ∈ e.subtree ∧ c.Unrolled s config linearization ∧ c.path = way := by
  induction hway with
  | start => exact ⟨e, e.self_mem_subtree, h, path_of_outer_eq_nil hroot⟩
  | step _ hcalls hnew ih =>
      rcases ih with ⟨c, hc, hunrolled, hpath⟩
      have hdefinition := definition_of_path_eq_cons hpath
      rw [← hdefinition] at hcalls
      rw [← hpath] at hnew
      rcases hunrolled.exists_callee_of_calls hdepth hcalls hnew with ⟨d, hd, rfl⟩
      refine ⟨d, callees_mem_subtree hc hd, (hunrolled.of_mem_callees hd).1, ?_⟩
      rw [path_of_mem_callees hd, hpath]

theorem Unrolled.exists_definition_iff (h : e.Unrolled s config linearization)
    (hroot : e.outer = []) (hdepth : config.maxCallDepth = none) (d : Definition) :
    (exists c, c ∈ e.subtree ∧ c.definition = d) <->
      ReflTransGen (s.Calls config linearization) e.definition d := by
  constructor
  · intro hd
    rcases hd with ⟨c, hc, rfl⟩
    exact h.reaches_of_mem_subtree hc
  · intro hd
    rcases exists_simpleWay hd with ⟨path, hway⟩
    rcases h.exists_path_eq hroot hdepth hway with ⟨c, hc, _, hpath⟩
    exact ⟨c, hc, definition_of_path_eq_cons hpath⟩

end Execution

/-!
# Effects below a root

The effects below a root are those of the nodes there, and each node records the effects of its code.
-/

namespace Graph

variable {s : Store} {config : Config} {linearization : List ContractId}

theorem reachableNodes_ofExecutions {roots : List Execution} (h : Rooted roots) {e : Execution}
    (he : e ∈ forest roots) :
    (ofExecutions roots).reachableNodes e.id = .ok (e.subtree.map Execution.node) := by
  rw [reachableNodes, reachable_ofExecutions h he]
  apply mapM_map_eq_ok
  intro c hc
  exact node_ofExecutions h (subtree_mem_forest he c hc)

/-- The nodes below a root execute what its definition leads to by calls, and the effects below it
are the effects of this code. The initialization of a state variable writes the variable, too. -/
structure ReachesExactly (g : Graph) (s : Store) (config : Config)
    (linearization : List ContractId) (r : NodeId) (root : Definition) : Prop where
  definitions : exists ids, g.reachable r = .ok ids ∧
    forall d, (exists n, n ∈ ids ∧ g.definition n = .ok d) <->
      ReflTransGen (s.Calls config linearization) root d
  reads : exists vs, g.transitiveReads r = .ok vs ∧
    forall v, v ∈ vs <->
      exists d, ReflTransGen (s.Calls config linearization) root d ∧ s.Meets config d (.read v)
  writes : exists vs, g.transitiveWrites r = .ok vs ∧
    forall v, v ∈ vs <-> root = .stateVariable v ∨
      exists d, ReflTransGen (s.Calls config linearization) root d ∧ s.Meets config d (.write v)

section

variable {roots : List Execution}

theorem exists_definition_of_subtree_iff (h : Rooted roots) {e : Execution} (he : e ∈ roots)
    (d : Definition) :
    (exists n, n ∈ e.subtree.map Execution.id ∧ (ofExecutions roots).definition n = .ok d) <->
      exists c, c ∈ e.subtree ∧ c.definition = d := by
  constructor
  · intro hd
    rcases hd with ⟨n, hn, hd⟩
    rcases List.mem_map.mp hn with ⟨c, hc, rfl⟩
    rw [definition_ofExecutions h (mem_forest_of_mem_subtree he hc), Except.ok.injEq] at hd
    exact ⟨c, hc, hd⟩
  · intro hd
    rcases hd with ⟨c, hc, rfl⟩
    exact ⟨c.id, List.mem_map_of_mem hc,
      definition_ofExecutions h (mem_forest_of_mem_subtree he hc)⟩

theorem mem_reads_node_iff (h : Rooted roots)
    (hunrolled : forall e, e ∈ roots -> e.Unrolled s config linearization) {e c : Execution}
    (he : e ∈ roots) (hc : c ∈ e.subtree) (v : StateVariableId) :
    v ∈ c.node.reads <-> s.Meets config c.definition (.read v) := by
  rcases describes_of_mem_forest h hunrolled (mem_forest_of_mem_subtree he hc) with
    ⟨code, events, hdescribes⟩
  have hmeets := Store.meets_iff hdescribes.code_eq hdescribes.walks_iff (.read v)
  rw [hdescribes.reads_eq, List.mem_filterMap]
  simp only [Event.read?_eq_some_iff, exists_eq_right]
  exact hmeets.symm

theorem mem_writes_node_iff (h : Rooted roots)
    (hunrolled : forall e, e ∈ roots -> e.Unrolled s config linearization) {e c : Execution}
    (he : e ∈ roots) (hc : c ∈ e.subtree) (v : StateVariableId) :
    v ∈ c.node.writes <->
      c.definition = .stateVariable v ∨ s.Meets config c.definition (.write v) := by
  rcases describes_of_mem_forest h hunrolled (mem_forest_of_mem_subtree he hc) with
    ⟨code, events, hdescribes⟩
  have hmeets := Store.meets_iff hdescribes.code_eq hdescribes.walks_iff (.write v)
  rw [hdescribes.writes_eq, List.mem_append, List.mem_filterMap, Definition.mem_stateVariable?]
  simp only [Event.write?_eq_some_iff, exists_eq_right]
  exact or_congr_right hmeets.symm

theorem mem_effects_iff {e : Execution} {effects : Node -> List StateVariableId}
    {v : StateVariableId} :
    v ∈ ((e.subtree.map Execution.node).flatMap effects).eraseDups <->
      exists c, c ∈ e.subtree ∧ v ∈ effects c.node := by
  rw [List.mem_eraseDups, List.flatMap_map, List.mem_flatMap]

theorem reachesExactly_ofExecutions (h : Rooted roots)
    (hunrolled : forall e, e ∈ roots -> e.Unrolled s config linearization)
    (hdepth : config.maxCallDepth = none) {e : Execution} (he : e ∈ roots) :
    (ofExecutions roots).ReachesExactly s config linearization e.id e.definition := by
  have hreaches := (hunrolled e he).exists_definition_iff (h.outer_eq_nil e he) hdepth
  have hnodes := reachableNodes_ofExecutions h (mem_forest_of_mem he)
  constructor
  · refine ⟨_, reachable_ofExecutions h (mem_forest_of_mem he), ?_⟩
    intro d
    exact (exists_definition_of_subtree_iff h he d).trans (hreaches d)
  · refine ⟨_, by rw [transitiveReads, hnodes]; rfl, ?_⟩
    intro v
    rw [mem_effects_iff]
    constructor
    · intro hv
      rcases hv with ⟨c, hc, hread⟩
      have hmeets := (mem_reads_node_iff h hunrolled he hc v).mp hread
      exact ⟨c.definition, (hreaches _).mp ⟨c, hc, rfl⟩, hmeets⟩
    · intro hv
      rcases hv with ⟨d, hd, hmeets⟩
      rcases (hreaches d).mpr hd with ⟨c, hc, rfl⟩
      exact ⟨c, hc, (mem_reads_node_iff h hunrolled he hc v).mpr hmeets⟩
  · refine ⟨_, by rw [transitiveWrites, hnodes]; rfl, ?_⟩
    intro v
    rw [mem_effects_iff]
    constructor
    · intro hv
      rcases hv with ⟨c, hc, hwrite⟩
      rcases (mem_writes_node_iff h hunrolled he hc v).mp hwrite with heq | hmeets
      · have hd := (hreaches _).mp ⟨c, hc, heq⟩
        exact Or.inl (Store.eq_stateVariable_of_reaches hd)
      · exact Or.inr ⟨c.definition, (hreaches _).mp ⟨c, hc, rfl⟩, hmeets⟩
    · intro hv
      rcases hv with heq | ⟨d, hd, hmeets⟩
      · have hwrite := (mem_writes_node_iff h hunrolled he e.self_mem_subtree v).mpr (Or.inl heq)
        exact ⟨e, e.self_mem_subtree, hwrite⟩
      · rcases (hreaches d).mpr hd with ⟨c, hc, rfl⟩
        exact ⟨c, hc, (mem_writes_node_iff h hunrolled he hc v).mpr (Or.inr hmeets)⟩

end

end Graph

/-- Below a root stands everything that its definition leads to, although every cycle is cut. -/
theorem roots_reach_exactly {create : Text.Path -> Except String Unit}
    {s : Store} {config : Config} {id : ContractId} {a : Analysis}
    (h : Analyzes create s config id a) (hdepth : config.maxCallDepth = none) {r : NodeId}
    (hr : r ∈ a.graph.roots) :
    exists contract root, s.contract id = .ok contract ∧ a.graph.definition r = .ok root ∧
      a.graph.ReachesExactly s config contract.linearization r root := by
  rcases exists_roots_of_analyzes h with ⟨contract, roots, hcontract, hrooted, hgraph, hunrolled⟩
  rw [hgraph] at hr
  rcases Graph.mem_roots_ofExecutions.mp hr with ⟨e, he, rfl⟩
  have hdefinition := Graph.definition_ofExecutions hrooted (mem_forest_of_mem he)
  have hreaches := Graph.reachesExactly_ofExecutions hrooted hunrolled hdepth he
  rw [hgraph]
  exact ⟨contract, e.definition, hcontract, hdefinition, hreaches⟩

theorem reachesExactly_cycle :
    exists a, Analyzes (fun _ => .ok ()) Cycle.store {} ⟨0⟩ a ∧ ⟨4⟩ ∈ a.graph.roots ∧
      exists contract root, Cycle.store.contract ⟨0⟩ = .ok contract ∧
        a.graph.definition ⟨4⟩ = .ok root ∧
        a.graph.ReachesExactly Cycle.store {} contract.linearization ⟨4⟩ root := by
  rcases Cycle.exists_analyzes with ⟨a, h, hgraph⟩
  have hroot : ⟨4⟩ ∈ a.graph.roots := by
    rw [hgraph]
    decide
  exact ⟨a, h, hroot, roots_reach_exactly h rfl hroot⟩

end CallForest
