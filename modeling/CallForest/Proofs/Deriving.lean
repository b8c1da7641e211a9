import CallForest.Proofs.Embedding
import CallForest.Proofs.LookupFaults
import CallForest.Proofs.Overriding

/-!
# Deriving without overriding

A contract that overrides nothing adds to the graph of its base. Where the contracts in front of a
linearization hold no match for a virtual function, the search along the longer linearization finds
what the search along the shorter one finds, so each entry point of the base keeps its course. The
constructors of the base stay in front and its state variables stay behind; what the other contracts
add stands in between and shifts the nodes that come after it.
-/

namespace CallForest

def NodeId.shift (k : Nat) (n : NodeId) : NodeId :=
  ⟨n.index + k⟩

def Node.shift (k : Nat) (n : Node) : Node :=
  { n with calls := n.calls.map (Edge.map (NodeId.shift k)) }

namespace Graph

def reachableFrom (g : Graph) (ns : List NodeId) : Except Fault (List NodeId) := do
  let below ← ns.mapM g.reachable
  pure below.flatten

structure SplitsAt (g : Graph) (constructors initializers : List NodeId) (count : Nat) : Prop where
  roots_eq : g.roots = constructors ++ initializers
  constructors_only : forall r, r ∈ constructors ->
    forall v, g.definition r ≠ .ok (.stateVariable v)
  initializers_only : forall r, r ∈ initializers -> exists v, g.definition r = .ok (.stateVariable v)
  count_le : count ≤ g.size
  below_constructors : g.reachableFrom constructors = .ok (nodesFrom 0 count)
  below_initializers : g.reachableFrom initializers = .ok (nodesFrom count (g.size - count))

/-- A graph is kept in another one, which has more nodes between those below the constructors and
those below the state variables. -/
structure KeptIn (g g' : Graph) (constructors initializers : List NodeId) (count : Nat)
    (roots : List NodeId) (nodes : List Node) : Prop where
  splits : g.SplitsAt constructors initializers count
  nodes_eq : g'.nodes.toList = g.nodes.toList.take count ++ nodes ++
    (g.nodes.toList.drop count).map (Node.shift nodes.length)
  roots_eq : g'.roots = constructors ++ roots ++ initializers.map (NodeId.shift nodes.length)

end Graph

namespace Store

/-- No function that some contracts list has the profile of a function that dispatches virtually. -/
def OverridesNothing (s : Store) (ids : List ContractId) : Prop :=
  forall f decl, s.function f = .ok decl -> decl.dispatchesVirtually = true ->
    ¬ s.HoldsMatch ids decl

variable {s : Store} {config : Config} {extra linearization : List ContractId}

/-!
# Searching behind some contracts
-/

theorem HoldsMatch.of_cons {f : FunctionDecl} {id : ContractId} {ids : List ContractId}
    (h : s.HoldsMatch ids f) : s.HoldsMatch (id :: ids) f := by
  rcases h with ⟨c, contract, g, hc, hrest⟩
  exact ⟨c, contract, g, List.mem_cons_of_mem _ hc, hrest⟩

theorem findOverrideAlong_of_append {f : FunctionDecl} (hextra : ¬ s.HoldsMatch extra f)
    {found : Option FunctionId}
    (h : s.findOverrideAlong f (extra ++ linearization) = .ok found) :
    s.findOverrideAlong f linearization = .ok found := by
  induction extra with
  | nil => exact h
  | cons id extra ih =>
      rcases bind_eq_ok_iff.mp h with ⟨contract, hcontract, h⟩
      rcases bind_eq_ok_iff.mp h with ⟨outcome, houtcome, h⟩
      cases outcome with
      | some g =>
          have hmatch : s.HoldsMatch (id :: extra) f :=
            ⟨id, contract, g, List.mem_cons_self, hcontract, mem_of_findOverride houtcome,
              matches_of_findOverride houtcome⟩
          exact absurd hmatch hextra
      | none => exact ih (mt HoldsMatch.of_cons hextra) h

theorem finalOverride_of_append (hextra : s.OverridesNothing extra) {id g : FunctionId}
    (h : s.finalOverride (extra ++ linearization) id = .ok g) :
    s.finalOverride linearization id = .ok g := by
  rcases bind_eq_ok_iff.mp h with ⟨f, hf, _⟩
  cases hvirtual : f.dispatchesVirtually with
  | false =>
      cases (finalOverride_eq_self hf hvirtual).symm.trans h
      exact finalOverride_eq_self hf hvirtual
  | true =>
      rw [finalOverride_eq_search hf hvirtual, bind_pure_eq_ok_iff] at h ⊢
      rcases h with ⟨found, hfound, rfl⟩
      exact ⟨found, findOverrideAlong_of_append (hextra id f hf hvirtual) hfound, rfl⟩

theorem Resolves.of_append (hextra : s.OverridesNothing extra) {declared : FunctionId}
    {span : Span} {site : CallSite}
    (h : s.Resolves (extra ++ linearization) declared span site) :
    s.Resolves linearization declared span site :=
  { h with dispatch := finalOverride_of_append hextra h.dispatch }

theorem Unrolls.of_append (hextra : s.OverridesNothing extra) {path : List Definition}
    {events : List Event} {course : Course}
    (h : s.Unrolls config (extra ++ linearization) path events course) :
    s.Unrolls config linearization path events course := by
  induction h with
  | done => exact .done
  | read _ ih => exact .read ih
  | write _ ih => exact .write ih
  | back hsite hmem _ ih => exact .back (hsite.of_append hextra) hmem ih
  | cut hsite hfresh hdepth _ ih => exact .cut (hsite.of_append hextra) hfresh hdepth ih
  | call hsite hfresh hdepth hinner _ _ ihBody ihRest =>
      exact .call (hsite.of_append hextra) hfresh hdepth hinner ihBody ihRest

theorem unrollDefinition_of_append (hextra : s.OverridesNothing extra) {d : Definition}
    {events : List Event} {course : Course}
    (h : s.unrollDefinition config (extra ++ linearization) d events = .ok course) :
    s.unrollDefinition config linearization d events = .ok course :=
  unroll_of_unrolls ((unrolls_of_unroll h).of_append hextra)

/-!
# Entry points
-/

theorem constructorEntry_of_append (hextra : s.OverridesNothing extra) {id : ContractId}
    {entry : EntryPoint} (h : s.constructorEntry config (extra ++ linearization) id = .ok entry) :
    s.constructorEntry config linearization id = .ok entry := by
  rw [constructorEntry, bind_eq_ok_iff] at h ⊢
  rcases h with ⟨contract, hcontract, h⟩
  refine ⟨contract, hcontract, ?_⟩
  cases hconstructor : contract.constructor with
  | none =>
      rw [hconstructor] at h
      exact h
  | some f =>
      rw [hconstructor] at h
      rcases bind_eq_ok_iff.mp h with ⟨decl, hdecl, h⟩
      rcases bind_pure_eq_ok_iff.mp h with ⟨course, hcourse, rfl⟩
      exact bind_eq_ok_iff.mpr ⟨decl, hdecl,
        bind_pure_eq_ok_iff.mpr ⟨course, unrollDefinition_of_append hextra hcourse, rfl⟩⟩

theorem stateVariableEntry_of_append (hextra : s.OverridesNothing extra) {v : StateVariableId}
    {entry : EntryPoint}
    (h : s.stateVariableEntry config (extra ++ linearization) v = .ok entry) :
    s.stateVariableEntry config linearization v = .ok entry := by
  rcases bind_eq_ok_iff.mp h with ⟨decl, hdecl, h⟩
  rcases bind_pure_eq_ok_iff.mp h with ⟨course, hcourse, rfl⟩
  exact bind_eq_ok_iff.mpr ⟨decl, hdecl,
    bind_pure_eq_ok_iff.mpr ⟨course, unrollDefinition_of_append hextra hcourse, rfl⟩⟩

theorem inheritedStateVariables_append_eq_ok_iff {ids : List StateVariableId} :
    s.inheritedStateVariables (extra ++ linearization) = .ok ids <->
      exists first last, s.inheritedStateVariables extra = .ok first ∧
        s.inheritedStateVariables linearization = .ok last ∧ first ++ last = ids := by
  simp only [inheritedStateVariables, bind_pure_eq_ok_iff, mapM_append_eq_ok_iff]
  constructor
  · intro h
    rcases h with ⟨_, ⟨first, last, hfirst, hlast, rfl⟩, rfl⟩
    exact ⟨_, _, ⟨first, hfirst, rfl⟩, ⟨last, hlast, rfl⟩, List.flatMap_append.symm⟩
  · intro h
    rcases h with ⟨_, _, ⟨first, hfirst, rfl⟩, ⟨last, hlast, rfl⟩, rfl⟩
    exact ⟨_, ⟨first, last, hfirst, hlast, rfl⟩, List.flatMap_append⟩

/-- The entry points along a longer linearization are those along the shorter one, with more between
the constructors and the state variables. -/
theorem exists_between_of_entryPoints_append (hextra : s.OverridesNothing extra)
    {entries : List EntryPoint}
    (h : s.entryPoints config (extra ++ linearization) = .ok entries) :
    exists constructors between initializers,
      entries = constructors ++ between ++ initializers ∧
      s.entryPoints config linearization = .ok (constructors ++ initializers) ∧
      linearization.reverse.mapM (s.constructorEntry config linearization) = .ok constructors ∧
      exists vs : List StateVariableId,
        vs.mapM (s.stateVariableEntry config linearization) = .ok initializers := by
  simp only [entryPoints, bind_eq_ok_iff, pure_eq_ok_iff, List.reverse_append,
    mapM_append_eq_ok_iff, inheritedStateVariables_append_eq_ok_iff] at h
  rcases h with ⟨_, ⟨constructors, added, hconstructors, _, rfl⟩, _,
    ⟨_, stored, _, hstored, rfl⟩, _, hinitializers, rfl⟩
  rcases mapM_append_eq_ok_iff.mp hinitializers with ⟨addedToo, initializers, _, hlast, rfl⟩
  have hkept := mapM_eq_ok_of_mem hconstructors
    fun _ _ _ _ hentry => constructorEntry_of_append hextra hentry
  have hkeptToo := mapM_eq_ok_of_mem hlast
    fun _ _ _ _ hentry => stateVariableEntry_of_append hextra hentry
  refine ⟨constructors, added ++ addedToo, initializers, ?_, ?_, hkept, stored, hkeptToo⟩
  · simp only [List.append_assoc]
  · simp only [entryPoints, bind_eq_ok_iff, pure_eq_ok_iff]
    exact ⟨constructors, hkept, stored, hstored, initializers, hkeptToo, rfl⟩

end Store

/-!
# Shifted executions

The frames of an execution at the roots are all its own. So an execution that starts `k` nodes later
has the same frames with shifted nodes, and its calls go back to them.
-/

namespace Execution

def shift (k : Nat) (e : Execution) : Execution where
  frame := e.frame.map (NodeId.shift k)
  outer := e.outer.map (Frame.map (NodeId.shift k))
  course := e.course

theorem frames_shift (k : Nat) (e : Execution) :
    (e.shift k).frames = e.frames.map (Frame.map (NodeId.shift k)) :=
  rfl

end Execution

namespace Course

theorem edges_shift (k : Nat) (course : Course) (frames : List Frame) (next : Nat) :
    course.edges (frames.map (Frame.map (NodeId.shift k))) (next + k) =
      (course.edges frames next).map (Edge.map (NodeId.shift k)) := by
  induction course generalizing next with
  | done => rfl
  | read v rest ih => exact ih next
  | write v rest ih => exact ih next
  | call site body rest ihBody ihRest =>
      rw [edges, edges, List.map_cons, ← ihRest, Nat.add_right_comm]
      rfl
  | back site rest ih =>
      have hfind : ((frames.map (Frame.map (NodeId.shift k))).find? fun frame =>
          frame.definition = .function site.target) =
            (frames.find? fun frame => frame.definition = .function site.target).map
              (Frame.map (NodeId.shift k)) := List.find?_map
      rw [edges, edges, hfind, ih, List.map_append]
      cases frames.find? fun frame => frame.definition = .function site.target with
      | none => rfl
      | some frame => rfl
  | cut site depth rest ih => exact ih next

theorem executions_shift (k : Nat) (course : Course) (frames : List Frame) (next : Nat) :
    course.executions (frames.map (Frame.map (NodeId.shift k))) (next + k) =
      (course.executions frames next).map (Execution.shift k) := by
  induction course generalizing frames next with
  | done => rfl
  | read v rest ih => exact ih frames next
  | write v rest ih => exact ih frames next
  | call site body rest ihBody ihRest =>
      have hentered : entered (frames.map (Frame.map (NodeId.shift k))) (next + k) site body =
          (entered frames next site body).shift k := rfl
      rw [executions, executions, List.map_cons, List.map_append, ← ihBody, ← ihRest, hentered,
        Execution.frames_shift, Nat.add_right_comm next k, Nat.add_right_comm next k]
  | back site rest ih => exact ih frames next
  | cut site depth rest ih => exact ih frames next

end Course

namespace Execution

theorem node_shift (k : Nat) (e : Execution) : (e.shift k).node = e.node.shift k := by
  have hnext : (e.shift k).next = e.next + k := Nat.add_right_comm _ _ _
  rw [node, frames_shift, hnext, Node.shift, node]
  exact congrArg (Node.mk _ · _ _) (e.course.edges_shift k e.frames e.next)

theorem subtree_shift (k : Nat) (e : Execution) :
    (e.shift k).subtree = e.subtree.map (shift k) := by
  have hnext : (e.shift k).next = e.next + k := Nat.add_right_comm _ _ _
  rw [subtree, subtree, List.map_cons, ← Course.executions_shift, frames_shift, hnext]
  rfl

end Execution

theorem rootExecutions_shift (k next : Nat) (plan : List (Definition × Course)) :
    rootExecutions (next + k) plan = (rootExecutions next plan).map (Execution.shift k) := by
  induction plan generalizing next with
  | nil => rfl
  | cons root plan ih =>
      rcases root with ⟨definition, course⟩
      rw [rootExecutions_cons, rootExecutions_cons, List.map_cons, ← ih, Nat.add_right_comm]
      rfl

theorem rootExecutions_append (next : Nat) (plan plan' : List (Definition × Course)) :
    rootExecutions next (plan ++ plan') =
      rootExecutions next plan ++ rootExecutions (next + planSize plan) plan' := by
  induction plan generalizing next with
  | nil => rfl
  | cons root plan ih =>
      rcases root with ⟨definition, course⟩
      rw [List.cons_append, rootExecutions_cons, rootExecutions_cons, ih, planSize, Nat.add_assoc]
      rfl

theorem forest_append (roots roots' : List Execution) :
    forest (roots ++ roots') = forest roots ++ forest roots' :=
  List.flatMap_append

theorem forest_map_shift (k : Nat) (roots : List Execution) :
    forest (roots.map (Execution.shift k)) = (forest roots).map (Execution.shift k) := by
  rw [forest, forest, List.flatMap_map, List.map_flatMap]
  simp only [Execution.subtree_shift]

theorem planSize_append (plan plan' : List (Definition × Course)) :
    planSize (plan ++ plan') = planSize plan + planSize plan' := by
  rw [← length_forest_rootExecutions 0, rootExecutions_append, forest_append, List.length_append,
    length_forest_rootExecutions, length_forest_rootExecutions]

/-!
# Graphs of plans
-/

namespace Graph

theorem nodes_ofExecutions (roots : List Execution) :
    (ofExecutions roots).nodes.toList = (forest roots).map Execution.node :=
  rfl

theorem reachableFrom_ofExecutions {roots roots' : List Execution} (h : Rooted roots)
    (hsub : forall e, e ∈ roots' -> e ∈ roots) :
    (ofExecutions roots).reachableFrom (roots'.map Execution.id) =
      .ok ((forest roots').map Execution.id) := by
  rw [reachableFrom, mapM_map_eq_ok fun e he =>
    reachable_ofExecutions h (mem_forest_of_mem (hsub e he)), forest, List.map_flatMap]
  rfl

section

variable {first between last : List (Definition × Course)}

theorem nodes_ofExecutions_append :
    (ofExecutions (rootExecutions 0 (first ++ last))).nodes.toList =
      (forest (rootExecutions 0 first)).map Execution.node ++
        (forest (rootExecutions (planSize first) last)).map Execution.node := by
  rw [nodes_ofExecutions, rootExecutions_append, Nat.zero_add, forest_append, List.map_append]

theorem nodes_ofExecutions_between :
    (ofExecutions (rootExecutions 0 (first ++ between ++ last))).nodes.toList =
      (forest (rootExecutions 0 first)).map Execution.node ++
        (forest (rootExecutions (planSize first) between)).map Execution.node ++
        ((forest (rootExecutions (planSize first) last)).map Execution.node).map
          (Node.shift (planSize between)) := by
  rw [nodes_ofExecutions_append, ← nodes_ofExecutions, nodes_ofExecutions_append, planSize_append,
    rootExecutions_shift, forest_map_shift, List.map_map, List.map_map]
  congr 2
  funext e
  exact e.node_shift _

theorem roots_ofExecutions_between :
    (ofExecutions (rootExecutions 0 (first ++ between ++ last))).roots =
      (rootExecutions 0 first).map Execution.id ++
        (rootExecutions (planSize first) between).map Execution.id ++
        ((rootExecutions (planSize first) last).map Execution.id).map
          (NodeId.shift (planSize between)) := by
  show (rootExecutions 0 (first ++ between ++ last)).map Execution.id = _
  rw [rootExecutions_append, rootExecutions_append, Nat.zero_add, Nat.zero_add,
    planSize_append, rootExecutions_shift, List.map_append, List.map_append, List.map_map,
    List.map_map]
  rfl

theorem splitsAt_ofExecutions
    (hfirst : forall root, root ∈ first -> root.1.stateVariable? = none)
    (hlast : forall root, root ∈ last -> exists v, root.1 = .stateVariable v) :
    (ofExecutions (rootExecutions 0 (first ++ last))).SplitsAt
      ((rootExecutions 0 first).map Execution.id)
      ((rootExecutions (planSize first) last).map Execution.id) (planSize first) := by
  have hrooted := rooted_rootExecutions (first ++ last)
  have hroots : rootExecutions 0 (first ++ last) =
      rootExecutions 0 first ++ rootExecutions (planSize first) last := by
    rw [rootExecutions_append, Nat.zero_add]
  have hsize : (ofExecutions (rootExecutions 0 (first ++ last))).size =
      planSize first + planSize last := by
    rw [size_ofExecutions, hroots, forest_append, List.length_append,
      length_forest_rootExecutions, length_forest_rootExecutions]
  have hfirstMem : forall e, e ∈ rootExecutions 0 first ->
      e ∈ rootExecutions 0 (first ++ last) := by
    intro e he
    rw [hroots]
    exact List.mem_append_left _ he
  have hlastMem : forall e, e ∈ rootExecutions (planSize first) last ->
      e ∈ rootExecutions 0 (first ++ last) := by
    intro e he
    rw [hroots]
    exact List.mem_append_right _ he
  constructor
  · rw [← List.map_append, ← hroots]
    rfl
  · intro r hr v hv
    rcases List.mem_map.mp hr with ⟨e, he, rfl⟩
    rw [definition_ofExecutions hrooted (mem_forest_of_mem (hfirstMem e he)),
      Except.ok.injEq] at hv
    have hnone := hfirst _ (mem_plan_of_mem_rootExecutions he)
    rw [hv] at hnone
    cases hnone
  · intro r hr
    rcases List.mem_map.mp hr with ⟨e, he, rfl⟩
    rcases hlast _ (mem_plan_of_mem_rootExecutions he) with ⟨v, hv⟩
    refine ⟨v, ?_⟩
    rw [definition_ofExecutions hrooted (mem_forest_of_mem (hlastMem e he)), ← hv]
  · rw [hsize]
    exact Nat.le_add_right _ _
  · rw [reachableFrom_ofExecutions hrooted hfirstMem, map_id_forest_rootExecutions,
      length_forest_rootExecutions]
  · rw [reachableFrom_ofExecutions hrooted hlastMem, map_id_forest_rootExecutions,
      length_forest_rootExecutions, hsize, Nat.add_sub_cancel_left]

theorem keptIn_ofExecutions
    (hfirst : forall root, root ∈ first -> root.1.stateVariable? = none)
    (hlast : forall root, root ∈ last -> exists v, root.1 = .stateVariable v) :
    (ofExecutions (rootExecutions 0 (first ++ last))).KeptIn
      (ofExecutions (rootExecutions 0 (first ++ between ++ last)))
      ((rootExecutions 0 first).map Execution.id)
      ((rootExecutions (planSize first) last).map Execution.id) (planSize first)
      ((rootExecutions (planSize first) between).map Execution.id)
      ((forest (rootExecutions (planSize first) between)).map Execution.node) := by
  have hlength : ((forest (rootExecutions 0 first)).map Execution.node).length =
      planSize first := by
    rw [List.length_map, length_forest_rootExecutions]
  have hadded : ((forest (rootExecutions (planSize first) between)).map Execution.node).length =
      planSize between := by
    rw [List.length_map, length_forest_rootExecutions]
  refine ⟨splitsAt_ofExecutions hfirst hlast, ?_, ?_⟩
  · rw [nodes_ofExecutions_between, nodes_ofExecutions_append, List.take_left' hlength,
      List.drop_left' hlength, hadded]
  · rw [roots_ofExecutions_between, hadded]

end

end Graph

/-!
# The analysis of a derived contract
-/

namespace Store

variable {s : Store} {config : Config} {linearization : List ContractId}

theorem stateVariable?_of_constructorEntry {id : ContractId} {entry : EntryPoint}
    (h : s.constructorEntry config linearization id = .ok entry)
    {root : Definition × Course} (hroot : entry.root? = some root) :
    root.1.stateVariable? = none := by
  rcases bind_eq_ok_iff.mp h with ⟨contract, _, h⟩
  split at h
  · rcases bind_eq_ok_iff.mp h with ⟨decl, _, h⟩
    rcases bind_pure_eq_ok_iff.mp h with ⟨course, _, rfl⟩
    cases hroot
    rfl
  · split at h
    · cases h
      cases hroot
      rfl
    · cases h
      cases hroot

end Store

/-- A contract that overrides nothing keeps the graph of its base: the constructors of the base stand
in front as they are, and its state variables stand at the end, shifted by what comes in between. -/
theorem deriving_keeps_graph {create create' : Text.Path -> Except String Unit} {s : Store}
    {config : Config} {base derived : ContractId} {parent child : ContractDecl}
    {extra : List ContractId} {a a' : Analysis} (hparent : s.contract base = .ok parent)
    (hchild : s.contract derived = .ok child)
    (hlinearization : child.linearization = extra ++ parent.linearization)
    (hextra : s.OverridesNothing extra) (h : Analyzes create s config base a)
    (h' : Analyzes create' s config derived a') :
    exists constructors initializers count roots nodes,
      a.graph.KeptIn a'.graph constructors initializers count roots nodes := by
  rcases entryPoints_of_run_eq_ok (analyzes_iff_run_eq_ok.mp h) with
    ⟨_, entries, hcontract, _, hentries, hgraph⟩
  cases hparent.symm.trans hcontract
  rcases entryPoints_of_run_eq_ok (analyzes_iff_run_eq_ok.mp h') with
    ⟨_, entries', hcontract', _, hentries', hgraph'⟩
  cases hchild.symm.trans hcontract'
  rw [hlinearization] at hentries'
  rcases Store.exists_between_of_entryPoints_append hextra hentries' with
    ⟨constructors, between, initializers, rfl, hkept, hconstructors, vs, hinitializers⟩
  cases hentries.symm.trans hkept
  rw [hgraph, hgraph', Graph.ofEntryPoints_eq, Graph.ofEntryPoints_eq]
  simp only [List.filterMap_append]
  refine ⟨_, _, _, _, _, Graph.keptIn_ofExecutions ?_ ?_⟩
  · intro root hroot
    rcases List.mem_filterMap.mp hroot with ⟨entry, hentry, hroot⟩
    rcases exists_of_mem_mapM hconstructors hentry with ⟨id, hid⟩
    exact Store.stateVariable?_of_constructorEntry hid hroot
  · intro root hroot
    rcases List.mem_filterMap.mp hroot with ⟨entry, hentry, hroot⟩
    rcases exists_of_mem_mapM hinitializers hentry with ⟨v, hv⟩
    refine ⟨v, ?_⟩
    have hdefinition := (Store.root?_and_missing?_of_stateVariableEntry hv).1
    rw [hroot] at hdefinition
    exact Option.some.inj hdefinition

/-!
# A contract with a base

The contract `B` has a virtual function `f` that reads `x`; its constructor and the initial value of
`x` call `f`. In `C`, which inherits from `B`, the constructor calls a function `g` that reads `y`.
-/

namespace Inherited

def store : Store where
  functions := { entries := #[
    Cycle.function "" .constructor false [.expr (Cycle.call ⟨1⟩)],
    Cycle.function "f" .function true [.expr (Cycle.stored ⟨0⟩)],
    Cycle.function "" .constructor false [.expr (Cycle.call ⟨3⟩)],
    Cycle.function "g" .function false [.expr (Cycle.stored ⟨1⟩)]] }
  stateVariables := { entries := #[
    ⟨.named "x", .uint 256, some (Cycle.call ⟨1⟩), false, .dummy⟩,
    ⟨.named "y", .uint 256, none, false, .dummy⟩] }
  contracts := { entries := #[
    ⟨.named "C", [⟨0⟩, ⟨1⟩], some ⟨2⟩, [⟨3⟩], [⟨1⟩], .dummy⟩,
    ⟨.named "B", [⟨1⟩], some ⟨0⟩, [⟨1⟩], [⟨0⟩], .dummy⟩] }

def callOfF : Course :=
  .call ⟨⟨1⟩, ⟨1⟩, .named "f", "f()", .dummy⟩ (.read ⟨0⟩ .done) .done

def callOfG : Course :=
  .call ⟨⟨3⟩, ⟨3⟩, .named "g", "g()", .dummy⟩ (.read ⟨1⟩ .done) .done

def entries : List EntryPoint := [
  .constructor (.named "B") ⟨0⟩ (.named "") callOfF,
  .constructor (.named "C") ⟨2⟩ (.named "") callOfG,
  .stateVariable (.named "y") ⟨1⟩ (.write ⟨1⟩ .done),
  .stateVariable (.named "x") ⟨0⟩ (.write ⟨0⟩ callOfF)]

theorem overridesNothing : store.OverridesNothing [⟨0⟩] := by
  intro f decl hf hvirtual hmatch
  rcases hmatch with ⟨c, contract, g, hc, hcontract, hg, candidate, hcandidate, hoverrides⟩
  cases List.mem_singleton.mp hc
  cases hcontract
  cases List.mem_singleton.mp hg
  cases hcandidate
  rcases f with ⟨_ | _ | _ | _ | index⟩
  · cases hf
    cases hvirtual
  · cases hf
    exact absurd hoverrides (by decide)
  · cases hf
    cases hvirtual
  · cases hf
    cases hvirtual
  · have hlt : index + 4 < 4 := store.lt_size_of_get_eq_ok hf
    exact absurd hlt (Nat.not_lt.mpr (Nat.le_add_left 4 index))

theorem unrolls_callOfF {path : List Definition} (hfresh : Definition.function ⟨1⟩ ∉ path) :
    store.Unrolls {} [⟨0⟩, ⟨1⟩] path [.call ⟨1⟩ .dummy] callOfF :=
  .call ⟨rfl, rfl, rfl, _, rfl, rfl, by decide⟩ hfresh rfl rfl (.read .done) .done

theorem unrolls_callOfG {path : List Definition} (hfresh : Definition.function ⟨3⟩ ∉ path) :
    store.Unrolls {} [⟨0⟩, ⟨1⟩] path [.call ⟨3⟩ .dummy] callOfG :=
  .call ⟨rfl, rfl, rfl, _, rfl, rfl, by decide⟩ hfresh rfl rfl (.read .done) .done

theorem entryPoints_eq : store.entryPoints {} [⟨0⟩, ⟨1⟩] = .ok entries := by
  have hbase : store.constructorEntry {} [⟨0⟩, ⟨1⟩] ⟨1⟩ = .ok _ :=
    Store.constructorEntry_of_unrolls rfl rfl rfl (unrolls_callOfF (by decide))
  have hderived : store.constructorEntry {} [⟨0⟩, ⟨1⟩] ⟨0⟩ = .ok _ :=
    Store.constructorEntry_of_unrolls rfl rfl rfl (unrolls_callOfG (by decide))
  have hx : store.stateVariableEntry {} [⟨0⟩, ⟨1⟩] ⟨0⟩ = .ok _ :=
    Store.stateVariableEntry_of_unrolls rfl (.write (unrolls_callOfF (by decide)))
  have hy : store.stateVariableEntry {} [⟨0⟩, ⟨1⟩] ⟨1⟩ = .ok _ :=
    Store.stateVariableEntry_of_unrolls rfl (.write .done)
  simp only [Store.entryPoints, bind_eq_ok_iff, mapM_eq_ok_iff, pure_eq_ok_iff]
  exact ⟨_, .cons hbase (.cons hderived .nil), _, rfl, _, .cons hy (.cons hx .nil), rfl⟩

theorem exists_analyzes_derived : exists a, Analyzes (fun _ => .ok ()) store {} ⟨0⟩ a := by
  have hfound : exists a, Analyzes (fun _ => .ok ()) store {} ⟨0⟩ a ∧
      a.graph = Graph.ofEntryPoints entries :=
    exists_analyzes_of_entryPoints rfl rfl entryPoints_eq rfl
  exact hfound.imp fun _ => And.left

theorem exists_analyzes_base : exists a, Analyzes (fun _ => .ok ()) store {} ⟨1⟩ a := by
  rcases Store.exists_between_of_entryPoints_append overridesNothing entryPoints_eq with
    ⟨constructors, _, initializers, _, hentries, _⟩
  have hfound : exists a, Analyzes (fun _ => .ok ()) store {} ⟨1⟩ a ∧
      a.graph = Graph.ofEntryPoints (constructors ++ initializers) :=
    exists_analyzes_of_entryPoints rfl rfl hentries rfl
  exact hfound.imp fun _ => And.left

end Inherited

theorem keptIn_inherited :
    exists a a' parent child, Analyzes (fun _ => .ok ()) Inherited.store {} ⟨1⟩ a ∧
      Analyzes (fun _ => .ok ()) Inherited.store {} ⟨0⟩ a' ∧
      Inherited.store.contract ⟨1⟩ = .ok parent ∧ Inherited.store.contract ⟨0⟩ = .ok child ∧
      child.linearization = [⟨0⟩] ++ parent.linearization ∧
      Inherited.store.OverridesNothing [⟨0⟩] ∧
      exists constructors initializers count roots nodes,
        a.graph.KeptIn a'.graph constructors initializers count roots nodes := by
  rcases Inherited.exists_analyzes_base with ⟨a, h⟩
  rcases Inherited.exists_analyzes_derived with ⟨a', h'⟩
  exact ⟨a, a', _, _, h, h', rfl, rfl, rfl, Inherited.overridesNothing,
    deriving_keeps_graph rfl rfl rfl Inherited.overridesNothing h h'⟩

end CallForest
