import CallForest.Proofs.Contents

/-!
# Equal subtrees

What happens below a node depends on its definition, on the functions that are being executed, and,
if the nesting is limited, on how deep the node stands. Nothing else on the path matters, and neither
does what was made before. So two nodes that agree in this have the same subtree at two places of the
arena: each edge leads to the node at the same place in the other subtree, or it leaves both subtrees
to nodes of one definition.
-/

namespace CallForest

/-!
# The same course

Unrolling asks whether a function is on the path, and how long the path is.
-/

namespace Store

variable {s : Store} {config : Config} {linearization : List ContractId}

theorem Unrolls.of_mem_iff {path : List Definition} {events : List Event} {course : Course}
    (h : s.Unrolls config linearization path events course) {path' : List Definition}
    (hfunctions : forall f, Definition.function f ∈ path <-> Definition.function f ∈ path')
    (hlength : path.length = path'.length ∨ config.maxCallDepth = none) :
    s.Unrolls config linearization path' events course := by
  have hexceeds : forall {path path' : List Definition},
      path.length = path'.length ∨ config.maxCallDepth = none ->
      config.exceedsDepth path.length = config.exceedsDepth path'.length := by
    intro path path' hlength
    rcases hlength with heq | hnone
    · rw [heq]
    · rw [Config.exceedsDepth_eq_false hnone, Config.exceedsDepth_eq_false hnone]
  induction h generalizing path' with
  | done => exact .done
  | read _ ih => exact .read (ih hfunctions hlength)
  | write _ ih => exact .write (ih hfunctions hlength)
  | back hsite hmem _ ih => exact .back hsite ((hfunctions _).mp hmem) (ih hfunctions hlength)
  | cut hsite hfresh hdepth _ ih =>
      have hdepth' := hdepth
      rw [hexceeds hlength] at hdepth'
      rcases hlength with heq | hnone
      · rw [heq]
        exact .cut hsite (fun hmem => hfresh ((hfunctions _).mpr hmem)) hdepth'
          (ih hfunctions (.inl heq))
      · rw [Config.exceedsDepth_eq_false hnone] at hdepth
        cases hdepth
  | call hsite hfresh hdepth hinner _ _ ihBody ihRest =>
      rw [hexceeds hlength] at hdepth
      refine .call hsite (fun hmem => hfresh ((hfunctions _).mpr hmem)) hdepth hinner
        (ihBody ?_ ?_) (ihRest hfunctions hlength)
      · intro f
        rw [List.mem_cons, List.mem_cons, hfunctions f]
      · exact hlength.imp_left (congrArg Nat.succ)

theorem Unrolls.course_eq {path : List Definition} {events : List Event}
    {course course' : Course} (h : s.Unrolls config linearization path events course)
    (h' : s.Unrolls config linearization path events course') : course = course' :=
  Except.ok.inj ((unroll_of_unrolls h).symm.trans (unroll_of_unrolls h'))

end Store

theorem Execution.Unrolled.course_eq {s : Store} {config : Config}
    {linearization : List ContractId} {e e' : Execution}
    (h : e.Unrolled s config linearization) (h' : e'.Unrolled s config linearization)
    (hdefinition : e.definition = e'.definition)
    (hfunctions : forall f, Definition.function f ∈ e.path <-> Definition.function f ∈ e'.path)
    (hlength : e.path.length = e'.path.length ∨ config.maxCallDepth = none) :
    e.course = e'.course := by
  rcases h with ⟨events, hevents, hunrolls⟩
  rcases h' with ⟨events', hevents', hunrolls'⟩
  rw [hdefinition] at hevents
  cases hevents.symm.trans hevents'
  exact (hunrolls.of_mem_iff hfunctions hlength).course_eq hunrolls'

/-!
# One course at two places

The executions in a course differ between two places only by where the numbering starts and by the
frames outside. Frames inside are told by their definition and by how many nodes stand before them.
-/

def framesFrom (start : Nat) (inner : List (Definition × Nat)) : List Frame :=
  inner.map fun place => ⟨place.1, ⟨start + place.2⟩⟩

/-- An execution of a definition at place `i`, counted from a start, inside some frames that are
counted from there, too, and some frames outside. -/
def Execution.placed (start : Nat) (outer : List Frame) (inner : List (Definition × Nat))
    (definition : Definition) (i : Nat) (course : Course) : Execution :=
  ⟨⟨definition, ⟨start + i⟩⟩, framesFrom start inner ++ outer, course⟩

section

variable (start start' size : Nat) (outer outer' : List Frame)

def Execution.Matches (e e' : Execution) : Prop :=
  exists inner definition i course, (forall place, place ∈ inner -> place.2 < size) ∧ i < size ∧
    i + 1 + Course.size course ≤ size ∧
    e = placed start outer inner definition i course ∧
    e' = placed start' outer' inner definition i course

inductive Edge.Matches : Edge -> Edge -> Prop where
  | call {i : Nat} :
      i < size -> Matches (.call ⟨start + i⟩) (.call ⟨start' + i⟩)
  | inside {i : Nat} :
      i < size -> Matches (.recursive ⟨start + i⟩) (.recursive ⟨start' + i⟩)
  | outside {frame frame' : Frame} :
      frame ∈ outer -> frame' ∈ outer' -> frame.definition = frame'.definition ->
      Matches (.recursive frame.node) (.recursive frame'.node)

variable {start start' size outer outer'}

theorem Course.forall₂_matches_executions (course : Course) (inner : List (Definition × Nat))
    (i : Nat) (hinner : forall place, place ∈ inner -> place.2 < size)
    (hsize : i + course.size ≤ size) :
    List.Forall₂ (Execution.Matches start start' size outer outer')
      (course.executions (framesFrom start inner ++ outer) (start + i))
      (course.executions (framesFrom start' inner ++ outer') (start' + i)) := by
  induction course generalizing inner i with
  | done => exact .nil
  | read v rest ih => exact ih inner i hinner hsize
  | write v rest ih => exact ih inner i hinner hsize
  | call site body rest ihBody ihRest =>
      rw [Course.size] at hsize
      have hbody := ihBody ((.function site.target, i) :: inner) (i + 1)
        (by rw [List.forall_mem_cons]; exact ⟨by omega, hinner⟩) (by omega)
      have hrest := ihRest inner (i + (body.size + 1)) hinner (by omega)
      have hentered : Execution.Matches start start' size outer outer'
          (entered (framesFrom start inner ++ outer) (start + i) site body)
          (entered (framesFrom start' inner ++ outer') (start' + i) site body) :=
        ⟨inner, .function site.target, i, body, hinner, by omega, by omega, rfl, rfl⟩
      rw [← Nat.add_assoc start i, ← Nat.add_assoc start' i] at hrest
      exact .cons hentered (List.rel_append hbody hrest)
  | back site rest ih => exact ih inner i hinner hsize
  | cut site depth rest ih => exact ih inner i hinner hsize

theorem find?_eq_none_of_not_mem_path {frames : List Frame} {d : Definition}
    (h : d ∉ frames.map (·.definition)) :
    (frames.find? fun frame => frame.definition = d) = none := by
  rw [List.find?_eq_none]
  intro frame hframe heq
  exact h (List.mem_map.mpr ⟨frame, hframe, of_decide_eq_true heq⟩)

theorem find?_framesFrom_append {f : FunctionId} {inner : List (Definition × Nat)}
    (hinner : forall place, place ∈ inner -> place.2 < size)
    (hfunctions : Definition.function f ∈ outer.map (·.definition) <->
      Definition.function f ∈ outer'.map (·.definition)) :
    List.Forall₂ (Edge.Matches start start' size outer outer')
      (((framesFrom start inner ++ outer).find? fun frame =>
        frame.definition = .function f).map fun frame => Edge.recursive frame.node).toList
      (((framesFrom start' inner ++ outer').find? fun frame =>
        frame.definition = .function f).map fun frame => Edge.recursive frame.node).toList := by
  have hfind : forall start, (framesFrom start inner).find? (fun frame =>
      decide (frame.definition = .function f)) =
        (inner.find? fun place => place.1 = .function f).map fun place =>
          ⟨place.1, ⟨start + place.2⟩⟩ := by
    intro start
    rw [framesFrom, List.find?_map]
    rfl
  rw [List.find?_append, List.find?_append, hfind, hfind]
  cases hplace : inner.find? fun place => place.1 = .function f with
  | some place =>
      exact .cons (.inside (hinner place (List.mem_of_find?_eq_some hplace))) .nil
  | none =>
      by_cases hmem : Definition.function f ∈ outer.map (·.definition)
      · rcases exists_find?_of_mem_path hmem with ⟨frame, hframe, hd, hfound⟩
        rcases exists_find?_of_mem_path (hfunctions.mp hmem) with ⟨frame', hframe', hd', hfound'⟩
        rw [hfound, hfound']
        exact .cons (.outside hframe hframe' (hd.trans hd'.symm)) .nil
      · rw [find?_eq_none_of_not_mem_path hmem,
          find?_eq_none_of_not_mem_path (mt hfunctions.mpr hmem)]
        exact .nil

theorem Course.forall₂_matches_edges (course : Course) {inner : List (Definition × Nat)}
    (hinner : forall place, place ∈ inner -> place.2 < size)
    (hfunctions : forall f, Definition.function f ∈ outer.map (·.definition) <->
      Definition.function f ∈ outer'.map (·.definition)) (i : Nat)
    (hsize : i + course.size ≤ size) :
    List.Forall₂ (Edge.Matches start start' size outer outer')
      (course.edges (framesFrom start inner ++ outer) (start + i))
      (course.edges (framesFrom start' inner ++ outer') (start' + i)) := by
  induction course generalizing i with
  | done => exact .nil
  | read v rest ih => exact ih i hsize
  | write v rest ih => exact ih i hsize
  | call site body rest ihBody ihRest =>
      rw [Course.size] at hsize
      have hrest := ihRest (i + (body.size + 1)) (by omega)
      rw [← Nat.add_assoc start i, ← Nat.add_assoc start' i] at hrest
      exact .cons (.call (by omega)) hrest
  | back site rest ih =>
      exact List.rel_append (find?_framesFrom_append hinner (hfunctions site.target))
        (ih i hsize)
  | cut site depth rest ih => exact ih i hsize

theorem Execution.Matches.forall₂_calls {e e' : Execution}
    (h : Matches start start' size outer outer' e e')
    (hfunctions : forall f, Definition.function f ∈ outer.map (·.definition) <->
      Definition.function f ∈ outer'.map (·.definition)) :
    List.Forall₂ (Edge.Matches start start' size outer outer') e.node.calls e'.node.calls := by
  rcases h with ⟨inner, definition, i, course, hinner, hi, hsize, rfl, rfl⟩
  have hframes : forall place, place ∈ (definition, i) :: inner -> place.2 < size :=
    List.forall_mem_cons.mpr ⟨hi, hinner⟩
  exact course.forall₂_matches_edges hframes hfunctions (i + 1) hsize

end

namespace Execution

variable {e e' : Execution}

theorem mem_outer_iff (h : e.path.Nodup) {d : Definition} :
    d ∈ e.outer.map (·.definition) <-> d ∈ e.path ∧ d ≠ e.definition := by
  have hpath : e.path = e.definition :: e.outer.map (·.definition) := rfl
  rw [hpath, List.nodup_cons] at h
  rw [hpath, List.mem_cons]
  constructor
  · intro hd
    refine ⟨Or.inr hd, ?_⟩
    rintro rfl
    exact h.1 hd
  · intro hd
    exact hd.1.resolve_left hd.2

theorem forall₂_matches_subtree (hdefinition : e.definition = e'.definition)
    (hcourse : e.course = e'.course) :
    List.Forall₂ (Matches e.id.index e'.id.index e.size e.outer e'.outer) e.subtree
      e'.subtree := by
  have hframes : e'.frames = ⟨e.definition, e'.id⟩ :: e'.outer := by
    rw [hdefinition]
    rfl
  have hsize : 1 + e.course.size ≤ e.size := Nat.le_of_eq (Nat.add_comm 1 _)
  have hinside : List.Forall₂ (Matches e.id.index e'.id.index e.size e.outer e'.outer)
      (e.course.executions (framesFrom e.id.index [(e.definition, 0)] ++ e.outer)
        (e.id.index + 1))
      (e.course.executions (framesFrom e'.id.index [(e.definition, 0)] ++ e'.outer)
        (e'.id.index + 1)) :=
    e.course.forall₂_matches_executions _ 1 (by simp [size]) hsize
  refine .cons ⟨[], e.definition, 0, e.course, List.forall_mem_nil _, Nat.succ_pos _, hsize, rfl,
    ?_⟩ ?_
  · rw [placed, hcourse, hdefinition]
    rfl
  · rw [hframes, ← hcourse]
    exact hinside

end Execution

namespace Graph

/-!
# One subtree at two nodes
-/

/-- Two edges lead to the same place below two nodes, or out of both subtrees, to nodes of one
definition. -/
inductive SameEdge (g : Graph) (m n : NodeId) (size : Nat) : Edge -> Edge -> Prop where
  | call {i : Nat} :
      i < size -> SameEdge g m n size (.call ⟨m.index + i⟩) (.call ⟨n.index + i⟩)
  | inside {i : Nat} :
      i < size -> SameEdge g m n size (.recursive ⟨m.index + i⟩) (.recursive ⟨n.index + i⟩)
  | leaving {a b : NodeId} {d : Definition} :
      a.index < m.index -> b.index < n.index -> g.definition a = .ok d ->
      g.definition b = .ok d -> SameEdge g m n size (.recursive a) (.recursive b)

/-- Below two nodes stand as many nodes, and those that are equally far from the top agree. -/
structure SameBelow (g : Graph) (m n : NodeId) (size : Nat) : Prop where
  reachable_left : g.reachable m = .ok (nodesFrom m.index size)
  reachable_right : g.reachable n = .ok (nodesFrom n.index size)
  same_nodes : forall i, i < size -> exists node node',
    g.node ⟨m.index + i⟩ = .ok node ∧ g.node ⟨n.index + i⟩ = .ok node' ∧
    node.definition = node'.definition ∧ node.reads = node'.reads ∧
    node.writes = node'.writes ∧ List.Forall₂ (g.SameEdge m n size) node.calls node'.calls

section

variable {s : Store} {config : Config} {linearization : List ContractId}
  {roots : List Execution}

theorem index_lt_of_mem_outer (h : Rooted roots) :
    forall e, e ∈ forest roots -> forall frame, frame ∈ e.outer ->
      frame.node.index < e.id.index := by
  refine forall_mem_forest ?_ ?_
  · intro e he frame hframe
    rw [h.outer_eq_nil e he] at hframe
    cases hframe
  · intro e _ ih c hc frame hframe
    have hlt := Execution.id_lt_of_mem_callees hc
    rw [Execution.outer_of_mem_callees hc] at hframe
    rcases List.mem_cons.mp hframe with rfl | hframe
    · exact hlt
    · exact Nat.lt_trans (ih frame hframe) hlt

theorem mem_path_iff (h : Rooted roots) {e : Execution} (he : e ∈ forest roots)
    {d : Definition} :
    d ∈ e.path <-> exists m, m ∈ e.lineage ∧ (ofExecutions roots).definition m = .ok d := by
  rw [← List.mem_map, map_definition_lineage h he, List.mem_map]
  simp only [Except.ok.injEq, exists_eq_right]

theorem sameEdge_of_matches (h : Rooted roots) {e e' : Execution} (he : e ∈ forest roots)
    (he' : e' ∈ forest roots) {size : Nat} {edge edge' : Edge}
    (hmatches : Edge.Matches e.id.index e'.id.index size e.outer e'.outer edge edge') :
    (ofExecutions roots).SameEdge e.id e'.id size edge edge' := by
  cases hmatches with
  | call hlt => exact .call hlt
  | inside hlt => exact .inside hlt
  | outside hframe hframe' heq =>
      have hd := definition_of_mem_frames h he (List.mem_cons_of_mem _ hframe)
      have hd' := definition_of_mem_frames h he' (List.mem_cons_of_mem _ hframe')
      rw [← heq] at hd'
      exact .leaving (index_lt_of_mem_outer h e he _ hframe)
        (index_lt_of_mem_outer h e' he' _ hframe') hd hd'

theorem sameBelow_ofExecutions (h : Rooted roots)
    (hunrolled : forall e, e ∈ roots -> e.Unrolled s config linearization) {e e' : Execution}
    (he : e ∈ forest roots) (he' : e' ∈ forest roots)
    (hdefinition : e.definition = e'.definition)
    (hfunctions : forall f, Definition.function f ∈ e.path <-> Definition.function f ∈ e'.path)
    (hlength : e.path.length = e'.path.length ∨ config.maxCallDepth = none) :
    (ofExecutions roots).SameBelow e.id e'.id e.size := by
  have hcourse := (unrolled_of_mem_forest hunrolled e he).course_eq
    (unrolled_of_mem_forest hunrolled e' he') hdefinition hfunctions hlength
  have houter : forall f, Definition.function f ∈ e.outer.map (·.definition) <->
      Definition.function f ∈ e'.outer.map (·.definition) := by
    intro f
    rw [Execution.mem_outer_iff (nodup_path_of_mem_forest h hunrolled e he),
      Execution.mem_outer_iff (nodup_path_of_mem_forest h hunrolled e' he'), hfunctions,
      hdefinition]
  have hsubtree := Execution.forall₂_matches_subtree hdefinition hcourse
  constructor
  · rw [reachable_ofExecutions h he, e.map_id_subtree]
  · rw [reachable_ofExecutions h he', e'.map_id_subtree, Execution.size, Execution.size, hcourse]
  · intro i hi
    have hid : (⟨e.id.index + i⟩ : NodeId) ∈ e.subtree.map Execution.id := by
      rw [e.map_id_subtree, mem_nodesFrom]
      exact ⟨Nat.le_add_right _ i, Nat.add_lt_add_left hi _⟩
    rcases List.mem_map.mp hid with ⟨c, hc, hcid⟩
    rcases exists_of_mem_forall₂ hsubtree hc with ⟨c', hc', hmatches⟩
    have hedges := hmatches.forall₂_calls houter
    rcases hmatches with ⟨inner, d, j, course, _, _, _, rfl, rfl⟩
    cases Nat.add_left_cancel (congrArg NodeId.index hcid)
    exact ⟨_, _, node_ofExecutions h (subtree_mem_forest he _ hc),
      node_ofExecutions h (subtree_mem_forest he' _ hc'), rfl, rfl, rfl,
      hedges.imp fun _ _ hedge => sameEdge_of_matches h he he' hedge⟩

end

end Graph

/-- The subtree of a node is determined by its definition, the functions above it and, if the nesting
is limited, its depth. -/
theorem subtrees_are_determined {create : Text.Path -> Except String Unit} {s : Store}
    {config : Config} {id : ContractId} {a : Analysis} (h : Analyzes create s config id a)
    {m n : NodeId} {p q : List NodeId} (hp : a.graph.RootPath m p) (hq : a.graph.RootPath n q)
    (hdefinition : a.graph.definition m = a.graph.definition n)
    (hfunctions : forall f, (exists x, x ∈ p ∧ a.graph.definition x = .ok (.function f)) <->
      exists y, y ∈ q ∧ a.graph.definition y = .ok (.function f))
    (hlength : p.length = q.length ∨ config.maxCallDepth = none) :
    exists size, a.graph.SameBelow m n size := by
  rcases exists_roots_of_analyzes h with ⟨contract, roots, _, hrooted, hgraph, hunrolled⟩
  rw [hgraph] at hp hq hdefinition hfunctions ⊢
  rcases Graph.exists_execution_of_rootPath hrooted hp with ⟨e, he, rfl, rfl⟩
  rcases Graph.exists_execution_of_rootPath hrooted hq with ⟨e', he', rfl, rfl⟩
  rw [Graph.definition_ofExecutions hrooted he, Graph.definition_ofExecutions hrooted he',
    Except.ok.injEq] at hdefinition
  simp only [← Graph.mem_path_iff hrooted he, ← Graph.mem_path_iff hrooted he'] at hfunctions
  rw [Graph.length_lineage, Graph.length_lineage] at hlength
  exact ⟨e.size, Graph.sameBelow_ofExecutions hrooted hunrolled he he' hdefinition hfunctions
    hlength⟩

/-!
# One cycle below two roots

The initial values of `x` and `y` call `f`, which calls `g`. The function `g` calls itself, `f` and
`h`.
-/

namespace Twice

def store : Store where
  functions := { entries := #[
    Cycle.function "f" .function false [.expr (Cycle.call ⟨1⟩)],
    Cycle.function "g" .function false
      [.expr (Cycle.call ⟨1⟩), .expr (Cycle.call ⟨0⟩), .expr (Cycle.call ⟨2⟩)],
    Cycle.function "h" .function false []] }
  stateVariables := { entries := #[
    ⟨.named "x", .uint 256, some (Cycle.call ⟨0⟩), false, .dummy⟩,
    ⟨.named "y", .uint 256, some (Cycle.call ⟨0⟩), false, .dummy⟩] }
  contracts := { entries := #[⟨.named "C", [⟨0⟩], none, [⟨0⟩, ⟨1⟩, ⟨2⟩], [⟨0⟩, ⟨1⟩], .dummy⟩] }

def site (f : FunctionId) (name signature : String) : CallSite :=
  ⟨f, f, .named name, signature, .dummy⟩

def course : Course :=
  .call (site ⟨0⟩ "f" "f()")
    (.call (site ⟨1⟩ "g" "g()")
      (.back (site ⟨1⟩ "g" "g()") (.back (site ⟨0⟩ "f" "f()")
        (.call (site ⟨2⟩ "h" "h()") .done .done)))
      .done)
    .done

def entries : List EntryPoint := [
  .implicitConstructor (.named "C") ⟨0⟩,
  .stateVariable (.named "x") ⟨0⟩ (.write ⟨0⟩ course),
  .stateVariable (.named "y") ⟨1⟩ (.write ⟨1⟩ course)]

def graph : Graph where
  nodes := #[
    ⟨.implicitConstructor ⟨0⟩, [], [], []⟩,
    ⟨.stateVariable ⟨0⟩, [.call ⟨2⟩], [], [⟨0⟩]⟩,
    ⟨.function ⟨0⟩, [.call ⟨3⟩], [], []⟩,
    ⟨.function ⟨1⟩, [.recursive ⟨3⟩, .recursive ⟨2⟩, .call ⟨4⟩], [], []⟩,
    ⟨.function ⟨2⟩, [], [], []⟩,
    ⟨.stateVariable ⟨1⟩, [.call ⟨6⟩], [], [⟨1⟩]⟩,
    ⟨.function ⟨0⟩, [.call ⟨7⟩], [], []⟩,
    ⟨.function ⟨1⟩, [.recursive ⟨7⟩, .recursive ⟨6⟩, .call ⟨8⟩], [], []⟩,
    ⟨.function ⟨2⟩, [], [], []⟩]
  roots := [⟨0⟩, ⟨1⟩, ⟨5⟩]

theorem unrolls_course (v : StateVariableId) :
    store.Unrolls {} [⟨0⟩] [.stateVariable v] [.call ⟨0⟩ .dummy] course := by
  have hf : store.Resolves [⟨0⟩] ⟨0⟩ .dummy (site ⟨0⟩ "f" "f()") :=
    ⟨rfl, rfl, rfl, _, rfl, rfl, by decide⟩
  have hg : store.Resolves [⟨0⟩] ⟨1⟩ .dummy (site ⟨1⟩ "g" "g()") :=
    ⟨rfl, rfl, rfl, _, rfl, rfl, by decide⟩
  have hh : store.Resolves [⟨0⟩] ⟨2⟩ .dummy (site ⟨2⟩ "h" "h()") :=
    ⟨rfl, rfl, rfl, _, rfl, rfl, by decide⟩
  refine .call hf (by simp) rfl rfl ?_ .done
  refine .call hg (by simp [site]) rfl rfl ?_ .done
  refine .back hg (by simp [site]) (.back hf (by simp [site]) ?_)
  exact .call hh (by simp [site]) rfl rfl .done .done

theorem exists_analyzes :
    exists a, Analyzes (fun _ => .ok ()) store {} ⟨0⟩ a ∧ a.graph = graph := by
  have hx : store.stateVariableEntry {} [⟨0⟩] ⟨0⟩ = .ok _ :=
    Store.stateVariableEntry_of_unrolls rfl (.write (unrolls_course ⟨0⟩))
  have hy : store.stateVariableEntry {} [⟨0⟩] ⟨1⟩ = .ok _ :=
    Store.stateVariableEntry_of_unrolls rfl (.write (unrolls_course ⟨1⟩))
  have hentries : store.entryPoints {} [⟨0⟩] = .ok entries := by
    simp only [Store.entryPoints, bind_eq_ok_iff, mapM_eq_ok_iff, pure_eq_ok_iff]
    exact ⟨_, .cons rfl .nil, _, rfl, _, .cons hx (.cons hy .nil), rfl⟩
  have hfound : exists a, Analyzes (fun _ => .ok ()) store {} ⟨0⟩ a ∧
      a.graph = Graph.ofEntryPoints entries :=
    exists_analyzes_of_entryPoints rfl rfl hentries rfl
  exact hfound

theorem rootPath_x : graph.RootPath ⟨3⟩ [⟨3⟩, ⟨2⟩, ⟨1⟩] :=
  .callee (.callee (.root (by decide)) rfl (List.mem_singleton_self _)) rfl
    (List.mem_singleton_self _)

theorem rootPath_y : graph.RootPath ⟨7⟩ [⟨7⟩, ⟨6⟩, ⟨5⟩] :=
  .callee (.callee (.root (by decide)) rfl (List.mem_singleton_self _)) rfl
    (List.mem_singleton_self _)

end Twice

theorem sameBelow_twice :
    exists a, Analyzes (fun _ => .ok ()) Twice.store {} ⟨0⟩ a ∧
      a.graph.RootPath ⟨3⟩ [⟨3⟩, ⟨2⟩, ⟨1⟩] ∧ a.graph.RootPath ⟨7⟩ [⟨7⟩, ⟨6⟩, ⟨5⟩] ∧
      a.graph.definition ⟨3⟩ = a.graph.definition ⟨7⟩ ∧
      (forall f, (exists x, x ∈ [⟨3⟩, ⟨2⟩, ⟨1⟩] ∧ a.graph.definition x = .ok (.function f)) <->
        exists y, y ∈ [⟨7⟩, ⟨6⟩, ⟨5⟩] ∧ a.graph.definition y = .ok (.function f)) ∧
      exists size, a.graph.SameBelow ⟨3⟩ ⟨7⟩ size := by
  rcases Twice.exists_analyzes with ⟨a, h, hgraph⟩
  have hp := Twice.rootPath_x
  have hq := Twice.rootPath_y
  rw [← hgraph] at hp hq
  have hdefinition : a.graph.definition ⟨3⟩ = a.graph.definition ⟨7⟩ := by
    rw [hgraph]
    rfl
  have hfunctions : forall f,
      (exists x, x ∈ [⟨3⟩, ⟨2⟩, ⟨1⟩] ∧ a.graph.definition x = .ok (.function f)) <->
        exists y, y ∈ [⟨7⟩, ⟨6⟩, ⟨5⟩] ∧ a.graph.definition y = .ok (.function f) := by
    intro f
    have hx : [⟨3⟩, ⟨2⟩, ⟨1⟩].map Twice.graph.definition =
        [.ok (.function ⟨1⟩), .ok (.function ⟨0⟩), .ok (.stateVariable ⟨0⟩)] := rfl
    have hy : [⟨7⟩, ⟨6⟩, ⟨5⟩].map Twice.graph.definition =
        [.ok (.function ⟨1⟩), .ok (.function ⟨0⟩), .ok (.stateVariable ⟨1⟩)] := rfl
    rw [hgraph, ← List.mem_map, ← List.mem_map, hx, hy]
    simp
  exact ⟨a, h, hp, hq, hdefinition, hfunctions,
    subtrees_are_determined h hp hq hdefinition hfunctions (.inl rfl)⟩

end CallForest
