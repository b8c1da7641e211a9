import CallForest.Proofs.Building

/-!
# The forest of a graph

The executions at the roots of an analysis and all executions inside them form a forest. This module
reads the graph that they make off the forest: nodes are executions, call edges lead to the
executions started directly, and the nodes on the way from a root to a node are the ones of the
frames that were open when the node was made.
-/

namespace CallForest

/-- The executions at some roots and all executions inside them, in the order of their nodes. -/
def forest (roots : List Execution) : List Execution :=
  roots.flatMap Execution.subtree

namespace Course

/-!
# Parents and callees inside a course
-/

theorem mem_executions_of_mem_callees {course : Course} {frames : List Frame} {next : Nat}
    {e : Execution} (h : e ∈ course.callees frames next) :
    e ∈ course.executions frames next := by
  rw [executions_eq_flatMap]
  exact List.mem_flatMap.mpr ⟨e, h, e.self_mem_subtree⟩

theorem callees_mem_executions {course : Course} {frames : List Frame} {next : Nat}
    {e c : Execution} (he : e ∈ course.executions frames next) (hc : c ∈ e.callees) :
    c ∈ course.executions frames next := by
  induction course generalizing frames next with
  | done => cases he
  | read v rest ih => exact ih he
  | write v rest ih => exact ih he
  | call site body rest ihBody ihRest =>
      rw [executions, List.mem_cons, List.mem_append] at he ⊢
      rcases he with rfl | hbody | hrest
      · exact Or.inr (Or.inl (mem_executions_of_mem_callees hc))
      · exact Or.inr (Or.inl (ihBody hbody))
      · exact Or.inr (Or.inr (ihRest hrest))
  | back site rest ih => exact ih he
  | cut site depth rest ih => exact ih he

theorem mem_callees_or_of_mem_executions {course : Course} {frames : List Frame} {next : Nat}
    {e : Execution} (h : e ∈ course.executions frames next) :
    e ∈ course.callees frames next ∨
      exists p, p ∈ course.executions frames next ∧ e ∈ p.callees := by
  induction course generalizing frames next with
  | done => cases h
  | read v rest ih => exact ih h
  | write v rest ih => exact ih h
  | call site body rest ihBody ihRest =>
      rw [executions, List.mem_cons, List.mem_append] at h
      simp only [callees, executions, List.mem_cons, List.mem_append]
      rcases h with heq | hbody | hrest
      · exact Or.inl (Or.inl heq)
      · rcases ihBody hbody with hcallee | ⟨p, hp, he⟩
        · exact Or.inr ⟨entered frames next site body, Or.inl rfl, hcallee⟩
        · exact Or.inr ⟨p, Or.inr (Or.inl hp), he⟩
      · rcases ihRest hrest with hcallee | ⟨p, hp, he⟩
        · exact Or.inl (Or.inr hcallee)
        · exact Or.inr ⟨p, Or.inr (Or.inr hp), he⟩
  | back site rest ih => exact ih h
  | cut site depth rest ih => exact ih h

end Course

theorem Execution.callees_mem_subtree {e d c : Execution} (hd : d ∈ e.subtree)
    (hc : c ∈ d.callees) : c ∈ e.subtree := by
  rcases List.mem_cons.mp hd with rfl | hinside
  · exact List.mem_cons_of_mem _ (Course.mem_executions_of_mem_callees hc)
  · exact List.mem_cons_of_mem _ (Course.callees_mem_executions hinside hc)

/-!
# Executions at the roots
-/

/-- Executions that can stand at the roots of a graph: nothing is around them, and the nodes of their
forest are numbered from zero in the order of the forest. -/
structure Rooted (roots : List Execution) : Prop where
  outer_eq_nil : forall e, e ∈ roots -> e.outer = []
  map_id_forest : (forest roots).map Execution.id = nodesFrom 0 (forest roots).length

theorem outer_of_mem_rootExecutions {next : Nat} {plan : List (Definition × Course)}
    {e : Execution} (h : e ∈ rootExecutions next plan) : e.outer = [] := by
  induction plan generalizing next with
  | nil => cases h
  | cons root plan ih =>
      rcases root with ⟨definition, course⟩
      rw [rootExecutions_cons] at h
      rcases List.mem_cons.mp h with rfl | htail
      · rfl
      · exact ih htail

theorem mem_plan_of_mem_rootExecutions {next : Nat} {plan : List (Definition × Course)}
    {e : Execution} (h : e ∈ rootExecutions next plan) : (e.definition, e.course) ∈ plan := by
  induction plan generalizing next with
  | nil => cases h
  | cons root plan ih =>
      rcases root with ⟨definition, course⟩
      rw [rootExecutions_cons] at h
      rcases List.mem_cons.mp h with rfl | htail
      · exact List.mem_cons_self
      · exact List.mem_cons_of_mem _ (ih htail)

theorem map_id_forest_rootExecutions (next : Nat) (plan : List (Definition × Course)) :
    (forest (rootExecutions next plan)).map Execution.id =
      nodesFrom next (forest (rootExecutions next plan)).length := by
  induction plan generalizing next with
  | nil => rfl
  | cons root plan ih =>
      rcases root with ⟨definition, course⟩
      have hlength : (Execution.subtree ⟨⟨definition, ⟨next⟩⟩, [], course⟩).length =
          course.size + 1 := by
        simp [Execution.subtree]
      rw [rootExecutions_cons, forest, List.flatMap_cons, List.map_append,
        Execution.map_id_subtree, List.length_append, ← nodesFrom_append, hlength]
      exact congrArg (nodesFrom next (course.size + 1) ++ ·) (ih (next + (course.size + 1)))

theorem rooted_rootExecutions (plan : List (Definition × Course)) :
    Rooted (rootExecutions 0 plan) where
  outer_eq_nil _ h := outer_of_mem_rootExecutions h
  map_id_forest := map_id_forest_rootExecutions 0 plan

/-!
# Moving through a forest
-/

theorem mem_forest_of_mem_subtree {roots : List Execution} {e c : Execution} (he : e ∈ roots)
    (hc : c ∈ e.subtree) : c ∈ forest roots :=
  List.mem_flatMap.mpr ⟨e, he, hc⟩

theorem mem_forest_of_mem {roots : List Execution} {e : Execution} (h : e ∈ roots) :
    e ∈ forest roots :=
  mem_forest_of_mem_subtree h e.self_mem_subtree

theorem callees_mem_forest {roots : List Execution} {e c : Execution} (he : e ∈ forest roots)
    (hc : c ∈ e.callees) : c ∈ forest roots := by
  rcases List.mem_flatMap.mp he with ⟨root, hroot, hsub⟩
  exact mem_forest_of_mem_subtree hroot (Execution.callees_mem_subtree hsub hc)

theorem subtree_mem_forest {roots : List Execution} {e : Execution} (he : e ∈ forest roots) :
    forall c, c ∈ e.subtree -> c ∈ forest roots :=
  Execution.forall_mem_subtree (fun _ hd _ hc => callees_mem_forest hd hc) he

theorem mem_roots_or_exists_parent {roots : List Execution} {e : Execution}
    (h : e ∈ forest roots) :
    e ∈ roots ∨ exists p, p ∈ forest roots ∧ e ∈ p.callees := by
  rcases List.mem_flatMap.mp h with ⟨root, hroot, hsub⟩
  rcases List.mem_cons.mp hsub with rfl | hinside
  · exact Or.inl hroot
  · apply Or.inr
    rcases Course.mem_callees_or_of_mem_executions hinside with hcallee | ⟨p, hp, he⟩
    · exact ⟨root, mem_forest_of_mem hroot, hcallee⟩
    · exact ⟨p, mem_forest_of_mem_subtree hroot (List.mem_cons_of_mem _ hp), he⟩

theorem forall_mem_forest {roots : List Execution} {P : Execution -> Prop}
    (hroot : forall e, e ∈ roots -> P e)
    (hstep : forall e, e ∈ forest roots -> P e -> forall c, c ∈ e.callees -> P c) :
    forall e, e ∈ forest roots -> P e := by
  have hboth : forall e, e ∈ forest roots -> e ∈ forest roots ∧ P e := by
    intro e he
    rcases List.mem_flatMap.mp he with ⟨root, hmem, hsub⟩
    refine Execution.forall_mem_subtree (P := fun e => e ∈ forest roots ∧ P e) ?_
      ⟨mem_forest_of_mem hmem, hroot root hmem⟩ e hsub
    intro p hp c hc
    exact ⟨callees_mem_forest hp.1 hc, hstep p hp.1 hp.2 c hc⟩
  intro e he
  exact (hboth e he).2

theorem exists_mem_forest_of_mem_frames {roots : List Execution} (h : Rooted roots)
    {e : Execution} (he : e ∈ forest roots) :
    forall frame, frame ∈ e.frames -> exists a, a ∈ forest roots ∧ a.frame = frame := by
  refine forall_mem_forest (P := fun e =>
    forall frame, frame ∈ e.frames -> exists a, a ∈ forest roots ∧ a.frame = frame) ?_ ?_ e he
  · intro root hroot frame hframe
    rw [Execution.frames, h.outer_eq_nil root hroot, List.mem_singleton] at hframe
    exact ⟨root, mem_forest_of_mem hroot, hframe.symm⟩
  · intro p hp ih c hc frame hframe
    rw [Execution.frames, Execution.outer_of_mem_callees hc, List.mem_cons] at hframe
    rcases hframe with rfl | hframe
    · exact ⟨c, callees_mem_forest hp hc, rfl⟩
    · exact ih frame hframe

/-!
# Nodes
-/

theorem getElem?_forest_eq_some_iff {roots : List Execution} (h : Rooted roots) {n : NodeId}
    {e : Execution} :
    (forest roots)[n.index]? = some e <-> e ∈ forest roots ∧ e.id = n := by
  have hid : forall (i : Nat) (e : Execution), (forest roots)[i]? = some e -> e.id = ⟨i⟩ := by
    intro i e he
    have hlt := (List.getElem?_eq_some_iff.mp he).1
    have hmap := congrArg (fun ids => ids[i]?) h.map_id_forest
    simp only [List.getElem?_map, he, nodesFrom, List.getElem?_range' hlt] at hmap
    simpa using hmap
  constructor
  · intro he
    exact ⟨List.mem_of_getElem? he, hid n.index e he⟩
  · intro he
    rcases he with ⟨hmem, rfl⟩
    rcases List.mem_iff_getElem?.mp hmem with ⟨i, hi⟩
    rw [hid i e hi]
    exact hi

theorem eq_of_id_eq {roots : List Execution} (h : Rooted roots) {e e' : Execution}
    (he : e ∈ forest roots) (he' : e' ∈ forest roots) (hid : e.id = e'.id) : e = e' := by
  have hfirst := (getElem?_forest_eq_some_iff h).mpr ⟨he, hid⟩
  have hsecond := (getElem?_forest_eq_some_iff h).mpr ⟨he', rfl⟩
  rw [hfirst] at hsecond
  exact Option.some.inj hsecond

namespace Graph

theorem size_ofExecutions (roots : List Execution) :
    (ofExecutions roots).size = (forest roots).length := by
  simp [size, ofExecutions, forest]

theorem lt_size_ofExecutions_iff {roots : List Execution} (h : Rooted roots) {n : NodeId} :
    n.index < (ofExecutions roots).size <-> exists e, e ∈ forest roots ∧ e.id = n := by
  rw [size_ofExecutions]
  constructor
  · intro hlt
    exact ⟨_, (getElem?_forest_eq_some_iff h).mp (List.getElem?_eq_getElem hlt)⟩
  · intro hmem
    rcases hmem with ⟨e, he⟩
    exact (List.getElem?_eq_some_iff.mp ((getElem?_forest_eq_some_iff h).mpr he)).1

theorem node_eq_ok_iff {g : Graph} {n : NodeId} {node : Node} :
    g.node n = .ok node <-> g.nodes[n.index]? = some node := by
  rw [Graph.node, get?]
  cases g.nodes[n.index]? with
  | none => simp
  | some found => simp

theorem exists_node_iff {g : Graph} {n : NodeId} :
    (exists node, g.node n = .ok node) <-> n.index < g.size := by
  simp only [node_eq_ok_iff]
  constructor
  · intro h
    rcases h with ⟨node, hnode⟩
    exact (Array.getElem?_eq_some_iff.mp hnode).1
  · intro hlt
    exact ⟨_, Array.getElem?_eq_getElem hlt⟩

theorem node_ofExecutions_eq_ok_iff {roots : List Execution} (h : Rooted roots) {n : NodeId}
    {node : Node} :
    (ofExecutions roots).node n = .ok node <->
      exists e, e ∈ forest roots ∧ e.id = n ∧ e.node = node := by
  have hnodes : (ofExecutions roots).nodes[n.index]? =
      (forest roots)[n.index]?.map Execution.node := by
    simp [ofExecutions, forest]
  rw [node_eq_ok_iff, hnodes, Option.map_eq_some_iff]
  constructor
  · intro hnode
    rcases hnode with ⟨e, he, rfl⟩
    rcases (getElem?_forest_eq_some_iff h).mp he with ⟨hmem, hid⟩
    exact ⟨e, hmem, hid, rfl⟩
  · intro hnode
    rcases hnode with ⟨e, hmem, hid, rfl⟩
    exact ⟨e, (getElem?_forest_eq_some_iff h).mpr ⟨hmem, hid⟩, rfl⟩

theorem node_ofExecutions {roots : List Execution} (h : Rooted roots) {e : Execution}
    (he : e ∈ forest roots) : (ofExecutions roots).node e.id = .ok e.node :=
  (node_ofExecutions_eq_ok_iff h).mpr ⟨e, he, rfl, rfl⟩

theorem mem_roots_ofExecutions {roots : List Execution} {n : NodeId} :
    n ∈ (ofExecutions roots).roots <-> exists e, e ∈ roots ∧ e.id = n :=
  List.mem_map

end Graph
end CallForest
