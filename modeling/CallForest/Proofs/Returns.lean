import CallForest.Proofs.Ancestry

/-!
# Calls that go back

A call of a function that is being executed leaves a recursive edge at the node of the caller, back
to the node of that function. This module lists these calls over a whole forest, in the order in
which they are met. The edges of the graph tell the same list: a walk that goes down every call edge
where it stands meets the recursive edges in the order in which they were recorded. This is not the
order of the nodes, since a node may record an edge after a node below it has been finished.
-/

namespace CallForest

/-!
# First items for a key

Of several items with one key only the first one counts. Which keys have been met is handed on from
one list to the next.
-/

section

variable {alpha beta : Type} [DecidableEq beta] (key : alpha -> beta)

/-- The items whose key has not been met before. -/
def firstsBy : List beta -> List alpha -> List alpha
  | _, [] => []
  | met, x :: xs =>
      if key x ∈ met then firstsBy met xs else x :: firstsBy (key x :: met) xs

def metBy : List beta -> List alpha -> List beta
  | met, [] => met
  | met, x :: xs => if key x ∈ met then metBy met xs else metBy (key x :: met) xs

theorem firstsBy_append (met : List beta) (xs ys : List alpha) :
    firstsBy key met (xs ++ ys) = firstsBy key met xs ++ firstsBy key (metBy key met xs) ys := by
  induction xs generalizing met with
  | nil => rfl
  | cons x xs ih =>
      rw [List.cons_append, firstsBy, firstsBy, metBy]
      split
      · exact ih met
      · rw [ih, List.cons_append]

theorem metBy_append (met : List beta) (xs ys : List alpha) :
    metBy key met (xs ++ ys) = metBy key (metBy key met xs) ys := by
  induction xs generalizing met with
  | nil => rfl
  | cons x xs ih =>
      rw [List.cons_append, metBy, metBy]
      split
      · exact ih met
      · exact ih _

variable {key} {met : List beta} {xs : List alpha}

theorem mem_map_firstsBy_iff {k : beta} :
    k ∈ (firstsBy key met xs).map key <-> k ∉ met ∧ k ∈ xs.map key := by
  induction xs generalizing met with
  | nil => simp [firstsBy]
  | cons x xs ih =>
      rw [firstsBy, List.map_cons, List.mem_cons]
      split
      · next hmet =>
          rw [ih]
          constructor
          · exact fun h => ⟨h.1, Or.inr h.2⟩
          · intro h
            rcases h with ⟨hnew, rfl | hmem⟩
            · exact absurd hmet hnew
            · exact ⟨hnew, hmem⟩
      · next hmet =>
          rw [List.map_cons, List.mem_cons, ih, List.mem_cons, not_or]
          constructor
          · intro h
            rcases h with rfl | ⟨⟨_, hnew⟩, hmem⟩
            · exact ⟨hmet, Or.inl rfl⟩
            · exact ⟨hnew, Or.inr hmem⟩
          · intro h
            rcases h with ⟨hnew, hmem⟩
            by_cases heq : k = key x
            · exact Or.inl heq
            · exact Or.inr ⟨⟨heq, hnew⟩, hmem.resolve_left heq⟩

theorem nodup_map_firstsBy : ((firstsBy key met xs).map key).Nodup := by
  induction xs generalizing met with
  | nil => exact List.nodup_nil
  | cons x xs ih =>
      rw [firstsBy]
      split
      · exact ih
      · rw [List.map_cons, List.nodup_cons]
        refine ⟨?_, ih⟩
        intro hmem
        exact (mem_map_firstsBy_iff.mp hmem).1 List.mem_cons_self

variable (key) in
theorem firstsBy_eq_nil_iff : firstsBy key [] xs = [] <-> xs = [] := by
  cases xs with
  | nil => simp [firstsBy]
  | cons x xs => simp [firstsBy]

theorem exists_append_of_mem_firstsBy {x : alpha} (h : x ∈ firstsBy key met xs) :
    exists earlier later, xs = earlier ++ x :: later ∧ forall y, y ∈ earlier -> key y ≠ key x := by
  induction xs generalizing met with
  | nil => cases h
  | cons first xs ih =>
      rw [firstsBy] at h
      have hcons : forall met, key first ∈ met -> x ∈ firstsBy key met xs ->
          exists earlier later, first :: xs = earlier ++ x :: later ∧
            forall y, y ∈ earlier -> key y ≠ key x := by
        intro met hmet hx
        rcases ih hx with ⟨earlier, later, heq, hother⟩
        have hnew := (mem_map_firstsBy_iff.mp (List.mem_map_of_mem (f := key) hx)).1
        refine ⟨first :: earlier, later, congrArg (first :: ·) heq, ?_⟩
        rw [List.forall_mem_cons]
        exact ⟨fun heq => hnew (heq ▸ hmet), hother⟩
      split at h
      · next hmet => exact hcons met hmet h
      · rcases List.mem_cons.mp h with rfl | h
        · exact ⟨[], xs, rfl, fun y hy => nomatch hy⟩
        · exact hcons _ List.mem_cons_self h

end

/-!
# Calls that go back, in order
-/

/-- A call that goes back, and the execution that makes it. -/
structure Return where
  holder : Execution
  site : CallSite

namespace Return

def target (r : Return) : FunctionId :=
  r.site.target

def edge? (r : Return) : Option (NodeId × NodeId) :=
  (r.holder.frames.find? fun frame => frame.definition = .function r.site.target).map
    fun frame => (r.holder.id, frame.node)

end Return

namespace Course

def backSites : Course -> List CallSite
  | .done => []
  | .read _ rest => backSites rest
  | .write _ rest => backSites rest
  | .call _ _ rest => backSites rest
  | .back site rest => site :: backSites rest
  | .cut _ _ rest => backSites rest

def returns : Execution -> Nat -> Course -> List Return
  | _, _, .done => []
  | e, next, .read _ rest => returns e next rest
  | e, next, .write _ rest => returns e next rest
  | e, next, .call site body rest =>
      returns (entered e.frames next site body) (next + 1) body ++
        returns e (next + (size body + 1)) rest
  | e, next, .back site rest => ⟨e, site⟩ :: returns e next rest
  | e, next, .cut _ _ rest => returns e next rest

theorem mem_returns_iff {course : Course} {e : Execution} {next : Nat} {r : Return} :
    r ∈ course.returns e next <->
      (r.holder = e ∧ r.site ∈ course.backSites) ∨
        (r.holder ∈ course.executions e.frames next ∧ r.site ∈ r.holder.course.backSites) := by
  induction course generalizing e next with
  | done => simp [returns, backSites, executions]
  | read v rest ih => exact ih
  | write v rest ih => exact ih
  | call site body rest ihBody ihRest =>
      rw [returns, List.mem_append, ihBody, ihRest, backSites, executions, List.mem_cons,
        List.mem_append, or_and_right, or_and_right]
      have hentered : (r.holder = entered e.frames next site body ∧ r.site ∈ body.backSites) <->
          (r.holder = entered e.frames next site body ∧ r.site ∈ r.holder.course.backSites) :=
        and_congr_right fun heq => by rw [heq]; rfl
      rw [hentered, or_left_comm, or_assoc]
  | back site rest ih =>
      rw [returns, List.mem_cons, ih, backSites, executions, List.mem_cons, and_or_left, or_assoc]
      rcases r with ⟨holder, found⟩
      rw [Return.mk.injEq]
  | cut site depth rest ih => exact ih

theorem recursive_mem_edges_iff {course : Course} {frames : List Frame} {next : Nat}
    {ancestor : NodeId} :
    Edge.recursive ancestor ∈ course.edges frames next <->
      exists site, site ∈ course.backSites ∧
        (frames.find? fun frame => frame.definition = .function site.target).map
          (fun frame => frame.node) = some ancestor := by
  induction course generalizing next with
  | done => simp [edges, backSites]
  | read v rest ih => exact ih
  | write v rest ih => exact ih
  | call site body rest ihBody ihRest =>
      rw [edges, List.mem_cons, ihRest, backSites]
      simp
  | back site rest ih =>
      rw [edges, List.mem_append, ih, backSites, List.exists_mem_cons_iff]
      simp [Option.mem_toList]
  | cut site depth rest ih => exact ih

end Course

namespace Execution

def returns (e : Execution) : List Return :=
  e.course.returns e e.next

theorem mem_returns_iff {e : Execution} {r : Return} :
    r ∈ e.returns <-> r.holder ∈ e.subtree ∧ r.site ∈ r.holder.course.backSites := by
  rw [returns, Course.mem_returns_iff, subtree, List.mem_cons, or_and_right]
  refine or_congr_left (and_congr_right ?_)
  intro heq
  rw [heq]

end Execution

def returnsIn (roots : List Execution) : List Return :=
  roots.flatMap Execution.returns

theorem returnsIn_cons (e : Execution) (roots : List Execution) :
    returnsIn (e :: roots) = e.returns ++ returnsIn roots :=
  rfl

theorem mem_returnsIn_iff {roots : List Execution} {r : Return} :
    r ∈ returnsIn roots <-> r.holder ∈ forest roots ∧ r.site ∈ r.holder.course.backSites := by
  simp only [returnsIn, forest, List.mem_flatMap, Execution.mem_returns_iff]
  constructor
  · intro h
    rcases h with ⟨e, he, hholder, hsite⟩
    exact ⟨⟨e, he, hholder⟩, hsite⟩
  · intro h
    rcases h with ⟨⟨e, he, hholder⟩, hsite⟩
    exact ⟨e, he, hholder, hsite⟩

/-!
# Recursive edges, in order
-/

/-- The recursive edges that are recorded while an edge of a node is made: those below the callee, or
the edge itself. Each comes with the node that holds it. -/
def Edge.recordedAt (holder : NodeId) (below : NodeId -> Except Fault (List (NodeId × NodeId))) :
    Edge -> Except Fault (List (NodeId × NodeId))
  | .call callee => below callee
  | .recursive ancestor => pure [(holder, ancestor)]

namespace Graph

def recursiveEdgesWithin (g : Graph) : Nat -> NodeId -> Except Fault (List (NodeId × NodeId))
  | 0, _ => .error .endlessWalk
  | level + 1, id => do
      let n ← g.node id
      let parts ← n.calls.mapM (Edge.recordedAt id (g.recursiveEdgesWithin level))
      pure parts.flatten

/-- The recursive edges of a graph in the order in which they are recorded, each with the node that
holds it before the node that it leads to. -/
def recursiveEdges (g : Graph) : Except Fault (List (NodeId × NodeId)) := do
  let parts ← g.roots.mapM (g.recursiveEdgesWithin (g.size + 1))
  pure parts.flatten

end Graph

theorem Course.exists_mapM_recordedAt {course : Course} {e : Execution} {next : Nat}
    {below : NodeId -> Except Fault (List (NodeId × NodeId))}
    (h : forall c, c ∈ course.callees e.frames next ->
      below c.id = .ok (c.returns.filterMap Return.edge?)) :
    exists parts, (course.edges e.frames next).mapM (Edge.recordedAt e.id below) = .ok parts ∧
      parts.flatten = (course.returns e next).filterMap Return.edge? := by
  induction course generalizing next with
  | done => exact ⟨[], rfl, rfl⟩
  | read v rest ih => exact ih h
  | write v rest ih => exact ih h
  | call site body rest ihBody ihRest =>
      rw [callees, List.forall_mem_cons] at h
      rcases h with ⟨hentered, hrest⟩
      rcases ihRest hrest with ⟨parts, hparts, hflatten⟩
      refine ⟨(entered e.frames next site body).returns.filterMap Return.edge? :: parts, ?_, ?_⟩
      · rw [mapM_eq_ok_iff] at hparts ⊢
        exact .cons hentered hparts
      · rw [List.flatten_cons, hflatten, returns, List.filterMap_append]
        rfl
  | back site rest ih =>
      rcases ih h with ⟨parts, hparts, hflatten⟩
      rw [edges, returns]
      cases hfind : e.frames.find? fun frame => frame.definition = .function site.target with
      | none =>
          have hedge : (⟨e, site⟩ : Return).edge? = none := by
            rw [Return.edge?, hfind]
            rfl
          rw [List.filterMap_cons_none hedge]
          exact ⟨parts, hparts, hflatten⟩
      | some frame =>
          have hedge : (⟨e, site⟩ : Return).edge? = some (e.id, frame.node) := by
            rw [Return.edge?, hfind]
            rfl
          rw [List.filterMap_cons_some hedge]
          refine ⟨[(e.id, frame.node)] :: parts, ?_, congrArg _ hflatten⟩
          rw [mapM_eq_ok_iff] at hparts ⊢
          exact .cons rfl hparts
  | cut site depth rest ih => exact ih h

namespace Graph

variable {roots : List Execution}

theorem recursiveEdgesWithin_ofExecutions (h : Rooted roots) (level : Nat) :
    forall e, e ∈ forest roots -> e.size ≤ level ->
      (ofExecutions roots).recursiveEdgesWithin level e.id =
        .ok (e.returns.filterMap Return.edge?) := by
  induction level with
  | zero =>
      intro e _ hsize
      cases hsize
  | succ level ih =>
      intro e he hsize
      have hbelow : forall c, c ∈ e.callees ->
          (ofExecutions roots).recursiveEdgesWithin level c.id =
            .ok (c.returns.filterMap Return.edge?) := by
        intro c hc
        have hlt := Execution.size_lt_of_mem_callees hc
        exact ih c (callees_mem_forest he hc) (by omega)
      rcases Course.exists_mapM_recordedAt hbelow with ⟨parts, hparts, hflatten⟩
      rw [recursiveEdgesWithin, bind_eq_ok_iff]
      exact ⟨e.node, node_ofExecutions h he, bind_pure_eq_ok_iff.mpr ⟨parts, hparts, hflatten⟩⟩

theorem recursiveEdges_ofExecutions (h : Rooted roots) :
    (ofExecutions roots).recursiveEdges = .ok ((returnsIn roots).filterMap Return.edge?) := by
  have hroots : (roots.map Execution.id).mapM
      ((ofExecutions roots).recursiveEdgesWithin ((ofExecutions roots).size + 1)) =
        .ok (roots.map fun e => e.returns.filterMap Return.edge?) := by
    apply mapM_map_eq_ok
    intro e he
    have hmem := mem_forest_of_mem he
    have hsize := size_le_length_forest e hmem
    rw [← size_ofExecutions] at hsize
    exact recursiveEdgesWithin_ofExecutions h _ e hmem (Nat.le_succ_of_le hsize)
  rw [recursiveEdges, bind_pure_eq_ok_iff]
  refine ⟨_, hroots, ?_⟩
  rw [returnsIn, List.filterMap_flatMap, List.flatMap_def]

theorem mem_recursiveEdges_iff (h : Rooted roots) {n ancestor : NodeId} :
    (n, ancestor) ∈ (returnsIn roots).filterMap Return.edge? <->
      exists node, (ofExecutions roots).node n = .ok node ∧
        Edge.recursive ancestor ∈ node.calls := by
  rw [List.mem_filterMap]
  constructor
  · intro hedge
    rcases hedge with ⟨⟨e, site⟩, hr, hedge⟩
    rcases mem_returnsIn_iff.mp hr with ⟨he, hsite⟩
    rcases Option.map_eq_some_iff.mp hedge with ⟨frame, hfind, heq⟩
    cases heq
    refine ⟨e.node, node_ofExecutions h he, ?_⟩
    exact Course.recursive_mem_edges_iff.mpr ⟨site, hsite, Option.map_eq_some_iff.mpr
      ⟨frame, hfind, rfl⟩⟩
  · intro hnode
    rcases hnode with ⟨node, hnode, hedge⟩
    rcases (node_ofExecutions_eq_ok_iff h).mp hnode with ⟨e, he, rfl, rfl⟩
    rcases Course.recursive_mem_edges_iff.mp hedge with ⟨site, hsite, hancestor⟩
    rcases Option.map_eq_some_iff.mp hancestor with ⟨frame, hfind, rfl⟩
    exact ⟨⟨e, site⟩, mem_returnsIn_iff.mpr ⟨he, hsite⟩, Option.map_eq_some_iff.mpr
      ⟨frame, hfind, rfl⟩⟩

end Graph
end CallForest
