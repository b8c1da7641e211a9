import CallForest.Proofs.Ancestry

/-!
# Levels and heights

The level of a node is the number of call edges that lead down to it from a root. In the graph of a
forest the nodes of one level stand in the order in which they were made, and the depth below a node
is the height of its execution. So a bound on the levels of a graph bounds the depth below each of
its roots.
-/

namespace CallForest

namespace Graph

/-- The nodes that stand a number of call edges below a root, in the order of the call edges. -/
def nodesAt (g : Graph) : Nat -> List NodeId
  | 0 => g.roots
  | level + 1 => (g.nodesAt level).flatMap fun n => ((g.get? n).map Node.callees).getD []

end Graph

def Execution.level (e : Execution) : Nat :=
  e.outer.length

def Execution.onLevel (level : Nat) (e : Execution) : Bool :=
  decide (e.level = level)

theorem Execution.onLevel_iff {level : Nat} {e : Execution} :
    e.onLevel level = true <-> e.level = level :=
  decide_eq_true_iff

/-!
# Levels in a course

The executions that a course starts directly are those on the outermost level. Below it, the
executions of each level start those of the next one, in order.
-/

theorem Execution.length_frames (e : Execution) : e.frames.length = e.level + 1 :=
  rfl

theorem Execution.level_of_mem_callees {e c : Execution} (h : c ∈ e.callees) :
    c.level = e.level + 1 := by
  rw [level, outer_of_mem_callees h, length_frames]

namespace Course

theorem level_of_mem_callees {course : Course} {frames : List Frame} {next : Nat}
    {e : Execution} (h : e ∈ course.callees frames next) : e.level = frames.length := by
  rw [Execution.level, outer_of_mem_callees h]

theorem le_level_of_mem_executions {course : Course} {frames : List Frame} {next : Nat} :
    forall e, e ∈ course.executions frames next -> frames.length ≤ e.level := by
  refine forall_mem_executions ?_ course frames next ?_
  · intro e he c hc
    rw [Execution.level_of_mem_callees hc]
    exact Nat.le_succ_of_le he
  · intro c hc
    exact Nat.le_of_eq (level_of_mem_callees hc).symm

theorem filter_level_eq_callees (course : Course) (frames : List Frame) (next : Nat) :
    (course.executions frames next).filter (Execution.onLevel frames.length) =
      course.callees frames next := by
  induction course generalizing next with
  | done => rfl
  | read v rest ih => exact ih next
  | write v rest ih => exact ih next
  | call site body rest ihBody ihRest =>
      have hentered : (entered frames next site body).level = frames.length := rfl
      have hbody : (body.executions (entered frames next site body).frames (next + 1)).filter
          (Execution.onLevel frames.length) = [] := by
        refine List.filter_eq_nil_iff.mpr ?_
        intro e he
        have hle := le_level_of_mem_executions e he
        rw [Execution.length_frames] at hle
        rw [Execution.onLevel_iff]
        omega
      rw [executions, callees, List.filter_cons_of_pos (Execution.onLevel_iff.mpr hentered),
        List.filter_append, hbody, List.nil_append, ihRest]
  | back site rest ih => exact ih next
  | cut site depth rest ih => exact ih next

end Course

theorem Execution.filter_level_subtree (e : Execution) :
    e.subtree.filter (onLevel e.level) = [e] := by
  have hinside : (e.course.executions e.frames e.next).filter (onLevel e.level) = [] := by
    refine List.filter_eq_nil_iff.mpr ?_
    intro c hc
    have hle := Course.le_level_of_mem_executions c hc
    rw [length_frames] at hle
    rw [onLevel_iff]
    omega
  rw [subtree, List.filter_cons_of_pos (onLevel_iff.mpr rfl), hinside]

/-- An execution starts what stands on the next level inside it. What holds of the levels further
in is handed on to it. -/
theorem Execution.flatMap_callees_filter_subtree (e : Execution) {level : Nat}
    (h : e.level ≤ level)
    (hinside : e.level < level ->
      ((e.course.executions e.frames e.next).filter (onLevel level)).flatMap callees =
        (e.course.executions e.frames e.next).filter (onLevel (level + 1))) :
    (e.subtree.filter (onLevel level)).flatMap callees =
      e.subtree.filter (onLevel (level + 1)) := by
  have hnext : ¬ e.onLevel (level + 1) = true := by
    rw [onLevel_iff]
    omega
  rcases Nat.eq_or_lt_of_le h with rfl | hlt
  · rw [filter_level_subtree, subtree, List.filter_cons_of_neg hnext, ← length_frames,
      Course.filter_level_eq_callees]
    exact List.append_nil _
  · have habsent : ¬ e.onLevel level = true := by
      rw [onLevel_iff]
      omega
    rw [subtree, List.filter_cons_of_neg hnext, List.filter_cons_of_neg habsent, hinside hlt]

theorem Course.flatMap_callees_filter_level (course : Course) (frames : List Frame) (next : Nat)
    {level : Nat} (h : frames.length ≤ level) :
    ((course.executions frames next).filter (Execution.onLevel level)).flatMap
        Execution.callees =
      (course.executions frames next).filter (Execution.onLevel (level + 1)) := by
  induction course generalizing frames next with
  | done => rfl
  | read v rest ih => exact ih frames next h
  | write v rest ih => exact ih frames next h
  | call site body rest ihBody ihRest =>
      have hsubtree := (entered frames next site body).flatMap_callees_filter_subtree h
        fun hlt => ihBody _ _ hlt
      show (((entered frames next site body).subtree ++ _).filter _).flatMap _ =
        ((entered frames next site body).subtree ++ _).filter _
      rw [List.filter_append, List.filter_append, List.flatMap_append, hsubtree, ihRest frames _ h]
  | back site rest ih => exact ih frames next h
  | cut site depth rest ih => exact ih frames next h

/-!
# Levels in a forest
-/

theorem filter_level_forest_zero {roots : List Execution}
    (h : forall e, e ∈ roots -> e.outer = []) :
    (forest roots).filter (Execution.onLevel 0) = roots := by
  induction roots with
  | nil => rfl
  | cons root roots ih =>
      rw [List.forall_mem_cons] at h
      rcases h with ⟨houter, hrest⟩
      have hsubtree := root.filter_level_subtree
      rw [Execution.level, houter, List.length_nil] at hsubtree
      rw [forest_cons, List.filter_append, hsubtree, ih hrest]
      rfl

theorem flatMap_callees_filter_level_forest {roots : List Execution}
    (h : forall e, e ∈ roots -> e.outer = []) (level : Nat) :
    ((forest roots).filter (Execution.onLevel level)).flatMap Execution.callees =
      (forest roots).filter (Execution.onLevel (level + 1)) := by
  induction roots with
  | nil => rfl
  | cons root roots ih =>
      rw [List.forall_mem_cons] at h
      rcases h with ⟨houter, hrest⟩
      have hlevel : root.level ≤ level := by
        rw [Execution.level, houter]
        exact Nat.zero_le level
      have hsubtree := root.flatMap_callees_filter_subtree hlevel
        fun hlt => root.course.flatMap_callees_filter_level root.frames root.next hlt
      rw [forest_cons, List.filter_append, List.filter_append, List.flatMap_append, hsubtree,
        ih hrest]

/-!
# Heights
-/

namespace Course

def height : Course -> Nat
  | .done => 0
  | .read _ rest => height rest
  | .write _ rest => height rest
  | .call _ body rest => max (height body + 1) (height rest)
  | .back _ rest => height rest
  | .cut _ _ rest => height rest

end Course

def Execution.height (e : Execution) : Nat :=
  e.course.height

namespace Course

theorem foldl_max_callees (course : Course) (frames : List Frame) (next start : Nat) :
    ((course.callees frames next).map fun c => c.height + 1).foldl max start =
      max start course.height := by
  induction course generalizing next start with
  | done => exact (Nat.max_zero start).symm
  | read v rest ih => exact ih next start
  | write v rest ih => exact ih next start
  | call site body rest ihBody ihRest =>
      rw [callees, List.map_cons, List.foldl_cons, ihRest, height, Nat.max_assoc]
      rfl
  | back site rest ih => exact ih next start
  | cut site depth rest ih => exact ih next start

theorem height_le {course : Course} {frames : List Frame} {next bound : Nat}
    (h : forall e, e ∈ course.executions frames next -> e.level < frames.length + bound) :
    course.height ≤ bound := by
  induction course generalizing frames next bound with
  | done => exact Nat.zero_le bound
  | read v rest ih => exact ih h
  | write v rest ih => exact ih h
  | call site body rest ihBody ihRest =>
      rw [executions, List.forall_mem_cons, List.forall_mem_append] at h
      rcases h with ⟨hentered, hbody, hrest⟩
      have hlevel : (entered frames next site body).level = frames.length := rfl
      rw [hlevel] at hentered
      have hinside : forall e, e ∈ body.executions (entered frames next site body).frames
          (next + 1) -> e.level < (entered frames next site body).frames.length + (bound - 1) := by
        intro e he
        have hlt := hbody e he
        rw [Execution.length_frames, hlevel]
        omega
      have hinner := ihBody hinside
      have houter := ihRest hrest
      rw [height]
      omega
  | back site rest ih => exact ih h
  | cut site depth rest ih => exact ih h

end Course

theorem Execution.height_le {e : Execution} {bound : Nat}
    (h : forall c, c ∈ e.subtree -> c.level ≤ e.level + bound) : e.height ≤ bound := by
  have hinside : forall c, c ∈ e.course.executions e.frames e.next ->
      c.level < e.frames.length + bound := by
    intro c hc
    have hle := h c (List.mem_cons_of_mem _ hc)
    rw [length_frames]
    omega
  exact Course.height_le hinside

namespace Graph

/-!
# Levels and depths in a graph
-/

theorem get?_ofExecutions {roots : List Execution} (h : Rooted roots) {e : Execution}
    (he : e ∈ forest roots) : (ofExecutions roots).get? e.id = some e.node :=
  node_eq_ok_iff.mp (node_ofExecutions h he)

theorem nodesAt_ofExecutions {roots : List Execution} (h : Rooted roots) (level : Nat) :
    (ofExecutions roots).nodesAt level =
      ((forest roots).filter (Execution.onLevel level)).map Execution.id := by
  induction level with
  | zero =>
      rw [filter_level_forest_zero h.outer_eq_nil]
      rfl
  | succ level ih =>
      rw [nodesAt, ih, List.flatMap_map, ← flatMap_callees_filter_level_forest h.outer_eq_nil,
        List.map_flatMap]
      refine List.flatMap_congr ?_
      intro e he
      rw [get?_ofExecutions h (List.mem_of_mem_filter he), Option.map_some, Option.getD_some,
        Execution.callees_node]

theorem mem_nodesAt_ofExecutions {roots : List Execution} (h : Rooted roots) {e : Execution}
    (he : e ∈ forest roots) {level : Nat} :
    e.id ∈ (ofExecutions roots).nodesAt level <-> e.level = level := by
  rw [nodesAt_ofExecutions h, List.mem_map]
  constructor
  · intro hmem
    rcases hmem with ⟨d, hd, hid⟩
    rcases List.mem_filter.mp hd with ⟨hd, hlevel⟩
    rw [eq_of_id_eq h he hd hid.symm]
    exact Execution.onLevel_iff.mp hlevel
  · intro hlevel
    exact ⟨e, List.mem_filter.mpr ⟨he, Execution.onLevel_iff.mpr hlevel⟩, rfl⟩

theorem pairwise_nodesAt_ofExecutions {roots : List Execution} (h : Rooted roots) (level : Nat) :
    ((ofExecutions roots).nodesAt level).Pairwise fun n m => n.index < m.index := by
  have hall : ((forest roots).map Execution.id).Pairwise fun n m => n.index < m.index := by
    rw [h.map_id_forest, nodesFrom, List.pairwise_map]
    exact List.pairwise_lt_range'
  rw [nodesAt_ofExecutions h]
  exact hall.sublist (List.filter_sublist.map Execution.id)

theorem depthWithin_ofExecutions {roots : List Execution} (h : Rooted roots) (level : Nat) :
    forall e, e ∈ forest roots -> e.size ≤ level ->
      (ofExecutions roots).depthWithin level e.id = .ok e.height := by
  induction level with
  | zero =>
      intro e _ hsize
      cases hsize
  | succ level ih =>
      intro e he hsize
      have hbelow : (e.callees.map Execution.id).mapM ((ofExecutions roots).depthWithin level) =
          .ok (e.callees.map Execution.height) := by
        apply mapM_map_eq_ok
        intro c hc
        have hlt := Execution.size_lt_of_mem_callees hc
        exact ih c (callees_mem_forest he hc) (by omega)
      have hmax := e.course.foldl_max_callees e.frames e.next 0
      rw [Nat.zero_max] at hmax
      rw [depthWithin, node_ofExecutions h he]
      show (e.node.callees.mapM ((ofExecutions roots).depthWithin level) >>= _) = _
      rw [Execution.callees_node, hbelow]
      show Except.ok _ = Except.ok _
      rw [List.map_map]
      exact congrArg Except.ok hmax

theorem depth_ofExecutions {roots : List Execution} (h : Rooted roots) {e : Execution}
    (he : e ∈ forest roots) : (ofExecutions roots).depth e.id = .ok e.height := by
  apply depthWithin_ofExecutions h _ e he
  rw [size_ofExecutions]
  exact Nat.le_succ_of_le (size_le_length_forest e he)

theorem depth_root_le {roots : List Execution} (h : Rooted roots) {bound : Nat}
    (hlevel : forall e, e ∈ forest roots -> e.level ≤ bound) {r : NodeId}
    (hr : r ∈ (ofExecutions roots).roots) :
    exists depth, (ofExecutions roots).depth r = .ok depth ∧ depth ≤ bound := by
  rcases mem_roots_ofExecutions.mp hr with ⟨e, he, rfl⟩
  refine ⟨e.height, depth_ofExecutions h (mem_forest_of_mem he), Execution.height_le ?_⟩
  intro c hc
  exact Nat.le_add_left_of_le (hlevel c (mem_forest_of_mem_subtree he hc))

end Graph
end CallForest
