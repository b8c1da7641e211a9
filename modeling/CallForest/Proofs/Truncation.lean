import CallForest.Proofs.Levels

/-!
# Truncating a call graph

A graph is restricted by deleting nodes together with the call edges that lead to them, and by
numbering the nodes that are left anew in their order. Truncating a graph keeps the nodes down to
some level. A course is truncated by cutting the calls that are nested too deeply, and this is what
truncates the graph: the executions of the truncated courses are those of the courses down to the
level, with new numbers.
-/

namespace CallForest

namespace Edge

def map (f : NodeId -> NodeId) : Edge -> Edge
  | .call callee => .call (f callee)
  | .recursive ancestor => .recursive (f ancestor)

/-- Whether an edge stays when nodes are deleted. A recursive edge does. -/
def staysIn (keep : NodeId -> Bool) : Edge -> Bool
  | .call callee => keep callee
  | .recursive _ => true

end Edge

def Execution.staysIn (keep : NodeId -> Bool) (e : Execution) : Bool :=
  keep e.id

def Node.restrict (keep : NodeId -> Bool) (renumber : NodeId -> NodeId) (n : Node) : Node :=
  { n with calls := (n.calls.filter (Edge.staysIn keep)).map (Edge.map renumber) }

namespace Graph

def rank (keep : NodeId -> Bool) (place : Nat) : Nat :=
  (nodesFrom 0 place).countP keep

def renumber (keep : NodeId -> Bool) (n : NodeId) : NodeId :=
  ⟨rank keep n.index⟩

def restrict (g : Graph) (keep : NodeId -> Bool) : Graph where
  nodes := ((g.entries.filter fun entry => keep entry.1).map fun entry =>
    entry.2.restrict keep (renumber keep)).toArray
  roots := (g.roots.filter keep).map (renumber keep)

def standsWithin (g : Graph) (limit : Nat) (n : NodeId) : Bool :=
  (List.range (limit + 1)).any fun level => decide (n ∈ g.nodesAt level)

/-- A graph without the nodes that stand more than some number of call edges below their root. -/
def truncate (g : Graph) (limit : Nat) : Graph :=
  g.restrict (g.standsWithin limit)

/-!
# Ranks

Each node that is kept raises the rank of the places behind it by one.
-/

theorem rank_add (keep : NodeId -> Bool) (start count : Nat) :
    rank keep (start + count) = rank keep start + (nodesFrom start count).countP keep := by
  have h := nodesFrom_append 0 start count
  rw [Nat.zero_add] at h
  rw [rank, ← h, List.countP_append, rank]

theorem rank_succ_of_keep {keep : NodeId -> Bool} {place : Nat} (h : keep ⟨place⟩ = true) :
    rank keep (place + 1) = rank keep place + 1 := by
  rw [rank_add, nodesFrom_succ, List.countP_cons_of_pos h]
  rfl

theorem rank_subtree_of_forall {keep : NodeId -> Bool} {e : Execution}
    (h : forall c, c ∈ e.subtree -> c.staysIn keep = false) :
    rank keep (e.id.index + e.size) = rank keep e.id.index := by
  have hnone : (e.subtree.map Execution.id).countP keep = 0 := by
    rw [List.countP_eq_zero, List.forall_mem_map]
    intro c hc
    exact Bool.eq_false_iff.mp (h c hc)
  rw [Execution.map_id_subtree] at hnone
  rw [rank_add, hnone, Nat.add_zero]

end Graph

/-!
# Truncated courses
-/

/-- A course at the end of a path of some length, without what lies behind calls from longer paths
than a limit admits. -/
def Course.truncate (limit : Nat) : Nat -> Course -> Course
  | _, .done => .done
  | depth, .read v rest => .read v (truncate limit depth rest)
  | depth, .write v rest => .write v (truncate limit depth rest)
  | depth, .call site body rest =>
      if limit < depth then .cut site depth (truncate limit depth rest)
      else .call site (truncate limit (depth + 1) body) (truncate limit depth rest)
  | depth, .back site rest => .back site (truncate limit depth rest)
  | depth, .cut site found rest => .cut site found (truncate limit depth rest)

def Frame.renumber (keep : NodeId -> Bool) (frame : Frame) : Frame :=
  { frame with node := Graph.renumber keep frame.node }

def Execution.truncate (keep : NodeId -> Bool) (limit : Nat) (e : Execution) : Execution where
  frame := e.frame.renumber keep
  outer := e.outer.map (Frame.renumber keep)
  course := e.course.truncate limit e.frames.length

namespace Course

theorem truncate_call_of_le {limit depth : Nat} (h : depth ≤ limit) (site : CallSite)
    (body rest : Course) :
    truncate limit depth (.call site body rest) =
      .call site (truncate limit (depth + 1) body) (truncate limit depth rest) := by
  rw [truncate, if_neg (Nat.not_lt.mpr h)]

theorem truncate_call_of_lt {limit depth : Nat} (h : limit < depth) (site : CallSite)
    (body rest : Course) :
    truncate limit depth (.call site body rest) = .cut site depth (truncate limit depth rest) := by
  rw [truncate, if_pos h]

theorem reads_truncate (limit depth : Nat) (course : Course) :
    (course.truncate limit depth).reads = course.reads := by
  induction course with
  | done => rfl
  | read v rest ih => exact congrArg (v :: ·) ih
  | write v rest ih => exact ih
  | call site body rest ihBody ihRest =>
      rw [truncate]
      split
      · exact ihRest
      · exact ihRest
  | back site rest ih => exact ih
  | cut site found rest ih => exact ih

theorem writes_truncate (limit depth : Nat) (course : Course) :
    (course.truncate limit depth).writes = course.writes := by
  induction course with
  | done => rfl
  | read v rest ih => exact ih
  | write v rest ih => exact congrArg (v :: ·) ih
  | call site body rest ihBody ihRest =>
      rw [truncate]
      split
      · exact ihRest
      · exact ihRest
  | back site rest ih => exact ih
  | cut site found rest ih => exact ih

end Course

/-!
# The executions of a truncated course

Below, `keep` keeps the nodes of the executions down to the level of the limit. A call on this level
is the last one that is followed. The nodes behind the calls further in are not kept, so they do not
count for the rank.
-/

/-- The nodes that are kept are those of the executions down to the level of a limit. -/
def KeepsLevels (keep : NodeId -> Bool) (limit : Nat) (es : List Execution) : Prop :=
  forall e, e ∈ es -> e.staysIn keep = decide (e.level ≤ limit)

section

variable {keep : NodeId -> Bool} {limit : Nat}

theorem KeepsLevels.staysIn_eq_false {e : Execution} (h : KeepsLevels keep limit e.subtree)
    (hlevel : limit < e.level) : forall c, c ∈ e.subtree -> c.staysIn keep = false := by
  intro c hc
  rw [h c hc, decide_eq_false_iff_not, Nat.not_le]
  rcases List.mem_cons.mp hc with rfl | hinside
  · exact hlevel
  · have hle := Course.le_level_of_mem_executions c hinside
    rw [Execution.length_frames] at hle
    omega

namespace Course

theorem keepsLevels_call {frames : List Frame} {next : Nat} {site : CallSite}
    {body rest : Course}
    (h : KeepsLevels keep limit ((Course.call site body rest).executions frames next)) :
    KeepsLevels keep limit (entered frames next site body).subtree ∧
      KeepsLevels keep limit (rest.executions frames (next + (body.size + 1))) :=
  List.forall_mem_append.mp h

end Course

theorem Execution.rank_add_size_of_course {e : Execution} (hkeep : e.staysIn keep = true)
    (hcourse : Graph.rank keep (e.next + e.course.size) =
      Graph.rank keep e.next + (e.course.truncate limit e.frames.length).size) :
    Graph.rank keep (e.id.index + e.size) =
      Graph.rank keep e.id.index + (e.truncate keep limit).size := by
  have hnext : Graph.rank keep e.next = Graph.rank keep e.id.index + 1 :=
    Graph.rank_succ_of_keep hkeep
  have hsize : e.id.index + e.size = e.next + e.course.size := by
    rw [size, next]
    omega
  have htruncated : (e.truncate keep limit).size =
      (e.course.truncate limit e.frames.length).size + 1 := rfl
  rw [hsize, hcourse, hnext, htruncated]
  omega

theorem Course.rank_add_size (course : Course) (frames : List Frame) (next : Nat)
    (h : KeepsLevels keep limit (course.executions frames next)) :
    Graph.rank keep (next + course.size) =
      Graph.rank keep next + (course.truncate limit frames.length).size := by
  induction course generalizing frames next with
  | done => rfl
  | read v rest ih => exact ih frames next h
  | write v rest ih => exact ih frames next h
  | call site body rest ihBody ihRest =>
      rcases keepsLevels_call h with ⟨hentered, hrest⟩
      have hnext : next + (Course.call site body rest).size =
          next + (body.size + 1) + rest.size :=
        (Nat.add_assoc next (body.size + 1) rest.size).symm
      rw [hnext, ihRest frames _ hrest]
      by_cases hlevel : frames.length ≤ limit
      · have hkeep : (entered frames next site body).staysIn keep = true :=
          (hentered _ List.mem_cons_self).trans (decide_eq_true hlevel)
        have hbody := Execution.rank_add_size_of_course hkeep
          (ihBody _ _ fun c hc => hentered c (List.mem_cons_of_mem _ hc))
        rw [truncate_call_of_le hlevel]
        exact (congrArg (· + _) hbody).trans (Nat.add_assoc _ _ _)
      · rw [Nat.not_le] at hlevel
        have hcut := Graph.rank_subtree_of_forall (hentered.staysIn_eq_false hlevel)
        rw [truncate_call_of_lt hlevel]
        exact congrArg (· + _) hcut
  | back site rest ih => exact ih frames next h
  | cut site depth rest ih => exact ih frames next h

theorem Execution.rank_add_size {e : Execution} (h : KeepsLevels keep limit e.subtree)
    (hlevel : e.level ≤ limit) :
    Graph.rank keep (e.id.index + e.size) =
      Graph.rank keep e.id.index + (e.truncate keep limit).size :=
  rank_add_size_of_course ((h e e.self_mem_subtree).trans (decide_eq_true hlevel))
    (e.course.rank_add_size e.frames e.next fun c hc => h c (List.mem_cons_of_mem _ hc))

namespace Course

theorem executions_truncate (course : Course) (frames : List Frame) (next : Nat)
    (h : KeepsLevels keep limit (course.executions frames next)) :
    (course.truncate limit frames.length).executions (frames.map (Frame.renumber keep))
        (Graph.rank keep next) =
      ((course.executions frames next).filter (Execution.staysIn keep)).map
        (Execution.truncate keep limit) := by
  induction course generalizing frames next with
  | done => rfl
  | read v rest ih => exact ih frames next h
  | write v rest ih => exact ih frames next h
  | call site body rest ihBody ihRest =>
      rcases keepsLevels_call h with ⟨hentered, hrest⟩
      have htail := ihRest frames _ hrest
      show _ = (((entered frames next site body).subtree ++ _).filter _).map _
      rw [List.filter_append, List.map_append, ← htail]
      by_cases hlevel : frames.length ≤ limit
      · have hkeep : (entered frames next site body).staysIn keep = true :=
          (hentered _ List.mem_cons_self).trans (decide_eq_true hlevel)
        have hbody := ihBody (entered frames next site body).frames (next + 1)
          fun c hc => hentered c (List.mem_cons_of_mem _ hc)
        rw [Graph.rank_succ_of_keep hkeep] at hbody
        have hrank : Graph.rank keep (next + (body.size + 1)) = _ :=
          Execution.rank_add_size hentered hlevel
        rw [Execution.subtree, List.filter_cons_of_pos hkeep, List.map_cons, hrank,
          truncate_call_of_le hlevel]
        exact congrArg (Execution.truncate keep limit (entered frames next site body) :: · ++ _)
          hbody
      · rw [Nat.not_le] at hlevel
        have hnone := hentered.staysIn_eq_false hlevel
        have hfilter : (entered frames next site body).subtree.filter (Execution.staysIn keep) = [] :=
          List.filter_eq_nil_iff.mpr fun e he => Bool.eq_false_iff.mp (hnone e he)
        have hrank : Graph.rank keep (next + (body.size + 1)) = Graph.rank keep next :=
          Graph.rank_subtree_of_forall hnone
        rw [hfilter, hrank, truncate_call_of_lt hlevel]
        rfl
  | back site rest ih => exact ih frames next h
  | cut site depth rest ih => exact ih frames next h

theorem find?_map_renumber (frames : List Frame) (d : Definition) :
    ((frames.map (Frame.renumber keep)).find? fun frame => frame.definition = d) =
      (frames.find? fun frame => frame.definition = d).map (Frame.renumber keep) :=
  List.find?_map

theorem edges_truncate (course : Course) (frames : List Frame) (next : Nat)
    (h : KeepsLevels keep limit (course.executions frames next)) :
    (course.truncate limit frames.length).edges (frames.map (Frame.renumber keep))
        (Graph.rank keep next) =
      ((course.edges frames next).filter (Edge.staysIn keep)).map
        (Edge.map (Graph.renumber keep)) := by
  induction course generalizing next with
  | done => rfl
  | read v rest ih => exact ih next h
  | write v rest ih => exact ih next h
  | call site body rest ihBody ihRest =>
      rcases keepsLevels_call h with ⟨hentered, hrest⟩
      have htail := ihRest _ hrest
      have hkeep : (Edge.call ⟨next⟩).staysIn keep = decide (frames.length ≤ limit) :=
        hentered _ List.mem_cons_self
      rw [edges]
      by_cases hlevel : frames.length ≤ limit
      · rw [decide_eq_true hlevel] at hkeep
        have hrank : Graph.rank keep (next + (body.size + 1)) = _ :=
          Execution.rank_add_size hentered hlevel
        rw [List.filter_cons_of_pos hkeep, List.map_cons, ← htail, hrank,
          truncate_call_of_le hlevel]
        rfl
      · have hstays : ¬ (Edge.call ⟨next⟩).staysIn keep = true := by
          rw [hkeep, decide_eq_true_eq]
          exact hlevel
        rw [Nat.not_le] at hlevel
        have hrank : Graph.rank keep (next + (body.size + 1)) = Graph.rank keep next :=
          Graph.rank_subtree_of_forall (hentered.staysIn_eq_false hlevel)
        rw [List.filter_cons_of_neg hstays, ← htail, hrank, truncate_call_of_lt hlevel]
        rfl
  | back site rest ih =>
      rw [truncate, edges, edges, find?_map_renumber, List.filter_append, List.map_append,
        ← ih next h]
      cases frames.find? fun frame => frame.definition = .function site.target with
      | none => rfl
      | some frame => rfl
  | cut site depth rest ih => exact ih next h

end Course

/-!
# Truncated forests
-/

namespace Execution

theorem subtree_truncate {e : Execution} (h : KeepsLevels keep limit e.subtree)
    (hlevel : e.level ≤ limit) :
    (e.truncate keep limit).subtree =
      (e.subtree.filter (staysIn keep)).map (truncate keep limit) := by
  have hkeep : e.staysIn keep = true :=
    (h e e.self_mem_subtree).trans (decide_eq_true hlevel)
  have hinside := e.course.executions_truncate e.frames e.next
    fun c hc => h c (List.mem_cons_of_mem _ hc)
  have hnext : Graph.rank keep e.next = (e.truncate keep limit).next :=
    Graph.rank_succ_of_keep hkeep
  rw [hnext] at hinside
  rw [subtree, subtree, List.filter_cons_of_pos hkeep, List.map_cons, ← hinside]
  rfl

theorem node_truncate {e : Execution} (h : KeepsLevels keep limit e.subtree)
    (hlevel : e.level ≤ limit) :
    (e.truncate keep limit).node = e.node.restrict keep (Graph.renumber keep) := by
  have hkeep : e.staysIn keep = true :=
    (h e e.self_mem_subtree).trans (decide_eq_true hlevel)
  have hedges := e.course.edges_truncate e.frames e.next
    fun c hc => h c (List.mem_cons_of_mem _ hc)
  have hnext : Graph.rank keep e.next = (e.truncate keep limit).next :=
    Graph.rank_succ_of_keep hkeep
  rw [hnext] at hedges
  have hreads := e.course.reads_truncate limit e.frames.length
  have hwrites := e.course.writes_truncate limit e.frames.length
  rw [Node.restrict, node, node, ← hedges, ← hreads, ← hwrites]
  rfl

theorem level_truncate (e : Execution) : (e.truncate keep limit).level = e.level :=
  List.length_map _

end Execution

theorem rootExecutions_truncate (plan : List (Definition × Course)) (next : Nat)
    (h : KeepsLevels keep limit (forest (rootExecutions next plan))) :
    rootExecutions (Graph.rank keep next)
        (plan.map fun root => (root.1, root.2.truncate limit 1)) =
      (rootExecutions next plan).map (Execution.truncate keep limit) := by
  induction plan generalizing next with
  | nil => rfl
  | cons root plan ih =>
      rcases root with ⟨definition, course⟩
      let e : Execution := ⟨⟨definition, ⟨next⟩⟩, [], course⟩
      rw [rootExecutions_cons, forest_cons] at h
      rcases List.forall_mem_append.mp h with ⟨hroot, hrest⟩
      have hrank : Graph.rank keep (next + (course.size + 1)) =
          Graph.rank keep next + ((course.truncate limit 1).size + 1) :=
        Execution.rank_add_size (e := e) hroot (Nat.zero_le limit)
      have htail := ih _ hrest
      rw [hrank] at htail
      rw [List.map_cons, rootExecutions_cons, rootExecutions_cons, List.map_cons, htail]
      rfl

theorem forest_truncate {roots : List Execution} (houter : forall e, e ∈ roots -> e.outer = [])
    (h : KeepsLevels keep limit (forest roots)) :
    forest (roots.map (Execution.truncate keep limit)) =
      ((forest roots).filter (Execution.staysIn keep)).map (Execution.truncate keep limit) := by
  induction roots with
  | nil => rfl
  | cons root roots ih =>
      rw [List.forall_mem_cons] at houter
      rw [forest_cons] at h
      rcases List.forall_mem_append.mp h with ⟨hroot, hrest⟩
      have hlevel : root.level ≤ limit := by
        rw [Execution.level, houter.1]
        exact Nat.zero_le limit
      rw [List.map_cons, forest_cons, forest_cons, Execution.subtree_truncate hroot hlevel,
        ih houter.2 hrest, List.filter_append, List.map_append]

end

theorem KeepsLevels.subtree {keep : NodeId -> Bool} {limit : Nat} {roots : List Execution}
    (h : KeepsLevels keep limit (forest roots)) {e : Execution} (he : e ∈ forest roots) :
    KeepsLevels keep limit e.subtree :=
  fun c hc => h c (subtree_mem_forest he c hc)

namespace Graph

theorem entries_ofExecutions {roots : List Execution} (h : Rooted roots) :
    (ofExecutions roots).entries = (forest roots).map fun e => (e.id, e.node) := by
  have hnodes : (ofExecutions roots).nodes.toList = (forest roots).map Execution.node := rfl
  rw [entries, hnodes]
  apply List.ext_getElem?
  intro i
  rw [List.getElem?_map, List.getElem?_zipIdx, List.getElem?_map, List.getElem?_map]
  cases he : (forest roots)[i]? with
  | none => rfl
  | some e =>
      have hid := ((getElem?_forest_eq_some_iff h (n := ⟨i⟩)).mp he).2
      simp only [Option.map_some, Nat.zero_add, hid]

theorem standsWithin_ofExecutions {roots : List Execution} (h : Rooted roots) (limit : Nat) :
    KeepsLevels ((ofExecutions roots).standsWithin limit) limit (forest roots) := by
  intro e he
  rw [Execution.staysIn, standsWithin, Bool.eq_iff_iff, List.any_eq_true, decide_eq_true_eq]
  simp only [List.mem_range, decide_eq_true_eq, mem_nodesAt_ofExecutions h he]
  constructor
  · intro hlevel
    rcases hlevel with ⟨level, hlt, rfl⟩
    exact Nat.le_of_lt_succ hlt
  · intro hle
    exact ⟨e.level, Nat.lt_succ_of_le hle, rfl⟩

theorem ofExecutions_truncate {roots : List Execution} (h : Rooted roots)
    {keep : NodeId -> Bool} {limit : Nat} (hkeep : KeepsLevels keep limit (forest roots)) :
    ofExecutions (roots.map (Execution.truncate keep limit)) =
      (ofExecutions roots).restrict keep := by
  have hnodes : (forest (roots.map (Execution.truncate keep limit))).map Execution.node =
      ((ofExecutions roots).entries.filter fun entry => keep entry.1).map fun entry =>
        entry.2.restrict keep (renumber keep) := by
    rw [forest_truncate h.outer_eq_nil hkeep, entries_ofExecutions h, List.filter_map,
      List.map_map, List.map_map]
    refine List.map_congr_left ?_
    intro e he
    rcases List.mem_filter.mp he with ⟨he, hstays⟩
    have hlevel : e.level ≤ limit := of_decide_eq_true ((hkeep e he).symm.trans hstays)
    exact Execution.node_truncate (hkeep.subtree he) hlevel
  have hroots : (ofExecutions roots).roots.filter keep = roots.map Execution.id := by
    refine List.filter_eq_self.mpr (List.forall_mem_map.mpr ?_)
    intro e he
    refine (hkeep e (mem_forest_of_mem he)).trans (decide_eq_true ?_)
    rw [Execution.level, h.outer_eq_nil e he]
    exact Nat.zero_le limit
  rw [restrict, ← hnodes, hroots, List.map_map]
  show Graph.mk _ _ = Graph.mk _ _
  rw [List.map_map]
  rfl

theorem ofExecutions_rootExecutions_truncate (plan : List (Definition × Course)) (limit : Nat) :
    ofExecutions (rootExecutions 0 (plan.map fun root => (root.1, root.2.truncate limit 1))) =
      (ofExecutions (rootExecutions 0 plan)).truncate limit := by
  have h := rooted_rootExecutions plan
  have hkeep := standsWithin_ofExecutions h limit
  rw [truncate, ← ofExecutions_truncate h hkeep, ← rootExecutions_truncate plan 0 hkeep]
  rfl

theorem depth_root_truncate_le (plan : List (Definition × Course)) (limit : Nat) {r : NodeId}
    (hr : r ∈ ((ofExecutions (rootExecutions 0 plan)).truncate limit).roots) :
    exists depth, ((ofExecutions (rootExecutions 0 plan)).truncate limit).depth r = .ok depth ∧
      depth ≤ limit := by
  have h := rooted_rootExecutions plan
  have hkeep := standsWithin_ofExecutions h limit
  have htruncated : rootExecutions 0 (plan.map fun root => (root.1, root.2.truncate limit 1)) =
      (rootExecutions 0 plan).map (Execution.truncate _ limit) :=
    rootExecutions_truncate plan 0 hkeep
  rw [← ofExecutions_rootExecutions_truncate] at hr ⊢
  refine depth_root_le (rooted_rootExecutions _) ?_ hr
  intro e he
  rw [htruncated, forest_truncate h.outer_eq_nil hkeep] at he
  rcases List.mem_map.mp he with ⟨d, hd, rfl⟩
  rcases List.mem_filter.mp hd with ⟨hd, hstays⟩
  rw [Execution.level_truncate]
  exact of_decide_eq_true ((hkeep d hd).symm.trans hstays)

end Graph
end CallForest
