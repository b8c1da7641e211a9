import CallForest.Proofs.BuilderStates
import CallForest.Proofs.Nesting

/-!
# The innermost node

Code is visited in the innermost frame of a builder. Whatever the builder has made before, only the
node of that frame is touched, and it only gets longer. New nodes come behind the old ones, below
the innermost node, and the edges that lead to them come from where they were made: a call edge from
the innermost node or from another new node, a recursive edge from below the node it leads to. If an
edge led out of the arena, a new node could be its end. In a run there is no such edge.
-/

namespace CallForest

open Relation

/-!
# Where code is visited

A builder is started on a piece of code, on the target of an assignment, on the inner part of such a
target, or on a call once it is known which function is called.
-/

inductive Visit where
  | expression (e : Expr)
  | statement (s : Stmt)
  | block (statements : Block)
  | callTarget (declared : FunctionId) (span : Span)
  | assignmentTarget (e : Expr)
  | storageLocation (e : Expr)

def Visit.events (config : Config) : Visit -> List Event
  | expression e => e.events config .value
  | statement s => s.events config
  | block statements => Stmt.eventsOfBlock config statements
  | callTarget declared span => [.call declared span]
  | assignmentTarget e => e.events config .target
  | storageLocation e => e.events config .location

namespace Builder

def visit (b : Builder) (s : Store) (config : Config) (linearization : List ContractId)
    (v : Visit) : Except Fault Builder := do
  let course ← s.unroll config linearization b.path (v.events config)
  pure (follow course b)

/-- Following a course takes one builder to another. A call that goes back leads to a frame of the
function that is called, to whichever one if there are several. -/
inductive Follows : Course -> Builder -> Builder -> Prop where
  | done {b : Builder} :
      Follows .done b b
  | read {v : StateVariableId} {rest : Course} {b b' : Builder} :
      Follows rest (b.recordRead v) b' -> Follows (.read v rest) b b'
  | write {v : StateVariableId} {rest : Course} {b b' : Builder} :
      Follows rest (b.recordWrite v) b' -> Follows (.write v rest) b b'
  | call {site : CallSite} {body rest : Course} {b inside b' : Builder} :
      Follows body (b.enter (.function site.target)) inside ->
      Follows rest inside.leave b' -> Follows (.call site body rest) b b'
  | back {site : CallSite} {rest : Course} {b b' : Builder} {frame : Frame} :
      frame ∈ b.frames -> frame.definition = .function site.target ->
      Follows rest (b.recordEdge (.recursive frame.node)) b' -> Follows (.back site rest) b b'
  | cut {site : CallSite} {depth : Nat} {rest : Course} {b b' : Builder} :
      Follows rest b b' -> Follows (.cut site depth rest) b b'

def Visits (s : Store) (config : Config) (linearization : List ContractId) (v : Visit)
    (b b' : Builder) : Prop :=
  exists course, s.unroll config linearization b.path (v.events config) = .ok course ∧
    Follows course b b'

/-!
# The visit that is computed

It takes the innermost frame of a function that is called again. If no function is open twice, which
is so in every analysis, there is no other one to take.
-/

section

variable {s : Store} {config : Config} {linearization : List ContractId} {b b' : Builder}

theorem path_modifyTop (b : Builder) (change : Node -> Node) :
    (b.modifyTop change).path = b.path := by
  rw [path, path, frames_modifyTop]

theorem path_enter {path : List Definition} (h : b.path = path) (definition : Definition) :
    (b.enter definition).path = definition :: path :=
  congrArg (List.cons definition) h

theorem path_leave_follow (body : Course) (definition : Definition) (b : Builder) :
    (follow body (b.enter definition)).leave.path = b.path := by
  rw [path, path, frames_leave, frames_follow]
  rfl

theorem follows_follow {path : List Definition} {events : List Event} {course : Course}
    (h : s.Unrolls config linearization path events course) :
    forall {b : Builder}, b.path = path -> Follows course b (follow course b) := by
  induction h with
  | done => exact fun _ => .done
  | read _ ih =>
      intro b hpath
      exact .read (ih ((path_modifyTop b _).trans hpath))
  | write _ ih =>
      intro b hpath
      exact .write (ih ((path_modifyTop b _).trans hpath))
  | back _ hmem _ ih =>
      intro b hpath
      rw [← hpath] at hmem
      rcases exists_find?_of_mem_path hmem with ⟨frame, hframe, hdefinition, hfind⟩
      refine .back hframe hdefinition ?_
      rw [follow, recordBack, hfind]
      exact ih ((path_modifyTop b _).trans hpath)
  | cut _ _ _ _ ih => exact fun hpath => .cut (ih hpath)
  | call _ _ _ _ _ _ ihBody ihRest =>
      intro b hpath
      exact .call (ihBody (path_enter hpath _)) (ihRest ((path_leave_follow _ _ b).trans hpath))

theorem Follows.eq_follow {path : List Definition} {events : List Event} {course : Course}
    (hunrolls : s.Unrolls config linearization path events course) :
    forall {b b' : Builder}, b.path = path -> path.Nodup -> Follows course b b' ->
      b' = follow course b := by
  induction hunrolls with
  | done =>
      intro b b' _ _ h
      cases h
      rfl
  | read _ ih =>
      intro b b' hpath hnodup h
      cases h with
      | read h => exact ih ((path_modifyTop b _).trans hpath) hnodup h
  | write _ ih =>
      intro b b' hpath hnodup h
      cases h with
      | write h => exact ih ((path_modifyTop b _).trans hpath) hnodup h
  | back _ hmem _ ih =>
      intro b b' hpath hnodup h
      cases h with
      | back hframe hdefinition h =>
          rw [← hpath] at hmem
          rcases exists_find?_of_mem_path hmem with ⟨found, hfound, heq, hfind⟩
          -- No other frame has the definition, as the path has it once.
          rw [← hpath] at hnodup
          cases List.inj_on_of_nodup_map hnodup hframe hfound (hdefinition.trans heq.symm)
          rw [hpath] at hnodup
          rw [follow, recordBack, hfind]
          exact ih ((path_modifyTop b _).trans hpath) hnodup h
  | cut _ _ _ _ ih =>
      intro b b' hpath hnodup h
      cases h with
      | cut h => exact ih hpath hnodup h
  | call _ hfresh _ _ _ _ ihBody ihRest =>
      intro b b' hpath hnodup h
      cases h with
      | call hbody hrest =>
          cases ihBody (path_enter hpath _) (List.nodup_cons.mpr ⟨hfresh, hnodup⟩) hbody
          exact ihRest ((path_leave_follow _ _ b).trans hpath) hnodup
            hrest

theorem visits_of_visit_eq_ok {v : Visit} (h : b.visit s config linearization v = .ok b') :
    Visits s config linearization v b b' := by
  rcases bind_pure_eq_ok_iff.mp h with ⟨course, hcourse, rfl⟩
  exact ⟨course, hcourse, follows_follow (Store.unrolls_of_unroll hcourse) rfl⟩

theorem visits_iff_visit_eq_ok {v : Visit} (hnodup : b.path.Nodup) :
    Visits s config linearization v b b' <-> b.visit s config linearization v = .ok b' := by
  constructor
  · intro h
    rcases h with ⟨course, hcourse, h⟩
    have heq := h.eq_follow (Store.unrolls_of_unroll hcourse) rfl hnodup
    exact bind_pure_eq_ok_iff.mpr ⟨course, hcourse, heq.symm⟩
  · exact visits_of_visit_eq_ok

end

/-!
# Growing at the innermost node
-/

/-- How an edge can come about that starts at a node: a call edge leads to a node made since, and a
recursive edge to an open frame or to a node made since that the edge stands below. -/
inductive Arises (b b' : Builder) (id : NodeId) : Edge -> Prop where
  | call {c : NodeId} :
      b.nodes.size ≤ c.index -> c.index < b'.nodes.size -> Arises b b' id (.call c)
  | outward {frame : Frame} :
      frame ∈ b.frames -> Arises b b' id (.recursive frame.node)
  | inward {a : NodeId} :
      b.nodes.size ≤ a.index -> a.index < b'.nodes.size ->
      ReflTransGen b'.graph.Owns a id -> Arises b b' id (.recursive a)

/-- One builder comes from another by executing something in the frame of a node, and the node gets
some reads and writes. -/
structure GrowsAt (top : NodeId) (reads writes : List StateVariableId) (b b' : Builder) : Prop
    where
  frames_eq : b'.frames = b.frames
  roots_eq : b'.roots = b.roots
  size_le : b.nodes.size ≤ b'.nodes.size
  other_node : forall id node, id ≠ top -> b.graph.node id = .ok node ->
    b'.graph.node id = .ok node
  top_node : forall node, b.graph.node top = .ok node ->
    exists edges, b'.graph.node top = .ok (node.extend edges reads writes)
  edge_arises : forall id edge, b'.graph.HasEdge id edge ->
    b.graph.HasEdge id edge ∨ Arises b b' id edge
  below_top : forall id, b.nodes.size ≤ id.index -> id.index < b'.nodes.size ->
    ReflTransGen b'.graph.Owns top id

namespace GrowsAt

variable {top : NodeId} {reads writes reads' writes' : List StateVariableId} {b b' b'' : Builder}

theorem hasEdge (h : GrowsAt top reads writes b b') {id : NodeId} {edge : Edge}
    (hedge : b.graph.HasEdge id edge) : b'.graph.HasEdge id edge := by
  rcases hedge with ⟨node, hnode, hmem⟩
  by_cases heq : id = top
  · rw [heq] at hnode ⊢
    rcases h.top_node node hnode with ⟨edges, hextended⟩
    exact ⟨_, hextended, List.mem_append_left edges hmem⟩
  · exact ⟨node, h.other_node id node heq hnode, hmem⟩

theorem hasEdge_of_ne (h : GrowsAt top reads writes b b') {id : NodeId} {edge : Edge}
    (hne : id ≠ top) (hlt : id.index < b.nodes.size) (hedge : b'.graph.HasEdge id edge) :
    b.graph.HasEdge id edge := by
  rcases hedge with ⟨node, hnode, hmem⟩
  rcases (Graph.exists_node_iff (g := b.graph)).mpr hlt with ⟨old, hold⟩
  rw [h.other_node id old hne hold, Except.ok.injEq] at hnode
  exact ⟨old, hold, hnode ▸ hmem⟩

theorem owns (h : GrowsAt top reads writes b b') {n m : NodeId}
    (howns : ReflTransGen b.graph.Owns n m) : ReflTransGen b'.graph.Owns n m :=
  ReflTransGen.mono (fun _ _ => h.hasEdge) _ _ howns

theorem refl (top : NodeId) (b : Builder) : GrowsAt top [] [] b b where
  frames_eq := rfl
  roots_eq := rfl
  size_le := Nat.le_refl _
  other_node _ _ _ hnode := hnode
  top_node node hnode := ⟨[], by rw [Node.extend_nil, hnode]⟩
  edge_arises _ _ hedge := Or.inl hedge
  below_top _ hle hlt := absurd hlt (Nat.not_lt.mpr hle)

theorem trans (h : GrowsAt top reads writes b b') (h' : GrowsAt top reads' writes' b' b'') :
    GrowsAt top (reads ++ reads') (writes ++ writes') b b'' where
  frames_eq := h'.frames_eq.trans h.frames_eq
  roots_eq := h'.roots_eq.trans h.roots_eq
  size_le := Nat.le_trans h.size_le h'.size_le
  other_node id node hne hnode := h'.other_node id node hne (h.other_node id node hne hnode)
  top_node node hnode := by
    rcases h.top_node node hnode with ⟨edges, hfirst⟩
    rcases h'.top_node _ hfirst with ⟨edges', hsecond⟩
    rw [Node.extend_extend] at hsecond
    exact ⟨edges ++ edges', hsecond⟩
  edge_arises id edge hedge := by
    have hsize := h.size_le
    have hsize' := h'.size_le
    rcases h'.edge_arises id edge hedge with hedge | hnew
    · rcases h.edge_arises id edge hedge with hold | hnew
      · exact Or.inl hold
      · cases hnew with
        | call hle hlt => exact Or.inr (.call hle (by omega))
        | outward hframe => exact Or.inr (.outward hframe)
        | inward hle hlt howns => exact Or.inr (.inward hle (by omega) (h'.owns howns))
    · cases hnew with
      | call hle hlt => exact Or.inr (.call (by omega) hlt)
      | outward hframe =>
          rw [h.frames_eq] at hframe
          exact Or.inr (.outward hframe)
      | inward hle hlt howns => exact Or.inr (.inward (by omega) hlt howns)
  below_top id hle hlt := by
    by_cases hmade : id.index < b'.nodes.size
    · exact h'.owns (h.below_top id hle hmade)
    · exact h'.below_top id (Nat.not_lt.mp hmade) hlt

theorem modifyTop {frame : Frame} {outer : List Frame} (hframes : b.frames = frame :: outer)
    (htop : frame.node.index < b.nodes.size) {edges : List Edge}
    (hedges : forall edge, edge ∈ edges -> exists target, target ∈ b.frames ∧
      edge = .recursive target.node) (reads writes : List StateVariableId) :
    GrowsAt frame.node reads writes b (b.modifyTop (Node.extend edges reads writes)) := by
  have hsize := size_modifyTop b (Node.extend edges reads writes)
  rw [modifyTop_eq hframes] at hsize ⊢
  constructor
  · rfl
  · rfl
  · exact Nat.le_of_eq hsize.symm
  · exact fun _ _ hne hnode => (node_modifyNode_of_ne hne _).mpr hnode
  · exact fun _ hnode => ⟨edges, node_modifyNode_self hnode _⟩
  · intro id edge hedge
    rcases (hasEdge_modifyNode_iff htop).mp hedge with hold | ⟨_, hnew⟩
    · exact Or.inl hold
    · rcases hedges edge hnew with ⟨target, htarget, rfl⟩
      exact Or.inr (.outward htarget)
  · intro id hle hlt
    omega

theorem andThen {frame : Frame} {outer : List Frame} (hframes : b.frames = frame :: outer)
    (htop : frame.node.index < b.nodes.size) (h : GrowsAt frame.node reads writes b b')
    (hrest : b'.frames = frame :: outer -> frame.node.index < b'.nodes.size ->
      GrowsAt frame.node reads' writes' b' b'') :
    GrowsAt frame.node (reads ++ reads') (writes ++ writes') b b'' :=
  h.trans (hrest (h.frames_eq.trans hframes) (Nat.lt_of_lt_of_le htop h.size_le))

/-!
# Entering and leaving

A definition that is entered gets a node behind the nodes made before. What happens in it grows at
that node, and the frame around it sees its node and all nodes made inside it as new.
-/

section

variable {frame : Frame} {outer : List Frame} {definition : Definition} {inside : Builder}

theorem frames_inside (hframes : b.frames = frame :: outer)
    (h : GrowsAt top reads writes (b.enter definition) inside) :
    inside.frames = ⟨definition, ⟨b.nodes.size⟩⟩ :: frame :: outer := by
  rw [h.frames_eq, ← hframes]
  rfl

theorem lt_size_inside (h : GrowsAt top reads writes (b.enter definition) inside) :
    b.nodes.size < inside.nodes.size := by
  have henter := size_enter b definition
  have hle := h.size_le
  omega

theorem node_inside (h : GrowsAt ⟨b.nodes.size⟩ reads writes (b.enter definition) inside)
    {id : NodeId} {node : Node} (hnode : b.graph.node id = .ok node) :
    inside.graph.node id = .ok node := by
  refine h.other_node id node ?_ (node_enter_iff.mpr (Or.inl hnode))
  rintro rfl
  exact Nat.lt_irrefl _ (Graph.exists_node_iff.mp ⟨node, hnode⟩)

theorem hasEdge_leave_iff (hframes : b.frames = frame :: outer)
    (htop : frame.node.index < b.nodes.size)
    (h : GrowsAt top reads writes (b.enter definition) inside)
    {id : NodeId} {edge : Edge} :
    inside.leave.graph.HasEdge id edge <->
      inside.graph.HasEdge id edge ∨ id = frame.node ∧ edge = .call ⟨b.nodes.size⟩ := by
  have hinside := h.frames_inside hframes
  rw [leave_eq hinside, ← List.mem_singleton (a := edge)]
  exact hasEdge_modifyNode_iff (Nat.lt_trans htop h.lt_size_inside)

theorem owns_leave (hframes : b.frames = frame :: outer)
    (htop : frame.node.index < b.nodes.size)
    (h : GrowsAt top reads writes (b.enter definition) inside)
    {n m : NodeId} (hway : ReflTransGen inside.graph.Owns n m) :
    ReflTransGen inside.leave.graph.Owns n m :=
  ReflTransGen.mono (fun _ _ hcall => (h.hasEdge_leave_iff hframes htop).mpr (Or.inl hcall)) _ _
    hway

theorem below_entered (hframes : b.frames = frame :: outer)
    (htop : frame.node.index < b.nodes.size)
    (h : GrowsAt ⟨b.nodes.size⟩ reads writes (b.enter definition) inside) {id : NodeId}
    (hle : b.nodes.size ≤ id.index) (hlt : id.index < inside.nodes.size) :
    ReflTransGen inside.leave.graph.Owns ⟨b.nodes.size⟩ id := by
  rcases Nat.eq_or_lt_of_le hle with heq | hbehind
  · rw [heq]
  · have henter := size_enter b definition
    exact h.owns_leave hframes htop (h.below_top id (by omega) hlt)

theorem edge_arises_leave (hframes : b.frames = frame :: outer)
    (htop : frame.node.index < b.nodes.size)
    (h : GrowsAt ⟨b.nodes.size⟩ reads writes (b.enter definition) inside) {id : NodeId}
    {edge : Edge} (hedge : inside.graph.HasEdge id edge) :
    b.graph.HasEdge id edge ∨ Arises b inside.leave id edge := by
  have henter := size_enter b definition
  have hleave := size_leave inside
  by_cases hold : id.index < b.nodes.size
  · have hne : id ≠ ⟨b.nodes.size⟩ := fun heq => Nat.lt_irrefl _ (heq ▸ hold)
    exact Or.inl (hasEdge_enter_iff.mp (h.hasEdge_of_ne hne (by omega) hedge))
  · have hlt : id.index < inside.nodes.size := by
      rcases hedge with ⟨node, hnode, _⟩
      exact Graph.exists_node_iff.mp ⟨node, hnode⟩
    rcases h.edge_arises id edge hedge with hedge | hnew
    · exact Or.inl (hasEdge_enter_iff.mp hedge)
    · apply Or.inr
      cases hnew with
      | call hle hlt => exact .call (by omega) (by omega)
      | outward hframe =>
          rcases List.mem_cons.mp hframe with rfl | hframe
          · have hbelow := h.below_entered hframes htop (Nat.not_lt.mp hold) hlt
            exact .inward (Nat.le_refl _) (hleave ▸ h.lt_size_inside) hbelow
          · exact .outward hframe
      | inward hle hlt hway =>
          exact .inward (by omega) (by omega) (h.owns_leave hframes htop hway)

theorem leave (hframes : b.frames = frame :: outer) (htop : frame.node.index < b.nodes.size)
    (h : GrowsAt ⟨b.nodes.size⟩ reads writes (b.enter definition) inside) :
    GrowsAt frame.node [] [] b inside.leave := by
  have hinside := h.frames_inside hframes
  have hlt := h.lt_size_inside
  have hleave := size_leave inside
  constructor
  · rw [frames_leave, hinside, hframes]
    rfl
  · rw [leave_eq hinside]
    exact h.roots_eq
  · omega
  · intro id node hne hnode
    rw [leave_eq hinside]
    exact (node_modifyNode_of_ne hne _).mpr (h.node_inside hnode)
  · intro node hnode
    rw [leave_eq hinside]
    exact ⟨[.call ⟨b.nodes.size⟩], node_modifyNode_self (h.node_inside hnode) _⟩
  · intro id edge hedge
    rcases (h.hasEdge_leave_iff hframes htop).mp hedge with hedge | ⟨rfl, rfl⟩
    · exact h.edge_arises_leave hframes htop hedge
    · exact Or.inr (.call (Nat.le_refl _) (hleave ▸ hlt))
  · intro id hle hnew
    have hcall : inside.leave.graph.Owns frame.node ⟨b.nodes.size⟩ :=
      (h.hasEdge_leave_iff hframes htop).mpr (Or.inr ⟨rfl, rfl⟩)
    exact ReflTransGen.head hcall (h.below_entered hframes htop hle (hleave ▸ hnew))

end

end GrowsAt

/-!
# Visits
-/

/-- Each step grows at the node of the innermost frame. What happens inside a call grows at the node
of the callee, and so at the node around it. -/
theorem Follows.growsAt {course : Course} {b b' : Builder} (h : Follows course b b') :
    forall {frame : Frame} {outer : List Frame}, b.frames = frame :: outer ->
      frame.node.index < b.nodes.size ->
      GrowsAt frame.node course.reads course.writes b b' := by
  induction h with
  | done => exact fun _ _ => GrowsAt.refl _ _
  | read _ ih =>
      intro frame outer hframes htop
      rw [recordRead, ← Node.extend_read] at ih
      exact (GrowsAt.modifyTop hframes htop (List.forall_mem_nil _) _ _).andThen hframes htop ih
  | write _ ih =>
      intro frame outer hframes htop
      rw [recordWrite, ← Node.extend_write] at ih
      exact (GrowsAt.modifyTop hframes htop (List.forall_mem_nil _) _ _).andThen hframes htop ih
  | call _ _ ihBody ihRest =>
      intro frame outer hframes htop
      have hinside := ihBody rfl (lt_size_enter _ _)
      exact (hinside.leave hframes htop).andThen hframes htop ihRest
  | back hframe _ _ ih =>
      intro frame outer hframes htop
      rw [recordEdge, ← Node.extend_edge] at ih
      refine (GrowsAt.modifyTop hframes htop ?_ _ _).andThen hframes htop ih
      exact List.forall_mem_singleton.mpr ⟨_, hframe, rfl⟩
  | cut _ ih => exact ih

theorem Follows.of_keptBySteps {P : Builder -> Prop} (hkept : KeptBySteps P) {course : Course}
    {b b' : Builder} (h : Follows course b b') : P b -> P b' := by
  induction h with
  | done => exact id
  | read _ ih => exact fun hb => ih (hkept.read _ _ hb)
  | write _ ih => exact fun hb => ih (hkept.write _ _ hb)
  | call _ _ ihBody ihRest =>
      exact fun hb => ihRest (hkept.leave _ (ihBody (hkept.enter _ _ hb)))
  | back hframe _ _ ih => exact fun hb => ih (hkept.back _ _ hframe hb)
  | cut _ ih => exact ih

theorem Follows.size_eq {course : Course} {b b' : Builder} (h : Follows course b b') :
    b'.nodes.size = b.nodes.size + course.size := by
  induction h with
  | done => rfl
  | read _ ih =>
      rw [ih, recordRead, size_modifyTop]
      rfl
  | write _ ih =>
      rw [ih, recordWrite, size_modifyTop]
      rfl
  | call _ _ ihBody ihRest =>
      rw [ihRest, size_leave, ihBody, size_enter, Course.size]
      omega
  | back _ _ _ ih =>
      rw [ih, recordEdge, size_modifyTop]
      rfl
  | cut _ ih => exact ih

namespace GrowsAt

variable {top : NodeId} {reads writes : List StateVariableId} {b b' : Builder}

theorem recursive_to_new (h : GrowsAt top reads writes b b')
    (hmade : forall frame, frame ∈ b.frames -> frame.node.index < b.nodes.size) {id a : NodeId}
    (hnew : b.nodes.size ≤ a.index) (hedge : b'.graph.HasEdge id (.recursive a)) :
    ReflTransGen b'.graph.Owns a id ∨ b.graph.HasEdge id (.recursive a) := by
  rcases h.edge_arises id _ hedge with hold | harises
  · exact Or.inr hold
  · cases harises with
    | outward hframe => exact absurd (hmade _ hframe) (Nat.not_lt.mpr hnew)
    | inward _ _ hway => exact Or.inl hway

theorem call_to_new (h : GrowsAt top reads writes b b') {id c : NodeId}
    (hold : id.index < b.nodes.size) (hedge : b'.graph.HasEdge id (.call c)) :
    id = top ∨ b.graph.HasEdge id (.call c) := by
  by_cases heq : id = top
  · exact Or.inl heq
  · exact Or.inr (h.hasEdge_of_ne heq hold hedge)

end GrowsAt

/-- A recursive edge to a node made since comes from below that node, and a call edge to it from
another node made since or from one old node. -/
structure Secluded (top : NodeId) (b b' : Builder) : Prop where
  recursive_below : forall id c, b.nodes.size ≤ c.index ->
    b'.graph.HasEdge id (.recursive c) -> ReflTransGen b'.graph.Owns c id
  call_from_top : forall id c, b.nodes.size ≤ c.index -> id.index < b.nodes.size ->
    b'.graph.HasEdge id (.call c) -> id = top

theorem not_hasEdge_of_targetsInRange {b : Builder} (hrange : b.graph.TargetsInRange)
    {id : NodeId} {edge : Edge} (hnew : b.nodes.size ≤ edge.target.index) :
    ¬ b.graph.HasEdge id edge := by
  intro hedge
  exact Nat.not_lt.mpr hnew (hrange.lt_size hedge)

theorem GrowsAt.secluded {top : NodeId} {reads writes : List StateVariableId} {b b' : Builder}
    (h : GrowsAt top reads writes b b') (hrange : b.InRange) : Secluded top b b' where
  recursive_below _ _ hnew hedge :=
    (h.recursive_to_new hrange.frames hnew hedge).resolve_right
      (not_hasEdge_of_targetsInRange hrange.edges hnew)
  call_from_top _ _ hnew hold hedge :=
    (h.call_to_new hold hedge).resolve_right (not_hasEdge_of_targetsInRange hrange.edges hnew)

/-- Nothing is touched but one node, to which a course adds its reads and writes. A node is made for
each execution in the course, and edges lead to the new nodes from nowhere else, unless they were
there before. In a builder whose edges all lead to nodes, none can have been there. -/
structure TouchesOnly (top : NodeId) (course : Course) (b b' : Builder) : Prop
    extends GrowsAt top course.reads course.writes b b' where
  size_eq : b'.nodes.size = b.nodes.size + course.size
  recursive_to_new : forall id a, b.nodes.size ≤ a.index ->
    b'.graph.HasEdge id (.recursive a) ->
    ReflTransGen b'.graph.Owns a id ∨ b.graph.HasEdge id (.recursive a)
  call_to_new : forall id c, b.nodes.size ≤ c.index -> id.index < b.nodes.size ->
    b'.graph.HasEdge id (.call c) -> id = top ∨ b.graph.HasEdge id (.call c)
  secluded : b.graph.TargetsInRange -> b'.graph.TargetsInRange ∧ Secluded top b b'

theorem Follows.touchesOnly {course : Course} {b b' : Builder} (h : Follows course b b')
    {frame : Frame} {outer : List Frame} (hframes : b.frames = frame :: outer)
    (hmade : forall frame, frame ∈ b.frames -> frame.node.index < b.nodes.size) :
    TouchesOnly frame.node course b b' := by
  have hgrows := h.growsAt hframes (hmade frame (hframes ▸ List.mem_cons_self))
  refine ⟨hgrows, h.size_eq, fun _ _ => hgrows.recursive_to_new hmade,
    fun _ _ _ => hgrows.call_to_new, ?_⟩
  intro htargets
  have hrange : b.InRange := ⟨hmade, htargets⟩
  exact ⟨(h.of_keptBySteps InRange.keptBySteps hrange).edges, hgrows.secluded hrange⟩

theorem Follows.secluded_of_reached {course : Course} {b b' : Builder} (h : Follows course b b')
    {frame : Frame} {outer : List Frame} (hframes : b.frames = frame :: outer)
    (hreached : Reached b) : Reached b' ∧ Secluded frame.node b b' := by
  have hrange := hreached.inRange
  have htouches := h.touchesOnly hframes hrange.frames
  exact ⟨h.of_keptBySteps Reached.keptBySteps hreached, (htouches.secluded hrange.edges).2⟩

section

variable {s : Store} {config : Config} {linearization : List ContractId} {v : Visit}
  {b b' : Builder} {frame : Frame} {outer : List Frame}

/-- A visit touches nothing but the node of the innermost frame, on every builder whose frames stand
for nodes. In a run the new nodes are secluded, and the run goes on. -/
theorem visits_touch_only_the_innermost_node (hframes : b.frames = frame :: outer)
    (hmade : forall frame, frame ∈ b.frames -> frame.node.index < b.nodes.size)
    (h : Visits s config linearization v b b') :
    exists course, s.unroll config linearization b.path (v.events config) = .ok course ∧
      TouchesOnly frame.node course b b' ∧
      (Reached b -> Reached b' ∧ Secluded frame.node b b') := by
  rcases h with ⟨course, hcourse, hfollows⟩
  exact ⟨course, hcourse, hfollows.touchesOnly hframes hmade, hfollows.secluded_of_reached hframes⟩

/-- The same holds of the visit that is computed. -/
theorem visit_touches_only_the_innermost_node (hframes : b.frames = frame :: outer)
    (hmade : forall frame, frame ∈ b.frames -> frame.node.index < b.nodes.size)
    (h : b.visit s config linearization v = .ok b') :
    exists course, s.unroll config linearization b.path (v.events config) = .ok course ∧
      TouchesOnly frame.node course b b' ∧
      (Reached b -> Reached b' ∧ Secluded frame.node b b') := by
  rcases visits_of_visit_eq_ok h with ⟨course, hcourse, hfollows⟩
  exact ⟨course, hcourse, hfollows.touchesOnly hframes hmade, hfollows.secluded_of_reached hframes⟩

end

end Builder

/-!
# A call in a constructor

The constructor of `B` in the cycle is open behind an implicit constructor when its call of `f` is
visited.
-/

namespace Cycle

def opened : Builder where
  nodes := #[⟨.implicitConstructor ⟨0⟩, [], [], []⟩, ⟨.function ⟨0⟩, [], [], []⟩]
  roots := [⟨0⟩]
  frames := [⟨.function ⟨0⟩, ⟨1⟩⟩]

def visited : Builder where
  nodes := #[
    ⟨.implicitConstructor ⟨0⟩, [], [], []⟩,
    ⟨.function ⟨0⟩, [.call ⟨2⟩], [], []⟩,
    ⟨.function ⟨2⟩, [.call ⟨3⟩], [⟨0⟩], []⟩,
    ⟨.function ⟨3⟩, [.recursive ⟨2⟩], [], [⟨1⟩]⟩]
  roots := [⟨0⟩]
  frames := [⟨.function ⟨0⟩, ⟨1⟩⟩]

def code : Visit :=
  .statement (.expr (call ⟨1⟩))

theorem visit_opened : opened.visit store {} [⟨0⟩, ⟨1⟩] code = .ok visited :=
  bind_pure_eq_ok_iff.mpr ⟨_, Store.unroll_of_unrolls unrolls_constructor, rfl⟩

theorem reached_opened : Builder.Reached opened :=
  (Builder.Reached.start.enter (.implicitConstructor ⟨0⟩)).leave.enter (.function ⟨0⟩)

end Cycle

/-- The call adds an edge to the node of the constructor and the nodes of `f` and `g` behind it. As
the constructor is open in a run, no other edge leads to these nodes from outside. -/
theorem touchesOnly_opened :
    Cycle.opened.frames = [⟨.function ⟨0⟩, ⟨1⟩⟩] ∧
      (forall frame, frame ∈ Cycle.opened.frames ->
        frame.node.index < Cycle.opened.nodes.size) ∧
      Builder.Visits Cycle.store {} [⟨0⟩, ⟨1⟩] Cycle.code Cycle.opened Cycle.visited ∧
      Builder.Reached Cycle.opened ∧
      Builder.Reached Cycle.visited ∧ Builder.Secluded ⟨1⟩ Cycle.opened Cycle.visited ∧
      exists course,
        Cycle.store.unroll {} [⟨0⟩, ⟨1⟩] Cycle.opened.path (Cycle.code.events {}) = .ok course ∧
        Builder.TouchesOnly ⟨1⟩ course Cycle.opened Cycle.visited := by
  have hmade : forall frame, frame ∈ Cycle.opened.frames ->
      frame.node.index < Cycle.opened.nodes.size := by decide
  have hvisits := Builder.visits_of_visit_eq_ok Cycle.visit_opened
  rcases Builder.visits_touch_only_the_innermost_node rfl hmade hvisits with
    ⟨course, hcourse, htouches, hrun⟩
  rcases hrun Cycle.reached_opened with ⟨hreached, hsecluded⟩
  exact ⟨rfl, hmade, hvisits, Cycle.reached_opened, hreached, hsecluded, course, hcourse, htouches⟩

end CallForest
