import CallForest.Proofs.Completeness
import CallForest.Proofs.Roots
import CallForest.Proofs.Tracking
import CallForest.Proofs.Truncation

/-!
# What tracking adds to a graph

A configuration that tracks more code meets more events, and each event that is met anyway becomes
what it became before: the path to it is the same, and the path decides whether a call goes back, is
cut or is followed. So a course under more tracking is the course under less tracking with more in
between. The nodes of the smaller graph stand in the larger graph with other numbers.
-/

namespace CallForest

structure Node.EmbedsIn (f : NodeId -> NodeId) (n n' : Node) : Prop where
  definition_eq : n'.definition = n.definition
  reads_sublist : n.reads.Sublist n'.reads
  writes_sublist : n.writes.Sublist n'.writes
  calls_sublist : (n.calls.map (Edge.map f)).Sublist n'.calls

namespace Graph

/-- The nodes of a graph stand in another graph, and its roots are the roots there. -/
structure Embeds (g g' : Graph) (f : NodeId -> NodeId) : Prop where
  injective : forall m n, m.index < g.size -> n.index < g.size -> f m = f n -> m = n
  roots_eq : g'.roots = g.roots.map f
  node_embeds : forall n node, g.node n = .ok node ->
    exists node', g'.node (f n) = .ok node' ∧ node.EmbedsIn f node'

structure EffectsGrow (g g' : Graph) (n n' : NodeId) : Prop where
  transitiveReads : exists vs vs', g.transitiveReads n = .ok vs ∧
    g'.transitiveReads n' = .ok vs' ∧ vs ⊆ vs'
  transitiveWrites : exists vs vs', g.transitiveWrites n = .ok vs ∧
    g'.transitiveWrites n' = .ok vs' ∧ vs ⊆ vs'
  callsFunction : forall f, exists calls calls', g.callsFunction n f = .ok calls ∧
    g'.callsFunction n' f = .ok calls' ∧ (calls = true -> calls' = true)

end Graph

/-!
# Numbers of nested nodes

The nodes below a node follow it in the arena, and then come the nodes beside it.
-/

theorem nodesFrom_succ_add (next inside beside : Nat) :
    nodesFrom next (inside + 1 + beside) =
      ⟨next⟩ :: (nodesFrom (next + 1) inside ++ nodesFrom (next + (inside + 1)) beside) := by
  rw [← nodesFrom_append, nodesFrom_succ]
  rfl

theorem map_nodesFrom_succ_add {f : NodeId -> NodeId} {next inside beside : Nat} {n : NodeId}
    {inner kept : List NodeId} (hlength : inner.length = inside)
    (h : (nodesFrom next (inside + 1 + beside)).map f = n :: (inner ++ kept)) :
    f ⟨next⟩ = n ∧ (nodesFrom (next + 1) inside).map f = inner ∧
      (nodesFrom (next + (inside + 1)) beside).map f = kept := by
  rw [nodesFrom_succ_add, List.map_cons, List.map_append, List.cons.injEq] at h
  exact ⟨h.1, List.append_inj h.2 (by rw [List.length_map, length_nodesFrom, hlength])⟩

theorem exists_map_nodesFrom_eq (kept : List NodeId) :
    exists f : NodeId -> NodeId, (nodesFrom 0 kept.length).map f = kept := by
  refine ⟨fun n => kept[n.index]?.getD n, ?_⟩
  apply List.ext_getElem?
  intro i
  rw [List.getElem?_map, nodesFrom, List.getElem?_map]
  by_cases hi : i < kept.length
  · rw [List.getElem?_range' hi, List.getElem?_eq_getElem hi]
    simp [hi]
  · simp [hi]

/-!
# Courses with more in between
-/

namespace Course

/-- A course is another one with more in between. Its executions are numbered from `next` on; `kept`
lists the numbers of those that the other course has, too. -/
inductive Extends : Nat -> Course -> Course -> List NodeId -> Prop where
  | done {next : Nat} :
      Extends next .done .done []
  | read {next : Nat} {v : StateVariableId} {rest rest' : Course} {kept : List NodeId} :
      Extends next rest rest' kept -> Extends next (.read v rest) (.read v rest') kept
  | write {next : Nat} {v : StateVariableId} {rest rest' : Course} {kept : List NodeId} :
      Extends next rest rest' kept -> Extends next (.write v rest) (.write v rest') kept
  | call {next : Nat} {site : CallSite} {body body' rest rest' : Course}
      {inner kept : List NodeId} :
      Extends (next + 1) body body' inner ->
      Extends (next + (body'.size + 1)) rest rest' kept ->
      Extends next (.call site body rest) (.call site body' rest') (⟨next⟩ :: (inner ++ kept))
  | back {next : Nat} {site : CallSite} {rest rest' : Course} {kept : List NodeId} :
      Extends next rest rest' kept -> Extends next (.back site rest) (.back site rest') kept
  | cut {next : Nat} {site : CallSite} {depth : Nat} {rest rest' : Course}
      {kept : List NodeId} :
      Extends next rest rest' kept ->
      Extends next (.cut site depth rest) (.cut site depth rest') kept
  | moreRead {next : Nat} {v : StateVariableId} {course rest' : Course} {kept : List NodeId} :
      Extends next course rest' kept -> Extends next course (.read v rest') kept
  | moreWrite {next : Nat} {v : StateVariableId} {course rest' : Course} {kept : List NodeId} :
      Extends next course rest' kept -> Extends next course (.write v rest') kept
  | moreCall {next : Nat} {site : CallSite} {course body' rest' : Course}
      {kept : List NodeId} :
      Extends (next + (body'.size + 1)) course rest' kept ->
      Extends next course (.call site body' rest') kept
  | moreBack {next : Nat} {site : CallSite} {course rest' : Course} {kept : List NodeId} :
      Extends next course rest' kept -> Extends next course (.back site rest') kept
  | moreCut {next : Nat} {site : CallSite} {depth : Nat} {course rest' : Course}
      {kept : List NodeId} :
      Extends next course rest' kept -> Extends next course (.cut site depth rest') kept

def ExtendedBy (course course' : Course) : Prop :=
  forall next, exists kept, Extends next course course' kept

namespace Extends

variable {next : Nat} {course course' : Course} {kept : List NodeId}

theorem length_kept (h : Extends next course course' kept) : kept.length = course.size := by
  induction h with
  | done => rfl
  | read _ ih => exact ih
  | write _ ih => exact ih
  | call _ _ ihBody ihRest =>
      rw [List.length_cons, List.length_append, ihBody, ihRest, size, Nat.add_right_comm]
  | back _ ih => exact ih
  | cut _ ih => exact ih
  | moreRead _ ih => exact ih
  | moreWrite _ ih => exact ih
  | moreCall _ ih => exact ih
  | moreBack _ ih => exact ih
  | moreCut _ ih => exact ih

theorem kept_sublist (h : Extends next course course' kept) :
    kept.Sublist (nodesFrom next course'.size) := by
  induction h with
  | done => exact List.Sublist.refl _
  | read _ ih => exact ih
  | write _ ih => exact ih
  | call _ _ ihBody ihRest =>
      rw [size, nodesFrom_succ_add]
      exact (ihBody.append ihRest).cons_cons _
  | back _ ih => exact ih
  | cut _ ih => exact ih
  | moreRead _ ih => exact ih
  | moreWrite _ ih => exact ih
  | moreCall _ ih =>
      rw [size, nodesFrom_succ_add]
      exact (ih.trans (List.sublist_append_right _ _)).cons _
  | moreBack _ ih => exact ih
  | moreCut _ ih => exact ih

theorem reads_sublist (h : Extends next course course' kept) :
    course.reads.Sublist course'.reads := by
  induction h with
  | done => exact List.Sublist.refl _
  | read _ ih => exact ih.cons_cons _
  | write _ ih => exact ih
  | call _ _ _ ihRest => exact ihRest
  | back _ ih => exact ih
  | cut _ ih => exact ih
  | moreRead _ ih => exact ih.cons _
  | moreWrite _ ih => exact ih
  | moreCall _ ih => exact ih
  | moreBack _ ih => exact ih
  | moreCut _ ih => exact ih

theorem writes_sublist (h : Extends next course course' kept) :
    course.writes.Sublist course'.writes := by
  induction h with
  | done => exact List.Sublist.refl _
  | read _ ih => exact ih
  | write _ ih => exact ih.cons_cons _
  | call _ _ _ ihRest => exact ihRest
  | back _ ih => exact ih
  | cut _ ih => exact ih
  | moreRead _ ih => exact ih
  | moreWrite _ ih => exact ih.cons _
  | moreCall _ ih => exact ih
  | moreBack _ ih => exact ih
  | moreCut _ ih => exact ih

end Extends
end Course

/-!
# More events

The path decides what becomes of a call. So two courses of a call at the end of one path differ at
most in what happens inside it and after it.
-/

namespace Store

variable {s : Store} {config config' : Config} {linearization : List ContractId}

theorem Resolves.eq {declared : FunctionId} {span : Span} {site site' : CallSite}
    (h : s.Resolves linearization declared span site)
    (h' : s.Resolves linearization declared span site') : site = site' := by
  rcases h.exists_decl with ⟨f, hf, heq⟩
  rcases h'.exists_decl with ⟨f', hf', heq'⟩
  have htarget := h.dispatch.symm.trans h'.dispatch
  rw [Except.ok.injEq] at htarget
  rw [htarget] at hf heq
  cases hf.symm.trans hf'
  rw [heq, heq']

theorem Unrolls.extends (htracked : config.TrackedBy config')
    (hdepth : config.maxCallDepth = config'.maxCallDepth) {path : List Definition}
    {events' : List Event} {course' : Course}
    (h' : s.Unrolls config' linearization path events' course') :
    forall {events : List Event} {course : Course}, events.Sublist events' ->
      s.Unrolls config linearization path events course -> course.ExtendedBy course' := by
  have hexceeds : forall depth, config.exceedsDepth depth = config'.exceedsDepth depth := by
    intro depth
    rw [Config.exceedsDepth, Config.exceedsDepth, hdepth]
  induction h' with
  | done =>
      intro events course hsub h next
      cases hsub
      cases h
      exact ⟨[], .done⟩
  | read _ ih =>
      intro events course hsub h next
      cases hsub with
      | cons _ hsub => exact (ih hsub h next).imp fun _ => .moreRead
      | cons_cons _ hsub =>
          cases h with
          | read hrest => exact (ih hsub hrest next).imp fun _ => .read
  | write _ ih =>
      intro events course hsub h next
      cases hsub with
      | cons _ hsub => exact (ih hsub h next).imp fun _ => .moreWrite
      | cons_cons _ hsub =>
          cases h with
          | write hrest => exact (ih hsub hrest next).imp fun _ => .write
  | back hsite' hmem' _ ih =>
      intro events course hsub h next
      cases hsub with
      | cons _ hsub => exact (ih hsub h next).imp fun _ => .moreBack
      | cons_cons _ hsub =>
          cases h with
          | back hsite _ hrest =>
              cases hsite.eq hsite'
              exact (ih hsub hrest next).imp fun _ => .back
          | cut hsite hfresh _ _ =>
              cases hsite.eq hsite'
              exact absurd hmem' hfresh
          | call hsite hfresh _ _ _ _ =>
              cases hsite.eq hsite'
              exact absurd hmem' hfresh
  | cut hsite' hfresh' hdepth' _ ih =>
      intro events course hsub h next
      cases hsub with
      | cons _ hsub => exact (ih hsub h next).imp fun _ => .moreCut
      | cons_cons _ hsub =>
          cases h with
          | back hsite hmem _ =>
              cases hsite.eq hsite'
              exact absurd hmem hfresh'
          | cut hsite _ _ hrest =>
              cases hsite.eq hsite'
              exact (ih hsub hrest next).imp fun _ => .cut
          | call _ _ hadmitted _ _ _ =>
              rw [hexceeds, hdepth'] at hadmitted
              cases hadmitted
  | call hsite' hfresh' hdepth' hinner' _ _ ihBody ihRest =>
      intro events course hsub h next
      cases hsub with
      | cons _ hsub => exact (ihRest hsub h _).imp fun _ => .moreCall
      | cons_cons _ hsub =>
          cases h with
          | back hsite hmem _ =>
              cases hsite.eq hsite'
              exact absurd hmem hfresh'
          | cut _ _ hexceeded _ =>
              rw [hexceeds, hdepth'] at hexceeded
              cases hexceeded
          | call hsite _ _ hinner hbody hrest =>
              cases hsite.eq hsite'
              have hinnerSub := eventsOf_sublist htracked hinner hinner'
              rcases ihBody hinnerSub hbody (next + 1) with ⟨inner, hinner⟩
              exact (ihRest hsub hrest _).imp' _ fun _ => .call hinner

end Store

/-!
# Executions with more in between

Where the executions of the smaller course get the numbers of those that are kept, each of them
stands in the larger course: its frames are the same up to their numbers, so its calls go back to the
same frames.
-/

def Frame.map (f : NodeId -> NodeId) (frame : Frame) : Frame :=
  { frame with node := f frame.node }

theorem Course.Extends.edges_sublist {f : NodeId -> NodeId} {next' : Nat}
    {course course' : Course} {kept : List NodeId} (h : Extends next' course course' kept)
    {next : Nat} (hkept : (nodesFrom next course.size).map f = kept) (frames : List Frame) :
    ((course.edges frames next).map (Edge.map f)).Sublist
      (course'.edges (frames.map (Frame.map f)) next') := by
  induction h generalizing next with
  | done => exact List.Sublist.refl _
  | read _ ih => exact ih hkept
  | write _ ih => exact ih hkept
  | call hbody _ _ ihRest =>
      rcases map_nodesFrom_succ_add hbody.length_kept hkept with ⟨hhead, _, hrest⟩
      rw [edges, edges, List.map_cons, Edge.map, hhead]
      exact (ihRest hrest).cons_cons _
  | @back _ site _ _ _ _ ih =>
      have hfind : ((frames.map (Frame.map f)).find? fun frame =>
          frame.definition = .function site.target) =
            (frames.find? fun frame => frame.definition = .function site.target).map
              (Frame.map f) := List.find?_map
      rw [edges, edges, hfind, List.map_append]
      refine List.Sublist.append ?_ (ih hkept)
      cases frames.find? fun frame => frame.definition = .function site.target with
      | none => exact List.Sublist.refl _
      | some frame => exact List.Sublist.refl _
  | cut _ ih => exact ih hkept
  | moreRead _ ih => exact ih hkept
  | moreWrite _ ih => exact ih hkept
  | moreCall _ ih => exact (ih hkept).cons _
  | moreBack _ ih => exact (ih hkept).trans (List.sublist_append_right _ _)
  | moreCut _ ih => exact ih hkept

namespace Execution

structure EmbedsIn (f : NodeId -> NodeId) (e e' : Execution) : Prop where
  id_eq : e'.id = f e.id
  node_embeds : e.node.EmbedsIn f e'.node

theorem embedsIn_of_extends {f : NodeId -> NodeId} {e e' : Execution} {kept : List NodeId}
    (hframes : e'.frames = e.frames.map (Frame.map f))
    (h : Course.Extends e'.next e.course e'.course kept)
    (hkept : (nodesFrom e.next e.course.size).map f = kept) : e.EmbedsIn f e' := by
  have hframe : e'.frame = e.frame.map f := (List.cons.inj hframes).1
  have hdefinition : e'.definition = e.definition := by
    rw [definition, hframe]
    rfl
  have hedges := h.edges_sublist hkept e.frames
  rw [← hframes] at hedges
  exact {
    id_eq := congrArg Frame.node hframe
    node_embeds := {
      definition_eq := hdefinition
      reads_sublist := h.reads_sublist
      writes_sublist := h.writes_sublist
      calls_sublist := hedges } }

end Execution

theorem Course.Extends.exists_embedsIn {f : NodeId -> NodeId} {next' : Nat}
    {course course' : Course} {kept : List NodeId} (h : Extends next' course course' kept)
    {next : Nat} (hkept : (nodesFrom next course.size).map f = kept) (frames : List Frame) :
    forall e, e ∈ course.executions frames next ->
      exists e', e' ∈ course'.executions (frames.map (Frame.map f)) next' ∧ e.EmbedsIn f e' := by
  induction h generalizing next frames with
  | done => exact nofun
  | read _ ih => exact ih hkept frames
  | write _ ih => exact ih hkept frames
  | @call next' site body body' _ _ _ _ hbody _ ihBody ihRest =>
      rcases map_nodesFrom_succ_add hbody.length_kept hkept with ⟨hhead, hinner, hrest⟩
      have hframes : (entered (frames.map (Frame.map f)) next' site body').frames =
          (entered frames next site body).frames.map (Frame.map f) := by
        rw [Execution.frames, Execution.frames, List.map_cons]
        simp only [entered, Frame.map, hhead]
      rw [executions, executions, List.forall_mem_cons, List.forall_mem_append]
      refine ⟨?_, ?_, ?_⟩
      · exact ⟨_, List.mem_cons_self, Execution.embedsIn_of_extends hframes hbody hinner⟩
      · intro e he
        rcases ihBody hinner _ e he with ⟨e', he', hembeds⟩
        rw [← hframes] at he'
        exact ⟨e', List.mem_cons_of_mem _ (List.mem_append_left _ he'), hembeds⟩
      · intro e he
        rcases ihRest hrest frames e he with ⟨e', he', hembeds⟩
        exact ⟨e', List.mem_cons_of_mem _ (List.mem_append_right _ he'), hembeds⟩
  | back _ ih => exact ih hkept frames
  | cut _ ih => exact ih hkept frames
  | moreRead _ ih => exact ih hkept frames
  | moreWrite _ ih => exact ih hkept frames
  | moreCall _ ih =>
      intro e he
      rcases ih hkept frames e he with ⟨e', he', hembeds⟩
      exact ⟨e', List.mem_cons_of_mem _ (List.mem_append_right _ he'), hembeds⟩
  | moreBack _ ih => exact ih hkept frames
  | moreCut _ ih => exact ih hkept frames

/-!
# Roots with more below them
-/

namespace Execution

structure GrowsTo (f : NodeId -> NodeId) (e e' : Execution) : Prop where
  embeds : e.EmbedsIn f e'
  inside_embeds : forall c, c ∈ e.inside -> exists c', c' ∈ e'.inside ∧ c.EmbedsIn f c'

theorem growsTo_of_extends {f : NodeId -> NodeId} {e e' : Execution} {kept : List NodeId}
    (hframes : e'.frames = e.frames.map (Frame.map f))
    (h : Course.Extends e'.next e.course e'.course kept)
    (hkept : (nodesFrom e.next e.course.size).map f = kept) : e.GrowsTo f e' := by
  refine ⟨embedsIn_of_extends hframes h hkept, ?_⟩
  rw [inside, inside, hframes]
  exact h.exists_embedsIn hkept e.frames

theorem GrowsTo.exists_of_mem_subtree {f : NodeId -> NodeId} {e e' : Execution}
    (h : e.GrowsTo f e') {c : Execution} (hc : c ∈ e.subtree) :
    exists c', c' ∈ e'.subtree ∧ c.EmbedsIn f c' := by
  rcases List.mem_cons.mp hc with rfl | hinside
  · exact ⟨e', e'.self_mem_subtree, h.embeds⟩
  · rcases h.inside_embeds c hinside with ⟨c', hc', hembeds⟩
    exact ⟨c', List.mem_cons_of_mem _ hc', hembeds⟩

end Execution

section

variable {plan plan' : List (Definition × Course)}

def planSize : List (Definition × Course) -> Nat
  | [] => 0
  | root :: plan => root.2.size + 1 + planSize plan

theorem length_forest_rootExecutions (next : Nat) (plan : List (Definition × Course)) :
    (forest (rootExecutions next plan)).length = planSize plan := by
  induction plan generalizing next with
  | nil => rfl
  | cons root plan ih =>
      rcases root with ⟨definition, course⟩
      rw [rootExecutions_cons, forest_cons, List.length_append, Execution.length_subtree, ih]
      rfl

/-- Where the courses of one plan extend those of another one, root by root, the executions can be
numbered so that each root grows. -/
theorem exists_kept_of_plans
    (h : List.Forall₂ (fun root root' => root.1 = root'.1 ∧ root.2.ExtendedBy root'.2) plan plan')
    (next' : Nat) :
    exists kept : List NodeId, kept.length = planSize plan ∧
      kept.Sublist (nodesFrom next' (planSize plan')) ∧
      forall (f : NodeId -> NodeId) next, (nodesFrom next kept.length).map f = kept ->
        List.Forall₂ (Execution.GrowsTo f) (rootExecutions next plan)
          (rootExecutions next' plan') := by
  induction h generalizing next' with
  | nil => exact ⟨[], rfl, List.Sublist.refl _, fun _ _ _ => .nil⟩
  | @cons root root' plan plan' hhead _ ih =>
      rcases root with ⟨definition, course⟩
      rcases root' with ⟨definition', course'⟩
      rcases hhead with ⟨rfl, hextends⟩
      rcases hextends (next' + 1) with ⟨inner, hinner⟩
      rcases ih (next' + (course'.size + 1)) with ⟨kept, hlength, hsublist, hgrows⟩
      have hsize : (⟨next'⟩ :: (inner ++ kept)).length = course.size + 1 + planSize plan := by
        rw [List.length_cons, List.length_append, hinner.length_kept, hlength,
          Nat.add_right_comm]
      refine ⟨⟨next'⟩ :: (inner ++ kept), hsize, ?_, ?_⟩
      · rw [planSize, nodesFrom_succ_add]
        exact (hinner.kept_sublist.append hsublist).cons_cons _
      · intro f next hkept
        rw [hsize] at hkept
        rcases map_nodesFrom_succ_add hinner.length_kept hkept with ⟨hhead, hbelow, hbeside⟩
        rw [← hlength] at hbeside
        rw [rootExecutions_cons, rootExecutions_cons]
        refine .cons (Execution.growsTo_of_extends ?_ hinner hbelow) (hgrows f _ hbeside)
        rw [Execution.frames, Execution.frames, List.map_cons, Frame.map, hhead]
        rfl

end

namespace Graph

variable {roots roots' : List Execution} {f : NodeId -> NodeId}

theorem map_id_eq_of_growsTo (h : List.Forall₂ (Execution.GrowsTo f) roots roots') :
    roots'.map Execution.id = (roots.map Execution.id).map f := by
  induction h with
  | nil => rfl
  | cons hhead _ ih =>
      rw [List.map_cons, List.map_cons, List.map_cons, hhead.embeds.id_eq, ih]

theorem embeds_ofExecutions (hrooted : Rooted roots) (hrooted' : Rooted roots')
    (hgrows : List.Forall₂ (Execution.GrowsTo f) roots roots')
    (hnodup : ((nodesFrom 0 (forest roots).length).map f).Nodup) :
    (ofExecutions roots).Embeds (ofExecutions roots') f where
  injective := by
    intro m n hm hn heq
    rw [size_ofExecutions] at hm hn
    refine List.inj_on_of_nodup_map hnodup ?_ ?_ heq
    · exact mem_nodesFrom.mpr ⟨Nat.zero_le _, by rwa [Nat.zero_add]⟩
    · exact mem_nodesFrom.mpr ⟨Nat.zero_le _, by rwa [Nat.zero_add]⟩
  roots_eq := map_id_eq_of_growsTo hgrows
  node_embeds := by
    intro n node hnode
    rcases (node_ofExecutions_eq_ok_iff hrooted).mp hnode with ⟨e, he, rfl, rfl⟩
    rcases List.mem_flatMap.mp he with ⟨root, hroot, hsub⟩
    rcases exists_of_mem_forall₂ hgrows hroot with ⟨root', hroot', hgrow⟩
    rcases hgrow.exists_of_mem_subtree hsub with ⟨e', he', hembeds⟩
    rw [← hembeds.id_eq]
    exact ⟨e'.node, node_ofExecutions hrooted' (mem_forest_of_mem_subtree hroot' he'),
      hembeds.node_embeds⟩

theorem effects_subset_of_growsTo {e e' : Execution} (h : e.GrowsTo f e')
    {effects : Node -> List StateVariableId}
    (heffects : forall n n', n.EmbedsIn f n' -> effects n ⊆ effects n') :
    ((e.subtree.map Execution.node).flatMap effects).eraseDups ⊆
      ((e'.subtree.map Execution.node).flatMap effects).eraseDups := by
  intro v hv
  rcases mem_effects_iff.mp hv with ⟨c, hc, hv⟩
  rcases h.exists_of_mem_subtree hc with ⟨c', hc', hembeds⟩
  exact mem_effects_iff.mpr ⟨c', hc', heffects _ _ hembeds.node_embeds hv⟩

theorem effectsGrow_ofExecutions (hrooted : Rooted roots) (hrooted' : Rooted roots')
    {e e' : Execution} (he : e ∈ roots) (he' : e' ∈ roots') (h : e.GrowsTo f e') :
    (ofExecutions roots).EffectsGrow (ofExecutions roots') e.id e'.id := by
  have hnodes := reachableNodes_ofExecutions hrooted (mem_forest_of_mem he)
  have hnodes' := reachableNodes_ofExecutions hrooted' (mem_forest_of_mem he')
  constructor
  · refine ⟨_, _, by rw [transitiveReads, hnodes]; rfl, by rw [transitiveReads, hnodes']; rfl, ?_⟩
    exact effects_subset_of_growsTo h fun _ _ hembeds => hembeds.reads_sublist.subset
  · refine ⟨_, _, by rw [transitiveWrites, hnodes]; rfl, by rw [transitiveWrites, hnodes']; rfl,
      ?_⟩
    exact effects_subset_of_growsTo h fun _ _ hembeds => hembeds.writes_sublist.subset
  · intro g
    refine ⟨_, _, by rw [callsFunction, hnodes]; rfl, by rw [callsFunction, hnodes']; rfl, ?_⟩
    show (e.inside.map Execution.node).any _ = true ->
      (e'.inside.map Execution.node).any _ = true
    rw [List.any_eq_true, List.any_eq_true]
    intro hcalls
    rcases hcalls with ⟨n, hn, hdefinition⟩
    rcases List.mem_map.mp hn with ⟨c, hc, rfl⟩
    rcases h.inside_embeds c hc with ⟨c', hc', hembeds⟩
    rw [← hembeds.node_embeds.definition_eq] at hdefinition
    exact ⟨c'.node, List.mem_map_of_mem hc', hdefinition⟩

theorem exists_embeds_of_plans {plan plan' : List (Definition × Course)}
    (h : List.Forall₂ (fun root root' => root.1 = root'.1 ∧ root.2.ExtendedBy root'.2) plan plan') :
    exists f, (ofExecutions (rootExecutions 0 plan)).Embeds
        (ofExecutions (rootExecutions 0 plan')) f ∧
      forall r, r ∈ (ofExecutions (rootExecutions 0 plan)).roots ->
        (ofExecutions (rootExecutions 0 plan)).EffectsGrow
          (ofExecutions (rootExecutions 0 plan')) r (f r) := by
  have hrooted := rooted_rootExecutions plan
  have hrooted' := rooted_rootExecutions plan'
  rcases exists_kept_of_plans h 0 with ⟨kept, hlength, hsublist, hgrows⟩
  rcases exists_map_nodesFrom_eq kept with ⟨f, hf⟩
  have hgrows := hgrows f 0 hf
  have hnodup : ((nodesFrom 0 (forest (rootExecutions 0 plan)).length).map f).Nodup := by
    rw [length_forest_rootExecutions, ← hlength, hf]
    exact hsublist.nodup (nodup_nodesFrom _ _)
  refine ⟨f, embeds_ofExecutions hrooted hrooted' hgrows hnodup, ?_⟩
  intro r hr
  rcases mem_roots_ofExecutions.mp hr with ⟨e, he, rfl⟩
  rcases exists_of_mem_forall₂ hgrows he with ⟨e', he', hgrow⟩
  rw [← hgrow.embeds.id_eq]
  exact effectsGrow_ofExecutions hrooted hrooted' he he' hgrow

end Graph

/-!
# The analysis with more tracking
-/

theorem forall₂_of_map_fst_eq {alpha beta : Type} {r : beta -> beta -> Prop}
    {xs ys : List (alpha × beta)} (h : xs.map Prod.fst = ys.map Prod.fst)
    (hr : forall a b b', (a, b) ∈ xs -> (a, b') ∈ ys -> r b b') :
    List.Forall₂ (fun x y => x.1 = y.1 ∧ r x.2 y.2) xs ys := by
  induction xs generalizing ys with
  | nil =>
      cases List.map_eq_nil_iff.mp h.symm
      exact .nil
  | cons x xs ih =>
      rcases List.map_eq_cons_iff.mp h.symm with ⟨y, ys, rfl, hhead, htail⟩
      rcases x with ⟨a, b⟩
      rcases y with ⟨a', b'⟩
      cases hhead
      refine .cons ⟨rfl, hr a b b' List.mem_cons_self List.mem_cons_self⟩ (ih htail.symm ?_)
      intro a b b' hx hy
      exact hr a b b' (List.mem_cons_of_mem _ hx) (List.mem_cons_of_mem _ hy)

theorem Store.map_fst_entryPoints_eq {s : Store} {config config' : Config}
    {linearization : List ContractId} {entries entries' : List EntryPoint}
    (hmissing : config.missingConstructor = config'.missingConstructor)
    (h : s.entryPoints config linearization = .ok entries)
    (h' : s.entryPoints config' linearization = .ok entries') :
    (entries.filterMap EntryPoint.root?).map Prod.fst =
      (entries'.filterMap EntryPoint.root?).map Prod.fst := by
  rcases exists_linearized_of_entryPoints h with ⟨bases, hbases, hroots, _⟩
  rcases exists_linearized_of_entryPoints h' with ⟨bases', hbases', hroots', _⟩
  cases hbases.symm.trans hbases'
  have hconstructor : config.constructorRoot? = config'.constructorRoot? := by
    funext base
    rw [Config.constructorRoot?, Config.constructorRoot?, hmissing]
  rw [hroots, hroots', hconstructor]

/-- Tracking more adds to the graph and takes nothing away. -/
theorem tracking_only_adds {create create' : Text.Path -> Except String Unit} {s : Store}
    {config config' : Config} {id : ContractId} {a a' : Analysis}
    (hdepth : config.maxCallDepth = config'.maxCallDepth)
    (hmissing : config.missingConstructor = config'.missingConstructor)
    (htracked : config.TrackedBy config') (h : Analyzes create s config id a)
    (h' : Analyzes create' s config' id a') :
    exists definitions f, a.graph.rootDefinitions = .ok definitions ∧
      a'.graph.rootDefinitions = .ok definitions ∧ a.graph.Embeds a'.graph f ∧
      forall r, r ∈ a.graph.roots -> a.graph.EffectsGrow a'.graph r (f r) := by
  rcases entryPoints_of_run_eq_ok (analyzes_iff_run_eq_ok.mp h) with
    ⟨contract, entries, hcontract, _, hentries, hgraph⟩
  rcases entryPoints_of_run_eq_ok (analyzes_iff_run_eq_ok.mp h') with
    ⟨contract', entries', hcontract', _, hentries', hgraph'⟩
  cases hcontract.symm.trans hcontract'
  let plan := entries.filterMap EntryPoint.root?
  let plan' := entries'.filterMap EntryPoint.root?
  have hdefinitions : plan.map Prod.fst = plan'.map Prod.fst :=
    Store.map_fst_entryPoints_eq hmissing hentries hentries'
  have hextends : List.Forall₂
      (fun root root' => root.1 = root'.1 ∧ root.2.ExtendedBy root'.2) plan plan' := by
    refine forall₂_of_map_fst_eq hdefinitions ?_
    intro d course course' hcourse hcourse'
    rcases unrolls_of_mem_entryPoints hentries hcourse with ⟨events, hevents, hunrolls⟩
    rcases unrolls_of_mem_entryPoints hentries' hcourse' with ⟨events', hevents', hunrolls'⟩
    exact hunrolls'.extends htracked hdepth
      (Store.eventsOf_sublist htracked hevents hevents') hunrolls
  rcases Graph.exists_embeds_of_plans hextends with ⟨f, hembeds, hgrow⟩
  refine ⟨plan.map Prod.fst, f, ?_, ?_, ?_⟩
  · rw [hgraph]
    exact Graph.rootDefinitions_ofEntryPoints entries
  · rw [hgraph', hdefinitions]
    exact Graph.rootDefinitions_ofEntryPoints entries'
  · rw [hgraph, hgraph', Graph.ofEntryPoints_eq, Graph.ofEntryPoints_eq]
    exact ⟨hembeds, hgrow⟩

theorem embeds_nested :
    exists a a', Analyzes (fun _ => .ok ()) Nested.store {} ⟨0⟩ a ∧
      Analyzes (fun _ => .ok ()) Nested.store Nested.tracking ⟨0⟩ a' ∧
      a.graph = Nested.graph ∧ a'.graph = Nested.trackedGraph ∧
      ({} : Config).maxCallDepth = Nested.tracking.maxCallDepth ∧
      ({} : Config).missingConstructor = Nested.tracking.missingConstructor ∧
      ({} : Config).TrackedBy Nested.tracking ∧
      exists definitions f, a.graph.rootDefinitions = .ok definitions ∧
        a'.graph.rootDefinitions = .ok definitions ∧ a.graph.Embeds a'.graph f ∧
        forall r, r ∈ a.graph.roots -> a.graph.EffectsGrow a'.graph r (f r) := by
  rcases Nested.exists_analyzes with ⟨a, h, hgraph⟩
  rcases Nested.exists_analyzes_tracking with ⟨a', h', hgraph'⟩
  have hdepth : ({} : Config).maxCallDepth = Nested.tracking.maxCallDepth := rfl
  have hmissing : ({} : Config).missingConstructor = Nested.tracking.missingConstructor := rfl
  have htracked : ({} : Config).TrackedBy Nested.tracking := Config.trackedBy_trackingAll {}
  exact ⟨a, a', h, h', hgraph, hgraph', hdepth, hmissing, htracked,
    tracking_only_adds hdepth hmissing htracked h h'⟩

end CallForest
