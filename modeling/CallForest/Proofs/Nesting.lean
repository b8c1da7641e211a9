import CallForest.Proofs.Ancestry
import Mathlib.Logic.Relation

/-!
# Executions inside executions

The frames around an execution fall into two parts when it is looked at from another one that it is
inside of: the inner ones belong to executions inside the other one, too, and the outer ones stand
around the other one. A call edge stays inside, and a recursive edge leads to one of the frames. So
only a recursive edge to an outer frame leads out of the nodes below a node.
-/

namespace CallForest

open Relation

namespace Execution

theorem mem_subtree_iff {e c : Execution} : c ∈ e.subtree <-> c = e ∨ c ∈ e.inside :=
  List.mem_cons

/-!
# Inner and outer frames
-/

theorem frames_subset_of_mem_inside {e c : Execution} (hc : c ∈ e.inside) :
    e.frames ⊆ c.outer := by
  refine Course.forall_mem_executions (P := fun c => e.frames ⊆ c.outer) ?_ e.course e.frames
    e.next ?_ c hc
  · intro p hp c hc
    rw [outer_of_mem_callees hc]
    exact List.subset_cons_of_subset _ hp
  · intro c hc
    rw [Course.outer_of_mem_callees hc]
    exact List.Subset.refl _

theorem exists_frame_eq_or_mem_outer {e : Execution} :
    forall c, c ∈ e.subtree -> forall frame, frame ∈ c.frames ->
      (exists d, d ∈ e.subtree ∧ d.frame = frame) ∨ frame ∈ e.outer := by
  have hboth : forall c, c ∈ e.subtree -> c ∈ e.subtree ∧ forall frame, frame ∈ c.frames ->
      (exists d, d ∈ e.subtree ∧ d.frame = frame) ∨ frame ∈ e.outer := by
    refine forall_mem_subtree ?_ ⟨e.self_mem_subtree, ?_⟩
    · intro p hp c hc
      have hmem := callees_mem_subtree hp.1 hc
      refine ⟨hmem, ?_⟩
      intro frame hframe
      rw [frames, outer_of_mem_callees hc] at hframe
      rcases List.mem_cons.mp hframe with rfl | hframe
      · exact Or.inl ⟨c, hmem, rfl⟩
      · exact hp.2 frame hframe
    · intro frame hframe
      rcases List.mem_cons.mp hframe with rfl | hframe
      · exact Or.inl ⟨e, e.self_mem_subtree, rfl⟩
      · exact Or.inr hframe
  exact fun c hc => (hboth c hc).2

theorem exists_mem_inside_or_mem_frames {e c : Execution} (hc : c ∈ e.subtree) {frame : Frame}
    (hframe : frame ∈ c.frames) :
    (exists d, d ∈ e.inside ∧ d.frame = frame) ∨ frame ∈ e.frames := by
  rcases exists_frame_eq_or_mem_outer c hc frame hframe with ⟨d, hd, rfl⟩ | houter
  · rcases mem_subtree_iff.mp hd with rfl | hd
    · exact Or.inr List.mem_cons_self
    · exact Or.inl ⟨d, hd, rfl⟩
  · exact Or.inr (List.mem_cons_of_mem _ houter)

end Execution

theorem exists_around_of_mem_outer {roots : List Execution} (h : Rooted roots) :
    forall e, e ∈ forest roots -> forall frame, frame ∈ e.outer ->
      exists a, a ∈ forest roots ∧ a.frame = frame ∧ e ∈ a.subtree ∧ a.frames <:+ e.outer := by
  refine forall_mem_forest ?_ ?_
  · intro e he frame hframe
    rw [h.outer_eq_nil e he] at hframe
    cases hframe
  · intro e he ih c hc frame hframe
    rw [Execution.outer_of_mem_callees hc] at hframe ⊢
    rcases List.mem_cons.mp hframe with rfl | hframe
    · exact ⟨e, he, rfl, Execution.callees_mem_subtree e.self_mem_subtree hc, List.suffix_rfl⟩
    · rcases ih frame hframe with ⟨a, ha, hframe, hmem, hsuffix⟩
      exact ⟨a, ha, hframe, Execution.callees_mem_subtree hmem hc,
        hsuffix.trans (List.suffix_cons _ _)⟩

namespace Graph

/-!
# Edges
-/

def Owns (g : Graph) (n m : NodeId) : Prop :=
  exists node, g.node n = .ok node ∧ Edge.call m ∈ node.calls

def LeadsTo (g : Graph) (n m : NodeId) : Prop :=
  exists node edge, g.node n = .ok node ∧ edge ∈ node.calls ∧ edge.target = m

theorem Owns.leadsTo {g : Graph} {n m : NodeId} (h : g.Owns n m) : g.LeadsTo n m := by
  rcases h with ⟨node, hnode, hcall⟩
  exact ⟨node, .call m, hnode, hcall, rfl⟩

section

variable {roots : List Execution}

theorem exists_of_owns (h : Rooted roots) {e : Execution} (he : e ∈ forest roots) {m : NodeId}
    (howns : (ofExecutions roots).Owns e.id m) : exists c, c ∈ e.callees ∧ c.id = m := by
  rcases howns with ⟨node, hnode, hcall⟩
  rw [node_ofExecutions h he] at hnode
  cases hnode
  exact Course.exists_callee_of_mem_edges hcall

theorem exists_of_leadsTo (h : Rooted roots) {e : Execution} (he : e ∈ forest roots)
    {m : NodeId} (hleads : (ofExecutions roots).LeadsTo e.id m) :
    (exists c, c ∈ e.callees ∧ c.id = m) ∨ exists frame, frame ∈ e.frames ∧ frame.node = m := by
  rcases hleads with ⟨node, edge, hnode, hedge, rfl⟩
  cases edge with
  | call c => exact Or.inl (exists_of_owns h he ⟨node, hnode, hedge⟩)
  | recursive a =>
      rw [node_ofExecutions h he] at hnode
      cases hnode
      rcases Course.exists_frame_of_mem_edges hedge with ⟨frame, _, hframe, hid, _⟩
      exact Or.inr ⟨frame, hframe, hid⟩

/-!
# What edges lead to
-/

theorem reflTransGen_owns_iff (h : Rooted roots) {e : Execution} (he : e ∈ forest roots)
    {m : NodeId} :
    ReflTransGen (ofExecutions roots).Owns e.id m <-> exists c, c ∈ e.subtree ∧ c.id = m := by
  constructor
  · intro hway
    induction hway with
    | refl => exact ⟨e, e.self_mem_subtree, rfl⟩
    | tail _ howns ih =>
        rcases ih with ⟨c, hc, rfl⟩
        rcases exists_of_owns h (subtree_mem_forest he c hc) howns with ⟨d, hd, rfl⟩
        exact ⟨d, Execution.callees_mem_subtree hc hd, rfl⟩
  · intro hm
    rcases hm with ⟨c, hc, rfl⟩
    have hboth : forall c, c ∈ e.subtree -> c ∈ forest roots ∧
        ReflTransGen (ofExecutions roots).Owns e.id c.id := by
      refine Execution.forall_mem_subtree ?_ ⟨he, ReflTransGen.refl⟩
      intro p hp c hc
      exact ⟨callees_mem_forest hp.1 hc,
        hp.2.tail ⟨_, node_ofExecutions h hp.1, Execution.call_mem_node_calls hc⟩⟩
    exact (hboth c hc).2

theorem reflTransGen_leadsTo_iff_of_stays (h : Rooted roots) {e : Execution}
    (he : e ∈ forest roots)
    (hstays : forall c, c ∈ e.subtree -> forall frame, frame ∈ e.outer ->
      ¬ (ofExecutions roots).LeadsTo c.id frame.node) {m : NodeId} :
    ReflTransGen (ofExecutions roots).LeadsTo e.id m <->
      exists c, c ∈ e.subtree ∧ c.id = m := by
  constructor
  · intro hway
    induction hway with
    | refl => exact ⟨e, e.self_mem_subtree, rfl⟩
    | tail _ hleads ih =>
        rcases ih with ⟨c, hc, rfl⟩
        rcases exists_of_leadsTo h (subtree_mem_forest he c hc) hleads with
          ⟨d, hd, rfl⟩ | ⟨frame, hframe, rfl⟩
        · exact ⟨d, Execution.callees_mem_subtree hc hd, rfl⟩
        · rcases Execution.exists_frame_eq_or_mem_outer c hc frame hframe with
            ⟨d, hd, rfl⟩ | houter
          · exact ⟨d, hd, rfl⟩
          · exact absurd hleads (hstays c hc frame houter)
  · intro hm
    exact ReflTransGen.mono (fun _ _ => Owns.leadsTo) _ _ ((reflTransGen_owns_iff h he).mpr hm)

/-- What edges lead to from a node is what stands below one of the nodes on the way to it: the
outermost one that recursive edges lead back to. -/
theorem exists_top (h : Rooted roots) {e : Execution} (he : e ∈ forest roots) :
    exists top, top ∈ forest roots ∧ top.frame ∈ e.frames ∧
      forall m, ReflTransGen (ofExecutions roots).LeadsTo e.id m <->
        exists c, c ∈ top.subtree ∧ c.id = m := by
  induction hlength : e.frames.length using Nat.strongRecOn generalizing e with
  | ind length ih =>
      by_cases hleaves : exists c frame, c ∈ e.subtree ∧ frame ∈ e.outer ∧
          (ofExecutions roots).LeadsTo c.id frame.node
      · rcases hleaves with ⟨c, frame, hc, hframe, hleads⟩
        rcases exists_around_of_mem_outer h e he frame hframe with ⟨a, ha, rfl, hmem, hsuffix⟩
        have hshorter : a.frames.length < length := by
          rw [← hlength]
          exact Nat.lt_succ_of_le hsuffix.length_le
        rcases ih _ hshorter ha rfl with ⟨top, htop, htopFrame, hreaches⟩
        refine ⟨top, htop, List.mem_cons_of_mem _ (hsuffix.subset htopFrame), ?_⟩
        intro m
        rw [← hreaches m]
        have hmono : forall n m, ReflTransGen (ofExecutions roots).Owns n m ->
            ReflTransGen (ofExecutions roots).LeadsTo n m :=
          ReflTransGen.mono fun _ _ => Owns.leadsTo
        have hback : ReflTransGen (ofExecutions roots).LeadsTo e.id a.id :=
          (hmono _ _ ((reflTransGen_owns_iff h he).mpr ⟨c, hc, rfl⟩)).tail hleads
        have hdown : ReflTransGen (ofExecutions roots).LeadsTo a.id e.id :=
          hmono _ _ ((reflTransGen_owns_iff h ha).mpr ⟨e, hmem, rfl⟩)
        exact ⟨hdown.trans, hback.trans⟩
      · refine ⟨e, he, List.mem_cons_self, ?_⟩
        intro m
        apply reflTransGen_leadsTo_iff_of_stays h he
        intro c hc frame hframe hleads
        exact hleaves ⟨c, frame, hc, hframe, hleads⟩

end

end Graph
end CallForest
