import CallForest.Proofs.AcyclicWalks
import CallForest.Proofs.BackEdges
import CallForest.Proofs.EffectOrder
import Mathlib.Data.List.Induction

/-!
# Listing effects and asking for one

The state variables accessed below a node can be listed, and they can be asked for one by one. Both
questions go through the nodes in pre-order, and they agree on every variable. The list keeps the
first occurrence of each variable only. What the lists of the callees leave out are later occurrences
below the node, too, so these lists and the node's own accesses are enough to list what is accessed
below the node.
-/

namespace CallForest

open Relation

/-!
# Lists of first occurrences
-/

section

variable {alpha : Type} [DecidableEq alpha]

/-- A list has the items of another one, each of them once, in the order in which they first occur
there. -/
structure ListsFirsts (xs ys : List alpha) : Prop where
  mem_iff : forall x, x ∈ ys <-> x ∈ xs
  nodup : ys.Nodup
  in_order : ys.Pairwise fun x y => xs.idxOf x < xs.idxOf y

theorem eraseDups_concat_of_mem {xs : List alpha} {x : alpha} (h : x ∈ xs) :
    (xs ++ [x]).eraseDups = xs.eraseDups := by
  have hnone : [x].removeAll xs = [] := by
    rw [List.removeAll, List.filter_eq_nil_iff]
    simp [h]
  rw [List.eraseDups_append, hnone, List.eraseDups_nil, List.append_nil]

theorem eraseDups_concat_of_not_mem {xs : List alpha} {x : alpha} (h : x ∉ xs) :
    (xs ++ [x]).eraseDups = xs.eraseDups ++ [x] := by
  have hkept : [x].removeAll xs = [x] := by
    rw [List.removeAll, List.filter_eq_self]
    simp [h]
  rw [List.eraseDups_append, hkept]
  rfl

theorem pairwise_idxOf_eraseDups (xs : List alpha) :
    xs.eraseDups.Pairwise fun x y => xs.idxOf x < xs.idxOf y := by
  induction xs using List.reverseRecOn with
  | nil => exact .nil
  | append_singleton xs x ih =>
      have hkeep : forall y, y ∈ xs.eraseDups -> (xs ++ [x]).idxOf y = xs.idxOf y := by
        intro y hy
        exact List.idxOf_append_of_mem (List.mem_eraseDups.mp hy)
      have hbefore : xs.eraseDups.Pairwise fun y z =>
          (xs ++ [x]).idxOf y < (xs ++ [x]).idxOf z := by
        refine ih.imp_of_mem ?_
        intro y z hy hz hlt
        rw [hkeep y hy, hkeep z hz]
        exact hlt
      by_cases hx : x ∈ xs
      · rw [eraseDups_concat_of_mem hx]
        exact hbefore
      · rw [eraseDups_concat_of_not_mem hx, List.pairwise_append]
        refine ⟨hbefore, List.pairwise_singleton _ _, ?_⟩
        intro y hy z hz
        cases List.mem_singleton.mp hz
        rw [hkeep y hy, List.idxOf_append_of_notMem hx]
        exact Nat.lt_add_right _ (List.idxOf_lt_length_iff.mpr (List.mem_eraseDups.mp hy))

theorem listsFirsts_eraseDups (xs : List alpha) : ListsFirsts xs xs.eraseDups where
  mem_iff _ := List.mem_eraseDups
  nodup := nodup_eraseDups xs
  in_order := pairwise_idxOf_eraseDups xs

end

namespace Graph

/-!
# The nodes of a walk
-/

section

variable {g : Graph} {n : NodeId}

theorem EndsBelow.exists_reachable_callees (h : g.EndsBelow n) :
    exists node below, g.node n = .ok node ∧
      List.Forall₂ (fun c ids => g.reachable c = .ok ids) node.callees below ∧
      g.reachable n = .ok (n :: below.flatten) := by
  rcases h.exists_reachable with ⟨ids, hids⟩
  cases (reachable_eq_ok_iff_preorder h ids).mp hids with
  | @node _ node below hnode hbelow =>
      refine ⟨node, below, hnode, ?_, hids⟩
      refine forall₂_of_forall₂_mem hbelow ?_
      intro c ids hc hpreorder
      have hends := h.of_owns ((owns_iff hnode).mpr hc)
      exact (reachable_eq_ok_iff_preorder hends ids).mpr hpreorder

theorem EndsBelow.induction_on {P : NodeId -> Prop} (h : g.EndsBelow n)
    (hstep : forall n node, g.EndsBelow n -> g.node n = .ok node ->
      (forall c, c ∈ node.callees -> P c) -> P n) : P n := by
  refine of_callees (P := fun _ n => g.EndsBelow n -> P n) ?_ n h (fun _ => h.length_lt) h
  intro _ n node hnode hcallees hends
  apply hstep n node hends hnode
  intro c hc
  exact hcallees c hc (hends.of_owns ((owns_iff hnode).mpr hc))

theorem EndsBelow.reachableNodes_eq (h : g.EndsBelow n) {node : Node} (hnode : g.node n = .ok node)
    {below : List (List Node)} (hbelow : node.callees.mapM g.reachableNodes = .ok below) :
    g.reachableNodes n = .ok (node :: below.flatten) := by
  rcases h.exists_reachable_callees with ⟨found, ids, hfound, hids, hreachable⟩
  cases hfound.symm.trans hnode
  have hnodes : ids.flatten.mapM g.node = .ok below.flatten :=
    mapM_flatten_eq_ok (mapM_eq_ok_iff.mpr hids) hbelow
  rw [reachableNodes, bind_eq_ok_iff]
  refine ⟨_, hreachable, ?_⟩
  rw [List.mapM_cons, bind_eq_ok_iff]
  exact ⟨node, hnode, bind_pure_eq_ok_iff.mpr ⟨_, hnodes, rfl⟩⟩

theorem EndsBelow.exists_reachableNodes (h : g.EndsBelow n) :
    exists nodes, g.reachableNodes n = .ok nodes := by
  apply h.induction_on
  intro n node h hnode ih
  rcases exists_mapM_eq_ok_iff.mpr ih with ⟨below, hbelow⟩
  exact ⟨_, h.reachableNodes_eq hnode hbelow⟩

theorem EndsBelow.exists_reachableNodes_callees (h : g.EndsBelow n) :
    exists node below, g.node n = .ok node ∧
      node.callees.mapM g.reachableNodes = .ok below := by
  rcases h.exists_node with ⟨node, hnode⟩
  have hcallees : forall c, c ∈ node.callees -> exists nodes, g.reachableNodes c = .ok nodes :=
    fun c hc => (h.of_owns ((owns_iff hnode).mpr hc)).exists_reachableNodes
  rcases exists_mapM_eq_ok_iff.mpr hcallees with ⟨below, hbelow⟩
  exact ⟨node, below, hnode, hbelow⟩

end

/-!
# Other graphs with the same call edges
-/

namespace SameCallEdges

variable {g g' : Graph} (h : g.SameCallEdges g')

include h

theorem exists_node {n : NodeId} {node : Node} (hnode : g.node n = .ok node) :
    exists node', g'.node n = .ok node' ∧ node'.callees = node.callees := by
  have hsame := h.bind_node n (fun callees => (pure callees : Except Fault (List NodeId)))
  rw [hnode] at hsame
  exact bind_pure_eq_ok_iff.mp hsame.symm

theorem owns {n m : NodeId} (howns : g.Owns n m) : g'.Owns n m := by
  rcases howns with ⟨node, hnode, hcall⟩
  rcases h.exists_node hnode with ⟨node', hnode', hcallees⟩
  rw [owns_iff hnode', hcallees, mem_callees_iff]
  exact hcall

theorem endsBelow {n : NodeId} (hends : g.EndsBelow n) : g'.EndsBelow n := by
  have hsymm : g'.SameCallEdges g := Eq.symm h
  have hback : forall a b, g'.Owns a b -> g.Owns a b := fun _ _ => hsymm.owns
  constructor
  · intro m hm
    rcases hends.in_range m (ReflTransGen.mono hback _ _ hm) with ⟨node, hnode⟩
    rcases h.exists_node hnode with ⟨node', hnode', _⟩
    exact ⟨node', hnode'⟩
  · intro m hm hcycle
    exact hends.acyclic m (ReflTransGen.mono hback _ _ hm) (TransGen.mono hback _ _ hcycle)

end SameCallEdges

/-!
# Both questions
-/

/-- Some variables are what is accessed at a node and below it: the first occurrences in what the
nodes access in pre-order, the variables for which the question about a single one is answered yes,
and the first occurrences in what the node accesses itself and what is listed for its callees. -/
structure CollectsEffects (g : Graph) (access : Access) (n : NodeId)
    (vs : List StateVariableId) : Prop where
  in_preorder : exists ids nodes, g.Preorder n ids ∧ ids.mapM g.node = .ok nodes ∧
    ListsFirsts (nodes.flatMap access.ofNode) vs
  answers : forall v, access.transitively g n v = .ok (decide (v ∈ vs))
  composed : exists node below, g.node n = .ok node ∧
    node.callees.mapM (access.transitive g) = .ok below ∧
    ListsFirsts (access.ofNode node ++ below.flatten) vs

section

variable {g : Graph} {n : NodeId} {nodes : List Node} (access : Access)

theorem transitive_of_reachableNodes (h : g.reachableNodes n = .ok nodes) :
    access.transitive g n = .ok (nodes.flatMap access.ofNode).eraseDups := by
  rw [access.transitive_eq, h]
  rfl

theorem transitively_of_reachableNodes (h : g.reachableNodes n = .ok nodes)
    (v : StateVariableId) :
    access.transitively g n v = .ok (decide (v ∈ nodes.flatMap access.ofNode)) := by
  have hany : access.transitively g n v =
      .ok (nodes.any fun node => (access.ofNode node).contains v) := by
    cases access with
    | read =>
        rw [Access.transitively, readsTransitively, h]
        rfl
    | write =>
        rw [Access.transitively, writesTransitively, h]
        rfl
  rw [hany, Except.ok.injEq, Bool.eq_iff_iff, decide_eq_true_iff, List.any_eq_true,
    List.mem_flatMap]
  simp only [List.contains_iff_mem]

theorem mapM_transitive_of_mapM_reachableNodes {ids : List NodeId} {below : List (List Node)}
    (h : ids.mapM g.reachableNodes = .ok below) :
    ids.mapM (access.transitive g) =
      .ok ((below.map fun nodes => nodes.flatMap access.ofNode).map List.eraseDups) := by
  have heq : access.transitive g = fun n => g.reachableNodes n >>= fun nodes =>
      pure (nodes.flatMap access.ofNode).eraseDups := funext (access.transitive_eq g)
  rw [heq, mapM_bind_pure_eq_ok_iff]
  exact ⟨below, h, List.map_map⟩

end

theorem effects_agree_and_compose {g : Graph} {n : NodeId} (h : g.EndsBelow n)
    (access : Access) :
    exists vs, access.transitive g n = .ok vs ∧ g.CollectsEffects access n vs := by
  rcases h.exists_reachableNodes_callees with ⟨node, below, hnode, hbelow⟩
  have hnodes := h.reachableNodes_eq hnode hbelow
  refine ⟨_, transitive_of_reachableNodes access hnodes, ?_, ?_, ?_⟩
  · rcases bind_eq_ok_iff.mp hnodes with ⟨ids, hids, hmapM⟩
    exact ⟨ids, _, (reachable_eq_ok_iff_preorder h ids).mp hids, hmapM, listsFirsts_eraseDups _⟩
  · intro v
    rw [transitively_of_reachableNodes access hnodes]
    simp only [List.mem_eraseDups]
  · refine ⟨node, _, hnode, mapM_transitive_of_mapM_reachableNodes access hbelow, ?_⟩
    have hflat : below.flatten.flatMap access.ofNode =
        (below.map fun nodes => nodes.flatMap access.ofNode).flatten := by
      rw [List.flatten_eq_flatMap, List.flatMap_assoc, ← List.flatMap_def]
      rfl
    rw [List.flatMap_cons, hflat, ← eraseDups_append_flatten_map_eraseDups]
    exact listsFirsts_eraseDups _

end Graph

/-!
# A shared node with effects

Variables are repeated within node 0, on the way from node 0 to node 1, in the siblings 1 and 2, and
in node 3, which both of them call.
-/

namespace Diamond

def effects : Graph where
  nodes := #[
    ⟨.function ⟨0⟩, [.call ⟨1⟩, .recursive ⟨0⟩, .call ⟨2⟩], [⟨0⟩, ⟨0⟩], []⟩,
    ⟨.function ⟨1⟩, [.call ⟨3⟩], [⟨1⟩, ⟨0⟩, ⟨2⟩], [⟨4⟩]⟩,
    ⟨.function ⟨2⟩, [.call ⟨3⟩], [⟨2⟩, ⟨1⟩, ⟨5⟩], [⟨4⟩]⟩,
    ⟨.function ⟨3⟩, [.recursive ⟨9⟩], [⟨3⟩, ⟨1⟩], [⟨0⟩]⟩]
  roots := [⟨0⟩]

theorem sameCallEdges : graph.SameCallEdges effects :=
  rfl

end Diamond

theorem collectsEffects_diamond :
    Diamond.effects.EndsBelow ⟨0⟩ ∧
      Diamond.effects.transitiveReads ⟨0⟩ = .ok [⟨0⟩, ⟨1⟩, ⟨2⟩, ⟨3⟩, ⟨5⟩] ∧
      Diamond.effects.CollectsEffects .read ⟨0⟩ [⟨0⟩, ⟨1⟩, ⟨2⟩, ⟨3⟩, ⟨5⟩] := by
  have hends := Diamond.sameCallEdges.endsBelow Diamond.endsBelow
  have hreads : Diamond.effects.transitiveReads ⟨0⟩ = .ok [⟨0⟩, ⟨1⟩, ⟨2⟩, ⟨3⟩, ⟨5⟩] := by
    rw [Graph.transitiveReads, Graph.reachableNodes, Graph.reachable_eq_preorderWithin]
    rfl
  rcases Graph.effects_agree_and_compose hends .read with ⟨vs, hvs, hcollects⟩
  cases hreads.symm.trans hvs
  exact ⟨hends, hreads, hcollects⟩

end CallForest
