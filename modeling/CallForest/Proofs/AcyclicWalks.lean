import CallForest.Proofs.Nesting
import CallForest.Proofs.Walking
import Mathlib.Data.List.Perm.Subperm

/-!
# Walks on acyclic call edges

Below a node from which all call edges lead to nodes and none of them closes a cycle, a way down has
no node twice, so it is no longer than the graph. There the walk with its list of waiting nodes ends
and gives the pre-order, the recursion over the call edges, with a shared node once for each way that
leads to it. The depth is the length of a longest descent. Neither the walk nor the depth looks at
anything but the call edges.
-/

namespace CallForest

open Relation

namespace Graph

/-- The pre-order from a node: the node, and then the pre-orders from its callees, one after the
other. -/
inductive Preorder (g : Graph) : NodeId -> List NodeId -> Prop where
  | node {id : NodeId} {n : Node} {below : List (List NodeId)} :
      g.node id = .ok n -> List.Forall₂ (Preorder g) n.callees below ->
      Preorder g id (id :: below.flatten)

/-- A descent from a node along call edges. Its length is the number of these edges. -/
def Descent (g : Graph) (n : NodeId) (way : List NodeId) : Prop :=
  (n :: way).IsChain g.Owns

/-- The call edges below a node lead to nodes and never back to where they have been. -/
structure EndsBelow (g : Graph) (n : NodeId) : Prop where
  in_range : forall m, ReflTransGen g.Owns n m -> exists node, g.node m = .ok node
  acyclic : forall m, ReflTransGen g.Owns n m -> ¬ TransGen g.Owns m m

structure IsDepth (g : Graph) (n : NodeId) (depth : Nat) : Prop where
  attained : exists way, g.Descent n way ∧ way.length = depth
  longest : forall way, g.Descent n way -> way.length ≤ depth

def SameCallEdges (g g' : Graph) : Prop :=
  g.nodes.toList.map Node.callees = g'.nodes.toList.map Node.callees

/-!
# Descents
-/

section

variable {g : Graph} {n m : NodeId} {way : List NodeId}

theorem descent_nil : g.Descent n [] :=
  List.IsChain.singleton n

theorem descent_cons : g.Descent n (m :: way) <-> g.Owns n m ∧ g.Descent m way :=
  List.isChain_cons_cons

theorem mem_callees_iff {node : Node} : m ∈ node.callees <-> Edge.call m ∈ node.calls := by
  rw [Node.callees, List.mem_filterMap]
  constructor
  · intro h
    rcases h with ⟨edge, hedge, hcallee⟩
    cases edge with
    | call id =>
        cases hcallee
        exact hedge
    | recursive id => cases hcallee
  · intro h
    exact ⟨.call m, h, rfl⟩

theorem owns_iff {node : Node} (h : g.node n = .ok node) : g.Owns n m <-> m ∈ node.callees := by
  rw [mem_callees_iff]
  constructor
  · intro howns
    rcases howns with ⟨found, hfound, hcall⟩
    cases hfound.symm.trans h
    exact hcall
  · intro hcall
    exact ⟨node, h, hcall⟩

theorem reflTransGen_of_descent (h : g.Descent n way) :
    forall m, m ∈ n :: way -> ReflTransGen g.Owns n m := by
  induction way generalizing n with
  | nil =>
      intro m hm
      cases List.mem_singleton.mp hm
      exact .refl
  | cons next way ih =>
      rcases descent_cons.mp h with ⟨howns, hrest⟩
      intro m hm
      rcases List.mem_cons.mp hm with rfl | hm
      · exact .refl
      · exact (ih hrest m hm).head howns

theorem EndsBelow.nodup (h : g.EndsBelow n) (hway : g.Descent n way) : (n :: way).Nodup := by
  have hchain : (n :: way).IsChain (TransGen g.Owns) := hway.imp fun _ _ => TransGen.single
  refine hchain.pairwise.imp_of_mem ?_
  intro a b ha _ hab heq
  subst heq
  exact h.acyclic a (reflTransGen_of_descent hway a ha) hab

theorem EndsBelow.length_lt (h : g.EndsBelow n) (hway : g.Descent n way) :
    way.length < g.size := by
  have hnodup : ((n :: way).map NodeId.index).Nodup := by
    apply (h.nodup hway).map
    intro a b hab
    cases a
    cases b
    cases hab
    rfl
  have hsubset : (n :: way).map NodeId.index ⊆ List.range g.size := by
    intro i hi
    rcases List.mem_map.mp hi with ⟨m, hm, rfl⟩
    exact List.mem_range.mpr (exists_node_iff.mp (h.in_range m (reflTransGen_of_descent hway m hm)))
  have hlength := (hnodup.subperm hsubset).length_le
  rw [List.length_map, List.length_range] at hlength
  exact hlength

theorem EndsBelow.of_owns (h : g.EndsBelow n) (howns : g.Owns n m) : g.EndsBelow m where
  in_range k hk := h.in_range k (hk.head howns)
  acyclic k hk := h.acyclic k (hk.head howns)

theorem EndsBelow.exists_node (h : g.EndsBelow n) : exists node, g.node n = .ok node :=
  h.in_range n .refl

end

/-!
# The walk

Each level allows for one more call edge. A walk of more levels than a longest descent has call
edges never runs out of levels.
-/

section

variable {g : Graph} {level : Nat}

/-- What is handed on from the callees of a node to the node, with one level more, holds where there
are more levels than a longest descent has call edges. -/
theorem EndsBelow.of_callees {P : Nat -> NodeId -> Prop}
    (hstep : forall level n node, g.node n = .ok node ->
      (forall c, c ∈ node.callees -> P level c) -> P (level + 1) n) :
    forall n, g.EndsBelow n -> (forall way, g.Descent n way -> way.length < level) ->
      P level n := by
  induction level with
  | zero =>
      intro n _ hlevel
      cases hlevel [] descent_nil
  | succ level ih =>
      intro n h hlevel
      rcases h.exists_node with ⟨node, hnode⟩
      refine hstep level n node hnode ?_
      intro c hc
      have howns := (owns_iff hnode).mpr hc
      apply ih c (h.of_owns howns)
      intro way hway
      exact Nat.lt_of_succ_lt_succ (hlevel (c :: way) (descent_cons.mpr ⟨howns, hway⟩))

theorem EndsBelow.exists_reachable {n : NodeId} (h : g.EndsBelow n) :
    exists ids, g.reachable n = .ok ids := by
  rw [reachable_eq_preorderWithin]
  refine of_callees (P := fun level n => exists ids, g.preorderWithin level n = .ok ids) ?_ n h
    fun _ hway => Nat.lt_succ_of_lt (h.length_lt hway)
  intro level n node hnode hcallees
  rcases exists_mapM_eq_ok_iff.mpr hcallees with ⟨below, hbelow⟩
  exact ⟨_, bind_eq_ok_iff.mpr ⟨node, hnode, bind_pure_eq_ok_iff.mpr ⟨below, hbelow, rfl⟩⟩⟩

theorem preorder_of_preorderWithin : forall {n ids}, g.preorderWithin level n = .ok ids ->
    g.Preorder n ids := by
  induction level with
  | zero =>
      intro n ids h
      cases h
  | succ level ih =>
      intro n ids h
      rcases bind_eq_ok_iff.mp h with ⟨node, hnode, h⟩
      rcases bind_pure_eq_ok_iff.mp h with ⟨below, hbelow, rfl⟩
      exact .node hnode ((mapM_eq_ok_iff.mp hbelow).imp fun _ _ => ih)

theorem eq_of_preorder : forall {n ids ids'}, g.preorderWithin level n = .ok ids ->
    g.Preorder n ids' -> ids' = ids := by
  induction level with
  | zero =>
      intro n ids ids' h
      cases h
  | succ level ih =>
      intro n ids ids' h hpreorder
      rcases bind_eq_ok_iff.mp h with ⟨node, hnode, h⟩
      rcases bind_pure_eq_ok_iff.mp h with ⟨below, hbelow, rfl⟩
      cases hpreorder with
      | node hfound hbelow' =>
          cases hnode.symm.trans hfound
          have hsame : forall c ids ids', g.preorderWithin level c = .ok ids -> g.Preorder c ids' ->
              ids' = ids := fun _ _ _ => ih
          rw [eq_of_forall₂ hsame (mapM_eq_ok_iff.mp hbelow) hbelow']

end

theorem reachable_eq_ok_iff_preorder {g : Graph} {n : NodeId} (h : g.EndsBelow n)
    (ids : List NodeId) : g.reachable n = .ok ids <-> g.Preorder n ids := by
  rcases h.exists_reachable with ⟨found, hfound⟩
  have hwithin := g.reachable_eq_preorderWithin n
  rw [hfound, Except.ok.injEq]
  rw [hfound] at hwithin
  constructor
  · rintro rfl
    exact preorder_of_preorderWithin hwithin.symm
  · intro hpreorder
    exact (eq_of_preorder hwithin.symm hpreorder).symm

/-!
# Depth
-/

theorem foldl_max_mem (xs : List Nat) (start : Nat) :
    xs.foldl max start = start ∨ xs.foldl max start ∈ xs := by
  induction xs generalizing start with
  | nil => exact Or.inl rfl
  | cons x xs ih =>
      rw [List.foldl_cons, List.mem_cons]
      rcases ih (max start x) with heq | hmem
      · rw [heq]
        rcases Nat.le_total start x with hle | hle
        · exact Or.inr (Or.inl (Nat.max_eq_right hle))
        · exact Or.inl (Nat.max_eq_left hle)
      · exact Or.inr (Or.inr hmem)

theorem isDepth_of_callees {g : Graph} {n : NodeId} {node : Node} (hnode : g.node n = .ok node)
    {depths : List Nat} (h : List.Forall₂ g.IsDepth node.callees depths) :
    g.IsDepth n ((depths.map (· + 1)).foldl max 0) where
  attained := by
    rcases foldl_max_mem (depths.map (· + 1)) 0 with hzero | hmem
    · exact ⟨[], descent_nil, hzero.symm⟩
    · rcases List.mem_map.mp hmem with ⟨depth, hdepth, heq⟩
      rcases exists_of_mem_forall₂ h.flip hdepth with ⟨c, hc, hisDepth⟩
      rcases hisDepth.attained with ⟨way, hway, hlength⟩
      refine ⟨c :: way, descent_cons.mpr ⟨(owns_iff hnode).mpr hc, hway⟩, ?_⟩
      rw [List.length_cons, hlength, heq]
  longest := by
    intro way hway
    cases way with
    | nil => exact Nat.zero_le _
    | cons c way =>
        rcases descent_cons.mp hway with ⟨howns, hrest⟩
        rcases exists_of_mem_forall₂ h ((owns_iff hnode).mp howns) with ⟨depth, hdepth, hisDepth⟩
        have hle := (le_foldl_max (depths.map (· + 1)) 0).2 _ (List.mem_map_of_mem hdepth)
        exact Nat.le_trans (Nat.succ_le_succ (hisDepth.longest way hrest)) hle

theorem EndsBelow.exists_depth {g : Graph} {n : NodeId} (h : g.EndsBelow n) :
    exists depth, g.depth n = .ok depth ∧ g.IsDepth n depth := by
  refine of_callees (P := fun level n =>
    exists depth, g.depthWithin level n = .ok depth ∧ g.IsDepth n depth) ?_ n h
    fun _ hway => Nat.lt_succ_of_lt (h.length_lt hway)
  intro level n node hnode hcallees
  rcases exists_forall₂_of_forall_mem hcallees with ⟨depths, hdepths⟩
  have hmapM := mapM_eq_ok_iff.mpr (hdepths.imp fun _ _ => And.left)
  exact ⟨_, bind_eq_ok_iff.mpr ⟨node, hnode, bind_pure_eq_ok_iff.mpr ⟨depths, hmapM, rfl⟩⟩,
    isDepth_of_callees hnode (hdepths.imp fun _ _ => And.right)⟩

/-!
# Other graphs with the same call edges
-/

namespace SameCallEdges

variable {g g' : Graph} (h : g.SameCallEdges g')

include h

theorem size_eq : g.size = g'.size := by
  have hlength := congrArg List.length h
  rw [List.length_map, List.length_map, Array.length_toList, Array.length_toList] at hlength
  exact hlength

theorem bind_node (n : NodeId) {alpha : Type} (next : List NodeId -> Except Fault alpha) :
    (g.node n >>= fun node => next node.callees) = g'.node n >>= fun node => next node.callees := by
  have hget : (g.nodes[n.index]?).map Node.callees = (g'.nodes[n.index]?).map Node.callees := by
    rw [← Array.getElem?_toList, ← Array.getElem?_toList, ← List.getElem?_map,
      ← List.getElem?_map, h]
  rw [node, node, get?, get?, h.size_eq]
  cases hnode : g.nodes[n.index]? with
  | none =>
      rw [hnode, Option.map_none] at hget
      rw [Option.map_eq_none_iff.mp hget.symm]
  | some found =>
      rw [hnode, Option.map_some] at hget
      rcases Option.map_eq_some_iff.mp hget.symm with ⟨found', hfound', hcallees⟩
      rw [hfound']
      show next found.callees = next found'.callees
      rw [hcallees]

theorem preorderWithin_eq (level : Nat) : g.preorderWithin level = g'.preorderWithin level := by
  induction level with
  | zero => rfl
  | succ level ih =>
      funext n
      rw [preorderWithin, preorderWithin, ih]
      exact h.bind_node n fun callees => do
        let below ← callees.mapM (g'.preorderWithin level)
        pure (n :: below.flatten)

theorem depthWithin_eq (level : Nat) : g.depthWithin level = g'.depthWithin level := by
  induction level with
  | zero => rfl
  | succ level ih =>
      funext n
      rw [depthWithin, depthWithin, ih]
      exact h.bind_node n fun callees => do
        let depths ← callees.mapM (g'.depthWithin level)
        pure ((depths.map (· + 1)).foldl max 0)

theorem reachable_eq (n : NodeId) : g.reachable n = g'.reachable n := by
  rw [reachable_eq_preorderWithin, reachable_eq_preorderWithin, h.size_eq, h.preorderWithin_eq]

theorem depth_eq (n : NodeId) : g.depth n = g'.depth n := by
  rw [depth, depth, h.size_eq, h.depthWithin_eq]

end SameCallEdges

/-!
# The walk and the recursion
-/

/-- What the walk below a node gives and how deep it goes, in each graph with the same call edges. -/
structure WalksInPreorder (g : Graph) (n : NodeId) : Prop where
  ends : exists ids, g.reachable n = .ok ids
  preorder : forall ids, g.reachable n = .ok ids <-> g.Preorder n ids
  depth : exists depth, g.depth n = .ok depth ∧ g.IsDepth n depth
  call_edges_only : forall g', g.SameCallEdges g' ->
    g.reachable n = g'.reachable n ∧ g.depth n = g'.depth n

theorem walks_follow_the_recursion {g : Graph} {n : NodeId} (h : g.EndsBelow n) :
    g.WalksInPreorder n where
  ends := h.exists_reachable
  preorder := reachable_eq_ok_iff_preorder h
  depth := h.exists_depth
  call_edges_only _ hsame := ⟨hsame.reachable_eq n, hsame.depth_eq n⟩

end Graph

/-!
# A shared node

Node 3 is a callee of two nodes. A recursive edge leads to no node.
-/

namespace Diamond

def graph : Graph where
  nodes := #[
    ⟨.function ⟨0⟩, [.call ⟨1⟩, .recursive ⟨0⟩, .call ⟨2⟩], [], []⟩,
    ⟨.function ⟨1⟩, [.call ⟨3⟩], [], []⟩,
    ⟨.function ⟨2⟩, [.call ⟨3⟩], [], []⟩,
    ⟨.function ⟨3⟩, [.recursive ⟨9⟩], [], []⟩]
  roots := [⟨0⟩]

theorem owns {n m : NodeId} (h : graph.Owns n m) : n.index < m.index ∧ m.index < 4 := by
  rcases h with ⟨node, hnode, hcall⟩
  have hlt := (Array.getElem?_eq_some_iff.mp (Graph.node_eq_ok_iff.mp hnode)).1
  have hall : forall i, (hi : i < 4) -> forall edge, edge ∈ graph.nodes[i].calls ->
      edge.isRecursive = false -> i < edge.target.index ∧ edge.target.index < 4 := by
    decide
  have hget := (Array.getElem?_eq_some_iff.mp (Graph.node_eq_ok_iff.mp hnode)).2
  rw [← hget] at hcall
  exact hall n.index hlt (.call m) hcall rfl

theorem endsBelow : graph.EndsBelow ⟨0⟩ where
  in_range := by
    intro m hm
    have hlt : m.index < 4 := by
      cases hm with
      | refl => decide
      | tail _ howns => exact (owns howns).2
    exact Graph.exists_node_iff.mpr hlt
  acyclic := by
    intro m _ hcycle
    have hlt : forall {a b : NodeId}, TransGen graph.Owns a b -> a.index < b.index := by
      intro a b h
      induction h with
      | single howns => exact (owns howns).1
      | tail _ howns ih => exact Nat.lt_trans ih (owns howns).1
    exact Nat.lt_irrefl _ (hlt hcycle)

end Diamond

theorem walksInPreorder_diamond :
    Diamond.graph.EndsBelow ⟨0⟩ ∧ Diamond.graph.WalksInPreorder ⟨0⟩ ∧
      Diamond.graph.Preorder ⟨0⟩ [⟨0⟩, ⟨1⟩, ⟨3⟩, ⟨2⟩, ⟨3⟩] ∧ Diamond.graph.IsDepth ⟨0⟩ 2 := by
  have hwalks := Graph.walks_follow_the_recursion Diamond.endsBelow
  refine ⟨Diamond.endsBelow, hwalks, ?_, ?_⟩
  · rw [← hwalks.preorder, Graph.reachable_eq_preorderWithin]
    rfl
  · rcases hwalks.depth with ⟨depth, hdepth, hisDepth⟩
    cases hdepth
    exact hisDepth

end CallForest
