import CallForest.Analysis.Output
import CallForest.Proofs.Layout

/-!
# When a call graph can be drawn

A drawing has a label for each node and a line for each edge. All edges of a built graph point at
nodes. So it can be drawn exactly if each of its nodes can be labelled.
-/

namespace CallForest

theorem Node.exists_label_iff {s : Store} {n : Node} :
    (exists label, n.label s = .ok label) <->
      (exists name, n.definition.friendlyName s = .ok name) ∧
        forall v, v ∈ n.reads ++ n.writes -> exists decl, s.stateVariable v = .ok decl := by
  have hnames : forall ids, (exists names, s.variableNames ids = .ok names) <->
      forall v, v ∈ ids -> exists decl, s.stateVariable v = .ok decl := by
    intro ids
    rw [Store.variableNames, exists_mapM_eq_ok_iff]
    simp only [bind_pure_eq_ok_iff, exists_comm (α := String), exists_and_left, exists_eq',
      and_true]
  simp only [Node.label, bind_eq_ok_iff, pure_eq_ok_iff, List.forall_mem_append, ← hnames]
  constructor
  · intro h
    rcases h with ⟨_, name, hname, reads, hreads, writes, hwrites, _⟩
    exact ⟨⟨name, hname⟩, ⟨reads, hreads⟩, writes, hwrites⟩
  · intro h
    rcases h with ⟨⟨name, hname⟩, ⟨reads, hreads⟩, writes, hwrites⟩
    exact ⟨_, name, hname, reads, hreads, writes, hwrites, rfl⟩

namespace Graph

theorem mem_entries_iff {g : Graph} {id : NodeId} {n : Node} :
    (id, n) ∈ g.entries <-> g.node id = .ok n := by
  rw [node_eq_ok_iff, entries, List.mem_map, ← Array.getElem?_toList]
  constructor
  · intro h
    rcases h with ⟨entry, hentry, heq⟩
    cases heq
    exact List.mem_zipIdx_iff_getElem?.mp hentry
  · intro h
    exact ⟨(n, id.index), List.mem_zipIdx_iff_getElem?.mpr h, rfl⟩

theorem PreorderForest.exists_edgeLines {g : Graph} (h : g.PreorderForest) :
    exists lines, (g.entries.mapM fun (id, n) => n.calls.mapM (g.checkedEdgeLine id)) =
      Except.ok lines := by
  rw [exists_mapM_eq_ok_iff]
  intro entry hentry
  rw [exists_mapM_eq_ok_iff]
  intro edge hedge
  have hlt := h.target_lt_size entry.1 entry.2 edge (mem_entries_iff.mp hentry) hedge
  rcases exists_node_iff.mpr hlt with ⟨target, htarget⟩
  exact ⟨_, bind_pure_eq_ok_iff.mpr ⟨target, htarget, rfl⟩⟩

theorem exists_toDot_iff {g : Graph} (h : g.PreorderForest) {s : Store} :
    (exists dot, g.toDot s = .ok dot) <->
      forall id n, g.node id = .ok n -> exists label, n.label s = .ok label := by
  constructor
  · intro hdot id n hnode
    rcases hdot with ⟨dot, hdot⟩
    rw [toDot, bind_eq_ok_iff] at hdot
    rcases hdot with ⟨lines, hlines, _⟩
    rcases exists_mapM_eq_ok_iff.mp ⟨lines, hlines⟩ (id, n) (mem_entries_iff.mpr hnode) with
      ⟨line, hline⟩
    rcases bind_pure_eq_ok_iff.mp hline with ⟨label, hlabel, _⟩
    exact ⟨label, hlabel⟩
  · intro hlabels
    have hlines : exists lines, (g.entries.mapM fun (id, n) => do
        let label ← n.label s
        pure (g.dotNodeLine id label)) = Except.ok lines := by
      rw [exists_mapM_eq_ok_iff]
      intro entry hentry
      rcases hlabels entry.1 entry.2 (mem_entries_iff.mp hentry) with ⟨label, hlabel⟩
      exact ⟨_, bind_pure_eq_ok_iff.mpr ⟨label, hlabel, rfl⟩⟩
    rcases hlines with ⟨nodeLines, hnodeLines⟩
    rcases h.exists_edgeLines with ⟨edgeLines, hedgeLines⟩
    exact ⟨_, bind_eq_ok_iff.mpr ⟨_, hnodeLines, bind_pure_eq_ok_iff.mpr ⟨_, hedgeLines, rfl⟩⟩⟩

theorem exists_draw {g : Graph} {s : Store} (h : exists dot, g.toDot s = .ok dot)
    (create : Text.Path -> Except String Unit) (print : Option String) :
    exists drawing, g.draw s create print = .ok drawing := by
  rcases h with ⟨dot, hdot⟩
  cases print with
  | none => exact ⟨{}, rfl⟩
  | some path =>
      rw [draw, hdot]
      show exists drawing, (if path.isEmpty then _ else _) = Except.ok drawing
      split
      · exact ⟨_, rfl⟩
      · cases create ⟨path⟩ <;> exact ⟨_, rfl⟩

theorem preorderForest_ofEntryPoints (entries : List EntryPoint) :
    (ofEntryPoints entries).PreorderForest := by
  rw [ofEntryPoints_eq]
  exact preorderForest_ofExecutions (rooted_rootExecutions _)

end Graph
end CallForest
