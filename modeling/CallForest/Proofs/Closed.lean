import CallForest.Proofs.Levels
import CallForest.Proofs.LookupFaults
import CallForest.Proofs.OnePass
import CallForest.Traversal.Visitor

/-!
# Closed stores

A store is closed if the numbers that stand in its declarations are in range. The analysis of a
stored contract then meets no number that is out of range: not in the store, nor among the nodes, nor
among the frames. It has an answer, unless it comes to an arena that is poisoned, and so has the
drawing of its graph. Questions about a node of the graph do not need the store, and they always have
an answer.
-/

namespace CallForest

/-!
# The expressions of a store
-/

def Piece.expression? : Piece -> Option Expr
  | .expr e => some e
  | _ => none

def Visitor.expressions : Visitor Expr where
  respond p := { entries := p.expression?.toList }

theorem Visitor.mem_expressions_iff {p : Piece} {e : Expr} :
    e ∈ Visitor.expressions.ofPiece p <-> p.Contains e := by
  induction p using Piece.of_children with
  | hstep p ih =>
      have hpiece : Visitor.expressions.ofPiece p =
          p.expression?.toList ++ p.children.flatMap Visitor.expressions.ofPiece :=
        ofPiece_eq_append rfl
      rw [hpiece, List.mem_append, List.mem_flatMap]
      constructor
      · intro h
        rcases h with hown | ⟨c, hc, hinside⟩
        · cases p with
          | expr found =>
              cases List.mem_singleton.mp hown
              exact .self
          | _ => cases hown
        · exact .child hc ((ih c hc).mp hinside)
      · intro h
        cases h with
        | self => exact Or.inl List.mem_cons_self
        | child hc hinside => exact Or.inr ⟨_, hc, (ih _ hc).mpr hinside⟩

namespace Store

def pieces (s : Store) : List Piece :=
  s.functions.entries.toList.flatMap (fun f => Piece.ofBlock (f.body.getD [])) ++
    s.stateVariables.entries.toList.flatMap fun v => v.value.toList.map .expr

def expressions (s : Store) : List Expr :=
  s.pieces.flatMap Visitor.expressions.ofPiece

theorem mem_entries_of_get {s : Store} {kind : DeclKind} {id : DeclId kind} {decl : Decl kind}
    (h : s.get id = .ok decl) : decl ∈ (s.arena kind).entries.toList := by
  rw [Array.mem_toList_iff]
  exact Array.mem_of_getElem? (Arena.get_eq_ok_iff.mp h).2

theorem mem_pieces_of_code {s : Store} {d : Definition} {code : List Piece}
    (h : s.code d = .ok code) : forall p, p ∈ code -> p ∈ s.pieces := by
  intro p hp
  cases d with
  | function f =>
      rcases bind_pure_eq_ok_iff.mp h with ⟨decl, hdecl, rfl⟩
      exact List.mem_append_left _ (List.mem_flatMap.mpr ⟨decl, mem_entries_of_get hdecl, hp⟩)
  | stateVariable v =>
      rcases bind_pure_eq_ok_iff.mp h with ⟨decl, hdecl, rfl⟩
      exact List.mem_append_right _ (List.mem_flatMap.mpr ⟨decl, mem_entries_of_get hdecl, hp⟩)
  | implicitConstructor id =>
      cases h
      cases hp

theorem mem_expressions_of_holds {s : Store} {d : Definition} {e : Expr} (h : s.Holds d e) :
    e ∈ s.expressions := by
  rcases h with ⟨code, p, hcode, hp, hcontains⟩
  exact List.mem_flatMap.mpr
    ⟨p, mem_pieces_of_code hcode p hp, Visitor.mem_expressions_iff.mpr hcontains⟩

/-!
# Numbers in range
-/

def InRange (s : Store) (kind : DeclKind) (id : DeclId kind) : Prop :=
  id.index < (s.arena kind).size

/-- Every number that an analysis can take from a declaration is in range. The types of expressions
that are not called do not count. -/
structure Closed (s : Store) : Prop where
  contracts : forall c, c ∈ s.contracts.entries.toList -> c.IsKnown s.InRange
  expressions : forall e, e ∈ s.expressions -> e.IsKnown s.InRange

theorem Closed.closedUnder {s : Store} (h : s.Closed) : s.ClosedUnder s.InRange where
  contracts hcontract := h.contracts _ (mem_entries_of_get hcontract)
  expressions hholds := h.expressions _ (mem_expressions_of_holds hholds)

/-!
# Closed stores can be recognized
-/

instance (s : Store) (kind : DeclKind) (id : DeclId kind) : Decidable (s.InRange kind id) :=
  inferInstanceAs (Decidable (id.index < _))

instance (s : Store) : (r : Referent) -> Decidable (r.IsKnown s.InRange)
  | .stateVariable id => inferInstanceAs (Decidable (s.InRange _ id))
  | .function id => inferInstanceAs (Decidable (s.InRange _ id))
  | .contract id => inferInstanceAs (Decidable (s.InRange _ id))
  | .localVariable _ => .isTrue trivial
  | .parameter _ => .isTrue trivial
  | .builtin _ => .isTrue trivial

instance (s : Store) (e : Expr) : Decidable (e.IsKnown s.InRange) :=
  inferInstanceAs (Decidable (forall r, r ∈ e.referent? -> _))

instance (s : Store) (c : ContractDecl) : Decidable (c.IsKnown s.InRange) :=
  decidable_of_iff
    ((forall id, id ∈ c.linearization -> s.InRange .contract id) ∧
      (forall f, f ∈ c.constructor -> s.InRange .function f) ∧
      (forall f, f ∈ c.functions -> s.InRange .function f) ∧
      forall v, v ∈ c.stateVariables -> s.InRange .stateVariable v)
    ⟨fun ⟨hlinearization, hconstructor, hfunctions, hvariables⟩ =>
        ⟨hlinearization, hconstructor, hfunctions, hvariables⟩,
      fun h => ⟨h.linearization, h.constructor, h.functions, h.stateVariables⟩⟩

instance (s : Store) : Decidable s.Closed :=
  decidable_of_iff
    ((forall c, c ∈ s.contracts.entries.toList -> c.IsKnown s.InRange) ∧
      forall e, e ∈ s.expressions -> e.IsKnown s.InRange)
    ⟨fun ⟨hcontracts, hexpressions⟩ => ⟨hcontracts, hexpressions⟩,
      fun h => ⟨h.contracts, h.expressions⟩⟩

/-!
# Answers over a store
-/

/-- A computation has an answer, unless it comes to an arena that is poisoned. -/
def AnswersUnlessPoisoned {alpha : Type} (s : Store) (x : Except Fault alpha) : Prop :=
  (exists a, x = .ok a) ∨
    x = .error .poisoned ∧ exists kind, (s.arena kind).poisoned = true

def PoisonFault (s : Store) (fault : Fault) : Prop :=
  fault = .poisoned ∧ exists kind, (s.arena kind).poisoned = true

theorem poisonFault_of_get {s : Store} (kind : DeclKind) (id : DeclId kind)
    (h : s.InRange kind id) : FailsOnly s.PoisonFault (s.get id) := by
  intro fault hfault
  rcases fault_of_get hfault with ⟨rfl, hpoisoned⟩ | ⟨_, hle⟩
  · exact ⟨rfl, kind, hpoisoned⟩
  · exact absurd h (Nat.not_lt.mpr hle)

theorem answersUnlessPoisoned_of_failsOnly {alpha : Type} {s : Store} {x : Except Fault alpha}
    (h : FailsOnly s.PoisonFault x) : s.AnswersUnlessPoisoned x := by
  cases x with
  | ok a => exact Or.inl ⟨a, rfl⟩
  | error fault =>
      rcases h fault rfl with ⟨rfl, hpoisoned⟩
      exact Or.inr ⟨rfl, hpoisoned⟩

end Store

/-!
# Answers about a node
-/

namespace Graph

structure Answers (g : Graph) (n : NodeId) : Prop where
  reachable : exists ids, g.reachable n = .ok ids
  reachableNodes : exists nodes, g.reachableNodes n = .ok nodes
  transitiveReads : exists vs, g.transitiveReads n = .ok vs
  transitiveWrites : exists vs, g.transitiveWrites n = .ok vs
  readsTransitively : forall v, exists reads, g.readsTransitively n v = .ok reads
  writesTransitively : forall v, exists writes, g.writesTransitively n v = .ok writes
  callsFunction : forall f, exists calls, g.callsFunction n f = .ok calls
  depth : exists depth, g.depth n = .ok depth

theorem answers_ofExecutions {roots : List Execution} (h : Rooted roots) {e : Execution}
    (he : e ∈ forest roots) : (ofExecutions roots).Answers e.id := by
  have hnodes := reachableNodes_ofExecutions h he
  exact {
    reachable := ⟨_, reachable_ofExecutions h he⟩
    reachableNodes := ⟨_, hnodes⟩
    transitiveReads := ⟨_, bind_pure_eq_ok_iff.mpr ⟨_, hnodes, rfl⟩⟩
    transitiveWrites := ⟨_, bind_pure_eq_ok_iff.mpr ⟨_, hnodes, rfl⟩⟩
    readsTransitively := fun _ => ⟨_, bind_pure_eq_ok_iff.mpr ⟨_, hnodes, rfl⟩⟩
    writesTransitively := fun _ => ⟨_, bind_pure_eq_ok_iff.mpr ⟨_, hnodes, rfl⟩⟩
    callsFunction := fun _ => ⟨_, bind_pure_eq_ok_iff.mpr ⟨_, hnodes, rfl⟩⟩
    depth := ⟨_, depth_ofExecutions h he⟩ }

end Graph

variable {create : Text.Path -> Except String Unit} {s : Store} {config : Config}
  {id : ContractId} {a : Analysis}

theorem answers_of_analyzes (h : Analyzes create s config id a) {n : NodeId}
    (hn : n.index < a.graph.size) : a.graph.Answers n := by
  rcases exists_roots_of_analyzes h with ⟨contract, roots, _, hrooted, hgraph, _⟩
  rw [hgraph] at hn ⊢
  rcases (Graph.lt_size_ofExecutions_iff hrooted).mp hn with ⟨e, he, rfl⟩
  exact Graph.answers_ofExecutions hrooted he

theorem pass_of_analyzes (h : Analyzes create s config id a) :
    Analysis.pass create s config id = .ok (.ok a.graph) := by
  rw [Analysis.pass_eq_run, analyzes_iff_run_eq_ok.mp h]
  rfl

/-!
# Closed programs
-/

section

variable {known : forall kind, DeclId kind -> Prop} {faults : Fault -> Prop}

theorem failsOnly_toDot_of_analyzes (hclosed : s.ClosedUnder known)
    (hlookup : forall kind (id : DeclId kind), known kind id -> FailsOnly faults (s.get id))
    (h : Analyzes create s config id a) : FailsOnly faults (a.graph.toDot s) := by
  rcases entryPoints_of_run_eq_ok (analyzes_iff_run_eq_ok.mp h) with
    ⟨contract, entries, hcontract, _, hentries, hgraph⟩
  rw [hgraph]
  refine Store.failsOnly_toDot hlookup (Graph.preorderForest_ofEntryPoints entries) ?_
  intro n node hnode
  exact Store.isKnown_of_node_ofEntryPoints hclosed (hclosed.contracts hcontract).linearization
    hentries hnode

end

/-- On a closed store the pass over a stored contract, the analysis, and the drawing of its graph meet
no number that is out of range, and the nodes of the graph answer all questions. -/
theorem closed_programs_stay_in_range (hclosed : s.Closed) (hid : s.InRange .contract id)
    (create : Text.Path -> Except String Unit) (config : Config) (before : Handler) :
    s.AnswersUnlessPoisoned (Analysis.pass create s config id) ∧
      s.AnswersUnlessPoisoned (Analyzing.runIn before (analyzeContract create s config id)) ∧
      forall a, Analyzes create s config id a ->
        Analysis.pass create s config id = .ok (.ok a.graph) ∧
          s.AnswersUnlessPoisoned (a.graph.toDot s) ∧
          forall n : NodeId, n.index < a.graph.size -> a.graph.Answers n := by
  have hunder := hclosed.closedUnder
  have hrun := Store.failsOnly_run hunder Store.poisonFault_of_get create config hid
  refine ⟨?_, ?_, ?_⟩
  · apply Store.answersUnlessPoisoned_of_failsOnly
    rw [Analysis.pass_eq_run]
    exact hrun.bind_pure _
  · apply Store.answersUnlessPoisoned_of_failsOnly
    exact Store.failsOnly_runIn_analyzeContract hunder Store.poisonFault_of_get create config hid
      before
  · intro a ha
    refine ⟨pass_of_analyzes ha, ?_, fun n hn => answers_of_analyzes ha hn⟩
    apply Store.answersUnlessPoisoned_of_failsOnly
    exact failsOnly_toDot_of_analyzes hunder Store.poisonFault_of_get ha

theorem staysInRange_cycle :
    Cycle.store.Closed ∧ Cycle.store.InRange .contract ⟨0⟩ ∧
      Analysis.pass (fun _ => .ok ()) Cycle.store {} ⟨0⟩ = .ok (.ok Cycle.graph) ∧
      (exists dot, Cycle.graph.toDot Cycle.store = .ok dot) ∧
      forall n : NodeId, n.index < 8 -> Cycle.graph.Answers n := by
  have hclosed : Cycle.store.Closed := by decide
  have hid : Cycle.store.InRange .contract ⟨0⟩ := by decide
  rcases Cycle.exists_analyzes with ⟨a, ha, hgraph⟩
  rcases closed_programs_stay_in_range hclosed hid (fun _ => .ok ()) {} {} with ⟨_, _, hall⟩
  rcases hall a ha with ⟨hpass, hdot, hanswers⟩
  rw [hgraph] at hpass hdot hanswers
  refine ⟨hclosed, hid, hpass, ?_, hanswers⟩
  rcases hdot with hdot | ⟨_, kind, hpoisoned⟩
  · exact hdot
  · cases kind <;> cases hpoisoned

end CallForest
