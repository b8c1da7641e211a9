import CallForest.Proofs.Parts
import CallForest.Proofs.Records

/-!
# Expanding a node

What is recorded at a node and below it is read off the graph and the code. A walk through the code
of the node gives its events in order. A read or a write is recorded where it is met. A call that is
followed takes the next edge of the node, and what is recorded below the callee comes in its place. A
call that goes back takes an edge and records nothing, and so does a call that is cut, without an
edge.
-/

namespace CallForest

namespace Graph

/-- What is recorded while some events leave some edges, at the end of a way from a root. -/
inductive Expands (g : Graph) (s : Store) (config : Config) (linearization : List ContractId) :
    List NodeId -> List Event -> List Edge -> List Notice -> Prop where
  | done {path : List NodeId} :
      Expands g s config linearization path [] [] []
  | read {path : List NodeId} {v : StateVariableId} {events : List Event} {edges : List Edge}
      {notices : List Notice} :
      Expands g s config linearization path events edges notices ->
      Expands g s config linearization path (.read v :: events) edges (.read v :: notices)
  | write {path : List NodeId} {v : StateVariableId} {events : List Event} {edges : List Edge}
      {notices : List Notice} :
      Expands g s config linearization path events edges notices ->
      Expands g s config linearization path (.write v :: events) edges (.write v :: notices)
  | back {path : List NodeId} {declared target : FunctionId} {span : Span} {ancestor : NodeId}
      {events : List Event} {edges : List Edge} {notices : List Notice} :
      s.finalOverride linearization declared = .ok target ->
      ancestor ∈ path -> g.definition ancestor = .ok (.function target) ->
      Expands g s config linearization path events edges notices ->
      Expands g s config linearization path (.call declared span :: events)
        (.recursive ancestor :: edges) notices
  | cut {path : List NodeId} {declared target : FunctionId} {span : Span} {events : List Event}
      {edges : List Edge} {notices : List Notice} :
      s.finalOverride linearization declared = .ok target ->
      (forall m, m ∈ path -> g.definition m ≠ .ok (.function target)) ->
      config.exceedsDepth path.length = true ->
      Expands g s config linearization path events edges notices ->
      Expands g s config linearization path (.call declared span :: events) edges notices
  | call {path : List NodeId} {declared target : FunctionId} {span : Span} {callee : NodeId}
      {node : Node} {code : List Piece} {inner events : List Event} {edges : List Edge}
      {below notices : List Notice} :
      s.finalOverride linearization declared = .ok target ->
      (forall m, m ∈ path -> g.definition m ≠ .ok (.function target)) ->
      config.exceedsDepth path.length = false ->
      g.node callee = .ok node -> node.definition = .function target ->
      s.code node.definition = .ok code -> Walks config (.visitAll code) inner ->
      Expands g s config linearization (callee :: path) inner node.calls below ->
      Expands g s config linearization path events edges notices ->
      Expands g s config linearization path (.call declared span :: events)
        (.call callee :: edges) (below ++ notices)

/-- What is recorded at a node and below it, where `path` leads from its caller to the root. A state
variable is written before its initial value is evaluated. -/
def ExpandsAt (g : Graph) (s : Store) (config : Config) (linearization : List ContractId)
    (path : List NodeId) (n : NodeId) (notices : List Notice) : Prop :=
  exists node code events, g.node n = .ok node ∧ s.code node.definition = .ok code ∧
    Walks config (.visitAll code) events ∧
    g.Expands s config linearization (n :: path)
      (node.definition.stateVariable?.toList.map .write ++ events) node.calls notices

namespace Expands

variable {g : Graph} {s : Store} {config : Config} {linearization : List ContractId}
  {path : List NodeId} {events events' : List Event} {edges : List Edge}
  {notices notices' : List Notice}

theorem exists_of_append
    (h : g.Expands s config linearization path (events ++ events') edges notices) :
    exists first last firstNotices lastNotices, edges = first ++ last ∧
      notices = firstNotices ++ lastNotices ∧
      g.Expands s config linearization path events first firstNotices ∧
      g.Expands s config linearization path events' last lastNotices := by
  induction events generalizing edges notices with
  | nil => exact ⟨[], edges, [], notices, rfl, rfl, .done, h⟩
  | cons event events ih =>
      cases h with
      | read hrest =>
          rcases ih hrest with ⟨first, last, _, lastNotices, rfl, rfl, hfirst, hlast⟩
          exact ⟨first, last, _, lastNotices, rfl, rfl, .read hfirst, hlast⟩
      | write hrest =>
          rcases ih hrest with ⟨first, last, _, lastNotices, rfl, rfl, hfirst, hlast⟩
          exact ⟨first, last, _, lastNotices, rfl, rfl, .write hfirst, hlast⟩
      | back hdispatch hmem hdefinition hrest =>
          rcases ih hrest with ⟨first, last, firstNotices, lastNotices, rfl, rfl, hfirst, hlast⟩
          exact ⟨_, last, firstNotices, lastNotices, rfl, rfl,
            .back hdispatch hmem hdefinition hfirst, hlast⟩
      | cut hdispatch hfresh hdepth hrest =>
          rcases ih hrest with ⟨first, last, firstNotices, lastNotices, rfl, rfl, hfirst, hlast⟩
          exact ⟨first, last, firstNotices, lastNotices, rfl, rfl,
            .cut hdispatch hfresh hdepth hfirst, hlast⟩
      | call hdispatch hfresh hdepth hnode hdefinition hcode hwalks hbelow hrest =>
          rcases ih hrest with ⟨first, last, firstNotices, lastNotices, rfl, rfl, hfirst, hlast⟩
          exact ⟨_, last, _, lastNotices, rfl, (List.append_assoc _ _ _).symm,
            .call hdispatch hfresh hdepth hnode hdefinition hcode hwalks hbelow hfirst, hlast⟩

theorem notices_eq (h : g.Expands s config linearization path events edges notices)
    (h' : g.Expands s config linearization path events edges notices') : notices = notices' := by
  induction h generalizing notices' with
  | done =>
      cases h'
      rfl
  | read _ ih =>
      cases h' with
      | read hrest => rw [ih hrest]
  | write _ ih =>
      cases h' with
      | write hrest => rw [ih hrest]
  | back hdispatch hmem hdefinition _ ih =>
      cases h' with
      | back _ _ _ hrest => exact ih hrest
      | cut hdispatch' hfresh _ _ =>
          cases hdispatch.symm.trans hdispatch'
          exact absurd hdefinition (hfresh _ hmem)
  | cut hdispatch hfresh hdepth _ ih =>
      cases h' with
      | back hdispatch' hmem hdefinition _ =>
          cases hdispatch.symm.trans hdispatch'
          exact absurd hdefinition (hfresh _ hmem)
      | cut _ _ _ hrest => exact ih hrest
      | call _ _ hdepth' _ _ _ _ _ _ => cases hdepth.symm.trans hdepth'
  | call hdispatch hfresh hdepth hnode _ hcode hwalks _ _ ihBelow ihRest =>
      cases h' with
      | cut _ _ hdepth' _ => cases hdepth.symm.trans hdepth'
      | call _ _ _ hnode' _ hcode' hwalks' hbelow hrest =>
          cases hnode.symm.trans hnode'
          cases hcode.symm.trans hcode'
          cases (walks_visitAll_iff.mp hwalks).trans (walks_visitAll_iff.mp hwalks').symm
          rw [ihBelow hbelow, ihRest hrest]

end Expands

theorem ExpandsAt.notices_eq {g : Graph} {s : Store} {config : Config}
    {linearization : List ContractId} {path : List NodeId} {n : NodeId}
    {notices notices' : List Notice} (h : g.ExpandsAt s config linearization path n notices)
    (h' : g.ExpandsAt s config linearization path n notices') : notices = notices' := by
  rcases h with ⟨node, code, events, hnode, hcode, hwalks, hexpands⟩
  rcases h' with ⟨node', code', events', hnode', hcode', hwalks', hexpands'⟩
  cases hnode.symm.trans hnode'
  cases hcode.symm.trans hcode'
  cases (walks_visitAll_iff.mp hwalks).trans (walks_visitAll_iff.mp hwalks').symm
  exact hexpands.notices_eq hexpands'

end Graph

/-!
# Assignments

An assignment that a walk comes to stands in the walk as a whole, its value in front of its target.
So it is recorded in one piece, too.
-/

inductive Piece.ComesTo (config : Config) : Piece -> Role -> Expr -> Prop where
  | self {e : Expr} :
      ComesTo config (.expr e) .value e
  | part {p : Piece} {role inner : Role} {e c : Expr} :
      ComesTo config p role e -> (inner, c) ∈ e.parts config role -> ComesTo config p inner c
  | child {p c : Piece} {role : Role} {e : Expr} :
      (forall whole, p ≠ .expr whole) -> c ∈ p.children -> ComesTo config c role e ->
      ComesTo config p role e

theorem Piece.ComesTo.exists_events_eq {config : Config} {p : Piece} {role : Role} {e : Expr}
    (h : p.ComesTo config role e) :
    exists before after, p.events config = before ++ e.events config role ++ after := by
  induction h with
  | self => exact ⟨[], [], (List.append_nil _).symm⟩
  | part _ hpart ih =>
      rename_i role inner e c _
      rcases ih with ⟨before, after, hevents⟩
      rcases exists_flatMap_eq_of_mem (f := fun part => part.2.events config part.1) hpart with
        ⟨first, last, hparts⟩
      refine ⟨before ++ first, last ++ e.ownEvents role ++ after, ?_⟩
      rw [hevents, e.events_eq_parts, hparts]
      simp only [List.append_assoc]
  | child hpiece hchild _ ih =>
      rename_i p c role e _
      rcases ih with ⟨before, after, hevents⟩
      rcases exists_flatMap_eq_of_mem (f := Piece.events config) hchild with ⟨first, last, hparts⟩
      rcases p.isExpr_or_events_eq_flatMap with ⟨whole, hwhole⟩ | heq
      · exact absurd hwhole (hpiece whole)
      · refine ⟨first ++ before, after ++ last, ?_⟩
        rw [heq, hparts, hevents]
        simp only [List.append_assoc]

namespace Expr

/-- What an assignment does to its target: it stores to it, or nothing if the target is nested and
nested targets are not tracked. -/
def Stores (config : Config) (target : Expr) (events : List Event) : Prop :=
  Walks config (.store target) events ∨
    target.ident? = none ∧ config.trackNestedWrites = false ∧ events = []

theorem exists_events_of_assign (config : Config) (target : Expr) (op : AssignOp) (value : Expr)
    (note : Note) (role : Role) :
    exists first last, (assign target op value note).events config role = first ++ last ∧
      Walks config (.visit (.expr value)) first ∧ target.Stores config last := by
  have hvalue := (Piece.walked config (.expr value)).visit
  have htarget := (Piece.walked config (.expr target)).store target rfl
  by_cases htracked : target.ident? = none -> config.trackNestedWrites = true
  · exact ⟨_, _, Piece.events_assign htracked op value note, hvalue, .inl htarget⟩
  · rw [Classical.not_imp, Bool.not_eq_true] at htracked
    refine ⟨_, [], ?_, hvalue, .inr ⟨htracked.1, htracked.2, rfl⟩⟩
    rw [List.append_nil]
    exact Piece.events_assign_untracked htracked.1 htracked.2 op value note

end Expr

namespace Graph

/-- An assignment is recorded in one piece: what its value records, and then what storing to its
target records. -/
def RecordsAssignment (g : Graph) (s : Store) (config : Config) (linearization : List ContractId)
    (path : List NodeId) (target value : Expr) (notices : List Notice) : Prop :=
  exists before first last after valueEvents targetEvents valueEdges targetEdges,
    notices = before ++ first ++ last ++ after ∧
    Walks config (.visit (.expr value)) valueEvents ∧ target.Stores config targetEvents ∧
    g.Expands s config linearization path valueEvents valueEdges first ∧
    g.Expands s config linearization path targetEvents targetEdges last

theorem ExpandsAt.recordsAssignment {g : Graph} {s : Store} {config : Config}
    {linearization : List ContractId} {path : List NodeId} {n : NodeId} {notices : List Notice}
    (h : g.ExpandsAt s config linearization path n notices) {d : Definition}
    (hd : g.definition n = .ok d) {code : List Piece} (hcode : s.code d = .ok code) {p : Piece}
    (hp : p ∈ code) {role : Role} {target value : Expr} {op : AssignOp} {note : Note}
    (hcomes : p.ComesTo config role (.assign target op value note)) :
    g.RecordsAssignment s config linearization (n :: path) target value notices := by
  rcases h with ⟨node, code', events, hnode, hcode', hwalks, hexpands⟩
  rcases bind_pure_eq_ok_iff.mp hd with ⟨node', hnode', rfl⟩
  cases hnode.symm.trans hnode'
  cases hcode.symm.trans hcode'
  rw [walks_visitAll_iff] at hwalks
  rcases exists_flatMap_eq_of_mem (f := Piece.events config) hp with ⟨_, _, hpiece⟩
  rcases hcomes.exists_events_eq with ⟨_, _, hassign⟩
  rcases Expr.exists_events_of_assign config target op value note role with
    ⟨first, last, hsplit, hvalue, htarget⟩
  rw [hwalks, hpiece, hassign, hsplit] at hexpands
  simp only [List.append_assoc] at hexpands
  rcases hexpands.exists_of_append with ⟨_, _, written, _, _, rfl, _, hexpands⟩
  rcases hexpands.exists_of_append with ⟨_, _, around, _, _, rfl, _, hexpands⟩
  rcases hexpands.exists_of_append with ⟨_, _, before, _, _, rfl, _, hexpands⟩
  rcases hexpands.exists_of_append with ⟨valueEdges, _, read, _, _, rfl, hfirst, hexpands⟩
  rcases hexpands.exists_of_append with ⟨targetEdges, _, stored, after, _, rfl, hlast, _⟩
  refine ⟨written ++ around ++ before, read, stored, after, first, last, valueEdges, targetEdges,
    ?_, hvalue, htarget, hfirst, hlast⟩
  simp only [List.append_assoc]

end Graph
end CallForest
