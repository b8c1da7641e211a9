import CallForest.Proofs.Parentheses
import CallForest.Proofs.Skeleton

/-!
# Redundant parentheses

Where nested writes are tracked, parentheses around a subexpression change nothing in an analysis,
except around the base of a chain of accesses that is assigned to. There a write of the variable is
lost and a read of it is found in its place, in every node of the code. Calls and warnings stay as
they are.
-/

namespace CallForest

/-- A store becomes another one when a subexpression in the code of a definition is put into
parentheses. -/
inductive Store.Parenthesizes (sub : Expr) (hole : Role) (s : Store) : Definition -> Store -> Prop where
  | body {f : FunctionId} {decl : FunctionDecl} {before after : List Stmt} {st st' : Stmt} :
      s.function f = .ok decl -> decl.body = some (before ++ st :: after) ->
      Stmt.Wraps sub hole st st' ->
      Parenthesizes sub hole s (.function f)
        (s.replace f { decl with body := some (before ++ st' :: after) }).2
  | value {v : StateVariableId} {decl : StateVariableDecl} {e e' : Expr} :
      s.stateVariable v = .ok decl -> decl.value = some e -> Expr.Wraps sub hole .value e e' ->
      Parenthesizes sub hole s (.stateVariable v) (s.replace v { decl with value := some e' }).2

def Node.ReadsInstead (v : StateVariableId) (n n' : Node) : Prop :=
  exists firstReads lastReads firstWrites lastWrites,
    n.reads = firstReads ++ lastReads ∧ n.writes = firstWrites ++ v :: lastWrites ∧
    n' = { n with reads := firstReads ++ v :: lastReads, writes := firstWrites ++ lastWrites }

/-- An analysis differs from another one in the nodes of a definition, which read a variable instead
of writing it. They may write it as before if arguments of calls are passed over. -/
structure Analysis.ReadsInstead (config : Config) (d : Definition) (v : StateVariableId)
    (a a' : Analysis) : Prop where
  roots_eq : a'.graph.roots = a.graph.roots
  size_eq : a'.graph.size = a.graph.size
  warnings_eq : a'.warnings = a.warnings
  others : forall id n, a.graph.node id = .ok n -> n.definition ≠ d -> a'.graph.node id = .ok n
  nodes : forall id n, a.graph.node id = .ok n -> n.definition = d ->
    exists n', a'.graph.node id = .ok n' ∧
      (n.ReadsInstead v n' ∨ config.trackCallArguments = false ∧ n' = n)

/-!
# Events
-/

section

variable {config : Config} {sub : Expr} {hole : Role} {es es' : List Event}

theorem Alters.sameCalls (h : Alters config sub hole es es') : SameCalls es es' := by
  rcases h with ⟨rfl, _⟩ | ⟨v, _, _, before, inner, after, rfl, rfl⟩
  · rfl
  · simp [SameCalls, Event.isCall]

theorem Alters.accessed_subset (h : Alters config sub hole es es') :
    es'.filterMap Event.accessed? ⊆ es.filterMap Event.accessed? := by
  rcases h with ⟨rfl, _⟩ | ⟨v, _, _, before, inner, after, rfl, rfl⟩
  · exact List.Subset.refl _
  · intro w hw
    simp only [List.filterMap_append, List.filterMap_cons, Event.accessed?, List.mem_append,
      List.mem_cons] at hw ⊢
    rcases hw with hbefore | rfl | hinner | hafter
    · exact Or.inl hbefore
    · exact Or.inr (Or.inr (Or.inl rfl))
    · exact Or.inr (Or.inl hinner)
    · exact Or.inr (Or.inr (Or.inr hafter))

end

theorem FunctionDecl.alters {config : Config} (hwrites : config.trackNestedWrites = true)
    {sub : Expr} {hole : Role} {decl : FunctionDecl} {before after : List Stmt} {st st' : Stmt}
    (hbody : decl.body = some (before ++ st :: after)) (h : Stmt.Wraps sub hole st st') :
    Alters config sub hole (decl.events config)
      (FunctionDecl.events { decl with body := some (before ++ st' :: after) } config) := by
  rw [events, hbody, events]
  show Alters config sub hole (Stmt.eventsOfBlock config _) (Stmt.eventsOfBlock config _)
  rw [Stmt.eventsOfBlock_eq_flatMap, Stmt.eventsOfBlock_eq_flatMap]
  exact (h.alters hwrites).flatMap before after

theorem StateVariableDecl.alters {config : Config} (hwrites : config.trackNestedWrites = true)
    {sub : Expr} {hole : Role} {decl : StateVariableDecl} {e e' : Expr}
    (hvalue : decl.value = some e) (h : Expr.Wraps sub hole .value e e') (v : StateVariableId) :
    Alters config sub hole (decl.events config v)
      (StateVariableDecl.events { decl with value := some e' } config v) := by
  rw [events, hvalue, events]
  exact (h.alters hwrites).append_left [.write v]

/-!
# Stores
-/

namespace Store

def ParenthesizedEvents (config : Config) (sub : Expr) (hole : Role) (changed : Definition)
    (d : Definition) (es es' : List Event) : Prop :=
  d = changed ∧ Alters config sub hole es es' ∨ d ≠ changed ∧ es' = es

theorem Parenthesizes.recodes {config : Config} (hwrites : config.trackNestedWrites = true)
    {sub : Expr} {hole : Role} {s s' : Store} {changed : Definition}
    (h : s.Parenthesizes sub hole changed s') :
    Recodes config (ParenthesizedEvents config sub hole changed) s s' := by
  have hothers : forall d es, d ≠ changed -> ParenthesizedEvents config sub hole changed d es es :=
    fun _ _ hne => Or.inr ⟨hne, rfl⟩
  cases h with
  | body hdecl hbody hwraps =>
      exact .of_body hothers hdecl (Or.inl ⟨rfl, FunctionDecl.alters hwrites hbody hwraps⟩)
  | value hdecl hvalue hwraps =>
      exact .of_value hothers hdecl (Or.inl ⟨rfl, StateVariableDecl.alters hwrites hvalue hwraps _⟩)

section

variable {config : Config} {sub : Expr} {hole : Role} {changed d : Definition}
  {es es' : List Event} (h : ParenthesizedEvents config sub hole changed d es es')

include h

theorem ParenthesizedEvents.sameCalls : SameCalls es es' := by
  rcases h with ⟨_, halters⟩ | ⟨_, rfl⟩
  · exact halters.sameCalls
  · rfl

theorem ParenthesizedEvents.accessed_subset :
    es'.filterMap Event.accessed? ⊆ es.filterMap Event.accessed? := by
  rcases h with ⟨_, halters⟩ | ⟨_, rfl⟩
  · exact halters.accessed_subset
  · exact List.Subset.refl _

theorem ParenthesizedEvents.eq_of_no_base (hnobase : hole = .location -> sub.baseVariable? = none) :
    es' = es := by
  rcases h with ⟨_, ⟨heq, _⟩ | ⟨v, hhole, hbase, _⟩⟩ | ⟨_, heq⟩
  · exact heq
  · cases (hnobase hhole).symm.trans hbase
  · exact heq

end

end Store

/-!
# Analyses
-/

namespace Node

section

variable {n n' : Node} {es es' : List Event} (hskeleton : n'.skeleton = n.skeleton)
  (hreads : n.reads = es.filterMap Event.read?) (hwrites : n.writes = es.filterMap Event.write?)
  (hreads' : n'.reads = es'.filterMap Event.read?)
  (hwrites' : n'.writes = es'.filterMap Event.write?)

include hskeleton hreads hwrites hreads' hwrites'

theorem eq_of_events_eq (h : es' = es) : n' = n := by
  rcases skeleton_eq_iff.mp hskeleton with ⟨hdefinition, hcalls⟩
  rw [h, ← hreads] at hreads'
  rw [h, ← hwrites] at hwrites'
  cases n
  cases n'
  simp_all only

theorem readsInstead_of_becomesRead {v : StateVariableId} (h : BecomesRead v es es') :
    n.ReadsInstead v n' := by
  rcases h with ⟨before, inner, after, rfl, rfl⟩
  simp only [List.filterMap_append, List.filterMap_cons, Event.read?] at hreads hreads'
  simp only [List.filterMap_append, List.filterMap_cons, Event.write?, ← List.append_assoc]
    at hwrites hwrites'
  refine ⟨_, _, _, _, hreads, hwrites, ?_⟩
  rw [← hreads', ← hwrites']
  rcases skeleton_eq_iff.mp hskeleton with ⟨hdefinition, hcalls⟩
  rw [← hdefinition, ← hcalls]

end

end Node

theorem Analysis.HasCallsOf.readsInstead {config : Config} {sub : Expr} {v : StateVariableId}
    {d : Definition} (hbase : sub.baseVariable? = some v) {a a' : Analysis}
    (h : a.HasCallsOf (Store.ParenthesizedEvents config sub .location d) a') :
    a.ReadsInstead config d v a' where
  roots_eq := by
    have hroots : a'.graph.skeleton.roots = a.graph.skeleton.roots :=
      congrArg Graph.roots h.skeleton_eq
    exact hroots
  size_eq := by
    have hsize := congrArg Graph.size h.skeleton_eq
    simpa [Graph.skeleton, Graph.size] using hsize
  warnings_eq := h.warnings_eq
  others := by
    intro id n hnode hother
    rcases Graph.exists_node_of_skeleton_eq h.skeleton_eq hnode with ⟨n', hnode', hskeleton⟩
    rcases h.effects id n n' hnode hnode' with
      ⟨es, es', ⟨hd, _⟩ | ⟨_, heq⟩, hreads, hwrites, hreads', hwrites'⟩
    · exact absurd hd hother
    · rw [hnode', Node.eq_of_events_eq hskeleton hreads hwrites hreads' hwrites' heq]
  nodes := by
    intro id n hnode hd
    rcases Graph.exists_node_of_skeleton_eq h.skeleton_eq hnode with ⟨n', hnode', hskeleton⟩
    refine ⟨n', hnode', ?_⟩
    rcases h.effects id n n' hnode hnode' with
      ⟨es, es', ⟨_, ⟨heq, hnobase⟩ | ⟨w, _, hw, hread⟩⟩ | ⟨hother, _⟩, hreads, hwrites, hreads',
        hwrites'⟩
    · refine Or.inr ⟨?_, Node.eq_of_events_eq hskeleton hreads hwrites hreads' hwrites' heq⟩
      rw [Bool.eq_false_iff]
      intro harguments
      cases (hnobase harguments rfl).symm.trans hbase
    · cases hbase.symm.trans hw
      exact Or.inl (Node.readsInstead_of_becomesRead hskeleton hreads hwrites hreads' hwrites' hread)
    · exact absurd hd hother

/-- Where nested writes are tracked, parentheses change an analysis only around the base of a chain
that is assigned to. -/
theorem redundant_parentheses {config : Config} (hwrites : config.trackNestedWrites = true)
    {sub : Expr} {hole : Role} {s s' : Store} {d : Definition}
    (h : s.Parenthesizes sub hole d s') (create : Text.Path -> Except String Unit)
    (id : ContractId) :
    ((hole = .location -> sub.baseVariable? = none) -> forall before,
      Analyzing.runIn before (analyzeContract create s' config id) =
        Analyzing.runIn before (analyzeContract create s config id)) ∧
    forall v a, hole = .location -> sub.baseVariable? = some v ->
      Analyzes create s config id a ->
      exists a', Analyzes create s' config id a' ∧ a.ReadsInstead config d v a' := by
  have hrecodes := h.recodes hwrites
  constructor
  · intro hnobase before
    have hsame : Store.Recodes config (fun _ es es' => es' = es) s s' :=
      hrecodes.imp fun _ _ _ hevents => hevents.eq_of_no_base hnobase
    rw [Analyzing.runIn_analyzeContract, Analyzing.runIn_analyzeContract, hsame.run_eq]
  · rintro v a rfl hbase hanalyzes
    rcases hrecodes.exists_run (fun _ _ _ hevents => hevents.accessed_subset)
      (fun _ _ _ hevents => hevents.sameCalls) (analyzes_iff_run_eq_ok.mp hanalyzes) with
      ⟨a', hrun, hcalls⟩
    exact ⟨a', analyzes_iff_run_eq_ok.mpr hrun, hcalls.readsInstead hbase⟩

/-!
# An element of a stored array

The constructor of `C` assigns to the first element of `xs`.
-/

namespace StoredElement

def config : Config where
  trackNestedWrites := true
  trackCallArguments := true

def array : Expr :=
  .name (.named "xs") (.stateVariable ⟨0⟩) ⟨.array (.uint 256) none, .dummy⟩

def number (text : String) : Expr :=
  .literal (.number text) ⟨.uint 256, .dummy⟩

def element (base : Expr) : Expr :=
  .index base (some (number "0")) ⟨.uint 256, .dummy⟩

def assignment (target : Expr) : Expr :=
  .assign target .plain (number "1") ⟨.uint 256, .dummy⟩

def store (target : Expr) : Store where
  functions := { entries := #[
    Cycle.function "" .constructor false [.expr (assignment target)]] }
  stateVariables := { entries := #[
    ⟨.named "xs", .array (.uint 256) none, none, false, .dummy⟩] }
  contracts := { entries := #[
    ⟨.named "C", [⟨0⟩], some ⟨0⟩, [], [⟨0⟩], .dummy⟩] }

def graph (reads writes : List StateVariableId) : Graph where
  nodes := #[
    ⟨.function ⟨0⟩, [], reads, writes⟩,
    ⟨.stateVariable ⟨0⟩, [], [], [⟨0⟩]⟩]
  roots := [⟨0⟩, ⟨1⟩]

theorem parenthesizes {sub target target' : Expr} {hole : Role}
    (h : Expr.Wraps sub hole .target target target') :
    (store target).Parenthesizes sub hole (.function ⟨0⟩) (store target') := by
  have hbody : (store target).function ⟨0⟩ =
      .ok (Cycle.function "" .constructor false ([] ++ .expr (assignment target) :: [])) := rfl
  exact .body hbody rfl (.expr (.target h))

theorem exists_analyzes (target : Expr) (course : Course)
    (h : (store target).Unrolls config [⟨0⟩] [.function ⟨0⟩]
      ((Cycle.function "" .constructor false [.expr (assignment target)]).events config) course) :
    exists a, Analyzes (fun _ => .ok ()) (store target) config ⟨0⟩ a ∧
      a.graph = Graph.ofEntryPoints [
        .constructor (.named "C") ⟨0⟩ (.named "") course,
        .stateVariable (.named "xs") ⟨0⟩ (.write ⟨0⟩ .done)] := by
  have hconstructor : (store target).constructorEntry config [⟨0⟩] ⟨0⟩ = .ok _ :=
    Store.constructorEntry_of_unrolls rfl rfl rfl h
  have hvariable : (store target).stateVariableEntry config [⟨0⟩] ⟨0⟩ = .ok _ :=
    Store.stateVariableEntry_of_unrolls rfl (.write .done)
  refine exists_analyzes_of_entryPoints rfl rfl ?_ rfl
  simp only [Store.entryPoints, bind_eq_ok_iff, mapM_eq_ok_iff, pure_eq_ok_iff]
  exact ⟨_, .cons hconstructor .nil, _, rfl, _, .cons hvariable .nil, rfl⟩

theorem exists_analyzes_element : exists a,
    Analyzes (fun _ => .ok ()) (store (element array)) config ⟨0⟩ a ∧ a.graph = graph [] [⟨0⟩] :=
  exists_analyzes (element array) (.write ⟨0⟩ .done) (.write .done)

theorem exists_analyzes_parenthesized : exists a,
    Analyzes (fun _ => .ok ()) (store (element array.parenthesize)) config ⟨0⟩ a ∧
      a.graph = graph [⟨0⟩] [] :=
  exists_analyzes (element array.parenthesize) (.read ⟨0⟩ .done) (.read .done)

theorem redundant_parentheses_of_element :
    config.trackNestedWrites = true ∧
    (store (element array)).Parenthesizes array .location (.function ⟨0⟩)
      (store (element array.parenthesize)) ∧
    array.baseVariable? = some ⟨0⟩ ∧
    (exists a a', Analyzes (fun _ => .ok ()) (store (element array)) config ⟨0⟩ a ∧
      Analyzes (fun _ => .ok ()) (store (element array.parenthesize)) config ⟨0⟩ a' ∧
      a.ReadsInstead config (.function ⟨0⟩) ⟨0⟩ a') ∧
    (store (element array)).Parenthesizes (element array) .target (.function ⟨0⟩)
      (store (element array).parenthesize) ∧
    forall before,
      Analyzing.runIn before
          (analyzeContract (fun _ => .ok ()) (store (element array).parenthesize) config ⟨0⟩) =
        Analyzing.runIn before
          (analyzeContract (fun _ => .ok ()) (store (element array)) config ⟨0⟩) := by
  have hbase : (store (element array)).Parenthesizes array .location (.function ⟨0⟩)
      (store (element array.parenthesize)) := parenthesizes (.indexBase .here)
  have htarget : (store (element array)).Parenthesizes (element array) .target (.function ⟨0⟩)
      (store (element array).parenthesize) := parenthesizes .here
  rcases exists_analyzes_element with ⟨a, ha, _⟩
  rcases (redundant_parentheses rfl hbase (fun _ => .ok ()) ⟨0⟩).2 ⟨0⟩ a rfl rfl ha with
    ⟨a', ha', hreads⟩
  refine ⟨rfl, hbase, rfl, ⟨a, a', ha, ha', hreads⟩, htarget, ?_⟩
  exact (redundant_parentheses rfl htarget (fun _ => .ok ()) ⟨0⟩).1 fun hrole => by cases hrole

/-- With parentheses around the array, the constructor does not write it any more. -/
theorem parenthesized_array_is_not_written :
    config.trackNestedWrites = true ∧
    (store (element array)).Parenthesizes array .location (.function ⟨0⟩)
      (store (element array.parenthesize)) ∧
    exists a a', Analyzes (fun _ => .ok ()) (store (element array)) config ⟨0⟩ a ∧
      Analyzes (fun _ => .ok ()) (store (element array.parenthesize)) config ⟨0⟩ a' ∧
      a.graph = graph [] [⟨0⟩] ∧ a'.graph = graph [⟨0⟩] [] ∧ a'.graph ≠ a.graph := by
  rcases exists_analyzes_element with ⟨a, ha, hgraph⟩
  rcases exists_analyzes_parenthesized with ⟨a', ha', hgraph'⟩
  refine ⟨rfl, parenthesizes (.indexBase .here), a, a', ha, ha', hgraph, hgraph', ?_⟩
  rw [hgraph, hgraph']
  decide

end StoredElement
end CallForest
