import CallForest.Proofs.Completeness
import CallForest.Proofs.Drawing
import CallForest.Proofs.HeldCode
import CallForest.Proofs.Roots

/-!
# Where an analysis can fail

An analysis looks its contract up, and then the numbers that stand in what it has looked up before. This
is all that can fail in it: neither the unrolling nor the drawing has faults of its own. So where the
declarations refer to known numbers only, the analysis of a known contract fails only where the lookup
of a known number does.
-/

namespace CallForest

def FailsOnly {alpha : Type} (faults : Fault -> Prop) (x : Except Fault alpha) : Prop :=
  forall fault, x = .error fault -> faults fault

/-!
# Computations in several steps
-/

namespace FailsOnly

variable {faults : Fault -> Prop} {alpha beta : Type}

theorem ok (a : alpha) : FailsOnly faults (.ok a) := by
  intro fault h
  cases h

theorem bind {x : Except Fault alpha} {f : alpha -> Except Fault beta} (hx : FailsOnly faults x)
    (hf : forall a, x = .ok a -> FailsOnly faults (f a)) : FailsOnly faults (x >>= f) := by
  cases x with
  | error fault =>
      intro found h
      cases h
      exact hx fault rfl
  | ok a => exact hf a rfl

theorem bind_pure {x : Except Fault alpha} (hx : FailsOnly faults x) (f : alpha -> beta) :
    FailsOnly faults (x >>= fun a => pure (f a)) :=
  hx.bind fun a _ => ok (f a)

theorem mapM {f : alpha -> Except Fault beta} {xs : List alpha}
    (h : forall x, x ∈ xs -> FailsOnly faults (f x)) : FailsOnly faults (xs.mapM f) := by
  induction xs with
  | nil => exact ok []
  | cons x xs ih =>
      rw [List.forall_mem_cons] at h
      rw [List.mapM_cons]
      exact h.1.bind fun y _ => (ih h.2).bind_pure (y :: ·)

end FailsOnly

/-!
# Known numbers
-/

section

variable (known : forall kind, DeclId kind -> Prop)

def Referent.IsKnown : Referent -> Prop
  | .stateVariable id => known .stateVariable id
  | .function id => known .function id
  | .contract id => known .contract id
  | _ => True

def Definition.IsKnown : Definition -> Prop
  | .function id => known .function id
  | .stateVariable id => known .stateVariable id
  | .implicitConstructor id => known .contract id

def Event.IsKnown : Event -> Prop
  | .read v => known .stateVariable v
  | .write v => known .stateVariable v
  | .call declared _ => known .function declared

structure Node.IsKnown (n : Node) : Prop where
  definition : n.definition.IsKnown known
  reads : forall v, v ∈ n.reads -> known .stateVariable v
  writes : forall v, v ∈ n.writes -> known .stateVariable v

/-- What an expression itself refers to: a name to its declaration, and a call to the declaration that
the type of its callee names. -/
def Expr.referent? : Expr -> Option Referent
  | .name _ referent _ => some referent
  | .call callee _ _ =>
      match callee.type with
      | .function _ _ declaration => declaration
      | _ => none
  | _ => none

def Expr.IsKnown (e : Expr) : Prop :=
  forall referent, referent ∈ e.referent? -> referent.IsKnown known

structure ContractDecl.IsKnown (c : ContractDecl) : Prop where
  linearization : forall id, id ∈ c.linearization -> known .contract id
  constructor : forall f, f ∈ c.constructor -> known .function f
  functions : forall f, f ∈ c.functions -> known .function f
  stateVariables : forall v, v ∈ c.stateVariables -> known .stateVariable v

/-- The declarations of a store refer to known numbers only. -/
structure Store.ClosedUnder (s : Store) : Prop where
  contracts : forall {id contract}, s.contract id = .ok contract -> contract.IsKnown known
  expressions : forall {d e}, s.Holds d e -> e.IsKnown known

end

section

variable {s : Store} {known : forall kind, DeclId kind -> Prop}

namespace Store

theorem ClosedUnder.isKnown_of_mem_eventsOf (h : s.ClosedUnder known) {config : Config}
    {d : Definition} (hd : d.IsKnown known) {events : List Event}
    (hevents : s.eventsOf config d = .ok events) : forall event, event ∈ events ->
      event.IsKnown known := by
  intro event hevent
  rcases exists_of_mem_eventsOf hevents hevent with ⟨v, rfl, rfl⟩ | ⟨e, hholds, hcomes⟩
  · exact hd
  · cases hcomes with
    | read => exact h.expressions hholds _ rfl
    | write => exact h.expressions hholds _ rfl
    | call hf =>
        rcases declaredFunction?_eq_some_iff.mp hf with ⟨parameters, returns, htype⟩
        refine h.expressions hholds (.function _) ?_
        rw [Expr.referent?, htype]
        exact rfl

theorem ClosedUnder.isKnown_of_mem_events (h : s.ClosedUnder known) {f : FunctionId}
    (hf : known .function f) {decl : FunctionDecl} (hdecl : s.function f = .ok decl)
    (config : Config) : forall event, event ∈ decl.events config -> event.IsKnown known :=
  h.isKnown_of_mem_eventsOf (d := .function f) hf (eventsOf_function hdecl)

theorem ClosedUnder.known_of_inheritedStateVariables (h : s.ClosedUnder known)
    {linearization : List ContractId} {ids : List StateVariableId}
    (hids : s.inheritedStateVariables linearization = .ok ids) :
    forall v, v ∈ ids -> known .stateVariable v := by
  rcases bind_pure_eq_ok_iff.mp hids with ⟨contracts, hcontracts, rfl⟩
  intro v hv
  rcases List.mem_flatMap.mp hv with ⟨contract, hmem, hv⟩
  rcases exists_of_mem_mapM hcontracts hmem with ⟨id, hcontract⟩
  exact (h.contracts hcontract).stateVariables v hv

/-!
# Dispatch
-/

theorem mem_of_findOverride {f : FunctionDecl} {ids : List FunctionId} {found : FunctionId}
    (h : s.findOverride f ids = .ok (some found)) : found ∈ ids := by
  induction ids with
  | nil => cases h
  | cons id ids ih =>
      rcases bind_eq_ok_iff.mp h with ⟨candidate, _, h⟩
      split at h
      · cases h
        exact List.mem_cons_self
      · exact List.mem_cons_of_mem _ (ih h)

theorem ClosedUnder.known_of_findOverrideAlong (h : s.ClosedUnder known) {f : FunctionDecl}
    {ids : List ContractId} {found : FunctionId}
    (hfound : s.findOverrideAlong f ids = .ok (some found)) : known .function found := by
  induction ids with
  | nil => cases hfound
  | cons id ids ih =>
      rcases bind_eq_ok_iff.mp hfound with ⟨contract, hcontract, hfound⟩
      rcases bind_eq_ok_iff.mp hfound with ⟨outcome, houtcome, hfound⟩
      cases outcome with
      | some found =>
          cases hfound
          exact (h.contracts hcontract).functions found (mem_of_findOverride houtcome)
      | none => exact ih hfound

theorem ClosedUnder.known_of_finalOverride (h : s.ClosedUnder known)
    {linearization : List ContractId} {declared target : FunctionId}
    (hdeclared : known .function declared)
    (htarget : s.finalOverride linearization declared = .ok target) : known .function target := by
  rcases bind_eq_ok_iff.mp htarget with ⟨f, _, htarget⟩
  split at htarget
  · rcases bind_pure_eq_ok_iff.mp htarget with ⟨found, hfound, rfl⟩
    cases found with
    | none => exact hdeclared
    | some found => exact h.known_of_findOverrideAlong hfound
  · cases htarget
    exact hdeclared

variable {faults : Fault -> Prop} (hclosed : s.ClosedUnder known)
  (hlookup : forall kind (id : DeclId kind), known kind id -> FailsOnly faults (s.get id))

include hlookup

theorem failsOnly_findOverride (f : FunctionDecl) {ids : List FunctionId}
    (hids : forall id, id ∈ ids -> known .function id) :
    FailsOnly faults (s.findOverride f ids) := by
  induction ids with
  | nil => exact .ok none
  | cons id ids ih =>
      rw [List.forall_mem_cons] at hids
      refine (hlookup .function id hids.1).bind ?_
      intro candidate _
      split
      · exact .ok (some id)
      · exact ih hids.2

include hclosed

theorem failsOnly_findOverrideAlong (f : FunctionDecl) {ids : List ContractId}
    (hids : forall id, id ∈ ids -> known .contract id) :
    FailsOnly faults (s.findOverrideAlong f ids) := by
  induction ids with
  | nil => exact .ok none
  | cons id ids ih =>
      rw [List.forall_mem_cons] at hids
      refine (hlookup .contract id hids.1).bind ?_
      intro contract hcontract
      refine (failsOnly_findOverride hlookup f (hclosed.contracts hcontract).functions).bind ?_
      intro found _
      cases found with
      | some id => exact .ok (some id)
      | none => exact ih hids.2

variable {linearization : List ContractId}
  (hlinearization : forall id, id ∈ linearization -> known .contract id)

include hlinearization

theorem failsOnly_finalOverride {id : FunctionId} (hid : known .function id) :
    FailsOnly faults (s.finalOverride linearization id) := by
  refine (hlookup .function id hid).bind ?_
  intro f _
  split
  · exact (failsOnly_findOverrideAlong hclosed hlookup f hlinearization).bind_pure _
  · exact .ok id

/-!
# Unrolling
-/

theorem failsOnly_unroll (config : Config) (path : List Definition) (events : List Event)
    (hevents : forall event, event ∈ events -> event.IsKnown known) :
    FailsOnly faults (s.unroll config linearization path events) := by
  induction path, events using unroll.induct s config linearization with
  | case1 path =>
      rw [unroll]
      exact .ok Course.done
  | case2 path v events ih =>
      rw [unroll]
      exact (ih (List.forall_mem_cons.mp hevents).2).bind_pure _
  | case3 path v events ih =>
      rw [unroll]
      exact (ih (List.forall_mem_cons.mp hevents).2).bind_pure _
  | case4 path declared span events fault hfault =>
      have hdeclared : known .function declared := (List.forall_mem_cons.mp hevents).1
      rw [unroll_call]
      refine (failsOnly_finalOverride hclosed hlookup hlinearization hdeclared).bind ?_
      intro target htarget
      rw [hfault] at htarget
      cases htarget
  | case5 path declared span events target htarget fault hfault =>
      have hdeclared : known .function declared := (List.forall_mem_cons.mp hevents).1
      rw [unroll_call, htarget]
      refine (hlookup .function target (hclosed.known_of_finalOverride hdeclared htarget)).bind ?_
      intro f hf
      cases hfault.symm.trans hf
  | case6 path declared span events target htarget f hf hmem ih =>
      rw [unroll_call_eq htarget hf, if_pos hmem]
      exact (ih (List.forall_mem_cons.mp hevents).2).bind_pure _
  | case7 path declared span events target htarget f hf hfresh hdepth ih =>
      rw [unroll_call_eq htarget hf, if_neg hfresh, if_pos hdepth]
      exact (ih (List.forall_mem_cons.mp hevents).2).bind_pure _
  | case8 path declared span events target htarget f hf hfresh hdepth ihBody ihRest =>
      rcases List.forall_mem_cons.mp hevents with ⟨hdeclared, hrest⟩
      have htargetKnown := hclosed.known_of_finalOverride hdeclared htarget
      have hinner := hclosed.isKnown_of_mem_events htargetKnown hf config
      rw [unroll_call_eq htarget hf, if_neg hfresh, if_neg hdepth]
      exact (ihBody hinner).bind fun _ _ => (ihRest hrest).bind_pure _

/-!
# Entry points
-/

theorem failsOnly_constructorEntry (config : Config) {id : ContractId}
    (hid : known .contract id) :
    FailsOnly faults (s.constructorEntry config linearization id) := by
  refine (hlookup .contract id hid).bind ?_
  intro contract hcontract
  split
  · next f hf =>
      have hknown := (hclosed.contracts hcontract).constructor f hf
      refine (hlookup .function f hknown).bind ?_
      intro decl hdecl
      exact (failsOnly_unroll hclosed hlookup hlinearization config _ _
        (hclosed.isKnown_of_mem_events hknown hdecl config)).bind_pure _
  · split
    · exact .ok _
    · exact .ok _

theorem failsOnly_stateVariableEntry (config : Config) {id : StateVariableId}
    (hid : known .stateVariable id) :
    FailsOnly faults (s.stateVariableEntry config linearization id) := by
  refine (hlookup .stateVariable id hid).bind ?_
  intro decl hdecl
  have hevents : s.eventsOf config (.stateVariable id) = .ok (decl.events config id) :=
    bind_pure_eq_ok_iff.mpr ⟨decl, hdecl, rfl⟩
  exact (failsOnly_unroll hclosed hlookup hlinearization config _ _
    (hclosed.isKnown_of_mem_eventsOf (d := .stateVariable id) hid hevents)).bind_pure _

theorem failsOnly_entryPoints (config : Config) :
    FailsOnly faults (s.entryPoints config linearization) := by
  have hconstructors : FailsOnly faults
      (linearization.reverse.mapM (s.constructorEntry config linearization)) := by
    refine .mapM fun id hid => ?_
    exact failsOnly_constructorEntry hclosed hlookup hlinearization config
      (hlinearization id (List.mem_reverse.mp hid))
  have hstored : FailsOnly faults (s.inheritedStateVariables linearization) :=
    (FailsOnly.mapM fun id hid => hlookup .contract id (hlinearization id hid)).bind_pure _
  refine hconstructors.bind fun constructors _ => hstored.bind fun stored hstored => ?_
  refine FailsOnly.bind_pure (.mapM fun id hid => ?_) _
  exact failsOnly_stateVariableEntry hclosed hlookup hlinearization config
    (hclosed.known_of_inheritedStateVariables hstored id hid)

omit hlookup

/-!
# Known nodes

What the roots execute is known, and what an execution calls is found from its events. So the nodes
of the graph are known.
-/

theorem isKnown_of_mem_plan {config : Config} {entries : List EntryPoint}
    (h : s.entryPoints config linearization = .ok entries) {d : Definition}
    (hd : d ∈ (entries.filterMap EntryPoint.root?).map Prod.fst) : d.IsKnown known := by
  rcases exists_linearized_of_entryPoints h with ⟨bases, hbases, hroots, _⟩
  rcases linearized_eq_ok_iff.mp hbases with ⟨rfl, hstored⟩
  rw [hroots, List.mem_append, List.mem_filterMap, List.mem_map] at hd
  rcases hd with ⟨base, hbase, hroot⟩ | ⟨v, hv, rfl⟩
  · have hbase := List.mem_reverse.mp hbase
    rw [Config.constructorRoot?] at hroot
    split at hroot
    · next f hf =>
        cases hroot
        exact (hclosed.contracts (hstored base hbase)).constructor f hf
    · cases hroot
      exact hlinearization base.1 (List.mem_map_of_mem hbase)
    · cases hroot
  · rcases List.mem_flatMap.mp hv with ⟨base, hbase, hv⟩
    exact (hclosed.contracts (hstored base hbase)).stateVariables v hv

omit hlinearization

theorem isKnown_of_mem_forest {config : Config} {roots : List Execution}
    (hunrolled : forall e, e ∈ roots -> e.Unrolled s config linearization)
    (hroots : forall e, e ∈ roots -> e.definition.IsKnown known) :
    forall e, e ∈ forest roots -> e.definition.IsKnown known := by
  refine forall_mem_forest hroots ?_
  intro e he hknown c hc
  rcases unrolled_of_mem_forest hunrolled e he with ⟨events, hevents, hunrolls⟩
  rcases hunrolls.dispatches_of_mem_callees hc with
    ⟨declared, span, target, hcall, htarget, hdefinition⟩
  rw [hdefinition]
  exact hclosed.known_of_finalOverride
    (hclosed.isKnown_of_mem_eventsOf hknown hevents _ hcall) htarget

theorem node_isKnown {config : Config} {e : Execution}
    (h : e.Unrolled s config linearization) (hknown : e.definition.IsKnown known) :
    e.node.IsKnown known := by
  rcases h with ⟨events, hevents, hunrolls⟩
  have hall := hclosed.isKnown_of_mem_eventsOf hknown hevents
  refine ⟨hknown, ?_, ?_⟩
  · intro v hv
    have hread : v ∈ events.filterMap Event.read? := hunrolls.reads_eq ▸ hv
    rcases List.mem_filterMap.mp hread with ⟨event, hevent, heq⟩
    cases Event.read?_eq_some_iff.mp heq
    exact hall _ hevent
  · intro v hv
    have hwrite : v ∈ events.filterMap Event.write? := hunrolls.writes_eq ▸ hv
    rcases List.mem_filterMap.mp hwrite with ⟨event, hevent, heq⟩
    cases Event.write?_eq_some_iff.mp heq
    exact hall _ hevent

include hlinearization

theorem isKnown_of_node_ofEntryPoints {config : Config} {entries : List EntryPoint}
    (h : s.entryPoints config linearization = .ok entries) {id : NodeId} {n : Node}
    (hn : (Graph.ofEntryPoints entries).node id = .ok n) : n.IsKnown known := by
  have hunrolled : forall e, e ∈ rootExecutions 0 (entries.filterMap EntryPoint.root?) ->
      e.Unrolled s config linearization := fun e he => unrolled_of_mem_rootExecutions h he
  have hroots : forall e, e ∈ rootExecutions 0 (entries.filterMap EntryPoint.root?) ->
      e.definition.IsKnown known := by
    intro e he
    refine isKnown_of_mem_plan hclosed hlinearization h ?_
    exact List.mem_map.mpr ⟨_, mem_plan_of_mem_rootExecutions he, rfl⟩
  rw [Graph.ofEntryPoints_eq] at hn
  rcases (Graph.node_ofExecutions_eq_ok_iff (rooted_rootExecutions _)).mp hn with
    ⟨e, he, rfl, rfl⟩
  exact node_isKnown hclosed (unrolled_of_mem_forest hunrolled e he)
    (isKnown_of_mem_forest hclosed hunrolled hroots e he)

omit hclosed hlinearization

/-!
# Drawings
-/

include hlookup

theorem failsOnly_friendlyName {d : Definition} (hd : d.IsKnown known) :
    FailsOnly faults (d.friendlyName s) := by
  cases d with
  | function id => exact (hlookup .function id hd).bind_pure _
  | stateVariable id => exact (hlookup .stateVariable id hd).bind_pure _
  | implicitConstructor id => exact (hlookup .contract id hd).bind_pure _

theorem failsOnly_variableNames {ids : List StateVariableId}
    (hids : forall v, v ∈ ids -> known .stateVariable v) :
    FailsOnly faults (s.variableNames ids) :=
  .mapM fun v hv => (hlookup .stateVariable v (hids v hv)).bind_pure _

theorem failsOnly_label {n : Node} (hn : n.IsKnown known) : FailsOnly faults (n.label s) := by
  refine (failsOnly_friendlyName hlookup hn.definition).bind fun _ _ => ?_
  refine (failsOnly_variableNames hlookup hn.reads).bind fun _ _ => ?_
  exact (failsOnly_variableNames hlookup hn.writes).bind_pure _

theorem failsOnly_toDot {g : Graph} (h : g.PreorderForest)
    (hnodes : forall id n, g.node id = .ok n -> n.IsKnown known) :
    FailsOnly faults (g.toDot s) := by
  refine FailsOnly.bind (.mapM fun entry hentry => ?_) fun nodeLines _ => ?_
  · have hn := hnodes entry.1 entry.2 (Graph.mem_entries_iff.mp hentry)
    exact (failsOnly_label hlookup hn).bind_pure _
  · rcases h.exists_edgeLines with ⟨edgeLines, hedgeLines⟩
    refine FailsOnly.bind_pure ?_ _
    rw [hedgeLines]
    exact .ok edgeLines

theorem failsOnly_draw {g : Graph} (h : g.PreorderForest)
    (hnodes : forall id n, g.node id = .ok n -> n.IsKnown known)
    (create : Text.Path -> Except String Unit) (print : Option String) :
    FailsOnly faults (g.draw s create print) := by
  cases print with
  | none => exact .ok _
  | some path =>
      refine (failsOnly_toDot hlookup h hnodes).bind ?_
      intro dot _
      split
      · exact .ok _
      · split
        · exact .ok _
        · exact .ok _

/-!
# Analyses
-/

include hclosed

theorem failsOnly_run (create : Text.Path -> Except String Unit) (config : Config)
    {id : ContractId} (hid : known .contract id) :
    FailsOnly faults (Analysis.run create s config id) := by
  refine FailsOnly.bind ?_ fun outcome houtcome => ?_
  · refine (hlookup .contract id hid).bind fun contract hcontract => ?_
    split
    · exact (failsOnly_entryPoints hclosed hlookup
        (hclosed.contracts hcontract).linearization config).bind_pure _
    · exact .ok _
  · cases outcome with
    | error e => exact .ok _
    | ok found =>
        rcases found with ⟨contract, entries⟩
        rcases entryPoints_eq_ok_iff.mp houtcome with ⟨hcontract, _, hentries⟩
        have hnodes : forall n node, (Graph.ofEntryPoints entries).node n = .ok node ->
            node.IsKnown known := fun n node => isKnown_of_node_ofEntryPoints hclosed
          (hclosed.contracts hcontract).linearization hentries
        exact (failsOnly_draw hlookup (Graph.preorderForest_ofEntryPoints entries) hnodes create
          config.printGraph).bind_pure _

theorem failsOnly_runIn_analyzeContract (create : Text.Path -> Except String Unit)
    (config : Config) {id : ContractId} (hid : known .contract id) (before : Handler) :
    FailsOnly faults (Analyzing.runIn before (analyzeContract create s config id)) := by
  rw [Analyzing.runIn_analyzeContract]
  exact (failsOnly_run hclosed hlookup create config hid).bind_pure _

end Store

end

/-!
# Faults of lookups

Whatever the declarations refer to, a lookup fails at a number that is out of range or in a poisoned
arena.
-/

namespace Store

inductive LookupFault (s : Store) : Fault -> Prop where
  | outOfRange (kind : DeclKind) {index : Nat} :
      (s.arena kind).size ≤ index -> LookupFault s (.outOfRange (s.arena kind).size index)
  | poisoned (kind : DeclKind) :
      (s.arena kind).poisoned = true -> LookupFault s .poisoned

theorem fault_of_get {s : Store} {kind : DeclKind} {id : DeclId kind} {fault : Fault}
    (h : s.get id = .error fault) :
    fault = .poisoned ∧ (s.arena kind).poisoned = true ∨
      fault = .outOfRange (s.arena kind).size id.index ∧ (s.arena kind).size ≤ id.index := by
  rw [get, Arena.get] at h
  split at h
  · next hpoisoned =>
      cases h
      exact Or.inl ⟨rfl, hpoisoned⟩
  · split at h
    · cases h
    · next hnone =>
        cases h
        exact Or.inr ⟨rfl, Array.getElem?_eq_none_iff.mp hnone⟩

theorem lookupFault_of_get {s : Store} {kind : DeclKind} (id : DeclId kind) :
    FailsOnly s.LookupFault (s.get id) := by
  intro fault h
  rcases fault_of_get h with ⟨rfl, hpoisoned⟩ | ⟨rfl, hle⟩
  · exact .poisoned kind hpoisoned
  · exact .outOfRange kind hle

theorem closedUnder_all (s : Store) : s.ClosedUnder fun _ _ => True := by
  have hreferent : forall referent : Referent, referent.IsKnown fun _ _ => True := by
    intro referent
    cases referent <;> trivial
  constructor
  · intro id contract _
    exact ⟨fun _ _ => trivial, fun _ _ => trivial, fun _ _ => trivial, fun _ _ => trivial⟩
  · intro d e _ referent _
    exact hreferent referent

theorem failsByLookup_runIn_analyzeContract (s : Store)
    (create : Text.Path -> Except String Unit) (config : Config) (id : ContractId)
    (before : Handler) :
    FailsOnly s.LookupFault (Analyzing.runIn before (analyzeContract create s config id)) :=
  failsOnly_runIn_analyzeContract s.closedUnder_all (fun _ id _ => lookupFault_of_get id) create
    config trivial before

end Store
end CallForest
