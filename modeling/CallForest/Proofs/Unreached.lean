import CallForest.Proofs.Ancestry
import Mathlib.Logic.Relation

/-!
# Code that is not reached

An analysis looks at the bodies of the functions that its nodes execute, at the initial values of the
state variables at its roots, and at the contracts of the linearization. Of any other function it
sees at most what a signature tells: dispatching compares names and types, and notices give names and
signatures. So whatever else a store is changed in, the result of the analysis stays the same.
-/

namespace CallForest

/-!
# Changes of a store

The changes that a graph admits: new declarations, new bodies for functions that no node executes,
other contracts off the linearization, and other state variables off the roots.
-/

namespace Graph

def HasNode (g : Graph) (d : Definition) : Prop :=
  exists n, g.definition n = .ok d

def HasRoot (g : Graph) (d : Definition) : Prop :=
  exists r, r ∈ g.roots ∧ g.definition r = .ok d

end Graph

/-- One change of a store that a graph over a linearization does not notice. -/
inductive Store.Edit (g : Graph) (linearization : List ContractId) (s : Store) : Store -> Prop where
  | append {kind : DeclKind} (decl : Decl kind) :
      Edit g linearization s (s.insert decl).2
  | body {f : FunctionId} {decl : FunctionDecl} (body : Option Block) :
      s.function f = .ok decl -> ¬ g.HasNode (.function f) ->
      Edit g linearization s (s.replace f { decl with body := body }).2
  | contract {c : ContractId} {old : ContractDecl} (decl : ContractDecl) :
      s.contract c = .ok old -> c ∉ linearization ->
      Edit g linearization s (s.replace c decl).2
  | stateVariable {v : StateVariableId} {old : StateVariableDecl} (decl : StateVariableDecl) :
      s.stateVariable v = .ok old -> ¬ g.HasRoot (.stateVariable v) ->
      Edit g linearization s (s.replace v decl).2

/-- A store has all that an analysis with a graph saw in another one. -/
structure Store.Preserves (g : Graph) (linearization : List ContractId) (s s' : Store) : Prop where
  function : forall f decl, s.function f = .ok decl ->
    exists body, s'.function f = .ok { decl with body := body } ∧
      (g.HasNode (.function f) -> body = decl.body)
  stateVariable : forall v decl, s.stateVariable v = .ok decl ->
    g.HasRoot (.stateVariable v) -> s'.stateVariable v = .ok decl
  contract : forall c decl, s.contract c = .ok decl -> c ∈ linearization ->
    s'.contract c = .ok decl

namespace Arena

variable {alpha : Type} {a : Arena alpha}

theorem get_insert {index : Nat} {entry : alpha} (h : a.get index = .ok entry) (new : alpha) :
    (a.insert new).2.get index = .ok entry := by
  rcases get_eq_ok_iff.mp h with ⟨hpoisoned, hentry⟩
  rw [insert, hpoisoned]
  refine get_eq_ok_iff.mpr ⟨rfl, ?_⟩
  have hne : index ≠ a.entries.size := Nat.ne_of_lt (lt_size_of_get_eq_ok h)
  show (a.entries.push new)[index]? = some entry
  rw [Array.getElem?_push, if_neg hne, hentry]

theorem get_replace_eq {index place : Nat} {old : alpha} (hold : a.get place = .ok old)
    (new : alpha) :
    (a.replace place new).2.get index = if place = index then .ok new else a.get index := by
  have hpoisoned := (get_eq_ok_iff.mp hold).1
  have hplace := lt_size_of_get_eq_ok hold
  rw [replace, hpoisoned, if_neg Bool.false_ne_true, if_pos hplace]
  simp only [get, hpoisoned, size, Array.size_setIfInBounds, Array.getElem?_setIfInBounds,
    Bool.false_eq_true, if_false]
  by_cases hindex : place = index
  · have hsize : place < a.entries.size := hplace
    rw [if_pos hindex, if_pos hindex, if_pos hsize]
  · rw [if_neg hindex, if_neg hindex]

end Arena

namespace Store

variable {s : Store}

theorem get_insert {kind other : DeclKind} {id : DeclId other} {entry : Decl other}
    (h : s.get id = .ok entry) (decl : Decl kind) : (s.insert decl).2.get id = .ok entry := by
  have hstore : (s.insert decl).2 = s.setArena ((s.arena kind).insert decl).2 := by
    rw [insert]
    split
    · next heq => rw [heq]
    · next heq => rw [heq]
  rw [hstore, get]
  by_cases hkind : other = kind
  · subst hkind
    rw [arena_setArena]
    exact Arena.get_insert h decl
  · rw [arena_setArena_of_ne _ _ hkind]
    exact h

theorem get_replace_eq {kind : DeclKind} {id place : DeclId kind} {old : Decl kind}
    (hold : s.get place = .ok old) (decl : Decl kind) :
    (s.replace place decl).2.get id = if place = id then .ok decl else s.get id := by
  rw [replace, get, arena_setArena, Arena.get_replace_eq hold, get]
  cases id
  cases place
  simp only [DeclId.mk.injEq]

theorem get_replace {kind : DeclKind} {id place : DeclId kind} {old entry : Decl kind}
    (hold : s.get place = .ok old) (h : s.get id = .ok entry) (decl : Decl kind) :
    (s.replace place decl).2.get id = .ok (if place = id then decl else entry) := by
  rw [get_replace_eq hold, h]
  split <;> rfl

theorem get_replace_elsewhere {kind : DeclKind} {id place : DeclId kind} {old entry : Decl kind}
    (hold : s.get place = .ok old) (h : s.get id = .ok entry) (hne : place ≠ id)
    (decl : Decl kind) : (s.replace place decl).2.get id = .ok entry := by
  rw [get_replace hold h, if_neg hne]

theorem get_replace_of_ne {kind other : DeclKind} {id : DeclId other} {place : DeclId kind}
    (hkind : other ≠ kind) (decl : Decl kind) : (s.replace place decl).2.get id = s.get id := by
  rw [replace, get, get, arena_setArena_of_ne _ _ hkind]

variable {g : Graph} {linearization : List ContractId} {s' s'' : Store}

theorem Preserves.refl (g : Graph) (linearization : List ContractId) (s : Store) :
    Preserves g linearization s s where
  function _ decl h := ⟨decl.body, h, fun _ => rfl⟩
  stateVariable _ _ h _ := h
  contract _ _ h _ := h

theorem Preserves.trans (h : Preserves g linearization s s')
    (h' : Preserves g linearization s' s'') : Preserves g linearization s s'' where
  function := by
    intro f decl hf
    rcases h.function f decl hf with ⟨body, hf, hbody⟩
    rcases h'.function f _ hf with ⟨body', hf, hbody'⟩
    exact ⟨body', hf, fun hnode => (hbody' hnode).trans (hbody hnode)⟩
  stateVariable v decl hv hroot := h'.stateVariable v decl (h.stateVariable v decl hv hroot) hroot
  contract c decl hc hmem := h'.contract c decl (h.contract c decl hc hmem) hmem

theorem Edit.preserves (h : Edit g linearization s s') : Preserves g linearization s s' := by
  -- A replacement touches one kind of declaration only.
  have hother : forall {kind other : DeclKind} (id : DeclId other) (place : DeclId kind)
      (entry : Decl other) (new : Decl kind), other ≠ kind -> s.get id = .ok entry ->
      (s.replace place new).2.get id = .ok entry := by
    intro kind other id place entry new hkind hget
    rw [get_replace_of_ne hkind, hget]
  cases h with
  | append new =>
      exact ⟨fun f decl hf => ⟨decl.body, get_insert hf new, fun _ => rfl⟩,
        fun v decl hv _ => get_insert hv new, fun c decl hc _ => get_insert hc new⟩
  | body changed hold hunreached =>
      rename_i place old
      refine ⟨?_, fun v decl hv _ => hother v place decl _ (by decide) hv,
        fun c decl hc _ => hother c place decl _ (by decide) hc⟩
      intro f decl hf
      by_cases hplace : place = f
      · subst hplace
        cases hold.symm.trans hf
        have hget := get_replace hold hold { old with body := changed }
        rw [if_pos rfl] at hget
        exact ⟨changed, hget, fun hnode => absurd hnode hunreached⟩
      · exact ⟨decl.body, get_replace_elsewhere hold hf hplace _, fun _ => rfl⟩
  | contract changed hold hoff =>
      rename_i place old
      refine ⟨fun f decl hf => ⟨decl.body, hother f place decl _ (by decide) hf, fun _ => rfl⟩,
        fun v decl hv _ => hother v place decl _ (by decide) hv, ?_⟩
      intro c decl hc hmem
      exact get_replace_elsewhere hold hc (fun heq => hoff (heq ▸ hmem)) changed
  | stateVariable changed hold hoff =>
      rename_i place old
      refine ⟨fun f decl hf => ⟨decl.body, hother f place decl _ (by decide) hf, fun _ => rfl⟩,
        ?_, fun c decl hc _ => hother c place decl _ (by decide) hc⟩
      intro v decl hv hroot
      exact get_replace_elsewhere hold hv (fun heq => hoff (heq ▸ hroot)) changed

theorem Preserves.of_edits (h : Relation.ReflTransGen (Edit g linearization) s s') :
    Preserves g linearization s s' := by
  induction h with
  | refl => exact Preserves.refl g linearization s
  | tail _ hedit ih => exact ih.trans hedit.preserves

/-!
# Dispatching

The search for an override compares names and types, so the bodies of the functions do not matter.
-/

theorem findOverride_of_preserves (h : Preserves g linearization s s') {f : FunctionDecl}
    (body : Option Block) {ids : List FunctionId} {found : Option FunctionId}
    (hfound : s.findOverride f ids = .ok found) :
    s'.findOverride { f with body := body } ids = .ok found := by
  induction ids with
  | nil => exact hfound
  | cons id ids ih =>
      rcases bind_eq_ok_iff.mp hfound with ⟨candidate, hcandidate, hrest⟩
      rcases h.function id candidate hcandidate with ⟨other, hother, _⟩
      refine bind_eq_ok_iff.mpr ⟨_, hother, ?_⟩
      have hsame : FunctionDecl.overrides { candidate with body := other }
          { f with body := body } = candidate.overrides f := rfl
      rw [hsame]
      split at hrest
      · next hoverrides =>
          rw [if_pos hoverrides]
          exact hrest
      · next hoverrides =>
          rw [if_neg hoverrides]
          exact ih hrest

theorem findOverrideAlong_of_preserves (h : Preserves g linearization s s') {f : FunctionDecl}
    (body : Option Block) {ids : List ContractId} (hids : ids ⊆ linearization)
    {found : Option FunctionId} (hfound : s.findOverrideAlong f ids = .ok found) :
    s'.findOverrideAlong { f with body := body } ids = .ok found := by
  induction ids with
  | nil => exact hfound
  | cons id ids ih =>
      rcases bind_eq_ok_iff.mp hfound with ⟨contract, hcontract, hrest⟩
      rcases bind_eq_ok_iff.mp hrest with ⟨outcome, houtcome, hrest⟩
      have hmem := hids List.mem_cons_self
      refine bind_eq_ok_iff.mpr ⟨contract, h.contract id contract hcontract hmem,
        bind_eq_ok_iff.mpr ⟨outcome, findOverride_of_preserves h body houtcome, ?_⟩⟩
      cases outcome with
      | some override => exact hrest
      | none => exact ih (List.subset_of_cons_subset hids) hrest

theorem finalOverride_of_preserves (h : Preserves g linearization s s') {id target : FunctionId}
    (htarget : s.finalOverride linearization id = .ok target) :
    s'.finalOverride linearization id = .ok target := by
  rcases bind_eq_ok_iff.mp htarget with ⟨f, hf, hrest⟩
  rcases h.function id f hf with ⟨body, hbody, _⟩
  refine bind_eq_ok_iff.mpr ⟨_, hbody, ?_⟩
  have hsame : FunctionDecl.dispatchesVirtually { f with body := body } =
      f.dispatchesVirtually := rfl
  rw [hsame]
  split at hrest
  · next hvirtual =>
      rcases bind_eq_ok_iff.mp hrest with ⟨found, hfound, hrest⟩
      rw [if_pos hvirtual]
      exact bind_eq_ok_iff.mpr
        ⟨found, findOverrideAlong_of_preserves h body (List.Subset.refl _) hfound, hrest⟩
  · next hvirtual =>
      rw [if_neg hvirtual]
      exact hrest

theorem Resolves.of_preserves (h : Preserves g linearization s s') {declared : FunctionId}
    {span : Span} {site : CallSite} (hsite : s.Resolves linearization declared span site) :
    s'.Resolves linearization declared span site := by
  rcases hsite.stored with ⟨f, hf, hname, hsignature⟩
  rcases h.function _ f hf with ⟨body, hbody, _⟩
  exact ⟨hsite.declared_eq, hsite.span_eq, finalOverride_of_preserves h hsite.dispatch, _, hbody,
    hname, hsignature⟩

/-!
# Unrolling

A course enters the functions that its executions run, and only their bodies are looked at.
-/

theorem function_of_preserves (h : Preserves g linearization s s') {f : FunctionId}
    (hnode : g.HasNode (.function f)) {decl : FunctionDecl} (hf : s.function f = .ok decl) :
    s'.function f = .ok decl := by
  rcases h.function f decl hf with ⟨body, hbody, heq⟩
  cases heq hnode
  exact hbody

theorem Unrolls.of_preserves (h : Preserves g linearization s s') {config : Config}
    {path : List Definition} {events : List Event} {course : Course}
    (hunrolls : s.Unrolls config linearization path events course) {frames : List Frame}
    {next : Nat} (hnodes : forall e, e ∈ course.executions frames next -> g.HasNode e.definition) :
    s'.Unrolls config linearization path events course := by
  induction hunrolls generalizing frames next with
  | done => exact .done
  | read _ ih => exact .read (ih hnodes)
  | write _ ih => exact .write (ih hnodes)
  | back hsite hmem _ ih => exact .back (hsite.of_preserves h) hmem (ih hnodes)
  | cut hsite hfresh hdepth _ ih => exact .cut (hsite.of_preserves h) hfresh hdepth (ih hnodes)
  | call hsite hfresh hdepth hinner _ _ ihBody ihRest =>
      rw [Course.executions, List.forall_mem_cons, List.forall_mem_append] at hnodes
      rcases hnodes with ⟨hentered, hbody, hrest⟩
      rcases bind_pure_eq_ok_iff.mp hinner with ⟨f, hf, rfl⟩
      exact .call (hsite.of_preserves h) hfresh hdepth
        (eventsOf_function (function_of_preserves h hentered hf)) (ihBody hbody) (ihRest hrest)

end Store

/-!
# Entry points
-/

theorem exists_mem_rootExecutions {plan : List (Definition × Course)} {definition : Definition}
    {course : Course} (h : (definition, course) ∈ plan) (next : Nat) :
    exists e, e ∈ rootExecutions next plan ∧ e.definition = definition ∧ e.course = course := by
  induction plan generalizing next with
  | nil => cases h
  | cons root plan ih =>
      rcases List.mem_cons.mp h with rfl | h
      · exact ⟨_, List.mem_cons_self, rfl, rfl⟩
      · rcases ih h (next + (root.2.size + 1)) with ⟨e, he, hdefinition⟩
        exact ⟨e, List.mem_cons_of_mem _ he, hdefinition⟩

theorem Graph.hasRoot_of_mem_entryPoints {entries : List EntryPoint} {definition : Definition}
    {course : Course} (h : (definition, course) ∈ entries.filterMap EntryPoint.root?) :
    (Graph.ofEntryPoints entries).HasRoot definition ∧ exists frames next,
      forall e, e ∈ course.executions frames next ->
        (Graph.ofEntryPoints entries).HasNode e.definition := by
  have hrooted := rooted_rootExecutions (entries.filterMap EntryPoint.root?)
  rcases exists_mem_rootExecutions h 0 with ⟨root, hroot, rfl, rfl⟩
  rw [Graph.ofEntryPoints_eq]
  refine ⟨⟨root.id, mem_roots_ofExecutions.mpr ⟨root, hroot, rfl⟩,
    definition_ofExecutions hrooted (mem_forest_of_mem hroot)⟩, root.frames, root.next, ?_⟩
  intro e he
  have hforest := mem_forest_of_mem_subtree hroot (List.mem_cons_of_mem _ he)
  exact ⟨e.id, definition_ofExecutions hrooted hforest⟩

namespace Store

variable {s s' : Store} {config : Config} {linearization : List ContractId}
  {entries : List EntryPoint}

theorem unrollDefinition_of_preserves
    (h : Preserves (Graph.ofEntryPoints entries) linearization s s') {definition : Definition}
    {course : Course} (hroot : (definition, course) ∈ entries.filterMap EntryPoint.root?)
    {events : List Event}
    (hcourse : s.unrollDefinition config linearization definition events = .ok course) :
    s'.unrollDefinition config linearization definition events = .ok course := by
  rcases (Graph.hasRoot_of_mem_entryPoints hroot).2 with ⟨frames, next, hnodes⟩
  exact unroll_of_unrolls ((unrolls_of_unroll hcourse).of_preserves h hnodes)

theorem constructorEntry_of_preserves
    (h : Preserves (Graph.ofEntryPoints entries) linearization s s') {id : ContractId}
    (hid : id ∈ linearization) {entry : EntryPoint} (hmem : entry ∈ entries)
    (hentry : s.constructorEntry config linearization id = .ok entry) :
    s'.constructorEntry config linearization id = .ok entry := by
  rcases bind_eq_ok_iff.mp hentry with ⟨contract, hcontract, hrest⟩
  refine bind_eq_ok_iff.mpr ⟨contract, h.contract id contract hcontract hid, ?_⟩
  cases hconstructor : contract.constructor with
  | none =>
      rw [hconstructor] at hrest
      exact hrest
  | some f =>
      rw [hconstructor] at hrest
      rcases bind_eq_ok_iff.mp hrest with ⟨decl, hdecl, hrest⟩
      rcases bind_pure_eq_ok_iff.mp hrest with ⟨course, hcourse, rfl⟩
      have hroot : (Definition.function f, course) ∈ entries.filterMap EntryPoint.root? :=
        List.mem_filterMap.mpr ⟨_, hmem, rfl⟩
      rcases (Graph.hasRoot_of_mem_entryPoints hroot).1 with ⟨r, _, hr⟩
      exact bind_eq_ok_iff.mpr ⟨decl, function_of_preserves h ⟨r, hr⟩ hdecl,
        bind_pure_eq_ok_iff.mpr ⟨course, unrollDefinition_of_preserves h hroot hcourse, rfl⟩⟩

theorem stateVariableEntry_of_preserves
    (h : Preserves (Graph.ofEntryPoints entries) linearization s s') {id : StateVariableId}
    {entry : EntryPoint} (hmem : entry ∈ entries)
    (hentry : s.stateVariableEntry config linearization id = .ok entry) :
    s'.stateVariableEntry config linearization id = .ok entry := by
  rcases bind_eq_ok_iff.mp hentry with ⟨decl, hdecl, hrest⟩
  rcases bind_pure_eq_ok_iff.mp hrest with ⟨course, hcourse, rfl⟩
  have hroot : (Definition.stateVariable id, course) ∈ entries.filterMap EntryPoint.root? :=
    List.mem_filterMap.mpr ⟨_, hmem, rfl⟩
  exact bind_eq_ok_iff.mpr
    ⟨decl, h.stateVariable id decl hdecl (Graph.hasRoot_of_mem_entryPoints hroot).1,
      bind_pure_eq_ok_iff.mpr ⟨course, unrollDefinition_of_preserves h hroot hcourse, rfl⟩⟩

theorem inheritedStateVariables_of_preserves {g : Graph}
    (h : Preserves g linearization s s') {ids : List StateVariableId}
    (hids : s.inheritedStateVariables linearization = .ok ids) :
    s'.inheritedStateVariables linearization = .ok ids := by
  rcases bind_pure_eq_ok_iff.mp hids with ⟨contracts, hcontracts, hflat⟩
  exact bind_pure_eq_ok_iff.mpr ⟨contracts, mapM_eq_ok_of_mem hcontracts
    fun c hmem decl _ hc => h.contract c decl hc hmem, hflat⟩

theorem entryPoints_of_preserves
    (h : Preserves (Graph.ofEntryPoints entries) linearization s s')
    (hentries : s.entryPoints config linearization = .ok entries) :
    s'.entryPoints config linearization = .ok entries := by
  simp only [entryPoints, bind_eq_ok_iff, pure_eq_ok_iff] at hentries ⊢
  rcases hentries with
    ⟨constructors, hconstructors, stored, hstored, initializers, hinitializers, rfl⟩
  refine ⟨constructors, mapM_eq_ok_of_mem hconstructors ?_, stored,
    inheritedStateVariables_of_preserves h hstored, initializers,
    mapM_eq_ok_of_mem hinitializers ?_, rfl⟩
  · intro id hid entry hmem hentry
    exact constructorEntry_of_preserves h (List.mem_reverse.mp hid)
      (List.mem_append_left _ hmem) hentry
  · intro id _ entry hmem hentry
    exact stateVariableEntry_of_preserves h (List.mem_append_right _ hmem) hentry

end Store

/-- Whatever else a store is changed in, an analysis sees what it saw before. -/
theorem run_of_preserves {create : Text.Path -> Except String Unit} {s s' : Store}
    {config : Config} {id : ContractId} {a : Analysis}
    (hrun : Analysis.run create s config id = .ok (.ok a)) (hprint : config.printGraph = none)
    {contract : ContractDecl} (hcontract : s.contract id = .ok contract)
    (h : s.Preserves a.graph contract.linearization s') :
    Analysis.run create s' config id = .ok (.ok a) := by
  rcases run_eq_ok_iff.mp hrun with
    ⟨found, entries, drawing, hfound, hhead, hentries, hdrawing, rfl⟩
  cases hcontract.symm.trans hfound
  rw [hprint] at hdrawing
  cases hdrawing
  refine run_eq_ok_iff.mpr ⟨contract, entries, {}, ?_, hhead,
    Store.entryPoints_of_preserves h hentries, ?_, rfl⟩
  · exact h.contract id contract hcontract (List.mem_of_mem_head? hhead)
  · rw [hprint]
    rfl

/-- What an analysis does not reach has no influence on its graph, its notices or its warnings. -/
theorem unreached_code_does_not_matter {create : Text.Path -> Except String Unit}
    {s s' : Store} {config : Config} {id : ContractId} {a : Analysis} {before after : Handler}
    (h : Analyzing.runIn before (analyzeContract create s config id) =
      .ok ((.ok a.graph, after), a.toOutput))
    (hprint : config.printGraph = none) {contract : ContractDecl}
    (hcontract : s.contract id = .ok contract)
    (hedits : Relation.ReflTransGen (Store.Edit a.graph contract.linearization) s s') :
    Analyzing.runIn before (analyzeContract create s' config id) =
      .ok ((.ok a.graph, after), a.toOutput) := by
  have hrun := analyzes_iff_run_eq_ok.mp ⟨before, after, h⟩
  have hsame := run_of_preserves hrun hprint hcontract (Store.Preserves.of_edits hedits)
  rw [runIn_analyzeContract_of_run_eq_ok hrun before] at h
  rw [runIn_analyzeContract_of_run_eq_ok hsame before]
  exact h

theorem unreached_cycle :
    exists (a : Analysis) (changed : Store),
      Analyzing.runIn {} (analyzeContract (fun _ => .ok ()) Cycle.store {} ⟨0⟩) =
        .ok ((.ok a.graph, { warnings := a.warnings }), a.toOutput) ∧
      changed.function ⟨1⟩ =
        .ok (Cycle.function "f" .function true [.expr (Cycle.call ⟨1⟩), .expr (Cycle.call ⟨4⟩)]) ∧
      changed.function ⟨4⟩ = .ok (Cycle.function "h" .function false [.expr (Cycle.stored ⟨1⟩)]) ∧
      Analyzing.runIn {} (analyzeContract (fun _ => .ok ()) changed {} ⟨0⟩) =
        .ok ((.ok a.graph, { warnings := a.warnings }), a.toOutput) := by
  rcases Cycle.exists_analyzes with ⟨a, h, hgraph⟩
  have hrun := runIn_analyzeContract_of_run_eq_ok (analyzes_iff_run_eq_ok.mp h) {}
  have hunreached : ¬ a.graph.HasNode (.function ⟨1⟩) := by
    rintro ⟨n, hn⟩
    rcases bind_pure_eq_ok_iff.mp hn with ⟨node, hnode, heq⟩
    have hmem := Array.mem_of_getElem? (Graph.node_eq_ok_iff.mp hnode)
    have hnone : forall node, node ∈ Cycle.graph.nodes ->
        node.definition ≠ Definition.function ⟨1⟩ := by decide
    rw [hgraph] at hmem
    exact hnone node hmem heq
  have hbody : Store.Edit a.graph [⟨0⟩, ⟨1⟩] Cycle.store _ :=
    .body (some [.expr (Cycle.call ⟨1⟩), .expr (Cycle.call ⟨4⟩)]) rfl hunreached
  have hedits := (Relation.ReflTransGen.single hbody).tail
    (@Store.Edit.append _ _ _ .function
      (Cycle.function "h" .function false [.expr (Cycle.stored ⟨1⟩)]))
  exact ⟨a, _, hrun, rfl, rfl, unreached_code_does_not_matter hrun rfl rfl hedits⟩

end CallForest
