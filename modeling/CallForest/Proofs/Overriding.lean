import CallForest.Proofs.Contents
import CallForest.Proofs.TypeEquality

/-!
# Final overrides

The search for an override sees the profile of a function and nothing else. What it finds has the
same profile, so another search ends at the same place: a final override overrides itself. Every call
of a graph is dispatched, so it never lands on a function that is overridden.
-/

namespace CallForest

theorem FunctionDecl.overrides_congr {f f' : FunctionDecl} (h : f.profile = f'.profile)
    (candidate : FunctionDecl) : candidate.overrides f = candidate.overrides f' := by
  rw [Bool.eq_iff_iff, overrides_iff, overrides_iff, h]

namespace Store

variable {s : Store} {f f' : FunctionDecl}

/-!
# Searching
-/

theorem findOverride_congr (h : f.profile = f'.profile) (ids : List FunctionId) :
    s.findOverride f ids = s.findOverride f' ids := by
  induction ids with
  | nil => rfl
  | cons id ids ih =>
      rw [findOverride, findOverride, ih]
      simp only [FunctionDecl.overrides_congr h]

theorem findOverrideAlong_congr (h : f.profile = f'.profile) (ids : List ContractId) :
    s.findOverrideAlong f ids = s.findOverrideAlong f' ids := by
  induction ids with
  | nil => rfl
  | cons id ids ih =>
      rw [findOverrideAlong, findOverrideAlong, ih]
      simp only [findOverride_congr h]

def Matches (s : Store) (f : FunctionDecl) (id : FunctionId) : Prop :=
  exists candidate, s.function id = .ok candidate ∧ candidate.overrides f = true

theorem findOverride_cons {id : FunctionId} {candidate : FunctionDecl}
    (h : s.function id = .ok candidate) (ids : List FunctionId) :
    s.findOverride f (id :: ids) =
      if candidate.overrides f then .ok (some id) else s.findOverride f ids := by
  rw [findOverride, h]
  rfl

theorem matches_of_findOverride {ids : List FunctionId} {found : FunctionId}
    (h : s.findOverride f ids = .ok (some found)) : s.Matches f found := by
  induction ids with
  | nil => cases h
  | cons id ids ih =>
      rcases bind_eq_ok_iff.mp h with ⟨candidate, hcandidate, h⟩
      split at h
      · next hoverrides =>
          cases h
          exact ⟨candidate, hcandidate, hoverrides⟩
      · exact ih h

theorem not_matches_of_findOverride {ids : List FunctionId}
    (h : s.findOverride f ids = .ok none) : forall id, id ∈ ids -> ¬ s.Matches f id := by
  induction ids with
  | nil =>
      intro id hid
      cases hid
  | cons first ids ih =>
      rcases bind_eq_ok_iff.mp h with ⟨candidate, hcandidate, h⟩
      split at h
      · cases h
      · next hoverrides =>
          rw [List.forall_mem_cons]
          refine ⟨?_, ih h⟩
          intro hmatches
          rcases hmatches with ⟨found, hfound, hmatches⟩
          cases hcandidate.symm.trans hfound
          exact hoverrides hmatches

theorem matches_of_findOverrideAlong {ids : List ContractId} {found : FunctionId}
    (h : s.findOverrideAlong f ids = .ok (some found)) : s.Matches f found := by
  induction ids with
  | nil => cases h
  | cons id ids ih =>
      rcases bind_eq_ok_iff.mp h with ⟨contract, _, h⟩
      rcases bind_eq_ok_iff.mp h with ⟨outcome, houtcome, h⟩
      cases outcome with
      | some found =>
          cases h
          exact matches_of_findOverride houtcome
      | none => exact ih h

def HoldsMatch (s : Store) (linearization : List ContractId) (f : FunctionDecl) : Prop :=
  exists c contract id, c ∈ linearization ∧ s.contract c = .ok contract ∧
    id ∈ contract.functions ∧ s.Matches f id

theorem not_holdsMatch_of_findOverrideAlong {ids : List ContractId}
    (h : s.findOverrideAlong f ids = .ok none) : ¬ s.HoldsMatch ids f := by
  induction ids with
  | nil =>
      intro hmatch
      rcases hmatch with ⟨c, _, _, hc, _⟩
      cases hc
  | cons id ids ih =>
      rcases bind_eq_ok_iff.mp h with ⟨contract, hcontract, h⟩
      rcases bind_eq_ok_iff.mp h with ⟨outcome, houtcome, h⟩
      cases outcome with
      | some found => cases h
      | none =>
          intro hmatch
          rcases hmatch with ⟨c, found, g, hc, hfound, hg, hmatches⟩
          rcases List.mem_cons.mp hc with rfl | hc
          · cases hcontract.symm.trans hfound
            exact not_matches_of_findOverride houtcome g hg hmatches
          · exact ih h ⟨c, found, g, hc, hfound, hg, hmatches⟩

def ListsStored (s : Store) (linearization : List ContractId) : Prop :=
  forall c, c ∈ linearization -> exists contract, s.contract c = .ok contract ∧
    forall id, id ∈ contract.functions -> exists decl, s.function id = .ok decl

theorem exists_findOverride {ids : List FunctionId}
    (h : forall id, id ∈ ids -> exists decl, s.function id = .ok decl) :
    exists found, s.findOverride f ids = .ok found := by
  induction ids with
  | nil => exact ⟨none, rfl⟩
  | cons id ids ih =>
      rw [List.forall_mem_cons] at h
      rcases h with ⟨⟨candidate, hcandidate⟩, hrest⟩
      rw [findOverride_cons hcandidate]
      split
      · exact ⟨some id, rfl⟩
      · exact ih hrest

theorem exists_findOverrideAlong {ids : List ContractId} (h : s.ListsStored ids) :
    exists found, s.findOverrideAlong f ids = .ok found := by
  induction ids with
  | nil => exact ⟨none, rfl⟩
  | cons id ids ih =>
      rcases h id List.mem_cons_self with ⟨contract, hcontract, hstored⟩
      rcases exists_findOverride hstored with ⟨outcome, houtcome⟩
      rcases ih fun c hc => h c (List.mem_cons_of_mem id hc) with ⟨later, hlater⟩
      cases outcome with
      | some found =>
          exact ⟨some found, bind_eq_ok_iff.mpr ⟨contract, hcontract,
            bind_eq_ok_iff.mpr ⟨some found, houtcome, rfl⟩⟩⟩
      | none =>
          exact ⟨later, bind_eq_ok_iff.mpr ⟨contract, hcontract,
            bind_eq_ok_iff.mpr ⟨none, houtcome, hlater⟩⟩⟩

/-!
# Dispatching
-/

section

variable {linearization : List ContractId} {id id' : FunctionId}

theorem finalOverride_eq_self (hf : s.function id = .ok f)
    (h : f.dispatchesVirtually = false) : s.finalOverride linearization id = .ok id := by
  rw [finalOverride, hf, bind_eq_ok_iff]
  refine ⟨f, rfl, ?_⟩
  rw [h]
  rfl

theorem finalOverride_eq_search (hf : s.function id = .ok f)
    (h : f.dispatchesVirtually = true) :
    s.finalOverride linearization id = (do
      let found ← s.findOverrideAlong f linearization
      pure (found.getD id)) := by
  rw [finalOverride, hf]
  show (if f.dispatchesVirtually then _ else _) = _
  rw [if_pos h]

theorem finalOverride_eq_of_found {found : FunctionId} (hf : s.function id = .ok f)
    (h : f.dispatchesVirtually = true)
    (hfound : s.findOverrideAlong f linearization = .ok (some found)) :
    s.finalOverride linearization id = .ok found := by
  rw [finalOverride_eq_search hf h, hfound]
  rfl

theorem finalOverride_idem {g : FunctionId} (h : s.finalOverride linearization id = .ok g) :
    s.finalOverride linearization g = .ok g := by
  rcases bind_eq_ok_iff.mp h with ⟨f, hf, hrest⟩
  cases hvirtual : f.dispatchesVirtually with
  | false =>
      cases (finalOverride_eq_self hf hvirtual).symm.trans h
      exact h
  | true =>
      rcases bind_pure_eq_ok_iff.mp ((finalOverride_eq_search hf hvirtual).symm.trans h) with
        ⟨found, hfound, hg⟩
      cases found with
      | none =>
          cases hg
          exact h
      | some found =>
          cases hg
          rcases matches_of_findOverrideAlong hfound with ⟨candidate, hcandidate, hoverrides⟩
          cases hagain : candidate.dispatchesVirtually with
          | false => exact finalOverride_eq_self hcandidate hagain
          | true =>
              -- The second search is for the same profile as the first.
              have hprofile := FunctionDecl.overrides_iff.mp hoverrides
              rw [← findOverrideAlong_congr hprofile] at hfound
              exact finalOverride_eq_of_found hcandidate hagain hfound

theorem finalOverride_congr (hf : s.function id = .ok f) (hf' : s.function id' = .ok f')
    (hvirtual : f.dispatchesVirtually = true) (hvirtual' : f'.dispatchesVirtually = true)
    (hprofile : f.profile = f'.profile) (hmatch : s.HoldsMatch linearization f) :
    s.finalOverride linearization id = s.finalOverride linearization id' := by
  rw [finalOverride_eq_search hf hvirtual, finalOverride_eq_search hf' hvirtual',
    ← findOverrideAlong_congr hprofile]
  cases hfound : s.findOverrideAlong f linearization with
  | error fault => rfl
  | ok found =>
      cases found with
      | none => exact absurd hmatch (not_holdsMatch_of_findOverrideAlong hfound)
      | some found => rfl

theorem exists_finalOverride (hf : s.function id = .ok f) (h : s.ListsStored linearization) :
    exists g, s.finalOverride linearization id = .ok g := by
  cases hvirtual : f.dispatchesVirtually with
  | false => exact ⟨id, finalOverride_eq_self hf hvirtual⟩
  | true =>
      rcases exists_findOverrideAlong (f := f) h with ⟨found, hfound⟩
      refine ⟨found.getD id, ?_⟩
      rw [finalOverride_eq_search hf hvirtual, hfound]
      rfl

end

/-- Dispatching along a linearization ends at final overrides. Virtual functions that agree in name,
parameters and returns have the same one, if a linearized contract lists a match for them. -/
structure FinalDispatch (s : Store) (linearization : List ContractId) : Prop where
  idempotent : forall f g, s.finalOverride linearization f = .ok g ->
    s.finalOverride linearization g = .ok g
  agrees : forall f f' decl decl', s.function f = .ok decl -> s.function f' = .ok decl' ->
    decl.dispatchesVirtually = true -> decl'.dispatchesVirtually = true ->
    (decl.name == decl'.name) = true ->
    decl.functionType.sameParameters decl'.functionType = true ->
    decl.functionType.sameReturns decl'.functionType = true ->
    s.HoldsMatch linearization decl ->
    s.finalOverride linearization f = s.finalOverride linearization f'
  resolves : forall f decl, s.function f = .ok decl -> s.ListsStored linearization ->
    exists g, s.finalOverride linearization f = .ok g

theorem finalDispatch (s : Store) (linearization : List ContractId) :
    s.FinalDispatch linearization where
  idempotent := by
    intro f g h
    exact finalOverride_idem h
  agrees := by
    intro f f' decl decl' hf hf' hvirtual hvirtual' hname hparameters hreturns hmatch
    have hoverrides : decl.overrides decl' = true := by
      rw [FunctionDecl.overrides, hname, hparameters, hreturns]
      rfl
    exact finalOverride_congr hf hf' hvirtual hvirtual' (FunctionDecl.overrides_iff.mp hoverrides)
      hmatch
  resolves := by
    intro f decl hf hstored
    exact exists_finalOverride hf hstored

end Store

/-!
# Calls in a graph
-/

namespace Graph

/-- What is called is a final override: the functions of the nodes below the roots, and those that
recursive edges go back to. -/
structure CallsFinal (g : Graph) (s : Store) (linearization : List ContractId) : Prop where
  called : forall n f, n ∉ g.roots -> g.definition n = .ok (.function f) ->
    s.finalOverride linearization f = .ok f
  called_again : forall m node a f, g.node m = .ok node -> Edge.recursive a ∈ node.calls ->
    g.definition a = .ok (.function f) -> s.finalOverride linearization f = .ok f

variable {s : Store} {config : Config} {linearization : List ContractId}

theorem RecordsCalls.dispatched {g : Graph} {path : List NodeId} {calls : List FunctionId}
    {edges : List Edge} (h : g.RecordsCalls s config linearization path calls edges) :
    forall edge, edge ∈ edges -> exists declared target,
      s.finalOverride linearization declared = .ok target ∧
        g.definition edge.target = .ok (.function target) := by
  induction h with
  | done =>
      intro edge hedge
      cases hedge
  | back hdispatch _ hdefinition _ ih =>
      rw [List.forall_mem_cons]
      exact ⟨⟨_, _, hdispatch, hdefinition⟩, ih⟩
  | cut _ _ _ _ ih => exact ih
  | call hdispatch _ _ hdefinition _ ih =>
      rw [List.forall_mem_cons]
      exact ⟨⟨_, _, hdispatch, hdefinition⟩, ih⟩

theorem RecordsCalls.finalOverride_target {g : Graph} {path : List NodeId}
    {calls : List FunctionId} {edges : List Edge}
    (h : g.RecordsCalls s config linearization path calls edges) {edge : Edge}
    (hedge : edge ∈ edges) {f : FunctionId}
    (hf : g.definition edge.target = .ok (.function f)) :
    s.finalOverride linearization f = .ok f := by
  rcases h.dispatched edge hedge with ⟨declared, target, hdispatch, htarget⟩
  cases htarget.symm.trans hf
  exact Store.finalOverride_idem hdispatch

theorem callsFinal_ofExecutions {roots : List Execution} (h : Rooted roots)
    (hunrolled : forall e, e ∈ roots -> e.Unrolled s config linearization) :
    (ofExecutions roots).CallsFinal s linearization := by
  have hfinal : forall m node edge f, (ofExecutions roots).node m = .ok node ->
      edge ∈ node.calls -> (ofExecutions roots).definition edge.target = .ok (.function f) ->
      s.finalOverride linearization f = .ok f := by
    intro m node edge f hnode hedge hf
    rcases (node_ofExecutions_eq_ok_iff h).mp hnode with ⟨e, he, rfl, rfl⟩
    rcases describes_of_mem_forest h hunrolled he with ⟨code, events, hdescribes⟩
    exact hdescribes.recordsCalls.finalOverride_target hedge hf
  refine ⟨?_, ?_⟩
  · intro n f hroot hf
    rcases bind_pure_eq_ok_iff.mp hf with ⟨node, hnode, _⟩
    rcases (node_ofExecutions_eq_ok_iff h).mp hnode with ⟨e, he, rfl, _⟩
    rcases mem_roots_or_exists_parent he with hmem | ⟨p, hp, hcallee⟩
    · exact absurd (mem_roots_ofExecutions.mpr ⟨e, hmem, rfl⟩) hroot
    · exact hfinal p.id p.node (.call e.id) f (node_ofExecutions h hp)
        (Execution.call_mem_node_calls hcallee) hf
  · intro m node a f hnode ha hf
    exact hfinal m node (.recursive a) f hnode ha hf

end Graph

/-- No call lands on a function that is overridden: dispatching ends at final overrides, and so does
every call in a graph. -/
theorem calls_land_on_final_overrides (s : Store) :
    (forall linearization, s.FinalDispatch linearization) ∧
    forall create config id a, Analyzes create s config id a ->
      exists contract, s.contract id = .ok contract ∧
        a.graph.CallsFinal s contract.linearization := by
  refine ⟨s.finalDispatch, ?_⟩
  intro create config id a h
  rcases exists_roots_of_analyzes h with ⟨contract, roots, hcontract, hrooted, hgraph, hunrolled⟩
  refine ⟨contract, hcontract, ?_⟩
  rw [hgraph]
  exact Graph.callsFinal_ofExecutions hrooted hunrolled

theorem finalOverride_cycle :
    Cycle.store.finalOverride [⟨0⟩, ⟨1⟩] ⟨1⟩ = .ok ⟨2⟩ ∧
      Cycle.store.finalOverride [⟨0⟩, ⟨1⟩] ⟨2⟩ = .ok ⟨2⟩ ∧
      exists a, Analyzes (fun _ => .ok ()) Cycle.store {} ⟨0⟩ a ∧ a.graph = Cycle.graph ∧
        exists contract, Cycle.store.contract ⟨0⟩ = .ok contract ∧
          a.graph.CallsFinal Cycle.store contract.linearization := by
  rcases calls_land_on_final_overrides Cycle.store with ⟨hdispatch, hcalls⟩
  have hmatch : Cycle.store.HoldsMatch [⟨0⟩, ⟨1⟩]
      (Cycle.function "f" .function true [.expr (Cycle.call ⟨3⟩), .expr (Cycle.stored ⟨0⟩)]) :=
    ⟨⟨0⟩, _, ⟨2⟩, List.mem_cons_self, rfl, List.mem_cons_self, _, rfl, by decide⟩
  have hagree := (hdispatch [⟨0⟩, ⟨1⟩]).agrees ⟨2⟩ ⟨1⟩ _ _ rfl rfl rfl rfl (by decide) rfl rfl
    hmatch
  have hfound : Cycle.store.finalOverride [⟨0⟩, ⟨1⟩] ⟨1⟩ = .ok ⟨2⟩ := by
    rw [← hagree]
    rfl
  refine ⟨hfound, (hdispatch [⟨0⟩, ⟨1⟩]).idempotent ⟨1⟩ ⟨2⟩ hfound, ?_⟩
  rcases Cycle.exists_analyzes with ⟨a, h, hgraph⟩
  exact ⟨a, h, hgraph, hcalls _ _ _ _ h⟩

end CallForest
