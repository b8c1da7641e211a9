import CallForest.Proofs.Unreached

/-!
# Stores that differ in code

The bodies of functions and the initial values of state variables tell an analysis their events and
nothing else. Dispatching and drawing do not look at them at all. So two stores that differ in code
only, with the same events, have the same analyses.
-/

namespace CallForest
namespace Store

/-- Two stores differ in code only, and what a definition does in the one is related to what it does
in the other. -/
structure Recodes (config : Config) (R : Definition -> List Event -> List Event -> Prop)
    (s s' : Store) : Prop where
  contract : forall c, s'.contract c = s.contract c
  function : forall f,
    (exists fault, s.function f = .error fault ∧ s'.function f = .error fault) ∨
    exists decl body, s.function f = .ok decl ∧ s'.function f = .ok { decl with body := body } ∧
      R (.function f) (decl.events config) (FunctionDecl.events { decl with body := body } config)
  stateVariable : forall v,
    (exists fault, s.stateVariable v = .error fault ∧ s'.stateVariable v = .error fault) ∨
    exists decl value, s.stateVariable v = .ok decl ∧
      s'.stateVariable v = .ok { decl with value := value } ∧
      R (.stateVariable v) (decl.events config v)
        (StateVariableDecl.events { decl with value := value } config v)
  implicitConstructor : forall c, R (.implicitConstructor c) [] []

namespace Recodes

section

variable {config : Config} {R : Definition -> List Event -> List Event -> Prop} {s s' : Store}
  (h : Recodes config R s s') {alpha : Type}

include h

theorem function_bind_eq {f : FunctionId} {k k' : FunctionDecl -> Except Fault alpha}
    (hk : forall decl body, R (.function f) (decl.events config)
      (FunctionDecl.events { decl with body := body } config) ->
      k' { decl with body := body } = k decl) :
    (s'.function f >>= k') = (s.function f >>= k) := by
  rcases h.function f with ⟨fault, hf, hf'⟩ | ⟨decl, body, hf, hf', hevents⟩
  · rw [hf, hf']
    rfl
  · rw [hf, hf']
    exact hk decl body hevents

theorem stateVariable_bind_eq {v : StateVariableId} {k k' : StateVariableDecl -> Except Fault alpha}
    (hk : forall decl value, R (.stateVariable v) (decl.events config v)
      (StateVariableDecl.events { decl with value := value } config v) ->
      k' { decl with value := value } = k decl) :
    (s'.stateVariable v >>= k') = (s.stateVariable v >>= k) := by
  rcases h.stateVariable v with ⟨fault, hv, hv'⟩ | ⟨decl, value, hv, hv', hevents⟩
  · rw [hv, hv']
    rfl
  · rw [hv, hv']
    exact hk decl value hevents

theorem exists_body {f : FunctionId} {decl : FunctionDecl} (hf : s.function f = .ok decl) :
    exists body, s'.function f = .ok { decl with body := body } ∧
      R (.function f) (decl.events config)
        (FunctionDecl.events { decl with body := body } config) := by
  rcases h.function f with ⟨fault, hfault, _⟩ | ⟨found, body, hfound, hbody, hevents⟩
  · cases hf.symm.trans hfault
  · cases hf.symm.trans hfound
    exact ⟨body, hbody, hevents⟩

theorem exists_value {v : StateVariableId} {decl : StateVariableDecl}
    (hv : s.stateVariable v = .ok decl) :
    exists value, s'.stateVariable v = .ok { decl with value := value } ∧
      R (.stateVariable v) (decl.events config v)
        (StateVariableDecl.events { decl with value := value } config v) := by
  rcases h.stateVariable v with ⟨fault, hfault, _⟩ | ⟨found, value, hfound, hvalue, hevents⟩
  · cases hv.symm.trans hfault
  · cases hv.symm.trans hfound
    exact ⟨value, hvalue, hevents⟩

/-!
# Dispatching
-/

theorem findOverride_eq (f : FunctionDecl) (body : Option Block) (ids : List FunctionId) :
    s'.findOverride { f with body := body } ids = s.findOverride f ids := by
  induction ids with
  | nil => rfl
  | cons id ids ih =>
      refine h.function_bind_eq ?_
      intro candidate other _
      have hsame : FunctionDecl.overrides { candidate with body := other }
          { f with body := body } = candidate.overrides f := rfl
      rw [hsame, ih]

theorem findOverrideAlong_eq (f : FunctionDecl) (body : Option Block) (ids : List ContractId) :
    s'.findOverrideAlong { f with body := body } ids = s.findOverrideAlong f ids := by
  induction ids with
  | nil => rfl
  | cons id ids ih => simp only [findOverrideAlong, h.contract, h.findOverride_eq, ih]

theorem finalOverride_eq (linearization : List ContractId) (id : FunctionId) :
    s'.finalOverride linearization id = s.finalOverride linearization id := by
  refine h.function_bind_eq ?_
  intro decl body _
  have hsame : FunctionDecl.dispatchesVirtually { decl with body := body } =
      decl.dispatchesVirtually := rfl
  rw [hsame, h.findOverrideAlong_eq]

theorem inheritedStateVariables_eq (linearization : List ContractId) :
    s'.inheritedStateVariables linearization = s.inheritedStateVariables linearization := by
  have hcontract : s'.contract = s.contract := funext h.contract
  rw [inheritedStateVariables, hcontract]
  rfl

/-!
# Drawing
-/

theorem friendlyName_eq (d : Definition) : d.friendlyName s' = d.friendlyName s := by
  cases d with
  | function f => exact h.function_bind_eq fun _ _ _ => rfl
  | stateVariable v => exact h.stateVariable_bind_eq fun _ _ _ => rfl
  | implicitConstructor c =>
      rw [Definition.friendlyName, h.contract]
      rfl

theorem variableNames_eq (ids : List StateVariableId) :
    s'.variableNames ids = s.variableNames ids :=
  congrArg (ids.mapM ·) (funext fun _ => h.stateVariable_bind_eq fun _ _ _ => rfl)

theorem label_eq (n : Node) : n.label s' = n.label s := by
  rw [Node.label, h.friendlyName_eq, h.variableNames_eq, h.variableNames_eq]
  rfl

theorem draw_eq (g : Graph) (create : Text.Path -> Except String Unit)
    (print : Option String) : g.draw s' create print = g.draw s create print := by
  have hlabel : Node.label s' = Node.label s := funext h.label_eq
  have hdot : g.toDot s' = g.toDot s := by
    simp only [Graph.toDot, hlabel]
  cases print with
  | none => rfl
  | some path =>
      rw [Graph.draw, hdot]
      rfl

end

/-!
# Other relations
-/

theorem imp {config : Config} {R R' : Definition -> List Event -> List Event -> Prop} {s s' : Store}
    (h : Recodes config R s s') (himp : forall d es es', R d es es' -> R' d es es') :
    Recodes config R' s s' where
  contract := h.contract
  function f := (h.function f).imp_right fun ⟨decl, body, hf, hf', hR⟩ =>
    ⟨decl, body, hf, hf', himp _ _ _ hR⟩
  stateVariable v := (h.stateVariable v).imp_right fun ⟨decl, value, hv, hv', hR⟩ =>
    ⟨decl, value, hv, hv', himp _ _ _ hR⟩
  implicitConstructor c := himp _ _ _ (h.implicitConstructor c)

/-!
# The same events
-/

section

variable {config : Config} {s s' : Store} (h : Recodes config (fun _ es es' => es' = es) s s')

include h

theorem unroll_eq (linearization : List ContractId) (path : List Definition)
    (events : List Event) :
    s'.unroll config linearization path events = s.unroll config linearization path events := by
  induction path, events using unroll.induct s config linearization with
  | case1 path => rw [unroll, unroll]
  | case2 path v events ih => rw [unroll, unroll, ih]
  | case3 path v events ih => rw [unroll, unroll, ih]
  | case4 path declared span events fault hfault =>
      rw [unroll_call, unroll_call, h.finalOverride_eq, hfault]
      rfl
  | case5 path declared span events target htarget fault hfault =>
      rcases h.function target with ⟨found, hf, hf'⟩ | ⟨decl, body, hdecl, _, _⟩
      · rw [unroll_call, unroll_call, h.finalOverride_eq, htarget]
        show (s'.function target >>= _) = (s.function target >>= _)
        rw [hf, hf']
        rfl
      · cases hfault.symm.trans hdecl
  | case6 path declared span events target htarget f hf hmem ih =>
      rcases h.exists_body hf with ⟨body, hf', _⟩
      rw [unroll_call_eq htarget hf, if_pos hmem,
        unroll_call_eq ((h.finalOverride_eq _ _).trans htarget) hf', if_pos hmem, ih]
      rfl
  | case7 path declared span events target htarget f hf hfresh hdepth ih =>
      rcases h.exists_body hf with ⟨body, hf', _⟩
      rw [unroll_call_eq htarget hf, if_neg hfresh, if_pos hdepth,
        unroll_call_eq ((h.finalOverride_eq _ _).trans htarget) hf', if_neg hfresh, if_pos hdepth,
        ih]
      rfl
  | case8 path declared span events target htarget f hf hfresh hdepth ihBody ihRest =>
      rcases h.exists_body hf with ⟨body, hf', hevents⟩
      rw [unroll_call_eq htarget hf, if_neg hfresh, if_neg hdepth,
        unroll_call_eq ((h.finalOverride_eq _ _).trans htarget) hf', if_neg hfresh, if_neg hdepth,
        hevents, ihBody, ihRest]
      rfl

theorem constructorEntry_eq (linearization : List ContractId) (id : ContractId) :
    s'.constructorEntry config linearization id = s.constructorEntry config linearization id := by
  rw [constructorEntry, constructorEntry, h.contract]
  refine congrArg (s.contract id >>= ·) (funext fun contract => ?_)
  cases contract.constructor with
  | none => rfl
  | some f =>
      refine h.function_bind_eq ?_
      intro decl body hevents
      rw [hevents, unrollDefinition, h.unroll_eq]
      rfl

theorem stateVariableEntry_eq (linearization : List ContractId) (id : StateVariableId) :
    s'.stateVariableEntry config linearization id =
      s.stateVariableEntry config linearization id := by
  refine h.stateVariable_bind_eq ?_
  intro decl value hevents
  rw [hevents, unrollDefinition, h.unroll_eq]
  rfl

theorem entryPoints_eq (linearization : List ContractId) :
    s'.entryPoints config linearization = s.entryPoints config linearization := by
  have hconstructor : s'.constructorEntry config linearization =
      s.constructorEntry config linearization := funext (h.constructorEntry_eq linearization)
  have hvariable : s'.stateVariableEntry config linearization =
      s.stateVariableEntry config linearization := funext (h.stateVariableEntry_eq linearization)
  rw [entryPoints, entryPoints, hconstructor, hvariable, h.inheritedStateVariables_eq]

theorem run_eq (create : Text.Path -> Except String Unit) (id : ContractId) :
    Analysis.run create s' config id = Analysis.run create s config id := by
  simp only [Analysis.run, Analysis.entryPoints, h.contract, h.entryPoints_eq, h.draw_eq]

end

/-!
# Replacing code
-/

section

variable {config : Config} {R : Definition -> List Event -> List Event -> Prop} {s s' : Store}

theorem function_of_eq {f : FunctionId} (hR : forall es, R (.function f) es es)
    (h : s'.function f = s.function f) :
    (exists fault, s.function f = .error fault ∧ s'.function f = .error fault) ∨
    exists decl body, s.function f = .ok decl ∧ s'.function f = .ok { decl with body := body } ∧
      R (.function f) (decl.events config)
        (FunctionDecl.events { decl with body := body } config) := by
  cases hf : s.function f with
  | error fault => exact Or.inl ⟨fault, rfl, h.trans hf⟩
  | ok decl => exact Or.inr ⟨decl, decl.body, rfl, h.trans hf, hR _⟩

theorem stateVariable_of_eq {v : StateVariableId} (hR : forall es, R (.stateVariable v) es es)
    (h : s'.stateVariable v = s.stateVariable v) :
    (exists fault, s.stateVariable v = .error fault ∧ s'.stateVariable v = .error fault) ∨
    exists decl value, s.stateVariable v = .ok decl ∧
      s'.stateVariable v = .ok { decl with value := value } ∧
      R (.stateVariable v) (decl.events config v)
        (StateVariableDecl.events { decl with value := value } config v) := by
  cases hv : s.stateVariable v with
  | error fault => exact Or.inl ⟨fault, rfl, h.trans hv⟩
  | ok decl => exact Or.inr ⟨decl, decl.value, rfl, h.trans hv, hR _⟩

theorem of_body {f : FunctionId} (hR : forall d es, d ≠ .function f -> R d es es)
    {decl : FunctionDecl} (hdecl : s.function f = .ok decl) {body : Option Block}
    (hbody : R (.function f) (decl.events config)
      (FunctionDecl.events { decl with body := body } config)) :
    Recodes config R s (s.replace f { decl with body := body }).2 where
  contract _ := get_replace_of_ne (by decide) _
  function f' := by
    have hget : (s.replace f { decl with body := body }).2.function f' =
        if f = f' then .ok { decl with body := body } else s.function f' := get_replace_eq hdecl _
    by_cases hplace : f = f'
    · subst hplace
      rw [if_pos rfl] at hget
      exact Or.inr ⟨decl, body, hdecl, hget, hbody⟩
    · rw [if_neg hplace] at hget
      refine function_of_eq (fun es => hR _ es ?_) hget
      intro heq
      exact hplace (Definition.function.inj heq).symm
  stateVariable _ :=
    stateVariable_of_eq (fun es => hR _ es fun h => by cases h) (get_replace_of_ne (by decide) _)
  implicitConstructor _ := hR _ _ fun h => by cases h

theorem of_value {v : StateVariableId} (hR : forall d es, d ≠ .stateVariable v -> R d es es)
    {decl : StateVariableDecl} (hdecl : s.stateVariable v = .ok decl) {value : Option Expr}
    (hvalue : R (.stateVariable v) (decl.events config v)
      (StateVariableDecl.events { decl with value := value } config v)) :
    Recodes config R s (s.replace v { decl with value := value }).2 where
  contract _ := get_replace_of_ne (by decide) _
  function _ :=
    function_of_eq (fun es => hR _ es fun h => by cases h) (get_replace_of_ne (by decide) _)
  stateVariable v' := by
    have hget : (s.replace v { decl with value := value }).2.stateVariable v' =
        if v = v' then .ok { decl with value := value } else s.stateVariable v' :=
      get_replace_eq hdecl _
    by_cases hplace : v = v'
    · subst hplace
      rw [if_pos rfl] at hget
      exact Or.inr ⟨decl, value, hdecl, hget, hvalue⟩
    · rw [if_neg hplace] at hget
      refine stateVariable_of_eq (fun es => hR _ es ?_) hget
      intro heq
      exact hplace (Definition.stateVariable.inj heq).symm
  implicitConstructor _ := hR _ _ fun h => by cases h

end

end Recodes
end Store
end CallForest
