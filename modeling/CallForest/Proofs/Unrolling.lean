import CallForest.Course.Unroll
import CallForest.Proofs.Faults

/-!
# Unrolling as a relation

The course of some events is computed by recursion on the functions off the path. The relation below
says the same rule by rule: how each event is met, what has to hold when a call goes back, is cut or
is followed, and how the courses of the parts make the course of the whole.
-/

namespace CallForest

theorem Config.exceedsDepth_eq_false {config : Config} (h : config.maxCallDepth = none)
    (depth : Nat) : config.exceedsDepth depth = false := by
  rw [exceedsDepth, h]

namespace Store

/-!
# What a definition does

A state variable is written before its initial value is evaluated. The constructor of a contract that
declares none does nothing.
-/

def eventsOf (s : Store) (config : Config) : Definition -> Except Fault (List Event)
  | .function f => do
      let decl ← s.function f
      pure (decl.events config)
  | .stateVariable v => do
      let decl ← s.stateVariable v
      pure (decl.events config v)
  | .implicitConstructor _ => pure []

structure Resolves (s : Store) (linearization : List ContractId) (declared : FunctionId)
    (span : Span) (site : CallSite) : Prop where
  declared_eq : site.declared = declared
  span_eq : site.span = span
  dispatch : s.finalOverride linearization declared = .ok site.target
  stored : exists f, s.function site.target = .ok f ∧ site.name = f.name ∧
    site.signature = f.signature

/-!
# The rules
-/

/-- The course of some events at the end of a path. -/
inductive Unrolls (s : Store) (config : Config) (linearization : List ContractId) :
    List Definition -> List Event -> Course -> Prop where
  | done {path : List Definition} :
      Unrolls s config linearization path [] .done
  | read {path : List Definition} {v : StateVariableId} {events : List Event} {rest : Course} :
      Unrolls s config linearization path events rest ->
      Unrolls s config linearization path (.read v :: events) (.read v rest)
  | write {path : List Definition} {v : StateVariableId} {events : List Event} {rest : Course} :
      Unrolls s config linearization path events rest ->
      Unrolls s config linearization path (.write v :: events) (.write v rest)
  | back {path : List Definition} {declared : FunctionId} {span : Span} {events : List Event}
      {site : CallSite} {rest : Course} :
      Resolves s linearization declared span site ->
      Definition.function site.target ∈ path ->
      Unrolls s config linearization path events rest ->
      Unrolls s config linearization path (.call declared span :: events) (.back site rest)
  | cut {path : List Definition} {declared : FunctionId} {span : Span} {events : List Event}
      {site : CallSite} {rest : Course} :
      Resolves s linearization declared span site ->
      Definition.function site.target ∉ path ->
      config.exceedsDepth path.length = true ->
      Unrolls s config linearization path events rest ->
      Unrolls s config linearization path (.call declared span :: events)
        (.cut site path.length rest)
  | call {path : List Definition} {declared : FunctionId} {span : Span}
      {events inner : List Event} {site : CallSite} {body rest : Course} :
      Resolves s linearization declared span site ->
      Definition.function site.target ∉ path ->
      config.exceedsDepth path.length = false ->
      s.eventsOf config (.function site.target) = .ok inner ->
      Unrolls s config linearization (.function site.target :: path) inner body ->
      Unrolls s config linearization path events rest ->
      Unrolls s config linearization path (.call declared span :: events)
        (.call site body rest)

/-!
# Agreement with the recursion
-/

theorem Resolves.exists_decl {s : Store} {linearization : List ContractId}
    {declared : FunctionId} {span : Span} {site : CallSite}
    (h : Resolves s linearization declared span site) :
    exists f, s.function site.target = .ok f ∧
      site = ⟨declared, site.target, f.name, f.signature, span⟩ := by
  rcases h.stored with ⟨f, hf, hname, hsignature⟩
  refine ⟨f, hf, ?_⟩
  rw [← h.declared_eq, ← h.span_eq, ← hname, ← hsignature]

theorem eventsOf_function {s : Store} {config : Config} {id : FunctionId} {f : FunctionDecl}
    (hf : s.function id = .ok f) :
    s.eventsOf config (.function id) = .ok (f.events config) := by
  rw [eventsOf, hf]
  rfl

theorem unroll_call_eq {s : Store} {config : Config} {linearization : List ContractId}
    {path : List Definition} {declared target : FunctionId} {span : Span} {events : List Event}
    {f : FunctionDecl} (hdispatch : s.finalOverride linearization declared = .ok target)
    (hf : s.function target = .ok f) :
    s.unroll config linearization path (.call declared span :: events) =
      (let site : CallSite := ⟨declared, target, f.name, f.signature, span⟩
      if Definition.function target ∈ path then do
        let rest ← s.unroll config linearization path events
        pure (.back site rest)
      else if config.exceedsDepth path.length then do
        let rest ← s.unroll config linearization path events
        pure (.cut site path.length rest)
      else do
        let body ← s.unroll config linearization (.function target :: path) (f.events config)
        let rest ← s.unroll config linearization path events
        pure (.call site body rest)) := by
  rw [unroll]
  split
  · next fault h =>
      rw [hdispatch] at h
      cases h
  · next found h =>
      rw [hdispatch] at h
      cases h
      split
      · next fault h =>
          rw [hf] at h
          cases h
      · next g h =>
          rw [hf] at h
          cases h
          by_cases hm : Definition.function target ∈ path
          · simp [hm]
          · simp [hm]

theorem unroll_call (s : Store) (config : Config) (linearization : List ContractId)
    (path : List Definition) (declared : FunctionId) (span : Span) (events : List Event) :
    s.unroll config linearization path (.call declared span :: events) = (do
      let target ← s.finalOverride linearization declared
      let f ← s.function target
      let site : CallSite := ⟨declared, target, f.name, f.signature, span⟩
      if Definition.function target ∈ path then do
        let rest ← s.unroll config linearization path events
        pure (.back site rest)
      else if config.exceedsDepth path.length then do
        let rest ← s.unroll config linearization path events
        pure (.cut site path.length rest)
      else do
        let body ← s.unroll config linearization (.function target :: path) (f.events config)
        let rest ← s.unroll config linearization path events
        pure (.call site body rest)) := by
  cases hdispatch : s.finalOverride linearization declared with
  | error fault =>
      rw [unroll]
      split
      · next found h =>
          rw [hdispatch] at h
          cases h
          rfl
      · next target h =>
          rw [hdispatch] at h
          cases h
  | ok target =>
      show _ = (s.function target >>= _)
      cases hf : s.function target with
      | ok f => exact unroll_call_eq hdispatch hf
      | error fault =>
          rw [unroll]
          split
          · next found h =>
              rw [hdispatch] at h
              cases h
          · next found h =>
              rw [hdispatch] at h
              cases h
              split
              · next other h =>
                  rw [hf] at h
                  cases h
                  rfl
              · next f h =>
                  rw [hf] at h
                  cases h

theorem unroll_of_unrolls {s : Store} {config : Config} {linearization : List ContractId}
    {path : List Definition} {events : List Event} {course : Course}
    (h : Unrolls s config linearization path events course) :
    s.unroll config linearization path events = .ok course := by
  induction h with
  | done =>
      rw [unroll]
  | read _ ih =>
      rw [unroll, ih]
      rfl
  | write _ ih =>
      rw [unroll, ih]
      rfl
  | back hsite hmem _ ih =>
      rcases hsite.exists_decl with ⟨f, hf, heq⟩
      rw [unroll_call_eq hsite.dispatch hf, ← heq, if_pos hmem, ih]
      rfl
  | cut hsite hfresh hdepth _ ih =>
      rcases hsite.exists_decl with ⟨f, hf, heq⟩
      rw [unroll_call_eq hsite.dispatch hf, ← heq, if_neg hfresh, if_pos hdepth, ih]
      rfl
  | call hsite hfresh hdepth hinner _ _ ihBody ihRest =>
      rcases hsite.exists_decl with ⟨f, hf, heq⟩
      rw [eventsOf_function hf] at hinner
      cases hinner
      rw [unroll_call_eq hsite.dispatch hf, ← heq, if_neg hfresh,
        if_neg (Bool.eq_false_iff.mp hdepth), ihBody, ihRest]
      rfl

theorem unrolls_of_unroll {s : Store} {config : Config} {linearization : List ContractId}
    {path : List Definition} {events : List Event} :
    forall {course : Course}, s.unroll config linearization path events = .ok course ->
      Unrolls s config linearization path events course := by
  induction path, events using unroll.induct s config linearization with
  | case1 path =>
      intro course h
      rw [unroll] at h
      cases h
      exact Unrolls.done
  | case2 path v events ih =>
      intro course h
      rw [unroll, bind_pure_eq_ok_iff] at h
      rcases h with ⟨rest, hrest, rfl⟩
      exact Unrolls.read (ih hrest)
  | case3 path v events ih =>
      intro course h
      rw [unroll, bind_pure_eq_ok_iff] at h
      rcases h with ⟨rest, hrest, rfl⟩
      exact Unrolls.write (ih hrest)
  | case4 path declared span events fault hfault =>
      intro course h
      rw [unroll_call, hfault] at h
      cases h
  | case5 path declared span events target htarget fault hfault =>
      intro course h
      rw [unroll_call, htarget, bind_eq_ok_iff] at h
      rcases h with ⟨found, hfound, h⟩
      cases hfound
      rw [hfault] at h
      cases h
  | case6 path declared span events target htarget f hf hmem ih =>
      intro course h
      rw [unroll_call_eq htarget hf, if_pos hmem, bind_pure_eq_ok_iff] at h
      rcases h with ⟨rest, hrest, rfl⟩
      exact Unrolls.back ⟨rfl, rfl, htarget, f, hf, rfl, rfl⟩ hmem (ih hrest)
  | case7 path declared span events target htarget f hf hfresh hdepth ih =>
      intro course h
      rw [unroll_call_eq htarget hf, if_neg hfresh, if_pos hdepth, bind_pure_eq_ok_iff] at h
      rcases h with ⟨rest, hrest, rfl⟩
      exact Unrolls.cut ⟨rfl, rfl, htarget, f, hf, rfl, rfl⟩ hfresh hdepth (ih hrest)
  | case8 path declared span events target htarget f hf hfresh hdepth ihBody ihRest =>
      intro course h
      rw [unroll_call_eq htarget hf, if_neg hfresh, if_neg hdepth, bind_eq_ok_iff] at h
      rcases h with ⟨body, hbody, h⟩
      rw [bind_pure_eq_ok_iff] at h
      rcases h with ⟨rest, hrest, rfl⟩
      exact Unrolls.call ⟨rfl, rfl, htarget, f, hf, rfl, rfl⟩ hfresh
        (Bool.eq_false_iff.mpr hdepth) (eventsOf_function hf) (ihBody hbody) (ihRest hrest)

theorem unrolls_iff_unroll_eq_ok {s : Store} {config : Config} {linearization : List ContractId}
    {path : List Definition} {events : List Event} {course : Course} :
    Unrolls s config linearization path events course <->
      s.unroll config linearization path events = .ok course :=
  ⟨unroll_of_unrolls, unrolls_of_unroll⟩

end Store
end CallForest
