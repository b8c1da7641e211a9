import CallForest.Proofs.Outcome

/-!
# Scopes inside scopes

A scope runs in a fresh handler whose diagnostics are handed on when it ends. So whatever scopes a
computation opens and whatever it does with their results, the handler that it runs in receives all
that is emitted, in the order in which it is emitted. To say what this order is, everything that is
emitted is announced to the monad below the handlers. A scope fails if the computation in it does, or
if any error was emitted in it, no matter how many scopes further in.
-/

namespace CallForest

open Diagnosed

inductive Emission where
  | error (e : Error)
  | warning (w : Warning)

namespace Emission

def error? : Emission -> Option Error
  | error e => some e
  | warning _ => none

def warning? : Emission -> Option Warning
  | error _ => none
  | warning w => some w

end Emission

namespace Handler

def emissions (h : Handler) : List Emission :=
  h.errors.map .error ++ h.warnings.map .warning

def receive (h : Handler) (es : List Emission) : Handler where
  errors := h.errors ++ es.filterMap Emission.error?
  warnings := h.warnings ++ es.filterMap Emission.warning?

end Handler

/-- A computation that emits diagnostics, appends handlers and opens scopes. It goes on from a scope
with the result of the scope, whichever it is. It ends with a value, or early with evidence. -/
inductive Script : Type -> Type 1 where
  | finish {alpha : Type} (result : Except Emitted alpha) : Script alpha
  | emitError {alpha : Type} (e : Error) (next : Emitted -> Script alpha) : Script alpha
  | emitWarning {alpha : Type} (w : Warning) (next : Script alpha) : Script alpha
  | append {alpha : Type} (other : Handler) (next : Script alpha) : Script alpha
  | scope {alpha beta : Type} (inner : Script beta)
      (next : Except Emitted beta -> Script alpha) : Script alpha

namespace Script

variable {m : Type -> Type} [Monad m]

def announcing (announce : Emission -> m PUnit) (es : List Emission) {alpha : Type}
    (emit : Diagnosed m alpha) : Diagnosed m alpha := do
  liftM (forM es announce)
  emit

def perform (announce : Emission -> m PUnit) {alpha : Type} : Script alpha -> Diagnosed m alpha
  | finish result => ExceptT.mk (pure result)
  | emitError e next => do
      let evidence ← announcing announce [.error e] (Diagnosed.error e)
      perform announce (next evidence)
  | emitWarning w next => do
      announcing announce [.warning w] (warn w)
      perform announce next
  | append other next => do
      announcing announce other.emissions (modify (·.append other))
      perform announce next
  | scope inner next => do
      let result ← ExceptT.lift (Diagnosed.scope (perform announce inner)).run
      perform announce (next result)

/-- A script emits some diagnostics and ends with a result, whatever handler it runs in. -/
def Emits {alpha : Type} (script : Script alpha) (es : List Emission)
    (result : Except Emitted alpha) : Prop :=
  forall (m : Type -> Type) [Monad m] [LawfulMonad m] (announce : Emission -> m PUnit)
    (handler : Handler),
    runIn handler (script.perform announce) = (do
      forM es announce
      pure (result, handler.receive es))

def scopeResult {alpha : Type} (es : List Emission) (result : Except Emitted alpha) :
    Except Emitted alpha :=
  if (es.filterMap Emission.error?).isEmpty then result else .error ⟨⟩

variable [LawfulMonad m]

theorem runIn_exceptLift {alpha : Type} (x : StateT Handler m alpha) (handler : Handler) :
    runIn handler (ExceptT.lift x) = (do
      let outcome ← x.run handler
      pure (.ok outcome.1, outcome.2)) := by
  simp [runIn]

theorem runIn_liftM {alpha : Type} (x : m alpha) (handler : Handler) :
    runIn handler (liftM x : Diagnosed m alpha) = (do
      let a ← x
      pure (.ok a, handler)) := by
  show runIn handler (ExceptT.lift (StateT.lift x)) = _
  rw [runIn_exceptLift, StateT.run_lift]
  simp only [bind_assoc, pure_bind]

theorem runIn_modify (f : Handler -> Handler) (handler : Handler) :
    runIn handler (modify f : Diagnosed m PUnit) = pure (.ok ⟨⟩, f handler) := by
  show runIn handler (ExceptT.lift (modify f)) = _
  rw [runIn_exceptLift, StateT.run_modify, pure_bind]

theorem runIn_announcing_bind {alpha beta : Type} (announce : Emission -> m PUnit)
    {es : List Emission} {emit : Diagnosed m beta} {b : beta} {handler : Handler}
    (hemit : runIn handler emit = pure (.ok b, handler.receive es))
    (rest : beta -> Diagnosed m alpha) :
    runIn handler (announcing announce es emit >>= rest) = (do
      forM es announce
      runIn (handler.receive es) (rest b)) := by
  rw [runIn_bind, announcing, runIn_bind, runIn_liftM]
  simp only [bind_assoc, pure_bind, hemit]

end Script

namespace Handler

theorem receive_nil (h : Handler) : h.receive [] = h := by
  rcases h with ⟨errors, warnings⟩
  simp only [receive, List.filterMap_nil, List.append_nil]

theorem receive_error (h : Handler) (e : Error) : h.receive [.error e] = h.emitError e := by
  have hwarnings : h.warnings ++ [] = h.warnings := List.append_nil _
  rw [emitError, ← hwarnings]
  rfl

theorem receive_warning (h : Handler) (w : Warning) : h.receive [.warning w] = h.emitWarning w := by
  have herrors : h.errors ++ [] = h.errors := List.append_nil _
  rw [emitWarning, ← herrors]
  rfl

theorem receive_receive (h : Handler) (es fs : List Emission) :
    (h.receive es).receive fs = h.receive (es ++ fs) := by
  simp only [receive, List.filterMap_append, List.append_assoc]

theorem receive_emissions (h other : Handler) : h.receive other.emissions = h.append other := by
  have herrors : other.emissions.filterMap Emission.error? = other.errors := by
    rw [emissions, List.filterMap_append, List.filterMap_map, List.filterMap_map]
    simp [Function.comp_def, Emission.error?]
  have hwarnings : other.emissions.filterMap Emission.warning? = other.warnings := by
    rw [emissions, List.filterMap_append, List.filterMap_map, List.filterMap_map]
    simp [Function.comp_def, Emission.warning?]
  rw [receive, append, herrors, hwarnings]

theorem append_receive (h : Handler) (es : List Emission) :
    h.append (({} : Handler).receive es) = h.receive es :=
  rfl

theorem hasErrors_receive (es : List Emission) :
    (({} : Handler).receive es).hasErrors = !(es.filterMap Emission.error?).isEmpty :=
  rfl

end Handler

namespace Script

variable {m : Type -> Type} [Monad m] [LawfulMonad m] {alpha beta : Type}

/-!
# Steps
-/

theorem runIn_error (e : Error) (handler : Handler) :
    runIn handler (Diagnosed.error e : Diagnosed m Emitted) =
      pure (.ok ⟨⟩, handler.receive [.error e]) := by
  rw [Handler.receive_error, Diagnosed.error, runIn_bind, runIn_modify, pure_bind]
  rfl

theorem runIn_warn (w : Warning) (handler : Handler) :
    runIn handler (warn w : Diagnosed m Unit) = pure (.ok ⟨⟩, handler.receive [.warning w]) := by
  rw [Handler.receive_warning, warn, runIn_modify]

theorem Emits.step {script : Script alpha} {es fs : List Emission} {result : Except Emitted alpha}
    (h : script.Emits fs result) (announce : Emission -> m PUnit) (handler : Handler) :
    (do
      forM es announce
      runIn (handler.receive es) (script.perform announce)) = (do
      forM (es ++ fs) announce
      pure (result, handler.receive (es ++ fs)) : m _) := by
  rw [h m announce, Handler.receive_receive, List.forM_append, bind_assoc]

theorem Emits.runIn_scope {script : Script alpha} {es : List Emission}
    {result : Except Emitted alpha} (h : script.Emits es result) (announce : Emission -> m PUnit)
    (handler : Handler) :
    runIn handler (Diagnosed.scope (script.perform announce)) = (do
      forM es announce
      pure (scopeResult es result, handler.receive es)) := by
  rw [Diagnosed.runIn_scope, h m announce, bind_assoc]
  congr 1
  funext _
  rw [pure_bind]
  cases result with
  | ok a =>
      show (pure (if (({} : Handler).receive es).hasErrors then _ else _, _) : m _) = _
      rw [Handler.append_receive, Handler.hasErrors_receive, scopeResult]
      cases (es.filterMap Emission.error?).isEmpty <;> rfl
  | error evidence =>
      have hresult : scopeResult es (.error evidence) = (.error evidence : Except Emitted alpha) :=
        ite_self _
      rw [hresult]
      rfl

theorem scopeResult_eq_ok_iff {es : List Emission} {result : Except Emitted alpha} {a : alpha} :
    scopeResult es result = .ok a <-> result = .ok a ∧ es.filterMap Emission.error? = [] := by
  rw [scopeResult]
  by_cases hempty : (es.filterMap Emission.error?).isEmpty = true
  · rw [if_pos hempty]
    exact (and_iff_left (List.isEmpty_iff.mp hempty)).symm
  · rw [if_neg hempty]
    constructor
    · intro h
      cases h
    · intro h
      exact absurd (List.isEmpty_iff.mpr h.2) hempty

/-!
# Whole scripts

What a script emits depends neither on the handler that it runs in nor on the monad below. A scope
inside it adds what is emitted in the scope, and the script goes on with the result of the scope.
-/

theorem exists_emits {alpha : Type} (script : Script alpha) :
    exists es result, script.Emits es result := by
  induction script with
  | finish result =>
      refine ⟨[], result, ?_⟩
      intro m _ _ announce handler
      rw [Handler.receive_nil, List.forM_nil, pure_bind]
      rfl
  | emitError e next ih =>
      rcases ih ⟨⟩ with ⟨es, result, h⟩
      refine ⟨[.error e] ++ es, result, ?_⟩
      intro m _ _ announce handler
      rw [perform, runIn_announcing_bind announce (runIn_error e handler), h.step]
  | emitWarning w next ih =>
      rcases ih with ⟨es, result, h⟩
      refine ⟨[.warning w] ++ es, result, ?_⟩
      intro m _ _ announce handler
      rw [perform, runIn_announcing_bind announce (runIn_warn w handler), h.step]
  | append other next ih =>
      rcases ih with ⟨es, result, h⟩
      refine ⟨other.emissions ++ es, result, ?_⟩
      intro m _ _ announce handler
      have hemit := runIn_modify (m := m) (·.append other) handler
      rw [← Handler.receive_emissions] at hemit
      rw [perform, runIn_announcing_bind announce hemit, h.step]
  | scope inner next ihInner ihNext =>
      rcases ihInner with ⟨es, result, h⟩
      rcases ihNext (scopeResult es result) with ⟨fs, last, hnext⟩
      refine ⟨es ++ fs, last, ?_⟩
      intro m _ _ announce handler
      have hscope : (Diagnosed.scope (inner.perform announce)).run.run handler = _ :=
        h.runIn_scope announce handler
      rw [perform, runIn_bind, runIn_exceptLift, hscope]
      simp only [bind_assoc, pure_bind]
      exact hnext.step announce handler

end Script

/-- A script emits some diagnostics, which every handler receives, and ends with some result. A scope
around the script hands on the same diagnostics. It has the result of the script if no error is among
them, and otherwise it fails. -/
theorem scopes_keep_diagnostics {alpha : Type} (script : Script alpha) :
    exists (es : List Emission) (result outcome : Except Emitted alpha),
      (forall a, outcome = .ok a <-> result = .ok a ∧ es.filterMap Emission.error? = []) ∧
      forall (m : Type -> Type) [Monad m] [LawfulMonad m] (announce : Emission -> m PUnit)
        (before : Handler),
        runIn before (script.perform announce) = (do
          forM es announce
          pure (result, before.receive es)) ∧
        runIn before (Diagnosed.scope (script.perform announce)) = (do
          forM es announce
          pure (outcome, before.receive es)) := by
  rcases script.exists_emits with ⟨es, result, h⟩
  refine ⟨es, result, Script.scopeResult es result, fun _ => Script.scopeResult_eq_ok_iff, ?_⟩
  intro m _ _ announce before
  exact ⟨h m announce before, h.runIn_scope announce before⟩

/-!
# An error that is not heeded

Two scopes further in an error is emitted and the scopes go on to a value. The script around them does
not look at their results and ends with a value, too, but a scope around it fails. What is announced
is written into a log.
-/

namespace Unheeded

def error (name : String) : Error :=
  .invalidLinearization (.named name) .dummy

def warning (name : String) : Warning :=
  ⟨.dummy, .missingConstructor (.named name)⟩

def script : Script Nat :=
  .emitWarning (warning "a")
    (.scope
      (.scope (.emitError (error "b") fun _ => .finish (.ok 1)) fun _ =>
        .emitWarning (warning "c") (.finish (.ok 2)))
      fun _ => .append ⟨[], [warning "d"]⟩ (.finish (.ok 3)))

def log (emission : Emission) : StateM (List Emission) PUnit :=
  modify (· ++ [emission])

def before : Handler :=
  ⟨[error "z"], []⟩

end Unheeded

theorem keepsDiagnostics_unheeded :
    (runIn Unheeded.before (Diagnosed.scope (Unheeded.script.perform Unheeded.log))).run [] =
        ((.error ⟨⟩, ⟨[Unheeded.error "z", Unheeded.error "b"],
          [Unheeded.warning "a", Unheeded.warning "c", Unheeded.warning "d"]⟩),
          [.warning (Unheeded.warning "a"), .error (Unheeded.error "b"),
            .warning (Unheeded.warning "c"), .warning (Unheeded.warning "d")]) ∧
      exists es result outcome,
        (forall a, outcome = .ok a <-> result = .ok a ∧ es.filterMap Emission.error? = []) ∧
        runIn Unheeded.before (Unheeded.script.perform Unheeded.log) = (do
          forM es Unheeded.log
          pure (result, Unheeded.before.receive es)) ∧
        runIn Unheeded.before (Diagnosed.scope (Unheeded.script.perform Unheeded.log)) = (do
          forM es Unheeded.log
          pure (outcome, Unheeded.before.receive es)) := by
  rcases scopes_keep_diagnostics Unheeded.script with ⟨es, result, outcome, hiff, h⟩
  exact ⟨rfl, es, result, outcome, hiff, h _ Unheeded.log Unheeded.before⟩

end CallForest
