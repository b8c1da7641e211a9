import CallForest.Diagnostic.Basic

/-!
# Handlers

A handler collects errors and warnings in the order in which they are emitted. A computation that
may emit diagnostics runs inside a handler and can stop early once it has emitted an error. A scope
runs such a computation inside a fresh handler, hands its diagnostics on, and fails if the
computation stopped or any error was collected.
-/

namespace CallForest

structure Handler where
  errors : List Error := []
  warnings : List Warning := []

/-- Evidence that an error was emitted. All evidence is the same. -/
structure Emitted where
  deriving DecidableEq, Repr

namespace Handler

def emitError (h : Handler) (e : Error) : Handler :=
  { h with errors := h.errors ++ [e] }

def emitWarning (h : Handler) (w : Warning) : Handler :=
  { h with warnings := h.warnings ++ [w] }

def hasErrors (h : Handler) : Bool :=
  !h.errors.isEmpty

def hasWarnings (h : Handler) : Bool :=
  !h.warnings.isEmpty

def append (h other : Handler) : Handler where
  errors := h.errors ++ other.errors
  warnings := h.warnings ++ other.warnings

end Handler

abbrev Diagnosed (m : Type -> Type) (alpha : Type) := ExceptT Emitted (StateT Handler m) alpha

namespace Diagnosed

variable {m : Type -> Type} [Monad m] {alpha : Type}

def error (e : Error) : Diagnosed m Emitted := do
  modify (·.emitError e)
  pure ⟨⟩

def warn (w : Warning) : Diagnosed m Unit :=
  modify (·.emitWarning w)

def runIn (handler : Handler) (body : Diagnosed m alpha) : m (Except Emitted alpha × Handler) :=
  body.run.run handler

/-- Runs a computation inside a fresh handler and appends its diagnostics to the handler around it.
The scope fails if the computation does or if the fresh handler has collected an error. -/
def scope (body : Diagnosed m alpha) : Diagnosed m alpha :=
  ExceptT.mk fun outer => do
    let (result, inner) ← runIn {} body
    let outer := outer.append inner
    match result with
    | .ok a => pure (if inner.hasErrors then .error ⟨⟩ else .ok a, outer)
    | .error evidence => pure (.error evidence, outer)

end Diagnosed
end CallForest
