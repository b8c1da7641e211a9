import CallForest.Diagnostic.Basic
import CallForest.Program.DeclId
import CallForest.Text.Path
import CallForest.Text.Quoted

/-!
# Notices

What an analysis tells about its progress. Warnings are among the notices, so the log shows them in
their place.
-/

namespace CallForest

inductive LogLevel where
  | error
  | warn
  | info
  | debug
  | trace
  deriving DecidableEq, Repr

def LogLevel.name : LogLevel -> String
  | error => "ERROR"
  | warn => "WARN"
  | info => "INFO"
  | debug => "DEBUG"
  | trace => "TRACE"

inductive Notice where
  | building (contract : Ident)
  | constructorRoot (contract : Ident)
  | implicitRoot (contract : Ident)
  | variableRoot (name : Ident)
  | redirected (signature : String) (contract : Ident)
  | read (v : StateVariableId)
  | write (v : StateVariableId)
  | warning (w : Warning)
  | drawing (dot : String)
  | drawingFailed (path reason : String)

namespace Notice

def level : Notice -> LogLevel
  | building _ => .debug
  | constructorRoot _ => .debug
  | implicitRoot _ => .debug
  | variableRoot _ => .debug
  | redirected _ _ => .debug
  | read _ => .trace
  | write _ => .trace
  | warning _ => .warn
  | drawing _ => .info
  | drawingFailed _ _ => .error

def message : Notice -> String
  | building contract => "Building function call graph of contract " ++ contract.text
  | constructorRoot contract => "Adding root for constructor of " ++ contract.text
  | implicitRoot contract => "Adding root for implicit constructor of " ++ contract.text
  | variableRoot name => "Adding root for state variable " ++ name.text
  | redirected signature contract =>
      "Call to " ++ signature ++ " resolved to the override in contract " ++ contract.text
  | read v => "Recorded read of state variable " ++ v.describe
  | write v => "Recorded write of state variable " ++ v.describe
  | warning w => w.message
  | drawing dot => dot
  | drawingFailed path reason =>
      "There was an issue while outputing function call graph to path " ++ Text.quote path
        ++ "\n" ++ reason

def warning? : Notice -> Option Warning
  | warning w => some w
  | _ => none

end Notice
end CallForest
