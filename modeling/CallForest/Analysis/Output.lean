import CallForest.Analysis.Notice
import CallForest.Diagnostic.Handler
import CallForest.Graph.Dot

/-!
# What an analysis puts out

An analysis keeps a log, and may draw its graph into a file. Both are kept on the side, and so are
the diagnostics in the handler: whether the analysis ends with a graph or with an error, they stay as
they have come to be. A warning goes both into the log and to the handler.
-/

namespace CallForest

structure Output where
  notices : List Notice := []
  file : Option String := none

def Output.append (o later : Output) : Output where
  notices := o.notices ++ later.notices
  file := later.file.or o.file

/-- Computations that emit diagnostics, put something out, and may come to a fault. -/
abbrev Analyzing := Diagnosed (StateT Output (Except Fault))

namespace Analyzing

def putOut (output : Output) : Analyzing Unit :=
  modifyThe Output (·.append output)

def tell (notice : Notice) : Analyzing Unit :=
  putOut { notices := [notice] }

def emitWarning (w : Warning) : Analyzing Unit := do
  tell (.warning w)
  Diagnosed.warn w

/-- Takes a step that is worth telling. Where the step is a warning, the warning is emitted. -/
def perform : Notice -> Analyzing Unit
  | .warning w => emitWarning w
  | notice => tell notice

def runIn {alpha : Type} (handler : Handler) (body : Analyzing alpha) :
    Except Fault ((Except Emitted alpha × Handler) × Output) :=
  (Diagnosed.runIn handler body).run {}

end Analyzing

/-- Puts out the drawing of a graph: nowhere, to the log, or to a file. `create` tells whether a file
can be made at a path, and if not, why. -/
def Graph.draw (g : Graph) (s : Store) (create : Text.Path -> Except String Unit) :
    Option String -> Except Fault Output
  | none => .ok {}
  | some path => do
      let dot ← g.toDot s
      if path.isEmpty then pure { notices := [.drawing dot] }
      else
        match create ⟨path⟩ with
        | .ok () => pure { file := some dot }
        | .error reason => pure { notices := [.drawingFailed path reason] }

end CallForest
