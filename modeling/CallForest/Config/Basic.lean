/-!
# Configuration
-/

namespace CallForest

/-- What becomes of a contract without a constructor: an empty root that stands for the implicit
constructor, or no root but a warning. -/
inductive MissingConstructor where
  | synthesize
  | skip
  deriving DecidableEq, Hashable, Repr, Inhabited

namespace MissingConstructor

def text : MissingConstructor -> String
  | synthesize => "synthesize"
  | skip => "skip"

def ofText? (word : String) : Option MissingConstructor :=
  if word = "synthesize" then some synthesize
  else if word = "skip" then some skip
  else none

end MissingConstructor

/-- How a call graph is built. `maxCallDepth` bounds the nesting of calls below a root; cycles are
cut in any case. `trackNestedWrites` records writes through index and member accesses, and
`trackCallArguments` what happens inside arguments. `printGraph` says where the drawing of the graph
goes; the empty path sends it to the log. -/
structure Config where
  maxCallDepth : Option Nat := none
  trackNestedWrites : Bool := false
  trackCallArguments : Bool := false
  missingConstructor : MissingConstructor := .synthesize
  printGraph : Option String := none
  deriving DecidableEq, Repr

namespace Config

def exceedsDepth (config : Config) (depth : Nat) : Bool :=
  match config.maxCallDepth with
  | none => false
  | some limit => limit < depth

end Config
end CallForest
