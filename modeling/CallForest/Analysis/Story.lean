import CallForest.Analysis.Notice
import CallForest.Analysis.Plan

/-!
# The story of an analysis

The notices of the entry points, in order. A redirected call is told before what becomes of it, and
a recursive call is warned about only where its function is called recursively for the first time in
the whole analysis.
-/

namespace CallForest
namespace CallSite

def redirection (site : CallSite) (contract : Ident) : List Notice :=
  if site.target = site.declared then [] else [.redirected site.signature contract]

/-- The warning that a call goes back to a function on the path. The path lists the functions that
are being executed with their names, the innermost first; the chain is its part up to the function
that is called again, read outwards in. -/
def recursionWarning (site : CallSite) (path : List (FunctionId × Ident)) : Warning where
  span := site.span
  cause := .recursiveCall site.name
    (site.name :: ((path.takeWhile fun frame => frame.1 ≠ site.target).map (·.2)).reverse)

def depthWarning (site : CallSite) (depth : Nat) : Warning where
  span := site.span
  cause := .depthLimit site.name depth

end CallSite

namespace Course

/-- The notices of a course, and the functions whose recursion has been told by its end. -/
def story (contract : Ident) : List (FunctionId × Ident) -> List FunctionId -> Course ->
    List Notice × List FunctionId
  | _, told, .done => ([], told)
  | path, told, .read v rest =>
      let later := story contract path told rest
      (.read v :: later.1, later.2)
  | path, told, .write v rest =>
      let later := story contract path told rest
      (.write v :: later.1, later.2)
  | path, told, .call site body rest =>
      let inner := story contract ((site.target, site.name) :: path) told body
      let later := story contract path inner.2 rest
      (site.redirection contract ++ inner.1 ++ later.1, later.2)
  | path, told, .back site rest =>
      if site.target ∈ told then
        let later := story contract path told rest
        (site.redirection contract ++ later.1, later.2)
      else
        let later := story contract path (site.target :: told) rest
        (site.redirection contract ++ .warning (site.recursionWarning path) :: later.1, later.2)
  | path, told, .cut site depth rest =>
      let later := story contract path told rest
      (site.redirection contract ++ .warning (site.depthWarning depth) :: later.1, later.2)

end Course

namespace EntryPoint

def story (owner : Ident) (told : List FunctionId) : EntryPoint -> List Notice × List FunctionId
  | constructor contract id name course =>
      let inner := course.story owner [(id, name)] told
      (.constructorRoot contract :: inner.1, inner.2)
  | implicitConstructor contract _ => ([.implicitRoot contract], told)
  | missingConstructor contract span => ([.warning ⟨span, .missingConstructor contract⟩], told)
  | stateVariable name _ course =>
      let inner := course.story owner [] told
      (.variableRoot name :: inner.1, inner.2)

def storyOfList (owner : Ident) : List FunctionId -> List EntryPoint -> List Notice
  | _, [] => []
  | told, e :: es =>
      let first := e.story owner told
      first.1 ++ storyOfList owner first.2 es

end EntryPoint
end CallForest
