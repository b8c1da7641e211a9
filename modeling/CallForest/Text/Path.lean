/-!
# Paths

A path is a text whose meaning is its list of components. Repeated and trailing separators do not
count, nor does an inner `.`; a leading `.` does. Paths are compared component by component.
-/

namespace CallForest
namespace Text

/-- One step of a path. The order of the constructors is the order of the components. -/
inductive PathComponent where
  | root
  | here
  | parent
  | name (text : String)
  deriving DecidableEq, Hashable, Ord, Repr

def segments : List Char -> List (List Char)
  | [] => [[]]
  | c :: cs =>
      if c = '/' then [] :: segments cs
      else
        match segments cs with
        | [] => [[c]]
        | s :: rest => (c :: s) :: rest

def PathComponent.ofSegment? (segment : List Char) : Option PathComponent :=
  if segment = [] ∨ segment = ['.'] then none
  else if segment = ['.', '.'] then some .parent
  else some (.name (String.ofList segment))

structure Path where
  text : String
  deriving Repr

namespace Path

def components (p : Path) : List PathComponent :=
  let rest := (segments p.text.toList).filterMap PathComponent.ofSegment?
  match p.text.toList with
  | '/' :: _ => .root :: rest
  | ['.'] => .here :: rest
  | '.' :: '/' :: _ => .here :: rest
  | _ => rest

instance : BEq Path where
  beq p q := p.components == q.components

instance : Hashable Path where
  hash p := hash p.components

instance : Ord Path where
  compare p q := compare p.components q.components

end Path

end Text
end CallForest
