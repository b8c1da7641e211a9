import CallForest.Text.Quoted

/-!
# Literals
-/

namespace CallForest

/-- A literal of the source. A number is kept as written, with its unit already applied. -/
inductive Literal where
  | bool (value : Bool)
  | number (text : String)
  | string (text : String)
  | hex (bytes : List UInt8)
  deriving DecidableEq, Hashable

namespace Literal

def text : Literal -> String
  | bool true => "true"
  | bool false => "false"
  | number text => text
  | string text => Text.quote text
  | hex bytes => "hex\"" ++ String.ofList (bytes.flatMap Text.hexByte) ++ "\""

end Literal
end CallForest
