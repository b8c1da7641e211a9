/-!
# JSON values

A JSON text as a value. A natural number is kept as a number, every other number as the characters
that write it. Members of an object are kept in order and with repetitions. A string that escapes
half of a surrogate pair has no text; it may be skipped but not read.
-/

namespace CallForest

inductive Json where
  | null
  | bool (value : Bool)
  | natural (value : Nat)
  | number (literal : List Char)
  | string (text : Option String)
  | array (items : List Json)
  | object (members : List (Option String × Json))

namespace Json

def ofString (s : String) : Json :=
  .string (some s)

def ofNats (ns : List Nat) : Json :=
  .array (ns.map .natural)

def ofFields (fields : List (String × Json)) : Json :=
  .object (fields.map fun (name, value) => (some name, value))

/-!
# Reading values
-/

def wordBound : Nat :=
  UInt64.size

def word? : Json -> Option Nat
  | natural n => if n < wordBound then some n else none
  | _ => none

def bool? : Json -> Option Bool
  | bool b => some b
  | _ => none

def string? : Json -> Option String
  | string text => text
  | _ => none

def list? {alpha : Type} (read : Json -> Option alpha) : Json -> Option (List alpha)
  | array items => items.mapM read
  | _ => none

def option? {alpha : Type} (read : Json -> Option alpha) : Json -> Option (Option alpha)
  | null => some none
  | j => (read j).map some

/-- The value of a member, where a member that occurs twice makes the object unreadable. -/
def field? (name : String) (members : List (String × Json)) : Option (Option Json) :=
  match members.filter (·.1 == name) with
  | [] => some none
  | [(_, value)] => some (some value)
  | _ => none

/-- The fields of a record, each present or absent. A record is an object, whose other members do
not matter, or the array of its first fields in their order. -/
def fields? (names : List String) : Json -> Option (List (Option Json))
  | object members => do
      let members ← members.mapM fun (name, value) => name.map fun n => (n, value)
      names.mapM fun name => field? name members
  | array items =>
      if items.length ≤ names.length then
        some (items.map some ++ List.replicate (names.length - items.length) none)
      else none
  | _ => none

def required {alpha : Type} (read : Json -> Option alpha) : Option Json -> Option alpha
  | some j => read j
  | none => none

def withDefault {alpha : Type} (default : alpha) (read : Json -> Option alpha) :
    Option Json -> Option alpha
  | some j => read j
  | none => some default

def variant? : Json -> Option (String × Json)
  | object [(some name, value)] => some (name, value)
  | _ => none

end Json
end CallForest
