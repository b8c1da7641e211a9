import CallForest.Json.Value

/-!
# Printing JSON

The compact text of a JSON value. Inside strings, the quote, the backslash and the control
characters are escaped, the common ones by a letter and the others by their code.
-/

namespace CallForest
namespace Json

def printChar (c : Char) : List Char :=
  if c = '"' ∨ c = '\\' then ['\\', c]
  else if c = '\n' then ['\\', 'n']
  else if c = '\r' then ['\\', 'r']
  else if c = '\t' then ['\\', 't']
  else if c = '\x08' then ['\\', 'b']
  else if c = '\x0c' then ['\\', 'f']
  else if c.toNat < 0x20 then
    ['\\', 'u', '0', '0', Nat.digitChar (c.toNat / 16), Nat.digitChar (c.toNat % 16)]
  else [c]

def printString (cs : List Char) : List Char :=
  '"' :: (cs.flatMap printChar ++ ['"'])

mutual

def print : Json -> List Char
  | .null => ['n', 'u', 'l', 'l']
  | .bool true => ['t', 'r', 'u', 'e']
  | .bool false => ['f', 'a', 'l', 's', 'e']
  | .natural n => Nat.toDigits 10 n
  | .number literal => literal
  | .string text => printString (text.getD "").toList
  | .array [] => ['[', ']']
  | .array (item :: items) => '[' :: (print item ++ printItems items)
  | .object [] => ['{', '}']
  | .object ((name, value) :: members) =>
      '{' :: (printString (name.getD "").toList ++ ':' :: (print value ++ printMembers members))

def printItems : List Json -> List Char
  | [] => [']']
  | item :: items => ',' :: (print item ++ printItems items)

def printMembers : List (Option String × Json) -> List Char
  | [] => ['}']
  | (name, value) :: members =>
      ',' :: (printString (name.getD "").toList ++ ':' :: (print value ++ printMembers members))

end

def render (j : Json) : String :=
  String.ofList j.print

end Json
end CallForest
