import CallForest.Json.Value

/-!
# Reading JSON

A strict reader: nothing but blanks may surround a value, and no comma may be missing or left over.
Each part of the reader takes a value off the front of the characters and yields what follows it.
-/

namespace CallForest
namespace Json

/-!
# Blanks and numbers
-/

def isBlank (c : Char) : Bool :=
  c = ' ' || c = '\n' || c = '\t' || c = '\r'

def skipBlanks (cs : List Char) : List Char :=
  cs.dropWhile isBlank

def readDigits (cs : List Char) : Option (List Char × List Char) :=
  match cs.span Char.isDigit with
  | ([], _) => none
  | (digits, rest) => some (digits, rest)

def readWhole (cs : List Char) : Option (List Char × List Char) :=
  match readDigits cs with
  | some ('0' :: _ :: _, _) => none
  | other => other

def readFraction (cs : List Char) : Option (List Char × List Char) :=
  match cs with
  | '.' :: rest => (readDigits rest).map fun (digits, rest) => ('.' :: digits, rest)
  | _ => some ([], cs)

def readExponent (cs : List Char) : Option (List Char × List Char) :=
  match cs with
  | c :: rest =>
      if c = 'e' ∨ c = 'E' then
        match rest with
        | '+' :: rest => (readDigits rest).map fun (digits, rest) => (c :: '+' :: digits, rest)
        | '-' :: rest => (readDigits rest).map fun (digits, rest) => (c :: '-' :: digits, rest)
        | _ => (readDigits rest).map fun (digits, rest) => (c :: digits, rest)
      else some ([], cs)
  | [] => some ([], [])

def ofDigits (digits : List Char) : Nat :=
  digits.foldl (fun n c => 10 * n + (c.toNat - '0'.toNat)) 0

def readNumber (cs : List Char) : Option (Json × List Char) := do
  let (sign, cs) := match cs with
    | '-' :: rest => (['-'], rest)
    | _ => ([], cs)
  let (whole, cs) ← readWhole cs
  let (fraction, cs) ← readFraction cs
  let (exponent, cs) ← readExponent cs
  if sign.isEmpty && fraction.isEmpty && exponent.isEmpty then
    some (.natural (ofDigits whole), cs)
  else
    some (.number (sign ++ whole ++ fraction ++ exponent), cs)

/-!
# Strings
-/

def hexValue? (c : Char) : Option Nat :=
  if c.isDigit then some (c.toNat - '0'.toNat)
  else if 'a' ≤ c ∧ c ≤ 'f' then some (c.toNat - 'a'.toNat + 10)
  else if 'A' ≤ c ∧ c ≤ 'F' then some (c.toNat - 'A'.toNat + 10)
  else none

def unit? (a b c d : Char) : Option Nat := do
  let a ← hexValue? a
  let b ← hexValue? b
  let c ← hexValue? c
  let d ← hexValue? d
  some (((a * 16 + b) * 16 + c) * 16 + d)

def escaped? : Char -> Option Char
  | '"' => some '"'
  | '\\' => some '\\'
  | '/' => some '/'
  | 'b' => some '\x08'
  | 'f' => some '\x0c'
  | 'n' => some '\n'
  | 'r' => some '\r'
  | 't' => some '\t'
  | _ => none

/-- A part of a string: a character, or a code unit that is written by its number. -/
inductive StringPart where
  | char (c : Char)
  | unit (code : Nat)

def readParts : List Char -> Option (List StringPart × List Char)
  | '"' :: rest => some ([], rest)
  | '\\' :: 'u' :: a :: b :: c :: d :: rest => do
      let code ← unit? a b c d
      let (parts, rest) ← readParts rest
      some (.unit code :: parts, rest)
  | '\\' :: c :: rest => do
      let c ← escaped? c
      let (parts, rest) ← readParts rest
      some (.char c :: parts, rest)
  | c :: rest =>
      if c.toNat < 0x20 then none
      else do
        let (parts, rest) ← readParts rest
        some (.char c :: parts, rest)
  | [] => none

def isHighSurrogate (code : Nat) : Bool :=
  0xd800 ≤ code && code ≤ 0xdbff

def isLowSurrogate (code : Nat) : Bool :=
  0xdc00 ≤ code && code ≤ 0xdfff

/-- The characters of a string. There are none if a surrogate stands alone. -/
def joinParts : List StringPart -> Option (List Char)
  | [] => some []
  | .char c :: parts => (joinParts parts).map (c :: ·)
  | .unit high :: .unit low :: parts =>
      if isHighSurrogate high && isLowSurrogate low then
        (joinParts parts).map
          (Char.ofNat (0x10000 + (high - 0xd800) * 0x400 + (low - 0xdc00)) :: ·)
      else if isHighSurrogate high || isLowSurrogate high then none
      else (joinParts (.unit low :: parts)).map (Char.ofNat high :: ·)
  | .unit code :: parts =>
      if isHighSurrogate code || isLowSurrogate code then none
      else (joinParts parts).map (Char.ofNat code :: ·)

def readString (cs : List Char) : Option (Option String × List Char) :=
  (readParts cs).map fun (parts, rest) => ((joinParts parts).map String.ofList, rest)

/-!
# Values
-/

mutual

/-- A value. `fuel` bounds the number of values and containers that are opened. -/
def readValue (fuel : Nat) (cs : List Char) : Option (Json × List Char) :=
  match fuel with
  | 0 => none
  | fuel + 1 =>
      match skipBlanks cs with
      | 'n' :: 'u' :: 'l' :: 'l' :: rest => some (.null, rest)
      | 't' :: 'r' :: 'u' :: 'e' :: rest => some (.bool true, rest)
      | 'f' :: 'a' :: 'l' :: 's' :: 'e' :: rest => some (.bool false, rest)
      | '"' :: rest => (readString rest).map fun (text, rest) => (.string text, rest)
      | '[' :: rest =>
          match skipBlanks rest with
          | ']' :: rest => some (.array [], rest)
          | rest => (readItems fuel rest).map fun (items, rest) => (.array items, rest)
      | '{' :: rest =>
          match skipBlanks rest with
          | '}' :: rest => some (.object [], rest)
          | rest => (readMembers fuel rest).map fun (members, rest) => (.object members, rest)
      | cs => readNumber cs

def readItems (fuel : Nat) (cs : List Char) : Option (List Json × List Char) :=
  match fuel with
  | 0 => none
  | fuel + 1 => do
      let (item, rest) ← readValue fuel cs
      match skipBlanks rest with
      | ',' :: rest =>
          let (items, rest) ← readItems fuel rest
          some (item :: items, rest)
      | ']' :: rest => some ([item], rest)
      | _ => none

def readMembers (fuel : Nat) (cs : List Char) :
    Option (List (Option String × Json) × List Char) :=
  match fuel with
  | 0 => none
  | fuel + 1 =>
      match skipBlanks cs with
      | '"' :: rest => do
          let (name, rest) ← readString rest
          match skipBlanks rest with
          | ':' :: rest =>
              let (value, rest) ← readValue fuel rest
              match skipBlanks rest with
              | ',' :: rest =>
                  let (members, rest) ← readMembers fuel rest
                  some ((name, value) :: members, rest)
              | '}' :: rest => some ([(name, value)], rest)
              | _ => none
          | _ => none
      | _ => none

end

/-- The value that a text writes. A value or a container takes a character at least, and no more
than two steps of the reader. -/
def parse? (text : String) : Option Json := do
  let cs := text.toList
  let (value, rest) ← readValue (2 * cs.length + 2) cs
  if (skipBlanks rest).isEmpty then some value else none

end Json
end CallForest
