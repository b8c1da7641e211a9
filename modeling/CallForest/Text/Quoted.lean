import CallForest.Text.Printable

/-!
# Quoted text

The quoted form of a text stands between double quotes. The two characters that could end or
restart it, the quote and the backslash, are escaped by a backslash, as are the tab, the line ends
and the null character by their letters; every other character without a glyph of its own is
written as its code point in hexadecimal.
-/

namespace CallForest
namespace Text

def hexDigits (n : Nat) : List Char :=
  Nat.toDigits 16 n

def escapeChar (c : Char) : List Char :=
  if c = '"' ∨ c = '\\' then ['\\', c]
  else if c = '\t' then ['\\', 't']
  else if c = '\r' then ['\\', 'r']
  else if c = '\n' then ['\\', 'n']
  else if c = '\x00' then ['\\', '0']
  else if isPrintable c then [c]
  else '\\' :: 'u' :: '{' :: (hexDigits c.toNat ++ ['}'])

def escape (cs : List Char) : List Char :=
  cs.flatMap escapeChar

def quote (s : String) : String :=
  String.ofList ('"' :: (escape s.toList ++ ['"']))

def hexByte (b : UInt8) : List Char :=
  [Nat.digitChar (b.toNat / 16), Nat.digitChar (b.toNat % 16)]

/-!
# Escaping letter by letter
-/

@[simp] theorem escape_nil : escape [] = [] := rfl

theorem escape_cons (c : Char) (cs : List Char) :
    escape (c :: cs) = escapeChar c ++ escape cs := rfl

theorem escape_append (cs ds : List Char) : escape (cs ++ ds) = escape cs ++ escape ds := by
  simp [escape]

end Text
end CallForest
