import CallForest.Program.Referent

/-!
# Types

The resolved types of expressions and declarations. The type of a callable may carry the declaration
that it was taken from; this declaration takes no part in equality or hashing, at any depth, so the
type of a function pointer equals the type of every function it may point to.
-/

namespace CallForest

/-- A resolved type. An array without a length is dynamic; the empty tuple is the type of calls
without return values; `magic` is the type of `msg`, `block`, `tx`, `this` and `super`. -/
inductive Ty where
  | bool
  | address (payable : Bool)
  | uint (bits : Nat)
  | int (bits : Nat)
  | fixedBytes (length : Nat)
  | bytes
  | string
  | array (element : Ty) (length : Option Nat)
  | mapping (key value : Ty)
  | struct (name : Ident)
  | enum (name : Ident)
  | contract (name : Ident)
  | function (parameters returns : List Ty) (declaration : Option Referent)
  | tuple (elements : List Ty)
  | magic (name : Ident)

namespace Ty

def unit : Ty :=
  .tuple []

/-!
# Equality
-/

mutual

/-- Equality of types, blind to the declarations behind callables. -/
def beq : Ty -> Ty -> Bool
  | .bool, .bool => true
  | .address p, .address q => p == q
  | .uint m, .uint n => m == n
  | .int m, .int n => m == n
  | .fixedBytes m, .fixedBytes n => m == n
  | .bytes, .bytes => true
  | .string, .string => true
  | .array a m, .array b n => beq a b && m == n
  | .mapping k v, .mapping l w => beq k l && beq v w
  | .struct a, .struct b => a == b
  | .enum a, .enum b => a == b
  | .contract a, .contract b => a == b
  | .function ps rs _, .function qs ss _ => beqAll ps qs && beqAll rs ss
  | .tuple as, .tuple bs => beqAll as bs
  | .magic a, .magic b => a == b
  | _, _ => false

def beqAll : List Ty -> List Ty -> Bool
  | [], [] => true
  | a :: as, b :: bs => beq a b && beqAll as bs
  | _, _ => false

end

instance : BEq Ty where
  beq := Ty.beq

/-!
# Hashing
-/

inductive Mark where
  | number (n : Nat)
  | text (s : String)
  deriving DecidableEq, Hashable, Repr

mutual

def marks : Ty -> List Mark
  | .bool => [.number 0]
  | .address payable => [.number 1, .number payable.toNat]
  | .uint bits => [.number 2, .number bits]
  | .int bits => [.number 3, .number bits]
  | .fixedBytes length => [.number 4, .number length]
  | .bytes => [.number 5]
  | .string => [.number 6]
  | .array element length =>
      .number 7 :: (marks element ++
        match length with
        | none => [.number 0]
        | some n => [.number 1, .number n])
  | .mapping key value => .number 8 :: (marks key ++ marks value)
  | .struct name => [.number 9, .text name.text]
  | .enum name => [.number 10, .text name.text]
  | .contract name => [.number 11, .text name.text]
  | .function parameters returns _ =>
      .number 12 :: .number parameters.length :: (marksAll parameters ++
        .number returns.length :: marksAll returns)
  | .tuple elements => .number 13 :: .number elements.length :: marksAll elements
  | .magic name => [.number 14, .text name.text]

def marksAll : List Ty -> List Mark
  | [] => []
  | t :: ts => marks t ++ marksAll ts

end

instance : Hashable Ty where
  hash t := hash t.marks

/-!
# Text
-/

mutual

def text : Ty -> String
  | .bool => "bool"
  | .address false => "address"
  | .address true => "address payable"
  | .uint bits => "uint" ++ toString bits
  | .int bits => "int" ++ toString bits
  | .fixedBytes length => "bytes" ++ toString length
  | .bytes => "bytes"
  | .string => "string"
  | .array element none => text element ++ "[]"
  | .array element (some length) => text element ++ "[" ++ toString length ++ "]"
  | .mapping key value => "mapping(" ++ text key ++ " => " ++ text value ++ ")"
  | .struct name => "struct " ++ name.text
  | .enum name => "enum " ++ name.text
  | .contract name => "contract " ++ name.text
  | .function parameters [] _ => "function (" ++ textAll parameters ++ ")"
  | .function parameters (r :: rs) _ =>
      "function (" ++ textAll parameters ++ ") returns (" ++ textAll (r :: rs) ++ ")"
  | .tuple elements => "tuple(" ++ textAll elements ++ ")"
  | .magic name => name.text

def textAll : List Ty -> String
  | [] => ""
  | [t] => text t
  | t :: u :: ts => text t ++ "," ++ textAll (u :: ts)

end
end Ty

/-!
# Function types
-/

structure FunctionType where
  parameters : List Ty
  returns : List Ty
  declaration : Option Referent

namespace FunctionType

def toTy (f : FunctionType) : Ty :=
  .function f.parameters f.returns f.declaration

def sameParameters (f g : FunctionType) : Bool :=
  Ty.beqAll f.parameters g.parameters

def sameReturns (f g : FunctionType) : Bool :=
  Ty.beqAll f.returns g.returns

instance : BEq FunctionType where
  beq f g := f.sameParameters g && f.sameReturns g

instance : Hashable FunctionType where
  hash f := hash (Ty.marksAll f.parameters, f.parameters.length, Ty.marksAll f.returns)

def text (f : FunctionType) : String :=
  f.toTy.text

end FunctionType

def Ty.declaredFunction? : Ty -> Option FunctionId
  | .function _ _ (some referent) => referent.function?
  | _ => none

end CallForest
