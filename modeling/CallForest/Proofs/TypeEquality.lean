import CallForest.Dispatch

/-!
# Equality of types

Equality of types compares what is left of them when the declarations behind callables are dropped
and identifiers are reduced to their texts. So it is an equivalence, and with it the relation between
a function and what can stand for it in a virtual call.
-/

namespace CallForest
namespace Ty

mutual

/-- A type without the declarations behind callables, and with bare names for identifiers. -/
def erase : Ty -> Ty
  | .bool => .bool
  | .address payable => .address payable
  | .uint bits => .uint bits
  | .int bits => .int bits
  | .fixedBytes length => .fixedBytes length
  | .bytes => .bytes
  | .string => .string
  | .array element length => .array (erase element) length
  | .mapping key value => .mapping (erase key) (erase value)
  | .struct name => .struct (.named name.text)
  | .enum name => .enum (.named name.text)
  | .contract name => .contract (.named name.text)
  | .function parameters returns _ => .function (eraseAll parameters) (eraseAll returns) none
  | .tuple elements => .tuple (eraseAll elements)
  | .magic name => .magic (.named name.text)

def eraseAll : List Ty -> List Ty
  | [] => []
  | t :: ts => erase t :: eraseAll ts

end

mutual

theorem beq_iff_erase_eq (a b : Ty) : beq a b = true <-> erase a = erase b := by
  cases a with
  | bool => cases b <;> simp [beq, erase]
  | address payable => cases b <;> simp [beq, erase]
  | uint bits => cases b <;> simp [beq, erase]
  | int bits => cases b <;> simp [beq, erase]
  | fixedBytes length => cases b <;> simp [beq, erase]
  | bytes => cases b <;> simp [beq, erase]
  | string => cases b <;> simp [beq, erase]
  | array element length =>
      cases b with
      | array element' length' => simp [beq, erase, beq_iff_erase_eq element element']
      | _ => simp [beq, erase]
  | mapping key value =>
      cases b with
      | mapping key' value' =>
          simp [beq, erase, beq_iff_erase_eq key key', beq_iff_erase_eq value value']
      | _ => simp [beq, erase]
  | struct name => cases b <;> simp [beq, erase, Ident.beq_iff]
  | enum name => cases b <;> simp [beq, erase, Ident.beq_iff]
  | contract name => cases b <;> simp [beq, erase, Ident.beq_iff]
  | function parameters returns declaration =>
      cases b with
      | function parameters' returns' declaration' =>
          simp [beq, erase, beqAll_iff_eraseAll_eq parameters parameters',
            beqAll_iff_eraseAll_eq returns returns']
      | _ => simp [beq, erase]
  | tuple elements =>
      cases b with
      | tuple elements' => simp [beq, erase, beqAll_iff_eraseAll_eq elements elements']
      | _ => simp [beq, erase]
  | magic name => cases b <;> simp [beq, erase, Ident.beq_iff]

theorem beqAll_iff_eraseAll_eq (as bs : List Ty) :
    beqAll as bs = true <-> eraseAll as = eraseAll bs := by
  cases as with
  | nil => cases bs <;> simp [beqAll, eraseAll]
  | cons a as =>
      cases bs with
      | nil => simp [beqAll, eraseAll]
      | cons b bs =>
          simp [beqAll, eraseAll, beq_iff_erase_eq a b, beqAll_iff_eraseAll_eq as bs]

end

end Ty

namespace FunctionDecl

def profile (f : FunctionDecl) : String × List Ty × List Ty :=
  (f.name.text, Ty.eraseAll f.functionType.parameters, Ty.eraseAll f.functionType.returns)

theorem overrides_iff {candidate f : FunctionDecl} :
    candidate.overrides f = true <-> candidate.profile = f.profile := by
  simp only [overrides, profile, FunctionType.sameParameters, FunctionType.sameReturns,
    Bool.and_eq_true, Ident.beq_iff, Ty.beqAll_iff_eraseAll_eq, Prod.mk.injEq, and_assoc]

end FunctionDecl
end CallForest
