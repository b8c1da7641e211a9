import CallForest.Program.Stmt

/-!
# Declarations

Functions, state variables and contracts as they are stored. A contract lists its own functions and
state variables by number, and its linearization from the most derived contract to the most basic
one.
-/

namespace CallForest

/-!
# Functions
-/

inductive FunctionKind where
  | function
  | constructor
  | fallback
  | receive
  deriving DecidableEq, Hashable, Repr

structure Parameter where
  name : Ident
  type : Ty

structure FunctionDecl where
  name : Ident
  kind : FunctionKind
  parameters : List Parameter
  returns : List Parameter
  isVirtual : Bool
  body : Option Block
  span : Span

namespace FunctionDecl

/-- Whether calls are dispatched to the most derived override. Constructors never are. -/
def dispatchesVirtually (f : FunctionDecl) : Bool :=
  f.isVirtual && f.kind != .constructor

def functionType (f : FunctionDecl) : FunctionType where
  parameters := f.parameters.map (·.type)
  returns := f.returns.map (·.type)
  declaration := none

def title (f : FunctionDecl) : String :=
  match f.kind with
  | .function => f.name.text
  | .constructor => "constructor"
  | .fallback => "fallback"
  | .receive => "receive"

def signature (f : FunctionDecl) : String :=
  f.title ++ "(" ++ Ty.textAll f.functionType.parameters ++ ")"

end FunctionDecl

/-!
# State variables and contracts
-/

structure StateVariableDecl where
  name : Ident
  type : Ty
  value : Option Expr
  isConstant : Bool
  span : Span

/-- A contract. `functions` leaves the constructor out. -/
structure ContractDecl where
  name : Ident
  linearization : List ContractId
  constructor : Option FunctionId
  functions : List FunctionId
  stateVariables : List StateVariableId
  span : Span

/-!
# All kinds together
-/

@[reducible] def Decl : DeclKind -> Type
  | .function => FunctionDecl
  | .stateVariable => StateVariableDecl
  | .contract => ContractDecl

namespace Decl

def name : {kind : DeclKind} -> Decl kind -> Ident
  | .function, d => FunctionDecl.name d
  | .stateVariable, d => StateVariableDecl.name d
  | .contract, d => ContractDecl.name d

def span : {kind : DeclKind} -> Decl kind -> Span
  | .function, d => FunctionDecl.span d
  | .stateVariable, d => StateVariableDecl.span d
  | .contract, d => ContractDecl.span d

end Decl
end CallForest
