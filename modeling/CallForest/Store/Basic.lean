import CallForest.Program.Decl
import CallForest.Store.Arena

/-!
# The declaration store

The declarations of a program, in one arena for each kind. Everything else refers to a declaration
by its number, which stays the same as long as the store lives.
-/

namespace CallForest

structure Store where
  functions : Arena FunctionDecl := {}
  stateVariables : Arena StateVariableDecl := {}
  contracts : Arena ContractDecl := {}

/-- A declaration's number together with the name and the place it had when it was inserted. -/
structure Reference (kind : DeclKind) where
  name : Ident
  id : DeclId kind
  span : Span

namespace Store

variable {kind : DeclKind}

def arena (s : Store) : (kind : DeclKind) -> Arena (Decl kind)
  | .function => s.functions
  | .stateVariable => s.stateVariables
  | .contract => s.contracts

def setArena (s : Store) : {kind : DeclKind} -> Arena (Decl kind) -> Store
  | .function, a => { s with functions := a }
  | .stateVariable, a => { s with stateVariables := a }
  | .contract, a => { s with contracts := a }

def get (s : Store) (id : DeclId kind) : Except Fault (Decl kind) :=
  (s.arena kind).get id.index

def function (s : Store) (id : FunctionId) : Except Fault FunctionDecl :=
  s.get id

def stateVariable (s : Store) (id : StateVariableId) : Except Fault StateVariableDecl :=
  s.get id

def contract (s : Store) (id : ContractId) : Except Fault ContractDecl :=
  s.get id

def insert (s : Store) (decl : Decl kind) : Except Fault (Reference kind) × Store :=
  match (s.arena kind).insert decl with
  | (.ok index, a) => (.ok ⟨decl.name, ⟨index⟩, decl.span⟩, s.setArena a)
  | (.error fault, a) => (.error fault, s.setArena a)

def replace (s : Store) (id : DeclId kind) (decl : Decl kind) : Except Fault Unit × Store :=
  match (s.arena kind).replace id.index decl with
  | (outcome, a) => (outcome, s.setArena a)

def update (s : Store) (id : DeclId kind) (change : Decl kind -> Decl kind) :
    Except Fault Unit × Store :=
  match s.get id with
  | .error fault => (.error fault, s)
  | .ok decl => s.replace id (change decl)

def inheritedStateVariables (s : Store) (linearization : List ContractId) :
    Except Fault (List StateVariableId) := do
  let contracts ← linearization.mapM s.contract
  pure (contracts.flatMap (·.stateVariables))

/-!
# Arenas of a changed store
-/

@[simp] theorem arena_setArena (s : Store) (a : Arena (Decl kind)) :
    (s.setArena a).arena kind = a := by
  cases kind <;> rfl

theorem arena_setArena_of_ne (s : Store) {other : DeclKind} (a : Arena (Decl kind))
    (h : other ≠ kind) : (s.setArena a).arena other = s.arena other := by
  cases kind <;> cases other <;> first | rfl | exact absurd rfl h

theorem lt_size_of_get_eq_ok {s : Store} {id : DeclId kind} {decl : Decl kind}
    (h : s.get id = .ok decl) : id.index < (s.arena kind).size :=
  Arena.lt_size_of_get_eq_ok h

end Store
end CallForest
