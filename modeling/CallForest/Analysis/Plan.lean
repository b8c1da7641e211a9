import CallForest.Course.Unroll
import CallForest.Graph.Builder

/-!
# Plans

The plan of an analysis lists the entry points of a contract in order, each with its course: the
constructors of the linearized contracts, the most basic contract first, and then the initializations
of their state variables, those of the most derived contract first.
-/

namespace CallForest

inductive EntryPoint where
  | constructor (contract : Ident) (id : FunctionId) (name : Ident) (course : Course)
  | implicitConstructor (contract : Ident) (id : ContractId)
  | missingConstructor (contract : Ident) (span : Span)
  | stateVariable (name : Ident) (id : StateVariableId) (course : Course)

namespace EntryPoint

def root? : EntryPoint -> Option (Definition × Course)
  | constructor _ id _ course => some (.function id, course)
  | implicitConstructor _ id => some (.implicitConstructor id, .done)
  | missingConstructor _ _ => none
  | stateVariable _ id course => some (.stateVariable id, course)

end EntryPoint

namespace Store

def constructorEntry (s : Store) (config : Config) (linearization : List ContractId)
    (id : ContractId) : Except Fault EntryPoint := do
  let contract ← s.contract id
  match contract.constructor with
  | some f => do
      let decl ← s.function f
      let course ← s.unrollDefinition config linearization (.function f) (decl.events config)
      pure (.constructor contract.name f decl.name course)
  | none =>
      match config.missingConstructor with
      | .synthesize => pure (.implicitConstructor contract.name id)
      | .skip => pure (.missingConstructor contract.name contract.span)

def stateVariableEntry (s : Store) (config : Config) (linearization : List ContractId)
    (id : StateVariableId) : Except Fault EntryPoint := do
  let decl ← s.stateVariable id
  let course ← s.unrollDefinition config linearization (.stateVariable id) (decl.events config id)
  pure (.stateVariable decl.name id course)

def entryPoints (s : Store) (config : Config) (linearization : List ContractId) :
    Except Fault (List EntryPoint) := do
  let constructors ← linearization.reverse.mapM (s.constructorEntry config linearization)
  let stored ← s.inheritedStateVariables linearization
  let initializers ← stored.mapM (s.stateVariableEntry config linearization)
  pure (constructors ++ initializers)

end Store

def Graph.ofEntryPoints (entries : List EntryPoint) : Graph :=
  let builder := (entries.filterMap EntryPoint.root?).foldl
    (fun b root => b.execute root.1 root.2) ({} : Builder)
  builder.graph

end CallForest
