import CallForest.Analysis.Output
import CallForest.Analysis.Story

/-!
# The analysis of a contract

For every entry point of a contract, the call graph records which functions may be called, with
virtual calls bound to their final overrides, and which state variables are read and written on the
way. The analysis fails if the linearization of the contract does not start with the contract.
-/

namespace CallForest

open Analyzing

def Analysis.build (create : Text.Path -> Except String Unit) (s : Store) (config : Config)
    (id : ContractId) : Analyzing Graph := do
  let contract ← (s.contract id : Except Fault ContractDecl)
  if contract.linearization.head? = some id then
    tell (.building contract.name)
    let entries ← (s.entryPoints config contract.linearization : Except Fault (List EntryPoint))
    (EntryPoint.storyOfList contract.name [] entries).forM perform
    let graph := Graph.ofEntryPoints entries
    let drawing ← (graph.draw s create config.printGraph : Except Fault Output)
    putOut drawing
    pure graph
  else
    let evidence ← Diagnosed.error (.invalidLinearization contract.name contract.span)
    throw evidence

def analyzeContract (create : Text.Path -> Except String Unit) (s : Store) (config : Config)
    (id : ContractId) : Analyzing Graph :=
  Diagnosed.scope (Analysis.build create s config id)

end CallForest
