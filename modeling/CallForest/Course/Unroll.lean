import CallForest.Course.Basic
import CallForest.Dispatch
import CallForest.Effect.Event
import CallForest.Graph.Basic

/-!
# Unrolling code into its course

The path of an execution lists the definitions that are being executed, the innermost first. A call
is dispatched to its final override and then followed, unless that function is on the path already
or the path is longer than the configuration admits. A function that is entered is stored and was
not on the path before, so the number of stored functions off the path bounds the nesting.
-/

namespace CallForest
namespace Store

/-!
# Functions off a path
-/

def functionsOff (s : Store) (path : List Definition) : List Nat :=
  (List.range s.functions.size).filter fun i => decide (Definition.function ⟨i⟩ ∉ path)

theorem functionsOff_cons (s : Store) (path : List Definition) (id : FunctionId) :
    s.functionsOff (.function id :: path) =
      (s.functionsOff path).filter fun i => decide (i ≠ id.index) := by
  obtain ⟨index⟩ := id
  unfold functionsOff
  rw [List.filter_filter]
  apply List.filter_congr
  intro i _
  simp [Bool.decide_and]

theorem mem_functionsOff {s : Store} {path : List Definition} {i : Nat} :
    i ∈ s.functionsOff path <-> i < s.functions.size ∧ Definition.function ⟨i⟩ ∉ path := by
  simp [functionsOff]

theorem length_functionsOff_cons_lt {s : Store} {path : List Definition} {id : FunctionId}
    (stored : id.index < s.functions.size) (fresh : Definition.function id ∉ path) :
    (s.functionsOff (.function id :: path)).length < (s.functionsOff path).length := by
  rw [functionsOff_cons, List.length_filter_lt_length_iff_exists]
  exact ⟨id.index, mem_functionsOff.mpr ⟨stored, fresh⟩, by simp⟩

/-!
# The course of some events
-/

set_option linter.unusedVariables false in
/-- The course of some events that happen at the end of a path, where `linearization` belongs to
the contract under analysis. -/
def unroll (s : Store) (config : Config) (linearization : List ContractId)
    (path : List Definition) : List Event -> Except Fault Course
  | [] => .ok .done
  | .read v :: events => do
      let rest ← unroll s config linearization path events
      pure (.read v rest)
  | .write v :: events => do
      let rest ← unroll s config linearization path events
      pure (.write v rest)
  | .call declared span :: events =>
      match s.finalOverride linearization declared with
      | .error fault => .error fault
      | .ok target =>
          match stored : s.function target with
          | .error fault => .error fault
          | .ok f =>
              let site : CallSite := ⟨declared, target, f.name, f.signature, span⟩
              if fresh : Definition.function target ∈ path then do
                let rest ← unroll s config linearization path events
                pure (.back site rest)
              else if config.exceedsDepth path.length then do
                let rest ← unroll s config linearization path events
                pure (.cut site path.length rest)
              else do
                let body ← unroll s config linearization (.function target :: path)
                  (f.events config)
                let rest ← unroll s config linearization path events
                pure (.call site body rest)
termination_by events => ((s.functionsOff path).length, events.length)
decreasing_by
  all_goals first
    | exact Prod.Lex.right _ (Nat.lt_succ_self _)
    | exact Prod.Lex.left _ _
        (length_functionsOff_cons_lt (s.lt_size_of_get_eq_ok stored) fresh)

def unrollDefinition (s : Store) (config : Config) (linearization : List ContractId)
    (definition : Definition) (events : List Event) : Except Fault Course :=
  s.unroll config linearization [definition] events

end Store
end CallForest
