import CallForest.Config.Basic
import CallForest.Program.Decl

/-!
# Events

The events of a piece of code are the reads and writes of state variables and the calls of declared
functions that it contains, in the order in which they happen. They depend on the code and the
configuration alone.

An expression plays one of three roles. As a value it is evaluated. As the target of an assignment
it is stored to: a bare name is written, a tuple passes the role on to its components, and a chain of
index and member accesses is followed down to its base, which is written at the end. As a location it
is the inner part of such a chain, whose base is not an event of its own. In every other form a
target or a location is evaluated like a value.
-/

namespace CallForest

inductive Event where
  | read (v : StateVariableId)
  | write (v : StateVariableId)
  | call (declared : FunctionId) (span : Span)

/-- The part that an expression plays where it stands. -/
inductive Role where
  | value
  | target
  | location
  deriving DecidableEq, Repr

namespace Referent

def events : Role -> Referent -> List Event
  | .value, .stateVariable v => [.read v]
  | .target, .stateVariable v => [.write v]
  | _, _ => []

end Referent

namespace Expr

def baseVariable? : Expr -> Option StateVariableId
  | .name _ referent _ => referent.stateVariable?
  | .index base _ _ => base.baseVariable?
  | .member base _ _ => base.baseVariable?
  | _ => none

/-- The write that ends the walk of an access chain, if the chain is a target. -/
def writeOfBase (role : Role) (base : Expr) : List Event :=
  match role, base.baseVariable? with
  | .target, some v => [.write v]
  | _, _ => []

def callEvents (callee : Expr) : List Event :=
  match callee.type.declaredFunction? with
  | some f => [.call f callee.span]
  | none => []

mutual

def events (config : Config) (role : Role) : Expr -> List Event
  | .literal _ _ => []
  | .name _ referent _ => referent.events role
  | .call callee arguments _ =>
      events config .value callee
        ++ (if config.trackCallArguments then eventsOfList config arguments else [])
        ++ callee.callEvents
  | .assign target _ value _ =>
      events config .value value
        ++ (if target.ident?.isSome || config.trackNestedWrites then events config .target target
            else [])
  | .member base _ _ =>
      match role with
      | .value => events config .value base
      | _ => events config .location base ++ base.writeOfBase role
  | .index base i _ =>
      match role with
      | .value => events config .value base ++ eventsOfOption config i
      | _ => events config .location base ++ eventsOfOption config i ++ base.writeOfBase role
  | .binary _ left right _ => events config .value left ++ events config .value right
  | .unary _ operand _ => events config .value operand
  | .conditional condition thenValue elseValue _ =>
      events config .value condition ++ events config .value thenValue
        ++ events config .value elseValue
  | .tuple components _ =>
      match role with
      | .target => eventsOfSlots config .target components
      | _ => eventsOfSlots config .value components

def eventsOfList (config : Config) : List Expr -> List Event
  | [] => []
  | e :: es => events config .value e ++ eventsOfList config es

def eventsOfOption (config : Config) : Option Expr -> List Event
  | none => []
  | some e => events config .value e

def eventsOfSlots (config : Config) (role : Role) : List (Option Expr) -> List Event
  | [] => []
  | none :: slots => eventsOfSlots config role slots
  | some e :: slots => events config role e ++ eventsOfSlots config role slots

end
end Expr

namespace Stmt

mutual

def events (config : Config) : Stmt -> List Event
  | .expr value => value.events config .value
  | .emit event => event.events config .value
  | .declare _ value => Expr.eventsOfOption config value
  | .block statements => eventsOfBlock config statements
  | .branch condition thenBody elseBody =>
      condition.events config .value ++ events config thenBody ++ eventsOfOption config elseBody
  | .whileLoop condition body => condition.events config .value ++ events config body
  | .doWhile body condition => events config body ++ condition.events config .value
  | .forLoop first condition next body =>
      eventsOfOption config first ++ Expr.eventsOfOption config condition
        ++ Expr.eventsOfOption config next ++ events config body
  | .ret value => Expr.eventsOfOption config value
  | .breakLoop => []
  | .continueLoop => []

def eventsOfBlock (config : Config) : List Stmt -> List Event
  | [] => []
  | s :: ss => events config s ++ eventsOfBlock config ss

def eventsOfOption (config : Config) : Option Stmt -> List Event
  | none => []
  | some s => events config s

end
end Stmt

def FunctionDecl.events (f : FunctionDecl) (config : Config) : List Event :=
  match f.body with
  | none => []
  | some body => Stmt.eventsOfBlock config body

def StateVariableDecl.events (d : StateVariableDecl) (config : Config) (id : StateVariableId) :
    List Event :=
  .write id :: Expr.eventsOfOption config d.value

end CallForest
