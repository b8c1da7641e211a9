import CallForest.Proofs.Contents
import CallForest.Proofs.Parts
import Mathlib.Data.List.Flatten

/-!
# What tracking adds to the events

A configuration that tracks no less than another one goes through the same code in the same order,
and through some more code in between. So the events of a piece of code under the one are a
subsequence of its events under the other.
-/

namespace CallForest

section

variable {config config' : Config} (h : config.TrackedBy config')

include h

theorem Expr.events_sublist (e : Expr) :
    forall role, (e.events config role).Sublist (e.events config' role) := by
  generalize hp : Piece.expr e = p
  induction p using Piece.of_children generalizing e with
  | hstep p ih =>
      subst hp
      intro role
      rw [events_eq_parts, events_eq_parts]
      apply List.Sublist.append _ (List.Sublist.refl _)
      have hparts : ((e.parts config role).flatMap fun part => part.2.events config part.1).Sublist
          ((e.parts config role).flatMap fun part => part.2.events config' part.1) := by
        apply List.Sublist.flatMap_right
        intro part hpart
        exact ih (.expr part.2) (List.mem_map_of_mem (mem_children_of_mem_parts hpart)) _ rfl part.1
      exact hparts.trans ((parts_sublist h role e).flatMap _)

theorem Piece.events_sublist (p : Piece) : (p.events config).Sublist (p.events config') := by
  induction p using of_children with
  | hstep p ih =>
      rcases p.isExpr_or_events_eq_flatMap with ⟨e, rfl⟩ | hevents
      · exact e.events_sublist h .value
      · rw [hevents, hevents]
        exact List.Sublist.flatMap_right p.children ih

theorem Store.eventsOf_sublist {s : Store} {d : Definition} {events events' : List Event}
    (hevents : s.eventsOf config d = .ok events)
    (hevents' : s.eventsOf config' d = .ok events') : events.Sublist events' := by
  rcases exists_code_of_eventsOf hevents with ⟨code, hcode, rfl⟩
  rcases exists_code_of_eventsOf hevents' with ⟨code', hcode', rfl⟩
  cases hcode.symm.trans hcode'
  apply List.Sublist.append (List.Sublist.refl _)
  exact List.Sublist.flatMap_right code fun p _ => p.events_sublist h

end

/-!
# A program with nested code

The constructor of `C` stores `f(x)` at `m[g()]` and then calls `h`, which calls itself. Where the
argument and the target are not tracked, neither `x` and `m` nor `g` are met.
-/

namespace Nested

def callOn (f : FunctionId) (arguments : List Expr) : Expr :=
  .call (.name (.named "") (.function f) ⟨.function [] [] (some (.function f)), .dummy⟩) arguments
    ⟨.uint 256, .dummy⟩

def element : Expr :=
  .index (Cycle.stored ⟨0⟩) (some (callOn ⟨2⟩ [])) ⟨.uint 256, .dummy⟩

def store : Store where
  functions := { entries := #[
    Cycle.function "" .constructor false [
      .expr (.assign element .plain (callOn ⟨1⟩ [Cycle.stored ⟨1⟩]) ⟨.uint 256, .dummy⟩),
      .expr (callOn ⟨3⟩ [])],
    Cycle.function "f" .function false [],
    Cycle.function "g" .function false [],
    Cycle.function "h" .function false [.expr (callOn ⟨3⟩ [])]] }
  stateVariables := { entries := #[
    ⟨.named "m", .mapping (.uint 256) (.uint 256), none, false, .dummy⟩,
    ⟨.named "x", .uint 256, none, false, .dummy⟩] }
  contracts := { entries := #[
    ⟨.named "C", [⟨0⟩], some ⟨0⟩, [⟨1⟩, ⟨2⟩, ⟨3⟩], [⟨0⟩, ⟨1⟩], .dummy⟩] }

def tracking : Config where
  trackNestedWrites := true
  trackCallArguments := true

def callOfF : CallSite :=
  ⟨⟨1⟩, ⟨1⟩, .named "f", "f()", .dummy⟩

def callOfG : CallSite :=
  ⟨⟨2⟩, ⟨2⟩, .named "g", "g()", .dummy⟩

def callOfH : CallSite :=
  ⟨⟨3⟩, ⟨3⟩, .named "h", "h()", .dummy⟩

def entries (construction : Course) : List EntryPoint := [
  .constructor (.named "C") ⟨0⟩ (.named "") construction,
  .stateVariable (.named "m") ⟨0⟩ (.write ⟨0⟩ .done),
  .stateVariable (.named "x") ⟨1⟩ (.write ⟨1⟩ .done)]

def construction : Course :=
  .call callOfF .done (.call callOfH (.back callOfH .done) .done)

def trackedConstruction : Course :=
  .read ⟨1⟩ (.call callOfF .done
    (.call callOfG .done (.write ⟨0⟩ (.call callOfH (.back callOfH .done) .done))))

def graph : Graph where
  nodes := #[
    ⟨.function ⟨0⟩, [.call ⟨1⟩, .call ⟨2⟩], [], []⟩,
    ⟨.function ⟨1⟩, [], [], []⟩,
    ⟨.function ⟨3⟩, [.recursive ⟨2⟩], [], []⟩,
    ⟨.stateVariable ⟨0⟩, [], [], [⟨0⟩]⟩,
    ⟨.stateVariable ⟨1⟩, [], [], [⟨1⟩]⟩]
  roots := [⟨0⟩, ⟨3⟩, ⟨4⟩]

def trackedGraph : Graph where
  nodes := #[
    ⟨.function ⟨0⟩, [.call ⟨1⟩, .call ⟨2⟩, .call ⟨3⟩], [⟨1⟩], [⟨0⟩]⟩,
    ⟨.function ⟨1⟩, [], [], []⟩,
    ⟨.function ⟨2⟩, [], [], []⟩,
    ⟨.function ⟨3⟩, [.recursive ⟨3⟩], [], []⟩,
    ⟨.stateVariable ⟨0⟩, [], [], [⟨0⟩]⟩,
    ⟨.stateVariable ⟨1⟩, [], [], [⟨1⟩]⟩]
  roots := [⟨0⟩, ⟨4⟩, ⟨5⟩]

theorem resolves_f : store.Resolves [⟨0⟩] ⟨1⟩ .dummy callOfF :=
  ⟨rfl, rfl, rfl, _, rfl, rfl, by decide⟩

theorem resolves_g : store.Resolves [⟨0⟩] ⟨2⟩ .dummy callOfG :=
  ⟨rfl, rfl, rfl, _, rfl, rfl, by decide⟩

theorem resolves_h : store.Resolves [⟨0⟩] ⟨3⟩ .dummy callOfH :=
  ⟨rfl, rfl, rfl, _, rfl, rfl, by decide⟩

theorem unrolls_construction :
    store.Unrolls {} [⟨0⟩] [.function ⟨0⟩] [.call ⟨1⟩ .dummy, .call ⟨3⟩ .dummy]
      construction := by
  refine .call resolves_f (by decide) rfl rfl .done ?_
  refine .call resolves_h (by decide) rfl rfl ?_ .done
  exact .back resolves_h (by decide) .done

theorem unrolls_trackedConstruction :
    store.Unrolls tracking [⟨0⟩] [.function ⟨0⟩]
      [.read ⟨1⟩, .call ⟨1⟩ .dummy, .call ⟨2⟩ .dummy, .write ⟨0⟩, .call ⟨3⟩ .dummy]
      trackedConstruction := by
  refine .read (.call resolves_f (by decide) rfl rfl .done ?_)
  refine .call resolves_g (by decide) rfl rfl .done (.write ?_)
  refine .call resolves_h (by decide) rfl rfl ?_ .done
  exact .back resolves_h (by decide) .done

theorem exists_analyzes_of_unroll {config : Config} {course : Course}
    (h : store.constructorEntry config [⟨0⟩] ⟨0⟩ =
      .ok (.constructor (.named "C") ⟨0⟩ (.named "") course))
    (hprint : config.printGraph = none) :
    exists a, Analyzes (fun _ => .ok ()) store config ⟨0⟩ a ∧
      a.graph = Graph.ofEntryPoints (entries course) := by
  have hm : store.stateVariableEntry config [⟨0⟩] ⟨0⟩ = .ok _ :=
    Store.stateVariableEntry_of_unrolls rfl (.write .done)
  have hx : store.stateVariableEntry config [⟨0⟩] ⟨1⟩ = .ok _ :=
    Store.stateVariableEntry_of_unrolls rfl (.write .done)
  have hentries : store.entryPoints config [⟨0⟩] = .ok (entries course) := by
    simp only [Store.entryPoints, bind_eq_ok_iff, mapM_eq_ok_iff, pure_eq_ok_iff]
    exact ⟨_, .cons h .nil, _, rfl, _, .cons hm (.cons hx .nil), rfl⟩
  exact exists_analyzes_of_entryPoints rfl rfl hentries hprint

theorem exists_analyzes :
    exists a, Analyzes (fun _ => .ok ()) store {} ⟨0⟩ a ∧ a.graph = graph := by
  have hconstructor : store.constructorEntry {} [⟨0⟩] ⟨0⟩ = .ok _ :=
    Store.constructorEntry_of_unrolls rfl rfl rfl unrolls_construction
  exact exists_analyzes_of_unroll hconstructor rfl

theorem exists_analyzes_tracking :
    exists a, Analyzes (fun _ => .ok ()) store tracking ⟨0⟩ a ∧ a.graph = trackedGraph := by
  have hconstructor : store.constructorEntry tracking [⟨0⟩] ⟨0⟩ = .ok _ :=
    Store.constructorEntry_of_unrolls rfl rfl rfl unrolls_trackedConstruction
  exact exists_analyzes_of_unroll hconstructor rfl

end Nested
end CallForest
