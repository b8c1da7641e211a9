import CallForest.Proofs.Levels
import CallForest.Proofs.LookupFaults

/-!
# Termination

A body is entered only for a stored function that is not being executed already. So the unrolling of
any events enters at most as many bodies one inside the other as there are functions in the store,
whatever calls the bodies contain and whatever a linearization lists, and no root is deeper than
that. The rest of an analysis goes through lists.
-/

namespace CallForest
namespace Store

/-!
# Unrolling with fuel

The recursion below spends fuel on entering a body, and nothing else. It is structural, so it ends
on its own account. Where the fuel runs out it has no answer at all, neither a course nor a fault.
-/

def unrollLevel (s : Store) (config : Config) (linearization : List ContractId)
    (enter : List Definition -> List Event -> ExceptT Fault Option Course)
    (path : List Definition) : List Event -> ExceptT Fault Option Course
  | [] => pure .done
  | .read v :: events => do
      let rest ← unrollLevel s config linearization enter path events
      pure (.read v rest)
  | .write v :: events => do
      let rest ← unrollLevel s config linearization enter path events
      pure (.write v rest)
  | .call declared span :: events => do
      let target ← s.finalOverride linearization declared
      let f ← s.function target
      let site : CallSite := ⟨declared, target, f.name, f.signature, span⟩
      if Definition.function target ∈ path then
        let rest ← unrollLevel s config linearization enter path events
        pure (.back site rest)
      else if config.exceedsDepth path.length then
        let rest ← unrollLevel s config linearization enter path events
        pure (.cut site path.length rest)
      else
        let body ← enter (.function target :: path) (f.events config)
        let rest ← unrollLevel s config linearization enter path events
        pure (.call site body rest)

/-- The course of some events, provided that at most `fuel` bodies are entered one inside the
other. -/
def unrollWithin (s : Store) (config : Config) (linearization : List ContractId) :
    Nat -> List Definition -> List Event -> ExceptT Fault Option Course
  | 0 => s.unrollLevel config linearization fun _ _ => ExceptT.mk none
  | fuel + 1 => s.unrollLevel config linearization (s.unrollWithin config linearization fuel)

section

variable {alpha beta : Type}

theorem liftM_bind_eq (x : Except Fault alpha) (f : alpha -> Except Fault beta) :
    (liftM (x >>= f) : ExceptT Fault Option beta) =
      (liftM x : ExceptT Fault Option alpha) >>= fun a => liftM (f a) := by
  cases x <;> rfl

theorem liftM_bind_congr {x : Except Fault alpha} {f g : alpha -> ExceptT Fault Option beta}
    (h : forall a, x = .ok a -> f a = g a) :
    ((liftM x : ExceptT Fault Option alpha) >>= f) = liftM x >>= g := by
  cases x with
  | error fault => rfl
  | ok a => exact h a rfl

end

section

variable {s : Store} {config : Config} {linearization : List ContractId} {path : List Definition}

theorem unrollLevel_eq_unroll
    {enter : List Definition -> List Event -> ExceptT Fault Option Course}
    (henter : forall target f, s.function target = .ok f -> Definition.function target ∉ path ->
      enter (.function target :: path) (f.events config) =
        liftM (s.unroll config linearization (.function target :: path) (f.events config)))
    (events : List Event) :
    s.unrollLevel config linearization enter path events =
      liftM (s.unroll config linearization path events) := by
  induction events with
  | nil =>
      rw [unroll]
      rfl
  | cons event events ih =>
      cases event with
      | read v =>
          rw [unrollLevel, unroll, ih, liftM_bind_eq]
          rfl
      | write v =>
          rw [unrollLevel, unroll, ih, liftM_bind_eq]
          rfl
      | call declared span =>
          rw [unrollLevel, unroll_call, liftM_bind_eq]
          refine liftM_bind_congr ?_
          intro target _
          rw [liftM_bind_eq]
          refine liftM_bind_congr ?_
          intro f hf
          by_cases hmem : Definition.function target ∈ path
          · rw [if_pos hmem, if_pos hmem, ih, liftM_bind_eq]
            rfl
          rw [if_neg hmem, if_neg hmem]
          by_cases hdepth : config.exceedsDepth path.length = true
          · rw [if_pos hdepth, if_pos hdepth, ih, liftM_bind_eq]
            rfl
          rw [if_neg hdepth, if_neg hdepth, henter target f hf hmem, ih, liftM_bind_eq]
          refine liftM_bind_congr ?_
          intro body _
          rw [liftM_bind_eq]
          rfl

theorem unrollWithin_eq_unroll {fuel : Nat} (h : (s.functionsOff path).length ≤ fuel)
    (events : List Event) :
    s.unrollWithin config linearization fuel path events =
      liftM (s.unroll config linearization path events) := by
  induction fuel generalizing path events with
  | zero =>
      -- No function is off the path, so no body is entered.
      refine unrollLevel_eq_unroll ?_ events
      intro target f hf hfresh
      have hlt := length_functionsOff_cons_lt (s.lt_size_of_get_eq_ok hf) hfresh
      omega
  | succ fuel ih =>
      refine unrollLevel_eq_unroll ?_ events
      intro target f hf hfresh
      have hlt := length_functionsOff_cons_lt (s.lt_size_of_get_eq_ok hf) hfresh
      exact ih (by omega) _

theorem length_functionsOff_le (s : Store) (path : List Definition) :
    (s.functionsOff path).length ≤ s.functions.size := by
  have hle := List.length_filter_le
    (fun i => decide (Definition.function ⟨i⟩ ∉ path)) (List.range s.functions.size)
  rw [List.length_range] at hle
  exact hle

end

end Store

/-!
# Depth

Each execution below a root takes a function off the path.
-/

/-- There are functions in the store for the levels above an execution and for those off its path. -/
theorem level_add_length_functionsOff_le {s : Store} {config : Config}
    {linearization : List ContractId} {roots : List Execution} (h : Rooted roots)
    (hunrolled : forall e, e ∈ roots -> e.Unrolled s config linearization) :
    forall e, e ∈ forest roots ->
      e.level + (s.functionsOff e.path).length ≤ s.functions.size := by
  refine forall_mem_forest ?_ ?_
  · intro e he
    rw [Execution.level, h.outer_eq_nil e he, List.length_nil, Nat.zero_add]
    exact s.length_functionsOff_le e.path
  · intro e hmem hle c hc
    rcases (unrolled_of_mem_forest hunrolled e hmem).of_mem_callees hc with
      ⟨⟨events, hevents, _⟩, hfresh, f, hf⟩
    rw [hf, Store.eventsOf, bind_pure_eq_ok_iff] at hevents
    rcases hevents with ⟨decl, hdecl, _⟩
    rw [hf] at hfresh
    have hlt := Store.length_functionsOff_cons_lt (s.lt_size_of_get_eq_ok hdecl) hfresh
    rw [Execution.level_of_mem_callees hc, Execution.path_of_mem_callees hc, hf]
    omega

theorem depth_root_le_of_analyzes {create : Text.Path -> Except String Unit} {s : Store}
    {config : Config} {id : ContractId} {a : Analysis} (h : Analyzes create s config id a)
    {r : NodeId} (hr : r ∈ a.graph.roots) :
    exists depth, a.graph.depth r = .ok depth ∧ depth ≤ s.functions.size := by
  rcases exists_roots_of_analyzes h with ⟨contract, roots, _, hrooted, hgraph, hunrolled⟩
  rw [hgraph] at hr ⊢
  refine Graph.depth_root_le hrooted ?_ hr
  intro e he
  exact Nat.le_of_add_right_le (level_add_length_functionsOff_le hrooted hunrolled e he)

/-!
# How an analysis ends
-/

/-- The ends that an analysis can come to: a result whose roots are at most as deep as there are
functions, an error that is reported, or a fault of a lookup. -/
inductive Ends (s : Store) : Except Fault ((Except Emitted Graph × Handler) × Output) -> Prop
    where
  | result {g : Graph} {after : Handler} {output : Output} :
      (forall r, r ∈ g.roots -> exists depth, g.depth r = .ok depth ∧ depth ≤ s.functions.size) ->
      Ends s (.ok ((.ok g, after), output))
  | reported {evidence : Emitted} {after : Handler} {output : Output} :
      Ends s (.ok ((.error evidence, after), output))
  | outOfRange (kind : DeclKind) {index : Nat} :
      (s.arena kind).size ≤ index -> Ends s (.error (.outOfRange (s.arena kind).size index))
  | poisoned (kind : DeclKind) :
      (s.arena kind).poisoned = true -> Ends s (.error .poisoned)

theorem ends_runIn_analyzeContract (create : Text.Path -> Except String Unit) (s : Store)
    (config : Config) (id : ContractId) (before : Handler) :
    Ends s (Analyzing.runIn before (analyzeContract create s config id)) := by
  have hfails := s.failsByLookup_runIn_analyzeContract create config id before
  cases hrun : Analyzing.runIn before (analyzeContract create s config id) with
  | error fault =>
      cases hfails fault hrun with
      | outOfRange kind hindex => exact .outOfRange kind hindex
      | poisoned kind hpoisoned => exact .poisoned kind hpoisoned
  | ok outcome =>
      rcases outcome with ⟨⟨result, after⟩, output⟩
      cases result with
      | error evidence => exact .reported
      | ok g =>
          have ha : Analyzes create s config id ⟨output, g⟩ := ⟨before, after, hrun⟩
          exact .result fun r hr => depth_root_le_of_analyzes ha hr

/-- Unrolling never enters more bodies one inside the other than there are functions, and every
analysis comes to an end. -/
theorem analysis_terminates (create : Text.Path -> Except String Unit) (s : Store)
    (config : Config) (id : ContractId) (before : Handler) :
    (forall linearization path events,
      (s.unrollWithin config linearization s.functions.size path events).run =
        some (s.unroll config linearization path events)) ∧
    Ends s (Analyzing.runIn before (analyzeContract create s config id)) := by
  refine ⟨?_, ends_runIn_analyzeContract create s config id before⟩
  intro linearization path events
  rw [Store.unrollWithin_eq_unroll (s.length_functionsOff_le path)]
  rfl

/-!
# A poisoned store

One contract is stored, and an attempt to replace another one has failed.
-/

namespace Poisoned

def contract : ContractDecl :=
  ⟨.named "C", [⟨0⟩], none, [], [], .dummy⟩

def store : Store :=
  (Store.replace { contracts := { entries := #[contract] } } (⟨1⟩ : ContractId) contract).2

/-- Here the analysis of the stored contract has no result, and no number is out of range in it. -/
theorem analysis_is_poisoned :
    Analyzing.runIn {} (analyzeContract (fun _ => .ok ()) store {} ⟨0⟩) = .error .poisoned ∧
      ¬ ((exists outcome, Analyzing.runIn {}
          (analyzeContract (fun _ => .ok ()) store {} ⟨0⟩) = .ok outcome) ∨
        exists size index, Analyzing.runIn {}
          (analyzeContract (fun _ => .ok ()) store {} ⟨0⟩) = .error (.outOfRange size index)) := by
  have hpoisoned : Analyzing.runIn {} (analyzeContract (fun _ => .ok ()) store {} ⟨0⟩) =
      .error .poisoned := rfl
  refine ⟨hpoisoned, ?_⟩
  intro h
  rw [hpoisoned] at h
  rcases h with ⟨outcome, h⟩ | ⟨size, index, h⟩
  · cases h
  · cases h

end Poisoned
end CallForest
