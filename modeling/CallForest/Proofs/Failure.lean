import CallForest.Proofs.Closed

/-!
# All or nothing

The analysis of a contract fails if the linearization of the contract does not start with the
contract, and for no other reason. It then reports this error and nothing else: it does not warn, tells
nothing and draws nothing. An analysis that ends well adds its warnings to the handler and no error.
Whether it runs in a scope of its own or reports to the handler directly makes no difference.
-/

namespace CallForest

/-- How the analysis of a stored contract ends: it fails because of the linearization, or it ends well,
unless it comes to a poisoned arena. What the handler has held before stays in front. -/
structure Store.AllOrNothing (s : Store) (create : Text.Path -> Except String Unit)
    (config : Config) (id : ContractId) (contract : ContractDecl) (before : Handler) : Prop where
  answers : s.AnswersUnlessPoisoned (Analyzing.runIn before (analyzeContract create s config id))
  fails_iff : (exists evidence after output,
      Analyzing.runIn before (analyzeContract create s config id) =
        .ok ((.error evidence, after), output)) <->
    contract.linearization = [] ∨
      exists first rest, contract.linearization = first :: rest ∧ first ≠ id
  failed : forall evidence after output,
    Analyzing.runIn before (analyzeContract create s config id) =
      .ok ((.error evidence, after), output) ->
    after.errors = before.errors ++ [.invalidLinearization contract.name contract.span] ∧
      after.warnings = before.warnings ∧ output.notices = [] ∧ output.file = none ∧
      forall create' config', Analyzing.runIn before (analyzeContract create' s config' id) =
        .ok ((.error evidence, after), output)
  succeeded : forall g after output,
    Analyzing.runIn before (analyzeContract create s config id) = .ok ((.ok g, after), output) ->
    after.errors = before.errors ∧
      after.warnings = before.warnings ++ output.notices.filterMap Notice.warning?
  kept : forall result after output,
    Analyzing.runIn before (analyzeContract create s config id) = .ok ((result, after), output) ->
    before.errors <+: after.errors ∧ before.warnings <+: after.warnings
  direct : Analyzing.runIn before (Analysis.build create s config id) =
    Analyzing.runIn before (analyzeContract create s config id)

variable {create : Text.Path -> Except String Unit} {s : Store} {config : Config}
  {id : ContractId} {contract : ContractDecl} {before after : Handler} {output : Output}

/-!
# Ends
-/

theorem head?_ne_some_iff {ids : List ContractId} :
    ids.head? ≠ some id <-> ids = [] ∨ exists first rest, ids = first :: rest ∧ first ≠ id := by
  cases ids with
  | nil => simp
  | cons first rest => simp

theorem run_eq_error_iff {e : Error} :
    Analysis.run create s config id = .ok (.error e) <->
      exists contract, s.contract id = .ok contract ∧ contract.linearization.head? ≠ some id ∧
        e = .invalidLinearization contract.name contract.span := by
  rw [Analysis.run, Analysis.entryPoints, bind_eq_ok_iff]
  constructor
  · intro h
    rcases h with ⟨outcome, houtcome, hrun⟩
    rcases bind_eq_ok_iff.mp houtcome with ⟨contract, hcontract, houtcome⟩
    split at houtcome
    · rcases bind_pure_eq_ok_iff.mp houtcome with ⟨entries, _, rfl⟩
      rcases bind_pure_eq_ok_iff.mp hrun with ⟨_, _, hresult⟩
      cases hresult
    · next hhead =>
        cases houtcome
        cases hrun
        exact ⟨contract, hcontract, hhead, rfl⟩
  · intro h
    rcases h with ⟨contract, hcontract, hhead, rfl⟩
    refine ⟨.error (.invalidLinearization contract.name contract.span),
      bind_eq_ok_iff.mpr ⟨contract, hcontract, ?_⟩, rfl⟩
    rw [if_neg hhead]
    rfl

theorem runIn_build_eq_runIn_analyzeContract (create : Text.Path -> Except String Unit)
    (s : Store) (config : Config) (id : ContractId) (before : Handler) :
    Analyzing.runIn before (Analysis.build create s config id) =
      Analyzing.runIn before (analyzeContract create s config id) := by
  rw [Analyzing.runIn_build, Analyzing.runIn_analyzeContract]

theorem runIn_analyzeContract_eq_error_iff {evidence : Emitted} :
    Analyzing.runIn before (analyzeContract create s config id) =
        .ok ((.error evidence, after), output) <->
      exists contract, s.contract id = .ok contract ∧ contract.linearization.head? ≠ some id ∧
        after = before.emitError (.invalidLinearization contract.name contract.span) ∧
        output = {} := by
  rw [Analyzing.runIn_analyzeContract, bind_pure_eq_ok_iff]
  constructor
  · intro h
    rcases h with ⟨outcome, hrun, hending⟩
    cases outcome with
    | error e =>
        cases hending
        rcases run_eq_error_iff.mp hrun with ⟨contract, hcontract, hhead, rfl⟩
        exact ⟨contract, hcontract, hhead, rfl, rfl⟩
    | ok a => cases hending
  · intro h
    rcases h with ⟨contract, hcontract, hhead, rfl, rfl⟩
    exact ⟨_, run_eq_error_iff.mpr ⟨contract, hcontract, hhead, rfl⟩, rfl⟩

/-!
# Stored contracts
-/

theorem after_and_output_of_error (hcontract : s.contract id = .ok contract) {evidence : Emitted}
    (h : Analyzing.runIn before (analyzeContract create s config id) =
      .ok ((.error evidence, after), output)) :
    after = before.emitError (.invalidLinearization contract.name contract.span) ∧
      output = {} := by
  rcases runIn_analyzeContract_eq_error_iff.mp h with ⟨found, hfound, _, rfl, rfl⟩
  cases hcontract.symm.trans hfound
  exact ⟨rfl, rfl⟩

theorem errors_of_ok {g : Graph}
    (h : Analyzing.runIn before (analyzeContract create s config id) =
      .ok ((.ok g, after), output)) : after.errors = before.errors := by
  rw [(run_and_after_of_runIn_analyzeContract (a := ⟨output, g⟩) h).2]

/-- On a closed store the analysis of a stored contract fails at a wrong linearization and nowhere else.
It reports its one error or its warnings behind what the handler holds, in a scope of its own as well
as directly. -/
theorem analyses_are_all_or_nothing (hclosed : s.Closed) (hcontract : s.contract id = .ok contract)
    (create : Text.Path -> Except String Unit) (config : Config) (before : Handler) :
    s.AllOrNothing create config id contract before where
  answers := by
    have hid : s.InRange .contract id := s.lt_size_of_get_eq_ok hcontract
    exact Store.answersUnlessPoisoned_of_failsOnly (Store.failsOnly_runIn_analyzeContract
      hclosed.closedUnder Store.poisonFault_of_get create config hid before)
  fails_iff := by
    rw [← head?_ne_some_iff]
    simp only [runIn_analyzeContract_eq_error_iff]
    constructor
    · intro h
      rcases h with ⟨_, _, _, found, hfound, hhead, _⟩
      cases hcontract.symm.trans hfound
      exact hhead
    · intro hhead
      exact ⟨⟨⟩, _, _, contract, hcontract, hhead, rfl, rfl⟩
  failed := by
    intro evidence after output h
    have hend := runIn_analyzeContract_eq_error_iff.mp h
    have hagain : forall create' config',
        Analyzing.runIn before (analyzeContract create' s config' id) =
          .ok ((.error evidence, after), output) :=
      fun _ _ => runIn_analyzeContract_eq_error_iff.mpr hend
    rcases after_and_output_of_error hcontract h with ⟨rfl, rfl⟩
    exact ⟨rfl, rfl, rfl, rfl, hagain⟩
  succeeded := by
    intro g after output h
    exact ⟨errors_of_ok h, warnings_of_runIn_analyzeContract h⟩
  kept := by
    intro result after output h
    rw [warnings_of_runIn_analyzeContract h]
    refine ⟨?_, List.prefix_append _ _⟩
    cases result with
    | error evidence =>
        rw [(after_and_output_of_error hcontract h).1]
        exact List.prefix_append _ _
    | ok g => exact (errors_of_ok h).symm ▸ List.prefix_refl _
  direct := runIn_build_eq_runIn_analyzeContract create s config id before

/-!
# A linearization in the wrong order

The linearization of `C` names its base `B` first.
-/

namespace Misordered

def derived : ContractDecl :=
  ⟨.named "C", [⟨1⟩, ⟨0⟩], none, [], [], .dummy⟩

def store : Store where
  contracts := { entries := #[derived, ⟨.named "B", [⟨1⟩], none, [], [], .dummy⟩] }

def prior : Handler where
  errors := [.invalidLinearization (.named "A") .dummy]
  warnings := [⟨.dummy, .missingConstructor (.named "A")⟩]

end Misordered

theorem allOrNothing_misordered :
    Misordered.store.Closed ∧ Misordered.store.contract ⟨0⟩ = .ok Misordered.derived ∧
      (exists evidence after output, Analyzing.runIn Misordered.prior
          (analyzeContract (fun _ => .ok ()) Misordered.store {} ⟨0⟩) =
            .ok ((.error evidence, after), output) ∧
        output.notices = [] ∧ output.file = none ∧
        after.errors = [.invalidLinearization (.named "A") .dummy,
          .invalidLinearization (.named "C") .dummy] ∧
        after.warnings = Misordered.prior.warnings) ∧
      exists contract, Cycle.store.contract ⟨0⟩ = .ok contract ∧
        Cycle.store.AllOrNothing (fun _ => .ok ()) {} ⟨0⟩ contract Misordered.prior := by
  have hclosed : Misordered.store.Closed := by decide
  have hall : Misordered.store.AllOrNothing (fun _ => .ok ()) {} ⟨0⟩ Misordered.derived
      Misordered.prior := analyses_are_all_or_nothing hclosed rfl _ _ _
  rcases hall.fails_iff.mpr (.inr ⟨⟨1⟩, [⟨0⟩], rfl, by decide⟩) with ⟨evidence, after, output, h⟩
  rcases hall.failed evidence after output h with ⟨herrors, hwarnings, hnotices, hfile, _⟩
  refine ⟨hclosed, rfl, ⟨evidence, after, output, h, hnotices, hfile, herrors, hwarnings⟩,
    _, rfl, ?_⟩
  exact analyses_are_all_or_nothing (by decide) rfl _ _ _

end CallForest
