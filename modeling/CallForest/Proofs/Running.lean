import CallForest.Analysis.Basic
import CallForest.Proofs.Faults

/-!
# Running an analysis

An analysis runs in a handler and puts something out. It comes to an error before it has put out
anything, or to a graph. Of what it puts out on the way the handler receives the warnings, behind
those that it holds already.
-/

namespace CallForest

namespace Diagnosed

/-!
# Running in a handler
-/

theorem runIn_bind {m : Type -> Type} [Monad m] {alpha beta : Type} (x : Diagnosed m alpha)
    (f : alpha -> Diagnosed m beta) (h : Handler) :
    runIn h (x >>= f) = (do
      let outcome ← runIn h x
      match outcome with
      | (.ok a, after) => runIn after (f a)
      | (.error evidence, after) => pure (.error evidence, after)) := by
  simp only [runIn, ExceptT.run_bind, StateT.run_bind]
  congr 1
  funext outcome
  rcases outcome with ⟨result, after⟩
  cases result with
  | ok a => rfl
  | error evidence => rfl

theorem runIn_scope {m : Type -> Type} [Monad m] {alpha : Type} (body : Diagnosed m alpha)
    (h : Handler) :
    runIn h (scope body) = (do
      let outcome ← runIn {} body
      match outcome with
      | (.ok a, inner) =>
          pure (if inner.hasErrors then .error ⟨⟩ else .ok a, h.append inner)
      | (.error evidence, inner) => pure (.error evidence, h.append inner)) := by
  show (runIn {} body >>= _) = runIn {} body >>= _
  congr 1
  funext outcome
  rcases outcome with ⟨result, inner⟩
  cases result with
  | ok a => rfl
  | error evidence => rfl

end Diagnosed

namespace Output

theorem append_empty (o : Output) : o.append {} = o := by
  rw [append, List.append_nil]
  rfl

theorem log_append (notices : List Notice) (o : Output) :
    append { notices := notices } o = ⟨notices ++ o.notices, o.file⟩ := by
  rw [append, Option.or_none]

theorem append_assoc (first second third : Output) :
    (first.append second).append third = first.append (second.append third) := by
  rw [append, append, append, append, List.append_assoc, Option.or_assoc]

end Output

namespace Analyzing

/-!
# Running with an output

What is put out goes behind what has been put out before. Of the steps that are performed, the log
tells all, and the handler receives those that are warnings.
-/

variable {alpha beta : Type} {h : Handler} {o : Output}

theorem run_bind (x : Analyzing alpha) (f : alpha -> Analyzing beta) :
    (Diagnosed.runIn h (x >>= f)).run o = (do
      let ending ← (Diagnosed.runIn h x).run o
      match ending with
      | ((.ok a, after), later) => (Diagnosed.runIn after (f a)).run later
      | ((.error evidence, after), later) => pure ((.error evidence, after), later)) := by
  rw [Diagnosed.runIn_bind, StateT.run_bind]
  congr 1
  funext ending
  rcases ending with ⟨⟨result, after⟩, later⟩
  cases result with
  | ok a => rfl
  | error evidence => rfl

theorem run_liftM_bind (x : Except Fault alpha) (f : alpha -> Analyzing beta) :
    (Diagnosed.runIn h (liftM x >>= f)).run o = (do
      let a ← x
      (Diagnosed.runIn h (f a)).run o) := by
  rw [run_bind]
  cases x with
  | ok a => rfl
  | error fault => rfl

theorem run_bind_of_ok {x : Analyzing alpha} {a : alpha} {after : Handler} {later : Output}
    (hx : (Diagnosed.runIn h x).run o = .ok ((.ok a, after), later))
    (f : alpha -> Analyzing beta) :
    (Diagnosed.runIn h (x >>= f)).run o = (Diagnosed.runIn after (f a)).run later := by
  rw [run_bind, hx]
  rfl

theorem run_putOut (later : Output) :
    (Diagnosed.runIn h (putOut later)).run o = .ok ((.ok (), h), o.append later) :=
  rfl

theorem run_perform (notice : Notice) :
    (Diagnosed.runIn h (perform notice)).run o =
      .ok ((.ok (), { h with warnings := h.warnings ++ [notice].filterMap Notice.warning? }),
        o.append { notices := [notice] }) := by
  cases notice with
  | warning w => rfl
  | _ =>
      rw [List.filterMap_cons_none rfl, List.filterMap_nil, List.append_nil]
      rfl

theorem run_forM_perform (notices : List Notice) :
    (Diagnosed.runIn h (notices.forM perform)).run o =
      .ok ((.ok (), { h with warnings := h.warnings ++ notices.filterMap Notice.warning? }),
        o.append { notices := notices }) := by
  induction notices generalizing h o with
  | nil =>
      rw [List.filterMap_nil, List.append_nil]
      exact congrArg (fun later => Except.ok (_, later)) o.append_empty.symm
  | cons notice notices ih =>
      show (Diagnosed.runIn h (perform notice >>= fun _ => notices.forM perform)).run o = _
      rw [run_bind_of_ok (run_perform notice), ih, Output.append_assoc, List.append_assoc,
        ← List.filterMap_append]
      rfl

end Analyzing

/-!
# Drawings

Putting out a drawing tells nothing, or the drawing, or why it could not be put out. None of this is a
warning.
-/

theorem Graph.notices_of_draw {P : List Notice -> Prop} {g : Graph} {s : Store}
    {create : Text.Path -> Except String Unit} {print : Option String}
    {drawing : Output} (h : g.draw s create print = .ok drawing) (hnone : P [])
    (hdrawn : forall dot, P [.drawing dot])
    (hfailed : forall path reason, P [.drawingFailed path reason]) : P drawing.notices := by
  cases print with
  | none =>
      cases h
      exact hnone
  | some path =>
      rw [draw, bind_eq_ok_iff] at h
      rcases h with ⟨dot, _, h⟩
      split at h
      · cases h
        exact hdrawn dot
      · split at h
        · cases h
          exact hnone
        · cases h
          exact hfailed path _

theorem Graph.filterMap_warning?_draw {g : Graph} {s : Store}
    {create : Text.Path -> Except String Unit} {print : Option String}
    {drawing : Output} (h : g.draw s create print = .ok drawing) :
    drawing.notices.filterMap Notice.warning? = [] :=
  notices_of_draw (P := fun notices => notices.filterMap Notice.warning? = []) h rfl
    (fun _ => rfl) fun _ _ => rfl

/-!
# The analysis as a value

What an analysis comes to depends neither on the handler nor on what has been put out before. So it
can be computed without them, and the end of a run in some handler is read off the value.
-/

/-- A finished analysis: what it has put out, and its graph. -/
structure Analysis extends Output where
  graph : Graph

namespace Analysis

def warnings (a : Analysis) : List Warning :=
  a.notices.filterMap Notice.warning?

def entryPoints (s : Store) (config : Config) (id : ContractId) :
    Except Fault (Except Error (ContractDecl × List EntryPoint)) := do
  let contract ← s.contract id
  if contract.linearization.head? = some id then
    let entries ← s.entryPoints config contract.linearization
    pure (.ok (contract, entries))
  else
    pure (.error (.invalidLinearization contract.name contract.span))

def run (create : Text.Path -> Except String Unit) (s : Store) (config : Config)
    (id : ContractId) : Except Fault (Except Error Analysis) := do
  match ← entryPoints s config id with
  | .error e => pure (.error e)
  | .ok (contract, entries) =>
      let graph := Graph.ofEntryPoints entries
      let drawing ← graph.draw s create config.printGraph
      let story := EntryPoint.storyOfList contract.name [] entries
      pure (.ok {
        graph
        notices := .building contract.name :: (story ++ drawing.notices)
        file := drawing.file })

/-- The end of a run in a handler. -/
def ending (before : Handler) :
    Except Error Analysis -> (Except Emitted Graph × Handler) × Output
  | .error e => ((.error ⟨⟩, before.emitError e), {})
  | .ok a =>
      ((.ok a.graph, { before with warnings := before.warnings ++ a.warnings }), a.toOutput)

end Analysis

theorem Analysis.warnings_eq {g : Graph} {s : Store} {create : Text.Path -> Except String Unit}
    {print : Option String} {drawing : Output} (h : g.draw s create print = .ok drawing)
    (contract : Ident) (story : List Notice) :
    warnings ⟨⟨.building contract :: (story ++ drawing.notices), drawing.file⟩, g⟩ =
      story.filterMap Notice.warning? := by
  show (story ++ drawing.notices).filterMap Notice.warning? = _
  rw [List.filterMap_append, Graph.filterMap_warning?_draw h, List.append_nil]

namespace Analyzing

theorem runIn_build (create : Text.Path -> Except String Unit) (s : Store) (config : Config)
    (id : ContractId) (h : Handler) :
    runIn h (Analysis.build create s config id) = (do
      let outcome ← Analysis.run create s config id
      pure (Analysis.ending h outcome)) := by
  rw [runIn, Analysis.build, run_liftM_bind, Analysis.run, Analysis.entryPoints, bind_assoc,
    bind_assoc]
  refine bind_congr fun contract => ?_
  by_cases hhead : contract.linearization.head? = some id
  · rw [if_pos hhead, if_pos hhead, tell, run_bind_of_ok (run_putOut _), run_liftM_bind, bind_assoc]
    refine bind_congr fun entries => ?_
    rw [run_bind_of_ok (run_forM_perform _), run_liftM_bind, pure_bind, bind_assoc]
    refine bind_congr_of_ok fun drawing hdrawing => ?_
    rw [run_bind_of_ok (run_putOut drawing), pure_bind, Analysis.ending,
      Analysis.warnings_eq hdrawing, Output.append_assoc, Output.append_assoc, Output.log_append,
      Output.log_append, Output.log_append]
    rfl
  · rw [if_neg hhead, if_neg hhead]
    rfl

theorem runIn_analyzeContract (create : Text.Path -> Except String Unit) (s : Store)
    (config : Config) (id : ContractId) (h : Handler) :
    runIn h (analyzeContract create s config id) = (do
      let outcome ← Analysis.run create s config id
      pure (Analysis.ending h outcome)) := by
  have hbuild := runIn_build create s config id {}
  rw [runIn] at hbuild
  rw [runIn, analyzeContract, Diagnosed.runIn_scope, StateT.run_bind, hbuild, bind_assoc]
  refine bind_congr fun outcome => ?_
  cases outcome with
  | error e =>
      show Except.ok _ = Except.ok _
      simp [Handler.append, Handler.emitError, Analysis.ending]
  | ok a =>
      show Except.ok _ = Except.ok _
      simp [Handler.append, Handler.hasErrors, Analysis.ending]

end Analyzing

/-!
# How a run ends
-/

/-- In some handler, the analysis of a contract ends with a graph. -/
def Analyzes (create : Text.Path -> Except String Unit) (s : Store) (config : Config)
    (id : ContractId) (a : Analysis) : Prop :=
  exists before after : Handler,
    Analyzing.runIn before (analyzeContract create s config id) =
      .ok ((.ok a.graph, after), a.toOutput)

section

variable {create : Text.Path -> Except String Unit} {s : Store} {config : Config} {id : ContractId}
  {a : Analysis}

theorem runIn_analyzeContract_of_run_eq_ok (h : Analysis.run create s config id = .ok (.ok a))
    (before : Handler) :
    Analyzing.runIn before (analyzeContract create s config id) =
      .ok ((.ok a.graph, { before with warnings := before.warnings ++ a.warnings }),
        a.toOutput) := by
  rw [Analyzing.runIn_analyzeContract, h]
  rfl

theorem run_and_after_of_runIn_analyzeContract {before after : Handler}
    (h : Analyzing.runIn before (analyzeContract create s config id) =
      .ok ((.ok a.graph, after), a.toOutput)) :
    Analysis.run create s config id = .ok (.ok a) ∧
      after = { before with warnings := before.warnings ++ a.warnings } := by
  rw [Analyzing.runIn_analyzeContract, bind_pure_eq_ok_iff] at h
  rcases h with ⟨outcome, hrun, hending⟩
  cases outcome with
  | error e => cases hending
  | ok found =>
      rcases found with ⟨output, graph⟩
      cases hending
      exact ⟨hrun, rfl⟩

/-- However a run ends, the handler has received the warnings that the log tells, in their order. -/
theorem warnings_of_runIn_analyzeContract {result : Except Emitted Graph} {before after : Handler}
    {output : Output}
    (h : Analyzing.runIn before (analyzeContract create s config id) =
      .ok ((result, after), output)) :
    after.warnings = before.warnings ++ output.notices.filterMap Notice.warning? := by
  rw [Analyzing.runIn_analyzeContract, bind_pure_eq_ok_iff] at h
  rcases h with ⟨outcome, _, hending⟩
  cases outcome with
  | error e =>
      cases hending
      exact (List.append_nil _).symm
  | ok found =>
      cases hending
      rfl

theorem analyzes_iff_run_eq_ok :
    Analyzes create s config id a <-> Analysis.run create s config id = .ok (.ok a) := by
  constructor
  · intro h
    rcases h with ⟨before, after, h⟩
    exact (run_and_after_of_runIn_analyzeContract h).1
  · intro hrun
    exact ⟨{}, _, runIn_analyzeContract_of_run_eq_ok hrun {}⟩

end

end CallForest
