import CallForest.Proofs.Outcome

/-!
# The analysis in one pass

An analysis unrolls the code of an entry point into a course, and a builder follows the course. The
same can be done in one pass, which records the events as they are met and enters a function where it
is called. In the pass below every access to a node or to a frame is checked, the frame that a call
goes back to is found by its position, and the functions on a cycle are looked up for their names. No
check fails, since the frames of a builder stand for nodes that have been made and functions that are
stored. So the pass makes the graph of the analysis, and it fails where the analysis fails.
-/

namespace CallForest

namespace Builder

/-!
# Checked steps of a builder
-/

def checkedModify (b : Builder) (id : NodeId) (change : Node -> Node) : Except Fault Builder := do
  let _ ← b.graph.node id
  pure (b.modifyNode id change)

def checkedModifyTop (b : Builder) (change : Node -> Node) : Except Fault Builder :=
  match b.frames with
  | [] => pure b
  | top :: _ => b.checkedModify top.node change

def frameAt (b : Builder) (position : Nat) : Except Fault Frame :=
  match b.frames[position]? with
  | some frame => .ok frame
  | none => .error (.outOfRange b.frames.length position)

def cycle (b : Builder) (position : Nat) : List FunctionId :=
  (b.frames.take (position + 1)).filterMap fun frame => frame.definition.function?

def checkedBack (s : Store) (b : Builder) (f : FunctionId) : Except Fault Builder := do
  let position := b.frames.findIdx fun frame => frame.definition = .function f
  let frame ← b.frameAt position
  let recorded ← b.checkedModifyTop fun n => { n with calls := n.calls ++ [.recursive frame.node] }
  let _ ← (b.cycle position).mapM s.function
  pure recorded

def checkedLeave (b : Builder) : Except Fault Builder :=
  match b.frames with
  | [] => pure b
  | [top] => pure { b with frames := [], roots := b.roots ++ [top.node] }
  | top :: rest =>
      ({ b with frames := rest } : Builder).checkedModifyTop fun n =>
        { n with calls := n.calls ++ [.call top.node] }

end Builder

/-!
# The pass
-/

namespace Store

set_option linter.unusedVariables false in
/-- Executes some events in the innermost frame of a builder, at the end of its path. -/
def pass (s : Store) (config : Config) (linearization : List ContractId)
    (path : List Definition) : List Event -> Builder -> Except Fault Builder
  | [], b => .ok b
  | .read v :: events, b => do
      let recorded ← b.checkedModifyTop fun n => { n with reads := n.reads ++ [v] }
      pass s config linearization path events recorded
  | .write v :: events, b => do
      let recorded ← b.checkedModifyTop fun n => { n with writes := n.writes ++ [v] }
      pass s config linearization path events recorded
  | .call declared _ :: events, b =>
      match s.finalOverride linearization declared with
      | .error fault => .error fault
      | .ok target =>
          match stored : s.function target with
          | .error fault => .error fault
          | .ok f =>
              if fresh : Definition.function target ∈ path then do
                let recorded ← b.checkedBack s target
                pass s config linearization path events recorded
              else if config.exceedsDepth path.length then
                pass s config linearization path events b
              else do
                let inside ← pass s config linearization (.function target :: path)
                  (f.events config) (b.enter (.function target))
                let left ← inside.checkedLeave
                pass s config linearization path events left
termination_by events => ((s.functionsOff path).length, events.length)
decreasing_by
  all_goals first
    | exact Prod.Lex.right _ (Nat.lt_succ_self _)
    | exact Prod.Lex.left _ _
        (length_functionsOff_cons_lt (s.lt_size_of_get_eq_ok stored) fresh)

def passDefinition (s : Store) (config : Config) (linearization : List ContractId)
    (definition : Definition) (events : List Event) (b : Builder) : Except Fault Builder := do
  let inside ← s.pass config linearization [definition] events (b.enter definition)
  inside.checkedLeave

def passConstructor (s : Store) (config : Config) (linearization : List ContractId)
    (b : Builder) (id : ContractId) : Except Fault Builder := do
  let contract ← s.contract id
  match contract.constructor with
  | some f => do
      let decl ← s.function f
      s.passDefinition config linearization (.function f) (decl.events config) b
  | none =>
      match config.missingConstructor with
      | .synthesize => (b.enter (.implicitConstructor id)).checkedLeave
      | .skip => pure b

def passStateVariable (s : Store) (config : Config) (linearization : List ContractId)
    (b : Builder) (id : StateVariableId) : Except Fault Builder := do
  let decl ← s.stateVariable id
  s.passDefinition config linearization (.stateVariable id) (decl.events config id) b

def passEntryPoints (s : Store) (config : Config) (linearization : List ContractId) :
    Except Fault Graph := do
  let constructed ← linearization.reverse.foldlM (s.passConstructor config linearization) {}
  let stored ← s.inheritedStateVariables linearization
  let initialized ← stored.foldlM (s.passStateVariable config linearization) constructed
  pure initialized.graph

end Store

def Analysis.pass (create : Text.Path -> Except String Unit) (s : Store)
    (config : Config) (id : ContractId) : Except Fault (Except Error Graph) := do
  let contract ← s.contract id
  if contract.linearization.head? = some id then
    let graph ← s.passEntryPoints config contract.linearization
    let _ ← graph.draw s create config.printGraph
    pure (.ok graph)
  else
    pure (.error (.invalidLinearization contract.name contract.span))

/-!
# Frames that are backed
-/

namespace Builder

/-- The frames of a builder stand along a path, for nodes that have been made and for functions that
are stored. -/
structure Backed (s : Store) (path : List Definition) (b : Builder) : Prop where
  path_eq : b.path = path
  node_lt : forall frame, frame ∈ b.frames -> frame.node.index < b.nodes.size
  stored : forall f, Definition.function f ∈ path -> exists decl, s.function f = .ok decl

variable {s : Store} {path : List Definition} {b : Builder}

theorem backed_of_frames_eq_nil (h : b.frames = []) : b.Backed s [] where
  path_eq := by
    rw [Builder.path, h]
    rfl
  node_lt := by
    rw [h]
    exact nofun
  stored := nofun

theorem frames_modifyTop (b : Builder) (change : Node -> Node) :
    (b.modifyTop change).frames = b.frames := by
  unfold modifyTop
  split
  · rfl
  · rfl

theorem size_modifyTop (b : Builder) (change : Node -> Node) :
    (b.modifyTop change).nodes.size = b.nodes.size := by
  unfold modifyTop
  split
  · rfl
  · exact Array.size_modify

theorem Backed.modifyTop (h : b.Backed s path) (change : Node -> Node) :
    (b.modifyTop change).Backed s path where
  path_eq := by
    rw [Builder.path, frames_modifyTop]
    exact h.path_eq
  node_lt := by
    rw [frames_modifyTop, size_modifyTop]
    exact h.node_lt
  stored := h.stored

theorem Backed.recordBack (h : b.Backed s path) (f : FunctionId) :
    (b.recordBack f).Backed s path := by
  unfold Builder.recordBack
  split
  · exact h
  · exact h.modifyTop _

theorem Backed.enter (h : b.Backed s path) {d : Definition}
    (hd : forall f, d = .function f -> exists decl, s.function f = .ok decl) :
    (b.enter d).Backed s (d :: path) where
  path_eq := congrArg (d :: ·) h.path_eq
  node_lt := by
    have hsize : (b.enter d).nodes.size = b.nodes.size + 1 := Array.size_push _
    rw [hsize]
    refine List.forall_mem_cons.mpr ⟨Nat.lt_succ_self _, ?_⟩
    intro frame hframe
    exact Nat.lt_succ_of_lt (h.node_lt frame hframe)
  stored := by
    intro f hf
    rcases List.mem_cons.mp hf with heq | hf
    · exact hd f heq.symm
    · exact h.stored f hf

theorem frames_leave (b : Builder) : b.leave.frames = b.frames.tail := by
  unfold leave
  split
  · next h =>
      rw [h]
      rfl
  · next h =>
      rw [h]
      rfl
  · next h =>
      rw [h]
      exact frames_modifyTop _ _

theorem size_leave (b : Builder) : b.leave.nodes.size = b.nodes.size := by
  unfold leave
  split
  · rfl
  · rfl
  · exact size_modifyTop _ _

theorem Backed.leave {d : Definition} (h : b.Backed s (d :: path)) : b.leave.Backed s path where
  path_eq := by
    have htail := congrArg List.tail h.path_eq
    rw [Builder.path, ← List.map_tail, ← frames_leave] at htail
    exact htail
  node_lt := by
    rw [frames_leave, size_leave]
    exact fun frame hframe => h.node_lt frame (List.mem_of_mem_tail hframe)
  stored := fun f hf => h.stored f (List.mem_cons_of_mem _ hf)

theorem Backed.follow {config : Config} {linearization : List ContractId}
    {events : List Event} {course : Course}
    (hunrolls : s.Unrolls config linearization path events course) :
    forall {b : Builder}, b.Backed s path -> (follow course b).Backed s path := by
  induction hunrolls with
  | done => exact id
  | read _ ih => exact fun h => ih (h.modifyTop _)
  | write _ ih => exact fun h => ih (h.modifyTop _)
  | back _ _ _ ih => exact fun h => ih (h.recordBack _)
  | cut _ _ _ _ ih => exact ih
  | call hsite _ _ _ _ _ ihBody ihRest =>
      intro b h
      rcases hsite.exists_decl with ⟨decl, hdecl, _⟩
      refine ihRest (ihBody (h.enter ?_)).leave
      intro f hf
      cases hf
      exact ⟨decl, hdecl⟩

/-!
# No check fails
-/

theorem Backed.checkedModifyTop_eq (h : b.Backed s path) (change : Node -> Node) :
    b.checkedModifyTop change = .ok (b.modifyTop change) := by
  unfold checkedModifyTop Builder.modifyTop
  cases hframes : b.frames with
  | nil => rfl
  | cons top rest =>
      have hlt : top.node.index < b.nodes.size := by
        apply h.node_lt
        rw [hframes]
        exact List.mem_cons_self
      rcases (Graph.exists_node_iff (g := b.graph)).mpr hlt with ⟨node, hnode⟩
      exact bind_pure_eq_ok_iff.mpr ⟨node, hnode, rfl⟩

theorem Backed.exists_cycle (h : b.Backed s path) (position : Nat) :
    exists decls, (b.cycle position).mapM s.function = .ok decls := by
  rw [exists_mapM_eq_ok_iff]
  intro f hf
  rcases List.mem_filterMap.mp hf with ⟨frame, hframe, heq⟩
  have hmem : frame.definition ∈ path := by
    rw [← h.path_eq]
    exact List.mem_map_of_mem (List.mem_of_mem_take hframe)
  cases hdefinition : frame.definition with
  | function g =>
      rw [hdefinition] at heq hmem
      cases heq
      exact h.stored f hmem
  | _ =>
      rw [hdefinition] at heq
      cases heq

theorem Backed.checkedBack_eq (h : b.Backed s path) {f : FunctionId}
    (hmem : Definition.function f ∈ path) : b.checkedBack s f = .ok (b.recordBack f) := by
  rw [← h.path_eq] at hmem
  rcases List.mem_map.mp hmem with ⟨frame, hframe, hdefinition⟩
  let position := b.frames.findIdx fun frame => frame.definition = .function f
  have hlt : position < b.frames.length :=
    List.findIdx_lt_length_of_exists ⟨frame, hframe, decide_eq_true hdefinition⟩
  have hget : b.frames[position]? = some b.frames[position] := List.getElem?_eq_getElem hlt
  have hat : b.frameAt position = .ok b.frames[position] := by
    rw [frameAt, hget]
  rcases h.exists_cycle position with ⟨decls, hdecls⟩
  unfold Builder.recordBack
  rw [List.find?_eq_getElem?_findIdx, hget]
  refine bind_eq_ok_iff.mpr ⟨_, hat, bind_eq_ok_iff.mpr ⟨_, h.checkedModifyTop_eq _, ?_⟩⟩
  exact bind_pure_eq_ok_iff.mpr ⟨decls, hdecls, rfl⟩

theorem Backed.checkedLeave_eq {d : Definition} (h : b.Backed s (d :: path)) :
    b.checkedLeave = .ok b.leave := by
  unfold checkedLeave Builder.leave
  cases hframes : b.frames with
  | nil => rfl
  | cons top rest =>
      cases rest with
      | nil => rfl
      | cons parent rest =>
          have hbacked : ({ b with frames := parent :: rest } : Builder).Backed s path := by
            constructor
            · have hpath := h.path_eq
              rw [Builder.path, hframes, List.map_cons, List.cons.injEq] at hpath
              exact hpath.2
            · intro frame hframe
              exact h.node_lt frame (hframes ▸ List.mem_cons_of_mem _ hframe)
            · exact fun f hf => h.stored f (List.mem_cons_of_mem _ hf)
          exact hbacked.checkedModifyTop_eq _

end Builder

/-!
# The pass makes the graph
-/

namespace Store

variable {s : Store} {config : Config} {linearization : List ContractId}

theorem pass_call (path : List Definition) (declared : FunctionId) (span : Span)
    (events : List Event) (b : Builder) :
    s.pass config linearization path (.call declared span :: events) b = (do
      let target ← s.finalOverride linearization declared
      let f ← s.function target
      if Definition.function target ∈ path then do
        let recorded ← b.checkedBack s target
        s.pass config linearization path events recorded
      else if config.exceedsDepth path.length then
        s.pass config linearization path events b
      else do
        let inside ← s.pass config linearization (.function target :: path) (f.events config)
          (b.enter (.function target))
        let left ← inside.checkedLeave
        s.pass config linearization path events left) := by
  rw [pass]
  split
  · next fault hfault =>
      rw [hfault]
      rfl
  · next target htarget =>
      rw [htarget]
      split
      · next fault hfault =>
          show _ = (s.function target >>= _)
          rw [hfault]
          rfl
      · next f hf =>
          show _ = (s.function target >>= _)
          rw [hf]
          show _ = if Definition.function target ∈ path then _ else _
          by_cases hmem : Definition.function target ∈ path
          · rw [dif_pos hmem, if_pos hmem]
          · rw [dif_neg hmem, if_neg hmem]

theorem pass_call_eq {path : List Definition} {declared target : FunctionId} {span : Span}
    {events : List Event} {b : Builder} {f : FunctionDecl}
    (hdispatch : s.finalOverride linearization declared = .ok target)
    (hf : s.function target = .ok f) :
    s.pass config linearization path (.call declared span :: events) b =
      (if Definition.function target ∈ path then do
        let recorded ← b.checkedBack s target
        s.pass config linearization path events recorded
      else if config.exceedsDepth path.length then
        s.pass config linearization path events b
      else do
        let inside ← s.pass config linearization (.function target :: path) (f.events config)
          (b.enter (.function target))
        let left ← inside.checkedLeave
        s.pass config linearization path events left) := by
  rw [pass_call, hdispatch]
  show (s.function target >>= _) = _
  rw [hf]
  rfl

/-- The pass does in one go what unrolling some events and following their course does. -/
theorem pass_eq (path : List Definition) (events : List Event) :
    forall {b : Builder}, b.Backed s path ->
      s.pass config linearization path events b = (do
        let course ← s.unroll config linearization path events
        pure (Builder.follow course b)) := by
  induction path, events using unroll.induct s config linearization with
  | case1 path =>
      intro b _
      rw [pass, unroll]
      rfl
  | case2 path v events ih =>
      intro b hbacked
      rw [pass, hbacked.checkedModifyTop_eq, unroll, bind_assoc]
      exact ih (hbacked.modifyTop _)
  | case3 path v events ih =>
      intro b hbacked
      rw [pass, hbacked.checkedModifyTop_eq, unroll, bind_assoc]
      exact ih (hbacked.modifyTop _)
  | case4 path declared span events fault hfault =>
      intro b _
      rw [pass_call, unroll_call, hfault]
      rfl
  | case5 path declared span events target htarget fault hfault =>
      intro b _
      rw [pass_call, unroll_call, htarget]
      show (s.function target >>= _) = (s.function target >>= _) >>= _
      rw [hfault]
      rfl
  | case6 path declared span events target htarget f hf hmem ih =>
      intro b hbacked
      rw [pass_call_eq htarget hf, unroll_call_eq htarget hf, if_pos hmem, if_pos hmem,
        hbacked.checkedBack_eq hmem, bind_assoc]
      exact ih (hbacked.recordBack target)
  | case7 path declared span events target htarget f hf hfresh hdepth ih =>
      intro b hbacked
      rw [pass_call_eq htarget hf, unroll_call_eq htarget hf, if_neg hfresh, if_neg hfresh,
        if_pos hdepth, if_pos hdepth, bind_assoc]
      exact ih hbacked
  | case8 path declared span events target htarget f hf hfresh hdepth ihBody ihRest =>
      intro b hbacked
      have hentered : (b.enter (.function target)).Backed s (.function target :: path) := by
        refine hbacked.enter ?_
        intro g hg
        cases hg
        exact ⟨f, hf⟩
      rw [pass_call_eq htarget hf, unroll_call_eq htarget hf, if_neg hfresh, if_neg hfresh,
        if_neg hdepth, if_neg hdepth, ihBody hentered]
      cases hbody : s.unroll config linearization (.function target :: path) (f.events config) with
      | error fault => rfl
      | ok body =>
          -- The callee leaves its own frame on top, and leaving it leads back to the path.
          let inside := Builder.follow body (b.enter (.function target))
          have hinside : inside.Backed s (.function target :: path) :=
            hentered.follow (unrolls_of_unroll hbody)
          show (inside.checkedLeave >>= _) = _
          rw [hinside.checkedLeave_eq]
          refine (ihRest hinside.leave).trans ?_
          show _ = (s.unroll config linearization path events >>= _) >>= _
          rw [bind_assoc]
          rfl

theorem passDefinition_eq {definition : Definition} {events : List Event} {b : Builder}
    (hframes : b.frames = []) (hstored : forall f, definition = .function f ->
      exists decl, s.function f = .ok decl) :
    s.passDefinition config linearization definition events b = (do
      let course ← s.unrollDefinition config linearization definition events
      pure (b.execute definition course)) := by
  have hentered := (Builder.backed_of_frames_eq_nil hframes).enter hstored
  rw [passDefinition, pass_eq _ _ hentered, unrollDefinition]
  cases hcourse : s.unroll config linearization [definition] events with
  | error fault => rfl
  | ok course => exact (hentered.follow (unrolls_of_unroll hcourse)).checkedLeave_eq

/-!
# Entry points
-/

end Store

namespace Builder

def addEntryPoint (b : Builder) (entry : EntryPoint) : Builder :=
  match entry.root? with
  | some root => b.execute root.1 root.2
  | none => b

theorem frames_recordBack (b : Builder) (f : FunctionId) :
    (b.recordBack f).frames = b.frames := by
  unfold recordBack
  split
  · rfl
  · exact frames_modifyTop _ _

theorem frames_follow (course : Course) (b : Builder) : (follow course b).frames = b.frames := by
  induction course generalizing b with
  | done => rfl
  | read v rest ih => exact (ih _).trans (frames_modifyTop _ _)
  | write v rest ih => exact (ih _).trans (frames_modifyTop _ _)
  | call site body rest ihBody ihRest =>
      rw [follow, ihRest, frames_leave, ihBody]
      rfl
  | back site rest ih => exact (ih _).trans (frames_recordBack _ _)
  | cut site depth rest ih => exact ih b

theorem frames_execute (b : Builder) (definition : Definition) (course : Course) :
    (b.execute definition course).frames = b.frames := by
  rw [execute, frames_leave, frames_follow]
  rfl

theorem frames_addEntryPoint (b : Builder) (entry : EntryPoint) :
    (b.addEntryPoint entry).frames = b.frames := by
  unfold addEntryPoint
  split
  · exact b.frames_execute _ _
  · rfl

end Builder

theorem Graph.ofEntryPoints_eq_foldl (entries : List EntryPoint) :
    Graph.ofEntryPoints entries = (entries.foldl Builder.addEntryPoint {}).graph := by
  rw [Graph.ofEntryPoints, List.foldl_filterMap]
  refine congrArg Builder.graph (List.foldl_ext _ _ _ ?_)
  intro b entry _
  unfold Builder.addEntryPoint
  cases entry.root? <;> rfl

theorem foldlM_eq_of_step {alpha beta gamma : Type} {step : beta -> alpha -> Except Fault beta}
    {make : alpha -> Except Fault gamma} {add : beta -> gamma -> beta} {invariant : beta -> Prop}
    (hadd : forall b entry, invariant b -> invariant (add b entry)) {xs : List alpha}
    (hstep : forall b x, invariant b -> step b x = (do let entry ← make x; pure (add b entry))) :
    forall {b : beta}, invariant b -> xs.foldlM step b = (do
      let entries ← xs.mapM make
      pure (entries.foldl add b)) := by
  induction xs with
  | nil => exact fun _ => rfl
  | cons x xs ih =>
      intro b hb
      rw [List.foldlM_cons, List.mapM_cons, hstep b x hb]
      cases hentry : make x with
      | error fault => rfl
      | ok entry =>
          show xs.foldlM step (add b entry) = _
          rw [ih (hadd b entry hb)]
          cases xs.mapM make <;> rfl

namespace Store

variable {s : Store} {config : Config} {linearization : List ContractId} {b : Builder}

theorem passConstructor_eq (hframes : b.frames = []) (id : ContractId) :
    s.passConstructor config linearization b id = (do
      let entry ← s.constructorEntry config linearization id
      pure (b.addEntryPoint entry)) := by
  unfold passConstructor constructorEntry
  rw [bind_assoc]
  refine bind_congr fun contract => ?_
  cases contract.constructor with
  | some f =>
      dsimp only
      rw [bind_assoc]
      cases hdecl : s.function f with
      | error fault => rfl
      | ok decl =>
          have hstored : forall g, Definition.function f = .function g ->
              exists decl, s.function g = .ok decl := by
            intro g hg
            cases hg
            exact ⟨decl, hdecl⟩
          refine (passDefinition_eq hframes hstored).trans ?_
          show _ = (s.unrollDefinition config linearization _ (decl.events config) >>= _) >>= _
          rw [bind_assoc]
          rfl
  | none =>
      cases config.missingConstructor with
      | synthesize =>
          have hbacked : b.Backed s [] := Builder.backed_of_frames_eq_nil hframes
          have hentered := hbacked.enter (d := .implicitConstructor id) nofun
          exact hentered.checkedLeave_eq
      | skip => rfl

theorem passStateVariable_eq (hframes : b.frames = []) (id : StateVariableId) :
    s.passStateVariable config linearization b id = (do
      let entry ← s.stateVariableEntry config linearization id
      pure (b.addEntryPoint entry)) := by
  unfold passStateVariable stateVariableEntry
  rw [bind_assoc]
  refine bind_congr fun decl => ?_
  have hstored : forall f, Definition.stateVariable id = .function f ->
      exists decl, s.function f = .ok decl := by
    intro f hf
    cases hf
  rw [passDefinition_eq hframes hstored, bind_assoc]
  rfl

theorem passEntryPoints_eq (s : Store) (config : Config) (linearization : List ContractId) :
    s.passEntryPoints config linearization = (do
      let entries ← s.entryPoints config linearization
      pure (Graph.ofEntryPoints entries)) := by
  have hadd : forall (b : Builder) entry, b.frames = [] -> (b.addEntryPoint entry).frames = [] :=
    fun b entry h => (b.frames_addEntryPoint entry).trans h
  have hconstructed : linearization.reverse.foldlM (s.passConstructor config linearization) {} = _ :=
    foldlM_eq_of_step hadd (fun _ id hframes => passConstructor_eq hframes id) rfl
  unfold passEntryPoints entryPoints
  rw [hconstructed, bind_assoc, bind_assoc]
  refine bind_congr fun constructors => ?_
  rw [pure_bind, bind_assoc]
  refine bind_congr fun stored => ?_
  have hframes : (constructors.foldl Builder.addEntryPoint {}).frames = [] :=
    List.foldlRecOn (motive := fun b => b.frames = []) constructors _ rfl
      fun b hb entry _ => hadd b entry hb
  rw [foldlM_eq_of_step hadd (fun _ id hframes => passStateVariable_eq hframes id) hframes,
    bind_assoc, bind_assoc]
  refine bind_congr fun initializers => ?_
  rw [pure_bind, pure_bind, Graph.ofEntryPoints_eq_foldl, List.foldl_append]

end Store

/-- The pass makes the graph of the analysis, on every store. -/
theorem Analysis.pass_eq_run (create : Text.Path -> Except String Unit) (s : Store)
    (config : Config) (id : ContractId) :
    Analysis.pass create s config id = (do
      let outcome ← Analysis.run create s config id
      pure (outcome.map Analysis.graph)) := by
  unfold Analysis.pass Analysis.run Analysis.entryPoints
  rw [bind_assoc, bind_assoc]
  refine bind_congr fun contract => ?_
  by_cases hhead : contract.linearization.head? = some id
  · rw [if_pos hhead, if_pos hhead, Store.passEntryPoints_eq, bind_assoc, bind_assoc]
    refine bind_congr fun entries => ?_
    rw [pure_bind, pure_bind]
    show _ = (((Graph.ofEntryPoints entries).draw s create config.printGraph >>= _) >>= _)
    rw [bind_assoc]
    rfl
  · rw [if_neg hhead, if_neg hhead]
    rfl

end CallForest
