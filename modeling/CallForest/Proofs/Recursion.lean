import CallForest.Proofs.Completeness
import CallForest.Proofs.Returns
import CallForest.Proofs.Warnings

/-!
# Warnings about recursion

An analysis warns once about each function that a recursive edge leads back to. Which functions have
been reported is handed on from root to root, while the chain of a warning is read off the frames
that are open when the call is met. So the warnings belong to the first recursive edges to each
function, in the order in which the edges are recorded, and each chain names the functions on the way
down from the end of its edge to the node that holds it. If the nesting is not bounded, there is a
warning as soon as the calls below the roots run in a cycle at all.
-/

namespace CallForest

def Warning.isRecursiveCall (w : Warning) : Bool :=
  match w.cause with
  | .recursiveCall _ _ => true
  | _ => false

/-!
# Names along the frames

The story of a course carries the names of the functions that are being executed. They are the stored
names of the functions in the open frames.
-/

def Frame.named? (s : Store) (frame : Frame) : Option (FunctionId × Ident) := do
  let f ← frame.definition.function?
  let decl ← (s.function f).toOption
  pure (f, decl.name)

theorem Frame.named?_eq_some {s : Store} {frame : Frame} {f : FunctionId} {decl : FunctionDecl}
    (hframe : frame.definition = .function f) (hdecl : s.function f = .ok decl) :
    frame.named? s = some (f, decl.name) := by
  rw [named?, hframe]
  show ((s.function f).toOption >>= _) = _
  rw [hdecl]
  rfl

def Store.namedPath (s : Store) (frames : List Frame) : List (FunctionId × Ident) :=
  frames.filterMap (Frame.named? s)

def Return.warning (s : Store) (r : Return) : Warning :=
  r.site.recursionWarning (s.namedPath r.holder.frames)

theorem Store.Resolves.namedPath_entered {s : Store} {linearization : List ContractId}
    {declared : FunctionId} {span : Span} {site : CallSite}
    (h : s.Resolves linearization declared span site) (frames : List Frame) (next : Nat)
    (body : Course) :
    s.namedPath (Course.entered frames next site body).frames =
      (site.target, site.name) :: s.namedPath frames := by
  rcases h.stored with ⟨f, hf, hname, _⟩
  rw [hname]
  exact List.filterMap_cons_some (Frame.named?_eq_some rfl hf)

/-!
# Warnings of a story

A story warns about those of the calls that go back that are the first for their function.
-/

section

variable {s : Store} {config : Config} {linearization : List ContractId}

theorem Store.Unrolls.recursionWarnings_story {path : List Definition} {events : List Event}
    {course : Course} (h : s.Unrolls config linearization path events course) (contract : Ident)
    (e : Execution) (next : Nat) (told : List FunctionId) :
    warningsOf Warning.isRecursiveCall
          (course.story contract (s.namedPath e.frames) told).1 =
        (firstsBy Return.target told (course.returns e next)).map (Return.warning s) ∧
      (course.story contract (s.namedPath e.frames) told).2 =
        metBy Return.target told (course.returns e next) := by
  induction h generalizing e next told with
  | done => exact ⟨rfl, rfl⟩
  | read _ ih => exact ih e next told
  | write _ ih => exact ih e next told
  | back hsite hmem hrest ih =>
      rename_i site rest
      rw [Course.story, Course.returns, firstsBy, metBy]
      by_cases htold : site.target ∈ told
      · have hkey : Return.target ⟨e, site⟩ ∈ told := htold
        rw [if_pos htold, if_pos hkey, if_pos hkey, warningsOf_append,
          CallSite.warningsOf_redirection]
        exact ih e next told
      · have hkey : Return.target ⟨e, site⟩ ∉ told := htold
        rcases ih e next (site.target :: told) with ⟨hwarnings, hmet⟩
        rw [if_neg htold, if_neg hkey, if_neg hkey, warningsOf_append,
          CallSite.warningsOf_redirection]
        exact ⟨congrArg (Return.warning s ⟨e, site⟩ :: ·) hwarnings, hmet⟩
  | cut hsite hfresh hdepth _ ih =>
      rw [Course.story, warningsOf_append, CallSite.warningsOf_redirection]
      exact ih e next told
  | call hsite hfresh hdepth hinner hbody hrest ihBody ihRest =>
      rename_i site body rest
      rcases ihBody (Course.entered e.frames next site body) (next + 1) told with
        ⟨hwarningsBody, hmetBody⟩
      rw [hsite.namedPath_entered] at hwarningsBody hmetBody
      rcases ihRest e (next + (body.size + 1)) (metBy Return.target told
        (body.returns (Course.entered e.frames next site body) (next + 1))) with
        ⟨hwarningsRest, hmetRest⟩
      rw [Course.story, Course.returns, firstsBy_append, metBy_append, List.map_append,
        warningsOf_append, warningsOf_append, CallSite.warningsOf_redirection, hwarningsBody,
        hmetBody, hwarningsRest]
      exact ⟨rfl, hmetRest⟩

def EntryPoint.Unrolled (s : Store) (config : Config) (linearization : List ContractId) :
    EntryPoint -> Prop
  | .constructor _ id name course =>
      (exists decl, s.function id = .ok decl ∧ decl.name = name) ∧
        exists events, s.Unrolls config linearization [.function id] events course
  | .stateVariable _ id course =>
      exists events, s.Unrolls config linearization [.stateVariable id] events course
  | _ => True

theorem unrolled_of_constructorEntry {id : ContractId} {entry : EntryPoint}
    (h : s.constructorEntry config linearization id = .ok entry) :
    entry.Unrolled s config linearization := by
  rw [Store.constructorEntry, bind_eq_ok_iff] at h
  rcases h with ⟨contract, _, h⟩
  split at h
  · rcases bind_eq_ok_iff.mp h with ⟨decl, hdecl, h⟩
    rcases bind_pure_eq_ok_iff.mp h with ⟨course, hcourse, rfl⟩
    exact ⟨⟨decl, hdecl, rfl⟩, _, Store.unrolls_of_unroll hcourse⟩
  · split at h
    · cases h
      trivial
    · cases h
      trivial

theorem unrolled_of_stateVariableEntry {id : StateVariableId} {entry : EntryPoint}
    (h : s.stateVariableEntry config linearization id = .ok entry) :
    entry.Unrolled s config linearization := by
  rcases bind_eq_ok_iff.mp h with ⟨decl, _, h⟩
  rcases bind_pure_eq_ok_iff.mp h with ⟨course, hcourse, rfl⟩
  exact ⟨_, Store.unrolls_of_unroll hcourse⟩

theorem unrolled_of_mem_entryPoints {entries : List EntryPoint}
    (h : s.entryPoints config linearization = .ok entries) :
    forall entry, entry ∈ entries -> entry.Unrolled s config linearization := by
  simp only [Store.entryPoints, bind_eq_ok_iff, pure_eq_ok_iff] at h
  rcases h with ⟨constructors, hconstructors, stored, hstored, initializers, hinitializers, rfl⟩
  intro entry hentry
  rcases List.mem_append.mp hentry with hfirst | hsecond
  · rcases exists_of_mem_mapM hconstructors hfirst with ⟨id, hid⟩
    exact unrolled_of_constructorEntry hid
  · rcases exists_of_mem_mapM hinitializers hsecond with ⟨id, hid⟩
    exact unrolled_of_stateVariableEntry hid

theorem recursionWarnings_storyOfList {entries : List EntryPoint}
    (h : forall entry, entry ∈ entries -> entry.Unrolled s config linearization) (owner : Ident)
    (next : Nat) (told : List FunctionId) :
    warningsOf Warning.isRecursiveCall (EntryPoint.storyOfList owner told entries) =
      (firstsBy Return.target told
        (returnsIn (rootExecutions next (entries.filterMap EntryPoint.root?)))).map
          (Return.warning s) := by
  induction entries generalizing next told with
  | nil => rfl
  | cons entry entries ih =>
      rw [List.forall_mem_cons] at h
      rcases h with ⟨hentry, hrest⟩
      -- An entry point that unrolls a course at some frame hands on what it has told.
      have hroot : forall (d : Definition) (course : Course),
          entry.root? = some (d, course) ->
          let root : Execution := ⟨⟨d, ⟨next⟩⟩, [], course⟩
          warningsOf Warning.isRecursiveCall (entry.story owner told).1 =
              (firstsBy Return.target told root.returns).map (Return.warning s) ->
          (entry.story owner told).2 = metBy Return.target told root.returns ->
          warningsOf Warning.isRecursiveCall (EntryPoint.storyOfList owner told (entry :: entries)) =
            (firstsBy Return.target told (returnsIn (rootExecutions next
              ((entry :: entries).filterMap EntryPoint.root?)))).map (Return.warning s) := by
        intro d course heq root hwarnings hmet
        rw [EntryPoint.storyOfList, warningsOf_append, hwarnings, hmet,
          ih hrest (next + (course.size + 1)), List.filterMap_cons_some heq, rootExecutions_cons,
          returnsIn_cons, firstsBy_append, List.map_append]
      cases entry with
      | constructor contract id name course =>
          rcases hentry with ⟨⟨decl, hdecl, rfl⟩, events, hunrolls⟩
          let root : Execution := ⟨⟨.function id, ⟨next⟩⟩, [], course⟩
          have hpath : s.namedPath root.frames = [(id, decl.name)] :=
            List.filterMap_cons_some (Frame.named?_eq_some rfl hdecl)
          have hstory := hunrolls.recursionWarnings_story owner root root.next told
          rw [hpath] at hstory
          exact hroot _ _ rfl hstory.1 hstory.2
      | implicitConstructor contract id => exact hroot _ _ rfl rfl rfl
      | missingConstructor contract span => exact ih hrest next told
      | stateVariable name id course =>
          rcases hentry with ⟨events, hunrolls⟩
          let root : Execution := ⟨⟨.stateVariable id, ⟨next⟩⟩, [], course⟩
          have hstory := hunrolls.recursionWarnings_story owner root root.next told
          exact hroot _ _ rfl hstory.1 hstory.2

end

/-!
# The frames above the end of a recursive edge

A call that goes back finds its function on the path. The frames above that function are open because
they have been called, so each of them executes a function that is stored.
-/

theorem Store.Unrolls.dispatches_of_mem_backSites {s : Store} {config : Config}
    {linearization : List ContractId} {path : List Definition} {events : List Event}
    {course : Course} (h : s.Unrolls config linearization path events course) {site : CallSite}
    (hsite : site ∈ course.backSites) :
    s.Dispatches linearization events (.function site.target) ∧
      Definition.function site.target ∈ path ∧
      exists decl, s.function site.target = .ok decl ∧ site.name = decl.name := by
  induction h with
  | done => cases hsite
  | read _ ih => exact (ih hsite).imp_left (·.cons _)
  | write _ ih => exact (ih hsite).imp_left (·.cons _)
  | cut _ _ _ _ ih => exact (ih hsite).imp_left (·.cons _)
  | call _ _ _ _ _ _ _ ihRest => exact (ihRest hsite).imp_left (·.cons _)
  | back hresolves hmem _ ih =>
      rcases List.mem_cons.mp hsite with rfl | hsite
      · rcases hresolves.stored with ⟨decl, hdecl, hname, _⟩
        exact ⟨⟨_, _, _, List.mem_cons_self, hresolves.dispatch, rfl⟩, hmem, decl, hdecl, hname⟩
      · exact (ih hsite).imp_left (·.cons _)

theorem Execution.Unrolled.exists_decl {s : Store} {config : Config}
    {linearization : List ContractId} {e : Execution} (h : e.Unrolled s config linearization)
    {f : FunctionId} (hf : e.definition = .function f) : exists decl, s.function f = .ok decl := by
  rcases h with ⟨events, hevents, _⟩
  rw [hf, Store.eventsOf, bind_pure_eq_ok_iff] at hevents
  rcases hevents with ⟨decl, hdecl, _⟩
  exact ⟨decl, hdecl⟩

section

variable {s : Store} {config : Config} {linearization : List ContractId}
  {roots : List Execution}

theorem exists_decl_of_mem_below (h : Rooted roots)
    (hunrolled : forall e, e ∈ roots -> e.Unrolled s config linearization) :
    forall e, e ∈ forest roots -> forall below frame above, e.frames = below ++ frame :: above ->
      forall b, b ∈ below -> exists f decl, b.definition = .function f ∧ s.function f = .ok decl := by
  refine forall_mem_forest ?_ ?_
  · intro e he below frame above hframes b hb
    rw [Execution.frames, h.outer_eq_nil e he] at hframes
    cases below with
    | nil => cases hb
    | cons first below => simp at hframes
  · intro e he ih c hc below frame above hframes b hb
    rw [Execution.frames, Execution.outer_of_mem_callees hc] at hframes
    cases below with
    | nil => cases hb
    | cons first below =>
        rcases List.cons.inj hframes with ⟨hfirst, hrest⟩
        rcases List.mem_cons.mp hb with rfl | hb
        · rcases (unrolled_of_mem_forest hunrolled e he).of_mem_callees hc with
            ⟨hcallee, _, f, hf⟩
          rcases hcallee.exists_decl hf with ⟨decl, hdecl⟩
          exact ⟨f, decl, hfirst ▸ hf, hdecl⟩
        · exact ih below frame above hrest b hb

/-- A call that goes back splits the frames around it at the innermost frame of its function. -/
theorem exists_frames_of_mem_returnsIn
    (hunrolled : forall e, e ∈ roots -> e.Unrolled s config linearization) {r : Return}
    (hr : r ∈ returnsIn roots) :
    exists below frame above, r.holder.frames = below ++ frame :: above ∧
      frame.definition = .function r.target ∧
      (forall b, b ∈ below -> b.definition ≠ .function r.target) ∧
      r.edge? = some (r.holder.id, frame.node) := by
  rcases mem_returnsIn_iff.mp hr with ⟨he, hsite⟩
  rcases unrolled_of_mem_forest hunrolled r.holder he with ⟨events, _, hunrolls⟩
  have hmem := (hunrolls.dispatches_of_mem_backSites hsite).2.1
  rcases exists_find?_of_mem_path hmem with ⟨frame, _, hframe, hfind⟩
  have hedge : r.edge? = some (r.holder.id, frame.node) :=
    Option.map_eq_some_iff.mpr ⟨frame, hfind, rfl⟩
  rcases List.find?_eq_some_iff_append.mp hfind with ⟨_, below, above, hframes, hother⟩
  refine ⟨below, frame, above, hframes, hframe, ?_, hedge⟩
  intro b hb
  have hne := hother b hb
  rw [Bool.not_eq_true', decide_eq_false_iff_not] at hne
  exact hne

end

/-!
# Chains

The chain of a warning is read off the names of the open frames, down to the one that the call goes
back to.
-/

def Frame.IsNamed (s : Store) (frame : Frame) (name : Ident) : Prop :=
  exists f decl, frame.definition = .function f ∧ s.function f = .ok decl ∧ decl.name = name

theorem Store.exists_names_of_namedPath {s : Store} {target : FunctionId} {frame : Frame}
    (hframe : frame.definition = .function target) {decl : FunctionDecl}
    (hdecl : s.function target = .ok decl) (above : List Frame) {below : List Frame}
    (hstored : forall b, b ∈ below ->
      exists f decl, b.definition = .function f ∧ s.function f = .ok decl)
    (hother : forall b, b ∈ below -> b.definition ≠ .function target) :
    exists names, List.Forall₂ (Frame.IsNamed s) below names ∧
      ((s.namedPath (below ++ frame :: above)).takeWhile fun named => named.1 ≠ target).map
        (·.2) = names := by
  induction below with
  | nil =>
      have hnamed := List.filterMap_cons_some (l := above) (Frame.named?_eq_some hframe hdecl)
      refine ⟨[], .nil, ?_⟩
      rw [List.nil_append, namedPath, hnamed, List.takeWhile_cons_of_neg (by simp)]
      rfl
  | cons b below ih =>
      rw [List.forall_mem_cons] at hstored hother
      rcases hstored with ⟨⟨f, fdecl, hf, hfdecl⟩, hstored⟩
      rcases hother with ⟨hne, hother⟩
      rcases ih hstored hother with ⟨names, hnames, heq⟩
      have hnamed := List.filterMap_cons_some (l := below ++ frame :: above)
        (Frame.named?_eq_some hf hfdecl)
      have hnew : f ≠ target := by
        rintro rfl
        exact hne hf
      refine ⟨fdecl.name :: names, .cons ⟨f, fdecl, hf, hfdecl, rfl⟩ hnames, ?_⟩
      rw [List.cons_append, namedPath, hnamed, List.takeWhile_cons_of_pos (by simpa using hnew),
        List.map_cons]
      exact congrArg (fdecl.name :: ·) heq

end CallForest
