import CallForest.Proofs.Outcome

/-!
# Warnings

All warnings of an analysis are told by its entry points. A redirected call does not warn about
anything. Whether a recursive call is warned about depends on what has been told before. Every other
warning depends on its own entry point alone.
-/

namespace CallForest

namespace Warning

def isDepthLimit (w : Warning) : Bool :=
  match w.cause with
  | .depthLimit _ _ => true
  | _ => false

def isMissingConstructor (w : Warning) : Bool :=
  match w.cause with
  | .missingConstructor _ => true
  | _ => false

end Warning

def warningsOf (kind : Warning -> Bool) (notices : List Notice) : List Warning :=
  (notices.filterMap Notice.warning?).filter kind

theorem warningsOf_append (kind : Warning -> Bool) (first second : List Notice) :
    warningsOf kind (first ++ second) = warningsOf kind first ++ warningsOf kind second := by
  rw [warningsOf, List.filterMap_append, List.filter_append, warningsOf, warningsOf]

theorem CallSite.filterMap_warning?_redirection (site : CallSite) (contract : Ident) :
    (site.redirection contract).filterMap Notice.warning? = [] := by
  rw [redirection]
  split
  · rfl
  · rfl

theorem CallSite.warningsOf_redirection (kind : Warning -> Bool) (site : CallSite)
    (contract : Ident) : warningsOf kind (site.redirection contract) = [] := by
  rw [warningsOf, filterMap_warning?_redirection]
  rfl

/-!
# Warnings of entry points
-/

namespace Course

def cutWarnings : Course -> List Warning
  | .done => []
  | .read _ rest => cutWarnings rest
  | .write _ rest => cutWarnings rest
  | .call _ body rest => cutWarnings body ++ cutWarnings rest
  | .back _ rest => cutWarnings rest
  | .cut site depth rest => site.depthWarning depth :: cutWarnings rest

theorem isDepthLimit_of_mem_cutWarnings {course : Course} {w : Warning}
    (h : w ∈ course.cutWarnings) : w.isDepthLimit = true := by
  induction course with
  | done => cases h
  | read v rest ih => exact ih h
  | write v rest ih => exact ih h
  | call site body rest ihBody ihRest => exact (List.mem_append.mp h).elim ihBody ihRest
  | back site rest ih => exact ih h
  | cut site depth rest ih =>
      rcases List.mem_cons.mp h with rfl | hrest
      · rfl
      · exact ih hrest

end Course

/-- The warnings of an entry point that do not depend on what has been told. -/
def EntryPoint.ownWarnings : EntryPoint -> List Warning
  | .constructor _ _ _ course => course.cutWarnings
  | .implicitConstructor _ _ => []
  | .missingConstructor contract span => [⟨span, .missingConstructor contract⟩]
  | .stateVariable _ _ course => course.cutWarnings

section

variable {kind : Warning -> Bool}
  (hkind : forall (site : CallSite) path, kind (site.recursionWarning path) = false)

include hkind

theorem Course.warningsOf_story (course : Course) (contract : Ident)
    (path : List (FunctionId × Ident)) (told : List FunctionId) :
    warningsOf kind (course.story contract path told).1 = course.cutWarnings.filter kind := by
  induction course generalizing path told with
  | done => rfl
  | read v rest ih => exact ih path told
  | write v rest ih => exact ih path told
  | call site body rest ihBody ihRest =>
      rw [story, warningsOf_append, warningsOf_append, CallSite.warningsOf_redirection, ihBody,
        ihRest, cutWarnings, List.filter_append]
      rfl
  | back site rest ih =>
      rw [story]
      split
      · rw [warningsOf_append, CallSite.warningsOf_redirection, ih]
        rfl
      · have hwarning : ¬ kind (site.recursionWarning path) = true := by
          rw [hkind]
          exact Bool.false_ne_true
        rw [warningsOf_append, CallSite.warningsOf_redirection, cutWarnings,
          ← ih path (site.target :: told)]
        exact List.filter_cons_of_neg hwarning
  | cut site depth rest ih =>
      rw [story, warningsOf_append, CallSite.warningsOf_redirection, cutWarnings,
        List.filter_cons, ← ih path told]
      exact List.filter_cons

theorem EntryPoint.warningsOf_story (owner : Ident) (told : List FunctionId)
    (entry : EntryPoint) :
    warningsOf kind (entry.story owner told).1 = entry.ownWarnings.filter kind := by
  cases entry with
  | constructor contract id name course => exact course.warningsOf_story hkind owner _ told
  | implicitConstructor contract id => rfl
  | missingConstructor contract span => rfl
  | stateVariable name id course => exact course.warningsOf_story hkind owner _ told

theorem EntryPoint.warningsOf_storyOfList (owner : Ident) (told : List FunctionId)
    (entries : List EntryPoint) :
    warningsOf kind (storyOfList owner told entries) =
      (entries.flatMap ownWarnings).filter kind := by
  induction entries generalizing told with
  | nil => rfl
  | cons entry entries ih =>
      rw [storyOfList, warningsOf_append, entry.warningsOf_story hkind, ih, List.flatMap_cons,
        List.filter_append]

end

end CallForest
