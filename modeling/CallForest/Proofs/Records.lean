import CallForest.Proofs.Contents
import CallForest.Proofs.Warnings
import Mathlib.Data.List.Perm.Basic

/-!
# Records

An analysis records each read and each write when it happens. So a course records what it accesses
with the records inside a call in their place, while the nodes of its executions hold the accesses of
each execution on their own. Both hold the same accesses in different orders.
-/

namespace CallForest

inductive Access where
  | read
  | write
  deriving DecidableEq

namespace Access

def notice : Access -> StateVariableId -> Notice
  | .read, v => .read v
  | .write, v => .write v

def recorded? : Access -> Notice -> Option StateVariableId
  | .read, .read v => some v
  | .write, .write v => some v
  | _, _ => none

def ofNode : Access -> Node -> List StateVariableId
  | .read, n => n.reads
  | .write, n => n.writes

def ofCourse : Access -> Course -> List StateVariableId
  | .read, course => course.reads
  | .write, course => course.writes

theorem ofNode_node (access : Access) (e : Execution) :
    access.ofNode e.node = access.ofCourse e.course := by
  cases access with
  | read => rfl
  | write => rfl

theorem recorded?_eq_some_iff {access : Access} {n : Notice} {v : StateVariableId} :
    access.recorded? n = some v <-> n = access.notice v := by
  cases access <;> cases n <;> simp [recorded?, notice]

end Access

/-!
# Records of a story
-/

def recordsOf (notices : List Notice) : List Notice :=
  notices.filter fun notice => notice.level = .trace

theorem level_of_mem_recordsOf {notices : List Notice} {notice : Notice}
    (h : notice ∈ recordsOf notices) : notice.level = .trace :=
  of_decide_eq_true (List.mem_filter.mp h).2

theorem recordsOf_append (first last : List Notice) :
    recordsOf (first ++ last) = recordsOf first ++ recordsOf last :=
  List.filter_append _ _

theorem CallSite.recordsOf_redirection (site : CallSite) (contract : Ident) :
    recordsOf (site.redirection contract) = [] := by
  rw [redirection]
  split
  · rfl
  · rfl

namespace Course

/-- What a course records, with the records inside a call in its place. -/
def records : Course -> List Notice
  | .done => []
  | .read v rest => .read v :: records rest
  | .write v rest => .write v :: records rest
  | .call _ body rest => records body ++ records rest
  | .back _ rest => records rest
  | .cut _ _ rest => records rest

theorem recordsOf_story (course : Course) (contract : Ident) (path : List (FunctionId × Ident))
    (told : List FunctionId) : recordsOf (course.story contract path told).1 = course.records := by
  induction course generalizing path told with
  | done => rfl
  | read v rest ih => exact congrArg (Notice.read v :: ·) (ih path told)
  | write v rest ih => exact congrArg (Notice.write v :: ·) (ih path told)
  | call site body rest ihBody ihRest =>
      rw [story, recordsOf_append, recordsOf_append, CallSite.recordsOf_redirection, ihBody,
        ihRest]
      rfl
  | back site rest ih =>
      rw [story]
      split
      · rw [recordsOf_append, CallSite.recordsOf_redirection, ih]
        rfl
      · rw [recordsOf_append, CallSite.recordsOf_redirection]
        exact ih path _
  | cut site depth rest ih =>
      rw [story, recordsOf_append, CallSite.recordsOf_redirection]
      exact ih path told

end Course

theorem EntryPoint.recordsOf_storyOfList (owner : Ident) (told : List FunctionId)
    (entries : List EntryPoint) :
    recordsOf (storyOfList owner told entries) =
      (entries.filterMap root?).flatMap fun root => root.2.records := by
  induction entries generalizing told with
  | nil => rfl
  | cons entry entries ih =>
      rw [storyOfList, recordsOf_append, ih]
      cases entry with
      | constructor contract id name course =>
          exact congrArg (· ++ _) (course.recordsOf_story owner _ told)
      | implicitConstructor contract id => rfl
      | missingConstructor contract span => rfl
      | stateVariable name id course =>
          exact congrArg (· ++ _) (course.recordsOf_story owner _ told)

theorem Graph.recordsOf_draw {g : Graph} {s : Store}
    {create : Text.Path -> Except String Unit} {print : Option String}
    {drawing : Output} (h : g.draw s create print = .ok drawing) :
    recordsOf drawing.notices = [] :=
  notices_of_draw (P := fun notices => recordsOf notices = []) h rfl (fun _ => rfl) fun _ _ => rfl

theorem flatMap_records_rootExecutions (next : Nat) (plan : List (Definition × Course)) :
    (rootExecutions next plan).flatMap (fun e => e.course.records) =
      plan.flatMap fun root => root.2.records := by
  induction plan generalizing next with
  | nil => rfl
  | cons root plan ih =>
      rcases root with ⟨definition, course⟩
      rw [rootExecutions_cons, List.flatMap_cons, List.flatMap_cons, ih]

/-- An analysis records what its roots record, one after the other. -/
theorem recordsOf_run {g : Graph} {s : Store} {create : Text.Path -> Except String Unit}
    {print : Option String} {drawing : Output} (h : g.draw s create print = .ok drawing)
    (contract owner : Ident) (entries : List EntryPoint) :
    recordsOf (.building contract :: (EntryPoint.storyOfList owner [] entries ++ drawing.notices)) =
      (rootExecutions 0 (entries.filterMap EntryPoint.root?)).flatMap
        fun e => e.course.records := by
  rw [flatMap_records_rootExecutions, ← EntryPoint.recordsOf_storyOfList owner [] entries]
  show recordsOf (_ ++ drawing.notices) = _
  rw [recordsOf_append, Graph.recordsOf_draw h, List.append_nil]

/-!
# Records of executions

The records inside the calls of a course are those of the executions in it.
-/

namespace Course

def ownRecords : Course -> List Notice
  | .done => []
  | .read v rest => .read v :: ownRecords rest
  | .write v rest => .write v :: ownRecords rest
  | .call _ _ rest => ownRecords rest
  | .back _ rest => ownRecords rest
  | .cut _ _ rest => ownRecords rest

theorem filterMap_recorded?_ownRecords (access : Access) (course : Course) :
    course.ownRecords.filterMap access.recorded? = access.ofCourse course := by
  induction course with
  | done => cases access <;> rfl
  | read v rest ih =>
      cases access with
      | read => exact congrArg (v :: ·) ih
      | write => exact ih
  | write v rest ih =>
      cases access with
      | read => exact ih
      | write => exact congrArg (v :: ·) ih
  | call site body rest ihBody ihRest => cases access <;> exact ihRest
  | back site rest ih => cases access <;> exact ih
  | cut site depth rest ih => cases access <;> exact ih

theorem records_perm (course : Course) (frames : List Frame) (next : Nat) :
    course.records.Perm (course.ownRecords ++
      (course.executions frames next).flatMap fun e => e.course.ownRecords) := by
  induction course generalizing frames next with
  | done => exact List.Perm.refl _
  | read v rest ih => exact (ih frames next).cons _
  | write v rest ih => exact (ih frames next).cons _
  | call site body rest ihBody ihRest =>
      rw [executions, List.flatMap_cons, List.flatMap_append,
        ← List.append_assoc (entered frames next site body).course.ownRecords]
      exact ((ihBody _ _).append (ihRest frames _)).trans (List.perm_append_comm_assoc _ _ _)
  | back site rest ih => exact ih frames next
  | cut site depth rest ih => exact ih frames next

theorem isInfix_records_of_mem_callees {course : Course} {frames : List Frame} {next : Nat}
    {c : Execution} (h : c ∈ course.callees frames next) :
    c.course.records <:+: course.records := by
  induction course generalizing next with
  | done => cases h
  | read v rest ih => exact (ih h).trans (List.suffix_cons _ _).isInfix
  | write v rest ih => exact (ih h).trans (List.suffix_cons _ _).isInfix
  | call site body rest ihBody ihRest =>
      rcases List.mem_cons.mp h with rfl | h
      · exact (List.prefix_append _ _).isInfix
      · exact (ihRest h).trans (List.suffix_append _ _).isInfix
  | back site rest ih => exact ih h
  | cut site depth rest ih => exact ih h

end Course

theorem Execution.records_perm (e : Execution) :
    e.course.records.Perm (e.subtree.flatMap fun c => c.course.ownRecords) := by
  rw [subtree, List.flatMap_cons]
  exact e.course.records_perm e.frames e.next

/-- What some executions and those inside them record themselves is what they record in all. -/
theorem flatMap_records_perm (roots : List Execution) :
    (roots.flatMap fun e => e.course.records).Perm
      ((forest roots).flatMap fun e => e.course.ownRecords) := by
  rw [forest, List.flatMap_assoc]
  exact List.Perm.flatMap_left roots fun e _ => e.records_perm

theorem exists_flatMap_eq_of_mem {alpha beta : Type} {f : alpha -> List beta} {xs : List alpha}
    {x : alpha} (h : x ∈ xs) : exists before after, xs.flatMap f = before ++ f x ++ after := by
  rcases List.append_of_mem h with ⟨first, last, rfl⟩
  refine ⟨first.flatMap f, last.flatMap f, ?_⟩
  rw [List.flatMap_append, List.flatMap_cons, List.append_assoc]

theorem isInfix_records_of_mem_forest {roots : List Execution} :
    forall e, e ∈ forest roots ->
      e.course.records <:+: roots.flatMap fun root => root.course.records := by
  refine forall_mem_forest ?_ ?_
  · intro root hroot
    rcases exists_flatMap_eq_of_mem (f := fun root : Execution => root.course.records) hroot with
      ⟨before, after, heq⟩
    rw [heq]
    exact List.infix_append _ _ _
  · intro e _ ih c hc
    exact (Course.isInfix_records_of_mem_callees hc).trans ih

end CallForest
