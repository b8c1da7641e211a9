import CallForest.Graph.Builder
import Mathlib.Data.List.Nodup

/-!
# Executions

A course contains an execution for every call that is followed, nested the way the calls are. Given
the frames around a course and the number of nodes made before it, each of these executions has a
frame of its own: its node is numbered on entry, before the nodes of the executions inside it. This
module lists the executions of a course in this order, and says which node each of them makes.
-/

namespace CallForest

def nodesFrom (start count : Nat) : List NodeId :=
  (List.range' start count).map NodeId.mk

theorem nodesFrom_succ (start count : Nat) :
    nodesFrom start (count + 1) = ⟨start⟩ :: nodesFrom (start + 1) count := by
  rw [nodesFrom, List.range'_succ, List.map_cons, nodesFrom]

theorem nodesFrom_append (start first second : Nat) :
    nodesFrom start first ++ nodesFrom (start + first) second =
      nodesFrom start (first + second) := by
  rw [nodesFrom, nodesFrom, nodesFrom, ← List.map_append, List.range'_append_1]

@[simp] theorem length_nodesFrom (start count : Nat) :
    (nodesFrom start count).length = count := by
  simp [nodesFrom]

@[simp] theorem mem_nodesFrom {start count : Nat} {id : NodeId} :
    id ∈ nodesFrom start count <-> start ≤ id.index ∧ id.index < start + count := by
  rcases id with ⟨index⟩
  simp [nodesFrom, List.mem_range'_1]

theorem nodup_nodesFrom (start count : Nat) :
    (nodesFrom start count).Nodup := by
  refine List.Nodup.map ?_ List.nodup_range'
  intro i j h
  exact congrArg NodeId.index h

/-- An execution of a definition: its frame, the frames around it, the innermost first, and what
happens in it. -/
structure Execution where
  frame : Frame
  outer : List Frame
  course : Course

namespace Execution

def id (e : Execution) : NodeId :=
  e.frame.node

def definition (e : Execution) : Definition :=
  e.frame.definition

def frames (e : Execution) : List Frame :=
  e.frame :: e.outer

def path (e : Execution) : List Definition :=
  e.frames.map (·.definition)

/-- The nodes on the way to an execution, the innermost first. -/
def lineage (e : Execution) : List NodeId :=
  e.frames.map (·.node)

def next (e : Execution) : Nat :=
  e.id.index + 1

end Execution

namespace Course

/-!
# Reading a course at its outermost level
-/

def size : Course -> Nat
  | .done => 0
  | .read _ rest => size rest
  | .write _ rest => size rest
  | .call _ body rest => size body + 1 + size rest
  | .back _ rest => size rest
  | .cut _ _ rest => size rest

def reads : Course -> List StateVariableId
  | .done => []
  | .read v rest => v :: reads rest
  | .write _ rest => reads rest
  | .call _ _ rest => reads rest
  | .back _ rest => reads rest
  | .cut _ _ rest => reads rest

def writes : Course -> List StateVariableId
  | .done => []
  | .read _ rest => writes rest
  | .write v rest => v :: writes rest
  | .call _ _ rest => writes rest
  | .back _ rest => writes rest
  | .cut _ _ rest => writes rest

def entered (frames : List Frame) (next : Nat) (site : CallSite) (body : Course) : Execution where
  frame := ⟨.function site.target, ⟨next⟩⟩
  outer := frames
  course := body

/-- The edges that the calls of a course leave at the innermost of some frames. -/
def edges (frames : List Frame) : Nat -> Course -> List Edge
  | _, .done => []
  | next, .read _ rest => edges frames next rest
  | next, .write _ rest => edges frames next rest
  | next, .call _ body rest => .call ⟨next⟩ :: edges frames (next + (size body + 1)) rest
  | next, .back site rest =>
      ((frames.find? fun frame => frame.definition = .function site.target).map
        fun frame => Edge.recursive frame.node).toList ++ edges frames next rest
  | next, .cut _ _ rest => edges frames next rest

def callees (frames : List Frame) : Nat -> Course -> List Execution
  | _, .done => []
  | next, .read _ rest => callees frames next rest
  | next, .write _ rest => callees frames next rest
  | next, .call site body rest =>
      entered frames next site body :: callees frames (next + (size body + 1)) rest
  | next, .back _ rest => callees frames next rest
  | next, .cut _ _ rest => callees frames next rest

/-- All executions in a course, each before those inside it. -/
def executions : List Frame -> Nat -> Course -> List Execution
  | _, _, .done => []
  | frames, next, .read _ rest => executions frames next rest
  | frames, next, .write _ rest => executions frames next rest
  | frames, next, .call site body rest =>
      entered frames next site body ::
        (executions (entered frames next site body).frames (next + 1) body ++
          executions frames (next + (size body + 1)) rest)
  | frames, next, .back _ rest => executions frames next rest
  | frames, next, .cut _ _ rest => executions frames next rest

end Course

namespace Execution

def node (e : Execution) : Node where
  definition := e.definition
  calls := e.course.edges e.frames e.next
  reads := e.course.reads
  writes := e.course.writes

def callees (e : Execution) : List Execution :=
  e.course.callees e.frames e.next

def inside (e : Execution) : List Execution :=
  e.course.executions e.frames e.next

def subtree (e : Execution) : List Execution :=
  e :: e.course.executions e.frames e.next

def size (e : Execution) : Nat :=
  e.course.size + 1

end Execution

namespace Course

/-!
# Numbering
-/

@[simp] theorem length_executions (course : Course) (frames : List Frame) (next : Nat) :
    (course.executions frames next).length = course.size := by
  induction course generalizing frames next with
  | done => rfl
  | read v rest ih => exact ih frames next
  | write v rest ih => exact ih frames next
  | call site body rest ihBody ihRest =>
      simp only [executions, size, List.length_cons, List.length_append, ihBody, ihRest]
      omega
  | back site rest ih => exact ih frames next
  | cut site depth rest ih => exact ih frames next

theorem map_id_executions (course : Course) (frames : List Frame) (next : Nat) :
    (course.executions frames next).map Execution.id = nodesFrom next course.size := by
  induction course generalizing frames next with
  | done => rfl
  | read v rest ih => exact ih frames next
  | write v rest ih => exact ih frames next
  | call site body rest ihBody ihRest =>
      rw [executions, List.map_cons, List.map_append, ihBody, ihRest, size,
        ← nodesFrom_append, nodesFrom_succ]
      rfl
  | back site rest ih => exact ih frames next
  | cut site depth rest ih => exact ih frames next

theorem filterMap_callee_edges (course : Course) (frames : List Frame) (next : Nat) :
    (course.edges frames next).filterMap Edge.callee? =
      (course.callees frames next).map Execution.id := by
  induction course generalizing next with
  | done => rfl
  | read v rest ih => exact ih next
  | write v rest ih => exact ih next
  | call site body rest ihBody ihRest =>
      rw [edges, callees, List.map_cons, ← ihRest]
      rfl
  | back site rest ih =>
      rw [edges, callees, List.filterMap_append, ih]
      cases frames.find? fun frame => frame.definition = .function site.target with
      | none => rfl
      | some frame => rfl
  | cut site depth rest ih => exact ih next

/-!
# Nesting
-/

theorem outer_of_mem_callees {course : Course} {frames : List Frame} {next : Nat}
    {e : Execution} (h : e ∈ course.callees frames next) : e.outer = frames := by
  induction course generalizing next with
  | done => cases h
  | read v rest ih => exact ih h
  | write v rest ih => exact ih h
  | call site body rest ihBody ihRest =>
      rcases List.mem_cons.mp h with rfl | hrest
      · rfl
      · exact ihRest hrest
  | back site rest ih => exact ih h
  | cut site depth rest ih => exact ih h

theorem executions_eq_flatMap (course : Course) (frames : List Frame) (next : Nat) :
    course.executions frames next =
      (course.callees frames next).flatMap Execution.subtree := by
  induction course generalizing next with
  | done => rfl
  | read v rest ih => exact ih next
  | write v rest ih => exact ih next
  | call site body rest ihBody ihRest =>
      rw [executions, callees, List.flatMap_cons, ← ihRest]
      rfl
  | back site rest ih => exact ih next
  | cut site depth rest ih => exact ih next

/-- What holds of the executions that a course starts directly and is handed on to the executions
inside them holds of all executions in the course. -/
theorem forall_mem_executions {P : Execution -> Prop}
    (hstep : forall e, P e -> forall c, c ∈ e.callees -> P c)
    (course : Course) (frames : List Frame) (next : Nat)
    (hstart : forall c, c ∈ course.callees frames next -> P c) :
    forall e, e ∈ course.executions frames next -> P e := by
  induction course generalizing frames next with
  | done =>
      intro e he
      cases he
  | read v rest ih => exact ih frames next hstart
  | write v rest ih => exact ih frames next hstart
  | call site body rest ihBody ihRest =>
      rw [callees, List.forall_mem_cons] at hstart
      rcases hstart with ⟨hentered, hrest⟩
      rw [executions, List.forall_mem_cons, List.forall_mem_append]
      refine ⟨hentered, ?_, ihRest frames _ hrest⟩
      exact ihBody _ _ (hstep _ hentered)
  | back site rest ih => exact ih frames next hstart
  | cut site depth rest ih => exact ih frames next hstart

end Course

namespace Execution

theorem map_id_subtree (e : Execution) :
    e.subtree.map Execution.id = nodesFrom e.id.index e.size := by
  rw [subtree, List.map_cons, Course.map_id_executions, size, nodesFrom_succ]
  rfl

theorem callees_node (e : Execution) :
    e.node.callees = e.callees.map Execution.id :=
  Course.filterMap_callee_edges e.course e.frames e.next

theorem subtree_eq_cons (e : Execution) :
    e.subtree = e :: e.callees.flatMap subtree := by
  rw [subtree, Course.executions_eq_flatMap]
  rfl

theorem self_mem_subtree (e : Execution) : e ∈ e.subtree :=
  List.mem_cons_self

theorem outer_of_mem_callees {e c : Execution} (h : c ∈ e.callees) : c.outer = e.frames :=
  Course.outer_of_mem_callees h

theorem path_of_mem_callees {e c : Execution} (h : c ∈ e.callees) :
    c.path = c.definition :: e.path := by
  rw [path, frames, outer_of_mem_callees h]
  rfl

theorem lineage_of_mem_callees {e c : Execution} (h : c ∈ e.callees) :
    c.lineage = c.id :: e.lineage := by
  rw [lineage, frames, outer_of_mem_callees h]
  rfl

theorem forall_mem_subtree {P : Execution -> Prop}
    (hstep : forall e, P e -> forall c, c ∈ e.callees -> P c) {e : Execution} (he : P e) :
    forall c, c ∈ e.subtree -> P c := by
  rw [subtree, List.forall_mem_cons]
  exact ⟨he, Course.forall_mem_executions hstep e.course e.frames e.next (hstep e he)⟩

end Execution
end CallForest
