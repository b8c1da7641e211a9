import CallForest.Proofs.Parts

/-!
# Parentheses

Parentheses around an expression are a tuple of one component. As a value such a tuple is what its
component is, and it passes being stored to on to it. But a chain of accesses is not followed into a
tuple. So parentheses matter in one place only: around the base of a chain that is stored to. There
the write of the base, at the end, becomes a read of it, at the beginning.
-/

namespace CallForest

/-!
# Subexpressions in parentheses
-/

namespace Expr

/-- An expression in parentheses: a tuple of one component with the same type and place. -/
def parenthesize (e : Expr) : Expr :=
  .tuple [some e] e.note

/-- An expression in some role holds a subexpression in a role of its own. The last two expressions
are the whole before and after the subexpression is put into parentheses. -/
inductive Wraps (sub : Expr) (hole : Role) : Role -> Expr -> Expr -> Prop where
  | here :
      Wraps sub hole hole sub sub.parenthesize
  | callee {role : Role} {e e' : Expr} {arguments : List Expr} {note : Note} :
      Wraps sub hole .value e e' ->
      Wraps sub hole role (.call e arguments note) (.call e' arguments note)
  | argument {role : Role} {callee e e' : Expr} {before after : List Expr} {note : Note} :
      Wraps sub hole .value e e' ->
      Wraps sub hole role (.call callee (before ++ e :: after) note)
        (.call callee (before ++ e' :: after) note)
  | target {role : Role} {e e' value : Expr} {op : AssignOp} {note : Note} :
      Wraps sub hole .target e e' ->
      Wraps sub hole role (.assign e op value note) (.assign e' op value note)
  | value {role : Role} {target e e' : Expr} {op : AssignOp} {note : Note} :
      Wraps sub hole .value e e' ->
      Wraps sub hole role (.assign target op e note) (.assign target op e' note)
  | memberBase {role : Role} {e e' : Expr} {field : Ident} {note : Note} :
      Wraps sub hole (baseRole role) e e' ->
      Wraps sub hole role (.member e field note) (.member e' field note)
  | indexBase {role : Role} {e e' : Expr} {i : Option Expr} {note : Note} :
      Wraps sub hole (baseRole role) e e' ->
      Wraps sub hole role (.index e i note) (.index e' i note)
  | index {role : Role} {base e e' : Expr} {note : Note} :
      Wraps sub hole .value e e' ->
      Wraps sub hole role (.index base (some e) note) (.index base (some e') note)
  | left {role : Role} {op : BinaryOp} {e e' right : Expr} {note : Note} :
      Wraps sub hole .value e e' ->
      Wraps sub hole role (.binary op e right note) (.binary op e' right note)
  | right {role : Role} {op : BinaryOp} {left e e' : Expr} {note : Note} :
      Wraps sub hole .value e e' ->
      Wraps sub hole role (.binary op left e note) (.binary op left e' note)
  | operand {role : Role} {op : UnaryOp} {e e' : Expr} {note : Note} :
      Wraps sub hole .value e e' ->
      Wraps sub hole role (.unary op e note) (.unary op e' note)
  | condition {role : Role} {e e' thenValue elseValue : Expr} {note : Note} :
      Wraps sub hole .value e e' ->
      Wraps sub hole role (.conditional e thenValue elseValue note)
        (.conditional e' thenValue elseValue note)
  | thenValue {role : Role} {condition e e' elseValue : Expr} {note : Note} :
      Wraps sub hole .value e e' ->
      Wraps sub hole role (.conditional condition e elseValue note)
        (.conditional condition e' elseValue note)
  | elseValue {role : Role} {condition thenValue e e' : Expr} {note : Note} :
      Wraps sub hole .value e e' ->
      Wraps sub hole role (.conditional condition thenValue e note)
        (.conditional condition thenValue e' note)
  | component {role : Role} {e e' : Expr} {before after : List (Option Expr)} {note : Note} :
      Wraps sub hole (componentRole role) e e' ->
      Wraps sub hole role (.tuple (before ++ some e :: after) note)
        (.tuple (before ++ some e' :: after) note)

end Expr

namespace Stmt

inductive Wraps (sub : Expr) (hole : Role) : Stmt -> Stmt -> Prop where
  | expr {e e' : Expr} :
      Expr.Wraps sub hole .value e e' -> Wraps sub hole (.expr e) (.expr e')
  | emit {e e' : Expr} :
      Expr.Wraps sub hole .value e e' -> Wraps sub hole (.emit e) (.emit e')
  | declare {locals : List (Option LocalVariable)} {e e' : Expr} :
      Expr.Wraps sub hole .value e e' ->
      Wraps sub hole (.declare locals (some e)) (.declare locals (some e'))
  | block {s s' : Stmt} {before after : List Stmt} :
      Wraps sub hole s s' ->
      Wraps sub hole (.block (before ++ s :: after)) (.block (before ++ s' :: after))
  | branchCondition {e e' : Expr} {thenBody : Stmt} {elseBody : Option Stmt} :
      Expr.Wraps sub hole .value e e' ->
      Wraps sub hole (.branch e thenBody elseBody) (.branch e' thenBody elseBody)
  | thenBody {condition : Expr} {s s' : Stmt} {elseBody : Option Stmt} :
      Wraps sub hole s s' ->
      Wraps sub hole (.branch condition s elseBody) (.branch condition s' elseBody)
  | elseBody {condition : Expr} {thenBody s s' : Stmt} :
      Wraps sub hole s s' ->
      Wraps sub hole (.branch condition thenBody (some s)) (.branch condition thenBody (some s'))
  | whileCondition {e e' : Expr} {body : Stmt} :
      Expr.Wraps sub hole .value e e' ->
      Wraps sub hole (.whileLoop e body) (.whileLoop e' body)
  | whileBody {condition : Expr} {s s' : Stmt} :
      Wraps sub hole s s' ->
      Wraps sub hole (.whileLoop condition s) (.whileLoop condition s')
  | doBody {s s' : Stmt} {condition : Expr} :
      Wraps sub hole s s' ->
      Wraps sub hole (.doWhile s condition) (.doWhile s' condition)
  | doCondition {body : Stmt} {e e' : Expr} :
      Expr.Wraps sub hole .value e e' ->
      Wraps sub hole (.doWhile body e) (.doWhile body e')
  | forFirst {s s' body : Stmt} {condition next : Option Expr} :
      Wraps sub hole s s' ->
      Wraps sub hole (.forLoop (some s) condition next body)
        (.forLoop (some s') condition next body)
  | forCondition {first : Option Stmt} {e e' : Expr} {next : Option Expr} {body : Stmt} :
      Expr.Wraps sub hole .value e e' ->
      Wraps sub hole (.forLoop first (some e) next body) (.forLoop first (some e') next body)
  | forNext {first : Option Stmt} {condition : Option Expr} {e e' : Expr} {body : Stmt} :
      Expr.Wraps sub hole .value e e' ->
      Wraps sub hole (.forLoop first condition (some e) body)
        (.forLoop first condition (some e') body)
  | forBody {first : Option Stmt} {condition next : Option Expr} {s s' : Stmt} :
      Wraps sub hole s s' ->
      Wraps sub hole (.forLoop first condition next s) (.forLoop first condition next s')
  | ret {e e' : Expr} :
      Expr.Wraps sub hole .value e e' -> Wraps sub hole (.ret (some e)) (.ret (some e'))

end Stmt

/-!
# What becomes of the events
-/

def BecomesRead (v : StateVariableId) (es es' : List Event) : Prop :=
  exists before inner after, es = before ++ (inner ++ .write v :: after) ∧
    es' = before ++ .read v :: (inner ++ after)

/-- What becomes of events that a subexpression in some role takes part in: nothing, unless it is the
base of a chain that is stored to. Arguments of calls may be passed over, with such a base in them. -/
def Alters (config : Config) (sub : Expr) (hole : Role) (es es' : List Event) : Prop :=
  (es' = es ∧ (config.trackCallArguments = true -> hole = .location -> sub.baseVariable? = none)) ∨
    exists v, hole = .location ∧ sub.baseVariable? = some v ∧ BecomesRead v es es'

theorem BecomesRead.context {v : StateVariableId} {es es' : List Event} (h : BecomesRead v es es')
    (xs ys : List Event) : BecomesRead v (xs ++ es ++ ys) (xs ++ es' ++ ys) := by
  rcases h with ⟨before, inner, after, rfl, rfl⟩
  refine ⟨xs ++ before, inner, after ++ ys, ?_, ?_⟩
  · simp only [List.append_assoc, List.cons_append]
  · simp only [List.append_assoc, List.cons_append]

section

variable {config : Config} {sub : Expr} {hole : Role} {es es' : List Event}

theorem Alters.context (h : Alters config sub hole es es') (xs ys : List Event) :
    Alters config sub hole (xs ++ es ++ ys) (xs ++ es' ++ ys) := by
  rcases h with ⟨rfl, hnobase⟩ | ⟨v, hhole, hbase, hread⟩
  · exact Or.inl ⟨rfl, hnobase⟩
  · exact Or.inr ⟨v, hhole, hbase, hread.context xs ys⟩

theorem Alters.append_left (h : Alters config sub hole es es') (xs : List Event) :
    Alters config sub hole (xs ++ es) (xs ++ es') := by
  simpa using h.context xs []

theorem Alters.append_right (h : Alters config sub hole es es') (ys : List Event) :
    Alters config sub hole (es ++ ys) (es' ++ ys) :=
  h.context [] ys

theorem Alters.flatMap {alpha : Type} {f : alpha -> List Event} {x x' : alpha}
    (h : Alters config sub hole (f x) (f x')) (before after : List alpha) :
    Alters config sub hole ((before ++ x :: after).flatMap f) ((before ++ x' :: after).flatMap f) := by
  simp only [List.flatMap_append, List.flatMap_cons]
  exact (h.append_right _).append_left _

end

/-!
# Expressions
-/

namespace Expr

theorem Wraps.note_eq {sub : Expr} {hole role : Role} {e e' : Expr}
    (h : Wraps sub hole role e e') : e'.note = e.note := by
  cases h <;> rfl

theorem callEvents_eq_of_note_eq {e e' : Expr} (h : e'.note = e.note) :
    e'.callEvents = e.callEvents := by
  rw [callEvents, callEvents, type, type, span, span, h]

theorem events_value_eq (config : Config) : forall e : Expr,
    e.events config .value = e.baseVariable?.toList.map Event.read ++ e.events config .location
  | .name _ referent _ => by cases referent <;> rfl
  | .member base field note => by
      rw [events_location_member]
      exact events_value_eq config base
  | .index base i note => by
      have hbase := events_value_eq config base
      rw [events_location_index, ← List.append_assoc]
      show _ ++ _ = (base.baseVariable?.toList.map Event.read ++ _) ++ _
      rw [← hbase, eventsOfOption_eq_flatMap, List.flatMap_map]
      rfl
  | .literal _ _ => rfl
  | .call _ _ _ => rfl
  | .assign _ _ _ _ => rfl
  | .binary _ _ _ _ => rfl
  | .unary _ _ _ => rfl
  | .conditional _ _ _ _ => rfl
  | .tuple _ _ => rfl

theorem events_member (config : Config) (role : Role) (base : Expr) (field : Ident)
    (note : Note) : (member base field note).events config role =
      base.events config (baseRole role) ++ ([] ++ base.writeOfBase role) := by
  cases role with
  | value => exact (List.append_nil _).symm
  | target => rfl
  | location => rfl

theorem events_index (config : Config) (role : Role) (base : Expr) (i : Option Expr)
    (note : Note) : (Expr.index base i note).events config role =
      base.events config (baseRole role) ++
        (eventsOfOption config i ++ base.writeOfBase role) := by
  rw [← List.append_assoc]
  cases role with
  | value => exact (List.append_nil _).symm
  | target => rfl
  | location => rfl

theorem events_tuple (config : Config) (role : Role) (components : List (Option Expr))
    (note : Note) : (tuple components note).events config role =
      (components.filterMap id).flatMap (events config (componentRole role)) := by
  rw [← eventsOfSlots_eq_flatMap]
  cases role <;> rfl

/-- What parentheses in an expression do to it. Either its events alter and it keeps its base, or it
is a chain that loses its base, which is read instead. -/
inductive Rewrapped (config : Config) (sub : Expr) (hole role : Role) (e e' : Expr) : Prop where
  | keeps :
      Alters config sub hole (e.events config role) (e'.events config role) ->
      (role = .location -> e'.baseVariable? = e.baseVariable?) ->
      Rewrapped config sub hole role e e'
  | losesBase {v : StateVariableId} :
      role = .location -> hole = .location -> sub.baseVariable? = some v ->
      e.baseVariable? = some v -> e'.baseVariable? = none ->
      e'.events config .location = .read v :: e.events config .location ->
      Rewrapped config sub hole role e e'

section

variable {config : Config} {sub : Expr} {hole role : Role} {e e' : Expr}

theorem Rewrapped.alters (h : Rewrapped config sub hole role e e') (hrole : role ≠ .location) :
    Alters config sub hole (e.events config role) (e'.events config role) := by
  cases h with
  | keeps halters _ => exact halters
  | losesBase hlocation _ _ _ _ _ => exact absurd hlocation hrole

theorem rewrapped_parenthesize (config : Config) (sub : Expr) (hole : Role) :
    Rewrapped config sub hole hole sub sub.parenthesize := by
  have hslots : forall role, eventsOfSlots config role [some sub] = sub.events config role :=
    fun role => List.append_nil _
  cases hole with
  | value =>
      exact .keeps (Or.inl ⟨hslots .value, fun _ hrole => by cases hrole⟩) fun hrole => by cases hrole
  | target =>
      exact .keeps (Or.inl ⟨hslots .target, fun _ hrole => by cases hrole⟩) fun hrole => by cases hrole
  | location =>
      have hevents : sub.parenthesize.events config .location =
          sub.baseVariable?.toList.map Event.read ++ sub.events config .location :=
        (hslots .value).trans (events_value_eq config sub)
      cases hbase : sub.baseVariable? with
      | none =>
          rw [hbase] at hevents
          exact .keeps (Or.inl ⟨hevents, fun _ _ => hbase⟩) fun _ => hbase.symm
      | some v =>
          rw [hbase] at hevents
          exact .losesBase rfl rfl hbase hbase rfl hevents

theorem Rewrapped.of_base (h : Rewrapped config sub hole (baseRole role) e e') {outer outer' : Expr}
    {index : List Event}
    (hevents : outer.events config role =
      e.events config (baseRole role) ++ (index ++ e.writeOfBase role))
    (hevents' : outer'.events config role =
      e'.events config (baseRole role) ++ (index ++ e'.writeOfBase role))
    (hbase : outer.baseVariable? = e.baseVariable?)
    (hbase' : outer'.baseVariable? = e'.baseVariable?) :
    Rewrapped config sub hole role outer outer' := by
  cases h with
  | keeps halters hkeeps =>
      have hwrite : e'.writeOfBase role = e.writeOfBase role := by
        cases role with
        | value => rfl
        | location => rfl
        | target => rw [writeOfBase_target, writeOfBase_target, hkeeps rfl]
      refine .keeps ?_ ?_
      · rw [hevents, hevents', hwrite]
        exact halters.append_right _
      · rintro rfl
        rw [hbase, hbase', hkeeps rfl]
  | @losesBase v hrole hhole hsub hfound hlost hread =>
      cases role with
      | value => cases hrole
      | target =>
          refine .keeps (Or.inr ⟨v, hhole, hsub, [], e.events config .location ++ index, [], ?_, ?_⟩)
            fun hrole => by cases hrole
          · rw [hevents, writeOfBase_target, hfound, List.append_assoc]
            rfl
          · rw [hevents', writeOfBase_target, hlost]
            simp [baseRole, hread]
      | location =>
          refine .losesBase rfl hhole hsub (hbase.trans hfound) (hbase'.trans hlost) ?_
          rw [hevents, hevents', writeOfBase_location, writeOfBase_location]
          simp [baseRole, hread]

theorem componentRole_ne_location (role : Role) : componentRole role ≠ .location := by
  cases role <;> decide

theorem Wraps.rewrapped (hwrites : config.trackNestedWrites = true)
    (h : Wraps sub hole role e e') : Rewrapped config sub hole role e e' := by
  induction h with
  | here => exact rewrapped_parenthesize config sub hole
  | callee hcallee ih =>
      refine .keeps ?_ fun _ => rfl
      rw [events, events, callEvents_eq_of_note_eq hcallee.note_eq, List.append_assoc,
        List.append_assoc]
      exact (ih.alters (by decide)).append_right _
  | argument _ ih =>
      refine .keeps ?_ fun _ => rfl
      rw [events, events]
      by_cases harguments : config.trackCallArguments = true
      · rw [if_pos harguments, if_pos harguments, eventsOfList_eq_flatMap, eventsOfList_eq_flatMap]
        exact ((ih.alters (by decide)).flatMap _ _).context _ _
      · rw [if_neg harguments, if_neg harguments]
        exact Or.inl ⟨rfl, fun htracked => absurd htracked harguments⟩
  | target _ ih =>
      refine .keeps ?_ fun _ => rfl
      rw [events, events, hwrites, Bool.or_true, Bool.or_true, if_pos rfl, if_pos rfl]
      exact (ih.alters (by decide)).append_left _
  | value _ ih =>
      refine .keeps ?_ fun _ => rfl
      rw [events, events]
      exact (ih.alters (by decide)).append_right _
  | memberBase _ ih => exact ih.of_base (events_member _ _ _ _ _) (events_member _ _ _ _ _) rfl rfl
  | indexBase _ ih => exact ih.of_base (events_index _ _ _ _ _) (events_index _ _ _ _ _) rfl rfl
  | index _ ih =>
      refine .keeps ?_ fun _ => rfl
      rw [events_index, events_index]
      exact ((ih.alters (by decide)).append_right _).append_left _
  | left _ ih =>
      refine .keeps ?_ fun _ => rfl
      rw [events, events]
      exact (ih.alters (by decide)).append_right _
  | right _ ih =>
      refine .keeps ?_ fun _ => rfl
      rw [events, events]
      exact (ih.alters (by decide)).append_left _
  | operand _ ih =>
      refine .keeps ?_ fun _ => rfl
      rw [events, events]
      exact ih.alters (by decide)
  | condition _ ih =>
      refine .keeps ?_ fun _ => rfl
      rw [events, events, List.append_assoc, List.append_assoc]
      exact (ih.alters (by decide)).append_right _
  | thenValue _ ih =>
      refine .keeps ?_ fun _ => rfl
      rw [events, events]
      exact (ih.alters (by decide)).context _ _
  | elseValue _ ih =>
      refine .keeps ?_ fun _ => rfl
      rw [events, events]
      exact (ih.alters (by decide)).append_left _
  | component _ ih =>
      refine .keeps ?_ fun _ => rfl
      rw [events_tuple, events_tuple]
      simp only [List.filterMap_append, List.filterMap_cons, id]
      exact (ih.alters (componentRole_ne_location _)).flatMap _ _

end

end Expr
/-!
# Statements
-/

section

variable {config : Config} {sub : Expr} {hole : Role}

theorem Expr.Wraps.alters (hwrites : config.trackNestedWrites = true) {e e' : Expr}
    (h : Wraps sub hole .value e e') :
    Alters config sub hole (e.events config .value) (e'.events config .value) :=
  (h.rewrapped hwrites).alters (by decide)

theorem Stmt.Wraps.alters (hwrites : config.trackNestedWrites = true) {s s' : Stmt}
    (h : Wraps sub hole s s') : Alters config sub hole (s.events config) (s'.events config) := by
  induction h with
  | expr he => exact he.alters hwrites
  | emit he => exact he.alters hwrites
  | declare he => exact he.alters hwrites
  | block _ ih =>
      rw [events, events, eventsOfBlock_eq_flatMap, eventsOfBlock_eq_flatMap]
      exact ih.flatMap _ _
  | branchCondition he =>
      rw [events, events, List.append_assoc, List.append_assoc]
      exact (he.alters hwrites).append_right _
  | thenBody _ ih =>
      rw [events, events]
      exact ih.context _ _
  | elseBody _ ih =>
      rw [events, events]
      exact ih.append_left _
  | whileCondition he =>
      rw [events, events]
      exact (he.alters hwrites).append_right _
  | whileBody _ ih =>
      rw [events, events]
      exact ih.append_left _
  | doBody _ ih =>
      rw [events, events]
      exact ih.append_right _
  | doCondition he =>
      rw [events, events]
      exact (he.alters hwrites).append_left _
  | forFirst _ ih =>
      rw [events, events, List.append_assoc, List.append_assoc, List.append_assoc,
        List.append_assoc]
      exact ih.append_right _
  | forCondition he =>
      rw [events, events, List.append_assoc _ _ (events config _),
        List.append_assoc _ _ (events config _)]
      exact (he.alters hwrites).context _ _
  | forNext he =>
      rw [events, events]
      exact (he.alters hwrites).context _ _
  | forBody _ ih =>
      rw [events, events]
      exact ih.append_left _
  | ret he => exact he.alters hwrites

end

end CallForest
