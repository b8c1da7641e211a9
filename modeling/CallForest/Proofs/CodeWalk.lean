import CallForest.Effect.Event
import CallForest.Proofs.CodeInduction

/-!
# Walking through code

The events of a piece of code are given by rules. Names are read. A call is met after its callee and,
if they are tracked, its arguments. An assignment comes after the value that it stores. A target is
followed down to what it stores to. Every other piece is walked through as a visitor goes through it
by default: child by child. The rules know the code and the configuration only, neither what is being
executed nor what was executed before, and they give each piece of code exactly the events that the
recursion on the code computes.
-/

namespace CallForest

/-- What lies before a walk: code to go through, targets to store to, or a chain of accesses to
follow down to its base. -/
inductive Task where
  | visit (p : Piece)
  | visitAll (ps : List Piece)
  | store (target : Expr)
  | storeAll (targets : List Expr)
  | locate (location : Expr) (base : Option StateVariableId)

namespace Expr

def isAccess : Expr -> Bool
  | .member _ _ _ => true
  | .index _ _ _ => true
  | _ => false

def isTuple : Expr -> Bool
  | .tuple _ _ => true
  | _ => false

end Expr

inductive Walks (config : Config) : Task -> List Event -> Prop where
  | nil :
      Walks config (.visitAll []) []
  | cons {p : Piece} {ps : List Piece} {es fs : List Event} :
      Walks config (.visit p) es -> Walks config (.visitAll ps) fs ->
      Walks config (.visitAll (p :: ps)) (es ++ fs)
  | readVariable {ident : Ident} {v : StateVariableId} {note : Note} :
      Walks config (.visit (.expr (.name ident (.stateVariable v) note))) [.read v]
  | otherName {ident : Ident} {referent : Referent} {note : Note} :
      referent.stateVariable? = none ->
      Walks config (.visit (.expr (.name ident referent note))) []
  | callFunction {callee : Expr} {arguments : List Expr} {note : Note} {es fs : List Event}
      {parameters returns : List Ty} {f : FunctionId} :
      callee.type = .function parameters returns (some (.function f)) ->
      Walks config (.visit (.expr callee)) es ->
      Walks config (.visitAll (if config.trackCallArguments then arguments.map .expr else [])) fs ->
      Walks config (.visit (.expr (.call callee arguments note)))
        (es ++ fs ++ [.call f callee.span])
  | callOther {callee : Expr} {arguments : List Expr} {note : Note} {es fs : List Event} :
      (forall parameters returns f,
        callee.type ≠ .function parameters returns (some (.function f))) ->
      Walks config (.visit (.expr callee)) es ->
      Walks config (.visitAll (if config.trackCallArguments then arguments.map .expr else [])) fs ->
      Walks config (.visit (.expr (.call callee arguments note))) (es ++ fs)
  | assign {target value : Expr} {op : AssignOp} {note : Note} {es fs : List Event} :
      (target.ident? = none -> config.trackNestedWrites = true) ->
      Walks config (.visit (.expr value)) es -> Walks config (.store target) fs ->
      Walks config (.visit (.expr (.assign target op value note))) (es ++ fs)
  | assignUntracked {target value : Expr} {op : AssignOp} {note : Note} {es : List Event} :
      target.ident? = none -> config.trackNestedWrites = false ->
      Walks config (.visit (.expr value)) es ->
      Walks config (.visit (.expr (.assign target op value note))) es
  | other {p : Piece} {es : List Event} :
      p.hook ≠ .identifier -> p.hook ≠ .call -> p.hook ≠ .assignment ->
      Walks config (.visitAll p.children) es ->
      Walks config (.visit p) es
  | storeVariable {ident : Ident} {v : StateVariableId} {note : Note} :
      Walks config (.store (.name ident (.stateVariable v) note)) [.write v]
  | storeOtherName {ident : Ident} {referent : Referent} {note : Note} :
      referent.stateVariable? = none ->
      Walks config (.store (.name ident referent note)) []
  | storeAccess {target : Expr} {base : Option StateVariableId} {es : List Event} :
      target.isAccess = true -> Walks config (.locate target base) es ->
      Walks config (.store target) (es ++ base.toList.map .write)
  | storeTuple {components : List (Option Expr)} {note : Note} {es : List Event} :
      Walks config (.storeAll (components.filterMap id)) es ->
      Walks config (.store (.tuple components note)) es
  | storeOther {target : Expr} {es : List Event} :
      target.ident? = none -> target.isAccess = false -> target.isTuple = false ->
      Walks config (.visit (.expr target)) es ->
      Walks config (.store target) es
  | storeNil :
      Walks config (.storeAll []) []
  | storeCons {target : Expr} {targets : List Expr} {es fs : List Event} :
      Walks config (.store target) es -> Walks config (.storeAll targets) fs ->
      Walks config (.storeAll (target :: targets)) (es ++ fs)
  | locateName {ident : Ident} {referent : Referent} {note : Note} :
      Walks config (.locate (.name ident referent note) referent.stateVariable?) []
  | locateMember {inner : Expr} {field : Ident} {note : Note} {base : Option StateVariableId}
      {es : List Event} :
      Walks config (.locate inner base) es ->
      Walks config (.locate (.member inner field note) base) es
  | locateIndex {inner : Expr} {i : Option Expr} {note : Note} {base : Option StateVariableId}
      {es fs : List Event} :
      Walks config (.locate inner base) es ->
      Walks config (.visitAll (i.toList.map .expr)) fs ->
      Walks config (.locate (.index inner i note) base) (es ++ fs)
  | locateOther {location : Expr} {es : List Event} :
      location.ident? = none -> location.isAccess = false ->
      Walks config (.visit (.expr location)) es ->
      Walks config (.locate location none) es

/-!
# Rows of code

The recursion on the code has a companion for each kind of row that an expression or a statement
holds. Each of them goes through its row from the left to the right.
-/

theorem Expr.eventsOfList_eq_flatMap (config : Config) (es : List Expr) :
    Expr.eventsOfList config es = es.flatMap (Expr.events config .value) := by
  induction es with
  | nil => rfl
  | cons e es ih =>
      rw [Expr.eventsOfList, ih, List.flatMap_cons]

theorem Expr.eventsOfOption_eq_flatMap (config : Config) (e : Option Expr) :
    Expr.eventsOfOption config e = e.toList.flatMap (Expr.events config .value) := by
  cases e with
  | none => rfl
  | some e => exact (List.append_nil _).symm

theorem Expr.eventsOfSlots_eq_flatMap (config : Config) (role : Role)
    (slots : List (Option Expr)) :
    Expr.eventsOfSlots config role slots =
      (slots.filterMap id).flatMap (Expr.events config role) := by
  induction slots with
  | nil => rfl
  | cons slot slots ih =>
      cases slot with
      | none => exact ih
      | some e =>
          rw [Expr.eventsOfSlots, ih]
          rfl

theorem Stmt.eventsOfBlock_eq_flatMap (config : Config) (ss : List Stmt) :
    Stmt.eventsOfBlock config ss = ss.flatMap (Stmt.events config) := by
  induction ss with
  | nil => rfl
  | cons s ss ih =>
      rw [Stmt.eventsOfBlock, ih, List.flatMap_cons]

theorem Stmt.eventsOfOption_eq_flatMap (config : Config) (s : Option Stmt) :
    Stmt.eventsOfOption config s = s.toList.flatMap (Stmt.events config) := by
  cases s with
  | none => rfl
  | some s => exact (List.append_nil _).symm

namespace Piece

def events (config : Config) : Piece -> List Event
  | .function _ decl => decl.events config
  | .stmt s => s.events config
  | .expr e => e.events config .value

theorem events_eq_flatMap_children (config : Config) {p : Piece} (hname : p.hook ≠ .identifier)
    (hcall : p.hook ≠ .call) (hassign : p.hook ≠ .assignment) :
    p.events config = p.children.flatMap (events config) := by
  cases p with
  | function id decl =>
      cases hbody : decl.body with
      | none => simp [events, FunctionDecl.events, children, ofBlock, hbody]
      | some body =>
          simp [events, FunctionDecl.events, children, ofBlock, hbody,
            Stmt.eventsOfBlock_eq_flatMap, List.flatMap_map]
  | stmt s =>
      cases s <;>
        simp [events, children, Stmt.children, Stmt.events, Stmt.eventsOfBlock_eq_flatMap,
          Stmt.eventsOfOption_eq_flatMap, Expr.eventsOfOption_eq_flatMap, List.flatMap_map]
  | expr e =>
      cases e with
      | name ident referent note => exact absurd rfl hname
      | call callee arguments note => exact absurd rfl hcall
      | assign target op value note => exact absurd rfl hassign
      | literal value note => rfl
      | member base field note =>
          simp [events, children, Expr.children, Expr.events]
      | index base i note =>
          simp [events, children, Expr.children, Expr.events, Expr.eventsOfOption_eq_flatMap,
            List.flatMap_map]
      | binary op left right note =>
          simp [events, children, Expr.children, Expr.events]
      | unary op operand note =>
          simp [events, children, Expr.children, Expr.events]
      | conditional condition thenValue elseValue note =>
          simp [events, children, Expr.children, Expr.events]
      | tuple components note =>
          simp [events, children, Expr.children, Expr.events, Expr.eventsOfSlots_eq_flatMap,
            List.flatMap_map]

end Piece

/-!
# Agreement with the recursion

The rules give nothing but what the recursion computes, by induction on their use. They give all of
it by induction on the code: a piece is walked through, stored to and located once its children are.
-/

namespace Expr

theorem writeOfBase_target (e : Expr) :
    e.writeOfBase .target = e.baseVariable?.toList.map .write := by
  unfold writeOfBase
  cases e.baseVariable? with
  | none => rfl
  | some v => rfl

theorem writeOfBase_location (e : Expr) : e.writeOfBase .location = [] :=
  rfl

theorem events_target_of_isAccess {config : Config} {e : Expr} (h : e.isAccess = true) :
    e.events config .target =
      e.events config .location ++ e.baseVariable?.toList.map .write := by
  cases e with
  | member base field note =>
      simp [events, baseVariable?, writeOfBase_target, writeOfBase_location]
  | index base i note =>
      simp [events, baseVariable?, writeOfBase_target, writeOfBase_location]
  | _ => cases h

theorem events_location_member (config : Config) (base : Expr) (field : Ident) (note : Note) :
    (member base field note).events config .location = base.events config .location :=
  List.append_nil _

theorem events_location_index (config : Config) (base : Expr) (i : Option Expr) (note : Note) :
    (index base i note).events config .location =
      base.events config .location ++ (i.toList.map .expr).flatMap (Piece.events config) := by
  rw [List.flatMap_map]
  exact (List.append_nil _).trans
    (congrArg _ (eventsOfOption_eq_flatMap config i))

theorem events_location_eq_value {config : Config} {e : Expr} (hname : e.ident? = none)
    (haccess : e.isAccess = false) :
    e.events config .location = e.events config .value := by
  cases e with
  | name ident referent note => cases hname
  | member base field note => cases haccess
  | index base i note => cases haccess
  | _ => rfl

theorem events_target_eq_value {config : Config} {e : Expr} (hname : e.ident? = none)
    (haccess : e.isAccess = false) (htuple : e.isTuple = false) :
    e.events config .target = e.events config .value := by
  cases e with
  | name ident referent note => cases hname
  | member base field note => cases haccess
  | index base i note => cases haccess
  | tuple components note => cases htuple
  | _ => rfl

theorem baseVariable?_eq_none {e : Expr} (hname : e.ident? = none)
    (haccess : e.isAccess = false) : e.baseVariable? = none := by
  cases e with
  | name ident referent note => cases hname
  | member base field note => cases haccess
  | index base i note => cases haccess
  | _ => rfl

end Expr

def Task.Yields (config : Config) : Task -> List Event -> Prop
  | .visit p, es => es = p.events config
  | .visitAll ps, es => es = ps.flatMap (Piece.events config)
  | .store target, es => es = target.events config .target
  | .storeAll targets, es => es = targets.flatMap (Expr.events config .target)
  | .locate location base, es =>
      base = location.baseVariable? ∧ es = location.events config .location

theorem callEvents_eq {callee : Expr} {parameters returns : List Ty} {f : FunctionId}
    (h : callee.type = .function parameters returns (some (.function f))) :
    callee.callEvents = [.call f callee.span] := by
  rw [Expr.callEvents, h]
  rfl

theorem declaredFunction?_eq_some_iff {t : Ty} {f : FunctionId} :
    t.declaredFunction? = some f <->
      exists parameters returns, t = .function parameters returns (some (.function f)) := by
  constructor
  · intro h
    unfold Ty.declaredFunction? at h
    split at h
    · next parameters returns referent =>
        cases referent with
        | function g =>
            cases h
            exact ⟨parameters, returns, rfl⟩
        | _ => cases h
    · cases h
  · intro h
    rcases h with ⟨parameters, returns, rfl⟩
    rfl

theorem callEvents_eq_nil {callee : Expr}
    (h : forall parameters returns f,
      callee.type ≠ .function parameters returns (some (.function f))) :
    callee.callEvents = [] := by
  unfold Expr.callEvents
  cases hf : callee.type.declaredFunction? with
  | none => rfl
  | some f =>
      rcases declaredFunction?_eq_some_iff.mp hf with ⟨parameters, returns, htype⟩
      exact absurd htype (h parameters returns f)

theorem events_of_stateVariable?_eq_none {referent : Referent}
    (h : referent.stateVariable? = none) (role : Role) : referent.events role = [] := by
  cases referent with
  | stateVariable v => cases h
  | _ => cases role <;> rfl

namespace Piece

theorem events_call (config : Config) (callee : Expr) (arguments : List Expr) (note : Note) :
    events config (.expr (.call callee arguments note)) =
      events config (.expr callee) ++
        (if config.trackCallArguments then arguments.map .expr else []).flatMap (events config) ++
        callee.callEvents := by
  rw [events, Expr.events]
  split
  · rw [Expr.eventsOfList_eq_flatMap, List.flatMap_map]
    rfl
  · rfl

theorem events_assign {config : Config} {target : Expr}
    (h : target.ident? = none -> config.trackNestedWrites = true) (op : AssignOp) (value : Expr)
    (note : Note) :
    events config (.expr (.assign target op value note)) =
      events config (.expr value) ++ target.events config .target := by
  rw [events, Expr.events, if_pos]
  · rfl
  · cases hname : target.ident? with
    | none => exact h hname
    | some ident => rfl

theorem events_assign_untracked {config : Config} {target : Expr} (hname : target.ident? = none)
    (h : config.trackNestedWrites = false) (op : AssignOp) (value : Expr) (note : Note) :
    events config (.expr (.assign target op value note)) = events config (.expr value) := by
  rw [events, Expr.events, hname, h]
  exact List.append_nil _

end Piece

theorem Walks.yields {config : Config} {task : Task} {es : List Event}
    (h : Walks config task es) : task.Yields config es := by
  induction h with
  | nil => rfl
  | cons _ _ ihHead ihTail =>
      cases ihHead
      cases ihTail
      rfl
  | readVariable => rfl
  | otherName hnone => exact (events_of_stateVariable?_eq_none hnone .value).symm
  | callFunction htype _ _ ihCallee ihArguments =>
      cases ihCallee
      cases ihArguments
      rw [Task.Yields, Piece.events_call, callEvents_eq htype]
  | callOther htype _ _ ihCallee ihArguments =>
      cases ihCallee
      cases ihArguments
      rw [Task.Yields, Piece.events_call, callEvents_eq_nil htype, List.append_nil]
  | assign htracked _ _ ihValue ihTarget =>
      cases ihValue
      cases ihTarget
      rw [Task.Yields, Piece.events_assign htracked]
  | assignUntracked hname htracked _ ihValue =>
      exact ihValue.trans (Piece.events_assign_untracked hname htracked _ _ _).symm
  | other hname hcall hassign _ ih => 
      exact ih.trans (Piece.events_eq_flatMap_children config hname hcall hassign).symm
  | storeVariable => rfl
  | storeOtherName hnone => exact (events_of_stateVariable?_eq_none hnone .target).symm
  | storeAccess haccess _ ih =>
      rcases ih with ⟨rfl, rfl⟩
      exact (Expr.events_target_of_isAccess haccess).symm
  | storeTuple _ ih =>
      exact ih.trans (Expr.eventsOfSlots_eq_flatMap config .target _).symm
  | storeOther hname haccess htuple _ ih =>
      exact ih.trans (Expr.events_target_eq_value hname haccess htuple).symm
  | storeNil => rfl
  | storeCons _ _ ihHead ihTail =>
      cases ihHead
      cases ihTail
      rfl
  | locateName =>
      rename_i referent _
      exact ⟨rfl, by cases referent <;> rfl⟩
  | locateMember _ ih =>
      rcases ih with ⟨rfl, rfl⟩
      refine ⟨rfl, ?_⟩
      rw [Expr.events_location_member]
  | locateIndex _ _ ihInner ihIndex =>
      rcases ihInner with ⟨rfl, rfl⟩
      cases ihIndex
      refine ⟨rfl, ?_⟩
      rw [Expr.events_location_index]
  | locateOther hname haccess _ ih =>
      cases ih
      exact ⟨(Expr.baseVariable?_eq_none hname haccess).symm,
        (Expr.events_location_eq_value hname haccess).symm⟩

theorem walks_visitAll {config : Config} {ps : List Piece}
    (h : forall p, p ∈ ps -> Walks config (.visit p) (p.events config)) :
    Walks config (.visitAll ps) (ps.flatMap (Piece.events config)) := by
  induction ps with
  | nil => exact Walks.nil
  | cons p ps ih =>
      rw [List.forall_mem_cons] at h
      exact Walks.cons h.1 (ih h.2)

theorem walks_storeAll {config : Config} {targets : List Expr}
    (h : forall e, e ∈ targets -> Walks config (.store e) (e.events config .target)) :
    Walks config (.storeAll targets) (targets.flatMap (Expr.events config .target)) := by
  induction targets with
  | nil => exact Walks.storeNil
  | cons e targets ih =>
      rw [List.forall_mem_cons] at h
      exact Walks.storeCons h.1 (ih h.2)

namespace Piece

structure Walked (config : Config) (p : Piece) : Prop where
  visit : Walks config (.visit p) (p.events config)
  locate : forall e, p = .expr e ->
    Walks config (.locate e e.baseVariable?) (e.events config .location)
  store : forall e, p = .expr e -> Walks config (.store e) (e.events config .target)

theorem walks_visit {config : Config} {p : Piece}
    (h : forall c, c ∈ p.children -> Walked config c) :
    Walks config (.visit p) (p.events config) := by
  by_cases hdefault : p.hook ≠ .identifier ∧ p.hook ≠ .call ∧ p.hook ≠ .assignment
  · rcases hdefault with ⟨hname, hcall, hassign⟩
    rw [events_eq_flatMap_children config hname hcall hassign]
    exact Walks.other hname hcall hassign (walks_visitAll fun c hc => (h c hc).visit)
  · cases p with
    | function id decl => simp [hook] at hdefault
    | stmt s => simp [hook] at hdefault
    | expr e =>
        cases e with
        | name ident referent note =>
            cases referent with
            | stateVariable v => exact Walks.readVariable
            | _ => exact Walks.otherName rfl
        | call callee arguments note =>
            have hcallee := (h _ List.mem_cons_self).visit
            have harguments : Walks config
                (.visitAll (if config.trackCallArguments then arguments.map .expr else []))
                ((if config.trackCallArguments then arguments.map .expr else []).flatMap
                  (events config)) := by
              refine walks_visitAll ?_
              intro c hc
              split at hc
              · exact (h c (List.mem_cons_of_mem _ hc)).visit
              · cases hc
            rw [events_call]
            cases htype : callee.type.declaredFunction? with
            | none =>
                have hother : forall parameters returns f,
                    callee.type ≠ .function parameters returns (some (.function f)) := by
                  intro parameters returns f heq
                  rw [heq] at htype
                  cases htype
                rw [callEvents_eq_nil hother, List.append_nil]
                exact Walks.callOther hother hcallee harguments
            | some f =>
                rcases declaredFunction?_eq_some_iff.mp htype with ⟨parameters, returns, heq⟩
                rw [callEvents_eq heq]
                exact Walks.callFunction heq hcallee harguments
        | assign target op value note =>
            have htarget := (h _ List.mem_cons_self).store target rfl
            have hvalue := (h (.expr value) (List.mem_cons_of_mem _ List.mem_cons_self)).visit
            by_cases htracked : target.ident? = none -> config.trackNestedWrites = true
            · rw [events_assign htracked]
              exact Walks.assign htracked hvalue htarget
            · rw [Classical.not_imp, Bool.not_eq_true] at htracked
              rw [events_assign_untracked htracked.1 htracked.2]
              exact Walks.assignUntracked htracked.1 htracked.2 hvalue
        | _ => simp [hook] at hdefault

theorem walks_locate {config : Config} {e : Expr}
    (hvisit : Walks config (.visit (.expr e)) (e.events config .value))
    (h : forall c, c ∈ (Piece.expr e).children -> Walked config c) :
    Walks config (.locate e e.baseVariable?) (e.events config .location) := by
  cases e with
  | name ident referent note =>
      have hevents : referent.events .location = [] := by
        cases referent <;> rfl
      rw [Expr.events, hevents]
      exact Walks.locateName
  | member base field note =>
      have hbase := (h _ List.mem_cons_self).locate base rfl
      rw [Expr.events_location_member]
      exact Walks.locateMember hbase
  | index base i note =>
      have hbase := (h _ List.mem_cons_self).locate base rfl
      have hindex : Walks config (.visitAll (i.toList.map .expr))
          ((i.toList.map .expr).flatMap (events config)) :=
        walks_visitAll fun c hc => (h c (List.mem_cons_of_mem _ hc)).visit
      rw [Expr.events_location_index]
      exact Walks.locateIndex hbase hindex
  | _ => exact Walks.locateOther rfl rfl hvisit

theorem walks_store {config : Config} {e : Expr}
    (hvisit : Walks config (.visit (.expr e)) (e.events config .value))
    (hlocate : Walks config (.locate e e.baseVariable?) (e.events config .location))
    (h : forall c, c ∈ (Piece.expr e).children -> Walked config c) :
    Walks config (.store e) (e.events config .target) := by
  by_cases haccess : e.isAccess = true
  · rw [Expr.events_target_of_isAccess haccess]
    exact Walks.storeAccess haccess hlocate
  · cases e with
    | name ident referent note =>
        cases referent with
        | stateVariable v => exact Walks.storeVariable
        | _ => exact Walks.storeOtherName rfl
    | member base field note => exact absurd rfl haccess
    | index base i note => exact absurd rfl haccess
    | tuple components note =>
        rw [Expr.events, Expr.eventsOfSlots_eq_flatMap]
        refine Walks.storeTuple (walks_storeAll ?_)
        intro c hc
        exact (h (.expr c) (List.mem_map_of_mem hc)).store c rfl
    | _ => exact Walks.storeOther rfl rfl rfl hvisit

theorem walked (config : Config) (p : Piece) : Walked config p := by
  induction p using of_children with
  | hstep p ih =>
      have hvisit := walks_visit ih
      refine ⟨hvisit, ?_, ?_⟩
      · intro e he
        subst he
        exact walks_locate hvisit ih
      · intro e he
        subst he
        exact walks_store hvisit (walks_locate hvisit ih) ih

end Piece

/-- Each row of code has the events that the recursion computes, and no others. -/
theorem walks_visitAll_iff {config : Config} {ps : List Piece} {es : List Event} :
    Walks config (.visitAll ps) es <-> es = ps.flatMap (Piece.events config) := by
  constructor
  · intro h
    exact h.yields
  · intro h
    rw [h]
    exact walks_visitAll fun p _ => (Piece.walked config p).visit

end CallForest
