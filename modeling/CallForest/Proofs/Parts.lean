import CallForest.Proofs.CodeWalk

/-!
# Parts of an expression

In each role an expression goes through parts of its own in some roles, and it may add an event at
the end. Call arguments and nested targets of assignments are parts if the configuration tracks them.
All parts are children, and with everything tracked all children are parts.
-/

namespace CallForest

inductive Piece.Contains : Piece -> Expr -> Prop where
  | self {e : Expr} :
      Contains (.expr e) e
  | child {p c : Piece} {e : Expr} :
      c ∈ p.children -> Contains c e -> Contains p e

structure Config.TrackedBy (config config' : Config) : Prop where
  arguments : config.trackCallArguments = true -> config'.trackCallArguments = true
  nestedWrites : config.trackNestedWrites = true -> config'.trackNestedWrites = true

def Config.trackingAll (config : Config) : Config :=
  { config with trackNestedWrites := true, trackCallArguments := true }

theorem Config.trackedBy_trackingAll (config : Config) : config.TrackedBy config.trackingAll :=
  ⟨fun _ => rfl, fun _ => rfl⟩

theorem ite_nil_sublist {alpha : Type} {b b' : Bool} (h : b = true -> b' = true)
    (xs : List alpha) : (if b then xs else []).Sublist (if b' then xs else []) := by
  cases b with
  | false => exact List.nil_sublist _
  | true =>
      cases h rfl
      exact List.Sublist.refl _

namespace Expr

/-!
# Parts and what is added to them
-/

def baseRole : Role -> Role
  | .value => .value
  | .target => .location
  | .location => .location

def componentRole : Role -> Role
  | .value => .value
  | .target => .target
  | .location => .value

/-- What an expression goes through, with the roles that it has there. -/
def parts (config : Config) (role : Role) : Expr -> List (Role × Expr)
  | .literal _ _ => []
  | .name _ _ _ => []
  | .call callee arguments _ =>
      (.value, callee) :: (if config.trackCallArguments then arguments else []).map (.value, ·)
  | .assign target _ value _ =>
      (.value, value) ::
        if target.ident?.isSome || config.trackNestedWrites then [(.target, target)] else []
  | .member base _ _ => [(baseRole role, base)]
  | .index base i _ => (baseRole role, base) :: i.toList.map (.value, ·)
  | .binary _ left right _ => [(.value, left), (.value, right)]
  | .unary _ operand _ => [(.value, operand)]
  | .conditional condition thenValue elseValue _ =>
      [(.value, condition), (.value, thenValue), (.value, elseValue)]
  | .tuple components _ => (components.filterMap id).map (componentRole role, ·)

def ownEvents (role : Role) : Expr -> List Event
  | .name _ referent _ => referent.events role
  | .call callee _ _ => callee.callEvents
  | .member base _ _ => base.writeOfBase role
  | .index base _ _ => base.writeOfBase role
  | _ => []

theorem writeOfBase_value (e : Expr) : e.writeOfBase .value = [] :=
  rfl

theorem events_eq_parts (config : Config) (role : Role) (e : Expr) :
    e.events config role =
      (e.parts config role).flatMap (fun part => part.2.events config part.1) ++
        e.ownEvents role := by
  cases e with
  | literal value note => rfl
  | name ident referent note => rfl
  | call callee arguments note =>
      rw [events, parts, ownEvents, List.flatMap_cons, List.flatMap_map]
      split
      · rw [eventsOfList_eq_flatMap]
      · rfl
  | assign target op value note =>
      show _ = List.flatMap _ _ ++ []
      rw [events, parts, List.flatMap_cons, List.append_nil]
      split
      · rw [List.flatMap_singleton]
      · rfl
  | member base field note =>
      cases role <;> simp [events, parts, ownEvents, baseRole, writeOfBase_value]
  | index base i note =>
      cases role <;>
        simp [events, parts, ownEvents, baseRole, writeOfBase_value, eventsOfOption_eq_flatMap,
          List.flatMap_map]
  | binary op left right note => simp [events, parts, ownEvents]
  | unary op operand note => simp [events, parts, ownEvents]
  | conditional condition thenValue elseValue note => simp [events, parts, ownEvents]
  | tuple components note =>
      cases role <;>
        simp [events, parts, ownEvents, componentRole, eventsOfSlots_eq_flatMap, List.flatMap_map]

theorem map_snd_map (role : Role) (es : List Expr) :
    (es.map fun e => (role, e)).map Prod.snd = es := by
  rw [List.map_map]
  exact List.map_id es

theorem map_snd_parts_perm {config : Config} (hwrites : config.trackNestedWrites = true)
    (harguments : config.trackCallArguments = true) (role : Role) (e : Expr) :
    ((e.parts config role).map Prod.snd).Perm e.children := by
  cases e with
  | assign target op value note =>
      rw [parts, if_pos (by rw [hwrites, Bool.or_true])]
      exact List.Perm.swap target value []
  | call callee arguments note =>
      rw [parts, if_pos harguments, List.map_cons, map_snd_map]
      exact List.Perm.refl _
  | index base i note =>
      rw [parts, List.map_cons, map_snd_map]
      exact List.Perm.refl _
  | tuple components note =>
      rw [parts, map_snd_map]
      exact List.Perm.refl _
  | _ => exact List.Perm.refl _

theorem mem_children_iff {config : Config} (hwrites : config.trackNestedWrites = true)
    (harguments : config.trackCallArguments = true) (role : Role) {e c : Expr} :
    c ∈ e.children <-> exists inner, (inner, c) ∈ e.parts config role := by
  rw [← (map_snd_parts_perm hwrites harguments role e).mem_iff, List.mem_map]
  constructor
  · intro h
    rcases h with ⟨part, hpart, rfl⟩
    exact ⟨part.1, hpart⟩
  · intro h
    rcases h with ⟨inner, hpart⟩
    exact ⟨(inner, c), hpart, rfl⟩

theorem parts_sublist {config config' : Config} (h : config.TrackedBy config') (role : Role)
    (e : Expr) : (e.parts config role).Sublist (e.parts config' role) := by
  cases e with
  | call callee arguments note =>
      have harguments := ite_nil_sublist h.arguments arguments
      exact (harguments.map (Role.value, ·)).cons_cons (Role.value, callee)
  | assign target op value note =>
      have htarget : (target.ident?.isSome || config.trackNestedWrites) = true ->
          (target.ident?.isSome || config'.trackNestedWrites) = true := by
        rw [Bool.or_eq_true, Bool.or_eq_true]
        exact Or.imp_right h.nestedWrites
      exact (ite_nil_sublist htarget [(Role.target, target)]).cons_cons (Role.value, value)
  | _ => exact List.Sublist.refl _

theorem mem_children_of_mem_parts {config : Config} {role inner : Role} {e c : Expr}
    (h : (inner, c) ∈ e.parts config role) : c ∈ e.children := by
  have hall := (parts_sublist config.trackedBy_trackingAll role e).subset h
  exact (mem_children_iff rfl rfl role).mpr ⟨inner, hall⟩

theorem events_subset_of_mem_parts {config : Config} {role inner : Role} {e c : Expr}
    (h : (inner, c) ∈ e.parts config role) : c.events config inner ⊆ e.events config role := by
  intro event hevent
  rw [events_eq_parts, List.mem_append]
  exact Or.inl (List.mem_flatMap.mpr ⟨(inner, c), h, hevent⟩)

end Expr

theorem Piece.isExpr_or_events_eq_flatMap (p : Piece) :
    (exists e, p = .expr e) ∨
      forall config, p.events config = p.children.flatMap (Piece.events config) := by
  cases p with
  | expr e => exact Or.inl ⟨e, rfl⟩
  | stmt s => exact Or.inr fun config => events_eq_flatMap_children config nofun nofun nofun
  | function id decl =>
      exact Or.inr fun config => events_eq_flatMap_children config nofun nofun nofun

end CallForest
