import CallForest.Store.Basic
import Mathlib.Data.List.Induction

/-!
# The history of a store

What a store replies to an operation can be told from the operations before it, without looking at
the store: the declarations of a kind are numbered as they are inserted, a number stands for the
declaration that was put there last, and a replacement at a number that is not taken makes all later
operations on this kind fail. Operations on other kinds do not matter, and neither do lookups. This
module says so for every sequence of operations on a store that is empty at first.
-/

namespace CallForest

/-!
# Operations and replies
-/

inductive Operation (kind : DeclKind) where
  | insert (decl : Decl kind)
  | get (id : DeclId kind)
  | replace (id : DeclId kind) (decl : Decl kind)

inductive Reply (kind : DeclKind) where
  | inserted (reference : Reference kind)
  | found (decl : Decl kind)
  | replaced

abbrev Request :=
  (kind : DeclKind) × Operation kind

abbrev Outcome :=
  (kind : DeclKind) × Except Fault (Reply kind)

namespace Store

variable {kind : DeclKind}

def perform (s : Store) : Operation kind -> Except Fault (Reply kind) × Store
  | .insert decl => ((s.insert decl).1.map .inserted, (s.insert decl).2)
  | .get id => ((s.get id).map .found, s)
  | .replace id decl => ((s.replace id decl).1.map fun _ => .replaced, (s.replace id decl).2)

def after (s : Store) : List Request -> Store
  | [] => s
  | request :: requests => (s.perform request.2).2.after requests

def outcomes (s : Store) : List Request -> List Outcome
  | [] => []
  | request :: requests =>
      ⟨request.1, (s.perform request.2).1⟩ :: (s.perform request.2).2.outcomes requests

@[simp] theorem length_outcomes (s : Store) (requests : List Request) :
    (s.outcomes requests).length = requests.length := by
  induction requests generalizing s with
  | nil => rfl
  | cons request requests ih => exact congrArg (· + 1) (ih (s.perform request.2).2)

theorem after_append (s : Store) (first last : List Request) :
    s.after (first ++ last) = (s.after first).after last := by
  induction first generalizing s with
  | nil => rfl
  | cons request first ih => exact ih (s.perform request.2).2

theorem outcomes_append (s : Store) (first last : List Request) :
    s.outcomes (first ++ last) = s.outcomes first ++ (s.after first).outcomes last := by
  induction first generalizing s with
  | nil => rfl
  | cons request first ih =>
      show _ :: (s.perform request.2).2.outcomes (first ++ last) = _
      rw [ih]
      rfl

end Store

/-!
# What a history tells

All that a kind of declarations has to do with a history are the operations on this kind.
-/

def Request.ofKind? (kind : DeclKind) : Request -> Option (Operation kind)
  | ⟨other, op⟩ => if h : other = kind then some (h ▸ op) else none

def operationsOn (kind : DeclKind) (requests : List Request) : List (Operation kind) :=
  requests.filterMap (Request.ofKind? kind)

section

variable {kind : DeclKind}

def Operation.inserted? : Operation kind -> Option (Decl kind)
  | .insert decl => some decl
  | _ => none

def insertions (ops : List (Operation kind)) : Nat :=
  (ops.filterMap Operation.inserted?).length

/-- An operation puts a declaration at a number, where some insertions were made before. -/
inductive Operation.Puts (before : Nat) :
    Operation kind -> DeclId kind -> Decl kind -> Prop where
  | insert (decl : Decl kind) :
      Puts before (.insert decl) ⟨before⟩ decl
  | replace {id : DeclId kind} (decl : Decl kind) :
      id.index < before -> Puts before (.replace id decl) id decl

def IsLatest (ops : List (Operation kind)) (id : DeclId kind) (decl : Decl kind) : Prop :=
  exists before op later, ops = before ++ op :: later ∧ op.Puts (insertions before) id decl ∧
    forall new, Operation.replace id new ∉ later

def IsPoisoned (ops : List (Operation kind)) : Prop :=
  exists before op later, ops = before ++ op :: later ∧
    exists id decl, op = .replace id decl ∧ insertions before ≤ id.index

/-- How an operation ends after some earlier operations on the same kind. -/
inductive EndsAfter (earlier : List (Operation kind)) :
    Operation kind -> Except Fault (Reply kind) -> Prop where
  | poisoned (op : Operation kind) :
      IsPoisoned earlier -> EndsAfter earlier op (.error .poisoned)
  | insert (decl : Decl kind) :
      ¬ IsPoisoned earlier ->
      EndsAfter earlier (.insert decl)
        (.ok (.inserted ⟨decl.name, ⟨insertions earlier⟩, decl.span⟩))
  | found {id : DeclId kind} {decl : Decl kind} :
      ¬ IsPoisoned earlier -> IsLatest earlier id decl ->
      EndsAfter earlier (.get id) (.ok (.found decl))
  | notFound {id : DeclId kind} :
      ¬ IsPoisoned earlier -> insertions earlier ≤ id.index ->
      EndsAfter earlier (.get id) (.error (.outOfRange (insertions earlier) id.index))
  | replaced {id : DeclId kind} (decl : Decl kind) :
      ¬ IsPoisoned earlier -> id.index < insertions earlier ->
      EndsAfter earlier (.replace id decl) (.ok .replaced)
  | notReplaced {id : DeclId kind} (decl : Decl kind) :
      ¬ IsPoisoned earlier -> insertions earlier ≤ id.index ->
      EndsAfter earlier (.replace id decl)
        (.error (.outOfRange (insertions earlier) id.index))

end

def outcomeAfter {kind : DeclKind} (requests : List Request) (op : Operation kind) :
    Except Fault (Reply kind) :=
  ((({} : Store).after requests).perform op).1

/-- In the course of some requests, a store that is empty at first acts as one growing array for
each kind. What is handed out for a request depends on the requests before it. -/
structure ActsAsArrays (requests : List Request) : Prop where
  outcome_iff : forall kind (op : Operation kind) outcome,
    outcomeAfter requests op = outcome <-> EndsAfter (operationsOn kind requests) op outcome
  other_kinds : forall kind requests' (op : Operation kind),
    operationsOn kind requests' = operationsOn kind requests ->
    outcomeAfter requests' op = outcomeAfter requests op
  lookup : forall earlier other (id : DeclId other) later,
    requests = earlier ++ ⟨other, .get id⟩ :: later ->
    forall kind (op : Operation kind),
      outcomeAfter requests op = outcomeAfter (earlier ++ later) op
  replacement : forall kind (id : DeclId kind) (decl : Decl kind),
    outcomeAfter requests (.replace id decl) = .ok .replaced ->
    forall place : DeclId kind,
      outcomeAfter (requests ++ [⟨kind, .replace id decl⟩]) (.get place) =
        if place = id then .ok (.found decl) else outcomeAfter requests (.get place)
  poisoning : forall earlier kind (id : DeclId kind) (decl : Decl kind) later,
    requests = earlier ++ ⟨kind, .replace id decl⟩ :: later ->
    insertions (operationsOn kind earlier) ≤ id.index ->
    forall op : Operation kind, outcomeAfter requests op = .error .poisoned
  handed_out : forall earlier request later, requests = earlier ++ request :: later ->
    (({} : Store).outcomes requests)[earlier.length]? =
      some ⟨request.1, outcomeAfter earlier request.2⟩

/-!
# One kind at a time
-/

section

variable {kind : DeclKind}

def Operation.reply (a : Arena (Decl kind)) : Operation kind -> Except Fault (Reply kind)
  | .insert decl => (a.insert decl).1.map fun index => .inserted ⟨decl.name, ⟨index⟩, decl.span⟩
  | .get id => (a.get id.index).map .found
  | .replace id decl => (a.replace id.index decl).1.map fun _ => .replaced

def Operation.change (a : Arena (Decl kind)) : Operation kind -> Arena (Decl kind)
  | .insert decl => (a.insert decl).2
  | .get _ => a
  | .replace id decl => (a.replace id.index decl).2

theorem Store.setArena_arena (s : Store) : s.setArena (s.arena kind) = s := by
  cases kind <;> rfl

theorem Store.perform_eq (s : Store) (op : Operation kind) :
    s.perform op = (op.reply (s.arena kind), s.setArena (op.change (s.arena kind))) := by
  cases op with
  | insert decl =>
      rw [perform, insert, Operation.reply, Operation.change]
      cases (s.arena kind).insert decl with
      | mk outcome a =>
          cases outcome with
          | error fault => rfl
          | ok index => rfl
  | get id =>
      rw [perform, Operation.change, setArena_arena]
      rfl
  | replace id decl => rfl

theorem operationsOn_append (first last : List Request) :
    operationsOn kind (first ++ last) = operationsOn kind first ++ operationsOn kind last :=
  List.filterMap_append

theorem operationsOn_cons (op : Operation kind) (requests : List Request) :
    operationsOn kind (⟨kind, op⟩ :: requests) = op :: operationsOn kind requests := by
  rw [operationsOn, List.filterMap_cons_some (b := op)]
  · rfl
  · exact dif_pos rfl

theorem operationsOn_cons_of_ne {other : DeclKind} (h : other ≠ kind) (op : Operation other)
    (requests : List Request) :
    operationsOn kind (⟨other, op⟩ :: requests) = operationsOn kind requests :=
  List.filterMap_cons_none (dif_neg h)

theorem Store.arena_after (s : Store) (requests : List Request) :
    (s.after requests).arena kind =
      (operationsOn kind requests).foldl Operation.change (s.arena kind) := by
  induction requests generalizing s with
  | nil => rfl
  | cons request requests ih =>
      rcases request with ⟨other, op⟩
      rw [after, ih, perform_eq]
      by_cases h : other = kind
      · subst h
        rw [operationsOn_cons, List.foldl_cons, arena_setArena]
      · rw [operationsOn_cons_of_ne h, arena_setArena_of_ne _ _ (Ne.symm h)]

def arenaAfter (ops : List (Operation kind)) : Arena (Decl kind) :=
  ops.foldl Operation.change {}

theorem arenaAfter_append_singleton (ops : List (Operation kind)) (op : Operation kind) :
    arenaAfter (ops ++ [op]) = op.change (arenaAfter ops) := by
  rw [arenaAfter, List.foldl_append]
  rfl

theorem outcomeAfter_eq (requests : List Request) (op : Operation kind) :
    outcomeAfter requests op = op.reply (arenaAfter (operationsOn kind requests)) := by
  rw [outcomeAfter, Store.perform_eq, Store.arena_after]
  cases kind <;> rfl

/-!
# The last operation of a history
-/

theorem insertions_append_singleton (ops : List (Operation kind)) (op : Operation kind) :
    insertions (ops ++ [op]) = insertions ops + (op.inserted?.toList).length := by
  rw [insertions, List.filterMap_append, List.length_append, insertions]
  cases op <;> rfl

theorem exists_append_singleton_iff {alpha : Type} {xs : List alpha} {x : alpha}
    {P : List alpha -> alpha -> List alpha -> Prop} :
    (exists before y later, xs ++ [x] = before ++ y :: later ∧ P before y later) <->
      P xs x [] ∨ exists before y later, xs = before ++ y :: later ∧ P before y (later ++ [x]) := by
  constructor
  · intro h
    rcases h with ⟨before, y, later, heq, hP⟩
    rcases List.eq_nil_or_concat later with rfl | ⟨later, last, rfl⟩
    · rcases List.append_inj' heq rfl with ⟨rfl, hlast⟩
      cases hlast
      exact Or.inl hP
    · rw [List.concat_eq_append, ← List.cons_append, ← List.append_assoc] at heq
      rcases List.append_inj' heq rfl with ⟨rfl, hlast⟩
      cases hlast
      rw [List.concat_eq_append] at hP
      exact Or.inr ⟨before, y, later, rfl, hP⟩
  · intro h
    rcases h with hP | ⟨before, y, later, rfl, hP⟩
    · exact ⟨xs, x, [], rfl, hP⟩
    · exact ⟨before, y, later ++ [x], by rw [List.append_assoc, List.cons_append], hP⟩

theorem isPoisoned_append_singleton_iff {ops : List (Operation kind)} {op : Operation kind} :
    IsPoisoned (ops ++ [op]) <->
      (exists id decl, op = .replace id decl ∧ insertions ops ≤ id.index) ∨ IsPoisoned ops :=
  exists_append_singleton_iff

theorem isLatest_append_singleton_iff {ops : List (Operation kind)} {op : Operation kind}
    {id : DeclId kind} {decl : Decl kind} :
    IsLatest (ops ++ [op]) id decl <->
      op.Puts (insertions ops) id decl ∨
        (IsLatest ops id decl ∧ forall new, op ≠ .replace id new) := by
  rw [IsLatest, exists_append_singleton_iff]
  constructor
  · intro h
    rcases h with ⟨hputs, _⟩ | ⟨before, earlier, later, heq, hputs, hlater⟩
    · exact Or.inl hputs
    · refine Or.inr ⟨⟨before, earlier, later, heq, hputs, ?_⟩, ?_⟩
      · exact fun new hnew => hlater new (List.mem_append_left _ hnew)
      · rintro new rfl
        exact hlater new (List.mem_append_right _ List.mem_cons_self)
  · intro h
    rcases h with hputs | ⟨⟨before, earlier, later, heq, hputs, hlater⟩, hop⟩
    · exact Or.inl ⟨hputs, fun _ => List.not_mem_nil⟩
    · refine Or.inr ⟨before, earlier, later, heq, hputs, ?_⟩
      intro new hnew
      rcases List.mem_append.mp hnew with hnew | hnew
      · exact hlater new hnew
      · exact hop new (List.mem_singleton.mp hnew).symm

/-!
# Arenas and histories
-/

theorem DeclId.index_inj {id id' : DeclId kind} : id.index = id'.index <-> id = id' := by
  cases id
  cases id'
  rw [DeclId.mk.injEq]

theorem Operation.puts_insert_iff {before : Nat} {id : DeclId kind} {new decl : Decl kind} :
    (Operation.insert new).Puts before id decl <-> id.index = before ∧ new = decl := by
  constructor
  · intro h
    cases h
    exact ⟨rfl, rfl⟩
  · rintro ⟨rfl, rfl⟩
    exact .insert new

theorem Operation.not_puts_get {before : Nat} {id place : DeclId kind} {decl : Decl kind} :
    ¬ (Operation.get place).Puts before id decl := by
  intro h
  cases h

theorem Operation.puts_replace_iff {before : Nat} {id place : DeclId kind}
    {new decl : Decl kind} :
    (Operation.replace place new).Puts before id decl <->
      place.index < before ∧ place = id ∧ new = decl := by
  constructor
  · intro h
    cases h with
    | replace _ hlt => exact ⟨hlt, rfl, rfl⟩
  · rintro ⟨hlt, rfl, rfl⟩
    exact .replace new hlt

/-- An arena holds what a history tells. Once it is poisoned, only this is told. -/
structure Arena.Mirrors (a : Arena (Decl kind)) (ops : List (Operation kind)) : Prop where
  poisoned_iff : a.poisoned = true <-> IsPoisoned ops
  size_eq : ¬ IsPoisoned ops -> a.size = insertions ops
  entry_iff : ¬ IsPoisoned ops -> forall (id : DeclId kind) decl,
    a.entries[id.index]? = some decl <-> IsLatest ops id decl

namespace Arena

variable {a : Arena (Decl kind)} {ops : List (Operation kind)}

theorem mirrors_empty : Arena.Mirrors ({} : Arena (Decl kind)) [] where
  poisoned_iff := by
    constructor
    · intro h
      cases h
    · rintro ⟨before, op, later, heq, _⟩
      cases before <;> cases heq
  size_eq _ := rfl
  entry_iff := by
    intro _ id decl
    constructor
    · intro h
      cases h
    · rintro ⟨before, op, later, heq, _⟩
      cases before <;> cases heq

theorem insert_of_not_poisoned (h : a.poisoned = false) (decl : Decl kind) :
    a.insert decl = (.ok a.size, { a with entries := a.entries.push decl }) := by
  rw [insert, h]
  rfl

theorem replace_of_lt (h : a.poisoned = false) {index : Nat} (hlt : index < a.size)
    (decl : Decl kind) :
    a.replace index decl =
      (.ok (), { a with entries := a.entries.setIfInBounds index decl }) := by
  rw [replace, h, if_neg Bool.false_ne_true, if_pos hlt]

theorem replace_of_le (h : a.poisoned = false) {index : Nat} (hle : a.size ≤ index)
    (decl : Decl kind) :
    a.replace index decl =
      (.error (.outOfRange a.size index), { a with poisoned := true }) := by
  rw [replace, h, if_neg Bool.false_ne_true, if_neg (Nat.not_lt_of_le hle)]

theorem change_of_poisoned (h : a.poisoned = true) (op : Operation kind) : op.change a = a := by
  cases op with
  | insert decl =>
      rw [Operation.change, insert, if_pos h]
  | get id => rfl
  | replace id decl =>
      rw [Operation.change, replace, if_pos h]

theorem reply_of_poisoned (h : a.poisoned = true) (op : Operation kind) :
    op.reply a = .error .poisoned := by
  cases op with
  | insert decl =>
      rw [Operation.reply, insert, if_pos h]
      rfl
  | get id =>
      rw [Operation.reply, get, if_pos h]
      rfl
  | replace id decl =>
      rw [Operation.reply, replace, if_pos h]
      rfl

theorem Mirrors.poisoned_eq_false (h : a.Mirrors ops) (hops : ¬ IsPoisoned ops) :
    a.poisoned = false := by
  rw [← h.poisoned_iff, Bool.not_eq_true] at hops
  exact hops

theorem Mirrors.lt_insertions (h : a.Mirrors ops) (hops : ¬ IsPoisoned ops) {id : DeclId kind}
    {decl : Decl kind} (hlatest : IsLatest ops id decl) : id.index < insertions ops := by
  have hentry := (h.entry_iff hops id decl).mpr hlatest
  rw [← h.size_eq hops]
  exact (Array.getElem?_eq_some_iff.mp hentry).1

theorem Mirrors.of_unpoisoned {op : Operation kind} (hops : ¬ IsPoisoned ops)
    (hop : forall id decl, op = .replace id decl -> id.index < insertions ops)
    (hpoisoned : a.poisoned = false) (hsize : a.size = insertions (ops ++ [op]))
    (hentry : forall (id : DeclId kind) decl,
      a.entries[id.index]? = some decl <-> IsLatest (ops ++ [op]) id decl) :
    a.Mirrors (ops ++ [op]) where
  poisoned_iff := by
    rw [hpoisoned, isPoisoned_append_singleton_iff]
    apply iff_of_false Bool.false_ne_true
    rintro (⟨id, decl, heq, hle⟩ | hearlier)
    · exact Nat.not_lt_of_le hle (hop id decl heq)
    · exact hops hearlier
  size_eq _ := hsize
  entry_iff _ := hentry

theorem Mirrors.insert (h : a.Mirrors ops) (hops : ¬ IsPoisoned ops) (new : Decl kind) :
    Mirrors { a with entries := a.entries.push new } (ops ++ [.insert new]) := by
  have hsize : a.entries.size = insertions ops := h.size_eq hops
  apply Mirrors.of_unpoisoned hops
  · rintro id decl heq
    cases heq
  · exact h.poisoned_eq_false hops
  · rw [insertions_append_singleton, ← hsize]
    exact Array.size_push new
  · intro id decl
    rw [isLatest_append_singleton_iff, Operation.puts_insert_iff, Array.getElem?_push, hsize]
    split
    · next hid =>
        constructor
        · intro heq
          exact Or.inl ⟨hid, Option.some.inj heq⟩
        · rintro (⟨_, rfl⟩ | ⟨hlatest, _⟩)
          · rfl
          · exact absurd (h.lt_insertions hops hlatest) (Nat.not_lt_of_le (Nat.le_of_eq hid.symm))
    · next hid =>
        rw [h.entry_iff hops]
        constructor
        · intro hlatest
          refine Or.inr ⟨hlatest, ?_⟩
          intro _ heq
          cases heq
        · rintro (⟨heq, _⟩ | ⟨hlatest, _⟩)
          · exact absurd heq hid
          · exact hlatest

theorem Mirrors.get (h : a.Mirrors ops) (hops : ¬ IsPoisoned ops) (place : DeclId kind) :
    a.Mirrors (ops ++ [.get place]) := by
  apply Mirrors.of_unpoisoned hops
  · rintro id decl heq
    cases heq
  · exact h.poisoned_eq_false hops
  · rw [insertions_append_singleton]
    exact h.size_eq hops
  · intro id decl
    rw [isLatest_append_singleton_iff, h.entry_iff hops]
    constructor
    · intro hlatest
      refine Or.inr ⟨hlatest, ?_⟩
      intro _ heq
      cases heq
    · rintro (hputs | ⟨hlatest, _⟩)
      · exact absurd hputs Operation.not_puts_get
      · exact hlatest

theorem Mirrors.replace_of_lt (h : a.Mirrors ops) (hops : ¬ IsPoisoned ops)
    {place : DeclId kind} (hlt : place.index < insertions ops) (new : Decl kind) :
    Mirrors { a with entries := a.entries.setIfInBounds place.index new }
      (ops ++ [.replace place new]) := by
  have hsize : a.entries.size = insertions ops := h.size_eq hops
  apply Mirrors.of_unpoisoned hops
  · rintro id decl heq
    cases heq
    exact hlt
  · exact h.poisoned_eq_false hops
  · rw [insertions_append_singleton, ← hsize]
    exact Array.size_setIfInBounds
  · intro id decl
    rw [isLatest_append_singleton_iff, Operation.puts_replace_iff, Array.getElem?_setIfInBounds]
    split
    · next hid =>
        have heq : place = id := DeclId.index_inj.mp hid
        rw [← hsize] at hlt
        rw [if_pos hlt, ← hsize]
        constructor
        · intro hnew
          exact Or.inl ⟨hlt, heq, Option.some.inj hnew⟩
        · rintro (⟨_, _, rfl⟩ | ⟨_, hother⟩)
          · rfl
          · rw [heq] at hother
            exact absurd rfl (hother new)
    · next hid =>
        rw [h.entry_iff hops]
        constructor
        · intro hlatest
          refine Or.inr ⟨hlatest, ?_⟩
          rintro _ heq
          cases heq
          exact hid rfl
        · rintro (⟨_, heq, _⟩ | ⟨hlatest, _⟩)
          · exact absurd (congrArg DeclId.index heq) hid
          · exact hlatest

theorem Mirrors.change (h : a.Mirrors ops) (op : Operation kind) :
    (op.change a).Mirrors (ops ++ [op]) := by
  have hpoisonedOf : forall b : Arena (Decl kind), b.poisoned = true ->
      IsPoisoned (ops ++ [op]) -> b.Mirrors (ops ++ [op]) := by
    intro b hb hpoisoned
    exact ⟨iff_of_true hb hpoisoned, fun hnot => absurd hpoisoned hnot,
      fun hnot => absurd hpoisoned hnot⟩
  by_cases hops : IsPoisoned ops
  · have hpoisoned := h.poisoned_iff.mpr hops
    rw [change_of_poisoned hpoisoned]
    exact hpoisonedOf a hpoisoned (isPoisoned_append_singleton_iff.mpr (Or.inr hops))
  · have hnot := h.poisoned_eq_false hops
    have hsize := h.size_eq hops
    cases op with
    | insert decl =>
        rw [Operation.change, insert_of_not_poisoned hnot]
        exact h.insert hops decl
    | get id => exact h.get hops id
    | replace id decl =>
        rcases Nat.lt_or_ge id.index (insertions ops) with hlt | hle
        · rw [Operation.change, Arena.replace_of_lt hnot (by omega)]
          exact h.replace_of_lt hops hlt decl
        · rw [Operation.change, replace_of_le hnot (by omega)]
          exact hpoisonedOf _ rfl
            (isPoisoned_append_singleton_iff.mpr (Or.inl ⟨id, decl, rfl, hle⟩))

theorem mirrors_arenaAfter (ops : List (Operation kind)) : (arenaAfter ops).Mirrors ops := by
  induction ops using List.reverseRecOn with
  | nil => exact mirrors_empty
  | append_singleton ops op ih =>
      rw [arenaAfter_append_singleton]
      exact ih.change op

/-!
# Outcomes and histories
-/

theorem Mirrors.endsAfter_reply (h : a.Mirrors ops) (op : Operation kind) :
    EndsAfter ops op (op.reply a) := by
  by_cases hops : IsPoisoned ops
  · rw [reply_of_poisoned (h.poisoned_iff.mpr hops)]
    exact .poisoned op hops
  · have hnot := h.poisoned_eq_false hops
    have hsize := h.size_eq hops
    cases op with
    | insert decl =>
        rw [Operation.reply, insert_of_not_poisoned hnot, hsize]
        exact .insert decl hops
    | get id =>
        rw [Operation.reply, Arena.get, if_neg (by rw [hnot]; exact Bool.false_ne_true)]
        cases hentry : a.entries[id.index]? with
        | some decl => exact .found hops ((h.entry_iff hops id decl).mp hentry)
        | none =>
            rw [hsize]
            refine .notFound hops ?_
            rw [← hsize]
            exact Array.getElem?_eq_none_iff.mp hentry
    | replace id decl =>
        rcases Nat.lt_or_ge id.index (insertions ops) with hlt | hle
        · rw [Operation.reply, Arena.replace_of_lt hnot (by omega)]
          exact .replaced decl hops hlt
        · rw [Operation.reply, replace_of_le hnot (by omega), hsize]
          exact .notReplaced decl hops hle

theorem Mirrors.reply_eq_of_endsAfter (h : a.Mirrors ops) {op : Operation kind}
    {outcome : Except Fault (Reply kind)} (hends : EndsAfter ops op outcome) :
    op.reply a = outcome := by
  cases hends with
  | poisoned _ hops => exact reply_of_poisoned (h.poisoned_iff.mpr hops) op
  | insert decl hops =>
      rw [Operation.reply, insert_of_not_poisoned (h.poisoned_eq_false hops), h.size_eq hops]
      rfl
  | found hops hlatest =>
      have hentry := (h.entry_iff hops _ _).mpr hlatest
      rw [Operation.reply, get_eq_ok_iff.mpr ⟨h.poisoned_eq_false hops, hentry⟩]
      rfl
  | notFound hops hle =>
      rename_i id
      have hentry : a.entries[id.index]? = none := by
        rw [Array.getElem?_eq_none_iff]
        exact Nat.le_trans (Nat.le_of_eq (h.size_eq hops)) hle
      rw [Operation.reply, Arena.get, h.poisoned_eq_false hops, hentry, h.size_eq hops]
      rfl
  | replaced decl hops hlt =>
      rw [← h.size_eq hops] at hlt
      rw [Operation.reply, Arena.replace_of_lt (h.poisoned_eq_false hops) hlt]
      rfl
  | notReplaced decl hops hle =>
      rw [← h.size_eq hops] at hle
      rw [Operation.reply, replace_of_le (h.poisoned_eq_false hops) hle, h.size_eq hops]
      rfl

theorem Mirrors.reply_eq_iff (h : a.Mirrors ops) {op : Operation kind}
    {outcome : Except Fault (Reply kind)} :
    op.reply a = outcome <-> EndsAfter ops op outcome := by
  constructor
  · rintro rfl
    exact h.endsAfter_reply op
  · exact h.reply_eq_of_endsAfter

end Arena

theorem outcomeAfter_eq_iff {requests : List Request} {op : Operation kind}
    {outcome : Except Fault (Reply kind)} :
    outcomeAfter requests op = outcome <->
      EndsAfter (operationsOn kind requests) op outcome := by
  rw [outcomeAfter_eq]
  exact (Arena.mirrors_arenaAfter _).reply_eq_iff

theorem operationsOn_append_cons (earlier : List Request) (op : Operation kind)
    (later : List Request) :
    operationsOn kind (earlier ++ ⟨kind, op⟩ :: later) =
      operationsOn kind earlier ++ op :: operationsOn kind later := by
  rw [operationsOn_append, operationsOn_cons]

/-- Behind a replacement that found its place, this place holds the new declaration, and lookups at
any other number end as before. -/
theorem outcomeAfter_get_of_replaced {requests : List Request} {id place : DeclId kind}
    {decl : Decl kind} (h : outcomeAfter requests (.replace id decl) = .ok .replaced) :
    outcomeAfter (requests ++ [⟨kind, .replace id decl⟩]) (.get place) =
      if place = id then .ok (.found decl) else outcomeAfter requests (.get place) := by
  have hmirrors := Arena.mirrors_arenaAfter (operationsOn kind requests)
  rw [outcomeAfter_eq_iff] at h
  cases h with
  | replaced _ hops hlt =>
      have hnot := hmirrors.poisoned_eq_false hops
      have hsize := hmirrors.size_eq hops
      rw [← hsize] at hlt
      rw [outcomeAfter_eq, outcomeAfter_eq, operationsOn_append_cons]
      show Operation.reply (arenaAfter (operationsOn kind requests ++ [_])) _ = _
      rw [arenaAfter_append_singleton, Operation.change, Arena.replace_of_lt hnot hlt,
        Operation.reply, Operation.reply, Arena.get, Arena.get, hnot]
      simp only [Bool.false_eq_true, if_false, Arena.size, Array.getElem?_setIfInBounds,
        Array.size_setIfInBounds]
      by_cases hplace : place = id
      · subst hplace
        have hentries : place.index < (arenaAfter (operationsOn kind requests)).entries.size := hlt
        rw [if_pos rfl, if_pos rfl, if_pos hentries]
        rfl
      · have hindex : id.index ≠ place.index := mt DeclId.index_inj.mp (Ne.symm hplace)
        rw [if_neg hindex, if_neg hplace]

end

theorem store_acts_as_arrays (requests : List Request) : ActsAsArrays requests where
  outcome_iff _ _ _ := outcomeAfter_eq_iff
  other_kinds kind requests' op h := by
    rw [outcomeAfter_eq, outcomeAfter_eq, h]
  lookup := by
    rintro earlier other id later rfl kind op
    rw [outcomeAfter, outcomeAfter, Store.after_append, Store.after_append]
    rfl
  replacement _ _ _ h _ := outcomeAfter_get_of_replaced h
  poisoning := by
    rintro earlier kind id decl later rfl hle op
    rw [outcomeAfter_eq_iff, operationsOn_append_cons]
    exact .poisoned op ⟨_, _, _, rfl, id, decl, rfl, hle⟩
  handed_out := by
    rintro earlier request later rfl
    have hlength := Store.length_outcomes {} earlier
    rw [Store.outcomes_append, List.getElem?_append_right (Nat.le_of_eq hlength), hlength,
      Nat.sub_self]
    rfl

end CallForest
