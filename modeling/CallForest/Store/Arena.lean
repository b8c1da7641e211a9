import CallForest.Store.Fault

/-!
# Arenas

An arena is an array that grows at its end, so that the position of an entry never changes. An
attempt to replace an entry that does not exist poisons the arena: from then on every operation
fails. A failed lookup does no harm.
-/

namespace CallForest

structure Arena (alpha : Type) where
  entries : Array alpha := #[]
  poisoned : Bool := false

namespace Arena

variable {alpha : Type}

def size (a : Arena alpha) : Nat :=
  a.entries.size

def get (a : Arena alpha) (index : Nat) : Except Fault alpha :=
  if a.poisoned then .error .poisoned
  else
    match a.entries[index]? with
    | some entry => .ok entry
    | none => .error (.outOfRange a.size index)

def insert (a : Arena alpha) (entry : alpha) : Except Fault Nat × Arena alpha :=
  if a.poisoned then (.error .poisoned, a)
  else (.ok a.size, { a with entries := a.entries.push entry })

def replace (a : Arena alpha) (index : Nat) (entry : alpha) : Except Fault Unit × Arena alpha :=
  if a.poisoned then (.error .poisoned, a)
  else if index < a.size then (.ok (), { a with entries := a.entries.setIfInBounds index entry })
  else (.error (.outOfRange a.size index), { a with poisoned := true })

/-!
# Lookups
-/

theorem get_eq_ok_iff {a : Arena alpha} {index : Nat} {entry : alpha} :
    a.get index = .ok entry <-> a.poisoned = false ∧ a.entries[index]? = some entry := by
  unfold get
  cases hp : a.poisoned with
  | true => simp
  | false =>
      cases he : a.entries[index]? with
      | none => simp
      | some e => simp

theorem lt_size_of_get_eq_ok {a : Arena alpha} {index : Nat} {entry : alpha}
    (h : a.get index = .ok entry) : index < a.size :=
  (Array.getElem?_eq_some_iff.mp (get_eq_ok_iff.mp h).2).1

end Arena
end CallForest
