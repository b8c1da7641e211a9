import CallForest.Proofs.TypeEquality
import Mathlib.Data.List.Forall2

/-!
# Equality and hashing of types

Types are equal if nothing is left to tell them apart when the declarations behind callables are
dropped and identifiers are reduced to their texts. What a type feeds to a hash function tells apart
just as much: it is the same for equal types, and it can be read from the front, so it is the same
for no others.
-/

namespace CallForest

namespace Ty

theorem beq_iff {a b : Ty} : (a == b) = true <-> a.erase = b.erase :=
  beq_iff_erase_eq a b

theorem eraseAll_eq_map (ts : List Ty) : eraseAll ts = ts.map erase := by
  induction ts with
  | nil => rfl
  | cons t ts ih => rw [eraseAll, ih, List.map_cons]

theorem eraseAll_eq_of_forall₂ {as bs : List Ty}
    (h : List.Forall₂ (fun a b => (a == b) = true) as bs) : eraseAll as = eraseAll bs := by
  induction h with
  | nil => rfl
  | cons hhead _ ih => rw [eraseAll, eraseAll, beq_iff.mp hhead, ih]

/-!
# What is fed to a hash function
-/

mutual

theorem marks_erase (t : Ty) : (erase t).marks = t.marks := by
  cases t with
  | array element length => cases length <;> simp only [erase, marks, marks_erase element]
  | mapping key value => rw [erase, marks, marks, marks_erase key, marks_erase value]
  | function parameters returns declaration =>
      rw [erase, marks, marks, marksAll_eraseAll parameters, marksAll_eraseAll returns,
        eraseAll_eq_map, eraseAll_eq_map, List.length_map, List.length_map]
  | tuple elements =>
      rw [erase, marks, marks, marksAll_eraseAll elements, eraseAll_eq_map, List.length_map]
  | _ => rfl

theorem marksAll_eraseAll (ts : List Ty) : marksAll (eraseAll ts) = marksAll ts := by
  cases ts with
  | nil => rfl
  | cons t ts => rw [eraseAll, marksAll, marksAll, marks_erase t, marksAll_eraseAll ts]

end

mutual

/-- What a type feeds can be told from what follows it. -/
theorem marks_append_inj (a b : Ty) {xs ys : List Mark} (h : a.marks ++ xs = b.marks ++ ys) :
    erase a = erase b ∧ xs = ys := by
  cases a with
  | bool => cases b <;> simp_all [marks, erase]
  | address payable =>
      cases b with
      | address payable' => cases payable <;> cases payable' <;> simp_all [marks, erase]
      | _ => simp [marks] at h
  | uint bits => cases b <;> simp_all [marks, erase]
  | int bits => cases b <;> simp_all [marks, erase]
  | fixedBytes length => cases b <;> simp_all [marks, erase]
  | bytes => cases b <;> simp_all [marks, erase]
  | string => cases b <;> simp_all [marks, erase]
  | array element length =>
      cases b with
      | array element' length' =>
          simp only [marks, List.cons_append, List.append_assoc, List.cons.injEq, true_and] at h
          rcases marks_append_inj element element' h with ⟨helement, hrest⟩
          cases length <;> cases length' <;> simp_all [erase]
      | _ => simp [marks] at h
  | mapping key value =>
      cases b with
      | mapping key' value' =>
          simp only [marks, List.cons_append, List.append_assoc, List.cons.injEq, true_and] at h
          rcases marks_append_inj key key' h with ⟨hkey, hrest⟩
          rcases marks_append_inj value value' hrest with ⟨hvalue, hrest⟩
          rw [erase, erase, hkey, hvalue]
          exact ⟨rfl, hrest⟩
      | _ => simp [marks] at h
  | struct name => cases b <;> simp_all [marks, erase]
  | enum name => cases b <;> simp_all [marks, erase]
  | contract name => cases b <;> simp_all [marks, erase]
  | function parameters returns declaration =>
      cases b with
      | function parameters' returns' declaration' =>
          simp only [marks, List.cons_append, List.append_assoc, List.cons.injEq, true_and,
            Mark.number.injEq] at h
          rcases marksAll_append_inj parameters parameters' h.1 h.2 with ⟨hparameters, hrest⟩
          simp only [List.cons.injEq, Mark.number.injEq] at hrest
          rcases marksAll_append_inj returns returns' hrest.1 hrest.2 with ⟨hreturns, hrest⟩
          rw [erase, erase, hparameters, hreturns]
          exact ⟨rfl, hrest⟩
      | _ => simp [marks] at h
  | tuple elements =>
      cases b with
      | tuple elements' =>
          simp only [marks, List.cons_append, List.cons.injEq, true_and, Mark.number.injEq] at h
          rcases marksAll_append_inj elements elements' h.1 h.2 with ⟨helements, hrest⟩
          rw [erase, erase, helements]
          exact ⟨rfl, hrest⟩
      | _ => simp [marks] at h
  | magic name => cases b <;> simp_all [marks, erase]

theorem marksAll_append_inj (as bs : List Ty) {xs ys : List Mark} (hlength : as.length = bs.length)
    (h : marksAll as ++ xs = marksAll bs ++ ys) : eraseAll as = eraseAll bs ∧ xs = ys := by
  cases as with
  | nil =>
      cases List.length_eq_zero_iff.mp hlength.symm
      exact ⟨rfl, h⟩
  | cons a as =>
      cases bs with
      | nil => cases hlength
      | cons b bs =>
          rw [marksAll, marksAll, List.append_assoc, List.append_assoc] at h
          rcases marks_append_inj a b h with ⟨hhead, hrest⟩
          rcases marksAll_append_inj as bs (Nat.succ.inj hlength) hrest with ⟨htail, hrest⟩
          rw [eraseAll, eraseAll, hhead, htail]
          exact ⟨rfl, hrest⟩

end

theorem marks_eq_iff {a b : Ty} : a.marks = b.marks <-> (a == b) = true := by
  rw [beq_iff]
  constructor
  · intro h
    exact (marks_append_inj a b (congrArg (· ++ []) h)).1
  · intro h
    rw [← marks_erase a, h, marks_erase b]

instance : EquivBEq Ty where
  rfl := beq_iff.mpr rfl
  symm h := beq_iff.mpr (beq_iff.mp h).symm
  trans h h' := beq_iff.mpr ((beq_iff.mp h).trans (beq_iff.mp h'))

instance : LawfulHashable Ty where
  hash_eq a b h := by
    show hash a.marks = hash b.marks
    rw [marks_eq_iff.mpr h]

end Ty

/-!
# Function types
-/

namespace FunctionType

def erase (f : FunctionType) : FunctionType :=
  ⟨Ty.eraseAll f.parameters, Ty.eraseAll f.returns, none⟩

def marks (f : FunctionType) : List Ty.Mark :=
  .number f.parameters.length :: (Ty.marksAll f.parameters ++
    .number f.returns.length :: Ty.marksAll f.returns)

theorem beq_iff {f g : FunctionType} : (f == g) = true <-> f.erase = g.erase := by
  show (Ty.beqAll _ _ && Ty.beqAll _ _) = true <-> _
  rw [Bool.and_eq_true, Ty.beqAll_iff_eraseAll_eq, Ty.beqAll_iff_eraseAll_eq, erase, erase,
    mk.injEq, and_iff_left rfl]

theorem toTy_beq_iff {f g : FunctionType} : (f.toTy == g.toTy) = true <-> (f == g) = true :=
  Iff.rfl

theorem marks_eq_iff {f g : FunctionType} : f.marks = g.marks <-> (f == g) = true := by
  have hmarks : forall f : FunctionType, f.toTy.marks = .number 12 :: f.marks := fun _ => rfl
  rw [← toTy_beq_iff, ← Ty.marks_eq_iff, hmarks, hmarks, List.cons.injEq, and_iff_right rfl]

instance : EquivBEq FunctionType where
  rfl := beq_iff.mpr rfl
  symm h := beq_iff.mpr (beq_iff.mp h).symm
  trans h h' := beq_iff.mpr ((beq_iff.mp h).trans (beq_iff.mp h'))

instance : LawfulHashable FunctionType where
  hash_eq f g h := by
    have herase := beq_iff.mp h
    rw [erase, erase, mk.injEq] at herase
    have hlength := congrArg List.length herase.1
    rw [Ty.eraseAll_eq_map, Ty.eraseAll_eq_map, List.length_map, List.length_map] at hlength
    show hash (Ty.marksAll f.parameters, f.parameters.length, Ty.marksAll f.returns) =
      hash (Ty.marksAll g.parameters, g.parameters.length, Ty.marksAll g.returns)
    rw [← Ty.marksAll_eraseAll f.parameters, ← Ty.marksAll_eraseAll f.returns, herase.1,
      herase.2.1, hlength, Ty.marksAll_eraseAll, Ty.marksAll_eraseAll]

end FunctionType

/-!
# Equality, hashing and parts
-/

/-- Equality compares what erasing leaves. It is an equivalence, and what is fed to a hash function,
as well as the hash itself, respects it. -/
structure ComparesErased {alpha : Type} [BEq alpha] [Hashable alpha] (erase : alpha -> alpha)
    (marks : alpha -> List Ty.Mark) : Prop where
  beq_iff : forall a b, (a == b) = true <-> erase a = erase b
  equivalence : EquivBEq alpha
  marks_eq_iff : forall a b, marks a = marks b <-> (a == b) = true
  lawful : LawfulHashable alpha

/-- Types stay equal when equal types are put in equal positions, and whatever declarations are put
behind callables. -/
structure EqualByParts : Prop where
  array : forall (a b : Ty) length, (a == b) = true ->
    (Ty.array a length == Ty.array b length) = true
  mapping : forall k l v w : Ty, (k == l) = true -> (v == w) = true ->
    (Ty.mapping k v == Ty.mapping l w) = true
  tuple : forall as bs, List.Forall₂ (fun a b : Ty => (a == b) = true) as bs ->
    (Ty.tuple as == Ty.tuple bs) = true
  functionType : forall f g : FunctionType,
    List.Forall₂ (fun a b : Ty => (a == b) = true) f.parameters g.parameters ->
    List.Forall₂ (fun a b : Ty => (a == b) = true) f.returns g.returns -> (f == g) = true
  function : forall f g : FunctionType, (f == g) = true -> (f.toTy == g.toTy) = true

theorem equalByParts : EqualByParts where
  array a b length h := by
    rw [Ty.beq_iff, Ty.erase, Ty.erase, Ty.beq_iff.mp h]
  mapping k l v w hkey hvalue := by
    rw [Ty.beq_iff, Ty.erase, Ty.erase, Ty.beq_iff.mp hkey, Ty.beq_iff.mp hvalue]
  tuple as bs h := by
    rw [Ty.beq_iff, Ty.erase, Ty.erase, Ty.eraseAll_eq_of_forall₂ h]
  functionType f g hparameters hreturns := by
    rw [FunctionType.beq_iff, FunctionType.erase, FunctionType.erase,
      Ty.eraseAll_eq_of_forall₂ hparameters, Ty.eraseAll_eq_of_forall₂ hreturns]
  function _ _ := FunctionType.toTy_beq_iff.mpr

theorem types_are_compared_erased :
    ComparesErased Ty.erase Ty.marks ∧ ComparesErased FunctionType.erase FunctionType.marks ∧
      EqualByParts :=
  ⟨⟨fun _ _ => Ty.beq_iff, inferInstance, fun _ _ => Ty.marks_eq_iff, inferInstance⟩,
    ⟨fun _ _ => FunctionType.beq_iff, inferInstance, fun _ _ => FunctionType.marks_eq_iff,
      inferInstance⟩,
    equalByParts⟩

end CallForest
