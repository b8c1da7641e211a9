import CallForest.Proofs.CodeInduction
import CallForest.Traversal.Visitor
import Mathlib.Data.List.Basic
import Mathlib.Data.List.Flatten

/-!
# Visits

A place in a row of pieces is the way to it: the number of a piece in the row, then the number of one
of its children, and so on down. Compared item by item, with a place before those below it, places
are in pre-order. A visitor comes to each place once, in this order. If it stops at a piece it leaves
out the places below that piece and no others.
-/

namespace CallForest

namespace Piece

/-- A way through a row of pieces leads to a piece. -/
inductive At : List Piece -> List Nat -> Piece -> Prop where
  | here {row : List Piece} {i : Nat} {p : Piece} :
      row[i]? = some p -> At row [i] p
  | inside {row : List Piece} {i : Nat} {p q : Piece} {way : List Nat} :
      row[i]? = some p -> At p.children way q -> At row (i :: way) q

/-- A piece on the way to a place, above the place, stops the visitor. -/
def CutOff (goesOn : Piece -> Bool) (row : List Piece) (way : List Nat) : Prop :=
  exists above rest stop, way = above ++ rest ∧ rest ≠ [] ∧ At row above stop ∧
    goesOn stop = false

inductive ShownTo : Piece -> Hook -> Prop where
  | function {id : FunctionId} {decl : FunctionDecl} : ShownTo (.function id decl) .function
  | statement {s : Stmt} : ShownTo (.stmt s) .statement
  | identifier {ident : Ident} {referent : Referent} {note : Note} :
      ShownTo (.expr (.name ident referent note)) .identifier
  | call {callee : Expr} {arguments : List Expr} {note : Note} :
      ShownTo (.expr (.call callee arguments note)) .call
  | assignment {target value : Expr} {op : AssignOp} {note : Note} :
      ShownTo (.expr (.assign target op value note)) .assignment
  | expression {e : Expr} :
      (forall ident referent note, e ≠ .name ident referent note) ->
      (forall callee arguments note, e ≠ .call callee arguments note) ->
      (forall target op value note, e ≠ .assign target op value note) ->
      ShownTo (.expr e) .expression

theorem shownTo_hook (p : Piece) : p.ShownTo p.hook := by
  cases p with
  | function id decl => exact .function
  | stmt s => exact .statement
  | expr e =>
      cases e with
      | name ident referent note => exact .identifier
      | call callee arguments note => exact .call
      | assign target op value note => exact .assignment
      | _ =>
          apply ShownTo.expression
          · intro _ _ _ h
            cases h
          · intro _ _ _ h
            cases h
          · intro _ _ _ _ h
            cases h

theorem shownTo_iff {p : Piece} {hook : Hook} : p.ShownTo hook <-> p.hook = hook := by
  constructor
  · intro h
    cases h with
    | @expression e hname hcall hassign =>
        cases e with
        | name ident referent note => exact absurd rfl (hname ident referent note)
        | call callee arguments note => exact absurd rfl (hcall callee arguments note)
        | assign target op value note => exact absurd rfl (hassign target op value note)
        | _ => rfl
    | _ => rfl
  · rintro rfl
    exact p.shownTo_hook

theorem of_rows {P : List Piece -> Prop}
    (hstep : forall row, (forall p, p ∈ row -> P p.children) -> P row) (row : List Piece) :
    P row := by
  have hchildren : forall p : Piece, P p.children := by
    intro p
    induction p using of_children with
    | hstep p ih => exact hstep p.children ih
  exact hstep row fun p _ => hchildren p

/-!
# Places

The places of a row are computed piece by piece: the piece itself, and then the places below it, each
with the number of the piece in front.
-/

def placesBelow (goesOn : Piece -> Bool) (p : Piece) : List (List Nat × Piece) :=
  p.children.zipIdx.attach.flatMap fun x =>
    ([x.1.2], x.1.1) ::
      if goesOn x.1.1 then (placesBelow goesOn x.1.1).map fun v => (x.1.2 :: v.1, v.2) else []
termination_by sizeOf p
decreasing_by
  exact sizeOf_lt_of_mem_children (List.fst_mem_of_mem_zipIdx x.2)

def placesFrom (goesOn : Piece -> Bool) (x : Piece × Nat) : List (List Nat × Piece) :=
  ([x.2], x.1) ::
    if goesOn x.1 then (placesBelow goesOn x.1).map fun v => (x.2 :: v.1, v.2) else []

def places (goesOn : Piece -> Bool) (row : List Piece) : List (List Nat × Piece) :=
  row.zipIdx.flatMap (placesFrom goesOn)

section

variable {goesOn : Piece -> Bool} {row : List Piece}

theorem placesBelow_eq (goesOn : Piece -> Bool) (p : Piece) :
    placesBelow goesOn p = places goesOn p.children := by
  rw [placesBelow, places]
  conv_rhs => rw [← List.attach_map_subtype_val p.children.zipIdx, List.flatMap_map]
  rfl

theorem placesFrom_eq (goesOn : Piece -> Bool) (p : Piece) (i : Nat) :
    placesFrom goesOn (p, i) = ([i], p) ::
      if goesOn p then (places goesOn p.children).map fun v => (i :: v.1, v.2) else [] := by
  rw [placesFrom, placesBelow_eq]

theorem mem_placesFrom_iff {p : Piece} {i : Nat} {v : List Nat × Piece} :
    v ∈ placesFrom goesOn (p, i) <-> v = ([i], p) ∨
      goesOn p = true ∧ exists w, w ∈ places goesOn p.children ∧ (i :: w.1, w.2) = v := by
  rw [placesFrom_eq, List.mem_cons]
  cases goesOn p with
  | false => simp only [Bool.false_eq_true, if_false, List.not_mem_nil, false_and]
  | true => rw [if_pos rfl, List.mem_map, and_iff_right rfl]

theorem mem_places_cons_iff {i : Nat} {way : List Nat} {q : Piece} :
    (i :: way, q) ∈ places goesOn row <-> exists p, row[i]? = some p ∧
      (way = [] ∧ q = p ∨ goesOn p = true ∧ (way, q) ∈ places goesOn p.children) := by
  rw [places, List.mem_flatMap]
  constructor
  · intro h
    rcases h with ⟨⟨p, j⟩, hx, hv⟩
    rcases mem_placesFrom_iff.mp hv with heq | ⟨hgoes, w, hw, heq⟩
    · cases heq
      exact ⟨q, List.mk_mem_zipIdx_iff_getElem?.mp hx, Or.inl ⟨rfl, rfl⟩⟩
    · cases heq
      exact ⟨p, List.mk_mem_zipIdx_iff_getElem?.mp hx, Or.inr ⟨hgoes, hw⟩⟩
  · intro h
    rcases h with ⟨p, hp, hv⟩
    refine ⟨(p, i), List.mk_mem_zipIdx_iff_getElem?.mpr hp, mem_placesFrom_iff.mpr ?_⟩
    rcases hv with ⟨rfl, rfl⟩ | ⟨hgoes, hbelow⟩
    · exact Or.inl rfl
    · exact Or.inr ⟨hgoes, _, hbelow, rfl⟩

theorem exists_cons_of_mem_placesFrom {x : Piece × Nat} {v : List Nat × Piece}
    (h : v ∈ placesFrom goesOn x) : exists way, v.1 = x.2 :: way := by
  rcases mem_placesFrom_iff.mp h with rfl | ⟨_, w, _, rfl⟩
  · exact ⟨[], rfl⟩
  · exact ⟨w.1, rfl⟩

theorem exists_cons_of_mem_places {v : List Nat × Piece} (h : v ∈ places goesOn row) :
    exists i way, v.1 = i :: way := by
  rcases List.mem_flatMap.mp h with ⟨x, _, hv⟩
  exact ⟨x.2, exists_cons_of_mem_placesFrom hv⟩

/-!
# Ways and where they lead
-/

theorem not_at_nil {q : Piece} : ¬ At row [] q := by
  intro h
  cases h

theorem at_cons_iff {i : Nat} {way : List Nat} {q : Piece} :
    At row (i :: way) q <->
      exists p, row[i]? = some p ∧ (way = [] ∧ q = p ∨ At p.children way q) := by
  constructor
  · intro h
    cases h with
    | here hq => exact ⟨q, hq, Or.inl ⟨rfl, rfl⟩⟩
    | inside hp hway => exact ⟨_, hp, Or.inr hway⟩
  · intro h
    rcases h with ⟨p, hp, ⟨rfl, rfl⟩ | hway⟩
    · exact .here hp
    · exact .inside hp hway

theorem not_cutOff_nil : ¬ CutOff goesOn row [] := by
  intro h
  rcases h with ⟨above, rest, _, heq, hrest, _⟩
  exact hrest (List.append_eq_nil_iff.mp heq.symm).2

theorem cutOff_cons_iff {i : Nat} {p : Piece} {way : List Nat} (hp : row[i]? = some p) :
    CutOff goesOn row (i :: way) <->
      way ≠ [] ∧ goesOn p = false ∨ CutOff goesOn p.children way := by
  constructor
  · intro h
    rcases h with ⟨above, rest, stop, heq, hrest, hstop, hstops⟩
    cases above with
    | nil => exact absurd hstop not_at_nil
    | cons j above =>
        rw [List.cons_append, List.cons.injEq] at heq
        rcases heq with ⟨rfl, rfl⟩
        rcases at_cons_iff.mp hstop with ⟨found, hfound, hcases⟩
        cases hp.symm.trans hfound
        rcases hcases with ⟨rfl, rfl⟩ | hbelow
        · exact Or.inl ⟨hrest, hstops⟩
        · exact Or.inr ⟨above, rest, stop, rfl, hrest, hbelow, hstops⟩
  · intro h
    rcases h with ⟨hway, hstops⟩ | ⟨above, rest, stop, rfl, hrest, hstop, hstops⟩
    · exact ⟨[i], way, p, rfl, hway, .here hp, hstops⟩
    · exact ⟨i :: above, rest, stop, rfl, hrest, .inside hp hstop, hstops⟩

theorem not_cutOff_of_goesOn (h : forall p, goesOn p = true) (way : List Nat) :
    ¬ CutOff goesOn row way := by
  intro hcut
  rcases hcut with ⟨_, _, stop, _, _, _, hstops⟩
  rw [h stop] at hstops
  cases hstops

theorem mem_places_iff {way : List Nat} {q : Piece} :
    (way, q) ∈ places goesOn row <-> At row way q ∧ ¬ CutOff goesOn row way := by
  induction way generalizing row with
  | nil =>
      constructor
      · intro h
        rcases exists_cons_of_mem_places h with ⟨i, way, heq⟩
        cases heq
      · intro h
        exact absurd h.1 not_at_nil
  | cons i way ih =>
      rw [mem_places_cons_iff, at_cons_iff]
      constructor
      · intro h
        rcases h with ⟨p, hp, ⟨rfl, rfl⟩ | ⟨hgoes, hbelow⟩⟩
        · refine ⟨⟨q, hp, Or.inl ⟨rfl, rfl⟩⟩, ?_⟩
          rw [cutOff_cons_iff hp]
          rintro (⟨hne, _⟩ | hcut)
          · exact hne rfl
          · exact not_cutOff_nil hcut
        · rcases ih.mp hbelow with ⟨hway, hnot⟩
          refine ⟨⟨p, hp, Or.inr hway⟩, ?_⟩
          rw [cutOff_cons_iff hp, hgoes]
          rintro (⟨_, hstops⟩ | hcut)
          · cases hstops
          · exact hnot hcut
      · intro h
        rcases h with ⟨⟨p, hp, hcases⟩, hnot⟩
        rw [cutOff_cons_iff hp, not_or, not_and, Bool.not_eq_false] at hnot
        refine ⟨p, hp, hcases.imp_right ?_⟩
        intro hway
        have hne : way ≠ [] := by
          rintro rfl
          exact not_at_nil hway
        exact ⟨hnot.1 hne, ih.mpr ⟨hway, hnot.2⟩⟩

/-!
# The order of the places
-/

theorem pairwise_snd_zipIdx {alpha : Type} (xs : List alpha) :
    xs.zipIdx.Pairwise fun x y => x.2 < y.2 := by
  rw [← List.pairwise_map (f := Prod.snd) (R := (· < ·)), List.zipIdx_map_snd]
  exact List.pairwise_lt_range'

/-- A piece comes before the places below it, and those come before the next piece of the row. -/
theorem pairwise_places (goesOn : Piece -> Bool) (row : List Piece) :
    (places goesOn row).Pairwise fun v w => List.Lex (· < ·) v.1 w.1 := by
  induction row using of_rows with
  | hstep row ih =>
      rw [places, List.pairwise_flatMap]
      constructor
      · intro x hx
        rcases x with ⟨p, i⟩
        rw [placesFrom_eq, List.pairwise_cons]
        cases goesOn p with
        | false => exact ⟨List.forall_mem_nil _, .nil⟩
        | true =>
            rw [if_pos rfl, List.forall_mem_map, List.pairwise_map]
            constructor
            · intro v hv
              rcases exists_cons_of_mem_places hv with ⟨j, way, heq⟩
              rw [heq]
              exact .cons .nil
            · exact (ih p (List.fst_mem_of_mem_zipIdx hx)).imp .cons
      · refine (pairwise_snd_zipIdx row).imp ?_
        intro x y hlt v hv w hw
        rcases exists_cons_of_mem_placesFrom hv with ⟨first, hfirst⟩
        rcases exists_cons_of_mem_placesFrom hw with ⟨second, hsecond⟩
        rw [hfirst, hsecond]
        exact .rel hlt

theorem places_sublist (goesOn : Piece -> Bool) (row : List Piece) :
    (places goesOn row).Sublist (places (fun _ => true) row) := by
  induction row using of_rows with
  | hstep row ih =>
      refine List.Sublist.flatMap_right row.zipIdx ?_
      intro x hx
      rcases x with ⟨p, i⟩
      rw [placesFrom_eq, placesFrom_eq, if_pos rfl]
      refine List.Sublist.cons_cons _ ?_
      cases goesOn p with
      | false => exact List.nil_sublist _
      | true =>
          rw [if_pos rfl]
          exact (ih p (List.fst_mem_of_mem_zipIdx hx)).map _

end

end Piece

/-!
# Records
-/

namespace Visitor

/-- The visitor that records which piece is shown to which hook, and is told where to go on. -/
def recorder (goesOn : Piece -> Bool) : Visitor (Piece.Hook × Piece) where
  respond p := { entries := [(p.hook, p)], rounds := (goesOn p).toNat }

theorem recorder_ofPiece (goesOn : Piece -> Bool) (p : Piece) :
    (recorder goesOn).ofPiece p =
      (p.hook, p) :: if goesOn p then (recorder goesOn).ofChildren p else [] := by
  have hrespond : (recorder goesOn).respond p =
      { entries := [(p.hook, p)], rounds := (goesOn p).toNat } := rfl
  rw [ofPiece_eq_record, record, hrespond]
  cases goesOn p with
  | false => rfl
  | true => exact congrArg ((p.hook, p) :: ·) (List.append_nil _)

theorem recorder_eq_places (goesOn : Piece -> Bool) (row : List Piece) :
    row.flatMap (recorder goesOn).ofPiece =
      (Piece.places goesOn row).map fun v => (v.2.hook, v.2) := by
  induction row using Piece.of_rows with
  | hstep row ih =>
      have hpieces : row.flatMap (recorder goesOn).ofPiece =
          row.zipIdx.flatMap fun x => (recorder goesOn).ofPiece x.1 := by
        rw [← List.flatMap_map (f := Prod.fst), List.zipIdx_map_fst]
      rw [hpieces, Piece.places, List.map_flatMap]
      refine List.flatMap_congr ?_
      intro x hx
      rcases x with ⟨p, i⟩
      rw [recorder_ofPiece, Piece.placesFrom_eq, List.map_cons]
      cases goesOn p with
      | false => rfl
      | true =>
          rw [if_pos rfl, if_pos rfl, List.map_map, ofChildren,
            ih p (List.fst_mem_of_mem_zipIdx hx)]
          rfl

/-- Some records, one for each way to answer, are those of a visitor to a row of pieces. Going on
everywhere it is shown what is at each place of the row, once and in pre-order. Otherwise it is shown
the same without the places that a piece above cuts off. -/
structure RecordsPreorder (row : List Piece)
    (record : (Piece -> Bool) -> List (Piece.Hook × Piece)) : Prop where
  exists_visits : exists visits : List (List Nat × Piece),
    (forall way q, (way, q) ∈ visits <-> Piece.At row way q) ∧
    (visits.Pairwise fun v w => List.Lex (· < ·) v.1 w.1) ∧
    record (fun _ => true) = visits.map (fun v => (v.2.hook, v.2)) ∧
    forall goesOn, exists kept : List (List Nat × Piece), kept.Sublist visits ∧
      (forall v, v ∈ kept <-> v ∈ visits ∧ ¬ Piece.CutOff goesOn row v.1) ∧
      record goesOn = kept.map fun v => (v.2.hook, v.2)

theorem recordsPreorder_row (row : List Piece) :
    RecordsPreorder row fun goesOn => row.flatMap (recorder goesOn).ofPiece := by
  have hall : forall way q,
      (way, q) ∈ Piece.places (fun _ => true) row <-> Piece.At row way q := by
    intro way q
    rw [Piece.mem_places_iff]
    exact and_iff_left (Piece.not_cutOff_of_goesOn (fun _ => rfl) way)
  refine ⟨Piece.places (fun _ => true) row, hall, Piece.pairwise_places _ row,
    recorder_eq_places _ row, ?_⟩
  intro goesOn
  refine ⟨Piece.places goesOn row, Piece.places_sublist goesOn row, ?_,
    recorder_eq_places goesOn row⟩
  rintro ⟨way, q⟩
  rw [hall, Piece.mem_places_iff]

/-- Each piece is shown to one hook. A visitor to a piece, a block or the children of a piece is shown
the pieces there in pre-order, without those below a piece where it stops. From a piece where it goes
on it goes to the children. -/
theorem code_is_visited_in_preorder :
    (forall (p : Piece) hook, p.hook = hook <-> p.ShownTo hook) ∧
      (forall goesOn p, (recorder goesOn).ofPiece p =
        (p.hook, p) :: if goesOn p then (recorder goesOn).ofChildren p else []) ∧
      (forall p, RecordsPreorder [p] fun goesOn => (recorder goesOn).ofPiece p) ∧
      (forall statements, RecordsPreorder (Piece.ofBlock statements) fun goesOn =>
        (recorder goesOn).ofStmts statements) ∧
      forall p, RecordsPreorder p.children fun goesOn => (recorder goesOn).ofChildren p := by
  refine ⟨fun _ _ => Piece.shownTo_iff.symm, recorder_ofPiece, ?_, ?_,
    fun p => recordsPreorder_row p.children⟩
  · intro p
    have h := recordsPreorder_row [p]
    simp only [List.flatMap_singleton] at h
    exact h
  · intro statements
    have h := recordsPreorder_row (Piece.ofBlock statements)
    simp only [Piece.ofBlock, List.flatMap_map] at h
    simp only [ofStmts_eq_flatMap]
    exact h

end Visitor
end CallForest
