import CallForest.Json.Printer
import CallForest.Json.Reader
import Mathlib.Data.List.TakeDrop

/-!
# Reading what is printed

The reader takes the text of a value off the front of the characters, whatever follows it, and gives
the value back. Only a number needs to know what follows it, for it goes on as long as it can.
-/

namespace CallForest
namespace Json

/-!
# Numbers
-/

def EndsNumber : List Char -> Prop
  | [] => True
  | c :: _ => c.isDigit = false ∧ c ≠ '.' ∧ c ≠ 'e' ∧ c ≠ 'E'

theorem endsNumber_of_mem {c : Char} (h : c ∈ [',', ']', '}']) (rest : List Char) :
    EndsNumber (c :: rest) := by
  simp only [List.mem_cons, List.not_mem_nil, or_false] at h
  rcases h with rfl | rfl | rfl <;> exact ⟨rfl, by decide, by decide, by decide⟩

theorem isDigit_of_mem_decimal {n : Nat} {c : Char} (h : c ∈ Nat.toDigits 10 n) :
    c.isDigit = true :=
  Nat.isDigit_of_mem_toDigits (by decide) (by decide) h

theorem exists_toDigits_eq_cons (n : Nat) :
    exists c digits, Nat.toDigits 10 n = c :: digits ∧ c.isDigit = true := by
  cases h : Nat.toDigits 10 n with
  | nil => exact absurd h Nat.toDigits_ne_nil
  | cons c digits =>
      refine ⟨c, digits, rfl, isDigit_of_mem_decimal (n := n) ?_⟩
      rw [h]
      exact List.mem_cons_self

theorem head?_toDigits_ne_zero {n : Nat} (h : n ≠ 0) : (Nat.toDigits 10 n).head? ≠ some '0' := by
  induction n using Nat.strongRecOn with
  | ind n ih =>
      rcases Nat.lt_or_ge n 10 with hlt | hge
      · rw [Nat.toDigits_of_lt_base hlt]
        intro heq
        have hdigit := congrArg Char.toNat (Option.some.inj heq)
        rw [Nat.toNat_digitChar_of_lt_ten hlt] at hdigit
        exact h (Nat.add_left_cancel hdigit)
      · have hshorter := ih (n / 10) (by omega) (by omega)
        rcases exists_toDigits_eq_cons (n / 10) with ⟨c, digits, heq, _⟩
        rw [Nat.toDigits_of_base_le (by decide) hge, heq]
        rw [heq] at hshorter
        exact hshorter

section

variable {rest : List Char}

theorem readDigits_append {digits : List Char} (hne : digits ≠ [])
    (hdigits : forall c, c ∈ digits -> c.isDigit = true) (h : EndsNumber rest) :
    readDigits (digits ++ rest) = some (digits, rest) := by
  have hspan : (digits ++ rest).span Char.isDigit = (digits, rest) := by
    rw [List.span_eq_takeWhile_dropWhile, List.takeWhile_append_of_pos hdigits,
      List.dropWhile_append_of_pos hdigits]
    cases rest with
    | nil => rw [List.takeWhile_nil, List.dropWhile_nil, List.append_nil]
    | cons c rest =>
        rw [List.takeWhile_cons_of_neg (by rw [h.1]; decide),
          List.dropWhile_cons_of_neg (by rw [h.1]; decide), List.append_nil]
  rw [readDigits, hspan]
  cases digits with
  | nil => exact absurd rfl hne
  | cons c digits => rfl

theorem readWhole_toDigits (n : Nat) (h : EndsNumber rest) :
    readWhole (Nat.toDigits 10 n ++ rest) = some (Nat.toDigits 10 n, rest) := by
  rw [readWhole, readDigits_append Nat.toDigits_ne_nil (fun _ => isDigit_of_mem_decimal) h]
  split
  · next c digits rest' heq =>
      have hdigits : Nat.toDigits 10 n = '0' :: c :: digits :=
        congrArg Prod.fst (Option.some.inj heq)
      have hzero : n = 0 := by
        by_contra hn
        apply head?_toDigits_ne_zero hn
        rw [hdigits]
        rfl
      rw [hzero] at hdigits
      cases hdigits
  · rfl

theorem readFraction_of_endsNumber (h : EndsNumber rest) : readFraction rest = some ([], rest) := by
  cases rest with
  | nil => rfl
  | cons c rest =>
      rw [readFraction]
      rintro _ heq
      cases heq
      exact h.2.1 rfl

theorem readExponent_of_endsNumber (h : EndsNumber rest) : readExponent rest = some ([], rest) := by
  cases rest with
  | nil => rfl
  | cons c rest =>
      have hc : ¬ (c = 'e' ∨ c = 'E') := by
        rintro (rfl | rfl)
        · exact h.2.2.1 rfl
        · exact h.2.2.2 rfl
      simp only [readExponent, if_neg hc]

theorem readNumber_toDigits (n : Nat) (h : EndsNumber rest) :
    readNumber (Nat.toDigits 10 n ++ rest) = some (.natural n, rest) := by
  have hwhole := readWhole_toDigits n h
  have hvalue : ofDigits (Nat.toDigits 10 n) = n := Nat.ofDigitChars_ten_toDigits
  rcases exists_toDigits_eq_cons n with ⟨c, digits, heq, hc⟩
  rw [heq] at hwhole hvalue ⊢
  have hsign : c ≠ '-' := by
    rintro rfl
    cases hc
  rw [readNumber]
  · simp only [hwhole, readFraction_of_endsNumber h, readExponent_of_endsNumber h, hvalue,
      Option.bind_eq_bind, Option.bind_some, List.isEmpty_nil, Bool.and_self, if_true]
  · rintro _ heq
    cases heq
    exact hsign rfl

end

/-!
# Strings
-/

theorem hexValue?_digitChar {n : Nat} (h : n < 16) : hexValue? n.digitChar = some n := by
  revert n
  decide

theorem unit?_of_lt {n : Nat} (h : n < 0x20) :
    unit? '0' '0' (n / 16).digitChar (n % 16).digitChar = some n := by
  have hzero : hexValue? '0' = some 0 := rfl
  rw [unit?, hzero, hexValue?_digitChar (by omega), hexValue?_digitChar (by omega)]
  simp only [Option.bind_eq_bind, Option.bind_some, Option.some.injEq]
  omega

theorem printChar_cases (c : Char) :
    (exists letter, printChar c = ['\\', letter] ∧ escaped? letter = some c) ∨
    (c.toNat < 0x20 ∧ printChar c =
      ['\\', 'u', '0', '0', (c.toNat / 16).digitChar, (c.toNat % 16).digitChar]) ∨
    (printChar c = [c] ∧ c ≠ '"' ∧ c ≠ '\\' ∧ ¬ c.toNat < 0x20) := by
  rw [printChar]
  split_ifs with hquote hnewline hreturn htab hbackspace hfeed hcontrol
  · refine Or.inl ⟨c, rfl, ?_⟩
    rcases hquote with rfl | rfl <;> rfl
  · exact Or.inl ⟨'n', rfl, congrArg some hnewline.symm⟩
  · exact Or.inl ⟨'r', rfl, congrArg some hreturn.symm⟩
  · exact Or.inl ⟨'t', rfl, congrArg some htab.symm⟩
  · exact Or.inl ⟨'b', rfl, congrArg some hbackspace.symm⟩
  · exact Or.inl ⟨'f', rfl, congrArg some hfeed.symm⟩
  · exact Or.inr (Or.inl ⟨hcontrol, rfl⟩)
  · exact Or.inr (Or.inr ⟨rfl, not_or.mp hquote |>.1, not_or.mp hquote |>.2, hcontrol⟩)

theorem readParts_letter {letter c : Char} (h : escaped? letter = some c) (cs : List Char) :
    readParts ('\\' :: letter :: cs) =
      (readParts cs).map fun read => (.char c :: read.1, read.2) := by
  have hletter : letter ≠ 'u' := by
    rintro rfl
    cases h
  rw [readParts]
  · rw [h]
    cases readParts cs <;> rfl
  · rintro a b d e rest rfl _
    exact hletter rfl

theorem readParts_code {a b d e : Char} {code : Nat} (h : unit? a b d e = some code)
    (cs : List Char) :
    readParts ('\\' :: 'u' :: a :: b :: d :: e :: cs) =
      (readParts cs).map fun read => (.unit code :: read.1, read.2) := by
  rw [readParts, h]
  cases readParts cs <;> rfl

theorem readParts_plain {c : Char} (hquote : c ≠ '"') (hslash : c ≠ '\\')
    (hcontrol : ¬ c.toNat < 0x20) (cs : List Char) :
    readParts (c :: cs) =
      (readParts cs).map fun read => (.char c :: read.1, read.2) := by
  rw [readParts]
  · rw [if_neg hcontrol]
    cases readParts cs <;> rfl
  · exact hquote
  · rintro _ _ _ _ _ rfl
    exact absurd rfl hslash
  · rintro _ _ rfl
    exact absurd rfl hslash

theorem joinParts_code {code : Nat} (h : code < 0x20) (parts : List StringPart) :
    joinParts (.unit code :: parts) = (joinParts parts).map (Char.ofNat code :: ·) := by
  have hhigh : isHighSurrogate code = false := by
    rw [isHighSurrogate, Bool.and_eq_false_iff]
    exact Or.inl (decide_eq_false (by omega))
  have hlow : isLowSurrogate code = false := by
    rw [isLowSurrogate, Bool.and_eq_false_iff]
    exact Or.inl (decide_eq_false (by omega))
  rcases parts with _ | ⟨part, parts⟩
  · simp [joinParts, hhigh, hlow]
  · cases part with
    | char c => simp [joinParts, hhigh, hlow]
    | unit low => simp [joinParts, hhigh, hlow]

theorem exists_part (c : Char) :
    exists part,
      (forall cs, readParts (printChar c ++ cs) =
        (readParts cs).map fun read => (part :: read.1, read.2)) ∧
      forall parts, joinParts (part :: parts) = (joinParts parts).map (c :: ·) := by
  rcases printChar_cases c with
    ⟨letter, heq, hletter⟩ | ⟨hcontrol, heq⟩ | ⟨heq, hquote, hslash, hcontrol⟩
  · rw [heq]
    exact ⟨.char c, readParts_letter hletter, fun _ => rfl⟩
  · rw [heq]
    refine ⟨.unit c.toNat, readParts_code (unit?_of_lt hcontrol), ?_⟩
    intro parts
    rw [joinParts_code hcontrol, Char.ofNat_toNat]
  · rw [heq]
    exact ⟨.char c, readParts_plain hquote hslash hcontrol, fun _ => rfl⟩

theorem exists_parts (cs rest : List Char) :
    exists parts, readParts (cs.flatMap printChar ++ '"' :: rest) = some (parts, rest) ∧
      joinParts parts = some cs := by
  induction cs with
  | nil => exact ⟨[], rfl, rfl⟩
  | cons c cs ih =>
      rcases ih with ⟨parts, hread, hjoin⟩
      rcases exists_part c with ⟨part, hpart, hstands⟩
      refine ⟨part :: parts, ?_, ?_⟩
      · rw [List.flatMap_cons, List.append_assoc, hpart, hread]
        rfl
      · rw [hstands, hjoin]
        rfl

theorem readString_print (s : String) (rest : List Char) :
    readString (s.toList.flatMap printChar ++ '"' :: rest) = some (some s, rest) := by
  rcases exists_parts s.toList rest with ⟨parts, hread, hjoin⟩
  simp only [readString, hread, Option.map_some, hjoin, String.ofList_toList]

example : (ofString "\"é\\\n\x01").render = "\"\\\"é\\\\\\n\\u0001\"" := by decide

/-!
# Values
-/

theorem isBlank_eq_false_of_isDigit {c : Char} (h : c.isDigit = true) : isBlank c = false := by
  rw [Bool.eq_false_iff]
  intro hblank
  simp only [isBlank, Bool.or_eq_true, decide_eq_true_eq] at hblank
  rcases hblank with ((rfl | rfl) | rfl) | rfl <;> cases h

/-- A value whose numbers are natural and whose strings have a text. -/
inductive Plain : Json -> Prop where
  | null : Plain .null
  | bool (b : Bool) : Plain (.bool b)
  | natural (n : Nat) : Plain (.natural n)
  | string (s : String) : Plain (.ofString s)
  | array {items : List Json} :
      (forall item, item ∈ items -> Plain item) -> Plain (.array items)
  | object {fields : List (String × Json)} :
      (forall field, field ∈ fields -> Plain field.2) -> Plain (.ofFields fields)

/-- The text of a value is read as this value, whatever follows it. Two steps of the reader for each
character are enough. -/
def ReadsBack (j : Json) : Prop :=
  forall fuel rest, 2 * j.print.length ≤ fuel -> EndsNumber rest ->
    readValue fuel (j.print ++ rest) = some (j, rest)

theorem Plain.exists_print_eq_cons {j : Json} (h : j.Plain) :
    exists c cs, j.print = c :: cs ∧ isBlank c = false ∧ c ≠ ']' := by
  cases h with
  | null => exact ⟨'n', _, rfl, rfl, by decide⟩
  | bool b =>
      cases b with
      | false => exact ⟨'f', _, rfl, rfl, by decide⟩
      | true => exact ⟨'t', _, rfl, rfl, by decide⟩
  | natural n =>
      rcases exists_toDigits_eq_cons n with ⟨c, digits, heq, hc⟩
      refine ⟨c, digits, heq, ?_, ?_⟩
      · exact isBlank_eq_false_of_isDigit hc
      · rintro rfl
        cases hc
  | string s => exact ⟨'"', _, rfl, rfl, by decide⟩
  | @array items _ =>
      cases items with
      | nil => exact ⟨'[', _, rfl, rfl, by decide⟩
      | cons item items => exact ⟨'[', _, rfl, rfl, by decide⟩
  | @object fields _ =>
      cases fields with
      | nil => exact ⟨'{', _, rfl, rfl, by decide⟩
      | cons field fields => exact ⟨'{', _, rfl, rfl, by decide⟩

theorem skipBlanks_cons_of_not_blank {c : Char} (h : isBlank c = false) (cs : List Char) :
    skipBlanks (c :: cs) = c :: cs :=
  List.dropWhile_cons_of_neg (by rw [h]; decide)

theorem endsNumber_printItems (items : List Json) (rest : List Char) :
    EndsNumber (printItems items ++ rest) := by
  cases items with
  | nil => exact endsNumber_of_mem (by decide) _
  | cons item items => exact endsNumber_of_mem (by decide) _

theorem readItems_print {item : Json} {items : List Json} (hitem : item.ReadsBack)
    (hitems : forall i, i ∈ items -> i.ReadsBack) (fuel : Nat) (rest : List Char)
    (hfuel : 2 * (item.print ++ printItems items).length ≤ fuel) :
    readItems fuel (item.print ++ printItems items ++ rest) = some (item :: items, rest) := by
  induction items generalizing item fuel with
  | nil =>
      rw [printItems, List.length_append, List.length_singleton] at hfuel
      cases fuel with
      | zero => omega
      | succ fuel =>
          rw [List.append_assoc, readItems,
            hitem fuel _ (by omega) (endsNumber_printItems [] rest)]
          rfl
  | cons next items ih =>
      rw [printItems, List.length_append, List.length_cons] at hfuel
      cases fuel with
      | zero => omega
      | succ fuel =>
          have hrest := ih (hitems next List.mem_cons_self)
            (fun i hi => hitems i (List.mem_cons_of_mem _ hi)) fuel (by omega)
          rw [List.append_assoc, readItems,
            hitem fuel _ (by omega) (endsNumber_printItems _ rest)]
          show (readItems fuel (next.print ++ printItems items ++ rest)).bind _ = _
          rw [hrest]
          rfl

def members (fields : List (String × Json)) : List (Option String × Json) :=
  fields.map fun field => (some field.1, field.2)

def printMember (name : String) (value : Json) : List Char :=
  printString name.toList ++ ':' :: value.print

theorem printMember_append (name : String) (value : Json) (rest : List Char) :
    printMember name value ++ rest =
      '"' :: (name.toList.flatMap printChar ++ '"' :: ':' :: (value.print ++ rest)) := by
  simp only [printMember, printString, List.cons_append, List.append_assoc, List.nil_append]

theorem printMembers_cons (field : String × Json) (fields : List (String × Json)) :
    printMembers (members (field :: fields)) =
      ',' :: (printMember field.1 field.2 ++ printMembers (members fields)) := by
  show ',' :: (printString field.1.toList ++ ':' :: (field.2.print ++ _)) = _
  rw [printMember, List.append_assoc]
  rfl

theorem print_ofFields_cons (field : String × Json) (fields : List (String × Json)) :
    (ofFields (field :: fields)).print =
      '{' :: (printMember field.1 field.2 ++ printMembers (members fields)) := by
  show '{' :: (printString field.1.toList ++ ':' :: (field.2.print ++ _)) = _
  rw [printMember, List.append_assoc]
  rfl

section

variable {name : String} {value : Json} {fuel : Nat}

theorem readMembers_last (hvalue : value.ReadsBack) (hfuel : 2 * value.print.length ≤ fuel)
    (rest : List Char) :
    readMembers (fuel + 1) (printMember name value ++ '}' :: rest) =
      some ([(some name, value)], rest) := by
  rw [printMember_append, readMembers, skipBlanks_cons_of_not_blank rfl]
  show (readString _).bind _ = _
  rw [readString_print]
  show (readValue fuel (value.print ++ '}' :: rest)).bind _ = _
  rw [hvalue fuel _ hfuel (endsNumber_of_mem (by decide) _)]
  rfl

theorem readMembers_next (hvalue : value.ReadsBack) (hfuel : 2 * value.print.length ≤ fuel)
    {cs rest : List Char} {members : List (Option String × Json)}
    (hmembers : readMembers fuel cs = some (members, rest)) :
    readMembers (fuel + 1) (printMember name value ++ ',' :: cs) =
      some ((some name, value) :: members, rest) := by
  rw [printMember_append, readMembers, skipBlanks_cons_of_not_blank rfl]
  show (readString _).bind _ = _
  rw [readString_print]
  show (readValue fuel (value.print ++ ',' :: cs)).bind _ = _
  rw [hvalue fuel _ hfuel (endsNumber_of_mem (by decide) _)]
  show (readMembers fuel cs).bind _ = _
  rw [hmembers]
  rfl

theorem length_lt_printMember (name : String) (value : Json) :
    value.print.length < (printMember name value).length := by
  rw [printMember, List.length_append, List.length_cons]
  omega

theorem readMembers_print {fields : List (String × Json)}
    (hvalue : value.ReadsBack) (hfields : forall field, field ∈ fields -> field.2.ReadsBack)
    (fuel : Nat) (rest : List Char)
    (hfuel : 2 * (printMember name value ++ printMembers (members fields)).length ≤ fuel) :
    readMembers fuel (printMember name value ++ printMembers (members fields) ++ rest) =
      some ((some name, value) :: members fields, rest) := by
  have hlength := length_lt_printMember name value
  rw [List.length_append] at hfuel
  rw [List.append_assoc]
  induction fields generalizing name value fuel with
  | nil =>
      cases fuel with
      | zero => omega
      | succ fuel => exact readMembers_last hvalue (by omega) rest
  | cons next fields ih =>
      rw [printMembers_cons, List.length_cons, List.length_append] at hfuel
      cases fuel with
      | zero => omega
      | succ fuel =>
          have hmembers := ih (hfields next List.mem_cons_self)
            (fun field hfield => hfields field (List.mem_cons_of_mem _ hfield)) fuel (by omega)
            (length_lt_printMember next.1 next.2)
          rw [printMembers_cons, List.cons_append, List.append_assoc]
          exact readMembers_next hvalue (by omega) hmembers

end

theorem readValue_string (s : String) (fuel : Nat) (rest : List Char) :
    readValue (fuel + 1) ((ofString s).print ++ rest) = some (ofString s, rest) := by
  have hread := readString_print s rest
  show readValue (fuel + 1) (printString s.toList ++ rest) = _
  rw [printString, List.cons_append, List.append_assoc, readValue,
    skipBlanks_cons_of_not_blank rfl]
  show (readString (s.toList.flatMap printChar ++ '"' :: rest)).map _ = _
  rw [hread]
  rfl

theorem readValue_of_isDigit {c : Char} (h : c.isDigit = true) (fuel : Nat) (cs : List Char) :
    readValue (fuel + 1) (c :: cs) = readNumber (c :: cs) := by
  rw [readValue, skipBlanks_cons_of_not_blank (isBlank_eq_false_of_isDigit h)]
  split
  -- All cases but the last are those of another character.
  case h_7 => rfl
  all_goals
    rename_i heq
    cases heq
    cases h

theorem readValue_natural (n fuel : Nat) {rest : List Char} (h : EndsNumber rest) :
    readValue (fuel + 1) ((natural n).print ++ rest) = some (.natural n, rest) := by
  have hread := readNumber_toDigits n h
  rcases exists_toDigits_eq_cons n with ⟨c, digits, heq, hc⟩
  rw [heq, List.cons_append] at hread
  rw [print, heq, List.cons_append, readValue_of_isDigit hc, hread]

theorem readValue_array {c : Char} (hblank : isBlank c = false) (hc : c ≠ ']') {fuel : Nat}
    {cs rest : List Char} {items : List Json}
    (h : readItems fuel (c :: cs) = some (items, rest)) :
    readValue (fuel + 1) ('[' :: c :: cs) = some (.array items, rest) := by
  rw [readValue, skipBlanks_cons_of_not_blank rfl]
  simp only [skipBlanks_cons_of_not_blank hblank]
  split
  · next heq =>
      cases heq
      exact absurd rfl hc
  · rw [h]
    rfl

theorem readValue_object {fuel : Nat} {cs rest : List Char}
    {members : List (Option String × Json)}
    (h : readMembers fuel ('"' :: cs) = some (members, rest)) :
    readValue (fuel + 1) ('{' :: '"' :: cs) = some (.object members, rest) := by
  rw [readValue, skipBlanks_cons_of_not_blank rfl]
  show (readMembers fuel ('"' :: cs)).map _ = _
  rw [h]
  rfl

theorem Plain.readsBack_of_succ {j : Json} (h : j.Plain)
    (hread : forall fuel rest, 2 * j.print.length ≤ fuel + 1 -> EndsNumber rest ->
      readValue (fuel + 1) (j.print ++ rest) = some (j, rest)) :
    j.ReadsBack := by
  intro fuel rest hfuel hrest
  cases fuel with
  | zero =>
      rcases h.exists_print_eq_cons with ⟨c, cs, heq, _⟩
      rw [heq] at hfuel
      cases hfuel
  | succ fuel => exact hread fuel rest hfuel hrest

theorem readValue_print_array {items : List Json}
    (hplain : forall item, item ∈ items -> item.Plain)
    (hitems : forall item, item ∈ items -> item.ReadsBack) (fuel : Nat) (rest : List Char)
    (hfuel : 2 * (array items).print.length ≤ fuel + 1) :
    readValue (fuel + 1) ((array items).print ++ rest) = some (array items, rest) := by
  cases items with
  | nil => rfl
  | cons item items =>
      rw [print, List.length_cons] at hfuel
      have hread := readItems_print (hitems item List.mem_cons_self)
        (fun i hi => hitems i (List.mem_cons_of_mem _ hi)) fuel rest (by omega)
      rcases (hplain item List.mem_cons_self).exists_print_eq_cons with ⟨c, cs, heq, hblank, hc⟩
      rw [heq] at hread
      rw [print, heq]
      exact readValue_array hblank hc hread

theorem readValue_print_object {fields : List (String × Json)}
    (hfields : forall field, field ∈ fields -> field.2.ReadsBack) (fuel : Nat) (rest : List Char)
    (hfuel : 2 * (ofFields fields).print.length ≤ fuel + 1) :
    readValue (fuel + 1) ((ofFields fields).print ++ rest) = some (ofFields fields, rest) := by
  cases fields with
  | nil => rfl
  | cons field fields =>
      rw [print_ofFields_cons, List.length_cons] at hfuel
      rw [print_ofFields_cons]
      exact readValue_object (readMembers_print (hfields field List.mem_cons_self)
        (fun f hf => hfields f (List.mem_cons_of_mem _ hf)) fuel rest (by omega))

theorem Plain.readsBack {j : Json} (h : j.Plain) : j.ReadsBack := by
  induction h with
  | null => exact Plain.null.readsBack_of_succ fun _ _ _ _ => rfl
  | bool b =>
      apply (Plain.bool b).readsBack_of_succ
      cases b with
      | false => exact fun _ _ _ _ => rfl
      | true => exact fun _ _ _ _ => rfl
  | natural n =>
      apply (Plain.natural n).readsBack_of_succ
      exact fun fuel _ _ hrest => readValue_natural n fuel hrest
  | string s =>
      apply (Plain.string s).readsBack_of_succ
      exact fun fuel rest _ _ => readValue_string s fuel rest
  | array hplain ih =>
      apply (Plain.array hplain).readsBack_of_succ
      exact fun fuel rest hfuel _ => readValue_print_array hplain ih fuel rest hfuel
  | object hplain ih =>
      apply (Plain.object hplain).readsBack_of_succ
      exact fun fuel rest hfuel _ => readValue_print_object ih fuel rest hfuel

theorem parse?_render {j : Json} (h : j.Plain) : parse? j.render = some j := by
  have hread := h.readsBack (2 * j.print.length + 2) [] (by omega) trivial
  rw [List.append_nil] at hread
  rw [parse?, render, String.toList_ofList, hread]
  rfl

end Json
end CallForest
