import CallForest.Proofs.JsonText
import CallForest.Proofs.TypeHashing

/-!
# Reading printed types

The text of a type tells all that equality of types compares, as long as the names in it are written
with letters, digits, `_` and `$`: types with the same text are equal. The text of a type begins with
a keyword, which says what form the type has, and the lengths of arrays stand at its end. So a type
is told apart from any other one even if something follows it, and the types of a row are told apart
by the commas between them.
-/

namespace CallForest

/-!
# Runs of characters
-/

namespace Text

def isNameChar (c : Char) : Bool :=
  c.isAlphanum || c == '_' || c == '$'

/-- The characters do not begin with one of a kind. -/
def Stops (kind : Char -> Bool) (cs : List Char) : Prop :=
  forall c, c ∈ cs.head? -> kind c = false

section

variable {kind : Char -> Bool} {run run' rest rest' : List Char}

theorem takeWhile_append_of_stops (hrun : forall c, c ∈ run -> kind c = true)
    (hrest : Stops kind rest) : (run ++ rest).takeWhile kind = run := by
  have hnone : rest.takeWhile kind = [] := by
    cases rest with
    | nil => rfl
    | cons c rest => exact List.takeWhile_cons_of_neg (by rw [hrest c rfl]; decide)
  rw [List.takeWhile_append_of_pos hrun, hnone, List.append_nil]

theorem run_append_inj (hrun : forall c, c ∈ run -> kind c = true)
    (hrun' : forall c, c ∈ run' -> kind c = true) (hrest : Stops kind rest)
    (hrest' : Stops kind rest') (h : run ++ rest = run' ++ rest') :
    run = run' ∧ rest = rest' := by
  have heq : run = run' := by
    rw [← takeWhile_append_of_stops hrun hrest, h, takeWhile_append_of_stops hrun' hrest']
  rw [heq] at h
  exact ⟨heq, List.append_cancel_left h⟩

end

def digits? (n : Option Nat) : List Char :=
  (n.map (Nat.toDigits 10)).getD []

theorem isDigit_of_mem_digits? {n : Option Nat} {c : Char} (h : c ∈ digits? n) :
    c.isDigit = true := by
  cases n with
  | none => cases h
  | some n => exact Json.isDigit_of_mem_decimal h

theorem isLower_eq_false_of_isDigit {c : Char} (h : c.isDigit = true) : c.isLower = false := by
  have hdigit : (decide ('0'.val ≤ c.val) && decide (c.val ≤ '9'.val)) = true := h
  have hle : c.val ≤ '9'.val := of_decide_eq_true (Bool.and_eq_true_iff.mp hdigit).2
  have hlt : c.val < 'a'.val := UInt32.lt_of_le_of_lt hle (by decide)
  show (decide ('a'.val ≤ c.val) && _) = false
  rw [decide_eq_false (UInt32.not_le.mpr hlt), Bool.false_and]

theorem digits?_inj {m n : Option Nat} (h : digits? m = digits? n) : m = n := by
  cases m with
  | none =>
      cases n with
      | none => rfl
      | some n => exact absurd h.symm Nat.toDigits_ne_nil
  | some m =>
      cases n with
      | none => exact absurd h Nat.toDigits_ne_nil
      | some n =>
          have hvalue := congrArg (Nat.ofDigitChars 10 · 0) h
          simpa [digits?, Nat.ofDigitChars_ten_toDigits] using hvalue

theorem digits?_append_inj {m n : Option Nat} {rest rest' : List Char}
    (hrest : Stops Char.isDigit rest) (hrest' : Stops Char.isDigit rest')
    (h : digits? m ++ rest = digits? n ++ rest') : m = n ∧ rest = rest' := by
  have hsplit := run_append_inj (fun _ => isDigit_of_mem_digits?)
    (fun _ => isDigit_of_mem_digits?) hrest hrest' h
  exact ⟨digits?_inj hsplit.1, hsplit.2⟩

end Text

open Text

namespace Ty

/-!
# Names
-/

def magicNames : List String :=
  ["msg", "block", "tx", "this", "super"]

mutual

/-- The names of structs, enums and contracts in a type are written with the characters of names, and
its magic names are among those of the language. -/
def WellNamed : Ty -> Prop
  | .array element _ => WellNamed element
  | .mapping key value => WellNamed key ∧ WellNamed value
  | .struct name => forall c, c ∈ name.text.toList -> isNameChar c = true
  | .enum name => forall c, c ∈ name.text.toList -> isNameChar c = true
  | .contract name => forall c, c ∈ name.text.toList -> isNameChar c = true
  | .function parameters returns _ => AllWellNamed parameters ∧ AllWellNamed returns
  | .tuple elements => AllWellNamed elements
  | .magic name => name.text ∈ magicNames
  | _ => True

def AllWellNamed : List Ty -> Prop
  | [] => True
  | t :: ts => WellNamed t ∧ AllWellNamed ts

end

/-!
# Lengths

The lengths of arrays stand behind a type, so a text has to be read up to its end before it is known
to be that of an array. What stands in front of all lengths is no array.
-/

def isArray : Ty -> Bool
  | .array _ _ => true
  | _ => false

/-- The type without the arrays that are made of it. -/
def stem : Ty -> Ty
  | .array element _ => stem element
  | t => t

def lengths : Ty -> List (Option Nat)
  | .array element length => lengths element ++ [length]
  | _ => []

def bracket (length : Option Nat) : List Char :=
  '[' :: (digits? length ++ [']'])

theorem toList_text_array (element : Ty) (length : Option Nat) :
    (array element length).text.toList = element.text.toList ++ bracket length := by
  cases length <;> simp [text, bracket, digits?]

theorem isArray_stem (t : Ty) : t.stem.isArray = false := by
  cases t with
  | array element length => exact isArray_stem element
  | _ => rfl

theorem WellNamed.stem {t : Ty} (h : t.WellNamed) : t.stem.WellNamed := by
  cases t with
  | array element length =>
      have helement : element.WellNamed := h
      exact helement.stem
  | _ => exact h

theorem toList_text_eq_stem (t : Ty) :
    t.text.toList = t.stem.text.toList ++ t.lengths.flatMap bracket := by
  cases t with
  | array element length =>
      rw [toList_text_array, toList_text_eq_stem element, stem, lengths, List.flatMap_append,
        List.append_assoc, List.flatMap_singleton]
  | _ => exact (List.append_nil _).symm

theorem erase_eq_foldl (t : Ty) : t.erase = t.lengths.foldl array t.stem.erase := by
  cases t with
  | array element length =>
      rw [erase, lengths, List.foldl_append, stem, ← erase_eq_foldl element]
      rfl
  | _ => rfl

theorem bracket_append_inj {m n : Option Nat} {xs ys : List Char}
    (h : bracket m ++ xs = bracket n ++ ys) : m = n ∧ xs = ys := by
  have hclose : forall zs, Stops Char.isDigit (']' :: zs) := by
    rintro zs c ⟨⟩
    rfl
  rw [bracket, bracket, List.cons_append, List.cons_append, List.append_assoc, List.append_assoc]
    at h
  rcases digits?_append_inj (hclose xs) (hclose ys) (List.cons.inj h).2 with ⟨hlength, hrest⟩
  exact ⟨hlength, (List.cons.inj hrest).2⟩

theorem brackets_append_inj {ms ns : List (Option Nat)} {xs ys : List Char}
    (hxs : xs.head? ≠ some '[') (hys : ys.head? ≠ some '[')
    (h : ms.flatMap bracket ++ xs = ns.flatMap bracket ++ ys) : ms = ns ∧ xs = ys := by
  induction ms generalizing ns with
  | nil =>
      cases ns with
      | nil => exact ⟨rfl, h⟩
      | cons n ns => exact absurd (congrArg List.head? h) hxs
  | cons m ms ih =>
      cases ns with
      | nil => exact absurd (congrArg List.head? h).symm hys
      | cons n ns =>
          rw [List.flatMap_cons, List.flatMap_cons, List.append_assoc, List.append_assoc] at h
          rcases bracket_append_inj h with ⟨rfl, hrest⟩
          rcases ih hrest with ⟨rfl, hends⟩
          exact ⟨rfl, hends⟩

/-!
# Keywords

The letters that a type begins with say what form the type has. Only types of bytes need what comes
behind these letters as well.
-/

def keywords : List (List Char) :=
  ["bool".toList, "address".toList, "uint".toList, "int".toList, "bytes".toList, "string".toList,
    "mapping".toList, "struct".toList, "enum".toList, "contract".toList, "function".toList,
    "tuple".toList]

/-- The number of the keyword of a type. Magic names and arrays have none, and come after those that
have one. -/
def form : Ty -> Nat
  | .bool => 0
  | .address _ => 1
  | .uint _ => 2
  | .int _ => 3
  | .fixedBytes _ => 4
  | .bytes => 4
  | .string => 5
  | .mapping _ _ => 6
  | .struct _ => 7
  | .enum _ => 8
  | .contract _ => 9
  | .function _ _ _ => 10
  | .tuple _ => 11
  | .magic _ => 12
  | .array _ _ => 13

def keyword : Ty -> List Char
  | .magic name => name.text.toList
  | t => keywords.getD t.form []

theorem keyword_mem {t : Ty} (ht : t.WellNamed) (hstem : t.isArray = false) :
    t.keyword ∈ keywords ++ magicNames.map String.toList := by
  have hmem : forall i, i < 12 -> keywords.getD i [] ∈ keywords := by
    decide
  cases t with
  | array element length => cases hstem
  | magic name => exact List.mem_append_right _ (List.mem_map_of_mem ht)
  | _ => exact List.mem_append_left _ (hmem _ (by simp [form]))

theorem isLower_of_mem_keyword {t : Ty} (ht : t.WellNamed) (hstem : t.isArray = false) {c : Char}
    (h : c ∈ t.keyword) : c.isLower = true := by
  have hlower : (keywords ++ magicNames.map String.toList).all (List.all · Char.isLower) = true := by
    decide
  rw [List.all_eq_true] at hlower
  exact List.all_eq_true.mp (hlower t.keyword (keyword_mem ht hstem)) c h

theorem form_eq_idxOf {t : Ty} (ht : t.WellNamed) (hstem : t.isArray = false) :
    t.form = keywords.idxOf t.keyword := by
  cases t with
  | array element length => cases hstem
  | magic name =>
      have hnone : forall word, word ∈ magicNames.map String.toList -> 12 = keywords.idxOf word := by
        decide
      exact hnone _ (List.mem_map_of_mem ht)
  | _ => rfl

/-!
# What stands behind a keyword
-/

def row (ts : List Ty) : List Char :=
  (textAll ts).toList ++ [')']

def rowEnd : List Ty -> List Char
  | [] => [')']
  | t :: ts => ',' :: (t.text.toList ++ rowEnd ts)

def returnsPart : List Ty -> List Char
  | [] => []
  | r :: rs => " returns (".toList ++ row (r :: rs)

def remainder : Ty -> List Char
  | .address payable => if payable then " payable".toList else []
  | .uint bits => digits? (some bits)
  | .int bits => digits? (some bits)
  | .fixedBytes length => digits? (some length)
  | .mapping key value =>
      '(' :: (key.text.toList ++ (" => ".toList ++ (value.text.toList ++ [')'])))
  | .struct name => ' ' :: name.text.toList
  | .enum name => ' ' :: name.text.toList
  | .contract name => ' ' :: name.text.toList
  | .function parameters returns _ => " (".toList ++ (row parameters ++ returnsPart returns)
  | .tuple elements => '(' :: row elements
  | _ => []

theorem returnsPart_cons (r : Ty) (rs : List Ty) :
    returnsPart (r :: rs) = " returns (".toList ++ row (r :: rs) :=
  rfl

theorem row_cons (t : Ty) (ts : List Ty) : row (t :: ts) = t.text.toList ++ rowEnd ts := by
  induction ts generalizing t with
  | nil => rfl
  | cons u us ih =>
      have hrest := ih u
      rw [row] at hrest
      rw [row, rowEnd, ← hrest]
      simp [textAll]

theorem toList_number (name : String) (n : Nat) :
    (name ++ toString n).toList = name.toList ++ digits? (some n) := by
  simp [digits?]

theorem toList_text_eq_keyword {t : Ty} (hstem : t.isArray = false) :
    t.text.toList = t.keyword ++ t.remainder := by
  cases t with
  | array element length => cases hstem
  | bool => exact (List.append_nil _).symm
  | address payable =>
      cases payable with
      | false => exact (List.append_nil _).symm
      | true => exact String.toList_append (s := "address") (t := " payable")
  | uint bits => exact toList_number "uint" bits
  | int bits => exact toList_number "int" bits
  | fixedBytes length => exact toList_number "bytes" length
  | bytes => exact (List.append_nil _).symm
  | string => exact (List.append_nil _).symm
  | mapping key value =>
      show ("mapping(" ++ key.text ++ " => " ++ value.text ++ ")").toList = "mapping".toList ++
        '(' :: (key.text.toList ++ (" => ".toList ++ (value.text.toList ++ [')'])))
      simp
  | struct name => exact String.toList_append (s := "struct ") (t := name.text)
  | enum name => exact String.toList_append (s := "enum ") (t := name.text)
  | contract name => exact String.toList_append (s := "contract ") (t := name.text)
  | function parameters returns declaration =>
      cases returns with
      | nil =>
          show ("function (" ++ textAll parameters ++ ")").toList = "function".toList ++
            (" (".toList ++ (row parameters ++ []))
          simp [row]
      | cons r rs =>
          show ("function (" ++ textAll parameters ++ ") returns (" ++ textAll (r :: rs) ++
            ")").toList = "function".toList ++ (" (".toList ++ (row parameters ++
              (" returns (".toList ++ row (r :: rs))))
          simp [row]
  | tuple elements =>
      show ("tuple(" ++ textAll elements ++ ")").toList = "tuple".toList ++ '(' :: row elements
      simp [row]
  | magic name => exact (List.append_nil _).symm

/-- What may follow a type that is no array: nothing, a length, the next type of a row or the end of
the row, or the values of a mapping. -/
inductive EndsStem : List Char -> Prop where
  | nil : EndsStem []
  | length (cs : List Char) : EndsStem ('[' :: cs)
  | comma (cs : List Char) : EndsStem (',' :: cs)
  | close (cs : List Char) : EndsStem (')' :: cs)
  | arrow (cs : List Char) : EndsStem (' ' :: '=' :: cs)

structure EndsType (cs : List Char) : Prop where
  endsStem : EndsStem cs
  head?_ne : cs.head? ≠ some '['

theorem EndsStem.stops {kind : Char -> Bool} {cs : List Char} (h : EndsStem cs)
    (hkind : ['[', ',', ')', ' '].any kind = false) : Stops kind cs := by
  rw [List.any_eq_false] at hkind
  intro c hc
  cases h with
  | nil => cases hc
  | _ =>
      cases hc
      exact Bool.eq_false_iff.mpr (hkind _ (by decide))

theorem EndsStem.ne_append {cs word : List Char} (h : EndsStem cs) (c : Char)
    (hword : word.take 2 = [' ', c]) (hc : c ≠ '=') (rest : List Char) : cs ≠ word ++ rest := by
  rintro rfl
  rw [← List.take_append_drop 2 word, hword] at h
  cases h
  exact hc rfl

theorem endsType_rowEnd (ts : List Ty) (xs : List Char) : EndsType (rowEnd ts ++ xs) := by
  cases ts with
  | nil => exact ⟨.close _, by simp [rowEnd]⟩
  | cons t ts => exact ⟨.comma _, by simp [rowEnd]⟩

theorem endsStem_brackets (ls : List (Option Nat)) {xs : List Char} (h : EndsStem xs) :
    EndsStem (ls.flatMap bracket ++ xs) := by
  cases ls with
  | nil => exact h
  | cons l ls => exact .length _

theorem stops_isLower_digits? (n : Option Nat) {xs : List Char} (h : EndsStem xs) :
    Stops Char.isLower (digits? n ++ xs) := by
  cases hdigits : digits? n with
  | nil => exact h.stops (by decide)
  | cons d digits =>
      have hdigit : d.isDigit = true := isDigit_of_mem_digits? (n := n) (by simp [hdigits])
      rintro c ⟨⟩
      exact isLower_eq_false_of_isDigit hdigit

theorem stops_isLower_remainder (t : Ty) {xs : List Char} (h : EndsStem xs) :
    Stops Char.isLower (t.remainder ++ xs) := by
  have hmark : forall c cs, c.isLower = false -> Stops Char.isLower (c :: cs) := by
    rintro c cs hc _ ⟨⟩
    exact hc
  cases t with
  | address payable =>
      cases payable with
      | false => exact h.stops (by decide)
      | true => exact hmark _ _ rfl
  | uint bits => exact stops_isLower_digits? _ h
  | int bits => exact stops_isLower_digits? _ h
  | fixedBytes length => exact stops_isLower_digits? _ h
  | mapping key value => exact hmark _ _ rfl
  | struct name => exact hmark _ _ rfl
  | enum name => exact hmark _ _ rfl
  | contract name => exact hmark _ _ rfl
  | function parameters returns declaration => exact hmark _ _ rfl
  | tuple elements => exact hmark _ _ rfl
  | _ => exact h.stops (by decide)

/-!
# Telling types apart

The induction is on one of two types. The other one may be taken to be no array, as its lengths can
be counted to what follows it. An array has the lengths of its elements and one more; for any other
type the keywords give the form of both, and their remainders are compared part by part.
-/

/-- A type is told apart from each type that is no array, whatever follows them. -/
def TellsApart (a : Ty) : Prop :=
  forall (b : Ty) (xs ys : List Char), b.WellNamed -> b.isArray = false -> EndsStem xs ->
    EndsStem ys -> a.text.toList ++ xs = b.text.toList ++ ys ->
      a.stem.erase = b.erase ∧ a.lengths.flatMap bracket ++ xs = ys

/-- A type that can be told apart from stems can be told apart from all types. -/
theorem TellsApart.append_inj {a b : Ty} (ha : a.TellsApart) (hb : b.WellNamed)
    {xs ys : List Char} (hxs : EndsType xs) (hys : EndsType ys)
    (h : a.text.toList ++ xs = b.text.toList ++ ys) : a.erase = b.erase ∧ xs = ys := by
  rw [toList_text_eq_stem b, List.append_assoc] at h
  rcases ha b.stem xs _ hb.stem (isArray_stem b) hxs.endsStem
    (endsStem_brackets b.lengths hys.endsStem) h with ⟨hstem, hrest⟩
  rcases brackets_append_inj hxs.head?_ne hys.head?_ne hrest with ⟨hlengths, hrest⟩
  rw [erase_eq_foldl a, erase_eq_foldl b, hstem, hlengths]
  exact ⟨rfl, hrest⟩

theorem tellsApart_array {element : Ty} (h : element.TellsApart) (length : Option Nat) :
    (array element length).TellsApart := by
  intro b xs ys hb hstem hxs hys heq
  rw [toList_text_array, List.append_assoc] at heq
  rw [stem, lengths, List.flatMap_append, List.flatMap_singleton, List.append_assoc]
  exact h b _ ys hb hstem (.length _) hys heq

theorem tellsApart_of_remainder {a : Ty} (ha : a.WellNamed) (hstem : a.isArray = false)
    (h : forall (b : Ty) (xs ys : List Char), b.WellNamed -> a.form = b.form ->
      a.keyword = b.keyword -> EndsStem xs -> EndsStem ys ->
      a.remainder ++ xs = b.remainder ++ ys -> a.erase = b.erase ∧ xs = ys) : a.TellsApart := by
  intro b xs ys hb hstem' hxs hys heq
  rw [toList_text_eq_keyword hstem, toList_text_eq_keyword hstem', List.append_assoc,
    List.append_assoc] at heq
  rcases run_append_inj (fun _ => isLower_of_mem_keyword ha hstem)
    (fun _ => isLower_of_mem_keyword hb hstem') (stops_isLower_remainder a hxs)
    (stops_isLower_remainder b hys) heq with ⟨hkeyword, hremainder⟩
  have hform : a.form = b.form := by
    rw [form_eq_idxOf ha hstem, form_eq_idxOf hb hstem', hkeyword]
  have hself : a.stem = a ∧ a.lengths = [] := by
    cases a with
    | array element length => cases hstem
    | _ => exact ⟨rfl, rfl⟩
  rw [hself.1, hself.2]
  exact h b xs ys hb hform hkeyword hxs hys hremainder

theorem exists_text_eq_cons {t : Ty} (ht : t.WellNamed) :
    exists c cs, t.text.toList = c :: cs ∧ c.isLower = true := by
  have hne : forall word, word ∈ keywords ++ magicNames.map String.toList -> word ≠ [] := by
    decide
  rcases List.exists_cons_of_ne_nil (hne _ (keyword_mem ht.stem (isArray_stem t))) with
    ⟨c, cs, hkeyword⟩
  have hlower : c.isLower = true := by
    apply isLower_of_mem_keyword ht.stem (isArray_stem t)
    rw [hkeyword]
    exact List.mem_cons_self
  rw [toList_text_eq_stem, toList_text_eq_keyword (isArray_stem t), hkeyword]
  exact ⟨c, _, rfl, hlower⟩

/-!
# Rows
-/

theorem rowEnd_append_inj {as bs : List Ty} (has : forall a, a ∈ as -> a.TellsApart)
    (hbs : AllWellNamed bs) {xs ys : List Char} (h : rowEnd as ++ xs = rowEnd bs ++ ys) :
    eraseAll as = eraseAll bs ∧ xs = ys := by
  induction as generalizing bs with
  | nil =>
      cases bs with
      | nil => exact ⟨rfl, (List.cons.inj h).2⟩
      | cons b bs => exact absurd (List.cons.inj h).1 (by decide)
  | cons a as ih =>
      cases bs with
      | nil => exact absurd (List.cons.inj h).1 (by decide)
      | cons b bs =>
          rw [List.forall_mem_cons] at has
          rw [rowEnd, rowEnd, List.cons_append, List.cons_append, List.append_assoc,
            List.append_assoc] at h
          rcases has.1.append_inj hbs.1 (endsType_rowEnd as xs) (endsType_rowEnd bs ys)
            (List.cons.inj h).2 with ⟨hhead, hrest⟩
          rcases ih has.2 hbs.2 hrest with ⟨htail, hends⟩
          rw [eraseAll, eraseAll, hhead, htail]
          exact ⟨rfl, hends⟩

theorem row_append_inj {as bs : List Ty} (has : forall a, a ∈ as -> a.TellsApart)
    (hwell : AllWellNamed as) (hbs : AllWellNamed bs) {xs ys : List Char}
    (h : row as ++ xs = row bs ++ ys) : eraseAll as = eraseAll bs ∧ xs = ys := by
  have hopen : forall t ts zs zs', WellNamed t -> ')' :: zs ≠ row (t :: ts) ++ zs' := by
    intro t ts zs zs' ht heq
    rcases exists_text_eq_cons ht with ⟨c, cs, htext, hlower⟩
    rw [row_cons, htext] at heq
    rw [← (List.cons.inj heq).1] at hlower
    cases hlower
  cases as with
  | nil =>
      cases bs with
      | nil => exact ⟨rfl, (List.cons.inj h).2⟩
      | cons b bs => exact absurd h (hopen b bs xs ys hbs.1)
  | cons a as =>
      cases bs with
      | nil => exact absurd h.symm (hopen a as ys xs hwell.1)
      | cons b bs =>
          rw [List.forall_mem_cons] at has
          rw [row_cons, row_cons, List.append_assoc, List.append_assoc] at h
          rcases has.1.append_inj hbs.1 (endsType_rowEnd as xs) (endsType_rowEnd bs ys) h with
            ⟨hhead, hrest⟩
          rcases rowEnd_append_inj has.2 hbs.2 hrest with ⟨htail, hends⟩
          rw [eraseAll, eraseAll, hhead, htail]
          exact ⟨rfl, hends⟩

theorem returnsPart_append_inj {as bs : List Ty} (has : forall a, a ∈ as -> a.TellsApart)
    (hwell : AllWellNamed as) (hbs : AllWellNamed bs) {xs ys : List Char} (hxs : EndsStem xs)
    (hys : EndsStem ys) (h : returnsPart as ++ xs = returnsPart bs ++ ys) :
    eraseAll as = eraseAll bs ∧ xs = ys := by
  cases as with
  | nil =>
      cases bs with
      | nil => exact ⟨rfl, h⟩
      | cons b bs =>
          rw [returnsPart_cons, List.append_assoc] at h
          exact absurd h (hxs.ne_append 'r' (by decide) (by decide) _)
  | cons a as =>
      cases bs with
      | nil =>
          rw [returnsPart_cons, List.append_assoc] at h
          exact absurd h.symm (hys.ne_append 'r' (by decide) (by decide) _)
      | cons b bs =>
          rw [returnsPart_cons, returnsPart_cons, List.append_assoc, List.append_assoc] at h
          exact row_append_inj has hwell hbs (List.append_cancel_left h)

/-!
# All forms
-/

section

variable {xs ys : List Char}

theorem number_append_inj {m n : Option Nat} (hxs : EndsStem xs) (hys : EndsStem ys)
    (h : digits? m ++ xs = digits? n ++ ys) : m = n ∧ xs = ys :=
  digits?_append_inj (hxs.stops (by decide)) (hys.stops (by decide)) h

theorem name_append_inj {m n : Ident} (hm : forall c, c ∈ m.text.toList -> isNameChar c = true)
    (hn : forall c, c ∈ n.text.toList -> isNameChar c = true) (hxs : EndsStem xs)
    (hys : EndsStem ys) (h : ' ' :: m.text.toList ++ xs = ' ' :: n.text.toList ++ ys) :
    m.text = n.text ∧ xs = ys := by
  rcases run_append_inj hm hn (hxs.stops (by decide)) (hys.stops (by decide))
    (List.cons.inj h).2 with ⟨hname, hrest⟩
  exact ⟨String.toList_inj.mp hname, hrest⟩

theorem payable_append_inj {p q : Bool} (hxs : EndsStem xs) (hys : EndsStem ys)
    (h : (address p).remainder ++ xs = (address q).remainder ++ ys) : p = q ∧ xs = ys := by
  rw [remainder, remainder] at h
  cases p with
  | false =>
      cases q with
      | false => exact ⟨rfl, h⟩
      | true => exact absurd h (hxs.ne_append 'p' (by decide) (by decide) ys)
  | true =>
      cases q with
      | false => exact absurd h.symm (hys.ne_append 'p' (by decide) (by decide) xs)
      | true => exact ⟨rfl, List.append_cancel_left h⟩

theorem mapping_append_inj {k l v w : Ty} (hk : k.TellsApart) (hv : v.TellsApart)
    (hl : l.WellNamed) (hw : w.WellNamed)
    (h : (mapping k v).remainder ++ xs = (mapping l w).remainder ++ ys) :
    (mapping k v).erase = (mapping l w).erase ∧ xs = ys := by
  have harrow : forall cs, EndsType (" => ".toList ++ cs) :=
    fun cs => ⟨.arrow _, by simp⟩
  have hclose : forall cs, EndsType ([')'] ++ cs) :=
    fun cs => ⟨.close _, by simp⟩
  simp only [remainder, List.cons_append, List.append_assoc, List.cons.injEq, true_and] at h
  rcases hk.append_inj hl (harrow _) (harrow _) h with ⟨hkey, hrest⟩
  rcases hv.append_inj hw (hclose xs) (hclose ys) (List.append_cancel_left hrest) with
    ⟨hvalue, hrest⟩
  rw [erase, erase, hkey, hvalue]
  exact ⟨rfl, List.append_cancel_left hrest⟩

theorem function_append_inj {ps rs qs ss : List Ty} {d d' : Option Referent}
    (hps : forall p, p ∈ ps -> p.TellsApart) (hrs : forall r, r ∈ rs -> r.TellsApart)
    (hwell : (function ps rs d).WellNamed) (hwell' : (function qs ss d').WellNamed)
    (hxs : EndsStem xs) (hys : EndsStem ys)
    (h : (function ps rs d).remainder ++ xs = (function qs ss d').remainder ++ ys) :
    (function ps rs d).erase = (function qs ss d').erase ∧ xs = ys := by
  simp only [remainder, List.append_assoc] at h
  rcases row_append_inj hps hwell.1 hwell'.1 (List.append_cancel_left h) with
    ⟨hparameters, hrest⟩
  rcases returnsPart_append_inj hrs hwell.2 hwell'.2 hxs hys hrest with ⟨hreturns, hrest⟩
  rw [erase, erase, hparameters, hreturns]
  exact ⟨rfl, hrest⟩

end

mutual

theorem tellsApart (a : Ty) (ha : a.WellNamed) : a.TellsApart := by
  cases harray : a.isArray with
  | true =>
      cases a with
      | array element length => exact tellsApart_array (tellsApart element ha) length
      | _ => cases harray
  | false =>
      apply tellsApart_of_remainder ha harray
      intro b xs ys hb hform hkeyword hxs hys h
      -- The keyword has fixed the form of `b`. Only bytes come with and without a length.
      cases a with
      | array element length => cases harray
      | bool =>
          cases b with
          | bool => exact ⟨rfl, h⟩
          | _ => cases hform
      | address payable =>
          cases b with
          | address payable' =>
              rcases payable_append_inj hxs hys h with ⟨rfl, hrest⟩
              exact ⟨rfl, hrest⟩
          | _ => cases hform
      | uint bits =>
          cases b with
          | uint bits' =>
              rcases number_append_inj hxs hys h with ⟨hbits, hrest⟩
              cases hbits
              exact ⟨rfl, hrest⟩
          | _ => cases hform
      | int bits =>
          cases b with
          | int bits' =>
              rcases number_append_inj hxs hys h with ⟨hbits, hrest⟩
              cases hbits
              exact ⟨rfl, hrest⟩
          | _ => cases hform
      | fixedBytes length =>
          cases b with
          | fixedBytes length' =>
              rcases number_append_inj hxs hys h with ⟨hlength, hrest⟩
              cases hlength
              exact ⟨rfl, hrest⟩
          | bytes => cases (number_append_inj (n := none) hxs hys h).1
          | _ => cases hform
      | bytes =>
          cases b with
          | fixedBytes length' => cases (number_append_inj (m := none) hxs hys h).1
          | bytes => exact ⟨rfl, h⟩
          | _ => cases hform
      | string =>
          cases b with
          | string => exact ⟨rfl, h⟩
          | _ => cases hform
      | mapping key value =>
          cases b with
          | mapping key' value' =>
              exact mapping_append_inj (tellsApart key ha.1) (tellsApart value ha.2) hb.1 hb.2 h
          | _ => cases hform
      | struct name =>
          cases b with
          | struct name' =>
              rcases name_append_inj ha hb hxs hys h with ⟨hname, hrest⟩
              rw [erase, erase, hname]
              exact ⟨rfl, hrest⟩
          | _ => cases hform
      | enum name =>
          cases b with
          | enum name' =>
              rcases name_append_inj ha hb hxs hys h with ⟨hname, hrest⟩
              rw [erase, erase, hname]
              exact ⟨rfl, hrest⟩
          | _ => cases hform
      | contract name =>
          cases b with
          | contract name' =>
              rcases name_append_inj ha hb hxs hys h with ⟨hname, hrest⟩
              rw [erase, erase, hname]
              exact ⟨rfl, hrest⟩
          | _ => cases hform
      | function parameters returns declaration =>
          cases b with
          | function parameters' returns' declaration' =>
              exact function_append_inj (tellsApart_of_mem parameters ha.1)
                (tellsApart_of_mem returns ha.2) ha hb hxs hys h
          | _ => cases hform
      | tuple elements =>
          cases b with
          | tuple elements' =>
              rcases row_append_inj (tellsApart_of_mem elements ha) ha hb (List.cons.inj h).2 with
                ⟨helements, hrest⟩
              rw [erase, erase, helements]
              exact ⟨rfl, hrest⟩
          | _ => cases hform
      | magic name =>
          cases b with
          | magic name' =>
              rw [erase, erase, String.toList_inj.mp hkeyword]
              exact ⟨rfl, h⟩
          | _ => cases hform

theorem tellsApart_of_mem (as : List Ty) (has : AllWellNamed as) :
    forall a, a ∈ as -> a.TellsApart := by
  cases as with
  | nil => exact List.forall_mem_nil _
  | cons a as => exact List.forall_mem_cons.mpr ⟨tellsApart a has.1, tellsApart_of_mem as has.2⟩

end

mutual

theorem text_erase (t : Ty) : t.erase.text = t.text := by
  cases t with
  | address payable => cases payable <;> rfl
  | array element length => cases length <;> simp only [erase, text, text_erase element]
  | mapping key value => rw [erase, text, text, text_erase key, text_erase value]
  | function parameters returns declaration =>
      cases returns with
      | nil => rw [erase, eraseAll, text, text, textAll_eraseAll parameters]
      | cons r rs =>
          have hreturns := textAll_eraseAll (r :: rs)
          rw [eraseAll] at hreturns
          rw [erase, eraseAll, text, text, textAll_eraseAll parameters, hreturns]
  | tuple elements => rw [erase, text, text, textAll_eraseAll elements]
  | _ => rfl

theorem textAll_eraseAll (ts : List Ty) : textAll (eraseAll ts) = textAll ts := by
  cases ts with
  | nil => rfl
  | cons t ts =>
      cases ts with
      | nil => rw [eraseAll, eraseAll, textAll, textAll, text_erase t]
      | cons u us =>
          have htail := textAll_eraseAll (u :: us)
          rw [eraseAll] at htail
          rw [eraseAll, eraseAll, textAll, textAll, text_erase t, htail]

end

theorem text_eq_iff {a b : Ty} (ha : a.WellNamed) (hb : b.WellNamed) :
    a.text = b.text <-> (a == b) = true := by
  rw [beq_iff]
  constructor
  · intro h
    have hends : EndsType [] := ⟨.nil, by simp⟩
    exact ((tellsApart a ha).append_inj hb hends hends (by rw [h])).1
  · intro h
    rw [← text_erase a, h, text_erase b]

end Ty

/-!
# Signatures
-/

namespace FunctionDecl

/-- The name of a function and the names in the types of its parameters are written with the
characters of names. -/
structure WellNamed (f : FunctionDecl) : Prop where
  name : forall c, c ∈ f.name.text.toList -> isNameChar c = true
  parameters : Ty.AllWellNamed f.functionType.parameters

theorem toList_signature {f : FunctionDecl} (hf : f.kind = .function) :
    f.signature.toList = f.name.text.toList ++ '(' :: Ty.row f.functionType.parameters := by
  simp [signature, title, hf, Ty.row]

theorem signature_eq_iff {f g : FunctionDecl} (hf : f.kind = .function) (hg : g.kind = .function)
    (hfnames : f.WellNamed) (hgnames : g.WellNamed) :
    f.signature = g.signature <->
      (f.name == g.name) = true ∧ f.functionType.sameParameters g.functionType = true := by
  rw [Ident.beq_iff, FunctionType.sameParameters, Ty.beqAll_iff_eraseAll_eq]
  have hopen : forall cs, Stops isNameChar ('(' :: cs) := by
    rintro cs c ⟨⟩
    rfl
  constructor
  · intro h
    have hlist := congrArg String.toList h
    rw [toList_signature hf, toList_signature hg] at hlist
    rcases run_append_inj hfnames.name hgnames.name (hopen _) (hopen _) hlist with ⟨hname, hrow⟩
    have hparameters : Ty.row f.functionType.parameters ++ [] =
        Ty.row g.functionType.parameters ++ [] := by
      rw [(List.cons.inj hrow).2]
    exact ⟨String.toList_inj.mp hname, (Ty.row_append_inj
      (Ty.tellsApart_of_mem _ hfnames.parameters) hfnames.parameters hgnames.parameters
      hparameters).1⟩
  · rintro ⟨hname, hparameters⟩
    rw [signature, signature, title, title, hf, hg, ← Ty.textAll_eraseAll, hparameters,
      Ty.textAll_eraseAll, hname]

end FunctionDecl

/-!
# Types and signatures
-/

theorem texts_tell_types_apart :
    (forall a b : Ty, a.WellNamed -> b.WellNamed -> (a.text = b.text <-> (a == b) = true)) ∧
      forall f g : FunctionDecl, f.kind = .function -> g.kind = .function -> f.WellNamed ->
        g.WellNamed -> (f.signature = g.signature <->
          (f.name == g.name) = true ∧ f.functionType.sameParameters g.functionType = true) :=
  ⟨fun _ _ => Ty.text_eq_iff, fun _ _ => FunctionDecl.signature_eq_iff⟩

/-!
# Arrays and callables

An array of callables and a callable that returns an array are written alike, but for one bracket.
-/

namespace Pointers

def arrayOfCallables (known : Option Referent) : Ty :=
  .array (.function [.struct (.named "S$1"), .tuple []] [.magic (.named "msg")] known) (some 3)

def callableWithArray : Ty :=
  .function [.struct (.named "S$1"), .tuple []] [.array (.magic (.named "msg")) (some 3)] none

theorem wellNamed_struct : (Ty.struct (.named "S$1")).WellNamed :=
  List.all_eq_true.mp (by decide : "S$1".toList.all isNameChar = true)

theorem wellNamed_magic : (Ty.magic (.named "msg")).WellNamed :=
  List.mem_cons_self

theorem wellNamed_arrayOfCallables (known : Option Referent) :
    (arrayOfCallables known).WellNamed :=
  ⟨⟨wellNamed_struct, trivial, trivial⟩, wellNamed_magic, trivial⟩

theorem wellNamed_callableWithArray : callableWithArray.WellNamed :=
  ⟨⟨wellNamed_struct, trivial, trivial⟩, wellNamed_magic, trivial⟩

def taking (parameter : Ty) : FunctionDecl :=
  ⟨.named "f", .function, [⟨.named "p", parameter⟩], [], false, none, .dummy⟩

theorem wellNamed_taking {parameter : Ty} (h : parameter.WellNamed) : (taking parameter).WellNamed where
  name := List.all_eq_true.mp (by decide : "f".toList.all isNameChar = true)
  parameters := ⟨h, trivial⟩

end Pointers

theorem texts_tell_pointers_apart :
    (Pointers.arrayOfCallables (some (.function ⟨0⟩))).WellNamed ∧
      (Pointers.arrayOfCallables none).WellNamed ∧ Pointers.callableWithArray.WellNamed ∧
      (Pointers.arrayOfCallables (some (.function ⟨0⟩))).text =
        (Pointers.arrayOfCallables none).text ∧
      (Pointers.arrayOfCallables none).text ≠ Pointers.callableWithArray.text ∧
      (Pointers.taking (Pointers.arrayOfCallables none)).WellNamed ∧
      (Pointers.taking Pointers.callableWithArray).WellNamed ∧
      (Pointers.taking (Pointers.arrayOfCallables none)).signature ≠
        (Pointers.taking Pointers.callableWithArray).signature := by
  have harray := Pointers.wellNamed_arrayOfCallables
  have hcallable := Pointers.wellNamed_callableWithArray
  have hfirst := Pointers.wellNamed_taking (harray none)
  have hsecond := Pointers.wellNamed_taking hcallable
  refine ⟨harray _, harray _, hcallable, ?_, ?_, hfirst, hsecond, ?_⟩
  · exact (texts_tell_types_apart.1 _ _ (harray _) (harray _)).mpr (by decide)
  · intro h
    exact absurd ((texts_tell_types_apart.1 _ _ (harray _) hcallable).mp h) (by decide)
  · intro h
    exact absurd ((texts_tell_types_apart.2 _ _ rfl rfl hfirst hsecond).mp h).2 (by decide)

end CallForest
