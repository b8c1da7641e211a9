import CallForest.Proofs.JsonText
import CallForest.Text.Quoted

/-!
# Reading quoted text

A quoted text can be read back up to its closing quote, whatever its characters are and whatever
follows it. It stands on one line.
-/

namespace CallForest
namespace Text

/-!
# A reader
-/

/-- Where the reading of a quoted text stands: before a character, behind a backslash, before the
brace that opens a code point, or in a code point of which some digits are read. -/
inductive QuotedPlace where
  | character
  | letter
  | brace
  | digits (value : Nat)

def unescaped? (letter : Char) : Option Char :=
  if letter = '"' ∨ letter = '\\' then some letter
  else if letter = 't' then some '\t'
  else if letter = 'r' then some '\r'
  else if letter = 'n' then some '\n'
  else if letter = '0' then some '\x00'
  else none

def putBefore (c : Char) (read : Option (List Char × List Char)) :
    Option (List Char × List Char) :=
  read.map fun found => (c :: found.1, found.2)

/-- Reads a quoted text without its opening quote. The answer is the text, and what follows its
closing quote. -/
def readQuoted : QuotedPlace -> List Char -> Option (List Char × List Char)
  | _, [] => none
  | .character, c :: cs =>
      if c = '"' then some ([], cs)
      else if c = '\\' then readQuoted .letter cs
      else putBefore c (readQuoted .character cs)
  | .letter, c :: cs =>
      if c = 'u' then readQuoted .brace cs
      else
        match unescaped? c with
        | some d => putBefore d (readQuoted .character cs)
        | none => none
  | .brace, c :: cs =>
      if c = '{' then readQuoted (.digits 0) cs else none
  | .digits value, c :: cs =>
      if c = '}' then putBefore (Char.ofNat value) (readQuoted .character cs)
      else
        match Json.hexValue? c with
        | some digit => readQuoted (.digits (16 * value + digit)) cs
        | none => none

/-!
# Escaped characters
-/

theorem escapeChar_cases (c : Char) :
    (exists letter, escapeChar c = ['\\', letter] ∧ unescaped? letter = some c) ∨
    (escapeChar c = [c] ∧ c ≠ '"' ∧ c ≠ '\\' ∧ c ≠ '\n') ∨
    escapeChar c = '\\' :: 'u' :: '{' :: (hexDigits c.toNat ++ ['}']) := by
  rw [escapeChar]
  split_ifs with hquote htab hreturn hnewline hnull hprintable
  · exact Or.inl ⟨c, rfl, if_pos hquote⟩
  · exact Or.inl ⟨'t', rfl, congrArg some htab.symm⟩
  · exact Or.inl ⟨'r', rfl, congrArg some hreturn.symm⟩
  · exact Or.inl ⟨'n', rfl, congrArg some hnewline.symm⟩
  · exact Or.inl ⟨'0', rfl, congrArg some hnull.symm⟩
  · exact Or.inr (Or.inl ⟨rfl, not_or.mp hquote |>.1, not_or.mp hquote |>.2, hnewline⟩)
  · exact Or.inr (Or.inr rfl)

theorem readQuoted_letter {letter c : Char} (h : unescaped? letter = some c) (cs : List Char) :
    readQuoted .character ('\\' :: letter :: cs) = putBefore c (readQuoted .character cs) := by
  have hletter : letter ≠ 'u' := by
    rintro rfl
    cases h
  rw [readQuoted, if_neg (by decide), if_pos rfl, readQuoted, if_neg hletter, h]

theorem readQuoted_plain {c : Char} (hquote : c ≠ '"') (hslash : c ≠ '\\') (cs : List Char) :
    readQuoted .character (c :: cs) = putBefore c (readQuoted .character cs) := by
  rw [readQuoted, if_neg hquote, if_neg hslash]

theorem readQuoted_digit {digit : Nat} (h : digit < 16) (value : Nat) (cs : List Char) :
    readQuoted (.digits value) (digit.digitChar :: cs) =
      readQuoted (.digits (16 * value + digit)) cs := by
  have hbrace : digit.digitChar ≠ '}' := by
    revert digit
    decide
  rw [readQuoted, if_neg hbrace, Json.hexValue?_digitChar h]

theorem readQuoted_hexDigits (n : Nat) (cs : List Char) :
    readQuoted (.digits 0) (hexDigits n ++ cs) = readQuoted (.digits n) cs := by
  rw [hexDigits]
  induction n using Nat.base_induction 16 (by decide) generalizing cs with
  | single n hlt =>
      rw [Nat.toDigits_of_lt_base hlt, List.singleton_append, readQuoted_digit hlt, Nat.mul_zero,
        Nat.zero_add]
  | digit n digit hlt hpos ih =>
      rw [← Nat.toDigits_append_toDigits (by decide) hpos hlt, Nat.toDigits_of_lt_base hlt,
        List.append_assoc, ih, List.singleton_append, readQuoted_digit hlt]

theorem readQuoted_code (n : Nat) (cs : List Char) :
    readQuoted .character ('\\' :: 'u' :: '{' :: (hexDigits n ++ '}' :: cs)) =
      putBefore (Char.ofNat n) (readQuoted .character cs) := by
  rw [readQuoted, if_neg (by decide), if_pos rfl, readQuoted, if_pos rfl, readQuoted, if_pos rfl,
    readQuoted_hexDigits, readQuoted, if_pos rfl]

theorem readQuoted_escapeChar (c : Char) (cs : List Char) :
    readQuoted .character (escapeChar c ++ cs) = putBefore c (readQuoted .character cs) := by
  rcases escapeChar_cases c with ⟨letter, heq, hletter⟩ | ⟨heq, hquote, hslash, _⟩ | heq
  · rw [heq]
    exact readQuoted_letter hletter cs
  · rw [heq]
    exact readQuoted_plain hquote hslash cs
  · simp only [heq, List.cons_append, List.append_assoc, List.nil_append, readQuoted_code,
      Char.ofNat_toNat]

/-!
# Quoted texts
-/

theorem readQuoted_escape (cs rest : List Char) :
    readQuoted .character (escape cs ++ '"' :: rest) = some (cs, rest) := by
  induction cs with
  | nil => rfl
  | cons c cs ih =>
      rw [escape_cons, List.append_assoc, readQuoted_escapeChar, ih]
      rfl

theorem toList_quote (s : String) : (quote s).toList = '"' :: (escape s.toList ++ ['"']) :=
  String.toList_ofList

theorem lineEnd_not_mem_hexDigits (n : Nat) : '\n' ∉ hexDigits n := by
  rw [hexDigits]
  induction n using Nat.base_induction 16 (by decide) with
  | single n hlt =>
      rw [Nat.toDigits_of_lt_base hlt]
      revert n
      decide
  | digit n digit hlt hpos ih =>
      rw [← Nat.toDigits_append_toDigits (by decide) hpos hlt, Nat.toDigits_of_lt_base hlt,
        List.mem_append, not_or]
      refine ⟨ih, ?_⟩
      revert digit
      decide

theorem lineEnd_not_mem_escapeChar (c : Char) : '\n' ∉ escapeChar c := by
  rcases escapeChar_cases c with ⟨letter, heq, hletter⟩ | ⟨heq, _, _, hlineEnd⟩ | heq
  · have hne : letter ≠ '\n' := by
      rintro rfl
      cases hletter
    simp [heq, hne.symm]
  · simp [heq, hlineEnd.symm]
  · simp [heq, lineEnd_not_mem_hexDigits]

theorem lineEnd_not_mem_quote (s : String) : '\n' ∉ (quote s).toList := by
  simp [toList_quote, escape, lineEnd_not_mem_escapeChar]

end Text
end CallForest
