import CallForest.Source.Span

/-!
# Identifiers

An identifier is either a bare name or a name read off the source text it covers. Its text alone
decides equality, order and hashing, so that two declarations of one name agree wherever they were
written.
-/

namespace CallForest

/-- An identifier: a name of its own, or the text of a span. -/
inductive Ident where
  | named (text : String)
  | spanned (span : Span)

namespace Ident

def text : Ident -> String
  | .named text => text
  | .spanned span => span.text

def span : Ident -> Span
  | .named _ => .dummy
  | .spanned span => span

instance : BEq Ident where
  beq a b := a.text == b.text

instance : Hashable Ident where
  hash a := hash a.text

instance : Ord Ident where
  compare a b := compare a.text b.text

@[simp] theorem text_named (t : String) : (Ident.named t).text = t := rfl

@[simp] theorem text_spanned (s : Span) : (Ident.spanned s).text = s.text := rfl

theorem beq_iff (a b : Ident) : (a == b) = true <-> a.text = b.text := by
  change (a.text == b.text) = true <-> _
  simp

end Ident
end CallForest
