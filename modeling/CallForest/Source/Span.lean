import CallForest.Text.Path
import CallForest.Text.Quoted

/-!
# Spans

A span is a stretch of a source text, given by two byte offsets into its UTF-8 form, together with
the path the text was read from. The offsets are positions of the text, so a span can neither leave
the text nor cut a character.
-/

namespace CallForest

open Text

structure Span where
  source : String
  start : source.Pos
  stop : source.Pos
  start_le_stop : start ≤ stop
  path : Option Path

namespace Span

/-- The span between two byte offsets, if they are ordered and both stand between characters. -/
def ofRange? (source : String) (start stop : Nat) (path : Option Path) : Option Span :=
  match source.pos? ⟨start⟩, source.pos? ⟨stop⟩ with
  | some first, some last =>
      if h : first ≤ last then some ⟨source, first, last, h, path⟩ else none
  | _, _ => none

def ofText (source : String) : Span :=
  ⟨source, source.startPos, source.endPos, String.Pos.startPos_le source.endPos, none⟩

def dummy : Span :=
  ofText ""

/-- A span over nothing: an empty text that came from no file. -/
def isDummy (s : Span) : Bool :=
  s.source.isEmpty && s.path.isNone

def text (s : Span) : String :=
  String.extract s.start s.stop

def startOffset (s : Span) : Nat :=
  s.start.offset.byteIdx

def stopOffset (s : Span) : Nat :=
  s.stop.offset.byteIdx

/-!
# Comparison

Spans are compared by source text, start, end and path, in this order; no path comes before any.
-/

instance : BEq Span where
  beq a b :=
    a.source == b.source && a.startOffset == b.startOffset && a.stopOffset == b.stopOffset
      && a.path == b.path

instance : Hashable Span where
  hash a := mixHash (hash a.source)
    (mixHash (hash a.startOffset) (mixHash (hash a.stopOffset) (hash a.path)))

def compareOption {alpha : Type} [Ord alpha] : Option alpha -> Option alpha -> Ordering
  | none, none => .eq
  | none, some _ => .lt
  | some _, none => .gt
  | some a, some b => compare a b

instance : Ord Span where
  compare a b :=
    (compare a.source b.source).then <|
      (compare a.startOffset b.startOffset).then <|
        (compare a.stopOffset b.stopOffset).then <|
          compareOption a.path b.path

/-!
# Inspection
-/

def describe (s : Span) : String :=
  "Span \x7b start: " ++ toString s.startOffset ++ ", end: " ++ toString s.stopOffset
    ++ ", as_str: " ++ quote s.text ++ " \x7d"

def describeLines (s : Span) : String :=
  "Span \x7b\n    start: " ++ toString s.startOffset ++ ",\n    end: " ++ toString s.stopOffset
    ++ ",\n    as_str: " ++ quote s.text ++ ",\n\x7d"

end Span
end CallForest
