import XmlLocate.LineTable
import XmlLocate.Span

/-!
# Locations

A location is a span seen in its source text. Lines and columns are counted from 1 in the accessors
that name them, and from 0 in positions; offsets are never clamped to the text, positions are.
-/

namespace XmlLocate

structure Location where
  span : Span
  /-- The lines of the source text. -/
  lines : LineTable
  source : List Char

namespace Location

def startOffset (l : Location) : Nat := l.span.start

/-- The offset just past the construct, or the end of the text if it is unfinished. -/
def stopOffset (l : Location) : Nat := l.span.stopIn l.lines.length

def startLine (l : Location) : Nat := l.lines.lineOf l.startOffset + 1
def startColumn (l : Location) : Nat := l.lines.columnOf l.startOffset + 1
def stopLine (l : Location) : Nat := l.lines.lineOf l.stopOffset + 1
def stopColumn (l : Location) : Nat := l.lines.columnOf l.stopOffset + 1

def start (l : Location) : Position := l.lines.position l.startOffset
def stop (l : Location) : Position := l.lines.position l.stopOffset
def range (l : Location) : Range := ⟨l.start, l.stop⟩

/-- The source text of the construct; a span that lies beyond the text has none. -/
def text? (l : Location) : Option (List Char) := slice? l.source l.startOffset l.stopOffset

/-- The source text of an element's start tag. Other constructs have no head of their own and yield
their whole text. -/
def head? (l : Location) : Option (List Char) :=
  slice? l.source l.startOffset (l.span.headEndIn l.lines.length)

/-- Where the construct begins, in words. -/
def describe (l : Location) : String := s!"line {l.startLine}, column {l.startColumn}"

end Location

end XmlLocate
