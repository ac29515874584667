/-!
# Spans

A span is what a scan records of one construct of a text: its kind and the byte offsets where it
begins and ends.
-/

namespace XmlLocate

inductive SpanKind where
  /-- `<tag>…</tag>` or `<tag/>` -/
  | element
  /-- `<?target …?>` -/
  | processingInstruction
  /-- `<!--…-->` -/
  | comment
  /-- `<![CDATA[…]]>` -/
  | cdataSection
  /-- A run of characters before a `<`. -/
  | text
  /-- `<!NAME …>`, such as a document type. -/
  | declaration
  deriving DecidableEq, Repr

/-- The name of a kind in listings. -/
def SpanKind.label : SpanKind → String
  | .element => "element"
  | .processingInstruction => "processing-instruction"
  | .comment => "comment"
  | .cdataSection => "cdata"
  | .text => "text"
  | .declaration => "declaration"

structure Span where
  /-- The rank in the order of the scan. -/
  sequence : Nat
  kind : SpanKind
  /-- The offset of the first character. -/
  start : Nat
  /-- The offset just past an element's start tag; other kinds have none. -/
  headEnd : Option Nat
  /-- The offset just past the construct; without one it runs to the end of the text. -/
  stop : Option Nat
  deriving DecidableEq, Repr

namespace Span

/-- An element written as `<tag/>`, whose start tag is all of it. -/
def isSelfClosing (s : Span) : Bool :=
  s.kind == .element && s.headEnd.isSome && s.headEnd == s.stop

/-- The end of the span in a text of the given length. -/
def stopIn (s : Span) (length : Nat) : Nat := s.stop.getD length

/-- The end of the start tag, or of the whole span if it has none. -/
def headEndIn (s : Span) (length : Nat) : Nat := s.headEnd.getD (s.stopIn length)

/-- Whether an offset of a text of the given length lies in the span. -/
def encloses (s : Span) (offset length : Nat) : Bool :=
  decide (s.start ≤ offset) && decide (offset < s.stopIn length)

end Span

end XmlLocate
