import XmlLocate.Correlation
import XmlLocate.Location
import XmlLocate.Scan
import XmlLocate.Text.Escape

/-!
# Located texts

A located text is a scanned source text together with the bindings of a tree's nodes to its spans.
It answers where the spans and the nodes are.
-/

namespace XmlLocate

structure LocatedText where
  source : List Char
  spans : Array Span
  lines : LineTable
  bindings : Bindings

namespace LocatedText

/-- Scans a text and binds no tree to it. -/
def ofSource (source : List Char) : Except ScanError LocatedText := do
  let s ← scan source
  return ⟨source, s.spans, s.lines, ∅⟩

/-- Scans a text and binds the nodes of a tree to it. A node without a span is no failure: it has no
location. -/
def ofOutline (source : List Char) (o : Outline) : Except ScanError LocatedText := do
  let s ← scan source
  return ⟨source, s.spans, s.lines, correlate o s.spans⟩

/-- The location of the span with a given index. -/
def spanLocation? (t : LocatedText) (index : Nat) : Option Location :=
  t.spans[index]?.map (⟨·, t.lines, t.source⟩)

/-- The location of the node with a given identity. -/
def location? (t : LocatedText) (id : Nat) : Option Location :=
  t.bindings[id]?.bind t.spanLocation?

def isBound (t : LocatedText) (id : Nat) : Bool := t.bindings.contains id

def boundCount (t : LocatedText) : Nat := t.bindings.size

/-! ## Listings -/

/-- What a listing tells of a span: its index and kind, where it begins, and its text or the text of
its start tag, escaped so that it stays on the line. -/
def listingLine (index : Nat) (l : Location) : String :=
  let head := String.ofList (escape (l.head?.getD []))
  s!"{index}: {l.span.kind.label} {l.describe} [{head}]"

/-- A line for each span, in order. -/
def listing (t : LocatedText) : String :=
  let lines := t.spans.toList.zipIdx.map fun (s, i) =>
    listingLine i ⟨s, t.lines, t.source⟩ ++ "\n"
  String.join lines

end LocatedText

end XmlLocate
