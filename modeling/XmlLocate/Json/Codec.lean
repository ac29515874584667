import XmlLocate.Json.Decode
import XmlLocate.Span

/-!
# The JSON forms of positions, spans and line tables
-/

namespace XmlLocate

open Json

/-! ## Positions and ranges -/

def Position.toJson (p : Position) : Json :=
  .object [("offset", natural p.offset), ("row", natural p.row), ("column", natural p.column)]

def Position.ofJson (j : Json) : Except DecodeError Position := do
  let r ← Record.ofJson "Position" ["offset", "row", "column"] j
  r.check fun _ v => discard (decodeNatural v)
  let offset ← r.get "offset" decodeNatural
  let row ← r.get "row" decodeNatural
  let column ← r.get "column" decodeNatural
  r.close
  return { offset, row, column }

def Range.toJson (r : Range) : Json :=
  .object [("start", r.start.toJson), ("end", r.stop.toJson)]

def Range.ofJson (j : Json) : Except DecodeError Range := do
  let r ← Record.ofJson "Range" ["start", "end"] j
  r.check fun _ v => discard (Position.ofJson v)
  let start ← r.get "start" Position.ofJson
  let stop ← r.get "end" Position.ofJson
  r.close
  return { start, stop }

/-! ## Spans -/

namespace SpanKind

def tag : SpanKind → String
  | .element => "Element"
  | .processingInstruction => "ProcessingInstruction"
  | .comment => "Comment"
  | .cdataSection => "CdataSection"
  | .text => "Text"
  | .declaration => "Declaration"

def all : List SpanKind :=
  [.element, .processingInstruction, .comment, .cdataSection, .text, .declaration]

def toJson (k : SpanKind) : Json := .string k.tag

def ofTag (t : String) : Except DecodeError SpanKind :=
  match all.find? (·.tag == t) with
  | some k => .ok k
  | none => .error (.unknownVariant t (all.map tag))

/-- A kind is its tag, or an object whose only field has the tag for its name and null for its
value. -/
def ofJson : Json → Except DecodeError SpanKind
  | .string t => ofTag t
  | .object [(t, v)] => do
    let k ← ofTag t
    match v with
    | .null => return k
    | v => throw (.invalidType v.describe "unit")
  | .object _ => .error (.invalidValue "map" "map with a single key")
  | j => .error (.invalidType j.describe "string or map")

end SpanKind

def Span.toJson (s : Span) : Json :=
  .object [("sequence", natural s.sequence), ("kind", s.kind.toJson), ("start", natural s.start),
    ("head_end", natural? s.headEnd), ("end", natural? s.stop)]

def Span.ofJson (j : Json) : Except DecodeError Span := do
  let r ← Record.ofJson "SourceSpan" ["sequence", "kind", "start", "head_end", "end"] j
  r.check fun k v =>
    if k == "kind" then discard (SpanKind.ofJson v)
    else if k == "head_end" || k == "end" then discard (decodeOption decodeNatural v)
    else discard (decodeNatural v)
  let sequence ← r.get "sequence" decodeNatural
  let kind ← r.get "kind" SpanKind.ofJson
  let start ← r.get "start" decodeNatural
  let headEnd ← r.get? "head_end" decodeNatural
  let stop ← r.get? "end" decodeNatural
  r.close
  return { sequence, kind, start, headEnd, stop }

/-! ## Line tables -/

def LineTable.toJson (l : LineTable) : Json :=
  .object [("line_starts", .array (l.starts.toList.map natural)),
    ("total_length", natural l.length)]

def LineTable.ofJson (j : Json) : Except DecodeError LineTable := do
  let r ← Record.ofJson "RawLineIndex" ["line_starts", "total_length"] j
  r.check fun k v =>
    if k == "line_starts" then discard (decodeList decodeNatural v)
    else discard (decodeNatural v)
  let starts ← r.get "line_starts" (decodeList decodeNatural)
  let length ← r.get "total_length" decodeNatural
  r.close
  match ofStarts? starts length with
  | .ok l => return l
  | .error e => throw (.invalidTable e)

end XmlLocate
