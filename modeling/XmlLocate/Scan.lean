import XmlLocate.LineTable
import XmlLocate.Span
import XmlLocate.Token

/-!
# Scans

A scan finds the span of every construct of a text and the starts of its lines, in one pass over the
tokens. It does not check that the text is well-formed XML, only that start and close tags can be
paired.

**How tags pair up.** A stack holds the elements still open, innermost first. A start tag pushes its
element, a close tag ends the innermost one whatever its name. The scan fails at a close tag that
finds the stack empty, and at the end of the text if a start tag, a declaration or an element is
unfinished. Comments, CDATA sections and processing instructions may be unfinished: their span then
runs to the end of the text.
-/

namespace XmlLocate

/-! ## Failures -/

inductive ScanError.Cause where
  | unmatchedCloseTag | unterminatedElement | unterminatedDeclaration
  deriving DecidableEq, Repr

/-- Why a scan failed, and where the construct that caused it begins. -/
structure ScanError where
  cause : ScanError.Cause
  offset : Nat
  /-- Counted from 1, as is `column`. -/
  line : Nat
  column : Nat
  deriving DecidableEq, Repr

namespace ScanError

def ofOffset (lines : LineTable) (offset : Nat) (cause : Cause) : ScanError where
  cause
  offset
  line := lines.lineOf offset + 1
  column := lines.columnOf offset + 1

def message (e : ScanError) : String :=
  let place := s!"line {e.line}, column {e.column} (offset {e.offset})"
  match e.cause with
  | .unmatchedCloseTag => s!"unmatched close tag at {place}"
  | .unterminatedElement => s!"element opened at {place} is never closed"
  | .unterminatedDeclaration => s!"declaration opened at {place} is never closed"

end ScanError

/-- What succeeds in two steps succeeds in the first. -/
theorem bind_eq_ok {ε α β : Type} {x : Except ε α} {f : α → Except ε β} {b : β}
    (h : x >>= f = .ok b) : ∃ a, x = .ok a ∧ f a = .ok b := by
  cases x with
  | error e => exact absurd h (by simp [bind, Except.bind])
  | ok a => exact ⟨a, rfl, h⟩

/-! ## Spans from tokens -/

/-- The result of a scan. -/
structure Scan where
  /-- In the order of their starts. -/
  spans : Array Span
  lines : LineTable
  deriving DecidableEq

/-- What is known of a text after some of its tokens. -/
structure Assembly where
  spans : Array Span
  /-- The spans of the open elements, innermost first. -/
  opened : List Span
  /-- The lines of the text so far. -/
  lines : LineTable

namespace Assembly

def empty : Assembly := ⟨#[], [], .empty⟩

/-- The offset at which the next token begins. -/
def offset (a : Assembly) : Nat := a.lines.length

/-- The next span, which begins where the next token does. -/
def span (a : Assembly) (kind : SpanKind) (headEnd stop : Option Nat) : Span :=
  ⟨a.spans.size, kind, a.offset, headEnd, stop⟩

def push (a : Assembly) (s : Span) : Assembly := { a with spans := a.spans.push s }

/-- Ends the innermost open element `s`, which leaves those in `outer` open. -/
def pop (a : Assembly) (s : Span) (outer : List Span) (stop : Nat) : Assembly :=
  { a with
    spans := a.spans.setIfInBounds s.sequence { s with stop := some stop }
    opened := outer }

/-- Records the span of a token that ends at `stop`, if it has one, and pairs tags. -/
def record (a : Assembly) (t : Token) (stop : Nat) : Except ScanError Assembly :=
  let stop? := if t.complete then some stop else none
  match t.form with
  | .text => .ok (if t.complete then a.push (a.span .text none stop?) else a)
  | .comment => .ok (a.push (a.span .comment none stop?))
  | .cdata => .ok (a.push (a.span .cdataSection none stop?))
  | .instruction => .ok (a.push (a.span .processingInstruction none stop?))
  | .declaration =>
    if t.complete then .ok (a.push (a.span .declaration none stop?))
    else .error (.ofOffset a.lines a.offset .unterminatedDeclaration)
  | .emptyTag => .ok (a.push (a.span .element stop? stop?))
  | .startTag =>
    if t.complete then
      let s := a.span .element stop? none
      .ok { a with spans := a.spans.push s, opened := s :: a.opened }
    else .error (.ofOffset a.lines a.offset .unterminatedElement)
  | .closeTag =>
    match a.opened with
    | [] => .error (.ofOffset a.lines a.offset .unmatchedCloseTag)
    | s :: outer => .ok (if t.complete then a.pop s outer stop else a)

/-- Reads the next token. -/
def step (a : Assembly) (t : Token) : Except ScanError Assembly := do
  let a ← a.record t (a.offset + byteLength t.text)
  return { a with lines := a.lines.extend t.text }

/-- The scan of a text all of whose tokens were read. -/
def finish (a : Assembly) : Except ScanError Scan :=
  match a.opened with
  | [] => .ok ⟨a.spans, a.lines⟩
  | s :: _ => .error (.ofOffset a.lines s.start .unterminatedElement)

end Assembly

/-- Finds the spans and the lines of a source text. -/
def scan (source : List Char) : Except ScanError Scan := do
  let a ← (Token.lex source).foldlM Assembly.step .empty
  a.finish

end XmlLocate
