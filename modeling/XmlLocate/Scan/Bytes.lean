import XmlLocate.Scan

/-!
# Scans of bytes

A scan of the UTF-8 form of a text. What it does next depends on its state and on the byte at `pos`, and
no part of the text is taken apart: a scanner holds offsets into the bytes and indexes of spans, and has
as its stack of open elements a list of such indexes.

**Every access is checked.** An offset or an index may be out of range, and line starts may be no table.
Then the scan is `broken`, which is no failure of the text.

**Every turn gets on,** whatever the bytes are (`Scan/Bytes/Turns`), and no access is out of range
(`Proofs/ScannerProgress`). Of the UTF-8 form of a text the scan is that of the text
(`Proofs/BytewiseScan`).
-/

namespace XmlLocate

/-- Why a scan of bytes gives no spans. -/
inductive Fault where
  | failure (e : ScanError)
  /-- An access was out of range, or the line starts are no table. -/
  | broken
  deriving DecidableEq, Repr

def Fault.require {α : Type} : Option α → Except Fault α
  | some a => .ok a
  | none => .error .broken

/-! ## Bytes -/

/-- The bytes of ASCII characters. -/
def asciiBytes (t : List Char) : List UInt8 := t.map Char.toUInt8

def endsLine (b : UInt8) : Bool := b == '\n'.toUInt8 || b == '\r'.toUInt8

/-- The bytes from an offset on. -/
def bytesFrom? (bytes : List UInt8) (start : Nat) : Option (List UInt8) :=
  if start ≤ bytes.length then some (bytes.drop start) else none

/-- The bytes between two offsets. -/
def bytesBetween? (bytes : List UInt8) (start stop : Nat) : Option (List UInt8) :=
  if start ≤ stop ∧ stop ≤ bytes.length then some ((bytes.drop start).take (stop - start)) else none

/-- Where `mark` stands first. -/
def findBytes? (mark : List UInt8) : List UInt8 → Option Nat
  | [] => none
  | b :: t => if mark.isPrefixOf (b :: t) then some 0 else (findBytes? mark t).map (· + 1)

/-- Where the line behind the terminator at `pos` begins. -/
def lineBehind (bytes : List UInt8) (pos : Nat) (b : UInt8) : Nat :=
  if b = '\r'.toUInt8 ∧ bytes[pos + 1]? = some '\n'.toUInt8 then pos + 2 else pos + 1

/-- Goes on from `pos` to the last line that begins up to `target`, and records the lines that begin
on the way. -/
def passLines (bytes : List UInt8) (target pos : Nat) (starts : Array Nat) :
    Except Fault (Nat × Array Nat) :=
  match hpart : bytesBetween? bytes pos target with
  | none => .error .broken
  | some part =>
    match hfound : part.findIdx? endsLine with
    | none => .ok (pos, starts)
    | some found =>
      match bytes[pos + found]? with
      | none => .error .broken
      | some b =>
        have : target - lineBehind bytes (pos + found) b < target - pos := by
          have hle : pos + found + 1 ≤ lineBehind bytes (pos + found) b := by
            unfold lineBehind
            split <;> omega
          have hlt := (List.findIdx?_eq_some_iff_findIdx_eq.mp hfound).1
          unfold bytesBetween? at hpart
          split at hpart
          · obtain rfl := Option.some.inj hpart
            rw [List.length_take, List.length_drop] at hlt
            omega
          · cases hpart
        let next := lineBehind bytes (pos + found) b
        passLines bytes target next (starts.push next)
termination_by target - pos

/-! ## States -/

/-- What the next byte stands in. -/
inductive ScanState where
  | content
  /-- A start tag or a declaration. -/
  | head
  | closeTag
  | singleQuoted
  | doubleQuoted
  | comment
  | cdata
  | instruction
  deriving DecidableEq, Repr

namespace ScanState

/-- The byte that a state reacts to, unless it looks at all of them. -/
def stop? : ScanState → Option UInt8
  | content => some '<'.toUInt8
  | singleQuoted => some '\''.toUInt8
  | doubleQuoted => some '"'.toUInt8
  | comment => some '-'.toUInt8
  | cdata => some ']'.toUInt8
  | instruction => some '?'.toUInt8
  | head | closeTag => none

/-- Whether a start tag or a declaration is read in the state. -/
def inHead : ScanState → Bool
  | head | singleQuoted | doubleQuoted => true
  | _ => false

/-- What is read in the state, if it ends with a delimiter of its own. -/
def body? : ScanState → Option Opening
  | comment => some .comment
  | cdata => some .cdata
  | instruction => some .instruction
  | _ => none

end ScanState

/-- The indexes of the open elements, innermost first. The last entry means that no element is open and
is never removed. -/
structure OpenStack where
  entries : List (Option Nat)
  deriving DecidableEq, Repr

namespace OpenStack

def empty : OpenStack := ⟨[none]⟩

def push (s : OpenStack) (index : Nat) : OpenStack := ⟨some index :: s.entries⟩

def isBalanced (s : OpenStack) : Bool := s.entries.length == 1

/-- The innermost open element, and what is left without it. -/
def pop (s : OpenStack) : Option Nat × OpenStack :=
  if s.isBalanced then (none, s) else (s.entries.head?.join, ⟨s.entries.tail⟩)

def peek (s : OpenStack) : Option Nat := s.entries.head?.join

end OpenStack

structure Scanner where
  pos : Nat
  state : ScanState
  /-- Where the run of text begins that may end at the next `<`. -/
  textStart : Nat
  /-- Where the last markup begins. -/
  markupStart : Nat
  /-- The index of the span that is being read, but for close tags. -/
  current : Option Nat
  /-- The depth of brackets in a declaration. -/
  depth : Nat
  opened : OpenStack
  spans : Array Span
  lineStarts : Array Nat

namespace Scanner

def empty : Scanner := ⟨0, .content, 0, 0, none, 0, .empty, #[], #[0]⟩

variable (bytes : List UInt8)

def peek (σ : Scanner) (ahead : Nat) : Option UInt8 := bytes[σ.pos + ahead]?

/-- Whether ASCII characters come next. -/
def lookahead (σ : Scanner) (t : List Char) : Except Fault Bool := do
  let rest ← Fault.require (bytesFrom? bytes σ.pos)
  return (asciiBytes t).isPrefixOf rest

def advance (σ : Scanner) (n : Nat) : Scanner := { σ with pos := σ.pos + n }

def shift (σ : Scanner) (state : ScanState) : Scanner := { σ with state, pos := σ.pos + 1 }

def pushSpan (σ : Scanner) (kind : SpanKind) (start : Nat) (stop : Option Nat) : Scanner :=
  { σ with spans := σ.spans.push ⟨σ.spans.size, kind, start, none, stop⟩ }

def modifySpan (σ : Scanner) (index : Nat) (f : Span → Span) : Except Fault Scanner := do
  let s ← Fault.require σ.spans[index]?
  return { σ with spans := σ.spans.setIfInBounds index (f s) }

/-- The kind of the span that is being read. -/
def currentKind? (σ : Scanner) : Except Fault (Option SpanKind) :=
  match σ.current with
  | none => .ok none
  | some i => do
    let s ← Fault.require σ.spans[i]?
    return some s.kind

/-- The lines that were recorded. -/
def table (σ : Scanner) : Except Fault LineTable :=
  (LineTable.ofStarts? σ.lineStarts.toList bytes.length).mapError fun _ => .broken

/-- A failure at the construct that begins at an offset. -/
def fail {α : Type} (σ : Scanner) (offset : Nat) (cause : ScanError.Cause) : Except Fault α := do
  let lines ← σ.table bytes
  throw (.failure (.ofOffset lines offset cause))

/-! ## Jumps -/

/-- Goes to the next byte that matters, and tells whether there is one. -/
def skipInert (σ : Scanner) : Except Fault (Scanner × Bool) := do
  let rest ← Fault.require (bytesFrom? bytes σ.pos)
  match σ.state.stop? with
  | none => return (σ, !rest.isEmpty)
  | some stop =>
    match rest.findIdx? fun b => b == stop || endsLine b with
    | some skip => return (σ.advance skip, true)
    | none => return ({ σ with pos := bytes.length }, false)

/-- Goes to an offset further on. -/
def skipTo (σ : Scanner) (target : Nat) : Except Fault Scanner := do
  let (pos, lineStarts) ← passLines bytes target σ.pos σ.lineStarts
  return { σ with pos := max pos target, lineStarts }

/-- Goes behind what `o` opens here, or to the end of the text. -/
def skipBlock (σ : Scanner) (o : Opening) : Except Fault Scanner := do
  let start := σ.pos + o.mark.length
  let rest ← Fault.require (bytesFrom? bytes start)
  match findBytes? (asciiBytes o.close) rest with
  | some found => σ.skipTo bytes (start + found + o.close.length)
  | none => σ.skipTo bytes bytes.length

/-- Goes behind a comment or a processing instruction within the brackets of a declaration. -/
def skipSubsetMarkup (σ : Scanner) : Except Fault Scanner := do
  if ← σ.lookahead bytes Opening.comment.mark then σ.skipBlock bytes .comment
  else if ← σ.lookahead bytes Opening.instruction.mark then σ.skipBlock bytes .instruction
  else return σ.advance 1

/-! ## Markup -/

/-- What a `<` opens that stands before these bytes. -/
def openingOf (rest : List UInt8) : Opening :=
  if rest.head? = some '/'.toUInt8 then .closeTag
  else if rest.head? = some '?'.toUInt8 then .instruction
  else if (asciiBytes ['!', '-', '-']).isPrefixOf rest then .comment
  else if (asciiBytes ['!', '[', 'C', 'D', 'A', 'T', 'A', '[']).isPrefixOf rest then .cdata
  else if rest.head? = some '!'.toUInt8 then .declaration
  else .startTag

/-- The kind of the span of what a mark opens, and the state in which it is read. -/
def kindAndState : Opening → SpanKind × ScanState
  | .closeTag => (.element, .closeTag)
  | .instruction => (.processingInstruction, .instruction)
  | .comment => (.comment, .comment)
  | .cdata => (.cdataSection, .cdata)
  | .declaration => (.declaration, .head)
  | .startTag => (.element, .head)

/-- Records the run of text that ends here, unless it is empty. -/
def endText (σ : Scanner) : Scanner :=
  if σ.textStart < σ.pos then σ.pushSpan .text σ.textStart (some σ.pos) else σ

/-- Reads the mark at a `<`. -/
def beginMarkup (σ : Scanner) : Except Fault Scanner := do
  let rest ← Fault.require (bytesFrom? bytes (σ.pos + 1))
  let o := openingOf rest
  let (kind, state) := kindAndState o
  let text := σ.endText
  let σ' := { text with markupStart := σ.pos, state, pos := σ.pos + o.mark.length }
  if o = .closeTag then return σ'
  else return { σ' with current := some text.spans.size, depth := 0 }.pushSpan kind σ.pos none

/-- Goes behind the delimiter of the given length, which ends the span that is being read or its head,
and back to content. -/
def endSpan (σ : Scanner) (length : Nat) (f : Nat → Span → Span) : Except Fault Scanner :=
  let stop := σ.pos + length
  let behind := { σ with pos := stop, state := .content, textStart := stop, current := none }
  match σ.current with
  | some i => behind.modifySpan i (f stop)
  | none => .ok behind

/-- Ends a comment, a CDATA section, a processing instruction or a declaration. -/
def endConstruct (σ : Scanner) (length : Nat) : Except Fault Scanner :=
  σ.endSpan length fun stop s => { s with stop := some stop }

/-- Reads the `/>` of an element without content. -/
def endEmptyTag (σ : Scanner) : Except Fault Scanner :=
  σ.endSpan 2 fun stop s => { s with headEnd := some stop, stop := some stop }

/-- Reads the `>` of a start tag or a declaration. -/
def endHead (σ : Scanner) : Except Fault Scanner := do
  if (← σ.currentKind?) = some .element then
    let behind ← σ.endSpan 1 fun stop s => { s with headEnd := some stop }
    match σ.current with
    | some i => return { behind with opened := behind.opened.push i }
    | none => return behind
  else σ.endConstruct 1

/-- Reads the `>` of a close tag. -/
def endCloseTag (σ : Scanner) : Except Fault Scanner :=
  let σ := σ.advance 1
  match σ.opened.pop with
  | (none, _) => σ.fail bytes σ.markupStart .unmatchedCloseTag
  | (some i, outer) =>
    { σ with opened := outer, state := .content, textStart := σ.pos }.modifySpan i
      fun s => { s with stop := some σ.pos }

/-! ## Turns -/

/-- Reacts to a byte in a start tag or a declaration. -/
def stepHead (σ : Scanner) (b : UInt8) : Except Fault Scanner := do
  let kind ← σ.currentKind?
  if b = '"'.toUInt8 then return σ.shift .doubleQuoted
  else if b = '\''.toUInt8 then return σ.shift .singleQuoted
  else if b = '/'.toUInt8 ∧ kind = some .element ∧ σ.peek bytes 1 = some '>'.toUInt8 then
    σ.endEmptyTag
  else if b = '['.toUInt8 ∧ kind = some .declaration then
    return { σ with depth := σ.depth + 1 }.advance 1
  else if b = ']'.toUInt8 ∧ kind = some .declaration then
    return { σ with depth := σ.depth - 1 }.advance 1
  else if b = '<'.toUInt8 ∧ 0 < σ.depth then σ.skipSubsetMarkup bytes
  else if b = '>'.toUInt8 ∧ σ.depth = 0 then σ.endHead
  else return σ.advance 1

/-- Ends the span that is being read if the delimiter `o` closes with comes next. -/
def stepTo (σ : Scanner) (o : Opening) : Except Fault Scanner := do
  if ← σ.lookahead bytes o.close then σ.endConstruct o.close.length
  else return σ.advance 1

/-- Reacts to a byte that ends no line. -/
def step (σ : Scanner) (b : UInt8) : Except Fault Scanner :=
  match σ.state with
  | .content => if b = '<'.toUInt8 then σ.beginMarkup bytes else .ok (σ.advance 1)
  | .head => σ.stepHead bytes b
  | .closeTag => if b = '>'.toUInt8 then σ.endCloseTag bytes else .ok (σ.advance 1)
  | .singleQuoted => .ok (if b = '\''.toUInt8 then σ.shift .head else σ.advance 1)
  | .doubleQuoted => .ok (if b = '"'.toUInt8 then σ.shift .head else σ.advance 1)
  | .comment => σ.stepTo bytes .comment
  | .cdata => σ.stepTo bytes .cdata
  | .instruction => σ.stepTo bytes .instruction

/-- Reacts to the next byte. -/
def react (σ : Scanner) : Except Fault Scanner := do
  let b ← Fault.require bytes[σ.pos]?
  if endsLine b then
    let next := lineBehind bytes σ.pos b
    return { σ with pos := next, lineStarts := σ.lineStarts.push next }
  else σ.step bytes b

/-- The scan of bytes that were read to their end. -/
def finish (σ : Scanner) : Except Fault Scan := do
  let inHead := if σ.state.inHead then σ.current else none
  if σ.state = .closeTag ∧ σ.opened.isBalanced then σ.fail bytes σ.markupStart .unmatchedCloseTag
  else
    let lines ← σ.table bytes
    match inHead, σ.opened.peek with
    | some i, _ =>
      let s ← Fault.require σ.spans[i]?
      σ.fail bytes s.start
        (if s.kind = .declaration then .unterminatedDeclaration else .unterminatedElement)
    | none, some i =>
      let s ← Fault.require σ.spans[i]?
      σ.fail bytes s.start .unterminatedElement
    | none, none => return ⟨σ.spans, lines⟩

end Scanner

end XmlLocate
