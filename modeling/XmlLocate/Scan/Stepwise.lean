import XmlLocate.Scan

/-!
# Scans, one character at a time

An automaton that scans a text without looking for the end of anything. Its mode says what the next
character stands in; each step reads one character, or one of the few groups that belong together: a
pair of carriage return and line feed, an opening mark, a closing delimiter.

It gives the spans and lines that `scan` gives, or the same failure, and holds between two steps all
that is known of the text so far.
-/

namespace XmlLocate

/-- What the next character stands in. -/
inductive Mode where
  | content
  | closeTag
  /-- A start tag or a declaration. -/
  | head
  | quoted (quote : Char)
  /-- A comment within the brackets of a declaration. -/
  | nestedComment
  /-- A processing instruction within the brackets of a declaration. -/
  | nestedInstruction
  | comment
  | cdata
  | instruction
  deriving DecidableEq, Repr

structure Machine where
  mode : Mode
  /-- Where the run of text begins that may end at the next `<`. -/
  textStart : Nat
  /-- Where the last markup begins. -/
  markupStart : Nat
  /-- The index of the span that is being read, but for close tags. -/
  current : Option Nat
  /-- The depth of brackets in a declaration. -/
  depth : Nat
  /-- The indexes of the open elements, innermost first. -/
  opened : List Nat
  spans : Array Span
  /-- The lines of the text so far. -/
  lines : LineTable

namespace Machine

def empty : Machine := ⟨.content, 0, 0, none, 0, [], #[], .empty⟩

/-- The offset of the next character. -/
def offset (m : Machine) : Nat := m.lines.length

/-- Moves on behind the characters `t`. -/
def pass (m : Machine) (t : List Char) : Machine := { m with lines := m.lines.extend t }

def push (m : Machine) (kind : SpanKind) (start : Nat) (stop : Option Nat) : Machine :=
  { m with spans := m.spans.push ⟨m.spans.size, kind, start, none, stop⟩ }

def modify (m : Machine) (index : Nat) (f : Span → Span) : Machine :=
  { m with spans := m.spans.modify index f }

/-- The kind of the span that is being read. -/
def currentKind? (m : Machine) : Option SpanKind :=
  (m.current.bind (m.spans[·]?)).map Span.kind

def toContent (m : Machine) : Machine :=
  { m with mode := .content, textStart := m.offset, current := none }

/-- The kind and the mode of what a mark opens. -/
def kindAndMode : Opening → SpanKind × Mode
  | .closeTag => (.element, .closeTag)
  | .instruction => (.processingInstruction, .instruction)
  | .comment => (.comment, .comment)
  | .cdata => (.cdataSection, .cdata)
  | .declaration => (.declaration, .head)
  | .startTag => (.element, .head)

/-- Opens the markup at the `<` that begins the text `t`. -/
def openMarkup (m : Machine) (t : List Char) : Machine :=
  let start := m.offset
  let m := if m.textStart < start then m.push .text m.textStart (some start) else m
  let o := Opening.ofText t
  let (kind, mode) := kindAndMode o
  if o = .closeTag then { m with markupStart := start, mode }.pass o.mark
  else
    let m := { m with markupStart := start, mode, depth := 0, current := some m.spans.size }
    (m.push kind start none).pass o.mark

/-- Passes the delimiter `t` that ends the span that is being read. -/
def endSpan (m : Machine) (t : List Char) : Machine :=
  let m := m.pass t
  let stop := some m.offset
  match m.current with
  | some i => (m.modify i ({ · with stop })).toContent
  | none => m.toContent

/-- Passes the `/>` of an element without content. -/
def endEmptyTag (m : Machine) : Machine :=
  let m := m.pass ['/', '>']
  let stop := some m.offset
  match m.current with
  | some i => (m.modify i ({ · with headEnd := stop, stop })).toContent
  | none => m.toContent

/-- Passes the `>` of a start tag or a declaration. -/
def endHead (m : Machine) : Machine :=
  if m.currentKind? = some .element then
    let m := m.pass ['>']
    let headEnd := some m.offset
    match m.current with
    | some i => { (m.modify i ({ · with headEnd })).toContent with opened := i :: m.opened }
    | none => m.toContent
  else m.endSpan ['>']

/-- Passes the `>` of a close tag. -/
def endCloseTag (m : Machine) : Except ScanError Machine :=
  match m.opened with
  | [] => .error (.ofOffset m.lines m.markupStart .unmatchedCloseTag)
  | i :: outer =>
    let m := m.pass ['>']
    let stop := some m.offset
    .ok { (m.modify i ({ · with stop })).toContent with opened := outer }

/-- Reads a character in a start tag or a declaration, with `t` behind it. -/
def stepHead (m : Machine) (c : Char) (t : List Char) : Machine × List Char :=
  if isQuote c then ({ m with mode := .quoted c }.pass [c], t)
  else if c = '/' ∧ m.currentKind? = some .element ∧ t.head? = some '>' then
    (m.endEmptyTag, t.drop 1)
  else if m.currentKind? = some .declaration ∧ (c = '[' ∨ c = ']') then
    ({ m with depth := depthAfter m.depth c }.pass [c], t)
  else if c = '>' ∧ m.depth = 0 then (m.endHead, t)
  else if 0 < m.depth ∧ Opening.comment.mark <+: c :: t then
    ({ m with mode := .nestedComment }.pass Opening.comment.mark, t.drop 3)
  else if 0 < m.depth ∧ Opening.instruction.mark <+: c :: t then
    ({ m with mode := .nestedInstruction }.pass Opening.instruction.mark, t.drop 1)
  else (m.pass [c], t)

/-- Ends the span that is being read if the delimiter `o` closes with comes next, or reads a
character. -/
def stepTo (m : Machine) (o : Opening) (c : Char) (t : List Char) : Machine × List Char :=
  if o.close <+: c :: t then (m.endSpan o.close, (c :: t).drop o.close.length)
  else (m.pass [c], t)

/-- Goes back to a declaration if the delimiter `o` closes with comes next, or reads a character. -/
def stepNested (m : Machine) (o : Opening) (c : Char) (t : List Char) : Machine × List Char :=
  if o.close <+: c :: t then ({ m with mode := .head }.pass o.close, (c :: t).drop o.close.length)
  else (m.pass [c], t)

/-- Reads a character that ends no line, with `t` behind it. -/
def stepChar (m : Machine) (c : Char) (t : List Char) : Except ScanError (Machine × List Char) :=
  match m.mode with
  | .content =>
    if c = '<' then
      .ok (m.openMarkup (c :: t), (c :: t).drop (Opening.ofText (c :: t)).mark.length)
    else .ok (m.pass [c], t)
  | .closeTag => if c = '>' then (·, t) <$> m.endCloseTag else .ok (m.pass [c], t)
  | .head => .ok (m.stepHead c t)
  | .quoted q => .ok (if c = q then { m with mode := .head }.pass [c] else m.pass [c], t)
  | .nestedComment => .ok (m.stepNested .comment c t)
  | .nestedInstruction => .ok (m.stepNested .instruction c t)
  | .comment => .ok (m.stepTo .comment c t)
  | .cdata => .ok (m.stepTo .cdata c t)
  | .instruction => .ok (m.stepTo .instruction c t)

/-- Reads the next character of a text. -/
def step (m : Machine) : List Char → Except ScanError (Machine × List Char)
  | [] => .ok (m, [])
  | '\r' :: '\n' :: t => .ok (m.pass ['\r', '\n'], t)
  | c :: t => if c = '\n' ∨ c = '\r' then .ok (m.pass [c], t) else m.stepChar c t

/-- The scan of a text that was read to its end. -/
def finish (m : Machine) : Except ScanError Scan :=
  let start (i : Nat) : Nat := (m.spans[i]?.map Span.start).getD 0
  let inHead := match m.mode with
    | .head | .quoted _ | .nestedComment | .nestedInstruction => m.current
    | _ => none
  match inHead, m.opened with
  | some i, _ =>
    .error (.ofOffset m.lines (start i)
      (if m.currentKind? = some .declaration then .unterminatedDeclaration
        else .unterminatedElement))
  | none, [] =>
    if m.mode = .closeTag then .error (.ofOffset m.lines m.markupStart .unmatchedCloseTag)
    else .ok ⟨m.spans, m.lines⟩
  | none, i :: _ => .error (.ofOffset m.lines (start i) .unterminatedElement)

/-! ## Every step gets on -/

theorem length_stepTo (m : Machine) (o : Opening) (c : Char) (t : List Char) :
    (m.stepTo o c t).2.length ≤ t.length := by
  have := o.length_close_pos
  unfold stepTo
  split
  · rw [List.length_drop, List.length_cons]
    omega
  · exact Nat.le_refl _

theorem length_stepNested (m : Machine) (o : Opening) (c : Char) (t : List Char) :
    (m.stepNested o c t).2.length ≤ t.length := by
  have := o.length_close_pos
  unfold stepNested
  split
  · rw [List.length_drop, List.length_cons]
    omega
  · exact Nat.le_refl _

theorem length_stepHead (m : Machine) (c : Char) (t : List Char) :
    (m.stepHead c t).2.length ≤ t.length := by
  unfold stepHead
  repeat' split
  all_goals simp

theorem length_stepChar {m m' : Machine} {c : Char} {t rest : List Char}
    (h : m.stepChar c t = .ok (m', rest)) : rest.length ≤ t.length := by
  unfold stepChar at h
  split at h
  case h_1 =>
    split at h
    · obtain ⟨-, rfl⟩ := Prod.mk.inj (Except.ok.inj h)
      have := (Opening.ofText (c :: t)).length_mark_pos
      rw [List.length_drop, List.length_cons]
      omega
    · obtain ⟨-, rfl⟩ := Prod.mk.inj (Except.ok.inj h)
      exact Nat.le_refl _
  case h_2 =>
    split at h
    · cases hm : m.endCloseTag with
      | error e => simp [hm, Functor.map, Except.map] at h
      | ok m'' =>
        simp only [hm, Functor.map, Except.map] at h
        obtain ⟨-, rfl⟩ := Prod.mk.inj (Except.ok.inj h)
        exact Nat.le_refl _
    · obtain ⟨-, rfl⟩ := Prod.mk.inj (Except.ok.inj h)
      exact Nat.le_refl _
  case h_3 =>
    have := length_stepHead m c t
    rwa [Except.ok.inj h] at this
  case h_4 =>
    obtain ⟨-, rfl⟩ := Prod.mk.inj (Except.ok.inj h)
    exact Nat.le_refl _
  case h_5 =>
    have := length_stepNested m .comment c t
    rwa [Except.ok.inj h] at this
  case h_6 =>
    have := length_stepNested m .instruction c t
    rwa [Except.ok.inj h] at this
  case h_7 =>
    have := length_stepTo m .comment c t
    rwa [Except.ok.inj h] at this
  case h_8 =>
    have := length_stepTo m .cdata c t
    rwa [Except.ok.inj h] at this
  case h_9 =>
    have := length_stepTo m .instruction c t
    rwa [Except.ok.inj h] at this

theorem length_step {m m' : Machine} {c : Char} {t rest : List Char}
    (h : m.step (c :: t) = .ok (m', rest)) : rest.length ≤ t.length := by
  unfold step at h
  split at h
  · exact absurd ‹c :: t = []› (by simp)
  · rename_i t' he
    obtain ⟨-, rfl⟩ := Prod.mk.inj (Except.ok.inj h)
    rw [(List.cons.inj he).2]
    simp
  · rename_i c' t' _ he
    obtain ⟨rfl, rfl⟩ := List.cons.inj he
    split at h
    · obtain ⟨-, rfl⟩ := Prod.mk.inj (Except.ok.inj h)
      exact Nat.le_refl _
    · exact length_stepChar h

/-- Reads the rest of a text. -/
def run (m : Machine) (t : List Char) : Except ScanError Scan :=
  match t with
  | [] => m.finish
  | c :: t =>
    match h : m.step (c :: t) with
    | .error e => .error e
    | .ok (m, rest) =>
      have := length_step h
      m.run rest
termination_by t.length
decreasing_by simp only [List.length_cons]; omega

end Machine

/-- Finds the spans and the lines of a source text, one character at a time. -/
def scanStepwise (source : List Char) : Except ScanError Scan := Machine.empty.run source

end XmlLocate
