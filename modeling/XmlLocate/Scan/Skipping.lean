import XmlLocate.Scan.Stepwise

/-!
# Scans that skip

Of the characters of a text most change nothing but the offset. This scan runs the automaton of
`Scan/Stepwise` and goes at once to the next character that its mode reacts to, or to the next line
terminator. In a tag or a declaration it looks at every character, except that it passes a comment or
a processing instruction within brackets in one go, to its end or the end of the text, and then
records the line starts it has passed.
-/

namespace XmlLocate

/-- The character that a mode reacts to, unless it looks at all of them. -/
def Mode.stop? : Mode → Option Char
  | .content => some '<'
  | .quoted quote => some quote
  | .comment => some '-'
  | .cdata => some ']'
  | .instruction => some '?'
  | .closeTag | .head | .nestedComment | .nestedInstruction => none

/-- A mode that reacts to `stop` passes the character. -/
def isInert (stop c : Char) : Bool := c != stop && c != '\n' && c != '\r'

namespace Machine

/-- Goes to the next character that matters. -/
def skipInert (m : Machine) (t : List Char) : Machine × List Char :=
  match m.mode.stop? with
  | none => (m, t)
  | some stop => (m.pass (t.takeWhile (isInert stop)), t.dropWhile (isInert stop))

/-- What begins the text `t` within the brackets of a declaration, if it can be passed in one go. -/
def block? (m : Machine) (t : List Char) : Option Opening :=
  if m.mode = .head ∧ 0 < m.depth then
    if Opening.comment.mark <+: t then some .comment
    else if Opening.instruction.mark <+: t then some .instruction
    else none
  else none

/-- Passes what is opened with `o` at the beginning of the text `t`. -/
def skipBlock (m : Machine) (o : Opening) (t : List Char) : Machine × List Char :=
  match splitAround o.close (t.drop o.mark.length) with
  | some (a, b) => (m.pass (o.mark ++ a ++ o.close), b)
  | none => (m.pass t, [])

/-- Reads the next character or block of a text. -/
def stepSkipping (m : Machine) (t : List Char) : Except ScanError (Machine × List Char) :=
  match m.block? t with
  | some o => .ok (m.skipBlock o t)
  | none => m.step t

theorem length_skipInert (m : Machine) (t : List Char) : (m.skipInert t).2.length ≤ t.length := by
  unfold skipInert
  split
  · exact Nat.le_refl _
  · exact (List.dropWhile_suffix _).length_le

theorem length_skipBlock (m : Machine) (o : Opening) (c : Char) (t : List Char) :
    (m.skipBlock o (c :: t)).2.length ≤ t.length := by
  have hmark := o.length_mark_pos
  unfold skipBlock
  split
  · rename_i a b hs
    have := length_splitAround hs
    rw [List.length_drop, List.length_cons] at this
    show b.length ≤ t.length
    omega
  · exact Nat.zero_le _

theorem length_stepSkipping {m m' : Machine} {c : Char} {t rest : List Char}
    (h : m.stepSkipping (c :: t) = .ok (m', rest)) : rest.length ≤ t.length := by
  unfold stepSkipping at h
  split at h
  · rename_i o _
    have := length_skipBlock m o c t
    rwa [Except.ok.inj h] at this
  · exact length_step h

/-- Reads the rest of a text. -/
def runSkipping (m : Machine) (t : List Char) : Except ScanError Scan :=
  match hs : m.skipInert t with
  | (m₁, []) => m₁.finish
  | (m₁, c :: u) =>
    match h : m₁.stepSkipping (c :: u) with
    | .error e => .error e
    | .ok (m₂, rest) =>
      have : rest.length < t.length := by
        have h₁ := length_stepSkipping h
        have h₂ := length_skipInert m t
        rw [hs, List.length_cons] at h₂
        omega
      m₂.runSkipping rest
termination_by t.length

end Machine

/-- Finds the spans and the lines of a source text, without a look at the characters that change
nothing. -/
def scanSkipping (source : List Char) : Except ScanError Scan := Machine.empty.runSkipping source

end XmlLocate
