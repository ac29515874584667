import XmlLocate.Text.Bytes
import XmlLocate.Text.Digits

/-!
# References

In text and attribute values `&` begins a reference: `&lt;` and four more stand for the characters
that markup is made of, and `&#…;` stands for a character by its code point. Resolving a text
replaces its references from left to right and fails at the first that is wrong.
-/

namespace XmlLocate

/-- What can be wrong with the number of a character. -/
inductive NumberProblem where
  | empty | invalidDigit | tooLarge
  deriving DecidableEq, Repr

inductive CharacterProblem where
  | unexpectedSign
  | number (problem : NumberProblem)
  /-- The number is 0. -/
  | notPermitted
  /-- No character has this number. -/
  | notCodePoint (n : Nat)
  deriving DecidableEq, Repr

/-- What can be wrong with a reference. Places are byte ranges of the text that holds it. -/
inductive ReferenceProblem where
  | unfinished (start stop : Nat)
  | unrecognized (start stop : Nat) (name : String)
  | character (problem : CharacterProblem)
  deriving DecidableEq, Repr

namespace NumberProblem

def message : NumberProblem → String
  | empty => "cannot parse integer from empty string"
  | invalidDigit => "invalid digit found in string"
  | tooLarge => "number too large to fit in target type"

end NumberProblem

namespace CharacterProblem

def message : CharacterProblem → String
  | unexpectedSign => "unexpected number sign"
  | number p => p.message
  | notPermitted => "0x0 character is not permitted in XML"
  | notCodePoint n => s!"\x60{n}\x60 is not a valid codepoint"

end CharacterProblem

namespace ReferenceProblem

def message : ReferenceProblem → String
  | unfinished start stop =>
    s!"Error while escaping character at range {start}..{stop}: Cannot find ';' after '&'"
  | unrecognized start stop name => s!"at {start}..{stop}: unrecognized entity \x60{name}\x60"
  | character p => "invalid character reference: " ++ p.message

end ReferenceProblem

/-! ## Characters by number -/

/-- Reads digits behind a number that was read so far. Numbers have 32 bits. -/
def readDigits (base : Nat) : Nat → List Char → Except NumberProblem Nat
  | n, [] => .ok n
  | n, c :: t =>
    match digitValue? base c with
    | none => .error .invalidDigit
    | some d =>
      let n := base * n + d
      if n < 0x100000000 then readDigits base n t else .error .tooLarge

/-- Reads the number of a character: hexadecimal behind an `x`, else decimal. -/
def readCodePoint (t : List Char) : Except CharacterProblem Nat :=
  let (base, digits) := if t.head? = some 'x' then (16, t.tail) else (10, t)
  match digits with
  | [] => .error (.number .empty)
  | c :: _ =>
    if c = '+' ∨ c = '-' then .error .unexpectedSign
    else (readDigits base 0 digits).mapError .number

/-- The character with the number that is written behind `&#`. -/
def resolveCharacter (t : List Char) : Except CharacterProblem Char := do
  let n ← readCodePoint t
  if n = 0 then throw .notPermitted
  match charOfCodePoint? n with
  | some c => return c
  | none => throw (.notCodePoint n)

/-! ## References -/

/-- The characters that have names. -/
def namedCharacters : List (List Char × Char) :=
  [(['l', 't'], '<'), (['g', 't'], '>'), (['a', 'm', 'p'], '&'), (['a', 'p', 'o', 's'], '\''),
    (['q', 'u', 'o', 't'], '"')]

/-- The character that a reference stands for. Given is what stands between its `&` and `;`, and the
offset at which that begins. -/
def resolve (offset : Nat) (name : List Char) : Except ReferenceProblem Char :=
  match name with
  | '#' :: digits => (resolveCharacter digits).mapError .character
  | _ =>
    match namedCharacters.lookup name with
    | some c => .ok c
    | none => .error (.unrecognized offset (offset + byteLength name) (String.ofList name))

/-- Replaces the references in the rest `t` of a text that is `length` bytes long. -/
def resolveFrom (length offset : Nat) (t : List Char) : Except ReferenceProblem (List Char) :=
  match t with
  | [] => .ok []
  | c :: t =>
    if c ≠ '&' then (c :: ·) <$> resolveFrom length (offset + c.utf8Size) t
    else
      let name := t.takeWhile fun c => c != ';' && c != '&'
      match h : t.dropWhile fun c => c != ';' && c != '&' with
      | ';' :: rest => do
        have : rest.length < t.length + 1 := by
          have := (List.dropWhile_sublist (p := fun c => c != ';' && c != '&') (l := t)).length_le
          rw [h, List.length_cons] at this
          omega
        let c ← resolve (offset + 1) name
        let rest ← resolveFrom length (offset + byteLength name + 2) rest
        return c :: rest
      | _ => .error (.unfinished offset length)
termination_by t.length

/-- Replaces the references in a text. -/
def resolveReferences (t : List Char) : Except ReferenceProblem (List Char) :=
  resolveFrom (byteLength t) 0 t

end XmlLocate
