import XmlLocate.Text.Blank
import XmlLocate.Text.Bytes
import XmlLocate.Text.Search

/-!
# Attributes as written

Attributes are read from the content of a tag, behind its name. A key is any run of characters up to
a blank or an equals sign, a value any text between quotes. Positions are byte offsets in the
content of the tag.
-/

namespace XmlLocate

/-- What can be wrong with an attribute, and where. -/
inductive AttributeProblem where
  | expectedEq (position : Nat)
  | expectedValue (position : Nat)
  | unquotedValue (position : Nat)
  | expectedQuote (position : Nat) (quote : Char)
  | duplicated (position previous : Nat)
  deriving DecidableEq, Repr

namespace AttributeProblem

def message : AttributeProblem → String
  | expectedEq p =>
    s!"position {p}: attribute key must be directly followed by \x60=\x60 or space"
  | expectedValue p => s!"position {p}: \x60=\x60 must be followed by an attribute value"
  | unquotedValue p =>
    s!"position {p}: attribute value must be enclosed in \x60\"\x60 or \x60'\x60"
  | expectedQuote p q =>
    s!"position {p}: missing closing quote \x60{q}\x60 in attribute value"
  | duplicated p previous =>
    s!"position {p}: duplicated attribute, previous declaration at position {previous}"

end AttributeProblem

/-- An attribute before the references in its value are replaced. -/
structure RawAttribute where
  key : List Char
  /-- Where the key begins. -/
  position : Nat
  value : List Char
  deriving DecidableEq, Repr

/-- A text with the position at which it begins. -/
structure Placed where
  position : Nat
  text : List Char

namespace Placed

/-- The text behind its first `n` characters. -/
def drop (p : Placed) (n : Nat) : Placed :=
  ⟨p.position + byteLength (p.text.take n), p.text.drop n⟩

def dropBlanks (p : Placed) : Placed := p.drop (p.text.takeWhile isBlank).length

/-- The position at which the text ends. -/
def stop (p : Placed) : Nat := p.position + byteLength p.text

theorem length_drop (p : Placed) (n : Nat) : (p.drop n).text.length = p.text.length - n :=
  List.length_drop

theorem length_dropBlanks (p : Placed) : p.dropBlanks.text.length ≤ p.text.length := by
  rw [dropBlanks, length_drop]
  omega

end Placed

/-- The characters of a key. Its first character is not tested. -/
def keyOf : List Char → List Char
  | [] => []
  | c :: t => c :: t.takeWhile fun c => c != '=' && !isBlank c

/-- Reads the value behind the equals sign of an attribute. -/
def readValue (p : Placed) : Except AttributeProblem (List Char × Placed) :=
  let p := p.dropBlanks
  match p.text with
  | [] => .error (.expectedValue p.position)
  | q :: t =>
    if isQuote q then
      match splitAround [q] t with
      | some (value, _) => .ok (value, p.drop (value.length + 2))
      | none => .error (.expectedQuote p.stop q)
    else .error (.unquotedValue p.position)

/-- Reads the first attribute of a text, if it has one. `seen` holds the attributes before it. -/
def readAttribute? (seen : List RawAttribute) (p : Placed) :
    Except AttributeProblem (Option (RawAttribute × Placed)) :=
  let p := p.dropBlanks
  let key := keyOf p.text
  let q := (p.drop key.length).dropBlanks
  if key = [] then .ok none
  else if q.text.head? ≠ some '=' then .error (.expectedEq q.position)
  else
    match seen.find? (·.key == key) with
    | some a => .error (.duplicated p.position a.position)
    | none => do
      let (value, rest) ← readValue (q.drop 1)
      return some (⟨key, p.position, value⟩, rest)

theorem length_readValue {p rest : Placed} {value : List Char}
    (h : readValue p = .ok (value, rest)) : rest.text.length ≤ p.text.length := by
  unfold readValue at h
  dsimp only at h
  split at h
  · exact absurd h (by simp)
  split at h
  · split at h
    · obtain ⟨-, rfl⟩ := Prod.mk.inj (Except.ok.inj h)
      have := p.length_dropBlanks
      rw [Placed.length_drop]
      omega
    · exact absurd h (by simp)
  · exact absurd h (by simp)

theorem length_readAttribute? {seen : List RawAttribute} {p rest : Placed} {a : RawAttribute}
    (h : readAttribute? seen p = .ok (some (a, rest))) : rest.text.length < p.text.length := by
  unfold readAttribute? at h
  dsimp only at h
  split at h
  · exact absurd h (by simp)
  rename_i hkey
  split at h
  · exact absurd h (by simp)
  split at h
  · exact absurd h (by simp)
  cases hv : readValue ((p.dropBlanks.drop (keyOf p.dropBlanks.text).length).dropBlanks.drop 1) with
  | error e => simp [hv, bind, Except.bind] at h
  | ok r =>
    obtain ⟨value, rest'⟩ := r
    simp only [hv, bind, Except.bind, pure, Except.pure, Except.ok.injEq, Option.some.injEq,
      Prod.mk.injEq] at h
    obtain ⟨-, rfl⟩ := h
    have h1 := length_readValue hv
    have h2 := (p.dropBlanks.drop (keyOf p.dropBlanks.text).length).length_dropBlanks
    have h3 := p.length_dropBlanks
    have h4 := List.length_pos_iff.mpr hkey
    have h5 : p.dropBlanks.text ≠ [] := fun h => hkey (by rw [h]; rfl)
    have h6 := List.length_pos_iff.mpr h5
    rw [Placed.length_drop] at h1 h2
    omega

end XmlLocate
