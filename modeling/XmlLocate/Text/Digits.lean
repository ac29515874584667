/-!
# Digits
-/

namespace XmlLocate

/-- The value of a digit in a base up to 16. Letters may be large or small. -/
def digitValue? (base : Nat) (c : Char) : Option Nat :=
  let value :=
    if c.isDigit then c.toNat - '0'.toNat
    else if 'a' ≤ c ∧ c ≤ 'f' then c.toNat - 'a'.toNat + 10
    else if 'A' ≤ c ∧ c ≤ 'F' then c.toNat - 'A'.toNat + 10
    else base
  if value < base then some value else none

/-- The number that a text of digits stands for; no digits stand for 0. -/
def readNumber? (base : Nat) (t : List Char) : Option Nat :=
  t.foldlM (fun n c => (digitValue? base c).map (base * n + ·)) 0

/-- The character with a code point, if there is one. -/
def charOfCodePoint? (n : Nat) : Option Char :=
  if h : n.isValidChar then some (Char.ofNatAux n h) else none

end XmlLocate
