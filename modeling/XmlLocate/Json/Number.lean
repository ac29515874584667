import XmlLocate.Json
import XmlLocate.Text.Digits

/-!
# Numbers in JSON

A number without fraction and exponent that fits 64 bits is an integer. The others, and minus zero,
are floating-point numbers. Of these the digits in front that fit 64 bits are rounded to a float,
which is then multiplied with a power of ten or divided by one. So a number of many digits may be
read as a neighbour of the float that is nearest to it.
-/

namespace XmlLocate

/-- The largest offset. -/
def maxOffset : Nat := 0xFFFFFFFFFFFFFFFF

/-- The smallest number that is read as an integer. -/
def minInteger : Int := -0x8000000000000000

namespace Json

/-- Puts digits behind a number as long as it fits 64 bits, and counts the digits left over. -/
def pushDigits (n : Nat) : List Nat → Nat × Nat
  | [] => (n, 0)
  | d :: ds =>
    if 10 * n + d ≤ maxOffset then pushDigits (10 * n + d) ds else (n, ds.length + 1)

def powerOfTenFloat (n : Nat) : Float := Float.ofScientific 1 false n

/-- The largest power of ten that is a float has this exponent. -/
def maxPower : Nat := 308

/-- Divides by a power of ten, in steps if the power is no float. -/
def divideByTens (x : Float) (power : Nat) : Float :=
  if power ≤ maxPower then x / powerOfTenFloat power
  else if x == 0 then x
  else divideByTens (x / powerOfTenFloat maxPower) (power - maxPower)
termination_by power
decreasing_by
  have : 0 < maxPower := by decide
  omega

/-- The float for a number times a power of ten, unless it is too large. -/
def scaledFloat? (n : Nat) (exponent : Int) : Option Float :=
  let x := Float.ofScientific n false 0
  let power := exponent.natAbs
  if exponent < 0 then some (divideByTens x power)
  else if power ≤ maxPower then
    let y := x * powerOfTenFloat power
    if y.isInf then none else some y
  else if n = 0 then some x
  else none

/-- The digits in front of a text, and what follows them. -/
def splitDigits (t : List Char) : List Nat × List Char :=
  ((t.takeWhile Char.isDigit).filterMap (digitValue? 10), t.dropWhile Char.isDigit)

/-- Reads the rest of a number, which holds its exponent if there is one. -/
def readExponent? : List Char → Option Int
  | [] => some 0
  | c :: t =>
    if c ≠ 'e' ∧ c ≠ 'E' then none
    else
      match t with
      | '-' :: t => (readNumber? 10 t).map fun n => -(n : Int)
      | '+' :: t => (readNumber? 10 t).map Int.ofNat
      | t => (readNumber? 10 t).map Int.ofNat

def ofNumber? (t : List Char) : Option Json := do
  let negative := t.head? == some '-'
  let (whole, rest) := splitDigits (if negative then t.tail else t)
  let (n, cut) := pushDigits 0 whole
  let signed : Int := if negative then -n else n
  let isInteger := rest.isEmpty && cut == 0 && decide (minInteger ≤ signed)
  if isInteger && !(negative && n == 0) then
    return .integer signed
  else
    let (places, rest) := match rest with
      | '.' :: t => splitDigits t
      | t => ([], t)
    let (n, unread) := pushDigits n places
    let exponent ← readExponent? rest
    let x ← scaledFloat? n (exponent + cut - (places.length - unread : Nat))
    return .float (if negative then -x else x)

end Json

end XmlLocate
