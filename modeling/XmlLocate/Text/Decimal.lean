/-!
# Decimal text of floating-point numbers

A number is written with the fewest digits that still read back as it. Grids of ever finer powers of
ten are tried; on each the two points next to the number are read back, and the first grid with a
hit gives the digits. Numbers from 0.00001 up to 10¹⁶ are written positionally and with a decimal
point, the others with an exponent.
-/

namespace XmlLocate

/-- The value of a finite positive number, as a numerator and a denominator. -/
def fractionOf (x : Float) : Nat × Nat :=
  let bits := x.toBits.toNat
  let unit := 1 <<< 52
  let exponent := bits / unit % (1 <<< 11)
  let fraction := bits % unit
  if exponent = 0 then (fraction, 1 <<< 1074)
  else if exponent < 1075 then (unit + fraction, 1 <<< (1075 - exponent))
  else ((unit + fraction) <<< (exponent - 1075), 1)

def powerOfTen (n : Nat) : Nat := Nat.pow 10 n

/-- The number `digits` times ten to the `exponent`. -/
def readBack (digits : Nat) (exponent : Int) : Float :=
  Float.ofScientific digits (decide (exponent < 0)) exponent.natAbs

/-- The multiple of ten to the `exponent` that is nearest to a number among those that read back as
it. Of two that are equally near it is the even one. -/
def gridPoint? (x : Float) (exponent : Int) : Option Nat :=
  let (num, den) := fractionOf x
  let (num, den) :=
    if exponent < 0 then (num * powerOfTen exponent.natAbs, den)
    else (num, den * powerOfTen exponent.natAbs)
  let below := num / den
  let hits := [below, below + 1].filter fun d => (readBack d exponent).toBits == x.toBits
  match hits with
  | [a, b] =>
    let twice := 2 * (num - a * den)
    some (if twice < den || (twice == den && a % 2 == 0) then a else b)
  | _ => hits.head?

/-- The fewest digits of a finite positive number, with their power of ten. -/
def shortestDigits (x : Float) : Nat × Int :=
  let grids := (List.range 640).map fun (i : Nat) => (309 - i : Int)
  (grids.findSome? fun e => (gridPoint? x e).map (·, e)).getD (0, 0)

/-- Writes digits times a power of ten, positionally. -/
def positional (digits : Nat) (exponent : Int) : String :=
  if 0 ≤ exponent then toString (digits * powerOfTen exponent.natAbs) ++ ".0"
  else
    let unit := powerOfTen exponent.natAbs
    let places := toString (digits % unit)
    let zeros := String.ofList (List.replicate (exponent.natAbs - places.length) '0')
    toString (digits / unit) ++ "." ++ zeros ++ places

/-- Writes digits with a point behind the first of them, and the exponent of that digit. -/
def scientific (digits : List Char) (exponent : Int) : String :=
  let places := if digits.length ≤ 1 then [] else '.' :: digits.tail
  let sign := if exponent < 0 then "e-" else "e+"
  String.ofList (digits.take 1 ++ places) ++ sign ++ toString exponent.natAbs

/-- The text of a finite floating-point number. -/
def floatText (x : Float) : String :=
  let magnitude := if x == 0 then "0.0" else
    let (digits, exponent) := shortestDigits x.abs
    let written := Nat.toDigits 10 digits
    let first := exponent + written.length - 1
    if -5 ≤ first ∧ first < 16 then positional digits exponent else scientific written first
  if x.toBits >>> 63 == 1 then "-" ++ magnitude else magnitude

end XmlLocate
