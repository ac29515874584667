/-!
# JSON values

Objects keep their fields in the order in which they are written. Numbers are integers or
floating-point numbers.
-/

namespace XmlLocate

inductive Json where
  | null
  | bool (b : Bool)
  | integer (n : Int)
  | float (x : Float)
  | string (s : String)
  | array (items : List Json)
  | object (fields : List (String × Json))
  deriving Inhabited, Repr, BEq

namespace Json

def natural (n : Nat) : Json := .integer n

def natural? : Option Nat → Json
  | some n => natural n
  | none => .null

end Json

end XmlLocate
