import XmlLocate.Json
import XmlLocate.Text.Decimal

/-!
# Pretty-printed JSON

Every item and field has a line of its own, indented by two spaces a level; empty arrays and objects
stay on one line. In strings only quotes, backslashes and the controls below the space are escaped.
-/

namespace XmlLocate.Json

def quotedChar (c : Char) : List Char :=
  match c with
  | '"' => ['\\', '"']
  | '\\' => ['\\', '\\']
  | '\x08' => ['\\', 'b']
  | '\x0c' => ['\\', 'f']
  | '\n' => ['\\', 'n']
  | '\r' => ['\\', 'r']
  | '\t' => ['\\', 't']
  | c =>
    if c.toNat < 0x20 then
      ['\\', 'u', '0', '0', Nat.digitChar (c.toNat / 16), Nat.digitChar (c.toNat % 16)]
    else [c]

def quoted (s : String) : String := "\"" ++ String.ofList (s.toList.flatMap quotedChar) ++ "\""

/-- The beginning of a line at a depth. -/
def newline (depth : Nat) : String := "\n" ++ String.ofList (List.replicate (2 * depth) ' ')

mutual

/-- Writes a value that begins on a line at a depth. -/
def prettyAt (depth : Nat) : Json → String
  | .null => "null"
  | .bool b => if b then "true" else "false"
  | .integer n => toString n
  | .float x => floatText x
  | .string s => quoted s
  | .array [] => "[]"
  | .array (x :: xs) =>
    "[" ++ newline (depth + 1) ++ prettyAt (depth + 1) x ++ prettyItems (depth + 1) xs ++
      newline depth ++ "]"
  | .object [] => "\x7b\x7d"
  | .object ((k, v) :: fields) =>
    "\x7b" ++ newline (depth + 1) ++ quoted k ++ ": " ++ prettyAt (depth + 1) v ++
      prettyFields (depth + 1) fields ++ newline depth ++ "\x7d"

/-- Writes the items behind the first. -/
def prettyItems (depth : Nat) : List Json → String
  | [] => ""
  | x :: xs => "," ++ newline depth ++ prettyAt depth x ++ prettyItems depth xs

/-- Writes the fields behind the first. -/
def prettyFields (depth : Nat) : List (String × Json) → String
  | [] => ""
  | (k, v) :: fields =>
    "," ++ newline depth ++ quoted k ++ ": " ++ prettyAt depth v ++ prettyFields depth fields

end

def pretty (j : Json) : String := j.prettyAt 0

end XmlLocate.Json
