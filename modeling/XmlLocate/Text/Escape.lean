import XmlLocate.Text.Escape.Extending
import XmlLocate.Text.Escape.Printable

/-!
# Escaped text

A text is shown on one line by writing its unprintable characters as escapes, and by a backslash
before quotes and backslashes. A character that joins the one before it is escaped where nothing
stands before it, at the beginning of the text.
-/

namespace XmlLocate

/-- The letter that stands for a character behind a backslash. -/
def shorthand? : Char → Option Char
  | '\x00' => some '0'
  | '\t' => some 't'
  | '\r' => some 'r'
  | '\n' => some 'n'
  | '\\' => some '\\'
  | '\'' => some '\''
  | '"' => some '"'
  | _ => none

/-- A character written by its code point, in hexadecimal. -/
def codePointEscape (c : Char) : List Char :=
  ['\\', 'u', '{'] ++ Nat.toDigits 16 c.toNat ++ ['}']

/-- How a character is written at the beginning of a text (`first`) or behind another character. -/
def escapeChar (first : Bool) (c : Char) : List Char :=
  match shorthand? c with
  | some s => ['\\', s]
  | none => if first && isExtending c || !isPrintable c then codePointEscape c else [c]

def escape : List Char → List Char
  | [] => []
  | c :: t => escapeChar true c ++ t.flatMap (escapeChar false)

end XmlLocate
