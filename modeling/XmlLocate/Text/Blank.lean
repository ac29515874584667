/-!
# Blanks

XML's white space: space, tab, carriage return and line feed.
-/

namespace XmlLocate

def isBlank (c : Char) : Bool := c == ' ' || c == '\t' || c == '\r' || c == '\n'

/-- Takes the blanks off the end of a text. -/
def trimEnd (t : List Char) : List Char := (t.reverse.dropWhile isBlank).reverse

/-- Takes the blanks off both ends of a text. -/
def trim (t : List Char) : List Char := trimEnd (t.dropWhile isBlank)

end XmlLocate
