/-!
# Positions and ranges
-/

namespace XmlLocate

/-- A place in a text. Offsets and columns count bytes; rows and columns begin at 0. Positions are
ordered by offset, then row, then column. -/
structure Position where
  offset : Nat
  row : Nat
  column : Nat
  deriving DecidableEq, Repr, Ord

/-- Positions in their order. -/
def Position.sort (ps : List Position) : List Position :=
  ps.mergeSort fun a b => (compare a b).isLE

/-- The text from `start` up to, but not including, `stop`. -/
structure Range where
  start : Position
  stop : Position
  deriving DecidableEq, Repr

namespace Range

/-- The number of bytes in the range, which is 0 if its ends are out of order. -/
def length (r : Range) : Nat := r.stop.offset - r.start.offset

def isEmpty (r : Range) : Bool := r.length == 0

def contains (r : Range) (offset : Nat) : Bool :=
  decide (r.start.offset ≤ offset) && decide (offset < r.stop.offset)

end Range

end XmlLocate
