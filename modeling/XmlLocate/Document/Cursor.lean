import XmlLocate.Document

/-!
# Cursors

A cursor stands on a node of a document and remembers the nodes on which its moves began, so that it
can go back.
-/

namespace XmlLocate

structure Cursor where
  node : Node
  /-- Where the moves that led here began, last first. -/
  path : List Node

namespace Cursor

def ofRoot (d : Document) : Cursor := ⟨d.root, []⟩

/-- The number of moves that led here. -/
def depth (c : Cursor) : Nat := c.path.length

/-- Moves to a node. -/
def goTo (c : Cursor) (n : Node) : Cursor := ⟨n, c.node :: c.path⟩

/-- Takes the last move back. -/
def back? (c : Cursor) : Option Cursor :=
  match c.path with
  | [] => none
  | n :: path => some ⟨n, path⟩

/-- Moves to the node with a given index among those that a node leads to. -/
def go? (c : Cursor) (choices : Node → List Node) (index : Nat) : Option Cursor :=
  (choices c.node)[index]?.map c.goTo

end Cursor

end XmlLocate
