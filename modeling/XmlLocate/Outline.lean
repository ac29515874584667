/-!
# Outlines

An outline is what locating the nodes of a tree takes: their kinds, their identities and the order
in which they stand. Trees of any make are located through their outlines.
-/

namespace XmlLocate

inductive NodeKind where
  | element
  /-- Character data that the tree addresses by itself. -/
  | cdataSection
  | comment
  /-- Character data that the tree does not address. -/
  | text
  | other
  deriving DecidableEq, Repr

/-- A node with an identity, and the children to be located below it in document order. -/
inductive Outline where
  | node (kind : NodeKind) (id : Nat) (children : List Outline)
  deriving Repr

namespace Outline

def kind : Outline → NodeKind
  | node k _ _ => k

def id : Outline → Nat
  | node _ i _ => i

def children : Outline → List Outline
  | node _ _ c => c

/-- The node reached by going down to the given child at each level. -/
def descend? (o : Outline) : List Nat → Option Outline
  | [] => some o
  | i :: path => o.children[i]?.bind (descend? · path)

end Outline

end XmlLocate
