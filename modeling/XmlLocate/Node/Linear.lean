import XmlLocate.Node

/-!
# Trees in document order

The nodes of a tree and the events that a tree is written with, listed by going down the tree.
-/

namespace XmlLocate.Node

mutual

/-- A node and all below it: first the node, then what is below its children, one after the
other. -/
def preorder : Node → List Node
  | element id name attributes children =>
    element id name attributes children :: preorderAll children
  | text id d => [text id d]
  | cdata id d => [cdata id d]
  | comment id d => [comment id d]

def preorderAll : List Node → List Node
  | [] => []
  | n :: t => n.preorder ++ preorderAll t

end

mutual

/-- The events that write a tree: for an element its tags around what writes its children, for a
leaf the leaf. -/
def events : Node → List Event
  | element _ name attributes children =>
    .startTag name attributes :: eventsAll children ++ [.endTag name]
  | text _ d => [.text d]
  | cdata _ d => [.cdata d]
  | comment _ d => [.comment d]

def eventsAll : List Node → List Event
  | [] => []
  | n :: t => n.events ++ eventsAll t

end

end XmlLocate.Node
