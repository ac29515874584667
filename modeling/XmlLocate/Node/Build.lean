import XmlLocate.Node

/-!
# Trees from events

A tree is built from the events of a reader. A stack holds the elements that are open; a node is
hung under the innermost one when it is complete. Identities are counted up in document order, an
element's when it begins. What stands outside the root is dropped, except that a second element
there is an error once it is complete.
-/

namespace XmlLocate

/-- Why events form no tree. -/
inductive TreeError where
  | unexpectedEndTag (name : String)
  | unclosedElement (name : String)
  | emptyDocument
  | multipleRoots (name : String)
  deriving DecidableEq, Repr

namespace TreeError

def message : TreeError → String
  | unexpectedEndTag name => s!"unexpected closing tag </{name}>"
  | unclosedElement name => s!"unexpected end of input, expected closing tag </{name}>"
  | emptyDocument => "empty XML document: no root element found"
  | multipleRoots name => s!"multiple root elements: <{name}> follows the root element"

end TreeError

/-- An element that is open. Its children so far are held in reverse. -/
structure OpenElement where
  id : Nat
  name : String
  attributes : List Attribute
  children : List Node

def OpenElement.close (e : OpenElement) : Node :=
  .element e.id e.name e.attributes e.children.reverse

/-- A tree of which some events were read. -/
structure Growth where
  /-- The open elements, innermost first. -/
  opened : List OpenElement
  root : Option Node
  nextId : Nat

namespace Growth

def empty : Growth := ⟨[], none, 0⟩

/-- Hangs a complete element under the innermost open one, or makes it the root. -/
def attach (g : Growth) (name : String) (n : Node) : Except TreeError Growth :=
  match g.opened, g.root with
  | e :: outer, _ => .ok { g with opened := { e with children := n :: e.children } :: outer }
  | [], none => .ok { g with root := some n }
  | [], some _ => .error (.multipleRoots name)

/-- Hangs a leaf under the innermost open element, if there is one. -/
def attachLeaf (g : Growth) (leaf : Nat → Node) : Growth :=
  match g.opened with
  | [] => g
  | e :: outer =>
    let e := { e with children := leaf g.nextId :: e.children }
    { g with opened := e :: outer, nextId := g.nextId + 1 }

/-- Opens an element. -/
def «open» (g : Growth) (name : String) (attributes : List Attribute) : Growth :=
  { g with opened := ⟨g.nextId, name, attributes, []⟩ :: g.opened, nextId := g.nextId + 1 }

/-- Closes the innermost open element. -/
def close (g : Growth) (name : String) : Except TreeError Growth :=
  match g.opened with
  | [] => .error (.unexpectedEndTag name)
  | e :: outer => { g with opened := outer }.attach e.name e.close

/-- Reads the next event. -/
def step (g : Growth) : Event → Except TreeError Growth
  | .startTag name attributes => .ok (g.open name attributes)
  | .emptyTag name attributes => (g.open name attributes).close name
  | .endTag name => g.close name
  | .text d => .ok (g.attachLeaf (.text · d))
  | .cdata d => .ok (g.attachLeaf (.cdata · d))
  | .comment d => .ok (g.attachLeaf (.comment · d))
  | .instruction | .doctype => .ok g

/-- The tree after the last event. -/
def finish (g : Growth) : Except TreeError Node :=
  match g.opened, g.root with
  | e :: _, _ => .error (.unclosedElement e.name)
  | [], none => .error .emptyDocument
  | [], some root => .ok root

end Growth

/-- The tree of a list of events. -/
def Node.ofEvents (events : List Event) : Except TreeError Node := do
  let g ← events.foldlM Growth.step .empty
  g.finish

end XmlLocate
