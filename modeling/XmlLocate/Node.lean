import XmlLocate.Outline
import XmlLocate.Xml.Event

/-!
# Nodes

The tree of a document: elements with attributes and children, and at the leaves text, CDATA
sections and comments. Every node has an identity within its document.
-/

namespace XmlLocate

inductive Node where
  | element (id : Nat) (name : String) (attributes : List Attribute) (children : List Node)
  /-- Character data with its references replaced. -/
  | text (id : Nat) (data : String)
  | cdata (id : Nat) (data : String)
  | comment (id : Nat) (data : String)
  deriving Repr

namespace Node

def id : Node → Nat
  | element i _ _ _ | text i _ | cdata i _ | comment i _ => i

def kind : Node → NodeKind
  | element .. => .element
  | text .. => .text
  | cdata .. => .cdataSection
  | comment .. => .comment

def isElement (n : Node) : Bool := n.kind == .element

def isComment (n : Node) : Bool := n.kind == .comment

/-- The name of an element. -/
def name? : Node → Option String
  | element _ name _ _ => some name
  | _ => none

/-- The data of a node that is no element. -/
def data? : Node → Option String
  | element .. => none
  | text _ d | cdata _ d | comment _ d => some d

/-! ## Attributes -/

def attributes : Node → List Attribute
  | element _ _ as _ => as
  | _ => []

def attributeNames (n : Node) : List String := n.attributes.map Attribute.name

/-- The value of the first attribute with a name. An empty value reads as none. -/
def attribute? (n : Node) (name : String) : Option String :=
  ((n.attributes.find? (·.name == name)).map Attribute.value).filter (!·.isEmpty)

/-! ## Children -/

/-- All children, comments included. -/
def childNodes : Node → List Node
  | element _ _ _ c => c
  | _ => []

/-- The children that are no comments. -/
def children (n : Node) : List Node := n.childNodes.filter (!·.isComment)

def elementChildren (n : Node) : List Node := n.childNodes.filter isElement

/-- The element children with a name. -/
def childrenNamed (n : Node) (name : String) : List Node :=
  n.childNodes.filter (·.name? == some name)

/-! ## The whole tree -/

mutual

/-- The number of nodes in a tree. -/
def size : Node → Nat
  | element _ _ _ c => 1 + sizeAll c
  | text .. | cdata .. | comment .. => 1

def sizeAll : List Node → Nat
  | [] => 0
  | n :: t => n.size + sizeAll t

end

@[simp] theorem sizeAll_nil : sizeAll [] = 0 := by rw [sizeAll]

@[simp] theorem sizeAll_cons (n : Node) (t : List Node) :
    sizeAll (n :: t) = n.size + sizeAll t := by
  rw [sizeAll]

@[simp] theorem sizeAll_append (a b : List Node) : sizeAll (a ++ b) = sizeAll a + sizeAll b := by
  induction a with
  | nil => simp
  | cons n t ih => simp [ih, Nat.add_assoc]

theorem size_eq (n : Node) : n.size = 1 + sizeAll n.childNodes := by
  cases n <;> simp [size, childNodes]

theorem sizeAll_filter_le (p : Node → Bool) (t : List Node) : sizeAll (t.filter p) ≤ sizeAll t := by
  induction t with
  | nil => simp
  | cons n t ih =>
    rw [List.filter_cons]
    split
    · simpa using ih
    · simp only [sizeAll_cons]
      omega

/-- The nodes still to be visited and all below them, in document order. -/
def visit : List Node → List Node
  | [] => []
  | n :: waiting => n :: visit (n.childNodes ++ waiting)
termination_by waiting => sizeAll waiting
decreasing_by
  have := n.size_eq
  simp only [sizeAll_cons, sizeAll_append]
  omega

/-- A node and all below it, in document order. -/
def descendants (n : Node) : List Node := visit [n]

mutual

/-- The character data in a node, comments left out. -/
def characterData : Node → String
  | element _ _ _ c => characterDataAll c
  | text _ d | cdata _ d => d
  | comment .. => ""

def characterDataAll : List Node → String
  | [] => ""
  | n :: t => n.characterData ++ characterDataAll t

end

/-- The character data of an element, or the data of another node. -/
def content (n : Node) : String := n.data?.getD n.characterData

mutual

/-- What locating the nodes of a tree takes. Only elements are located below the root. -/
def outline : Node → Outline
  | element id _ _ c => .node .element id (outlineElements c)
  | text id _ => .node .text id []
  | cdata id _ => .node .cdataSection id []
  | comment id _ => .node .comment id []

/-- The outlines of the elements in a list of nodes. -/
def outlineElements : List Node → List Outline
  | [] => []
  | n :: t => if n.isElement then n.outline :: outlineElements t else outlineElements t

end

end Node

end XmlLocate
