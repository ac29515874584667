import XmlLocate.LocatedText
import XmlLocate.Node.Build

/-!
# Documents

Parsing a document reads its text twice. An XML reader gives the tree; a scan gives the spans, to
which the elements of the tree are bound in document order. The two need not agree on what is an
element of a text, and an element is located wherever the next element span is.

The elements that have a location can be listed, in document order and each with its depth below the
root. Elements without one are left out, but what is below them is still listed.
-/

namespace XmlLocate

/-- How a document is parsed. -/
structure ParseOptions where
  /-- Whether the elements are located. -/
  keepPositions : Bool := true
  /-- Whether runs of text lose the blanks at their ends, and are dropped if nothing is left. -/
  trimText : Bool := false
  deriving DecidableEq, Repr

/-- Why a text is no document. -/
inductive ParseError where
  | read (error : ReadError)
  | tree (error : TreeError)
  /-- The tree was built but its text could not be scanned. -/
  | scan (error : ScanError)
  deriving DecidableEq, Repr

namespace ParseError

/-- The messages of an error and of what is behind it, outermost first. -/
def chain : ParseError → List String
  | read (.xml problem position) =>
    s!"XML syntax error at byte {position}: {problem.message}" :: problem.chain
  | read (.attribute problem) => ["invalid attribute: " ++ problem.message, problem.message]
  | tree e => [e.message]
  | scan e => [e.message]

def message (e : ParseError) : String := e.chain.headD ""

end ParseError

structure Document where
  root : Node
  /-- The source text with the bindings of the elements, if they are located. -/
  located : Option LocatedText

namespace Document

/-- The tree of a text. What the reader stopped at comes after all that it read before. -/
def parseTree (trimText : Bool) (source : List Char) : Except ParseError Node := do
  let reading := readEvents trimText source
  let g ← (reading.events.foldlM Growth.step .empty).mapError .tree
  match reading.failure with
  | some e => throw (.read e)
  | none => g.finish.mapError .tree

def parse (options : ParseOptions) (source : List Char) : Except ParseError Document := do
  let root ← parseTree options.trimText source
  if options.keepPositions then
    let located ← (LocatedText.ofOutline source root.outline).mapError .scan
    return ⟨root, some located⟩
  else return ⟨root, none⟩

def keepsPositions (d : Document) : Bool := d.located.isSome

/-- Where a node of the document is. Only elements have a location. -/
def location? (d : Document) (n : Node) : Option Location := d.located.bind (·.location? n.id)

end Document

/-! ## Elements that are listed -/

/-- An element that has a location. -/
structure LocatedElement where
  name : String
  /-- The number of elements around it. -/
  depth : Nat
  location : Location

namespace Document

/-- The located elements among the nodes still to be visited, each with its depth, and below
them. -/
def visitElements (d : Document) : List (Nat × Node) → List LocatedElement
  | [] => []
  | (depth, n) :: waiting =>
    let below := n.elementChildren.map fun c => (depth + 1, c)
    let others := d.visitElements (below ++ waiting)
    match n.name?, d.location? n with
    | some name, some location => ⟨name, depth, location⟩ :: others
    | _, _ => others
termination_by waiting => Node.sizeAll (waiting.map Prod.snd)
decreasing_by
  have h1 := n.size_eq
  have h2 := Node.sizeAll_filter_le Node.isElement n.childNodes
  simp only [List.map_append, List.map_map, Function.comp_def, List.map_id', Node.sizeAll_append,
    List.map_cons, Node.sizeAll_cons, Node.elementChildren]
  omega

def elements (d : Document) : List LocatedElement := d.visitElements [(0, d.root)]

end Document

end XmlLocate
