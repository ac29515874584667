import XmlLocate.Node
import XmlLocate.Xml.Markup

/-!
# Documents as they are written

A document before it is text: a root element among comments and processing instructions, with the
bytes that each element takes once the document is written down. The types carry what makes the text
well-formed. Only that no two runs of text are adjacent, which would be read as one, is said by a
predicate (`Separated`).

* `Written.source`: the text of a document.
* `Content.nodes`: the nodes it stands for, numbered in document order.
* `Content.extents`: where its elements are in the text, in document order.
-/

namespace XmlLocate.Written

/-! ## Parts -/

def IsNameChar (c : Char) : Prop :=
  isBlank c = false ∧ c ∉ ['<', '>', '/', '=', '&', '!', '?', '\'', '"']

instance (c : Char) : Decidable (IsNameChar c) := inferInstanceAs (Decidable (_ ∧ _))

structure Name where
  text : List Char
  ne_nil : text ≠ []
  plain : ∀ c ∈ text, IsNameChar c

structure Attribute where
  name : Name
  quote : Char
  value : List Char
  isQuote_quote : isQuote quote
  plain : quote ∉ value ∧ '&' ∉ value ∧ '<' ∉ value

/-- The name and the attributes of an element. -/
structure Tag where
  name : Name
  attributes : List Attribute
  nodup : (attributes.map fun a => a.name.text).Nodup

/-- A run of text. -/
structure Run where
  text : List Char
  ne_nil : text ≠ []
  plain : '<' ∉ text ∧ '&' ∉ text

/-- What stands before the delimiter that ends a comment or the like. -/
structure Body (close : List Char) where
  text : List Char
  free : ¬ close <:+: text

structure Instruction where
  target : Name
  data : List Char
  free : ¬ ['?', '>'] <:+: target.text ++ data

inductive Content where
  | element (tag : Tag) (children : List Content)
  /-- An element written as one tag. -/
  | empty (tag : Tag)
  | text (run : Run)
  | cdata (body : Body [']', ']', '>'])
  | comment (body : Body ['-', '-', '>'])
  | instruction (i : Instruction)

/-- What may stand before and behind the root. -/
inductive Misc where
  | blanks (text : List Char) (blank : ∀ c ∈ text, isBlank c)
  | comment (body : Body ['-', '-', '>'])
  | instruction (i : Instruction)

/-! ## Text -/

def Attribute.source (a : Attribute) : List Char :=
  ' ' :: a.name.text ++ ['=', a.quote] ++ a.value ++ [a.quote]

/-- What stands in a tag. -/
def Tag.content (t : Tag) : List Char := t.name.text ++ t.attributes.flatMap Attribute.source

def Instruction.body (i : Instruction) : List Char := i.target.text ++ i.data

def Tag.start (t : Tag) : Markup := .startTag t.content

def Tag.stop (t : Tag) : Markup := .endTag t.name.text

def Tag.whole (t : Tag) : Markup := .emptyTag t.content

namespace Content

def isElement : Content → Bool
  | element .. | empty .. => true
  | _ => false

def isText : Content → Bool
  | text _ => true
  | _ => false

mutual

def source : Content → List Char
  | element tag children => tag.start.source ++ sourceAll children ++ tag.stop.source
  | empty tag => tag.whole.source
  | text run => run.text
  | cdata body => (Markup.cdata body.text).source
  | comment body => (Markup.comment body.text).source
  | instruction i => (Markup.instruction i.body).source

def sourceAll : List Content → List Char
  | [] => []
  | c :: cs => c.source ++ sourceAll cs

end

mutual

/-- No two runs of text are adjacent. -/
def Separated : Content → Prop
  | element _ children => SeparatedAll children
  | empty _ | text _ | cdata _ | comment _ | instruction _ => True

def SeparatedAll : List Content → Prop
  | [] => True
  | c :: cs => c.Separated ∧ (c.isText → ∀ d ∈ cs.head?, ¬ d.isText) ∧ SeparatedAll cs

end

end Content

def Misc.source : Misc → List Char
  | blanks text _ => text
  | comment body => (Markup.comment body.text).source
  | instruction i => (Markup.instruction i.body).source

/-! ## Nodes -/

def Attribute.toAttribute (a : Attribute) : XmlLocate.Attribute :=
  ⟨String.ofList a.name.text, String.ofList a.value⟩

def Tag.attributeList (t : Tag) : List XmlLocate.Attribute := t.attributes.map Attribute.toAttribute

def Tag.nameString (t : Tag) : String := String.ofList t.name.text

namespace Content

mutual

/-- The number of nodes that content stands for. -/
def count : Content → Nat
  | element _ children => 1 + countAll children
  | empty _ | text _ | cdata _ | comment _ => 1
  | instruction _ => 0

def countAll : List Content → Nat
  | [] => 0
  | c :: cs => c.count + countAll cs

end

mutual

/-- The nodes that content stands for, numbered from `id` on. -/
def nodes (id : Nat) : Content → List Node
  | element tag children =>
    [.element id tag.nameString tag.attributeList (nodesAll (id + 1) children)]
  | empty tag => [.element id tag.nameString tag.attributeList []]
  | text run => [.text id (String.ofList run.text)]
  | cdata body => [.cdata id (String.ofList body.text)]
  | comment body => [.comment id (String.ofList body.text)]
  | instruction _ => []

def nodesAll (id : Nat) : List Content → List Node
  | [] => []
  | c :: cs => c.nodes id ++ nodesAll (id + c.count) cs

end

end Content

/-! ## Extents -/

/-- The bytes that an element takes: where it begins, where its start tag ends and where it ends. -/
structure Extent where
  start : Nat
  headEnd : Nat
  stop : Nat
  deriving DecidableEq, Repr

namespace Content

mutual

/-- The extents of the elements in content that begins at an offset. -/
def extents (offset : Nat) : Content → List Extent
  | element tag children =>
    let headEnd := offset + byteLength tag.start.source
    let inner := headEnd + byteLength (sourceAll children)
    ⟨offset, headEnd, inner + byteLength tag.stop.source⟩ :: extentsAll headEnd children
  | empty tag =>
    let stop := offset + byteLength tag.whole.source
    [⟨offset, stop, stop⟩]
  | text _ | cdata _ | comment _ | instruction _ => []

def extentsAll (offset : Nat) : List Content → List Extent
  | [] => []
  | c :: cs => c.extents offset ++ extentsAll (offset + byteLength c.source) cs

end

end XmlLocate.Written.Content

namespace XmlLocate

/-! ## Documents -/

/-- A document to be written: its root element, and what stands before and behind it. -/
structure Written where
  prolog : List Written.Misc
  root : Written.Content
  epilog : List Written.Misc
  isElement_root : root.isElement
  separated : root.Separated

namespace Written

def miscSource (ms : List Misc) : List Char := ms.flatMap Misc.source

@[simp] theorem miscSource_cons (m : Misc) (ms : List Misc) :
    miscSource (m :: ms) = m.source ++ miscSource ms := List.flatMap_cons

/-- The text of a document. -/
def source (d : Written) : List Char := miscSource d.prolog ++ (d.root.source ++ miscSource d.epilog)

/-- Where the elements of a document are in its text. -/
def extents (d : Written) : List Extent := d.root.extents (byteLength (miscSource d.prolog))

end Written

end XmlLocate
