import XmlLocate.Xml.Attribute
import XmlLocate.Xml.Markup
import XmlLocate.Xml.Reference

/-!
# Events

An XML reader turns a text into the events it is made of, in order: tags, text, CDATA sections,
comments, processing instructions and document types. It stops at the first thing that is wrong.

The reader knows which elements are open, because an end tag has to name the innermost one. Text
outside the outermost element is no event and may hold anything but a `<`.
-/

namespace XmlLocate

/-- An attribute with the references in its value replaced. -/
structure Attribute where
  name : String
  value : String
  deriving DecidableEq, Repr

inductive Event where
  | startTag (name : String) (attributes : List Attribute)
  | emptyTag (name : String) (attributes : List Attribute)
  | endTag (name : String)
  | text (data : String)
  | cdata (data : String)
  | comment (data : String)
  | instruction
  | doctype
  deriving DecidableEq, Repr

/-! ## Failures -/

/-- What can be wrong with markup that has an end. -/
inductive FormProblem where
  | missingDoctypeName
  | unmatchedEndTag (name : String)
  | mismatchedEndTag (expected found : String)
  deriving DecidableEq, Repr

inductive XmlProblem where
  | markup (problem : MarkupProblem)
  | form (problem : FormProblem)
  | reference (problem : ReferenceProblem)
  deriving DecidableEq, Repr

/-- Why a reader stopped, and the offset that it gives for it. -/
inductive ReadError where
  | xml (problem : XmlProblem) (position : Nat)
  | attribute (problem : AttributeProblem)
  deriving DecidableEq, Repr

namespace FormProblem

def message : FormProblem → String
  | missingDoctypeName =>
    "\x60<!DOCTYPE>\x60 declaration does not contain a name of a document type"
  | unmatchedEndTag name => s!"close tag \x60</{name}>\x60 does not match any open tag"
  | mismatchedEndTag expected found =>
    s!"expected \x60</{expected}>\x60, but \x60</{found}>\x60 was found"

end FormProblem

namespace XmlProblem

def message : XmlProblem → String
  | markup p => "syntax error: " ++ p.message
  | form p => "ill-formed document: " ++ p.message
  | reference p => p.message

/-- The messages of a problem and of what is behind it, outermost first. -/
def chain (p : XmlProblem) : List String :=
  p.message :: match p with
    | markup p => [p.message]
    | form p => [p.message]
    | reference (.character (.number n)) =>
      [(ReferenceProblem.character (.number n)).message, n.message, n.message]
    | reference (.character c) => [(ReferenceProblem.character c).message, c.message]
    | reference p => [p.message]

end XmlProblem

/-! ## Attributes -/

/-- Reads the attributes of a tag that ends at the offset `stop`. -/
def readAttributes (stop : Nat) (seen : List RawAttribute) (p : Placed) :
    Except ReadError (List Attribute) :=
  match h : readAttribute? seen p with
  | .error e => .error (.attribute e)
  | .ok none => .ok []
  | .ok (some (a, rest)) => do
    have := length_readAttribute? h
    let value ← (resolveReferences a.value).mapError fun e => ReadError.xml (.reference e) stop
    let others ← readAttributes stop (a :: seen) rest
    return ⟨String.ofList a.key, String.ofList value⟩ :: others
termination_by p.text.length

/-- Reads the name and the attributes of a tag that ends at the offset `stop`. -/
def readTag (stop : Nat) (content : List Char) : Except ReadError (String × List Attribute) := do
  let name := content.takeWhile (!isBlank ·)
  let attributes ← readAttributes stop [] ⟨byteLength name, content.drop name.length⟩
  return (String.ofList name, attributes)

/-- The name in an end tag. It loses the blanks at its end unless it is nothing else. -/
def endTagName (content : List Char) : String :=
  String.ofList (if content.all isBlank then content else trimEnd content)

/-! ## Reading -/

/-- The event of a piece of markup, and the elements open behind it, innermost first. -/
def readMarkup (opened : List String) (offset : Nat) (m : Markup) :
    Except ReadError (Event × List String) :=
  let stop := offset + byteLength m.source
  match m with
  | .startTag content => do
    let (name, attributes) ← readTag stop content
    return (.startTag name attributes, name :: opened)
  | .emptyTag content => do
    let (name, attributes) ← readTag stop content
    return (.emptyTag name attributes, opened)
  | .endTag content =>
    let name := endTagName content
    match opened with
    | [] => .error (.xml (.form (.unmatchedEndTag name)) offset)
    | innermost :: outer =>
      if name = innermost then .ok (.endTag name, outer)
      else .error (.xml (.form (.mismatchedEndTag innermost name)) offset)
  | .comment body => .ok (.comment (String.ofList body), opened)
  | .cdata body => .ok (.cdata (String.ofList body), opened)
  | .instruction _ => .ok (.instruction, opened)
  | .doctype content =>
    if (content.drop 7).all isBlank then
      .error (.xml (.form .missingDoctypeName) (stop - 1))
    else .ok (.doctype, opened)

/-- The event of a run of text that ends at the offset `stop`, if it is one. -/
def readText (trimmed : Bool) (opened : List String) (stop : Nat) (run : List Char) :
    Except ReadError (Option Event) :=
  let run := if trimmed then trim run else run
  if run = [] ∨ opened = [] then .ok none
  else
    match resolveReferences run with
    | .ok data => .ok (some (.text (String.ofList data)))
    | .error e => .error (.xml (.reference e) stop)

/-- The events of a text, up to what stopped the reader if it did not come to the end. -/
structure Reading where
  events : List Event
  failure : Option ReadError
  deriving DecidableEq, Repr

namespace Reading

def stopped (e : ReadError) : Reading := ⟨[], some e⟩

/-- Puts events before the others. -/
def prepend (events : List Event) (r : Reading) : Reading := { r with events := events ++ r.events }

end Reading

/-- Reads the rest of a text, which begins at an offset and within the elements that are open. -/
def readFrom (trimmed : Bool) (opened : List String) (offset : Nat) (t : List Char) : Reading :=
  let run := t.takeWhile (· != '<')
  let stop := offset + byteLength run
  match readText trimmed opened stop run with
  | .error e => .stopped e
  | .ok event =>
    Reading.prepend event.toList <|
    match h : t.dropWhile (· != '<') with
    | [] => ⟨[], none⟩
    | _ :: t' =>
      match hs : Markup.split t' with
      | .error p => .stopped (.xml (.markup p) stop)
      | .ok (m, rest) =>
        have : rest.length < t.length := by
          have h1 := Markup.length_split hs
          have h2 := (List.dropWhile_sublist (p := (· != '<')) (l := t)).length_le
          rw [h, List.length_cons] at h2
          omega
        match readMarkup opened stop m with
        | .error e => .stopped e
        | .ok (event, opened) =>
          .prepend [event] (readFrom trimmed opened (stop + byteLength m.source) rest)
termination_by t.length

/-- Reads a source text. A byte order mark at its beginning is left out of all offsets. With
`trimmed`, runs of text lose the blanks at their ends. -/
def readEvents (trimmed : Bool) (source : List Char) : Reading :=
  readFrom trimmed [] 0 (if source.head? = some '\ufeff' then source.tail else source)

end XmlLocate
