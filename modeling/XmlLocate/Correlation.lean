import Std.Data.TreeMap
import XmlLocate.Outline
import XmlLocate.Span

/-!
# Correlation

The nodes of a tree and the spans of its text come in the same order, so one pass over both is
enough: in document order, each node that can be located takes the next span of its kind, and the
spans before that are passed over for good. Once no span of the wanted kind is left the node stays
unbound, and so does all below it.

Elements are bound to element spans. The character data that a tree addresses is bound to the runs
of text between markup, not to CDATA sections. Other nodes are bound to nothing, but what is below
them is still visited.
-/

namespace XmlLocate

/-- The kind of span that a node is bound to. -/
def NodeKind.spanKind? : NodeKind → Option SpanKind
  | .element => some .element
  | .cdataSection => some .text
  | .comment | .text | .other => none

def NodeKind.isAddressable (k : NodeKind) : Bool := k.spanKind?.isSome

/-- The index of the first span of a kind, and the indexed spans behind it. -/
def nextOfKind? (kind : SpanKind) : List (Nat × Span) → Option (Nat × List (Nat × Span))
  | [] => none
  | (i, s) :: rest => if s.kind = kind then some (i, rest) else nextOfKind? kind rest

mutual

/-- Gives the nodes of an outline their span indexes, in document order. Also given are the spans
that are left. -/
def Outline.assign : Outline → List (Nat × Span) → List (Nat × Nat) × List (Nat × Span)
  | .node kind id children, spans =>
    match kind.spanKind? with
    | none => assignAll children spans
    | some wanted =>
      match nextOfKind? wanted spans with
      | none => ([], [])
      | some (i, rest) =>
        let (below, rest) := assignAll children rest
        ((id, i) :: below, rest)

/-- Gives the nodes of several outlines their span indexes, one outline after the other. -/
def assignAll : List Outline → List (Nat × Span) → List (Nat × Nat) × List (Nat × Span)
  | [], spans => ([], spans)
  | o :: rest, spans =>
    let (first, spans) := o.assign spans
    let (others, spans) := assignAll rest spans
    (first ++ others, spans)

end

/-- The span index of each located node, by its identity. -/
abbrev Bindings := Std.TreeMap Nat Nat

/-- Finds the span of each node of an outline. Of the nodes that share an identity the last one
counts. -/
def correlate (o : Outline) (spans : Array Span) : Bindings :=
  let indexed := spans.toList.zipIdx.map fun (s, i) => (i, s)
  (o.assign indexed).1.foldl (fun m (id, i) => m.insert id i) ∅

end XmlLocate
