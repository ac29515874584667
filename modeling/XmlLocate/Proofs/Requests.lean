import XmlLocate.Correlation

/-!
# The nodes that ask for a span

A walk over a tree that leaves out what is below an unbound node is a pass over a list, that of the
nodes that can be located: when a node finds no span, none is left for any node behind it.

**Theorem (`assign_eq_assignRow`).** Assigning spans to a tree is assigning them to its `requests`, one
after the other.
-/

namespace XmlLocate

/-! ## Nodes in document order -/

namespace Outline

mutual

/-- A node and all below it, in document order. -/
def preorder : Outline → List Outline
  | node kind id children => node kind id children :: preorderAll children

def preorderAll : List Outline → List Outline
  | [] => []
  | o :: rest => o.preorder ++ preorderAll rest

end

/-- The nodes of a list that can be located: the kind of span that each is bound to, and its
identity. -/
def requests (os : List Outline) : List (SpanKind × Nat) :=
  os.filterMap fun o => o.kind.spanKind?.map (·, o.id)

theorem requests_cons_of_none {kind : NodeKind} (h : kind.spanKind? = none) (id : Nat)
    (children os : List Outline) : requests (node kind id children :: os) = requests os := by
  simp [requests, Outline.kind, h]

theorem requests_cons_of_some {kind : NodeKind} {wanted : SpanKind} (h : kind.spanKind? = some wanted)
    (id : Nat) (children os : List Outline) :
    requests (node kind id children :: os) = (wanted, id) :: requests os := by
  simp [requests, Outline.kind, Outline.id, h]

theorem requests_append (os os' : List Outline) :
    requests (os ++ os') = requests os ++ requests os' :=
  List.filterMap_append

end Outline

/-! ## A pass over a list of nodes -/

/-- Gives nodes in a row their span indexes. Also given are the spans that are left. -/
def assignRow : List (SpanKind × Nat) → List (Nat × Span) → List (Nat × Nat) × List (Nat × Span)
  | [], spans => ([], spans)
  | (wanted, id) :: nodes, spans =>
    match nextOfKind? wanted spans with
    | none => ([], [])
    | some (i, rest) =>
      let (others, rest) := assignRow nodes rest
      ((id, i) :: others, rest)

theorem assignRow_nil (nodes : List (SpanKind × Nat)) : assignRow nodes [] = ([], []) := by
  cases nodes <;> rfl

theorem assignRow_append (xs ys : List (SpanKind × Nat)) (spans : List (Nat × Span)) :
    assignRow (xs ++ ys) spans =
      ((assignRow xs spans).1 ++ (assignRow ys (assignRow xs spans).2).1,
        (assignRow ys (assignRow xs spans).2).2) := by
  induction xs generalizing spans with
  | nil => rfl
  | cons x xs ih =>
    obtain ⟨wanted, id⟩ := x
    rw [List.cons_append, assignRow, assignRow]
    cases nextOfKind? wanted spans with
    | none => simp [assignRow_nil]
    | some p =>
      dsimp only
      rw [ih]
      rfl

mutual

/-- The walk over a tree is the pass over its nodes. -/
theorem assign_eq_assignRow : ∀ (o : Outline) (spans : List (Nat × Span)),
    o.assign spans = assignRow (Outline.requests o.preorder) spans
  | .node kind id children, spans => by
    rw [Outline.assign, Outline.preorder]
    cases h : kind.spanKind? with
    | none =>
      rw [Outline.requests_cons_of_none h]
      exact assignAll_eq_assignRow children spans
    | some wanted =>
      rw [Outline.requests_cons_of_some h, assignRow]
      dsimp only
      cases nextOfKind? wanted spans with
      | none => rfl
      | some p =>
        dsimp only
        rw [assignAll_eq_assignRow children p.2]

theorem assignAll_eq_assignRow : ∀ (os : List Outline) (spans : List (Nat × Span)),
    assignAll os spans = assignRow (Outline.requests (Outline.preorderAll os)) spans
  | [], spans => by
    rw [assignAll, Outline.preorderAll]
    rfl
  | o :: os, spans => by
    rw [assignAll, Outline.preorderAll, Outline.requests_append, assignRow_append,
      assign_eq_assignRow o spans]
    dsimp only
    rw [assignAll_eq_assignRow os]

end

end XmlLocate
