import XmlLocate.Document
import XmlLocate.Proofs.Binding
import XmlLocate.Proofs.Reading

/-!
# The elements of a tree and the tags of its events

**Theorem (`elements_of_growth`).** The elements of a tree that was built from events are those that
the start and empty tags among the events begin, in the same order, and their identities increase.

What is listed of a tree in document order can be listed while it grows (`Listing`): a start tag, an
end tag and a leaf each put something at the end of it, and elements that move about in the stack
keep their order (`listed_open`, `listed_close`, `listed_attachLeaf`). The invariant is about
`Growth.labels`, the elements begun so far, to which only tags that begin one add something.
-/

namespace XmlLocate

/-- The identities and the names of the elements among some nodes and below them. -/
def Node.labels (ns : List Node) : List (Nat × Option String) :=
  (elementsAll ns).map fun n => (n.id, n.name?)

@[simp] theorem Node.labels_nil : labels [] = [] := by simp [labels]

@[simp] theorem Node.labels_append (a b : List Node) : labels (a ++ b) = labels a ++ labels b := by
  simp [labels]

theorem Node.labels_leaf {n : Node} (hn : ¬ n.isElement) : labels [n] = [] := by
  simp [labels, elementsAll_cons_of_not_isElement hn]

theorem OpenElement.isElement_close (e : OpenElement) : e.close.isElement := rfl

theorem OpenElement.labels_close (e : OpenElement) :
    Node.labels [e.close] = (e.id, some e.name) :: Node.labels e.children.reverse := by
  rw [Node.labels, Node.elementsAll_cons_of_isElement e.isElement_close]
  simp [Node.labels, close, Node.childNodes, Node.id, Node.name?]

/-! ## What a tree lists -/

/-- Something that is listed in document order: for an element at its tags and, between these, for
its children. -/
structure Listing (α : Type) where
  nodes : List Node → List α
  first (id : Nat) (name : String) (attributes : List Attribute) : List α
  last (name : String) : List α
  nodes_append : ∀ ns ns', nodes (ns ++ ns') = nodes ns ++ nodes ns'
  nodes_close : ∀ e : OpenElement,
    nodes [e.close] = first e.id e.name e.attributes ++ nodes e.children.reverse ++ last e.name

namespace Listing

variable {α : Type} (l : Listing α)

@[simp] theorem nodes_nil : l.nodes [] = [] := by
  have h := congrArg List.length (l.nodes_append [] [])
  rw [List.append_nil, List.length_append] at h
  exact List.length_eq_zero_iff.mp (by omega)

/-- What is listed for an element that is open. -/
def opened (e : OpenElement) : List α :=
  l.first e.id e.name e.attributes ++ l.nodes e.children.reverse

theorem opened_push (e : OpenElement) (n : Node) :
    l.opened { e with children := n :: e.children } = l.opened e ++ l.nodes [n] := by
  simp [opened, l.nodes_append]

theorem nodes_close_eq (e : OpenElement) : l.nodes [e.close] = l.opened e ++ l.last e.name :=
  l.nodes_close e

end Listing

/-- The identities and the names of elements. -/
def labelListing : Listing (Nat × Option String) where
  nodes := Node.labels
  first id name _ := [(id, some name)]
  last _ := []
  nodes_append := Node.labels_append
  nodes_close e := by simp [e.labels_close]

namespace Growth

/-- What an end tag does: the element that it closes is put under the one around it, or made the
root. -/
theorem close_eq_ok {g g' : Growth} {name : String} (h : g.close name = .ok g') :
    ∃ e outer, g.opened = e :: outer ∧
      ((∃ e' outer', outer = e' :: outer' ∧
          g' = { g with opened := { e' with children := e.close :: e'.children } :: outer' }) ∨
        (outer = [] ∧ g.root = none ∧ g' = { g with opened := [], root := some e.close })) := by
  unfold close attach at h
  cases ho : g.opened with
  | nil => simp [ho] at h
  | cons e outer =>
    refine ⟨e, outer, rfl, ?_⟩
    rw [ho] at h
    cases outer with
    | cons e' outer' => exact .inl ⟨e', outer', rfl, (Except.ok.inj h).symm⟩
    | nil =>
      cases hr : g.root with
      | some root => simp [hr] at h
      | none =>
        simp only [hr] at h
        exact .inr ⟨rfl, rfl, (Except.ok.inj h).symm⟩

/-- What is listed so far. -/
def listed {α : Type} (g : Growth) (l : Listing α) : List α :=
  l.nodes g.root.toList ++ g.opened.reverse.flatMap l.opened

section

variable {α : Type} (l : Listing α)

theorem listed_open (g : Growth) (name : String) (attributes : List Attribute) :
    (g.open name attributes).listed l = g.listed l ++ l.first g.nextId name attributes := by
  simp [listed, Growth.open, Listing.opened]

/-- An element that is complete keeps its place. -/
theorem listed_close {g g' : Growth} {e : OpenElement} {outer : List OpenElement} {name : String}
    (ho : g.opened = e :: outer) (h : g.close name = .ok g') :
    g'.listed l = g.listed l ++ l.last e.name := by
  obtain ⟨e₁, outer₁, ho₁, ⟨e', outer', rfl, rfl⟩ | ⟨rfl, hr, rfl⟩⟩ := close_eq_ok h
  · obtain ⟨rfl, rfl⟩ := List.cons.inj (ho.symm.trans ho₁)
    simp [listed, ho, l.opened_push, l.nodes_close_eq]
  · obtain ⟨rfl, rfl⟩ := List.cons.inj (ho.symm.trans ho₁)
    simp [listed, ho, hr, l.nodes_close_eq]

theorem listed_of_nil {g : Growth} (ho : g.opened = []) : g.listed l = l.nodes g.root.toList := by
  simp [listed, ho]

theorem attachLeaf_of_nil {g : Growth} (ho : g.opened = []) (leaf : Nat → Node) :
    g.attachLeaf leaf = g := by
  simp [attachLeaf, ho]

theorem listed_attachLeaf {g : Growth} (ho : g.opened ≠ []) (leaf : Nat → Node) :
    (g.attachLeaf leaf).listed l = g.listed l ++ l.nodes [leaf g.nextId] := by
  cases h : g.opened with
  | nil => exact absurd h ho
  | cons e outer => simp [listed, attachLeaf, h, l.opened_push]

end

/-- The elements that were begun so far, in the order in which they were. -/
def labels (g : Growth) : List (Nat × Option String) :=
  Node.labels g.root.toList ++
    g.opened.reverse.flatMap fun e => (e.id, some e.name) :: Node.labels e.children.reverse

-- These are what `labelListing` lists, by definition.
theorem labels_open (g : Growth) (name : String) (attributes : List Attribute) :
    (g.open name attributes).labels = g.labels ++ [(g.nextId, some name)] :=
  g.listed_open labelListing name attributes

theorem labels_attachLeaf (g : Growth) {leaf : Nat → Node} (hleaf : ∀ id, ¬ (leaf id).isElement) :
    (g.attachLeaf leaf).labels = g.labels := by
  by_cases ho : g.opened = []
  · rw [attachLeaf_of_nil ho]
  · have h := listed_attachLeaf labelListing ho leaf
    have hnone : labelListing.nodes [leaf g.nextId] = [] := Node.labels_leaf (hleaf g.nextId)
    rwa [hnone, List.append_nil] at h

theorem labels_close {g g' : Growth} {name : String} (h : g.close name = .ok g') :
    g'.labels = g.labels := by
  obtain ⟨e, outer, ho, -⟩ := close_eq_ok h
  exact (listed_close labelListing ho h).trans (List.append_nil _)

theorem nextId_close {g g' : Growth} {name : String} (h : g.close name = .ok g') :
    g'.nextId = g.nextId := by
  obtain ⟨e, outer, -, ⟨e', outer', -, rfl⟩ | ⟨-, -, rfl⟩⟩ := close_eq_ok h
  · rfl
  · rfl

theorem nextId_attachLeaf (g : Growth) (leaf : Nat → Node) :
    g.nextId ≤ (g.attachLeaf leaf).nextId := by
  unfold attachLeaf
  split
  · exact le_rfl
  · exact Nat.le_succ _

/-- What an event adds to the elements begun. -/
theorem labels_step {g g' : Growth} {e : Event} (h : g.step e = .ok g') :
    g'.labels = g.labels ++ (e.tagName?.map fun name => (g.nextId, some name)).toList ∧
      g.nextId + (e.tagName?.map fun _ => 1).getD 0 ≤ g'.nextId := by
  cases e with
  | startTag name attributes =>
    obtain rfl := Except.ok.inj h
    exact ⟨g.labels_open name attributes, le_rfl⟩
  | emptyTag name attributes =>
    have h : (g.open name attributes).close name = .ok g' := h
    exact ⟨(labels_close h).trans (g.labels_open name attributes), (nextId_close h).ge⟩
  | endTag name => exact ⟨(labels_close h).trans (by simp [Event.tagName?]), (nextId_close h).ge⟩
  | text d | cdata d | comment d =>
    obtain rfl := Except.ok.inj h
    refine ⟨?_, g.nextId_attachLeaf _⟩
    show _ = g.labels ++ []
    rw [List.append_nil]
    apply labels_attachLeaf
    rintro id ⟨⟩
  | instruction | doctype =>
    obtain rfl := Except.ok.inj h
    exact ⟨by simp [Event.tagName?], le_rfl⟩

/-- The identities of the elements increase, and the next one is larger than all. -/
def Numbered (g : Growth) : Prop := (g.labels.map Prod.fst ++ [g.nextId]).Pairwise (· < ·)

theorem Numbered.step {g g' : Growth} {e : Event} (hg : g.Numbered) (h : g.step e = .ok g') :
    g'.Numbered := by
  obtain ⟨hlabels, hnext⟩ := labels_step h
  unfold Numbered at hg ⊢
  rw [List.pairwise_append] at hg
  obtain ⟨hold, -, hlt⟩ := hg
  have hlt : ∀ i ∈ g.labels.map Prod.fst, i < g.nextId := fun i hi => hlt i hi _ (by simp)
  cases he : e.tagName? with
  | none =>
    rw [he] at hlabels hnext
    simp only [Option.map_none, Option.getD_none, Option.toList_none, List.append_nil] at hlabels hnext
    rw [hlabels, List.pairwise_append]
    refine ⟨hold, List.pairwise_singleton _ _, ?_⟩
    intro i hi j hj
    rw [List.mem_singleton.mp hj]
    have := hlt i hi
    omega
  | some name =>
    rw [he] at hlabels hnext
    simp only [Option.map_some, Option.getD_some, Option.toList_some] at hlabels hnext
    rw [hlabels, List.map_append, List.map_singleton, List.append_assoc, List.pairwise_append]
    refine ⟨hold, by simpa using hnext, ?_⟩
    intro i hi j hj
    have := hlt i hi
    simp only [List.singleton_append, List.mem_cons, List.not_mem_nil, or_false] at hj
    omega

theorem isElement_root_close {g g' : Growth} {name : String} (hg : ∀ n ∈ g.root, n.isElement)
    (h : g.close name = .ok g') : ∀ n ∈ g'.root, n.isElement := by
  obtain ⟨e, outer, -, ⟨e', outer', -, rfl⟩ | ⟨-, -, rfl⟩⟩ := close_eq_ok h
  · exact hg
  · rintro n ⟨⟩
    exact e.isElement_close

theorem root_attachLeaf (g : Growth) (leaf : Nat → Node) : (g.attachLeaf leaf).root = g.root := by
  unfold attachLeaf
  cases g.opened <;> rfl

/-- Only an element is made the root. -/
theorem isElement_root_step {g g' : Growth} {e : Event} (hg : ∀ n ∈ g.root, n.isElement)
    (h : g.step e = .ok g') : ∀ n ∈ g'.root, n.isElement := by
  cases e with
  | startTag name attributes =>
    rw [← Except.ok.inj h]
    exact hg
  | emptyTag name attributes =>
    have h : (g.open name attributes).close name = .ok g' := h
    exact isElement_root_close (g := g.open name attributes) hg h
  | endTag name => exact isElement_root_close hg h
  | text | cdata | comment =>
    rw [← Except.ok.inj h, root_attachLeaf]
    exact hg
  | instruction | doctype =>
    rw [← Except.ok.inj h]
    exact hg

/-- The same over a run. -/
theorem labels_run {es : List Event} {g g' : Growth} (h : es.foldlM step g = .ok g')
    (hnumbered : g.Numbered) (hroot : ∀ n ∈ g.root, n.isElement) :
    g'.labels.map Prod.snd = g.labels.map Prod.snd ++ (es.filterMap Event.tagName?).map some ∧
      g'.Numbered ∧ ∀ n ∈ g'.root, n.isElement := by
  induction es generalizing g with
  | nil =>
    obtain rfl := Except.ok.inj h
    exact ⟨by simp, hnumbered, hroot⟩
  | cons e es ih =>
    rw [List.foldlM_cons] at h
    obtain ⟨g₁, hstep, h⟩ := bind_eq_ok h
    obtain ⟨hlabels, hrest⟩ := ih h (hnumbered.step hstep) (isElement_root_step hroot hstep)
    refine ⟨?_, hrest⟩
    rw [hlabels, (labels_step hstep).1, List.filterMap_cons]
    cases e.tagName? <;> simp

end Growth

/-- **The elements of a tree are those that the tags among its events begin.** -/
theorem elements_of_growth {es : List Event} {g : Growth} {root : Node}
    (h : es.foldlM Growth.step .empty = .ok g) (hroot : g.finish = .ok root) :
    root.isElement ∧ ((Node.elementsAll [root]).map Node.id).Nodup ∧
      (Node.elementsAll [root]).map Node.name? = (es.filterMap Event.tagName?).map some := by
  obtain ⟨hlabels, hnumbered, helement⟩ := Growth.labels_run h
    (by simp [Growth.Numbered, Growth.labels, Growth.empty]) (by simp [Growth.empty])
  have hg : g.opened = [] ∧ g.root = some root := by
    unfold Growth.finish at hroot
    split at hroot
    · simp at hroot
    · simp at hroot
    · rename_i ho hr
      exact ⟨ho, by rw [hr, Except.ok.inj hroot]⟩
  have heq : g.labels = Node.labels [root] := by simp [Growth.labels, hg.1, hg.2]
  rw [Growth.Numbered, heq] at hnumbered
  rw [heq] at hlabels
  refine ⟨helement root hg.2, ?_, ?_⟩
  · have := (List.pairwise_append.mp hnumbered).1.imp Nat.ne_of_lt
    rwa [Node.labels, List.map_map] at this
  · simpa [Node.labels, Growth.labels, Growth.empty, Function.comp_def] using hlabels

end XmlLocate
