import XmlLocate.Proofs.ContainmentTrees
import XmlLocate.Proofs.GreedyMatching

/-!
# Trees that are located in place

A tree that some other parser made of a text need not have the nodes that a scan finds. If its elements,
with all other nodes left out, have the shape of the elements of the text, then they are located right.

**Theorem (`located_in_place`).** Let the elements of an outline have the shape of the tree that the element
spans in the first of them form. Then each element is located at the span in its own place of that tree, an
element below another lies between the tags of that one, and elements below different children of a node
are apart and in order. No other node is bound.

The k-th element is bound to the k-th element span (`LocatedText.location?_of_requests`), and two trees of
one shape with the same labels in order are the same. So the tree of locations is the tree of spans, and
what holds of places in that tree holds of the nodes (`arranged_of_layered`).
-/

namespace XmlLocate

/-! ## The elements of an outline -/

namespace Outline

def isElement (o : Outline) : Bool := o.kind == .element

mutual

/-- The trees that are left of an outline if nodes that are no elements give way to what is below
them. -/
def skeletons : Outline → List (OrderedTree Nat)
  | node kind id children =>
    if kind = .element then [.node id (skeletonsAll children)] else skeletonsAll children

def skeletonsAll : List Outline → List (OrderedTree Nat)
  | [] => []
  | o :: rest => o.skeletons ++ skeletonsAll rest

end

/-- The tree of the identities of an element and those below it. -/
def skeleton (o : Outline) : OrderedTree Nat := .node o.id (skeletonsAll o.children)

/-- The identities of the elements among some nodes. -/
def elementIds (os : List Outline) : List Nat := (os.filter isElement).map id

theorem elementIds_append (os os' : List Outline) :
    elementIds (os ++ os') = elementIds os ++ elementIds os' := by
  simp [elementIds]

theorem elementIds_cons_of_isElement {o : Outline} (ho : o.isElement) (os : List Outline) :
    elementIds (o :: os) = o.id :: elementIds os := by
  simp [elementIds, ho]

theorem elementIds_cons_of_not_isElement {o : Outline} (ho : ¬ o.isElement) (os : List Outline) :
    elementIds (o :: os) = elementIds os := by
  simp [elementIds, ho]

theorem mem_elementIds {os : List Outline} {o : Outline} (ho : o ∈ os) (he : o.isElement) :
    o.id ∈ elementIds os :=
  List.mem_map_of_mem (List.mem_filter.mpr ⟨ho, he⟩)

/-- If no character data can be located, only the elements ask for spans. -/
theorem requests_eq {os : List Outline} (h : ∀ o ∈ os, o.kind ≠ .cdataSection) :
    requests os = (elementIds os).map (SpanKind.element, ·) := by
  induction os with
  | nil => rfl
  | cons o os ih =>
    obtain ⟨kind, id, children⟩ := o
    have ih := ih fun o ho => h o (List.mem_cons_of_mem _ ho)
    cases kind with
    | element => rw [requests_cons_of_some rfl, ih]; rfl
    | cdataSection => exact absurd rfl (h _ (List.mem_cons_self ..))
    | comment | text | other => rw [requests_cons_of_none rfl, ih]; rfl

mutual

theorem labelsAll_skeletons :
    ∀ o : Outline, OrderedTree.labelsAll o.skeletons = elementIds o.preorder
  | node k i cs => by
    rw [skeletons, preorder]
    split_ifs with hk
    · rw [OrderedTree.labelsAll, OrderedTree.labels, OrderedTree.labelsAll,
        labelsAll_skeletonsAll cs, elementIds_cons_of_isElement (by simp [isElement, kind, hk]),
        List.append_nil]
      rfl
    · rw [labelsAll_skeletonsAll cs, elementIds_cons_of_not_isElement (by simp [isElement, kind, hk])]

theorem labelsAll_skeletonsAll :
    ∀ os : List Outline, OrderedTree.labelsAll (skeletonsAll os) = elementIds (preorderAll os)
  | [] => by
    rw [skeletonsAll, preorderAll, OrderedTree.labelsAll]
    rfl
  | o :: os => by
    rw [skeletonsAll, preorderAll, OrderedTree.labelsAll_append, labelsAll_skeletons o,
      labelsAll_skeletonsAll os, elementIds_append]

end

theorem mem_preorderAll {o n : Outline} {os : List Outline} (ho : o ∈ os) (hn : n ∈ o.preorder) :
    n ∈ preorderAll os := by
  induction os with
  | nil => simp at ho
  | cons o' os ih =>
    rw [preorderAll, List.mem_append]
    rcases List.mem_cons.mp ho with rfl | ho
    · exact .inl hn
    · exact .inr (ih ho)

/-! ## Places in an outline -/

section

variable {R S : Nat → Nat → Prop}

/-- `R` holds between each of the elements and those below it, `S` between elements below different
children of each of the nodes, in their order. -/
structure Arranged (R S : Nat → Nat → Prop) (os : List Outline) : Prop where
  below : ∀ a ∈ os, a.isElement → ∀ b ∈ preorderAll a.children, b.isElement → R a.id b.id
  beside : ∀ n ∈ os, n.children.Pairwise fun c d =>
    ∀ a ∈ c.preorder, a.isElement → ∀ b ∈ d.preorder, b.isElement → S a.id b.id

theorem Arranged.append {os os' : List Outline} (h : Arranged R S os) (h' : Arranged R S os') :
    Arranged R S (os ++ os') := by
  constructor
  · intro a ha
    rcases List.mem_append.mp ha with ha | ha
    · exact h.below a ha
    · exact h'.below a ha
  · intro n hn
    rcases List.mem_append.mp hn with hn | hn
    · exact h.beside n hn
    · exact h'.beside n hn

theorem pairwise_of_layered {os : List Outline} (h : OrderedTree.LayeredAll R S (skeletonsAll os)) :
    os.Pairwise fun c d =>
      ∀ a ∈ c.preorder, a.isElement → ∀ b ∈ d.preorder, b.isElement → S a.id b.id := by
  induction os with
  | nil => exact .nil
  | cons o os ih =>
    rw [skeletonsAll] at h
    obtain ⟨-, hos, hacross⟩ := h.of_append
    rw [labelsAll_skeletons, labelsAll_skeletonsAll] at hacross
    refine List.pairwise_cons.mpr ⟨?_, ih hos⟩
    intro d hd a ha hae b hb hbe
    exact hacross _ (mem_elementIds ha hae) _ (mem_elementIds (mem_preorderAll hd hb) hbe)

mutual

theorem arranged_of_layered :
    ∀ o : Outline, OrderedTree.LayeredAll R S o.skeletons → Arranged R S o.preorder
  | node k i cs, h => by
    have hbelow : k = .element → ∀ b ∈ preorderAll cs, b.isElement → R i b.id := by
      intro hk b hb hbe
      rw [skeletons, if_pos hk, OrderedTree.LayeredAll, OrderedTree.Layered,
        labelsAll_skeletonsAll] at h
      exact h.1.1 _ (mem_elementIds hb hbe)
    have hcs : OrderedTree.LayeredAll R S (skeletonsAll cs) := by
      rw [skeletons] at h
      split_ifs at h
      · rw [OrderedTree.LayeredAll, OrderedTree.Layered] at h
        exact h.1.2
      · exact h
    rw [preorder, ← List.singleton_append]
    refine Arranged.append ⟨?_, ?_⟩ (arranged_of_layeredAll cs hcs)
    · intro a ha hae
      obtain rfl := List.mem_singleton.mp ha
      exact hbelow (by simpa [isElement, kind] using hae)
    · intro n hn
      obtain rfl := List.mem_singleton.mp hn
      exact pairwise_of_layered hcs

theorem arranged_of_layeredAll :
    ∀ os : List Outline, OrderedTree.LayeredAll R S (skeletonsAll os) → Arranged R S (preorderAll os)
  | [], _ => by
    rw [preorderAll]
    exact ⟨by simp, by simp⟩
  | o :: os, h => by
    rw [skeletonsAll] at h
    obtain ⟨ho, hos, -⟩ := h.of_append
    rw [preorderAll]
    exact (arranged_of_layered o ho).append (arranged_of_layeredAll os hos)

end

end

end Outline

/-! ## Located trees -/

/-- `m` lies between the tags of the element at `l`. -/
def Location.Holds (l m : Location) : Prop :=
  (∃ h, l.span.headEnd = some h ∧ h ≤ m.startOffset) ∧ m.stopOffset < l.stopOffset

def Location.EndsBefore (l m : Location) : Prop := l.stopOffset ≤ m.startOffset

/-- Both locations are known, and `R` holds of them. -/
def Location.Related (R : Location → Location → Prop) (x y : Option Location) : Prop :=
  ∃ l m, x = some l ∧ y = some m ∧ R l m

/-- The nodes with these identities are located, and `R` holds of their locations. -/
def LocatedText.Relates (t : LocatedText) (R : Location → Location → Prop) (i j : Nat) : Prop :=
  Location.Related R (t.location? i) (t.location? j)

/-- The elements of the outline are located where the tree has spans, and no other node is bound. -/
structure LocatedInPlace (o : Outline) (tree : OrderedTree Span) (t : LocatedText) : Prop where
  /-- Each element is located at the span in its own place of the tree. -/
  places : o.skeleton.map t.location? = tree.map fun s => some ⟨s, t.lines, t.source⟩
  /-- An element below another lies between its tags; elements beside each other are apart, in order. -/
  arranged : Outline.Arranged (t.Relates Location.Holds) (t.Relates Location.EndsBefore) o.preorder
  unbound : ∀ n ∈ o.preorder, ¬ n.isElement → t.isBound n.id = false

section

variable {o : Outline} (ho : o.isElement) {tree : OrderedTree Span} {t : LocatedText}

include ho

theorem Outline.skeletons_of_isElement : o.skeletons = [o.skeleton] := by
  obtain ⟨k, i, cs⟩ := o
  rw [skeletons, if_pos (by simpa [isElement, kind] using ho)]
  rfl

theorem Outline.labels_skeleton : o.skeleton.labels = elementIds o.preorder := by
  rw [← labelsAll_skeletons, skeletons_of_isElement ho, OrderedTree.labelsAll, OrderedTree.labelsAll,
    List.append_nil]

/-- What holds along a tree of spans holds along the outline that is located there. -/
theorem arranged_of_places
    (hplaces : o.skeleton.map t.location? = tree.map fun s => some ⟨s, t.lines, t.source⟩)
    (hlayered : tree.Layered (Inside t.lines.length) (Before t.lines.length)) :
    Outline.Arranged (t.Relates Location.Holds) (t.Relates Location.EndsBefore) o.preorder := by
  have htree : (tree.map fun s => some (Location.mk s t.lines t.source)).Layered
      (Location.Related Location.Holds) (Location.Related Location.EndsBefore) := by
    rw [OrderedTree.layered_map]
    refine hlayered.imp fun a b => ⟨?_, ?_⟩
    · rintro ⟨-, hstop, hhead⟩
      exact ⟨_, _, rfl, rfl, hhead, hstop⟩
    · rintro ⟨-, hle, -⟩
      exact ⟨_, _, rfl, rfl, hle⟩
  rw [← hplaces, OrderedTree.layered_map] at htree
  refine Outline.arranged_of_layered o ?_
  rw [Outline.skeletons_of_isElement ho, OrderedTree.LayeredAll, OrderedTree.LayeredAll,
    OrderedTree.labelsAll]
  exact ⟨htree, by simp, trivial⟩

/-- If the k-th element is located at the k-th of some spans, with which those of the tree begin, a tree of
the same shape has its elements in place. -/
theorem places_of_location? {spans : List Span} (hshape : o.skeleton.shape = tree.shape)
    (hlabels : tree.labels <+: spans)
    (hlocation : ∀ k id : Nat, (Outline.elementIds o.preorder)[k]? = some id →
      t.location? id = spans[k]?.map (⟨·, t.lines, t.source⟩)) :
    o.skeleton.map t.location? = tree.map fun s => some ⟨s, t.lines, t.source⟩ := by
  have hlen : (Outline.elementIds o.preorder).length = tree.labels.length := by
    rw [← Outline.labels_skeleton ho, ← OrderedTree.length_labels_shape, hshape,
      OrderedTree.length_labels_shape]
  refine OrderedTree.eq_of_shape_eq (by rw [OrderedTree.shape_map, OrderedTree.shape_map, hshape]) ?_
  rw [OrderedTree.labels_map, OrderedTree.labels_map, Outline.labels_skeleton ho]
  refine List.ext_getElem (by simpa using hlen) ?_
  intro k hk hk'
  rw [List.length_map] at hk hk'
  rw [List.getElem_map, List.getElem_map, hlocation k _ (List.getElem?_eq_getElem hk),
    hlabels.getElem hk', List.getElem?_eq_getElem, Option.map_some]

end

/-- Nodes that ask for no span have none, as no other node has their identity. -/
theorem notMem_correlate_of_not_isElement {o : Outline} (hids : (o.preorder.map Outline.id).Nodup)
    (hkinds : ∀ n ∈ o.preorder, n.kind ≠ .cdataSection) (spans : Array Span) {n : Outline}
    (hn : n ∈ o.preorder) (hne : ¬ n.isElement) : n.id ∉ correlate o spans := by
  intro hmem
  obtain ⟨e, he, hid⟩ := List.mem_map.mp (mem_of_mem_correlate spans (Outline.requests_eq hkinds) hmem)
  obtain ⟨he, hisElement⟩ := List.mem_filter.mp he
  obtain rfl := List.inj_on_of_nodup_map hids he hn hid
  exact hne hisElement

/-- **A tree whose elements have the shape of those in the text is located in place.** -/
theorem located_in_place {source : List Char} {s : Scan} (hs : scan source = .ok s)
    (hne : s.elementSpans ≠ []) :
    ∃ tree, IsContainmentTree (byteLength source) s.elementSpans tree ∧
      (∀ tree', IsContainmentTree (byteLength source) s.elementSpans tree' → tree' = tree) ∧
      ∀ o : Outline, o.isElement → (o.preorder.map Outline.id).Nodup →
        (∀ n ∈ o.preorder, n.kind ≠ .cdataSection) → o.skeleton.shape = tree.shape →
        ∃ t, LocatedText.ofOutline source o = .ok t ∧ LocatedInPlace o tree t := by
  obtain ⟨tree, htree, hlayered, hlabels⟩ := exists_containmentTree hs hne
  refine ⟨tree, htree, fun tree' h => h.unique htree, ?_⟩
  intro o ho hids hkinds hshape
  have ht := LocatedText.ofOutline_of_scan hs o
  have hnodup : (Outline.elementIds o.preorder).Nodup := hids.sublist (List.filter_sublist.map _)
  have hplaces := places_of_location? ho hshape hlabels fun k id =>
    LocatedText.location?_of_requests (Outline.requests_eq hkinds) hnodup hs ht
  refine ⟨_, ht, hplaces, arranged_of_places ho hplaces ?_, ?_⟩
  · rwa [length_lines_of_scan hs]
  · intro n hn hne
    have := notMem_correlate_of_not_isElement hids hkinds s.spans hn hne
    rwa [← Std.TreeMap.contains_iff_mem, Bool.not_eq_true] at this

/-- Elements under a comment and under a node of another kind, in a text with a second element behind the
first. -/
theorem located_under_other_nodes :
    ∃ t, LocatedText.ofOutline "<a>x<b><c/></b><d/></a><e/>".toList
        (.node .element 7 [.node .comment 8 [.node .element 3 [.node .element 1 []], .node .text 4 []],
          .node .other 6 [.node .element 5 []]]) = .ok t ∧
      LocatedInPlace
        (.node .element 7 [.node .comment 8 [.node .element 3 [.node .element 1 []], .node .text 4 []],
          .node .other 6 [.node .element 5 []]])
        (.node ⟨0, .element, 0, some 3, some 23⟩ [
          .node ⟨2, .element, 4, some 7, some 15⟩ [.node ⟨3, .element, 7, some 11, some 11⟩ []],
          .node ⟨4, .element, 15, some 19, some 19⟩ []]) t := by
  have hscan : scan "<a>x<b><c/></b><d/></a><e/>".toList = .ok ⟨#[
      ⟨0, .element, 0, some 3, some 23⟩, ⟨1, .text, 3, none, some 4⟩,
      ⟨2, .element, 4, some 7, some 15⟩, ⟨3, .element, 7, some 11, some 11⟩,
      ⟨4, .element, 15, some 19, some 19⟩, ⟨5, .element, 23, some 27, some 27⟩],
      .ofText "<a>x<b><c/></b><d/></a><e/>".toList⟩ := by cbv
  obtain ⟨tree, -, hunique, hplaced⟩ := located_in_place hscan (by decide)
  obtain rfl := hunique (.node ⟨0, .element, 0, some 3, some 23⟩ [
    .node ⟨2, .element, 4, some 7, some 15⟩ [.node ⟨3, .element, 7, some 11, some 11⟩ []],
    .node ⟨4, .element, 15, some 19, some 19⟩ []])
    ⟨rfl, by decide, by decide⟩
  exact hplaced _ rfl (by decide) (by decide) rfl

end XmlLocate
