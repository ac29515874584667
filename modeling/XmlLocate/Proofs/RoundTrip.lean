import XmlLocate.Proofs.OwnTags
import XmlLocate.Proofs.WrittenScan
import XmlLocate.Proofs.WrittenTree

/-!
# Written documents, parsed

**Theorem (`parse_source`).** The text of a written document is parsed to the nodes that its root stands
for, and each element is located at the bytes it was written to.

The reader and the scan have each been followed through the text by themselves. What is left is to bring
the two together: the k-th element has the k-th element span, and that is the k-th extent.
-/

namespace XmlLocate.Written

namespace Content

mutual

theorem length_elements : ∀ (c : Content) (id offset : Nat),
    (Node.elementsAll (c.nodes id)).length = (c.extents offset).length
  | element tag children, id, offset => by
    rw [nodes, extents, Node.elementsAll_cons_of_isElement rfl]
    simp [Node.childNodes, length_elementsAll children (id + 1)
      (offset + byteLength tag.start.source)]
  | empty tag, id, offset => by
    rw [nodes, extents, Node.elementsAll_cons_of_isElement rfl]
    simp [Node.childNodes]
  | text _, _, _ | cdata _, _, _ | comment _, _, _ => by
    rw [nodes, extents, Node.elementsAll_cons_of_not_isElement (by rintro ⟨⟩)]
    rfl
  | instruction _, _, _ => by
    rw [nodes, extents]
    rfl

theorem length_elementsAll : ∀ (cs : List Content) (id offset : Nat),
    (Node.elementsAll (nodesAll id cs)).length = (extentsAll offset cs).length
  | [], _, _ => by
    rw [nodesAll, extentsAll]
    rfl
  | c :: cs, id, offset => by
    rw [nodesAll, extentsAll, Node.elementsAll_append, List.length_append, List.length_append,
      length_elements c id offset, length_elementsAll cs]

end

end Content

/-- **A written document is parsed to what was written**, and its elements are found where they were
written. -/
theorem parse_source (d : Written) :
    ∃ doc, Document.parse {} d.source = .ok doc ∧ d.root.nodes 0 = [doc.root] ∧
      List.Forall₂ (fun n e => ∃ l, doc.location? n = some l ∧ Extent.Of l.span e)
        (doc.root.descendants.filter Node.isElement) d.extents := by
  obtain ⟨root, hroot, htree⟩ := d.parseTree_source
  obtain ⟨s, hs, hspans⟩ := d.scan_source
  have hparse : Document.parse {} d.source =
      .ok ⟨root, some ⟨d.source, s.spans, s.lines, correlate root.outline s.spans⟩⟩ := by
    unfold Document.parse LocatedText.ofOutline
    rw [htree, hs]
    rfl
  refine ⟨_, hparse, hroot, ?_⟩
  obtain ⟨s', -, hs', -, -, hlocation⟩ := elements_of_parse rfl hparse
  obtain rfl : s = s' := Except.ok.inj (hs.symm.trans hs')
  obtain ⟨hlen, hget⟩ := List.forall₂_iff_get.mp hspans
  refine List.forall₂_iff_get.mpr ⟨?_, ?_⟩
  · rw [Node.filter_descendants, ← hroot]
    exact Content.length_elements d.root 0 _
  · intro k hk hk'
    have hk'' : k < s.elementSpans.length := hlen ▸ hk'
    have hl := hlocation k _ (List.getElem?_eq_getElem hk)
    rw [List.getElem?_eq_getElem hk''] at hl
    exact ⟨_, hl, hget k hk'' hk'⟩

/-- An element with an attribute, text and an element written as one tag. -/
example : ∃ d : Written, d.source = "<?p?> <a b='>'>x<c/></a>".toList ∧
    d.extents = [⟨6, 15, 24⟩, ⟨16, 20, 20⟩] := by
  have hname {c : Char} (hc : c ∈ ['a', 'b', 'c', 'p']) : ∀ d ∈ [c], IsNameChar d := by
    simp only [List.mem_cons, List.not_mem_nil, or_false] at hc
    rcases hc with rfl | rfl | rfl | rfl <;> simp [IsNameChar, isBlank]
  refine ⟨
    { prolog := [
        .instruction ⟨⟨['p'], by simp, hname (by simp)⟩, [], show ¬ ['?', '>'] <:+: ['p'] by decide⟩,
        .blanks [' '] (by simp [isBlank])]
      root := .element
        ⟨⟨['a'], by simp, hname (by simp)⟩,
          [⟨⟨['b'], by simp, hname (by simp)⟩, '\'', ['>'], rfl, by decide⟩], by simp⟩
        [.text ⟨['x'], by simp, by decide⟩, .empty ⟨⟨['c'], by simp, hname (by simp)⟩, [], by simp⟩]
      epilog := []
      isElement_root := rfl
      separated := ?_ }, ?_, ?_⟩
  · simp [Content.Separated, Content.SeparatedAll, Content.isText]
  · rfl
  · rfl

end XmlLocate.Written
