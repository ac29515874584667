import XmlLocate.Proofs.TrimmedTrees

/-!
# Walks over a tree

A tree is gone through in three ways: a walk with a list of nodes still to be visited (`descendants`), a
recursion that gathers character data (`content`), and a walk over the elements alone that counts how
deep it is (`Document.elements`).

**Theorem (`traversals_agree`).** All three follow the document order of `Node.preorder`. The elements
of a document that are listed are those of its nodes that have a location, each with the number of its
ancestors.

An ancestor of a node is one with the node below it, and no walk knows the ancestors of what it visits.
The invariant of the third is that each node still to be visited waits with the number of its own. It
is kept because the ancestors of a child are those of its parent and the parent
(`ancestors_of_mem_childNodes`), for which the identities of the nodes have to be different.
-/

namespace XmlLocate

namespace Node

/-! ## Nodes below a node -/

theorem mem_preorderAll {ns : List Node} {m : Node} :
    m ∈ preorderAll ns ↔ ∃ n ∈ ns, m ∈ n.preorder := by
  induction ns with
  | nil => simp
  | cons n ns ih => simp [ih]

theorem self_mem_preorder (n : Node) : n ∈ n.preorder := by
  rw [preorder_eq]
  exact List.mem_cons_self

theorem size_lt_of_mem_childNodes {n c : Node} (hc : c ∈ n.childNodes) : c.size < n.size := by
  obtain ⟨before, behind, hsplit⟩ := List.append_of_mem hc
  rw [n.size_eq, hsplit, sizeAll_append, sizeAll_cons]
  omega

theorem preorderAll_childNodes_subset {n m : Node} (hm : m ∈ n.preorder) :
    preorderAll m.childNodes ⊆ preorderAll n.childNodes := by
  induction hsize : n.size using Nat.strong_induction_on generalizing n with
  | _ size ih =>
    subst hsize
    rw [preorder_eq] at hm
    rcases List.mem_cons.mp hm with rfl | hm
    · exact List.Subset.refl _
    · obtain ⟨c, hc, hm⟩ := mem_preorderAll.mp hm
      intro x hx
      refine mem_preorderAll.mpr ⟨c, hc, ?_⟩
      rw [preorder_eq]
      exact List.mem_cons_of_mem _ (ih _ (size_lt_of_mem_childNodes hc) hm rfl hx)

/-! ## Ancestors -/

/-- Whether a node with the identity of `n` lies below `m`. -/
def isAbove (n m : Node) : Bool := (preorderAll m.childNodes).any (·.id == n.id)

/-- The nodes of the tree that `n` lies below, outermost first. -/
def ancestors (root n : Node) : List Node :=
  root.descendants.filter fun m => m.descendants.tail.any (·.id == n.id)

theorem ancestors_eq (root n : Node) : root.ancestors n = root.preorder.filter n.isAbove := by
  rw [ancestors, descendants_eq]
  congr 1
  funext m
  rw [descendants_eq, preorder_eq, List.tail_cons, isAbove]

theorem isAbove_iff {n m : Node} : n.isAbove m ↔ n.id ∈ (preorderAll m.childNodes).map id := by
  rw [isAbove, List.any_eq_true, List.mem_map]
  simp

/-- A node lies below none of the nodes that lie where its identity does not occur. -/
theorem filter_isAbove_eq_nil {n : Node} {ms : List Node}
    (h : n.id ∉ (preorderAll ms).map id) : (preorderAll ms).filter n.isAbove = [] := by
  rw [List.filter_eq_nil_iff]
  intro m hm hn
  obtain ⟨x, hx, hid⟩ := List.mem_map.mp (isAbove_iff.mp hn)
  obtain ⟨c, hc, hm⟩ := mem_preorderAll.mp hm
  refine h (List.mem_map.mpr ⟨x, ?_, hid⟩)
  refine mem_preorderAll.mpr ⟨c, hc, ?_⟩
  rw [preorder_eq]
  exact List.mem_cons_of_mem _ (preorderAll_childNodes_subset hm hx)

variable {root n c : Node}

theorem ancestors_self (hids : (root.preorder.map id).Nodup) : root.ancestors root = [] := by
  rw [preorder_eq, List.map_cons, List.nodup_cons] at hids
  rw [ancestors_eq, preorder_eq, List.filter_cons_of_neg, filter_isAbove_eq_nil hids.1]
  rw [isAbove_iff]
  exact hids.1

/-- The ancestors of what is below a child are the node and the ancestors within the child. -/
theorem ancestors_of_mem_child (hids : (root.preorder.map id).Nodup) (hc : c ∈ root.childNodes)
    (hn : n ∈ c.preorder) : root.ancestors n = root :: c.ancestors n := by
  obtain ⟨before, behind, hsplit⟩ := List.append_of_mem hc
  have hmem : n.id ∈ c.preorder.map id := List.mem_map_of_mem hn
  rw [preorder_eq, hsplit, preorderAll_append, preorderAll_cons, List.map_cons, List.nodup_cons,
    List.map_append, List.map_append, List.nodup_append, List.nodup_append] at hids
  obtain ⟨-, -, ⟨-, -, hbehind⟩, hbefore⟩ := hids
  have habove : n.isAbove root := by
    rw [isAbove_iff, hsplit]
    simp [hmem]
  have hnot : n.id ∉ (preorderAll before).map id := fun h =>
    hbefore _ h _ (List.mem_append_left _ hmem) rfl
  have hnot' : n.id ∉ (preorderAll behind).map id := fun h => hbehind _ hmem _ h rfl
  rw [ancestors_eq, ancestors_eq, preorder_eq, List.filter_cons_of_pos habove, hsplit,
    preorderAll_append, preorderAll_cons, List.filter_append, List.filter_append,
    filter_isAbove_eq_nil hnot, filter_isAbove_eq_nil hnot', List.append_nil, List.nil_append]

/-- The ancestors of a child are those of its parent, and the parent. -/
theorem ancestors_of_mem_childNodes (hids : (root.preorder.map id).Nodup) (hn : n ∈ root.preorder)
    (hc : c ∈ n.childNodes) : root.ancestors c = root.ancestors n ++ [n] := by
  induction hsize : root.size using Nat.strong_induction_on generalizing root with
  | _ size ih =>
    subst hsize
    have hids' := hids
    rw [preorder_eq, List.map_cons, List.nodup_cons] at hids'
    have hchild : ∀ d ∈ root.childNodes, (d.preorder.map id).Nodup := by
      intro d hd
      obtain ⟨before, behind, hsplit⟩ := List.append_of_mem hd
      refine hids'.2.sublist ?_
      rw [hsplit, preorderAll_append, preorderAll_cons, ← List.append_assoc]
      exact ((List.sublist_append_right _ _).trans (List.sublist_append_left _ _)).map id
    rw [preorder_eq] at hn
    rcases List.mem_cons.mp hn with rfl | hn
    · rw [ancestors_of_mem_child hids hc c.self_mem_preorder, ancestors_self (hchild c hc),
        ancestors_self hids, List.nil_append]
    · obtain ⟨d, hd, hn⟩ := mem_preorderAll.mp hn
      have hcd : c ∈ d.preorder := by
        rw [preorder_eq]
        refine List.mem_cons_of_mem _ (preorderAll_childNodes_subset hn ?_)
        exact mem_preorderAll.mpr ⟨c, hc, c.self_mem_preorder⟩
      rw [ancestors_of_mem_child hids hd hcd, ancestors_of_mem_child hids hd hn,
        ih _ (size_lt_of_mem_childNodes hd) (hchild d hd) hn rfl, List.cons_append]

/-! ## Character data -/

/-- The data of a text or a CDATA section. -/
def textData? : Node → Option String
  | text _ d | cdata _ d => some d
  | element .. | comment .. => none

mutual

/-- Puts the character data in a node behind what was gathered before. -/
def gatherText (gathered : String) : Node → String
  | element _ _ _ c => gatherTextAll gathered c
  | text _ d | cdata _ d => gathered ++ d
  | comment .. => gathered

def gatherTextAll (gathered : String) : List Node → String
  | [] => gathered
  | n :: t => gatherTextAll (n.gatherText gathered) t

end

mutual

theorem gatherText_eq : ∀ (n : Node) (gathered : String),
    n.gatherText gathered = gathered ++ n.characterData
  | element _ _ _ children, gathered => by
    rw [gatherText, gatherTextAll_eq children, characterData]
  | text .., _ | cdata .., _ => by
    rw [gatherText, characterData]
  | comment .., gathered => by
    rw [gatherText, characterData, String.append_empty]

theorem gatherTextAll_eq : ∀ (ns : List Node) (gathered : String),
    gatherTextAll gathered ns = gathered ++ characterDataAll ns
  | [], gathered => by
    rw [gatherTextAll, characterDataAll, String.append_empty]
  | n :: ns, gathered => by
    rw [gatherTextAll, gatherTextAll_eq ns, gatherText_eq n, characterDataAll, String.append_assoc]

end

mutual

theorem characterData_eq : ∀ n : Node,
    n.characterData = String.join (n.preorder.filterMap textData?)
  | element id name attributes children => by
    rw [characterData, characterDataAll_eq children, preorder, List.filterMap_cons]
    rfl
  | text _ d | cdata _ d => by
    simp [characterData, preorder, textData?]
  | comment _ d => by
    simp [characterData, preorder, List.filterMap_cons, textData?]

theorem characterDataAll_eq : ∀ ns : List Node,
    characterDataAll ns = String.join ((preorderAll ns).filterMap textData?)
  | [] => by
    simp [characterDataAll]
  | n :: ns => by
    rw [characterDataAll, characterDataAll_eq ns, characterData_eq n, preorderAll_cons,
      List.filterMap_append, String.join_append]

end

theorem content_of_isElement {n : Node} (hn : n.isElement) :
    n.content = String.join (n.descendants.filterMap textData?) := by
  rw [descendants_eq, ← characterData_eq]
  cases n with
  | element => rfl
  | _ => exact absurd hn (by simp [isElement, kind])

end Node

namespace Document

/-! ## Elements with their depths -/

/-- What is listed of a node: an element that has a location, with the number of its ancestors. -/
def record? (d : Document) (n : Node) : Option LocatedElement :=
  match n.name?, d.location? n with
  | some name, some location => some ⟨name, (d.root.ancestors n).length, location⟩
  | _, _ => none

theorem record?_of_not_isElement (d : Document) {n : Node} (hn : ¬ n.isElement) :
    d.record? n = none := by
  cases n with
  | element => exact absurd rfl hn
  | _ => rfl

/-- Nodes that wait with the number of their ancestors are listed in document order. -/
theorem visitElements_eq (d : Document) (hids : (d.root.preorder.map Node.id).Nodup)
    (waiting : List (Nat × Node))
    (hwaiting : ∀ p ∈ waiting, p.2 ∈ d.root.preorder ∧ p.1 = (d.root.ancestors p.2).length) :
    d.visitElements waiting =
      (Node.elementsAll (waiting.map Prod.snd)).filterMap d.record? := by
  have hbelow : ∀ depth n waiting, (∀ p ∈ (depth, n) :: waiting, p.2 ∈ d.root.preorder ∧
      p.1 = (d.root.ancestors p.2).length) →
      ∀ p ∈ (n.elementChildren.map fun c => (depth + 1, c)) ++ waiting,
        p.2 ∈ d.root.preorder ∧ p.1 = (d.root.ancestors p.2).length := by
    intro depth n waiting hwaiting p hp
    obtain ⟨hn, hdepth⟩ := hwaiting _ List.mem_cons_self
    rcases List.mem_append.mp hp with hp | hp
    · obtain ⟨c, hc, rfl⟩ := List.mem_map.mp hp
      have hc := List.mem_of_mem_filter hc
      refine ⟨?_, ?_⟩
      · rw [Node.preorder_eq]
        refine List.mem_cons_of_mem _ (Node.preorderAll_childNodes_subset hn ?_)
        exact Node.mem_preorderAll.mpr ⟨c, hc, c.self_mem_preorder⟩
      · rw [Node.ancestors_of_mem_childNodes hids hn hc, List.length_append, ← hdepth]
        rfl
    · exact hwaiting p (List.mem_cons_of_mem _ hp)
  fun_induction visitElements d waiting with
  | case1 => simp
  | case2 depth n waiting below others name location hlocation hname ih =>
    have hn : n.isElement := n.isElement_iff_name.mpr ⟨name, hname⟩
    obtain ⟨-, hdepth⟩ := hwaiting _ List.mem_cons_self
    have ih := ih (hbelow _ _ _ hwaiting)
    rw [elementsAll_below] at ih
    have hrecord : d.record? n = some ⟨name, depth, location⟩ := by
      rw [record?, hname, hlocation, ← hdepth]
    rw [List.map_cons, Node.elementsAll_cons_of_isElement hn, List.filterMap_cons, hrecord]
    dsimp only
    rw [← ih]
  | case3 depth n waiting below others h ih =>
    have ih := ih (hbelow _ _ _ hwaiting)
    rw [elementsAll_below] at ih
    rw [List.map_cons]
    by_cases hn : n.isElement
    · obtain ⟨name, hname⟩ := n.isElement_iff_name.mp hn
      have hrecord : d.record? n = none := by
        rw [record?, hname]
        cases hlocation : d.location? n with
        | none => rfl
        | some location => exact absurd hlocation (h name location hname)
      rw [Node.elementsAll_cons_of_isElement hn, List.filterMap_cons, hrecord]
      exact ih
    · rw [Node.childNodes_of_not_isElement hn, Node.elementsAll_nil, List.nil_append] at ih
      rw [Node.elementsAll_cons_of_not_isElement hn]
      exact ih

theorem elements_eq (d : Document) (hids : (d.root.descendants.map Node.id).Nodup) :
    d.elements = d.root.descendants.filterMap d.record? := by
  rw [Node.descendants_eq] at hids
  rw [elements, visitElements_eq d hids, Node.descendants_eq, List.map_singleton, Node.elementsAll,
    Node.preorderAll_cons, Node.preorderAll_nil, List.append_nil, List.filterMap_filter]
  · congr 1
    funext n
    split_ifs with hn
    · rfl
    · exact (record?_of_not_isElement d hn).symm
  · intro p hp
    obtain rfl := List.mem_singleton.mp hp
    exact ⟨d.root.self_mem_preorder, by rw [Node.ancestors_self hids]; rfl⟩

theorem nodup_ids_of_parse {options : ParseOptions} {source : List Char} {d : Document}
    (h : parse options source = .ok d) : (d.root.descendants.map Node.id).Nodup := by
  obtain ⟨es, -, -, hroot⟩ := parseTree_eq_ok_iff.mp (parseTree_of_parse h)
  obtain ⟨es', hlists⟩ := Node.exists_lists_of_ofEvents hroot
  exact nodup_ids hlists

/-! ## Where they begin -/

theorem pairwise_start_of_scan {source : List Char} {s : Scan} (h : scan source = .ok s) :
    s.spans.toList.Pairwise fun s t => s.start < t.start := by
  obtain ⟨hb, rfl⟩ := scan_eq_ok_iff.mp h
  exact (pairwise_spansOf hb (fits_lex source) fun q hq => hq).imp And.left

theorem LocatedInOrder.pairwise_start {d : Document} {source : List Char} {s : Scan}
    (h : d.LocatedInOrder source s) (hs : scan source = .ok s) :
    (d.elements.map fun e => e.location.start.offset).Pairwise (· < ·) := by
  have hoffsets : (d.elements.map fun e => e.location.start.offset) =
      (d.elements.map LocatedElement.location).map fun l => l.span.start := by
    rw [List.map_map]
    exact List.map_congr_left fun e he => (h.ends e he).1
  rw [hoffsets, h.places, List.map_map, List.pairwise_map]
  exact ((pairwise_start_of_scan hs).filter _).sublist (List.take_sublist _ _)

/-- Without positions nothing is listed. -/
theorem elements_of_not_keepPositions {options : ParseOptions} (hkeep : ¬ options.keepPositions)
    {source : List Char} {d : Document} (h : parse options source = .ok d) : d.elements = [] := by
  have hids := nodup_ids_of_parse h
  obtain ⟨root, -, h⟩ := bind_eq_ok h
  rw [if_neg hkeep] at h
  obtain rfl := Except.ok.inj h
  rw [elements_eq _ hids, List.filterMap_eq_nil_iff]
  intro n _
  rw [record?]
  cases n.name? <;> rfl

end Document

/-- **All walks over a tree follow its document order.** The elements that are listed of a document are
the nodes that have a name and a location, and they begin one after the other. -/
theorem traversals_agree :
    (∀ n : Node, n.descendants = n.preorder) ∧
    (∀ n : Node, n.isElement → n.content = n.gatherText "" ∧
      n.content = String.join (n.descendants.filterMap Node.textData?)) ∧
    ∀ options source d, Document.parse options source = .ok d →
      d.elements = d.root.descendants.filterMap d.record? ∧
      (d.elements.map fun e => e.location.start.offset).Pairwise (· < ·) := by
  refine ⟨Node.descendants_eq, ?_, ?_⟩
  · intro n hn
    have hcontent := Node.content_of_isElement hn
    refine ⟨?_, hcontent⟩
    rw [Node.gatherText_eq, String.empty_append, hcontent, Node.characterData_eq, Node.descendants_eq]
  · intro options source d h
    refine ⟨d.elements_eq (Document.nodup_ids_of_parse h), ?_⟩
    by_cases hkeep : options.keepPositions
    · obtain ⟨s, hs, horder, -⟩ := Document.inOrder_of_parse hkeep h
      exact horder.pairwise_start hs
    · rw [Document.elements_of_not_keepPositions hkeep h]
      exact .nil

/-- An element with a CDATA section and a comment in it; and a document whose reader finds one element more
than the scan does, so that the last one is not listed. -/
theorem traversals_agree_beside_unlocated :
    (Node.element 0 "a" [] [.text 1 "one ", .comment 2 "c", .element 3 "b" [] [.cdata 4 "two"]]).content =
      String.join ["one ", "two"] ∧
    ∃ d, Document.parse {} "<r>t<!DOCTYPE a \"><b>u</b><!-- \"--><c/></r>".toList = .ok d ∧
      d.elements = d.root.descendants.filterMap d.record? ∧
      (d.elements.map fun e => e.location.start.offset).Pairwise (· < ·) := by
  obtain ⟨-, htexts, hdocuments⟩ := traversals_agree
  obtain ⟨d, hd⟩ :
      ∃ d, Document.parse {} "<r>t<!DOCTYPE a \"><b>u</b><!-- \"--><c/></r>".toList = .ok d :=
    exists_of_isOk (by decide +kernel)
  refine ⟨?_, d, hd, hdocuments _ _ d hd⟩
  rw [(htexts _ rfl).2, Node.descendants_eq]
  rfl

end XmlLocate
