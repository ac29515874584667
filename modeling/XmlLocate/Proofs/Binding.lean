import Mathlib.Tactic
import XmlLocate.LocatedText
import XmlLocate.Node.Linear
import XmlLocate.Proofs.Nesting
import XmlLocate.Proofs.Requests

/-!
# The elements of a tree and the element spans of a text

**Theorem (`location?_eq`).** In a tree whose nodes have identities of their own, the k-th element in
document order is located at the k-th element span, and nowhere if there are fewer spans.

Nodes that are all elements take the indexes of the element spans off the front, one for each of them
(`assignRow_elements`). No two elements have one identity, so none of these bindings is lost. Of a tree
of a document only the elements ask for spans (`requests_outline`).
-/

namespace XmlLocate

/-! ## Elements in document order -/

namespace Node

/-- The elements among some nodes and all below them, in document order. -/
def elementsAll (ns : List Node) : List Node := (preorderAll ns).filter isElement

@[simp] theorem preorderAll_nil : preorderAll [] = [] := by rw [preorderAll]

@[simp] theorem preorderAll_cons (n : Node) (t : List Node) :
    preorderAll (n :: t) = n.preorder ++ preorderAll t := by
  rw [preorderAll]

@[simp] theorem preorderAll_append (a b : List Node) :
    preorderAll (a ++ b) = preorderAll a ++ preorderAll b := by
  induction a with
  | nil => simp
  | cons n t ih => simp [ih]

theorem preorder_eq (n : Node) : n.preorder = n :: preorderAll n.childNodes := by
  cases n <;> simp [preorder, childNodes]

/-- Nodes that wait to be visited are listed as if each were listed by itself. -/
theorem visit_eq_preorderAll (ns : List Node) : visit ns = preorderAll ns := by
  fun_induction visit ns with
  | case1 => simp
  | case2 n waiting ih => rw [ih, preorderAll_append, preorderAll_cons, preorder_eq, List.cons_append]

theorem filter_descendants (n : Node) : n.descendants.filter isElement = elementsAll [n] := by
  rw [descendants, visit_eq_preorderAll, elementsAll]

@[simp] theorem elementsAll_nil : elementsAll [] = [] := by simp [elementsAll]

@[simp] theorem elementsAll_append (a b : List Node) :
    elementsAll (a ++ b) = elementsAll a ++ elementsAll b := by
  simp [elementsAll]

theorem elementsAll_cons_of_isElement {n : Node} (hn : n.isElement) (t : List Node) :
    elementsAll (n :: t) = n :: (elementsAll n.childNodes ++ elementsAll t) := by
  simp [elementsAll, preorder_eq, hn]

theorem childNodes_of_not_isElement {n : Node} (hn : ¬ n.isElement) : n.childNodes = [] := by
  cases n with
  | element => exact absurd rfl hn
  | _ => rfl

theorem elementsAll_cons_of_not_isElement {n : Node} (hn : ¬ n.isElement) (t : List Node) :
    elementsAll (n :: t) = elementsAll t := by
  simp [elementsAll, preorder_eq, childNodes_of_not_isElement hn, hn]

/-- Leaves have nothing below them. -/
theorem elementsAll_filter (ns : List Node) :
    elementsAll (ns.filter isElement) = elementsAll ns := by
  induction ns with
  | nil => rfl
  | cons n ns ih =>
    by_cases hn : n.isElement
    · rw [List.filter_cons_of_pos hn, elementsAll_cons_of_isElement hn, ih,
        elementsAll_cons_of_isElement hn]
    · rw [List.filter_cons_of_neg hn, ih, elementsAll_cons_of_not_isElement hn]

end Node

/-! ## Taking element spans -/

/-- The indexes of the element spans. -/
def elementIndices (spans : List (Nat × Span)) : List Nat :=
  (spans.filter fun p => p.2.kind == .element).map Prod.fst

theorem elementIndices_of_nextOfKind? (spans : List (Nat × Span)) :
    elementIndices spans = match nextOfKind? .element spans with
      | none => []
      | some (i, rest) => i :: elementIndices rest := by
  induction spans with
  | nil => rfl
  | cons p spans ih =>
    obtain ⟨i, s⟩ := p
    rw [nextOfKind?]
    by_cases hs : s.kind = .element
    · simp [elementIndices, hs]
    · rw [if_neg hs, ← ih]
      simp [elementIndices, hs]

/-- Elements take the element spans one after the other. -/
theorem assignRow_elements (ids : List Nat) (spans : List (Nat × Span)) :
    (assignRow (ids.map (SpanKind.element, ·)) spans).1 = ids.zip (elementIndices spans) := by
  induction ids generalizing spans with
  | nil => rfl
  | cons id ids ih =>
    have hindices := elementIndices_of_nextOfKind? spans
    rw [List.map_cons, assignRow]
    cases hnext : nextOfKind? .element spans with
    | none =>
      rw [hnext] at hindices
      rw [hindices, List.zip_nil_right]
    | some q =>
      rw [hnext] at hindices
      dsimp only at hindices ⊢
      rw [hindices, ih]
      rfl

mutual

/-- Of the nodes of a tree the elements ask for spans. -/
theorem requests_outline : ∀ n : Node, n.isElement →
    Outline.requests n.outline.preorder =
      ((Node.elementsAll [n]).map Node.id).map (SpanKind.element, ·)
  | .element id name attributes children, hn => by
    rw [Node.outline, Outline.preorder, Outline.requests_cons_of_some rfl,
      requests_outlineElements children, Node.elementsAll_cons_of_isElement hn]
    simp [Node.childNodes, Node.id]
  | .text .., hn => absurd hn (by simp [Node.isElement, Node.kind])
  | .cdata .., hn => absurd hn (by simp [Node.isElement, Node.kind])
  | .comment .., hn => absurd hn (by simp [Node.isElement, Node.kind])

theorem requests_outlineElements : ∀ ns : List Node,
    Outline.requests (Outline.preorderAll (Node.outlineElements ns)) =
      ((Node.elementsAll ns).map Node.id).map (SpanKind.element, ·)
  | [] => by
    rw [Node.outlineElements, Outline.preorderAll]
    rfl
  | n :: ns => by
    rw [Node.outlineElements]
    by_cases hn : n.isElement
    · rw [if_pos hn, Outline.preorderAll, Outline.requests_append, requests_outline n hn,
        requests_outlineElements ns, ← List.map_append, ← List.map_append, ← Node.elementsAll_append,
        List.singleton_append]
    · rw [if_neg hn, requests_outlineElements ns, Node.elementsAll_cons_of_not_isElement hn]

end

/-! ## Looking bindings up -/

theorem map_fst_zip_eq_take {α β : Type} (xs : List α) (ys : List β) :
    (xs.zip ys).map Prod.fst = xs.take (min xs.length ys.length) := by
  rw [List.zip_eq_zip_take_min]
  exact List.map_fst_zip (by simp)

theorem map_snd_zip_eq_take {α β : Type} (xs : List α) (ys : List β) :
    (xs.zip ys).map Prod.snd = ys.take (min xs.length ys.length) := by
  rw [List.zip_eq_zip_take_min]
  exact List.map_snd_zip (by simp)

theorem getElem?_foldl_insert_of_notMem {ps : List (Nat × Nat)} {id : Nat}
    (h : id ∉ ps.map Prod.fst) (m : Bindings) :
    (ps.foldl (fun m (id, i) => m.insert id i) m)[id]? = m[id]? := by
  induction ps generalizing m with
  | nil => rfl
  | cons p ps ih =>
    rw [List.map_cons, List.mem_cons, not_or] at h
    have hne : compare p.1 id ≠ .eq := fun hc => h.1 (compare_eq_iff_eq.mp hc).symm
    rw [List.foldl_cons, ih h.2, Std.TreeMap.getElem?_insert, if_neg hne]

/-- Of bindings of different identities none is lost. -/
theorem getElem?_foldl_insert {ids : List Nat} (hids : ids.Nodup) (is : List Nat) {k id : Nat}
    (hk : ids[k]? = some id) {m : Bindings} (hm : m[id]? = none) :
    ((ids.zip is).foldl (fun m (id, i) => m.insert id i) m)[id]? = is[k]? := by
  induction ids generalizing is k m with
  | nil => simp at hk
  | cons a ids ih =>
    obtain ⟨hnotMem, hids⟩ := List.nodup_cons.mp hids
    cases is with
    | nil => simpa using hm
    | cons i is =>
      rw [List.zip_cons_cons, List.foldl_cons]
      cases k with
      | zero =>
        obtain rfl : a = id := by simpa using hk
        have hzip : a ∉ (ids.zip is).map Prod.fst := by
          intro h
          obtain ⟨p, hp, rfl⟩ := List.mem_map.mp h
          exact hnotMem (List.of_mem_zip hp).1
        rw [getElem?_foldl_insert_of_notMem hzip]
        simp
      | succ k =>
        rw [List.getElem?_cons_succ] at hk ⊢
        have hne : a ≠ id := fun h => hnotMem (h ▸ List.mem_of_getElem? hk)
        refine ih hids is hk ?_
        rw [Std.TreeMap.getElem?_insert, if_neg (by simpa using hne)]
        exact hm

theorem getElem?_foldl_insert_cases {ps : List (Nat × Nat)} {m : Bindings} {id j : Nat}
    (h : (ps.foldl (fun m (id, i) => m.insert id i) m)[id]? = some j) :
    (∃ before after, ps = before ++ (id, j) :: after ∧ id ∉ after.map Prod.fst) ∨
      id ∉ ps.map Prod.fst ∧ m[id]? = some j := by
  induction ps generalizing m with
  | nil => exact .inr ⟨by simp, h⟩
  | cons p ps ih =>
    obtain ⟨id', i⟩ := p
    rcases ih h with ⟨before, after, rfl, hafter⟩ | ⟨hnotMem, hm⟩
    · exact .inl ⟨(id', i) :: before, after, rfl, hafter⟩
    · rw [Std.TreeMap.getElem?_insert] at hm
      split_ifs at hm with heq
      · obtain rfl : id' = id := compare_eq_iff_eq.mp heq
        obtain rfl : i = j := Option.some.inj hm
        exact .inl ⟨[], ps, rfl, hnotMem⟩
      · refine .inr ⟨?_, hm⟩
        rw [List.map_cons, List.mem_cons, not_or]
        exact ⟨fun h => heq (compare_eq_iff_eq.mpr h.symm), hnotMem⟩

theorem mem_foldl_insert {ps : List (Nat × Nat)} {m : Bindings} {id : Nat} :
    id ∈ ps.foldl (fun m (id, i) => m.insert id i) m ↔ id ∈ ps.map Prod.fst ∨ id ∈ m := by
  induction ps generalizing m with
  | nil => simp
  | cons p ps ih =>
    rw [List.foldl_cons, ih, Std.TreeMap.mem_insert, compare_eq_iff_eq, List.map_cons, List.mem_cons,
      ← or_assoc, or_comm (a := id ∈ ps.map Prod.fst), eq_comm]

/-! ## Locations -/

/-- The spans of the elements. -/
def Scan.elementSpans (s : Scan) : List Span := s.spans.toList.filter (·.kind == .element)

/-- Spans with their indexes. -/
def indexed (spans : Array Span) : List (Nat × Span) := spans.toList.zipIdx.map fun (s, i) => (i, s)

theorem map_snd_indexed (spans : Array Span) : (indexed spans).map Prod.snd = spans.toList := by
  simp [indexed, Function.comp_def]

theorem getElem?_of_mem_indexed {spans : Array Span} {i : Nat} {s : Span}
    (h : (i, s) ∈ indexed spans) : spans[i]? = some s := by
  obtain ⟨⟨s', i'⟩, hmem, he⟩ := List.mem_map.mp h
  obtain ⟨rfl, rfl⟩ := Prod.mk.inj he
  rw [List.mem_zipIdx_iff_getElem?] at hmem
  simpa using hmem

theorem Scan.elementSpans_eq (s : Scan) : s.elementSpans =
    ((indexed s.spans).filter fun p => p.2.kind == .element).map Prod.snd := by
  rw [elementSpans, ← map_snd_indexed, List.filter_map]
  rfl

theorem length_elementIndices (s : Scan) :
    (elementIndices (indexed s.spans)).length = s.elementSpans.length := by
  rw [s.elementSpans_eq, elementIndices, List.length_map, List.length_map]

/-- The k-th index of an element span is that of the k-th element span. -/
theorem getElem?_elementIndices (s : Scan) (k : Nat) :
    (elementIndices (indexed s.spans))[k]?.bind (s.spans[·]?) = s.elementSpans[k]? := by
  rw [s.elementSpans_eq, elementIndices, List.getElem?_map, List.getElem?_map]
  cases hp : ((indexed s.spans).filter fun p => p.2.kind == .element)[k]? with
  | none => rfl
  | some p => exact getElem?_of_mem_indexed (List.mem_of_mem_filter (List.mem_of_getElem? hp))

section

variable (o : Outline) (spans : Array Span)

/-- The bindings that correlation makes, in the order of the nodes. -/
def Outline.bound : List (Nat × Nat) := (o.assign (indexed spans)).1

/-- Of the bindings of one identity the last one counts. -/
theorem getElem?_correlate {id j : Nat} :
    (correlate o spans)[id]? = some j ↔
      ∃ before after, o.bound spans = before ++ (id, j) :: after ∧ id ∉ after.map Prod.fst := by
  constructor
  · intro h
    rcases getElem?_foldl_insert_cases h with h | ⟨-, h⟩
    · exact h
    · simp at h
  · rintro ⟨before, after, h, hafter⟩
    show ((o.bound spans).foldl _ _)[id]? = _
    rw [h, List.foldl_append, List.foldl_cons, getElem?_foldl_insert_of_notMem hafter]
    exact Std.TreeMap.getElem?_insert_self

theorem mem_correlate {id : Nat} :
    id ∈ correlate o spans ↔ id ∈ (o.bound spans).map Prod.fst :=
  mem_foldl_insert.trans (or_iff_left Std.TreeMap.not_mem_emptyc)

/-- Identities are counted once. -/
theorem size_correlate :
    (correlate o spans).size = ((o.bound spans).map Prod.fst).dedup.length := by
  rw [← Std.TreeMap.length_keys]
  refine List.Perm.length_eq ?_
  rw [List.perm_ext_iff_of_nodup Std.TreeMap.nodup_keys (List.nodup_dedup _)]
  intro id
  rw [Std.TreeMap.mem_keys, mem_correlate, List.mem_dedup]

variable {o} {ids : List Nat} (h : Outline.requests o.preorder = ids.map (SpanKind.element, ·))
include h

/-- Nodes that are all elements take the element spans one after the other. -/
theorem bound_of_requests : o.bound spans = ids.zip (elementIndices (indexed spans)) := by
  rw [Outline.bound, assign_eq_assignRow, h, assignRow_elements]

theorem map_fst_bound_of_requests : (o.bound spans).map Prod.fst =
    ids.take (min ids.length (elementIndices (indexed spans)).length) := by
  rw [bound_of_requests spans h, map_fst_zip_eq_take]

/-- Only elements are bound. -/
theorem mem_of_mem_correlate {id : Nat} (hid : id ∈ correlate o spans) : id ∈ ids := by
  rw [mem_correlate, map_fst_bound_of_requests spans h] at hid
  exact List.mem_of_mem_take hid

/-- As many elements are bound as there are, or as there are element spans. -/
theorem size_correlate_of_requests (hids : ids.Nodup) :
    (correlate o spans).size = min ids.length (elementIndices (indexed spans)).length := by
  rw [size_correlate, map_fst_bound_of_requests spans h,
    (hids.sublist (List.take_sublist _ _)).dedup, List.length_take]
  exact Nat.min_eq_left (Nat.min_le_left _ _)

end

section

variable {source : List Char} {t : LocatedText} {s : Scan}

theorem LocatedText.ofOutline_of_scan (hs : scan source = .ok s) (o : Outline) :
    LocatedText.ofOutline source o = .ok ⟨source, s.spans, s.lines, correlate o s.spans⟩ := by
  rw [ofOutline, hs]
  rfl

/-- The k-th node is located at the k-th element span if only elements ask for spans. -/
theorem LocatedText.location?_of_requests {o : Outline} {ids : List Nat}
    (h : Outline.requests o.preorder = ids.map (SpanKind.element, ·)) (hids : ids.Nodup)
    (hs : scan source = .ok s) (ht : LocatedText.ofOutline source o = .ok t) {k id : Nat}
    (hk : ids[k]? = some id) : t.location? id = s.elementSpans[k]?.map (⟨·, s.lines, source⟩) := by
  obtain rfl := Except.ok.inj (ht.symm.trans (ofOutline_of_scan hs o))
  have hbinding : (correlate o s.spans)[id]? = (elementIndices (indexed s.spans))[k]? := by
    show ((o.bound s.spans).foldl _ _)[id]? = _
    rw [bound_of_requests s.spans h]
    exact getElem?_foldl_insert hids _ hk (by simp)
  rw [LocatedText.location?]
  show (correlate o s.spans)[id]?.bind _ = _
  rw [hbinding, ← getElem?_elementIndices]
  cases (elementIndices (indexed s.spans))[k]? <;> rfl

/-- **The k-th element is located at the k-th element span.** -/
theorem LocatedText.location?_eq {root : Node} (hroot : root.isElement)
    (hids : ((Node.elementsAll [root]).map Node.id).Nodup) (hs : scan source = .ok s)
    (ht : LocatedText.ofOutline source root.outline = .ok t) {k : Nat} {n : Node}
    (hn : (Node.elementsAll [root])[k]? = some n) :
    t.location? n.id = s.elementSpans[k]?.map (⟨·, s.lines, source⟩) := by
  refine location?_of_requests (requests_outline root hroot) hids hs ht ?_
  rw [List.getElem?_map, hn, Option.map_some]

end

end XmlLocate
