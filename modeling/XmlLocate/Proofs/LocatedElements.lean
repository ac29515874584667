import XmlLocate.CommandLine
import XmlLocate.Proofs.Linearisation
import XmlLocate.Proofs.OwnTags

/-!
# The elements of a document and where they are listed

**Theorem (`locations_in_order`).** Whatever events the tree of a document was built from, the k-th of
its elements is located at the k-th element span of the text, and no other node is located. So the
elements that are listed are as many as there are both elements and element spans, and each is listed
where one of the first element spans is. These are the records that `locate` prints, as `spans` prints one
for each span of the same scan (`PrintedInOrder`).

The identities in a tree that was built are all different, as they count its nodes. Only elements ask for
spans, so that what is bound are first elements and first element spans. An element without a
location therefore has none behind it that has one (`filterMap_eq_zip`), and a walk that passes over
such elements lists a first part of the others (`map_visitElements`).
-/

namespace XmlLocate

/-- Values that are found for the first of some keys pair up with these. -/
theorem filterMap_eq_zip {α β : Type} (xs : List α) (ys : List β) {f : α → Option β}
    (h : ∀ (k : Nat) x, xs[k]? = some x → f x = ys[k]?) :
    xs.filterMap (fun x => (f x).map (x, ·)) = xs.zip ys := by
  induction xs generalizing ys with
  | nil => rfl
  | cons x xs ih =>
    have hx : f x = ys[0]? := h 0 x rfl
    cases ys with
    | nil =>
      have hxs := ih [] fun k x hx => by simpa using h (k + 1) x hx
      rw [List.getElem?_nil] at hx
      simpa [hx] using hxs
    | cons y ys =>
      have hxs := ih ys fun k x hx => by simpa using h (k + 1) x hx
      rw [List.getElem?_cons_zero] at hx
      simp [hx, hxs]

theorem exists_of_isOk {ε α : Type} {x : Except ε α} (h : x.isOk) : ∃ a, x = .ok a := by
  cases x with
  | error e => exact absurd h (by simp [Except.isOk, Except.toBool])
  | ok a => exact ⟨a, rfl⟩

/-! ## Elements that are listed -/

theorem Node.isElement_iff_name (n : Node) : n.isElement ↔ ∃ name, n.name? = some name := by
  cases n <;> simp [isElement, kind, name?]

namespace Document

/-- The elements below a node come before those that were waiting. -/
theorem elementsAll_below (n : Node) (depth : Nat) (waiting : List (Nat × Node)) :
    Node.elementsAll (((n.elementChildren.map fun c => (depth + 1, c)) ++ waiting).map Prod.snd) =
      Node.elementsAll n.childNodes ++ Node.elementsAll (waiting.map Prod.snd) := by
  simp [Node.elementChildren, Node.elementsAll_filter, Function.comp_def]

/-- Elements are listed in document order, except those that have no location. -/
theorem map_visitElements (d : Document) (waiting : List (Nat × Node)) :
    (d.visitElements waiting).map (fun r => (some r.name, r.location)) =
      ((Node.elementsAll (waiting.map Prod.snd)).filterMap fun n => (d.location? n).map (n, ·)).map
        fun p => (p.1.name?, p.2) := by
  fun_induction visitElements d waiting with
  | case1 => simp
  | case2 depth n waiting below others name location hlocation hname ih =>
    have hn : n.isElement := n.isElement_iff_name.mpr ⟨name, hname⟩
    rw [elementsAll_below] at ih
    rw [List.map_cons, List.map_cons, Node.elementsAll_cons_of_isElement hn, List.filterMap_cons,
      hlocation, ih]
    simp [hname]
  | case3 depth n waiting below others h ih =>
    rw [elementsAll_below] at ih
    rw [List.map_cons]
    by_cases hn : n.isElement
    · obtain ⟨name, hname⟩ := n.isElement_iff_name.mp hn
      have hlocation : d.location? n = none := by
        rw [Option.eq_none_iff_forall_ne_some]
        intro location hlocation
        exact h name location hname hlocation
      rw [Node.elementsAll_cons_of_isElement hn, List.filterMap_cons, hlocation]
      exact ih
    · rw [Node.childNodes_of_not_isElement hn, Node.elementsAll_nil, List.nil_append] at ih
      rw [Node.elementsAll_cons_of_not_isElement hn]
      exact ih

/-! ## Documents from events -/

/-- A document with the tree of some events, located in a text. -/
def ofEvents (source : List Char) (events : List Event) : Except ParseError Document := do
  let root ← (Node.ofEvents events).mapError .tree
  let located ← (LocatedText.ofOutline source root.outline).mapError .scan
  return ⟨root, some located⟩

theorem ofEvents_eq_ok {source : List Char} {events : List Event} {doc : Document}
    (h : ofEvents source events = .ok doc) :
    Node.ofEvents events = .ok doc.root ∧
      ∃ t, LocatedText.ofOutline source doc.root.outline = .ok t ∧ doc.located = some t := by
  obtain ⟨root, hroot, h⟩ := bind_eq_ok h
  obtain ⟨located, hlocated, h⟩ := bind_eq_ok h
  obtain rfl := Except.ok.inj h
  exact ⟨ok_of_mapError hroot, located, ok_of_mapError hlocated, rfl⟩

/-- A text is parsed as the events that are read in it. -/
theorem ofEvents_of_parse {options : ParseOptions} (hkeep : options.keepPositions)
    {source : List Char} {doc : Document} (h : parse options source = .ok doc) :
    ofEvents source (readEvents options.trimText source).events = .ok doc := by
  obtain ⟨root, hroot, h⟩ := bind_eq_ok h
  rw [if_pos hkeep] at h
  have hevents : Node.ofEvents (readEvents options.trimText source).events = .ok root := by
    obtain ⟨g, hg, hroot⟩ := bind_eq_ok hroot
    rw [Node.ofEvents, ok_of_mapError hg]
    cases hfailure : (readEvents options.trimText source).failure with
    | some e => simp [hfailure] at hroot
    | none =>
      simp only [hfailure] at hroot
      exact ok_of_mapError hroot
  rw [ofEvents, hevents]
  exact h

/-! ## Where the nodes of a document are -/

def elementNodes (d : Document) : List Node := d.root.descendants.filter Node.isElement

/-- The elements of a document are located at the element spans of its text, one after the other. -/
structure LocatedInOrder (doc : Document) (source : List Char) (s : Scan) : Prop where
  /-- The k-th element is where the k-th element span is, or nowhere if there are fewer spans. -/
  element : ∀ (k : Nat) n, doc.elementNodes[k]? = some n →
    doc.location? n = s.elementSpans[k]?.map (⟨·, s.lines, source⟩)
  other : ∀ n ∈ doc.root.descendants, ¬ n.isElement → doc.location? n = none
  boundCount : doc.located.map LocatedText.boundCount =
    some (min doc.elementNodes.length s.elementSpans.length)
  /-- The spans that are listed of the text without a tree. -/
  spans : LocatedText.ofSource source = .ok ⟨source, s.spans, s.lines, ∅⟩
  /-- The elements that are listed with a location are the first ones, -/
  names : doc.elements.map (fun r => some r.name) =
    (doc.elementNodes.take (min doc.elementNodes.length s.elementSpans.length)).map Node.name?
  /-- and they are listed where the first element spans are, -/
  places : doc.elements.map LocatedElement.location =
    (s.elementSpans.take (min doc.elementNodes.length s.elementSpans.length)).map
      (⟨·, s.lines, source⟩)
  /-- from their beginnings to their ends. -/
  ends : ∀ r ∈ doc.elements, r.location.start.offset = r.location.span.start ∧
    some r.location.stop.offset = r.location.span.stop

/-- A document and the scan of its text are printed with a record for each element that is listed and
for each span. -/
structure PrintedInOrder (doc : Document) (source : List Char) (s : Scan) : Prop where
  elementLines : ∀ withHead, locateOutput doc false withHead =
    String.join (doc.elements.map fun r => r.line withHead ++ "\n")
  elementRecords : ∀ withHead, locateOutput doc true withHead =
    (Json.array (doc.elements.map (·.toJson withHead))).pretty ++ "\n"
  spanLines : spansOutput ⟨source, s.spans, s.lines, ∅⟩ false =
    String.join (s.spans.toList.zipIdx.map fun (sp, i) =>
      LocatedText.listingLine i ⟨sp, s.lines, source⟩ ++ "\n")
  spanRecords : spansOutput ⟨source, s.spans, s.lines, ∅⟩ true =
    (Json.array (s.spans.toList.map Span.toJson)).pretty ++ "\n"
  /-- The k-th record of an element has the name of the k-th element and the ends of the k-th element
  span. -/
  record : ∀ (k : Nat) r, doc.elements[k]? = some r → ∃ n sp stop head,
    doc.elementNodes[k]? = some n ∧ n.name? = some r.name ∧
    s.elementSpans[k]? = some sp ∧ sp.stop = some stop ∧
    r.location = ⟨sp, s.lines, source⟩ ∧ r.location.head? = some head ∧
    ∀ withHead, r.toJson withHead =
      .object ([("name", .string r.name), ("depth", .natural r.depth),
        ("start", (s.lines.position sp.start).toJson), ("end", (s.lines.position stop).toJson)] ++
          if withHead then [("head", .string (String.ofList head))] else [])

/-- The span of an element is one of the scan and has an end. -/
theorem exists_stop_of_elementSpans {source : List Char} {s : Scan} (hs : scan source = .ok s)
    {k : Nat} {sp : Span} (h : s.elementSpans[k]? = some sp) :
    sp ∈ s.spans ∧ ∃ stop, sp.stop = some stop := by
  obtain ⟨hsp, hkind⟩ := List.mem_filter.mp (List.mem_of_getElem? h)
  have hspan : sp ∈ s.spans := Array.mem_toList_iff.mp hsp
  exact ⟨hspan, Option.isSome_iff_exists.mp (ends_of_scan hs hspan (beq_iff_eq.mp hkind)).2⟩

section

variable {source : List Char} {s : Scan} {doc : Document} {t : LocatedText} {es : List Event}
  (hs : scan source = .ok s) (hroot : doc.root.Lists es)
  (ht : LocatedText.ofOutline source doc.root.outline = .ok t) (hdoc : doc.located = some t)

include hroot in
theorem nodup_ids : (doc.root.descendants.map Node.id).Nodup := by
  rw [hroot.ids]
  exact List.nodup_range

include hroot in
theorem nodup_ids_elementNodes : (doc.elementNodes.map Node.id).Nodup :=
  (nodup_ids hroot).sublist (List.filter_sublist.map _)

include hroot in
theorem requests_elementNodes : Outline.requests doc.root.outline.preorder =
    (doc.elementNodes.map Node.id).map (SpanKind.element, ·) := by
  rw [elementNodes, Node.filter_descendants]
  exact requests_outline doc.root hroot.isElement

include hs hroot ht hdoc

theorem location?_of_isElement {k : Nat} {n : Node} (hn : doc.elementNodes[k]? = some n) :
    doc.location? n = s.elementSpans[k]?.map (⟨·, s.lines, source⟩) := by
  rw [location?, hdoc]
  refine LocatedText.location?_of_requests (requests_elementNodes hroot) (nodup_ids_elementNodes hroot)
    hs ht ?_
  rw [List.getElem?_map, hn, Option.map_some]

/-- No element has the identity of a node that is none. -/
theorem location?_of_not_isElement {n : Node} (hn : n ∈ doc.root.descendants) (hne : ¬ n.isElement) :
    doc.location? n = none := by
  obtain rfl := Except.ok.inj (ht.symm.trans (LocatedText.ofOutline_of_scan hs _))
  have hnot : n.id ∉ correlate doc.root.outline s.spans := by
    intro hmem
    obtain ⟨e, he, hid⟩ :=
      List.mem_map.mp (mem_of_mem_correlate s.spans (requests_elementNodes hroot) hmem)
    obtain ⟨he, hisElement⟩ := List.mem_filter.mp he
    obtain rfl := List.inj_on_of_nodup_map (nodup_ids hroot) he hn hid
    exact hne hisElement
  rw [location?, hdoc]
  show (correlate doc.root.outline s.spans)[n.id]?.bind _ = none
  rw [Std.TreeMap.getElem?_eq_none hnot, Option.bind_none]

theorem boundCount_eq : doc.located.map LocatedText.boundCount =
    some (min doc.elementNodes.length s.elementSpans.length) := by
  obtain rfl := Except.ok.inj (ht.symm.trans (LocatedText.ofOutline_of_scan hs _))
  rw [hdoc, Option.map_some, LocatedText.boundCount, size_correlate_of_requests s.spans
    (requests_elementNodes hroot) (nodup_ids_elementNodes hroot), List.length_map,
    length_elementIndices]

/-- The elements that are listed with a location, and their locations. -/
theorem map_elements : doc.elements.map (fun r => (some r.name, r.location)) =
    (doc.elementNodes.zip (s.elementSpans.map (⟨·, s.lines, source⟩))).map
      fun p => (p.1.name?, p.2) := by
  have hzip := filterMap_eq_zip (f := doc.location?) doc.elementNodes
    (s.elementSpans.map fun sp => Location.mk sp s.lines source) fun k n hn => by
      rw [location?_of_isElement hs hroot ht hdoc hn, List.getElem?_map]
  rw [elements, map_visitElements, ← hzip, elementNodes, Node.filter_descendants]
  rfl

theorem map_name_elements : doc.elements.map (fun r => some r.name) =
    (doc.elementNodes.take (min doc.elementNodes.length s.elementSpans.length)).map Node.name? := by
  have h := congrArg (List.map Prod.fst) (map_elements hs hroot ht hdoc)
  have hfst := map_fst_zip_eq_take doc.elementNodes
    (s.elementSpans.map fun sp => Location.mk sp s.lines source)
  rw [List.length_map] at hfst
  rw [← hfst, List.map_map]
  rwa [List.map_map, List.map_map] at h

theorem map_location_elements : doc.elements.map LocatedElement.location =
    (s.elementSpans.take (min doc.elementNodes.length s.elementSpans.length)).map
      (⟨·, s.lines, source⟩) := by
  have h := congrArg (List.map Prod.snd) (map_elements hs hroot ht hdoc)
  have hsnd := map_snd_zip_eq_take doc.elementNodes
    (s.elementSpans.map fun sp => Location.mk sp s.lines source)
  rw [List.length_map, ← List.map_take] at hsnd
  rw [← hsnd]
  rwa [List.map_map, List.map_map] at h

/-- The k-th element that is listed is the k-th of the tree, and is listed where the k-th element span
is. -/
theorem getElem?_elements {k : Nat} {r : LocatedElement} (hr : doc.elements[k]? = some r) :
    ∃ n sp, doc.elementNodes[k]? = some n ∧ n.name? = some r.name ∧
      s.elementSpans[k]? = some sp ∧ r.location = ⟨sp, s.lines, source⟩ := by
  have h := congrArg (·[k]?) (map_elements hs hroot ht hdoc)
  rw [List.getElem?_map, List.getElem?_map, hr, Option.map_some] at h
  obtain ⟨⟨n, l⟩, hzip, h⟩ := Option.map_eq_some_iff.mp h.symm
  obtain ⟨hn, hl⟩ := List.getElem?_zip_eq_some.mp hzip
  rw [List.getElem?_map] at hl
  obtain ⟨sp, hsp, rfl⟩ := Option.map_eq_some_iff.mp hl
  obtain ⟨hname, hlocation⟩ := Prod.mk.inj h
  exact ⟨n, sp, hn, hname, hsp, hlocation.symm⟩

/-- An element that is listed begins and ends where its span does. -/
theorem offsets_of_mem_elements {r : LocatedElement} (hr : r ∈ doc.elements) :
    r.location.start.offset = r.location.span.start ∧
      some r.location.stop.offset = r.location.span.stop := by
  obtain ⟨k, hr⟩ := List.getElem?_of_mem hr
  obtain ⟨-, sp, -, -, hsp, hlocation⟩ := getElem?_elements hs hroot ht hdoc hr
  obtain ⟨hspan, stop, hstop⟩ := exists_stop_of_elementSpans hs hsp
  obtain ⟨hlt, hle⟩ := bounds_of_scan hs hspan
  obtain ⟨hstart, hend⟩ := Location.offset_range (length_lines_of_scan hs) hlt hle
  rw [hlocation]
  refine ⟨hstart, (congrArg some hend).trans ?_⟩
  rw [Span.stopIn, hstop, Option.getD_some]

theorem locatedInOrder : doc.LocatedInOrder source s where
  element _ _ hn := location?_of_isElement hs hroot ht hdoc hn
  other _ hn hne := location?_of_not_isElement hs hroot ht hdoc hn hne
  boundCount := boundCount_eq hs hroot ht hdoc
  spans := by
    rw [LocatedText.ofSource, hs]
    rfl
  names := map_name_elements hs hroot ht hdoc
  places := map_location_elements hs hroot ht hdoc
  ends _ hr := offsets_of_mem_elements hs hroot ht hdoc hr

theorem printedInOrder : doc.PrintedInOrder source s where
  elementLines _ := rfl
  elementRecords _ := rfl
  spanLines := rfl
  spanRecords := rfl
  record k r hr := by
    obtain ⟨n, sp, hn, hname, hsp, hlocation⟩ := getElem?_elements hs hroot ht hdoc hr
    obtain ⟨hspan, stop, hstop⟩ := exists_stop_of_elementSpans hs hsp
    obtain ⟨head, hhead⟩ := exists_head?_of_scan hs hspan
    rw [← hlocation] at hhead
    refine ⟨n, sp, stop, head, hn, hname, hsp, hstop, hlocation, hhead, ?_⟩
    intro withHead
    have hstart : r.location.start = s.lines.position sp.start := by
      rw [hlocation]
      rfl
    have hend : r.location.stop = s.lines.position stop := by
      rw [hlocation]
      show s.lines.position (sp.stopIn s.lines.length) = _
      rw [Span.stopIn, hstop, Option.getD_some]
    rw [LocatedElement.toJson, hstart, hend, hhead]
    rfl

end

theorem inOrder_of_ofEvents {source : List Char} {events : List Event} {doc : Document}
    (h : ofEvents source events = .ok doc) :
    ∃ s, scan source = .ok s ∧ doc.LocatedInOrder source s ∧ doc.PrintedInOrder source s := by
  obtain ⟨hroot, t, ht, hdoc⟩ := ofEvents_eq_ok h
  obtain ⟨s, hs, -⟩ := bind_eq_ok ht
  obtain ⟨es, hlists⟩ := Node.exists_lists_of_ofEvents hroot
  exact ⟨s, hs, locatedInOrder hs hlists ht hdoc, printedInOrder hs hlists ht hdoc⟩

theorem inOrder_of_parse {options : ParseOptions} (hkeep : options.keepPositions)
    {source : List Char} {doc : Document} (h : parse options source = .ok doc) :
    ∃ s, scan source = .ok s ∧ doc.LocatedInOrder source s ∧ doc.PrintedInOrder source s :=
  inOrder_of_ofEvents (ofEvents_of_parse hkeep h)

theorem runLocate_of_parse {read : String → Except FileError (List Char)} {file : String}
    {source : List Char} {doc : Document} (hread : read file = .ok source)
    (h : parse {} source = .ok doc) (json withHead : Bool) :
    runLocate read file json withHead = .success (locateOutput doc json withHead) := by
  rw [runLocate, hread]
  dsimp only
  rw [h]

/-- **Elements are located in order, whatever the tree was built from.** Of one file, `locate` prints the
elements that are listed, and `spans` the spans of the same scan. -/
theorem locations_in_order (source : List Char) :
    (∀ (options : ParseOptions) doc, options.keepPositions → parse options source = .ok doc →
      ∃ s, scan source = .ok s ∧ doc.LocatedInOrder source s) ∧
    (∀ events doc, ofEvents source events = .ok doc →
      ∃ s, scan source = .ok s ∧ doc.LocatedInOrder source s) ∧
    ∀ read file, read file = .ok source → ∀ doc, parse {} source = .ok doc →
      ∃ s, doc.LocatedInOrder source s ∧ doc.PrintedInOrder source s ∧
        (∀ json withHead,
          runLocate read file json withHead = .success (locateOutput doc json withHead)) ∧
        ∀ json, runSpans read file json = .success (spansOutput ⟨source, s.spans, s.lines, ∅⟩ json) := by
  refine ⟨?_, ?_, ?_⟩
  · intro options doc hkeep h
    obtain ⟨s, hs, horder, -⟩ := inOrder_of_parse hkeep h
    exact ⟨s, hs, horder⟩
  · intro events doc h
    obtain ⟨s, hs, horder, -⟩ := inOrder_of_ofEvents h
    exact ⟨s, hs, horder⟩
  · intro read file hread doc h
    obtain ⟨s, -, horder, hprinted⟩ := inOrder_of_parse rfl h
    refine ⟨s, horder, hprinted, runLocate_of_parse hread h, ?_⟩
    intro json
    rw [runSpans, hread]
    dsimp only
    rw [horder.spans]

/-- A document type whose text holds tags, of which only the reader of the tree takes some for tags; events
that the text does not have; and a file in which a text is a span between elements. -/
theorem located_in_order_despite_doctype :
    (∃ doc s, parse ⟨true, true⟩ "<!DOCTYPE a SYSTEM \"><b/><!--\"><a/><!-- -->".toList = .ok doc ∧
      doc.LocatedInOrder "<!DOCTYPE a SYSTEM \"><b/><!--\"><a/><!-- -->".toList s) ∧
    (∃ doc s, ofEvents "<a>t<b/></a>".toList
        [.startTag "r" [], .emptyTag "x" [], .emptyTag "y" [], .endTag "r", .comment "c"] = .ok doc ∧
      doc.LocatedInOrder "<a>t<b/></a>".toList s) ∧
    ∃ doc s, doc.LocatedInOrder "<a>t<b/></a>".toList s ∧
      doc.PrintedInOrder "<a>t<b/></a>".toList s ∧
      runLocate (fun _ => .ok "<a>t<b/></a>".toList) "f" false false =
        .success (locateOutput doc false false) ∧
      runSpans (fun _ => .ok "<a>t<b/></a>".toList) "f" false =
        .success (spansOutput ⟨"<a>t<b/></a>".toList, s.spans, s.lines, ∅⟩ false) := by
  obtain ⟨hparse, -, -⟩ := locations_in_order "<!DOCTYPE a SYSTEM \"><b/><!--\"><a/><!-- -->".toList
  obtain ⟨-, hevents, hruns⟩ := locations_in_order "<a>t<b/></a>".toList
  obtain ⟨doc, hdoc⟩ : ∃ doc, parse ⟨true, true⟩
      "<!DOCTYPE a SYSTEM \"><b/><!--\"><a/><!-- -->".toList = .ok doc :=
    exists_of_isOk (by decide +kernel)
  obtain ⟨doc₁, hdoc₁⟩ : ∃ doc, ofEvents "<a>t<b/></a>".toList
      [.startTag "r" [], .emptyTag "x" [], .emptyTag "y" [], .endTag "r", .comment "c"] = .ok doc :=
    exists_of_isOk (by decide +kernel)
  obtain ⟨doc₂, hdoc₂⟩ : ∃ doc, parse {} "<a>t<b/></a>".toList = .ok doc :=
    exists_of_isOk (by decide +kernel)
  obtain ⟨s, -, hs⟩ := hparse _ doc rfl hdoc
  obtain ⟨s₁, -, hs₁⟩ := hevents _ doc₁ hdoc₁
  obtain ⟨s₂, hs₂, hprinted, hlocate, hspans⟩ :=
    hruns (fun _ => .ok "<a>t<b/></a>".toList) "f" rfl doc₂ hdoc₂
  exact ⟨⟨doc, s, hdoc, hs⟩, ⟨doc₁, s₁, hdoc₁, hs₁⟩, doc₂, s₂, hs₂, hprinted, hlocate false false,
    hspans false⟩

end Document

end XmlLocate
