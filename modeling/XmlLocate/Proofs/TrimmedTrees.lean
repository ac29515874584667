import XmlLocate.Proofs.LocatedElements
import XmlLocate.Proofs.RawTexts

/-!
# Trees with trimmed texts

**Theorem (`trimmed_parse`).** Whether the texts of a document are trimmed has no part in whether it is
parsed, in its elements, CDATA sections and comments, or in where the elements are. Trimmed, its texts
are those that it has otherwise, without the blanks that their runs begin and end with, and those of
which nothing is left are not there.

Both trees are the tree that has the runs of text as they are written, with the data of each run in
its place or with nothing (`Node.withTexts`). This goes through the growth of a tree step by step:
`Growth.Rewrites` relates what grew from the runs to what grew from their data, and says nothing of
identities, which leaving a text out shifts. The elements are located by their order, so that
identities do not matter to that either.
-/

namespace XmlLocate

/-! ## Trees with other texts -/

namespace Node

mutual

/-- A node without the identities in it, with what `f` makes of each text in its place. -/
def withTexts (f : String → Option String) : Node → List Node
  | element _ name attributes children => [element 0 name attributes (withTextsAll f children)]
  | text _ d => (f d).toList.map (text 0)
  | cdata _ d => [cdata 0 d]
  | comment _ d => [comment 0 d]

def withTextsAll (f : String → Option String) : List Node → List Node
  | [] => []
  | n :: t => n.withTexts f ++ withTextsAll f t

end

@[simp] theorem withTextsAll_nil (f : String → Option String) : withTextsAll f [] = [] := by
  rw [withTextsAll]

@[simp] theorem withTextsAll_cons (f : String → Option String) (n : Node) (t : List Node) :
    withTextsAll f (n :: t) = n.withTexts f ++ withTextsAll f t := by
  rw [withTextsAll]

@[simp] theorem withTextsAll_append (f : String → Option String) (a b : List Node) :
    withTextsAll f (a ++ b) = withTextsAll f a ++ withTextsAll f b := by
  induction a with
  | nil => simp
  | cons n t ih => simp [ih]

/-- A tree without its texts. -/
def skeleton (n : Node) : List Node := n.withTexts fun _ => none

section

variable (f g : String → Option String)

mutual

theorem withTextsAll_withTexts : ∀ n : Node,
    withTextsAll g (n.withTexts f) = n.withTexts fun d => (f d).bind g
  | element id name attributes children => by
    rw [withTexts, withTexts, withTextsAll_cons, withTexts, withTextsAll_withTextsAll children,
      withTextsAll_nil, List.append_nil]
  | text id d => by
    rw [withTexts, withTexts]
    cases f d with
    | none => simp
    | some d => simp [withTexts]
  | cdata id d => by simp [withTexts]
  | comment id d => by simp [withTexts]

theorem withTextsAll_withTextsAll : ∀ ns : List Node,
    withTextsAll g (withTextsAll f ns) = withTextsAll (fun d => (f d).bind g) ns
  | [] => by simp
  | n :: ns => by
    rw [withTextsAll_cons, withTextsAll_append, withTextsAll_withTexts n,
      withTextsAll_withTextsAll ns, withTextsAll_cons]

end

mutual

/-- No element is lost or gained with the texts. -/
theorem names_withTexts : ∀ n : Node,
    (elementsAll (n.withTexts f)).map name? = (elementsAll [n]).map name?
  | element id name attributes children => by
    rw [withTexts, elementsAll_cons_of_isElement rfl, elementsAll_cons_of_isElement rfl]
    simp [childNodes, name?, names_withTextsAll children]
  | text id d => by
    rw [withTexts]
    cases f d <;> simp [elementsAll, preorder, isElement, kind]
  | cdata id d => by simp [withTexts, elementsAll, preorder, isElement, kind]
  | comment id d => by simp [withTexts, elementsAll, preorder, isElement, kind]

theorem names_withTextsAll : ∀ ns : List Node,
    (elementsAll (withTextsAll f ns)).map name? = (elementsAll ns).map name?
  | [] => by simp
  | n :: ns => by
    rw [withTextsAll_cons, elementsAll_append, List.map_append, names_withTexts n,
      names_withTextsAll ns, ← List.map_append, ← elementsAll_append, List.singleton_append]

end

end

variable {n n' : Node}

theorem skeleton_of_withTexts {f : String → Option String} (h : n'.withTexts some = n.withTexts f) :
    n'.skeleton = n.skeleton := by
  have := congrArg (withTextsAll fun _ => none) h
  rw [withTextsAll_withTexts, withTextsAll_withTexts] at this
  simpa [skeleton] using this

theorem names_of_skeleton (h : n'.skeleton = n.skeleton) :
    (elementsAll [n']).map name? = (elementsAll [n]).map name? := by
  rw [← names_withTexts (fun _ => none) n', ← names_withTexts (fun _ => none) n]
  exact congrArg (fun ns => (elementsAll ns).map name?) h

end Node

/-! ## Trees that grow alike -/

/-- Both runs fail with one error, or both succeed, with results that are related. -/
inductive Alike {ε α β : Type} (R : α → β → Prop) : Except ε α → Except ε β → Prop
  | ok {a : α} {b : β} : R a b → Alike R (.ok a) (.ok b)
  | error (e : ε) : Alike R (.error e) (.error e)

theorem Alike.bind {ε α β γ δ : Type} {R : α → β → Prop} {S : γ → δ → Prop} {x : Except ε α}
    {y : Except ε β} {f : α → Except ε γ} {g : β → Except ε δ} (h : Alike R x y)
    (hfg : ∀ a b, R a b → Alike S (f a) (g b)) : Alike S (x >>= f) (y >>= g) := by
  cases h with
  | ok hab => exact hfg _ _ hab
  | error e => exact .error e

/-- What an open element has of its node, without its identity and with other texts. -/
def OpenElement.withTexts (f : String → Option String) (e : OpenElement) :
    String × List Attribute × List Node :=
  (e.name, e.attributes, Node.withTextsAll f e.children.reverse)

namespace Growth

variable {f : String → Option String} {g g' : Growth}

/-- What grew in `g'` is what grew in `g`, with what `f` makes of each text in its place. -/
structure Rewrites (f : String → Option String) (g g' : Growth) : Prop where
  opened : g'.opened.map (OpenElement.withTexts some) = g.opened.map (OpenElement.withTexts f)
  root : g'.root.map (Node.withTexts some) = g.root.map (Node.withTexts f)

namespace Rewrites

theorem startTag (h : Rewrites f g g') (name : String) (attributes : List Attribute) :
    Rewrites f (g.open name attributes) (g'.open name attributes) where
  opened := congrArg ((name, attributes, []) :: ·) h.opened
  root := h.root

/-- The stacks are empty together, and their innermost elements are the same but for the texts. -/
theorem opened_cases (h : Rewrites f g g') : (g.opened = [] ∧ g'.opened = []) ∨
    ∃ e outer e' outer', g.opened = e :: outer ∧ g'.opened = e' :: outer' ∧
      e'.withTexts some = e.withTexts f ∧
      outer'.map (OpenElement.withTexts some) = outer.map (OpenElement.withTexts f) := by
  have hopened := h.opened
  cases ho : g.opened with
  | nil =>
    rw [ho, List.map_nil, List.map_eq_nil_iff] at hopened
    exact .inl ⟨rfl, hopened⟩
  | cons e outer =>
    rw [ho, List.map_cons] at hopened
    obtain ⟨e', outer', ho', he, houter⟩ := List.map_eq_cons_iff.mp hopened
    exact .inr ⟨e, outer, e', outer', rfl, ho', he, houter⟩

/-- Children that are the same but for the texts keep two elements so. -/
theorem push {e e' : OpenElement} (he : e'.withTexts some = e.withTexts f) {below below' : List Node}
    (hbelow : Node.withTextsAll some below'.reverse = Node.withTextsAll f below.reverse) :
    OpenElement.withTexts some { e' with children := below' ++ e'.children } =
      OpenElement.withTexts f { e with children := below ++ e.children } := by
  simp only [OpenElement.withTexts, Prod.mk.injEq, List.reverse_append, Node.withTextsAll_append]
    at he ⊢
  rw [he.1, he.2.1, he.2.2, hbelow]
  exact ⟨rfl, rfl, rfl⟩

theorem attach (h : Rewrites f g g') {n n' : Node} (hn : n'.withTexts some = n.withTexts f)
    (name : String) : Alike (Rewrites f) (g.attach name n) (g'.attach name n') := by
  obtain ⟨ho, ho'⟩ | ⟨e, outer, e', outer', ho, ho', he, houter⟩ := h.opened_cases
  · have hroot := h.root
    unfold Growth.attach
    rw [ho, ho']
    cases hr : g.root with
    | none =>
      rw [hr, Option.map_none, Option.map_eq_none_iff] at hroot
      rw [hroot]
      exact .ok ⟨rfl, congrArg some hn⟩
    | some root =>
      rw [hr, Option.map_some, Option.map_eq_some_iff] at hroot
      obtain ⟨root', hr', -⟩ := hroot
      rw [hr']
      exact .error _
  · have hbelow : Node.withTextsAll some [n'].reverse = Node.withTextsAll f [n].reverse := by
      simpa using hn
    have hpush := push he hbelow
    unfold Growth.attach
    rw [ho, ho']
    exact .ok ⟨congrArg₂ List.cons hpush houter, h.root⟩

theorem close (h : Rewrites f g g') (name : String) :
    Alike (Rewrites f) (g.close name) (g'.close name) := by
  obtain ⟨ho, ho'⟩ | ⟨e, outer, e', outer', ho, ho', he, houter⟩ := h.opened_cases
  · rw [Growth.close, Growth.close, ho, ho']
    exact .error _
  · have houter : Rewrites f { g with opened := outer } { g' with opened := outer' } :=
      ⟨houter, h.root⟩
    simp only [OpenElement.withTexts, Prod.mk.injEq] at he
    have hclose : e'.close.withTexts some = e.close.withTexts f := by
      rw [OpenElement.close, OpenElement.close, Node.withTexts, Node.withTexts, he.1, he.2.1, he.2.2]
    rw [Growth.close, Growth.close, ho, ho']
    dsimp only
    rw [he.1]
    exact houter.attach hclose e.name

theorem attachLeaf (h : Rewrites f g g') {leaf leaf' : Nat → Node}
    (hleaf : ∀ i j, (leaf' j).withTexts some = (leaf i).withTexts f) :
    Rewrites f (g.attachLeaf leaf) (g'.attachLeaf leaf') := by
  obtain ⟨ho, ho'⟩ | ⟨e, outer, e', outer', ho, ho', he, houter⟩ := h.opened_cases
  · rwa [attachLeaf_of_nil ho, attachLeaf_of_nil ho']
  · have hbelow : Node.withTextsAll some [leaf' g'.nextId].reverse =
        Node.withTextsAll f [leaf g.nextId].reverse := by
      simpa using hleaf _ _
    have hpush := push he hbelow
    unfold Growth.attachLeaf
    rw [ho, ho']
    exact ⟨congrArg₂ List.cons hpush houter, h.root⟩

/-- A text of which nothing is made is left out. -/
theorem leaveOut (h : Rewrites f g g') {leaf : Nat → Node} (hleaf : ∀ i, (leaf i).withTexts f = []) :
    Rewrites f (g.attachLeaf leaf) g' := by
  obtain ⟨ho, -⟩ | ⟨e, outer, e', outer', ho, ho', he, houter⟩ := h.opened_cases
  · rwa [attachLeaf_of_nil ho]
  · have hbelow : Node.withTextsAll some ([] : List Node).reverse =
        Node.withTextsAll f [leaf g.nextId].reverse := by
      simpa using (hleaf _).symm
    have hpush := push he hbelow
    unfold Growth.attachLeaf
    rw [ho]
    refine ⟨?_, h.root⟩
    rw [ho']
    exact congrArg₂ List.cons hpush houter

theorem step (h : Rewrites f g g') (e : Event) :
    Alike (Rewrites f) (g.step e) ((e.withText f).foldlM Growth.step g') := by
  cases e with
  | startTag name attributes => exact .ok (h.startTag name attributes)
  | emptyTag name attributes =>
    show Alike _ _ ((g'.step (.emptyTag name attributes)) >>= pure)
    rw [bind_pure]
    exact (h.startTag name attributes).close name
  | endTag name =>
    show Alike _ _ ((g'.step (.endTag name)) >>= pure)
    rw [bind_pure]
    exact h.close name
  | text d =>
    rw [Event.withText]
    cases hd : f d with
    | none => exact .ok (h.leaveOut fun i => by simp [Node.withTexts, hd])
    | some data => exact .ok (h.attachLeaf fun i j => by simp [Node.withTexts, hd])
  | cdata d | comment d => exact .ok (h.attachLeaf fun i j => by simp [Node.withTexts])
  | instruction | doctype => exact .ok h

theorem run (h : Rewrites f g g') (es : List Event) :
    Alike (Rewrites f) (es.foldlM Growth.step g)
      ((es.flatMap (Event.withText f)).foldlM Growth.step g') := by
  induction es generalizing g g' with
  | nil => exact .ok h
  | cons e es ih =>
    rw [List.flatMap_cons, List.foldlM_cons, List.foldlM_append]
    exact (h.step e).bind fun _ _ h => ih h

theorem finish (h : Rewrites f g g') :
    Alike (fun root root' => root'.withTexts some = root.withTexts f) g.finish g'.finish := by
  unfold Growth.finish
  obtain ⟨ho, ho'⟩ | ⟨e, outer, e', outer', ho, ho', he, -⟩ := h.opened_cases
  · have hroot := h.root
    rw [ho, ho']
    cases hr : g.root with
    | none =>
      rw [hr, Option.map_none, Option.map_eq_none_iff] at hroot
      rw [hroot]
      exact .error _
    | some root =>
      rw [hr, Option.map_some, Option.map_eq_some_iff] at hroot
      obtain ⟨root', hr', hroot⟩ := hroot
      rw [hr']
      exact .ok hroot
  · have hname : e'.name = e.name := congrArg Prod.fst he
    rw [ho, ho']
    dsimp only
    rw [hname]
    exact .error _

end Rewrites

end Growth

/-- **Events with other texts have the same tree with other texts, or fail alike.** -/
theorem Node.ofEvents_withText (f : String → Option String) (es : List Event) :
    Alike (fun root root' => root'.withTexts some = root.withTexts f) (ofEvents es)
      (ofEvents (es.flatMap (Event.withText f))) := by
  have h : Growth.Rewrites f .empty .empty := ⟨rfl, rfl⟩
  exact (h.run es).bind fun _ _ h => h.finish

/-! ## Documents with trimmed texts -/

/-- The events of a source text with its runs of text as they are written. -/
def RawEvents (source : List Char) (es : List Event) : Prop :=
  RawReads [] 0 (if source.head? = some '\ufeff' then source.tail else source) es

/-- A run of text is a kept part between blanks. Its references are in the kept part, and the blanks
stand around what that resolves to unless they are trimmed. -/
structure Trims (run : String) (before kept behind data : List Char) : Prop where
  pieces : run.toList = before ++ kept ++ behind
  blank : ∀ c ∈ before ++ behind, isBlank c
  head : ∀ c, kept.head? = some c → ¬ isBlank c
  last : ∀ c, kept.getLast? = some c → ¬ isBlank c
  resolved : resolveReferences kept = .ok data
  untrimmed : dataOf? false run = some (String.ofList (before ++ data ++ behind))
  trimmed : dataOf? true run = if kept = [] then none else some (String.ofList data)

theorem exists_trims {run : String} (hne : run ≠ "") (h : (resolved? run.toList).isSome) :
    ∃ before kept behind data, Trims run before kept behind data := by
  obtain ⟨before, behind, hrun, hblank, hresolved⟩ := resolved?_trim run.toList
  rw [hresolved, Option.isSome_map] at h
  obtain ⟨data, hdata⟩ := Option.isSome_iff_exists.mp h
  rw [hdata, Option.map_some] at hresolved
  refine ⟨before, trim run.toList, behind, data, hrun, hblank, fun _ => not_isBlank_of_head?_trim,
    fun _ => not_isBlank_of_getLast?_trim, resolved?_eq_some_iff.mp hdata, ?_, ?_⟩
  · have hne : run.toList ≠ [] := by simpa using hne
    simp [dataOf?, hne, hresolved]
  · simp [dataOf?, hdata]

theorem RawReads.ne_empty {opened : List String} {offset : Nat} {t : List Char} {es : List Event}
    (h : RawReads opened offset t es) {run : String} (hrun : .text run ∈ es) : run ≠ "" := by
  have hraw : ∀ {opened : List String} {u : List Char}, .text run ∈ rawText opened u → run ≠ "" := by
    intro opened u hmem
    unfold rawText at hmem
    split at hmem
    · exact absurd hmem List.not_mem_nil
    · next hne =>
      obtain rfl := Event.text.inj (List.mem_singleton.mp hmem)
      simpa using fun h => hne (.inl h)
  induction h with
  | run hu => exact hraw hrun
  | markup hu hsplit hmarkup _ ih =>
    rcases List.mem_append.mp hrun with hrun | hrun
    · exact hraw hrun
    · rcases List.mem_cons.mp hrun with hrun | hrun
      · exact absurd hrun.symm (ne_text_of_readMarkup hmarkup run)
      · exact ih hrun

namespace Document

variable {source : List Char} {trimmed : Bool} {root : Node}

theorem parseTree_eq_ok_iff : parseTree trimmed source = .ok root ↔
    ∃ es, RawEvents source es ∧ Event.Resolve es ∧
      Node.ofEvents (es.flatMap (Event.withText (dataOf? trimmed))) = .ok root := by
  have hread : parseTree trimmed source = .ok root ↔
      ∃ es, readEvents trimmed source = ⟨es, none⟩ ∧ Node.ofEvents es = .ok root := by
    constructor
    · intro h
      obtain ⟨g, hg, h⟩ := bind_eq_ok h
      cases hfailure : (readEvents trimmed source).failure with
      | some e => simp [hfailure] at h
      | none =>
        simp only [hfailure] at h
        refine ⟨(readEvents trimmed source).events, ?_, ?_⟩
        · rw [← hfailure]
        · rw [Node.ofEvents, ok_of_mapError hg]
          exact ok_of_mapError h
    · rintro ⟨es, hes, h⟩
      obtain ⟨g, hg, h⟩ := bind_eq_ok h
      rw [parseTree, hes]
      dsimp only
      rw [hg]
      show (g.finish).mapError ParseError.tree = _
      rw [h]
      rfl
  rw [hread]
  constructor
  · rintro ⟨es, hes, h⟩
    obtain ⟨raw, hraw, hresolve, rfl⟩ := readFrom_eq_iff.mp hes
    exact ⟨raw, hraw, hresolve, h⟩
  · rintro ⟨raw, hraw, hresolve, h⟩
    exact ⟨_, readFrom_eq_iff.mpr ⟨raw, hraw, hresolve, rfl⟩, h⟩

/-- A tree comes from one that has the runs of text as they are written. -/
theorem exists_raw_of_parseTree (h : parseTree trimmed source = .ok root) :
    ∃ es raw, RawEvents source es ∧ Event.Resolve es ∧ Node.ofEvents es = .ok raw ∧
      root.withTexts some = raw.withTexts (dataOf? trimmed) := by
  obtain ⟨es, hraw, hresolve, hroot⟩ := parseTree_eq_ok_iff.mp h
  have halike := Node.ofEvents_withText (dataOf? trimmed) es
  rw [hroot] at halike
  generalize hes : Node.ofEvents es = x at halike
  cases halike with
  | ok htexts => exact ⟨es, _, hraw, hresolve, hes, htexts⟩

/-- A tree that has the runs of text as they are written has one with their data. -/
theorem exists_parseTree_of_raw {es : List Event} {raw : Node} (hraw : RawEvents source es)
    (hresolve : Event.Resolve es) (hes : Node.ofEvents es = .ok raw) (trimmed : Bool) :
    ∃ root, parseTree trimmed source = .ok root ∧
      root.withTexts some = raw.withTexts (dataOf? trimmed) := by
  have halike := Node.ofEvents_withText (dataOf? trimmed) es
  rw [hes] at halike
  generalize hroot : Node.ofEvents (es.flatMap (Event.withText (dataOf? trimmed))) = x at halike
  cases halike with
  | ok htexts => exact ⟨_, parseTree_eq_ok_iff.mpr ⟨es, hraw, hresolve, hroot⟩, htexts⟩

theorem parseTree_of_parse {keep : Bool} {doc : Document}
    (h : parse ⟨keep, trimmed⟩ source = .ok doc) : parseTree trimmed source = .ok doc.root := by
  obtain ⟨root, hroot, h⟩ := bind_eq_ok h
  cases keep with
  | false =>
    obtain rfl := Except.ok.inj h
    exact hroot
  | true =>
    obtain ⟨t, -, h⟩ := bind_eq_ok h
    obtain rfl := Except.ok.inj h
    exact hroot

/-- A text is a document if it has a tree and, where its elements are to be located, a scan. -/
theorem exists_parse_iff (keep : Bool) : (∃ doc, parse ⟨keep, trimmed⟩ source = .ok doc) ↔
    (∃ root, parseTree trimmed source = .ok root) ∧ (keep → ∃ s, scan source = .ok s) := by
  constructor
  · rintro ⟨doc, h⟩
    obtain ⟨root, hroot, h⟩ := bind_eq_ok h
    refine ⟨⟨root, hroot⟩, ?_⟩
    rintro rfl
    obtain ⟨t, ht, -⟩ := bind_eq_ok h
    obtain ⟨s, hs, -⟩ := bind_eq_ok (ok_of_mapError ht)
    exact ⟨s, hs⟩
  · rintro ⟨⟨root, hroot⟩, hscan⟩
    cases keep with
    | false => exact ⟨⟨root, none⟩, by rw [parse, hroot]; rfl⟩
    | true =>
      obtain ⟨s, hs⟩ := hscan rfl
      refine ⟨⟨root, some ⟨source, s.spans, s.lines, correlate root.outline s.spans⟩⟩, ?_⟩
      rw [parse, hroot]
      show ((LocatedText.ofOutline source root.outline).mapError ParseError.scan >>= _) = _
      rw [LocatedText.ofOutline_of_scan hs]
      rfl

/-- Where an element is hangs on how many come before it, and on nothing else in the tree. -/
theorem exists_places (source : List Char) (keep : Bool) : ∃ place : Nat → Option Location,
    ∀ trimmed doc, parse ⟨keep, trimmed⟩ source = .ok doc →
      doc.elementNodes.map doc.location? = (List.range doc.elementNodes.length).map place := by
  cases keep with
  | false =>
    refine ⟨fun _ => none, ?_⟩
    intro trimmed doc h
    obtain ⟨root, -, h⟩ := bind_eq_ok h
    obtain rfl := Except.ok.inj h
    rw [List.map_const', List.length_range]
    exact List.map_const' ..
  | true =>
    cases hs : scan source with
    | error e =>
      refine ⟨fun _ => none, ?_⟩
      intro trimmed doc h
      obtain ⟨-, hscan⟩ := (exists_parse_iff true).mp ⟨doc, h⟩
      obtain ⟨s, hs'⟩ := hscan rfl
      simp [hs] at hs'
    | ok s =>
      refine ⟨fun k => s.elementSpans[k]?.map (⟨·, s.lines, source⟩), ?_⟩
      intro trimmed doc h
      obtain ⟨hroot, t, ht, hdoc⟩ := ofEvents_eq_ok (ofEvents_of_parse rfl h)
      obtain ⟨es, hlists⟩ := Node.exists_lists_of_ofEvents hroot
      refine List.ext_getElem (by simp) ?_
      intro k hk _
      rw [List.getElem_map, List.getElem_map, List.getElem_range]
      exact location?_of_isElement hs hlists ht hdoc (List.getElem?_eq_getElem _)

/-- What trimming leaves of a document. -/
structure TrimmedFrom (source : List Char) (doc trimmed : Document) : Prop where
  /-- The elements, CDATA sections and comments are the same. -/
  skeleton : trimmed.root.skeleton = doc.root.skeleton
  /-- Both trees are that of the runs as they are written, one with the data of each run, the other with
  the data of what is left of it. -/
  texts : ∃ es raw, RawEvents source es ∧ Node.ofEvents es = .ok raw ∧
    doc.root.withTexts some = raw.withTexts (dataOf? false) ∧
    trimmed.root.withTexts some = raw.withTexts (dataOf? true) ∧
    ∀ run, .text run ∈ es → ∃ before kept behind data, Trims run before kept behind data
  /-- The k-th elements have one location, or none. -/
  locations : trimmed.elementNodes.map trimmed.location? = doc.elementNodes.map doc.location?

/-- **Trimming changes neither elements nor locations**, nor which texts are documents. -/
theorem trimmed_parse (source : List Char) (keep : Bool) :
    ((∃ trimmed, parse ⟨keep, true⟩ source = .ok trimmed) ↔
      ∃ doc, parse ⟨keep, false⟩ source = .ok doc) ∧
    ∀ doc trimmed, parse ⟨keep, false⟩ source = .ok doc →
      parse ⟨keep, true⟩ source = .ok trimmed → TrimmedFrom source doc trimmed := by
  constructor
  · rw [exists_parse_iff, exists_parse_iff]
    refine and_congr_left fun _ => ⟨?_, ?_⟩
    all_goals
      rintro ⟨root, hroot⟩
      obtain ⟨es, raw, hraw, hresolve, hes, -⟩ := exists_raw_of_parseTree hroot
      obtain ⟨root', hroot', -⟩ := exists_parseTree_of_raw hraw hresolve hes _
      exact ⟨root', hroot'⟩
  · intro doc trimmed hdoc htrimmed
    obtain ⟨es, raw, hraw, hresolve, hes, htexts⟩ := exists_raw_of_parseTree (parseTree_of_parse hdoc)
    obtain ⟨root, hroot, htexts'⟩ := exists_parseTree_of_raw hraw hresolve hes true
    obtain rfl := Except.ok.inj (hroot.symm.trans (parseTree_of_parse htrimmed))
    have hskeleton : trimmed.root.skeleton = doc.root.skeleton :=
      (Node.skeleton_of_withTexts htexts').trans (Node.skeleton_of_withTexts htexts).symm
    refine ⟨hskeleton, ⟨es, raw, hraw, hes, htexts, htexts', ?_⟩, ?_⟩
    · intro run hrun
      exact exists_trims (hraw.ne_empty hrun) (hresolve run hrun)
    · obtain ⟨place, hplace⟩ := exists_places source keep
      have hlength : trimmed.elementNodes.length = doc.elementNodes.length := by
        have := congrArg List.length (Node.names_of_skeleton hskeleton)
        simpa [elementNodes, Node.filter_descendants] using this
      rw [hplace _ _ hdoc, hplace _ _ htrimmed, hlength]

/-- Blanks that are written as references are kept, and a run of which nothing is left is none. -/
theorem trimmed_parse_of_references : ∃ doc trimmed,
    parse ⟨true, false⟩ "<a> <b>\t&#32;x </b>\r\n<!-- c --><d/></a>".toList = .ok doc ∧
      parse ⟨true, true⟩ "<a> <b>\t&#32;x </b>\r\n<!-- c --><d/></a>".toList = .ok trimmed ∧
      TrimmedFrom "<a> <b>\t&#32;x </b>\r\n<!-- c --><d/></a>".toList doc trimmed := by
  obtain ⟨hiff, htrimmed⟩ := trimmed_parse "<a> <b>\t&#32;x </b>\r\n<!-- c --><d/></a>".toList true
  obtain ⟨doc, hdoc⟩ :
      ∃ doc, parse ⟨true, false⟩ "<a> <b>\t&#32;x </b>\r\n<!-- c --><d/></a>".toList = .ok doc :=
    exists_of_isOk (by decide +kernel)
  obtain ⟨trimmed, hparse⟩ := hiff.mpr ⟨doc, hdoc⟩
  exact ⟨doc, trimmed, hdoc, hparse, htrimmed doc trimmed hdoc hparse⟩

end Document

end XmlLocate
