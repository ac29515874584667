import XmlLocate.Proofs.Growing
import XmlLocate.Proofs.Rereading

/-!
# The tree of what was written

**Theorem (`parseTree_source`).** The text of a written document is read as the nodes that its root
stands for.

A reader makes of content the events it was written with (`readFrom_source`), and from these a tree
grows by the nodes of the content, under whatever element is open (`foldlM_events`).
-/

namespace XmlLocate

/-! ## Readings -/

@[simp] theorem Reading.prepend_prepend (es es' : List Event) (r : Reading) :
    (r.prepend es').prepend es = r.prepend (es ++ es') := by
  simp [prepend]

@[simp] theorem Reading.prepend_nil (r : Reading) : r.prepend [] = r := rfl

theorem readText_nil (trimmed : Bool) (opened : List String) (stop : Nat) :
    readText trimmed opened stop [] = .ok none := by
  cases trimmed <;> rfl

theorem readText_of_nil (trimmed : Bool) (stop : Nat) (run : List Char) :
    readText trimmed [] stop run = .ok none := by
  unfold readText
  dsimp only
  rw [if_pos (.inr rfl)]

theorem readFrom_nil (trimmed : Bool) (opened : List String) (offset : Nat) :
    readFrom trimmed opened offset [] = ⟨[], none⟩ := by
  rw [readFrom_text _ _ _ (by simp), readText_nil]
  rfl

theorem readFrom_lt (trimmed : Bool) (opened : List String) (offset : Nat) (t : List Char) :
    readFrom trimmed opened offset ('<' :: t) = readMarkupFrom trimmed opened offset t := by
  have := readFrom_markup trimmed opened offset (u := []) (by simp) t
  rwa [readText_nil] at this

/-- Text before markup is read first. -/
theorem readFrom_run {trimmed : Bool} {opened : List String} {offset : Nat} {u v : List Char}
    {event : Option Event} (hu : '<' ∉ u) (hv : v = [] ∨ ['<'] <+: v)
    (h : readText trimmed opened (offset + byteLength u) u = .ok event) :
    readFrom trimmed opened offset (u ++ v) =
      .prepend event.toList (readFrom trimmed opened (offset + byteLength u) v) := by
  rcases hv with rfl | ⟨t, rfl⟩
  · rw [List.append_nil, readFrom_text _ _ _ hu, h, readFrom_nil]
    simp [Reading.prepend]
  · rw [List.singleton_append, readFrom_markup _ _ _ hu, h, readFrom_lt]

theorem Markup.Rereads.readFrom {m : Markup} (hm : m.Rereads) {trimmed : Bool}
    {opened opened' : List String} {offset : Nat} {e : Event}
    (h : readMarkup opened offset m = .ok (e, opened')) (rest : List Char) :
    XmlLocate.readFrom trimmed opened offset (m.source ++ rest) =
      .prepend [e] (XmlLocate.readFrom trimmed opened' (offset + byteLength m.source) rest) := by
  obtain ⟨t, ht, hsplit⟩ := hm rest
  rw [ht, readFrom_lt, readMarkupFrom, hsplit]
  dsimp only
  rw [h]

namespace Written

theorem readText_run (r : Run) {opened : List String} (ho : opened ≠ []) (stop : Nat) :
    readText false opened stop r.text = .ok (some (.text (String.ofList r.text))) := by
  unfold readText
  dsimp only
  rw [if_neg Bool.false_ne_true, if_neg (not_or.mpr ⟨r.ne_nil, ho⟩),
    resolveReferences_of_notMem r.plain.2]

/-! ## Events -/

namespace Content

mutual

/-- The events that content is read as. -/
def events : Content → List Event
  | element tag children =>
    .startTag tag.nameString tag.attributeList :: (eventsAll children ++ [.endTag tag.nameString])
  | empty tag => [.emptyTag tag.nameString tag.attributeList]
  | text run => [.text (String.ofList run.text)]
  | cdata body => [.cdata (String.ofList body.text)]
  | comment body => [.comment (String.ofList body.text)]
  | instruction _ => [.instruction]

def eventsAll : List Content → List Event
  | [] => []
  | c :: cs => c.events ++ eventsAll cs

end

mutual

theorem readFrom_source : ∀ (c : Content), c.Separated → ∀ {opened : List String} {v : List Char},
    (c.isText → opened ≠ [] ∧ ['<'] <+: v) → ∀ offset : Nat,
    readFrom false opened offset (c.source ++ v) =
      .prepend c.events (readFrom false opened (offset + byteLength c.source) v)
  | element tag children, hc, opened, v, _, offset => by
    have hchildren := readFrom_sourceAll children (by rwa [Separated] at hc) tag.nameString opened
      (v := tag.stop.source ++ v) ((markup_begins _).trans (List.prefix_append _ _))
      (offset + byteLength tag.start.source)
    rw [source, events, List.append_assoc, List.append_assoc,
      tag.rereads_start.readFrom (readMarkup_start tag opened offset), hchildren,
      tag.rereads_stop.readFrom (readMarkup_stop tag opened _)]
    simp [Nat.add_assoc]
  | empty tag, _, opened, v, _, offset => by
    rw [source, events]
    exact tag.rereads_whole.readFrom (readMarkup_whole tag opened offset) v
  | text run, _, opened, v, hv, offset => by
    obtain ⟨ho, hv⟩ := hv rfl
    rw [source, events]
    exact readFrom_run run.plain.1 (.inr hv) (readText_run run ho _)
  | cdata body, _, opened, v, _, offset => by
    rw [source, events]
    exact (Markup.rereads_cdata body).readFrom rfl v
  | comment body, _, opened, v, _, offset => by
    rw [source, events]
    exact (Markup.rereads_comment body).readFrom rfl v
  | instruction i, _, opened, v, _, offset => by
    rw [source, events]
    exact (Markup.rereads_instruction i).readFrom rfl v

theorem readFrom_sourceAll : ∀ (cs : List Content), SeparatedAll cs → ∀ (name : String)
    (outer : List String) {v : List Char}, ['<'] <+: v → ∀ offset : Nat,
    readFrom false (name :: outer) offset (sourceAll cs ++ v) =
      .prepend (eventsAll cs)
        (readFrom false (name :: outer) (offset + byteLength (sourceAll cs)) v)
  | [], _, name, outer, v, _, offset => by
    rw [sourceAll, eventsAll]
    rfl
  | c :: cs, hcs, name, outer, v, hv, offset => by
    rw [SeparatedAll] at hcs
    obtain ⟨hc, hnext, hcs⟩ := hcs
    have hfirst : readFrom false (name :: outer) offset (c.source ++ (sourceAll cs ++ v)) =
        .prepend c.events (readFrom false (name :: outer) (offset + byteLength c.source)
          (sourceAll cs ++ v)) :=
      readFrom_source c hc (fun htext => ⟨by simp, sourceAll_begins (hnext htext) hv⟩) offset
    rw [sourceAll, eventsAll, List.append_assoc, hfirst, readFrom_sourceAll cs hcs name outer hv]
    simp [Nat.add_assoc]

end

/-! ## Growth -/

mutual

/-- The events of content put its nodes under the innermost open element. -/
theorem foldlM_events : ∀ (c : Content) (e : OpenElement) (outer : List OpenElement)
    (root : Option Node) (id : Nat),
    c.events.foldlM Growth.step ⟨e :: outer, root, id⟩ =
      .ok ⟨{ e with children := (c.nodes id).reverse ++ e.children } :: outer, root, id + c.count⟩
  | element tag children, e, outer, root, id => by
    have hopen : Growth.step ⟨e :: outer, root, id⟩ (.startTag tag.nameString tag.attributeList) =
        .ok ⟨⟨id, tag.nameString, tag.attributeList, []⟩ :: e :: outer, root, id + 1⟩ := rfl
    have hchildren := foldlM_eventsAll children ⟨id, tag.nameString, tag.attributeList, []⟩
      (e :: outer) root (id + 1)
    rw [events, nodes, count, List.foldlM_cons, hopen]
    show (eventsAll children ++ [Event.endTag tag.nameString]).foldlM Growth.step _ = _
    rw [List.foldlM_append, hchildren]
    show Except.ok _ = _
    simp [OpenElement.close, Nat.add_assoc]
  | empty tag, e, outer, root, id => by
    rw [events, nodes, count]
    rfl
  | text run, e, outer, root, id => by
    rw [events, nodes, count]
    rfl
  | cdata body, e, outer, root, id => by
    rw [events, nodes, count]
    rfl
  | comment body, e, outer, root, id => by
    rw [events, nodes, count]
    rfl
  | instruction i, e, outer, root, id => by
    rw [events, nodes, count]
    rfl

theorem foldlM_eventsAll : ∀ (cs : List Content) (e : OpenElement) (outer : List OpenElement)
    (root : Option Node) (id : Nat),
    (eventsAll cs).foldlM Growth.step ⟨e :: outer, root, id⟩ =
      .ok ⟨{ e with children := (nodesAll id cs).reverse ++ e.children } :: outer, root,
        id + countAll cs⟩
  | [], e, outer, root, id => by
    rw [eventsAll, nodesAll, countAll]
    rfl
  | c :: cs, e, outer, root, id => by
    rw [eventsAll, nodesAll, countAll, List.foldlM_append, foldlM_events c e outer root id]
    show (eventsAll cs).foldlM Growth.step _ = _
    rw [foldlM_eventsAll cs]
    simp [Nat.add_assoc]

end

/-- The events of an element outside all others make it the root. -/
theorem foldlM_events_root {c : Content} (hc : c.isElement) (id : Nat) :
    ∃ n, c.nodes id = [n] ∧
      c.events.foldlM Growth.step ⟨[], none, id⟩ = .ok ⟨[], some n, id + c.count⟩ := by
  cases c with
  | element tag children =>
    have hopen : Growth.step ⟨[], none, id⟩ (.startTag tag.nameString tag.attributeList) =
        .ok ⟨[⟨id, tag.nameString, tag.attributeList, []⟩], none, id + 1⟩ := rfl
    refine ⟨_, by rw [nodes], ?_⟩
    rw [events, count, List.foldlM_cons, hopen]
    show (eventsAll children ++ [Event.endTag tag.nameString]).foldlM Growth.step _ = _
    rw [List.foldlM_append, foldlM_eventsAll]
    show Except.ok _ = _
    simp [OpenElement.close, Nat.add_assoc]
  | empty tag =>
    refine ⟨_, by rw [nodes], ?_⟩
    rw [events, count]
    rfl
  | text | cdata | comment | instruction => exact absurd hc (by simp [isElement])

end Content

/-! ## Before and behind the root -/

def Misc.events : Misc → List Event
  | blanks .. => []
  | comment body => [.comment (String.ofList body.text)]
  | instruction _ => [.instruction]

/-- A piece of markup behind blanks, as an event. -/
theorem readFrom_blanks_markup {u : List Char} (hu : '<' ∉ u) {m : Markup} (hm : m.Rereads) {e : Event}
    (h : ∀ offset, readMarkup [] offset m = .ok (e, [])) (offset : Nat) (rest : List Char) :
    readFrom false [] offset (u ++ (m.source ++ rest)) =
      .prepend [e] (readFrom false [] (offset + byteLength (u ++ m.source)) rest) := by
  have hbegin : ['<'] <+: m.source ++ rest := (markup_begins m).trans (List.prefix_append _ _)
  rw [readFrom_run hu (.inr hbegin) (readText_of_nil false _ u), hm.readFrom (h _), byteLength_append,
    Nat.add_assoc]
  rfl

theorem readFrom_miscSource (ms : List Misc) {u v : List Char} (hu : '<' ∉ u)
    (hv : v = [] ∨ ['<'] <+: v) (offset : Nat) :
    readFrom false [] offset (u ++ (miscSource ms ++ v)) =
      .prepend (ms.flatMap Misc.events)
        (readFrom false [] (offset + byteLength (u ++ miscSource ms)) v) := by
  -- Blanks run together with those before them, so the induction carries the blanks read so far.
  induction ms generalizing u offset with
  | nil =>
    have hrun := readFrom_run hu hv (readText_of_nil false (offset + byteLength u) u)
    simpa [miscSource] using hrun
  | cons m ms ih =>
    rw [miscSource_cons, List.append_assoc, List.flatMap_cons]
    cases m with
    | blanks w hw =>
      have hread := ih (notMem_append_of_blank hu hw) offset
      simpa [Misc.source, Misc.events, Nat.add_assoc] using hread
    | comment body =>
      have hread := ih (u := []) (by simp)
      simp only [List.nil_append] at hread
      rw [Misc.source, readFrom_blanks_markup hu (Markup.rereads_comment body) fun _ => rfl, hread]
      simp [Misc.events, Nat.add_assoc]
    | instruction i =>
      have hread := ih (u := []) (by simp)
      simp only [List.nil_append] at hread
      rw [Misc.source, readFrom_blanks_markup hu (Markup.rereads_instruction i) fun _ => rfl, hread]
      simp [Misc.events, Nat.add_assoc]

/-- Outside the root only elements make a tree grow. -/
theorem foldlM_miscEvents (ms : List Misc) (root : Option Node) (id : Nat) :
    (ms.flatMap Misc.events).foldlM Growth.step ⟨[], root, id⟩ = .ok ⟨[], root, id⟩ := by
  induction ms with
  | nil => rfl
  | cons m ms ih =>
    rw [List.flatMap_cons]
    cases m with
    | blanks => exact ih
    | comment | instruction =>
      rw [Misc.events, List.singleton_append, List.foldlM_cons]
      exact ih

/-! ## Documents -/

theorem begins_of_miscSource (ms : List Misc) {v : List Char} (hv : ['<'] <+: v) :
    ∃ c u, miscSource ms ++ v = c :: u ∧ (c = '<' ∨ isBlank c) := by
  induction ms with
  | nil =>
    obtain ⟨u, rfl⟩ := hv
    exact ⟨'<', u, rfl, .inl rfl⟩
  | cons m ms ih =>
    rw [miscSource_cons, List.append_assoc]
    cases m with
    | blanks w hw =>
      cases w with
      | nil => exact ih
      | cons c w => exact ⟨c, _, rfl, .inr (hw c (by simp))⟩
    | comment | instruction => exact ⟨'<', _, rfl, .inl rfl⟩

/-- A written document does not begin with a byte order mark. -/
theorem head?_source_ne (d : Written) : d.source.head? ≠ some '\ufeff' := by
  obtain ⟨c, u, hcons, hc⟩ := begins_of_miscSource d.prolog d.root_begins
  rw [source, hcons, List.head?_cons]
  rintro ⟨⟩
  rcases hc with hc | hc <;> exact absurd hc (by decide)

theorem readEvents_source (d : Written) :
    readEvents false d.source = ⟨d.prolog.flatMap Misc.events ++
      (d.root.events ++ d.epilog.flatMap Misc.events), none⟩ := by
  have hprolog := readFrom_miscSource d.prolog (u := []) (by simp) (.inr d.root_begins) 0
  have hroot : ∀ offset, readFrom false [] offset (d.root.source ++ miscSource d.epilog) =
      .prepend d.root.events (readFrom false [] (offset + byteLength d.root.source)
        (miscSource d.epilog)) :=
    Content.readFrom_source d.root d.separated fun h => absurd h d.not_isText_root
  have hepilog : ∀ offset, readFrom false [] offset (miscSource d.epilog) =
      ⟨d.epilog.flatMap Misc.events, none⟩ := by
    intro offset
    have := readFrom_miscSource d.epilog (u := []) (by simp) (.inl rfl) offset
    simpa [readFrom_nil, Reading.prepend] using this
  rw [List.nil_append] at hprolog
  rw [readEvents, if_neg d.head?_source_ne, source, hprolog, hroot, hepilog]
  rfl

/-- **The tree of a written document** is made of the nodes that its root stands for. -/
theorem parseTree_source (d : Written) :
    ∃ n, d.root.nodes 0 = [n] ∧ Document.parseTree false d.source = .ok n := by
  obtain ⟨n, hn, hroot⟩ := Content.foldlM_events_root d.isElement_root 0
  have hgrowth : (readEvents false d.source).events.foldlM Growth.step .empty =
      .ok ⟨[], some n, 0 + d.root.count⟩ := by
    rw [readEvents_source]
    show (d.prolog.flatMap Misc.events ++ (d.root.events ++ d.epilog.flatMap Misc.events)).foldlM
      Growth.step ⟨[], none, 0⟩ = _
    rw [List.foldlM_append, foldlM_miscEvents]
    show (d.root.events ++ d.epilog.flatMap Misc.events).foldlM Growth.step ⟨[], none, 0⟩ = _
    rw [List.foldlM_append, hroot]
    exact foldlM_miscEvents _ _ _
  refine ⟨n, hn, ?_⟩
  unfold Document.parseTree
  dsimp only
  rw [hgrowth, readEvents_source]
  rfl

end Written

end XmlLocate
