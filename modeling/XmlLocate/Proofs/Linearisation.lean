import XmlLocate.Proofs.Depths
import XmlLocate.Proofs.Growing

/-!
# Trees and the events that write them

**Theorem (`ofEvents_iff_lists`).** Building a tree from events and writing its events are inverse to
each other. Events have a tree exactly if they are those of one element and of what is outside it; the
tree is then the one that is written with the events inside that element and whose nodes are numbered
in document order. If they have none, the error is the first thing that is wrong with them.

`g.GrownFrom es` is what the steps preserve: the stack has the names of the elements open after
`es`, and what would be written of the elements begun so far are the events that lie inside them.
Every step but two kinds of end tag keeps this going (`run_cases`). That no other tree has the same
events is shown by building it again: from a tree that is numbered, `Node.events` leads back to it
(`ofEvents_events`).
-/

namespace XmlLocate

/-! ## What a tree lists -/

namespace Node

@[simp] theorem eventsAll_nil : eventsAll [] = [] := by rw [eventsAll]

@[simp] theorem eventsAll_cons (n : Node) (t : List Node) :
    eventsAll (n :: t) = n.events ++ eventsAll t := by
  rw [eventsAll]

theorem eventsAll_append (ns ns' : List Node) :
    eventsAll (ns ++ ns') = eventsAll ns ++ eventsAll ns' := by
  induction ns with
  | nil => simp
  | cons n ns ih => simp [ih]

theorem descendants_eq (n : Node) : n.descendants = n.preorder := by
  rw [descendants, visit_eq_preorderAll, preorderAll_cons, preorderAll_nil, List.append_nil]

end Node

/-- The events that elements are written with. -/
def eventListing : Listing Event where
  nodes := Node.eventsAll
  first _ name attributes := [.startTag name attributes]
  last name := [.endTag name]
  nodes_append := Node.eventsAll_append
  nodes_close e := by simp [OpenElement.close, Node.events]

/-- The identities of all nodes. -/
def idListing : Listing Nat where
  nodes ns := (Node.preorderAll ns).map Node.id
  first id _ _ := [id]
  last _ := []
  nodes_append ns ns' := by simp
  nodes_close e := by simp [OpenElement.close, Node.preorder, Node.id]

/-- A tree that is written with the events, up to the names of end tags, and is numbered in document
order. -/
structure Node.Lists (root : Node) (es : List Event) : Prop where
  isElement : root.isElement
  events : root.events.map Event.unnamed = es.map Event.unnamed
  ids : root.descendants.map Node.id = List.range root.descendants.length

namespace Growth

/-! ## One step -/

/-- What a tree has that grew from the events. -/
structure GrownFrom (g : Growth) (es : List Event) : Prop where
  names : Event.OpenNames (g.opened.map OpenElement.name) es
  completed : Event.completed es = g.root.toList.length
  isElement : ∀ n ∈ g.root, n.isElement
  events : (g.listed eventListing).map Event.unnamed = (Event.inside es).map Event.unnamed
  ids : g.listed idListing = List.range g.nextId

namespace GrownFrom

theorem empty : GrownFrom .empty [] where
  names := .level .nil
  completed := rfl
  isElement := by simp [Growth.empty]
  events := rfl
  ids := rfl

variable {es : List Event} {g : Growth} (h : g.GrownFrom es)
include h

theorem depth : Event.depth es = g.opened.length := by
  simpa using h.names.depth

theorem sound : Event.Sound es := by
  refine ⟨h.names.above, ?_⟩
  rw [h.completed]
  cases g.root <;> simp

theorem startTag (name : String) (attributes : List Attribute) :
    (g.open name attributes).GrownFrom (es ++ [.startTag name attributes]) where
  names := h.names.startTag name attributes
  completed := by
    rw [Event.completed_concat, if_neg (by simp [Event.rise])]
    exact h.completed
  isElement := h.isElement
  events := by
    have hdepth := h.depth
    rw [listed_open, Event.inside_concat, if_pos (.inr (by rw [Event.rise]; omega)), List.map_append,
      h.events, List.map_append]
    rfl
  ids := by
    rw [listed_open, h.ids]
    exact (List.range_succ).symm

/-- Outside the root a leaf is dropped, as is its event from those that lie inside. -/
theorem leaf {e : Event} (he : e.rise = 0) {leaf : Nat → Node} (hevents : ∀ id, (leaf id).events = [e])
    (hids : ∀ id, (leaf id).preorder.map Node.id = [id]) :
    (g.attachLeaf leaf).GrownFrom (es ++ [e]) := by
  have hdepth := h.depth
  have hcompleted : Event.completed (es ++ [e]) = Event.completed es := by
    rw [Event.completed_concat, if_neg (by simp [he]), Nat.add_zero]
  by_cases ho : g.opened = []
  · rw [attachLeaf_of_nil ho]
    refine ⟨h.names.concat he, hcompleted.trans h.completed, h.isElement, ?_, h.ids⟩
    rw [Event.inside_concat, if_neg (by simp [hdepth, ho, he]), List.append_nil, h.events]
  · have hpos : 0 < Event.depth es := by
      rw [hdepth]
      exact_mod_cast List.length_pos_iff.mpr ho
    have hnames : (g.attachLeaf leaf).opened.map OpenElement.name = g.opened.map OpenElement.name ∧
        (g.attachLeaf leaf).nextId = g.nextId + 1 := by
      cases hopened : g.opened with
      | nil => exact absurd hopened ho
      | cons e outer => simp [attachLeaf, hopened]
    refine ⟨?_, ?_, ?_, ?_, ?_⟩
    · rw [hnames.1]
      exact h.names.concat he
    · rw [root_attachLeaf]
      exact hcompleted.trans h.completed
    · rw [root_attachLeaf]
      exact h.isElement
    · rw [listed_attachLeaf _ ho, Event.inside_concat, if_pos (.inl hpos), List.map_append, h.events,
        List.map_append]
      simp [eventListing, hevents]
    · rw [listed_attachLeaf _ ho, h.ids, hnames.2, List.range_succ]
      simp [idListing, hids]

theorem endTag {g' : Growth} {name : String} (hclose : g.close name = .ok g') :
    g'.GrownFrom (es ++ [.endTag name]) := by
  obtain ⟨e, outer, ho, hcases⟩ := close_eq_ok hclose
  have hdepth := h.depth
  rw [ho, List.length_cons] at hdepth
  refine ⟨?_, ?_, isElement_root_close h.isElement hclose, ?_, ?_⟩
  -- The element around the closed one has a child more, but its name.
  · have hnames : g'.opened.map OpenElement.name = outer.map OpenElement.name := by
      obtain ⟨e', outer', rfl, rfl⟩ | ⟨rfl, -, rfl⟩ := hcases
      · rfl
      · rfl
    have := h.names
    rw [ho, List.map_cons] at this
    rw [hnames]
    exact this.endTag name
  · rw [Event.completed_concat, h.completed]
    obtain ⟨e', outer', rfl, rfl⟩ | ⟨rfl, hr, rfl⟩ := hcases
    · have hdeep : Event.depth es ≠ 1 := by
        rw [hdepth, List.length_cons]
        omega
      rw [if_neg fun h => hdeep h.1, Nat.add_zero]
    · rw [if_pos (by simp [hdepth, Event.rise]), hr]
      rfl
  · rw [listed_close _ ho hclose, Event.inside_concat, if_pos (.inl (by omega)), List.map_append,
      h.events, List.map_append]
    rfl
  · rw [listed_close _ ho hclose, nextId_close hclose, h.ids]
    exact List.append_nil _

end GrownFrom

/-! ## A whole run -/

/-- Why an end tag fails: nothing is open, or a second top-level element ends. -/
theorem close_eq_error {g : Growth} {name : String} {error : TreeError}
    (h : g.close name = .error error) :
    (g.opened = [] ∧ error = .unexpectedEndTag name) ∨
      ∃ e root, g.opened = [e] ∧ g.root = some root ∧ error = .multipleRoots e.name := by
  unfold close attach at h
  cases ho : g.opened with
  | nil =>
    rw [ho] at h
    exact .inl ⟨rfl, (Except.error.inj h).symm⟩
  | cons e outer =>
    rw [ho] at h
    cases outer with
    | cons e' outer' => exact absurd h (by simp)
    | nil =>
      cases hr : g.root with
      | none => simp [hr] at h
      | some root =>
        simp only [hr] at h
        exact .inr ⟨e, root, rfl, rfl, (Except.error.inj h).symm⟩

/-- An end tag that fails is the first thing that is wrong. -/
theorem GrownFrom.fails {es : List Event} {g : Growth} (h : g.GrownFrom es) {name : String}
    {error : TreeError} (hclose : g.close name = .error error) :
    ¬ Event.Sound (es ++ [.endTag name]) ∧
      ∀ behind, Event.FailsWith (es ++ .endTag name :: behind) error := by
  have hdepth := h.depth
  obtain ⟨ho, rfl⟩ | ⟨e, root, ho, hr, rfl⟩ := close_eq_error hclose
  · rw [ho, List.length_nil] at hdepth
    refine ⟨?_, fun behind => .unexpectedEndTag h.sound hdepth⟩
    intro hsound
    have := hsound.above.depth_nonneg
    rw [Event.depth_append, hdepth] at this
    simp [Event.rise] at this
  · rw [ho, List.length_singleton] at hdepth
    have hcompleted := h.completed
    rw [hr] at hcompleted
    have hnames := h.names
    rw [ho] at hnames
    refine ⟨?_, fun behind => .multipleRoots h.sound hdepth hcompleted hnames.innermost⟩
    intro hsound
    have := hsound.completed_le
    rw [Event.completed_concat, if_pos ⟨hdepth, rfl⟩, hcompleted] at this
    simp at this

/-- What a step from a tree that grew from events leads to. -/
theorem GrownFrom.step {es : List Event} {g : Growth} (h : g.GrownFrom es) {e : Event}
    (he : e.IsPlain) :
    (∃ g', g.step e = .ok g' ∧ g'.GrownFrom (es ++ [e])) ∨
      ∃ error, g.step e = .error error ∧ ¬ Event.Sound (es ++ [e]) ∧
        ∀ behind, Event.FailsWith (es ++ e :: behind) error := by
  cases e with
  | startTag name attributes => exact .inl ⟨_, rfl, h.startTag name attributes⟩
  | endTag name =>
    show (∃ g', g.close name = .ok g' ∧ _) ∨ ∃ error, g.close name = .error error ∧ _
    cases hclose : g.close name with
    | ok g' => exact .inl ⟨g', rfl, h.endTag hclose⟩
    | error error => exact .inr ⟨error, rfl, h.fails hclose⟩
  | text d | cdata d | comment d =>
    exact .inl ⟨_, rfl, h.leaf rfl (fun _ => by rw [Node.events]) fun _ => by simp [Node.preorder, Node.id]⟩
  | emptyTag | instruction | doctype => simp [Event.IsPlain, Event.parts] at he

/-- A tree grows from events up to the first thing that is wrong. -/
theorem run_cases {es : List Event} (hes : ∀ e ∈ es, e.IsPlain) :
    (∃ g, es.foldlM step .empty = .ok g ∧ g.GrownFrom es) ∨
      ∃ error, es.foldlM step .empty = .error error ∧ ¬ Event.Sound es ∧
        ∀ behind, Event.FailsWith (es ++ behind) error := by
  -- A run is extended at its end, where the stack stands; what failed before stays failed.
  induction es using List.reverseRecOn with
  | nil => exact .inl ⟨.empty, rfl, .empty⟩
  | append_singleton es e ih =>
    rw [List.foldlM_append]
    rcases ih fun e he => hes e (List.mem_append_left _ he) with
      ⟨g, hrun, hg⟩ | ⟨error, hrun, hsound, hfails⟩
    · rw [hrun]
      show (∃ g', [e].foldlM Growth.step g = .ok g' ∧ _) ∨
        ∃ error, [e].foldlM Growth.step g = .error error ∧ _
      rcases hg.step (hes e (by simp)) with ⟨g', hstep, hg'⟩ | ⟨error, hstep, hsound, hfails⟩
      · refine .inl ⟨g', ?_, hg'⟩
        rw [List.foldlM_cons, hstep]
        rfl
      · refine .inr ⟨error, ?_, hsound, ?_⟩
        · rw [List.foldlM_cons, hstep]
          rfl
        · simpa using hfails
    · rw [hrun]
      refine .inr ⟨error, rfl, fun h => hsound h.left, ?_⟩
      intro behind
      rw [List.append_assoc]
      exact hfails _

theorem run_of_sound {es : List Event} (hes : ∀ e ∈ es, e.IsPlain) (h : Event.Sound es) :
    ∃ g, es.foldlM step .empty = .ok g ∧ g.GrownFrom es := by
  rcases run_cases hes with hok | ⟨error, -, hsound, -⟩
  · exact hok
  · exact absurd h hsound

/-- Reading what an event is for a tree is reading the event. -/
theorem foldlM_parts (e : Event) (g : Growth) : e.parts.foldlM step g = g.step e := by
  cases e with
  | emptyTag name attributes => exact bind_pure ((g.open name attributes).close name)
  | startTag name attributes => exact bind_pure (g.step (.startTag name attributes))
  | endTag name => exact bind_pure (g.step (.endTag name))
  | text | cdata | comment | instruction | doctype => rfl

theorem foldlM_plain (es : List Event) (g : Growth) :
    (Event.plain es).foldlM step g = es.foldlM step g := by
  induction es generalizing g with
  | nil => rfl
  | cons e es ih =>
    rw [Event.plain, List.flatMap_cons, List.foldlM_append, List.foldlM_cons, foldlM_parts]
    exact bind_congr ih

/-! ## The end of a run -/

/-- What a tree that grew from events is at their end. -/
theorem GrownFrom.finish {es : List Event} {g : Growth} (h : g.GrownFrom es) :
    (∃ root, g.finish = .ok root ∧ Event.OneElement es ∧ root.Lists (Event.inside es)) ∨
      ∃ error, g.finish = .error error ∧ ¬ Event.OneElement es ∧ Event.FailsWith es error := by
  have hdepth := h.depth
  cases ho : g.opened with
  | cons e outer =>
    have hnames := h.names
    rw [ho] at hnames
    refine .inr ⟨.unclosedElement e.name, ?_, ?_, .unclosedElement h.sound hnames.innermost⟩
    · rw [Growth.finish, ho]
    · intro hone
      rw [hone.level.depth, ho, List.length_cons] at hdepth
      omega
  | nil =>
    cases hr : g.root with
    | none =>
      have hinside : Event.inside es = [] := by
        have := h.events
        rw [listed_of_nil _ ho, hr] at this
        simpa using this.symm
      refine .inr ⟨.emptyDocument, ?_, ?_,
        .emptyDocument (Event.rise_of_inside_nil h.names.above hinside)⟩
      · rw [Growth.finish, ho, hr]
      · intro hone
        have := h.completed
        rw [hone.completed_eq, hr] at this
        exact absurd this (by decide)
    | some root =>
      rw [ho, List.length_nil] at hdepth
      refine .inl ⟨root, ?_, ⟨⟨h.names.above, hdepth⟩, ?_⟩, h.isElement root hr, ?_, ?_⟩
      · rw [Growth.finish, ho, hr]
      · rw [h.completed, hr]
        rfl
      · have := h.events
        rw [listed_of_nil _ ho, hr] at this
        simpa [eventListing] using this
      · have hids : root.descendants.map Node.id = List.range g.nextId := by
          have := h.ids
          rw [listed_of_nil _ ho, hr] at this
          simpa [idListing, Node.descendants_eq] using this
        have hlength := congrArg List.length hids
        rw [List.length_map, List.length_range] at hlength
        rw [hids, hlength]

/-! ## Growing a tree again -/

theorem close_congr {g g' : Growth} {name : String} (h : g.close name = .ok g') (name' : String) :
    g.close name' = .ok g' := by
  unfold close at h ⊢
  cases ho : g.opened with
  | nil => simp [ho] at h
  | cons e outer => simpa [ho] using h

/-- The name of an end tag has no part in a tree. -/
theorem step_congr {g g' : Growth} {e e' : Event} (h : g.step e = .ok g')
    (he : e.unnamed = e'.unnamed) : g.step e' = .ok g' := by
  obtain rfl | ⟨name, name', rfl, rfl⟩ := Event.eq_of_unnamed he
  · exact h
  · exact close_congr h name'

theorem foldlM_congr {es es' : List Event} {g g' : Growth} (h : es.foldlM step g = .ok g')
    (hes : es.map Event.unnamed = es'.map Event.unnamed) : es'.foldlM step g = .ok g' := by
  induction es generalizing es' g with
  | nil =>
    rw [List.map_nil, eq_comm, List.map_eq_nil_iff] at hes
    rw [hes]
    exact h
  | cons e es ih =>
    obtain ⟨e', es', rfl, he, hes⟩ := List.map_eq_cons_iff.mp hes.symm
    rw [List.foldlM_cons] at h ⊢
    obtain ⟨g₁, hstep, h⟩ := bind_eq_ok h
    rw [step_congr hstep he.symm]
    exact ih h hes.symm

mutual

/-- The events of a node put it under the innermost open element. -/
theorem foldlM_events : ∀ (n : Node) (e : OpenElement) (outer : List OpenElement)
    (root : Option Node) (id : Nat), n.preorder.map Node.id = List.range' id n.preorder.length →
    n.events.foldlM step ⟨e :: outer, root, id⟩ =
      .ok ⟨{ e with children := n :: e.children } :: outer, root, id + n.preorder.length⟩
  | .element i name attributes children, e, outer, root, id, hids => by
    rw [Node.preorder, List.map_cons, List.length_cons, List.range'_succ] at hids
    obtain ⟨rfl, hids⟩ := List.cons.inj hids
    have hchildren := foldlM_eventsAll children ⟨i, name, attributes, []⟩ (e :: outer) root (i + 1)
      (by simpa [Node.id] using hids)
    have hopen : step ⟨e :: outer, root, i⟩ (.startTag name attributes) =
        .ok ⟨⟨i, name, attributes, []⟩ :: e :: outer, root, i + 1⟩ := rfl
    rw [Node.events, Node.preorder, List.cons_append, List.foldlM_cons, Node.id, hopen]
    show (Node.eventsAll children ++ [Event.endTag name]).foldlM step _ = _
    rw [List.foldlM_append, hchildren]
    show Except.ok _ = _
    simp [OpenElement.close, Nat.add_assoc, Nat.add_comm 1]
  | .text i d, e, outer, root, id, hids => by
    obtain rfl : i = id := by simpa [Node.preorder, Node.id] using hids
    rw [Node.events, Node.preorder]
    rfl
  | .cdata i d, e, outer, root, id, hids => by
    obtain rfl : i = id := by simpa [Node.preorder, Node.id] using hids
    rw [Node.events, Node.preorder]
    rfl
  | .comment i d, e, outer, root, id, hids => by
    obtain rfl : i = id := by simpa [Node.preorder, Node.id] using hids
    rw [Node.events, Node.preorder]
    rfl

theorem foldlM_eventsAll : ∀ (ns : List Node) (e : OpenElement) (outer : List OpenElement)
    (root : Option Node) (id : Nat),
    (Node.preorderAll ns).map Node.id = List.range' id (Node.preorderAll ns).length →
    (Node.eventsAll ns).foldlM step ⟨e :: outer, root, id⟩ =
      .ok ⟨{ e with children := ns.reverse ++ e.children } :: outer, root,
        id + (Node.preorderAll ns).length⟩
  | [], e, outer, root, id, _ => by
    rw [Node.eventsAll_nil, Node.preorderAll_nil]
    rfl
  | n :: ns, e, outer, root, id, hids => by
    rw [Node.preorderAll_cons, List.map_append, List.length_append, ← List.range'_append_1] at hids
    obtain ⟨hn, hns⟩ := List.append_inj hids (by simp)
    rw [Node.eventsAll_cons, List.foldlM_append, foldlM_events n e outer root id hn]
    show (Node.eventsAll ns).foldlM step _ = _
    rw [foldlM_eventsAll ns _ outer root _ hns]
    simp [Nat.add_assoc]

end

end Growth

/-- **Building the tree of a numbered element from its events leads back to it.** -/
theorem Node.ofEvents_events {root : Node} (hroot : root.isElement)
    (hids : root.descendants.map Node.id = List.range root.descendants.length) :
    Node.ofEvents root.events = .ok root := by
  cases root with
  | element i name attributes children =>
    rw [descendants_eq, preorder, List.map_cons, List.length_cons, List.range_eq_range',
      List.range'_succ] at hids
    obtain ⟨hi, hrest⟩ := List.cons.inj hids
    obtain rfl : i = 0 := hi
    have hchildren := Growth.foldlM_eventsAll children ⟨0, name, attributes, []⟩ [] none 1 hrest
    have hrun : (element 0 name attributes children).events.foldlM Growth.step .empty =
        .ok ⟨[], some (element 0 name attributes children), 1 + (preorderAll children).length⟩ := by
      rw [events, List.cons_append, List.foldlM_cons]
      show (eventsAll children ++ [Event.endTag name]).foldlM Growth.step
        ⟨[⟨0, name, attributes, []⟩], none, 1⟩ = _
      rw [List.foldlM_append, hchildren]
      show Except.ok _ = _
      simp [OpenElement.close]
    rw [ofEvents, hrun]
    rfl
  | _ => exact absurd hroot (by simp [isElement, kind])

/-- Nodes that are written with the same events are the same. -/
theorem Node.Lists.unique {root root' : Node} {es : List Event} (h : root.Lists es)
    (h' : root'.Lists es) : root = root' := by
  have hroot := ofEvents_events h.isElement h.ids
  obtain ⟨g, hrun, hfinish⟩ := bind_eq_ok hroot
  have hrun' := Growth.foldlM_congr hrun (h.events.trans h'.events.symm)
  have hroot' := ofEvents_events h'.isElement h'.ids
  rw [ofEvents, hrun'] at hroot'
  exact Except.ok.inj (hfinish.symm.trans hroot')

/-! ## Trees and failures -/

theorem Node.ofEvents_plain (es : List Event) :
    Node.ofEvents es = (Event.plain es).foldlM Growth.step .empty >>= Growth.finish := by
  rw [Growth.foldlM_plain]
  rfl

/-- Events that are sound up to an end tag that fails have no tree. -/
theorem foldlM_of_close {before behind : List Event} {g : Growth} {name : String} {error : TreeError}
    (hrun : before.foldlM Growth.step .empty = .ok g) (hclose : g.close name = .error error) :
    (before ++ .endTag name :: behind).foldlM Growth.step .empty = .error error := by
  rw [List.foldlM_append, hrun]
  show (Event.endTag name :: behind).foldlM Growth.step g = _
  rw [List.foldlM_cons]
  show g.close name >>= _ = _
  rw [hclose]
  rfl

/-- The innermost open element is the one that the depths show. -/
theorem Growth.GrownFrom.opened_eq_cons {es : List Event} {g : Growth} (h : g.GrownFrom es)
    {name : String} (hname : Event.Innermost name es) :
    ∃ e outer, g.opened = e :: outer ∧ e.name = name := by
  have hpos := hname.depth_pos h.names.above
  rw [h.depth] at hpos
  cases ho : g.opened with
  | nil => simp [ho] at hpos
  | cons e outer =>
    have hnames := h.names
    rw [ho, List.map_cons] at hnames
    exact ⟨e, outer, rfl, hnames.innermost.unique hname⟩

theorem ofEvents_of_failsWith {es : List Event} {error : TreeError} (hes : ∀ e ∈ es, e.IsPlain)
    (h : Event.FailsWith es error) :
    es.foldlM Growth.step .empty >>= Growth.finish = .error error := by
  cases h with
  | unexpectedEndTag hsound hdepth =>
    obtain ⟨g, hrun, hg⟩ := Growth.run_of_sound (fun e he => hes e (List.mem_append_left _ he)) hsound
    have ho : g.opened = [] := by simpa [hdepth] using hg.depth.symm
    rw [foldlM_of_close hrun (by rw [Growth.close, ho])]
    rfl
  | multipleRoots hsound hdepth hcompleted hname =>
    obtain ⟨g, hrun, hg⟩ := Growth.run_of_sound (fun e he => hes e (List.mem_append_left _ he)) hsound
    obtain ⟨e, outer, ho, rfl⟩ := hg.opened_eq_cons hname
    have houter : outer = [] := by simpa [ho, hdepth] using hg.depth.symm
    obtain ⟨root, hr⟩ : ∃ root, g.root = some root := by
      have := hg.completed
      rw [hcompleted] at this
      cases hr : g.root with
      | none => simp [hr] at this
      | some root => exact ⟨root, rfl⟩
    have hclose : ∀ name, g.close name = .error (.multipleRoots e.name) := by
      simp [Growth.close, Growth.attach, ho, houter, hr]
    rw [foldlM_of_close hrun (hclose _)]
    rfl
  | unclosedElement hsound hname =>
    obtain ⟨g, hrun, hg⟩ := Growth.run_of_sound hes hsound
    obtain ⟨e, outer, ho, rfl⟩ := hg.opened_eq_cons hname
    rw [hrun]
    show g.finish = _
    rw [Growth.finish, ho]
  | emptyDocument hnone =>
    obtain ⟨hlevel, hcompleted⟩ := Event.level_of_rise hnone
    obtain ⟨g, hrun, hg⟩ := Growth.run_of_sound hes ⟨hlevel.above, by omega⟩
    have ho : g.opened = [] := by simpa [hlevel.depth] using hg.depth.symm
    have hr : g.root = none := by simpa [hcompleted] using hg.completed.symm
    rw [hrun]
    show g.finish = _
    rw [Growth.finish, ho, hr]

/-- Events either have a tree or fail. -/
theorem ofEvents_cases {es : List Event} (hes : ∀ e ∈ es, e.IsPlain) :
    (∃ root, es.foldlM Growth.step .empty >>= Growth.finish = .ok root ∧ Event.OneElement es ∧
      root.Lists (Event.inside es)) ∨
    ∃ error, es.foldlM Growth.step .empty >>= Growth.finish = .error error ∧ ¬ Event.OneElement es ∧
      Event.FailsWith es error := by
  rcases Growth.run_cases hes with ⟨g, hrun, hg⟩ | ⟨error, hrun, hsound, hfails⟩
  · rw [hrun]
    exact hg.finish
  · rw [hrun]
    refine .inr ⟨error, rfl, fun hone => hsound hone.sound, ?_⟩
    simpa using hfails []

theorem Node.exists_lists_of_ofEvents {es : List Event} {root : Node} (h : Node.ofEvents es = .ok root) :
    ∃ es', root.Lists es' := by
  rw [ofEvents_plain] at h
  have hes : ∀ e ∈ Event.plain es, e.IsPlain := fun e => Event.isPlain_of_mem_plain
  rcases ofEvents_cases hes with ⟨root', hok, -, hlists⟩ | ⟨error, herror, -⟩
  · rw [hok] at h
    obtain rfl := Except.ok.inj h
    exact ⟨_, hlists⟩
  · rw [herror] at h
    exact absurd h (by simp)

/-- **Building a tree from events is inverse to writing it.** Read with two tags for each empty one, and
without what has no part in a tree, events have a tree exactly if they are those of one element, and
of what is outside it. The tree is the only one that is written with the events inside the element
and numbered in document order. If events have no tree, the error is the first thing that is wrong. -/
theorem ofEvents_iff_lists (es : List Event) :
    (∀ root, Node.ofEvents es = .ok root ↔
      Event.OneElement (Event.plain es) ∧ root.Lists (Event.inside (Event.plain es))) ∧
    ((∃ root, Node.ofEvents es = .ok root) ↔ Event.OneElement (Event.plain es)) ∧
    ∀ error, Node.ofEvents es = .error error ↔ Event.FailsWith (Event.plain es) error := by
  have hes : ∀ e ∈ Event.plain es, e.IsPlain := fun e => Event.isPlain_of_mem_plain
  rw [Node.ofEvents_plain]
  rcases ofEvents_cases hes with ⟨root, hok, hone, hlists⟩ | ⟨error, herror, hnone, hfails⟩
  · refine ⟨?_, ⟨fun _ => hone, fun _ => ⟨root, hok⟩⟩, ?_⟩
    · intro root'
      rw [hok]
      constructor
      · rintro ⟨⟩
        exact ⟨hone, hlists⟩
      · rintro ⟨-, hlists'⟩
        rw [hlists.unique hlists']
    · intro error
      constructor
      · intro herror
        rw [hok] at herror
        exact absurd herror (by simp)
      · exact ofEvents_of_failsWith hes
  · refine ⟨?_, ⟨?_, fun hone => absurd hone hnone⟩, ?_⟩
    · intro root
      rw [herror]
      exact ⟨fun h => absurd h (by simp), fun h => absurd h.1 hnone⟩
    · rintro ⟨root, hok⟩
      rw [herror] at hok
      exact absurd hok (by simp)
    · intro error'
      constructor
      · intro herror'
        rw [herror] at herror'
        rwa [← Except.error.inj herror']
      · exact ofEvents_of_failsWith hes

/-- Text and comments outside the root leave no trace, and an empty tag is written as two. -/
example : (Node.ofEvents [.text "s", .startTag "r" [], .text "t", .emptyTag "x" [⟨"k", "v"⟩],
      .instruction, .cdata "u", .endTag "r", .comment "c"]).map Node.events =
    .ok [.startTag "r" [], .text "t", .startTag "x" [⟨"k", "v"⟩], .endTag "x", .cdata "u",
      .endTag "r"] := by
  decide

end XmlLocate
