import Mathlib.Tactic
import XmlLocate.Node.Build

/-!
# The depth of events

A start tag goes one level down and an end tag one level up. What can be wrong with the events of a
tree is said here of the depths in a list of events, without a stack: where the depth is above zero
(`inside`), how often it came back to zero (`completed`), and behind which start tag the events are at
one level (`Innermost`).

**Theorem (`Innermost.unique`).** There is at most one such tag.

`OpenNames names es` names all elements that are open after `es`, innermost first. An end tag takes
the first name away (`OpenNames.close`), since what lies between it and the start tag is at one level.
-/

namespace XmlLocate.Event

/-! ## Events that are read one by one -/

/-- What an event is for a tree: an empty tag is two tags, an instruction or a document type is
nothing. -/
def parts : Event → List Event
  | startTag name attributes => [startTag name attributes]
  | emptyTag name attributes => [startTag name attributes, endTag name]
  | endTag name => [endTag name]
  | text d => [text d]
  | cdata d => [cdata d]
  | comment d => [comment d]
  | instruction | doctype => []

/-- Events with an end tag for each empty tag, and without those that have no part in a tree. -/
def plain (es : List Event) : List Event := es.flatMap parts

def IsPlain (e : Event) : Prop := e.parts = [e]

theorem isPlain_of_mem_plain {es : List Event} {e : Event} (h : e ∈ plain es) : e.IsPlain := by
  obtain ⟨e', -, he⟩ := List.mem_flatMap.mp h
  cases e' with
  | emptyTag =>
    simp only [parts, List.mem_cons, List.not_mem_nil, or_false] at he
    rcases he with rfl | rfl
    · rfl
    · rfl
  | instruction | doctype => simp [parts] at he
  | _ =>
    rw [List.mem_singleton.mp he]
    rfl

/-- The event without the name of an end tag, which is the one of the start tag in a tree. -/
def unnamed : Event → Event
  | endTag _ => endTag ""
  | e => e

theorem eq_of_unnamed {e e' : Event} (h : e.unnamed = e'.unnamed) :
    e = e' ∨ ∃ name name', e = endTag name ∧ e' = endTag name' := by
  cases e with
  | endTag name =>
    cases e' with
    | endTag name' => exact .inr ⟨name, name', rfl, rfl⟩
    | _ => exact absurd h (by simp [unnamed])
  | _ =>
    cases e' with
    | endTag name' => exact absurd h (by simp [unnamed])
    | _ => exact .inl h

/-! ## Depth -/

/-- The number of levels that an event goes down. -/
def rise : Event → Int
  | startTag .. => 1
  | endTag _ => -1
  | _ => 0

/-- The number of elements that are open after events. -/
def depth (es : List Event) : Int := (es.map rise).sum

@[simp] theorem depth_nil : depth [] = 0 := rfl

@[simp] theorem depth_cons (e : Event) (es : List Event) : depth (e :: es) = e.rise + depth es := by
  simp [depth]

@[simp] theorem depth_append (es es' : List Event) : depth (es ++ es') = depth es + depth es' := by
  simp [depth]

/-- No end tag lacks a start tag. -/
def StaysAbove (es : List Event) : Prop := ∀ before, before <+: es → 0 ≤ depth before

theorem StaysAbove.nil : StaysAbove [] := by
  intro before hbefore
  rw [List.prefix_nil.mp hbefore, depth_nil]

theorem StaysAbove.left {es es' : List Event} (h : StaysAbove (es ++ es')) : StaysAbove es :=
  fun before hbefore => h before (hbefore.trans (List.prefix_append es es'))

theorem StaysAbove.depth_nonneg {es : List Event} (h : StaysAbove es) : 0 ≤ depth es :=
  h es (List.prefix_refl es)

theorem StaysAbove.append {es es' : List Event} (h : StaysAbove es)
    (h' : ∀ before, before <+: es' → 0 ≤ depth es + depth before) : StaysAbove (es ++ es') := by
  intro before hbefore
  rcases List.prefix_or_prefix_of_prefix hbefore (List.prefix_append es es') with hpre | ⟨rest, rfl⟩
  · exact h before hpre
  · rw [depth_append]
    exact h' rest ((List.prefix_append_right_inj es).mp hbefore)

theorem StaysAbove.concat {es : List Event} (h : StaysAbove es) {e : Event}
    (he : 0 ≤ depth es + e.rise) : StaysAbove (es ++ [e]) := by
  refine h.append ?_
  intro before hbefore
  rcases List.prefix_cons_iff.mp hbefore with rfl | ⟨rest, rfl, hrest⟩
  · simpa using h.depth_nonneg
  · simpa [List.prefix_nil.mp hrest] using he

/-- Events in which each tag of a pair has the other. -/
structure Level (es : List Event) : Prop where
  above : StaysAbove es
  depth : depth es = 0

theorem Level.nil : Level [] := ⟨.nil, rfl⟩

theorem Level.concat {es : List Event} (h : Level es) {e : Event} (he : e.rise = 0) :
    Level (es ++ [e]) := by
  refine ⟨h.above.concat ?_, ?_⟩
  · rw [h.depth, he]
    exact le_rfl
  · simp [h.depth, he]

/-- The events behind a start tag, as long as they are at one level or deeper. -/
theorem StaysAbove.start {before inner : List Event} (h : StaysAbove before)
    (hi : StaysAbove inner) (name : String) (attributes : List Attribute) :
    StaysAbove (before ++ startTag name attributes :: inner) := by
  refine h.append ?_
  intro es hes
  have := h.depth_nonneg
  rcases List.prefix_cons_iff.mp hes with rfl | ⟨rest, rfl, hrest⟩
  · simpa using this
  · have := hi rest hrest
    rw [depth_cons, rise]
    omega

/-- A level with an element behind it. -/
theorem Level.element {before inner : List Event} (h : Level before) (hi : Level inner)
    (name : String) (attributes : List Attribute) (name' : String) :
    Level (before ++ startTag name attributes :: inner ++ [endTag name']) := by
  have hdepth : Event.depth (before ++ startTag name attributes :: inner) = 1 := by
    simp [h.depth, hi.depth, rise]
  refine ⟨(h.above.start hi.above name attributes).concat ?_, ?_⟩
  · rw [hdepth, rise]
    decide
  · rw [depth_append, hdepth]
    rfl

/-! ## The innermost element -/

/-- After the events an element with the name is open, and none within it. -/
def Innermost (name : String) (es : List Event) : Prop :=
  ∃ before attributes inner, es = before ++ startTag name attributes :: inner ∧ Level inner

/-- Of two start tags behind both of which events are at one level, one is not before the other. -/
theorem start_unique {inner inner' rest : List Event} {name name' : String}
    {attributes attributes' : List Attribute} (hi : Level inner) (hi' : Level inner')
    (h : startTag name attributes :: inner = rest ++ startTag name' attributes' :: inner') :
    name = name' := by
  cases rest with
  | nil =>
    simp only [List.nil_append, List.cons.injEq, startTag.injEq] at h
    exact h.1.1
  | cons e rest =>
    rw [List.cons_append] at h
    obtain ⟨-, rfl⟩ := List.cons_eq_cons.mp h
    have hrest := hi.above.left.depth_nonneg
    have hdepth := hi.depth
    rw [depth_append, depth_cons, hi'.depth, rise] at hdepth
    omega

theorem Innermost.unique {es : List Event} {name name' : String} (h : Innermost name es)
    (h' : Innermost name' es) : name = name' := by
  obtain ⟨before, attributes, inner, rfl, hi⟩ := h
  obtain ⟨before', attributes', inner', heq, hi'⟩ := h'
  rcases List.append_eq_append_iff.mp heq with ⟨rest, -, hrest⟩ | ⟨rest, -, hrest⟩
  · exact start_unique hi hi' hrest
  · exact (start_unique hi' hi hrest).symm

theorem Innermost.depth_pos {es : List Event} {name : String} (h : Innermost name es)
    (hes : StaysAbove es) : 0 < depth es := by
  obtain ⟨before, attributes, inner, rfl, hi⟩ := h
  have := hes.left.depth_nonneg
  rw [depth_append, depth_cons, hi.depth, rise]
  omega

/-! ## All open elements -/

/-- The names of the elements that are open after events, innermost first. -/
inductive OpenNames : List String → List Event → Prop
  | level {es : List Event} : Level es → OpenNames [] es
  | start {names : List String} {before inner : List Event} {name : String}
      {attributes : List Attribute} : OpenNames names before → Level inner →
      OpenNames (name :: names) (before ++ startTag name attributes :: inner)

namespace OpenNames

variable {names : List String} {es : List Event}

theorem above (h : OpenNames names es) : StaysAbove es := by
  induction h with
  | level hes => exact hes.above
  | start _ hi ih => exact ih.start hi.above _ _

theorem depth (h : OpenNames names es) : depth es = names.length := by
  induction h with
  | level hes => simpa using hes.depth
  | start _ hi ih =>
    rw [depth_append, depth_cons, hi.depth, ih, rise, List.length_cons]
    omega

theorem innermost {name : String} (h : OpenNames (name :: names) es) : Innermost name es := by
  cases h with
  | start _ hi => exact ⟨_, _, _, rfl, hi⟩

theorem startTag (h : OpenNames names es) (name : String) (attributes : List Attribute) :
    OpenNames (name :: names) (es ++ [.startTag name attributes]) := .start h .nil

theorem concat (h : OpenNames names es) {e : Event} (he : e.rise = 0) :
    OpenNames names (es ++ [e]) := by
  cases h with
  | level hes => exact .level (hes.concat he)
  | start h hi =>
    rw [List.append_assoc, List.cons_append]
    exact .start h (hi.concat he)

/-- An end tag closes the innermost element. -/
theorem endTag {name : String} (h : OpenNames (name :: names) es) (name' : String) :
    OpenNames names (es ++ [.endTag name']) := by
  cases h with
  | @start _ _ _ _ attributes h hi =>
    cases h with
    | level hes => exact .level (hes.element hi name attributes name')
    | start h ho =>
      have helement := ho.element hi name attributes name'
      rw [List.append_assoc, List.cons_append] at helement
      rw [List.append_assoc, List.append_assoc, List.cons_append, List.cons_append]
      exact .start h helement

end OpenNames

/-! ## Top-level elements -/

/-- Each event with the depth before it, from a depth on. -/
def withDepth (d : Int) : List Event → List (Int × Event)
  | [] => []
  | e :: es => (d, e) :: withDepth (d + e.rise) es

theorem withDepth_append (d : Int) (es es' : List Event) :
    withDepth d (es ++ es') = withDepth d es ++ withDepth (d + depth es) es' := by
  induction es generalizing d with
  | nil => simp [withDepth]
  | cons e es ih => simp [withDepth, ih, add_assoc]

/-- The events that lie inside a top-level element, its tags among them. -/
def inside (es : List Event) : List Event :=
  ((withDepth 0 es).filter fun (d, e) => 0 < d ∨ 0 < d + e.rise).map Prod.snd

/-- The number of top-level elements that have ended. -/
def completed (es : List Event) : Nat :=
  (withDepth 0 es).countP fun (d, e) => d = 1 ∧ e.rise = -1

theorem inside_concat (es : List Event) (e : Event) :
    inside (es ++ [e]) =
      inside es ++ if 0 < depth es ∨ 0 < depth es + e.rise then [e] else [] := by
  rw [inside, withDepth_append, zero_add, List.filter_append, List.map_append, ← inside]
  split <;> simp_all [withDepth]

theorem completed_append_le (es es' : List Event) : completed es ≤ completed (es ++ es') := by
  rw [completed, completed, withDepth_append, List.countP_append]
  exact Nat.le_add_right _ _

theorem completed_concat (es : List Event) (e : Event) :
    completed (es ++ [e]) = completed es + if depth es = 1 ∧ e.rise = -1 then 1 else 0 := by
  rw [completed, withDepth_append, zero_add, List.countP_append, ← completed]
  split <;> simp_all [withDepth]

/-- Where nothing is inside an element there are no tags. -/
theorem rise_of_inside_nil {es : List Event} (h : StaysAbove es) (hes : inside es = []) :
    ∀ e ∈ es, e.rise = 0 := by
  induction es using List.reverseRecOn with
  | nil => simp
  | append_singleton es e ih =>
    rw [inside_concat, List.append_eq_nil_iff] at hes
    obtain ⟨hes, hout⟩ := hes
    have habove := h.depth_nonneg
    have hbefore := h.left.depth_nonneg
    have hrise : e.rise = 0 := by
      by_contra hne
      rw [depth_append, depth_cons, depth_nil] at habove
      rw [if_pos (by omega)] at hout
      exact absurd hout (by simp)
    intro e' he'
    rcases List.mem_append.mp he' with he' | he'
    · exact ih h.left hes e' he'
    · rw [List.mem_singleton.mp he', hrise]

/-- Without tags no element is begun. -/
theorem level_of_rise {es : List Event} (h : ∀ e ∈ es, e.rise = 0) :
    Level es ∧ completed es = 0 := by
  induction es using List.reverseRecOn with
  | nil => exact ⟨.nil, rfl⟩
  | append_singleton es e ih =>
    obtain ⟨hlevel, hcompleted⟩ := ih fun e he => h e (List.mem_append_left _ he)
    have he : e.rise = 0 := h e (by simp)
    refine ⟨hlevel.concat he, ?_⟩
    rw [completed_concat, hcompleted, if_neg (by simp [he])]

/-! ## Failures -/

/-- Events that may be the beginning of those of a tree. -/
structure Sound (es : List Event) : Prop where
  above : StaysAbove es
  completed_le : completed es ≤ 1

theorem Sound.left {es es' : List Event} (h : Sound (es ++ es')) : Sound es :=
  ⟨h.above.left, (completed_append_le es es').trans h.completed_le⟩

/-- Events of one element, and of what is outside it. -/
structure OneElement (es : List Event) : Prop where
  level : Level es
  completed_eq : completed es = 1

theorem OneElement.sound {es : List Event} (h : OneElement es) : Sound es :=
  ⟨h.level.above, h.completed_eq.le⟩

/-- What is wrong with events. Of several things it is the first, as those before it are sound. -/
inductive FailsWith : List Event → TreeError → Prop
  | unexpectedEndTag {before behind : List Event} {name : String} : Sound before →
      depth before = 0 → FailsWith (before ++ endTag name :: behind) (.unexpectedEndTag name)
  /-- The end tag completes a second top-level element. -/
  | multipleRoots {before behind : List Event} {name name' : String} : Sound before →
      depth before = 1 → completed before = 1 → Innermost name before →
      FailsWith (before ++ endTag name' :: behind) (.multipleRoots name)
  | unclosedElement {es : List Event} {name : String} : Sound es → Innermost name es →
      FailsWith es (.unclosedElement name)
  | emptyDocument {es : List Event} : (∀ e ∈ es, e.rise = 0) → FailsWith es .emptyDocument

end XmlLocate.Event
