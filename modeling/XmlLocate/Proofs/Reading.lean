import XmlLocate.Proofs.Nesting
import XmlLocate.Xml.Event

/-!
# What a reader reads

A reader takes a text apart at each `<`: what stands before it is text, what stands behind it begins
with a piece of markup. `Reads` lists the pieces in their places, whatever elements are open.

**Theorem (`reads_of_readFrom`).** A reader that comes to the end of a text has met all its markup, and
the tags among its events are those of the markup.
-/

namespace XmlLocate

/-! ## One step at a time -/

/-- What a reader makes of the markup behind a `<` at an offset, and of all that follows. -/
def readMarkupFrom (trimmed : Bool) (opened : List String) (offset : Nat) (t : List Char) : Reading :=
  match Markup.split t with
  | .error p => .stopped (.xml (.markup p) offset)
  | .ok (m, rest) =>
    match readMarkup opened offset m with
    | .error e => .stopped e
    | .ok (event, opened) =>
      .prepend [event] (readFrom trimmed opened (offset + byteLength m.source) rest)

theorem readFrom_text (trimmed : Bool) (opened : List String) (offset : Nat) {t : List Char}
    (ht : '<' ∉ t) :
    readFrom trimmed opened offset t =
      match readText trimmed opened (offset + byteLength t) t with
      | .error e => .stopped e
      | .ok event => ⟨event.toList, none⟩ := by
  obtain ⟨htake, hdrop⟩ := takeWhile_lt_append ht (.inl (rfl : ([] : List Char) = []))
  rw [List.append_nil] at htake hdrop
  rw [readFrom]
  dsimp only
  rw [htake]
  cases readText trimmed opened (offset + byteLength t) t with
  | error e => rfl
  | ok event =>
    dsimp only
    split
    · simp [Reading.prepend]
    · rename_i h
      rw [hdrop] at h
      exact absurd h (by simp)

theorem readFrom_markup (trimmed : Bool) (opened : List String) (offset : Nat) {u : List Char}
    (hu : '<' ∉ u) (t : List Char) :
    readFrom trimmed opened offset (u ++ '<' :: t) =
      match readText trimmed opened (offset + byteLength u) u with
      | .error e => .stopped e
      | .ok event =>
        .prepend event.toList (readMarkupFrom trimmed opened (offset + byteLength u) t) := by
  obtain ⟨htake, hdrop⟩ := takeWhile_lt_append hu (.inr (⟨t, rfl⟩ : ['<'] <+: '<' :: t))
  rw [readFrom]
  dsimp only
  rw [htake]
  cases readText trimmed opened (offset + byteLength u) u with
  | error e => rfl
  | ok event =>
    dsimp only
    congr 1
    split
    · rename_i h
      rw [hdrop] at h
      exact absurd h (by simp)
    · rename_i c t' h
      rw [hdrop] at h
      obtain ⟨rfl, rfl⟩ := List.cons.inj h
      rw [readMarkupFrom]
      split
      · rename_i p hs
        simp only [hs]
      · rename_i m rest hs
        cases hm : readMarkup opened (offset + byteLength u) m with
        | error e => simp only [hs, hm]
        | ok p => simp only [hs, hm]

/-! ## The markup of a text -/

/-- The pieces of markup that a reader finds in a text, each with the offset at which it begins. The
text itself begins at the first offset. -/
inductive Reads : Nat → List Char → List (Nat × Markup) → Prop
  | nil {offset : Nat} {t : List Char} : '<' ∉ t → Reads offset t []
  | cons {offset : Nat} {u t rest : List Char} {m : Markup} {ms : List (Nat × Markup)} :
      '<' ∉ u → Markup.split t = .ok (m, rest) →
      Reads (offset + byteLength u + byteLength m.source) rest ms →
      Reads offset (u ++ '<' :: t) ((offset + byteLength u, m) :: ms)

/-- A text is split in one way at the first place where a character stands. -/
theorem append_first_inj {c : Char} {u u' t t' : List Char} (hu : c ∉ u) (hu' : c ∉ u')
    (h : u ++ c :: t = u' ++ c :: t') : u = u' ∧ t = t' := by
  have hfirst : FirstAt [c] (u ++ c :: t) u t := firstAt_singleton.mpr ⟨by simp, hu⟩
  have hfirst' : FirstAt [c] (u ++ c :: t) u' t' := firstAt_singleton.mpr ⟨by simp [h], hu'⟩
  exact Earliest.unique (fun _ _ h => h) hfirst hfirst'

theorem Reads.unique {offset : Nat} {t : List Char} {ms ms' : List (Nat × Markup)}
    (h : Reads offset t ms) (h' : Reads offset t ms') : ms' = ms := by
  induction h generalizing ms' with
  | @nil _ t ht =>
    cases h' with
    | nil => rfl
    | cons => simp at ht
  | @cons offset u t rest m ms hu hsplit _ ih =>
    generalize hs : u ++ '<' :: t = s at h'
    cases h' with
    | nil ht =>
      rw [← hs] at ht
      simp at ht
    | cons hu' hsplit' h' =>
      obtain ⟨rfl, rfl⟩ := append_first_inj hu hu' hs
      obtain ⟨rfl, rfl⟩ := Prod.mk.inj (Except.ok.inj (hsplit.symm.trans hsplit'))
      rw [ih h']

/-- Text before the first `<` only moves the markup along. -/
theorem Reads.cons_text {offset : Nat} {c : Char} {t : List Char} {ms : List (Nat × Markup)}
    (hc : c ≠ '<') (h : Reads (offset + c.utf8Size) t ms) : Reads offset (c :: t) ms := by
  generalize hbase : offset + c.utf8Size = base at h
  cases h with
  | nil ht => exact .nil (by simp [ht, hc.symm])
  | @cons _ u t rest m ms hu hsplit h =>
    have hlen : base + byteLength u = offset + byteLength (c :: u) := by
      rw [byteLength_cons, ← hbase, Nat.add_assoc]
    rw [hlen] at h ⊢
    exact .cons (by simp [hu, hc.symm]) hsplit h

/-! ## Tags -/

/-- The name in a tag that begins an element. -/
def Event.tagName? : Event → Option String
  | .startTag name _ | .emptyTag name _ => some name
  | _ => none

namespace Markup

/-- Whether a piece of markup begins an element. -/
def isTag : Markup → Bool
  | startTag _ | emptyTag _ => true
  | _ => false

/-- The name in a tag that begins an element, up to its first blank. -/
def tagName? : Markup → Option String
  | startTag c | emptyTag c => some (String.ofList (c.takeWhile (!isBlank ·)))
  | _ => none

theorem exists_tagName? {m : Markup} (h : m.isTag) : ∃ name, m.tagName? = some name := by
  cases m with
  | startTag c | emptyTag c => exact ⟨_, rfl⟩
  | _ => exact absurd h (by simp [isTag])

end Markup

theorem name_of_readTag {stop : Nat} {c : List Char} {p : String × List Attribute}
    (h : readTag stop c = .ok p) : p.1 = String.ofList (c.takeWhile (!isBlank ·)) := by
  unfold readTag at h
  obtain ⟨attributes, -, h⟩ := bind_eq_ok h
  rw [← Except.ok.inj h]

theorem tagName?_of_readMarkup {opened opened' : List String} {offset : Nat} {m : Markup} {e : Event}
    (h : readMarkup opened offset m = .ok (e, opened')) : e.tagName? = m.tagName? := by
  unfold readMarkup at h
  cases m with
  | startTag c | emptyTag c =>
    obtain ⟨p, hp, h⟩ := bind_eq_ok h
    obtain ⟨rfl, -⟩ := Prod.mk.inj (Except.ok.inj h)
    exact congrArg some (name_of_readTag hp)
  | endTag c =>
    dsimp only at h
    split at h
    · simp at h
    · split at h
      · obtain ⟨rfl, -⟩ := Prod.mk.inj (Except.ok.inj h)
        rfl
      · simp at h
  | comment | cdata | instruction =>
    obtain ⟨rfl, -⟩ := Prod.mk.inj (Except.ok.inj h)
    rfl
  | doctype c =>
    dsimp only at h
    split at h
    · simp at h
    · obtain ⟨rfl, -⟩ := Prod.mk.inj (Except.ok.inj h)
      rfl

theorem tagName?_of_readText {trimmed : Bool} {opened : List String} {stop : Nat} {run : List Char}
    {event : Option Event} (h : readText trimmed opened stop run = .ok event) :
    event.toList.filterMap Event.tagName? = [] := by
  unfold readText at h
  dsimp only at h
  generalize (if trimmed then trim run else run) = run' at h
  split_ifs at h with hnone
  · obtain rfl := Except.ok.inj h
    rfl
  · cases hdata : resolveReferences run' with
    | error e => simp [hdata] at h
    | ok data =>
      simp only [hdata] at h
      obtain rfl := Except.ok.inj h
      rfl

@[simp] theorem Reading.events_prepend (es : List Event) (r : Reading) :
    (r.prepend es).events = es ++ r.events := rfl

@[simp] theorem Reading.failure_prepend (es : List Event) (r : Reading) :
    (r.prepend es).failure = r.failure := rfl

theorem exists_append_lt (t : List Char) : '<' ∉ t ∨ ∃ u v, t = u ++ '<' :: v ∧ '<' ∉ u := by
  by_cases h : '<' ∈ t
  · obtain ⟨u, v, rfl, hu⟩ := List.eq_append_cons_of_mem h
    exact .inr ⟨u, v, rfl, hu⟩
  · exact .inl h

/-- A reader that comes to the end of a text has met all its markup. -/
theorem reads_of_readFrom {trimmed : Bool} {opened : List String} {offset : Nat} {t : List Char}
    (h : (readFrom trimmed opened offset t).failure = none) (base : Nat) :
    ∃ ms, Reads base t ms ∧ (readFrom trimmed opened offset t).events.filterMap Event.tagName? =
      ms.filterMap fun p => p.2.tagName? := by
  induction hn : t.length using Nat.strong_induction_on generalizing opened offset t base with
  | _ n ih =>
    subst hn
    rcases exists_append_lt t with ht | ⟨u, t, rfl, hu⟩
    · rw [readFrom_text _ _ _ ht] at h ⊢
      refine ⟨[], .nil ht, ?_⟩
      cases htext : readText trimmed opened (offset + byteLength t) t with
      | error e => simp [htext, Reading.stopped] at h
      | ok event => exact tagName?_of_readText htext
    · rw [readFrom_markup _ _ _ hu] at h ⊢
      cases htext : readText trimmed opened (offset + byteLength u) u with
      | error e => simp [htext, Reading.stopped] at h
      | ok event =>
        simp only [htext, Reading.failure_prepend, Reading.events_prepend, List.filterMap_append,
          tagName?_of_readText htext, List.nil_append] at h ⊢
        unfold readMarkupFrom at h ⊢
        cases hsplit : Markup.split t with
        | error p => simp [hsplit, Reading.stopped] at h
        | ok p =>
          obtain ⟨m, rest⟩ := p
          simp only [hsplit] at h ⊢
          cases hmarkup : readMarkup opened (offset + byteLength u) m with
          | error e => simp [hmarkup, Reading.stopped] at h
          | ok q =>
            obtain ⟨e, opened'⟩ := q
            simp only [hmarkup, Reading.failure_prepend, Reading.events_prepend] at h ⊢
            have hlt : rest.length < (u ++ '<' :: t).length := by
              have := Markup.length_split hsplit
              simp only [List.length_append, List.length_cons]
              omega
            obtain ⟨ms, hms, hnames⟩ := ih _ hlt h
              (base + byteLength u + byteLength m.source) rfl
            refine ⟨_, .cons hu hsplit hms, ?_⟩
            rw [List.singleton_append, List.filterMap_cons, List.filterMap_cons, hnames,
              tagName?_of_readMarkup hmarkup]

end XmlLocate
